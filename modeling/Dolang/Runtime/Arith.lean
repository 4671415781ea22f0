import Dolang.Lib.Signed
import Dolang.Runtime.Prim

/-!
# Operators of primitive values

The binary operators of `value/prim.rs`, forward and reversed. Integers have 128 bits and are computed
on exactly, with an error where the result does not fit. The arithmetic of floats is a parameter.

Euclidean division and its remainder share one primitive each for two failures, a zero divisor and a
quotient that does not fit, and report both as a zero divisor. So `opEdiv` and `opMod` are right
everywhere but at the one pair of integers whose quotient does not fit (`division_laws_iff`).
-/

namespace Dolang.Runtime

open Signed

/-- The errors of operators, with their messages. -/
inductive OpError where
  | unsupported (what : String)
  | typeError (msg : String)
  | value (msg : String)
  | index
  | overflow
  | zeroDiv
  deriving DecidableEq, Repr

/-- The arithmetic of double-precision floats, and the casts between them and integers. -/
structure Floats where
  /-- `i as f64`. -/
  ofInt : Integer → F64
  /-- `f as i128`. -/
  toInt : F64 → Integer
  add : F64 → F64 → F64
  sub : F64 → F64 → F64
  mul : F64 → F64 → F64
  div : F64 → F64 → F64
  divEuclid : F64 → F64 → F64
  remEuclid : F64 → F64 → F64
  deriving Inhabited

/-- A result, or the error for there being none. -/
def orError {α : Type} (e : OpError) : Option α → Except OpError α
  | some a => .ok a
  | none => .error e

@[simp]
theorem OpError.ok_bind {α β : Type} (a : α) (f : α → Except OpError β) :
    (Except.ok a >>= f) = f a := rfl

@[simp]
theorem OpError.error_bind {α β : Type} (e : OpError) (f : α → Except OpError β) :
    (Except.error e >>= f) = .error e := rfl

theorem OpError.bind_eq_ok {α β : Type} {m : Except OpError α} {f : α → Except OpError β} {b : β} :
    (m >>= f) = .ok b ↔ ∃ a, m = .ok a ∧ f a = .ok b := by
  cases m with
  | ok a => exact ⟨fun h => ⟨a, rfl, h⟩, fun ⟨a', ha, h⟩ => Except.ok.inj ha ▸ h⟩
  | error e => exact ⟨fun h => (nomatch h), fun ⟨_, h, _⟩ => (nomatch h)⟩

theorem orError_eq_ok {α : Type} {e : OpError} {m : Option α} {a : α} :
    orError e m = .ok a ↔ m = some a := by
  cases m <;> simp [orError]

/-! ### Checked integers -/

namespace Integer

def checkedAdd (a b : Integer) : Option Integer :=
  checked 128 (a.toInt + b.toInt)

def checkedSub (a b : Integer) : Option Integer :=
  checked 128 (a.toInt - b.toInt)

def checkedMul (a b : Integer) : Option Integer :=
  checked 128 (a.toInt * b.toInt)

/-- There is no result for a zero divisor, nor where the quotient does not fit. -/
def checkedDivEuclid (a b : Integer) : Option Integer :=
  if b = 0 then none else checked 128 (a.toInt / b.toInt)

/-- There is no result where the division has none. -/
def checkedRemEuclid (a b : Integer) : Option Integer :=
  if (checkedDivEuclid a b).isNone then none else checked 128 (a.toInt % b.toInt)

/-- `b as i128`. -/
def ofBool (b : Bool) : Integer :=
  if b then 1 else 0

end Integer

namespace Prim

/-! ### Bits and shifts -/

/-- An operator on the bits of integers and on booleans, which count as 0 and 1 next to integers. -/
def bitop (iop : Integer → Integer → Integer) (bop : Bool → Bool → Bool) (msg : String) :
    Prim → Prim → Except OpError Prim
  | .int a, .int b => .ok (.int (iop a b))
  | .bool a, .bool b => .ok (.bool (bop a b))
  | .int a, .bool b => .ok (.int (iop a (Integer.ofBool b)))
  | .bool a, .int b => .ok (.int (iop (Integer.ofBool a) b))
  | _, _ => .error (.typeError msg)

def opBand : Prim → Prim → Except OpError Prim :=
  bitop (· &&& ·) and "bitwise and of non-integer, non-boolean"

def opBor : Prim → Prim → Except OpError Prim :=
  bitop (· ||| ·) or "bitwise or of non-integer, non-boolean"

def opBxor : Prim → Prim → Except OpError Prim :=
  bitop (· ^^^ ·) xor "bitwise xor of non-integer, non-boolean"

/-- A shift. The count is looked at first. -/
def shift (op : Integer → ℕ → Integer) (side : String) (value count : Prim) :
    Except OpError Prim := do
  let count ← match count with
    | .int v =>
      if 0 ≤ v.toInt ∧ v.toInt < 128 then .ok v.toInt.toNat else .error .overflow
    | _ => .error (.typeError (side ++ " shift by non-integer"))
  match value with
  | .int v => .ok (.int (op v count))
  | _ => .error (.typeError (side ++ " shift of non-integer"))

def opShl : Prim → Prim → Except OpError Prim :=
  shift (fun v count => v <<< count) "left"

def opShr : Prim → Prim → Except OpError Prim :=
  shift (fun v count => v.sshiftRight count) "right"

/-! ### Arithmetic -/

section Arithmetic

variable (F : Floats)

/-- An integer, or the error for there being none. -/
def intOr (e : OpError) (v : Option Integer) : Except OpError Prim :=
  (orError e v).map .int

/-- An operator on numbers. An integer next to a float is made a float. -/
def numeric (iop : Integer → Integer → Except OpError Prim) (fop : F64 → F64 → Prim)
    (msg : String) : Prim → Prim → Except OpError Prim
  | .int a, .int b => iop a b
  | .f64 a, .f64 b => .ok (fop a b)
  | .int a, .f64 b => .ok (fop (F.ofInt a) b)
  | .f64 a, .int b => .ok (fop a (F.ofInt b))
  | _, _ => .error (.typeError msg)

def opAdd : Prim → Prim → Except OpError Prim :=
  numeric F (fun a b => intOr .overflow (Integer.checkedAdd a b)) (fun a b => .f64 (F.add a b))
    "addition of non-numeric type"

def opSub : Prim → Prim → Except OpError Prim :=
  numeric F (fun a b => intOr .overflow (Integer.checkedSub a b)) (fun a b => .f64 (F.sub a b))
    "subtraction of non-numeric type"

def opMul : Prim → Prim → Except OpError Prim :=
  numeric F (fun a b => intOr .overflow (Integer.checkedMul a b)) (fun a b => .f64 (F.mul a b))
    "multiplication of non-numeric type"

def opEdiv : Prim → Prim → Except OpError Prim :=
  numeric F (fun a b => intOr .zeroDiv (Integer.checkedDivEuclid a b))
    (fun a b => .int (F.toInt (F.divEuclid a b))) "Euclidean division of non-numeric type"

def opDiv : Prim → Prim → Except OpError Prim :=
  numeric F
    (fun a b => if b = 0 then .error .zeroDiv else .ok (.f64 (F.div (F.ofInt a) (F.ofInt b))))
    (fun a b => .f64 (F.div a b)) "division of non-numeric type"

def opMod : Prim → Prim → Except OpError Prim :=
  numeric F (fun a b => intOr .zeroDiv (Integer.checkedRemEuclid a b))
    (fun a b => .f64 (F.remEuclid a b)) "Euclidean remainder of non-numeric type"

/-! Reversed operators: `other op self`. -/

def opRsub : Prim → Prim → Except OpError Prim :=
  numeric F (fun a b => intOr .overflow (Integer.checkedSub b a)) (fun a b => .f64 (F.sub b a))
    "subtraction of non-numeric type"

def opRdiv : Prim → Prim → Except OpError Prim :=
  numeric F
    (fun a b => if a = 0 then .error .zeroDiv else .ok (.f64 (F.div (F.ofInt b) (F.ofInt a))))
    (fun a b => .f64 (F.div b a)) "division of non-numeric type"

def opRediv : Prim → Prim → Except OpError Prim :=
  numeric F (fun a b => intOr .zeroDiv (Integer.checkedDivEuclid b a))
    (fun a b => .int (F.toInt (F.divEuclid b a))) "Euclidean division of non-numeric type"

def opRmod : Prim → Prim → Except OpError Prim :=
  numeric F (fun a b => intOr .zeroDiv (Integer.checkedRemEuclid b a))
    (fun a b => .f64 (F.remEuclid b a)) "Euclidean remainder of non-numeric type"

/-- A numeric operator with its operands exchanged is the numeric operator of the exchanged
operations. -/
theorem numeric_swap {iop iop' : Integer → Integer → Except OpError Prim}
    {fop fop' : F64 → F64 → Prim} (hi : ∀ a b, iop' a b = iop b a) (hf : ∀ a b, fop' a b = fop b a)
    (msg : String) (a b : Prim) : numeric F iop' fop' msg a b = numeric F iop fop msg b a := by
  cases a <;> cases b <;> simp only [numeric, hi, hf]

theorem opRsub_eq (a b : Prim) : opRsub F a b = opSub F b a :=
  numeric_swap F (fun _ _ => rfl) (fun _ _ => rfl) _ a b

theorem opRdiv_eq (a b : Prim) : opRdiv F a b = opDiv F b a :=
  numeric_swap F (fun _ _ => rfl) (fun _ _ => rfl) _ a b

theorem opRediv_eq (a b : Prim) : opRediv F a b = opEdiv F b a :=
  numeric_swap F (fun _ _ => rfl) (fun _ _ => rfl) _ a b

theorem opRmod_eq (a b : Prim) : opRmod F a b = opMod F b a :=
  numeric_swap F (fun _ _ => rfl) (fun _ _ => rfl) _ a b

end Arithmetic

end Prim

/-! ### Division -/

/-- The bounds of an integer, as numerals. -/
theorem Integer.fits_iff {n : ℤ} : Fits 128 n ↔ -2 ^ 127 ≤ n ∧ n < 2 ^ 127 :=
  Signed.fits_iff (by norm_num)

/-- The one quotient that does not fit is that of the least integer by `-1`. -/
theorem quotient_fits_iff {a b : Integer} (hb : b ≠ 0) :
    Fits 128 (a.toInt / b.toInt) ↔ ¬ (a = BitVec.intMin 128 ∧ b = -1) := by
  have hmin : (BitVec.intMin 128).toInt = -2 ^ 127 := by decide
  have hone : (-1 : Integer).toInt = -1 := by decide
  have hb0 : b.toInt ≠ 0 := fun h => hb (BitVec.eq_of_toInt_eq h)
  have ha := Prim.toInt_bounds a
  have habs := Int.natAbs_ediv_le_natAbs a.toInt b.toInt
  have hdiv := Int.mul_ediv_add_emod a.toInt b.toInt
  have hnonneg := Int.emod_nonneg a.toInt hb0
  have hlt : a.toInt % b.toInt < b.toInt.natAbs := Int.abs_eq_natAbs _ ▸ Int.emod_lt_abs _ hb0
  rw [Integer.fits_iff, ← BitVec.toInt_inj, ← BitVec.toInt_inj, hmin, hone]
  constructor
  · rintro ⟨-, h⟩ ⟨ha', hb'⟩
    rw [ha', hb'] at h
    omega
  · intro h
    by_cases hq : a.toInt / b.toInt = 2 ^ 127
    · -- then the dividend has the least value, and the remainder is below the divisor
      rw [hq] at hdiv habs
      omega
    · omega

theorem remainder_fits {a b : Integer} (hb : b ≠ 0) : Fits 128 (a.toInt % b.toInt) := by
  have hb0 : b.toInt ≠ 0 := fun h => hb (BitVec.eq_of_toInt_eq h)
  have hbounds := Prim.toInt_bounds b
  have hnonneg := Int.emod_nonneg a.toInt hb0
  have hlt : a.toInt % b.toInt < b.toInt.natAbs := Int.abs_eq_natAbs _ ▸ Int.emod_lt_abs _ hb0
  rw [Integer.fits_iff]
  omega

/-- Where the quotient fits, both operations give their results. -/
theorem division_of_fits (F : Floats) {a b : Integer} (hb : b ≠ 0)
    (hfits : Fits 128 (a.toInt / b.toInt)) :
    ∃ q r : Integer, Prim.opEdiv F (.int a) (.int b) = .ok (.int q) ∧
      Prim.opMod F (.int a) (.int b) = .ok (.int r) ∧ q.toInt = a.toInt / b.toInt ∧
      r.toInt = a.toInt % b.toInt := by
  obtain ⟨q, hq⟩ := hfits
  obtain ⟨r, hr⟩ := remainder_fits (a := a) hb
  have hdiv : Integer.checkedDivEuclid a b = some q := by
    rw [Integer.checkedDivEuclid, if_neg hb, checked_eq_some.mpr hq]
  have hrem : Integer.checkedRemEuclid a b = some r := by
    rw [Integer.checkedRemEuclid, hdiv, if_neg (by simp), checked_eq_some.mpr hr]
  refine ⟨q, r, ?_, ?_, hq, hr⟩
  · rw [Prim.opEdiv, Prim.numeric, hdiv]
    rfl
  · rw [Prim.opMod, Prim.numeric, hrem]
    rfl

/-- Where there is no quotient, both operations report a zero divisor. -/
theorem division_of_none (F : Floats) {a b : Integer}
    (h : Integer.checkedDivEuclid a b = none) :
    Prim.opEdiv F (.int a) (.int b) = .error .zeroDiv ∧
      Prim.opMod F (.int a) (.int b) = .error .zeroDiv := by
  constructor
  · rw [Prim.opEdiv, Prim.numeric, h]
    rfl
  · rw [Prim.opMod, Prim.numeric, Integer.checkedRemEuclid, h, if_pos Option.isNone_none]
    rfl

/-- What is expected of the division of two integers. -/
structure DivisionLaws (F : Floats) (a b : Integer) : Prop where
  ediv_zero : Prim.opEdiv F (.int a) (.int b) = .error .zeroDiv ↔ b = 0
  mod_zero : Prim.opMod F (.int a) (.int b) = .error .zeroDiv ↔ b = 0
  /-- Results are the Euclidean quotient and remainder. -/
  exact : ∀ q r, Prim.opEdiv F (.int a) (.int b) = .ok q → Prim.opMod F (.int a) (.int b) = .ok r →
    ∃ q' r' : Integer, q = .int q' ∧ r = .int r' ∧
      a.toInt = q'.toInt * b.toInt + r'.toInt ∧ 0 ≤ r'.toInt ∧ r'.toInt < |b.toInt|
  mod_returns : b ≠ 0 → ∃ r, Prim.opMod F (.int a) (.int b) = .ok r
  /-- Other than for a zero divisor, a division fails with an overflow, and only where no integer
  of 128 bits is the quotient. -/
  ediv_fails : b ≠ 0 → ∀ e, Prim.opEdiv F (.int a) (.int b) = .error e → e = .overflow ∧
    ∀ q r : ℤ, a.toInt = q * b.toInt + r → 0 ≤ r → r < |b.toInt| → ¬ Fits 128 q
  rediv : Prim.opRediv F (.int b) (.int a) = Prim.opEdiv F (.int a) (.int b)
  rmod : Prim.opRmod F (.int b) (.int a) = Prim.opMod F (.int a) (.int b)

/-- The division of two integers is as expected but for the least integer divided by `-1`. -/
theorem division_laws_iff (F : Floats) (a b : Integer) :
    DivisionLaws F a b ↔ ¬ (a = BitVec.intMin 128 ∧ b = -1) := by
  constructor
  · rintro laws ⟨rfl, rfl⟩
    have h : Integer.checkedDivEuclid (BitVec.intMin 128) (-1) = none := by decide
    exact absurd (laws.ediv_zero.mp (division_of_none F h).1) (by decide)
  · intro h
    by_cases hb : b = 0
    · have hnone : Integer.checkedDivEuclid a b = none := by
        rw [Integer.checkedDivEuclid, if_pos hb]
      obtain ⟨hdiv, hmod⟩ := division_of_none F hnone
      constructor
      case ediv_zero => exact ⟨fun _ => hb, fun _ => hdiv⟩
      case mod_zero => exact ⟨fun _ => hb, fun _ => hmod⟩
      case exact => simp [hdiv]
      case mod_returns => exact fun hb' => absurd hb hb'
      case ediv_fails => exact fun hb' => absurd hb hb'
      case rediv => exact Prim.opRediv_eq F _ _
      case rmod => exact Prim.opRmod_eq F _ _
    · obtain ⟨q, r, hdiv, hmod, hq, hr⟩ := division_of_fits F hb ((quotient_fits_iff hb).mpr h)
      have hb0 : b.toInt ≠ 0 := fun h => hb (BitVec.eq_of_toInt_eq h)
      constructor
      case ediv_zero => exact ⟨fun h => by simp [hdiv] at h, fun h => absurd h hb⟩
      case mod_zero => exact ⟨fun h => by simp [hmod] at h, fun h => absurd h hb⟩
      case exact =>
        intro q' r' hq' hr'
        rw [hdiv] at hq'
        rw [hmod] at hr'
        refine ⟨q, r, (Except.ok.inj hq').symm, (Except.ok.inj hr').symm, ?_, ?_, ?_⟩
        · rw [hq, hr, Int.ediv_mul_add_emod]
        · exact hr ▸ Int.emod_nonneg _ hb0
        · exact hr ▸ Int.emod_lt_abs _ hb0
      case mod_returns => exact fun _ => ⟨_, hmod⟩
      case ediv_fails => simp [hdiv]
      case rediv => exact Prim.opRediv_eq F _ _
      case rmod => exact Prim.opRmod_eq F _ _

/-- Both operations take the divisor `-1` of the least integer for a zero divisor. -/
theorem min_ediv_neg_one : ¬ DivisionLaws default (BitVec.intMin 128) (-1) := by
  intro laws
  have hdiv : Prim.opEdiv default (.int (BitVec.intMin 128)) (.int (-1)) = .error .zeroDiv := by
    decide
  exact absurd (laws.ediv_zero.mp hdiv) (by decide)

end Dolang.Runtime
