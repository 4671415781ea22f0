import Mathlib.Algebra.Order.Ring.Int
import Mathlib.Algebra.Order.Group.Unbundled.Int
import Mathlib.Data.Int.Order.Lemmas
import Mathlib.Tactic.Linarith
import Mathlib.Tactic.NormNum

/-!
# Binary64 bit patterns

Double-precision floats as their bit patterns, with the operations of the standard library that
compare and truncate them. A finite float denotes the integer `numer` over `scale`, which is `2^1074`,
so that no rational arithmetic is needed: `f` denotes the integer `i` when `f.numer = i * scale`.
-/

namespace Dolang

/-- A double-precision float. -/
structure F64 where
  bits : BitVec 64
  deriving DecidableEq, Repr, Inhabited

namespace F64

/-- The biased exponent. -/
def exponent (f : F64) : ℕ :=
  ((f.bits >>> 52) &&& 0x7ff).toNat

def mantissa (f : F64) : ℕ :=
  (f.bits &&& ((1 <<< 52) - 1)).toNat

def isSignPositive (f : F64) : Bool :=
  !f.bits.msb

def isNan (f : F64) : Bool :=
  f.exponent = 0x7ff ∧ f.mantissa ≠ 0

def isInfinite (f : F64) : Bool :=
  f.exponent = 0x7ff ∧ f.mantissa = 0

/-- The denominator of every finite float. -/
def scale : ℕ := 2 ^ 1074

/-- The magnitude of a finite float, over `scale`. -/
def magnitude (f : F64) : ℕ :=
  if f.exponent = 0 then f.mantissa else (2 ^ 52 + f.mantissa) * 2 ^ (f.exponent - 1)

/-- A finite float, over `scale`. -/
def numer (f : F64) : ℤ :=
  if f.isSignPositive then f.magnitude else -f.magnitude

/-- `==`: the numbers are the same, whatever the bits. -/
def eq (l r : F64) : Bool :=
  if l.isNan ∨ r.isNan then false
  else if l.isInfinite ∨ r.isInfinite then l = r
  else l.numer = r.numer

/-- The value of `f.trunc()`. -/
def trunc (f : F64) : ℤ :=
  f.numer.tdiv scale

/-- The value of `f.floor()`. -/
def floor (f : F64) : ℤ :=
  f.numer / scale

/-- A float with an integral value as an `i128`, which saturates. -/
def toI128 (value : ℤ) : ℤ :=
  max (-2 ^ 127) (min value (2 ^ 127 - 1))

/-- The canonical NaN, `f64::NAN`. -/
def nan : F64 := ⟨0x7ff8000000000000⟩

/-! ### Fields -/

theorem exponent_eq (f : F64) : f.exponent = f.bits.toNat / 2 ^ 52 % 2 ^ 11 := by
  unfold exponent
  rw [BitVec.toNat_and, BitVec.toNat_ushiftRight, Nat.shiftRight_eq_div_pow]
  exact Nat.and_two_pow_sub_one_eq_mod _ 11

theorem mantissa_eq (f : F64) : f.mantissa = f.bits.toNat % 2 ^ 52 := by
  unfold mantissa
  rw [BitVec.toNat_and]
  exact Nat.and_two_pow_sub_one_eq_mod _ 52

theorem isSignPositive_iff (f : F64) : f.isSignPositive = true ↔ f.bits.toNat < 2 ^ 63 := by
  unfold isSignPositive
  rw [BitVec.msb_eq_decide]
  simp

theorem exponent_lt (f : F64) : f.exponent < 2 ^ 11 := by
  rw [exponent_eq]
  exact Nat.mod_lt _ (by norm_num)

theorem mantissa_lt (f : F64) : f.mantissa < 2 ^ 52 := by
  rw [mantissa_eq]
  exact Nat.mod_lt _ (by norm_num)

/-- A float is its sign, its exponent and its mantissa. -/
theorem ext_fields {l r : F64} (hs : l.isSignPositive = r.isSignPositive)
    (he : l.exponent = r.exponent) (hm : l.mantissa = r.mantissa) : l = r := by
  obtain ⟨l⟩ := l
  obtain ⟨r⟩ := r
  rw [exponent_eq, exponent_eq] at he
  rw [mantissa_eq, mantissa_eq] at hm
  rw [Bool.eq_iff_iff, isSignPositive_iff, isSignPositive_iff] at hs
  have hl := l.isLt
  have hr := r.isLt
  congr 1
  apply BitVec.eq_of_toNat_eq
  dsimp only at he hm hs
  omega

/-- The magnitude of a normal float, between two powers of two. -/
theorem magnitude_bounds {f : F64} (h : f.exponent ≠ 0) :
    2 ^ (f.exponent + 51) ≤ f.magnitude ∧ f.magnitude < 2 ^ (f.exponent + 52) := by
  obtain ⟨e, he⟩ : ∃ e, f.exponent = e + 1 := ⟨f.exponent - 1, by omega⟩
  have hm := f.mantissa_lt
  have hpos : 0 < 2 ^ e := Nat.two_pow_pos e
  have hlow : 2 ^ (e + 1 + 51) = 2 ^ 52 * 2 ^ e := by
    rw [show e + 1 + 51 = 52 + e by omega, Nat.pow_add]
  have hhigh : 2 ^ (e + 1 + 52) = 2 ^ 53 * 2 ^ e := by
    rw [show e + 1 + 52 = 53 + e by omega, Nat.pow_add]
  unfold magnitude
  rw [if_neg h, he, hlow, hhigh, Nat.add_sub_cancel]
  constructor
  · exact Nat.mul_le_mul_right _ (Nat.le_add_right _ _)
  · exact Nat.mul_lt_mul_of_pos_right (by omega) hpos

theorem magnitude_lt (f : F64) : f.magnitude < 2 ^ (f.exponent + 52) := by
  by_cases h : f.exponent = 0
  · have hm := f.mantissa_lt
    unfold magnitude
    rw [if_pos h, h]
    exact hm
  · exact (magnitude_bounds h).2

/-- The magnitude gives the exponent and the mantissa. -/
theorem exponent_of_magnitude {l r : F64} (h : l.magnitude = r.magnitude) :
    l.exponent = r.exponent := by
  have hlt : ∀ a b : F64, a.exponent < b.exponent → a.magnitude < b.magnitude := by
    intro a b hab
    calc a.magnitude < 2 ^ (a.exponent + 52) := a.magnitude_lt
      _ ≤ 2 ^ (b.exponent + 51) := Nat.pow_le_pow_right (by norm_num) (by omega)
      _ ≤ b.magnitude := (magnitude_bounds (by omega)).1
  rcases Nat.lt_trichotomy l.exponent r.exponent with hlr | heq | hrl
  · exact absurd h (hlt l r hlr).ne
  · exact heq
  · exact absurd h (hlt r l hrl).ne'

theorem mantissa_of_magnitude {l r : F64} (h : l.magnitude = r.magnitude) :
    l.mantissa = r.mantissa := by
  have he := exponent_of_magnitude h
  unfold magnitude at h
  rw [he] at h
  split_ifs at h
  · exact h
  · have := Nat.eq_of_mul_eq_mul_right (Nat.two_pow_pos _) h
    omega

/-- Two finite floats that denote the same number other than zero are the same. -/
theorem eq_of_numer {l r : F64} (h : l.numer = r.numer) (h0 : l.numer ≠ 0) : l = r := by
  have hmag : l.magnitude = r.magnitude ∧ l.isSignPositive = r.isSignPositive := by
    unfold numer at h h0
    cases hl : l.isSignPositive <;> cases hr : r.isSignPositive <;> simp only [hl, hr] at h h0 ⊢ <;>
      simp at h h0 ⊢ <;> omega
  exact ext_fields hmag.2 (exponent_of_magnitude hmag.1) (mantissa_of_magnitude hmag.1)

theorem scale_pos : (0 : ℤ) < scale := by
  unfold scale
  positivity

/-- The magnitude of a number, and so the number, in terms of `scale`. -/
theorem pow_eq_mul_scale {k : ℕ} : 2 ^ (k + 1074) = 2 ^ k * scale :=
  pow_add 2 k 1074

end F64

end Dolang
