import Dolang.Lib.Binary64Value
import Dolang.Runtime.Arith

/-!
# Ordering numbers

The ordering operators of `value/prim.rs`. An integer denotes itself and a float what `F64.value`
says, and the operators are those of the order of what their operands denote, across the two
types. So NaNs apart, numbers have one total preorder, whose equivalence is `==`.
-/

namespace Dolang.Runtime

namespace Prim

/-- An ordering operator, by what it is on two integers, on two floats, and on one of each. -/
def cmpop (iop : ℤ → ℤ → Bool) (fop : F64 → F64 → Bool) (ifop : Integer → F64 → Bool)
    (fiop : F64 → Integer → Bool) : Prim → Prim → Except OpError Prim
  | .int l, .int r => .ok (.bool (iop l.toInt r.toInt))
  | .f64 l, .f64 r => .ok (.bool (fop l r))
  | .int l, .f64 r => .ok (.bool (ifop l r))
  | .f64 l, .int r => .ok (.bool (fiop l r))
  | .bool l, .bool r =>
    .ok (.bool (iop (Integer.ofBool l).toInt (Integer.ofBool r).toInt))
  | _, _ => .error (.typeError "comparison of non-numeric type")

def opLt : Prim → Prim → Except OpError Prim :=
  cmpop (fun l r => l < r) F64.lt (fun i f => compareIntF64 i f == some .lt)
    (fun f i => compareIntF64 i f == some .gt)

def opLte : Prim → Prim → Except OpError Prim :=
  cmpop (fun l r => l ≤ r) F64.le
    (fun i f => compareIntF64 i f == some .lt || compareIntF64 i f == some .eq)
    (fun f i => compareIntF64 i f == some .gt || compareIntF64 i f == some .eq)

def opGt : Prim → Prim → Except OpError Prim :=
  cmpop (fun l r => l > r) (fun l r => r.lt l) (fun i f => compareIntF64 i f == some .gt)
    (fun f i => compareIntF64 i f == some .lt)

def opGte : Prim → Prim → Except OpError Prim :=
  cmpop (fun l r => l ≥ r) (fun l r => r.le l)
    (fun i f => compareIntF64 i f == some .gt || compareIntF64 i f == some .eq)
    (fun f i => compareIntF64 i f == some .lt || compareIntF64 i f == some .eq)

end Prim

/-! ### Numbers -/

/-- An integer, or a float that is not a NaN. -/
inductive Number where
  | int (i : Integer)
  | f64 (f : F64) (proper : f.isNan = false)

namespace Number

def prim : Number → Prim
  | int i => .int i
  | f64 f _ => .f64 f

/-- What an integer denotes. -/
def ofInteger (i : Integer) : Extended :=
  ((i.toInt : ℚ) : WithTop ℚ)

/-- What a number denotes. -/
def value : Number → Extended
  | int i => ofInteger i
  | f64 f _ => f.value

theorem ofInteger_eq (i : Integer) : ofInteger i = F64.ofScaled (i.toInt * F64.scale) :=
  (F64.ofScaled_mul _).symm

theorem ofInteger_lt {i j : Integer} : ofInteger i < ofInteger j ↔ i.toInt < j.toInt := by
  unfold ofInteger
  rw [WithBot.coe_lt_coe, WithTop.coe_lt_coe, Int.cast_lt]

theorem ofInteger_inj {i j : Integer} : ofInteger i = ofInteger j ↔ i = j := by
  unfold ofInteger
  rw [WithBot.coe_inj, WithTop.coe_inj, Int.cast_inj, BitVec.toInt_inj]

theorem ofInteger_le {i j : Integer} : ofInteger i ≤ ofInteger j ↔ i.toInt ≤ j.toInt := by
  rw [← not_lt, ofInteger_lt, not_lt]

/-- An integer is compared with a float as the number that it is. -/
theorem compareIntF64_exact (i : Integer) {f : F64} (h : f.isNan = false) :
    Prim.compareIntF64 i f = some (compare (ofInteger i) f.value) := by
  cases hinf : f.isInfinite with
  | false =>
    rw [Prim.compareIntF64_eq i h hinf, ofInteger_eq, F64.value_of_finite hinf,
      F64.compare_of_strictMono F64.ofScaled_strictMono]
  | true =>
    rw [Prim.compareIntF64, if_neg (by simp [h]), if_pos hinf, F64.value_of_infinite hinf,
      ofInteger_eq, Option.some_inj]
    cases f.isSignPositive with
    | true => exact (compare_lt_iff_lt.mpr (F64.ofScaled_lt_top _)).symm
    | false => exact (compare_gt_iff_gt.mpr (F64.bot_lt_ofScaled _)).symm

section

variable {i : Integer} {f : F64}

theorem compareIntF64_lt (h : f.isNan = false) :
    (Prim.compareIntF64 i f == some .lt) = true ↔ ofInteger i < f.value := by
  rw [compareIntF64_exact i h, beq_iff_eq, Option.some_inj, compare_lt_iff_lt]

theorem compareIntF64_gt (h : f.isNan = false) :
    (Prim.compareIntF64 i f == some .gt) = true ↔ f.value < ofInteger i := by
  rw [compareIntF64_exact i h, beq_iff_eq, Option.some_inj, compare_gt_iff_gt]

theorem compareIntF64_eqv (h : f.isNan = false) :
    (Prim.compareIntF64 i f == some .eq) = true ↔ ofInteger i = f.value := by
  rw [compareIntF64_exact i h, beq_iff_eq, Option.some_inj, compare_eq_iff_eq]

end

/-- What an operator gives is the truth value of a proposition. -/
def Decides (result : Except OpError Prim) (p : Prop) : Prop :=
  ∃ b, result = .ok (.bool b) ∧ (b = true ↔ p)

theorem opEq_iff (a b : Number) : a.prim.opEq b.prim = true ↔ a.value = b.value := by
  cases a with
  | int i =>
    cases b with
    | int j => exact beq_iff_eq.trans ofInteger_inj.symm
    | f64 g hg => exact compareIntF64_eqv hg
  | f64 f hf =>
    cases b with
    | int j => exact (compareIntF64_eqv hf).trans eq_comm
    | f64 g hg => exact F64.eq_iff hf hg

theorem opLt_decides (a b : Number) : Decides (Prim.opLt a.prim b.prim) (a.value < b.value) := by
  cases a with
  | int i =>
    cases b with
    | int j => exact ⟨_, rfl, decide_eq_true_iff.trans ofInteger_lt.symm⟩
    | f64 g hg => exact ⟨_, rfl, compareIntF64_lt hg⟩
  | f64 f hf =>
    cases b with
    | int j => exact ⟨_, rfl, compareIntF64_gt hf⟩
    | f64 g hg => exact ⟨_, rfl, F64.lt_iff hf hg⟩

theorem opLte_decides (a b : Number) : Decides (Prim.opLte a.prim b.prim) (a.value ≤ b.value) := by
  cases a with
  | int i =>
    cases b with
    | int j => exact ⟨_, rfl, decide_eq_true_iff.trans ofInteger_le.symm⟩
    | f64 g hg =>
      refine ⟨_, rfl, ?_⟩
      rw [Bool.or_eq_true, compareIntF64_lt hg, compareIntF64_eqv hg]
      exact le_iff_lt_or_eq.symm
  | f64 f hf =>
    cases b with
    | int j =>
      refine ⟨_, rfl, ?_⟩
      rw [Bool.or_eq_true, compareIntF64_gt hf, compareIntF64_eqv hf, eq_comm]
      exact le_iff_lt_or_eq.symm
    | f64 g hg => exact ⟨_, rfl, F64.le_iff hf hg⟩

/-- `>` is `<` with its operands exchanged. -/
theorem opGt_eq (a b : Prim) : Prim.opGt a b = Prim.opLt b a := by
  cases a <;> cases b <;> rfl

/-- `>=` is `<=` with its operands exchanged. -/
theorem opGte_eq (a b : Prim) : Prim.opGte a b = Prim.opLte b a := by
  cases a <;> cases b <;> rfl

/-- A relation of which any two elements are related one way or the other. -/
structure TotalPreorder {α : Type} (le : α → α → Prop) : Prop where
  total : ∀ a b, le a b ∨ le b a
  trans : ∀ a b c, le a b → le b c → le a c

/-- Numbers are compared as what they denote: one total preorder decides all of the operators. -/
theorem comparison_exact :
    (∀ (i : Integer) (f : F64), f.isNan = false →
      Prim.compareIntF64 i f = some (compare (ofInteger i) f.value)) ∧
    Equivalence (fun a b : Number => a.prim.opEq b.prim = true) ∧
    ∃ le : Number → Number → Prop, TotalPreorder le ∧ ∀ a b,
      (a.prim.opEq b.prim = true ↔ le a b ∧ le b a) ∧
      Decides (Prim.opLt a.prim b.prim) (le a b ∧ ¬ le b a) ∧
      Decides (Prim.opLte a.prim b.prim) (le a b) ∧
      Decides (Prim.opGt a.prim b.prim) (le b a ∧ ¬ le a b) ∧
      Decides (Prim.opGte a.prim b.prim) (le b a) := by
  refine ⟨fun i f h => compareIntF64_exact i h, ?_, fun a b => a.value ≤ b.value, ?_, ?_⟩
  · constructor
    · exact fun a => (opEq_iff a a).mpr rfl
    · exact fun {a b} h => (opEq_iff b a).mpr ((opEq_iff a b).mp h).symm
    · exact fun {a b c} hab hbc =>
        (opEq_iff a c).mpr (((opEq_iff a b).mp hab).trans ((opEq_iff b c).mp hbc))
  · exact ⟨fun a b => le_total _ _, fun a b c => le_trans⟩
  · intro a b
    refine ⟨?_, ?_, opLte_decides a b, ?_, ?_⟩
    · rw [opEq_iff, le_antisymm_iff]
    · rw [← lt_iff_le_not_ge]
      exact opLt_decides a b
    · rw [← lt_iff_le_not_ge, opGt_eq]
      exact opLt_decides b a
    · rw [opGte_eq]
      exact opLte_decides b a

end Number

end Dolang.Runtime
