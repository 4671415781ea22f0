import Dolang.Lib.Binary64
import Mathlib.Algebra.Order.Field.Rat
import Mathlib.Data.Int.ConditionallyCompleteOrder
import Mathlib.Data.Rat.Cast.Order
import Mathlib.Order.Compare
import Mathlib.Order.WithBot

/-!
# The numbers that floats denote

A float that is not a NaN denotes a rational number or an infinity, `value`, and the comparisons of
the standard library are those of the values. They are defined on the integers that the finite floats
are over `scale`.
-/

namespace Dolang

/-- The rational numbers with a least and a greatest element. -/
abbrev Extended := WithBot (WithTop ℚ)

namespace F64

/-- The number that a float denotes, if it is not a NaN. -/
def value (f : F64) : Extended :=
  if f.isInfinite then if f.isSignPositive then ⊤ else ⊥
  else ((f.numer / scale : ℚ) : WithTop ℚ)

/-- The end of the finite floats at which an infinity lies. -/
def rank (f : F64) : ℤ :=
  if f.isInfinite then if f.isSignPositive then 1 else -1 else 0

/-- `partial_cmp`: nothing compares with a NaN. -/
def partialCmp (l r : F64) : Option Ordering :=
  if l.isNan ∨ r.isNan then none
  else some ((compare l.rank r.rank).then (compare l.numer r.numer))

def lt (l r : F64) : Bool :=
  l.partialCmp r == some .lt

def le (l r : F64) : Bool :=
  l.partialCmp r == some .lt || l.partialCmp r == some .eq

/-! ### Comparing values -/

/-- A comparison is the one between the images under a strictly monotone function. -/
theorem compare_of_strictMono {α β : Type} [LinearOrder α] [LinearOrder β] {f : α → β}
    (hf : StrictMono f) (a b : α) : compare (f a) (f b) = compare a b := by
  rcases lt_trichotomy a b with hlt | rfl | hgt
  · rw [compare_lt_iff_lt.mpr hlt, compare_lt_iff_lt.mpr (hf hlt)]
  · rw [compare_eq_iff_eq.mpr rfl, compare_eq_iff_eq.mpr rfl]
  · rw [compare_gt_iff_gt.mpr hgt, compare_gt_iff_gt.mpr (hf hgt)]

/-- The rational number that an integer is over `scale`. -/
def ofScaled (n : ℤ) : Extended :=
  ((n / scale : ℚ) : WithTop ℚ)

theorem scale_pos_rat : (0 : ℚ) < scale := by
  exact_mod_cast scale_pos

theorem ofScaled_strictMono : StrictMono ofScaled := by
  intro a b hab
  have hlt : (a / scale : ℚ) < b / scale :=
    div_lt_div_of_pos_right (Int.cast_lt.mpr hab) scale_pos_rat
  exact WithBot.coe_lt_coe.mpr (WithTop.coe_lt_coe.mpr hlt)

theorem ofScaled_mul (n : ℤ) : ofScaled (n * scale) = (((n : ℚ) : WithTop ℚ) : Extended) := by
  have h : ((n * scale : ℤ) / scale : ℚ) = n := by
    rw [Int.cast_mul, Int.cast_natCast, mul_div_cancel_right₀ _ scale_pos_rat.ne']
  rw [ofScaled, h]

theorem value_of_finite {f : F64} (h : f.isInfinite = false) : f.value = ofScaled f.numer := by
  rw [value, if_neg (by simp [h]), ofScaled]

theorem value_of_infinite {f : F64} (h : f.isInfinite = true) :
    f.value = if f.isSignPositive then ⊤ else ⊥ := by
  rw [value, if_pos h]

theorem ofScaled_lt_top (n : ℤ) : ofScaled n < ⊤ :=
  WithBot.coe_lt_coe.mpr (WithTop.coe_lt_top _)

theorem bot_lt_ofScaled (n : ℤ) : ⊥ < ofScaled n :=
  WithBot.bot_lt_coe _

/-- Two infinities of one sign are the same. -/
theorem eq_of_infinite {l r : F64} (hl : l.isInfinite = true) (hr : r.isInfinite = true)
    (h : l.isSignPositive = r.isSignPositive) : l = r := by
  simp only [isInfinite, decide_eq_true_eq] at hl hr
  exact ext_fields h (hl.1.trans hr.1.symm) (hl.2.trans hr.2.symm)

/-- The comparison of floats is that of the numbers they denote. -/
theorem partialCmp_eq {l r : F64} (hl : l.isNan = false) (hr : r.isNan = false) :
    l.partialCmp r = some (compare l.value r.value) := by
  rw [partialCmp, if_neg (by simp [hl, hr]), Option.some_inj]
  cases hli : l.isInfinite with
  | false =>
    have hrank : l.rank = 0 := by rw [rank, if_neg (by simp [hli])]
    rw [value_of_finite hli, hrank]
    cases hri : r.isInfinite with
    | false =>
      have hrank' : r.rank = 0 := by rw [rank, if_neg (by simp [hri])]
      rw [value_of_finite hri, hrank', compare_of_strictMono ofScaled_strictMono]
      rfl
    | true =>
      rw [value_of_infinite hri, rank, if_pos hri]
      cases r.isSignPositive with
      | true => exact (compare_lt_iff_lt.mpr (ofScaled_lt_top _)).symm
      | false => exact (compare_gt_iff_gt.mpr (bot_lt_ofScaled _)).symm
  | true =>
    rw [value_of_infinite hli, show l.rank = if l.isSignPositive then 1 else -1 by
      rw [rank, if_pos hli]]
    cases hri : r.isInfinite with
    | false =>
      have hrank' : r.rank = 0 := by rw [rank, if_neg (by simp [hri])]
      rw [value_of_finite hri, hrank']
      cases l.isSignPositive with
      | true => exact (compare_gt_iff_gt.mpr (ofScaled_lt_top _)).symm
      | false => exact (compare_lt_iff_lt.mpr (bot_lt_ofScaled _)).symm
    | true =>
      rw [value_of_infinite hri, show r.rank = if r.isSignPositive then 1 else -1 by
        rw [rank, if_pos hri]]
      by_cases hsign : l.isSignPositive = r.isSignPositive
      · obtain rfl := eq_of_infinite hli hri hsign
        rw [compare_eq_iff_eq.mpr rfl, compare_eq_iff_eq.mpr rfl, compare_eq_iff_eq.mpr rfl]
        rfl
      · cases hl : l.isSignPositive <;> cases hr : r.isSignPositive
        case false.false => exact absurd (hl.trans hr.symm) hsign
        case false.true =>
          exact (compare_lt_iff_lt.mpr (WithBot.bot_lt_coe (⊤ : WithTop ℚ))).symm
        case true.false =>
          exact (compare_gt_iff_gt.mpr (WithBot.bot_lt_coe (⊤ : WithTop ℚ))).symm
        case true.true => exact absurd (hl.trans hr.symm) hsign

theorem lt_iff {l r : F64} (hl : l.isNan = false) (hr : r.isNan = false) :
    l.lt r = true ↔ l.value < r.value := by
  rw [lt, partialCmp_eq hl hr, beq_iff_eq, Option.some_inj, compare_lt_iff_lt]

theorem le_iff {l r : F64} (hl : l.isNan = false) (hr : r.isNan = false) :
    l.le r = true ↔ l.value ≤ r.value := by
  rw [le, partialCmp_eq hl hr, Bool.or_eq_true, beq_iff_eq, beq_iff_eq, Option.some_inj,
    Option.some_inj, compare_lt_iff_lt, compare_eq_iff_eq, le_iff_lt_or_eq]

/-- Floats that are not NaNs are equal when they denote the same. -/
theorem eq_iff {l r : F64} (hl : l.isNan = false) (hr : r.isNan = false) :
    l.eq r = true ↔ l.value = r.value := by
  have hne : ∀ f : F64, f.isInfinite = true → ∀ n, f.value ≠ ofScaled n := by
    intro f hf n
    rw [value_of_infinite hf]
    split_ifs
    · exact (ofScaled_lt_top n).ne'
    · exact (bot_lt_ofScaled n).ne
  rw [eq, if_neg (by simp [hl, hr])]
  cases hli : l.isInfinite with
  | false =>
    rw [value_of_finite hli]
    cases hri : r.isInfinite with
    | false =>
      rw [if_neg (by simp), value_of_finite hri, decide_eq_true_eq,
        ofScaled_strictMono.injective.eq_iff]
    | true =>
      rw [if_pos (by simp), decide_eq_true_eq]
      exact ⟨fun h => absurd (h ▸ hri) (by simp [hli]), fun h => absurd h.symm (hne r hri _)⟩
  | true =>
    rw [if_pos (by simp), decide_eq_true_eq]
    refine ⟨fun h => h ▸ rfl, fun h => ?_⟩
    cases hri : r.isInfinite with
    | false => exact absurd (h.trans (value_of_finite hri)) (hne l hli _)
    | true =>
      refine eq_of_infinite hli hri ?_
      rw [value_of_infinite hli, value_of_infinite hri] at h
      cases hl : l.isSignPositive <;> cases hr : r.isSignPositive <;> simp [hl, hr] at h ⊢

end F64

end Dolang
