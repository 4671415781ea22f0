import Mathlib.Algebra.Order.Ring.Int
import Mathlib.Data.Int.Order.Lemmas
import Mathlib.Tactic.Linarith
import Mathlib.Tactic.Ring

/-!
# Arithmetic progressions

A progression of integers from a start by a step, up to an end if there is one, in the direction of
the step. Its values lie before the end up to some place and no further (`Before.mono`), and are those
in the interval at a whole number of steps from the start (`member_iff`).
-/

namespace Dolang

structure Progression where
  start : ℤ
  step : ℤ
  stop : Option ℤ

namespace Progression

variable {p : Progression} {k : ℕ} {v : ℤ}

def term (p : Progression) (k : ℕ) : ℤ :=
  p.start + k * p.step

/-- A value lies before the end. -/
def BeforeStop (p : Progression) (v : ℤ) : Prop :=
  ∀ e ∈ p.stop, if 0 < p.step then v < e else e < v

def Before (p : Progression) (k : ℕ) : Prop :=
  p.BeforeStop (p.term k)

/-- What is left behind the first value. -/
def tail (p : Progression) : Progression :=
  { p with start := p.start + p.step }

@[simp]
theorem term_zero (p : Progression) : p.term 0 = p.start := by
  simp [term]

theorem term_succ (p : Progression) (k : ℕ) : p.term (k + 1) = p.term k + p.step := by
  unfold term
  push_cast
  ring

@[simp]
theorem term_tail (p : Progression) (k : ℕ) : p.tail.term k = p.term (k + 1) := by
  unfold term tail
  push_cast
  ring

@[simp]
theorem before_tail (p : Progression) (k : ℕ) : p.tail.Before k ↔ p.Before (k + 1) := by
  unfold Before
  rw [term_tail]
  exact Iff.rfl

/-- A value up to another one is before the end when that one is. -/
theorem Before.mono {j : ℕ} (h : p.Before k) (hjk : j ≤ k) : p.Before j := by
  intro e he
  have hk := h e he
  have hcast : (j : ℤ) ≤ k := Int.ofNat_le.mpr hjk
  unfold term at hk ⊢
  split_ifs at hk ⊢ with hstep
  · have hle := Int.mul_le_mul_of_nonneg_right hcast hstep.le
    omega
  · have hle := Int.mul_le_mul_of_nonpos_right hcast (not_lt.mp hstep)
    omega

/-- A value of the progression. -/
def Member (p : Progression) (v : ℤ) : Prop :=
  ∃ k, p.Before k ∧ v = p.term k

/-- A value is not behind the start. -/
def FromStart (p : Progression) (v : ℤ) : Prop :=
  if 0 < p.step then p.start ≤ v else v ≤ p.start

theorem member_iff (hstep : p.step ≠ 0) :
    p.Member v ↔ p.FromStart v ∧ p.BeforeStop v ∧ p.step ∣ v - p.start := by
  constructor
  · rintro ⟨k, hk, rfl⟩
    refine ⟨?_, hk, k, by unfold term; ring⟩
    have hcast : (0 : ℤ) ≤ k := Int.natCast_nonneg k
    unfold FromStart term
    split_ifs with h
    · have := mul_nonneg hcast h.le
      omega
    · have := mul_nonpos_of_nonneg_of_nonpos hcast (not_lt.mp h)
      omega
  · rintro ⟨hfrom, hbefore, c, hc⟩
    have hnonneg : 0 ≤ c := by
      by_contra hneg
      unfold FromStart at hfrom
      split_ifs at hfrom with h
      · have := mul_neg_of_pos_of_neg h (not_le.mp hneg)
        omega
      · have hlt : p.step < 0 := lt_of_le_of_ne (not_lt.mp h) hstep
        have := mul_pos_of_neg_of_neg hlt (not_le.mp hneg)
        omega
    obtain ⟨k, rfl⟩ := Int.eq_ofNat_of_zero_le hnonneg
    have hterm : v = p.term k := by
      unfold term
      linarith
    refine ⟨k, ?_, hterm⟩
    rw [Before, ← hterm]
    exact hbefore

/-! ### Lists of values -/

/-- A list has the values before the end, in order. -/
def Lists (p : Progression) (l : List ℕ) : Prop :=
  ∀ (k i : ℕ), l[k]? = some i ↔ p.Before k ∧ (i : ℤ) = p.term k

theorem Lists.nil (h : ¬ p.Before 0) : p.Lists [] := by
  intro k i
  rw [List.getElem?_nil]
  exact ⟨fun h => (nomatch h), fun ⟨hk, _⟩ => absurd (hk.mono (Nat.zero_le k)) h⟩

theorem Lists.cons {l : List ℕ} {i : ℕ} (h : p.tail.Lists l) (hbefore : p.Before 0)
    (hi : (i : ℤ) = p.start) : p.Lists (i :: l) := by
  intro k j
  cases k with
  | zero =>
    rw [List.getElem?_cons_zero, Option.some_inj, term_zero, ← hi, Nat.cast_inj]
    exact ⟨fun h => ⟨hbefore, h.symm⟩, fun h => h.2.symm⟩
  | succ k => rw [List.getElem?_cons_succ, h k j, before_tail, term_tail]

theorem lists_range' {start stop : ℕ} :
    Lists ⟨start, 1, some stop⟩ (List.range' start (stop - start)) := by
  intro k i
  have hbefore : Before ⟨start, 1, some stop⟩ k ↔ start + k < stop := by
    unfold Before BeforeStop term
    simp only [Option.mem_some_iff, forall_eq', mul_one, one_pos, if_true]
    omega
  have hterm : term ⟨start, 1, some stop⟩ k = (start + k : ℕ) := by
    unfold term
    push_cast
    ring
  rw [hbefore, hterm, Nat.cast_inj]
  by_cases hk : k < stop - start
  · rw [List.getElem?_range' hk, Option.some_inj]
    omega
  · rw [List.getElem?_eq_none (by rw [List.length_range']; omega)]
    exact ⟨fun h => (nomatch h), fun h => by omega⟩

end Progression

end Dolang
