import Dolang.Runtime.Range

/-!
# Ranges are progressions

What iteration, membership and slicing of a range of integers have to do with its progression.
Iterating fails with an overflow where the value after the one to be yielded does not fit, and before
the first value where the step from the start does not. Membership fails where the distance from the
start does not fit. A slice fails where the index behind its last one does not fit, where its step is
no `i64`, and for an empty sequence in reverse, and the end `-1` of a descending slice does not count
from the end. Elsewhere all three describe the progression.
-/

namespace Dolang.Runtime

open Signed OpError

namespace Range

/-- The progression that a range of integers describes. -/
def progression (r : Range Integer) : Progression where
  start := (r.start.getD 0).toInt
  step := (r.step.getD 1).toInt
  stop := r.stop.map BitVec.toInt

/-- The step is not zero. -/
def Proper (r : Range Integer) : Prop := r.step ≠ some 0

variable {r : Range Integer}

theorem Proper.step_ne (h : r.Proper) : r.progression.step ≠ 0 := by
  unfold progression
  dsimp only
  cases hs : r.step with
  | none => decide
  | some d =>
    intro h0
    exact h (hs.trans (congrArg some (BitVec.eq_of_toInt_eq (y := 0) h0)))

/-! ### Directions -/

theorem add_of_fits {a b : Integer} (h : Fits 128 (a.toInt + b.toInt)) :
    ∃ c : Integer, Ops.int.add a b = .ok c ∧ c.toInt = a.toInt + b.toInt := by
  obtain ⟨c, hc⟩ := h
  exact ⟨c, by rw [Ops.int_add, checked_eq_some.mpr hc, orError], hc⟩

theorem add_of_not_fits {a b : Integer} (h : ¬ Fits 128 (a.toInt + b.toInt)) :
    Ops.int.add a b = .error .overflow := by
  rw [Ops.int_add, checked_eq_none.mpr h, orError]

/-- The step from the start does not overflow, or is not looked at. -/
def Steps (r : Range Integer) : Prop :=
  r.step ≠ none → Fits 128 (r.progression.term 1)

/-- The step's sign is found out by a step from the start. -/
theorem ascending_eq (hr : r.Proper) (hsteps : r.Steps) :
    ascending Ops.int (r.start.getD 0) r.step = .ok (decide (0 < r.progression.step)) := by
  have hne := hr.step_ne
  unfold Steps at hsteps
  rw [Progression.term_succ, Progression.term_zero] at hsteps
  unfold progression at hsteps hne ⊢
  cases hs : r.step with
  | none => rfl
  | some d =>
    simp only [hs, Option.getD_some, ne_eq, reduceCtorEq, not_false_eq_true, true_imp_iff]
      at hsteps hne ⊢
    obtain ⟨next, hadd, hnext⟩ := add_of_fits hsteps
    rw [ascending, hadd, ok_bind, Ops.int_gt, ok_bind]
    by_cases hpos : 0 < d.toInt
    · rw [if_pos (by rw [decide_eq_true_eq]; omega), decide_eq_true hpos]
      rfl
    · rw [if_neg (by rw [decide_eq_true_eq]; omega), Ops.int_lt, ok_bind,
        if_pos (by rw [decide_eq_true_eq]; omega), decide_eq_false hpos]
      rfl

theorem direction_overflow (hsteps : ¬ r.Steps) :
    direction Ops.int (r.start.getD 0) r.stop r.step = .error .overflow := by
  obtain ⟨hne, hfits⟩ := Classical.not_imp.mp hsteps
  obtain ⟨d, hd⟩ := Option.ne_none_iff_exists'.mp hne
  rw [Progression.term_succ, Progression.term_zero] at hfits
  simp only [progression, hd, Option.getD_some] at hfits
  rw [direction, hd, ascending, add_of_not_fits hfits]
  rfl

/-- What a direction says of a progression. -/
def Direction.Describes (p : Progression) : Direction → Prop
  | .empty => ¬ p.Before 0
  | .increasing => 0 < p.step ∧ p.stop ≠ none
  | .decreasing => ¬ 0 < p.step ∧ p.stop ≠ none
  | .unbounded => p.stop = none

theorem progression_stop (r : Range Integer) :
    r.progression.stop = r.stop.map BitVec.toInt := rfl

/-- The direction is found unless the step from the start overflows. -/
theorem direction_eq (hr : r.Proper) (hsteps : r.Steps) :
    ∃ d, direction Ops.int (r.start.getD 0) r.stop r.step =
        .ok (decide (0 < r.progression.step), d) ∧ Direction.Describes r.progression d := by
  have hstart : (r.start.getD 0).toInt = r.progression.start := rfl
  rw [direction, ascending_eq hr hsteps, ok_bind]
  cases hstop : r.stop with
  | none => exact ⟨.unbounded, rfl, by rw [Direction.Describes, progression_stop, hstop]; rfl⟩
  | some e =>
    have hsome : r.progression.stop = some e.toInt := by rw [progression_stop, hstop]; rfl
    have hbefore : r.progression.Before 0 ↔
        if 0 < r.progression.step then r.progression.start < e.toInt
        else e.toInt < r.progression.start := by
      rw [Progression.Before, Progression.term_zero, Progression.BeforeStop, hsome]
      simp only [Option.mem_some_iff, forall_eq']
    dsimp only
    by_cases hpos : 0 < r.progression.step
    · rw [if_pos (decide_eq_true hpos), Ops.int_lt, ok_bind, hstart]
      rw [if_pos hpos] at hbefore
      refine ⟨_, rfl, ?_⟩
      split_ifs with hlt
      · exact ⟨hpos, by rw [hsome]; exact Option.some_ne_none _⟩
      · exact fun h => hlt (decide_eq_true (hbefore.mp h))
    · rw [if_neg (by simpa using hpos), Ops.int_gt, ok_bind, hstart]
      rw [if_neg hpos] at hbefore
      refine ⟨_, rfl, ?_⟩
      split_ifs with hlt
      · exact ⟨hpos, by rw [hsome]; exact Option.some_ne_none _⟩
      · exact fun h => hlt (decide_eq_true (hbefore.mp h))

/-! ### Iteration -/

/-- An iterator that has the values of a progression before it. -/
structure Follows (it : Iter Integer) (p : Progression) : Prop where
  cur : it.cur.toInt = p.start
  step : it.step.toInt = p.step
  stop : it.stop.map BitVec.toInt = p.stop
  direction : Direction.Describes p it.direction

variable {it : Iter Integer} {p : Progression} {k : ℕ} {v : Integer}

theorem opIter_eq (hr : r.Proper) (hsteps : r.Steps) :
    ∃ it, opIter Ops.int r = .ok it ∧ Follows it r.progression := by
  obtain ⟨d, hd, hdescribes⟩ := direction_eq hr hsteps
  refine ⟨⟨r.start.getD 0, r.step.getD 1, r.stop, d⟩, ?_, rfl, rfl, rfl, hdescribes⟩
  rw [opIter, Ops.int_zero, hd, ok_bind]
  rfl

theorem opIter_overflow (hsteps : ¬ r.Steps) : opIter Ops.int r = .error .overflow := by
  rw [opIter, Ops.int_zero, direction_overflow hsteps, error_bind]

/-- The comparison with the end finds out whether the first value lies before it. -/
theorem Follows.hasNext_eq (h : Follows it p) :
    (p.Before 0 → hasNext Ops.int it = .ok true) ∧
    (¬ p.Before 0 → hasNext Ops.int it = .ok false) := by
  obtain ⟨hcur, hstep, hstop, hdir⟩ := h
  have hbefore : p.Before 0 ↔
      ∀ e ∈ p.stop, if 0 < p.step then p.start < e else e < p.start := by
    rw [Progression.Before, Progression.term_zero]
    rfl
  rw [hasNext]
  cases hd : it.direction with
  | empty =>
    rw [hd] at hdir
    exact ⟨fun h => absurd h hdir, fun _ => rfl⟩
  | unbounded =>
    rw [hd] at hdir
    refine ⟨fun _ => rfl, fun h => absurd (hbefore.mpr ?_) h⟩
    rw [show p.stop = none from hdir]
    simp
  | increasing =>
    rw [hd] at hdir
    obtain ⟨hpos, hne⟩ := hdir
    cases hs : it.stop with
    | none => exact absurd (hstop.symm.trans (by rw [hs]; rfl)) hne
    | some e =>
      rw [hbefore, ← hstop, hs, ← hcur]
      simp only [withStop, Ops.int_lt, Option.map_some, Option.mem_some_iff, forall_eq', if_pos hpos]
      exact ⟨fun h => by rw [decide_eq_true h], fun h => by rw [decide_eq_false h]⟩
  | decreasing =>
    rw [hd] at hdir
    obtain ⟨hpos, hne⟩ := hdir
    cases hs : it.stop with
    | none => exact absurd (hstop.symm.trans (by rw [hs]; rfl)) hne
    | some e =>
      rw [hbefore, ← hstop, hs, ← hcur]
      simp only [withStop, Ops.int_gt, Option.map_some, Option.mem_some_iff, forall_eq', if_neg hpos]
      exact ⟨fun h => by rw [decide_eq_true h], fun h => by rw [decide_eq_false h]⟩

theorem Follows.opNext_none (h : Follows it p) (hbefore : ¬ p.Before 0) :
    opNext Ops.int it = .ok (none, it) := by
  rw [opNext, h.hasNext_eq.2 hbefore]
  rfl

/-- What direction describes a progression describes what is left of it. -/
theorem Direction.Describes.tail {d : Direction} (h : Direction.Describes p d)
    (hbefore : p.Before 0) : Direction.Describes p.tail d := by
  cases d with
  | empty => exact absurd hbefore h
  | increasing => exact h
  | decreasing => exact h
  | unbounded => exact h

theorem Follows.opNext_some (h : Follows it p) (hbefore : p.Before 0) (hfits : Fits 128 (p.term 1)) :
    ∃ it', opNext Ops.int it = .ok (some it.cur, it') ∧ Follows it' p.tail := by
  rw [Progression.term_succ, Progression.term_zero, ← h.cur, ← h.step] at hfits
  obtain ⟨next, hadd, hnext⟩ := add_of_fits hfits
  refine ⟨{ it with cur := next }, ?_, ?_, h.step, h.stop, h.direction.tail hbefore⟩
  · rw [opNext, h.hasNext_eq.1 hbefore, ok_bind, if_pos rfl, hadd]
    rfl
  · rw [hnext, h.cur, h.step]
    rfl

/-- The value behind the next one is computed before the next one is yielded. -/
theorem Follows.opNext_overflow (h : Follows it p) (hbefore : p.Before 0)
    (hfits : ¬ Fits 128 (p.term 1)) : opNext Ops.int it = .error .overflow := by
  rw [Progression.term_succ, Progression.term_zero, ← h.cur, ← h.step] at hfits
  rw [opNext, h.hasNext_eq.1 hbefore, ok_bind, if_pos rfl, add_of_not_fits hfits]
  rfl

/-- The values between two that fit fit. -/
theorem fits_term_of_le {i j : ℕ} (hstart : Fits 128 p.start) (hj : Fits 128 (p.term j))
    (hij : i ≤ j) : Fits 128 (p.term i) := by
  have hcast : (i : ℤ) ≤ j := Int.ofNat_le.mpr hij
  have hi : (0 : ℤ) ≤ i := Int.natCast_nonneg i
  unfold Progression.term at hj ⊢
  rcases le_total 0 p.step with hpos | hneg
  · have hle := Int.mul_le_mul_of_nonneg_right hcast hpos
    have hge := mul_nonneg hi hpos
    exact Fits.of_between (by decide) hstart hj (by omega) (by omega)
  · have hle := Int.mul_le_mul_of_nonpos_right hcast hneg
    have hge := mul_nonpos_of_nonneg_of_nonpos hi hneg
    exact Fits.of_between (by decide) hj hstart (by omega) (by omega)

/-- The values that iteration yields are those before the end whose successor fits. -/
theorem Follows.nth_eq_some_iff (h : Follows it p) :
    nth Ops.int it k = .ok (some v) ↔
      p.Before k ∧ v.toInt = p.term k ∧ Fits 128 (p.term (k + 1)) := by
  have hstart : Fits 128 p.start := h.cur ▸ toInt_fits it.cur
  induction k generalizing it p with
  | zero =>
    rw [nth]
    by_cases hbefore : p.Before 0
    · by_cases hfits : Fits 128 (p.term 1)
      · obtain ⟨it', hnext, -⟩ := h.opNext_some hbefore hfits
        rw [hnext, Progression.term_zero, ← h.cur]
        constructor
        · intro heq
          obtain rfl : it.cur = v := Option.some.inj (Except.ok.inj heq)
          exact ⟨hbefore, rfl, hfits⟩
        · rintro ⟨-, hv, -⟩
          rw [BitVec.eq_of_toInt_eq hv]
          rfl
      · rw [h.opNext_overflow hbefore hfits]
        exact ⟨fun heq => (nomatch heq), fun ⟨_, _, hf⟩ => absurd hf hfits⟩
    · rw [h.opNext_none hbefore]
      exact ⟨fun heq => (nomatch heq), fun ⟨hb, _⟩ => absurd hb hbefore⟩
  | succ k ih =>
    rw [nth]
    by_cases hbefore : p.Before 0
    · by_cases hfits : Fits 128 (p.term 1)
      · obtain ⟨it', hnext, hfollows⟩ := h.opNext_some hbefore hfits
        rw [hnext]
        dsimp only
        refine (ih hfollows (hfollows.cur ▸ toInt_fits it'.cur)).trans ?_
        rw [Progression.before_tail, Progression.term_tail, Progression.term_tail]
      · rw [h.opNext_overflow hbefore hfits]
        dsimp only
        refine (ih h hstart).trans ?_
        have hnot : ∀ j, ¬ Fits 128 (p.term (j + 1)) := fun j hj =>
          hfits (fits_term_of_le hstart hj (by omega))
        exact ⟨fun ⟨_, _, hf⟩ => absurd hf (hnot k), fun ⟨_, _, hf⟩ => absurd hf (hnot (k + 1))⟩
    · rw [h.opNext_none hbefore]
      dsimp only
      refine (ih h hstart).trans ?_
      have hnot : ∀ j, ¬ p.Before j := fun j hj => hbefore (hj.mono (by omega))
      exact ⟨fun ⟨hb, _⟩ => absurd hb (hnot k), fun ⟨hb, _⟩ => absurd hb (hnot (k + 1))⟩

/-- Iteration ends behind the last value before the end, if no successor overflows. -/
theorem Follows.nth_eq_none_iff (h : Follows it p) :
    nth Ops.int it k = .ok none ↔
      ¬ p.Before k ∧ ∀ j, p.Before j → Fits 128 (p.term (j + 1)) := by
  have hstart : Fits 128 p.start := h.cur ▸ toInt_fits it.cur
  induction k generalizing it p with
  | zero =>
    rw [nth]
    by_cases hbefore : p.Before 0
    · refine ⟨fun heq => ?_, fun ⟨hb, _⟩ => absurd hbefore hb⟩
      by_cases hfits : Fits 128 (p.term 1)
      · obtain ⟨it', hnext, -⟩ := h.opNext_some hbefore hfits
        rw [hnext] at heq
        nomatch heq
      · rw [h.opNext_overflow hbefore hfits] at heq
        nomatch heq
    · rw [h.opNext_none hbefore]
      exact ⟨fun _ => ⟨hbefore, fun j hj => absurd (hj.mono (by omega)) hbefore⟩, fun _ => rfl⟩
  | succ k ih =>
    rw [nth]
    by_cases hbefore : p.Before 0
    · by_cases hfits : Fits 128 (p.term 1)
      · obtain ⟨it', hnext, hfollows⟩ := h.opNext_some hbefore hfits
        rw [hnext]
        dsimp only
        refine (ih hfollows (hfollows.cur ▸ toInt_fits it'.cur)).trans ?_
        rw [Progression.before_tail]
        refine and_congr_right fun _ => ⟨fun hall j hj => ?_, fun hall j hj => ?_⟩
        · cases j with
          | zero => exact hfits
          | succ j => exact Progression.term_tail p _ ▸ hall j (Progression.before_tail p j |>.mpr hj)
        · rw [Progression.term_tail]
          exact hall (j + 1) (Progression.before_tail p j |>.mp hj)
      · rw [h.opNext_overflow hbefore hfits]
        dsimp only
        refine (ih h hstart).trans ?_
        exact ⟨fun ⟨_, hall⟩ => absurd (hall 0 hbefore) hfits,
          fun ⟨_, hall⟩ => absurd (hall 0 hbefore) hfits⟩
    · rw [h.opNext_none hbefore]
      dsimp only
      refine (ih h hstart).trans ?_
      have hnot : ∀ j, ¬ p.Before j := fun j hj => hbefore (hj.mono (by omega))
      exact ⟨fun _ => ⟨hnot (k + 1), fun j hj => absurd hj (hnot j)⟩,
        fun _ => ⟨hnot k, fun j hj => absurd hj (hnot j)⟩⟩

/-- Iterating over a range yields a value. -/
def Yields (r : Range Integer) (v : Integer) : Prop :=
  ∃ it k, opIter Ops.int r = .ok it ∧ nth Ops.int it k = .ok (some v)

theorem yields_iff (hr : r.Proper) :
    r.Yields v ↔ r.Steps ∧ r.progression.Member v.toInt ∧
      Fits 128 (v.toInt + r.progression.step) := by
  by_cases hsteps : r.Steps
  · obtain ⟨it, hit, hfollows⟩ := opIter_eq hr hsteps
    constructor
    · rintro ⟨it', k, hit', hnth⟩
      obtain rfl : it = it' := Except.ok.inj (hit.symm.trans hit')
      obtain ⟨hbefore, hv, hfits⟩ := hfollows.nth_eq_some_iff.mp hnth
      rw [Progression.term_succ, ← hv] at hfits
      exact ⟨hsteps, ⟨k, hbefore, hv⟩, hfits⟩
    · rintro ⟨-, ⟨k, hbefore, hv⟩, hfits⟩
      refine ⟨it, k, hit, hfollows.nth_eq_some_iff.mpr ⟨hbefore, hv, ?_⟩⟩
      rw [Progression.term_succ, ← hv]
      exact hfits
  · refine ⟨?_, fun ⟨h, _⟩ => absurd h hsteps⟩
    rintro ⟨it, k, hit, -⟩
    rw [opIter_overflow hsteps] at hit
    nomatch hit

/-! ### Membership -/

/-- The comparisons find out whether a value lies between the start and the end. -/
theorem inBounds_eq {d : Direction} (h : Direction.Describes r.progression d) :
    inBounds Ops.int (r.start.getD 0) r.stop (decide (0 < r.progression.step)) v d =
      .ok true ∧ (r.progression.FromStart v.toInt ∧ r.progression.BeforeStop v.toInt) ∨
    inBounds Ops.int (r.start.getD 0) r.stop (decide (0 < r.progression.step)) v d =
      .ok false ∧ ¬ (r.progression.FromStart v.toInt ∧ r.progression.BeforeStop v.toInt) := by
  have hstart : (r.start.getD 0).toInt = r.progression.start := rfl
  have hfrom : r.progression.FromStart v.toInt ↔ if 0 < r.progression.step
      then r.progression.start ≤ v.toInt else v.toInt ≤ r.progression.start := Iff.rfl
  have hstop : r.progression.BeforeStop v.toInt ↔ ∀ e ∈ r.progression.stop,
      if 0 < r.progression.step then v.toInt < e else e < v.toInt := Iff.rfl
  cases d with
  | empty =>
    refine .inr ⟨rfl, fun ⟨hf, hs⟩ => h fun e he => ?_⟩
    have hv := hs e he
    rw [hfrom] at hf
    rw [Progression.term_zero]
    split_ifs at hf hv ⊢ <;> omega
  | increasing =>
    obtain ⟨hpos, hne⟩ := h
    cases hs : r.stop with
    | none => exact absurd (by rw [progression_stop, hs]; rfl) hne
    | some e =>
      rw [hfrom, hstop, progression_stop, hs]
      simp only [inBounds, withStop, Ops.int_lte, Ops.int_lt, ok_bind, hstart, if_pos hpos,
        Option.map_some, Option.mem_some_iff, forall_eq', decide_eq_true_eq]
      by_cases hlow : r.progression.start ≤ v.toInt
      · by_cases hhigh : v.toInt < e.toInt <;> simp [hlow, hhigh]
      · right
        simp only [if_neg hlow]
        exact ⟨rfl, fun hb => hlow hb.1⟩
  | decreasing =>
    obtain ⟨hpos, hne⟩ := h
    cases hs : r.stop with
    | none => exact absurd (by rw [progression_stop, hs]; rfl) hne
    | some e =>
      rw [hfrom, hstop, progression_stop, hs]
      simp only [inBounds, withStop, Ops.int_lte, Ops.int_lt, ok_bind, hstart, if_neg hpos,
        Option.map_some, Option.mem_some_iff, forall_eq', decide_eq_true_eq]
      by_cases hlow : e.toInt < v.toInt
      · by_cases hhigh : v.toInt ≤ r.progression.start <;> simp [hlow, hhigh]
      · right
        simp only [if_neg hlow]
        exact ⟨rfl, fun hb => hlow hb.2⟩
  | unbounded =>
    rw [hfrom, hstop, show r.progression.stop = none from h]
    simp only [inBounds, Ops.int_lte, hstart, decide_eq_true_eq, Option.not_mem_none,
      false_imp_iff, implies_true, and_true]
    split_ifs with hpos
    · by_cases hv : r.progression.start ≤ v.toInt <;> simp [hv]
    · by_cases hv : v.toInt ≤ r.progression.start <;> simp [hv]

/-- A distance that an integer holds and that has a remainder by the step. -/
def Measurable (distance step : ℤ) : Prop :=
  Fits 128 distance ∧ ¬ (step = -1 ∧ distance = -2 ^ 127)

theorem mod_of_fits {a b : Integer} (hb : b ≠ 0) (h : Fits 128 (a.toInt / b.toInt)) :
    ∃ c : Integer, Ops.int.mod a b = .ok c ∧ c.toInt = a.toInt % b.toInt := by
  obtain ⟨q, hq⟩ := h
  obtain ⟨c, hc⟩ := remainder_fits (a := a) hb
  refine ⟨c, ?_, hc⟩
  simp only [Ops.int, Integer.checkedRemEuclid, Integer.checkedDivEuclid, if_neg hb,
    checked_eq_some.mpr hq, Option.isNone_some, Bool.false_eq_true, if_false,
    checked_eq_some.mpr hc, orError]

theorem mod_of_not_fits {a b : Integer} (hb : b ≠ 0) (h : ¬ Fits 128 (a.toInt / b.toInt)) :
    Ops.int.mod a b = .error .zeroDiv := by
  simp only [Ops.int, Integer.checkedRemEuclid, Integer.checkedDivEuclid, if_neg hb,
    checked_eq_none.mpr h, Option.isNone_none, if_true, orError]

/-- The test for a whole number of steps from the start. -/
theorem whole_steps_iff {start d : Integer} (hd : d.toInt ≠ 0) :
    (do let zero ← Ops.int.sub d d
        let distance ← Ops.int.sub v start
        let rest ← Ops.int.mod distance d
        Ops.int.eq rest zero) = .ok true ↔
      Measurable (v.toInt - start.toInt) d.toInt ∧ d.toInt ∣ v.toInt - start.toInt := by
  have hzero : Ops.int.sub d d = .ok 0 := by
    rw [Ops.int_sub, sub_self, checked_eq_some.mpr (show (0 : Integer).toInt = 0 from rfl)]
    rfl
  have hmin : (BitVec.intMin 128).toInt = -2 ^ 127 := by decide
  have hone : (-1 : Integer).toInt = -1 := by decide
  have hd0 : d ≠ 0 := fun h => hd (h ▸ rfl)
  rw [hzero, ok_bind, Ops.int_sub]
  by_cases hfits : Fits 128 (v.toInt - start.toInt)
  · obtain ⟨distance, hdistance⟩ := id hfits
    rw [checked_eq_some.mpr hdistance, orError, ok_bind]
    by_cases hq : Fits 128 (distance.toInt / d.toInt)
    · obtain ⟨rest, hmod, hrest⟩ := mod_of_fits hd0 hq
      have hdvd : rest = 0 ↔ d.toInt ∣ v.toInt - start.toInt := by
        rw [← BitVec.toInt_inj, hrest, hdistance, Int.dvd_iff_emod_eq_zero]
        rfl
      rw [quotient_fits_iff hd0, ← BitVec.toInt_inj, ← BitVec.toInt_inj, hmin, hone,
        hdistance] at hq
      rw [hmod, ok_bind, Measurable, ← hdvd]
      change Except.ok (rest == 0) = Except.ok true ↔ _
      rw [Except.ok.injEq, beq_iff_eq]
      exact ⟨fun h => ⟨⟨hfits, fun hboth => hq ⟨hboth.2, hboth.1⟩⟩, h⟩, fun h => h.2⟩
    · rw [mod_of_not_fits hd0 hq, error_bind]
      rw [quotient_fits_iff hd0, not_not, ← BitVec.toInt_inj, ← BitVec.toInt_inj, hmin, hone,
        hdistance] at hq
      exact ⟨fun h => (by cases h), fun h => absurd ⟨hq.2, hq.1⟩ h.1.2⟩
  · rw [checked_eq_none.mpr hfits, orError, error_bind]
    exact ⟨fun h => (by cases h), fun h => absurd h.1.1 hfits⟩

/-- Membership in a range with a step asks for one that does not overflow, and for a distance from
the start that an integer holds and that can be divided by the step. -/
theorem contains_iff (hr : r.Proper) (hstep : r.step ≠ none) :
    contains Ops.int r v = .ok true ↔
      r.Steps ∧ r.progression.Member v.toInt ∧
        Measurable (v.toInt - r.progression.start) r.progression.step := by
  by_cases hsteps : r.Steps
  · obtain ⟨d, hd⟩ := Option.ne_none_iff_exists'.mp hstep
    obtain ⟨direction, hdir, hdescribes⟩ := direction_eq hr hsteps
    have hne := hr.step_ne
    have hstepInt : r.progression.step = d.toInt := by rw [progression, hd]; rfl
    rw [contains, Ops.int_zero, hdir, ok_bind]
    dsimp only
    rw [Progression.member_iff hne]
    rcases inBounds_eq (v := v) hdescribes with ⟨hin, hbounds⟩ | ⟨hin, hbounds⟩
    · rw [hin, ok_bind, hd]
      dsimp only
      rw [if_pos rfl, whole_steps_iff (hstepInt ▸ hne), hstepInt]
      exact ⟨fun h => ⟨hsteps, ⟨hbounds.1, hbounds.2, h.2⟩, h.1⟩, fun h => ⟨h.2.2, h.2.1.2.2⟩⟩
    · rw [hin, ok_bind, hd]
      dsimp only
      rw [if_neg Bool.false_ne_true]
      exact ⟨fun h => (nomatch h), fun h => absurd ⟨h.2.1.1, h.2.1.2.1⟩ hbounds⟩
  · rw [contains, Ops.int_zero, direction_overflow hsteps, error_bind]
    exact ⟨fun h => (nomatch h), fun h => absurd h.1 hsteps⟩

end Range

end Dolang.Runtime
