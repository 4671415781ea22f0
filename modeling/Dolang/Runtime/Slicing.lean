import Dolang.Runtime.RangeLaws

/-!
# Slices are progressions of indices

What slicing a sequence by a range of integers has to do with the progression of indices between the
range's bounds. A negative bound counts from the end. An upwards slice fails where the index behind
its last one does not fit, and a downwards one of the empty sequence always; a step that is no `i64`
fails too. The end `-1` of a downwards slice does not count from the end: it is the place before the
first element, which the missing end is as well.
-/

namespace Dolang.Runtime

open Signed OpError

namespace Range

/-- The length of a sequence, which an `isize` holds. -/
abbrev Length := {n : ℕ // n < 2 ^ 63}

/-- A bound, counted from the end of the sequence if it is negative. -/
def resolve (n : ℕ) (b : ℤ) : ℤ :=
  if b < 0 then n + b else b

/-- A bound that is given, or else a default. -/
def resolveOr (n : ℕ) (default : ℤ) (bound : Option Integer) : ℤ :=
  bound.elim default fun b => resolve n b.toInt

/-- The indices that a range describes in a sequence of a length. -/
def indices (r : Range Integer) (n : ℕ) : Progression where
  start := resolveOr n (if 0 < r.progression.step then 0 else n - 1) r.start
  step := r.progression.step
  stop := some (resolveOr n (if 0 < r.progression.step then n else -1) r.stop)

/-- A bound is in range if it is missing or is the place of an element, or of the end in an upwards
slice. -/
def BoundInRange (upwards : Bool) (n : ℕ) (bound : Option Integer) : Prop :=
  ∀ b ∈ bound, 0 ≤ resolve n b.toInt ∧ resolve n b.toInt < n + upwards.toNat

def InRange (r : Range Integer) (n : ℕ) : Prop :=
  BoundInRange (0 < r.progression.step) n r.start ∧ BoundInRange (0 < r.progression.step) n r.stop

variable {r : Range Integer} {x : Option Integer} {n : ℕ}

/-! ### Bounds -/

theorem i64_eq_some {a b : ℤ} : i64 a = some b ↔ (-2 ^ 63 ≤ a ∧ a < 2 ^ 63) ∧ b = a := by
  unfold i64
  split_ifs with h
  · exact ⟨fun heq => ⟨h, (Option.some.inj heq).symm⟩, fun heq => by rw [heq.2]⟩
  · exact ⟨fun heq => (nomatch heq), fun heq => absurd heq.1 h⟩

theorem bound_eq_ok {default i : ℤ} :
    bound Ops.int default x = .ok i ↔
      (∀ b ∈ x, -2 ^ 63 ≤ b.toInt ∧ b.toInt < 2 ^ 63) ∧ i = x.elim default BitVec.toInt := by
  cases x with
  | none => simp [bound, eq_comm]
  | some b =>
    rw [bound, Ops.int_toI64, orError_eq_ok, i64_eq_some]
    simp

theorem position_eq_some {b : ℤ} {j : ℕ} :
    position n b = some j ↔ (0 ≤ resolve n b ∧ resolve n b ≤ n) ∧ (j : ℤ) = resolve n b := by
  unfold position resolve
  split_ifs <;> simp <;> omega

/-- A bound of an upwards slice. -/
theorem position_bound {default : ℤ} {j : ℕ} (hn : n < 2 ^ 63)
    (hdefault : 0 ≤ default ∧ default ≤ n) :
    (∃ b, bound Ops.int default x = .ok b ∧ position n b = some j) ↔
      BoundInRange true n x ∧ (j : ℤ) = resolveOr n default x := by
  simp only [bound_eq_ok, position_eq_some, BoundInRange, resolveOr, Bool.toNat_true]
  cases x with
  | none =>
    have hself : resolve n default = default := if_neg (not_lt.mpr hdefault.1)
    simp [hself, hdefault]
  | some b =>
    simp only [Option.mem_some_iff, forall_eq', Option.elim_some]
    constructor
    · rintro ⟨_, ⟨-, rfl⟩, hpos, hj⟩
      exact ⟨⟨hpos.1, Int.lt_add_one_of_le hpos.2⟩, hj⟩
    · rintro ⟨hin, hj⟩
      refine ⟨b.toInt, ⟨?_, rfl⟩, ⟨hin.1, Int.le_of_lt_add_one hin.2⟩, hj⟩
      unfold resolve at hin
      split_ifs at hin <;> omega

theorem reverseIndex_eq_some {b j : ℤ} (hb : -2 ^ 63 ≤ b) (hn : n < 2 ^ 63) :
    reverseIndex n b = some j ↔ (0 ≤ resolve n b ∧ resolve n b < n) ∧ j = resolve n b := by
  have hi64 : b < 0 → i64 (n + b) = some (n + b) := fun h => i64_eq_some.mpr ⟨by omega, rfl⟩
  unfold reverseIndex resolve
  by_cases hneg : b < 0
  · simp [hneg, hi64, eq_comm]
  · simp [hneg, eq_comm]

/-- The start of a downwards slice. There is none in the empty sequence. -/
theorem reverseIndex_bound {j : ℤ} (hn : n < 2 ^ 63) :
    (∃ b, bound Ops.int (n - 1) x = .ok b ∧ reverseIndex n b = some j) ↔
      BoundInRange false n x ∧ n ≠ 0 ∧ j = resolveOr n (n - 1) x := by
  simp only [bound_eq_ok, BoundInRange, resolveOr, Bool.toNat_false]
  cases x with
  | none =>
    have hself : n ≠ 0 → resolve n (n - 1) = n - 1 := fun h => if_neg (by omega)
    simp only [Option.not_mem_none, false_imp_iff, implies_true, true_and, Option.elim_none,
      exists_eq_left]
    rw [reverseIndex_eq_some (by omega) hn]
    constructor
    · rintro ⟨hin, hj⟩
      have hne : n ≠ 0 := by omega
      exact ⟨hne, hj.trans (hself hne)⟩
    · rintro ⟨hne, rfl⟩
      rw [hself hne]
      omega
  | some b =>
    simp only [Option.mem_some_iff, forall_eq', Option.elim_some]
    constructor
    · rintro ⟨_, ⟨hi64, rfl⟩, hrev⟩
      rw [reverseIndex_eq_some hi64.1 hn] at hrev
      exact ⟨by omega, by omega, hrev.2⟩
    · rintro ⟨hin, hne, hj⟩
      have hi64 : -2 ^ 63 ≤ b.toInt ∧ b.toInt < 2 ^ 63 := by
        unfold resolve at hin
        split_ifs at hin <;> omega
      refine ⟨b.toInt, ⟨hi64, rfl⟩, ?_⟩
      rw [reverseIndex_eq_some hi64.1 hn]
      exact ⟨by omega, hj⟩

/-- The end of a downwards slice. `-1` is taken for what a missing end is. -/
theorem reverseBound_bound {j : ℤ} (hn : n < 2 ^ 63) (hne : n ≠ 0) :
    (∃ b, bound Ops.int (-1) x = .ok b ∧ reverseBound n b = some j) ↔
      BoundInRange false n x ∧ j = if x = some (-1) then -1 else resolveOr n (-1) x := by
  have hone : (-1 : Integer).toInt = -1 := by decide
  simp only [bound_eq_ok, BoundInRange, resolveOr, Bool.toNat_false]
  cases x with
  | none => simp [reverseBound, eq_comm]
  | some b =>
    simp only [Option.mem_some_iff, forall_eq', Option.elim_some, Option.some_inj]
    by_cases hb : b = -1
    · rw [if_pos hb, hb, hone]
      have hin : 0 ≤ resolve n (-1) ∧ resolve n (-1) < n + ((0 : ℕ) : ℤ) := by
        unfold resolve
        split_ifs <;> omega
      constructor
      · rintro ⟨_, ⟨-, rfl⟩, hrev⟩
        exact ⟨hin, (Option.some.inj hrev).symm⟩
      · rintro ⟨-, rfl⟩
        exact ⟨-1, ⟨by omega, rfl⟩, rfl⟩
    · have hb' : b.toInt ≠ -1 := fun h => hb (BitVec.eq_of_toInt_eq (h.trans hone.symm))
      have hrev : reverseBound n b.toInt = reverseIndex n b.toInt := if_neg hb'
      rw [if_neg hb]
      constructor
      · rintro ⟨_, ⟨hi64, rfl⟩, h⟩
        rw [hrev, reverseIndex_eq_some hi64.1 hn] at h
        exact ⟨by omega, h.2⟩
      · rintro ⟨hin, hj⟩
        have hi64 : -2 ^ 63 ≤ b.toInt ∧ b.toInt < 2 ^ 63 := by
          unfold resolve at hin
          split_ifs at hin <;> omega
        refine ⟨b.toInt, ⟨hi64, rfl⟩, ?_⟩
        rw [hrev, reverseIndex_eq_some hi64.1 hn]
        exact ⟨by omega, hj⟩

/-! ### Loops -/

variable {start step stop : ℤ}

theorem before_upwards (start stop : ℤ) (hstep : 0 < step) :
    Progression.Before ⟨start, step, some stop⟩ 0 ↔ start < stop := by
  simp [Progression.Before, Progression.BeforeStop, hstep]

theorem before_downwards (start stop : ℤ) (hstep : step < 0) :
    Progression.Before ⟨start, step, some stop⟩ 0 ↔ stop < start := by
  simp [Progression.Before, Progression.BeforeStop, not_lt.mpr hstep.le]

/-- The index behind each one that a slice takes fits. -/
def IndicesFit (p : Progression) : Prop :=
  ∀ k, p.Before k → p.term (k + 1) < 2 ^ 63

theorem indicesFit_iff {p : Progression} (h : p.Before 0) :
    IndicesFit p ↔ p.term 1 < 2 ^ 63 ∧ IndicesFit p.tail := by
  constructor
  · refine fun hfit => ⟨hfit 0 h, fun k hk => ?_⟩
    rw [Progression.term_tail]
    exact hfit (k + 1) (p.before_tail k |>.mp hk)
  · rintro ⟨hzero, hfit⟩ k hk
    cases k with
    | zero => exact hzero
    | succ k => exact p.term_tail (k + 1) ▸ hfit k (p.before_tail k |>.mpr hk)

/-- An upwards slice takes the indices before its end, where the one behind each of them fits. -/
theorem ascend_eq (stop : ℤ) (hstep : 0 < step) (hstart : 0 ≤ start) :
    (IndicesFit ⟨start, step, some stop⟩ ∧
      ∃ l, ascend step stop start = .ok l ∧ Progression.Lists ⟨start, step, some stop⟩ l) ∨
    ¬ IndicesFit ⟨start, step, some stop⟩ ∧ ∃ e, ascend step stop start = .error e := by
  induction hk : (stop - start).toNat using Nat.strong_induction_on generalizing start with
  | _ k ih =>
  have hbefore := before_upwards start stop hstep
  rw [ascend]
  by_cases hlt : start < stop
  · have hindex : toUsize start = some start.toNat := if_pos hstart
    rw [dif_pos ⟨hlt, hstep⟩, hindex, orError, ok_bind, indicesFit_iff (hbefore.mpr hlt),
      Progression.term_succ, Progression.term_zero]
    by_cases hfits : start + step < 2 ^ 63
    · have hnext : i64 (start + step) = some (start + step) := i64_eq_some.mpr ⟨by omega, rfl⟩
      rw [hnext, orError, ok_bind]
      rcases @ih _ (by omega) (start + step) (by omega) rfl with
        ⟨hfit, l, hl, hlists⟩ | ⟨hfit, e, he⟩
      · refine .inl ⟨⟨hfits, hfit⟩, start.toNat :: l, by rw [hl]; rfl, ?_⟩
        exact Progression.Lists.cons (p := ⟨start, step, some stop⟩) hlists (hbefore.mpr hlt)
          (Int.toNat_of_nonneg hstart)
      · exact .inr ⟨fun h => hfit h.2, e, by rw [he]; rfl⟩
    · have hnext : i64 (start + step) = none := if_neg (by omega)
      refine .inr ⟨fun h => hfits h.1, .overflow, ?_⟩
      rw [hnext]
      rfl
  · rw [dif_neg fun h => hlt h.1]
    have hnot : ¬ Progression.Before ⟨start, step, some stop⟩ 0 := fun h => hlt (hbefore.mp h)
    refine .inl ⟨fun j hj => absurd (hj.mono (Nat.zero_le j)) hnot, [], rfl, .nil hnot⟩

/-- A downwards slice takes the indices before its end. -/
theorem descend_eq (start stop : ℤ) (hstep : step < 0) (hmin : -2 ^ 63 ≤ step) (hstart : start < 2 ^ 63)
    (hstop : -1 ≤ stop) :
    ∃ l, descend step stop start = .ok l ∧ Progression.Lists ⟨start, step, some stop⟩ l := by
  induction hk : (start - stop).toNat using Nat.strong_induction_on generalizing start with
  | _ k ih =>
  have hbefore := before_downwards start stop hstep
  rw [descend]
  by_cases hlt : stop < start
  · have hindex : toUsize start = some start.toNat := if_pos (by omega)
    have hnext : i64 (start + step) = some (start + step) := i64_eq_some.mpr ⟨by omega, rfl⟩
    obtain ⟨l, hl, hlists⟩ := @ih _ (by omega) (start + step) (by omega) rfl
    rw [dif_pos ⟨hlt, hstep⟩, hindex, orError, ok_bind, hnext, orError, ok_bind, hl]
    exact ⟨start.toNat :: l, rfl, Progression.Lists.cons (p := ⟨start, step, some stop⟩) hlists
      (hbefore.mpr hlt) (Int.toNat_of_nonneg (by omega))⟩
  · rw [dif_neg fun h => hlt h.1]
    exact ⟨[], rfl, .nil fun h => hlt (hbefore.mp h)⟩

/-! ### Slices -/

variable {s : Slice}

theorem bound_step (hmin : -2 ^ 63 ≤ r.progression.step) (hmax : r.progression.step < 2 ^ 63) :
    bound Ops.int 1 r.step = .ok r.progression.step := by
  rw [bound_eq_ok]
  unfold progression at hmin hmax ⊢
  dsimp only at hmin hmax ⊢
  cases hs : r.step with
  | none => exact ⟨fun b hb => (nomatch hb), by decide⟩
  | some d =>
    rw [hs] at hmin hmax
    refine ⟨fun b hb => ?_, rfl⟩
    obtain rfl := Option.mem_some_iff.mp hb
    exact ⟨hmin, hmax⟩

/-- A step that is no `i64` is refused. -/
theorem slice_step (hstep : ¬ (-2 ^ 63 ≤ r.progression.step ∧ r.progression.step < 2 ^ 63)) :
    slice Ops.int r n ≠ .ok s := by
  intro h
  rw [slice, bind_eq_ok] at h
  obtain ⟨d, hd, -⟩ := h
  rw [bound_eq_ok] at hd
  unfold progression at hstep
  dsimp only at hstep
  cases hs : r.step with
  | none => exact hstep (by rw [hs]; decide)
  | some b =>
    rw [hs] at hstep
    exact hstep (hd.1 b hs)

theorem BoundInRange.resolveOr_nonneg {up : Bool} {default : ℤ} (h : BoundInRange up n x)
    (hdefault : 0 ≤ default) : 0 ≤ resolveOr n default x := by
  cases x with
  | none => exact hdefault
  | some b => exact (h b rfl).1

/-- A slice by steps upwards. -/
theorem slice_upwards (hn : n < 2 ^ 63) (hstep : 1 < r.progression.step)
    (hmax : r.progression.step < 2 ^ 63) :
    slice Ops.int r n = .ok s ↔ r.InRange n ∧
      ∃ l, ascend r.progression.step (resolveOr n n r.stop) (resolveOr n 0 r.start) = .ok l ∧
        s = .stepped l := by
  have hlen : i64 n = some (n : ℤ) := i64_eq_some.mpr ⟨by omega, rfl⟩
  have hup : decide (0 < r.progression.step) = true := decide_eq_true (by omega)
  rw [slice, bound_step (by omega) hmax, ok_bind, if_neg (by omega), if_neg (by omega), hlen, orError,
    ok_bind, if_pos (by omega), InRange, hup]
  have hstart := fun j => position_bound (x := r.start) (j := j) hn
    ⟨le_refl (0 : ℤ), Int.natCast_nonneg n⟩
  have hstop := fun j => position_bound (x := r.stop) (j := j) hn
    ⟨Int.natCast_nonneg n, le_refl (n : ℤ)⟩
  simp only [bind_eq_ok, orError_eq_ok]
  constructor
  · rintro ⟨a, ha, b, hb, i, hi, j, hj, l, hl, hs⟩
    obtain ⟨hin, hi'⟩ := (hstart i).mp ⟨a, ha, hi⟩
    obtain ⟨hin', hj'⟩ := (hstop j).mp ⟨b, hb, hj⟩
    rw [hi', hj'] at hl
    exact ⟨⟨hin, hin'⟩, l, hl, (Except.ok.inj hs).symm⟩
  · rintro ⟨⟨hin, hin'⟩, l, hl, rfl⟩
    obtain ⟨i, hi⟩ := Int.eq_ofNat_of_zero_le (hin.resolveOr_nonneg (le_refl 0))
    obtain ⟨j, hj⟩ := Int.eq_ofNat_of_zero_le (hin'.resolveOr_nonneg (Int.natCast_nonneg n))
    obtain ⟨a, ha, hi'⟩ := (hstart i).mpr ⟨hin, hi.symm⟩
    obtain ⟨b, hb, hj'⟩ := (hstop j).mpr ⟨hin', hj.symm⟩
    rw [hi, hj] at hl
    exact ⟨a, ha, b, hb, i, hi', j, hj', l, hl, rfl⟩

/-- A slice by steps downwards. -/
theorem slice_downwards (hn : n < 2 ^ 63) (hstep : r.progression.step < 0)
    (hmin : -2 ^ 63 ≤ r.progression.step) :
    slice Ops.int r n = .ok s ↔ r.InRange n ∧ n ≠ 0 ∧
      ∃ l, descend r.progression.step
          (if r.stop = some (-1) then -1 else resolveOr n (-1) r.stop)
          (resolveOr n (n - 1) r.start) = .ok l ∧
        s = .stepped l := by
  have hlen : i64 n = some (n : ℤ) := i64_eq_some.mpr ⟨by omega, rfl⟩
  have hdown : decide (0 < r.progression.step) = false := decide_eq_false (by omega)
  rw [slice, bound_step hmin (by omega), ok_bind, if_neg (by omega), if_neg (by omega), hlen, orError,
    ok_bind, if_neg (by omega), InRange, hdown]
  have hstart := fun j => reverseIndex_bound (x := r.start) (j := j) hn
  simp only [bind_eq_ok, orError_eq_ok]
  constructor
  · rintro ⟨a, ha, b, hb, i, hi, j, hj, l, hl, hs⟩
    obtain ⟨hin, hne, hi'⟩ := (hstart i).mp ⟨a, ha, hi⟩
    obtain ⟨hin', hj'⟩ := (reverseBound_bound hn hne).mp ⟨b, hb, hj⟩
    rw [hi', hj'] at hl
    exact ⟨⟨hin, hin'⟩, hne, l, hl, (Except.ok.inj hs).symm⟩
  · rintro ⟨⟨hin, hin'⟩, hne, l, hl, rfl⟩
    obtain ⟨a, ha, hi⟩ := (hstart _).mpr ⟨hin, hne, rfl⟩
    obtain ⟨b, hb, hj⟩ := (reverseBound_bound hn hne).mpr ⟨hin', rfl⟩
    exact ⟨a, ha, b, hb, _, hi, _, hj, l, hl, rfl⟩

theorem boundPosition_eq_ok {default j : ℕ} (hn : n < 2 ^ 63) (hdefault : default ≤ n) :
    boundPosition Ops.int n default x = .ok j ↔
      BoundInRange true n x ∧ (j : ℤ) = resolveOr n default x := by
  rw [← position_bound hn ⟨Int.natCast_nonneg default, Int.ofNat_le.mpr hdefault⟩]
  cases x with
  | none =>
    have hself : position n default = some default := by
      rw [position_eq_some, resolve, if_neg (by omega)]
      omega
    constructor
    · intro h
      exact ⟨default, rfl, Except.ok.inj h ▸ hself⟩
    · rintro ⟨b, hb, hj⟩
      obtain rfl := Except.ok.inj hb
      exact congrArg _ (Option.some.inj (hself.symm.trans hj))
  | some b => simp only [boundPosition, bound, bind_eq_ok, orError_eq_ok]

/-- A contiguous slice. An end before the start makes it empty. -/
theorem slice_contiguous (hn : n < 2 ^ 63) (hstep : r.progression.step = 1) :
    slice Ops.int r n = .ok s ↔ r.InRange n ∧
      ∃ a b : ℕ, (a : ℤ) = resolveOr n 0 r.start ∧ (b : ℤ) = resolveOr n n r.stop ∧
        s = .contiguous a (max b a) := by
  have hup : decide (0 < r.progression.step) = true := decide_eq_true (by omega)
  have hone : (r.step.any fun d => decide (Ops.int.toI64 d ≠ some 1)) = false := by
    cases hs : r.step with
    | none => rfl
    | some d =>
      have hd : d.toInt = 1 := by simpa [progression, hs] using hstep
      rw [Option.any_some, Ops.int_toI64, hd]
      rfl
  rw [slice, bound_step (by omega) (by omega), ok_bind, if_neg (by omega), if_pos hstep, InRange, hup,
    sliceBounds, if_neg (by rw [hone]; exact Bool.false_ne_true)]
  simp only [bind_eq_ok]
  constructor
  · rintro ⟨bounds, ⟨a, ha, b, hb, hbounds⟩, hs⟩
    obtain ⟨hin, ha'⟩ := (boundPosition_eq_ok hn (Nat.zero_le n)).mp ha
    obtain ⟨hin', hb'⟩ := (boundPosition_eq_ok hn (le_refl n)).mp hb
    obtain rfl := Except.ok.inj hbounds
    exact ⟨⟨hin, hin'⟩, a, b, ha', hb', (Except.ok.inj hs).symm⟩
  · rintro ⟨⟨hin, hin'⟩, a, b, ha, hb, rfl⟩
    exact ⟨_, ⟨a, (boundPosition_eq_ok hn (Nat.zero_le n)).mpr ⟨hin, ha⟩, b,
      (boundPosition_eq_ok hn (le_refl n)).mpr ⟨hin', hb⟩, rfl⟩, rfl⟩

/-! ### What slices are -/

/-- What slicing a sequence of a length has to do: to take the indices of the range, in their order,
and to fail only where a bound is out of range. -/
structure SliceLaw (r : Range Integer) (n : ℕ) : Prop where
  indices : ∀ s, slice Ops.int r n = .ok s → ∀ k i : ℕ,
    s.indices[k]? = some i ↔ (r.indices n).Before k ∧ (i : ℤ) = (r.indices n).term k ∧ i < n
  errors : ∀ e, slice Ops.int r n = .error e → ¬ r.InRange n

/-- The slices whose bounds are in range that are taken as they should be. -/
def Sliceable (r : Range Integer) (n : ℕ) : Prop :=
  if 0 < r.progression.step then
    r.progression.step = 1 ∨ r.progression.step < 2 ^ 63 ∧ IndicesFit (r.indices n)
  else -2 ^ 63 ≤ r.progression.step ∧ n ≠ 0 ∧ r.stop ≠ some (-1)

theorem BoundInRange.resolveOr_lt {up : Bool} (default : ℤ) (h : BoundInRange up n x)
    (hdefault : default < n + up.toNat) : resolveOr n default x < n + up.toNat := by
  cases x with
  | none => exact hdefault
  | some b => exact (h b rfl).2

theorem indices_upwards (h : 0 < r.progression.step) :
    r.indices n = ⟨resolveOr n 0 r.start, r.progression.step, some (resolveOr n n r.stop)⟩ := by
  rw [indices, if_pos h, if_pos h]

theorem indices_downwards (h : ¬ 0 < r.progression.step) :
    r.indices n =
      ⟨resolveOr n (n - 1) r.start, r.progression.step, some (resolveOr n (-1) r.stop)⟩ := by
  rw [indices, if_neg h, if_neg h]

/-- Bounds in range have the indices between them in range. -/
theorem InRange.term_lt (h : r.InRange n) {k : ℕ} (hk : (r.indices n).Before k) :
    (r.indices n).term k < n := by
  obtain ⟨hstart, hstop⟩ := h
  by_cases hstep : 0 < r.progression.step
  · rw [decide_eq_true hstep] at hstop
    have hlt := hstop.resolveOr_lt n (by simp)
    rw [Bool.toNat_true] at hlt
    have hbefore := hk _ rfl
    rw [if_pos (show 0 < (r.indices n).step from hstep), if_pos hstep] at hbefore
    omega
  · rw [decide_eq_false hstep] at hstart
    have hlt := hstart.resolveOr_lt (n - 1) (by simp)
    have hle : (r.indices n).term k ≤ (r.indices n).start := by
      have hmul := mul_nonpos_of_nonneg_of_nonpos (Int.natCast_nonneg k) (not_lt.mp hstep)
      unfold Progression.term
      exact add_le_of_nonpos_right hmul
    rw [indices_downwards hstep] at hle ⊢
    rw [Bool.toNat_false] at hlt
    exact lt_of_le_of_lt hle (by simpa using hlt)

/-- A slice that lists the indices of the range is what it has to be. -/
theorem SliceLaw.of_lists (h : r.InRange n) (hs : slice Ops.int r n = .ok s)
    (hlists : (r.indices n).Lists s.indices) : SliceLaw r n where
  indices s' hs' k i := by
    obtain rfl := Except.ok.inj (hs.symm.trans hs')
    rw [hlists k i]
    constructor
    · rintro ⟨hk, hi⟩
      exact ⟨hk, hi, by have := h.term_lt hk; omega⟩
    · exact fun ⟨hk, hi, _⟩ => ⟨hk, hi⟩
  errors e he := by
    rw [hs] at he
    nomatch he

theorem SliceLaw.exists_ok (h : SliceLaw r n) (hin : r.InRange n) :
    ∃ s, slice Ops.int r n = .ok s := by
  cases hs : slice Ops.int r n with
  | ok s => exact ⟨s, rfl⟩
  | error e => exact absurd hin (h.errors e hs)

/-- Slices with a step of their own, upwards. -/
theorem slice_law_upwards (hn : n < 2 ^ 63) (hstep : 1 < r.progression.step) (hin : r.InRange n) :
    SliceLaw r n ↔ r.progression.step < 2 ^ 63 ∧ IndicesFit (r.indices n) := by
  by_cases hmax : r.progression.step < 2 ^ 63
  · have hstart : 0 ≤ resolveOr n 0 r.start := hin.1.resolveOr_nonneg (le_refl 0)
    have hslice := fun s => slice_upwards (s := s) hn hstep hmax
    rw [indices_upwards (by omega)]
    rcases ascend_eq (resolveOr n n r.stop) (by omega : 0 < r.progression.step) hstart with
      ⟨hfit, l, hl, hlists⟩ | ⟨hfit, e, he⟩
    · refine ⟨fun _ => ⟨hmax, hfit⟩, fun _ => ?_⟩
      refine .of_lists hin ((hslice (.stepped l)).mpr ⟨hin, l, hl, rfl⟩) ?_
      rw [indices_upwards (by omega)]
      exact hlists
    · refine ⟨fun hlaw => ?_, fun h => absurd h.2 hfit⟩
      obtain ⟨s, hs⟩ := hlaw.exists_ok hin
      obtain ⟨-, l, hl, -⟩ := (hslice s).mp hs
      rw [he] at hl
      nomatch hl
  · refine ⟨fun hlaw => ?_, fun h => absurd h.1 hmax⟩
    obtain ⟨s, hs⟩ := hlaw.exists_ok hin
    exact absurd hs (slice_step fun h => hmax h.2)

theorem slice_law_downwards (hn : n < 2 ^ 63) (hstep : r.progression.step < 0)
    (hin : r.InRange n) :
    SliceLaw r n ↔ -2 ^ 63 ≤ r.progression.step ∧ n ≠ 0 ∧ r.stop ≠ some (-1) := by
  by_cases hmin : -2 ^ 63 ≤ r.progression.step
  · have hslice := fun s => slice_downwards (s := s) hn hstep hmin
    have hlt : resolveOr n (n - 1) r.start < n + (decide (0 < r.progression.step)).toNat :=
      hin.1.resolveOr_lt _ (by omega)
    rw [decide_eq_false (by omega : ¬ 0 < r.progression.step), Bool.toNat_false] at hlt
    have hdescend := fun stop hstop => descend_eq (resolveOr n (n - 1) r.start) stop hstep hmin
      (by omega) hstop
    constructor
    · intro hlaw
      obtain ⟨s, hs⟩ := hlaw.exists_ok hin
      obtain ⟨-, hne, l, hl, rfl⟩ := (hslice s).mp hs
      refine ⟨hmin, hne, fun hstop => ?_⟩
      -- the slice reaches the first element, but the end is behind the last one
      rw [if_pos hstop] at hl
      obtain ⟨l', hl', hlists⟩ := hdescend (-1) (le_refl (-1))
      obtain rfl := Except.ok.inj (hl.symm.trans hl')
      have hstart : 0 ≤ resolveOr n (n - 1) r.start := hin.1.resolveOr_nonneg (by omega)
      obtain ⟨i, hi⟩ := Int.eq_ofNat_of_zero_le hstart
      have hfirst : l[0]? = some i := (hlists 0 i).mpr ⟨(before_downwards _ _ hstep).mpr (by omega), by
        rw [Progression.term_zero, hi]⟩
      have hbefore := ((hlaw.indices _ hs 0 i).mp hfirst).1
      have hneg : (-1 : Integer).toInt = -1 := by decide
      rw [indices_downwards (by omega), before_downwards _ _ hstep, hstop, resolveOr, Option.elim_some,
        hneg, resolve, if_pos (by decide)] at hbefore
      omega
    · rintro ⟨-, hne, hstop⟩
      have hbound : -1 ≤ resolveOr n (-1) r.stop := by
        cases hs : r.stop with
        | none => exact le_refl (-1)
        | some b =>
          have := (hin.2 b hs).1
          rw [resolveOr, Option.elim_some]
          omega
      obtain ⟨l, hl, hlists⟩ := hdescend _ hbound
      refine .of_lists hin ((hslice (.stepped l)).mpr ⟨hin, hne, l, ?_, rfl⟩) ?_
      · rw [if_neg hstop, hl]
      · rw [indices_downwards (by omega)]
        exact hlists
  · refine ⟨fun hlaw => ?_, fun h => absurd h.1 hmin⟩
    obtain ⟨s, hs⟩ := hlaw.exists_ok hin
    exact absurd hs (slice_step fun h => hmin h.1)

theorem slice_law_contiguous (hn : n < 2 ^ 63) (hstep : r.progression.step = 1)
    (hin : r.InRange n) : SliceLaw r n := by
  have hup : 0 < r.progression.step := by omega
  obtain ⟨a, ha⟩ := Int.eq_ofNat_of_zero_le (hin.1.resolveOr_nonneg (le_refl 0))
  obtain ⟨b, hb⟩ := Int.eq_ofNat_of_zero_le (hin.2.resolveOr_nonneg (Int.natCast_nonneg n))
  refine .of_lists hin ((slice_contiguous hn hstep).mpr ⟨hin, a, b, ha.symm, hb.symm, rfl⟩) ?_
  rw [indices_upwards hup, hstep, ha, hb, Slice.indices, show max b a - a = b - a by omega]
  exact Progression.lists_range'

/-- A slice that is taken has its bounds in range. -/
theorem inRange_of_slice (hr : r.Proper) (hn : n < 2 ^ 63) (h : slice Ops.int r n = .ok s) :
    r.InRange n := by
  have hne := hr.step_ne
  have hi64 : -2 ^ 63 ≤ r.progression.step ∧ r.progression.step < 2 ^ 63 := by
    by_contra hstep
    exact slice_step hstep h
  rcases lt_trichotomy r.progression.step 1 with hlt | heq | hgt
  · exact ((slice_downwards hn (by omega) hi64.1).mp h).1
  · exact ((slice_contiguous hn heq).mp h).1
  · exact ((slice_upwards hn hgt hi64.2).mp h).1

theorem slice_law_iff (hr : r.Proper) (hn : n < 2 ^ 63) :
    SliceLaw r n ↔ (r.InRange n → Sliceable r n) := by
  have hne := hr.step_ne
  by_cases hin : r.InRange n
  · refine Iff.trans ?_ (forall_prop_of_true hin).symm
    unfold Sliceable
    rcases lt_trichotomy r.progression.step 1 with hlt | heq | hgt
    · rw [if_neg (by omega)]
      exact slice_law_downwards hn (by omega) hin
    · rw [if_pos (by omega)]
      exact ⟨fun _ => .inl heq, fun _ => slice_law_contiguous hn heq hin⟩
    · rw [if_pos (by omega), or_iff_right (by omega)]
      exact slice_law_upwards hn hgt hin
  · refine ⟨fun _ h => absurd h hin, fun _ => ⟨fun s hs => ?_, fun _ _ => hin⟩⟩
    exact absurd (inRange_of_slice hr hn hs) hin

/-! ### The three together -/

/-- What iterating over a range has to do at a place: to yield its value if that is before the end, and
else to have ended without an error. -/
def IteratesAt (r : Range Integer) (k : ℕ) : Prop :=
  ∃ it, opIter Ops.int r = .ok it ∧
    (r.progression.Before k → ∀ v : Integer, v.toInt = r.progression.term k →
      nth Ops.int it k = .ok (some v)) ∧
    (¬ r.progression.Before k → nth Ops.int it k = .ok none)

theorem iteratesAt_iff (hr : r.Proper) {k : ℕ} :
    IteratesAt r k ↔ r.Steps ∧
      (r.progression.Before k → Fits 128 (r.progression.term k) →
        Fits 128 (r.progression.term (k + 1))) ∧
      (¬ r.progression.Before k → ∀ j, r.progression.Before j →
        Fits 128 (r.progression.term (j + 1))) := by
  by_cases hsteps : r.Steps
  · obtain ⟨it, hit, hfollows⟩ := opIter_eq hr hsteps
    constructor
    · rintro ⟨it', hit', hvalue, hend⟩
      obtain rfl := Except.ok.inj (hit.symm.trans hit')
      refine ⟨hsteps, fun hk ⟨v, hv⟩ => ?_, fun hk => ?_⟩
      · exact (hfollows.nth_eq_some_iff.mp (hvalue hk v hv)).2.2
      · exact (hfollows.nth_eq_none_iff.mp (hend hk)).2
    · rintro ⟨-, hvalue, hend⟩
      refine ⟨it, hit, fun hk v hv => ?_, fun hk => ?_⟩
      · exact hfollows.nth_eq_some_iff.mpr ⟨hk, hv, hvalue hk ⟨v, hv⟩⟩
      · exact hfollows.nth_eq_none_iff.mpr ⟨hk, hend hk⟩
  · refine ⟨fun ⟨it, hit, _⟩ => ?_, fun h => absurd h.1 hsteps⟩
    rw [opIter_overflow hsteps] at hit
    nomatch hit

/-- **Where the three agree.** Iteration yields the values of the progression and then ends where
neither the first step nor the value behind the last one overflows. Membership is what iteration
yields where the value behind a member fits when, and only when, its distance from the start can be
taken and divided by the step. A slice whose bounds are in range takes the indices of the progression
if its step is 1, or leads upwards and the index behind each one fits, or leads downwards in a
sequence that is not empty to an end other than `-1`, and is an `i64`. -/
theorem ranges_agree_iff (r : Range Integer) (hr : r.Proper) :
    (∀ k : ℕ, IteratesAt r k ↔ r.Steps ∧
      (r.progression.Before k → Fits 128 (r.progression.term k) →
        Fits 128 (r.progression.term (k + 1))) ∧
      (¬ r.progression.Before k → ∀ j, r.progression.Before j →
        Fits 128 (r.progression.term (j + 1)))) ∧
    (∀ v : Integer, r.step ≠ none →
      ((contains Ops.int r v = .ok true ↔ r.Yields v) ↔
        (r.Steps → r.progression.Member v.toInt →
          (Measurable (v.toInt - r.progression.start) r.progression.step ↔
            Fits 128 (v.toInt + r.progression.step))))) ∧
    (∀ n : Length, SliceLaw r n ↔ (r.InRange n → Sliceable r n)) := by
  refine ⟨fun k => iteratesAt_iff hr, fun v hstep => ?_, fun n => slice_law_iff hr n.2⟩
  rw [contains_iff hr hstep, yields_iff hr]
  constructor
  · intro h hsteps hmember
    exact ⟨fun hd => (h.mp ⟨hsteps, hmember, hd⟩).2.2, fun hf => (h.mpr ⟨hsteps, hmember, hf⟩).2.2⟩
  · intro h
    refine and_congr_right fun hsteps => and_congr_right fun hmember => ?_
    exact h hsteps hmember

/-- The values from 0 up to the greatest integer by one less than it. -/
def wide : Range Integer where
  start := some 0
  stop := some (BitVec.intMax 128)
  step := some (BitVec.intMax 128 - 1)

/-- The second value of that range is yielded exactly if the third one fits. -/
theorem wide_iteratesAt_iff :
    IteratesAt wide 1 ↔ wide.Steps ∧
      (wide.progression.Before 1 → Fits 128 (wide.progression.term 1) →
        Fits 128 (wide.progression.term 2)) ∧
      (¬ wide.progression.Before 1 → ∀ j, wide.progression.Before j →
        Fits 128 (wide.progression.term (j + 1))) :=
  (ranges_agree_iff wide (by unfold Proper; decide)).1 1

/-- The second value of that range is a member but is never yielded. -/
theorem wide_disagrees :
    ¬ IteratesAt wide 1 ∧ contains Ops.int wide (BitVec.intMax 128 - 1) = .ok true ∧
      ¬ wide.Yields (BitVec.intMax 128 - 1) := by
  have hproper : wide.Proper := by unfold Proper; decide
  have hmax : (BitVec.intMax 128 - 1).toInt = 2 ^ 127 - 2 := by decide
  have hwide : wide.progression = ⟨0, 2 ^ 127 - 2, some (2 ^ 127 - 1)⟩ := by
    rw [Progression.mk.injEq]
    decide
  have hbefore : wide.progression.Before 1 := by
    rw [hwide, Progression.Before, Progression.BeforeStop, Progression.term]
    simp
  refine ⟨fun h => ?_, by decide, fun h => ?_⟩
  · have hfits := ((iteratesAt_iff hproper).mp h).2.1 hbefore ⟨BitVec.intMax 128 - 1, by
      rw [hmax, hwide, Progression.term]
      norm_num⟩
    rw [Integer.fits_iff, hwide, Progression.term] at hfits
    norm_num at hfits
  · have hfits := ((yields_iff hproper).mp h).2.2
    rw [Integer.fits_iff, hmax, hwide] at hfits
    norm_num at hfits

end Range

end Dolang.Runtime
