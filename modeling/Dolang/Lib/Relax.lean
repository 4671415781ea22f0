import Mathlib.Algebra.BigOperators.Intervals
import Mathlib.Algebra.Order.BigOperators.Group.Finset
import Mathlib.Order.Monotone.Basic

/-!
# Relaxation of jumps

A sequence of blocks is laid out in passes. Block `i` has `base i` bytes and, when it ends in a jump,
as many bytes again as the displacement to the jump's target needs. A pass goes through the blocks
from the first one. It takes the start of a target behind the jump from the pass before, and the
length of the jump itself too (`Pass`).

A jump backwards sees the starts of its own pass, so it settles once the blocks before it have
(`Run.settles_at`). A jump forwards does not, and need not settle. `Run.settles` says that the
layout settles when the jumps forwards do.
-/

namespace Dolang.Relax

/-- What is laid out: the bytes of each block, the block that it jumps to, and the number of bytes
that a displacement needs. -/
structure Program where
  size : Nat
  base : Nat → Nat
  target : Nat → Option Nat
  len : Int → Nat
  /-- Numbers of bytes are bounded. -/
  bound : Nat
  len_le : ∀ d, len d ≤ bound
  /-- A longer jump backwards does not need fewer bytes. -/
  len_mono : ∀ {d d' : Int}, d' ≤ d → d ≤ 0 → len d ≤ len d'

/-- A layout: where each block starts, and the bytes of each displacement. -/
structure Layout where
  start : Nat → Nat
  width : Nat → Nat

variable {P : Program}

/-- The displacement of a jump from block `i` to block `t` in a pass from `l` to `l'`. -/
def displacement (P : Program) (l l' : Layout) (i t : Nat) : Int :=
  (if t ≤ i then l'.start t else l.start t : Nat) - (l'.start i + P.base i + l.width i : Nat)

/-- One pass over the blocks. -/
structure Pass (P : Program) (l l' : Layout) : Prop where
  start_zero : l'.start 0 = 0
  start_succ : ∀ i < P.size, l'.start (i + 1) = l'.start i + P.base i + l'.width i
  width : ∀ i < P.size, l'.width i = ((P.target i).map fun t => P.len (displacement P l l' i t)).getD 0

/-- Block `i` jumps forwards. -/
def Forward (P : Program) (i : Nat) : Prop := ∃ t, P.target i = some t ∧ i < t

/-- Where blocks start when displacements have the given numbers of bytes. -/
def starts (P : Program) (width : Nat → Nat) (i : Nat) : Nat :=
  ∑ k ∈ Finset.range i, (P.base k + if (P.target k).isSome then width k else 0)

theorem Pass.width_le {l l' : Layout} (h : Pass P l l') {i : Nat} (hi : i < P.size) :
    l'.width i ≤ P.bound := by
  rw [h.width i hi]
  cases P.target i with
  | none => exact Nat.zero_le _
  | some t => exact P.len_le _

/-- After a pass the blocks start where their lengths say. -/
theorem Pass.start_eq {l l' : Layout} (h : Pass P l l') {i : Nat} (hi : i ≤ P.size) :
    l'.start i = starts P l'.width i := by
  induction i with
  | zero => simp [starts, h.start_zero]
  | succ i ih =>
    have hlt : i < P.size := hi
    rw [h.start_succ i hlt, ih (Nat.le_of_lt hlt), starts, starts, Finset.sum_range_succ]
    have hnone : (P.target i).isSome = false → l'.width i = 0 := by
      intro hnone
      rw [h.width i hlt, Option.isSome_eq_false_iff.mp hnone |> Option.isNone_iff_eq_none.mp]
      rfl
    cases hsome : (P.target i).isSome with
    | true => simp [Nat.add_assoc]
    | false => simp [hnone hsome]

theorem Pass.start_mono {l l' : Layout} (h : Pass P l l') {t i : Nat} (hle : t ≤ i)
    (hi : i ≤ P.size) : l'.start t ≤ l'.start i := by
  rw [h.start_eq hi, h.start_eq (hle.trans hi), starts, starts]
  exact Finset.sum_le_sum_of_subset (Finset.range_subset_range.mpr hle)

/-- Iterating a monotone function that is bounded comes to a fixed point. -/
theorem iterate_settles {f : Nat → Nat} {bound : Nat} (hmono : Monotone f)
    (hbound : ∀ x, f x ≤ bound) {x : Nat → Nat} (hx : ∀ k, x (k + 1) = f (x k)) :
    ∃ N, ∀ k ≥ N, x (k + 1) = x k := by
  -- It is enough to find one step that changes nothing.
  suffices hstep : ∃ N, x (N + 1) = x N by
    obtain ⟨N, hN⟩ := hstep
    refine ⟨N, fun k hk => ?_⟩
    induction k, hk using Nat.le_induction with
    | base => exact hN
    | succ k _ ih => rw [hx (k + 1), ih, ← hx k, ih]
  by_contra hnone
  push Not at hnone
  rcases Nat.lt_or_ge (x 0) (x 1) with hlt | hge
  · -- Growing forever would pass the bound.
    have hgrow : ∀ k, x k < x (k + 1) := by
      intro k
      induction k with
      | zero => exact hlt
      | succ k ih =>
        have hle : x (k + 1) ≤ x (k + 2) := by
          rw [hx k, hx (k + 1)]
          exact hmono (Nat.le_of_lt ih)
        exact Nat.lt_of_le_of_ne hle (Ne.symm (hnone (k + 1)))
    have hle : ∀ k, k ≤ x k := by
      intro k
      induction k with
      | zero => exact Nat.zero_le _
      | succ k ih => exact Nat.lt_of_le_of_lt ih (hgrow k)
    have hlarge := hle (bound + 1 + 1)
    have hsmall := hbound (x (bound + 1))
    rw [← hx (bound + 1)] at hsmall
    omega
  · -- Shrinking forever would pass zero.
    have hshrink : ∀ k, x (k + 1) < x k := by
      intro k
      induction k with
      | zero => exact Nat.lt_of_le_of_ne hge (hnone 0)
      | succ k ih =>
        have hle : x (k + 2) ≤ x (k + 1) := by
          rw [hx k, hx (k + 1)]
          exact hmono (Nat.le_of_lt ih)
        exact Nat.lt_of_le_of_ne hle (hnone (k + 1))
    have hle : ∀ k, x k + k ≤ x 0 := by
      intro k
      induction k with
      | zero => exact Nat.le_refl _
      | succ k ih =>
        have := hshrink k
        omega
    have := hle (x 0 + 1)
    omega

/-- A sequence of layouts, each one a pass after the one before. -/
def Run (P : Program) (l : Nat → Layout) : Prop := ∀ k, Pass P (l k) (l (k + 1))

/-- From some pass on, no jump forwards changes its length. -/
def ForwardSettles (P : Program) (l : Nat → Layout) : Prop :=
  ∃ N, ∀ k ≥ N, ∀ i < P.size, Forward P i → (l (k + 1)).width i = (l k).width i

section

variable {l : Nat → Layout}

/-- What stops changing keeps its value. -/
theorem eq_of_settled {α : Type} {x : Nat → α} {N : Nat} (h : ∀ k ≥ N, x (k + 1) = x k) {k : Nat}
    (hk : N ≤ k) : x k = x N := by
  induction k, hk using Nat.le_induction with
  | base => rfl
  | succ k hk ih => rw [h k hk, ih]

/-- A block that does not jump forwards settles once the blocks before it have. -/
theorem Run.settles_at (h : Run P l) {i N : Nat} (hi : i < P.size) (hback : ¬ Forward P i)
    (hbefore : ∀ k ≥ N, ∀ j ≤ i, (l (k + 1)).start j = (l k).start j) :
    ∃ M, ∀ k ≥ M, (l (k + 1)).width i = (l k).width i := by
  cases htarget : P.target i with
  | none =>
    refine ⟨1, fun k hk => ?_⟩
    obtain ⟨k, rfl⟩ := Nat.exists_eq_add_of_le' hk
    rw [(h (k + 1)).width i hi, (h k).width i hi, htarget]
    rfl
  | some t =>
    have hle : t ≤ i := by
      by_contra hlt
      exact hback ⟨t, htarget, Nat.lt_of_not_le hlt⟩
    -- From the pass after `N` on the starts of the block and of its target are these.
    have hstart : ∀ k ≥ N + 1, ∀ j ≤ i, (l k).start j = (l (N + 1)).start j := fun k hk j hj =>
      eq_of_settled (x := fun k => (l k).start j) (fun m hm => hbefore m (by omega) j hj) hk
    have horder := (h N).start_mono hle (Nat.le_of_lt hi)
    let f : Nat → Nat := fun w =>
      P.len (((l (N + 1)).start t : Nat) - ((l (N + 1)).start i + P.base i + w : Nat))
    have hmono : Monotone f := by
      intro w w' hw
      apply P.len_mono <;> omega
    have hstep : ∀ k, (l (N + 1 + (k + 1))).width i = f ((l (N + 1 + k)).width i) := by
      intro k
      rw [← Nat.add_assoc, (h (N + 1 + k)).width i hi, htarget]
      simp only [Option.map_some, Option.getD_some, displacement, if_pos hle]
      rw [hstart _ (by omega) t hle, hstart _ (by omega) i (Nat.le_refl i)]
    obtain ⟨M, hM⟩ := iterate_settles (x := fun k => (l (N + 1 + k)).width i) hmono
      (fun w => P.len_le _) hstep
    refine ⟨N + 1 + M, fun k hk => ?_⟩
    obtain ⟨m, rfl⟩ := Nat.exists_eq_add_of_le hk
    have := hM (M + m) (Nat.le_add_right M m)
    simpa only [Nat.add_assoc] using this

/-- The layout settles when the jumps forwards do. -/
theorem Run.settles (h : Run P l) (hforward : ForwardSettles P l) :
    ∃ N, ∀ k ≥ N, ∀ i ≤ P.size, (l (k + 1)).start i = (l k).start i := by
  -- By induction on the number of blocks from the first one whose starts have settled.
  suffices hprefix : ∀ n ≤ P.size, ∃ N, ∀ k ≥ N, ∀ i ≤ n, (l (k + 1)).start i = (l k).start i from
    hprefix P.size (Nat.le_refl _)
  intro n hn
  induction n with
  | zero =>
    refine ⟨1, fun k hk i hi => ?_⟩
    obtain ⟨k, rfl⟩ := Nat.exists_eq_add_of_le' hk
    obtain rfl : i = 0 := Nat.le_zero.mp hi
    rw [(h (k + 1)).start_zero, (h k).start_zero]
  | succ n ih =>
    have hlt : n < P.size := hn
    obtain ⟨N, hN⟩ := ih (Nat.le_of_lt hlt)
    have hwidth : ∃ M, ∀ k ≥ M, (l (k + 1)).width n = (l k).width n := by
      by_cases hfwd : Forward P n
      · obtain ⟨M, hM⟩ := hforward
        exact ⟨M, fun k hk => hM k hk n hlt hfwd⟩
      · exact h.settles_at hlt hfwd hN
    obtain ⟨M, hM⟩ := hwidth
    refine ⟨max N M + 1, fun k hk i hi => ?_⟩
    rcases Nat.le_or_eq_of_le_succ hi with hi | rfl
    · exact hN k (by omega) i hi
    · obtain ⟨k, rfl⟩ : ∃ j, k = j + 1 := ⟨k - 1, by omega⟩
      rw [(h (k + 1)).start_succ n hlt, (h k).start_succ n hlt, hM (k + 1) (by omega),
        hN (k + 1) (by omega) n (Nat.le_refl n)]

/-- Two layouts agree on where the blocks start, and on every displacement but the last block's. -/
def Agree (P : Program) (l m : Layout) : Prop :=
  (∀ i < P.size, l.start i = m.start i) ∧ ∀ i, i + 1 < P.size → l.width i = m.width i

/-- Passes from layouts that agree lead to layouts that agree. -/
theorem Pass.agree {l l' m m' : Layout} (htarget : ∀ i t, P.target i = some t → t < P.size)
    (hl : Pass P l l') (hm : Pass P m m') (h : Agree P l m) : Agree P l' m' := by
  -- A displacement depends on starts before it of the new layouts, and on the old layouts.
  have hwidth : ∀ i, i + 1 < P.size → (∀ j ≤ i, l'.start j = m'.start j) →
      l'.width i = m'.width i := by
    intro i hi hbefore
    rw [hl.width i (by omega), hm.width i (by omega)]
    cases ht : P.target i with
    | none => rfl
    | some t =>
      have hold := h.1 t (htarget i t ht)
      simp only [Option.map_some, Option.getD_some, displacement]
      rw [hbefore i (Nat.le_refl i), h.2 i hi]
      split
      · rename_i hle
        rw [hbefore t hle]
      · rw [hold]
  have hstart : ∀ i < P.size, ∀ j ≤ i, l'.start j = m'.start j := by
    intro i hi
    induction i with
    | zero =>
      intro j hj
      obtain rfl : j = 0 := Nat.le_zero.mp hj
      rw [hl.start_zero, hm.start_zero]
    | succ i ih =>
      intro j hj
      have hbefore := ih (by omega)
      rcases Nat.le_or_eq_of_le_succ hj with hj | rfl
      · exact hbefore j hj
      · rw [hl.start_succ i (by omega), hm.start_succ i (by omega), hbefore i (Nat.le_refl i),
          hwidth i hi hbefore]
  exact ⟨fun i hi => hstart i hi i (Nat.le_refl i),
    fun i hi => hwidth i hi (hstart i (by omega))⟩

/-- After a pass that changes nothing but the last displacement, no jump forwards changes. -/
theorem Run.forward_of_still (h : Run P l) (htarget : ∀ i t, P.target i = some t → t < P.size)
    {k : Nat} (hstill : Agree P (l (k + 1)) (l k)) : ForwardSettles P l := by
  have hall : ∀ m ≥ k, Agree P (l (m + 1)) (l m) := by
    intro m hm
    induction m, hm using Nat.le_induction with
    | base => exact hstill
    | succ m _ ih => exact Pass.agree htarget (h (m + 1)) (h m) ih
  refine ⟨k, fun m hm i _ hforward => (hall m hm).2 i ?_⟩
  obtain ⟨t, ht, hlt⟩ := hforward
  have := htarget i t ht
  omega

/-- Whatever the lengths of the displacements, up to the bound, each jump forwards needs the same
number of bytes. -/
def FixedForward (P : Program) : Prop :=
  ∀ i t, P.target i = some t → i < t → ∀ v v' w w' : Nat → Nat,
    (∀ k < P.size, v k ≤ P.bound ∧ v' k ≤ P.bound ∧ w k ≤ P.bound ∧ w' k ≤ P.bound) →
      P.len (starts P v t - (starts P v' i + P.base i + v i : Nat)) =
        P.len (starts P w t - (starts P w' i + P.base i + w i : Nat))

theorem Run.forward_of_fixed (h : Run P l) (htarget : ∀ i t, P.target i = some t → t < P.size)
    (hfixed : FixedForward P) : ForwardSettles P l := by
  -- What the second pass and each later one compute for a jump forwards.
  have hwidth : ∀ k i t, i < P.size → P.target i = some t → i < t →
      (l (k + 2)).width i = P.len (starts P (l (k + 1)).width t -
        (starts P (l (k + 2)).width i + P.base i + (l (k + 1)).width i : Nat)) := by
    intro k i t hi ht hlt
    rw [(h (k + 1)).width i hi, ht]
    simp only [Option.map_some, Option.getD_some, displacement, if_neg (Nat.not_le.mpr hlt)]
    rw [(h k).start_eq (Nat.le_of_lt (htarget i t ht)), (h (k + 1)).start_eq (Nat.le_of_lt hi)]
  refine ⟨2, fun k hk i hi hforward => ?_⟩
  obtain ⟨k, rfl⟩ := Nat.exists_eq_add_of_le' hk
  obtain ⟨t, ht, hlt⟩ := hforward
  have hthis := hwidth k i t hi ht hlt
  have hnext := hwidth (k + 1) i t hi ht hlt
  rw [hthis]
  refine hnext.trans (hfixed i t ht hlt _ _ _ _ fun j hj => ?_)
  exact ⟨(h (k + 1)).width_le hj, (h (k + 2)).width_le hj, (h k).width_le hj,
    (h (k + 1)).width_le hj⟩

end

end Dolang.Relax
