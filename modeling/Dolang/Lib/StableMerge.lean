import Mathlib.Data.List.Basic
import Mathlib.Logic.Function.Basic
import Mathlib.Order.Defs.Unbundled
import Mathlib.Tactic.Common

/-!
# Merge sorts that ask for each comparison

`MergeSorts keep swap xs out` says that `out` comes from `xs` by merging parts of it, where
`keep x y` or `swap x y` is what a comparison answered when `x`, of an earlier part, stood before
`y`, of a later part. Whatever the answers are, no element is lost (`MergeSorts.perm`). If they come
from a strict weak order, then the result is sorted (`MergeSorts.sorted`), and elements that are tied
stay in their order (`MergeSorts.stable`).
-/

namespace Dolang

variable {α : Type*}

/-- A merge of two lists: `keep x y` lets the first element of the left list go first, and
`swap x y` that of the right one. -/
inductive Merges (keep swap : α → α → Prop) : List α → List α → List α → Prop where
  | nilLeft (ys : List α) : Merges keep swap [] ys ys
  | nilRight (xs : List α) : Merges keep swap xs [] xs
  | left {x y : α} {xs ys out : List α} (h : keep x y) (tail : Merges keep swap xs (y :: ys) out) :
      Merges keep swap (x :: xs) (y :: ys) (x :: out)
  | right {x y : α} {xs ys out : List α} (h : swap x y) (tail : Merges keep swap (x :: xs) ys out) :
      Merges keep swap (x :: xs) (y :: ys) (y :: out)

/-- A list that comes from another one by merging parts of it. -/
inductive MergeSorts (keep swap : α → α → Prop) : List α → List α → Prop where
  | short {xs : List α} (h : xs.length ≤ 1) : MergeSorts keep swap xs xs
  | merge {xs ys xs' ys' out : List α} (left : MergeSorts keep swap xs xs')
      (right : MergeSorts keep swap ys ys') (h : Merges keep swap xs' ys' out) :
      MergeSorts keep swap (xs ++ ys) out

variable {keep swap : α → α → Prop} {xs ys out : List α}

theorem Merges.perm (h : Merges keep swap xs ys out) : out.Perm (xs ++ ys) := by
  induction h with
  | nilLeft ys => exact .refl _
  | nilRight xs => rw [List.append_nil]
  | left _ _ ih => exact ih.cons _
  | right _ _ ih => exact (ih.cons _).trans List.perm_middle.symm

theorem Merges.mono {keep' swap' : α → α → Prop} (hkeep : ∀ x y, keep x y → keep' x y)
    (hswap : ∀ x y, swap x y → swap' x y) (h : Merges keep swap xs ys out) :
    Merges keep' swap' xs ys out := by
  induction h with
  | nilLeft ys => exact .nilLeft ys
  | nilRight xs => exact .nilRight xs
  | left h _ ih => exact .left (hkeep _ _ h) ih
  | right h _ ih => exact .right (hswap _ _ h) ih

theorem MergeSorts.perm (h : MergeSorts keep swap xs out) : out.Perm xs := by
  induction h with
  | short h => exact .refl _
  | merge _ _ h ihl ihr => exact h.perm.trans (ihl.append ihr)

theorem MergeSorts.mono {keep' swap' : α → α → Prop} (hkeep : ∀ x y, keep x y → keep' x y)
    (hswap : ∀ x y, swap x y → swap' x y) (h : MergeSorts keep swap xs out) :
    MergeSorts keep' swap' xs out := by
  induction h with
  | short h => exact .short h
  | merge _ _ h ihl ihr => exact .merge ihl ihr (h.mono hkeep hswap)

section Order

variable {lt : α → α → Bool}

/-- A list in which no element comes behind one that is greater. -/
def SortedBy (lt : α → α → Bool) (l : List α) : Prop :=
  l.Pairwise fun a b => lt b a = false

/-- Elements neither of which is less than the other. -/
def tied (lt : α → α → Bool) (a b : α) : Bool :=
  !lt a b && !lt b a

/-- A rearrangement that keeps the elements that are tied with an element in their order. -/
def StableBy (lt : α → α → Bool) (l out : List α) : Prop :=
  ∀ a, out.filter (tied lt a) = l.filter (tied lt a)

variable (hlt : IsStrictWeakOrder α fun a b => lt a b = true)

include hlt

theorem lt_trans_of_not (a b c : α) (hab : lt b a = false) (hbc : lt c b = false) :
    lt c a = false := by
  rw [← Bool.not_eq_true] at hab hbc ⊢
  intro hca
  by_cases hbc' : lt b c = true
  · exact hab (hlt.trans _ _ _ hbc' hca)
  · by_cases hab' : lt a b = true
    · exact hbc (hlt.trans _ _ _ hca hab')
    · exact (hlt.incomp_trans a b c ⟨hab', hab⟩ ⟨hbc', hbc⟩).2 hca

theorem lt_asymm_of_lt {a b : α} (hab : lt a b = true) : lt b a = false := by
  rw [← Bool.not_eq_true]
  exact fun hba => hlt.irrefl _ (hlt.trans _ _ _ hab hba)

/-- What is not less than `x` is tied with nothing that is less than `x`. -/
theorem tied_of_lt {a x y z : α} (hyx : lt y x = true) (hxz : lt z x = false)
    (hy : tied lt a y = true) : tied lt a z = false := by
  rw [tied, Bool.and_eq_true, Bool.not_eq_true', Bool.not_eq_true'] at hy
  rw [← Bool.not_eq_true, tied, Bool.and_eq_true, Bool.not_eq_true', Bool.not_eq_true']
  rintro ⟨haz, -⟩
  have hyz : lt y z = false := lt_trans_of_not hlt z a y haz hy.2
  exact Bool.false_ne_true ((lt_trans_of_not hlt x z y hxz hyz).symm.trans hyx)

theorem Merges.sorted (hkeep : ∀ x y, keep x y → lt y x = false)
    (hswap : ∀ x y, swap x y → lt y x = true) (h : Merges keep swap xs ys out)
    (hxs : SortedBy lt xs) (hys : SortedBy lt ys) : SortedBy lt out := by
  induction h with
  | nilLeft ys => exact hys
  | nilRight xs => exact hxs
  | @left x y xs ys out h tail ih =>
    obtain ⟨hx, hxs⟩ := List.pairwise_cons.mp hxs
    refine List.pairwise_cons.mpr ⟨fun z hz => ?_, ih hxs hys⟩
    rcases List.mem_append.mp (tail.perm.mem_iff.mp hz) with hz | hz
    · exact hx z hz
    · rcases List.mem_cons.mp hz with rfl | hz
      · exact hkeep _ _ h
      · exact lt_trans_of_not hlt x y z (hkeep _ _ h) ((List.pairwise_cons.mp hys).1 z hz)
  | @right x y xs ys out h tail ih =>
    obtain ⟨hy, hys⟩ := List.pairwise_cons.mp hys
    refine List.pairwise_cons.mpr ⟨fun z hz => ?_, ih hxs hys⟩
    have hyx := lt_asymm_of_lt hlt (hswap _ _ h)
    rcases List.mem_append.mp (tail.perm.mem_iff.mp hz) with hz | hz
    · rcases List.mem_cons.mp hz with rfl | hz
      · exact hyx
      · exact lt_trans_of_not hlt y x z hyx ((List.pairwise_cons.mp hxs).1 z hz)
    · exact hy z hz

theorem Merges.stable (hswap : ∀ x y, swap x y → lt y x = true) (h : Merges keep swap xs ys out)
    (hxs : SortedBy lt xs) (a : α) :
    out.filter (tied lt a) = xs.filter (tied lt a) ++ ys.filter (tied lt a) := by
  induction h with
  | nilLeft ys => rfl
  | nilRight xs => rw [List.filter_nil, List.append_nil]
  | @left x y xs ys out h tail ih =>
    rw [List.filter_cons, List.filter_cons, ih (List.pairwise_cons.mp hxs).2]
    split_ifs
    · rw [List.cons_append]
    · rfl
  | @right x y xs ys out h tail ih =>
    rw [List.filter_cons, ih hxs, List.filter_cons (x := y)]
    split_ifs with hy
    · -- Nothing on the left is tied with the element that overtakes it.
      have hnone : (x :: xs).filter (tied lt a) = [] := by
        rw [List.filter_eq_nil_iff]
        intro z hz
        rw [Bool.not_eq_true]
        refine tied_of_lt hlt (hswap _ _ h) ?_ hy
        rcases List.mem_cons.mp hz with rfl | hz
        · exact Bool.not_eq_true _ ▸ hlt.irrefl z
        · exact (List.pairwise_cons.mp hxs).1 z hz
      rw [hnone, List.nil_append, List.nil_append]
    · rfl

/-- A merge sort by a strict weak order sorts. -/
theorem MergeSorts.sorted (hkeep : ∀ x y, keep x y → lt y x = false)
    (hswap : ∀ x y, swap x y → lt y x = true) (h : MergeSorts keep swap xs out) :
    SortedBy lt out := by
  induction h with
  | @short xs h =>
    match xs, h with
    | [], _ => exact .nil
    | [x], _ => exact List.pairwise_singleton _ x
  | merge _ _ h ihl ihr => exact h.sorted hlt hkeep hswap ihl ihr

/-- A merge sort by a strict weak order is stable. -/
theorem MergeSorts.stable (hkeep : ∀ x y, keep x y → lt y x = false)
    (hswap : ∀ x y, swap x y → lt y x = true) (h : MergeSorts keep swap xs out) :
    StableBy lt xs out := by
  intro a
  induction h with
  | short h => rfl
  | merge left _ h ihl ihr =>
    rw [h.stable hlt hswap (left.sorted hlt hkeep hswap), List.filter_append, ihl, ihr]

end Order

end Dolang
