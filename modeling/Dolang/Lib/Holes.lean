import Mathlib.Data.List.ReduceOption
import Mathlib.Data.List.Nodup
import Mathlib.Tactic.Common

/-!
# Lists with holes

A list of slots, some of them empty. `l.reduceOption` are the elements that are there, and
`rank l i` is the number of those before slot `i`: it is the place of the element of slot `i` once
the holes are gone (`getElem?_reduceOption`), and the order of the elements stays what it was
(`rank_lt_rank`).
-/

namespace Dolang.Holes

variable {α : Type*} {l : List (Option α)} {i j : ℕ} {a b : α}

/-- The number of elements before a slot. -/
def rank (l : List (Option α)) (i : ℕ) : ℕ :=
  (l.take i).reduceOption.length

theorem rank_zero : rank l 0 = 0 := rfl

/-- An element that is there counts for the slots after it. -/
theorem rank_succ (h : l[i]? = some (some a)) : rank l (i + 1) = rank l i + 1 := by
  rw [rank, List.take_add_one, h, List.reduceOption_append, List.length_append]
  rfl

theorem rank_mono (h : i ≤ j) : rank l i ≤ rank l j := by
  obtain ⟨k, rfl⟩ := Nat.exists_eq_add_of_le h
  rw [rank, rank, List.take_add, List.reduceOption_append, List.length_append]
  exact Nat.le_add_right _ _

/-- The elements keep their order. -/
theorem rank_lt_rank (h : l[i]? = some (some a)) (hij : i < j) : rank l i < rank l j :=
  calc rank l i < rank l i + 1 := Nat.lt_succ_self _
    _ = rank l (i + 1) := (rank_succ h).symm
    _ ≤ rank l j := rank_mono hij

/-- Where an element is once the holes are gone. -/
theorem getElem?_reduceOption (h : l[i]? = some (some a)) :
    l.reduceOption[rank l i]? = some a := by
  obtain ⟨hi, ha⟩ := List.getElem?_eq_some_iff.mp h
  have hsplit : l = l.take i ++ some a :: l.drop (i + 1) := by
    rw [← ha, List.getElem_cons_drop, List.take_append_drop]
  have hreduce : l.reduceOption = (l.take i).reduceOption ++ a :: (l.drop (i + 1)).reduceOption := by
    rw [← List.reduceOption_cons_of_some, ← List.reduceOption_append, ← hsplit]
  rw [hreduce, rank, List.getElem?_append_right (Nat.le_refl _), Nat.sub_self]
  rfl

/-- Each element without the holes comes from a slot. -/
theorem exists_of_getElem?_reduceOption (h : l.reduceOption[j]? = some a) :
    ∃ i : ℕ, l[i]? = some (some a) ∧ rank l i = j := by
  induction l generalizing j with
  | nil => simp at h
  | cons x l ih =>
    cases x with
    | none =>
      obtain ⟨i, hi, hrank⟩ := ih h
      exact ⟨i + 1, hi, hrank⟩
    | some b =>
      cases j with
      | zero => exact ⟨0, congrArg some h, rfl⟩
      | succ j =>
        obtain ⟨i, hi, hrank⟩ := ih h
        exact ⟨i + 1, hi, congrArg (· + 1) hrank⟩

/-- A list without holes. -/
theorem reduceOption_map_some {β : Type*} (f : β → α) (l : List β) :
    (l.map fun b => some (f b)).reduceOption = l.map f := by
  rw [List.reduceOption, List.filterMap_map]
  exact List.filterMap_eq_map ▸ rfl

/-- Elements that are in one slot each are there once. -/
theorem nodup_reduceOption
    (h : ∀ (i j : ℕ) (a : α), l[i]? = some (some a) → l[j]? = some (some a) → i = j) :
    l.reduceOption.Nodup := by
  refine List.nodup_iff_getElem?_ne_getElem?.mpr fun i j hij hj heq => ?_
  have hget := List.getElem?_eq_getElem hj
  obtain ⟨i', hi', hranki⟩ := exists_of_getElem?_reduceOption (heq.trans hget)
  obtain ⟨j', hj', hrankj⟩ := exists_of_getElem?_reduceOption hget
  have hsame := h i' j' _ hi' hj'
  subst hsame
  omega

end Dolang.Holes
