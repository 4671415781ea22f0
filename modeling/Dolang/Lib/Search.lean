import Mathlib.Algebra.BigOperators.Group.Finset.Basic
import Mathlib.Data.Fintype.Basic
import Mathlib.Logic.Relation

/-!
# Searching a graph

The loop `while let Some(a) = stack.pop()` that looks for a vertex: it stops at the one it looks for,
skips what it has seen, and else pushes the successors. On a finite graph it finds what is reachable
(`reaches_iff`).
-/

namespace Dolang.Search

open Relation

variable {α : Type*} [DecidableEq α]

/-- The loop, with the next vertex at the head of the stack. -/
def search (succs : α → List α) (goal : α) : ℕ → List α → List α → Bool
  | 0, _, _ | _ + 1, _, [] => false
  | fuel + 1, seen, a :: stack =>
    if a = goal then true
    else if a ∈ seen then search succs goal fuel seen stack
    else search succs goal fuel (a :: seen) ((succs a).reverse ++ stack)

/-- The edges of the graph. -/
abbrev Edge (succs : α → List α) (a b : α) : Prop :=
  b ∈ succs a

variable {succs : α → List α} {goal : α}

/-- What the loop finds is reachable from the stack. -/
theorem exists_of_search {fuel : ℕ} {seen stack : List α}
    (h : search succs goal fuel seen stack = true) :
    ∃ a ∈ stack, ReflTransGen (Edge succs) a goal := by
  induction fuel generalizing seen stack with
  | zero => simp [search] at h
  | succ fuel ih =>
    cases stack with
    | nil => simp [search] at h
    | cons a stack =>
      rw [search] at h
      split_ifs at h with hgoal hseen
      · exact ⟨a, List.mem_cons_self, hgoal ▸ .refl⟩
      · obtain ⟨b, hb, hreach⟩ := ih h
        exact ⟨b, List.mem_cons_of_mem _ hb, hreach⟩
      · obtain ⟨b, hb, hreach⟩ := ih h
        obtain hb | hb := List.mem_append.mp hb
        · exact ⟨a, List.mem_cons_self, .head (List.mem_reverse.mp hb) hreach⟩
        · exact ⟨b, List.mem_cons_of_mem _ hb, hreach⟩

/-- What is seen is not the goal, and its successors are seen or on the stack. -/
def Explored (succs : α → List α) (goal : α) (seen stack : List α) : Prop :=
  ∀ a ∈ seen, a ≠ goal ∧ ∀ b ∈ succs a, b ∈ seen ∨ b ∈ stack

/-- The number of turns that are left: the stack, and what the unseen vertices will push. -/
def turns [Fintype α] (succs : α → List α) (seen stack : List α) : ℕ :=
  ∑ a with a ∉ seen, (succs a).length + stack.length

theorem turns_cons [Fintype α] {seen stack : List α} {a : α} (ha : a ∉ seen) :
    turns succs (a :: seen) ((succs a).reverse ++ stack) = turns succs seen stack := by
  have herase : ({b | b ∉ a :: seen} : Finset α) = ({b | b ∉ seen} : Finset α).erase a := by
    ext b
    simp
  have hsum := Finset.add_sum_erase ({b | b ∉ seen} : Finset α) (fun b => (succs b).length)
    (by simpa using ha)
  unfold turns
  rw [herase, List.length_append, List.length_reverse]
  omega

/-- A loop that ends without the goal has closed off what it started from. -/
theorem closed_of_search [Fintype α] {fuel : ℕ} {seen stack : List α}
    (h : search succs goal fuel seen stack = false) (hfuel : turns succs seen stack < fuel)
    (hexp : Explored succs goal seen stack) :
    ∃ T : List α, (∀ a, a ∈ seen ∨ a ∈ stack → a ∈ T) ∧ Explored succs goal T [] := by
  induction fuel generalizing seen stack with
  | zero => exact absurd hfuel (Nat.not_lt_zero _)
  | succ fuel ih =>
    cases stack with
    | nil => exact ⟨seen, by simp, hexp⟩
    | cons a stack =>
      rw [search] at h
      split_ifs at h with hgoal hseen
      · have hturns : turns succs seen stack + 1 = turns succs seen (a :: stack) := rfl
        obtain ⟨T, hT, hclosed⟩ := ih h (by omega) fun b hb => by
          refine ⟨(hexp b hb).1, fun c hc => ?_⟩
          obtain hc | hc := (hexp b hb).2 c hc
          · exact .inl hc
          · obtain rfl | hc := List.mem_cons.mp hc
            · exact .inl hseen
            · exact .inr hc
        refine ⟨T, fun b hb => ?_, hclosed⟩
        obtain hb | hb := hb
        · exact hT b (.inl hb)
        · obtain rfl | hb := List.mem_cons.mp hb
          · exact hT b (.inl hseen)
          · exact hT b (.inr hb)
      · have hturns : turns succs seen stack + 1 = turns succs seen (a :: stack) := rfl
        have hcons : turns succs (a :: seen) ((succs a).reverse ++ stack) = turns succs seen stack :=
          turns_cons hseen
        obtain ⟨T, hT, hclosed⟩ := ih h (by omega) fun b hb => by
          obtain rfl | hb := List.mem_cons.mp hb
          · exact ⟨hgoal, fun c hc => .inr (List.mem_append_left _ (List.mem_reverse.mpr hc))⟩
          · refine ⟨(hexp b hb).1, fun c hc => ?_⟩
            obtain hc | hc := (hexp b hb).2 c hc
            · exact .inl (List.mem_cons_of_mem _ hc)
            · obtain rfl | hc := List.mem_cons.mp hc
              · exact .inl List.mem_cons_self
              · exact .inr (List.mem_append_right _ hc)
        refine ⟨T, fun b hb => ?_, hclosed⟩
        obtain hb | hb := hb
        · exact hT b (.inl (List.mem_cons_of_mem _ hb))
        · obtain rfl | hb := List.mem_cons.mp hb
          · exact hT b (.inl List.mem_cons_self)
          · exact hT b (.inr (List.mem_append_right _ hb))

omit [DecidableEq α] in
/-- A closed set holds what is reachable from it. -/
theorem mem_of_reachable {T : List α} (hT : Explored succs goal T []) {a b : α} (ha : a ∈ T)
    (h : ReflTransGen (Edge succs) a b) : b ∈ T := by
  induction h with
  | refl => exact ha
  | tail _ hedge ih => simpa using (hT _ ih).2 _ hedge

variable [Fintype α]

/-- Whether the search from `a` finds `goal`. -/
def reaches (succs : α → List α) (a goal : α) : Bool :=
  search succs goal (turns succs [] [a] + 1) [] [a]

/-- The search finds exactly what is reachable. -/
theorem reaches_iff {a : α} : reaches succs a goal = true ↔ ReflTransGen (Edge succs) a goal := by
  constructor
  · intro h
    obtain ⟨b, hb, hreach⟩ := exists_of_search h
    obtain rfl := List.mem_singleton.mp hb
    exact hreach
  · intro h
    by_contra hne
    obtain ⟨T, hT, hclosed⟩ := closed_of_search (Bool.eq_false_iff.mpr hne) (Nat.lt_succ_self _)
      (fun b hb => absurd hb List.not_mem_nil)
    have hgoal := mem_of_reachable hclosed (hT a (.inr (List.mem_singleton_self a))) h
    exact (hclosed goal hgoal).1 rfl

end Dolang.Search
