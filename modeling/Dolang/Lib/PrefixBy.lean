import Mathlib.Data.List.Forall2
import Mathlib.Tactic.Common

/-!
# Prefixes up to a relation

`PrefixBy R l r` says that the elements of `l` are related to the first elements of `r`. Of two
lists, one is a prefix of the other or they differ at some place.
-/

namespace Dolang

variable {α β : Type*} {R : α → β → Prop}

/-- A list that is related to the start of another one. -/
def PrefixBy (R : α → β → Prop) : List α → List β → Prop
  | [], _ => True
  | _ :: _, [] => False
  | a :: l, b :: r => R a b ∧ PrefixBy R l r

namespace PrefixBy

@[simp]
theorem nil (r : List β) : PrefixBy R [] r := trivial

@[simp]
theorem cons_nil (a : α) (l : List α) : ¬PrefixBy R (a :: l) [] := id

@[simp]
theorem cons_cons {a : α} {b : β} {l : List α} {r : List β} :
    PrefixBy R (a :: l) (b :: r) ↔ R a b ∧ PrefixBy R l r := Iff.rfl

theorem length_le {l : List α} {r : List β} (h : PrefixBy R l r) : l.length ≤ r.length := by
  induction l generalizing r with
  | nil => exact Nat.zero_le _
  | cons a l ih =>
    cases r with
    | nil => exact h.elim
    | cons b r => exact Nat.succ_le_succ (ih h.2)

theorem mono {S : α → β → Prop} (hRS : ∀ a b, R a b → S a b) {l : List α} {r : List β}
    (h : PrefixBy R l r) : PrefixBy S l r := by
  induction l generalizing r with
  | nil => trivial
  | cons a l ih =>
    cases r with
    | nil => exact h.elim
    | cons b r => exact ⟨hRS a b h.1, ih h.2⟩

/-- A prefix of the same length is all of the list. -/
theorem forall₂ {l : List α} {r : List β} (h : PrefixBy R l r) (hlen : r.length ≤ l.length) :
    List.Forall₂ R l r := by
  induction l generalizing r with
  | nil =>
    obtain rfl := List.length_eq_zero_iff.mp (Nat.le_zero.mp hlen)
    exact .nil
  | cons a l ih =>
    cases r with
    | nil => exact h.elim
    | cons b r => exact .cons h.1 (ih h.2 (Nat.le_of_succ_le_succ hlen))

theorem of_forall₂ {l : List α} {r : List β} (h : List.Forall₂ R l r) : PrefixBy R l r := by
  induction h with
  | nil => trivial
  | cons hab _ ih => exact ⟨hab, ih⟩

end PrefixBy

/-- A prefix that something follows. -/
def ProperPrefixBy (R : α → β → Prop) (l : List α) (r : List β) : Prop :=
  PrefixBy R l r ∧ l.length < r.length

end Dolang
