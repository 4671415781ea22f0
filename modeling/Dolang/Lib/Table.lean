import Mathlib.Algebra.BigOperators.Group.List.Basic
import Mathlib.Algebra.GroupWithZero.Nat
import Mathlib.Data.Finmap

/-!
# Tables

A hash map whose order nobody looks at is an association list with distinct keys, `AList` of
Mathlib. What is added here is the total of a number over the entries of a table (`total`), and how
inserting and erasing an entry changes it.
-/

namespace Dolang

/-- A map from keys to values. -/
abbrev Table (κ ν : Type*) := AList fun _ : κ => ν

namespace Table

variable {κ ν : Type*} (f : ν → ℕ)

/-- The total of `f` over the values of a table. -/
def total (t : Table κ ν) : ℕ :=
  (t.entries.map fun e => f e.2).sum

/-- The number of entries of a table. -/
def size (t : Table κ ν) : ℕ :=
  t.entries.length

@[simp] theorem total_empty : total f (∅ : Table κ ν) = 0 := rfl

@[simp] theorem size_empty : size (∅ : Table κ ν) = 0 := rfl

theorem size_eq_total (t : Table κ ν) : size t = total (fun _ => 1) t := by
  simp [size, total]

variable [DecidableEq κ]

theorem sum_kerase (l : List (Sigma fun _ : κ => ν)) (k : κ) :
    ((l.kerase k).map fun e => f e.2).sum + ((l.dlookup k).elim 0 f) =
      (l.map fun e => f e.2).sum := by
  induction l with
  | nil => simp
  | cons e l ih =>
    obtain ⟨k', v⟩ := e
    by_cases h : k = k'
    · subst h
      simp [add_comm]
    · rw [List.kerase_cons_ne h, List.dlookup_cons_ne _ _ h, List.map_cons, List.map_cons,
        List.sum_cons, List.sum_cons, ← ih]
      omega

/-- Erasing a key takes the value under it out of the total. -/
theorem total_erase (t : Table κ ν) (k : κ) :
    total f (t.erase k) + (t.lookup k).elim 0 f = total f t :=
  sum_kerase f t.entries k

/-- Inserting a value replaces the one under its key in the total. -/
theorem total_insert (t : Table κ ν) (k : κ) (v : ν) :
    total f (t.insert k v) + (t.lookup k).elim 0 f = f v + total f t := by
  have h := total_erase f t k
  simp only [total, AList.entries_insert, List.map_cons, List.sum_cons] at h ⊢
  simp only [AList.erase] at h
  omega

theorem total_insert_of_notMem {t : Table κ ν} {k : κ} (h : k ∉ t) (v : ν) :
    total f (t.insert k v) = f v + total f t := by
  have := total_insert f t k v
  rwa [AList.lookup_eq_none.2 h, Option.elim_none, Nat.add_zero] at this

/-- A value of a table is part of the total. -/
theorem le_total {t : Table κ ν} {k : κ} {v : ν} (h : t.lookup k = some v) : f v ≤ total f t := by
  have := total_erase f t k
  rw [h, Option.elim_some] at this
  omega

/-- The part of a total that the value under one key has. -/
theorem elim_le_total (t : Table κ ν) (k : κ) : (t.lookup k).elim 0 f ≤ total f t := by
  have := total_erase f t k
  omega

/-- A total is at most another one when each key adds at most as much to it. -/
theorem total_le_total {μ : Type*} (g : μ → ℕ) {t : Table κ ν} {u : Table κ μ}
    (h : ∀ k, (t.lookup k).elim 0 f ≤ (u.lookup k).elim 0 g) : total f t ≤ total g u := by
  -- The keys of the first table are taken out of both, one by one.
  induction hn : size t generalizing t u with
  | zero =>
    have h0 : t.entries = [] := List.length_eq_zero_iff.1 hn
    simp [total, h0]
  | succ n ih =>
    obtain ⟨⟨k, v⟩, es, he⟩ := List.exists_cons_of_length_eq_add_one hn
    have hl : t.lookup k = some v := AList.mem_lookup_iff.2 (by rw [he]; exact List.mem_cons_self)
    have hsize : size (t.erase k) = n := by
      have := total_erase (fun _ => 1) t k
      rw [hl, Option.elim_some, ← size_eq_total, ← size_eq_total, hn] at this
      omega
    have hrest : total f (t.erase k) ≤ total g (u.erase k) := by
      refine ih (fun k' => ?_) hsize
      by_cases hk : k' = k
      · subst hk
        simp
      · rw [AList.lookup_erase_ne hk, AList.lookup_erase_ne hk]
        exact h k'
    have ht := total_erase f t k
    have hu := total_erase g u k
    have hk := h k
    omega

/-- A total is zero when every value adds nothing. -/
theorem total_eq_zero {t : Table κ ν} (h : ∀ k v, t.lookup k = some v → f v = 0) :
    total f t = 0 := by
  apply List.sum_eq_zero
  intro n hn
  obtain ⟨⟨k, v⟩, he, rfl⟩ := List.mem_map.1 hn
  exact h k v (AList.mem_lookup_iff.2 he)

theorem size_erase_of_lookup {t : Table κ ν} {k : κ} {v : ν} (h : t.lookup k = some v) :
    size (t.erase k) + 1 = size t := by
  have := total_erase (fun _ => 1) t k
  rw [h, Option.elim_some] at this
  simpa only [size_eq_total] using this

theorem size_erase_le (t : Table κ ν) (k : κ) : size (t.erase k) ≤ size t := by
  have := total_erase (fun _ => 1) t k
  simp only [size_eq_total]
  omega

theorem size_insert_of_notMem {t : Table κ ν} {k : κ} (h : k ∉ t) (v : ν) :
    size (t.insert k v) = size t + 1 := by
  simp only [size_eq_total, total_insert_of_notMem _ h]
  omega

theorem size_insert_of_lookup {t : Table κ ν} {k : κ} {w : ν} (h : t.lookup k = some w) (v : ν) :
    size (t.insert k v) = size t := by
  have := total_insert (fun _ => 1) t k v
  rw [h, Option.elim_some] at this
  simp only [size_eq_total]
  omega

/-- Looking up a key after an insertion. -/
theorem lookup_insert_if (t : Table κ ν) (k k' : κ) (v : ν) :
    (t.insert k v).lookup k' = if k' = k then some v else t.lookup k' := by
  by_cases h : k' = k
  · subst h
    simp
  · rw [if_neg h]
    exact AList.lookup_insert_ne h

/-- Looking up a key after an erasure. -/
theorem lookup_erase_if (t : Table κ ν) (k k' : κ) :
    (t.erase k).lookup k' = if k' = k then none else t.lookup k' := by
  by_cases h : k' = k
  · subst h
    simp
  · rw [if_neg h]
    exact AList.lookup_erase_ne h

end Table

end Dolang
