import Mathlib.Data.Int.Notation
import Mathlib.Tactic.Common

/-!
# Memory as allocations of cells

A program's memory is a list of allocations, each of which has cells until it is freed. Loads, stores
and frees are checked: they have no result where the program's behaviour is undefined. What a store
does to later loads is said once here, so that proofs about programs need not take lists of cells apart.
-/

namespace Dolang.Memory

variable {C : Type}

/-- An access to memory that is not there or not initialised. -/
inductive Undefined where
  | undefined
  deriving DecidableEq

/-- The allocations that have been made. One that is freed has no cells. -/
abbrev Heap (C : Type) := List (Option (List C))

/-- The number of cells of an allocation. -/
def size (h : Heap C) (a : ℕ) : Option ℕ :=
  h[a]?.join.map List.length

/-- A new allocation. -/
def alloc (h : Heap C) (n : ℕ) (c : C) : ℕ × Heap C :=
  (h.length, h ++ [some (List.replicate n c)])

/-- The cells of a part of an allocation. -/
def load (h : Heap C) (a start len : ℕ) : Option (List C) :=
  h[a]?.join.bind fun cells =>
    if start + len ≤ cells.length then some ((cells.drop start).take len) else none

/-- Writes cells into an allocation. -/
def store (h : Heap C) (a start : ℕ) (data : List C) : Option (Heap C) :=
  h[a]?.join.bind fun cells =>
    if start + data.length ≤ cells.length then
      some (h.set a (some (cells.take start ++ data ++ cells.drop (start + data.length))))
    else none

/-- Frees an allocation, of which the size is given. -/
def free (h : Heap C) (a n : ℕ) : Option (Heap C) :=
  if size h a = some n then some (h.set a none) else none

variable {h h' : Heap C} {a b start len n : ℕ} {data d d' : List C}

theorem size_eq_some : size h a = some n ↔ ∃ cells, h[a]? = some (some cells) ∧ cells.length = n := by
  rw [size, Option.map_eq_some_iff]
  simp only [Option.join_eq_some_iff]

theorem lt_length_of_size (hs : size h a = some n) : a < h.length := by
  obtain ⟨cells, hcells, -⟩ := size_eq_some.mp hs
  exact (List.getElem?_eq_some_iff.mp hcells).1

theorem load_eq_some : load h a start len = some d ↔ ∃ cells, h[a]? = some (some cells) ∧
    start + len ≤ cells.length ∧ (cells.drop start).take len = d := by
  rw [load, Option.bind_eq_some_iff]
  simp only [Option.join_eq_some_iff, Option.ite_none_right_eq_some, Option.some.injEq]

theorem store_eq_some : store h a start data = some h' ↔ ∃ cells, h[a]? = some (some cells) ∧
    start + data.length ≤ cells.length ∧
    h.set a (some (cells.take start ++ data ++ cells.drop (start + data.length))) = h' := by
  rw [store, Option.bind_eq_some_iff]
  simp only [Option.join_eq_some_iff, Option.ite_none_right_eq_some, Option.some.injEq]

/-- What is loaded has the length that was asked for. -/
theorem length_of_load (hl : load h a start len = some d) : d.length = len := by
  obtain ⟨cells, -, hle, rfl⟩ := load_eq_some.mp hl
  rw [List.length_take, List.length_drop]
  omega

/-- A part of what a load gives is given by a load of the part. -/
theorem load_part (hl : load h a start len = some d) {i m : ℕ} (hle : i + m ≤ len) :
    load h a (start + i) m = some ((d.drop i).take m) := by
  obtain ⟨cells, hcells, hlen, rfl⟩ := load_eq_some.mp hl
  refine load_eq_some.mpr ⟨cells, hcells, by omega, ?_⟩
  rw [List.drop_take, List.take_take, List.drop_drop]
  congr 1
  omega

/-- Loads of two parts next to each other are a load of both. -/
theorem load_append {m : ℕ} (hl : load h a start len = some d)
    (hl' : load h a (start + len) m = some d') : load h a start (len + m) = some (d ++ d') := by
  obtain ⟨cells, hcells, -, rfl⟩ := load_eq_some.mp hl
  obtain ⟨cells', hcells', hle, rfl⟩ := load_eq_some.mp hl'
  obtain rfl := Option.some.inj (Option.some.inj (hcells.symm.trans hcells'))
  refine load_eq_some.mpr ⟨cells, hcells, by omega, ?_⟩
  rw [List.take_add, List.drop_drop]

/-- A load within an allocation has a result. -/
theorem exists_load (hs : size h a = some n) (hle : start + len ≤ n) :
    ∃ d, load h a start len = some d := by
  obtain ⟨cells, hcells, rfl⟩ := size_eq_some.mp hs
  exact ⟨_, load_eq_some.mpr ⟨cells, hcells, hle, rfl⟩⟩

/-- A store within an allocation has a result. -/
theorem exists_store (data : List C) (hs : size h a = some n) (hle : start + data.length ≤ n) :
    ∃ h', store h a start data = some h' := by
  obtain ⟨cells, hcells, rfl⟩ := size_eq_some.mp hs
  exact ⟨_, store_eq_some.mpr ⟨cells, hcells, hle, rfl⟩⟩

/-- A store changes no size. -/
theorem size_store (hstore : store h a start data = some h') (b : ℕ) : size h' b = size h b := by
  obtain ⟨cells, hcells, hle, rfl⟩ := store_eq_some.mp hstore
  by_cases hab : a = b
  · subst hab
    have hlt := (List.getElem?_eq_some_iff.mp hcells).1
    rw [size, size, List.getElem?_set_self hlt, hcells]
    simp only [Option.join_some, Option.map_some, List.length_append, List.length_take,
      List.length_drop]
    congr 1
    omega
  · rw [size, size, List.getElem?_set_ne hab]

/-- A store makes no allocation. -/
theorem length_store (hstore : store h a start data = some h') : h'.length = h.length := by
  obtain ⟨cells, -, -, rfl⟩ := store_eq_some.mp hstore
  rw [List.length_set]

/-- What was stored is loaded. -/
theorem load_store (hstore : store h a start data = some h') :
    load h' a start data.length = some data := by
  obtain ⟨cells, hcells, hle, rfl⟩ := store_eq_some.mp hstore
  have hlt := (List.getElem?_eq_some_iff.mp hcells).1
  have htake : (cells.take start).length = start := List.length_take_of_le (by omega)
  refine load_eq_some.mpr ⟨_, List.getElem?_set_self hlt, ?_, ?_⟩
  · simp only [List.length_append, htake]
    omega
  · rw [List.append_assoc, List.drop_left' htake, List.take_left]

/-- A store leaves what is elsewhere. -/
theorem load_store_of_apart (hstore : store h a start data = some h') {start' : ℕ}
    (hapart : b ≠ a ∨ start' + len ≤ start ∨ start + data.length ≤ start') :
    load h' b start' len = load h b start' len := by
  obtain ⟨cells, hcells, hle, rfl⟩ := store_eq_some.mp hstore
  by_cases hab : b = a
  · subst hab
    have hlt := (List.getElem?_eq_some_iff.mp hcells).1
    have htake : (cells.take start).length = start := List.length_take_of_le (by omega)
    have hlen : (cells.take start ++ data ++ cells.drop (start + data.length)).length =
        cells.length := by
      simp only [List.length_append, htake, List.length_drop]
      omega
    rw [load, load, List.getElem?_set_self hlt, hcells]
    simp only [Option.join_some, Option.bind_some, hlen]
    congr 2
    obtain h | hbefore | hbehind := hapart
    · exact absurd rfl h
    · rw [List.append_assoc, List.drop_append_of_le_length (by omega),
        List.take_append_of_le_length (by rw [List.length_drop]; omega), List.drop_take,
        List.take_take]
      congr 1
      omega
    · obtain ⟨i, rfl⟩ := Nat.exists_eq_add_of_le hbehind
      rw [← List.drop_drop, List.drop_left' (by rw [List.length_append, htake]), List.drop_drop]
  · rw [load, load, List.getElem?_set_ne (fun heq => hab heq.symm)]

/-- An allocation changes nothing that is there. -/
theorem size_alloc (hs : size h a = some n) (m : ℕ) (c : C) : size (alloc h m c).2 a = some n := by
  rw [size, alloc, List.getElem?_append_left (lt_length_of_size hs)]
  exact hs

theorem size_alloc_self (h : Heap C) (m : ℕ) (c : C) :
    size (alloc h m c).2 (alloc h m c).1 = some m := by
  simp [size, alloc]

theorem load_alloc (hl : load h a start len = some d) (m : ℕ) (c : C) :
    load (alloc h m c).2 a start len = some d := by
  obtain ⟨cells, hcells, hle, rfl⟩ := load_eq_some.mp hl
  refine load_eq_some.mpr ⟨cells, ?_, hle, rfl⟩
  rw [alloc, List.getElem?_append_left (List.getElem?_eq_some_iff.mp hcells).1, hcells]

/-- A free leaves the other allocations. -/
theorem size_free (hfree : free h a n = some h') (hne : b ≠ a) : size h' b = size h b := by
  obtain ⟨-, heq⟩ := Option.ite_none_right_eq_some.mp hfree
  rw [← Option.some.inj heq, size, size, List.getElem?_set_ne fun heq => hne heq.symm]

theorem load_free (hfree : free h a n = some h') (hne : b ≠ a) :
    load h' b start len = load h b start len := by
  obtain ⟨-, heq⟩ := Option.ite_none_right_eq_some.mp hfree
  rw [← Option.some.inj heq, load, load, List.getElem?_set_ne fun heq => hne heq.symm]

/-- What is freed is not there any more. -/
theorem size_free_self (hfree : free h a n = some h') : size h' a = none := by
  obtain ⟨hs, heq⟩ := Option.ite_none_right_eq_some.mp hfree
  rw [← Option.some.inj heq, size, List.getElem?_set_self (lt_length_of_size hs)]
  rfl

end Dolang.Memory
