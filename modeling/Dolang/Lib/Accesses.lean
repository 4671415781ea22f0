import Mathlib.Logic.Basic
import Mathlib.Tactic.Common

/-!
# Reads before writes

A program reads and writes places in some order, here a list of accesses. A place is read first if
the list reads it and has not written it before. In a graph whose steps are labelled with what they
access, a place is live at a node if some path from there reads it first (`Live`). `live_iff`
unfolds a path by its first step, and `Live.rec_on_path` is the induction along it: a property that
every step carries back holds of each node where the place is live.
-/

namespace Dolang.Accesses

variable {S N : Type}

/-- One access of a place. -/
inductive Access (S : Type) where
  | read (place : S)
  | write (place : S)
  deriving DecidableEq, Repr

/-- The place is read before it is written. -/
def ReadsFirst (s : S) (l : List (Access S)) : Prop :=
  ∃ before after, l = before ++ .read s :: after ∧ .write s ∉ before

theorem not_readsFirst_nil (s : S) : ¬ ReadsFirst s [] := by
  rintro ⟨before, after, h, -⟩
  cases before <;> cases h

/-- What is read first among one access and more. -/
theorem readsFirst_cons {s : S} {a : Access S} {l : List (Access S)} :
    ReadsFirst s (a :: l) ↔ a = .read s ∨ a ≠ .write s ∧ ReadsFirst s l := by
  constructor
  · rintro ⟨before, after, h, hwrite⟩
    cases before with
    | nil => exact .inl (List.cons.inj h).1
    | cons b before =>
      obtain ⟨rfl, rfl⟩ := List.cons.inj h
      refine .inr ⟨fun heq => hwrite (heq ▸ List.mem_cons_self), before, after, rfl, fun hmem => ?_⟩
      exact hwrite (List.mem_cons_of_mem _ hmem)
  · rintro (rfl | ⟨hne, before, after, rfl, hwrite⟩)
    · exact ⟨[], l, rfl, List.not_mem_nil⟩
    · refine ⟨a :: before, after, rfl, fun hmem => ?_⟩
      obtain heq | hmem := List.mem_cons.mp hmem
      · exact hne heq.symm
      · exact hwrite hmem

/-- What is read first in two parts. -/
theorem readsFirst_append {s : S} {l r : List (Access S)} :
    ReadsFirst s (l ++ r) ↔ ReadsFirst s l ∨ .write s ∉ l ∧ ReadsFirst s r := by
  induction l with
  | nil => simp [not_readsFirst_nil]
  | cons a l ih =>
    rw [List.cons_append, readsFirst_cons, readsFirst_cons, ih, List.mem_cons, not_or]
    constructor
    · rintro (h | ⟨hne, h | ⟨hl, h⟩⟩)
      · exact .inl (.inl h)
      · exact .inl (.inr ⟨hne, h⟩)
      · exact .inr ⟨⟨Ne.symm hne, hl⟩, h⟩
    · rintro ((h | ⟨hne, h⟩) | ⟨⟨hne, hl⟩, h⟩)
      · exact .inl h
      · exact .inr ⟨hne, .inl h⟩
      · exact .inr ⟨Ne.symm hne, .inr ⟨hl, h⟩⟩

/-- A read at the end is of a place not written before. -/
theorem readsFirst_concat_read {s t : S} {l : List (Access S)} :
    ReadsFirst s (l ++ [.read t]) ↔ ReadsFirst s l ∨ .write s ∉ l ∧ t = s := by
  rw [readsFirst_append, readsFirst_cons, Access.read.injEq]
  simp [not_readsFirst_nil]

/-- A write at the end makes no place read first. -/
theorem readsFirst_concat_write {s t : S} {l : List (Access S)} :
    ReadsFirst s (l ++ [.write t]) ↔ ReadsFirst s l := by
  rw [readsFirst_append, readsFirst_cons]
  simp [not_readsFirst_nil]

variable {step : N → List (Access S) → N → Prop}

/-- The paths of a graph, with what they access. -/
inductive Path (step : N → List (Access S) → N → Prop) : N → List (Access S) → N → Prop where
  | refl (n : N) : Path step n [] n
  | head {n m k : N} {l r : List (Access S)} (h : step n l m) (rest : Path step m r k) :
    Path step n (l ++ r) k

/-- The place is read before it is written on some path from the node. -/
def Live (step : N → List (Access S) → N → Prop) (s : S) (n : N) : Prop :=
  ∃ l m, Path step n l m ∧ ReadsFirst s l

/-- A place is live if the first step of a path reads it first, or does not write it and leads to
where it is live. -/
theorem live_iff {s : S} {n : N} : Live step s n ↔
    ∃ l m, step n l m ∧ (ReadsFirst s l ∨ .write s ∉ l ∧ Live step s m) := by
  constructor
  · rintro ⟨path, k, hpath, hread⟩
    cases hpath with
    | refl => exact absurd hread (not_readsFirst_nil s)
    | @head _ m _ l r h rest =>
      refine ⟨l, m, h, ?_⟩
      obtain hl | ⟨hl, hr⟩ := readsFirst_append.mp hread
      · exact .inl hl
      · exact .inr ⟨hl, r, k, rest, hr⟩
  · rintro ⟨l, m, h, hread | ⟨hl, r, k, rest, hr⟩⟩
    · exact ⟨l ++ [], m, .head h (.refl m), readsFirst_append.mpr (.inl hread)⟩
    · exact ⟨l ++ r, k, .head h rest, readsFirst_append.mpr (.inr ⟨hl, hr⟩)⟩

/-- A property that steps carry back holds where a place is live. -/
theorem Live.rec_on_path {s : S} {P : N → Prop}
    (hread : ∀ n l m, step n l m → ReadsFirst s l → P n)
    (hstep : ∀ n l m, step n l m → .write s ∉ l → P m → P n) {n : N} (h : Live step s n) : P n := by
  obtain ⟨l, k, hpath, hfirst⟩ := h
  -- The induction is on the path; its accesses without the first step's are read first as well, or
  -- the first step reads the place itself.
  induction hpath with
  | refl => exact absurd hfirst (not_readsFirst_nil s)
  | @head n m _ l r h rest ih =>
    obtain hl | ⟨hl, hr⟩ := readsFirst_append.mp hfirst
    · exact hread n l m h hl
    · exact hstep n l m h hl (ih hr)

end Dolang.Accesses
