import Dolang.Bytecode.SourceMap

/-!
# Looking up the location of an instruction

`FuncDebug::locate` of `dolang-runtime/src/lib.rs`, on the source map that the loader of
`dolang-runtime/src/vm.rs` decodes. An entry holds until the next one (`spanAt`), so what is looked
up in an encoded list is the span of its last entry at or before an offset, and that of its first one
where there is none (`locate_encode`).
-/

namespace Dolang.Runtime

open Dolang.Rust Dolang.Bytecode

/-- The source map as it is loaded: the entries of a verified file all decode. -/
def loadSourcemap (sourcemap : List SourceSpan) : Exec Empty (List (Nat × SourcePos)) :=
  mapAll (fun
    | .ok entry => .ok entry
    | .error _ => abort) (spans none sourcemap)

/-- `FuncDebug::locate`: the span of the instruction at `pc`. -/
def locate (sourcemap : List (Nat × SourcePos)) (pc : Nat) : Exec Empty SourcePos := do
  let index ← match (sourcemap.map (·.1)).idxOf? pc with
    | some i => .ok i
    -- Where `pc` would be inserted, less one.
    | none => unwrap (checkedSub (sourcemap.countP (·.1 < pc)) 1)
  let entry ← unwrap sourcemap[index]?
  return entry.2

/-- The span that holds at an offset, after a span that holds before the list. -/
def spanAt : Option SourcePos → List (Nat × SourcePos) → Nat → Option SourcePos
  | last, [], _ => last
  | last, (offset, span) :: rest, pc => spanAt (if offset ≤ pc then some span else last) rest pc

theorem spanAt_append (last : Option SourcePos) (l l' : List (Nat × SourcePos)) (pc : Nat) :
    spanAt last (l ++ l') pc = spanAt (spanAt last l pc) l' pc := by
  induction l generalizing last with
  | nil => rfl
  | cons r l ih => exact ih _

/-- Where a span holds before the list, one holds at every offset. -/
theorem exists_spanAt (span : SourcePos) (l : List (Nat × SourcePos)) (pc : Nat) :
    ∃ s, spanAt (some span) l pc = some s := by
  induction l generalizing span with
  | nil => exact ⟨span, rfl⟩
  | cons r l ih =>
    rw [spanAt]
    split
    · exact ih r.2
    · exact ih span

/-- Entries behind an offset do not hold there. -/
theorem spanAt_of_lt {last : Option SourcePos} {l : List (Nat × SourcePos)} {pc : Nat}
    (h : ∀ r ∈ l, pc < r.1) : spanAt last l pc = last := by
  induction l with
  | nil => rfl
  | cons r l ih =>
    rw [spanAt, if_neg (Nat.not_le.mpr (h r List.mem_cons_self))]
    exact ih fun r' hr' => h r' (List.mem_cons_of_mem _ hr')

/-- Of entries at or before an offset the last one holds there. -/
theorem spanAt_of_le {last : Option SourcePos} {l : List (Nat × SourcePos)} {pc : Nat}
    (h : ∀ r ∈ l, r.1 ≤ pc) : spanAt last l pc = (l.getLast?.map (·.2)).or last := by
  induction l generalizing last with
  | nil => rfl
  | cons r l ih =>
    rw [spanAt, if_pos (h r List.mem_cons_self), ih fun r' hr' => h r' (List.mem_cons_of_mem _ hr')]
    cases l with
    | nil => rfl
    | cons r' l =>
      rw [List.getLast?_cons_cons, List.getLast?_eq_some_getLast (List.cons_ne_nil r' l)]
      rfl

/-- Leaving out repetitions changes no span. -/
theorem spanAt_mergeSpans {l : List (Nat × SourcePos)} (hl : l.Pairwise (·.1 < ·.1)) (pc : Nat) :
    ∀ last, spanAt last (mergeSpans last l) pc = spanAt last l pc := by
  induction l with
  | nil => exact fun _ => rfl
  | cons r l ih =>
    obtain ⟨offset, span⟩ := r
    intro last
    rw [mergeSpans, spanAt]
    split
    · rename_i hsame
      rw [ih hl.of_cons, hsame, ite_self]
    · rw [spanAt]
      by_cases hle : offset ≤ pc
      · rw [if_pos hle, ih hl.of_cons]
      · -- The rest is behind the offset too.
        have hlt : ∀ r ∈ l, pc < r.1 := fun r hr =>
          (Nat.not_le.mp hle).trans (List.rel_of_pairwise_cons hl hr)
        rw [if_neg hle, spanAt_of_lt hlt,
          spanAt_of_lt fun r hr => hlt r ((mergeSpans_sublist _).subset hr)]

/-- The first span covers what comes before it. -/
theorem spanAt_fromZero {l : List (Nat × SourcePos)} (hl : l.Pairwise (·.1 < ·.1)) (pc : Nat) :
    spanAt none (fromZero l) pc = (spanAt none l pc).or (l.head?.map (·.2)) := by
  cases l with
  | nil => rfl
  | cons r l =>
    obtain ⟨offset, span⟩ := r
    rw [fromZero, spanAt, if_pos (Nat.zero_le pc), spanAt]
    by_cases hle : offset ≤ pc
    · obtain ⟨s, hs⟩ := exists_spanAt span l pc
      rw [if_pos hle, hs, Option.some_or]
    · have hlt : ∀ r ∈ l, pc < r.1 := fun r hr =>
        (Nat.not_le.mp hle).trans (List.rel_of_pairwise_cons hl hr)
      rw [if_neg hle, spanAt_of_lt hlt, spanAt_of_lt hlt]
      rfl

/-- The offsets stay increasing. -/
theorem pairwise_fromZero {l : List (Nat × SourcePos)} (hl : l.Pairwise (·.1 < ·.1)) :
    (fromZero l).Pairwise (·.1 < ·.1) := by
  cases l with
  | nil => exact .nil
  | cons r l =>
    refine List.Pairwise.cons (fun r' hr' => ?_) hl.of_cons
    exact (Nat.zero_le _).trans_lt (List.rel_of_pairwise_cons hl hr')

/-- At increasing offsets the entries at or before an offset come first. -/
theorem exists_split {l : List (Nat × SourcePos)} (hl : l.Pairwise (·.1 < ·.1)) (pc : Nat) :
    ∃ a b, l = a ++ b ∧ (∀ r ∈ a, r.1 ≤ pc) ∧ ∀ r ∈ b, pc < r.1 := by
  induction l with
  | nil => exact ⟨[], [], rfl, by simp, by simp⟩
  | cons r l ih =>
    by_cases hle : r.1 ≤ pc
    · obtain ⟨a, b, rfl, ha, hb⟩ := ih hl.of_cons
      exact ⟨r :: a, b, rfl, by simpa using ⟨hle, fun o s h => ha (o, s) h⟩, hb⟩
    · refine ⟨[], r :: l, rfl, by simp, fun r' hr' => ?_⟩
      rcases List.mem_cons.mp hr' with rfl | hr'
      · exact Nat.not_le.mp hle
      · exact (Nat.not_le.mp hle).trans (List.rel_of_pairwise_cons hl hr')

/-- The binary search finds the last entry at or before an offset. -/
theorem locate_eq {a b : List (Nat × SourcePos)} {r : Nat × SourcePos} {pc : Nat}
    (ha : ∀ r' ∈ a, r'.1 < r.1) (hr : r.1 ≤ pc) (hb : ∀ r' ∈ b, pc < r'.1) :
    locate (a ++ r :: b) pc = .ok r.2 := by
  have hget : (a ++ r :: b)[a.length]? = some r := by simp
  unfold locate
  rcases Nat.lt_or_eq_of_le hr with hlt | heq
  · have hnone : ((a ++ r :: b).map (·.1)).idxOf? pc = none := by
      rw [List.idxOf?_eq_none_iff]
      intro hmem
      obtain ⟨r', hr', hpc⟩ := List.mem_map.mp hmem
      rcases List.mem_append.mp hr' with hr' | hr'
      · have := ha r' hr'
        omega
      · rcases List.mem_cons.mp hr' with rfl | hr'
        · omega
        · have := hb r' hr'
          omega
    have hcount : (a ++ r :: b).countP (·.1 < pc) = a.length + 1 := by
      have hall : a.countP (·.1 < pc) = a.length := by
        rw [List.countP_eq_length]
        intro r' hr'
        simpa using (ha r' hr').trans hlt
      have hrest : b.countP (·.1 < pc) = 0 := by
        rw [List.countP_eq_zero]
        intro r' hr'
        simpa using (hb r' hr').le
      rw [List.countP_append, List.countP_cons, hall, hrest]
      simp [hlt]
    simp only [hnone, hcount, checkedSub, Nat.le_add_left, if_true, Nat.add_sub_cancel, unwrap,
      ok_bind, hget]
    rfl
  · have hsome : ((a ++ r :: b).map (·.1)).idxOf? pc = some a.length := by
      rw [List.idxOf?_eq_some_iff]
      refine ⟨by simp, by simpa using heq, fun j hj => ?_⟩
      have hja : j < a.length := hj
      have := ha a[j] (List.getElem_mem hja)
      simp only [List.getElem_map, List.getElem_append_left hja]
      omega
    simp only [hsome, ok_bind, hget, unwrap]
    rfl

/-- What is looked up is the span that holds. -/
theorem locate_eq_spanAt {l : List (Nat × SourcePos)} (hl : l.Pairwise (·.1 < ·.1)) {pc : Nat}
    {span : SourcePos} (h : spanAt none l pc = some span) : locate l pc = .ok span := by
  obtain ⟨a, b, rfl, ha, hb⟩ := exists_split hl pc
  rw [spanAt_append, spanAt_of_lt hb, spanAt_of_le ha, Option.or_none] at h
  obtain ⟨r, hr, rfl⟩ := Option.map_eq_some_iff.mp h
  obtain ⟨a', rfl⟩ := List.getLast?_eq_some_iff.mp hr
  rw [List.append_assoc, List.singleton_append]
  refine locate_eq (fun r' hr' => ?_) (ha r (by simp)) hb
  exact (List.pairwise_append.mp (List.pairwise_append.mp hl).1).2.2 r' hr' r (by simp)

/-- Decoded entries are loaded as they are. -/
theorem loadSourcemap_of_spans {entries : List SourceSpan} {l : List (Nat × SourcePos)}
    (h : spans none entries = l.map .ok) : loadSourcemap entries = .ok l := by
  rw [loadSourcemap, h, mapAll_eq_ok, List.forall₂_map_left_iff, List.forall₂_same]
  exact fun _ _ => rfl

/-- What is looked up in an encoded list: the span of the last entry at or before the offset, or that
of the first one. -/
theorem locate_encode {len : Nat} (hlen : len ≤ usizeMax) {l : List (Nat × SourcePos)}
    (hl : Increasing len l) : ∃ entries loaded, encodeSourcemap l = .ok entries ∧
      (entries = [] ↔ l = []) ∧ loadSourcemap entries = .ok loaded ∧
      ∀ pc span, (spanAt none l pc).or (l.head?.map (·.2)) = some span →
        locate loaded pc = .ok span := by
  obtain ⟨entries, hencode, hspans⟩ := spans_encodeSourcemap hlen hl
  have hmerged : (mergeSpans none l).Pairwise (·.1 < ·.1) := hl.sorted.sublist (mergeSpans_sublist none)
  have hhead : (mergeSpans none l).head? = l.head? := by
    cases l with
    | nil => rfl
    | cons r l => rw [mergeSpans, if_neg (by simp)]; rfl
  refine ⟨entries, _, hencode, ?_, loadSourcemap_of_spans hspans, fun pc span h => ?_⟩
  · have hlength := length_of_spans hspans
    rw [length_fromZero] at hlength
    rw [← List.length_eq_zero_iff, hlength, List.length_eq_zero_iff]
    cases l with
    | nil => simp [mergeSpans]
    | cons r l => simp [mergeSpans]
  · refine locate_eq_spanAt (pairwise_fromZero hmerged) ?_
    rw [spanAt_fromZero hmerged, spanAt_mergeSpans hl.sorted, hhead]
    exact h

end Dolang.Runtime
