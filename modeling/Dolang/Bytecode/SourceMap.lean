import Dolang.Bytecode.File

/-!
# Source maps

`FuncDebug::encode_sourcemap` of `dolang-bytecode/src/file.rs`, the inverse of `FuncDebug::spans`.
Offsets, lines and columns are written relative to the entry before, in types narrower than those of
the source's arithmetic, and an entry is left out when its span is that of the entry before. Decoding
gives the list without these entries (`mergeSpans`), from offset `0` on, and `verify_funcdebugtab`
accepts it unless it has more entries than a function may have bytes.
-/

namespace Dolang.Bytecode

open Dolang.Rust

/-- A cast to `i32`. -/
def asI32 (x : Int) : Int := x.bmod (2^32)

/-- The line and column of an entry, relative to those of the entry before. Both differences are of 64
bits, and are cast. -/
def encodePos (priorLine priorColumn : Nat) (span : SourcePos) : Int × Int :=
  let lineDelta : Int := (span.line : Int) - priorLine
  let column := if lineDelta = 0 then (span.column : Int) - priorColumn else span.column
  (asI32 lineDelta, asI32 column)

/-- The entry of a span after the one before it, if any. -/
def encodeEntry (last : Option (Nat × SourcePos)) (offset : Nat) (span : SourcePos) :
    Exec Empty SourceSpan :=
  match last with
  | some (prior, priorSpan) => do
    let (lineDelta, column) := encodePos priorSpan.line priorSpan.column span
    let offsetDelta ← unwrap ((checkedSub offset prior).bind (checkedSub · 1))
    return ⟨offsetDelta, lineDelta, column, span.len⟩
  | none =>
    let (lineDelta, column) := encodePos 0 0 span
    .ok ⟨0, lineDelta, column, span.len⟩

/-- The loop of `FuncDebug::encode_sourcemap`. -/
def encodeFrom : Option (Nat × SourcePos) → List (Nat × SourcePos) → Exec Empty (List SourceSpan)
  | _, [] => .ok []
  | last, (offset, span) :: rest =>
    if last.map (·.2) = some span then encodeFrom last rest
    else do
      let entry ← encodeEntry last offset span
      let entries ← encodeFrom (some (if last.isSome then offset else 0, span)) rest
      return entry :: entries

/-- `FuncDebug::encode_sourcemap`. -/
def encodeSourcemap (l : List (Nat × SourcePos)) : Exec Empty (List SourceSpan) := encodeFrom none l

/-! ## What decoding is to give -/

/-- The list without the entries that repeat the span before them. -/
def mergeSpans : Option SourcePos → List (Nat × SourcePos) → List (Nat × SourcePos)
  | _, [] => []
  | last, (offset, span) :: rest =>
    if last = some span then mergeSpans last rest else (offset, span) :: mergeSpans (some span) rest

/-- The first span covers everything before it. -/
def fromZero : List (Nat × SourcePos) → List (Nat × SourcePos)
  | [] => []
  | (_, span) :: rest => (0, span) :: rest

/-- A span that `Span::new` can give: every field is in its range. -/
def SourcePos.Valid (s : SourcePos) : Prop :=
  s.line ≤ maxLine ∧ s.column ≤ maxColumn ∧ s.len ≤ maxLen

theorem SourcePos.new_eq {s : SourcePos} (h : s.Valid) :
    SourcePos.new s.line s.column s.len = s := by
  obtain ⟨hline, hcolumn, hlen⟩ := h
  rw [SourcePos.new, Nat.min_eq_left hline, Nat.min_eq_left hcolumn, Nat.min_eq_left hlen]

theorem asI32_eq {x : Int} (hlo : -2^31 ≤ x) (hhi : x < 2^31) : asI32 x = x := by
  rw [asI32, Int.bmod_eq_of_le] <;> omega

/-- The signed difference of two numbers of 32 bits takes one to the other. -/
theorem u32AddSigned_sub {a b : Nat} (hb : b < 2^32) : u32AddSigned a ((b : Int) - a) = some b := by
  have hsum : (a : Int) + (b - a) = b := by omega
  rw [u32AddSigned, hsum, if_pos ⟨by omega, by omega⟩, Int.toNat_natCast]

/-- Two checked additions undo the offset's delta. -/
theorem checkedAdd_offset {p offset : Nat} (hlt : p < offset) (hoffset : offset ≤ usizeMax) :
    (checkedAdd p (offset - p - 1)).bind (checkedAdd · 1) = some offset := by
  have h1 : p + (offset - p - 1) = offset - 1 := by omega
  have h2 : offset - 1 + 1 = offset := by omega
  rw [checkedAdd, h1, if_pos (by omega), Option.bind_some, checkedAdd, h2, if_pos hoffset]

/-- A line and a column read back. -/
theorem decode_encodePos {priorLine priorColumn : Nat} {span : SourcePos}
    (hline : priorLine ≤ maxLine) (hcolumn : priorColumn ≤ maxColumn) (hspan : span.Valid) :
    let delta := encodePos priorLine priorColumn span
    (u32AddSigned priorLine delta.1).filter (· ≤ maxLine) = some span.line ∧
    (if delta.1 = 0 then u32AddSigned priorColumn delta.2
      else if 0 ≤ delta.2 then some delta.2.toNat else none).filter (· ≤ maxColumn) =
        some span.column := by
  obtain ⟨hspanLine, hspanColumn, -⟩ := hspan
  have hmaxLine : maxLine < 2^31 := by decide
  have hmaxColumn : maxColumn < 2^31 := by decide
  intro delta
  have hdelta : delta.1 = (span.line : Int) - priorLine := asI32_eq (by omega) (by omega)
  have hcolumnDelta : delta.2 = if (span.line : Int) - priorLine = 0 then
      (span.column : Int) - priorColumn else span.column := by
    refine asI32_eq ?_ ?_
    · split <;> omega
    · split <;> omega
  rw [hdelta, hcolumnDelta]
  constructor
  · rw [u32AddSigned_sub (by omega), Option.filter_some, if_pos (by simpa using hspanLine)]
  · split
    · rw [u32AddSigned_sub (by omega), Option.filter_some, if_pos (by simpa using hspanColumn)]
    · rw [if_pos (by omega), Int.toNat_natCast, Option.filter_some,
        if_pos (by simpa using hspanColumn)]

/-- An entry decodes when its line, its column and its length do. -/
theorem decode_some {entry : SourceSpan} {p offset line column line' column' : Nat}
    (hoffset : (checkedAdd p entry.offsetDelta).bind (checkedAdd · 1) = some offset)
    (hline : (u32AddSigned line entry.lineDelta).filter (· ≤ maxLine) = some line')
    (hcolumn : (if entry.lineDelta = 0 then u32AddSigned column entry.column
      else if 0 ≤ entry.column then some entry.column.toNat else none).filter (· ≤ maxColumn) =
        some column')
    (hlen : entry.len ≤ maxLen) :
    entry.decode (some (p, line, column)) = .ok (offset, line', column') := by
  unfold SourceSpan.decode
  simp only [hoffset, bind, Except.bind, hline, hcolumn]
  rw [if_neg (Nat.not_lt.mpr hlen)]

/-- `decode_some` for the first entry, whose offset stands for itself. -/
theorem decode_none {lineDelta column : Int} {offset len line' column' : Nat}
    (hline : (u32AddSigned 0 lineDelta).filter (· ≤ maxLine) = some line')
    (hcolumn : (if lineDelta = 0 then u32AddSigned 0 column
      else if 0 ≤ column then some column.toNat else none).filter (· ≤ maxColumn) = some column')
    (hlen : len ≤ maxLen) :
    SourceSpan.decode none ⟨offset, lineDelta, column, len⟩ = .ok (offset, line', column') := by
  unfold SourceSpan.decode
  simp only [bind, Except.bind, hline, hcolumn]
  rw [if_neg (Nat.not_lt.mpr hlen)]

/-- The first entry reads back, at offset `0`. -/
theorem decode_encodeEntry_none (offset : Nat) {span : SourcePos} (hspan : span.Valid) :
    ∃ entry, encodeEntry none offset span = .ok entry ∧ entry.len = span.len ∧
      entry.decode none = .ok (0, span.line, span.column) := by
  obtain ⟨hline, hcolumn⟩ :=
    decode_encodePos (Nat.zero_le maxLine) (Nat.zero_le maxColumn) hspan
  refine ⟨⟨0, (encodePos 0 0 span).1, (encodePos 0 0 span).2, span.len⟩, ?_, rfl, ?_⟩
  · rw [encodeEntry]
  · exact decode_none hline hcolumn hspan.2.2

/-- An entry after another reads back. -/
theorem decode_encodeEntry_some {p offset : Nat} {prior span : SourcePos} (hprior : prior.Valid)
    (hspan : span.Valid) (hlt : p < offset) (hoffset : offset ≤ usizeMax) :
    ∃ entry, encodeEntry (some (p, prior)) offset span = .ok entry ∧ entry.len = span.len ∧
      entry.decode (some (p, prior.line, prior.column)) = .ok (offset, span.line, span.column) := by
  obtain ⟨hline, hcolumn⟩ := decode_encodePos hprior.1 hprior.2.1 hspan
  have hdelta : (checkedSub offset p).bind (checkedSub · 1) = some (offset - p - 1) := by
    rw [checkedSub, if_pos (by omega), Option.bind_some, checkedSub, if_pos (by omega)]
  refine ⟨⟨offset - p - 1, (encodePos prior.line prior.column span).1,
    (encodePos prior.line prior.column span).2, span.len⟩, ?_, rfl,
    decode_some (checkedAdd_offset hlt hoffset) hline hcolumn hspan.2.2⟩
  rw [encodeEntry]
  simp only [hdelta]
  rfl

/-! ## The round trip -/

/-- What lists of spans are encoded: spans that exist, at increasing offsets below a length. -/
structure Increasing (len : Nat) (l : List (Nat × SourcePos)) : Prop where
  valid : ∀ r ∈ l, r.2.Valid
  lt : ∀ r ∈ l, r.1 < len
  sorted : l.Pairwise (·.1 < ·.1)

theorem Increasing.tail {len : Nat} {r : Nat × SourcePos} {l : List (Nat × SourcePos)}
    (h : Increasing len (r :: l)) : Increasing len l :=
  ⟨fun r' hr' => h.valid r' (List.mem_cons_of_mem _ hr'),
    fun r' hr' => h.lt r' (List.mem_cons_of_mem _ hr'), h.sorted.of_cons⟩

/-- The entries after one with offset `p` and span `prior` read back as the spans they stand for. -/
theorem spans_encodeFrom {len : Nat} (hlen : len ≤ usizeMax) {l : List (Nat × SourcePos)} :
    ∀ {p : Nat} {prior : SourcePos}, prior.Valid → (∀ r ∈ l, p < r.1) → Increasing len l →
    ∃ entries, encodeFrom (some (p, prior)) l = .ok entries ∧
      spans (some (p, prior.line, prior.column)) entries =
        (mergeSpans (some prior) l).map .ok := by
  induction l with
  | nil => exact fun _ _ _ => ⟨[], rfl, rfl⟩
  | cons r l ih =>
    intro p prior hprior hlt hl
    obtain ⟨offset, span⟩ := r
    by_cases hsame : some prior = some span
    · obtain ⟨entries, hencode, hspans⟩ :=
        ih hprior (fun r hr => hlt r (List.mem_cons_of_mem _ hr)) hl.tail
      refine ⟨entries, ?_, ?_⟩
      · rw [encodeFrom, if_pos (by simpa using hsame), hencode]
      · rw [mergeSpans, if_pos hsame, hspans]
    · have hspan : span.Valid := hl.valid _ List.mem_cons_self
      have hoffset : offset ≤ usizeMax := (hl.lt (offset, span) List.mem_cons_self).le.trans hlen
      obtain ⟨entry, hentry, hentryLen, hdecode⟩ := decode_encodeEntry_some hprior hspan
        (hlt (offset, span) List.mem_cons_self) hoffset
      obtain ⟨entries, hencode, hspans⟩ :=
        ih (p := offset) hspan (fun r hr => List.rel_of_pairwise_cons hl.sorted hr) hl.tail
      refine ⟨entry :: entries, ?_, ?_⟩
      · rw [encodeFrom, if_neg (by simpa using hsame), hentry, ok_bind]
        simp only [Option.isSome_some, if_true]
        rw [hencode]
        rfl
      · rw [mergeSpans, if_neg hsame, spans, hdecode]
        dsimp only
        rw [hentryLen, SourcePos.new_eq hspan, hspans]
        rfl

/-- A list of spans reads back without its repetitions, from offset `0` on. -/
theorem spans_encodeSourcemap {len : Nat} (hlen : len ≤ usizeMax) {l : List (Nat × SourcePos)}
    (hl : Increasing len l) : ∃ entries, encodeSourcemap l = .ok entries ∧
      spans none entries = (fromZero (mergeSpans none l)).map .ok := by
  cases l with
  | nil => exact ⟨[], rfl, rfl⟩
  | cons r l =>
    obtain ⟨offset, span⟩ := r
    have hspan : span.Valid := hl.valid _ List.mem_cons_self
    obtain ⟨entry, hentry, hentryLen, hdecode⟩ := decode_encodeEntry_none offset hspan
    obtain ⟨entries, hencode, hspans⟩ := spans_encodeFrom hlen (p := 0) hspan
      (fun r hr => (Nat.zero_le _).trans_lt (List.rel_of_pairwise_cons hl.sorted hr)) hl.tail
    refine ⟨entry :: entries, ?_, ?_⟩
    · rw [encodeSourcemap, encodeFrom, if_neg (by simp), hentry, ok_bind]
      simp only [Option.isSome_none, Bool.false_eq_true, if_false]
      rw [hencode]
      rfl
    · rw [mergeSpans, if_neg (by simp), fromZero, spans, hdecode]
      dsimp only
      rw [hentryLen, SourcePos.new_eq hspan, hspans]
      rfl

/-! ## Verification -/

/-- Every entry that decodes stands for one span. -/
theorem length_of_spans {entries : List SourceSpan} : ∀ {state : Option (Nat × Nat × Nat)}
    {l : List (Nat × SourcePos)}, spans state entries = l.map .ok → entries.length = l.length := by
  induction entries with
  | nil =>
    intro state l h
    rw [spans] at h
    rw [List.map_eq_nil_iff.mp h.symm]
    rfl
  | cons entry entries ih =>
    intro state l h
    rw [spans] at h
    cases l with
    | nil =>
      split at h <;> cases h
    | cons r l =>
      split at h
      · cases h
      · rw [List.map_cons, List.cons.injEq] at h
        rw [List.length_cons, List.length_cons, ih h.2]

theorem mergeSpans_sublist {l : List (Nat × SourcePos)} :
    ∀ last, (mergeSpans last l).Sublist l := by
  induction l with
  | nil => exact fun _ => List.Sublist.refl []
  | cons r l ih =>
    intro last
    rw [mergeSpans]
    split
    · exact (ih last).cons r
    · exact (ih (some r.2)).cons_cons r

theorem length_fromZero (l : List (Nat × SourcePos)) : (fromZero l).length = l.length := by
  cases l <;> rfl

/-- Increasing offsets below a length are no more than that. -/
theorem Increasing.length_le {len : Nat} {l : List (Nat × SourcePos)} (h : Increasing len l) :
    l.length ≤ len := by
  suffices hlo : ∀ lo ≤ len, (∀ r ∈ l, lo ≤ r.1) → l.length + lo ≤ len from
    hlo 0 (Nat.zero_le _) fun _ _ => Nat.zero_le _
  induction l with
  | nil =>
    intro lo hlo _
    rwa [List.length_nil, Nat.zero_add]
  | cons r l ih =>
    intro lo _ hge
    have hr := hge r List.mem_cons_self
    have hrest := ih h.tail (r.1 + 1) (h.lt r List.mem_cons_self)
      fun r' hr' => List.rel_of_pairwise_cons h.sorted hr'
    rw [List.length_cons]
    omega

/-- What is left of a list after its repetitions are out passes the loop of the verifier. -/
theorem verifySourcemap_merge {len i : Nat} {l : List (Nat × SourcePos)} :
    ∀ {j : Nat} {last : SourcePos}, (∀ r ∈ l, r.1 < len) → j ≠ 0 →
      verifySourcemap len i j (some last) ((mergeSpans (some last) l).map .ok) = .ok () := by
  induction l with
  | nil => exact fun _ _ => rfl
  | cons r l ih =>
    intro j last hlt hj
    obtain ⟨offset, span⟩ := r
    have hrest : ∀ r ∈ l, r.1 < len := fun r hr => hlt r (List.mem_cons_of_mem _ hr)
    have hoffset : offset < len := hlt (offset, span) List.mem_cons_self
    rw [mergeSpans]
    split
    · exact ih hrest hj
    · rename_i hne
      rw [List.map_cons, verifySourcemap, if_neg (by omega), if_neg hne]
      exact ih hrest (Nat.succ_ne_zero j)

/-- The decoded list passes the loop of the verifier. -/
theorem verifySourcemap_fromZero {len i : Nat} {l : List (Nat × SourcePos)}
    (hlt : ∀ r ∈ l, r.1 < len) :
    verifySourcemap len i 0 none ((fromZero (mergeSpans none l)).map .ok) = .ok () := by
  cases l with
  | nil => rfl
  | cons r l =>
    obtain ⟨offset, span⟩ := r
    have hoffset : offset < len := hlt (offset, span) List.mem_cons_self
    rw [mergeSpans, if_neg (by simp), fromZero, List.map_cons, verifySourcemap, if_neg (by omega),
      if_neg (by simp)]
    exact verifySourcemap_merge (fun r hr => hlt r (List.mem_cons_of_mem _ hr)) Nat.one_ne_zero

/-- The verifier accepts an encoded source map unless it has too many entries. -/
theorem verifyFuncDebug_encode {functab : List FuncEntry} {debug : List UInt8} {i : Nat}
    {c : FuncDebug} {entry : FuncEntry} {l : List (Nat × SourcePos)}
    (hname : checkStr (.invalidStrInFuncDebugTab i) c.name debug = .ok ())
    (hfile : checkStr (.invalidFileInFuncDebugTab i) c.file debug = .ok ())
    (hdefinition : c.definition.span ≠ none) (hentry : functab[i]? = some entry)
    (hsize : entry.func.bytecode.len ≤ usizeMax) (hl : Increasing entry.func.bytecode.len l)
    (hne : l ≠ []) : ∃ entries, encodeSourcemap l = .ok entries ∧
      spans none entries = (fromZero (mergeSpans none l)).map .ok ∧
      verifyFuncDebug functab debug i { c with sourcemap := entries } =
        if (mergeSpans none l).length ≤ Limit.sourceMapEntries then .ok ()
        else fail (.sourceMapLimit i) := by
  obtain ⟨entries, hencode, hspans⟩ := spans_encodeSourcemap hsize hl
  have hlength : entries.length = (mergeSpans none l).length := by
    rw [length_of_spans hspans, length_fromZero]
  have hentries : entries ≠ [] := by
    intro hnil
    obtain ⟨⟨offset, span⟩, l', rfl⟩ := List.exists_cons_of_ne_nil hne
    rw [hnil, mergeSpans, if_neg (by simp)] at hlength
    cases hlength
  refine ⟨entries, hencode, hspans, ?_⟩
  rw [verifyFuncDebug, hname, ok_bind, hfile, ok_bind]
  dsimp only
  rw [if_neg hentries, hlength]
  by_cases hlimit : (mergeSpans none l).length ≤ Limit.sourceMapEntries
  · rw [if_neg (Nat.not_lt.mpr hlimit), if_pos hlimit, if_neg hdefinition, hspans, hentry]
    exact verifySourcemap_fromZero hl.lt
  · rw [if_pos (Nat.not_le.mp hlimit), if_neg hlimit]
    rfl

/-- A non-empty list of spans at increasing offsets below the length of a function's code is encoded,
reads back without its repetitions and from offset `0` on, and is accepted for the function when what
reads back has no more entries than a source map may have. So it is whenever the code is no longer
than that of a function may be. -/
theorem sourcemap_codec {functab : List FuncEntry} {debug : List UInt8} {i : Nat}
    {c : FuncDebug} {entry : FuncEntry} {l : List (Nat × SourcePos)}
    (hname : checkStr (.invalidStrInFuncDebugTab i) c.name debug = .ok ())
    (hfile : checkStr (.invalidFileInFuncDebugTab i) c.file debug = .ok ())
    (hdefinition : c.definition.span ≠ none) (hentry : functab[i]? = some entry)
    (hsize : entry.func.bytecode.len ≤ usizeMax) (hl : Increasing entry.func.bytecode.len l)
    (hne : l ≠ []) : ∃ entries, encodeSourcemap l = .ok entries ∧
      spans none entries = (fromZero (mergeSpans none l)).map .ok ∧
      (verifyFuncDebug functab debug i { c with sourcemap := entries } = .ok () ↔
        (mergeSpans none l).length ≤ Limit.sourceMapEntries) ∧
      (entry.func.bytecode.len ≤ Limit.funcSize →
        verifyFuncDebug functab debug i { c with sourcemap := entries } = .ok ()) := by
  obtain ⟨entries, hencode, hspans, hverify⟩ :=
    verifyFuncDebug_encode hname hfile hdefinition hentry hsize hl hne
  refine ⟨entries, hencode, hspans, ?_, fun hcode => ?_⟩
  · rw [hverify]
    split
    · simp_all
    · simp_all [fail]
  · have hle : (mergeSpans none l).length ≤ Limit.sourceMapEntries :=
      (mergeSpans_sublist none).length_le.trans (hl.length_le.trans hcode)
    rw [hverify, if_pos hle]

/-- A function with code of some length. -/
def codeOf (len : Nat) : FuncEntry := ⟨⟨0, 0, [], ⟨0, len⟩⟩, ⟨0, []⟩⟩

/-- Debug information without a source map. -/
def noMap : FuncDebug := ⟨⟨0, 0⟩, ⟨0, 0⟩, ⟨0, 0, 0⟩, []⟩

theorem noMap_str {e : FileError} : checkStr e ⟨0, 0⟩ [] = .ok () := rfl

/-- Two spans of which the second is that of the first. -/
theorem sourcemap_codec_same : ∃ entries,
    encodeSourcemap [(1, ⟨3, 4, 5⟩), (2, ⟨3, 4, 5⟩), (3, ⟨3, 1, 0⟩)] = .ok entries ∧
    spans none entries = [.ok (0, ⟨3, 4, 5⟩), .ok (3, ⟨3, 1, 0⟩)] ∧
    verifyFuncDebug [codeOf 4] [] 0 { noMap with sourcemap := entries } = .ok () := by
  have hvalid : ∀ r ∈ [(1, (⟨3, 4, 5⟩ : SourcePos)), (2, ⟨3, 4, 5⟩), (3, ⟨3, 1, 0⟩)],
      r.2.Valid := by
    unfold SourcePos.Valid
    decide
  obtain ⟨entries, hencode, hspans, -, hverify⟩ := sourcemap_codec (i := 0) (c := noMap)
    noMap_str noMap_str (by decide) (show [codeOf 4][0]? = some (codeOf 4) from rfl) (by decide)
    ⟨hvalid, by decide, by decide⟩ (by decide)
  exact ⟨entries, hencode, hspans, hverify (by decide)⟩

/-- Spans at every offset, each one different from the one before. -/
def alternating : Nat → Nat → List (Nat × SourcePos)
  | _, 0 => []
  | offset, n + 1 => (offset, ⟨0, 0, offset % 2⟩) :: alternating (offset + 1) n

theorem length_alternating (n : Nat) : ∀ offset, (alternating offset n).length = n := by
  induction n with
  | zero => exact fun _ => rfl
  | succ n ih => exact fun offset => by rw [alternating, List.length_cons, ih]

theorem mem_alternating {n : Nat} : ∀ {offset : Nat} {r : Nat × SourcePos},
    r ∈ alternating offset n → offset ≤ r.1 ∧ r.1 < offset + n ∧ r.2.Valid := by
  induction n with
  | zero =>
    intro offset r hr
    cases hr
  | succ n ih =>
    intro offset r hr
    rcases List.mem_cons.mp hr with rfl | hr
    · refine ⟨Nat.le_refl _, by dsimp only; omega, Nat.zero_le _, Nat.zero_le _, ?_⟩
      have hmax : 1 ≤ maxLen := by decide
      dsimp only
      omega
    · obtain ⟨hge, hlt, hvalid⟩ := ih hr
      exact ⟨by omega, by omega, hvalid⟩

theorem increasing_alternating (n : Nat) : Increasing n (alternating 0 n) := by
  refine ⟨fun r hr => (mem_alternating hr).2.2, fun r hr => by
    have := (mem_alternating hr).2.1
    omega, ?_⟩
  suffices h : ∀ offset, (alternating offset n).Pairwise (·.1 < ·.1) from h 0
  induction n with
  | zero => exact fun _ => List.Pairwise.nil
  | succ n ih => exact fun offset =>
      List.Pairwise.cons (fun r hr => (mem_alternating hr).1) (ih (offset + 1))

theorem mergeSpans_alternating (n : Nat) : ∀ {offset : Nat} {last : Option SourcePos},
    last ≠ some ⟨0, 0, offset % 2⟩ → mergeSpans last (alternating offset n) =
      alternating offset n := by
  induction n with
  | zero => exact fun _ => rfl
  | succ n ih =>
    intro offset last hlast
    rw [alternating, mergeSpans, if_neg hlast, ih]
    intro heq
    simp only [Option.some.injEq, SourcePos.mk.injEq, true_and] at heq
    omega

/-- A source map with one entry more than a function may have bytes is not accepted, for a function
with as many bytes. -/
theorem sourcemap_limit :
    let n := Limit.funcSize + 1
    ∃ entries, Increasing (codeOf n).func.bytecode.len (alternating 0 n) ∧ alternating 0 n ≠ [] ∧
      encodeSourcemap (alternating 0 n) = .ok entries ∧
      verifyFuncDebug [codeOf n] [] 0 { noMap with sourcemap := entries } =
        fail (.sourceMapLimit 0) := by
  intro n
  have hne : alternating 0 n ≠ [] := List.cons_ne_nil _ _
  obtain ⟨entries, hencode, -, hverify⟩ := verifyFuncDebug_encode (i := 0) (c := noMap)
    noMap_str noMap_str (by decide) (show [codeOf n][0]? = some (codeOf n) from rfl) (by decide)
    (increasing_alternating n) hne
  rw [mergeSpans_alternating n (by simp), length_alternating, if_neg (by decide)] at hverify
  exact ⟨entries, increasing_alternating n, hne, hencode, hverify⟩

end Dolang.Bytecode
