import Dolang.Compile.Source

/-!
# Locations and byte spans are inverse

What the functions of `File` give is put in terms of characters: an offset is where the characters of a
front end, its line the newlines of the front, and its column the characters behind the last of them.
From there, a walk over characters gets back to where a span starts and ends.
-/

namespace Dolang.Compile.Source

open Dolang.Rust

/-! ## Newlines -/

/-- The offsets of the newlines of a text. -/
def newlinesOf : ℕ → List Char → List ℕ
  | _, [] => []
  | cur, c :: text =>
    if c = '\n' then cur :: newlinesOf (cur + 1) text else newlinesOf (cur + c.utf8Size) text

/-- Bytes that are no newlines are skipped. -/
theorem findNewlines_skip {bytes : List UInt8} (hb : 10 ∉ bytes) (rest : List UInt8) (cur : ℕ) :
    findNewlines cur (bytes ++ rest) = findNewlines (cur + bytes.length) rest := by
  induction bytes generalizing cur with
  | nil => rfl
  | cons b bytes ih =>
    rw [List.mem_cons, not_or] at hb
    rw [List.cons_append, findNewlines, if_neg fun h => hb.1 h.symm, ih hb.2, List.length_cons,
      Nat.add_assoc, Nat.add_comm 1]

theorem findNewlines_eq {text : List Char} {cur : ℕ} (h : cur + size text ≤ 2 ^ 32) :
    findNewlines cur (utf8 text) = .ok (newlinesOf cur text) := by
  induction text generalizing cur with
  | nil => rfl
  | cons c text ih =>
    rw [size_cons] at h
    have hpos := c.utf8Size_pos
    rw [utf8, List.flatMap_cons, ← utf8, newlinesOf]
    by_cases hc : c = '\n'
    · subst hc
      have hsize : '\n'.utf8Size = 1 := rfl
      rw [if_pos rfl, show String.utf8EncodeChar '\n' = [10] from rfl, List.singleton_append,
        findNewlines, if_pos rfl, if_pos (by omega), ih (by omega)]
      rfl
    · rw [if_neg hc, findNewlines_skip (fun h => hc (eq_newline_of_mem h)),
        String.length_utf8EncodeChar, ih (by omega)]

theorem newlinesOf_append (cur : ℕ) (a b : List Char) :
    newlinesOf cur (a ++ b) = newlinesOf cur a ++ newlinesOf (cur + size a) b := by
  induction a generalizing cur with
  | nil => rfl
  | cons c a ih =>
    rw [List.cons_append, newlinesOf, newlinesOf, size_cons]
    by_cases hc : c = '\n'
    · subst hc
      rw [if_pos rfl, if_pos rfl, ih, List.cons_append, Nat.add_assoc]
      rfl
    · rw [if_neg hc, if_neg hc, ih, Nat.add_assoc]

/-- A newline is before the end of the text, and between two characters it is followed by one. -/
theorem exists_of_mem_newlinesOf {text : List Char} {cur o : ℕ} (h : o ∈ newlinesOf cur text) :
    cur ≤ o ∧ ∃ front, front <+: text ∧ cur + size front = o + 1 := by
  induction text generalizing cur with
  | nil => cases h
  | cons c text ih =>
    rw [newlinesOf] at h
    by_cases hc : c = '\n'
    · subst hc
      rw [if_pos rfl] at h
      obtain rfl | h := List.mem_cons.mp h
      · exact ⟨Nat.le_refl o, ['\n'], List.prefix_append ['\n'] text, rfl⟩
      · obtain ⟨hle, front, hfront, heq⟩ := ih h
        refine ⟨by omega, '\n' :: front, List.prefix_cons_inj _ |>.mpr hfront, ?_⟩
        rw [size_cons, ← Nat.add_assoc]
        exact heq
    · rw [if_neg hc] at h
      obtain ⟨hle, front, hfront, heq⟩ := ih h
      refine ⟨by omega, c :: front, List.prefix_cons_inj _ |>.mpr hfront, ?_⟩
      rw [size_cons, ← Nat.add_assoc, heq]

theorem size_le_of_prefix {front text : List Char} (h : front <+: text) : size front ≤ size text := by
  obtain ⟨back, rfl⟩ := h
  rw [size_append]
  exact Nat.le_add_right _ _

theorem lt_of_mem_newlinesOf {text : List Char} {cur o : ℕ} (h : o ∈ newlinesOf cur text) :
    o < cur + size text := by
  obtain ⟨-, front, hfront, heq⟩ := exists_of_mem_newlinesOf h
  have hle := size_le_of_prefix hfront
  omega

theorem length_newlinesOf (cur : ℕ) (text : List Char) :
    (newlinesOf cur text).length = text.count '\n' := by
  induction text generalizing cur with
  | nil => rfl
  | cons c text ih =>
    rw [newlinesOf]
    by_cases hc : c = '\n'
    · subst hc
      rw [if_pos rfl, List.length_cons, ih, List.count_cons_self]
    · rw [if_neg hc, ih, List.count_cons_of_ne hc]

/-- The newlines before the end of a front are those of the front. -/
theorem takeWhile_newlinesOf (front back : List Char) :
    (newlinesOf 0 (front ++ back)).takeWhile (· < size front) = newlinesOf 0 front := by
  rw [newlinesOf_append, List.takeWhile_append_of_pos]
  · cases hback : newlinesOf (0 + size front) back with
    | nil => rw [List.takeWhile_nil, List.append_nil]
    | cons o rest =>
      have hle := (exists_of_mem_newlinesOf (hback ▸ List.mem_cons_self)).1
      rw [List.takeWhile_cons_of_neg (by simpa using hle), List.append_nil]
  · intro o ho
    have hlt := lt_of_mem_newlinesOf ho
    rw [Nat.zero_add] at hlt
    exact decide_eq_true hlt

/-! ## Lines -/

/-- A text is its last line behind what is empty or ends with a newline. -/
theorem exists_lastLine (text : List Char) : ∃ init, text = init ++ lastLine text ∧
    '\n' ∉ lastLine text ∧ (init = [] ∨ ∃ line, init = line ++ ['\n']) := by
  refine ⟨(text.reverse.dropWhile (· ≠ '\n')).reverse, ?_, ?_, ?_⟩
  · rw [lastLine, ← List.reverse_append, List.takeWhile_append_dropWhile, List.reverse_reverse]
  · intro h
    rw [lastLine, List.mem_reverse] at h
    have hne := List.all_eq_true.mp List.all_takeWhile _ h
    simp at hne
  · cases hrest : text.reverse.dropWhile (· ≠ '\n') with
    | nil => exact .inl rfl
    | cons c rest =>
      have hhead := List.head?_dropWhile_not (fun c : Char => c ≠ '\n') text.reverse
      rw [hrest] at hhead
      have hc : c = '\n' := by simpa using hhead
      exact .inr ⟨rest.reverse, by rw [List.reverse_cons, hc]⟩

theorem newlinesOf_of_notMem {text : List Char} (h : '\n' ∉ text) (cur : ℕ) :
    newlinesOf cur text = [] := by
  refine List.eq_nil_of_length_eq_zero ?_
  rw [length_newlinesOf, List.count_eq_zero.mpr h]

/-- The newline behind a text has the number of those in the text. -/
theorem newline_at (text rest : List Char) :
    (newlinesOf 0 (text ++ '\n' :: rest))[text.count '\n']? = some (size text) := by
  rw [newlinesOf_append, ← length_newlinesOf 0, List.getElem?_append_right (Nat.le_refl _),
    Nat.sub_self, Nat.zero_add, newlinesOf, if_pos rfl]
  rfl

/-- The column of an offset is the room of the last line before it. -/
theorem coord_eq (front back : List Char) : coord (newlinesOf 0 (front ++ back)) (size front) =
    .ok { line := front.count '\n', column := size (lastLine front) } := by
  obtain ⟨init, hfront, hline, hinit⟩ := exists_lastLine front
  rw [coord, takeWhile_newlinesOf, length_newlinesOf]
  generalize lastLine front = line at *
  subst hfront
  obtain rfl | ⟨text, rfl⟩ := hinit
  · rw [List.nil_append, List.count_eq_zero.mpr hline]
  · have hcount : (text ++ ['\n'] ++ line).count '\n' = text.count '\n' + 1 := by
      rw [List.count_append, List.count_append, List.count_eq_zero.mpr hline,
        List.count_singleton_self]
    have hnewline : size ['\n'] = 1 := rfl
    rw [hcount]
    dsimp only
    rw [List.append_assoc, List.append_assoc, List.singleton_append, newline_at]
    simp only [unwrap, ok_bind, size_append, hnewline, checkedSub,
      if_pos (Nat.le_add_right (size text + 1) (size line)), Nat.add_sub_cancel_left]
    rfl

/-! ## Characters -/

theorem countP_utf8 (text : List Char) :
    (utf8 text).countP (fun b => b &&& 0xC0 != 0x80) = text.length := by
  induction text with
  | nil => rfl
  | cons c text ih =>
    rw [utf8, List.flatMap_cons, List.countP_append, ← utf8, ih, countP_utf8EncodeChar,
      List.length_cons, Nat.add_comm]

theorem length_le_size (text : List Char) : text.length ≤ size text := by
  rw [← countP_utf8, size]
  exact List.countP_le_length

/-- The characters of a text that is not too long are counted. -/
theorem chars_utf8 {text : List Char} (h : size text < 2 ^ 32) : chars (utf8 text) = text.length := by
  have hle := length_le_size text
  rw [chars, countP_utf8, Nat.min_eq_left (by omega)]

/-- The characters behind a front. -/
theorem charsFrom_size (front back : List Char) : charsFrom (front ++ back) (size front) = some back := by
  induction front with
  | nil =>
    cases back <;> rfl
  | cons c front ih =>
    have hpos := c.utf8Size_pos
    rw [size_cons]
    obtain ⟨n, hn⟩ := Nat.exists_eq_add_one_of_ne_zero
      (show c.utf8Size + size front ≠ 0 by omega)
    rw [hn, List.cons_append, charsFrom, if_neg (by omega),
      show n + 1 - c.utf8Size = size front by omega, ih]

/-! ## Packed locations -/

theorem bits_new (line column len : ℕ) : (Location.new line column len).bits =
    (min line Location.maxLine * 2 ^ 20 + min column Location.maxColumn) * 2 ^ 20 +
      min len Location.maxLen := by
  have hcolumn : min column Location.maxColumn < 2 ^ 20 := by unfold Location.maxColumn; omega
  have hlen : min len Location.maxLen < 2 ^ 20 := by unfold Location.maxLen; omega
  rw [Location.new, show 40 = 20 + 20 from rfl, Nat.shiftLeft_add, ← Nat.shiftLeft_or_distrib,
    ← Nat.shiftLeft_add_eq_or_of_lt hcolumn, ← Nat.shiftLeft_add_eq_or_of_lt hlen,
    Nat.shiftLeft_eq, Nat.shiftLeft_eq]

/-- What is packed is unpacked, clamped. -/
theorem start_new (line column len : ℕ) : (Location.new line column len).start =
    { line := min line Location.maxLine, column := min column Location.maxColumn } := by
  have hline : min line Location.maxLine < 2 ^ 24 := by unfold Location.maxLine; omega
  have hcolumn : min column Location.maxColumn < 2 ^ 20 := by unfold Location.maxColumn; omega
  have hlen : min len Location.maxLen < 2 ^ 20 := by unfold Location.maxLen; omega
  rw [Location.start, bits_new, Nat.and_two_pow_sub_one_eq_mod, Nat.shiftRight_eq_div_pow,
    Nat.shiftRight_eq_div_pow]
  congr 1 <;> omega

theorem len_new (line column len : ℕ) :
    (Location.new line column len).len = min len Location.maxLen := by
  have hlen : min len Location.maxLen < 2 ^ 20 := by unfold Location.maxLen; omega
  rw [Location.len, bits_new, Nat.and_two_pow_sub_one_eq_mod]
  omega

/-! ## What a file gives -/

/-- A file with the newlines of its content, which is not too long. -/
structure File.Ok (f : File) : Prop where
  newlines : f.newlines = newlinesOf 0 f.content
  size_lt : size f.content < 2 ^ 32

theorem new_ok {content : List Char} (h : size content < 2 ^ 32) : ∃ f : File,
    File.new content = .ok f ∧ f.content = content ∧ f.Ok := by
  refine ⟨{ content, newlines := newlinesOf 0 content }, ?_, rfl, rfl, h⟩
  rw [File.new, findNewlines_eq (by omega)]
  rfl

variable {f : File}

theorem slice_eq {a m c : List Char} (h : f.content = a ++ (m ++ c)) :
    f.slice { start := size a, stop := size a + size m } = .ok (utf8 m) := by
  rw [File.slice, h]
  simp only [size_append]
  rw [if_pos (by omega), utf8_append, utf8_append, ← List.append_assoc,
    List.take_left' (by rw [List.length_append, size, size]),
    List.drop_left' (show (utf8 a).length = size a from rfl)]

/-- The last line before an offset: where it starts, and its text. -/
theorem lastLine_spec (hf : f.Ok) {front back : List Char} (h : f.content = front ++ back) :
    ∃ init, front = init ++ lastLine front ∧ f.lineStart (front.count '\n') = size init ∧
      coord f.newlines (size front) =
        .ok { line := front.count '\n', column := size (lastLine front) } ∧
      size front = size init + size (lastLine front) ∧
      f.slice { start := size init, stop := size front } = .ok (utf8 (lastLine front)) := by
  obtain ⟨init, hfront, hline, hinit⟩ := exists_lastLine front
  have hsize : size front = size init + size (lastLine front) := by
    rw [← size_append, ← hfront]
  have hcontent : f.content = init ++ (lastLine front ++ back) := by
    rw [← List.append_assoc, ← hfront, h]
  have hslice := slice_eq hcontent
  rw [← hsize] at hslice
  refine ⟨init, hfront, ?_, by rw [hf.newlines, h, coord_eq], hsize, hslice⟩
  rw [File.lineStart, hf.newlines, hcontent]
  obtain rfl | ⟨text, rfl⟩ := hinit
  · have hzero : front.count '\n' = 0 := by
      rw [hfront, List.nil_append, List.count_eq_zero.mpr hline]
    rw [hzero]
    rfl
  · have hcount : front.count '\n' = text.count '\n' + 1 := by
      rw [hfront, List.count_append, List.count_append, List.count_eq_zero.mpr hline,
        List.count_singleton_self]
    have hend : size (text ++ ['\n']) = size text + 1 := size_append _ _
    rw [hcount, checkedSub, if_pos (Nat.le_add_left 1 _), Nat.add_sub_cancel]
    dsimp only
    rw [List.append_assoc, List.singleton_append, newline_at, hend]
    rfl

/-- The location of a span, in characters. -/
theorem location_eq (hf : f.Ok) {a m c : List Char} (h : f.content = a ++ (m ++ c)) :
    f.location { start := size a, stop := size a + size m } =
      .ok (a.count '\n', (lastLine a).length, m.length) := by
  obtain ⟨init, -, -, hcoord, hsize, hslice⟩ := lastLine_spec hf h
  have hlt := hf.size_lt
  rw [h, size_append, size_append] at hlt
  rw [File.location]
  simp only [hcoord, ok_bind, checkedSub, unwrap, slice_eq h,
    if_pos (show size (lastLine a) ≤ size a by omega)]
  rw [show size a - size (lastLine a) = size init by omega, hslice, ok_bind,
    chars_utf8 (by omega), chars_utf8 (by omega)]
  rfl

/-- A walk over some characters. -/
theorem advance_eq {front back : List Char} (h : f.content = front ++ back) (count : ℕ) :
    f.advance (size front) count = .ok (size (front ++ back.take count)) := by
  rw [File.advance, h, charsFrom_size]
  simp only [unwrap, ok_bind]
  split_ifs with hcount
  · rw [size_append]
    rfl
  · rw [List.take_of_length_le (Nat.le_of_not_lt hcount)]
    rfl

/-- A line starts between two characters. -/
theorem lineStart_boundary (hf : f.Ok) (line : ℕ) : Boundary f.content (f.lineStart line) := by
  rw [File.lineStart]
  cases line with
  | zero => exact ⟨[], List.nil_prefix, rfl⟩
  | succ prior =>
    rw [checkedSub, if_pos (Nat.le_add_left 1 _), Nat.add_sub_cancel]
    dsimp only
    cases hget : f.newlines[prior]? with
    | none => exact ⟨f.content, List.prefix_rfl, rfl⟩
    | some newline =>
      rw [hf.newlines] at hget
      obtain ⟨-, front, hfront, heq⟩ := exists_of_mem_newlinesOf (List.mem_of_getElem? hget)
      exact ⟨front, hfront, by rw [Nat.zero_add] at heq; exact heq⟩

/-- The bytes of a location are between characters of the content, in order. -/
theorem byteRange_spec (hf : f.Ok) (span : Location) : ∃ a m c, f.content = a ++ (m ++ c) ∧
    f.byteRange span = .ok { start := size a, stop := size a + size m } := by
  obtain ⟨front, ⟨back, hfront⟩, hsize⟩ := lineStart_boundary hf span.start.line
  refine ⟨front ++ back.take span.start.column,
    (back.drop span.start.column).take span.len, (back.drop span.start.column).drop span.len, ?_, ?_⟩
  · rw [List.take_append_drop, List.append_assoc, List.take_append_drop, hfront]
  · have hrest : f.content = (front ++ back.take span.start.column) ++
        back.drop span.start.column := by
      rw [List.append_assoc, List.take_append_drop, hfront]
    rw [File.byteRange]
    rw [← hsize, advance_eq hfront.symm, ok_bind, advance_eq hrest, size_append _ (List.take _ _)]
    rfl

/-- The end of a location is that of the characters up to it. -/
theorem stop_eq (hf : f.Ok) {span : Location} {a m c : List Char} (h : f.content = a ++ (m ++ c))
    (hrange : f.byteRange span = .ok { start := size a, stop := size a + size m }) :
    f.stop span = .ok (endPos (a ++ m)) := by
  have hlt := hf.size_lt
  rw [h, size_append, size_append] at hlt
  obtain ⟨init, -, -, hcoord, hsize, hslice⟩ :=
    lastLine_spec hf (show f.content = (a ++ m) ++ c by rw [List.append_assoc, h])
  rw [size_append] at hsize
  rw [File.stop, hrange, ok_bind]
  dsimp only
  rw [Nat.mod_eq_of_lt (by omega), ← size_append]
  simp only [hcoord, ok_bind, checkedSub, unwrap,
    if_pos (show size (lastLine (a ++ m)) ≤ size (a ++ m) by rw [size_append]; omega)]
  rw [show size (a ++ m) - size (lastLine (a ++ m)) = size init by rw [size_append]; omega, hslice,
    ok_bind, chars_utf8 (by omega)]
  rfl

/-- A location that is not clamped is where it was. -/
theorem byteRange_new (hf : f.Ok) {a m c : List Char} (h : f.content = a ++ (m ++ c))
    (hline : a.count '\n' ≤ Location.maxLine) (hcolumn : (lastLine a).length ≤ Location.maxColumn)
    (hlen : m.length ≤ Location.maxLen) :
    f.byteRange (.new (a.count '\n') (lastLine a).length m.length) =
      .ok { start := size a, stop := size a + size m } := by
  obtain ⟨init, ha, hstart, -⟩ := lastLine_spec hf h
  have hcontent : f.content = init ++ (lastLine a ++ (m ++ c)) := by
    rw [← List.append_assoc, ← ha, h]
  rw [File.byteRange, start_new, len_new, Nat.min_eq_left hline, Nat.min_eq_left hcolumn,
    Nat.min_eq_left hlen]
  dsimp only
  rw [hstart, advance_eq hcontent, List.take_left, ← ha, ok_bind, advance_eq h, List.take_left,
    size_append]
  rfl

/-! ## Spans between characters -/

theorem eq_nil_of_size {text : List Char} (h : size text = 0) : text = [] := by
  have hle := length_le_size text
  exact List.eq_nil_of_length_eq_zero (by omega)

/-- Fronts of a text are in the order of their sizes. -/
theorem prefix_of_size_le {a b content : List Char} (ha : a <+: content) (hb : b <+: content)
    (h : size a ≤ size b) : a <+: b := by
  obtain hab | ⟨rest, rfl⟩ := List.prefix_or_prefix_of_prefix ha hb
  · exact hab
  · rw [size_append] at h
    obtain rfl := eq_nil_of_size (show size rest = 0 by omega)
    exact ⟨[], by rw [List.append_nil, List.append_nil]⟩

/-- A span between characters is the room of some of them. -/
theorem exists_of_boundaries {content : List Char} {span : Span} (h : span.start ≤ span.stop)
    (hstart : Boundary content span.start) (hstop : Boundary content span.stop) :
    ∃ a m c, content = a ++ (m ++ c) ∧
      span = { start := size a, stop := size a + size m } := by
  obtain ⟨start, stop⟩ := span
  obtain ⟨a, ha, rfl⟩ := hstart
  obtain ⟨b, ⟨c, rfl⟩, rfl⟩ := hstop
  obtain ⟨m, rfl⟩ := prefix_of_size_le ha (List.prefix_append b c) h
  exact ⟨a, m, c, List.append_assoc .., by rw [size_append]⟩

/-- A file with a span that it locates at some line, column and number of characters: if they are not
clamped, the bytes of that location are the span. Its end is then where the span ends, which is where
the empty span there is located before it is clamped. Any other location is of bytes between characters
all the same. -/
theorem locate_inverts {content : List Char} (h : size content < 2 ^ 32) :
    ∃ f : File, File.new content = .ok f ∧
      (∀ span : Span, span.start ≤ span.stop → Boundary content span.start →
        Boundary content span.stop → ∃ line column len front,
          f.location span = .ok (line, column, len) ∧ Splits content front span.stop ∧
          f.location { start := span.stop, stop := span.stop } =
            .ok ((endPos front).line, (endPos front).column, 0) ∧
          (line ≤ Location.maxLine → column ≤ Location.maxColumn → len ≤ Location.maxLen →
            ∃ location, f.locate span = .ok location ∧ f.byteRange location = .ok span ∧
              f.stop location = .ok (endPos front))) ∧
      ∀ location : Location, ∃ (range : Span) (front : List Char),
        f.byteRange location = .ok range ∧ range.start ≤ range.stop ∧
        Boundary content range.start ∧ Splits content front range.stop ∧
        f.stop location = .ok (endPos front) := by
  obtain ⟨f, hnew, rfl, hf⟩ := new_ok h
  refine ⟨f, hnew, fun span hle hstart hstop => ?_, fun location => ?_⟩
  · obtain ⟨a, m, c, hcontent, rfl⟩ := exists_of_boundaries hle hstart hstop
    have hlocation := location_eq hf hcontent
    have hempty := location_eq hf (a := a ++ m) (m := []) (c := c)
      (by rw [List.nil_append, List.append_assoc, hcontent])
    rw [size_append, size_nil, Nat.add_zero] at hempty
    refine ⟨_, _, _, a ++ m, hlocation, ⟨⟨c, ?_⟩, size_append a m⟩, hempty,
      fun hline hcolumn hlen => ?_⟩
    · rw [List.append_assoc, hcontent]
    · have hrange := byteRange_new hf hcontent hline hcolumn hlen
      refine ⟨_, ?_, hrange, stop_eq hf hcontent hrange⟩
      rw [File.locate, hlocation]
      rfl
  · obtain ⟨a, m, c, hcontent, hrange⟩ := byteRange_spec hf location
    refine ⟨_, a ++ m, hrange, Nat.le_add_right _ _, ⟨a, ⟨m ++ c, hcontent.symm⟩, rfl⟩,
      ⟨⟨c, ?_⟩, size_append a m⟩, stop_eq hf hcontent hrange⟩
    rw [List.append_assoc, hcontent]

/-- A text of two lines is short enough. -/
theorem locate_inverts_lines : ∃ f : File, File.new ['é', '\n', 'x'] = .ok f ∧
    ∀ location : Location, ∃ range, f.byteRange location = .ok range ∧ range.start ≤ range.stop := by
  obtain ⟨f, hnew, -, hlocation⟩ := locate_inverts (show size ['é', '\n', 'x'] < 2 ^ 32 by decide)
  refine ⟨f, hnew, fun location => ?_⟩
  obtain ⟨range, -, hrange, hle, -⟩ := hlocation location
  exact ⟨range, hrange, hle⟩

theorem size_replicate (n : ℕ) : size (List.replicate n 'a') = n := by
  induction n with
  | zero => rfl
  | succ n ih =>
    rw [List.replicate_succ, size_cons, ih, Nat.add_comm]
    rfl

/-- The end of a text of one line. -/
theorem endPos_replicate (n : ℕ) : endPos (List.replicate n 'a') = { line := 0, column := n } := by
  have hline : lastLine (List.replicate n 'a') = List.replicate n 'a' := by
    rw [lastLine, List.reverse_replicate, List.takeWhile_replicate, if_pos (by decide),
      List.reverse_replicate]
  rw [endPos, hline, List.length_replicate,
    List.count_eq_zero.mpr fun h => by cases List.eq_of_mem_replicate h]

/-- Where the last character of a line ends. -/
theorem last_of_line {n : ℕ} (hn : n ≤ Location.maxColumn) : ∃ f : File,
    File.new (List.replicate (n + 1) 'a') = .ok f ∧
      f.location { start := n, stop := n + 1 } = .ok (0, n, 1) ∧
      f.stop (.new 0 n 1) = .ok { line := 0, column := n + 1 } ∧
      f.location { start := n + 1, stop := n + 1 } = .ok (0, n + 1, 0) := by
  have hmax : Location.maxColumn < 2 ^ 20 := by unfold Location.maxColumn; omega
  obtain ⟨f, hnew, hcontent, hf⟩ := new_ok
    (show size (List.replicate (n + 1) 'a') < 2 ^ 32 by rw [size_replicate]; omega)
  have hsplit : f.content = List.replicate n 'a' ++ (['a'] ++ []) := by
    rw [hcontent, List.append_nil, ← List.replicate_succ']
  have hend : f.content = List.replicate (n + 1) 'a' ++ ([] ++ []) := by
    rw [hcontent, List.append_nil, List.append_nil]
  have hpos := endPos_replicate n
  have hpos' := endPos_replicate (n + 1)
  obtain ⟨hline, hcolumn⟩ := Pos.mk.inj hpos
  obtain ⟨hline', hcolumn'⟩ := Pos.mk.inj hpos'
  have hlocation := location_eq hf hsplit
  have hlocation' := location_eq hf hend
  have hrange := byteRange_new hf hsplit (by rw [hline]; exact Nat.zero_le _)
    (by rw [hcolumn]; exact hn) (by decide)
  have hstop := stop_eq hf hsplit hrange
  rw [← List.replicate_succ', hpos'] at hstop
  rw [hline, hcolumn] at hlocation hstop
  rw [hline', hcolumn'] at hlocation'
  rw [size_replicate] at hlocation hlocation'
  exact ⟨f, hnew, hlocation, hstop, hlocation'⟩

/-- The last character of a line as long as the columns go: the end of its location is in the column
behind, which the location of the empty span there does not tell. -/
theorem stop_beyond_columns : ∃ f : File, File.new (List.replicate (2 ^ 20) 'a') = .ok f ∧
    f.location { start := 2 ^ 20 - 1, stop := 2 ^ 20 } = .ok (0, Location.maxColumn, 1) ∧
    ∃ location location', f.locate { start := 2 ^ 20 - 1, stop := 2 ^ 20 } = .ok location ∧
      f.stop location = .ok { line := 0, column := 2 ^ 20 } ∧
      f.locate { start := 2 ^ 20, stop := 2 ^ 20 } = .ok location' ∧
      location'.start = { line := 0, column := 2 ^ 20 - 1 } := by
  obtain ⟨f, hnew, hlocation, hstop, hempty⟩ := last_of_line (Nat.le_refl Location.maxColumn)
  have hsucc : Location.maxColumn + 1 = 2 ^ 20 := rfl
  rw [hsucc] at hnew hlocation hstop hempty
  refine ⟨f, hnew, hlocation, _, _, ?_, hstop, ?_, start_new 0 (2 ^ 20) 0⟩
  · rw [File.locate]
    exact congrArg (· >>= _) hlocation
  · rw [File.locate, hempty]
    rfl

end Dolang.Compile.Source
