import Dolang.Lib.Rust
import Mathlib.Data.Int.Notation
import Mathlib.Tactic.Common

/-!
# Source locations

`File` of `source.rs`. The content of a file is its characters, and what the functions look at are their
UTF-8 bytes: a byte span is located by the newlines before it (`coord`) and the characters up to it
(`chars`), and found again by walking over characters from the start of a line (`byte_range`). A slice
that is out of bounds or not between characters panics, and so does a subtraction that overflows.
-/

namespace Dolang.Compile.Source

open Dolang.Rust

/-- The UTF-8 bytes of a text. -/
def utf8 (text : List Char) : List UInt8 :=
  text.flatMap String.utf8EncodeChar

/-- `str::len`. -/
def size (text : List Char) : ℕ :=
  (utf8 text).length

/-- `Span`: offsets of bytes. -/
structure Span where
  start : ℕ
  stop : ℕ
  deriving DecidableEq

/-- `Coord`, with a column in bytes. -/
structure Coord where
  line : ℕ
  column : ℕ

/-- `Pos`, with a column in characters. -/
structure Pos where
  line : ℕ
  column : ℕ
  deriving DecidableEq

/-! ## Packed locations -/

/-- `diag::Span`: a start and a number of characters, packed. -/
structure Location where
  bits : ℕ

namespace Location

/-- `Span::MAX_LINE`. -/
def maxLine : ℕ := 2 ^ 24 - 1

/-- `Span::MAX_COLUMN`. -/
def maxColumn : ℕ := 2 ^ 20 - 1

/-- `Span::MAX_LEN`. -/
def maxLen : ℕ := 2 ^ 20 - 1

/-- `diag::Span::new`, which clamps. -/
def new (line column len : ℕ) : Location where
  bits := (min line maxLine) <<< 40 ||| (min column maxColumn) <<< 20 ||| min len maxLen

/-- `diag::Span::start`. -/
def start (s : Location) : Pos where
  line := s.bits >>> 40 % 2 ^ 32
  column := s.bits >>> 20 &&& 2 ^ 20 - 1

/-- `diag::Span::len`. -/
def len (s : Location) : ℕ :=
  s.bits &&& 2 ^ 20 - 1

end Location

/-! ## Files -/

/-- `File`, without its path. -/
structure File where
  content : List Char
  newlines : List ℕ

/-- The loop of `File::new`: the offsets of newlines, which have to fit. -/
def findNewlines : ℕ → List UInt8 → Exec Empty (List ℕ)
  | _, [] => .ok []
  | cur, b :: bytes =>
    if b = 10 then
      if cur < 2 ^ 32 then (cur :: ·) <$> findNewlines (cur + 1) bytes else abort
    else findNewlines (cur + 1) bytes

/-- `chars`: the bytes that do not continue a character. -/
def chars (text : List UInt8) : ℕ :=
  min (text.countP fun b => b &&& 0xC0 != 0x80) (2 ^ 32 - 1)

/-- `coord`. -/
def coord (newlines : List ℕ) (offset : ℕ) : Exec Empty Coord :=
  -- `partition_point`
  match (newlines.takeWhile (· < offset)).length with
  | 0 => .ok { line := 0, column := offset }
  | index + 1 => do
    let newline ← unwrap newlines[index]?
    let column ← unwrap (checkedSub offset (newline + 1))
    return { line := index + 1, column }

/-- The characters of a text from a byte offset on, where that is between two of them. -/
def charsFrom : List Char → ℕ → Option (List Char)
  | text, 0 => some text
  | [], _ + 1 => none
  | c :: text, n + 1 =>
    if n + 1 < c.utf8Size then none else charsFrom text (n + 1 - c.utf8Size)

namespace File

/-- `File::new`. -/
def new (content : List Char) : Exec Empty File := do
  return { content, newlines := ← findNewlines 0 (utf8 content) }

variable (f : File)

/-- `File::slice`. -/
def slice (span : Span) : Exec Empty (List UInt8) :=
  if span.start ≤ span.stop ∧ span.stop ≤ size f.content then
    .ok (((utf8 f.content).take span.stop).drop span.start)
  else abort

/-- `File::line_start`. -/
def lineStart (line : ℕ) : ℕ :=
  match checkedSub line 1 with
  | some prior => (f.newlines[prior]?.map (· + 1)).getD (size f.content)
  | none => 0

/-- The line, column and length of a span, in characters. -/
def location (span : Span) : Exec Empty (ℕ × ℕ × ℕ) := do
  let coord ← coord f.newlines span.start
  let line ← unwrap (checkedSub span.start coord.column)
  let column ← f.slice { start := line, stop := span.start }
  let text ← f.slice span
  return (coord.line, chars column, chars text)

/-- `File::locate`. -/
def locate (span : Span) : Exec Empty Location := do
  let (line, column, len) ← f.location span
  return .new line column len

/-- `advance` of `byte_range`: the offset that is some characters behind another. -/
def advance (start count : ℕ) : Exec Empty ℕ := do
  let text ← unwrap (charsFrom f.content start)
  return if count < text.length then start + size (text.take count) else size f.content

/-- `File::byte_range`. -/
def byteRange (span : Location) : Exec Empty Span := do
  let start := span.start
  let line := f.lineStart start.line
  let start ← f.advance line start.column
  return { start, stop := ← f.advance start span.len }

/-- `File::end`. -/
def stop (span : Location) : Exec Empty Pos := do
  let range ← f.byteRange span
  let stop := range.stop % 2 ^ 32
  let coord ← coord f.newlines stop
  let line ← unwrap (checkedSub stop coord.column)
  let column ← f.slice { start := line, stop }
  return { line := coord.line, column := chars column }

end File

/-! ## Texts -/

/-- An offset of a text is between the characters of a front and those behind. -/
def Splits (content front : List Char) (offset : ℕ) : Prop :=
  front <+: content ∧ size front = offset

/-- An offset is between two characters, or at an end. -/
def Boundary (content : List Char) (offset : ℕ) : Prop :=
  ∃ front, Splits content front offset

/-- The characters of a text behind its last newline. -/
def lastLine (text : List Char) : List Char :=
  (text.reverse.takeWhile (· ≠ '\n')).reverse

/-- The line and the column, in characters, of the end of a text. -/
def endPos (text : List Char) : Pos where
  line := text.count '\n'
  column := (lastLine text).length

@[simp]
theorem utf8_append (a b : List Char) : utf8 (a ++ b) = utf8 a ++ utf8 b :=
  List.flatMap_append

@[simp]
theorem size_append (a b : List Char) : size (a ++ b) = size a + size b := by
  rw [size, utf8_append, List.length_append, size, size]

theorem size_cons (c : Char) (text : List Char) : size (c :: text) = c.utf8Size + size text := by
  rw [size, utf8, List.flatMap_cons, List.length_append, String.length_utf8EncodeChar, size, utf8]

@[simp]
theorem size_nil : size [] = 0 := rfl

/-- A byte continues a character if it is from `0x80` up to `0xBF`. -/
theorem continues_iff : ∀ n ∈ List.range 256,
    (UInt8.ofNat n &&& 0xC0 != 0x80) = decide (n < 0x80 ∨ 0xC0 ≤ n) := by
  decide +kernel

theorem starts {n : ℕ} (hn : n < 256) (h : n < 0x80 ∨ 0xC0 ≤ n) :
    (UInt8.ofNat n &&& 0xC0 != 0x80) = true := by
  rw [continues_iff n (List.mem_range.mpr hn), decide_eq_true h]

theorem continues {n : ℕ} (h : 0x80 ≤ n) (h' : n < 0xC0) :
    (UInt8.ofNat n &&& 0xC0 != 0x80) = false := by
  rw [continues_iff n (List.mem_range.mpr (by omega)), decide_eq_false (by omega)]

/-- The bytes of a character are one that starts it, and others that continue it. -/
theorem countP_utf8EncodeChar (c : Char) :
    (String.utf8EncodeChar c).countP (fun b => b &&& 0xC0 != 0x80) = 1 := by
  unfold String.utf8EncodeChar
  dsimp only
  split_ifs
  all_goals
    simp (disch := omega) only [List.countP_cons, List.countP_nil, starts, continues]
    rfl

theorem ofNat_eq_ten {n : ℕ} (hn : n < 256) (h : 10 = UInt8.ofNat n) : n = 10 := by
  have hnat := congrArg UInt8.toNat h
  rw [UInt8.toNat_ofNat_of_lt' hn] at hnat
  exact hnat.symm

/-- Only the newline has a byte that is one. -/
theorem eq_newline_of_mem {c : Char} (h : 10 ∈ String.utf8EncodeChar c) : c = '\n' := by
  unfold String.utf8EncodeChar at h
  dsimp only at h
  split_ifs at h
  · have hval := ofNat_eq_ten (by omega) (List.mem_singleton.mp h)
    exact Char.ext (UInt32.toNat.inj hval)
  · simp only [List.mem_cons, List.not_mem_nil, or_false] at h
    obtain h | h := h <;> have hval := ofNat_eq_ten (by omega) h <;> omega
  · simp only [List.mem_cons, List.not_mem_nil, or_false] at h
    obtain h | h | h := h <;> have hval := ofNat_eq_ten (by omega) h <;> omega
  · simp only [List.mem_cons, List.not_mem_nil, or_false] at h
    obtain h | h | h | h := h <;> have hval := ofNat_eq_ten (by omega) h <;> omega

end Dolang.Compile.Source
