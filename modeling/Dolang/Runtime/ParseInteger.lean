import Dolang.Lib.Rust
import Dolang.Lib.Utf8
import Dolang.Runtime.Arith
import Mathlib.Data.Nat.Digits.Defs

/-!
# Parsing integers

`parse_integer` of `object/int.rs`, on the bytes of a string. A slice of a string that does not start
between two characters is a panic. The numerals are given by a grammar (`Numeral`), each with the
integer that it stands for, and the parser gives that integer if it has 128 bits and the overflow of
its sign otherwise (`parseInteger_spec`).
-/

namespace Dolang.Runtime

open Rust Utf8 Signed

/-- A string. -/
abbrev Str := { bytes : List UInt8 // isUtf8 bytes = true }

/-- The base of a numeral. -/
abbrev Base := { base : ℕ // 2 ≤ base ∧ base ≤ 36 }

inductive IntErrorKind where
  | invalidDigit
  | posOverflow
  | negOverflow
  deriving DecidableEq, Repr

/-- The bytes of a text of ASCII characters. -/
def ascii (s : String) : List UInt8 :=
  s.toList.map Char.toUInt8

/-- `&text[start..]`. -/
def sliceFrom (text : List UInt8) (start : ℕ) : Exec IntErrorKind (List UInt8) :=
  if isCharBoundary text start then .ok (text.drop start) else abort

/-- A sign, and what is behind it. -/
def splitSign (text : List UInt8) : Exec IntErrorKind (Bool × List UInt8) :=
  if text.head? = some 0x2D then do  -- '-'
    let digits ← sliceFrom text 1
    return (true, digits)
  else if text.head? = some 0x2B then do  -- '+'
    let digits ← sliceFrom text 1
    return (false, digits)
  else return (false, text)

/-- The base of a numeral, by its beginning if there is none given, and what is behind that. -/
def splitBase (base : Option Base) (digits : List UInt8) : Exec IntErrorKind (ℕ × List UInt8) :=
  match base with
  | some base => return (base.val, digits)
  | none =>
    let start := digits.take 2
    if start = ascii "0x" ∨ start = ascii "0X" then do
      let digits ← sliceFrom digits 2
      return (16, digits)
    else if start = ascii "0o" ∨ start = ascii "0O" then do
      let digits ← sliceFrom digits 2
      return (8, digits)
    else if start = ascii "0b" ∨ start = ascii "0B" then do
      let digits ← sliceFrom digits 2
      return (2, digits)
    else return (10, digits)

/-- The value of a digit of a base. -/
def digit (base : ℕ) (byte : UInt8) : Option ℕ :=
  let value :=
    if 0x30 ≤ byte ∧ byte ≤ 0x39 then some (byte - 0x30).toNat  -- '0' to '9'
    else if 0x61 ≤ byte ∧ byte ≤ 0x7A then some ((byte - 0x61).toNat + 10)  -- 'a' to 'z'
    else if 0x41 ≤ byte ∧ byte ≤ 0x5A then some ((byte - 0x41).toNat + 10)  -- 'A' to 'Z'
    else none
  value.filter (· < base)

/-- `b'_'`. -/
def separator : UInt8 := 0x5F

/-- Whether the last byte is a digit, for bytes that are digits with separators between them. -/
def checkDigits (base : ℕ) : Bool → List UInt8 → Exec IntErrorKind Bool
  | previousDigit, [] => return previousDigit
  | previousDigit, byte :: bytes =>
    if (digit base byte).isSome then checkDigits base true bytes
    else if byte = separator ∧ previousDigit then checkDigits base false bytes
    else fail .invalidDigit

/-- Puts one more digit behind a number. -/
def addDigit (base : ℕ) (negative : Bool) (acc : Integer) (byte : UInt8) :
    Exec IntErrorKind Integer := do
  let value ← unwrap (digit base byte)
  let value := BitVec.ofNat 128 value
  okOr (if negative then .negOverflow else .posOverflow)
    ((Integer.checkedMul acc (BitVec.ofNat 128 base)).bind fun acc =>
      if negative then Integer.checkedSub acc value else Integer.checkedAdd acc value)

def parseInteger (text : Str) (base : Option Base) : Exec IntErrorKind Integer := do
  let (negative, digits) ← splitSign text.val
  let (base, digits) ← splitBase base digits
  let previousDigit ← checkDigits base false digits
  if !previousDigit then fail .invalidDigit
  else (digits.filter (· ≠ separator)).foldlM (addDigit base negative) 0

/-! ### Numerals -/

/-- A byte is the digit of a value: `0` to `9`, then the letters of either case. -/
def IsDigit (base : ℕ) (byte : UInt8) (value : ℕ) : Prop :=
  value < base ∧ (value < 10 ∧ byte.toNat = 0x30 + value ∨
    10 ≤ value ∧ (byte.toNat = 0x61 + (value - 10) ∨ byte.toNat = 0x41 + (value - 10)))

/-- Digits with at most one separator between two of them, and their values. -/
inductive Digits (base : ℕ) : List UInt8 → List ℕ → Prop
  | last {byte value} : IsDigit base byte value → Digits base [byte] [value]
  | next {byte value bytes values} : IsDigit base byte value → Digits base bytes values →
    Digits base (byte :: bytes) (value :: values)
  | separated {byte value bytes values} : IsDigit base byte value → Digits base bytes values →
    Digits base (byte :: separator :: bytes) (value :: values)

/-- A sign. -/
inductive Sign : List UInt8 → Bool → Prop
  | none : Sign [] false
  | plus : Sign (ascii "+") false
  | minus : Sign (ascii "-") true

/-- What says the base of a numeral for which none is given. -/
inductive BasePrefix : Option Base → List UInt8 → ℕ → Prop
  | given (base : Base) : BasePrefix (some base) [] base.val
  | decimal : BasePrefix none [] 10
  | hex {p} : p = ascii "0x" ∨ p = ascii "0X" → BasePrefix none p 16
  | oct {p} : p = ascii "0o" ∨ p = ascii "0O" → BasePrefix none p 8
  | bin {p} : p = ascii "0b" ∨ p = ascii "0B" → BasePrefix none p 2

/-- A magnitude with a sign. -/
def signed (negative : Bool) (n : ℕ) : ℤ :=
  if negative then -n else n

/-- The text is a numeral and stands for an integer. -/
def Numeral (base : Option Base) (text : List UInt8) (n : ℤ) : Prop :=
  ∃ sign start digits negative radix values, text = sign ++ start ++ digits ∧ Sign sign negative ∧
    BasePrefix base start radix ∧ Digits radix digits values ∧
    n = signed negative (Nat.ofDigits radix values.reverse)

/-! ### Digits -/

theorem digit_iff {base value : ℕ} {byte : UInt8} (hbase : base ≤ 36) :
    digit base byte = some value ↔ IsDigit base byte value := by
  have hsub : ∀ lo : UInt8, lo ≤ byte → (byte - lo).toNat = byte.toNat - lo.toNat :=
    fun lo h => UInt8.toNat_sub_of_le _ _ h
  unfold digit IsDigit
  simp only [Option.filter_eq_some_iff, decide_eq_true_eq]
  split_ifs with hnumeral hlower hupper
  · rw [Option.some_inj, hsub _ hnumeral.1]
    simp only [UInt8.le_iff_toNat_le, UInt8.reduceToNat] at hnumeral ⊢
    omega
  · rw [Option.some_inj, hsub _ hlower.1]
    simp only [UInt8.le_iff_toNat_le, UInt8.reduceToNat] at hnumeral hlower ⊢
    omega
  · rw [Option.some_inj, hsub _ hupper.1]
    simp only [UInt8.le_iff_toNat_le, UInt8.reduceToNat] at hnumeral hlower hupper ⊢
    omega
  · simp only [UInt8.le_iff_toNat_le, UInt8.reduceToNat] at hnumeral hlower hupper
    simp only [false_and, false_iff]
    omega

/-- A separator is no digit. -/
theorem digit_separator {base : ℕ} (hbase : base ≤ 36) : digit base separator = none := by
  rw [Option.eq_none_iff_forall_ne_some]
  intro value h
  rw [digit_iff hbase, IsDigit, separator] at h
  simp only [UInt8.reduceToNat] at h
  omega

theorem ne_separator {base value : ℕ} {byte : UInt8} (h : digit base byte = some value)
    (hbase : base ≤ 36) : byte ≠ separator := by
  rintro rfl
  rw [digit_separator hbase] at h
  cases h

/-- The check ends with an answer or with a bad digit. -/
theorem checkDigits_cases (base : ℕ) (previousDigit : Bool) (bytes : List UInt8) :
    (∃ b, checkDigits base previousDigit bytes = .ok b) ∨
      checkDigits base previousDigit bytes = fail .invalidDigit := by
  induction bytes generalizing previousDigit with
  | nil => exact .inl ⟨previousDigit, rfl⟩
  | cons byte bytes ih =>
    unfold checkDigits
    split_ifs with hdigit hsep
    · exact ih true
    · exact ih false
    · exact .inr rfl

/-- What the check accepts behind a byte that is no digit, and behind one that is. -/
theorem checkDigits_iff {base : ℕ} (hbase : base ≤ 36) (bytes : List UInt8) :
    (checkDigits base false bytes = .ok true ↔ ∃ values, Digits base bytes values) ∧
      (checkDigits base true bytes = .ok true ↔ bytes = [] ∨ (∃ values, Digits base bytes values) ∨
        ∃ rest values, bytes = separator :: rest ∧ Digits base rest values) := by
  induction bytes with
  | nil =>
    refine ⟨⟨?_, ?_⟩, fun _ => .inl rfl, fun _ => rfl⟩
    · intro h
      cases h
    · rintro ⟨values, h⟩
      cases h
  | cons byte bytes ih =>
    cases hdigit : digit base byte with
    | some value =>
      have hstep : ∀ p, checkDigits base p (byte :: bytes) = checkDigits base true bytes := by
        intro p
        rw [checkDigits, if_pos (by rw [hdigit, Option.isSome_some])]
      have his := (digit_iff hbase).mp hdigit
      have hiff : checkDigits base true bytes = .ok true ↔
          ∃ values, Digits base (byte :: bytes) values := by
        rw [ih.2]
        constructor
        · rintro (rfl | ⟨values, h⟩ | ⟨rest, values, rfl, h⟩)
          · exact ⟨_, .last his⟩
          · exact ⟨_, .next his h⟩
          · exact ⟨_, .separated his h⟩
        · rintro ⟨values, h⟩
          cases h with
          | last h => exact .inl rfl
          | next h hrest => exact .inr (.inl ⟨_, hrest⟩)
          | separated h hrest => exact .inr (.inr ⟨_, _, rfl, hrest⟩)
      rw [hstep, hstep, hiff]
      refine ⟨Iff.rfl, fun h => .inr (.inl h), ?_⟩
      rintro (h | h | ⟨rest, values, h, -⟩)
      · cases h
      · exact h
      · exact absurd (List.cons.inj h).1 (ne_separator hdigit hbase)
    | none =>
      have hnot : ¬ ∃ values, Digits base (byte :: bytes) values := by
        have hno : ∀ value, ¬ IsDigit base byte value := by
          intro value h
          rw [← digit_iff hbase, hdigit] at h
          cases h
        rintro ⟨values, h⟩
        cases h with
        | last h => exact hno _ h
        | next h _ => exact hno _ h
        | separated h _ => exact hno _ h
      have hstep : ∀ p, checkDigits base p (byte :: bytes) =
          if byte = separator ∧ p then checkDigits base false bytes else fail .invalidDigit := by
        intro p
        rw [checkDigits, if_neg (by rw [hdigit]; simp)]
      rw [hstep, hstep]
      constructor
      · rw [if_neg (by simp)]
        exact ⟨(fun h => by cases h), fun h => absurd h hnot⟩
      · by_cases hsep : byte = separator
        · subst hsep
          rw [if_pos ⟨rfl, rfl⟩, ih.1]
          constructor
          · rintro ⟨values, h⟩
            exact .inr (.inr ⟨bytes, values, rfl, h⟩)
          · rintro (h | h | ⟨rest, values, h, hvalues⟩)
            · cases h
            · exact absurd h hnot
            · obtain rfl := (List.cons.inj h).2
              exact ⟨values, hvalues⟩
        · rw [if_neg fun h => hsep h.1]
          refine ⟨(fun h => by cases h), ?_⟩
          rintro (h | h | ⟨rest, values, h, -⟩)
          · cases h
          · exact absurd h hnot
          · exact absurd (List.cons.inj h).1 hsep

/-- The bytes of digits, without their separators, have the values of the digits. -/
theorem Digits.values {base : ℕ} (hbase : base ≤ 36) {bytes : List UInt8} {values : List ℕ}
    (h : Digits base bytes values) :
    List.Forall₂ (fun byte value => digit base byte = some value)
      (bytes.filter (· ≠ separator)) values := by
  have hkeep : ∀ {byte value}, IsDigit base byte value → ∀ bytes : List UInt8,
      (byte :: bytes).filter (· ≠ separator) = byte :: bytes.filter (· ≠ separator) := by
    intro byte value h bytes
    have hne := ne_separator ((digit_iff hbase).mpr h) hbase
    exact List.filter_cons_of_pos (by simpa using hne)
  induction h with
  | last h =>
    rw [hkeep h]
    exact .cons ((digit_iff hbase).mpr h) .nil
  | next h _ ih =>
    rw [hkeep h]
    exact .cons ((digit_iff hbase).mpr h) ih
  | separated h _ ih =>
    rw [hkeep h, List.filter_cons_of_neg (by simp)]
    exact .cons ((digit_iff hbase).mpr h) ih

/-! ### The number -/

/-- What a numeral overflows with. -/
def overflowKind (negative : Bool) : IntErrorKind :=
  if negative then .negOverflow else .posOverflow

/-- The magnitudes that fit are closed downwards. -/
theorem signed_fits {negative : Bool} {m n : ℕ} (hmn : m ≤ n)
    (h : Fits 128 (signed negative n)) : Fits 128 (signed negative m) := by
  unfold signed at h ⊢
  rw [Integer.fits_iff] at h ⊢
  split_ifs at h ⊢ <;> omega

theorem toInt_ofNat_small {n : ℕ} (h : n ≤ 36) : (BitVec.ofNat 128 n).toInt = n := by
  have hnat : (BitVec.ofNat 128 n).toNat = n := by
    rw [BitVec.toNat_ofNat]
    exact Nat.mod_eq_of_lt (by omega)
  rw [BitVec.toInt_eq_toNat_of_lt (by omega), hnat]

section

variable {base value n : ℕ} {negative : Bool} {acc : Integer} {byte : UInt8}

theorem addDigit_spec (hbase : base ≤ 36) (hdigit : digit base byte = some value)
    (hacc : acc.toInt = signed negative n) :
    addDigit base negative acc byte =
      okOr (overflowKind negative) (checked 128 (signed negative (n * base + value))) := by
  have hvalue : value ≤ 36 := by
    have h := ((digit_iff hbase).mp hdigit).1
    omega
  have hmul : Integer.checkedMul acc (BitVec.ofNat 128 base) =
      checked 128 (signed negative (n * base)) := by
    rw [Integer.checkedMul, hacc, toInt_ofNat_small hbase]
    congr 1
    unfold signed
    split_ifs <;> push_cast <;> ring
  have hstep : addDigit base negative acc byte = okOr (overflowKind negative)
      ((Integer.checkedMul acc (BitVec.ofNat 128 base)).bind fun acc =>
        if negative then Integer.checkedSub acc (BitVec.ofNat 128 value)
        else Integer.checkedAdd acc (BitVec.ofNat 128 value)) := by
    unfold addDigit
    rw [hdigit]
    rfl
  rw [hstep, hmul]
  congr 1
  cases hm : checked 128 (signed negative (n * base)) with
  | none =>
    refine (checked_eq_none.mpr fun h => checked_eq_none.mp hm ?_).symm
    exact signed_fits (Nat.le_add_right _ _) h
  | some m =>
    have hm := checked_eq_some.mp hm
    have hsum : signed negative (n * base + value) =
        if negative then m.toInt - value else m.toInt + value := by
      rw [hm]
      unfold signed
      split_ifs <;> push_cast <;> ring
    rw [Option.bind_some, hsum]
    unfold Integer.checkedSub Integer.checkedAdd
    rw [toInt_ofNat_small hvalue]
    split_ifs <;> rfl

/-- The value of digits behind a number. -/
theorem foldl_digits (base : ℕ) (values : List ℕ) (n : ℕ) :
    values.foldl (fun n value => n * base + value) n =
      n * base ^ values.length + Nat.ofDigits base values.reverse := by
  induction values generalizing n with
  | nil => simp
  | cons value values ih =>
    rw [List.foldl_cons, ih, Nat.ofDigits_reverse_cons, List.length_cons, pow_succ]
    ring

theorem le_foldl_digits (hbase : 1 ≤ base) (values : List ℕ) (n : ℕ) :
    n ≤ values.foldl (fun n value => n * base + value) n := by
  rw [foldl_digits]
  exact Nat.le_add_right_of_le (Nat.le_mul_of_pos_right _ (Nat.pow_pos hbase))

/-- The digits are put together to the number that they stand for, if it fits. -/
theorem addDigits_spec (hbase : base ≤ 36) (hpos : 1 ≤ base) {bytes : List UInt8}
    {values : List ℕ}
    (h : List.Forall₂ (fun byte value => digit base byte = some value) bytes values)
    (hacc : acc.toInt = signed negative n) :
    bytes.foldlM (addDigit base negative) acc = okOr (overflowKind negative)
      (checked 128 (signed negative (values.foldl (fun n value => n * base + value) n))) := by
  induction h generalizing acc n with
  | nil =>
    rw [List.foldlM_nil, List.foldl_nil, ← hacc, checked_toInt]
    rfl
  | @cons byte value bytes values hdigit _ ih =>
    rw [List.foldlM_cons, addDigit_spec hbase hdigit hacc, List.foldl_cons]
    cases hm : checked 128 (signed negative (n * base + value)) with
    | none =>
      have hnone : checked 128 (signed negative
          (values.foldl (fun n value => n * base + value) (n * base + value))) = none :=
        checked_eq_none.mpr fun h => checked_eq_none.mp hm
          (signed_fits (le_foldl_digits hpos _ _) h)
      rw [hnone]
      rfl
    | some m => exact ih (checked_eq_some.mp hm)

end

/-! ### Sign and base -/

/-- Behind well-formed bytes, a string can be sliced. -/
theorem sliceFrom_append {a c : List UInt8} (ha : isUtf8 a = true) (hne : a ≠ [])
    (h : isUtf8 (a ++ c) = true) : sliceFrom (a ++ c) a.length = .ok c := by
  have hbound := (isCharBoundary_of_slice (a := []) (m := a) (c := c) h ha hne).1
  have hbound' := (isCharBoundary_of_slice (a := []) (m := a) (c := c) h ha hne).2
  rw [List.nil_append, List.length_nil, Nat.zero_add] at hbound'
  rw [sliceFrom, if_pos hbound', List.drop_left]

theorem isUtf8_of_append {a c : List UInt8} (ha : isUtf8 a = true) (h : isUtf8 (a ++ c) = true) :
    isUtf8 c = true := by
  rwa [isUtf8, readOwed_append ha] at h

/-- The split takes off a sign that the text starts with. -/
theorem splitSign_append {sign rest : List UInt8} {negative : Bool} (hsign : Sign sign negative)
    (h : isUtf8 (sign ++ rest) = true)
    (hrest : sign = [] → rest.head? ≠ some 0x2D ∧ rest.head? ≠ some 0x2B) :
    splitSign (sign ++ rest) = .ok (negative, rest) := by
  cases hsign with
  | none =>
    obtain ⟨hminus, hplus⟩ := hrest rfl
    rw [List.nil_append, splitSign, if_neg hminus, if_neg hplus]
    rfl
  | plus =>
    have hslice := sliceFrom_append (by decide) (by decide) h
    have hne : (ascii "+" ++ rest).head? ≠ some 0x2D :=
      fun h => absurd (Option.some.inj h) (by decide)
    rw [splitSign, if_neg hne, if_pos (by rfl), show 1 = (ascii "+").length by rfl, hslice]
    rfl
  | minus =>
    have hslice := sliceFrom_append (by decide) (by decide) h
    rw [splitSign, if_pos (by rfl), show 1 = (ascii "-").length by rfl, hslice]
    rfl

/-- A text is a sign with a rest. -/
theorem exists_sign (text : List UInt8) :
    ∃ sign rest negative, text = sign ++ rest ∧ Sign sign negative ∧
      (sign = [] → rest.head? ≠ some 0x2D ∧ rest.head? ≠ some 0x2B) := by
  cases text with
  | nil => exact ⟨[], [], false, rfl, .none, fun _ => by simp⟩
  | cons byte text =>
    by_cases hminus : byte = 0x2D
    · exact ⟨ascii "-", text, true, by rw [hminus]; rfl, .minus, fun h => by cases h⟩
    · by_cases hplus : byte = 0x2B
      · exact ⟨ascii "+", text, false, by rw [hplus]; rfl, .plus, fun h => by cases h⟩
      · exact ⟨[], byte :: text, false, rfl, .none, fun _ => by simp [hminus, hplus]⟩

theorem Sign.isUtf8 {sign : List UInt8} {negative : Bool} (h : Sign sign negative) :
    Utf8.isUtf8 sign = true := by
  cases h <;> decide

/-- What says a base. -/
def prefixes : List (List UInt8) :=
  ["0x", "0X", "0o", "0O", "0b", "0B"].map ascii

/-- The split takes off what says the base. -/
theorem splitBase_append {base : Option Base} {start rest : List UInt8} {radix : ℕ}
    (hstart : BasePrefix base start radix) (h : isUtf8 (start ++ rest) = true)
    (hrest : base = none → start = [] → rest.take 2 ∉ prefixes) :
    splitBase base (start ++ rest) = .ok (radix, rest) := by
  have htake : ∀ p : List UInt8, p.length = 2 → (p ++ rest).take 2 = p := by
    intro p hp
    rw [← hp, List.take_left]
  cases hstart with
  | given base => rfl
  | decimal =>
    have hnot := hrest rfl rfl
    simp only [prefixes, List.map_cons, List.map_nil, List.mem_cons, List.not_mem_nil, or_false,
      not_or] at hnot
    unfold splitBase
    simp only [List.nil_append, hnot, or_self, if_false]
    rfl
  | hex hp =>
    obtain rfl | rfl := hp <;>
    · have hslice := sliceFrom_append (by decide) (by decide) h
      unfold splitBase
      dsimp only
      rw [htake _ (by rfl), if_pos (by decide)]
      exact congrArg (· >>= fun digits => Except.ok (16, digits)) hslice
  | oct hp =>
    obtain rfl | rfl := hp <;>
    · have hslice := sliceFrom_append (by decide) (by decide) h
      unfold splitBase
      dsimp only
      rw [htake _ (by rfl), if_neg (by decide), if_pos (by decide)]
      exact congrArg (· >>= fun digits => Except.ok (8, digits)) hslice
  | bin hp =>
    obtain rfl | rfl := hp <;>
    · have hslice := sliceFrom_append (by decide) (by decide) h
      unfold splitBase
      dsimp only
      rw [htake _ (by rfl), if_neg (by decide), if_neg (by decide), if_pos (by decide)]
      exact congrArg (· >>= fun digits => Except.ok (2, digits)) hslice

/-- A text starts with what says its base, or with nothing that does. -/
theorem exists_basePrefix (base : Option Base) (text : List UInt8) :
    ∃ start rest radix, text = start ++ rest ∧ BasePrefix base start radix ∧
      (base = none → start = [] → rest.take 2 ∉ prefixes) := by
  have hsplit : text = text.take 2 ++ text.drop 2 := (List.take_append_drop 2 text).symm
  cases base with
  | some base => exact ⟨[], text, _, rfl, .given base, fun h => by cases h⟩
  | none =>
    by_cases hmem : text.take 2 ∈ prefixes
    · have hne : text.take 2 ≠ [] := by
        rintro hnil
        rw [hnil] at hmem
        exact absurd hmem (by decide)
      simp only [prefixes, List.map_cons, List.map_nil, List.mem_cons, List.not_mem_nil,
        or_false, ← or_assoc] at hmem
      obtain (((((hx | hX) | ho) | hO) | hb) | hB) := hmem
      · exact ⟨_, _, _, hsplit, .hex (.inl hx), fun _ h => absurd h hne⟩
      · exact ⟨_, _, _, hsplit, .hex (.inr hX), fun _ h => absurd h hne⟩
      · exact ⟨_, _, _, hsplit, .oct (.inl ho), fun _ h => absurd h hne⟩
      · exact ⟨_, _, _, hsplit, .oct (.inr hO), fun _ h => absurd h hne⟩
      · exact ⟨_, _, _, hsplit, .bin (.inl hb), fun _ h => absurd h hne⟩
      · exact ⟨_, _, _, hsplit, .bin (.inr hB), fun _ h => absurd h hne⟩
    · exact ⟨[], text, _, rfl, .decimal, fun _ _ => hmem⟩

/-- The bases are those that digits are known for. -/
theorem BasePrefix.radix {base : Option Base} {start : List UInt8} {radix : ℕ}
    (h : BasePrefix base start radix) : 1 ≤ radix ∧ radix ≤ 36 := by
  cases h with
  | given base =>
    have := base.property
    omega
  | decimal | hex _ | oct _ | bin _ => omega

/-- What says a base starts with a zero. -/
theorem BasePrefix.head {base : Option Base} {start : List UInt8} {radix : ℕ}
    (h : BasePrefix base start radix) : start = [] ∨ start.head? = some 0x30 := by
  cases h with
  | given _ | decimal => exact .inl rfl
  | hex hp | oct hp | bin hp => obtain rfl | rfl := hp <;> exact .inr rfl

/-- Digits do not start like a sign. -/
theorem Digits.head {base : ℕ} {bytes : List UInt8} {values : List ℕ}
    (h : Digits base bytes values) : ∃ byte value rest, bytes = byte :: rest ∧
      IsDigit base byte value := by
  cases h with
  | last h => exact ⟨_, _, _, rfl, h⟩
  | next h _ => exact ⟨_, _, _, rfl, h⟩
  | separated h _ => exact ⟨_, _, _, rfl, h⟩

theorem IsDigit.not_sign {base value : ℕ} {byte : UInt8} (h : IsDigit base byte value) :
    byte ≠ 0x2D ∧ byte ≠ 0x2B := by
  unfold IsDigit at h
  constructor <;>
  · rintro rfl
    simp only [UInt8.reduceToNat] at h
    omega

/-- Decimal digits do not say a base. -/
theorem Digits.not_mem_prefixes {bytes : List UInt8} {values : List ℕ}
    (h : Digits 10 bytes values) : bytes.take 2 ∉ prefixes := by
  intro hmem
  have hsecond : ∀ p ∈ prefixes, p[1]?.any (fun b => 0x39 < b.toNat && b.toNat ≠ 0x5F) = true := by
    decide
  have hb := hsecond _ hmem
  rw [List.getElem?_take_of_lt (by omega)] at hb
  cases h with
  | last h => simp at hb
  | separated h hrest => simp [separator] at hb
  | next h hrest =>
    obtain ⟨byte, value, rest, rfl, hdigit⟩ := hrest.head
    simp at hb
    unfold IsDigit at hdigit
    omega

/-! ### Parsing -/

/-- Behind the sign and the base, the digits are checked and put together. -/
theorem parseInteger_eq {text : Str} {base : Option Base} {sign start digits : List UInt8}
    {negative : Bool} {radix : ℕ} (htext : text.val = sign ++ (start ++ digits))
    (hsign : Sign sign negative) (hstart : BasePrefix base start radix)
    (hrest : sign = [] → (start ++ digits).head? ≠ some 0x2D ∧ (start ++ digits).head? ≠ some 0x2B)
    (hdigits : base = none → start = [] → digits.take 2 ∉ prefixes) :
    parseInteger text base = (do
      let previousDigit ← checkDigits radix false digits
      if !previousDigit then fail .invalidDigit
      else (digits.filter (· ≠ separator)).foldlM (addDigit radix negative) 0) := by
  have hutf8 := htext ▸ text.property
  rw [parseInteger, htext, splitSign_append hsign hutf8 hrest, ok_bind]
  dsimp only
  rw [splitBase_append hstart (isUtf8_of_append hsign.isUtf8 hutf8) hdigits, ok_bind]

/-- A numeral gives the integer that it stands for, or the overflow of its sign. -/
theorem parseInteger_of_numeral {text : Str} {base : Option Base} {n : ℤ}
    (h : Numeral base text.val n) :
    ∃ negative, (if negative = true then n ≤ 0 else 0 ≤ n) ∧
      parseInteger text base = okOr (overflowKind negative) (checked 128 n) := by
  obtain ⟨sign, start, digits, negative, radix, values, htext, hsign, hstart, hdigits, rfl⟩ := h
  obtain ⟨hpos, hradix⟩ := hstart.radix
  rw [List.append_assoc] at htext
  have hhead : (start ++ digits).head? ≠ some 0x2D ∧ (start ++ digits).head? ≠ some 0x2B := by
    obtain ⟨byte, value, rest, rfl, hdigit⟩ := hdigits.head
    obtain rfl | hzero := hstart.head
    · simpa using hdigit.not_sign
    · rw [List.head?_append, hzero, Option.some_or]
      exact ⟨by decide, by decide⟩
  have hnoprefix : base = none → start = [] → digits.take 2 ∉ prefixes := by
    rintro rfl rfl
    cases hstart with
    | decimal => exact hdigits.not_mem_prefixes
    | hex hp | oct hp | bin hp => obtain h | h := hp <;> cases h
  have hzero : (0 : Integer).toInt = signed negative 0 := by
    cases negative <;> rfl
  have hcheck := (checkDigits_iff hradix digits).1.mpr ⟨values, hdigits⟩
  refine ⟨negative, ?_, ?_⟩
  · unfold signed
    split_ifs <;> omega
  · rw [parseInteger_eq htext hsign hstart (fun _ => hhead) hnoprefix, hcheck, ok_bind,
      if_neg (by simp), addDigits_spec hradix hpos (hdigits.values hradix) hzero, foldl_digits,
      zero_mul, zero_add]

/-- What is no numeral is a bad digit. -/
theorem parseInteger_of_not_numeral {text : Str} {base : Option Base}
    (h : ¬ ∃ n, Numeral base text.val n) : parseInteger text base = fail .invalidDigit := by
  obtain ⟨sign, rest, negative, htext, hsign, hrest⟩ := exists_sign text.val
  obtain ⟨start, digits, radix, rfl, hstart, hdigits⟩ := exists_basePrefix base rest
  have hcheck : checkDigits radix false digits ≠ .ok true := by
    intro hcheck
    obtain ⟨values, hvalues⟩ := (checkDigits_iff hstart.radix.2 digits).1.mp hcheck
    exact h ⟨_, sign, start, digits, negative, radix, values, by rw [htext, List.append_assoc],
      hsign, hstart, hvalues, rfl⟩
  rw [parseInteger_eq htext hsign hstart hrest hdigits]
  obtain ⟨b, hb⟩ | hfail := checkDigits_cases radix false digits
  · cases b with
    | true => exact absurd hb hcheck
    | false =>
      rw [hb]
      rfl
  · rw [hfail]
    rfl

/-- The parser gives the integer that a numeral stands for, and otherwise says what is wrong. -/
theorem parseInteger_spec (text : Str) (base : Option Base) :
    (∀ v : Integer, parseInteger text base = .ok v ↔ Numeral base text.val v.toInt) ∧
    (parseInteger text base = fail .posOverflow ↔ ∃ n, Numeral base text.val n ∧ 2 ^ 127 ≤ n) ∧
    (parseInteger text base = fail .negOverflow ↔ ∃ n, Numeral base text.val n ∧ n < -2 ^ 127) ∧
    (parseInteger text base = fail .invalidDigit ↔ ¬ ∃ n, Numeral base text.val n) := by
  by_cases hnumeral : ∃ n, Numeral base text.val n
  · -- every reading of the text as a numeral is of the one integer that the parser gives
    have hparse : ∀ n, Numeral base text.val n → ∃ negative,
        (if negative = true then n ≤ 0 else 0 ≤ n) ∧
          parseInteger text base = okOr (overflowKind negative) (checked 128 n) :=
      fun n h => parseInteger_of_numeral h
    obtain ⟨n, hn⟩ := hnumeral
    obtain ⟨negative, hsign, heq⟩ := hparse n hn
    refine ⟨fun v => ⟨fun h => ?_, fun h => ?_⟩, ⟨fun h => ?_, ?_⟩, ⟨fun h => ?_, ?_⟩,
      fun h => ?_, fun h => absurd ⟨n, hn⟩ h⟩
    · rw [heq, okOr_eq_ok, checked_eq_some] at h
      exact h ▸ hn
    · obtain ⟨negative', -, heq'⟩ := hparse _ h
      rw [heq', checked_toInt]
      rfl
    · cases hc : checked 128 n with
      | some v => simp [heq, hc, okOr, fail] at h
      | none =>
        cases negative with
        | true => simp [heq, hc, okOr, fail, overflowKind] at h
        | false =>
          rw [checked_eq_none, Integer.fits_iff] at hc
          exact ⟨n, hn, by simp at hsign; omega⟩
    · rintro ⟨m, hm, hle⟩
      obtain ⟨negative', hsign', heq'⟩ := hparse m hm
      have hnone : checked 128 m = none := by
        rw [checked_eq_none, Integer.fits_iff]
        omega
      cases negative' with
      | true => simp at hsign'; omega
      | false =>
        rw [heq', hnone]
        rfl
    · cases hc : checked 128 n with
      | some v => simp [heq, hc, okOr, fail] at h
      | none =>
        cases negative with
        | false => simp [heq, hc, okOr, fail, overflowKind] at h
        | true =>
          rw [checked_eq_none, Integer.fits_iff] at hc
          exact ⟨n, hn, by simp at hsign; omega⟩
    · rintro ⟨m, hm, hlt⟩
      obtain ⟨negative', hsign', heq'⟩ := hparse m hm
      have hnone : checked 128 m = none := by
        rw [checked_eq_none, Integer.fits_iff]
        omega
      cases negative' with
      | false => simp at hsign'; omega
      | true =>
        rw [heq', hnone]
        rfl
    · cases hc : checked 128 n with
      | some v => simp [heq, hc, okOr, fail] at h
      | none => cases negative <;> simp [heq, hc, okOr, fail, overflowKind] at h
  · have heq := parseInteger_of_not_numeral hnumeral
    refine ⟨fun v => ⟨fun h => ?_, fun h => absurd ⟨_, h⟩ hnumeral⟩, ⟨fun h => ?_, ?_⟩,
      ⟨fun h => ?_, ?_⟩, fun _ => hnumeral, fun _ => heq⟩
    · simp [heq, fail] at h
    · simp [heq, fail] at h
    · rintro ⟨n, hn, -⟩
      exact absurd ⟨n, hn⟩ hnumeral
    · simp [heq, fail] at h
    · rintro ⟨n, hn, -⟩
      exact absurd ⟨n, hn⟩ hnumeral

end Dolang.Runtime
