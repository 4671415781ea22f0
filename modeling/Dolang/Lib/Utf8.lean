import Mathlib.Data.List.Basic

/-!
# UTF-8

Well-formed byte strings and character boundaries. A lead byte fixes the ranges of the bytes that
follow it (`following`), and a string is read with the ranges that are still owed (`owed`). As every
owed range lies within the continuation bytes, a byte that is none can only be read where nothing is
owed. This is why a well-formed part of a well-formed string starts and ends at character boundaries
(`isCharBoundary_of_slice`).
-/

namespace Dolang.Utf8

/-- A range of bytes. -/
structure ByteRange where
  lo : UInt8
  hi : UInt8
  deriving DecidableEq, Repr

/-- The continuation bytes. -/
def tail : ByteRange := ⟨0x80, 0xBF⟩

/-- The ranges of the bytes that follow a lead byte. -/
def following (b : UInt8) : Option (List ByteRange) :=
  if b ≤ 0x7F then some []
  else if b < 0xC2 then none
  else if b ≤ 0xDF then some [tail]
  else if b = 0xE0 then some [⟨0xA0, 0xBF⟩, tail]
  else if b = 0xED then some [⟨0x80, 0x9F⟩, tail]
  else if b ≤ 0xEF then some [tail, tail]
  else if b = 0xF0 then some [⟨0x90, 0xBF⟩, tail, tail]
  else if b ≤ 0xF3 then some [tail, tail, tail]
  else if b = 0xF4 then some [⟨0x80, 0x8F⟩, tail, tail]
  else none

/-- Read a byte string with the ranges that are owed. -/
def readOwed : List ByteRange → List UInt8 → Bool
  | [], [] => true
  | _ :: _, [] => false
  | [], b :: bytes =>
    match following b with
    | some owed => readOwed owed bytes
    | none => false
  | r :: owed, b :: bytes => (r.lo ≤ b && b ≤ r.hi) && readOwed owed bytes

/-- The string is well-formed. -/
def isUtf8 (bytes : List UInt8) : Bool := readOwed [] bytes

/-- The byte continues a character. -/
def isContinuation (b : UInt8) : Bool := 0x80 ≤ b && b ≤ 0xBF

/-- The position is between two characters, or at an end. -/
def isCharBoundary (bytes : List UInt8) (i : Nat) : Bool :=
  i = 0 || i = bytes.length || (bytes[i]?.map isContinuation = some false)

/-- Every owed range lies within the continuation bytes. -/
def Owed (owed : List ByteRange) : Prop := ∀ r ∈ owed, 0x80 ≤ r.lo ∧ r.hi ≤ 0xBF

theorem owed_following {b : UInt8} {owed : List ByteRange} (h : following b = some owed) :
    Owed owed := by
  unfold following at h
  intro r hr
  split_ifs at h <;> cases h <;> simp only [List.mem_cons, List.not_mem_nil, or_false] at hr
  all_goals
    rcases hr with rfl | rfl | rfl <;> decide

/-- What is read after something that ends between characters is read on its own. -/
theorem readOwed_append {a c : List UInt8} {owed : List ByteRange} (h : readOwed owed a = true) :
    readOwed owed (a ++ c) = isUtf8 c := by
  induction a generalizing owed with
  | nil =>
    cases owed with
    | nil => rfl
    | cons r owed => cases h
  | cons b a ih =>
    cases owed with
    | nil =>
      simp only [List.cons_append, readOwed] at h ⊢
      split at h
      · exact ih h
      · cases h
    | cons r owed =>
      simp only [List.cons_append, readOwed, Bool.and_eq_true] at h ⊢
      rw [ih h.2]
      simp [h.1]

/-- Before a byte that continues nothing, a string ends between characters. -/
theorem readOwed_before_lead {a c : List UInt8} {b : UInt8} {owed : List ByteRange}
    (howed : Owed owed) (hb : isContinuation b = false) (h : readOwed owed (a ++ b :: c) = true) :
    readOwed owed a = true := by
  induction a generalizing owed with
  | nil =>
    cases owed with
    | nil => rfl
    | cons r owed =>
      obtain ⟨hlo, hhi⟩ := howed r (by simp)
      simp only [List.nil_append, readOwed, Bool.and_eq_true, decide_eq_true_eq] at h
      have hcont : isContinuation b = true := by
        simp only [isContinuation, Bool.and_eq_true, decide_eq_true_eq]
        exact ⟨UInt8.le_trans hlo h.1.1, UInt8.le_trans h.1.2 hhi⟩
      rw [hcont] at hb
      cases hb
  | cons x a ih =>
    cases owed with
    | nil =>
      simp only [List.cons_append, readOwed] at h ⊢
      split at h
      · rename_i owed hx
        exact ih (owed_following hx) h
      · cases h
    | cons r owed =>
      simp only [List.cons_append, readOwed, Bool.and_eq_true] at h ⊢
      exact ⟨h.1, ih (fun q hq => howed q (by simp [hq])) h.2⟩

/-- A well-formed string does not start with a continuation byte. -/
theorem not_isContinuation_head {b : UInt8} {c : List UInt8} (h : isUtf8 (b :: c) = true) :
    isContinuation b = false := by
  unfold isUtf8 readOwed at h
  split at h
  · rename_i owed hb
    cases hcont : isContinuation b with
    | false => rfl
    | true =>
      simp only [isContinuation, Bool.and_eq_true, decide_eq_true_eq] at hcont
      unfold following at hb
      rw [if_neg (UInt8.not_le.mpr (UInt8.lt_of_lt_of_le (by decide) hcont.1)),
        if_pos (UInt8.lt_of_le_of_lt hcont.2 (by decide))] at hb
      cases hb
  · cases h

/-- In a well-formed string, a well-formed part that is not empty starts and ends between
characters. -/
theorem isCharBoundary_of_slice {a m c : List UInt8} (h : isUtf8 (a ++ (m ++ c)) = true)
    (hm : isUtf8 m = true) (hne : m ≠ []) :
    isCharBoundary (a ++ (m ++ c)) a.length = true ∧
      isCharBoundary (a ++ (m ++ c)) (a.length + m.length) = true := by
  obtain ⟨b, m, rfl⟩ := List.exists_cons_of_ne_nil hne
  have hb := not_isContinuation_head hm
  have ha : isUtf8 a = true := readOwed_before_lead (fun r hr => by cases hr) hb h
  have hc : isUtf8 c = true := by
    rw [isUtf8, readOwed_append ha, isUtf8, readOwed_append hm] at h
    exact h
  constructor
  · simp [isCharBoundary, hb]
  · cases c with
    | nil => simp [isCharBoundary]
    | cons x c =>
      have hx := not_isContinuation_head hc
      simp [isCharBoundary, hx]

end Dolang.Utf8
