import Mathlib.Data.BitVec
import Mathlib.Data.Int.Notation
import Mathlib.Tactic.NormNum

/-!
# Signed machine integers

The signed integers of a width, as bit vectors, and the checked operations on them: an operation is
done on the integers, and its result is given back if a word of the width denotes it.
-/

namespace Dolang.Signed

variable {w : ℕ} {n : ℤ}

/-- The word that denotes an integer, if there is one. -/
def checked (w : ℕ) (n : ℤ) : Option (BitVec w) :=
  if (BitVec.ofInt w n).toInt = n then some (BitVec.ofInt w n) else none

/-- Some word denotes the integer. -/
def Fits (w : ℕ) (n : ℤ) : Prop := ∃ i : BitVec w, i.toInt = n

theorem checked_eq_some {i : BitVec w} : checked w n = some i ↔ i.toInt = n := by
  unfold checked
  constructor
  · intro h
    split_ifs at h with hn
    obtain rfl := Option.some.inj h
    exact hn
  · rintro rfl
    rw [BitVec.ofInt_toInt, if_pos rfl]

@[simp]
theorem checked_toInt (i : BitVec w) : checked w i.toInt = some i :=
  checked_eq_some.mpr rfl

theorem checked_eq_none : checked w n = none ↔ ¬ Fits w n := by
  rw [Option.eq_none_iff_forall_ne_some]
  exact ⟨fun h ⟨i, hi⟩ => h i (checked_eq_some.mpr hi), fun h i hi => h ⟨i, checked_eq_some.mp hi⟩⟩

theorem toInt_fits (i : BitVec w) : Fits w i.toInt := ⟨i, rfl⟩

/-- The integers that fit are those between the bounds of two's complement. -/
theorem fits_iff (hw : 0 < w) : Fits w n ↔ -2 ^ (w - 1) ≤ n ∧ n < 2 ^ (w - 1) := by
  constructor
  · rintro ⟨i, rfl⟩
    exact ⟨i.le_toInt, i.toInt_lt⟩
  · rintro ⟨hl, hr⟩
    exact ⟨BitVec.ofInt w n, BitVec.toInt_ofInt_eq_self hw hl hr⟩

/-- What lies between two integers that fit fits. -/
theorem Fits.of_between {a b : ℤ} (hw : 0 < w) (ha : Fits w a) (hb : Fits w b) (hl : a ≤ n)
    (hr : n ≤ b) : Fits w n := by
  rw [fits_iff hw] at ha hb ⊢
  exact ⟨ha.1.trans hl, lt_of_le_of_lt hr hb.2⟩

end Dolang.Signed
