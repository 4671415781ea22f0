import Mathlib.Data.BitVec
import Mathlib.Tactic.NormNum
import Mathlib.Tactic.Ring

/-!
# Fields of machine words

A field is put behind another one with a shift and a bitwise or, and taken out with a shift and a
mask. On the numbers that words denote these are multiplication, addition, division and remainder.
-/

namespace Dolang.Word

variable {w : ℕ}

/-- A field in the low bits behind what is shifted to the left. -/
theorem toNat_shiftLeft_or {a b : BitVec w} {k : ℕ} (hk : k ≤ w) (hb : b.toNat < 2 ^ k) :
    (a <<< k ||| b).toNat = a.toNat * 2 ^ k % 2 ^ w + b.toNat := by
  have hsplit : a.toNat * 2 ^ k % 2 ^ w = a.toNat % 2 ^ (w - k) * 2 ^ k := by
    rw [← Nat.mul_mod_mul_right, ← Nat.pow_add, Nat.sub_add_cancel hk]
  rw [BitVec.toNat_or, BitVec.toNat_shiftLeft, Nat.shiftLeft_eq, hsplit, ← Nat.shiftLeft_eq,
    Nat.shiftLeft_add_eq_or_of_lt hb]

/-- Nothing is lost when the shifted part is small enough. -/
theorem toNat_shiftLeft_or_of_lt {a b : BitVec w} {k : ℕ} (hk : k ≤ w) (hb : b.toNat < 2 ^ k)
    (ha : a.toNat * 2 ^ k < 2 ^ w) : (a <<< k ||| b).toNat = a.toNat * 2 ^ k + b.toNat := by
  rw [toNat_shiftLeft_or hk hb, Nat.mod_eq_of_lt ha]

/-- Three fields one behind the other. -/
theorem toNat_fields {a b c : BitVec w} {k n : ℕ} (hb : b.toNat < 2 ^ n) (hc : c.toNat < 2 ^ k)
    (hkn : k + n ≤ w) (ha : a.toNat * 2 ^ (k + n) + b.toNat * 2 ^ k < 2 ^ w) :
    (a <<< (k + n) ||| b <<< k ||| c).toNat = a.toNat * 2 ^ (k + n) + b.toNat * 2 ^ k + c.toNat := by
  have hsplit : a <<< (k + n) ||| b <<< k = (a <<< n ||| b) <<< k := by
    rw [BitVec.shiftLeft_or_distrib, Nat.add_comm, BitVec.shiftLeft_add]
  have hpow : 2 ^ (k + n) = 2 ^ n * 2 ^ k := by rw [Nat.add_comm, Nat.pow_add]
  rw [hpow, ← Nat.mul_assoc, ← Nat.add_mul] at ha ⊢
  have hle : a.toNat * 2 ^ n + b.toNat < 2 ^ w := by
    have := Nat.le_mul_of_pos_right (a.toNat * 2 ^ n + b.toNat) (Nat.two_pow_pos k)
    omega
  have hinner : (a <<< n ||| b).toNat = a.toNat * 2 ^ n + b.toNat :=
    toNat_shiftLeft_or_of_lt (by omega) hb (by omega)
  rw [hsplit, toNat_shiftLeft_or_of_lt (by omega) hc (by rw [hinner]; exact ha), hinner]

/-- The word of the low bits, `(1 << n) - 1`. -/
def mask (w n : ℕ) : BitVec w := (1#w <<< n) - 1#w

/-- What a mask of the low bits leaves. -/
theorem toNat_and_mask (a : BitVec w) {n : ℕ} (hn : n < w) :
    (a &&& mask w n).toNat = a.toNat % 2 ^ n := by
  have hpow : 2 ^ n < 2 ^ w := Nat.pow_lt_pow_right (by norm_num) hn
  have hone : (1#w).toNat = 1 := by
    rw [BitVec.toNat_ofNat, Nat.mod_eq_of_lt (Nat.one_lt_two_pow (by omega))]
  have hshift : ((1#w) <<< n).toNat = 2 ^ n := by
    rw [BitVec.toNat_shiftLeft, hone, Nat.shiftLeft_eq, one_mul, Nat.mod_eq_of_lt hpow]
  have hmask : (mask w n).toNat = 2 ^ n - 1 := by
    rw [mask, BitVec.toNat_sub_of_le, hshift, hone]
    rw [BitVec.le_def, hshift, hone]
    exact Nat.one_le_two_pow
  rw [BitVec.toNat_and, hmask, Nat.and_two_pow_sub_one_eq_mod]

theorem toNat_ushiftRight_div (a : BitVec w) (k : ℕ) : (a >>> k).toNat = a.toNat / 2 ^ k := by
  rw [BitVec.toNat_ushiftRight, Nat.shiftRight_eq_div_pow]

/-- A field of a word. -/
theorem toNat_field (a : BitVec w) (k : ℕ) {n : ℕ} (hn : n < w) :
    ((a >>> k) &&& mask w n).toNat = a.toNat / 2 ^ k % 2 ^ n := by
  rw [toNat_and_mask _ hn, toNat_ushiftRight_div]

end Dolang.Word
