import Mathlib.Data.List.Basic
import Mathlib.Tactic.Ring

/-!
# Byte strings

Little-endian numbers and reads at an offset. A reader is a byte string with a position, and a read
either stays inside the string or yields nothing, so what it returns depends only on the bytes it
has passed (`readExact_take`, `readExact_append`).
-/

namespace Dolang.Bytes

/-- The `n` low bytes of a number, least significant first. -/
def leBytes : Nat → Nat → List UInt8
  | _, 0 => []
  | v, n + 1 => UInt8.ofNat v :: leBytes (v / 256) n

/-- The number whose bytes are given least significant first. -/
def ofLe : List UInt8 → Nat
  | [] => 0
  | b :: bs => b.toNat + 256 * ofLe bs

/-- The number of zero bits of a byte below its lowest one bit, eight for the zero byte. -/
def trailingZeros (b : UInt8) : Nat :=
  ((List.range 8).find? fun i => b.toNat.testBit i).getD 8

/-- The `n` bytes at `pos`. -/
def readExact (code : List UInt8) (pos n : Nat) : Option (List UInt8) :=
  if pos + n ≤ code.length then some ((code.drop pos).take n) else none

@[simp]
theorem leBytes_length (v n : Nat) : (leBytes v n).length = n := by
  induction n generalizing v with
  | zero => rfl
  | succ n ih => simp [leBytes, ih]

/-- Reading the low bytes of a number back gives it modulo a power of `256`. -/
theorem ofLe_leBytes (v n : Nat) : ofLe (leBytes v n) = v % 256^n := by
  induction n generalizing v with
  | zero => simp [leBytes, ofLe, Nat.mod_one]
  | succ n ih =>
    have hsplit : v % 256^(n + 1) = v % 256 + 256 * (v / 256 % 256^n) := by
      rw [Nat.pow_succ', Nat.mod_mul]
    rw [leBytes, ofLe, ih, UInt8.toNat_ofNat', hsplit]

/-- A byte string of length `n` is a number below `256^n`. -/
theorem ofLe_lt (bs : List UInt8) : ofLe bs < 256^bs.length := by
  induction bs with
  | nil => simp [ofLe]
  | cons b bs ih =>
    have hb := b.toNat_lt
    rw [ofLe, List.length_cons, Nat.pow_succ']
    omega

/-- A byte with a set bit and no lower one has that many trailing zeros. -/
theorem trailingZeros_eq {b : UInt8} {k : Nat} (hk : k < 8) (hbit : b.toNat.testBit k = true)
    (hlow : ∀ i < k, b.toNat.testBit i = false) : trailingZeros b = k := by
  have hfind : (List.range 8).find? (fun i => b.toNat.testBit i) = some k := by
    rw [List.find?_range_eq_some]
    refine ⟨hbit, by simpa using hk, ?_⟩
    intro j hj
    simp [hlow j hj]
  rw [trailingZeros, hfind]
  rfl

/-- A byte has at most eight trailing zeros. -/
theorem trailingZeros_le (b : UInt8) : trailingZeros b ≤ 8 := by
  unfold trailingZeros
  cases hfind : (List.range 8).find? fun i => b.toNat.testBit i with
  | none => simp
  | some i =>
    rw [List.find?_range_eq_some] at hfind
    have hi := hfind.2.1
    simp only [List.mem_range] at hi
    simp only [Option.getD_some]
    omega

/-- What a successful read says: it stays in the string and returns that many bytes. -/
theorem readExact_eq_some {code data : List UInt8} {pos n : Nat}
    (h : readExact code pos n = some data) :
    pos + n ≤ code.length ∧ data = (code.drop pos).take n ∧ data.length = n := by
  unfold readExact at h
  split at h
  · rename_i hle
    have hdata : (code.drop pos).take n = data := by simpa using h
    refine ⟨hle, hdata.symm, ?_⟩
    rw [← hdata, List.length_take, List.length_drop]
    omega
  · cases h

/-- A read that ends before `e` is the same read of the string cut at `e`. -/
theorem readExact_take {code : List UInt8} {pos n e : Nat} (h : pos + n ≤ e) :
    readExact (code.take e) pos n = readExact code pos n := by
  unfold readExact
  have hdrop : ((code.take e).drop pos).take n = (code.drop pos).take n := by
    rw [List.drop_take, List.take_take, Nat.min_eq_left (by omega)]
  rw [hdrop, List.length_take]
  by_cases hle : pos + n ≤ code.length
  · rw [if_pos hle, if_pos (by omega)]
  · rw [if_neg hle, if_neg (by omega)]

/-- Bytes placed after `pre` are read at its length. -/
theorem readExact_append (pre data post : List UInt8) :
    readExact (pre ++ data ++ post) pre.length data.length = some data := by
  unfold readExact
  rw [if_pos (by simp), List.append_assoc, List.drop_left, List.take_left]

/-- The byte after `pre`. -/
theorem getElem?_append_cons (pre post : List UInt8) (b : UInt8) :
    (pre ++ b :: post)[pre.length]? = some b := by
  simp

end Dolang.Bytes
