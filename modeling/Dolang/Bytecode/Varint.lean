import Dolang.Lib.Bytes

/-!
# Variable-length integers

The `vint64` encoding of `dolang-bytecode/src/varint.rs`. The number of trailing zeros of the first
byte says how many bytes follow it, and the value stands above the lowest one bit. A `UVar` is a
natural number below `2^64` and an `IVar` an integer of 64 bits, folded to a `UVar` by `zag`.

`decodeUVar_encodeUVar` and `decodeIVar_encodeIVar` are the round trips, at any position of a
byte string. `encodedLen_mono` says that larger numbers are not shorter, and is what the layout of
branches relies on.
-/

namespace Dolang.Bytecode

open Dolang.Bytes

/-- `zag`: `(x << 1) ^ (x >> 63)`, which is `2 x` for `0 ≤ x` and `-2 x - 1` for `x < 0`. -/
def zag (x : Int) : Nat := if 0 ≤ x then (2 * x).toNat else (-2 * x - 1).toNat

/-- `zig`: `(x >> 1) ^ -(x & 1)`, which complements the half of an odd number. -/
def zig (x : Nat) : Int := if x % 2 = 0 then (x / 2 : Nat) else -(x / 2 : Nat) - 1

/-- `u64::leading_zeros`. -/
def leadingZeros (x : Nat) : Nat := if x = 0 then 64 else 63 - x.log2

/-- The length of a number's encoding, by its leading zeros. -/
def encodedLen (x : Nat) : Nat :=
  let zeros := leadingZeros x
  if 57 ≤ zeros then 1
  else if 50 ≤ zeros then 2
  else if 43 ≤ zeros then 3
  else if 36 ≤ zeros then 4
  else if 29 ≤ zeros then 5
  else if 22 ≤ zeros then 6
  else if 15 ≤ zeros then 7
  else if 8 ≤ zeros then 8
  else 9

/-- `UVar::encode`. -/
def encodeUVar (x : Nat) : List UInt8 :=
  let len := encodedLen x
  if len = 9 then 0 :: leBytes x 8
  else leBytes ((x <<< 1 ||| 1) <<< (len - 1)) len

/-- `UVar::decode` at a position: the value and the position after it, or nothing when the string
ends first. -/
def decodeUVar (code : List UInt8) (pos : Nat) : Option (Nat × Nat) := do
  let header ← code[pos]?
  let trailing := trailingZeros header
  if trailing = 8 then
    let data ← readExact code (pos + 1) 8
    return (ofLe data, pos + 9)
  else if trailing = 0 then
    return (header.toNat >>> 1, pos + 1)
  else
    let data ← readExact code (pos + 1) trailing
    return (ofLe (header :: data) >>> (1 + trailing), pos + 1 + trailing)

/-- `UnsafeDecode for UVar`, where a read outside the string yields nothing. -/
def unsafeDecodeUVar (code : List UInt8) (pos : Nat) : Option (Nat × Nat) := do
  let header ← code[pos]?
  let trailing := trailingZeros header
  if trailing = 8 then
    let data ← readExact code (pos + 1) 8
    return (ofLe data, pos + 9)
  else
    let data ← readExact code (pos + 1) trailing
    return (ofLe (header :: data) >>> (1 + trailing), pos + 1 + trailing)

/-- `IVar::encode`. -/
def encodeIVar (x : Int) : List UInt8 := encodeUVar (zag x)

/-- `IVar::decode`. -/
def decodeIVar (code : List UInt8) (pos : Nat) : Option (Int × Nat) :=
  (decodeUVar code pos).map fun (v, after) => (zig v, after)

/-! ## Zigzag -/

/-- Shifting a number by its width but one spreads its sign. -/
theorem sshiftRight_sign (x : BitVec 64) :
    x.sshiftRight 63 = if x.msb then BitVec.allOnes 64 else 0#64 := by
  cases hmsb : x.msb
  · rw [BitVec.sshiftRight_eq_of_msb_false hmsb, if_neg (by decide)]
    have hlt : x.toNat < 2^63 := by simpa [BitVec.msb_eq_decide] using hmsb
    apply BitVec.eq_of_toNat_eq
    simp [BitVec.toNat_ushiftRight, Nat.shiftRight_eq_div_pow]
    omega
  · rw [BitVec.sshiftRight_eq_of_msb_true hmsb, if_pos rfl]
    have hlt : 2^63 ≤ x.toNat := by simpa [BitVec.msb_eq_decide] using hmsb
    have hx := x.isLt
    have hzero : ~~~x >>> 63 = 0#64 := by
      apply BitVec.eq_of_toNat_eq
      simp [BitVec.toNat_ushiftRight, Nat.shiftRight_eq_div_pow, BitVec.toNat_not]
      omega
    rw [hzero]
    decide

/-- `zag` is the formula of the source on the two's complement of a number. -/
theorem zag_eq (x : BitVec 64) : zag x.toInt = ((x <<< 1) ^^^ (x.sshiftRight 63)).toNat := by
  have hx := x.isLt
  rw [sshiftRight_sign, BitVec.toInt_eq_msb_cond, zag]
  cases hmsb : x.msb
  · have hlt : x.toNat < 2^63 := by simpa [BitVec.msb_eq_decide] using hmsb
    simp [BitVec.toNat_shiftLeft, Nat.shiftLeft_eq]
    omega
  · have hlt : 2^63 ≤ x.toNat := by simpa [BitVec.msb_eq_decide] using hmsb
    have hneg : ¬(0 : Int) ≤ (x.toNat : Int) - 2^64 := by omega
    simp only [if_true]
    rw [if_neg (by simpa using hneg), BitVec.xor_allOnes, BitVec.toNat_not,
      BitVec.toNat_shiftLeft, Nat.shiftLeft_eq]
    push_cast
    omega

/-- `zig` is the formula of the source. -/
theorem zig_eq (x : BitVec 64) : BitVec.ofInt 64 (zig x.toNat) = (x >>> 1) ^^^ -(x &&& 1#64) := by
  have hx := x.isLt
  have hand : (x &&& 1#64) = if x.toNat % 2 = 0 then 0#64 else 1#64 := by
    apply BitVec.eq_of_toNat_eq
    rw [BitVec.toNat_and]
    split <;> simp <;> omega
  rw [hand, zig]
  split
  · apply BitVec.eq_of_toNat_eq
    simp [BitVec.toNat_ushiftRight, Nat.shiftRight_eq_div_pow]
    omega
  · rw [show -(1#64) = BitVec.allOnes 64 by decide, BitVec.xor_allOnes]
    apply BitVec.eq_of_toNat_eq
    rw [BitVec.toNat_not, BitVec.toNat_ushiftRight, Nat.shiftRight_eq_div_pow, BitVec.toNat_ofInt]
    omega

/-- Unfolding a folded integer gives it back. -/
theorem zig_zag (x : Int) : zig (zag x) = x := by
  unfold zig zag
  split_ifs <;> omega

/-- A 64-bit integer folds to a 64-bit number. -/
theorem zag_lt {x : Int} (hlo : -2^63 ≤ x) (hhi : x < 2^63) : zag x < 2^64 := by
  unfold zag
  split_ifs <;> omega

/-- A 64-bit number unfolds to a 64-bit integer. -/
theorem zig_bounds {v : Nat} (h : v < 2^64) : -2^63 ≤ zig v ∧ zig v < 2^63 := by
  unfold zig
  split_ifs <;> omega

/-- Among displacements of one sign, the farther one does not fold to a smaller number. -/
theorem zag_le_zag {x y : Int} (h : (0 ≤ x ∧ x ≤ y) ∨ (y ≤ x ∧ x < 0)) : zag x ≤ zag y := by
  unfold zag
  split_ifs <;> omega

/-! ## Lengths -/

/-- The leading zeros of a number are at least `64 - k` exactly when it is below `2^k`. -/
theorem le_leadingZeros {x k : Nat} (hx : x < 2^64) (hk : 0 < k) (hk' : k ≤ 64) :
    64 - k ≤ leadingZeros x ↔ x < 2^k := by
  unfold leadingZeros
  by_cases h0 : x = 0
  · simp [h0]
  · rw [if_neg h0, ← Nat.log2_lt h0]
    have hlog : x.log2 < 64 := (Nat.log2_lt h0).mpr hx
    omega

/-- The length of an encoding, by the size of the number. -/
theorem encodedLen_eq {x : Nat} (hx : x < 2^64) :
    encodedLen x =
      if x < 2^7 then 1 else if x < 2^14 then 2 else if x < 2^21 then 3
      else if x < 2^28 then 4 else if x < 2^35 then 5 else if x < 2^42 then 6
      else if x < 2^49 then 7 else if x < 2^56 then 8 else 9 := by
  have hiff : ∀ k, 0 < k → k ≤ 64 → (64 - k ≤ leadingZeros x ↔ x < 2^k) :=
    fun k hk hk' => le_leadingZeros hx hk hk'
  have h7 := hiff 7 (by omega) (by omega)
  have h14 := hiff 14 (by omega) (by omega)
  have h21 := hiff 21 (by omega) (by omega)
  have h28 := hiff 28 (by omega) (by omega)
  have h35 := hiff 35 (by omega) (by omega)
  have h42 := hiff 42 (by omega) (by omega)
  have h49 := hiff 49 (by omega) (by omega)
  have h56 := hiff 56 (by omega) (by omega)
  simp only [Nat.reduceSub] at h7 h14 h21 h28 h35 h42 h49 h56
  simp only [encodedLen, h7, h14, h21, h28, h35, h42, h49, h56]

/-- An encoding has between one and nine bytes. -/
theorem encodedLen_bounds (x : Nat) : 1 ≤ encodedLen x ∧ encodedLen x ≤ 9 := by
  simp only [encodedLen]
  split_ifs <;> omega

/-- The table of lengths as one formula: a byte for each seven bits. -/
theorem encodedLen_eq_div (x : Nat) :
    encodedLen x = min 9 (max 1 ((70 - leadingZeros x) / 7)) := by
  simp only [encodedLen]
  split_ifs <;> omega

/-- A larger number does not have a shorter encoding. -/
theorem encodedLen_mono {x y : Nat} (h : x ≤ y) : encodedLen x ≤ encodedLen y := by
  have hzeros : leadingZeros y ≤ leadingZeros x := by
    unfold leadingZeros
    split_ifs with hy hx hx
    · omega
    · omega
    · omega
    · have hlog : x.log2 ≤ y.log2 := (Nat.le_log2 hy).mpr ((Nat.log2_self_le hx).trans h)
      omega
  rw [encodedLen_eq_div, encodedLen_eq_div]
  omega

/-- A number fits in seven bits for each byte of an encoding shorter than nine bytes. -/
theorem lt_of_encodedLen {x : Nat} (hx : x < 2^64) (h : encodedLen x ≠ 9) :
    x < 2^(7 * encodedLen x) := by
  rw [encodedLen_eq hx] at h ⊢
  split_ifs at h ⊢ <;> omega

/-- An encoding has the length that `encodedLen` says. -/
@[simp]
theorem encodeUVar_length (x : Nat) : (encodeUVar x).length = encodedLen x := by
  simp only [encodeUVar]
  split_ifs with h
  · simp [h]
  · simp

/-! ## Round trips -/

/-- The unchecked decoder reads the same number as the checked one. -/
theorem unsafeDecodeUVar_eq (code : List UInt8) (pos : Nat) :
    unsafeDecodeUVar code pos = decodeUVar code pos := by
  unfold unsafeDecodeUVar decodeUVar
  cases hhead : code[pos]? with
  | none => rfl
  | some header =>
    simp only [Option.bind_eq_bind, Option.bind_some]
    by_cases h8 : trailingZeros header = 8
    · simp only [h8, if_true]
    · by_cases h0 : trailingZeros header = 0
      · have hlen : pos < code.length := (List.getElem?_eq_some_iff.mp hhead).1
        have hread : readExact code (pos + 1) 0 = some [] := by
          simp only [readExact, Nat.add_zero, List.take_zero]
          rw [if_pos (by omega)]
        simp [h0, hread, ofLe]
      · simp only [if_neg h8, if_neg h0]

/-- What a successful read says about its position and value. -/
theorem decodeUVar_bounds {code : List UInt8} {pos v after : Nat}
    (h : decodeUVar code pos = some (v, after)) :
    pos < after ∧ after ≤ code.length ∧ v < 2^64 := by
  unfold decodeUVar at h
  obtain ⟨header, hhead, h⟩ := Option.bind_eq_some_iff.mp h
  have hlen : pos < code.length := (List.getElem?_eq_some_iff.mp hhead).1
  have hheader := header.toNat_lt
  have htrailing := trailingZeros_le header
  simp only at h
  split_ifs at h with h8 h0
  · obtain ⟨data, hread, h⟩ := Option.bind_eq_some_iff.mp h
    obtain ⟨hle, -, hdata⟩ := readExact_eq_some hread
    have hlt := ofLe_lt data
    rw [hdata] at hlt
    simp only [Option.pure_def, Option.some.injEq, Prod.mk.injEq] at h
    omega
  · simp only [Option.pure_def, Option.some.injEq, Prod.mk.injEq, Nat.shiftRight_one] at h
    omega
  · obtain ⟨data, hread, h⟩ := Option.bind_eq_some_iff.mp h
    obtain ⟨hle, -, hdata⟩ := readExact_eq_some hread
    have hlt := ofLe_lt (header :: data)
    have hpow : 256^(header :: data).length ≤ 256^8 :=
      Nat.pow_le_pow_right (by omega) (by simp; omega)
    simp only [Option.pure_def, Option.some.injEq, Prod.mk.injEq] at h
    have hshift := Nat.shiftRight_le (ofLe (header :: data)) (1 + trailingZeros header)
    omega

/-- A read that ends before `e` is the same read of the string cut at `e`. -/
theorem decodeUVar_take {code : List UInt8} {pos v after e : Nat}
    (h : decodeUVar code pos = some (v, after)) (he : after ≤ e) :
    decodeUVar (code.take e) pos = some (v, after) := by
  have hpos := (decodeUVar_bounds h).1
  unfold decodeUVar at h ⊢
  obtain ⟨header, hhead, h⟩ := Option.bind_eq_some_iff.mp h
  rw [List.getElem?_take_of_lt (by omega), hhead]
  simp only [Option.bind_eq_bind, Option.bind_some] at h ⊢
  split_ifs at h ⊢ with h8 h0
  · obtain ⟨data, hread, h⟩ := Option.bind_eq_some_iff.mp h
    have hafter : pos + 9 = after := by simpa using (Prod.ext_iff.mp (Option.some.inj h)).2
    rw [readExact_take (by omega), hread]
    exact h
  · exact h
  · obtain ⟨data, hread, h⟩ := Option.bind_eq_some_iff.mp h
    have hafter : pos + 1 + trailingZeros header = after := by
      simpa using (Prod.ext_iff.mp (Option.some.inj h)).2
    rw [readExact_take (by omega), hread]
    exact h

/-- The low byte of `(2 x + 1) 2^k` has `k` trailing zeros. -/
theorem trailingZeros_odd_shift {x k : Nat} (hk : k < 8) :
    trailingZeros (UInt8.ofNat ((x <<< 1 ||| 1) <<< k)) = k := by
  have hbit : ∀ i, i < 8 → (UInt8.ofNat ((x <<< 1 ||| 1) <<< k)).toNat.testBit i =
      ((x <<< 1 ||| 1) <<< k).testBit i := by
    intro i hi
    rw [UInt8.toNat_ofNat', Nat.testBit_mod_two_pow]
    simp [hi]
  refine trailingZeros_eq hk ?_ ?_
  · rw [hbit k hk]
    simp
  · intro i hi
    rw [hbit i (by omega)]
    simp [Nat.testBit_shiftLeft, Nat.not_le.mpr hi]

/-- Decoding what was encoded gives the number back, at any position and whatever follows. -/
theorem decodeUVar_encodeUVar (pre post : List UInt8) {x : Nat} (hx : x < 2^64) :
    decodeUVar (pre ++ encodeUVar x ++ post) pre.length =
      some (x, pre.length + encodedLen x) := by
  obtain ⟨hlen1, hlen9⟩ := encodedLen_bounds x
  simp only [encodeUVar]
  split_ifs with h9
  · -- The nine-byte form: a zero header and the eight bytes of the number.
    have hread := readExact_append (pre ++ [0]) (leBytes x 8) post
    simp only [List.length_append, List.length_cons, List.length_nil, leBytes_length,
      List.append_assoc, List.singleton_append] at hread
    have hhead := getElem?_append_cons pre (leBytes x 8 ++ post) 0
    have hzero : trailingZeros 0 = 8 := by decide
    simp only [List.append_assoc, List.cons_append] at hhead hread ⊢
    unfold decodeUVar
    rw [hhead]
    simp only [Option.bind_eq_bind, Option.bind_some, hzero, if_true, hread, Option.pure_def,
      ofLe_leBytes, h9]
    rw [Nat.mod_eq_of_lt (by omega)]
  · -- A shorter form: the first byte has `len - 1` trailing zeros.
    obtain ⟨k, hk⟩ : ∃ k, encodedLen x = k + 1 := ⟨encodedLen x - 1, by omega⟩
    have hxlt := lt_of_encodedLen hx h9
    rw [hk] at hxlt ⊢
    rw [Nat.add_sub_cancel]
    have htz := trailingZeros_odd_shift (x := x) (k := k) (by omega)
    generalize hv : (x <<< 1 ||| 1) <<< k = v at htz ⊢
    have hvx : v = (2 * x + 1) * 2^k := by
      rw [← hv, Nat.shiftLeft_eq, ← Nat.shiftLeft_add_eq_or_of_lt (by omega), Nat.shiftLeft_eq]
      ring
    have hdiv : v / 2^(1 + k) = x := by
      rw [hvx, Nat.add_comm 1 k, Nat.pow_succ, Nat.mul_comm (2 * x + 1),
        Nat.mul_div_mul_left _ _ (Nat.two_pow_pos k)]
      omega
    have hvlt : v < 256^(k + 1) := by
      have hle : 2 * x + 1 < 2^(7 * (k + 1) + 1) := by rw [Nat.pow_succ]; omega
      calc v = (2 * x + 1) * 2^k := hvx
        _ < 2^(7 * (k + 1) + 1) * 2^k := Nat.mul_lt_mul_of_pos_right hle (Nat.two_pow_pos k)
        _ = 256^(k + 1) := by
            rw [← Nat.pow_add, show (256 : Nat) = 2^8 from rfl, ← Nat.pow_mul]
            congr 1
            omega
    have hread := readExact_append (pre ++ [UInt8.ofNat v]) (leBytes (v / 256) k) post
    simp only [List.length_append, List.length_cons, List.length_nil, leBytes_length,
      List.append_assoc, List.singleton_append] at hread
    have hhead := getElem?_append_cons pre (leBytes (v / 256) k ++ post) (UInt8.ofNat v)
    have hofLe : ofLe (UInt8.ofNat v :: leBytes (v / 256) k) = v := by
      have h := ofLe_leBytes v (k + 1)
      rw [Nat.mod_eq_of_lt hvlt] at h
      exact h
    simp only [leBytes, List.append_assoc, List.cons_append] at hhead hread ⊢
    unfold decodeUVar
    rw [hhead]
    simp only [Option.bind_eq_bind, Option.bind_some, htz]
    rw [if_neg (by omega)]
    split_ifs with h0
    · subst h0
      have hsmall : (UInt8.ofNat v).toNat = v := by
        rw [UInt8.toNat_ofNat', Nat.mod_eq_of_lt (by simpa using hvlt)]
      simp only [Option.pure_def, Option.some.injEq, Prod.mk.injEq, hsmall,
        Nat.shiftRight_eq_div_pow]
      exact ⟨hdiv, trivial⟩
    · rw [hread]
      simp only [Option.bind_some, Option.pure_def, Option.some.injEq, Prod.mk.injEq, hofLe,
        Nat.shiftRight_eq_div_pow]
      exact ⟨hdiv, by omega⟩

/-- Decoding an encoded signed integer gives it back. -/
theorem decodeIVar_encodeIVar (pre post : List UInt8) {x : Int} (hlo : -2^63 ≤ x)
    (hhi : x < 2^63) :
    decodeIVar (pre ++ encodeIVar x ++ post) pre.length =
      some (x, pre.length + encodedLen (zag x)) := by
  unfold decodeIVar encodeIVar
  rw [decodeUVar_encodeUVar pre post (zag_lt hlo hhi)]
  simp [zig_zag]

end Dolang.Bytecode
