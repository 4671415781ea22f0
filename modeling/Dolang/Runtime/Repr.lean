import Dolang.Lib.Signed
import Dolang.Lib.Word
import Dolang.Runtime.Prim
import Mathlib.Data.Nat.Bitwise

/-!
# Packed values

The representation of values in one word of 64 bits, `value/repr.rs`. The low two bits are a tag: an
object's address, an integer of 62 bits, or a float without the two leading bits of its exponent.
Constants, the infinities and NaN are addresses in the first page of memory, where no object lies.
-/

namespace Dolang.Runtime

open Word

/-- A packed value, `Repr`. -/
abbrev Packed := BitVec 64

/-- The address of an object. The allocator aligns it, and nothing is in the first page. -/
structure ObjectPtr where
  addr : BitVec 64
  aligned : addr.toNat % 4 = 0
  above : 4096 ≤ addr.toNat

inductive Decode where
  | prim (p : Prim)
  | object (addr : BitVec 64)
  deriving DecidableEq, Repr

namespace Packed

/-! ### Tags and constants -/

/-- `tag::WIDTH`. -/
def width : ℕ := 2

/-- `tag::OBJECT`. -/
def tagObject : BitVec 64 := 0b00

/-- `tag::I64`. -/
def tagI64 : BitVec 64 := 0b01

/-- `tag::F64`. -/
def tagF64 : BitVec 64 := 0b10

def Known.uninit : Packed := 0b001#64 <<< width
def Known.nil : Packed := 0b010#64 <<< width
def Known.false : Packed := 0b011#64 <<< width
def Known.true : Packed := 0b100#64 <<< width
def Known.posInf : Packed := 0b101#64 <<< width
def Known.negInf : Packed := 0b110#64 <<< width
def Known.nan : Packed := 0b111#64 <<< width

/-- `IMAX`. -/
def imax : BitVec 64 := (BitVec.intMax 64).sshiftRight width

/-- `IMIN`. -/
def imin : BitVec 64 := (BitVec.intMin 64).sshiftRight width

/-! ### Exponents -/

def mantissaBits : ℕ := 52
def exponentBits : ℕ := 11
def exponentBias : BitVec 64 := 1023

/-- The exponent of the infinities and the NaNs. -/
def exponentInfNan : BitVec 64 := mask 64 exponentBits

/-- The bits of an exponent in a packed float. -/
def immExponentBits : ℕ := exponentBits - width

/-- An exponent without its leading bits. Zero is kept, and makes the exponents below it one less. -/
def expEncode (exponent : BitVec 64) : BitVec 64 :=
  if exponent = 0 then 0
  else
    let signed := exponent - exponentBias
    let signed := if signed.slt 1 then signed - 1 else signed
    signed &&& mask 64 immExponentBits

def expDecode (exponent : BitVec 64) : BitVec 64 :=
  if exponent = 0 then 0
  else
    -- The sign is extended.
    let signed := if exponent &&& 1#64 <<< (immExponentBits - 1) ≠ 0
      then exponent ||| ~~~mask 64 immExponentBits else exponent
    let signed := if signed.slt 0 then signed + 1 else signed
    signed + exponentBias

/-- `F64_IMM_EXPONENT_MAX`. -/
def immExponentMax : BitVec 64 := expDecode (mask 64 (immExponentBits - 1))

/-- `F64_IMM_EXPONENT_MIN`. -/
def immExponentMin : BitVec 64 := expDecode (1#64 <<< (immExponentBits - 1))

/-! ### Coding -/

/-- What a packed value stands for. Nothing is said of an uninitialised one and of an unknown tag. -/
def decode (this : Packed) : Option Decode :=
  let tag := this &&& mask 64 width
  if tag = tagI64 then some (.prim (.int ((this.sshiftRight width).signExtend 128)))
  else if tag = tagF64 then
    let imm := this >>> width
    let mantissa := imm &&& mask 64 mantissaBits
    let exponent := expDecode ((imm >>> mantissaBits) &&& mask 64 immExponentBits)
    let sign := (imm >>> (mantissaBits + immExponentBits)) &&& 1
    let bits := sign <<< (mantissaBits + exponentBits) ||| exponent <<< mantissaBits ||| mantissa
    some (.prim (.f64 ⟨bits⟩))
  else if tag = tagObject then
    let addr := this &&& ~~~mask 64 width
    if addr = Known.uninit then none
    else if addr = Known.nil then some (.prim .nil)
    else if addr = Known.false then some (.prim (.bool false))
    else if addr = Known.true then some (.prim (.bool true))
    else if addr = Known.posInf then some (.prim (.f64 ⟨0x7ff0000000000000⟩))
    else if addr = Known.negInf then some (.prim (.f64 ⟨0xfff0000000000000⟩))
    else if addr = Known.nan then some (.prim (.f64 F64.nan))
    else some (.object this)
  else none

def fromI64 (value : BitVec 64) : Option Packed :=
  if imin.sle value ∧ value.sle imax then some (value <<< width ||| tagI64) else none

def fromF64 (value : F64) : Option Packed :=
  let bits := value.bits
  let exponent := (bits >>> mantissaBits) &&& mask 64 exponentBits
  let mantissa := bits &&& mask 64 mantissaBits
  let sign := (bits >>> (mantissaBits + exponentBits)) &&& 1
  if exponent = exponentInfNan then
    if mantissa = 0 then
      if sign ≠ 0 then some Known.negInf else some Known.posInf
    else some Known.nan
  else if exponent = 0 ∨ immExponentMin ≤ exponent ∧ exponent ≤ immExponentMax then
    let imm := sign <<< (mantissaBits + immExponentBits) ||| expEncode exponent <<< mantissaBits |||
      mantissa
    some (imm <<< width ||| tagF64)
  else none

def fromObject (o : ObjectPtr) : Packed := o.addr

end Packed

/-- A value: packed, or in a box of its own. -/
inductive Stored where
  | packed (word : Packed)
  | int (value : Integer)
  | f64 (value : F64)

/-- `Value::from_int`. -/
def Stored.fromInt (value : Integer) : Stored :=
  match (Signed.checked 64 value.toInt).bind Packed.fromI64 with
  | some word => .packed word
  | none => .int value

/-- `Value::from_f64`. -/
def Stored.fromF64 (value : F64) : Stored :=
  match Packed.fromF64 value with
  | some word => .packed word
  | none => .f64 value

namespace Packed

/-! ### Exponents come back -/

section Exponents

variable {e : BitVec 64}

/-- The encoded exponent, as a number. -/
theorem expEncode_toNat (h0 : e.toNat ≠ 0) (he : e.toNat < 2048) :
    (expEncode e).toNat = if e.toNat < 1024 then (2 ^ 64 + e.toNat - 1024) % 2 ^ 9
      else (e.toNat - 1023) % 2 ^ 9 := by
  have hne : e ≠ 0 := fun h => h0 (by rw [h]; rfl)
  have hsub : (e - exponentBias).toNat = (2 ^ 64 - 1023 + e.toNat) % 2 ^ 64 := BitVec.toNat_sub _ _
  have hint : (e - exponentBias).toInt = e.toNat - 1023 := by
    rw [BitVec.toInt_eq_toNat_cond, hsub]
    split_ifs <;> omega
  have hone : (1 : BitVec 64).toInt = 1 := by decide
  rw [expEncode, if_neg hne]
  dsimp only
  rw [toNat_and_mask _ (by decide), BitVec.slt_eq_decide, hint, hone]
  simp only [decide_eq_true_eq]
  by_cases hlow : e.toNat < 1024
  · have hsub' : (e - exponentBias - 1).toNat = (2 ^ 64 - 1 + (e - exponentBias).toNat) % 2 ^ 64 :=
      BitVec.toNat_sub _ _
    rw [if_pos hlow, if_pos (by omega), hsub', hsub, immExponentBits, exponentBits, width]
    omega
  · rw [if_neg hlow, if_neg (by omega), hsub, immExponentBits, exponentBits, width]
    omega

/-- The decoded exponent, as a number. -/
theorem expDecode_toNat (h0 : e.toNat ≠ 0) (he : e.toNat < 512) :
    (expDecode e).toNat = if e.toNat < 256 then e.toNat + 1023 else e.toNat + 512 := by
  have hne : e ≠ 0 := fun h => h0 (by rw [h]; rfl)
  have hbit : e &&& 1#64 <<< (immExponentBits - 1) ≠ 0 ↔ ¬ e.toNat < 256 := by
    have hand : (e &&& 1#64 <<< (immExponentBits - 1)).toNat =
        (e.toNat.testBit 8).toNat * 2 ^ 8 := by
      rw [BitVec.toNat_and, ← Nat.and_two_pow]
      rfl
    have hdiv := Nat.testBit_eq_decide_div_mod_eq (x := e.toNat) (i := 8)
    rw [ne_eq, ← BitVec.toNat_inj, hand, hdiv]
    by_cases h : e.toNat < 256
    · have hdigit : e.toNat / 2 ^ 8 % 2 = 0 := by omega
      simp only [h, hdigit, zero_ne_one, decide_false, Bool.toNat_false, zero_mul, not_true]
      decide
    · have hdigit : e.toNat / 2 ^ 8 % 2 = 1 := by omega
      simp only [h, hdigit, decide_true, Bool.toNat_true, not_false_eq_true, iff_true]
      decide
  have hext : (e ||| ~~~mask 64 immExponentBits).toNat = 2 ^ 64 - 512 + e.toNat := by
    have hmask : ~~~mask 64 immExponentBits = mask 64 55 <<< 9 := by decide
    have hones : (mask 64 55).toNat = 2 ^ 55 - 1 := by decide
    rw [BitVec.or_comm, hmask, toNat_shiftLeft_or_of_lt (by norm_num) (by omega) (by omega), hones]
    omega
  have hzero : (0 : BitVec 64).toInt = 0 := by decide
  rw [expDecode, if_neg hne]
  dsimp only
  by_cases hlow : e.toNat < 256
  · have hint : e.toInt = e.toNat := by
      rw [BitVec.toInt_eq_toNat_cond, if_pos (by omega)]
    have hadd : (e + exponentBias).toNat = (e.toNat + 1023) % 2 ^ 64 := BitVec.toNat_add _ _
    rw [if_neg (fun h => hbit.mp h hlow), BitVec.slt_eq_decide, hint, hzero,
      if_neg (by simp), hadd, if_pos hlow]
    omega
  · have hint : (e ||| ~~~mask 64 immExponentBits).toInt < 0 := by
      rw [BitVec.toInt_eq_toNat_cond, hext]
      split_ifs <;> omega
    have hadd : ((e ||| ~~~mask 64 immExponentBits) + 1 + exponentBias).toNat =
        ((2 ^ 64 - 512 + e.toNat + 1) % 2 ^ 64 + 1023) % 2 ^ 64 := by
      rw [BitVec.toNat_add, BitVec.toNat_add, hext]
      rfl
    rw [if_pos (hbit.mpr hlow), BitVec.slt_eq_decide, hzero, if_pos (by simpa using hint), hadd,
      if_neg hlow]
    omega

/-- The exponents that have a code: zero, and those of the window. -/
def Coded (e : BitVec 64) : Prop :=
  e = 0 ∨ immExponentMin ≤ e ∧ e ≤ immExponentMax

theorem coded_iff : Coded e ↔ e.toNat = 0 ∨ 768 ≤ e.toNat ∧ e.toNat ≤ 1278 := by
  have hmin : immExponentMin.toNat = 768 := by decide
  have hmax : immExponentMax.toNat = 1278 := by decide
  rw [Coded, BitVec.le_def, BitVec.le_def, hmin, hmax, ← BitVec.toNat_inj]
  rfl

theorem expEncode_lt (h : Coded e) : (expEncode e).toNat < 2 ^ 9 := by
  rw [coded_iff] at h
  by_cases h0 : e.toNat = 0
  · have he : e = 0 := BitVec.eq_of_toNat_eq h0
    rw [he]
    decide
  · rw [expEncode_toNat h0 (by omega)]
    split_ifs <;> exact Nat.mod_lt _ (by norm_num)

/-- A coded exponent comes back. -/
theorem expDecode_expEncode (h : Coded e) : expDecode (expEncode e) = e := by
  have hlt := expEncode_lt h
  rw [coded_iff] at h
  by_cases h0 : e.toNat = 0
  · have he : e = 0 := BitVec.eq_of_toNat_eq h0
    rw [he]
    rfl
  · have henc := expEncode_toNat h0 (by omega)
    have hne : (expEncode e).toNat ≠ 0 := by
      rw [henc]
      split_ifs <;> omega
    apply BitVec.eq_of_toNat_eq
    rw [expDecode_toNat hne (by omega), henc]
    split_ifs <;> omega

end Exponents

/-! ### Values come back -/

section Decode

variable {w : Packed}

theorem tag_toNat (w : Packed) : (w &&& mask 64 width).toNat = w.toNat % 4 :=
  toNat_and_mask w (by decide)

theorem tag_eq_iff {tag : BitVec 64} : w &&& mask 64 width = tag ↔ w.toNat % 4 = tag.toNat := by
  rw [← tag_toNat, BitVec.toNat_inj]

theorem decode_int (h : w.toNat % 4 = 1) :
    decode w = some (.prim (.int ((w.sshiftRight width).signExtend 128))) := by
  rw [decode, if_pos (tag_eq_iff.mpr h)]

/-- An object's address is above the constants. -/
theorem decode_object (h : w.toNat % 4 = 0) (habove : 4096 ≤ w.toNat) :
    decode w = some (.object w) := by
  have haddr : w &&& ~~~mask 64 width = w := by
    have hmask : ~~~mask 64 width = mask 64 62 <<< 2 := by decide
    have hself : w = (w >>> 2) <<< 2 := by
      apply BitVec.eq_of_toNat_eq
      rw [BitVec.toNat_shiftLeft, toNat_ushiftRight_div, Nat.shiftLeft_eq]
      omega
    rw [hmask]
    nth_rewrite 1 [hself]
    rw [← BitVec.shiftLeft_and_distrib]
    have hfield : (w >>> 2) &&& mask 64 62 = w >>> 2 := by
      apply BitVec.eq_of_toNat_eq
      rw [toNat_and_mask _ (by norm_num), toNat_ushiftRight_div]
      omega
    rw [hfield, ← hself]
  have hne : ∀ c : BitVec 64, c.toNat < 4096 → w ≠ c := by
    rintro c hc rfl
    omega
  have htag : w &&& mask 64 width = tagObject := tag_eq_iff.mpr h
  unfold decode
  dsimp only
  rw [htag, if_neg (by decide), if_neg (by decide), if_pos rfl, haddr, if_neg (hne _ (by decide)),
    if_neg (hne _ (by decide)), if_neg (hne _ (by decide)), if_neg (hne _ (by decide)),
    if_neg (hne _ (by decide)), if_neg (hne _ (by decide)), if_neg (hne _ (by decide))]

/-- The range of packed integers. -/
theorem fromI64_range {v : BitVec 64} :
    imin.sle v ∧ v.sle imax ↔ -2 ^ 61 ≤ v.toInt ∧ v.toInt < 2 ^ 61 := by
  have hmin : imin.toInt = -2 ^ 61 := by decide
  have hmax : imax.toInt = 2 ^ 61 - 1 := by decide
  rw [BitVec.sle_iff_toInt_le, BitVec.sle_iff_toInt_le, hmin, hmax]
  omega

theorem fromI64_toNat (v : BitVec 64) :
    (v <<< width ||| tagI64).toNat = v.toNat * 4 % 2 ^ 64 + 1 :=
  toNat_shiftLeft_or (by decide) (by decide)

/-- A packed integer comes back. -/
theorem decode_fromI64 {v : BitVec 64} (h : fromI64 v = some w) :
    w.toNat % 4 = 1 ∧ decode w = some (.prim (.int (v.signExtend 128))) := by
  rw [fromI64, Option.ite_none_right_eq_some, fromI64_range] at h
  obtain ⟨⟨hl, hr⟩, h⟩ := h
  obtain rfl := Option.some.inj h
  have hword := fromI64_toNat v
  have hmod : (v <<< width ||| tagI64).toNat % 4 = 1 := by omega
  have hshift : (v <<< width ||| tagI64).sshiftRight width = v := by
    apply BitVec.eq_of_toInt_eq
    rw [BitVec.toInt_sshiftRight, Int.shiftRight_eq_div_pow, BitVec.toInt_eq_toNat_cond, hword,
      BitVec.toInt_eq_toNat_cond, width]
    rw [BitVec.toInt_eq_toNat_cond] at hl hr
    split_ifs at hl hr ⊢ <;> omega
  exact ⟨hmod, by rw [decode_int hmod, hshift]⟩

/-- The exponent of a float, as it is taken out of its bits. -/
theorem exponent_toNat (f : F64) :
    ((f.bits >>> mantissaBits) &&& mask 64 exponentBits).toNat = f.bits.toNat / 2 ^ 52 % 2 ^ 11 :=
  toNat_field _ _ (by decide)

theorem mantissa_toNat (f : F64) :
    (f.bits &&& mask 64 mantissaBits).toNat = f.bits.toNat % 2 ^ 52 :=
  toNat_and_mask _ (by decide)

theorem sign_toNat (f : F64) :
    ((f.bits >>> (mantissaBits + exponentBits)) &&& 1).toNat = f.bits.toNat / 2 ^ 63 % 2 :=
  toNat_field (n := 1) _ _ (by decide)

/-- The fields of a packed float, one behind the other and with its tag. -/
theorem packed_toNat {sign exponent mantissa : BitVec 64} (hs : sign.toNat < 2)
    (he : exponent.toNat < 2 ^ 9) (hm : mantissa.toNat < 2 ^ 52) :
    ((sign <<< (mantissaBits + immExponentBits) ||| exponent <<< mantissaBits ||| mantissa) <<< width |||
      tagF64).toNat =
      (sign.toNat * 2 ^ 61 + exponent.toNat * 2 ^ 52 + mantissa.toNat) * 4 + 2 := by
  have hfields := toNat_fields (w := 64) (a := sign) he hm (by norm_num) (by omega)
  have htwo : tagF64.toNat = 2 := by decide
  have hlt := toNat_shiftLeft_or_of_lt (k := 2) (b := tagF64) (w := 64)
    (a := sign <<< (52 + 9) ||| exponent <<< 52 ||| mantissa) (by norm_num) (by decide)
    (by rw [hfields]; omega)
  rw [hfields, htwo] at hlt
  exact hlt

/-- A float in the window comes back from its fields. -/
theorem decode_window {f : F64}
    (h : Coded ((f.bits >>> mantissaBits) &&& mask 64 exponentBits))
    (hw : w = ((((f.bits >>> (mantissaBits + exponentBits)) &&& 1) <<<
      (mantissaBits + immExponentBits) |||
      expEncode ((f.bits >>> mantissaBits) &&& mask 64 exponentBits) <<< mantissaBits |||
      (f.bits &&& mask 64 mantissaBits)) <<< width ||| tagF64)) :
    w.toNat % 4 = 2 ∧ decode w = some (.prim (.f64 f)) := by
  have hs := sign_toNat f
  have he := exponent_toNat f
  have hm := mantissa_toNat f
  have hback := expDecode_expEncode h
  have henc := expEncode_lt h
  generalize (f.bits >>> (mantissaBits + exponentBits)) &&& 1 = sign at *
  generalize (f.bits >>> mantissaBits) &&& mask 64 exponentBits = exponent at *
  generalize f.bits &&& mask 64 mantissaBits = mantissa at *
  have hbits := f.bits.isLt
  have hword : w.toNat =
      (sign.toNat * 2 ^ 61 + (expEncode exponent).toNat * 2 ^ 52 + mantissa.toNat) * 4 + 2 := by
    rw [hw, packed_toNat (by omega) henc (by omega)]
  have hmod : w.toNat % 4 = 2 := by omega
  refine ⟨hmod, ?_⟩
  have htag : w &&& mask 64 width = tagF64 := tag_eq_iff.mpr hmod
  have himm : (w >>> width).toNat = w.toNat / 4 := toNat_ushiftRight_div w 2
  have hm' : (w >>> width) &&& mask 64 mantissaBits = mantissa := by
    apply BitVec.eq_of_toNat_eq
    rw [toNat_and_mask _ (by decide), himm, hword, mantissaBits]
    omega
  have he' : ((w >>> width) >>> mantissaBits) &&& mask 64 immExponentBits = expEncode exponent := by
    apply BitVec.eq_of_toNat_eq
    rw [toNat_field _ _ (by decide), himm, hword, mantissaBits, immExponentBits, exponentBits, width]
    omega
  have hs' : ((w >>> width) >>> (mantissaBits + immExponentBits)) &&& 1 = sign := by
    apply BitVec.eq_of_toNat_eq
    have hfield := toNat_field (w >>> width) (mantissaBits + immExponentBits) (n := 1) (by decide)
    rw [himm, hword, mantissaBits, immExponentBits, exponentBits, width] at hfield
    refine hfield.trans ?_
    omega
  have hf : sign <<< (mantissaBits + exponentBits) ||| exponent <<< mantissaBits ||| mantissa =
      f.bits := by
    apply BitVec.eq_of_toNat_eq
    have hfields := toNat_fields (w := 64) (a := sign) (b := exponent) (c := mantissa) (k := 52)
      (n := 11) (by omega) (by omega) (by norm_num) (by omega)
    refine hfields.trans ?_
    omega
  unfold decode
  dsimp only
  rw [htag, if_neg (by decide), if_pos rfl, hm', he', hs', hback, hf]

/-- A float, or the canonical NaN. -/
def canonical (f : F64) : F64 :=
  if f.isNan then F64.nan else f

/-- A packed float comes back. -/
theorem decode_fromF64 {f : F64} (h : fromF64 f = some w) :
    w ≠ 0 ∧ decode w = some (.prim (.f64 (canonical f))) := by
  have hs := sign_toNat f
  have he := exponent_toNat f
  have hm := mantissa_toNat f
  have hnan : f.isNan = true ↔ f.bits.toNat / 2 ^ 52 % 2 ^ 11 = 2047 ∧ f.bits.toNat % 2 ^ 52 ≠ 0 := by
    unfold F64.isNan
    rw [decide_eq_true_iff, F64.exponent_eq, F64.mantissa_eq]
  have hbits := f.bits.isLt
  have htop : exponentInfNan.toNat = 2047 := by decide
  have hz : (0 : BitVec 64).toNat = 0 := rfl
  unfold fromF64 at h
  dsimp only at h
  by_cases hspecial : (f.bits >>> mantissaBits) &&& mask 64 exponentBits = exponentInfNan
  · rw [if_pos hspecial] at h
    rw [← BitVec.toNat_inj, he, htop] at hspecial
    by_cases hzero : f.bits &&& mask 64 mantissaBits = 0
    · rw [if_pos hzero] at h
      rw [← BitVec.toNat_inj, hm, hz] at hzero
      have hf : canonical f = f := if_neg (by rw [hnan]; omega)
      rw [hf]
      by_cases hsign : (f.bits >>> (mantissaBits + exponentBits)) &&& 1 ≠ 0
      · rw [if_pos hsign] at h
        rw [ne_eq, ← BitVec.toNat_inj, hs, hz] at hsign
        obtain rfl := Option.some.inj h
        have hinf : f = ⟨0xfff0000000000000⟩ := by
          obtain ⟨bits⟩ := f
          congr 1
          apply BitVec.eq_of_toNat_eq
          have hlit : (0xfff0000000000000 : BitVec 64).toNat = 0xfff0000000000000 := by decide
          rw [hlit]
          dsimp only at hspecial hzero hsign hbits
          omega
        rw [hinf]
        decide
      · rw [if_neg hsign] at h
        rw [ne_eq, ← BitVec.toNat_inj, hs, hz] at hsign
        obtain rfl := Option.some.inj h
        have hinf : f = ⟨0x7ff0000000000000⟩ := by
          obtain ⟨bits⟩ := f
          congr 1
          apply BitVec.eq_of_toNat_eq
          have hlit : (0x7ff0000000000000 : BitVec 64).toNat = 0x7ff0000000000000 := by decide
          rw [hlit]
          dsimp only at hspecial hzero hsign hbits
          omega
        rw [hinf]
        decide
    · rw [if_neg hzero] at h
      rw [← BitVec.toNat_inj, hm, hz] at hzero
      have hf : canonical f = F64.nan := if_pos (hnan.mpr ⟨hspecial, by omega⟩)
      obtain rfl := Option.some.inj h
      rw [hf]
      decide
  · rw [if_neg hspecial] at h
    rw [← BitVec.toNat_inj, he, htop] at hspecial
    have hf : canonical f = f := if_neg (by rw [hnan]; omega)
    obtain ⟨hcoded, h⟩ := Option.ite_none_right_eq_some.mp h
    obtain ⟨hmod, hdecode⟩ := decode_window hcoded (Option.some.inj h).symm
    refine ⟨?_, by rw [hf, hdecode]⟩
    rintro rfl
    exact absurd hmod (by decide)

end Decode

/-! ### Kinds of values -/

inductive Kind where
  | int
  | f64
  | nil
  | bool
  | object
  deriving DecidableEq

/-- A word that packs a value of a kind. -/
inductive OfKind : Packed → Kind → Prop
  | int {v w} : fromI64 v = some w → OfKind w .int
  | f64 {f w} : fromF64 f = some w → OfKind w .f64
  | nil : OfKind Known.nil .nil
  | false : OfKind Known.false .bool
  | true : OfKind Known.true .bool
  | object (o : ObjectPtr) : OfKind (fromObject o) .object

/-- The kind of what a word stands for. -/
def Kind.of : Decode → Kind
  | .prim .nil => .nil
  | .prim (.int _) => .int
  | .prim (.f64 _) => .f64
  | .prim (.bool _) => .bool
  | .object _ => .object

theorem OfKind.decode {w : Packed} {kind : Kind} (h : OfKind w kind) :
    w ≠ 0 ∧ ∃ d, decode w = some d ∧ Kind.of d = kind := by
  cases h with
  | int h =>
    obtain ⟨hmod, hdecode⟩ := decode_fromI64 h
    refine ⟨?_, _, hdecode, rfl⟩
    rintro rfl
    exact absurd hmod (by decide)
  | f64 h =>
    obtain ⟨hne, hdecode⟩ := decode_fromF64 h
    exact ⟨hne, _, hdecode, rfl⟩
  | nil => exact ⟨by decide, _, rfl, rfl⟩
  | false => exact ⟨by decide, _, rfl, rfl⟩
  | true => exact ⟨by decide, _, rfl, rfl⟩
  | object o =>
    refine ⟨?_, _, decode_object o.aligned o.above, rfl⟩
    intro h
    have habove := o.above
    rw [fromObject] at h
    rw [h] at habove
    exact absurd habove (by decide)

end Packed

/-- The number of a stored value. -/
def Stored.number : Stored → Option Prim
  | .packed word =>
    match Packed.decode word with
    | some (.prim p) => some p
    | _ => none
  | .int value => some (.int value)
  | .f64 value => some (.f64 value)

theorem toInt_signExtend_checked {v : Integer} {i : BitVec 64}
    (h : Signed.checked 64 v.toInt = some i) : i.signExtend 128 = v := by
  apply BitVec.eq_of_toInt_eq
  rw [BitVec.toInt_signExtend_of_le (by norm_num), Signed.checked_eq_some.mp h]

theorem Stored.fromInt_number (v : Integer) : (Stored.fromInt v).number = some (.int v) := by
  unfold Stored.fromInt
  cases h : (Signed.checked 64 v.toInt).bind Packed.fromI64 with
  | none => rfl
  | some w =>
    obtain ⟨i, hi, hw⟩ := Option.bind_eq_some_iff.mp h
    dsimp only
    rw [Stored.number, (Packed.decode_fromI64 hw).2]
    dsimp only
    rw [toInt_signExtend_checked hi]

theorem Stored.fromF64_number (f : F64) :
    (Stored.fromF64 f).number = some (.f64 f) ∨
      (Stored.fromF64 f).number = some (.f64 (Packed.canonical f)) := by
  unfold Stored.fromF64
  cases h : Packed.fromF64 f with
  | none => exact .inl rfl
  | some w =>
    refine .inr ?_
    dsimp only
    rw [Stored.number, (Packed.decode_fromF64 h).2]

/-- Packed values come back and are told apart, and what is not packed is kept whole. -/
theorem packed_representation :
    (∀ v : BitVec 64, -2 ^ 61 ≤ v.toInt → v.toInt < 2 ^ 61 →
      ∃ w, Packed.fromI64 v = some w ∧ Packed.decode w = some (.prim (.int (v.signExtend 128)))) ∧
    (∀ f w, Packed.fromF64 f = some w → Packed.decode w = some (.prim (.f64 (Packed.canonical f)))) ∧
    (∀ w k k', Packed.OfKind w k → Packed.OfKind w k' → k = k') ∧
    (∀ w k, Packed.OfKind w k → w ≠ 0 ∧ w ≠ Packed.Known.uninit) ∧
    (∀ v : Integer, (Stored.fromInt v).number = some (.int v)) ∧
    (∀ f, (Stored.fromF64 f).number = some (.f64 f) ∨
      (Stored.fromF64 f).number = some (.f64 (Packed.canonical f))) := by
  refine ⟨?_, fun f w h => (Packed.decode_fromF64 h).2, ?_, ?_, Stored.fromInt_number,
    Stored.fromF64_number⟩
  · intro v hl hr
    have h : Packed.fromI64 v = some (v <<< Packed.width ||| Packed.tagI64) := by
      rw [Packed.fromI64, if_pos (Packed.fromI64_range.mpr ⟨hl, hr⟩)]
    exact ⟨_, h, (Packed.decode_fromI64 h).2⟩
  · intro w k k' h h'
    obtain ⟨-, d, hd, rfl⟩ := h.decode
    obtain ⟨-, d', hd', rfl⟩ := h'.decode
    rw [hd] at hd'
    rw [Option.some.inj hd']
  · intro w k h
    obtain ⟨hne, d, hd, -⟩ := h.decode
    refine ⟨hne, ?_⟩
    rintro rfl
    have hnone : Packed.decode Packed.Known.uninit = none := by decide
    rw [hnone] at hd
    cases hd

end Dolang.Runtime
