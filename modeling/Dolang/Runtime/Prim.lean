import Dolang.Lib.Binary64
import Mathlib.Order.Compare

/-!
# Primitive values

The equality and the hash of primitive values of `value/prim.rs`. An integer and a float are equal
when they denote the same number, which `compare_int_f64` decides exactly (`compareIntF64_eq`), while
the hash starts from the representation. What the hasher is fed is the list of its writes.
-/

namespace Dolang.Runtime

abbrev Integer := BitVec 128

inductive Prim where
  | nil
  | int (i : Integer)
  | f64 (f : F64)
  | bool (b : Bool)
  deriving DecidableEq, Repr

namespace Prim

/-- `Integer::MIN as f64`. -/
def integerMin : F64 := ⟨0xc7e0000000000000⟩

/-- Compares an integer with a float, without rounding either. -/
def compareIntF64 (i : Integer) (f : F64) : Option Ordering :=
  if f.isNan then none
  else if f.isInfinite then some (if f.isSignPositive then .lt else .gt)
  else if f.exponent = 0 then
    if f.mantissa = 0 then some (compare i.toInt 0)
    else some (match compare i.toInt 0 with
      | .eq => if f.isSignPositive then .lt else .gt
      | other => other)
  else
    let exponent : ℤ := f.exponent - 1023
    if exponent > 127 then some (if f.isSignPositive then .lt else .gt)
    else if exponent = 127 then
      some (if f.eq integerMin ∧ i = BitVec.intMin 128 then .eq
        else if f.isSignPositive then .lt else .gt)
    else if f.trunc * F64.scale = f.numer then some (compare i.toInt (F64.toI128 f.trunc))
    else some (if i.toInt ≤ F64.toI128 f.floor then .lt else .gt)

def opEq (l r : Prim) : Bool :=
  match l, r with
  | .nil, .nil => true
  | .bool l, .bool r => l == r
  | .int l, .int r => l == r
  | .f64 l, .f64 r => l.eq r
  | .int l, .f64 r => compareIntF64 l r == some .eq
  | .f64 l, .int r => compareIntF64 r l == some .eq
  | _, _ => false

/-- What the hasher is fed by one write. -/
inductive Write where
  | isize (n : ℕ)
  | u8 (n : ℕ)
  | u64 (n : BitVec 64)
  | i128 (n : Integer)
  deriving DecidableEq, Repr

/-- The discriminant of a variant, `mem::discriminant`. -/
def discriminant : Prim → ℕ
  | .nil => 0
  | .int _ => 1
  | .f64 _ => 2
  | .bool _ => 3

def opHash (v : Prim) : List Write :=
  .isize v.discriminant :: match v with
    | .nil => [.u8 0]
    | .int i => [.i128 i]
    | .f64 f => [.u64 (if f.isNan then F64.nan.bits else f.bits)]
    | .bool b => [.u8 b.toNat]

/-- Not a NaN. -/
def Proper : Prim → Prop
  | .f64 f => f.isNan = false
  | _ => True

/-! ### The comparison is exact -/

theorem toInt_bounds (i : Integer) : -2 ^ 127 ≤ i.toInt ∧ i.toInt < 2 ^ 127 :=
  ⟨i.le_toInt, i.toInt_lt⟩

theorem numer_of_positive {f : F64} (h : f.isSignPositive = true) : f.numer = f.magnitude := by
  simp [F64.numer, h]

theorem numer_of_negative {f : F64} (h : f.isSignPositive = false) : f.numer = -f.magnitude := by
  simp [F64.numer, h]

theorem compare_scale (a b : ℤ) : compare (a * F64.scale) (b * F64.scale) = compare a b := by
  have hpos := F64.scale_pos
  rcases lt_trichotomy a b with hlt | rfl | hgt
  · rw [compare_lt_iff_lt.mpr hlt, compare_lt_iff_lt.mpr (Int.mul_lt_mul_of_pos_right hlt hpos)]
  · rw [compare_eq_iff_eq.mpr rfl, compare_eq_iff_eq.mpr rfl]
  · rw [compare_gt_iff_gt.mpr hgt, compare_gt_iff_gt.mpr (Int.mul_lt_mul_of_pos_right hgt hpos)]

/-- A number that the float exceeds in magnitude is on the other side of its sign. -/
theorem sign_compare {f : F64} {a : ℤ} (h : |a| < f.magnitude) :
    (if f.isSignPositive then Ordering.lt else .gt) = compare a f.numer := by
  obtain ⟨hl, hr⟩ := abs_lt.mp h
  cases hs : f.isSignPositive with
  | true =>
    rw [numer_of_positive hs]
    exact (compare_lt_iff_lt.mpr hr).symm
  | false =>
    rw [numer_of_negative hs]
    exact (compare_gt_iff_gt.mpr hl).symm

/-- The powers of two that the exponent is compared with. -/
theorem pow_le_magnitude {f : F64} {k : ℕ} (h : f.exponent ≠ 0) (hk : k + 1023 ≤ f.exponent) :
    (2 ^ k * F64.scale : ℤ) ≤ f.magnitude := by
  have hle : 2 ^ k * F64.scale ≤ f.magnitude :=
    calc 2 ^ k * F64.scale = 2 ^ (k + 1074) := F64.pow_eq_mul_scale.symm
      _ ≤ 2 ^ (f.exponent + 51) := Nat.pow_le_pow_right (by norm_num) (by omega)
      _ ≤ f.magnitude := (F64.magnitude_bounds h).1
  exact_mod_cast hle

theorem magnitude_lt_pow {f : F64} {k : ℕ} (hk : f.exponent < k + 1023) :
    (f.magnitude : ℤ) < 2 ^ k * F64.scale := by
  have hlt : f.magnitude < 2 ^ k * F64.scale :=
    calc f.magnitude < 2 ^ (f.exponent + 52) := f.magnitude_lt
      _ ≤ 2 ^ (k + 1074) := Nat.pow_le_pow_right (by norm_num) (by omega)
      _ = 2 ^ k * F64.scale := F64.pow_eq_mul_scale
  exact_mod_cast hlt

theorem magnitude_integerMin : (integerMin.magnitude : ℤ) = 2 ^ 127 * F64.scale := by
  have he : integerMin.exponent = 75 + 1074 + 1 := rfl
  have hm : integerMin.mantissa = 0 := rfl
  have h : integerMin.magnitude = 2 ^ 127 * F64.scale := by
    have hpow : (2 ^ 52 + 0) * 2 ^ (75 + 1074) = 2 ^ 127 * F64.scale := by
      rw [Nat.add_zero, F64.pow_eq_mul_scale, ← Nat.mul_assoc, ← Nat.pow_add]
    unfold F64.magnitude
    rw [he, hm, if_neg (Nat.succ_ne_zero _), Nat.add_sub_cancel]
    exact hpow
  exact_mod_cast h

theorem numer_integerMin : integerMin.numer = -2 ^ 127 * F64.scale := by
  rw [numer_of_negative rfl, magnitude_integerMin, neg_mul]

theorem eq_integerMin {f : F64} (hnan : f.isNan = false) (hinf : f.isInfinite = false) :
    f.eq integerMin = true ↔ f.numer = -2 ^ 127 * F64.scale := by
  have hn : integerMin.isNan = false := rfl
  have hi : integerMin.isInfinite = false := rfl
  simp only [F64.eq, hnan, hinf, hn, hi, numer_integerMin, Bool.false_eq_true, or_self, if_false,
    decide_eq_true_eq]

/-- Saturation does nothing to a number of 128 bits. -/
theorem toI128_eq {a : ℤ} (h : -2 ^ 127 ≤ a) (h' : a < 2 ^ 127) : F64.toI128 a = a := by
  unfold F64.toI128
  omega

/-- Below an exponent of 127, a float is within the integers. -/
theorem numer_bounds {f : F64} (h : f.exponent < 127 + 1023) :
    -2 ^ 127 * F64.scale < f.numer ∧ f.numer < 2 ^ 127 * F64.scale := by
  have hlt := magnitude_lt_pow h
  cases hs : f.isSignPositive with
  | true =>
    rw [numer_of_positive hs]
    omega
  | false =>
    rw [numer_of_negative hs]
    omega

theorem magnitude_of_subnormal {f : F64} (h : f.exponent = 0) : f.magnitude = f.mantissa := by
  simp [F64.magnitude, h]

/-- What is left of an integer when it is compared with a number that is less than one. -/
theorem subnormal_compare {f : F64} (h : f.exponent = 0) (hm : f.mantissa ≠ 0) (i : ℤ) :
    (match compare i 0 with
      | .eq => if f.isSignPositive then Ordering.lt else .gt
      | other => other) = compare (i * F64.scale) f.numer := by
  have hpos := F64.scale_pos
  have hmag : (f.magnitude : ℤ) < F64.scale := by
    have hlt := magnitude_lt_pow (f := f) (k := 0) (by omega)
    rwa [pow_zero, one_mul] at hlt
  have hnumer : -(F64.scale : ℤ) < f.numer ∧ f.numer < F64.scale := by
    cases hs : f.isSignPositive with
    | true =>
      rw [numer_of_positive hs]
      omega
    | false =>
      rw [numer_of_negative hs]
      omega
  rcases lt_trichotomy i 0 with hlt | rfl | hgt
  · rw [compare_lt_iff_lt.mpr hlt]
    have hle : i * F64.scale ≤ -1 * F64.scale := Int.mul_le_mul_of_nonneg_right (by omega) hpos.le
    exact (compare_lt_iff_lt.mpr (by omega)).symm
  · rw [compare_eq_iff_eq.mpr rfl, zero_mul]
    apply sign_compare
    rw [abs_zero, magnitude_of_subnormal h]
    omega
  · rw [compare_gt_iff_gt.mpr hgt]
    have hle : 1 * F64.scale ≤ i * F64.scale := Int.mul_le_mul_of_nonneg_right (by omega) hpos.le
    exact (compare_gt_iff_gt.mpr (by omega)).symm

/-- An integral float below the bound is compared by its truncation. -/
theorem integral_compare {f : F64} (hf : f.exponent < 127 + 1023)
    (h : f.trunc * F64.scale = f.numer) (i : ℤ) :
    compare i (F64.toI128 f.trunc) = compare (i * F64.scale) f.numer := by
  obtain ⟨hl, hr⟩ := numer_bounds hf
  rw [← h] at hl hr
  have hl := lt_of_mul_lt_mul_right hl F64.scale_pos.le
  have hr := lt_of_mul_lt_mul_right hr F64.scale_pos.le
  rw [toI128_eq hl.le hr, ← h, compare_scale]

/-- A float that is not integral is compared by its floor. -/
theorem fractional_compare {f : F64} (hf : f.exponent < 127 + 1023)
    (h : f.trunc * F64.scale ≠ f.numer) (i : ℤ) :
    (if i ≤ F64.toI128 f.floor then Ordering.lt else .gt) = compare (i * F64.scale) f.numer := by
  have hpos := F64.scale_pos
  obtain ⟨hl, hr⟩ := numer_bounds hf
  have hlow : f.floor * F64.scale ≤ f.numer := Int.ediv_mul_le _ hpos.ne'
  have hhigh : f.numer < (f.floor + 1) * F64.scale := Int.lt_ediv_add_one_mul_self _ hpos
  have hne : f.floor * F64.scale ≠ f.numer := by
    intro heq
    apply h
    have htrunc : f.trunc = f.floor := by
      unfold F64.trunc
      rw [← heq, Int.mul_tdiv_cancel _ hpos.ne']
    rw [htrunc, heq]
  have hfl : -2 ^ 127 ≤ f.floor := by
    have := lt_of_mul_lt_mul_right (hl.trans hhigh) hpos.le
    omega
  have hfr : f.floor < 2 ^ 127 := lt_of_mul_lt_mul_right (hlow.trans_lt hr) hpos.le
  rw [toI128_eq hfl hfr]
  split_ifs with hi
  · have hle := Int.mul_le_mul_of_nonneg_right hi hpos.le
    exact (compare_lt_iff_lt.mpr (by omega)).symm
  · have hle : (f.floor + 1) * F64.scale ≤ i * F64.scale :=
      Int.mul_le_mul_of_nonneg_right (by omega) hpos.le
    exact (compare_gt_iff_gt.mpr (by omega)).symm

/-- An integer is less than a float of a greater magnitude in absolute value. -/
theorem abs_lt_magnitude {f : F64} (i : Integer) (h : 128 + 1023 ≤ f.exponent) :
    |i.toInt * F64.scale| < f.magnitude := by
  have hpos := F64.scale_pos
  obtain ⟨hl, hr⟩ := toInt_bounds i
  have hmag := pow_le_magnitude (f := f) (k := 128) (by omega) h
  have hl' := Int.mul_le_mul_of_nonneg_right hl hpos.le
  have hr' := Int.mul_lt_mul_of_pos_right hr hpos
  rw [abs_lt]
  constructor <;> omega

/-- At an exponent of 127, the least integer is the only one that a float can denote. -/
theorem boundary_compare {f : F64} (i : Integer) (hf : f.exponent = 127 + 1023) :
    (if f.numer = -2 ^ 127 * F64.scale ∧ i = BitVec.intMin 128 then Ordering.eq
      else if f.isSignPositive then .lt else .gt) = compare (i.toInt * F64.scale) f.numer := by
  have hpos := F64.scale_pos
  obtain ⟨hl, hr⟩ := toInt_bounds i
  have hmag := pow_le_magnitude (f := f) (k := 127) (by omega) hf.ge
  have hl' := Int.mul_le_mul_of_nonneg_right hl hpos.le
  have hr' := Int.mul_lt_mul_of_pos_right hr hpos
  have hmin : (BitVec.intMin 128).toInt = -2 ^ 127 := by decide
  split_ifs with hmineq hs
  · obtain ⟨hn, rfl⟩ := hmineq
    rw [hn, hmin]
    exact (compare_eq_iff_eq.mpr rfl).symm
  · rw [numer_of_positive hs]
    exact (compare_lt_iff_lt.mpr (by omega)).symm
  · rw [Bool.not_eq_true] at hs
    have hn := numer_of_negative hs
    refine (compare_gt_iff_gt.mpr (lt_of_le_of_ne (by omega) fun heq => hmineq ?_)).symm
    -- Both are the least that they can be.
    have hi : i.toInt * F64.scale = -2 ^ 127 * F64.scale := by omega
    have hi := Int.eq_of_mul_eq_mul_right hpos.ne' hi
    exact ⟨by omega, BitVec.eq_of_toInt_eq (hi.trans hmin.symm)⟩

/-- The comparison of an integer with a finite float is that of the numbers they denote. -/
theorem compareIntF64_eq (i : Integer) {f : F64} (hnan : f.isNan = false)
    (hinf : f.isInfinite = false) :
    compareIntF64 i f = some (compare (i.toInt * F64.scale) f.numer) := by
  unfold compareIntF64
  rw [hnan, hinf]
  simp only [Bool.false_eq_true, if_false]
  by_cases he : f.exponent = 0
  · rw [if_pos he]
    by_cases hm : f.mantissa = 0
    · have hzero : f.numer = 0 * F64.scale := by
        have hmag : f.magnitude = 0 := by rw [magnitude_of_subnormal he, hm]
        simp only [F64.numer, hmag, Nat.cast_zero, neg_zero, ite_self, zero_mul]
      rw [if_pos hm, hzero, compare_scale]
    · rw [if_neg hm, subnormal_compare he hm]
  rw [if_neg he]
  by_cases habove : (f.exponent : ℤ) - 1023 > 127
  · rw [if_pos habove, sign_compare (abs_lt_magnitude i (by omega))]
  rw [if_neg habove]
  by_cases hat : (f.exponent : ℤ) - 1023 = 127
  · rw [if_pos hat]
    simp only [eq_integerMin hnan hinf]
    rw [boundary_compare i (by omega)]
  rw [if_neg hat]
  by_cases hint : f.trunc * F64.scale = f.numer
  · rw [if_pos hint, integral_compare (by omega) hint]
  · rw [if_neg hint, fractional_compare (by omega) hint]

/-! ### Equality and hash -/

/-- The float `f` is the integer `i`. -/
structure Denotes (f : F64) (i : Integer) : Prop where
  nan : f.isNan = false
  infinite : f.isInfinite = false
  numer : f.numer = i.toInt * F64.scale

/-- Two representations of one number: an integer and a float, or the two zeros. -/
def Twins : Prim → Prim → Prop
  | .int i, .f64 f | .f64 f, .int i => Denotes f i
  | .f64 l, .f64 r => l ≠ r ∧ Denotes l 0 ∧ Denotes r 0
  | _, _ => False

theorem compareIntF64_eq_iff {i : Integer} {f : F64} :
    compareIntF64 i f = some .eq ↔ Denotes f i := by
  cases hnan : f.isNan with
  | true =>
    refine ⟨fun h => ?_, fun h => ?_⟩
    · simp [compareIntF64, hnan] at h
    · simp [h.nan] at hnan
  | false =>
    cases hinf : f.isInfinite with
    | true =>
      refine ⟨fun h => ?_, fun h => ?_⟩
      · cases hs : f.isSignPositive <;> simp [compareIntF64, hnan, hinf, hs] at h
      · simp [h.infinite] at hinf
    | false =>
      rw [compareIntF64_eq i hnan hinf, Option.some_inj, compare_eq_iff_eq]
      exact ⟨fun h => ⟨hnan, hinf, h.symm⟩, fun h => h.numer.symm⟩

/-- Equal floats that differ are the two zeros. -/
theorem zeros_of_eq {l r : F64} (h : l.eq r = true) (hne : l ≠ r) : Denotes l 0 ∧ Denotes r 0 := by
  unfold F64.eq at h
  split_ifs at h with hnan hinf
  · simp [hne] at h
  · simp only [not_or, Bool.not_eq_true] at hnan hinf
    rw [decide_eq_true_eq] at h
    have hzero : l.numer = 0 := by
      by_contra h0
      exact hne (F64.eq_of_numer h h0)
    have hz : (0 : ℤ) = (0 : Integer).toInt * F64.scale := by
      rw [show (0 : Integer).toInt = 0 from rfl, zero_mul]
    exact ⟨⟨hnan.1, hinf.1, hzero.trans hz⟩, ⟨hnan.2, hinf.2, (h.symm.trans hzero).trans hz⟩⟩

theorem eq_of_zeros {l r : F64} (hl : Denotes l 0) (hr : Denotes r 0) : l.eq r = true := by
  have h : l.numer = r.numer := hl.numer.trans hr.numer.symm
  simp [F64.eq, hl.nan, hl.infinite, hr.nan, hr.infinite, h]

/-- Equality is that of representations, but for twins. -/
theorem opEq_iff {a b : Prim} (ha : a.Proper) : a.opEq b = true ↔ a = b ∨ Twins a b := by
  cases a with
  | nil => cases b <;> simp [opEq, Twins]
  | bool l => cases b <;> simp [opEq, Twins]
  | int i =>
    cases b with
    | int j => simp [opEq, Twins]
    | f64 f => simp [opEq, Twins, compareIntF64_eq_iff]
    | nil | bool => simp [opEq, Twins]
  | f64 l =>
    cases b with
    | int j => simp [opEq, Twins, compareIntF64_eq_iff]
    | nil | bool => simp [opEq, Twins]
    | f64 r =>
      simp only [opEq, Twins, f64.injEq]
      constructor
      · intro h
        by_cases heq : l = r
        · exact .inl heq
        · exact .inr ⟨heq, zeros_of_eq h heq⟩
      · rintro (rfl | ⟨-, hl, hr⟩)
        · have hnan : l.isNan = false := ha
          simp [F64.eq, hnan]
        · exact eq_of_zeros hl hr

/-- The hash tells representations apart. -/
theorem opHash_inj {a b : Prim} (ha : a.Proper) (hb : b.Proper) (h : a.opHash = b.opHash) :
    a = b := by
  unfold opHash at h
  obtain ⟨hd, hw⟩ := List.cons.inj h
  cases a <;> cases b <;> simp only [discriminant, Write.isize.injEq] at hd <;> try omega
  · rfl
  · simpa using hw
  · have hl : F64.isNan _ = false := ha
    have hr : F64.isNan _ = false := hb
    simp only [hl, hr, Bool.false_eq_true, if_false, List.cons.injEq, Write.u64.injEq,
      and_true] at hw
    rw [f64.injEq]
    exact congrArg F64.mk hw
  · next l r =>
      cases l <;> cases r <;> first | rfl | simp at hw

/-- Twins differ. -/
theorem Twins.ne {a b : Prim} (h : Twins a b) : a ≠ b := by
  rintro rfl
  cases a with
  | f64 f => exact h.1 rfl
  | nil | int | bool => exact h

/-- Equal values are fed to the hasher alike, unless they are twins. -/
theorem opHash_iff {a b : Prim} (ha : a.Proper) (hb : b.Proper) :
    (a.opEq b = true → a.opHash = b.opHash) ↔ ¬Twins a b := by
  rw [opEq_iff ha]
  constructor
  · intro h htwins
    exact htwins.ne (opHash_inj ha hb (h (.inr htwins)))
  · rintro h (rfl | htwins)
    · rfl
    · exact absurd htwins h

end Prim

end Dolang.Runtime
