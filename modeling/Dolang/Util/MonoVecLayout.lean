import Dolang.Util.MonoVec

/-!
# The layout of chunks

What the coordinates of `MonoVec` are: chunk `k` has the indices from `chunk_base(k)` up to that of the
next chunk, and its elements and the index fit into its allocation. Where the capacity is enough for the
elements before the index, and for which sizes of elements it is not, is decided at the end.
-/

namespace Dolang.Util.MonoVec

open Dolang.Rust Dolang.Memory

theorem le_two_pow_nextPowerLog (n : ℕ) : n ≤ 2 ^ nextPowerLog n := by
  unfold nextPowerLog
  split_ifs with h
  · exact h
  · have hlt := Nat.lt_log2_self (n := n - 1)
    omega

theorem le_roundUp (n : ℕ) {m : ℕ} (hm : 0 < m) : n ≤ roundUp n m := by
  unfold roundUp
  have hlt := Nat.lt_div_mul_add (a := n + m - 1) hm
  omega

theorem roundUp_lt (n : ℕ) {m : ℕ} (hm : 0 < m) : roundUp n m < n + m := by
  unfold roundUp
  have hle := Nat.div_mul_le_self (n + m - 1) m
  omega

/-- A multiple is not rounded. -/
theorem roundUp_of_dvd {n m : ℕ} (hm : 0 < m) (hdvd : m ∣ n) : roundUp n m = n := by
  obtain ⟨k, rfl⟩ := hdvd
  unfold roundUp
  have hdiv : (m * k + m - 1) / m = k := by
    rw [Nat.add_sub_assoc hm, Nat.mul_add_div hm, Nat.div_eq_of_lt (Nat.sub_lt hm Nat.one_pos),
      Nat.add_zero]
  rw [hdiv, Nat.mul_comm]

namespace Elem

variable (t : Elem)

theorem align_pos : 0 < t.align := by
  obtain ⟨k, hk⟩ := t.align_pow
  rw [hk]
  exact Nat.two_pow_pos k

theorem step_pos : 0 < t.step := by
  unfold step
  split_ifs with h
  · exact t.align_pos
  · exact Nat.pos_of_ne_zero h

theorem align_dvd_step : t.align ∣ t.step := by
  unfold step
  split_ifs
  · exact Nat.dvd_refl _
  · exact t.align_dvd

/-- The elements of chunk 0 take at least the room of one and of a pointer. -/
theorem step_add_le : t.step + 8 ≤ 2 ^ t.logBaseCap * t.step := by
  have hup := le_roundUp t.step (show 0 < 8 by omega)
  have hpow := le_two_pow_nextPowerLog t.defaultBaseCap
  have hlt := Nat.lt_div_mul_add (a := roundUp t.step 8 + 8 + t.step - 1) t.step_pos
  have hmul := Nat.mul_le_mul_right t.step hpow
  unfold defaultBaseCap at hmul
  unfold logBaseCap
  have hpos := t.step_pos
  unfold defaultBaseCap
  omega

/-! ## Coordinates -/

theorem chunkBase_succ (k : ℕ) : t.chunkBase (k + 1) = t.chunkBase k + 2 ^ (t.logBaseCap + k) := by
  have hpos := Nat.two_pow_pos k
  calc t.chunkBase (k + 1)
      = (2 ^ k - 1 + 2 ^ k) * 2 ^ t.logBaseCap := by
        rw [chunkBase, Nat.pow_succ]
        congr 1
        omega
    _ = t.chunkBase k + 2 ^ (t.logBaseCap + k) := by
        rw [Nat.add_mul, chunkBase, Nat.pow_add, Nat.mul_comm (2 ^ k)]

/-- An index is in the range of its chunk. -/
theorem chunkOf_spec (i : ℕ) :
    t.chunkBase (t.chunkOf i) ≤ i ∧ i < t.chunkBase (t.chunkOf i + 1) := by
  have hpos := Nat.two_pow_pos t.logBaseCap
  have hle := Nat.log2_self_le (Nat.succ_ne_zero (i / 2 ^ t.logBaseCap))
  have hlt := Nat.lt_log2_self (n := i / 2 ^ t.logBaseCap + 1)
  rw [← chunkOf] at hle hlt
  have hbelow : 2 ^ t.chunkOf i - 1 ≤ i / 2 ^ t.logBaseCap := by omega
  have habove : i / 2 ^ t.logBaseCap + 1 ≤ 2 ^ (t.chunkOf i + 1) - 1 := by omega
  constructor
  · calc t.chunkBase (t.chunkOf i)
        ≤ i / 2 ^ t.logBaseCap * 2 ^ t.logBaseCap := Nat.mul_le_mul_right _ hbelow
      _ ≤ i := Nat.div_mul_le_self _ _
  · calc i
        < i / 2 ^ t.logBaseCap * 2 ^ t.logBaseCap + 2 ^ t.logBaseCap := Nat.lt_div_mul_add hpos
      _ = (i / 2 ^ t.logBaseCap + 1) * 2 ^ t.logBaseCap := by rw [Nat.add_mul, Nat.one_mul]
      _ ≤ t.chunkBase (t.chunkOf i + 1) := Nat.mul_le_mul_right _ habove

/-- An index is its place in its chunk behind the start of the chunk. -/
theorem coordOf_spec (i : ℕ) : t.chunkBase (t.coordOf i).1 + (t.coordOf i).2 = i ∧
    (t.coordOf i).2 < 2 ^ (t.logBaseCap + (t.coordOf i).1) := by
  obtain ⟨hle, hlt⟩ := t.chunkOf_spec i
  rw [chunkBase_succ] at hlt
  simp only [coordOf]
  omega

theorem coordOf_inj {i j : ℕ} (h : t.coordOf i = t.coordOf j) : i = j := by
  rw [← (t.coordOf_spec i).1, ← (t.coordOf_spec j).1, h]

theorem chunkBase_mono {k l : ℕ} (h : k ≤ l) : t.chunkBase k ≤ t.chunkBase l :=
  Nat.mul_le_mul_right _ (Nat.sub_le_sub_right (Nat.pow_le_pow_right (by omega) h) 1)

/-- The coordinates of what is in the range of a chunk. -/
theorem coordOf_eq {k j : ℕ} (hj : j < 2 ^ (t.logBaseCap + k)) :
    t.coordOf (t.chunkBase k + j) = (k, j) := by
  have hspec := t.chunkOf_spec (t.chunkBase k + j)
  have hk : t.chunkOf (t.chunkBase k + j) = k := by
    obtain hlt | heq | hlt := Nat.lt_trichotomy (t.chunkOf (t.chunkBase k + j)) k
    · have hmono := t.chunkBase_mono (show t.chunkOf (t.chunkBase k + j) + 1 ≤ k by omega)
      omega
    · exact heq
    · have hmono := t.chunkBase_mono (show k + 1 ≤ t.chunkOf (t.chunkBase k + j) by omega)
      rw [chunkBase_succ] at hmono
      omega
  rw [coordOf, hk, Nat.add_sub_cancel_left]

/-! ## Chunks -/

/-- The room that the elements of a chunk take. -/
def dataSize (k : ℕ) : ℕ :=
  roundUp (t.step * 2 ^ (t.logBaseCap + k)) (max t.align 8)

theorem le_dataSize (k : ℕ) : t.step * 2 ^ (t.logBaseCap + k) ≤ t.dataSize k :=
  le_roundUp _ (by omega)

/-- The elements of a chunk take the room of one and of the index. -/
theorem step_add_index_le (k : ℕ) : t.step + 8 * (k + 1) ≤ t.dataSize k := by
  have hlt := Nat.lt_two_pow_self (n := k)
  have hpos := t.step_pos
  calc t.step + 8 * (k + 1)
      ≤ (t.step + 8) * (k + 1) := by
        have hle : t.step * 1 ≤ t.step * (k + 1) := Nat.mul_le_mul_left _ (by omega)
        rw [Nat.add_mul]
        omega
    _ ≤ 2 ^ t.logBaseCap * t.step * 2 ^ k := Nat.mul_le_mul t.step_add_le hlt
    _ = t.step * 2 ^ (t.logBaseCap + k) := by
        rw [Nat.pow_add, Nat.mul_comm _ t.step, Nat.mul_assoc]
    _ ≤ t.dataSize k := t.le_dataSize k

/-- A chunk that is not too large is as large as its elements, with the index at the end. -/
theorem chunkLayout_cases (k : ℕ) : t.chunkLayout k = abort ∨
    t.chunkLayout k = .ok (t.dataSize k, t.dataSize k - 8 * (k + 1)) ∧
      t.logBaseCap + k < 64 ∧ t.step * 2 ^ (t.logBaseCap + k) ≤ 2 ^ 63 - max t.align 8 := by
  have hindex := t.step_add_index_le k
  unfold chunkLayout
  dsimp only
  split_ifs
  · exact .inl rfl
  · exact .inl rfl
  · refine .inr ⟨?_, by omega, by omega⟩
    rw [← dataSize, Nat.max_eq_right (by omega)]

theorem chunkLayout_eq {k size offset : ℕ} (h : t.chunkLayout k = .ok (size, offset)) :
    size = t.dataSize k ∧ offset = t.dataSize k - 8 * (k + 1) ∧
      t.logBaseCap + k < 64 ∧ t.step * 2 ^ (t.logBaseCap + k) ≤ 2 ^ 63 - max t.align 8 := by
  obtain hnone | ⟨heq, hbounds⟩ := t.chunkLayout_cases k
  · rw [hnone] at h
    cases h
  · rw [heq] at h
    obtain ⟨rfl, rfl⟩ := Prod.mk.inj (Except.ok.inj h)
    exact ⟨rfl, rfl, hbounds⟩

/-! ## The capacity -/

/-- The elements of the last chunk that are before its index. -/
def beforeIndex (k : ℕ) : ℕ :=
  (t.dataSize k - 8 * (k + 1)) / t.step

/-- The elements of the last chunk that the capacity counts. -/
def counted (k : ℕ) : ℕ :=
  2 ^ (t.logBaseCap + k) - (8 * (k + 1) + t.step - 1) / t.step

/-- No more elements than a chunk has are needed for its index. -/
theorem index_elems_le (k : ℕ) :
    (8 * (k + 1) + t.step - 1) / t.step ≤ 2 ^ (t.logBaseCap + k) := by
  have hlt := Nat.lt_two_pow_self (n := k)
  have hpos := t.step_pos
  rw [← Nat.lt_add_one_iff, Nat.div_lt_iff_lt_mul hpos, Nat.add_mul, Nat.one_mul]
  have hmul : (t.step + 8) * (k + 1) ≤ 2 ^ (t.logBaseCap + k) * t.step := by
    calc (t.step + 8) * (k + 1)
        ≤ 2 ^ t.logBaseCap * t.step * 2 ^ k := Nat.mul_le_mul t.step_add_le hlt
      _ = 2 ^ (t.logBaseCap + k) * t.step := by rw [Nat.pow_add, Nat.mul_right_comm]
  rw [Nat.add_mul] at hmul
  have hle : t.step * 1 ≤ t.step * (k + 1) := Nat.mul_le_mul_left _ (by omega)
  omega

/-- Padding that is less than what the index leaves of its first element makes no room. -/
theorem beforeIndex_le_of_pad {k : ℕ}
    (h : t.dataSize k + t.step * ((8 * (k + 1) + t.step - 1) / t.step - 1) <
      t.step * 2 ^ (t.logBaseCap + k) + 8 * (k + 1)) : t.beforeIndex k ≤ t.counted k := by
  have hpos := t.step_pos
  have hle := t.index_elems_le k
  have hq : 0 < (8 * (k + 1) + t.step - 1) / t.step := Nat.div_pos (by omega) hpos
  rw [beforeIndex, ← Nat.lt_add_one_iff, Nat.div_lt_iff_lt_mul hpos, counted]
  generalize (8 * (k + 1) + t.step - 1) / t.step = q at *
  obtain ⟨m, hm⟩ := Nat.exists_eq_add_of_le hle
  obtain ⟨p, rfl⟩ := Nat.exists_eq_add_one_of_ne_zero (Nat.ne_of_gt hq)
  rw [hm, Nat.mul_add, Nat.mul_add, Nat.mul_one, Nat.add_sub_cancel] at h
  rw [hm, Nat.add_sub_cancel_left, Nat.add_mul, Nat.one_mul, Nat.mul_comm m]
  omega

/-- Without padding, the capacity counts all elements before the index. -/
theorem beforeIndex_le_of_dvd {k : ℕ} (h : max t.align 8 ∣ t.step * 2 ^ (t.logBaseCap + k)) :
    t.beforeIndex k ≤ t.counted k := by
  have hpos := t.step_pos
  have hmul := Nat.div_mul_le_self (8 * (k + 1) + t.step - 1) t.step
  refine t.beforeIndex_le_of_pad ?_
  rw [dataSize, roundUp_of_dvd (by omega) h, Nat.mul_sub, Nat.mul_one, Nat.mul_comm t.step (_ / _)]
  omega

theorem logBaseCap_eq_of_step (s : ℕ) (hs : t.step = s) :
    t.logBaseCap = nextPowerLog ((roundUp s 8 + 8 + s - 1) / s) := by
  rw [logBaseCap, defaultBaseCap, hs]

theorem logBaseCap_pos : 0 < t.logBaseCap := by
  have hle := t.step_add_le
  by_contra h
  rw [Nat.eq_zero_of_not_pos h] at hle
  omega

/-- The sizes of elements up to 15 for which the capacity counts all elements before the index of
the first two chunks. -/
theorem small_beforeIndex_le : ∀ s ∈ List.range 16, s ≠ 0 → s ≠ 5 → s ≠ 7 → s ≠ 13 → s ≠ 15 →
    ∀ k ∈ List.range 2,
    (roundUp (s * 2 ^ (nextPowerLog ((roundUp s 8 + 8 + s - 1) / s) + k)) 8 - 8 * (k + 1)) / s ≤
      2 ^ (nextPowerLog ((roundUp s 8 + 8 + s - 1) / s) + k) - (8 * (k + 1) + s - 1) / s := by
  decide

/-- Sizes for which the padding of a chunk has room for an element that the capacity leaves to the
index. -/
def Spares (s : ℕ) : Prop :=
  s = 5 ∨ s = 7 ∨ s = 13 ∨ s = 15

/-- For all other sizes, the capacity counts all elements before the index. -/
theorem beforeIndex_le_counted (h : ¬Spares t.step) (k : ℕ) : t.beforeIndex k ≤ t.counted k := by
  have hlb := t.logBaseCap_pos
  have hpos := t.step_pos
  by_cases hdvd : max t.align 8 ∣ t.step * 2 ^ (t.logBaseCap + k)
  · exact t.beforeIndex_le_of_dvd hdvd
  have halign : t.align < 8 := by
    by_contra hge
    rw [Nat.max_eq_left (Nat.le_of_not_lt hge)] at hdvd
    exact hdvd (Nat.dvd_mul_right_of_dvd t.align_dvd_step _)
  rw [Nat.max_eq_right (Nat.le_of_lt halign)] at hdvd
  -- From the third chunk on, the number of elements is a multiple of 8.
  have hk : t.logBaseCap + k < 3 := by
    by_contra hge
    obtain ⟨m, hm⟩ := Nat.exists_eq_add_of_le (Nat.le_of_not_lt hge)
    rw [hm, Nat.pow_add] at hdvd
    exact hdvd (Nat.dvd_mul_left_of_dvd (Nat.dvd_mul_right _ _) _)
  by_cases hsmall : t.step < 16
  · have hle := small_beforeIndex_le t.step (List.mem_range.mpr hsmall) (Nat.ne_of_gt hpos)
      (fun h5 => h (.inl h5)) (fun h7 => h (.inr (.inl h7)))
      (fun h13 => h (.inr (.inr (.inl h13)))) (fun h15 => h (.inr (.inr (.inr h15)))) k (List.mem_range.mpr (by omega))
    rw [← t.logBaseCap_eq_of_step t.step rfl] at hle
    rwa [beforeIndex, counted, dataSize, Nat.max_eq_right (Nat.le_of_lt halign)]
  · refine t.beforeIndex_le_of_pad ?_
    have hone : (8 * (k + 1) + t.step - 1) / t.step - 1 = 0 := by
      have hlt : (8 * (k + 1) + t.step - 1) / t.step < 2 :=
        (Nat.div_lt_iff_lt_mul hpos).mpr (by omega)
      omega
    have hround := roundUp_lt (t.step * 2 ^ (t.logBaseCap + k)) (show 0 < 8 by omega)
    rw [hone, Nat.mul_zero, dataSize, Nat.max_eq_right (Nat.le_of_lt halign)]
    omega

/-- Chunks of few small elements are not too large. -/
theorem chunkLayout_ne_abort {k : ℕ} (halign : t.align < 8) (hsmall : t.step < 16)
    (hk : t.logBaseCap + k ≤ 4) : t.chunkLayout k ≠ abort := by
  have hpow : 2 ^ (t.logBaseCap + k) ≤ 2 ^ 4 := Nat.pow_le_pow_right (by omega) hk
  have hmul := Nat.mul_le_mul (Nat.le_of_lt hsmall) hpow
  rw [chunkLayout, if_neg (by omega), if_neg (by omega)]
  exact fun h => by cases h

/-- For the sizes that spare an element, a place in a chunk before the index that the capacity does not
count. -/
theorem exists_of_spares (h : Spares t.step) : ∃ k j, j < 2 ^ (t.logBaseCap + k) ∧
    (j + 1) * t.step + 8 * (k + 1) ≤ t.dataSize k ∧ t.counted k < j + 1 ∧
    t.chunkBase k + j + 1 < 2 ^ 64 ∧ ∀ i, i ≤ k → t.chunkLayout i ≠ abort := by
  have halign : t.align < 8 := by
    by_contra hge
    have hdvd : 8 ∣ t.step := by
      obtain ⟨m, hm⟩ := t.align_pow
      have hm3 : 3 ≤ m := by
        by_contra hlt
        have hle : 2 ^ m ≤ 2 ^ 2 := Nat.pow_le_pow_right (by omega) (by omega)
        omega
      obtain ⟨p, rfl⟩ := Nat.exists_eq_add_of_le hm3
      exact Nat.dvd_trans ⟨2 ^ p, hm.trans (Nat.pow_add 2 3 p)⟩ t.align_dvd_step
    unfold Spares at h
    omega
  have hmax : max t.align 8 = 8 := Nat.max_eq_right (Nat.le_of_lt halign)
  unfold dataSize counted chunkBase
  rw [hmax]
  obtain hs | hs | hs | hs := h
  · have hlb : t.logBaseCap = 2 := t.logBaseCap_eq_of_step 5 hs
    refine ⟨0, 2, ?_, ?_, ?_, ?_, fun i hi => t.chunkLayout_ne_abort halign (by omega) (by omega)⟩
      <;> rw [hlb] <;> try rw [hs]
    all_goals decide
  · have hlb : t.logBaseCap = 2 := t.logBaseCap_eq_of_step 7 hs
    refine ⟨0, 2, ?_, ?_, ?_, ?_, fun i hi => t.chunkLayout_ne_abort halign (by omega) (by omega)⟩
      <;> rw [hlb] <;> try rw [hs]
    all_goals decide
  · have hlb : t.logBaseCap = 1 := t.logBaseCap_eq_of_step 13 hs
    refine ⟨1, 2, ?_, ?_, ?_, ?_, fun i hi => t.chunkLayout_ne_abort halign (by omega) (by omega)⟩
      <;> rw [hlb] <;> try rw [hs]
    all_goals decide
  · have hlb : t.logBaseCap = 1 := t.logBaseCap_eq_of_step 15 hs
    refine ⟨1, 2, ?_, ?_, ?_, ?_, fun i hi => t.chunkLayout_ne_abort halign (by omega) (by omega)⟩
      <;> rw [hlb] <;> try rw [hs]
    all_goals decide

end Elem

end Dolang.Util.MonoVec
