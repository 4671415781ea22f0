import Dolang.Util.MonoVecLayout

/-!
# Growth does not move elements

`Ok` says what is in the memory of a `MonoVec`: its chunks, the index in the last one, and its elements
in the slots of their coordinates, none of which is over the index. Every operation keeps it, and so every
run does. From it follow what `get` and `pop` return, that addresses and values stay, what `drop` drops,
and for which elements the capacity is never below the length.
-/

namespace Dolang.Util.MonoVec

open Dolang.Rust Dolang.Memory

variable {V : Type}

/-! ## Bytes of values -/

/-- The bytes of pointers one after the other. -/
def tableCells (V : Type) (ids : List ℕ) : List (Cell V) :=
  ids.flatMap pointerCells

theorem length_elemCells (t : Elem) (value : V) : (elemCells t value).length = t.step := by
  rw [elemCells, List.length_map, List.length_range]

theorem length_pointerCells (a : ℕ) : (pointerCells (V := V) a).length = 8 := by
  rw [pointerCells, List.length_map, List.length_range]

theorem length_tableCells (ids : List ℕ) : (tableCells V ids).length = 8 * ids.length := by
  induction ids with
  | nil => rfl
  | cons a ids ih =>
    rw [tableCells, List.flatMap_cons, List.length_append, length_pointerCells, ← tableCells, ih,
      List.length_cons]
    omega

theorem tableCells_append (ids : List ℕ) (a : ℕ) :
    tableCells V (ids ++ [a]) = tableCells V ids ++ pointerCells a := by
  rw [tableCells, List.flatMap_append, ← tableCells, List.flatMap_singleton]

/-- The bytes of one of the pointers. -/
theorem tableCells_part {ids : List ℕ} {k a : ℕ} (h : ids[k]? = some a) :
    ((tableCells V ids).drop (8 * k)).take 8 = pointerCells a := by
  induction ids generalizing k with
  | nil => cases h
  | cons b ids ih =>
    rw [tableCells, List.flatMap_cons, ← tableCells]
    cases k with
    | zero =>
      obtain rfl := Option.some.inj h
      exact List.take_left' (length_pointerCells b)
    | succ k =>
      rw [List.getElem?_cons_succ] at h
      rw [Nat.mul_succ, Nat.add_comm, ← List.drop_drop, List.drop_left' (length_pointerCells b), ih h]

section

variable [DecidableEq V]

theorem readPointer_pointerCells (a : ℕ) : readPointer (pointerCells (V := V) a) = some a :=
  if_pos rfl

theorem readElem_elemCells (t : Elem) (value : V) : readElem t (elemCells t value) = some value := by
  obtain ⟨n, hn⟩ := Nat.exists_eq_add_one_of_ne_zero (Nat.ne_of_gt t.step_pos)
  have hcells : elemCells t value =
      .elem value 0 :: (List.range n).map fun i => .elem value (i + 1) := by
    rw [elemCells, hn, List.range_succ_eq_map, List.map_cons, List.map_map]
    rfl
  rw [hcells]
  exact if_pos hcells.symm

end

/-! ## What is in memory -/

variable {t : Elem}

/-- A slot of an element is in a chunk, and not over the index. -/
def Fits (t : Elem) (ids : List ℕ) (i : ℕ) : Prop :=
  (t.coordOf i).1 < ids.length ∧ ((t.coordOf i).1 + 1 = ids.length →
    ((t.coordOf i).2 + 1) * t.step + 8 * ids.length ≤ t.dataSize (t.coordOf i).1)

/-- A vector has its chunks, its index and its elements in memory. -/
structure Ok (t : Elem) (v : MonoVec V) (ids : List ℕ) (values : List V) : Prop where
  len : v.len = values.length
  chunks : v.chunks = ids.length
  nodup : ids.Nodup
  sizes : ∀ k a, ids[k]? = some a → size v.memory a = some (t.dataSize k) ∧
    t.chunkLayout k = .ok (t.dataSize k, t.dataSize k - 8 * (k + 1))
  index : ∀ k a, ids[k]? = some a → k + 1 = ids.length →
    v.index = some (a, t.dataSize k - 8 * (k + 1)) ∧
      load v.memory a (t.dataSize k - 8 * (k + 1)) (8 * (k + 1)) = some (tableCells V ids)
  fits : ∀ i, i < values.length → Fits t ids i
  elems : ∀ i x a, values[i]? = some x → ids[(t.coordOf i).1]? = some a →
    load v.memory a (t.step * (t.coordOf i).2) t.step = some (elemCells t x)

theorem ok_new (t : Elem) (memory : Heap (Cell V)) : Ok t (new memory) [] [] where
  len := rfl
  chunks := rfl
  nodup := .nil
  sizes := nofun
  index := nofun
  fits := nofun
  elems := nofun

section

variable [DecidableEq V] {v : MonoVec V} {ids : List ℕ} {values : List V}

/-- The pointers of the index are those to the chunks. -/
theorem Ok.chunkPointer (h : Ok t v ids values) {k a : ℕ} (ha : ids[k]? = some a) :
    v.chunkPointer k = .ok a := by
  have hk := (List.getElem?_eq_some_iff.mp ha).1
  obtain ⟨last, hlast⟩ := Nat.exists_eq_add_one_of_ne_zero (Nat.ne_of_gt (Nat.zero_lt_of_lt hk))
  have hget := List.getElem?_eq_getElem (show last < ids.length by omega)
  obtain ⟨hindex, hload⟩ := h.index last _ hget hlast.symm
  have hpart := load_part hload (show 8 * k + 8 ≤ 8 * (last + 1) by omega)
  rw [tableCells_part ha] at hpart
  rw [MonoVec.chunkPointer, hindex]
  simp only [Option.bind_eq_bind, Option.bind_some, hpart, readPointer_pointerCells]
  rfl

omit [DecidableEq V] in
/-- The pointers are copied to a new place, and nothing else changes. -/
theorem copyIndex_spec (h : Ok t v ids values) {memory : Heap (Cell V)} {chunk n : ℕ} (offset : ℕ)
    (hload : ∀ a start len d, load v.memory a start len = some d →
      load memory a start len = some d)
    (hsize : size memory chunk = some n) (hroom : offset + 8 * ids.length ≤ n) :
    ∃ memory', v.copyIndex memory chunk offset = .ok memory' ∧
      load memory' chunk offset (8 * ids.length) = some (tableCells V ids) ∧
      (∀ b, size memory' b = size memory b) ∧
      ∀ b start len, b ≠ chunk → load memory' b start len = load memory b start len := by
  obtain ⟨d, hd⟩ := exists_load hsize (show offset + 0 ≤ n by omega)
  cases hids : ids.length with
  | zero =>
    obtain rfl := List.length_eq_zero_iff.mp hids
    obtain rfl := List.length_eq_zero_iff.mp (length_of_load hd)
    exact ⟨memory, if_pos h.chunks, hd, fun _ => rfl, fun _ _ _ _ => rfl⟩
  | succ last =>
    have hget := List.getElem?_eq_getElem (show last < ids.length by omega)
    obtain ⟨hindex, htable⟩ := h.index last _ hget hids.symm
    have htable' := hload _ _ _ _ htable
    have hlen := length_tableCells (V := V) ids
    rw [hids] at hlen
    obtain ⟨memory', hstore⟩ := exists_store (tableCells V ids) hsize
      (show offset + _ ≤ n by omega)
    refine ⟨memory', ?_, hlen ▸ load_store hstore, size_store hstore, fun b start len hb =>
      load_store_of_apart hstore (.inl hb)⟩
    rw [copyIndex, h.chunks, hids, if_neg (by omega), hindex]
    simp only [Option.bind_eq_bind, Option.bind_some, htable', hstore]
    rfl

/-- A chunk more: the index is copied behind its elements. -/
theorem addChunk_spec (h : Ok t v ids values) :
    (v.addChunk t = abort ∧ t.chunkLayout v.chunks = abort) ∨
      ∃ v' id, v.addChunk t = .ok v' ∧ Ok t v' (ids ++ [id]) values := by
  unfold addChunk
  obtain hnone | ⟨hlayout, -, hsmall⟩ := t.chunkLayout_cases v.chunks
  · exact .inl ⟨by rw [hnone]; rfl, hnone⟩
  have hroom := t.step_add_index_le v.chunks
  rw [hlayout, ok_bind]
  rw [h.chunks] at *
  dsimp only
  generalize hoffset : t.dataSize ids.length - 8 * (ids.length + 1) = offset
  have hchunk := size_alloc_self v.memory (t.dataSize ids.length) Cell.uninit
  have hload := fun a start len d (hl : load v.memory a start len = some d) =>
    load_alloc hl (t.dataSize ids.length) Cell.uninit
  have hsize := fun a n (hs : size v.memory a = some n) =>
    size_alloc hs (t.dataSize ids.length) Cell.uninit
  have hfresh := fun a n (hs : size v.memory a = some n) => Nat.ne_of_lt (lt_length_of_size hs)
  change ∀ a n, _ → a ≠ (alloc v.memory (t.dataSize ids.length) Cell.uninit).1 at hfresh
  generalize alloc v.memory (t.dataSize ids.length) Cell.uninit = made at *
  obtain ⟨chunk, memory⟩ := made
  dsimp only at *
  obtain ⟨memory₁, hcopy, htable, hsize₁, hload₁⟩ :=
    copyIndex_spec h offset hload hchunk (by omega)
  have hpointer : offset + 8 * ids.length + (pointerCells (V := V) chunk).length ≤
      t.dataSize ids.length := by
    rw [length_pointerCells]
    omega
  obtain ⟨memory₂, hstore⟩ := exists_store (pointerCells (V := V) chunk)
    ((hsize₁ chunk).trans hchunk) hpointer
  rw [hcopy, ok_bind, hstore]
  refine .inr ⟨_, chunk, rfl, ?_⟩
  have hsize' : ∀ a n, size v.memory a = some n → size memory₂ a = some n := fun a n hs => by
    rw [size_store hstore, hsize₁, hsize a n hs]
  have hold : ∀ k a, ids[k]? = some a → a ≠ chunk := fun k a ha =>
    hfresh a _ (h.sizes k a ha).1
  have hload' : ∀ a start len d, a ≠ chunk → load v.memory a start len = some d →
      load memory₂ a start len = some d := fun a start len d ha hl => by
    rw [load_store_of_apart hstore (.inl ha), hload₁ a start len ha, hload a start len d hl]
  have hget : ∀ k a, (ids ++ [chunk])[k]? = some a →
      ids[k]? = some a ∨ k = ids.length ∧ a = chunk := by
    intro k a ha
    obtain hlt | hge := Nat.lt_or_ge k ids.length
    · exact .inl (by rwa [List.getElem?_append_left hlt] at ha)
    · rw [List.getElem?_append_right hge] at ha
      have hk := (List.getElem?_eq_some_iff.mp ha).1
      rw [List.length_singleton] at hk
      rw [show k - ids.length = 0 by omega] at ha
      exact .inr ⟨by omega, (Option.some.inj ha).symm⟩
  exact {
    len := h.len
    chunks := by
      rw [List.length_append]
      rfl
    nodup := by
      refine List.nodup_append.mpr ⟨h.nodup, List.pairwise_singleton _ _, ?_⟩
      intro a ha b hb
      obtain ⟨k, hk⟩ := List.getElem?_of_mem ha
      rw [List.mem_singleton.mp hb]
      exact hold k a hk
    sizes := by
      intro k a ha
      obtain hk | ⟨rfl, rfl⟩ := hget k a ha
      · exact ⟨hsize' a _ (h.sizes k a hk).1, (h.sizes k a hk).2⟩
      · exact ⟨by rw [size_store hstore, hsize₁, hchunk], hlayout⟩
    index := by
      intro k a ha hk
      rw [List.length_append, List.length_singleton] at hk
      obtain hk' | ⟨-, rfl⟩ := hget k a ha
      · have := (List.getElem?_eq_some_iff.mp hk').1
        omega
      · obtain rfl : k = ids.length := by omega
        refine ⟨by rw [hoffset], ?_⟩
        have hpointer := load_store hstore
        rw [length_pointerCells] at hpointer
        rw [hoffset, Nat.mul_succ, tableCells_append]
        refine load_append ?_ hpointer
        rw [load_store_of_apart hstore (.inr (.inl (Nat.le_refl _)))]
        exact htable
    fits := by
      intro i hi
      obtain ⟨hlt, -⟩ := h.fits i hi
      refine ⟨?_, ?_⟩
      · rw [List.length_append]
        omega
      · rw [List.length_append, List.length_singleton]
        omega
    elems := by
      intro i x a hx ha
      have hi := (List.getElem?_eq_some_iff.mp hx).1
      obtain hk | ⟨hk, -⟩ := hget _ a ha
      · exact hload' a _ _ _ (hold _ a hk) (h.elems i x a hx hk)
      · have := (h.fits i hi).1
        omega }

/-- Some chunks more. -/
theorem addChunks_spec (h : Ok t v ids values) (n : ℕ) :
    (v.addChunks t n = abort ∧ ∃ k, k < v.chunks + n ∧ t.chunkLayout k = abort) ∨
      ∃ v' more, v.addChunks t n = .ok v' ∧ Ok t v' (ids ++ more) values ∧ more.length = n := by
  induction n generalizing v ids with
  | zero => exact .inr ⟨v, [], rfl, by rwa [List.append_nil], rfl⟩
  | succ n ih =>
    rw [addChunks]
    obtain ⟨hnone, hlarge⟩ | ⟨v₁, id, hadd, hok⟩ := addChunk_spec h
    · exact .inl ⟨by rw [hnone]; rfl, _, Nat.lt_add_of_pos_right (Nat.succ_pos n), hlarge⟩
    rw [hadd, ok_bind]
    have hchunks := hok.chunks
    rw [List.length_append, List.length_singleton, ← h.chunks] at hchunks
    obtain ⟨hnone, k, hk, hlarge⟩ | ⟨v', more, hadds, hok', hlen⟩ := ih hok
    · exact .inl ⟨hnone, k, by omega, hlarge⟩
    · refine .inr ⟨v', id :: more, hadds, ?_, by rw [List.length_cons, hlen]⟩
      rwa [List.append_assoc, List.singleton_append] at hok'

/-- `ensure_chunk` makes a chunk be there. -/
theorem ensureChunk_spec (h : Ok t v ids values) (chunk : ℕ) :
    (v.ensureChunk t chunk = abort ∧ ∃ k, k ≤ chunk ∧ t.chunkLayout k = abort) ∨
      ∃ v' more, v.ensureChunk t chunk = .ok v' ∧ Ok t v' (ids ++ more) values ∧
        more.length = chunk + 1 - ids.length := by
  rw [← h.chunks]
  obtain ⟨hnone, k, hk, hlarge⟩ | hok := addChunks_spec h (chunk + 1 - v.chunks)
  · refine .inl ⟨hnone, k, ?_, hlarge⟩
    by_contra hlt
    -- The chunks that are there are not too large.
    have hk' := List.getElem?_eq_getElem (show k < ids.length by have := h.chunks; omega)
    rw [(h.sizes k _ hk').2] at hlarge
    cases hlarge
  · exact .inr hok

/-- `ensure_index` makes a slot for an element be there, which is not over the index. -/
theorem ensureIndex_spec (h : Ok t v ids values) (i : ℕ) : v.ensureIndex t i = abort ∨
    ∃ v' more, v.ensureIndex t i = .ok v' ∧ Ok t v' (ids ++ more) values ∧
      Fits t (ids ++ more) i := by
  unfold ensureIndex
  generalize hcoord : t.coordOf i = c
  obtain ⟨chunk, subi⟩ := c
  dsimp only
  obtain ⟨hnone, -⟩ | ⟨v₁, more, hensure, hok, hlen⟩ := ensureChunk_spec h chunk
  · exact .inl (by rw [hnone]; rfl)
  rw [hensure, ok_bind]
  have hlength : (ids ++ more).length = ids.length + more.length := List.length_append
  by_cases hlast : chunk + 1 = v₁.chunks
  · rw [if_pos hlast, clearIndex]
    obtain hnone | ⟨hlayout, -⟩ := t.chunkLayout_cases chunk
    · exact .inl (by rw [hnone]; rfl)
    rw [hlayout, ok_bind]
    dsimp only
    by_cases hover : t.dataSize chunk - 8 * (chunk + 1) < (subi + 1) * t.step
    · rw [if_pos hover]
      obtain ⟨hnone, -⟩ | ⟨v₂, more', hensure', hok', hlen'⟩ := ensureChunk_spec hok (chunk + 1)
      · exact .inl hnone
      · refine .inr ⟨v₂, more ++ more', hensure', by rwa [← List.append_assoc], ?_⟩
        rw [← List.append_assoc, Fits, List.length_append, hlen', hcoord]
        dsimp only
        omega
    · rw [if_neg hover]
      refine .inr ⟨v₁, more, rfl, hok, ?_⟩
      have hchunks := hok.chunks
      have hroom := t.step_add_index_le chunk
      rw [Fits, hcoord]
      refine ⟨?_, fun heq => ?_⟩
      · dsimp only
        omega
      · dsimp only at heq ⊢
        rw [← heq]
        omega
  · rw [if_neg hlast]
    refine .inr ⟨v₁, more, rfl, hok, ?_⟩
    have hchunks := hok.chunks
    rw [Fits, hcoord]
    dsimp only
    omega

/-- Slots do not overlap, and one that fits is not over the index. -/
theorem slots_apart (t : Elem) {i j : ℕ} (hij : i ≠ j) (hchunk : (t.coordOf i).1 = (t.coordOf j).1) :
    t.step * (t.coordOf i).2 + t.step ≤ t.step * (t.coordOf j).2 ∨
      t.step * (t.coordOf j).2 + t.step ≤ t.step * (t.coordOf i).2 := by
  have hne : (t.coordOf i).2 ≠ (t.coordOf j).2 := fun heq => hij (t.coordOf_inj (Prod.ext hchunk heq))
  obtain hlt | hlt := Nat.lt_or_gt_of_ne hne
  · exact .inl (Nat.mul_le_mul_left t.step hlt)
  · exact .inr (Nat.mul_le_mul_left t.step hlt)

/-- A slot is in its chunk. -/
theorem slot_le (t : Elem) (i : ℕ) :
    t.step * (t.coordOf i).2 + t.step ≤ t.step * 2 ^ (t.logBaseCap + (t.coordOf i).1) :=
  Nat.mul_le_mul_left t.step (t.coordOf_spec i).2

/-- Where an element is. -/
theorem Ok.address (h : Ok t v ids values) {i a : ℕ} (ha : ids[(t.coordOf i).1]? = some a) :
    v.address t i = .ok (a, t.step * (t.coordOf i).2) := by
  have hle := slot_le t i
  obtain ⟨-, -, -, hsmall⟩ := t.chunkLayout_eq (h.sizes _ a ha).2
  rw [MonoVec.address]
  dsimp only
  rw [h.chunkPointer ha, ok_bind, Elem.elemAdd, if_pos (by unfold usizeMax; omega)]
  rfl

/-- An element is written to a slot that fits, behind all others. -/
theorem Ok.fill (h : Ok t v ids values) (hfits : Fits t ids v.len) (value : V) : ∃ a memory,
    v.address t v.len = .ok (a, t.step * (t.coordOf v.len).2) ∧
      store v.memory a (t.step * (t.coordOf v.len).2) (elemCells t value) = some memory ∧
      Ok t { v with memory, len := v.len + 1 } ids (values ++ [value]) := by
  have ha := List.getElem?_eq_getElem hfits.1
  obtain ⟨hchunk, -⟩ := h.sizes _ _ ha
  have hslot := slot_le t v.len
  have hdata := t.le_dataSize (t.coordOf v.len).1
  obtain ⟨memory, hstore⟩ := exists_store (elemCells t value) hchunk
    (show t.step * (t.coordOf v.len).2 + _ ≤ _ by rw [length_elemCells]; omega)
  refine ⟨_, memory, h.address ha, hstore, ?_⟩
  have hcells := length_elemCells t value
  exact {
    len := by
      rw [List.length_append, ← h.len]
      rfl
    chunks := h.chunks
    nodup := h.nodup
    sizes := fun k a hk => by
      rw [size_store hstore]
      exact h.sizes k a hk
    index := by
      intro k a hk hlast
      obtain ⟨hindex, htable⟩ := h.index k a hk hlast
      refine ⟨hindex, ?_⟩
      rw [load_store_of_apart hstore, htable]
      by_cases hsame : (t.coordOf v.len).1 = k
      · -- The slot is in the chunk of the index, and before it.
        have hover := hfits.2 (hsame ▸ hlast)
        subst hsame
        rw [← hlast, Nat.add_mul, Nat.mul_comm _ t.step] at hover
        exact .inr (.inr (by omega))
      · refine .inl fun heq => hsame ?_
        subst heq
        exact (List.getElem?_inj hfits.1 h.nodup).mp (ha.trans hk.symm)
    fits := by
      intro i hi
      rw [List.length_append, List.length_singleton] at hi
      obtain hi | rfl := Nat.lt_succ_iff_lt_or_eq.mp hi
      · exact h.fits i hi
      · exact h.len ▸ hfits
    elems := by
      intro i x a hx hk
      obtain hi | hi := Nat.lt_or_ge i values.length
      · rw [List.getElem?_append_left hi] at hx
        rw [load_store_of_apart hstore, h.elems i x a hx hk]
        by_cases hsame : (t.coordOf i).1 = (t.coordOf v.len).1
        · refine .inr ?_
          rw [hcells]
          exact slots_apart t (by have := h.len; omega) hsame
        · refine .inl fun heq => hsame ?_
          subst heq
          exact ((List.getElem?_inj hfits.1 h.nodup).mp (ha.trans hk.symm)).symm
      · rw [List.getElem?_append_right hi] at hx
        have hk' := (List.getElem?_eq_some_iff.mp hx).1
        rw [List.length_singleton] at hk'
        obtain rfl : i = v.len := by have := h.len; omega
        rw [show v.len - values.length = 0 by have := h.len; omega] at hx
        obtain rfl := Option.some.inj hx
        obtain rfl := Option.some.inj (ha.symm.trans hk)
        have hself := load_store hstore
        rwa [hcells] at hself }

/-- A push puts its element behind all others and leaves them. -/
theorem push_spec (h : Ok t v ids values) (value : V) : v.push t value = abort ∨
    ∃ v' more, v.push t value = .ok v' ∧ Ok t v' (ids ++ more) (values ++ [value]) := by
  unfold push
  obtain hnone | ⟨v₁, more, hensure, hok, hfits⟩ := ensureIndex_spec h v.len
  · exact .inl (by rw [hnone]; rfl)
  obtain ⟨a, memory, haddress, hstore, hfilled⟩ := hok.fill (by rwa [hok.len, ← h.len]) value
  rw [hensure, ok_bind, haddress, ok_bind]
  dsimp only
  rw [hstore]
  exact .inr ⟨_, more, rfl, hfilled⟩

omit [DecidableEq V] in
/-- A slot that fits is not made again. -/
theorem ensureIndex_of_fits (h : Ok t v ids values) {i : ℕ} (hfits : Fits t ids i) :
    v.ensureIndex t i = .ok v := by
  obtain ⟨hlt, hover⟩ := hfits
  have hchunks := h.chunks
  rw [ensureIndex]
  dsimp only
  rw [ensureChunk, hchunks, Nat.sub_eq_zero_of_le hlt, addChunks, ok_bind]
  by_cases hlast : (t.coordOf i).1 + 1 = ids.length
  · have hle := hover hlast
    have hlayout := (h.sizes _ _ (List.getElem?_eq_getElem hlt)).2
    rw [hchunks, if_pos hlast, clearIndex, hlayout, ok_bind]
    dsimp only
    rw [if_neg (by omega)]
  · rw [hchunks, if_neg hlast]

/-- A push to a slot that fits makes no chunk. -/
theorem push_of_fits (h : Ok t v ids values) (hfits : Fits t ids v.len) (value : V) :
    ∃ v', v.push t value = .ok v' ∧ Ok t v' ids (values ++ [value]) := by
  obtain ⟨a, memory, haddress, hstore, hfilled⟩ := h.fill hfits value
  refine ⟨_, ?_, hfilled⟩
  rw [push, ensureIndex_of_fits h hfits, ok_bind, haddress, ok_bind]
  dsimp only
  rw [hstore]
  rfl

/-- A reservation leaves all elements. -/
theorem reserve_spec (h : Ok t v ids values) (additional : ℕ) : v.reserve t additional = abort ∨
    ∃ v' more, v.reserve t additional = .ok v' ∧ Ok t v' (ids ++ more) values := by
  unfold reserve
  by_cases hzero : additional = 0
  · rw [if_pos hzero]
    exact .inr ⟨v, [], rfl, by rwa [List.append_nil]⟩
  · rw [if_neg hzero]
    obtain hnone | ⟨v', more, hensure, hok, -⟩ :=
      ensureIndex_spec h ((v.len + additional - 1) % 2 ^ 64)
    · exact .inl hnone
    · exact .inr ⟨v', more, hensure, hok⟩

/-- An element is read from its slot. -/
theorem Ok.read (h : Ok t v ids values) {i : ℕ} {x : V} (hx : values[i]? = some x) :
    v.read t i = .ok x := by
  have ha := List.getElem?_eq_getElem (h.fits i (List.getElem?_eq_some_iff.mp hx).1).1
  rw [MonoVec.read, h.address ha, ok_bind]
  dsimp only
  rw [h.elems i x _ hx ha, Option.bind_some, readElem_elemCells]
  rfl

/-- `get` returns the element at an index. -/
theorem Ok.get (h : Ok t v ids values) (i : ℕ) : v.get t i = .ok values[i]? := by
  rw [MonoVec.get, h.len]
  obtain hge | hlt := Nat.lt_or_ge i values.length |>.symm
  · rw [if_pos hge, List.getElem?_eq_none hge]
  · rw [if_neg (Nat.not_le.mpr hlt), h.read (List.getElem?_eq_getElem hlt),
      List.getElem?_eq_getElem hlt]
    rfl

/-- A pop returns the last element and leaves the others. -/
theorem pop_spec (h : Ok t v ids values) :
    ∃ v', v.pop t = .ok (values.getLast?, v') ∧ Ok t v' ids values.dropLast := by
  unfold pop
  rw [h.len]
  by_cases hzero : values.length = 0
  · obtain rfl := List.length_eq_zero_iff.mp hzero
    exact ⟨v, if_pos rfl, h⟩
  · have hlt : values.length - 1 < values.length := by omega
    rw [if_neg hzero, h.read (List.getElem?_eq_getElem hlt), List.getLast?_eq_getElem?,
      List.getElem?_eq_getElem hlt]
    refine ⟨_, rfl, ?_⟩
    exact {
      len := by rw [List.length_dropLast]
      chunks := h.chunks
      nodup := h.nodup
      sizes := h.sizes
      index := h.index
      fits := fun i hi => h.fits i (by rw [List.length_dropLast] at hi; omega)
      elems := by
        intro i x a hx ha
        have hi := (List.getElem?_eq_some_iff.mp hx).1
        rw [List.length_dropLast] at hi
        rw [List.getElem?_dropLast, if_pos hi] at hx
        exact h.elems i x a hx ha }

/-! ## Runs -/

/-- What an operation does to the elements, and returns. -/
def Op.model (values : List V) : Op V → Option V × List V
  | .push value => (none, values ++ [value])
  | .reserve _ => (none, values)
  | .pop => (values.getLast?, values.dropLast)

/-- What operations do to the elements, and return. -/
def modelRun : List V → List (Op V) → List (Option V) × List V
  | values, [] => ([], values)
  | values, op :: ops =>
    let (rs, values') := modelRun (op.model values).2 ops
    ((op.model values).1 :: rs, values')

theorem apply_spec (h : Ok t v ids values) (op : Op V) : v.apply t op = abort ∨
    ∃ v' more, v.apply t op = .ok ((op.model values).1, v') ∧
      Ok t v' (ids ++ more) (op.model values).2 := by
  cases op with
  | push value =>
    obtain hnone | ⟨v', more, heq, hok⟩ := push_spec h value
    · exact .inl (by rw [apply, hnone]; rfl)
    · exact .inr ⟨v', more, by rw [apply, heq]; rfl, hok⟩
  | reserve additional =>
    obtain hnone | ⟨v', more, heq, hok⟩ := reserve_spec h additional
    · exact .inl (by rw [apply, hnone]; rfl)
    · exact .inr ⟨v', more, by rw [apply, heq]; rfl, hok⟩
  | pop =>
    obtain ⟨v', heq, hok⟩ := pop_spec h
    exact .inr ⟨v', [], heq, by rwa [List.append_nil]⟩

/-- A run panics or does to the elements what it should. -/
theorem run_spec (h : Ok t v ids values) (ops : List (Op V)) : v.run t ops = abort ∨
    ∃ v' more, v.run t ops = .ok ((modelRun values ops).1, v') ∧
      Ok t v' (ids ++ more) (modelRun values ops).2 := by
  induction ops generalizing v ids values with
  | nil => exact .inr ⟨v, [], rfl, by rwa [List.append_nil]⟩
  | cons op ops ih =>
    rw [run]
    obtain hnone | ⟨v₁, more, happly, hok⟩ := apply_spec h op
    · exact .inl (by rw [hnone]; rfl)
    rw [happly, ok_bind]
    dsimp only
    obtain hnone | ⟨v', more', hrun, hok'⟩ := ih hok
    · exact .inl (by rw [hnone]; rfl)
    · refine .inr ⟨v', more ++ more', by rw [hrun]; rfl, ?_⟩
      rwa [← List.append_assoc]

/-! ## The end of a vector -/

/-- The pointer to a chunk is in the allocation of the index. -/
theorem chunkPointer_congr (v v' : MonoVec V) (hindex : v'.index = v.index)
    (hload : ∀ a o, v.index = some (a, o) → ∀ start len,
      load v'.memory a start len = load v.memory a start len) (k : ℕ) :
    v'.chunkPointer k = v.chunkPointer k := by
  rw [MonoVec.chunkPointer, MonoVec.chunkPointer, hindex]
  cases h : v.index with
  | none => rfl
  | some at_ =>
    simp only [Option.bind_eq_bind, Option.bind_some, hload _ _ h]

/-- Elements next to each other are dropped in order. -/
theorem dropElems_spec {a n i : ℕ} {xs : List V} {memory : Heap (Cell V)}
    (hsize : size memory a = some n) (hroom : t.step * (i + xs.length) ≤ n)
    (hn : t.step * (i + xs.length) < 2 ^ 63)
    (hload : ∀ j x, xs[j]? = some x →
      load memory a (t.step * (i + j)) t.step = some (elemCells t x)) :
    ∃ memory', dropElems t a xs.length i memory = .ok (xs, memory') ∧
      (∀ b, size memory' b = size memory b) ∧
      ∀ b start len, b ≠ a ∨ t.step * (i + xs.length) ≤ start →
        load memory' b start len = load memory b start len := by
  induction xs generalizing i memory with
  | nil => exact ⟨memory, rfl, fun _ => rfl, fun _ _ _ _ => rfl⟩
  | cons x xs ih =>
    have hfirst := hload 0 x rfl
    rw [Nat.add_zero] at hfirst
    rw [List.length_cons, Nat.add_comm xs.length, ← Nat.add_assoc] at hroom hn
    have hle : t.step * i + t.step ≤ t.step * (i + 1 + xs.length) := by
      rw [← Nat.mul_succ]
      exact Nat.mul_le_mul_left _ (by omega)
    have hlen := List.length_replicate (n := t.step) (a := (Cell.uninit : Cell V))
    obtain ⟨memory₁, hstore⟩ := exists_store (List.replicate t.step (Cell.uninit : Cell V)) hsize
      (show t.step * i + _ ≤ n by omega)
    obtain ⟨memory', hdrop, hsize', hload'⟩ := ih (i := i + 1)
      ((size_store hstore a).trans hsize) hroom hn fun j y hy => by
        have hnext := hload (j + 1) y hy
        rw [load_store_of_apart hstore]
        · rwa [Nat.add_assoc, Nat.add_comm 1 j]
        · refine .inr (.inr ?_)
          rw [hlen, ← Nat.mul_succ]
          exact Nat.mul_le_mul_left _ (by omega)
    refine ⟨memory', ?_, fun b => by rw [hsize', size_store hstore], fun b start len hb => ?_⟩
    · rw [List.length_cons, dropElems, Elem.elemAdd, if_pos (by unfold usizeMax; omega), ok_bind,
        hfirst, Option.bind_some, readElem_elemCells]
      simp only [okOr, ok_bind, hstore, hdrop]
      rfl
    · rw [List.length_cons, Nat.add_comm xs.length, ← Nat.add_assoc] at hb
      rw [hload' b start len hb]
      refine load_store_of_apart hstore ?_
      obtain hne | hge := hb
      · exact .inl hne
      · exact .inr (.inr (by omega))

omit [DecidableEq V] in
/-- The elements of a chunk. -/
theorem Ok.chunk (h : Ok t v ids values) {k a : ℕ} (ha : ids[k]? = some a) {j : ℕ} {x : V}
    (hj : j < 2 ^ (t.logBaseCap + k)) (hx : values[t.chunkBase k + j]? = some x) :
    load v.memory a (t.step * j) t.step = some (elemCells t x) := by
  have hcoord := t.coordOf_eq hj
  have helem := h.elems _ x a hx (by rwa [hcoord])
  rwa [hcoord] at helem

omit [DecidableEq V] in
/-- The elements of the last chunk are before the index. -/
theorem Ok.before (h : Ok t v ids values) {k j : ℕ} (hk : k + 1 = ids.length)
    (hj : j < 2 ^ (t.logBaseCap + k)) (hlt : t.chunkBase k + j < values.length) :
    t.step * (j + 1) ≤ t.dataSize k - 8 * (k + 1) := by
  obtain ⟨-, hover⟩ := h.fits _ hlt
  have hcoord := t.coordOf_eq hj
  rw [hcoord] at hover
  have hle := hover hk
  rw [Nat.mul_comm] at hle
  dsimp only at hle
  omega

/-- What is left of a vector from a chunk on is what it was. -/
def Left (v : MonoVec V) (ids : List ℕ) (k : ℕ) (memory : Heap (Cell V)) : Prop :=
  ∀ j a, ids[j]? = some a → k ≤ j → size memory a = size v.memory a ∧
    ∀ start len, load memory a start len = load v.memory a start len

/-- A chunk's elements are dropped, and it is freed. -/
theorem dropChunk_spec (h : Ok t v ids values) {k : ℕ} (hk : k < ids.length)
    {memory : Heap (Cell V)} (hleft : Left v ids k memory) :
    ∃ memory', ({ v with memory } : MonoVec V).dropChunk t k = .ok
        (if t.needsDrop then (values.drop (t.chunkBase k)).take (2 ^ (t.logBaseCap + k)) else [],
          { v with memory := memory' }) ∧
      Left v ids (k + 1) memory' ∧ size memory' ids[k] = none ∧
      ∀ b, size memory b = none → size memory' b = none := by
  have ha := List.getElem?_eq_getElem hk
  obtain ⟨hsize, hlayout⟩ := h.sizes k _ ha
  obtain ⟨-, -, -, hsmall⟩ := t.chunkLayout_eq hlayout
  have hpointer : ({ v with memory } : MonoVec V).chunkPointer k = .ok ids[k] := by
    refine (chunkPointer_congr v { v with memory } rfl ?_ k).trans (h.chunkPointer ha)
    intro b o hindex
    have hlast := List.getElem?_eq_getElem (show ids.length - 1 < ids.length by omega)
    have hb := (h.index _ _ hlast (by omega)).1
    obtain ⟨rfl, -⟩ := Prod.mk.inj (Option.some.inj (hindex.symm.trans hb))
    exact (hleft _ _ hlast (by omega)).2
  generalize hxs : (if t.needsDrop then
    (values.drop (t.chunkBase k)).take (2 ^ (t.logBaseCap + k)) else []) = xs
  have hcount : (if t.needsDrop then min (v.len - t.chunkBase k) (2 ^ (t.logBaseCap + k)) else 0) =
      xs.length := by
    rw [← hxs, h.len]
    split_ifs
    · rw [List.length_take, List.length_drop, Nat.min_comm]
    · rfl
  have hle : xs.length ≤ 2 ^ (t.logBaseCap + k) := by
    rw [← hcount]
    split_ifs
    · exact Nat.min_le_right _ _
    · exact Nat.zero_le _
  have hmul := Nat.mul_le_mul_left t.step hle
  have hdata := t.le_dataSize k
  have hload : ∀ j x, xs[j]? = some x →
      load memory ids[k] (t.step * (0 + j)) t.step = some (elemCells t x) := by
    intro j x hx
    have hj := (List.getElem?_eq_some_iff.mp hx).1
    rw [(hleft k _ ha (Nat.le_refl _)).2, Nat.zero_add]
    refine h.chunk ha (by omega) ?_
    rw [← hxs] at hx
    split_ifs at hx
    · rwa [List.getElem?_take_of_lt (by omega), List.getElem?_drop] at hx
    · cases hx
  obtain ⟨memory₁, hdrop, hsize₁, hload₁⟩ := dropElems_spec
    ((hleft k _ ha (Nat.le_refl _)).1.trans hsize) (by rw [Nat.zero_add]; omega)
    (by rw [Nat.zero_add]; omega) hload
  have hfreed : free memory₁ ids[k] (t.dataSize k) = some (memory₁.set ids[k] none) :=
    if_pos (by rw [hsize₁, (hleft k _ ha (Nat.le_refl _)).1, hsize])
  refine ⟨_, ?_, ?_, size_free_self hfreed, ?_⟩
  · rw [dropChunk]
    dsimp only
    rw [hpointer, ok_bind, hcount, hdrop, ok_bind]
    dsimp only
    rw [hlayout, ok_bind]
    dsimp only
    rw [hfreed]
    rfl
  · intro j a hj hle'
    have hne : a ≠ ids[k] := by
      rintro rfl
      have heq := (List.getElem?_inj hk h.nodup).mp (ha.trans hj.symm)
      omega
    refine ⟨?_, fun start len => ?_⟩
    · rw [size_free hfreed hne, hsize₁, (hleft j a hj (by omega)).1]
    · rw [load_free hfreed hne, hload₁ a start len (.inl hne), (hleft j a hj (by omega)).2]
  · intro b hb
    by_cases hne : b = ids[k]
    · rw [hne]
      exact size_free_self hfreed
    · rw [size_free hfreed hne, hsize₁, hb]

/-- All elements are dropped in order, each once, and every chunk is freed. -/
theorem dropChunks_spec (h : Ok t v ids values) (n k : ℕ) (hn : n + k = ids.length)
    {memory : Heap (Cell V)} (hleft : Left v ids k memory) :
    ∃ memory', dropChunks t n k { v with memory } = .ok
        (if t.needsDrop then values.drop (t.chunkBase k) else [], { v with memory := memory' }) ∧
      (∀ j a, ids[j]? = some a → k ≤ j → size memory' a = none) ∧
      ∀ b, size memory b = none → size memory' b = none := by
  induction n generalizing k memory with
  | zero =>
    have hdrop : values.drop (t.chunkBase k) = [] := by
      refine List.drop_eq_nil_iff.mpr ?_
      by_contra hlt
      obtain ⟨hchunk, -⟩ := h.fits (t.chunkBase k) (Nat.lt_of_not_le hlt)
      have hcoord := t.coordOf_eq (Nat.two_pow_pos (t.logBaseCap + k))
      rw [Nat.add_zero] at hcoord
      rw [hcoord] at hchunk
      dsimp only at hchunk
      omega
    refine ⟨memory, ?_, fun j a hj hle => ?_, fun _ hb => hb⟩
    · rw [hdrop, ite_self]
      rfl
    · have := (List.getElem?_eq_some_iff.mp hj).1
      omega
  | succ n ih =>
    have hk : k < ids.length := by omega
    obtain ⟨memory₁, hchunk, hleft₁, hgone, hkeep⟩ := dropChunk_spec h hk hleft
    obtain ⟨memory', hrest, hfreed, hkeep'⟩ := ih (k + 1) (by omega) hleft₁
    refine ⟨memory', ?_, fun j a hj hle => ?_, fun b hb => hkeep' b (hkeep b hb)⟩
    · rw [dropChunks, hchunk, ok_bind]
      dsimp only
      rw [hrest, ok_bind]
      dsimp only
      split_ifs
      · rw [t.chunkBase_succ, ← List.drop_drop, List.take_append_drop]
        rfl
      · rfl
    · obtain hlt | rfl := Nat.lt_or_eq_of_le hle
      · exact hfreed j a hj hlt
      · rw [List.getElem?_eq_getElem hk] at hj
        obtain rfl := Option.some.inj hj
        exact hkeep' _ hgone

/-- `drop` drops each element once and frees each chunk. -/
theorem drop_spec (h : Ok t v ids values) : ∃ memory',
    v.drop t = .ok (if t.needsDrop then values else [], memory') ∧
      ∀ a ∈ ids, size memory' a = none := by
  have hzero : t.chunkBase 0 = 0 := by rw [Elem.chunkBase, Nat.pow_zero, Nat.sub_self, Nat.zero_mul]
  obtain ⟨memory', hdrop, hfreed, -⟩ := dropChunks_spec h ids.length 0 rfl
    (show Left v ids 0 v.memory from fun _ _ _ _ => ⟨rfl, fun _ _ => rfl⟩)
  rw [hzero, List.drop_zero] at hdrop
  refine ⟨memory', ?_, fun a ha => ?_⟩
  · rw [MonoVec.drop, h.chunks]
    exact congrArg (· >>= _) hdrop
  · obtain ⟨j, hj⟩ := List.getElem?_of_mem ha
    exact hfreed j a hj (Nat.zero_le j)

/-! ## The capacity -/

omit [DecidableEq V] in
/-- The capacity counts elements of the last chunk, and all of those before. -/
theorem capacity_succ {k : ℕ} (hk : v.chunks = k + 1) :
    v.capacity t = .ok (t.chunkBase k + t.counted k) := by
  have hle := t.index_elems_le k
  have hbase := t.chunkBase_succ k
  rw [capacity, hk, checkedSub, if_pos (by omega), hbase]
  exact congrArg Except.ok (Nat.add_sub_assoc hle _)

omit [DecidableEq V] in
/-- The elements of the last chunk are before its index. -/
theorem Ok.len_le (h : Ok t v ids values) {k : ℕ} (hk : ids.length = k + 1) :
    v.len ≤ t.chunkBase k + t.beforeIndex k := by
  rw [h.len]
  by_contra hlt
  have hj : values.length - 1 - t.chunkBase k < 2 ^ (t.logBaseCap + k) := by
    obtain ⟨hchunk, -⟩ := h.fits (values.length - 1) (by omega)
    obtain ⟨hcoord, hoff⟩ := t.coordOf_spec (values.length - 1)
    have hmono := t.chunkBase_mono (show (t.coordOf (values.length - 1)).1 ≤ k by omega)
    obtain heq | hne := Nat.eq_or_lt_of_le (show (t.coordOf (values.length - 1)).1 ≤ k by omega)
    · rw [heq] at hcoord hoff
      omega
    · have hmono' := t.chunkBase_mono hne
      rw [Nat.succ_eq_add_one, t.chunkBase_succ] at hmono'
      omega
  have hbefore := h.before hk.symm hj (by omega)
  have hle := (Nat.le_div_iff_mul_le t.step_pos).mpr (Nat.mul_comm t.step _ ▸ hbefore)
  rw [← Elem.beforeIndex] at hle
  omega

omit [DecidableEq V] in
/-- For most sizes of elements the capacity is never below the length. -/
theorem Ok.len_le_capacity (h : Ok t v ids values) (hspares : ¬Elem.Spares t.step) :
    ∃ c, v.capacity t = .ok c ∧ v.len ≤ c := by
  cases hids : ids.length with
  | zero =>
    obtain rfl := List.length_eq_zero_iff.mp hids
    have hlen : v.len = 0 := by
      rw [h.len]
      by_contra hne
      exact absurd (h.fits 0 (Nat.pos_of_ne_zero hne)).1 (Nat.not_lt_zero _)
    have hzero : (8 * 0 + t.step - 1) / t.step = 0 :=
      Nat.div_eq_of_lt (by have := t.step_pos; omega)
    refine ⟨t.chunkBase 0 - 0, ?_, by omega⟩
    rw [capacity, h.chunks, List.length_nil, hzero, checkedSub, if_pos (Nat.zero_le _)]
    rfl
  | succ k =>
    have hle := h.len_le hids
    have hcounted := t.beforeIndex_le_counted hspares k
    exact ⟨_, capacity_succ (h.chunks.trans hids), by omega⟩

end

/-! ## Elements beyond the capacity -/

section

variable [DecidableEq V]

/-- A reservation up to a place before the index makes no chunk behind it. -/
theorem reserve_new (memory : Heap (Cell V)) {k j : ℕ} (hj : j < 2 ^ (t.logBaseCap + k))
    (hfits : (j + 1) * t.step + 8 * (k + 1) ≤ t.dataSize k) (hn : t.chunkBase k + j + 1 < 2 ^ 64)
    (hlayout : ∀ i, i ≤ k → t.chunkLayout i ≠ abort) : ∃ v ids,
      (new memory).reserve t (t.chunkBase k + j + 1) = .ok v ∧ Ok t v ids [] ∧
      ids.length = k + 1 := by
  have hwrap : ((new memory).len + (t.chunkBase k + j + 1) - 1) % 2 ^ 64 = t.chunkBase k + j := by
    rw [show (new memory).len = 0 from rfl, Nat.mod_eq_of_lt (by omega)]
    omega
  rw [reserve, if_neg (by omega), hwrap, ensureIndex, t.coordOf_eq hj]
  dsimp only
  obtain ⟨-, i, hi, hlarge⟩ | ⟨v, ids, hensure, hok, hlen⟩ := ensureChunk_spec (ok_new t memory) k
  · exact absurd hlarge (hlayout i hi)
  rw [List.nil_append] at hok
  rw [List.length_nil, Nat.sub_zero] at hlen
  obtain hnone | ⟨heq, -⟩ := t.chunkLayout_cases k
  · exact absurd hnone (hlayout k (Nat.le_refl k))
  refine ⟨v, ids, ?_, hok, hlen⟩
  rw [hensure, ok_bind, hok.chunks, hlen, if_pos rfl, clearIndex, heq, ok_bind]
  dsimp only
  rw [if_neg (by omega)]

/-- Pushes to slots that fit make no chunk. -/
theorem pushes_of_fits {v : MonoVec V} {ids : List ℕ} {values : List V} (h : Ok t v ids values)
    (value : V) (n : ℕ) (hfits : ∀ i, i < values.length + n → Fits t ids i) : ∃ v',
      v.run t (List.replicate n (.push value)) = .ok (List.replicate n none, v') ∧
      Ok t v' ids (values ++ List.replicate n value) := by
  induction n generalizing v values with
  | zero => exact ⟨v, rfl, by rwa [List.replicate_zero, List.append_nil]⟩
  | succ n ih =>
    obtain ⟨v₁, hpush, hok⟩ := push_of_fits h (hfits v.len (by rw [h.len]; omega)) value
    obtain ⟨v', hrun, hok'⟩ := ih hok fun i hi => hfits i (by
      rw [List.length_append, List.length_singleton] at hi
      omega)
    refine ⟨v', ?_, ?_⟩
    · rw [List.replicate_succ, run, apply, hpush]
      simp only [ok_bind, pure, Except.pure, hrun]
      rfl
    · rwa [List.append_assoc, List.singleton_append, ← List.replicate_succ] at hok'

/-- For the sizes that spare an element, a vector can have more elements than its capacity. -/
theorem exists_capacity_lt (value : V) (hspares : Elem.Spares t.step) : ∃ ops rs v c,
    (new []).run t ops = .ok (rs, v) ∧ v.capacity t = .ok c ∧ c < (v : MonoVec V).len := by
  obtain ⟨k, j, hj, hfits, hcounted, hn, hlayout⟩ := t.exists_of_spares hspares
  obtain ⟨v, ids, hreserve, hok, hlen⟩ := reserve_new (V := V) [] hj hfits hn hlayout
  obtain ⟨v', hrun, hok'⟩ := pushes_of_fits hok value (t.chunkBase k + j + 1) fun i hi => by
    rw [List.length_nil, Nat.zero_add] at hi
    obtain ⟨hcoord, hoff⟩ := t.coordOf_spec i
    have hchunk : (t.coordOf i).1 ≤ k := by
      by_contra hlt
      have hmono := t.chunkBase_mono (Nat.lt_of_not_le hlt)
      rw [Nat.succ_eq_add_one, t.chunkBase_succ] at hmono
      omega
    refine ⟨by omega, fun hlast => ?_⟩
    obtain hk : (t.coordOf i).1 = k := by omega
    rw [hk] at hcoord ⊢
    have hmul := Nat.mul_le_mul_right t.step (show (t.coordOf i).2 + 1 ≤ j + 1 by omega)
    rw [hlen]
    omega
  refine ⟨.reserve (t.chunkBase k + j + 1) ::
    List.replicate (t.chunkBase k + j + 1) (.push value), none :: List.replicate (t.chunkBase k + j + 1) none,
    v', _, ?_, capacity_succ (hok'.chunks.trans hlen), ?_⟩
  · rw [run, apply, hreserve]
    simp only [ok_bind, pure, Except.pure, hrun]
  · rw [hok'.len, List.nil_append, List.length_replicate]
    omega

end

/-! ## What a vector promises -/

/-- What a vector with some elements promises whatever is done to it later. -/
structure Sound [DecidableEq V] (t : Elem) (v : MonoVec V) (values : List V) : Prop where
  len : v.len = values.length
  /-- `get` returns the elements. -/
  get : ∀ i, v.get t i = .ok values[i]?
  /-- An element is within its chunk, and before the index if that is in the same one. -/
  slot : ∀ i, i < v.len → ∃ a start n, v.address t i = .ok (a, start) ∧
    size v.memory a = some n ∧ start + t.step ≤ n ∧
    ∀ o, v.index = some (a, o) → start + t.step ≤ o
  /-- The elements do not overlap. -/
  apart : ∀ i j, i < v.len → j < v.len → i ≠ j → ∃ a start b start',
    v.address t i = .ok (a, start) ∧ v.address t j = .ok (b, start') ∧
    (a ≠ b ∨ start + t.step ≤ start' ∨ start' + t.step ≤ start)
  /-- Elements stay where they are, and those that are not popped are what they were. -/
  stays : ∀ ops rs v', v.run t ops = .ok (rs, v') → ∀ i, i < v.len →
    v'.address t i = v.address t i ∧ (.pop ∉ ops → v'.get t i = v.get t i)
  /-- Each element is dropped once, in order, and each chunk is freed. -/
  drop : ∃ memory', v.drop t = .ok (if t.needsDrop then values else [], memory') ∧
    ∀ k, k < v.chunks → ∃ a, v.chunkPointer k = .ok a ∧ size memory' a = none

/-- Operations other than pops leave the elements that there are. -/
theorem modelRun_of_no_pop (values : List V) {ops : List (Op V)} (hops : .pop ∉ ops) :
    values <+: (modelRun values ops).2 := by
  induction ops generalizing values with
  | nil => exact List.prefix_rfl
  | cons op ops ih =>
    rw [List.mem_cons, not_or] at hops
    refine List.IsPrefix.trans ?_ (ih (op.model values).2 hops.2)
    cases op with
    | push value => exact List.prefix_append _ _
    | reserve additional => exact List.prefix_rfl
    | pop => exact absurd rfl hops.1

/-- A vector with everything in its place is sound. -/
theorem Ok.sound [DecidableEq V] {v : MonoVec V} {ids : List ℕ} {values : List V}
    (h : Ok t v ids values) : Sound t v values where
  len := h.len
  get := h.get
  slot := by
    intro i hi
    obtain ⟨hlt, hover⟩ := h.fits i (h.len ▸ hi)
    have ha := List.getElem?_eq_getElem hlt
    have hle := slot_le t i
    have hdata := t.le_dataSize (t.coordOf i).1
    refine ⟨_, _, _, h.address ha, (h.sizes _ _ ha).1, by omega, fun o ho => ?_⟩
    have hlast := List.getElem?_eq_getElem (show ids.length - 1 < ids.length by omega)
    have hindex := (h.index _ _ hlast (by omega)).1
    obtain ⟨hsame, rfl⟩ := Prod.mk.inj (Option.some.inj (ho.symm.trans hindex))
    have hk := (List.getElem?_inj hlt h.nodup).mp ((ha.trans (congrArg some hsame)).trans hlast.symm)
    have hfit := hover (by omega)
    rw [Nat.add_mul, Nat.mul_comm _ t.step, Nat.one_mul] at hfit
    rw [← hk, show (t.coordOf i).1 + 1 = ids.length by omega]
    omega
  apart := by
    intro i j hi hj hij
    have hlti := (h.fits i (h.len ▸ hi)).1
    have hltj := (h.fits j (h.len ▸ hj)).1
    have ha := List.getElem?_eq_getElem hlti
    have hb := List.getElem?_eq_getElem hltj
    refine ⟨_, _, _, _, h.address ha, h.address hb, ?_⟩
    by_cases hsame : (t.coordOf i).1 = (t.coordOf j).1
    · exact .inr (slots_apart t hij hsame)
    · refine .inl fun heq => hsame ?_
      exact (List.getElem?_inj hlti h.nodup).mp ((ha.trans (congrArg some heq)).trans hb.symm)
  stays := by
    intro ops rs v' hrun i hi
    have hlt := (h.fits i (h.len ▸ hi)).1
    obtain hnone | ⟨v'', more, hrun', hok⟩ := run_spec h ops
    · rw [hnone] at hrun
      cases hrun
    rw [hrun'] at hrun
    obtain ⟨-, rfl⟩ := Prod.mk.inj (Except.ok.inj hrun)
    refine ⟨?_, fun hops => ?_⟩
    · have ha := List.getElem?_eq_getElem hlt
      have ha' : (ids ++ more)[(t.coordOf i).1]? = some ids[(t.coordOf i).1] := by
        rw [List.getElem?_append_left hlt, ha]
      rw [h.address ha, hok.address ha']
    · obtain ⟨rest, hrest⟩ := modelRun_of_no_pop values hops
      rw [h.get, hok.get, ← hrest, List.getElem?_append_left (h.len ▸ hi)]
  drop := by
    obtain ⟨memory', hdrop, hfreed⟩ := drop_spec h
    refine ⟨memory', hdrop, fun k hk => ?_⟩
    have hk' : k < ids.length := h.chunks ▸ hk
    have ha := List.getElem?_eq_getElem hk'
    exact ⟨_, h.chunkPointer ha, hfreed _ (List.getElem_mem hk')⟩

/-- Whatever is pushed, reserved and popped, from a memory with whatever is in it: different indices
have different coordinates, no access is out of place, what is returned is right, and the vector is
sound. For its capacity to be never below its length, it must be of elements the padding of whose chunks
has no room for one more, since `capacity` does not count what is there because of padding. -/
theorem growth_iff (t : Elem) [DecidableEq V] (value : V) :
    (∀ i j, t.coordOf i = t.coordOf j → i = j) ∧
      (∀ memory ops, (new memory).run t ops = abort ∨
        ∃ v : MonoVec V, (new memory).run t ops = .ok ((modelRun [] ops).1, v) ∧
          Sound t v (modelRun [] ops).2) ∧
      ((∀ memory ops rs v, (new memory).run t ops = .ok (rs, v) →
        ∃ c, (v : MonoVec V).capacity t = .ok c ∧ v.len ≤ c) ↔ ¬Elem.Spares t.step) := by
  refine ⟨fun i j => t.coordOf_inj, fun memory ops => ?_, fun h hspares => ?_,
    fun hspares memory ops rs v hrun => ?_⟩
  · obtain hnone | ⟨v, ids, hrun, hok⟩ := run_spec (ok_new t memory) ops
    · exact .inl hnone
    · exact .inr ⟨v, hrun, hok.sound⟩
  · obtain ⟨ops, rs, v, c, hrun, hcapacity, hlt⟩ := exists_capacity_lt value hspares
    obtain ⟨c', hcapacity', hle⟩ := h [] ops rs v hrun
    rw [hcapacity] at hcapacity'
    obtain rfl := Except.ok.inj hcapacity'
    exact Nat.not_lt.mpr hle hlt
  · obtain hnone | ⟨v', ids, hrun', hok⟩ := run_spec (ok_new t memory) ops
    · rw [hnone] at hrun
      cases hrun
    · rw [hrun'] at hrun
      obtain ⟨-, rfl⟩ := Prod.mk.inj (Except.ok.inj hrun)
      exact hok.len_le_capacity hspares

/-- Elements of 5 bytes. -/
def fiveBytes : Elem where
  size := 5
  align := 1
  needsDrop := false
  align_pow := ⟨0, rfl⟩
  align_dvd := ⟨5, rfl⟩
  size_lt := by decide
  align_lt := by decide

/-- Three elements of 5 bytes are pushed, and the capacity is 2. -/
theorem three_beyond_capacity : ((new (V := Unit) []).run fiveBytes
    [.push (), .push (), .push ()]).map (fun r => (r.2.len, r.2.capacity fiveBytes)) =
      .ok (3, .ok 2) := by
  decide +kernel

end Dolang.Util.MonoVec
