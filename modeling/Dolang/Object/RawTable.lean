import Mathlib.Algebra.Group.Nat.Defs
import Mathlib.Data.List.Nodup
import Mathlib.Data.Nat.Log
import Mathlib.Tactic.Common

/-!
# The raw hash table

The part of the vendored `hashbrown::raw` that dictionaries and sets rest on. A table is a row of
slots: an entry stands in a full slot, and an erased one leaves its slot empty or deleted. A bucket
is a pointer to a slot, so it belongs to the allocation that it was made for and is dangling once
the slot has been erased or the table has been replaced by another one.

Where a probe sequence leads is a parameter (`Probing`), and so is the choice between an empty and a
deleted slot.
-/

namespace Dolang.Object

abbrev Hash := BitVec 64

/-- A slot of a table. -/
inductive Slot (T : Type) where
  | empty
  | deleted
  | full (entry : T)

namespace Slot

variable {T : Type}

def isEmpty : Slot T → Bool
  | empty => true
  | _ => false

def isFull : Slot T → Bool
  | full _ => true
  | _ => false

def stored? : Slot T → Option T
  | full entry => some entry
  | _ => none

def map (f : T → T) : Slot T → Slot T
  | full entry => full (f entry)
  | slot => slot

@[simp]
theorem isEmpty_map (f : T → T) (s : Slot T) : (s.map f).isEmpty = s.isEmpty := by
  cases s <;> rfl

@[simp]
theorem isFull_map (f : T → T) (s : Slot T) : (s.map f).isFull = s.isFull := by
  cases s <;> rfl

@[simp]
theorem stored?_map (f : T → T) (s : Slot T) : (s.map f).stored? = s.stored?.map f := by
  cases s <;> rfl

theorem isFull_iff {s : Slot T} : s.isFull = true ↔ ∃ e, s.stored? = some e := by
  cases s <;> simp [isFull, stored?]

end Slot

/-- A pointer to a slot of an allocation. -/
structure Bucket where
  allocation : ℕ
  slot : ℕ
  deriving DecidableEq

/-- The number of buckets for a number of items, `capacity_to_buckets`. -/
def capacityToBuckets (cap : ℕ) : ℕ :=
  if cap < 15 then
    let cap := max 3 cap
    if cap < 4 then 4 else if cap < 8 then 8 else 16
  else 2 ^ Nat.clog 2 (cap * 8 / 7)

/-- The number of items for a number of buckets, `bucket_mask_to_capacity`. -/
def bucketMaskToCapacity (bucketMask : ℕ) : ℕ :=
  if bucketMask < 8 then bucketMask else (bucketMask + 1) / 8 * 7

/-- A part of the buckets stays empty. -/
theorem bucketMaskToCapacity_le (buckets : ℕ) : bucketMaskToCapacity (buckets - 1) ≤ buckets := by
  unfold bucketMaskToCapacity
  split_ifs <;> omega

/-- The buckets for a number of items have room for them. -/
theorem le_capacity (cap : ℕ) : cap ≤ bucketMaskToCapacity (capacityToBuckets cap - 1) := by
  unfold capacityToBuckets
  split_ifs with hsmall
  · unfold bucketMaskToCapacity
    dsimp only
    split_ifs <;> omega
  · have hle : cap * 8 / 7 ≤ 2 ^ Nat.clog 2 (cap * 8 / 7) := Nat.le_pow_clog (by decide) _
    generalize Nat.clog 2 (cap * 8 / 7) = k at hle
    -- What the division rounds off is less than the eighth that stays empty.
    have hthree : 3 ≤ k := by
      by_contra hlt
      have hpow : 2 ^ k ≤ 2 ^ 2 := Nat.pow_le_pow_right (by decide) (by omega)
      omega
    obtain ⟨j, rfl⟩ := Nat.exists_eq_add_of_le hthree
    rw [Nat.pow_add] at hle ⊢
    unfold bucketMaskToCapacity
    split_ifs <;> omega

/-- A change that keeps a property of the slots keeps the number of slots with it. -/
theorem countP_modify {α : Type} {p : α → Bool} {f : α → α} (h : ∀ a, p (f a) = p a)
    (l : List α) (i : ℕ) : (l.modify i f).countP p = l.countP p := by
  induction l generalizing i with
  | nil => simp
  | cons a l ih =>
    cases i with
    | zero => simp [List.countP_cons, h]
    | succ i => simp [List.countP_cons, ih]

/-- A table, which has an empty slot for each item that it still takes. -/
structure RawTable (T : Type) where
  allocation : ℕ
  slots : List (Slot T)
  growthLeft : ℕ
  room : growthLeft ≤ slots.countP Slot.isEmpty

namespace RawTable

variable {T : Type}

/-- A table without an allocation of its own. -/
def new : RawTable T where
  allocation := 0
  slots := [.empty]
  growthLeft := 0
  room := Nat.zero_le _

/-- A table with room for a number of items, in a new allocation. -/
def withCapacity (allocation cap : ℕ) : RawTable T where
  allocation := allocation
  slots := List.replicate (capacityToBuckets cap) .empty
  growthLeft := bucketMaskToCapacity (capacityToBuckets cap - 1)
  room := by
    rw [List.countP_replicate]
    exact bucketMaskToCapacity_le _

def buckets (t : RawTable T) : ℕ := t.slots.length

def len (t : RawTable T) : ℕ := t.slots.countP Slot.isFull

def capacity (t : RawTable T) : ℕ := t.len + t.growthLeft

/-- What a bucket points to, unless it is dangling. -/
def read (t : RawTable T) (b : Bucket) : Option T :=
  if b.allocation = t.allocation then t.slots[b.slot]?.bind Slot.stored? else none

/-- Changes an entry in place. -/
def modify (t : RawTable T) (b : Bucket) (f : T → T) : RawTable T :=
  if b.allocation = t.allocation then
    { t with
      slots := t.slots.modify b.slot (Slot.map f)
      room := by
        rw [countP_modify fun s => Slot.isEmpty_map f s]
        exact t.room }
  else t

/-- Puts an entry into a slot, which is empty or deleted. -/
def insertAt (t : RawTable T) (i : ℕ) (entry : T) : RawTable T where
  allocation := t.allocation
  slots := t.slots.set i (.full entry)
  growthLeft := t.growthLeft - if t.slots[i]?.any Slot.isEmpty then 1 else 0
  room := by
    have hroom := t.room
    by_cases hi : i < t.slots.length
    · rw [List.countP_set hi, List.getElem?_eq_getElem hi, Option.any_some]
      simp only [Slot.isEmpty, Bool.false_eq_true, if_false]
      split_ifs <;> omega
    · rw [List.set_eq_of_length_le (by omega)]
      omega

/-- Where `insertAt` puts an entry. -/
def bucket (t : RawTable T) (i : ℕ) : Bucket :=
  ⟨t.allocation, i⟩

/-- Takes an entry out. The slot is empty afterwards if that cuts no probe sequence (`frees`). -/
def remove (t : RawTable T) (b : Bucket) (frees : Bool) : RawTable T :=
  match h : t.read b with
  | none => t
  | some _ =>
    { t with
      slots := t.slots.set b.slot (if frees then .empty else .deleted)
      growthLeft := t.growthLeft + if frees then 1 else 0
      room := by
        have hroom := t.room
        have hi : b.slot < t.slots.length := by
          by_contra hlt
          rw [read, List.getElem?_eq_none (by omega)] at h
          simp at h
        have hfull : t.slots[b.slot].isEmpty = false := by
          rw [read, List.getElem?_eq_getElem hi] at h
          cases hs : t.slots[b.slot] <;> simp_all [Slot.stored?, Slot.isEmpty]
        rw [List.countP_set hi, hfull]
        cases frees <;> simp [Slot.isEmpty] <;> omega }

/-- Takes all entries out. -/
def clear (t : RawTable T) : RawTable T :=
  if t.len = 0 then t
  else
    { t with
      slots := List.replicate t.buckets .empty
      growthLeft := bucketMaskToCapacity (t.buckets - 1)
      room := by
        rw [List.countP_replicate]
        exact bucketMaskToCapacity_le _ }

/-- The buckets that are full, in the order of the slots. -/
def iter (t : RawTable T) : List Bucket :=
  ((List.range t.buckets).filter fun i => t.slots[i]?.any Slot.isFull).map t.bucket

variable {t : RawTable T} {b c : Bucket} {i : ℕ} {x : T}

theorem read_eq_some :
    t.read b = some x ↔ b.allocation = t.allocation ∧ t.slots[b.slot]? = some (.full x) := by
  unfold read
  split_ifs with h
  · cases hs : t.slots[b.slot]? with
    | none => simp
    | some s => cases s <;> simp [Slot.stored?, h]
  · simp [h]

@[simp]
theorem read_new : (new : RawTable T).read b = none := by
  refine Option.eq_none_iff_forall_ne_some.mpr fun x hx => ?_
  obtain ⟨-, hs⟩ := read_eq_some.mp hx
  cases hb : b.slot <;> simp [new, hb] at hs

@[simp]
theorem read_withCapacity {a cap : ℕ} : (withCapacity a cap : RawTable T).read b = none := by
  refine Option.eq_none_iff_forall_ne_some.mpr fun x hx => ?_
  obtain ⟨-, hs⟩ := read_eq_some.mp hx
  have hmem := List.mem_of_getElem? hs
  simp [withCapacity] at hmem

@[simp]
theorem allocation_modify {f : T → T} : (t.modify b f).allocation = t.allocation := by
  unfold modify
  split_ifs <;> rfl

/-- A change in place shows in its own bucket. -/
theorem read_modify {f : T → T} :
    (t.modify b f).read c = if b = c then (t.read c).map f else t.read c := by
  unfold modify
  split_ifs with ha hbc hbc
  · subst hbc
    simp only [read, ha, if_true, List.getElem?_modify_eq]
    cases t.slots[b.slot]? <;> simp
  · have hslot : c.allocation = t.allocation → b.slot ≠ c.slot := by
      intro hc heq
      cases b
      cases c
      simp_all
    unfold read
    split_ifs with hc
    · rw [List.getElem?_modify_ne _ _ (hslot hc)]
    · rfl
  · subst hbc
    simp [read, ha]
  · rfl

@[simp]
theorem len_modify {f : T → T} : (t.modify b f).len = t.len := by
  unfold modify len
  split_ifs
  · exact countP_modify (fun s => Slot.isFull_map f s) _ _
  · rfl

@[simp]
theorem growthLeft_modify {f : T → T} : (t.modify b f).growthLeft = t.growthLeft := by
  unfold modify
  split_ifs <;> rfl

/-- A slot that an entry can be put into. -/
def Vacant (t : RawTable T) (i : ℕ) : Prop :=
  ∃ s, t.slots[i]? = some s ∧ s.isFull = false

/-- No bucket points to an entry in a vacant slot. -/
theorem Vacant.read_eq_none (h : t.Vacant i) : t.read (t.bucket i) = none := by
  obtain ⟨s, hs, hfull⟩ := h
  rw [read, bucket, if_pos rfl, hs, Option.bind_some]
  cases s <;> simp_all [Slot.isFull, Slot.stored?]

/-- A table that differs in one slot. -/
theorem read_set {t' : RawTable T} {s : Slot T} (ha : t'.allocation = t.allocation)
    (hs : t'.slots = t.slots.set i s) (hi : i < t.slots.length) :
    t'.read c = if c = t.bucket i then s.stored? else t.read c := by
  unfold read
  rw [ha, hs]
  by_cases hc : c = t.bucket i
  · subst hc
    rw [if_pos rfl, bucket, if_pos rfl, List.getElem?_set_self hi, Option.bind_some]
  · rw [if_neg hc]
    split_ifs with hac
    · have hslot : i ≠ c.slot := by
        rintro rfl
        exact hc (by rw [bucket, ← hac])
      rw [List.getElem?_set_ne hslot]
    · rfl

@[simp]
theorem allocation_insertAt : (t.insertAt i x).allocation = t.allocation := rfl

/-- A change in place leaves a vacant slot vacant. -/
theorem Vacant.modify (h : t.Vacant i) (b : Bucket) (f : T → T) : (t.modify b f).Vacant i := by
  obtain ⟨s, hs, hfull⟩ := h
  unfold RawTable.modify
  split_ifs
  · by_cases hi : b.slot = i
    · subst hi
      exact ⟨s.map f, by rw [List.getElem?_modify_eq, hs]; rfl, by rw [Slot.isFull_map, hfull]⟩
    · exact ⟨s, by rw [List.getElem?_modify_ne _ _ hi, hs], hfull⟩
  · exact ⟨s, hs, hfull⟩

theorem read_insertAt (h : t.Vacant i) :
    (t.insertAt i x).read c = if c = t.bucket i then some x else t.read c := by
  obtain ⟨s, hs, -⟩ := h
  have hi := (List.getElem?_eq_some_iff.mp hs).1
  have hslots : (t.insertAt i x).slots = t.slots.set i (.full x) := rfl
  exact read_set allocation_insertAt hslots hi

theorem len_insertAt (h : t.Vacant i) : (t.insertAt i x).len = t.len + 1 := by
  obtain ⟨s, hs, hfull⟩ := h
  obtain ⟨hi, rfl⟩ := List.getElem?_eq_some_iff.mp hs
  have hcount := List.countP_set (p := Slot.isFull) (a := .full x) hi
  rw [hfull] at hcount
  exact hcount

theorem growthLeft_insertAt : t.growthLeft ≤ (t.insertAt i x).growthLeft + 1 := by
  unfold insertAt
  dsimp only
  split_ifs <;> omega

theorem remove_eq {frees : Bool} (h : t.read b = none) : t.remove b frees = t := by
  unfold remove
  split
  · rfl
  · simp_all

@[simp]
theorem allocation_remove {frees : Bool} : (t.remove b frees).allocation = t.allocation := by
  unfold remove
  split <;> rfl

/-- The slots after an entry has been taken out. -/
theorem slots_remove {frees : Bool} (h : t.read b = some x) :
    (t.remove b frees).slots = t.slots.set b.slot (if frees then .empty else .deleted) := by
  unfold remove
  split
  · simp_all
  · rfl

theorem read_remove {frees : Bool} :
    (t.remove b frees).read c = if b = c then none else t.read c := by
  cases h : t.read b with
  | none =>
    rw [remove_eq h]
    split_ifs with hbc
    · exact hbc ▸ h
    · rfl
  | some x =>
    obtain ⟨ha, hs⟩ := read_eq_some.mp h
    have hb : b = t.bucket b.slot := by rw [bucket, ← ha]
    rw [read_set allocation_remove (slots_remove h) (List.getElem?_eq_some_iff.mp hs).1, ← hb]
    by_cases hbc : b = c
    · rw [if_pos hbc.symm, if_pos hbc]
      cases frees <;> rfl
    · rw [if_neg (Ne.symm hbc), if_neg hbc]

theorem len_remove {frees : Bool} (h : t.read b = some x) :
    (t.remove b frees).len + 1 = t.len := by
  obtain ⟨-, hs⟩ := read_eq_some.mp h
  obtain ⟨hi, hx⟩ := List.getElem?_eq_some_iff.mp hs
  have hfull : t.slots[b.slot].isFull = true := by rw [hx]; rfl
  have hpos : 0 < t.slots.countP Slot.isFull :=
    List.countP_pos_iff.mpr ⟨_, List.getElem_mem hi, hfull⟩
  unfold len
  rw [slots_remove h, List.countP_set hi, hfull]
  cases frees <;> simp [Slot.isFull] <;> omega

theorem len_eq_zero (h : t.len = 0) : t.read b = none := by
  refine Option.eq_none_iff_forall_ne_some.mpr fun x hx => ?_
  obtain ⟨-, hs⟩ := read_eq_some.mp hx
  have hfull := List.countP_eq_zero.mp h _ (List.mem_of_getElem? hs)
  exact hfull rfl

@[simp]
theorem read_clear : t.clear.read b = none := by
  unfold clear
  split_ifs with h
  · exact len_eq_zero h
  · refine Option.eq_none_iff_forall_ne_some.mpr fun x hx => ?_
    obtain ⟨-, hs⟩ := read_eq_some.mp hx
    have hmem := List.mem_of_getElem? hs
    simp at hmem

theorem mem_iter : b ∈ t.iter ↔ ∃ x, t.read b = some x := by
  simp only [iter, List.mem_map, List.mem_filter, List.mem_range, read_eq_some]
  constructor
  · rintro ⟨i, ⟨-, hfull⟩, rfl⟩
    cases hs : t.slots[i]? with
    | none =>
      rw [hs] at hfull
      cases hfull
    | some s =>
      rw [hs] at hfull
      cases s with
      | full x => exact ⟨x, rfl, hs⟩
      | empty => cases hfull
      | deleted => cases hfull
  · rintro ⟨x, ha, hs⟩
    refine ⟨b.slot, ⟨(List.getElem?_eq_some_iff.mp hs).1, ?_⟩, ?_⟩
    · rw [hs]
      rfl
    · rw [bucket, ← ha]

theorem nodup_iter : t.iter.Nodup := by
  refine (List.nodup_range.filter _).map fun i j h => ?_
  exact congrArg Bucket.slot h

/-- The places of the elements that have a property are as many as the elements. -/
theorem length_filter_range {α : Type} (p : α → Bool) (l : List α) :
    ((List.range l.length).filter fun i => l[i]?.any p).length = l.countP p := by
  induction l with
  | nil => rfl
  | cons a l ih =>
    rw [List.length_cons, List.range_succ_eq_map, List.filter_cons, List.filter_map,
      List.countP_cons]
    have htail : (List.filter ((fun i => (a :: l)[i]?.any p) ∘ Nat.succ)
        (List.range l.length)).length = l.countP p := ih
    cases ha : p a <;> simp [ha, htail]

/-- A table has as many items as it has full buckets. -/
theorem length_iter : t.iter.length = t.len := by
  rw [iter, List.length_map, buckets, length_filter_range]
  rfl

end RawTable

/-- Where a table looks for an entry and where it puts one. An entry stands where its own hash
leads. -/
structure Probing (T E : Type) (hash : T → Hash) where
  /-- The entry under a hash that is equal to what is looked for. It stops at the first error. -/
  find : RawTable T → Hash → (T → Except E Bool) → Except E (Option Bucket)
  found : ∀ {t h eq b}, find t h eq = .ok (some b) → ∃ x, t.read b = some x ∧ eq x = .ok true
  absent : ∀ {t h eq}, find t h eq = .ok none →
    ∀ b x, t.read b = some x → hash x = h → eq x = .ok false
  raised : ∀ {t h eq e}, find t h eq = .error e → ∃ b x, t.read b = some x ∧ eq x = .error e
  /-- The slot that a new entry goes into. -/
  place : RawTable T → Hash → ℕ
  vacant : ∀ {t : RawTable T} {h}, 0 < t.growthLeft → t.Vacant (place t h)
  /-- Whether a bucket is empty or deleted once its entry has been taken out. -/
  frees : RawTable T → Bucket → Bool

namespace Probing

variable {T E : Type}

/-- Looks at one bucket after the other. -/
def search (t : RawTable T) (eq : T → Except E Bool) : List Bucket → Except E (Option Bucket)
  | [] => .ok none
  | b :: bs =>
    match t.read b with
    | none => search t eq bs
    | some x =>
      match eq x with
      | .error e => .error e
      | .ok true => .ok (some b)
      | .ok false => search t eq bs

theorem search_found {t : RawTable T} {eq : T → Except E Bool} {bs : List Bucket} {b : Bucket}
    (h : search t eq bs = .ok (some b)) : ∃ x, t.read b = some x ∧ eq x = .ok true := by
  induction bs with
  | nil => cases h
  | cons c bs ih =>
    unfold search at h
    split at h
    · exact ih h
    · rename_i x hx
      split at h
      · cases h
      · rename_i heq
        obtain rfl := Option.some.inj (Except.ok.inj h)
        exact ⟨x, hx, heq⟩
      · exact ih h

theorem search_absent {t : RawTable T} {eq : T → Except E Bool} {bs : List Bucket}
    (h : search t eq bs = .ok none) {b : Bucket} (hb : b ∈ bs) {x : T} (hx : t.read b = some x) :
    eq x = .ok false := by
  induction bs with
  | nil => cases hb
  | cons c bs ih =>
    unfold search at h
    obtain rfl | hb := List.mem_cons.mp hb
    · rw [hx] at h
      dsimp only at h
      split at h
      · cases h
      · cases h
      · rename_i heq
        exact heq
    · split at h
      · exact ih h hb
      · split at h
        · cases h
        · cases h
        · exact ih h hb

theorem search_raised {t : RawTable T} {eq : T → Except E Bool} {bs : List Bucket} {e : E}
    (h : search t eq bs = .error e) : ∃ b x, t.read b = some x ∧ eq x = .error e := by
  induction bs with
  | nil => cases h
  | cons c bs ih =>
    unfold search at h
    split at h
    · exact ih h
    · rename_i x hx
      split at h
      · rename_i heq
        exact ⟨c, x, hx, Except.error.inj h ▸ heq⟩
      · cases h
      · exact ih h

/-- A table that is probed from one end to the other. -/
def linear (hash : T → Hash) : Probing T E hash where
  find t h eq := search t eq (t.iter.filter fun b => (t.read b).any fun x => hash x == h)
  found h := search_found h
  absent {t h eq} hnone b x hx hxh := by
    refine search_absent hnone (List.mem_filter.mpr ⟨RawTable.mem_iter.mpr ⟨x, hx⟩, ?_⟩) hx
    simp [hx, hxh]
  raised h := search_raised h
  place t _ := t.slots.findIdx fun s => !s.isFull
  vacant {t _} hleft := by
    have hpos : 0 < t.slots.countP Slot.isEmpty := lt_of_lt_of_le hleft t.room
    obtain ⟨s, hs, hempty⟩ := List.countP_pos_iff.mp hpos
    have hlt : t.slots.findIdx (fun s => !s.isFull) < t.slots.length := by
      refine List.findIdx_lt_length_of_exists ⟨s, hs, ?_⟩
      cases s with
      | empty => rfl
      | deleted => rfl
      | full x => cases hempty
    refine ⟨_, List.getElem?_eq_getElem hlt, ?_⟩
    have hp := List.findIdx_getElem (w := hlt)
    simpa using hp
  frees _ _ := true

end Probing

end Dolang.Object
