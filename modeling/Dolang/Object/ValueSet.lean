import Dolang.Lib.FailFast
import Dolang.Lib.Holes
import Dolang.Object.DictOrder

/-!
# Sets

`Set` of `object/set.rs` with the operations that change it and with its iterator. The order of a
set is a row of buckets with holes, and each member knows its place in it (`ValueSet.WellFormed`).
Every change of a set raises its epoch.
-/

namespace Dolang.Object

open Holes

/-- A member of a set. -/
structure Member (V : Type) where
  value : V
  hash : Hash
  index : ℕ

structure ValueSet (V : Type) where
  inner : RawTable (Member V)
  order : List (Option Bucket)
  epoch : ℕ

namespace ValueSet

variable {V E : Type}

def new : ValueSet V where
  inner := .new
  order := []
  epoch := 0

/-- Gives the members in some buckets the places from `i` on. -/
def renumber : List Bucket → ℕ → RawTable (Member V) → RawTable (Member V)
  | [], _, inner => inner
  | bucket :: buckets, i, inner =>
    renumber buckets (i + 1) (inner.modify bucket fun m => { m with index := i })

section Operations

variable (P : Probing (Member V) E Member.hash) (eq : V → V → Except E Bool)

/-- `clear`, which leaves an empty set alone. -/
def clear (s : ValueSet V) : ValueSet V :=
  if s.inner.len = 0 then s
  else { inner := s.inner.clear, order := [], epoch := s.epoch + 1 }

/-- Drops the holes when the order is mostly holes. -/
def compact (s : ValueSet V) : ValueSet V :=
  if 2 * s.inner.capacity ≤ s.order.length then
    { s with
      inner := renumber s.order.reduceOption 0 s.inner
      order := s.order.reduceOption.map some }
  else s

/-- `insert_at_index`. -/
def insertAtIndex (s : ValueSet V) (hash : Hash) (slot : ℕ) (value : V) : ValueSet V :=
  let s := s.compact
  { inner := s.inner.insertAt slot { value, hash, index := s.order.length }
    order := s.order ++ [some (s.inner.bucket slot)]
    epoch := s.epoch + 1 }

/-- Moves one member to a new table. -/
def move (r : RawTable (Member V) × RawTable (Member V) × List (Option Bucket)) (bucket : Bucket) :
    RawTable (Member V) × RawTable (Member V) × List (Option Bucket) :=
  let (old, inner, order) := r
  match old.read bucket with
  | none => r
  | some member =>
    let slot := P.place inner member.hash
    (old.remove bucket (P.frees old bucket),
      inner.insertAt slot { member with index := order.length },
      order ++ [some (inner.bucket slot)])

/-- Moves everything to a table with room for twice as much. -/
def rehash (s : ValueSet V) : ValueSet V :=
  let r := s.order.reduceOption.foldl (move P)
    (s.inner, .withCapacity (s.inner.allocation + 1) (max 1 (s.inner.capacity * 2)), [])
  { inner := r.2.1, order := r.2.2, epoch := s.epoch + 1 }

/-- `reserve_for_insert`. -/
def reserve (s : ValueSet V) : ValueSet V :=
  if s.inner.len = s.inner.capacity then s.rehash P else s

/-- The bucket of a member. -/
def find (s : ValueSet V) (hash : Hash) (value : V) : Except E (Option Bucket) :=
  P.find s.inner hash fun m => eq value m.value

/-- `insert`, which leaves a set alone that has the member. -/
def insert (s : ValueSet V) (value : V) (hash : Hash) : Except E (ValueSet V × Bool) :=
  (s.find P eq hash value).map fun
    | some _ => (s, false)
    | none =>
      let s := s.reserve P
      (s.insertAtIndex hash (P.place s.inner hash) value, true)

/-- `delete`. -/
def delete (s : ValueSet V) (value : V) (hash : Hash) : Except E (ValueSet V × Bool) :=
  (s.find P eq hash value).map fun found =>
    match found.bind fun bucket => (s.inner.read bucket).map fun m => (bucket, m) with
    | none => (s, false)
    | some (bucket, member) =>
      ({ inner := s.inner.remove bucket (P.frees s.inner bucket)
         order := s.order.set member.index none
         epoch := s.epoch + 1 }, true)

end Operations

/-- The next member from a place of the order on, and the place after it, `Iter::op_next`. -/
def nextMember (s : ValueSet V) : List (Option Bucket) → ℕ → Except (Fault E) (Option V) × ℕ
  | [], index => (.ok none, index)
  | none :: slots, index => nextMember s slots (index + 1)
  | some bucket :: _, index =>
    match s.inner.read bucket with
    | none => (.error .undefined, index + 1)
    | some member => (.ok (some member.value), index + 1)

def next (s : ValueSet V) (index : ℕ) : Except (Fault E) (Option V) × ℕ :=
  nextMember s (s.order.drop index) index

/-- The members that are left of an order. -/
def membersOf (inner : RawTable (Member V)) (order : List (Option Bucket)) : List V :=
  order.reduceOption.filterMap fun b => (inner.read b).map Member.value

/-- An order and the members of a table name each other. -/
def Ordered (inner : RawTable (Member V)) (order : List (Option Bucket)) : Prop :=
  ∀ (i : ℕ) b, order[i]? = some (some b) ↔ ∃ m, inner.read b = some m ∧ m.index = i

/-- The order and the members of a set name each other. -/
def WellFormed (s : ValueSet V) : Prop :=
  Ordered s.inner s.order

theorem wellFormed_new : (new : ValueSet V).WellFormed := by
  intro i b
  simp [new]

section Invariant

variable {inner : RawTable (Member V)} {order : List (Option Bucket)} {s s' : ValueSet V}
  {P : Probing (Member V) E Member.hash} {eq : V → V → Except E Bool}

/-- A member is in one place of the order. -/
theorem Ordered.nodup (h : Ordered inner order) : order.reduceOption.Nodup := by
  refine nodup_reduceOption fun i j b hi hj => ?_
  obtain ⟨m, hm, rfl⟩ := (h i b).mp hi
  obtain ⟨n, hn, rfl⟩ := (h j b).mp hj
  rw [Option.some.inj (hm.symm.trans hn)]

/-- Each of the buckets has its own number as its place afterwards. -/
theorem read_renumber {buckets : List Bucket} (h : buckets.Nodup) (i : ℕ) (b : Bucket) :
    (renumber buckets i inner).read b = (inner.read b).map fun m =>
      { m with index := if b ∈ buckets then i + buckets.idxOf b else m.index } := by
  induction buckets generalizing inner i with
  | nil => simp [renumber]
  | cons c buckets ih =>
    obtain ⟨hc, hnodup⟩ := List.nodup_cons.mp h
    rw [renumber, ih hnodup, RawTable.read_modify]
    by_cases hcb : c = b
    · subst hcb
      rw [if_pos rfl, Option.map_map]
      refine Option.map_congr fun m _ => ?_
      simp [hc]
    · rw [if_neg hcb]
      refine Option.map_congr fun m _ => ?_
      simp only [List.mem_cons, Ne.symm hcb, false_or, List.idxOf_cons_ne _ hcb]
      split_ifs
      · rw [Nat.add_right_comm, Nat.add_assoc]
      · rfl

/-- Without holes, an order names the same members. -/
theorem Ordered.compact (h : Ordered inner order) :
    Ordered (renumber order.reduceOption 0 inner) (order.reduceOption.map some) := by
  intro k b
  have hplace : ∀ i : ℕ, order[i]? = some (some b) →
      order.reduceOption.idxOf b = rank order i ∧ b ∈ order.reduceOption := by
    intro i hi
    have hget := getElem?_reduceOption hi
    obtain ⟨hlt, hb⟩ := List.getElem?_eq_some_iff.mp hget
    refine ⟨?_, List.mem_of_getElem? hget⟩
    rw [← hb]
    exact h.nodup.idxOf_getElem _ hlt
  simp only [read_renumber h.nodup, List.getElem?_map, Option.map_eq_some_iff, Option.some.injEq]
  constructor
  · rintro ⟨b', hb', rfl⟩
    obtain ⟨i, hi, rfl⟩ := exists_of_getElem?_reduceOption hb'
    obtain ⟨m, hm, -⟩ := (h i b').mp hi
    obtain ⟨hidx, hmem⟩ := hplace i hi
    exact ⟨_, ⟨m, hm, rfl⟩, by simp [hmem, hidx]⟩
  · rintro ⟨m', ⟨m, hm, rfl⟩, hk⟩
    have hi := (h m.index b).mpr ⟨m, hm, rfl⟩
    obtain ⟨hidx, hmem⟩ := hplace m.index hi
    simp only [hmem, if_true, hidx, Nat.zero_add] at hk
    exact ⟨b, hk ▸ getElem?_reduceOption hi, rfl⟩

/-- A new member goes to the end of the order. -/
theorem Ordered.insertAt (h : Ordered inner order) {slot : ℕ} (hslot : inner.Vacant slot) (value : V)
    (hash : Hash) :
    Ordered (inner.insertAt slot { value, hash, index := order.length })
      (order ++ [some (inner.bucket slot)]) := by
  intro i b
  rw [Dict.getElem?_snoc, h i b, RawTable.read_insertAt hslot]
  by_cases hb : b = inner.bucket slot
  · subst hb
    rw [hslot.read_eq_none, if_pos rfl]
    simp [eq_comm]
  · rw [if_neg hb]
    simp [Ne.symm hb]

/-- A member that is taken out leaves a hole. -/
theorem Ordered.remove (h : Ordered inner order) {b : Bucket} {m : Member V}
    (hm : inner.read b = some m) (frees : Bool) :
    Ordered (inner.remove b frees) (order.set m.index none) := by
  have hb := (h m.index b).mpr ⟨m, hm, rfl⟩
  intro i c
  rw [List.getElem?_set, RawTable.read_remove]
  by_cases hi : m.index = i
  · subst hi
    rw [if_pos rfl]
    constructor
    · intro hc
      split_ifs at hc
      cases hc
    · rintro ⟨n, hn, hni⟩
      split_ifs at hn with hbc
      · have hc := (h m.index c).mpr ⟨n, hn, hni⟩
        exact absurd (Option.some.inj (Option.some.inj (hb.symm.trans hc))) hbc
  · rw [if_neg hi, h i c]
    by_cases hbc : b = c
    · subst hbc
      rw [hm, if_pos rfl]
      simp [hi]
    · rw [if_neg hbc]

theorem vacant_renumber {i : ℕ} (buckets : List Bucket) (h : inner.Vacant i) (k : ℕ) :
    (renumber buckets k inner).Vacant i := by
  induction buckets generalizing inner k with
  | nil => exact h
  | cons b buckets ih => exact ih (h.modify _ _) (k + 1)

theorem WellFormed.compact (h : s.WellFormed) : s.compact.WellFormed := by
  unfold ValueSet.compact
  split_ifs
  · exact Ordered.compact h
  · exact h

theorem WellFormed.insertAtIndex (h : s.WellFormed) {slot : ℕ} (hslot : s.inner.Vacant slot)
    (hash : Hash) (value : V) : (s.insertAtIndex hash slot value).WellFormed := by
  have hcompact : Ordered s.compact.inner s.compact.order := h.compact
  refine hcompact.insertAt ?_ value hash
  unfold ValueSet.compact
  split_ifs
  · exact vacant_renumber _ hslot 0
  · exact hslot

/-- While members move, those in the new table are in order. -/
theorem ordered_foldl {capacity n : ℕ} (hcap : n ≤ capacity) (buckets : List Bucket)
    (r : RawTable (Member V) × RawTable (Member V) × List (Option Bucket))
    (h : Ordered r.2.1 r.2.2) (hgrowth : capacity + r.1.len ≤ r.2.1.growthLeft + n) :
    Ordered (buckets.foldl (move P) r).2.1 (buckets.foldl (move P) r).2.2 ∧
      capacity ≤ (buckets.foldl (move P) r).2.1.growthLeft + n := by
  induction buckets generalizing r with
  | nil =>
    rw [List.foldl_nil]
    exact ⟨h, by omega⟩
  | cons b buckets ih =>
    rw [List.foldl_cons]
    obtain ⟨old, inner, order⟩ := r
    dsimp only at h hgrowth
    cases hm : old.read b with
    | none =>
      have hmove : move P (old, inner, order) b = (old, inner, order) := by
        rw [move]
        dsimp only
        rw [hm]
      rw [hmove]
      exact ih _ h hgrowth
    | some m =>
      have hmove : move P (old, inner, order) b =
          (old.remove b (P.frees old b),
            inner.insertAt (P.place inner m.hash) { m with index := order.length },
            order ++ [some (inner.bucket (P.place inner m.hash))]) := by
        rw [move]
        dsimp only
        rw [hm]
      have hlen : (old.remove b (P.frees old b)).len + 1 = old.len := RawTable.len_remove hm
      have hleft := RawTable.growthLeft_insertAt (t := inner) (i := P.place inner m.hash)
        (x := { m with index := order.length })
      rw [hmove]
      refine ih _ (h.insertAt (P.vacant (by omega)) m.value m.hash) ?_
      dsimp only
      omega

/-- A set that has no room left has some after `rehash`. -/
theorem WellFormed.rehash (hfull : s.inner.len = s.inner.capacity) :
    (s.rehash P).WellFormed ∧ 0 < (s.rehash P).inner.growthLeft := by
  have hcap : s.inner.len ≤ max 1 (s.inner.capacity * 2) := by omega
  have hempty : Ordered (.withCapacity (s.inner.allocation + 1) (max 1 (s.inner.capacity * 2)) :
      RawTable (Member V)) [] := by
    intro i b
    simp
  obtain ⟨hordered, hleft⟩ := ordered_foldl (P := P) hcap s.order.reduceOption
    (s.inner, .withCapacity (s.inner.allocation + 1) (max 1 (s.inner.capacity * 2)), []) hempty
    (Nat.add_le_add_right (le_capacity _) _)
  refine ⟨hordered, ?_⟩
  change 0 < (s.order.reduceOption.foldl (move P) _).2.1.growthLeft
  omega

theorem WellFormed.reserve (h : s.WellFormed) :
    (s.reserve P).WellFormed ∧ 0 < (s.reserve P).inner.growthLeft := by
  unfold ValueSet.reserve
  split_ifs with hfull
  · exact WellFormed.rehash hfull
  · refine ⟨h, ?_⟩
    unfold RawTable.capacity at hfull
    omega

/-- What a change makes of a set: the invariant stays, and either nothing happens or the epoch is
raised. -/
def Changed (s s' : ValueSet V) : Prop :=
  s'.WellFormed ∧ (s' = s ∨ s.epoch < s'.epoch)

theorem changed_clear (h : s.WellFormed) : Changed s s.clear := by
  unfold ValueSet.clear
  split_ifs
  · exact ⟨h, .inl rfl⟩
  · refine ⟨fun i b => ?_, .inr (Nat.lt_succ_self _)⟩
    simp

theorem epoch_compact : s.compact.epoch = s.epoch := by
  unfold ValueSet.compact
  split_ifs <;> rfl

theorem epoch_reserve : s.epoch ≤ (s.reserve P).epoch := by
  unfold ValueSet.reserve
  split_ifs
  · exact Nat.le_succ _
  · exact Nat.le_refl _

theorem changed_insert (h : s.WellFormed) {value : V} {hash : Hash} {added : Bool}
    (hi : s.insert P eq value hash = .ok (s', added)) : Changed s s' := by
  unfold ValueSet.insert at hi
  cases hf : s.find P eq hash value with
  | error e =>
    rw [hf] at hi
    cases hi
  | ok found =>
    rw [hf] at hi
    cases found with
    | some b =>
      obtain ⟨rfl, -⟩ := Prod.mk.inj (Except.ok.inj hi)
      exact ⟨h, .inl rfl⟩
    | none =>
      obtain ⟨rfl, -⟩ := Prod.mk.inj (Except.ok.inj hi)
      obtain ⟨hwf, hleft⟩ := h.reserve (P := P)
      refine ⟨hwf.insertAtIndex (P.vacant hleft) hash value, .inr ?_⟩
      change s.epoch < (s.reserve P).compact.epoch + 1
      rw [epoch_compact]
      exact Nat.lt_succ_of_le epoch_reserve

theorem changed_delete (h : s.WellFormed) {value : V} {hash : Hash} {deleted : Bool}
    (hi : s.delete P eq value hash = .ok (s', deleted)) : Changed s s' := by
  unfold ValueSet.delete at hi
  cases hf : s.find P eq hash value with
  | error e =>
    rw [hf] at hi
    cases hi
  | ok found =>
    rw [hf] at hi
    have hi := Except.ok.inj hi
    dsimp only at hi
    cases hb : found.bind fun bucket => (s.inner.read bucket).map fun m => (bucket, m) with
    | none =>
      rw [hb] at hi
      obtain ⟨rfl, -⟩ := Prod.mk.inj hi
      exact ⟨h, .inl rfl⟩
    | some x =>
      rw [hb] at hi
      obtain ⟨rfl, -⟩ := Prod.mk.inj hi
      obtain ⟨b, -, hb⟩ := Option.bind_eq_some_iff.mp hb
      obtain ⟨m, hread, rfl⟩ := Option.map_eq_some_iff.mp hb
      exact ⟨Ordered.remove h hread _, .inr (Nat.lt_succ_self _)⟩

/-- The walk to the next member. -/
theorem nextMember_spec (h : s.WellFormed) {slots : List (Option Bucket)} {index : ℕ}
    (hs : slots = s.order.drop index) :
    (∃ i, (s.nextMember slots index : Except (Fault E) _ × ℕ) = (.ok none, i) ∧
      membersOf s.inner slots = [] ∧ membersOf s.inner (s.order.drop i) = []) ∨
    ∃ x i, (s.nextMember slots index : Except (Fault E) _ × ℕ) = (.ok (some x), i) ∧
      membersOf s.inner slots = x :: membersOf s.inner (s.order.drop i) := by
  induction slots generalizing index with
  | nil => exact .inl ⟨index, rfl, rfl, by rw [← hs]; rfl⟩
  | cons slot slots ih =>
    cases slot with
    | none => exact ih (Dict.drop_succ_of_cons hs)
    | some b =>
      have hb : s.order[index]? = some (some b) := by
        rw [← Nat.add_zero index, ← List.getElem?_drop, ← hs]
        rfl
      obtain ⟨m, hm, -⟩ := (h index b).mp hb
      refine .inr ⟨m.value, index + 1, ?_, ?_⟩
      · rw [nextMember, hm]
      · rw [← Dict.drop_succ_of_cons hs, membersOf, List.reduceOption_cons_of_some,
          List.filterMap_cons_some (by rw [hm]; rfl)]
        rfl

end Invariant

end ValueSet

end Dolang.Object
