import Dolang.Lib.Holes
import Dolang.Object.Dict

/-!
# The invariant of dictionaries

In a well-formed dictionary the index and the entries name each other: a slot holds an instance
exactly when that instance knows the slot. The operations of `Dolang.Object.Dict` keep this, in
whatever way the raw table probes and whatever the equality of elements says. Compacting the index
and moving to a new table both give each pair the number of pairs before it as its new slot
(`Indexed.rerank`).
-/

namespace Dolang.Object

open Holes

variable {V E : Type}

namespace EntryValue

@[simp]
theorem items_single (value : V) (i : ℕ) : (single value i).items = [(value, i)] := rfl

@[simp]
theorem items_multi (items : List (V × ℕ)) : (multi items).items = items := rfl

theorem len_eq (v : EntryValue V) : v.len = v.items.length := by
  cases v <;> rfl

theorem get_some (v : EntryValue V) (i : ℕ) : v.get (some i) = v.items[i]?.map Prod.fst := by
  cases v with
  | single value index =>
    cases i <;> simp [get, items]
  | multi items => rfl

theorem items_setIndex (v : EntryValue V) (subindex i : ℕ) :
    (v.setIndex subindex i).items = v.items.modify subindex fun item => (item.1, i) := by
  cases v with
  | single value index =>
    cases subindex <;> simp [setIndex, items]
  | multi items => rfl

theorem items_push (v : EntryValue V) (value : V) (i : ℕ) :
    (v.push value i).items = v.items ++ [(value, i)] := by
  cases v <;> rfl

end EntryValue

/-- What an entry holds, whatever the slots of its pairs. -/
def Entry.face (e : Entry V) : V × Hash × List V :=
  (e.key, e.hash, e.value.items.map Prod.fst)

namespace Dict

/-- The value at a place and the slot that it has. -/
def item (t : RawTable (Entry V)) (p : Place) : Option (V × ℕ) :=
  (t.read p.1).bind fun e => e.value.items[p.2]?

theorem item_eq_some {t : RawTable (Entry V)} {p : Place} {x : V × ℕ} :
    item t p = some x ↔ ∃ e, t.read p.1 = some e ∧ e.value.items[p.2]? = some x :=
  Option.bind_eq_some_iff

/-- The index and the entries of a table name each other. -/
structure Indexed (t : RawTable (Entry V)) (index : List (Option Place)) : Prop where
  slot : ∀ (i : ℕ) p, index[i]? = some (some p) ↔ ∃ v, item t p = some (v, i)
  nonempty : ∀ b e, t.read b = some e → e.value.items ≠ []
  sorted : ∀ b e, t.read b = some e → (e.value.items.map Prod.snd).Pairwise (· < ·)

/-- The index and the entries of a dictionary name each other. -/
def WellFormed (d : Dict V) : Prop :=
  Indexed d.table d.index

theorem wellFormed_new : (new : Dict V).WellFormed where
  slot i p := by simp [new, item]
  nonempty b e h := by simp [new] at h
  sorted b e h := by simp [new] at h

namespace Indexed

variable {t t' : RawTable (Entry V)} {index : List (Option Place)}

/-- An item of an entry is in the slot that it names. -/
theorem slot_of_item (h : Indexed t index) {b : Bucket} {e : Entry V} (he : t.read b = some e)
    {sub i : ℕ} {v : V} (hi : e.value.items[sub]? = some (v, i)) :
    index[i]? = some (some (b, sub)) :=
  (h.slot i (b, sub)).mpr ⟨v, item_eq_some.mpr ⟨e, he, hi⟩⟩

/-- A slot names an item that is there. -/
theorem item_of_slot (h : Indexed t index) {i : ℕ} {p : Place} (hi : index[i]? = some (some p)) :
    ∃ e v, t.read p.1 = some e ∧ e.value.items[p.2]? = some (v, i) := by
  obtain ⟨v, hv⟩ := (h.slot i p).mp hi
  obtain ⟨e, he, hx⟩ := item_eq_some.mp hv
  exact ⟨e, v, he, hx⟩

/-- A pair is in one slot. -/
theorem nodup (h : Indexed t index) : index.reduceOption.Nodup := by
  refine nodup_reduceOption fun i j p hi hj => ?_
  obtain ⟨v, hv⟩ := (h.slot i p).mp hi
  obtain ⟨w, hw⟩ := (h.slot j p).mp hj
  exact congrArg Prod.snd (Option.some.inj (hv.symm.trans hw))

/-- The place of a pair without the holes. -/
theorem idxOf (h : Indexed t index) {i : ℕ} {p : Place} (hi : index[i]? = some (some p)) :
    index.reduceOption.idxOf p = rank index i := by
  have hget := getElem?_reduceOption hi
  obtain ⟨hlt, hp⟩ := List.getElem?_eq_some_iff.mp hget
  rw [← hp]
  exact h.nodup.idxOf_getElem _ hlt

/-- Without the holes, each pair has the number of pairs before it as its slot. The entries may
have moved to other buckets. -/
theorem rerank (h : Indexed t index) {f : Bucket → Bucket}
    (hitems : ∀ b e, t.read b = some e → ∃ e', t'.read (f b) = some e' ∧
      e'.value.items = e.value.items.map fun x => (x.1, rank index x.2))
    (hback : ∀ b' e', t'.read b' = some e' → ∃ b e, t.read b = some e ∧ f b = b') :
    Indexed t' (index.reduceOption.map fun p => some (f p.1, p.2)) where
  slot k p' := by
    rw [List.getElem?_map, Option.map_eq_some_iff]
    constructor
    · rintro ⟨p, hp, heq⟩
      obtain rfl := Option.some.inj heq
      obtain ⟨i, hi, rfl⟩ := exists_of_getElem?_reduceOption hp
      obtain ⟨e, v, he, hx⟩ := h.item_of_slot hi
      obtain ⟨e', he', hmap⟩ := hitems p.1 e he
      refine ⟨v, item_eq_some.mpr ⟨e', he', ?_⟩⟩
      rw [hmap, List.getElem?_map, hx, Option.map_some]
    · rintro ⟨v, hv⟩
      obtain ⟨e', he', hx'⟩ := item_eq_some.mp hv
      obtain ⟨b, e, he, hb⟩ := hback _ _ he'
      obtain ⟨e'', he'', hmap⟩ := hitems b e he
      obtain rfl : e'' = e' := by
        rw [hb, he'] at he''
        exact (Option.some.inj he'').symm
      rw [hmap, List.getElem?_map, Option.map_eq_some_iff] at hx'
      obtain ⟨⟨w, i⟩, hx, hxi⟩ := hx'
      have hrank : rank index i = k := congrArg Prod.snd hxi
      refine ⟨(b, p'.2), ?_, by rw [hb]⟩
      rw [← hrank]
      exact getElem?_reduceOption (h.slot_of_item he hx)
  nonempty b' e' he' := by
    obtain ⟨b, e, he, rfl⟩ := hback _ _ he'
    obtain ⟨e'', he'', hmap⟩ := hitems b e he
    obtain rfl := Option.some.inj (he'.symm.trans he'')
    rw [hmap]
    simpa using h.nonempty b e he
  sorted b' e' he' := by
    obtain ⟨b, e, he, rfl⟩ := hback _ _ he'
    obtain ⟨e'', he'', hmap⟩ := hitems b e he
    obtain rfl := Option.some.inj (he'.symm.trans he'')
    rw [hmap, List.map_map, List.pairwise_map]
    have hsorted := h.sorted b e he
    rw [List.pairwise_map] at hsorted
    refine hsorted.imp_of_mem fun {x y} hx _ hxy => ?_
    obtain ⟨sub, hsub⟩ := List.mem_iff_getElem?.mp hx
    exact rank_lt_rank (h.slot_of_item he hsub) hxy

end Indexed

/-! ## Renumbering -/

section Renumber

variable {t : RawTable (Entry V)} {p q : Place} {i : ℕ}

/-- A new slot does not show in the face of an entry. -/
theorem face_setIndex (b : Bucket) :
    ((setIndex t p i).read b).map Entry.face = (t.read b).map Entry.face := by
  rw [setIndex, RawTable.read_modify]
  split_ifs
  · rw [Option.map_map]
    refine Option.map_congr fun e _ => ?_
    simp only [Function.comp, Entry.face, EntryValue.items_setIndex]
    refine congrArg (fun l => (e.key, e.hash, l)) (List.ext_getElem? fun k => ?_)
    rw [List.getElem?_map, List.getElem?_map, List.getElem?_modify]
    cases e.value.items[k]? with
    | none => rfl
    | some x => split_ifs <;> rfl
  · rfl

/-- A new slot shows in its own place. -/
theorem item_setIndex :
    item (setIndex t p i) q = if p = q then (item t q).map fun x => (x.1, i) else item t q := by
  unfold item setIndex
  rw [RawTable.read_modify]
  by_cases hb : p.1 = q.1
  · rw [if_pos hb]
    cases he : t.read q.1 with
    | none => simp
    | some e =>
      simp only [Option.map_some, Option.bind_some, EntryValue.items_setIndex,
        List.getElem?_modify]
      by_cases hsub : p.2 = q.2
      · rw [if_pos (Prod.ext hb hsub)]
        simp only [hsub, if_true]
        rfl
      · rw [if_neg fun hpq => hsub (congrArg Prod.snd hpq)]
        simp only [hsub, if_false]
        exact Option.map_id'
  · rw [if_neg hb, if_neg fun hpq => hb (congrArg Prod.fst hpq)]

theorem face_renumber (places : List Place) (b : Bucket) :
    ((renumber places i t).read b).map Entry.face = (t.read b).map Entry.face := by
  induction places generalizing i t with
  | nil => rfl
  | cons p places ih => exact ih.trans (face_setIndex b)

/-- Each of the places has its own number as its slot afterwards. -/
theorem item_renumber {places : List Place} (h : places.Nodup) :
    item (renumber places i t) q =
      (item t q).map fun x => (x.1, if q ∈ places then i + places.idxOf q else x.2) := by
  induction places generalizing i t with
  | nil => simp [renumber]
  | cons p places ih =>
    obtain ⟨hp, hnodup⟩ := List.nodup_cons.mp h
    rw [renumber, ih hnodup, item_setIndex]
    by_cases hpq : p = q
    · subst hpq
      rw [if_pos rfl, Option.map_map]
      refine Option.map_congr fun x _ => ?_
      simp [hp]
    · have hidx : (p :: places).idxOf q = places.idxOf q + 1 := List.idxOf_cons_ne _ hpq
      rw [if_neg hpq, hidx]
      simp only [List.mem_cons, Ne.symm hpq, false_or]
      refine Option.map_congr fun x _ => ?_
      split_ifs
      · rw [Nat.add_right_comm, Nat.add_assoc]
      · rfl

theorem allocation_setIndex : (setIndex t p i).allocation = t.allocation :=
  RawTable.allocation_modify

@[simp]
theorem growthLeft_setIndex : (setIndex t p i).growthLeft = t.growthLeft :=
  RawTable.growthLeft_modify

@[simp]
theorem len_setIndex : (setIndex t p i).len = t.len :=
  RawTable.len_modify

end Renumber

/-- An entry that has the face of another one. -/
theorem exists_of_face_eq {o : Option (Entry V)} {e : Entry V} (h : o.map Entry.face = some e.face) :
    ∃ e', o = some e' ∧ e'.face = e.face :=
  Option.map_eq_some_iff.mp h

/-- Without holes, an index names the same pairs in the same order. -/
theorem Indexed.compact {t : RawTable (Entry V)} {index : List (Option Place)}
    (h : Indexed t index) :
    Indexed (renumber index.reduceOption 0 t) (index.reduceOption.map some) := by
  have hface := fun b => face_renumber (t := t) (i := 0) index.reduceOption b
  refine h.rerank (f := id) (fun b e he => ?_) fun b' e' he' => ?_
  · obtain ⟨e', he', hee⟩ := exists_of_face_eq ((hface b).trans (congrArg _ he))
    refine ⟨e', he', List.ext_getElem? fun sub => ?_⟩
    have hitem := item_renumber (t := t) (i := 0) (q := (b, sub)) h.nodup
    simp only [item, he', he, Option.bind_some] at hitem
    rw [hitem, List.getElem?_map]
    refine Option.map_congr fun x hx => ?_
    have hslot := h.slot_of_item he hx
    have hmem : (b, sub) ∈ index.reduceOption :=
      List.reduceOption_mem_iff.mpr (List.mem_of_getElem? hslot)
    rw [if_pos hmem, h.idxOf hslot, Nat.zero_add]
  · have hread := (hface b').symm.trans (congrArg _ he')
    obtain ⟨e, he, -⟩ := exists_of_face_eq hread
    exact ⟨b', e, he, rfl⟩

theorem WellFormed.compact {d : Dict V} (h : d.WellFormed) (capacity : ℕ) :
    (d.compact capacity).WellFormed := by
  unfold Dict.compact
  split_ifs
  · exact Indexed.compact h
  · exact h

end Dict

end Dolang.Object
