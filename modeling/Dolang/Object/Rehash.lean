import Dolang.Object.DictInvariant

/-!
# Moving a dictionary to a new table

While `rehash` walks over the index, each entry is in the old table or in the new one, and `remap`
says where it went (`Moving`). At the end of the walk all of them are in the new table, with the
pairs numbered in the order of the walk.
-/

namespace Dolang.Object

open Holes

variable {V E : Type}

namespace Dict

/-- Where an entry went, if it has been moved. -/
def Rehash.moved (s : Rehash V) (b : Bucket) : Option Bucket :=
  s.remap[b.slot]?.join

/-- How things stand when the walk over the index of a table has come past the pairs `done`. -/
structure Moving (t : RawTable (Entry V)) (capacity : ℕ) (done : List Place) (s : Rehash V) :
    Prop where
  length : s.remap.length = t.buckets
  pending : ∀ b e, t.read b = some e → s.moved b = none → s.old.read b = some e
  arrived : ∀ b e b', t.read b = some e → s.moved b = some b' →
    ∃ e', s.table.read b' = some e' ∧ e'.face = e.face ∧
      ∀ sub : ℕ, e'.value.items[sub]? = e.value.items[sub]?.map fun x =>
        (x.1, if (b, sub) ∈ done then done.idxOf (b, sub) else x.2)
  injective : ∀ b c e f b', t.read b = some e → t.read c = some f →
    s.moved b = some b' → s.moved c = some b' → b = c
  onto : ∀ b' e', s.table.read b' = some e' → ∃ b e, t.read b = some e ∧ s.moved b = some b'
  seen : ∀ p ∈ done, ∃ e b', t.read p.1 = some e ∧ s.moved p.1 = some b'
  index : s.index = done.map fun p => some ((s.moved p.1).getD p.1, p.2)
  growth : capacity + s.old.len ≤ s.table.growthLeft + t.len

variable {t : RawTable (Entry V)} {capacity : ℕ} {done : List Place} {s : Rehash V}

/-- Buckets of one table that are not the same are in different slots. -/
theorem slot_ne {b c : Bucket} {e f : Entry V} (hb : t.read b = some e) (hc : t.read c = some f)
    (h : b ≠ c) : b.slot ≠ c.slot := by
  obtain ⟨hba, -⟩ := RawTable.read_eq_some.mp hb
  obtain ⟨hca, -⟩ := RawTable.read_eq_some.mp hc
  intro heq
  cases b
  cases c
  simp_all

/-- At the start everything is in the old table. -/
theorem moving_start :
    Moving t capacity []
      { old := t
        table := .withCapacity (t.allocation + 1) capacity
        remap := List.replicate t.buckets none
        index := [] } := by
  have hnone : ∀ b, Rehash.moved (V := V)
      { old := t
        table := .withCapacity (t.allocation + 1) capacity
        remap := List.replicate t.buckets none
        index := [] } b = none := by
    intro b
    rw [Rehash.moved, List.getElem?_replicate]
    split_ifs <;> rfl
  refine ⟨?_, ?_, ?_, ?_, ?_, ?_, ?_, ?_⟩
  · exact List.length_replicate
  · exact fun b e he _ => he
  · exact fun b e b' _ hb => absurd hb (by simp [hnone])
  · exact fun b c e f b' _ _ hb => absurd hb (by simp [hnone])
  · exact fun b' e' he' => absurd he' (by simp)
  · simp
  · rfl
  · exact Nat.add_le_add_right (le_capacity capacity) _

/-- The bucket of an entry is one of the new table. An entry that is moved for it finds a vacant
slot. -/
theorem Moving.bucket (P : Probing (Entry V) E Entry.hash) (h : Moving t capacity done s)
    (hcap : t.len ≤ capacity) {b : Bucket} {e : Entry V} (he : t.read b = some e) :
    Moving t capacity done (s.bucket P b).1 ∧
      (s.bucket P b).1.moved b = some (s.bucket P b).2 := by
  cases hb : s.moved b with
  | some b' =>
    have hstep : s.bucket P b = (s, b') := by
      have hb' : s.remap[b.slot]?.join = some b' := hb
      simp only [Rehash.bucket, hb']
    rw [hstep]
    exact ⟨h, hb⟩
  | none =>
    have hold := h.pending b e he hb
    have hstep : s.bucket P b =
        ({ s with
            old := s.old.remove b (P.frees s.old b)
            table := s.table.insertAt (P.place s.table e.hash) e
            remap := s.remap.set b.slot (some (s.table.bucket (P.place s.table e.hash))) },
          s.table.bucket (P.place s.table e.hash)) := by
      have hb' : s.remap[b.slot]?.join = none := hb
      simp only [Rehash.bucket, hb', hold]
    have hlen : (s.old.remove b (P.frees s.old b)).len + 1 = s.old.len :=
      RawTable.len_remove hold
    have hgrowth := h.growth
    have hvacant := P.vacant (t := s.table) (h := e.hash) (by omega)
    rw [hstep]
    generalize P.place s.table e.hash = i at hvacant ⊢
    generalize P.frees s.old b = frees at hlen ⊢
    have hslot : b.slot < s.remap.length := by
      rw [h.length]
      exact (List.getElem?_eq_some_iff.mp (RawTable.read_eq_some.mp he).2).1
    -- The buckets of the other entries stay as they were.
    have hself : Rehash.moved (V := V)
        { s with
          old := s.old.remove b frees
          table := s.table.insertAt i e
          remap := s.remap.set b.slot (some (s.table.bucket i)) } b =
        some (s.table.bucket i) := by
      simp only [Rehash.moved, List.getElem?_set_self hslot, Option.join_some]
    have hother : ∀ c f, t.read c = some f → b ≠ c → Rehash.moved (V := V)
        { s with
          old := s.old.remove b frees
          table := s.table.insertAt i e
          remap := s.remap.set b.slot (some (s.table.bucket i)) } c = s.moved c := by
      intro c f hc hbc
      simp only [Rehash.moved, List.getElem?_set_ne (slot_ne he hc hbc)]
    have hfresh : ∀ c f, t.read c = some f → s.moved c ≠ some (s.table.bucket i) := by
      intro c f hc hm
      obtain ⟨e', he', -⟩ := h.arrived c f _ hc hm
      rw [hvacant.read_eq_none] at he'
      cases he'
    have hkeep : ∀ p ∈ done, Rehash.moved (V := V)
        { s with
          old := s.old.remove b frees
          table := s.table.insertAt i e
          remap := s.remap.set b.slot (some (s.table.bucket i)) } p.1 = s.moved p.1 := by
      intro p hp
      obtain ⟨f, b', hf, hm⟩ := h.seen p hp
      refine hother p.1 f hf ?_
      rintro rfl
      rw [hb] at hm
      cases hm
    refine ⟨⟨?_, ?_, ?_, ?_, ?_, ?_, ?_, ?_⟩, hself⟩
    · rw [List.length_set]
      exact h.length
    · intro c f hc hm
      have hbc : b ≠ c := by
        rintro rfl
        rw [hself] at hm
        cases hm
      rw [hother c f hc hbc] at hm
      rw [RawTable.read_remove, if_neg hbc]
      exact h.pending c f hc hm
    · intro c f b' hc hm
      by_cases hbc : b = c
      · subst hbc
        obtain rfl := Option.some.inj (he.symm.trans hc)
        obtain rfl := Option.some.inj (hself.symm.trans hm)
        refine ⟨e, ?_, rfl, fun sub => ?_⟩
        · rw [RawTable.read_insertAt hvacant, if_pos rfl]
        · have hmem : (b, sub) ∉ done := by
            intro hmem
            obtain ⟨-, b', -, hb'⟩ := h.seen _ hmem
            rw [hb] at hb'
            cases hb'
          simp [hmem]
      · rw [hother c f hc hbc] at hm
        obtain ⟨e', he', hrest⟩ := h.arrived c f b' hc hm
        refine ⟨e', ?_, hrest⟩
        have hne : b' ≠ s.table.bucket i := by
          rintro rfl
          exact hfresh c f hc hm
        rw [RawTable.read_insertAt hvacant, if_neg hne]
        exact he'
    · intro c d f g b' hc hd hmc hmd
      by_cases hbc : b = c
      · subst hbc
        by_contra hbd
        rw [hother d g hd hbd] at hmd
        exact hfresh d g hd (hmd.trans (hmc.symm.trans hself))
      · rw [hother c f hc hbc] at hmc
        by_cases hbd : b = d
        · subst hbd
          exact absurd (hmc.trans (hmd.symm.trans hself)) (hfresh c f hc)
        · rw [hother d g hd hbd] at hmd
          exact h.injective c d f g b' hc hd hmc hmd
    · intro b' e' he'
      rw [RawTable.read_insertAt hvacant] at he'
      split_ifs at he' with hbi
      · exact ⟨b, e, he, hbi ▸ hself⟩
      · obtain ⟨c, f, hc, hm⟩ := h.onto b' e' he'
        have hbc : b ≠ c := by
          rintro rfl
          rw [hb] at hm
          cases hm
        exact ⟨c, f, hc, (hother c f hc hbc).trans hm⟩
    · intro p hp
      obtain ⟨f, b', hf, hm⟩ := h.seen p hp
      exact ⟨f, b', hf, (hkeep p hp).trans hm⟩
    · refine h.index.trans (List.map_congr_left fun p hp => ?_)
      rw [hkeep p hp]
    · have hleft := RawTable.growthLeft_insertAt (t := s.table) (i := i) (x := e)
      dsimp only
      omega

/-- One step of the walk. -/
theorem Moving.move (P : Probing (Entry V) E Entry.hash) (h : Moving t capacity done s)
    (hcap : t.len ≤ capacity) {p : Place} {e : Entry V} (he : t.read p.1 = some e)
    (hp : p ∉ done) : Moving t capacity (done ++ [p]) (s.move P p) := by
  obtain ⟨hs, hb⟩ := h.bucket P hcap he
  unfold Rehash.move
  generalize s.bucket P p.1 = r at hs hb
  obtain ⟨s, b'⟩ := r
  dsimp only at hs hb ⊢
  have hlength : s.index.length = done.length := by rw [hs.index, List.length_map]
  refine ⟨hs.length, hs.pending, fun c f b'' hc hm => ?_, hs.injective, fun b'' e'' he'' => ?_,
    fun q hq => ?_, ?_, ?_⟩
  · have hm : s.moved c = some b'' := hm
    obtain ⟨e', he', hface, hitems⟩ := hs.arrived c f b'' hc hm
    obtain ⟨e'', he'', hface'⟩ := exists_of_face_eq
      ((face_setIndex (t := s.table) (p := (b', p.2)) (i := s.index.length) b'').trans
        (congrArg _ he'))
    refine ⟨e'', he'', hface'.trans hface, fun sub => ?_⟩
    have hitem := item_setIndex (t := s.table) (p := (b', p.2)) (q := (b'', sub))
      (i := s.index.length)
    simp only [item, he'', he', Option.bind_some, hitems sub, Option.map_map] at hitem
    rw [hitem]
    by_cases hpq : (b', p.2) = (b'', sub)
    · -- Only one entry goes to a bucket, so this is the pair that is being moved.
      obtain ⟨rfl, rfl⟩ := Prod.mk.inj hpq
      obtain rfl := hs.injective c p.1 f e b' hc he hm hb
      have hidx : (done ++ [p]).idxOf p = done.length := by
        rw [List.idxOf_append_of_notMem hp, List.idxOf_cons_self, Nat.add_zero]
      rw [if_pos rfl]
      refine Option.map_congr fun x _ => ?_
      simp [hidx, hlength]
    · have hne : (c, sub) ≠ p := by
        rintro rfl
        exact hpq (by rw [Option.some.inj (hm.symm.trans hb)])
      rw [if_neg hpq]
      refine Option.map_congr fun x _ => ?_
      by_cases hmem : (c, sub) ∈ done
      · simp [hmem, List.idxOf_append_of_mem hmem]
      · simp [hmem, hne]
  · obtain ⟨e', he', -⟩ := exists_of_face_eq
      ((face_setIndex (t := s.table) (p := (b', p.2)) (i := s.index.length) b'').symm.trans
        (congrArg _ he''))
    exact hs.onto b'' e' he'
  · obtain hq | hq := List.mem_append.mp hq
    · exact hs.seen q hq
    · obtain rfl := List.mem_singleton.mp hq
      exact ⟨e, b', he, hb⟩
  · change s.index ++ [some (b', p.2)] =
      (done ++ [p]).map fun q => some ((s.moved q.1).getD q.1, q.2)
    rw [List.map_append, ← hs.index, List.map_singleton, hb, Option.getD_some]
  · rw [growthLeft_setIndex]
    exact hs.growth

/-- The whole walk. -/
theorem Moving.foldl (P : Probing (Entry V) E Entry.hash) (hcap : t.len ≤ capacity)
    {places : List Place} (h : Moving t capacity done s)
    (hlive : ∀ p ∈ places, ∃ e, t.read p.1 = some e) (hnodup : (done ++ places).Nodup) :
    Moving t capacity (done ++ places) (places.foldl (Rehash.move P) s) := by
  induction places generalizing done s with
  | nil => simpa using h
  | cons p places ih =>
    obtain ⟨e, he⟩ := hlive p List.mem_cons_self
    have hp : p ∉ done := fun hp =>
      (List.nodup_append.mp hnodup).2.2 p hp p List.mem_cons_self rfl
    rw [List.append_cons] at hnodup ⊢
    exact ih (h.move P hcap he hp) (fun q hq => hlive q (List.mem_cons_of_mem p hq)) hnodup

/-- At the end every entry has been moved. -/
theorem Moving.all {index : List (Option Place)} (hm : Moving t capacity index.reduceOption s)
    (h : Indexed t index) {b : Bucket} {e : Entry V} (he : t.read b = some e) :
    ∃ b', s.moved b = some b' := by
  obtain ⟨x, hx⟩ := List.exists_mem_of_ne_nil _ (h.nonempty b e he)
  obtain ⟨sub, hsub⟩ := List.mem_iff_getElem?.mp hx
  have hslot := h.slot_of_item he hsub
  obtain ⟨-, b', -, hb'⟩ :=
    hm.seen (b, sub) (List.reduceOption_mem_iff.mpr (List.mem_of_getElem? hslot))
  exact ⟨b', hb'⟩

/-- After the move each pair has the number of pairs before it as its slot. -/
theorem Moving.indexed {index : List (Option Place)}
    (hm : Moving t capacity index.reduceOption s) (h : Indexed t index) :
    Indexed s.table s.index := by
  rw [hm.index]
  refine h.rerank (f := fun b => (s.moved b).getD b) (fun b e he => ?_) fun b' e' he' => ?_
  · obtain ⟨b', hb'⟩ := hm.all h he
    obtain ⟨e', he', -, hitems⟩ := hm.arrived b e b' he hb'
    refine ⟨e', by rw [hb']; exact he', List.ext_getElem? fun sub => ?_⟩
    rw [hitems sub, List.getElem?_map]
    refine Option.map_congr fun x hx => ?_
    have hslot := h.slot_of_item he hx
    have hmem : (b, sub) ∈ index.reduceOption :=
      List.reduceOption_mem_iff.mpr (List.mem_of_getElem? hslot)
    rw [if_pos hmem, h.idxOf hslot]
  · obtain ⟨b, e, he, hb⟩ := hm.onto b' e' he'
    exact ⟨b, e, he, by rw [hb, Option.getD_some]⟩

/-- The walk of `rehash`. -/
theorem moving_rehash (P : Probing (Entry V) E Entry.hash) {index : List (Option Place)}
    (h : Indexed t index) (hcap : t.len ≤ capacity) :
    Moving t capacity index.reduceOption
      (index.reduceOption.foldl (Rehash.move P)
        { old := t
          table := .withCapacity (t.allocation + 1) capacity
          remap := List.replicate t.buckets none
          index := [] }) := by
  refine moving_start.foldl P hcap (fun p hp => ?_) h.nodup
  obtain ⟨i, hi⟩ := List.mem_iff_getElem?.mp (List.reduceOption_mem_iff.mp hp)
  obtain ⟨e, -, he, -⟩ := h.item_of_slot hi
  exact ⟨e, he⟩

/-- A dictionary that has no room left has some after `rehash`. -/
theorem WellFormed.rehash (P : Probing (Entry V) E Entry.hash) {d : Dict V} (h : d.WellFormed)
    {oldCapacity : ℕ} (hlen : d.table.len = oldCapacity) :
    (d.rehash P oldCapacity).1.WellFormed ∧ 0 < (d.rehash P oldCapacity).1.table.growthLeft := by
  have hcap : d.table.len ≤ max 1 (oldCapacity * 2) := by omega
  have hmoving := moving_rehash P h hcap
  refine ⟨hmoving.indexed h, ?_⟩
  have hgrowth := hmoving.growth
  change 0 < (d.index.reduceOption.foldl (Rehash.move P) _).table.growthLeft
  omega

end Dict

end Dolang.Object
