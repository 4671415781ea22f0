import Dolang.Lib.Multimap
import Dolang.Object.Pairs

/-!
# The pairs of a dictionary with their slots

The pairs of a dictionary, each with the slot of the index that it is in. They are in the order of
the slots, and what they are is a matter of the entries alone (`mem_numbered`). So an operation that
changes one entry changes the pairs of that entry and leaves the others, whatever it does to the
index (`numbered_erase`, `numbered_popItem`, `numbered_replace`).
-/

namespace Dolang.Object

variable {V E : Type}

namespace Dict

variable {d d' : Dict V} {P : Probing (Entry V) E Entry.hash} {els : Elements V E} {K : V → Prop}
  {b : Bucket} {e : Entry V}

/-- The pairs, in the order of their insertion. -/
def pairs (d : Dict V) : Multimap V V :=
  d.rows.map fun x => (x.key, x.value)

/-- The pairs with their slots. -/
def numbered (d : Dict V) : List (ℕ × V × V) :=
  d.index.zipIdx.filterMap fun slot =>
    (slot.1.bind (row d.table)).map fun x => (slot.2, x.key, x.value)

theorem numbered_snd (d : Dict V) : d.numbered.map Prod.snd = d.pairs := by
  have hfrom : ∀ (slots : List (Option Place)) (k : ℕ),
      ((slots.zipIdx k).filterMap fun slot =>
        (slot.1.bind (row d.table)).map fun x => (slot.2, x.key, x.value)).map Prod.snd =
      (slots.reduceOption.filterMap (row d.table)).map fun x => (x.key, x.value) := by
    intro slots
    induction slots with
    | nil => exact fun _ => rfl
    | cons slot slots ih =>
      intro k
      rw [List.zipIdx_cons]
      cases slot with
      | none =>
        rw [List.filterMap_cons_none rfl, List.reduceOption_cons_of_none, ih]
      | some p =>
        rw [List.reduceOption_cons_of_some]
        cases hx : row d.table p with
        | none =>
          rw [List.filterMap_cons_none (by rw [Option.bind_some, hx]; rfl),
            List.filterMap_cons_none hx, ih]
        | some x =>
          rw [List.filterMap_cons_some (by rw [Option.bind_some, hx]; rfl),
            List.filterMap_cons_some hx, List.map_cons, List.map_cons, ih]
  exact hfrom d.index 0

/-- Each slot comes after the ones before it. -/
theorem numbered_sorted (d : Dict V) : d.numbered.Pairwise fun x y => x.1 < y.1 := by
  refine List.pairwise_filterMap.mpr (List.Pairwise.imp (R := fun x y => x.2 < y.2) ?_ ?_)
  · intro slot slot' hlt x hx y hy
    obtain ⟨-, -, rfl⟩ := Option.map_eq_some_iff.mp hx
    obtain ⟨-, -, rfl⟩ := Option.map_eq_some_iff.mp hy
    exact hlt
  · refine List.pairwise_iff_getElem.mpr fun i j hi hj hij => ?_
    rw [List.getElem_zipIdx, List.getElem_zipIdx]
    dsimp only
    omega

theorem numbered_nodup (d : Dict V) : (d.numbered.map Prod.fst).Nodup :=
  List.pairwise_map.mpr (d.numbered_sorted.imp Nat.ne_of_lt)

/-- Lists in the order of the slots are the same when they have the same elements. -/
theorem eq_of_mem_iff {α : Type} {l l' : List (ℕ × α)} (hl : l.Pairwise fun x y => x.1 < y.1)
    (hl' : l'.Pairwise fun x y => x.1 < y.1) (h : ∀ x, x ∈ l ↔ x ∈ l') : l = l' := by
  have hnodup : ∀ {l : List (ℕ × α)}, (l.Pairwise fun x y => x.1 < y.1) → l.Nodup :=
    fun hl => hl.imp fun hlt heq => Nat.ne_of_lt hlt (congrArg Prod.fst heq)
  have hperm := (List.perm_ext_iff_of_nodup (hnodup hl) (hnodup hl')).mpr h
  exact hperm.eq_of_pairwise (fun x y _ _ hxy hyx => absurd hyx (Nat.lt_asymm hxy)) hl hl'

/-- A pair of the dictionary is an instance of an entry. -/
theorem WellFormed.mem_numbered (h : d.WellFormed) {i : ℕ} {key value : V} :
    (i, key, value) ∈ d.numbered ↔
      ∃ b e, d.table.read b = some e ∧ e.key = key ∧ (value, i) ∈ e.value.items := by
  constructor
  · intro hmem
    obtain ⟨⟨slot, j⟩, hslot, hx⟩ := List.mem_filterMap.mp hmem
    obtain ⟨x, hrow, heq⟩ := Option.map_eq_some_iff.mp hx
    obtain ⟨rfl, rfl, rfl⟩ : j = i ∧ x.key = key ∧ x.value = value := by simpa using heq
    obtain ⟨p, rfl, hrow⟩ := Option.bind_eq_some_iff.mp hrow
    have hj := List.mem_zipIdx_iff_getElem?.mp hslot
    obtain ⟨e, v, he, hitem⟩ := h.item_of_slot hj
    obtain ⟨e', he', hget⟩ := Option.bind_eq_some_iff.mp (show row d.table p = some x from hrow)
    obtain rfl := Option.some.inj (he.symm.trans he')
    rw [EntryValue.get_some, hitem] at hget
    obtain rfl := Option.some.inj hget
    exact ⟨p.1, e, he, rfl, List.mem_of_getElem? hitem⟩
  · rintro ⟨b, e, he, rfl, hitem⟩
    obtain ⟨sub, hsub⟩ := List.mem_iff_getElem?.mp hitem
    refine List.mem_filterMap.mpr ⟨(some (b, sub), i),
      List.mem_zipIdx_iff_getElem?.mpr (h.slot_of_item he hsub), ?_⟩
    simp only [Option.bind_some, row, he, EntryValue.get_some, hsub, Option.map_some]

/-- The slots of different entries are different. -/
theorem WellFormed.bucket_of_slot (h : d.WellFormed) {c : Bucket} {f : Entry V}
    (hb : d.table.read b = some e) (hc : d.table.read c = some f) {i : ℕ}
    (hi : i ∈ e.value.items.map Prod.snd) (hi' : i ∈ f.value.items.map Prod.snd) : b = c := by
  obtain ⟨sub, hsub⟩ := (Indexed.mem_slots_iff h hb).mp hi
  obtain ⟨sub', hsub'⟩ := (Indexed.mem_slots_iff h hc).mp hi'
  exact congrArg Prod.fst (Option.some.inj (Option.some.inj (hsub.symm.trans hsub')))

/-- What a change of one entry makes of the pairs. -/
theorem WellFormed.mem_numbered_update (h : d.WellFormed) (h' : d'.WellFormed)
    (hb : d.table.read b = some e) (hother : ∀ c, b ≠ c → d'.table.read c = d.table.read c)
    {i : ℕ} {key value : V} : (i, key, value) ∈ d'.numbered ↔
      (i, key, value) ∈ d.numbered ∧ i ∉ e.value.items.map Prod.snd ∨
        ∃ e', d'.table.read b = some e' ∧ e'.key = key ∧ (value, i) ∈ e'.value.items := by
  rw [h'.mem_numbered, h.mem_numbered]
  constructor
  · rintro ⟨c, f, hf, hkey, hitem⟩
    by_cases hc : b = c
    · exact .inr ⟨f, hc ▸ hf, hkey, hitem⟩
    · rw [hother c hc] at hf
      refine .inl ⟨⟨c, f, hf, hkey, hitem⟩, fun hi => hc ?_⟩
      exact h.bucket_of_slot hb hf hi (List.mem_map_of_mem (f := Prod.snd) hitem)
  · rintro (⟨⟨c, f, hf, hkey, hitem⟩, hi⟩ | ⟨e', he', hkey, hitem⟩)
    · have hc : b ≠ c := by
        rintro rfl
        obtain rfl := Option.some.inj (hb.symm.trans hf)
        exact hi (List.mem_map_of_mem (f := Prod.snd) hitem)
      exact ⟨c, f, (hother c hc).trans hf, hkey, hitem⟩
    · exact ⟨b, e', he', hkey, hitem⟩

/-- The instances of an entry are the pairs in its slots. -/
theorem WellFormed.mem_numbered_of_slot (h : d.WellFormed) (hb : d.table.read b = some e)
    {i : ℕ} {key value : V} (hi : i ∈ e.value.items.map Prod.snd) :
    (i, key, value) ∈ d.numbered ↔ e.key = key ∧ (value, i) ∈ e.value.items := by
  rw [h.mem_numbered]
  constructor
  · rintro ⟨c, f, hf, hkey, hitem⟩
    obtain rfl := h.bucket_of_slot hb hf hi (List.mem_map_of_mem (f := Prod.snd) hitem)
    obtain rfl := Option.some.inj (hb.symm.trans hf)
    exact ⟨hkey, hitem⟩
  · rintro ⟨hkey, hitem⟩
    exact ⟨b, e, hb, hkey, hitem⟩

/-- When an entry keeps some of its instances, the dictionary keeps the pairs that are in other
slots than the rest. -/
theorem WellFormed.numbered_keep (h : d.WellFormed) (h' : d'.WellFormed)
    (hb : d.table.read b = some e) (hother : ∀ c, b ≠ c → d'.table.read c = d.table.read c)
    (keep : ℕ → Prop) [DecidablePred keep]
    (hself : ∀ key value i, (∃ e', d'.table.read b = some e' ∧ e'.key = key ∧
      (value, i) ∈ e'.value.items) ↔ e.key = key ∧ (value, i) ∈ e.value.items ∧ keep i)
    (hkeep : ∀ i, i ∉ e.value.items.map Prod.snd → keep i) :
    d'.numbered = d.numbered.filter fun y => keep y.1 := by
  refine eq_of_mem_iff (numbered_sorted _) (d.numbered_sorted.filter _) fun y => ?_
  obtain ⟨i, key, value⟩ := y
  rw [h.mem_numbered_update h' hb hother, hself, List.mem_filter, decide_eq_true_iff]
  by_cases hi : i ∈ e.value.items.map Prod.snd
  · rw [h.mem_numbered_of_slot hb hi]
    exact (or_iff_right (not_and_of_not_right _ (not_not_intro hi))).trans and_assoc.symm
  · have hnone : (value, i) ∉ e.value.items :=
      fun hitem => hi (List.mem_map_of_mem (f := Prod.snd) hitem)
    simp only [hi, hnone, not_false_eq_true, and_true, and_false, or_false, hkeep i hi]

/-- An entry that is taken out takes the pairs in its slots along. -/
theorem numbered_erase (h : d.WellFormed) (hb : d.table.read b = some e) :
    (d.erase P b).numbered = d.numbered.filter fun y => y.1 ∉ e.value.items.map Prod.snd := by
  have hread : ∀ c, (d.erase P b).table.read c = if b = c then none else d.table.read c := by
    intro c
    unfold erase
    rw [hb]
    exact RawTable.read_remove
  refine h.numbered_keep (h.erase P b) hb (fun c hc => by rw [hread, if_neg hc])
    (fun i => i ∉ e.value.items.map Prod.snd) ?_ fun _ hi => hi
  intro key value i
  rw [hread, if_pos rfl]
  constructor
  · rintro ⟨e', he', -⟩
    cases he'
  · rintro ⟨-, hitem, hi⟩
    exact absurd (List.mem_map_of_mem (f := Prod.snd) hitem) hi

/-- The instances that are left when one is taken out are those in other slots. -/
theorem mem_eraseIdx_iff {items : List (V × ℕ)} (hnodup : (items.map Prod.snd).Nodup) {sub : ℕ}
    {x y : V × ℕ} (hx : items[sub]? = some x) :
    y ∈ items.eraseIdx sub ↔ y ∈ items ∧ y.2 ≠ x.2 := by
  induction items generalizing sub with
  | nil => cases hx
  | cons z items ih =>
    obtain ⟨hz, hnodup⟩ := List.nodup_cons.mp hnodup
    cases sub with
    | zero =>
      obtain rfl : z = x := Option.some.inj hx
      rw [List.eraseIdx_zero, List.tail_cons, List.mem_cons]
      constructor
      · exact fun hy => ⟨.inr hy, fun heq => hz (heq ▸ List.mem_map_of_mem (f := Prod.snd) hy)⟩
      · rintro ⟨rfl | hy, hne⟩
        · exact absurd rfl hne
        · exact hy
    | succ sub =>
      have hmem : x ∈ items := List.mem_of_getElem? hx
      rw [List.eraseIdx_cons_succ, List.mem_cons, List.mem_cons, ih hnodup hx]
      constructor
      · rintro (rfl | ⟨hy, hne⟩)
        · exact ⟨.inl rfl, fun heq => hz (heq ▸ List.mem_map_of_mem (f := Prod.snd) hmem)⟩
        · exact ⟨.inr hy, hne⟩
      · rintro ⟨rfl | hy, hne⟩
        · exact .inl rfl
        · exact .inr ⟨hy, hne⟩

/-- An instance that is taken out takes the pair in its slot along. -/
theorem numbered_popItem (h : d.WellFormed) (hb : d.table.read b = some e) {items : List (V × ℕ)}
    (hv : e.value = .multi items) {sub : ℕ} {x : V × ℕ} (hx : items[sub]? = some x) :
    (d.popItem P b items sub).numbered = d.numbered.filter fun y => y.1 ≠ x.2 := by
  have hitems : e.value.items = items := by rw [hv]; rfl
  have hnodup : (items.map Prod.snd).Nodup := hitems ▸ (h.sorted b e hb).imp Nat.ne_of_lt
  refine h.numbered_keep (h.popItem P hb hv hx) hb (fun c hc => ?_) (fun i => i ≠ x.2)
    (fun key value i => ?_) ?_
  · unfold popItem
    dsimp only
    split_ifs
    · rw [RawTable.read_remove, if_neg hc]
    · rw [RawTable.read_modify, if_neg hc]
  · rw [hitems, ← mem_eraseIdx_iff hnodup hx]
    unfold popItem
    dsimp only
    split_ifs with hnil
    · rw [RawTable.read_remove, if_pos rfl, hnil]
      simp
    · rw [RawTable.read_modify, if_pos rfl, hb]
      simp
  · rintro i hi rfl
    exact hi (hitems ▸ List.mem_map_of_mem (f := Prod.snd) (List.mem_of_getElem? hx))

/-- A value that replaces those of a key is the one in the first of their slots. -/
theorem numbered_replace (h : d.WellFormed) (hb : d.table.read b = some e) {first : V × ℕ}
    {rest : List (V × ℕ)} (hitems : e.value.items = first :: rest) (value : V) :
    (d.insertAgain b value true).numbered =
      (d.numbered.filter fun y => y.1 = first.2 ∨ y.1 ∉ e.value.items.map Prod.snd).map fun y =>
        if y.1 = first.2 then (y.1, y.2.1, value) else y := by
  have hread : ∀ c, (d.insertAgain b value true).table.read c =
      if b = c then some { e with value := .single value first.2 } else d.table.read c := by
    intro c
    rw [insertAgain, hb]
    dsimp only
    rw [if_pos rfl]
    cases hv : e.value with
    | single v i =>
      rw [hv] at hitems
      obtain ⟨rfl, rfl⟩ := List.cons.inj hitems
      dsimp only
      rw [RawTable.read_modify]
      split_ifs with hc
      · rw [← hc, hb]
        rfl
      · rfl
    | multi items =>
      rw [hv] at hitems
      obtain rfl : items = first :: rest := hitems
      dsimp only
      rw [RawTable.read_modify]
      split_ifs with hc
      · rw [← hc, hb]
        rfl
      · rfl
  have hfirst : first.2 ∈ e.value.items.map Prod.snd :=
    List.mem_map_of_mem (f := Prod.snd) (hitems ▸ List.mem_cons_self)
  refine eq_of_mem_iff (numbered_sorted _) ?_ fun y => ?_
  · refine List.pairwise_map.mpr ((d.numbered_sorted.filter _).imp fun {x y} hlt => ?_)
    split_ifs <;> exact hlt
  · obtain ⟨i, key, v⟩ := y
    rw [h.mem_numbered_update (h.insertAgain b value true) hb fun c hc => by rw [hread, if_neg hc],
      hread, if_pos rfl]
    constructor
    · rintro (⟨hmem, hi⟩ | ⟨e', he', rfl, hitem⟩)
      · have hne : i ≠ first.2 := fun heq => hi (heq ▸ hfirst)
        exact List.mem_map.mpr
          ⟨(i, key, v), List.mem_filter.mpr ⟨hmem, decide_eq_true (.inr hi)⟩, if_neg hne⟩
      · obtain rfl := Option.some.inj he'
        obtain ⟨rfl, rfl⟩ := Prod.mk.inj (List.mem_singleton.mp hitem)
        refine List.mem_map.mpr ⟨(first.2, e.key, first.1),
          List.mem_filter.mpr ⟨?_, decide_eq_true (.inl rfl)⟩, if_pos rfl⟩
        exact (h.mem_numbered_of_slot hb hfirst).mpr ⟨rfl, hitems ▸ List.mem_cons_self⟩
    · intro hmap
      obtain ⟨⟨j, k, w⟩, hmem, heq⟩ := List.mem_map.mp hmap
      obtain ⟨hmem, hj⟩ := List.mem_filter.mp hmem
      dsimp only at heq
      split_ifs at heq with hj'
      · obtain ⟨rfl, rfl, rfl⟩ : j = i ∧ k = key ∧ value = v := by simpa using heq
        obtain ⟨hkey, -⟩ := (h.mem_numbered_of_slot hb (hj' ▸ hfirst)).mp hmem
        exact .inr ⟨_, rfl, hkey, hj' ▸ List.mem_singleton_self _⟩
      · obtain ⟨rfl, rfl, rfl⟩ : j = i ∧ k = key ∧ w = v := by simpa using heq
        exact .inl ⟨hmem, (of_decide_eq_true hj).resolve_left hj'⟩

/-! ### The pairs of a key -/

/-- The pairs of a key that an entry has are its instances. -/
theorem Lawful.numbered_of_read (h : d.Lawful els K) (hels : els.Lawful K) {key : V} (hkey : K key)
    (hb : d.table.read b = some e) (he : els.same key e.key = true) :
    (d.numbered.filter fun y => els.same key y.2.1) =
      e.value.items.map fun x => (x.2, e.key, x.1) := by
  refine eq_of_mem_iff (d.numbered_sorted.filter _) ?_ fun y => ?_
  · exact List.pairwise_map.mpr (List.pairwise_map.mp (h.wellFormed.sorted b e hb))
  · obtain ⟨i, k, v⟩ := y
    rw [List.mem_filter, h.wellFormed.mem_numbered, List.mem_map]
    constructor
    · rintro ⟨⟨c, f, hc, rfl, hitem⟩, hsame⟩
      obtain rfl := h.bucket_unique hels hkey hb hc he hsame
      obtain rfl := Option.some.inj (hb.symm.trans hc)
      exact ⟨(v, i), hitem, rfl⟩
    · rintro ⟨x, hx, heq⟩
      obtain ⟨rfl, rfl, rfl⟩ : x.2 = i ∧ e.key = k ∧ x.1 = v := by simpa using heq
      exact ⟨⟨b, e, hb, rfl, hx⟩, he⟩

/-- A key that no entry has has no pairs. -/
theorem Lawful.same_of_absent (h : d.Lawful els K) {key : V}
    (hnone : ∀ b e, d.table.read b = some e → els.same key e.key = false) :
    ∀ pair ∈ d.pairs, els.same key pair.1 = false := by
  rintro pair hpair
  rw [← numbered_snd] at hpair
  obtain ⟨⟨i, k, v⟩, hmem, rfl⟩ := List.mem_map.mp hpair
  obtain ⟨b, e, hb, rfl, -⟩ := h.wellFormed.mem_numbered.mp hmem
  exact hnone b e hb

/-- The pairs of a key are those in the slots of its entry. -/
theorem Lawful.same_iff (h : d.Lawful els K) (hels : els.Lawful K) {key : V} (hkey : K key)
    (hb : d.table.read b = some e) (he : els.same key e.key = true) {y : ℕ × V × V}
    (hy : y ∈ d.numbered) : els.same key y.2.1 = true ↔ y.1 ∈ e.value.items.map Prod.snd := by
  obtain ⟨i, k, v⟩ := y
  constructor
  · intro hsame
    have hmem : (i, k, v) ∈ d.numbered.filter fun y => els.same key y.2.1 :=
      List.mem_filter.mpr ⟨hy, hsame⟩
    rw [h.numbered_of_read hels hkey hb he] at hmem
    obtain ⟨x, hx, heq⟩ := List.mem_map.mp hmem
    obtain ⟨rfl, -, -⟩ : x.2 = i ∧ e.key = k ∧ x.1 = v := by simpa using heq
    exact List.mem_map_of_mem (f := Prod.snd) hx
  · intro hi
    obtain ⟨rfl, -⟩ := (h.wellFormed.mem_numbered_of_slot hb hi).mp hy
    exact he

/-- All pairs of a key have the same key. -/
theorem Lawful.key_of_same (h : d.Lawful els K) (hels : els.Lawful K) {key : V} (hkey : K key)
    (hb : d.table.read b = some e) (he : els.same key e.key = true) {pair : V × V}
    (hpair : pair ∈ d.pairs) (hsame : els.same key pair.1 = true) : pair.1 = e.key := by
  rw [← numbered_snd] at hpair
  obtain ⟨y, hy, rfl⟩ := List.mem_map.mp hpair
  have hi := (h.same_iff hels hkey hb he hy).mp hsame
  obtain ⟨i, k, v⟩ := y
  exact ((h.wellFormed.mem_numbered_of_slot hb hi).mp hy).1.symm

/-- The values of a key are those of its entry. -/
theorem Lawful.values_of_read (h : d.Lawful els K) (hels : els.Lawful K) {key : V} (hkey : K key)
    (hb : d.table.read b = some e) (he : els.same key e.key = true) :
    d.pairs.values els.same key = e.value.items.map Prod.fst := by
  rw [Multimap.values, ← numbered_snd, List.filter_map]
  change ((d.numbered.filter fun y => els.same key y.2.1).map Prod.snd).map Prod.snd = _
  rw [h.numbered_of_read hels hkey hb he, List.map_map, List.map_map]
  rfl

end Dict

end Dolang.Object
