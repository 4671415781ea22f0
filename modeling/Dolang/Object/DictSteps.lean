import Dolang.Object.Rehash

/-!
# The operations keep the invariant

One lemma for each way in which an operation changes the entries and the index together, and from
them that every operation of a dictionary takes a well-formed one to a well-formed one.
-/

namespace Dolang.Object

variable {V E : Type}

namespace Dict

variable {t : RawTable (Entry V)} {index : List (Option Place)} {b : Bucket} {e : Entry V}

/-- The elements of a list with one more at its end. -/
theorem getElem?_snoc {α : Type} {l : List α} {a x : α} {i : ℕ} :
    (l ++ [a])[i]? = some x ↔ l[i]? = some x ∨ (i = l.length ∧ a = x) := by
  by_cases hi : i < l.length
  · rw [List.getElem?_append_left hi]
    simp [Nat.ne_of_lt hi]
  · rw [List.getElem?_append_right (by omega), List.getElem?_eq_none (by omega : l.length ≤ i)]
    by_cases heq : i = l.length
    · simp [heq]
    · rw [List.getElem?_eq_none (by simp; omega)]
      simp [heq]

/-- Only the slots of the items become holes. -/
theorem getElem?_clear (items : List (V × ℕ)) (index : List (Option Place)) (i : ℕ) (p : Place) :
    (items.foldl (fun slots item => slots.set item.2 none) index)[i]? = some (some p) ↔
      index[i]? = some (some p) ∧ i ∉ items.map Prod.snd := by
  induction items generalizing index with
  | nil => simp
  | cons x items ih =>
    rw [List.foldl_cons, ih, List.map_cons, List.mem_cons, not_or, List.getElem?_set]
    by_cases hx : x.2 = i
    · rw [if_pos hx]
      split_ifs <;> simp [hx]
    · rw [if_neg hx]
      simp [Ne.symm hx]

namespace Indexed

/-- The slots that name an entry are those of its items. -/
theorem mem_slots_iff (h : Indexed t index) (he : t.read b = some e) {i : ℕ} :
    i ∈ e.value.items.map Prod.snd ↔ ∃ sub, index[i]? = some (some (b, sub)) := by
  constructor
  · intro hi
    obtain ⟨⟨v, i⟩, hx, rfl⟩ := List.mem_map.mp hi
    obtain ⟨sub, hsub⟩ := List.mem_iff_getElem?.mp hx
    exact ⟨sub, h.slot_of_item he hsub⟩
  · rintro ⟨sub, hi⟩
    obtain ⟨e', v, he', hx⟩ := h.item_of_slot hi
    obtain rfl := Option.some.inj (he.symm.trans he')
    exact List.mem_map.mpr ⟨(v, i), List.mem_of_getElem? hx, rfl⟩

/-- The slots of the items are slots of the index. -/
theorem lt_length (h : Indexed t index) (he : t.read b = some e) {i : ℕ}
    (hi : i ∈ e.value.items.map Prod.snd) : i < index.length := by
  obtain ⟨sub, hslot⟩ := (h.mem_slots_iff he).mp hi
  exact (List.getElem?_eq_some_iff.mp hslot).1

/-- An index that differs in the slots of one entry, which has been changed or taken out. -/
theorem update {t' : RawTable (Entry V)} {index' : List (Option Place)} (h : Indexed t index)
    (hother : ∀ c, b ≠ c → t'.read c = t.read c)
    (hslots : ∀ (i : ℕ) c sub, b ≠ c → (index'[i]? = some (some (c, sub)) ↔
      index[i]? = some (some (c, sub))))
    (hself : ∀ (i : ℕ) sub, index'[i]? = some (some (b, sub)) ↔
      ∃ v, item t' (b, sub) = some (v, i))
    (hnonempty : ∀ e', t'.read b = some e' → e'.value.items ≠ [])
    (hsorted : ∀ e', t'.read b = some e' →
      (e'.value.items.map Prod.snd).Pairwise (· < ·)) :
    Indexed t' index' where
  slot i p := by
    obtain ⟨c, sub⟩ := p
    by_cases hc : b = c
    · exact hc ▸ hself i sub
    · rw [hslots i c sub hc, h.slot i (c, sub), item, item]
      dsimp only
      rw [hother c hc]
  nonempty c f hf := by
    by_cases hc : b = c
    · exact hnonempty f (hc ▸ hf)
    · exact h.nonempty c f (hother c hc ▸ hf)
  sorted c f hf := by
    by_cases hc : b = c
    · exact hsorted f (hc ▸ hf)
    · exact h.sorted c f (hother c hc ▸ hf)

/-- Another instance of a key goes to the end of the index. -/
theorem push (h : Indexed t index) (he : t.read b = some e) (value : V) :
    Indexed (t.modify b fun e => { e with value := e.value.push value index.length })
      (index ++ [some (b, e.value.len)]) := by
  have hread : (t.modify b fun e =>
      { e with value := e.value.push value index.length }).read b =
      some { e with value := e.value.push value index.length } := by
    rw [RawTable.read_modify, if_pos rfl, he, Option.map_some]
  refine h.update (b := b) (fun c hc => ?_) (fun i c sub hc => ?_) (fun i sub => ?_)
    (fun e' he' => ?_) fun e' he' => ?_
  · rw [RawTable.read_modify, if_neg hc]
  · rw [getElem?_snoc]
    simp [hc]
  · simp only [item, hread, Option.bind_some, EntryValue.items_push, getElem?_snoc]
    rw [h.slot i (b, sub), EntryValue.len_eq, item, he, Option.bind_some]
    constructor
    · rintro (⟨v, hv⟩ | ⟨rfl, hsub⟩)
      · exact ⟨v, .inl hv⟩
      · obtain ⟨-, rfl⟩ := Prod.mk.inj (Option.some.inj hsub)
        exact ⟨value, .inr ⟨rfl, rfl⟩⟩
    · rintro ⟨v, hv | ⟨rfl, hv⟩⟩
      · exact .inl ⟨v, hv⟩
      · obtain ⟨-, rfl⟩ := Prod.mk.inj hv
        exact .inr ⟨rfl, rfl⟩
  · obtain rfl := Option.some.inj (hread.symm.trans he')
    simp [EntryValue.items_push]
  · obtain rfl := Option.some.inj (hread.symm.trans he')
    simp only [EntryValue.items_push, List.map_append, List.map_singleton]
    refine List.pairwise_append.mpr ⟨h.sorted b e he, List.pairwise_singleton _ _, ?_⟩
    intro i hi j hj
    obtain rfl := List.mem_singleton.mp hj
    exact h.lt_length he hi

/-- A new entry has its only pair at the end of the index. -/
theorem insertAt (h : Indexed t index) {i : ℕ} (hi : t.Vacant i) (key value : V) (hv : Hash) :
    Indexed (t.insertAt i { key, value := .single value index.length, hash := hv })
      (index ++ [some (t.bucket i, 0)]) := by
  have hread : (t.insertAt i { key, value := .single value index.length, hash := hv }).read
      (t.bucket i) = some { key, value := .single value index.length, hash := hv } := by
    rw [RawTable.read_insertAt hi, if_pos rfl]
  refine h.update (b := t.bucket i) (fun c hc => ?_) (fun j c sub hc => ?_) (fun j sub => ?_)
    (fun e' he' => ?_) fun e' he' => ?_
  · rw [RawTable.read_insertAt hi, if_neg (Ne.symm hc)]
  · rw [getElem?_snoc]
    simp [hc]
  · simp only [item, hread, Option.bind_some, EntryValue.items_single, getElem?_snoc]
    rw [h.slot j (t.bucket i, sub), item, hi.read_eq_none]
    cases sub <;> simp [eq_comm]
  · obtain rfl := Option.some.inj (hread.symm.trans he')
    simp
  · obtain rfl := Option.some.inj (hread.symm.trans he')
    exact List.pairwise_singleton _ _

/-- An entry that is taken out leaves holes. -/
theorem remove (h : Indexed t index) (he : t.read b = some e) (frees : Bool) :
    Indexed (t.remove b frees)
      (e.value.items.foldl (fun slots item => slots.set item.2 none) index) := by
  have hread : (t.remove b frees).read b = none := by rw [RawTable.read_remove, if_pos rfl]
  refine h.update (b := b) (fun c hc => ?_) (fun i c sub hc => ?_) (fun i sub => ?_)
    (fun e' he' => ?_) fun e' he' => ?_
  · rw [RawTable.read_remove, if_neg hc]
  · rw [getElem?_clear, h.mem_slots_iff he]
    refine and_iff_left_of_imp fun hi hmem => ?_
    obtain ⟨sub', hi'⟩ := hmem
    rw [hi] at hi'
    exact hc (congrArg Prod.fst (Option.some.inj (Option.some.inj hi'))).symm
  · rw [getElem?_clear, h.mem_slots_iff he, item, hread]
    simp only [Option.bind_none, reduceCtorEq, exists_false, iff_false, not_and, not_not]
    exact fun hi => ⟨sub, hi⟩
  · rw [hread] at he'
    cases he'
  · rw [hread] at he'
    cases he'

/-- The first instance of a key stands in for all of them. -/
theorem replace (h : Indexed t index) (he : t.read b = some e) {first : V × ℕ}
    {rest : List (V × ℕ)} (hitems : e.value.items = first :: rest) (value : V) :
    Indexed (t.modify b fun e => { e with value := .single value first.2 })
      (rest.foldl (fun slots item => slots.set item.2 none) index) := by
  have hread : (t.modify b fun e => { e with value := .single value first.2 }).read b =
      some { e with value := .single value first.2 } := by
    rw [RawTable.read_modify, if_pos rfl, he, Option.map_some]
  have hsorted := h.sorted b e he
  rw [hitems, List.map_cons, List.pairwise_cons] at hsorted
  refine h.update (b := b) (fun c hc => ?_) (fun i c sub hc => ?_) (fun i sub => ?_)
    (fun e' he' => ?_) fun e' he' => ?_
  · rw [RawTable.read_modify, if_neg hc]
  · rw [getElem?_clear]
    refine and_iff_left_of_imp fun hi hmem => ?_
    have hmem' : i ∈ e.value.items.map Prod.snd := by
      rw [hitems]
      exact List.mem_cons_of_mem _ hmem
    obtain ⟨sub', hi'⟩ := (h.mem_slots_iff he).mp hmem'
    rw [hi] at hi'
    exact hc (congrArg Prod.fst (Option.some.inj (Option.some.inj hi'))).symm
  · rw [getElem?_clear, h.slot i (b, sub)]
    simp only [item, he, hread, Option.bind_some, EntryValue.items_single, hitems]
    cases sub with
    | zero =>
      simp only [List.getElem?_cons_zero, Option.some.injEq]
      constructor
      · rintro ⟨⟨v, rfl⟩, -⟩
        exact ⟨value, rfl⟩
      · rintro ⟨v, hv⟩
        obtain ⟨-, rfl⟩ := Prod.mk.inj hv
        exact ⟨⟨first.1, rfl⟩, fun hmem => Nat.lt_irrefl _ (hsorted.1 _ hmem)⟩
    | succ sub =>
      simp only [List.getElem?_cons_succ, List.getElem?_nil, reduceCtorEq, exists_false, iff_false,
        not_and, not_not]
      rintro ⟨v, hv⟩
      exact List.mem_map.mpr ⟨(v, i), List.mem_of_getElem? hv, rfl⟩
  · obtain rfl := Option.some.inj (hread.symm.trans he')
    simp
  · obtain rfl := Option.some.inj (hread.symm.trans he')
    exact List.pairwise_singleton _ _

end Indexed

/-- Each item on the list gets its number, and the other slots stay as they are. -/
theorem getElem?_renumber (l : List ((V × ℕ) × ℕ)) (hnodup : (l.map fun x => x.1.2).Nodup)
    (index : List (Option Place)) (i : ℕ) :
    (∀ x ∈ l, x.1.2 = i → (l.foldl (fun slots item =>
      slots.modify item.1.2 (Option.map fun place => (place.1, item.2))) index)[i]? =
        index[i]?.map (Option.map fun place => (place.1, x.2))) ∧
    ((∀ x ∈ l, x.1.2 ≠ i) → (l.foldl (fun slots item =>
      slots.modify item.1.2 (Option.map fun place => (place.1, item.2))) index)[i]? =
        index[i]?) := by
  induction l generalizing index with
  | nil => simp
  | cons y l ih =>
    obtain ⟨hy, hnodup⟩ := List.nodup_cons.mp hnodup
    have hih := ih hnodup (index.modify y.1.2 (Option.map fun place => (place.1, y.2)))
    rw [List.foldl_cons]
    refine ⟨fun x hx hxi => ?_, fun hall => ?_⟩
    · obtain rfl | hx := List.mem_cons.mp hx
      · rw [hih.2 fun z hz hzi => hy (List.mem_map.mpr ⟨z, hz, hzi.trans hxi.symm⟩), hxi,
          List.getElem?_modify_eq]
        rfl
      · rw [hih.1 x hx hxi, List.getElem?_modify_ne]
        rintro rfl
        exact hy (List.mem_map.mpr ⟨x, hx, hxi⟩)
    · rw [hih.2 fun z hz => hall z (List.mem_cons_of_mem y hz),
        List.getElem?_modify_ne _ _ (hall y List.mem_cons_self)]

namespace Indexed

/-- An instance that is taken out leaves a hole, and the instances after it move up. -/
theorem popItem (h : Indexed t index) (he : t.read b = some e) {sub : ℕ} {x : V × ℕ}
    (hx : e.value.items[sub]? = some x) (hne : e.value.items.eraseIdx sub ≠ []) :
    Indexed (t.modify b fun f => { f with value := .multi (e.value.items.eraseIdx sub) })
      (((e.value.items.eraseIdx sub).zipIdx.drop sub).foldl (fun slots item =>
        slots.modify item.1.2 (Option.map fun place => (place.1, item.2)))
          (index.set x.2 none)) := by
  have hread : (t.modify b fun f =>
      { f with value := .multi (e.value.items.eraseIdx sub) }).read b =
      some { e with value := .multi (e.value.items.eraseIdx sub) } := by
    rw [RawTable.read_modify, if_pos rfl, he, Option.map_some]
  have hsorted : ((e.value.items.eraseIdx sub).map Prod.snd).Pairwise (· < ·) :=
    (h.sorted b e he).sublist ((List.eraseIdx_sublist _ _).map _)
  have hslot : ∀ (s : ℕ) v i, e.value.items[s]? = some (v, i) →
      index[i]? = some (some (b, s)) := fun s v i hs => h.slot_of_item he hs
  have hslot_inj : ∀ (s s' : ℕ) v w i, e.value.items[s]? = some (v, i) →
      e.value.items[s']? = some (w, i) → s = s' := by
    intro s s' v w i hs hs'
    have heq := (hslot s v i hs).symm.trans (hslot s' w i hs')
    exact congrArg Prod.snd (Option.some.inj (Option.some.inj heq))
  have herase : ∀ (k : ℕ) z, (e.value.items.eraseIdx sub)[k]? = some z ↔
      k < sub ∧ e.value.items[k]? = some z ∨ sub ≤ k ∧ e.value.items[k + 1]? = some z := by
    intro k z
    rw [List.getElem?_eraseIdx]
    split_ifs with hk
    · simp [hk, Nat.not_le.mpr hk]
    · simp [hk, Nat.not_lt.mp hk]
  generalize hitems : e.value.items.eraseIdx sub = items at hread hsorted herase hne ⊢
  have hmem : ∀ z k, (z, k) ∈ items.zipIdx.drop sub ↔
      sub ≤ k ∧ e.value.items[k + 1]? = some z := by
    intro z k
    rw [List.mem_iff_getElem?]
    constructor
    · rintro ⟨j, hj⟩
      rw [List.getElem?_drop, List.getElem?_zipIdx, Option.map_eq_some_iff] at hj
      obtain ⟨y, hy, hyz⟩ := hj
      obtain ⟨rfl, hk⟩ := Prod.mk.inj hyz
      obtain ⟨hlt, -⟩ | hk' := (herase _ _).mp hy
      · omega
      · rw [Nat.zero_add] at hk
        exact hk ▸ hk'
    · rintro ⟨hk, hz⟩
      refine ⟨k - sub, ?_⟩
      rw [List.getElem?_drop, List.getElem?_zipIdx, Nat.add_sub_of_le hk,
        (herase k z).mpr (.inr ⟨hk, hz⟩), Nat.zero_add]
      rfl
  have hnodup : ((items.zipIdx.drop sub).map fun x => x.1.2).Nodup := by
    have hsub : ((items.zipIdx.drop sub).map fun x => x.1.2).Sublist (items.map Prod.snd) := by
      have hfst : items = items.zipIdx.map Prod.fst := (List.zipIdx_map_fst 0 items).symm
      rw [hfst, List.map_map, List.zipIdx_map_fst]
      exact (List.drop_sublist _ _).map _
    exact (hsorted.imp Nat.ne_of_lt).sublist hsub
  have hset : ∀ (i : ℕ) q, (index.set x.2 none)[i]? = some (some q) ↔
      index[i]? = some (some q) ∧ i ≠ x.2 := by
    intro i q
    rw [List.getElem?_set]
    by_cases hi : x.2 = i
    · rw [if_pos hi]
      split_ifs <;> simp [hi]
    · rw [if_neg hi]
      simp [Ne.symm hi]
  obtain ⟨hin, hout⟩ := forall_and.mp fun i =>
    getElem?_renumber (items.zipIdx.drop sub) hnodup (index.set x.2 none) i
  generalize (items.zipIdx.drop sub).foldl (fun slots item =>
    slots.modify item.1.2 (Option.map fun place => (place.1, item.2)))
      (index.set x.2 none) = index' at hin hout ⊢
  -- The slots of the instances that move up, and the others.
  have hup : ∀ (k : ℕ) v i, sub ≤ k → e.value.items[k + 1]? = some (v, i) →
      index'[i]? = some (some (b, k)) := by
    intro k v i hk hv
    have hne' : i ≠ x.2 := by
      rintro rfl
      have := hslot_inj _ _ _ _ _ hx hv
      omega
    rw [hin i _ ((hmem (v, i) k).mpr ⟨hk, hv⟩) rfl,
      (hset i (b, k + 1)).mpr ⟨hslot _ _ _ hv, hne'⟩]
    rfl
  have hstay : ∀ i : ℕ, (∀ (k : ℕ) v, sub ≤ k → e.value.items[k + 1]? ≠ some (v, i)) →
      ∀ q, index'[i]? = some (some q) ↔ index[i]? = some (some q) ∧ i ≠ x.2 := by
    intro i hi q
    rw [hout i fun y hy hyi => ?_]
    · exact hset i q
    · obtain ⟨⟨v, i'⟩, k⟩ := y
      obtain rfl : i' = i := hyi
      obtain ⟨hk, hv⟩ := (hmem _ _).mp hy
      exact hi k v hk hv
  refine h.update (b := b) (fun c hc => ?_) (fun i c s hc => ?_) (fun i s => ?_)
    (fun e' he' => ?_) fun e' he' => ?_
  · rw [RawTable.read_modify, if_neg hc]
  · by_cases hi : ∃ k v, sub ≤ k ∧ e.value.items[k + 1]? = some (v, i)
    · obtain ⟨k, v, hk, hv⟩ := hi
      rw [hup k v i hk hv, hslot _ _ _ hv]
      simp [hc]
    · push Not at hi
      rw [hstay i hi]
      refine and_iff_left_of_imp fun hslots hix => ?_
      rw [hix, hslot sub x.1 x.2 hx] at hslots
      exact hc (congrArg Prod.fst (Option.some.inj (Option.some.inj hslots)))
  · simp only [item, hread, Option.bind_some, EntryValue.items_multi, herase]
    by_cases hi : ∃ k v, sub ≤ k ∧ e.value.items[k + 1]? = some (v, i)
    · obtain ⟨k, v, hk, hv⟩ := hi
      rw [hup k v i hk hv]
      constructor
      · intro hs
        obtain rfl : k = s := congrArg Prod.snd (Option.some.inj (Option.some.inj hs))
        exact ⟨v, .inr ⟨hk, hv⟩⟩
      · rintro ⟨w, ⟨hs, hw⟩ | ⟨hs, hw⟩⟩
        · have := hslot_inj _ _ _ _ _ hv hw
          omega
        · have := hslot_inj _ _ _ _ _ hv hw
          obtain rfl : k = s := by omega
          rfl
    · push Not at hi
      rw [hstay i hi, h.slot i (b, s), item, he, Option.bind_some]
      constructor
      · rintro ⟨⟨v, hv⟩, hix⟩
        have hs : s ≠ sub := by
          rintro rfl
          exact hix (congrArg Prod.snd (Option.some.inj (hv.symm.trans hx)))
        refine ⟨v, .inl ⟨?_, hv⟩⟩
        by_contra hlt
        obtain ⟨k, rfl⟩ := Nat.exists_eq_add_one_of_ne_zero (by omega : s ≠ 0)
        exact hi k v (by omega) hv
      · rintro ⟨v, ⟨hs, hv⟩ | ⟨hs, hv⟩⟩
        · refine ⟨⟨v, hv⟩, ?_⟩
          rintro rfl
          have := hslot_inj _ _ _ _ _ hv hx
          omega
        · exact absurd hv (hi s v hs)
  · obtain rfl := Option.some.inj (hread.symm.trans he')
    exact hne
  · obtain rfl := Option.some.inj (hread.symm.trans he')
    exact hsorted

end Indexed

/-! ## The operations -/

theorem vacant_renumber {i : ℕ} (places : List Place) (h : t.Vacant i) (k : ℕ) :
    (renumber places k t).Vacant i := by
  induction places generalizing t k with
  | nil => exact h
  | cons p places ih => exact ih (h.modify _ _) (k + 1)

theorem vacant_compact {d : Dict V} {i : ℕ} (h : d.table.Vacant i) (capacity : ℕ) :
    (d.compact capacity).table.Vacant i := by
  unfold compact
  split_ifs
  · exact vacant_renumber _ h 0
  · exact h

/-- Compacting the index does not show in the face of an entry. -/
theorem face_compact (d : Dict V) (capacity : ℕ) (b : Bucket) :
    ((d.compact capacity).table.read b).map Entry.face = (d.table.read b).map Entry.face := by
  unfold compact
  split_ifs
  · exact face_renumber _ b
  · rfl

/-- Entries with the same face have as many values. -/
theorem len_eq_of_face {e f : Entry V} (h : e.face = f.face) : e.value.len = f.value.len := by
  have hvalues : e.value.items.map Prod.fst = f.value.items.map Prod.fst :=
    congrArg (fun x => x.2.2) h
  rw [EntryValue.len_eq, EntryValue.len_eq, ← List.length_map Prod.fst, hvalues, List.length_map]

namespace WellFormed

variable {d : Dict V}

theorem insertAgain (h : d.WellFormed) (b : Bucket) (value : V) (unique : Bool) :
    (d.insertAgain b value unique).WellFormed := by
  unfold Dict.insertAgain
  cases he : d.table.read b with
  | none => exact h
  | some e =>
    dsimp only
    split_ifs
    · split
      · rename_i v i hv
        have hitems : e.value.items = (v, i) :: [] := by rw [hv]; rfl
        exact Indexed.replace h he hitems value
      · exact h
      · rename_i v i items hv
        have hitems : e.value.items = (v, i) :: items := by rw [hv]; rfl
        exact Indexed.replace h he hitems value
    · obtain ⟨e', he', hface⟩ := exists_of_face_eq
        ((face_compact d d.table.capacity b).trans (congrArg _ he))
      have hpush := Indexed.push (h.compact d.table.capacity) he' value
      rw [len_eq_of_face hface] at hpush
      exact hpush

theorem insertNew (P : Probing (Entry V) E Entry.hash) (h : d.WellFormed) (key value : V)
    (hv : Hash) : (d.insertNew P key value hv).WellFormed := by
  have hroom : ∀ (r : Dict V × ℕ), r.1.WellFormed → 0 < r.1.table.growthLeft →
      WellFormed (Dict.append { r.1.compact r.2 with
        table := (r.1.compact r.2).table.insertAt (P.place r.1.table hv)
          { key, value := .single value (r.1.compact r.2).index.length, hash := hv } }
        ((r.1.compact r.2).table.bucket (P.place r.1.table hv), 0)) := by
    intro r hr hleft
    exact Indexed.insertAt (hr.compact r.2) (vacant_compact (P.vacant hleft) r.2) key value hv
  unfold Dict.insertNew
  split_ifs with hfull
  · obtain ⟨hwf, hleft⟩ := h.rehash P rfl
    rw [← hfull]
    exact hroom (d.rehash P d.table.len) hwf hleft
  · refine hroom (d, d.table.capacity) h ?_
    unfold RawTable.capacity at hfull
    dsimp only
    omega

theorem insert {P : Probing (Entry V) E Entry.hash} {eq : V → V → Except E Bool}
    (h : d.WellFormed) {key value : V} {hv : Hash} {unique : Bool} {d' : Dict V}
    (hi : d.insert P eq key value hv unique = .ok d') : d'.WellFormed := by
  unfold Dict.insert at hi
  cases hf : d.find P eq hv key with
  | error x =>
    rw [hf] at hi
    cases hi
  | ok found =>
    rw [hf] at hi
    cases found with
    | some b =>
      obtain rfl := Except.ok.inj hi
      exact h.insertAgain b value unique
    | none =>
      obtain rfl := Except.ok.inj hi
      exact h.insertNew P key value hv

theorem erase (P : Probing (Entry V) E Entry.hash) (h : d.WellFormed) (b : Bucket) :
    (d.erase P b).WellFormed := by
  unfold Dict.erase
  cases he : d.table.read b with
  | none => exact h
  | some e => exact Indexed.remove h he _

theorem mcallClear (d : Dict V) : d.mcallClear.WellFormed where
  slot i p := by simp [Dict.mcallClear, item]
  nonempty b e he := by simp [Dict.mcallClear] at he
  sorted b e he := by simp [Dict.mcallClear] at he

theorem popItem (P : Probing (Entry V) E Entry.hash) (h : d.WellFormed) {b : Bucket} {e : Entry V}
    {items : List (V × ℕ)} (he : d.table.read b = some e) (hv : e.value = .multi items) {sub : ℕ}
    {x : V × ℕ} (hx : items[sub]? = some x) : (d.popItem P b items sub).WellFormed := by
  have hitems : e.value.items = items := by rw [hv]; rfl
  unfold Dict.popItem
  rw [hx]
  dsimp only
  split_ifs with hnil
  · -- The last instance leaves no entry behind.
    have hlen := List.length_eraseIdx_of_lt (List.getElem?_eq_some_iff.mp hx).1
    rw [hnil, List.length_nil] at hlen
    have hlt := (List.getElem?_eq_some_iff.mp hx).1
    obtain rfl : sub = 0 := by omega
    obtain ⟨y, rfl⟩ := List.length_eq_one_iff.mp (by omega : items.length = 1)
    obtain rfl : y = x := Option.some.inj hx
    have hremove := Indexed.remove h he (P.frees d.table b)
    rw [hitems] at hremove
    exact hremove
  · subst hitems
    exact Indexed.popItem h he hx hnil

theorem popAt {P : Probing (Entry V) E Entry.hash} (h : d.WellFormed) {b : Bucket}
    {subindex : Option ℤ} {d' : Dict V} {value : V}
    (hp : d.popAt P b subindex = some (d', value)) : d'.WellFormed := by
  unfold Dict.popAt at hp
  obtain ⟨e, he, hp⟩ := Option.bind_eq_some_iff.mp hp
  cases hv : e.value with
  | single v i =>
    rw [hv] at hp
    dsimp only at hp
    split_ifs at hp
    obtain ⟨rfl, -⟩ := Prod.mk.inj (Option.some.inj hp)
    exact h.erase P b
  | multi items =>
    rw [hv] at hp
    obtain ⟨sub, -, hp⟩ := Option.bind_eq_some_iff.mp hp
    obtain ⟨x, hx, hp⟩ := Option.map_eq_some_iff.mp hp
    obtain ⟨rfl, -⟩ := Prod.mk.inj hp
    exact h.popItem P he hv hx

end WellFormed

end Dict

end Dolang.Object
