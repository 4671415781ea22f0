import Dolang.Object.Requests

/-!
# Dictionaries refine multimaps

A dictionary and the pairs that it stands for answer every request alike and go on to stand for each
other (`serve_eq`), so they do over every list of requests, whatever the index and the table go
through meanwhile: compaction, moves to a new table, holes and instances that move up.
-/

namespace Dolang.Object

open Dolang.Runtime (element)

variable {V E : Type}

namespace Dict

variable {d d' : Dict V} {m : Multimap V V} {P : Probing (Entry V) E Entry.hash}
  {els : Elements V E} {K : V → Prop} {b : Bucket} {e : Entry V} {key value : V} {hv : Hash}

/-- A dictionary stands for pairs. -/
structure Represents (els : Elements V E) (K : V → Prop) (d : Dict V) (m : Multimap V V) :
    Prop where
  lawful : d.Lawful els K
  pairs : d.pairs = m
  total : d.totalPairs = m.length

theorem represents_new : Represents els K (new : Dict V) [] where
  lawful := lawful_new
  pairs := rfl
  total := rfl

/-- The epoch does not matter. -/
theorem Represents.epoch (h : Represents els K d m) (n : ℕ) :
    Represents els K { d with epoch := n } m where
  lawful := ⟨⟨h.lawful.wellFormed, h.lawful.distinct⟩, h.lawful.keys⟩
  pairs := h.pairs
  total := h.total

/-! ### Keys that stay lawful -/

theorem Lawful.erase (h : d.Lawful els K) (b : Bucket) : (d.erase P b).Lawful els K := by
  refine (h.toValid.erase b).lawful ?_
  unfold Dict.erase
  cases d.table.read b with
  | none => exact h.hashed
  | some e => exact h.hashed.map (KeyMap.remove b _)

theorem Lawful.popItem (h : d.Lawful els K) (hb : d.table.read b = some e) {items : List (V × ℕ)}
    (hv : e.value = .multi items) {sub : ℕ} {x : V × ℕ} (hx : items[sub]? = some x) :
    (d.popItem P b items sub).Lawful els K := by
  have hmap : KeyMap id d.table (d.popItem P b items sub).table := by
    unfold Dict.popItem
    dsimp only
    split_ifs
    · exact KeyMap.remove b _
    · exact KeyMap.modify b fun _ => _
  exact Valid.lawful ⟨h.wellFormed.popItem P hb hv hx, h.distinct.map hmap⟩ (h.hashed.map hmap)

theorem Lawful.replace (h : d.Lawful els K) (b : Bucket) (value : V) :
    (d.insertAgain b value true).Lawful els K := by
  refine (h.toValid.insertAgain b value true).lawful ?_
  unfold Dict.insertAgain
  cases d.table.read b with
  | none => exact h.hashed
  | some e =>
    dsimp only
    rw [if_pos rfl]
    split
    · exact h.hashed.map (KeyMap.modify b fun _ => _)
    · exact h.hashed
    · exact h.hashed.map (KeyMap.modify b fun _ => _)

/-! ### Insertions -/

theorem totalPairs_compact (d : Dict V) (capacity : ℕ) :
    (d.compact capacity).totalPairs = d.totalPairs := by
  unfold compact
  split_ifs <;> rfl

theorem totalPairs_insertNew (d : Dict V) (key value : V) (hv : Hash) :
    (d.insertNew P key value hv).totalPairs = d.totalPairs + 1 := by
  unfold insertNew
  split_ifs
  · exact congrArg (· + 1) (totalPairs_compact _ _)
  · exact congrArg (· + 1) (totalPairs_compact _ _)

theorem totalPairs_insertAgain (hb : d.table.read b = some e) (value : V) :
    (d.insertAgain b value false).totalPairs = d.totalPairs + 1 := by
  unfold insertAgain
  rw [hb]
  exact congrArg (· + 1) (totalPairs_compact _ _)

theorem pairs_of_rows {x : Row V} (h : d'.rows = d.rows ++ [x]) :
    d'.pairs = d.pairs ++ [(x.key, x.value)] := by
  rw [pairs, h, List.map_append]
  rfl

/-- A pair that is put in goes under the key that is there. -/
theorem Represents.insert (h : Represents els K d m) (hels : els.Lawful K) (hkey : K key)
    (hhash : els.hash key = .ok hv) (value : V) :
    ∃ d', d.insert P els.eq key value hv false = .ok d' ∧
      Represents els K d' (m.insert els.same key value) := by
  obtain ⟨d', key', hi, hlawful, -, -, hrows⟩ := h.lawful.insert (P := P) hels hkey hhash value
  refine ⟨d', hi, hlawful, ?_, ?_⟩
  · rw [pairs_of_rows hrows, h.pairs, Multimap.insert]
    obtain ⟨hf, hnone⟩ | ⟨b, e, hf, hb, he⟩ := h.lawful.find_eq (P := P) hels hkey hhash
    · rw [Dict.insert, hf] at hi
      obtain rfl := Except.ok.inj hi
      have hrows' := (rows_insertNew h.lawful.wellFormed key value hv).symm.trans hrows
      obtain rfl : key = key' := by simpa using hrows'
      rw [Multimap.keyOf_eq_self (h.pairs ▸ h.lawful.same_of_absent hnone)]
    · rw [Dict.insert, hf] at hi
      obtain rfl := Except.ok.inj hi
      have hrows' := (rows_insertAgain h.lawful.wellFormed hb value).symm.trans hrows
      obtain ⟨-, rfl⟩ : e.hash = hv ∧ e.key = key' := by simpa using hrows'
      obtain ⟨x, hx⟩ := List.exists_mem_of_ne_nil _ (h.lawful.wellFormed.nonempty b e hb)
      have hmem : (x.2, e.key, x.1) ∈ d.numbered :=
        h.lawful.wellFormed.mem_numbered.mpr ⟨b, e, hb, rfl, hx⟩
      have hpair : (e.key, x.1) ∈ m := by
        rw [← h.pairs, ← numbered_snd]
        exact List.mem_map_of_mem (f := Prod.snd) hmem
      rw [Multimap.keyOf_eq he (fun pair hp hsame => h.lawful.key_of_same hels hkey hb he
        (h.pairs ▸ hp) hsame) hpair rfl]
  · rw [Multimap.insert, List.length_append, List.length_singleton, ← h.total]
    obtain ⟨hf, -⟩ | ⟨b, e, hf, hb, -⟩ := h.lawful.find_eq (P := P) hels hkey hhash
    · rw [Dict.insert, hf] at hi
      obtain rfl := Except.ok.inj hi
      exact totalPairs_insertNew d key value hv
    · rw [Dict.insert, hf] at hi
      obtain rfl := Except.ok.inj hi
      exact totalPairs_insertAgain hb value

/-- A value that is assigned stands in for those of the key. -/
theorem Represents.assign (h : Represents els K d m) (hels : els.Lawful K) (hkey : K key)
    (hhash : els.hash key = .ok hv) (value : V) :
    ∃ d', d.insert P els.eq key value hv true = .ok d' ∧
      Represents els K d' (m.assign els.same key value) := by
  obtain ⟨hf, hnone⟩ | ⟨b, e, hf, hb, he⟩ := h.lawful.find_eq (P := P) hels hkey hhash
  · have habsent := h.pairs ▸ h.lawful.same_of_absent hnone
    obtain ⟨d', hi, hd'⟩ := h.insert (P := P) hels hkey hhash value
    have hsame : m.insert els.same key value = m.assign els.same key value := by
      rw [Multimap.insert, Multimap.keyOf_eq_self habsent, Multimap.assign_eq_insert habsent]
    refine ⟨d', ?_, hsame ▸ hd'⟩
    rw [Dict.insert, hf] at hi ⊢
    exact hi
  · refine ⟨d.insertAgain b value true, by rw [Dict.insert, hf]; rfl, h.lawful.replace b value,
      ?_, ?_⟩
    all_goals obtain ⟨first, rest, hitems⟩ :=
      List.exists_cons_of_ne_nil (h.lawful.wellFormed.nonempty b e hb)
    · have hhead : (d.numbered.filter fun y => els.same key y.2.1).head? =
          some (first.2, e.key, first.1) := by
        rw [h.lawful.numbered_of_read hels hkey hb he, hitems]
        rfl
      rw [← numbered_snd, numbered_replace h.lawful.wellFormed hb hitems value, ← h.pairs,
        ← numbered_snd, Multimap.assign_map d.numbered_nodup hhead, List.map_map]
      have hfilter : ∀ y ∈ d.numbered,
          (decide (y.1 = first.2 ∨ y.1 ∉ e.value.items.map Prod.snd)) =
            (decide (y.1 = first.2) || !els.same key y.2.1) := by
        intro y hy
        have hiff := h.lawful.same_iff hels hkey hb he hy
        rw [Bool.eq_iff_iff, decide_eq_true_iff, Bool.or_eq_true, decide_eq_true_iff,
          Bool.not_eq_true', ← Bool.not_eq_true, hiff]
      rw [List.filter_congr hfilter]
      refine List.map_congr_left fun y _ => ?_
      rw [Function.comp_apply]
      split_ifs <;> rfl
    · have hvalues := h.pairs ▸ h.lawful.values_of_read hels hkey hb he
      have hlength : (m.values els.same key).length + (m.delete els.same key).length = m.length :=
        Multimap.length_values_add_delete m key
      rw [hvalues, hitems, List.length_map, List.length_cons, ← h.total] at hlength
      rw [Multimap.length_assign]
      have htotal : (d.insertAgain b value true).totalPairs = d.totalPairs - rest.length := by
        unfold insertAgain
        rw [hb]
        dsimp only
        rw [if_pos rfl]
        cases hv : e.value with
        | single v i =>
          rw [hv] at hitems
          obtain ⟨-, rfl⟩ := List.cons.inj hitems
          rfl
        | multi items =>
          rw [hv] at hitems
          obtain rfl : items = first :: rest := hitems
          rfl
      omega

/-! ### Pairs that are taken out -/

/-- An entry that is taken out takes the pairs of its key along. -/
theorem Represents.erase (h : Represents els K d m) (hels : els.Lawful K) (hkey : K key)
    (hb : d.table.read b = some e) (he : els.same key e.key = true) :
    Represents els K (d.erase P b) (m.delete els.same key) where
  lawful := h.lawful.erase b
  pairs := by
    rw [← numbered_snd, numbered_erase h.lawful.wellFormed hb, ← h.pairs, ← numbered_snd,
      Multimap.delete, List.filter_map]
    refine congrArg _ (List.filter_congr fun y hy => ?_)
    have hiff := h.lawful.same_iff hels hkey hb he hy
    rw [Function.comp_apply, Bool.eq_iff_iff, decide_eq_true_iff, Bool.not_eq_true',
      ← Bool.not_eq_true, hiff]
  total := by
    have hvalues := h.pairs ▸ h.lawful.values_of_read hels hkey hb he
    have hlength : (m.values els.same key).length + (m.delete els.same key).length = m.length :=
      Multimap.length_values_add_delete m key
    rw [hvalues, List.length_map, ← EntryValue.len_eq, ← h.total] at hlength
    unfold Dict.erase
    rw [hb]
    dsimp only
    omega

/-- An instance that is taken out takes the pair with its number along. -/
theorem Represents.popItem (h : Represents els K d m) (hels : els.Lawful K) (hkey : K key)
    (hb : d.table.read b = some e) (he : els.same key e.key = true) {items : List (V × ℕ)}
    (hv : e.value = .multi items) {sub : ℕ} {x : V × ℕ} (hx : items[sub]? = some x) :
    Represents els K (d.popItem P b items sub) (m.remove els.same key sub) where
  lawful := h.lawful.popItem hb hv hx
  pairs := by
    have hitem : (d.numbered.filter fun y => els.same key y.2.1)[sub]? =
        some (x.2, e.key, x.1) := by
      rw [h.lawful.numbered_of_read hels hkey hb he, hv, EntryValue.items_multi,
        List.getElem?_map, hx]
      rfl
    rw [← numbered_snd, numbered_popItem h.lawful.wellFormed hb hv hx, ← h.pairs, ← numbered_snd,
      Multimap.remove_map d.numbered_nodup hitem]
  total := by
    have hvalues := h.pairs ▸ h.lawful.values_of_read hels hkey hb he
    have hlt : sub < (m.values els.same key).length := by
      rw [hvalues, hv, EntryValue.items_multi, List.length_map]
      exact (List.getElem?_eq_some_iff.mp hx).1
    have hlength := Multimap.length_remove hlt
    rw [← h.total] at hlength
    change d.totalPairs - 1 = _
    omega

/-- Popping an instance of an entry takes the pair with its number out, when it is there. -/
theorem Represents.popAt (h : Represents els K d m) (hels : els.Lawful K) (hkey : K key)
    (hb : d.table.read b = some e) (he : els.same key e.key = true) (subindex : Option ℤ) :
    (Pairs.popped els m key subindex = none ∧ d.popAt P b subindex = none) ∨
      ∃ i v d', Pairs.popped els m key subindex = some (i, v) ∧
        d.popAt P b subindex = some (d', v) ∧ Represents els K d' (m.remove els.same key i) := by
  have hvalues := h.pairs ▸ h.lawful.values_of_read hels hkey hb he
  unfold Pairs.popped Pairs.pick Dict.popAt
  rw [hvalues, List.length_map, hb, Option.bind_some]
  cases hv : e.value with
  | single v i =>
    rw [hv] at hvalues
    dsimp only [EntryValue.items_single, List.length_singleton, List.map_cons, List.map_nil]
    cases hsub : subindex.elim (some 0) (element 1) with
    | none => exact .inl ⟨rfl, rfl⟩
    | some j =>
      cases j with
      | zero =>
        refine .inr ⟨0, v, d.erase P b, rfl, rfl, ?_⟩
        rw [Multimap.remove_eq_delete hvalues]
        exact h.erase hels hkey hb he
      | succ j => exact .inl ⟨rfl, if_neg (by simp)⟩
  | multi items =>
    dsimp only [EntryValue.items_multi]
    cases hsub : subindex.elim (some 0) (element items.length) with
    | none => exact .inl ⟨rfl, rfl⟩
    | some j =>
      rw [Option.bind_some, Option.bind_some, List.getElem?_map]
      cases hx : items[j]? with
      | none => exact .inl ⟨rfl, rfl⟩
      | some x => exact .inr ⟨j, x.1, _, rfl, rfl, h.popItem hels hkey hb he hv hx⟩

theorem represents_clear (d : Dict V) : Represents els K d.mcallClear [] where
  lawful := (Valid.mcallClear d).lawful fun b x hx => by simp [mcallClear, keyed] at hx
  pairs := rfl
  total := rfl

/-! ### Copies -/

/-- A pair of the dictionary belongs to an entry under the hash of its key. -/
theorem Lawful.exists_entry (h : d.Lawful els K) {x : Row V} (hx : x ∈ d.rows) :
    ∃ b e, d.table.read b = some e ∧ e.key = x.key ∧ K x.key ∧ els.hash x.key = .ok x.hash := by
  rw [rows_eq_listing] at hx
  obtain ⟨y, hy, rfl⟩ := List.mem_map.mp hx
  obtain ⟨e, he, hkey, hhash, -⟩ := entry_of_row (row_of_mem_listing hy)
  obtain ⟨hK, hhashed⟩ := h.keys he
  exact ⟨y.1.1, e, he, hkey, hkey ▸ hK, by rw [← hkey, ← hhash, hhashed]⟩

/-- A copy stands for the same pairs. -/
theorem Represents.copy (h : Represents els K d m) (hels : els.Lawful K) :
    ∃ d', d.copy P els = .ok d' ∧ Represents els K d' m := by
  -- The walk has put in the pairs `done`, each under its own key.
  have hwalk : ∀ (rest done : List (Row V)) (c : Dict V), done ++ rest = d.rows →
      Represents els K c (done.map fun x => (x.key, x.value)) →
      ∃ d', rest.foldlM (fun copy x => copy.insert P els.eq x.key x.value x.hash false) c = .ok d' ∧
        Represents els K d' m := by
    intro rest
    induction rest with
    | nil =>
      intro done c hdone hc
      rw [List.append_nil] at hdone
      have hpairs : (done.map fun x => (x.key, x.value)) = m := by rw [hdone, ← h.pairs]; rfl
      exact ⟨c, rfl, hpairs ▸ hc⟩
    | cons x rest ih =>
      intro done c hdone hc
      have hx : x ∈ d.rows := hdone ▸ List.mem_append_right _ List.mem_cons_self
      obtain ⟨b, e, hb, hekey, hK, hhash⟩ := h.lawful.exists_entry hx
      obtain ⟨c', hi, hc'⟩ := hc.insert (P := P) hels hK hhash x.value
      have hkey : Multimap.keyOf els.same (done.map fun x => (x.key, x.value)) x.key = x.key := by
        refine Multimap.keyOf_of_uniform fun pair hpair hsame => ?_
        obtain ⟨y, hy, rfl⟩ := List.mem_map.mp hpair
        have hmem : (y.key, y.value) ∈ d.pairs :=
          List.mem_map.mpr ⟨y, hdone ▸ List.mem_append_left _ hy, rfl⟩
        exact (h.lawful.key_of_same hels hK hb (hekey.symm ▸ hels.refl hK) hmem hsame).trans hekey
      rw [Multimap.insert, hkey] at hc'
      obtain ⟨d', hfold, hd'⟩ := ih (done ++ [x]) c' (by rw [← hdone, List.append_assoc]; rfl)
        (by rw [List.map_append]; exact hc')
      refine ⟨d', ?_, hd'⟩
      rw [List.foldlM_cons, hi]
      exact hfold
  exact hwalk d.rows [] new rfl represents_new

/-! ### Lookups -/

/-- The lookup of a key finds the entry with its values, if there are any. -/
theorem Represents.find (h : Represents els K d m) (hels : els.Lawful K) (hkey : K key)
    (hhash : els.hash key = .ok hv) :
    (d.find P els.eq hv key = .ok none ∧ ∀ pair ∈ m, els.same key pair.1 = false) ∨
      ∃ b e, d.find P els.eq hv key = .ok (some b) ∧ d.table.read b = some e ∧
        els.same key e.key = true ∧ e.value.items ≠ [] ∧
        m.values els.same key = e.value.items.map Prod.fst := by
  obtain ⟨hf, hnone⟩ | ⟨b, e, hf, hb, he⟩ := h.lawful.find_eq (P := P) hels hkey hhash
  · exact .inl ⟨hf, h.pairs ▸ h.lawful.same_of_absent hnone⟩
  · exact .inr ⟨b, e, hf, hb, he, h.lawful.wellFormed.nonempty b e hb,
      h.pairs ▸ h.lawful.values_of_read hels hkey hb he⟩

/-- The lookup of the entry of a key. -/
theorem Represents.entry (h : Represents els K d m) (hels : els.Lawful K) (hkey : K key) :
    (d.entry P els key = .ok none ∧ m.values els.same key = []) ∨
      ∃ e, d.entry P els key = .ok (some e) ∧ e.value.items ≠ [] ∧
        m.values els.same key = e.value.items.map Prod.fst := by
  obtain ⟨hv, hhash⟩ := hels.hash hkey
  have hentry : d.entry P els key =
      (d.find P els.eq hv key).map fun found => found.bind d.table.read := by
    unfold Dict.entry
    rw [hhash]
    rfl
  obtain ⟨hf, habsent⟩ | ⟨b, e, hf, hb, -, hne, hvalues⟩ := h.find (P := P) hels hkey hhash
  · exact .inl ⟨by rw [hentry, hf]; rfl, Multimap.values_eq_nil_iff.mpr habsent⟩
  · exact .inr ⟨e, by rw [hentry, hf]; exact congrArg Except.ok hb, hne, hvalues⟩

/-- The value that was inserted last. -/
theorem get_none_eq {v : EntryValue V} (h : v.items ≠ []) :
    v.get none = (v.items.map Prod.fst).getLast? := by
  cases v with
  | single value i => rfl
  | multi items => rw [EntryValue.items_multi, List.getLast?_map, List.getLast?_eq_getElem?]; rfl

/-! ### Requests -/

theorem mcallInsert_of_hash (hhash : els.hash key = .ok hv) (value : V) :
    d.mcallInsert P els.eq els.hash key value =
      (d.insert P els.eq key value hv false).map fun d => { d with epoch := d.epoch + 1 } := by
  unfold mcallInsert
  rw [hhash]
  rfl

theorem opAssign_of_hash (hhash : els.hash key = .ok hv) (value : V) :
    d.opAssign P els.eq els.hash key value =
      (d.insert P els.eq key value hv true).map fun d => { d with epoch := d.epoch + 1 } := by
  unfold opAssign
  rw [hhash]
  rfl

theorem delete_of_hash (hhash : els.hash key = .ok hv) :
    d.delete P els.eq els.hash key = (d.find P els.eq hv key).map fun found =>
      (found.elim d (d.erase P), found.isSome) := by
  unfold delete
  rw [hhash]
  change Except.map _ (d.find P els.eq hv key) = _
  cases d.find P els.eq hv key with
  | error x => rfl
  | ok found => cases found <;> rfl

theorem mcallPop_of_hash (hhash : els.hash key = .ok hv) (subindex : Option ℤ) :
    d.mcallPop P els.eq els.hash key subindex = (d.find P els.eq hv key).map fun found =>
      found.bind fun bucket => d.popAt P bucket subindex := by
  unfold mcallPop
  rw [hhash]
  rfl

/-- What a request to either comes to, when it succeeds. -/
theorem serve_of_ok {r : Request V} {a : Answer V} {m' : Multimap V V}
    (hd : d.request P els r = .ok (d', a)) (hm : Pairs.request els m r = .ok (m', a))
    (h : Represents els K d' m') :
    (d.serve P els r).2 = (Pairs.serve els m r).2 ∧
      Represents els K (d.serve P els r).1 (Pairs.serve els m r).1 := by
  unfold Dict.serve Pairs.serve
  rw [hd, hm]
  exact ⟨rfl, h⟩

theorem anyM_map {α β : Type} {f : α → β} {p : β → Except E Bool} (l : List α) :
    (l.map f).anyM p = l.anyM fun x => p (f x) := by
  induction l with
  | nil => rfl
  | cons x l ih =>
    rw [List.map_cons, List.anyM, List.anyM, ih]

/-- A value is looked for among those of the key. -/
theorem Represents.contains (h : Represents els K d m) (hels : els.Lawful K) (hkey : K key)
    (value : V) :
    d.mcallContains P els key (some value) =
      (m.values els.same key).anyM fun v => els.eq v value := by
  unfold mcallContains
  obtain ⟨hentry, hvalues⟩ | ⟨e, hentry, -, hvalues⟩ := h.entry (P := P) hels hkey
  · rw [hentry, hvalues]
    rfl
  · rw [hentry, hvalues, anyM_map]
    rfl

/-- A dictionary and the pairs that it stands for answer a request alike. -/
theorem Represents.serve (h : Represents els K d m) (hels : els.Lawful K) {r : Request V}
    (hr : ∀ key, r.key? = some key → K key) :
    (d.serve P els r).2 = (Pairs.serve els m r).2 ∧
      Represents els K (d.serve P els r).1 (Pairs.serve els m r).1 := by
  cases r with
  | insert key value =>
    obtain ⟨hv, hhash⟩ := hels.hash (hr key rfl)
    obtain ⟨d', hi, hd'⟩ := h.insert (P := P) hels (hr key rfl) hhash value
    refine serve_of_ok ?_ rfl (hd'.epoch (d'.epoch + 1))
    rw [Dict.request, mcallInsert_of_hash hhash, hi]
    rfl
  | assign key value =>
    obtain ⟨hv, hhash⟩ := hels.hash (hr key rfl)
    obtain ⟨d', hi, hd'⟩ := h.assign (P := P) hels (hr key rfl) hhash value
    refine serve_of_ok ?_ rfl (hd'.epoch (d'.epoch + 1))
    rw [Dict.request, opAssign_of_hash hhash, hi]
    rfl
  | delete key =>
    obtain ⟨hv, hhash⟩ := hels.hash (hr key rfl)
    obtain ⟨hf, habsent⟩ | ⟨b, e, hf, hb, he, hne, hvalues⟩ :=
      h.find (P := P) hels (hr key rfl) hhash
    · have hsame : Represents els K d (m.delete els.same key) := by
        rwa [Multimap.delete_eq_self habsent]
      refine serve_of_ok (a := .flag false) ?_ ?_ hsame
      · rw [Dict.request, delete_of_hash hhash, hf]
        rfl
      · rw [Pairs.request, Multimap.any_eq, Multimap.values_eq_nil_iff.mpr habsent]
        rfl
    · refine serve_of_ok (a := .flag true) ?_ ?_ (h.erase (P := P) hels (hr key rfl) hb he)
      · rw [Dict.request, delete_of_hash hhash, hf]
        rfl
      · rw [Pairs.request, Multimap.any_eq, hvalues, List.isEmpty_map,
          List.isEmpty_eq_false_iff.mpr hne]
        rfl
  | pop key subindex =>
    obtain ⟨hv, hhash⟩ := hels.hash (hr key rfl)
    obtain ⟨hf, habsent⟩ | ⟨b, e, hf, hb, he, hne, hvalues⟩ :=
      h.find (P := P) hels (hr key rfl) hhash
    · refine serve_of_ok (a := .value none) ?_ ?_ h
      · rw [Dict.request, mcallPop_of_hash hhash, hf]
        rfl
      · rw [Pairs.request, Pairs.popped, Multimap.values_eq_nil_iff.mpr habsent]
        cases subindex.elim (some 0) (Pairs.pick els m key) <;> rfl
    · have hrun : d.mcallPop P els.eq els.hash key subindex = .ok (d.popAt P b subindex) := by
        rw [mcallPop_of_hash hhash, hf]
        rfl
      obtain ⟨hpopped, hpop⟩ | ⟨i, v, d', hpopped, hpop, hd'⟩ :=
        h.popAt (P := P) hels (hr key rfl) hb he subindex
      · refine serve_of_ok (by rw [Dict.request, hrun, hpop]; rfl) ?_ h
        rw [Pairs.request, hpopped]
        rfl
      · refine serve_of_ok (by rw [Dict.request, hrun, hpop]; rfl) ?_ hd'
        rw [Pairs.request, hpopped]
        rfl
  | clear => exact serve_of_ok rfl rfl (represents_clear d)
  | copy =>
    obtain ⟨d', hi, hd'⟩ := h.copy (P := P) hels
    refine serve_of_ok ?_ rfl hd'
    rw [Dict.request, hi]
    rfl
  | get key subindex =>
    obtain ⟨hentry, hvalues⟩ | ⟨e, hentry, hne, hvalues⟩ := h.entry (P := P) hels (hr key rfl)
    · refine serve_of_ok (a := .value none) ?_ ?_ h
      · rw [Dict.request, getInstance, hentry]
        rfl
      · cases subindex with
        | none => rw [Pairs.request, hvalues]; rfl
        | some i =>
          rw [Pairs.request, hvalues]
          cases Pairs.pick els m key i <;> rfl
    · cases subindex with
      | none =>
        refine serve_of_ok ?_ rfl h
        rw [Dict.request, getInstance, hentry, hvalues, ← get_none_eq hne]
        rfl
      | some i =>
        refine serve_of_ok ?_ rfl h
        rw [Dict.request, getInstance, hentry, Pairs.pick, hvalues, List.length_map,
          ← EntryValue.len_eq]
        change Except.ok (d, Answer.value (Option.bind _ _)) = _
        simp only [Option.bind_some, EntryValue.get_some, List.getElem?_map]
  | index key =>
    obtain ⟨hentry, hvalues⟩ | ⟨e, hentry, hne, hvalues⟩ := h.entry (P := P) hels (hr key rfl)
    · refine serve_of_ok ?_ rfl h
      rw [Dict.request, opIndex, hentry, hvalues]
      rfl
    · refine serve_of_ok ?_ rfl h
      rw [Dict.request, opIndex, hentry, hvalues, ← get_none_eq hne]
      rfl
  | contains key value =>
    cases value with
    | none =>
      obtain ⟨hentry, hvalues⟩ | ⟨e, hentry, hne, hvalues⟩ := h.entry (P := P) hels (hr key rfl)
      · refine serve_of_ok (a := .flag false) ?_ ?_ h
        · rw [Dict.request, mcallContains, hentry]
          rfl
        · rw [Pairs.request, Multimap.any_eq, hvalues]
          rfl
      · refine serve_of_ok (a := .flag true) ?_ ?_ h
        · rw [Dict.request, mcallContains, hentry]
          rfl
        · rw [Pairs.request, Multimap.any_eq, hvalues, List.isEmpty_map,
            List.isEmpty_eq_false_iff.mpr hne]
          rfl
    | some value =>
      have hcontains := h.contains (P := P) hels (hr key rfl) value
      cases hfound : (m.values els.same key).anyM fun v => els.eq v value with
      | error x =>
        unfold Dict.serve Pairs.serve
        rw [Dict.request, hcontains, Pairs.request, hfound]
        exact ⟨rfl, h⟩
      | ok found =>
        refine serve_of_ok ?_ (by rw [Pairs.request, hfound]; rfl) h
        rw [Dict.request, hcontains, hfound]
        rfl
  | count key =>
    obtain ⟨hentry, hvalues⟩ | ⟨e, hentry, hne, hvalues⟩ := h.entry (P := P) hels (hr key rfl)
    · refine serve_of_ok ?_ rfl h
      rw [Dict.request, mcallCount, hentry, hvalues]
      rfl
    · refine serve_of_ok ?_ rfl h
      rw [Dict.request, mcallCount, hentry, hvalues, List.length_map, ← EntryValue.len_eq]
      rfl
  | len => exact serve_of_ok rfl (by rw [h.total]; rfl) h

/-- Over every list of requests a dictionary gives the answers that its pairs give, in whatever way
the table probes. It then stands for the pairs that the requests have left, with their number, and
its index and its entries name each other. -/
theorem refines_multimap (P : Probing (Entry V) E Entry.hash) (hels : els.Lawful K)
    (requests : List (Request V)) (hkeys : ∀ r ∈ requests, ∀ key, r.key? = some key → K key) :
    (Service.answers (Dict.serve P els) new requests).1 =
        (Service.answers (Pairs.serve els) [] requests).1 ∧
      (Service.answers (Dict.serve P els) new requests).2.pairs =
        (Service.answers (Pairs.serve els) [] requests).2 ∧
      (Service.answers (Dict.serve P els) new requests).2.totalPairs =
        (Service.answers (Pairs.serve els) [] requests).2.length ∧
      (Service.answers (Dict.serve P els) new requests).2.WellFormed := by
  have hstep : ∀ (d : Dict V) m r, Represents els K d m → (∀ key, r.key? = some key → K key) →
      (d.serve P els r).2 = (Pairs.serve els m r).2 ∧
        Represents els K (d.serve P els r).1 (Pairs.serve els m r).1 :=
    fun _ _ _ h hr => h.serve hels hr
  obtain ⟨hanswers, hlast⟩ := Service.answers_eq hstep represents_new hkeys
  exact ⟨hanswers, hlast.pairs, hlast.total, hlast.lawful.wellFormed⟩

/-- Numbers with only two hashes, so that most keys collide. -/
def parities : Elements ℕ Unit where
  eq a b := .ok (a == b)
  hash k := .ok (BitVec.ofNat 64 (k % 2))
  asInt k := some k
  ofInt := Int.toNat
  ofSym := String.length
  ofStr := String.length
  overflow := ()

theorem lawful_parities : parities.Lawful fun _ => True where
  total _ _ := rfl
  refl _ := beq_self_eq_true _
  symm _ _ hsame := beq_iff_eq.mpr (beq_iff_eq.mp hsame).symm
  trans _ _ _ hab hbc := beq_iff_eq.mpr ((beq_iff_eq.mp hab).trans (beq_iff_eq.mp hbc))
  hash _ := ⟨_, rfl⟩
  hash_eq _ _ hsame := congrArg parities.hash (beq_iff_eq.mp hsame)
  asInt_eq _ _ hsame := congrArg parities.asInt (beq_iff_eq.mp hsame)
  ofInt h0 _ := ⟨trivial, congrArg some (Int.toNat_of_nonneg h0)⟩
  asInt_same _ _ ha hb := beq_iff_eq.mpr (Int.ofNat.inj (Option.some.inj (ha.trans hb.symm)))

/-- Three values of one key among those of others: the middle one is popped and the last one is what
the key has. -/
theorem refines_multimap_parities :
    (Service.answers (Dict.serve (.linear Entry.hash) parities) new
      [.insert 1 10, .insert 3 30, .insert 1 11, .insert 1 12, .pop 1 (some (-2)), .index 1,
        .assign 1 13, .len]).1 =
      [.ok .done, .ok .done, .ok .done, .ok .done, .ok (.value (some 11)), .ok (.value (some 12)),
        .ok .done, .ok (.number 2)] :=
  (refines_multimap (.linear Entry.hash) lawful_parities _ fun _ _ _ _ => trivial).1.trans
    (by decide +kernel)

end Dict

end Dolang.Object
