import Dolang.Object.Lookup

/-!
# The pairs of a dictionary

The insertion of a pair adds it to the end of the pairs (`Lawful.insert`), whether the index is
compacted or everything moves to a new table, so a dictionary that is made of some pairs lists them
(`Lawful.insertAll`). Keys that compare lawfully stay so.
-/

namespace Dolang.Object

open Holes

variable {V E : Type}

namespace Dict

variable {t t' : RawTable (Entry V)} {d d' : Dict V} {P : Probing (Entry V) E Entry.hash}
  {els : Elements V E} {K : V → Prop}

/-- A pair shows in the face of its entry. -/
theorem row_eq_face (p : Place) :
    row t p = ((t.read p.1).map Entry.face).bind fun x =>
      x.2.2[p.2]?.map fun value => { hash := x.2.1, key := x.1, value } := by
  unfold row
  cases t.read p.1 with
  | none => rfl
  | some e =>
    simp only [Option.bind_some, Option.map_some, EntryValue.get_some, Entry.face,
      List.getElem?_map]

theorem row_of_face {p : Place} {b : Bucket}
    (h : (t'.read b).map Entry.face = (t.read p.1).map Entry.face) :
    row t' (b, p.2) = row t p := by
  rw [row_eq_face, row_eq_face, h]

/-- Pairs that keep their places stay what they are. -/
theorem rows_eq (hplaces : d'.places = d.places)
    (hface : ∀ b, (d'.table.read b).map Entry.face = (d.table.read b).map Entry.face) :
    d'.rows = d.rows := by
  change d'.places.filterMap _ = d.places.filterMap _
  rw [hplaces]
  exact List.filterMap_congr fun p _ => row_of_face (hface p.1)

theorem places_compact (d : Dict V) (capacity : ℕ) : (d.compact capacity).places = d.places := by
  unfold compact
  split_ifs
  · exact (reduceOption_map_some id d.places).trans (List.map_id _)
  · rfl

theorem rows_compact (d : Dict V) (capacity : ℕ) : (d.compact capacity).rows = d.rows :=
  rows_eq (places_compact d capacity) (face_compact d capacity)

/-- A pair that comes last. -/
theorem rows_append {p : Place} {x : Row V} (hplaces : d'.places = d.places ++ [p])
    (hsame : ∀ q ∈ d.places, row d'.table q = row d.table q) (hx : row d'.table p = some x) :
    d'.rows = d.rows ++ [x] := by
  change d'.places.filterMap _ = d.places.filterMap _ ++ _
  rw [hplaces, List.filterMap_append, List.filterMap_congr hsame]
  exact congrArg _ (List.filterMap_cons_some hx)

theorem places_append (d : Dict V) (p : Place) : (d.append p).places = d.places ++ [p] := by
  change (d.index ++ [some p]).reduceOption = _
  rw [List.reduceOption_append]
  rfl

/-- Everything that moves to a new table stays the same pairs. -/
theorem rows_rehash (hd : d.WellFormed) {oldCapacity : ℕ} (hlen : d.table.len = oldCapacity) :
    (d.rehash P oldCapacity).1.rows = d.rows := by
  have hcap : d.table.len ≤ max 1 (oldCapacity * 2) := by omega
  have hm := moving_rehash P hd hcap
  unfold rows
  change ((d.index.reduceOption.foldl (Rehash.move P) _).index.reduceOption).filterMap _ = _
  rw [hm.index, reduceOption_map_some, List.filterMap_map]
  refine List.filterMap_congr fun p hp => ?_
  obtain ⟨e, he, -⟩ := hd.mem_places.mp hp
  obtain ⟨b', hb'⟩ := hm.all hd he
  obtain ⟨e', he', hface, -⟩ := hm.arrived p.1 e b' he hb'
  rw [Function.comp_apply, hb', Option.getD_some]
  refine row_of_face ?_
  rw [he]
  exact (congrArg (Option.map Entry.face) he').trans (congrArg some hface)

/-- Another pair under a key that is there. -/
theorem rows_insertAgain (hd : d.WellFormed) {b : Bucket} {e : Entry V}
    (he : d.table.read b = some e) (value : V) :
    (d.insertAgain b value false).rows = d.rows ++ [{ hash := e.hash, key := e.key, value }] := by
  obtain ⟨e', he', hface⟩ := exists_of_face_eq
    ((face_compact d d.table.capacity b).trans (congrArg _ he))
  have hlen := len_eq_of_face hface
  have hd' := hd.compact d.table.capacity
  rw [insertAgain, he]
  dsimp only
  rw [if_neg Bool.false_ne_true, ← rows_compact d d.table.capacity, ← hlen]
  refine rows_append (places_append _ _) (fun q hq => ?_) ?_
  · obtain ⟨f, hf, hlt⟩ := hd'.mem_places.mp hq
    change row (RawTable.modify _ b _) q = _
    rw [row, row, RawTable.read_modify]
    split_ifs with hb
    · rw [← hb, he'] at hf ⊢
      obtain rfl := Option.some.inj hf
      rw [Option.map_some, Option.bind_some, Option.bind_some, EntryValue.get_some,
        EntryValue.get_some, EntryValue.items_push,
        List.getElem?_append_left (by rwa [← EntryValue.len_eq])]
    · rfl
  · change row (RawTable.modify _ b _) (b, e'.value.len) = _
    have hkey : e'.key = e.key := congrArg Prod.fst hface
    have hhash : e'.hash = e.hash := congrArg (fun x => x.2.1) hface
    rw [row, RawTable.read_modify, if_pos rfl, he', Option.map_some, Option.bind_some,
      EntryValue.get_some, EntryValue.items_push, EntryValue.len_eq,
      List.getElem?_append_right (Nat.le_refl _), Nat.sub_self]
    simp [hkey, hhash]

/-- A pair under a key that is not there. -/
theorem rows_insertNew (hd : d.WellFormed) (key value : V) (hv : Hash) :
    (d.insertNew P key value hv).rows = d.rows ++ [{ hash := hv, key, value }] := by
  have hroom : ∀ (r : Dict V × ℕ), r.1.WellFormed → 0 < r.1.table.growthLeft →
      Dict.rows (Dict.append { r.1.compact r.2 with
        table := (r.1.compact r.2).table.insertAt (P.place r.1.table hv)
          { key, value := .single value (r.1.compact r.2).index.length, hash := hv } }
        ((r.1.compact r.2).table.bucket (P.place r.1.table hv), 0)) =
      r.1.rows ++ [{ hash := hv, key, value }] := by
    intro r hr hleft
    have hvacant := vacant_compact (P.vacant (h := hv) hleft) r.2
    rw [← rows_compact r.1 r.2]
    refine rows_append (places_append _ _) (fun q hq => ?_) ?_
    · obtain ⟨f, hf, -⟩ := (hr.compact r.2).mem_places.mp hq
      change row (RawTable.insertAt _ _ _) q = _
      rw [row, row, RawTable.read_insertAt hvacant]
      split_ifs with hq'
      · rw [hq', hvacant.read_eq_none] at hf
        cases hf
      · rfl
    · change row (RawTable.insertAt _ _ _) _ = _
      rw [row, RawTable.read_insertAt hvacant, if_pos rfl]
      rfl
  unfold insertNew
  split_ifs with hfull
  · obtain ⟨hwf, hleft⟩ := hd.rehash P rfl
    rw [← hfull]
    exact (hroom (d.rehash P d.table.len) hwf hleft).trans
      (congrArg (· ++ _) (rows_rehash hd rfl))
  · refine hroom (d, d.table.capacity) hd ?_
    unfold RawTable.capacity at hfull
    dsimp only
    omega

/-! ## Keys -/

/-- The keys of a table compare lawfully, each under the hash that it has. -/
def Hashed (els : Elements V E) (K : V → Prop) (t : RawTable (Entry V)) : Prop :=
  ∀ b x, keyed t b = some x → K x.2 ∧ els.hash x.2 = .ok x.1

theorem Lawful.hashed (h : d.Lawful els K) : Hashed els K d.table := by
  intro b x hb
  obtain ⟨e, he, rfl⟩ := keyed_eq_some.mp hb
  exact h.keys he

theorem Valid.lawful (h : d.Valid els.eq) (hkeys : Hashed els K d.table) : d.Lawful els K where
  toValid := h
  keys he := hkeys _ _ (keyed_eq_some.mpr ⟨_, he, rfl⟩)

theorem lawful_new : (new : Dict V).Lawful els K :=
  Valid.new.lawful fun b x hb => by simp [new, keyed] at hb

theorem Hashed.map {f : Bucket → Bucket} (h : Hashed els K t) (hf : KeyMap f t t') :
    Hashed els K t' := by
  intro b' x hb'
  obtain ⟨b, hb, -⟩ := hf b' x hb'
  exact h b x hb

/-- The insertion of a pair adds it to the pairs. The key is one that is equal to it, which may have
been there. -/
theorem Lawful.insert (h : d.Lawful els K) (hels : els.Lawful K) {key : V} (hkey : K key)
    {hv : Hash} (hhash : els.hash key = .ok hv) (value : V) :
    ∃ d' key', d.insert P els.eq key value hv false = .ok d' ∧ d'.Lawful els K ∧ K key' ∧
      els.same key key' = true ∧ d'.rows = d.rows ++ [{ hash := hv, key := key', value }] := by
  obtain ⟨hf, hnone⟩ | ⟨b, e, hf, hb, he⟩ := h.find_eq (P := P) hels hkey hhash
  · refine ⟨d.insertNew P key value hv, key, by rw [Dict.insert, hf]; rfl, ?_, hkey,
      hels.refl hkey, rows_insertNew h.wellFormed key value hv⟩
    have hsymm : SymmAt els.eq d.table key := by
      intro b x hb hsame
      obtain ⟨hKx, -⟩ := h.hashed b x hb
      rw [hels.total hKx hkey] at hsame
      rw [hels.total hkey hKx, hels.symm hKx hkey (Except.ok.inj hsame)]
    refine (h.toValid.insertNew hsymm (Valid.absent_of_find hf) value).lawful ?_
    obtain ⟨t, e, i, f, hi, hmap, rfl, rfl, htable⟩ :=
      Valid.keyMap_insertNew (P := P) h.wellFormed key value hv
    rw [htable]
    intro b x hbx
    obtain ⟨e', he', rfl⟩ := keyed_eq_some.mp hbx
    rw [RawTable.read_insertAt hi] at he'
    split_ifs at he'
    · obtain rfl := Option.some.inj he'
      exact ⟨hkey, hhash⟩
    · exact h.hashed.map hmap b _ (keyed_eq_some.mpr ⟨e', he', rfl⟩)
  · obtain ⟨hKe, hhe⟩ := h.keys hb
    have hhv : e.hash = hv := by
      have hsame := hels.hash_eq hkey hKe he
      rw [hhash, hhe] at hsame
      exact (Except.ok.inj hsame).symm
    refine ⟨d.insertAgain b value false, e.key, by rw [Dict.insert, hf]; rfl, ?_, hKe, he, ?_⟩
    · refine (h.toValid.insertAgain b value false).lawful ?_
      rw [insertAgain, hb]
      dsimp only
      rw [if_neg Bool.false_ne_true]
      exact (h.hashed.map (KeyMap.compact d _)).map (KeyMap.modify b fun v => v.push value _)
    · rw [rows_insertAgain h.wellFormed hb, hhv]

/-- A list of rows shows a list of pairs. -/
def Shows (els : Elements V E) (K : V → Prop) (rows : List (Row V)) (pairs : List (V × V)) : Prop :=
  List.Forall₂ (fun x p => K x.key ∧ els.same p.1 x.key = true ∧ x.value = p.2) rows pairs

/-- A dictionary that is made of some pairs shows them. -/
theorem Lawful.insertAll (h : d.Lawful els K) (hels : els.Lawful K) {done pairs : List (V × V)}
    (hshows : Shows els K d.rows done) (hkeys : ∀ p ∈ pairs, K p.1) :
    ∃ d', d.insertAll P els.eq els.hash pairs = .ok d' ∧ d'.Lawful els K ∧
      Shows els K d'.rows (done ++ pairs) := by
  induction pairs generalizing d done with
  | nil => exact ⟨d, rfl, h, by rwa [List.append_nil]⟩
  | cons pair pairs ih =>
    obtain ⟨key, value⟩ := pair
    have hkey := hkeys (key, value) List.mem_cons_self
    obtain ⟨hv, hhash⟩ := hels.hash hkey
    obtain ⟨d', key', hi, hd', hKkey', hsame, hrows⟩ :=
      h.insert (P := P) hels hkey hhash value
    have hshows' : Shows els K d'.rows (done ++ [(key, value)]) := by
      rw [hrows]
      exact List.rel_append hshows (.cons ⟨hKkey', hsame, rfl⟩ .nil)
    obtain ⟨d'', hall, hd'', hshows''⟩ :=
      ih hd' hshows' fun p hp => hkeys p (List.mem_cons_of_mem _ hp)
    refine ⟨d'', ?_, hd'', by rwa [List.append_assoc] at hshows''⟩
    rw [Dict.insertAll, hhash]
    dsimp only
    rw [hi]
    exact hall

end Dict

end Dolang.Object
