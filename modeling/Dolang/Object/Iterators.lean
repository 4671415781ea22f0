import Dolang.Object.Iter

/-!
# Iterators are fail-fast

The dictionary as a store with cursors (`Dict.failFast`). All of its operations but the insertion of
the host interface raise the epoch or change nothing (`quiet_of_run`), and that one is harmless when
no iterator has the epoch that it leaves. So an iterator reads the dictionary that it was made for:
it yields the pairs, the values, the keys or the values of one key that were there, each of them
once (`Dict.snapshot`), through buckets that are still there.
-/

namespace Dolang.Object

variable {V E : Type}

/-- An iterator that is not a rest. -/
def Position.plain : Position V → Prop
  | .rest _ => False
  | _ => True

namespace Dict

variable {P : Probing (Entry V) E Entry.hash} {els : Elements V E} {d d' : Dict V}

/-! ## Epochs -/

theorem epoch_compact (capacity : ℕ) : (d.compact capacity).epoch = d.epoch := by
  unfold compact
  split_ifs <;> rfl

theorem epoch_insertAgain (b : Bucket) (value : V) (unique : Bool) :
    (d.insertAgain b value unique).epoch = d.epoch := by
  unfold insertAgain
  split
  · rfl
  · split_ifs
    · split <;> rfl
    · exact epoch_compact _

theorem epoch_insertNew (key value : V) (hv : Hash) :
    d.epoch ≤ (d.insertNew P key value hv).epoch := by
  unfold insertNew
  split_ifs
  · change d.epoch ≤ ((d.rehash P d.table.capacity).1.compact _).epoch
    rw [epoch_compact]
    exact Nat.le_succ _
  · exact (epoch_compact _).ge

/-- `Dict::insert` raises the epoch when it moves the dictionary to a new table, and only then. -/
theorem epoch_insert {key value : V} {hv : Hash} {unique : Bool}
    (h : d.insert P els.eq key value hv unique = .ok d') : d.epoch ≤ d'.epoch := by
  unfold insert at h
  cases hf : d.find P els.eq hv key with
  | error x =>
    rw [hf] at h
    cases h
  | ok found =>
    rw [hf] at h
    cases found with
    | some b =>
      obtain rfl := Except.ok.inj h
      exact (epoch_insertAgain b value unique).ge
    | none =>
      obtain rfl := Except.ok.inj h
      exact epoch_insertNew key value hv

/-- An entry that is taken out raises the epoch. -/
theorem epoch_erase (b : Bucket) : d.erase P b = d ∨ d.epoch < (d.erase P b).epoch := by
  unfold erase
  split
  · exact .inl rfl
  · exact .inr (Nat.lt_succ_self _)

theorem epoch_popAt {b : Bucket} {subindex : Option ℤ} {value : V}
    (h : d.popAt P b subindex = some (d', value)) : d' = d ∨ d.epoch < d'.epoch := by
  unfold popAt at h
  obtain ⟨e, he, h⟩ := Option.bind_eq_some_iff.mp h
  split at h
  · split_ifs at h
    obtain ⟨rfl, -⟩ := Prod.mk.inj (Option.some.inj h)
    exact epoch_erase b
  · obtain ⟨sub, -, h⟩ := Option.bind_eq_some_iff.mp h
    obtain ⟨x, -, h⟩ := Option.map_eq_some_iff.mp h
    obtain ⟨rfl, -⟩ := Prod.mk.inj h
    exact .inr (Nat.lt_succ_self _)

/-- A computation that has a value after a hash has been taken. -/
theorem bind_ok {α β : Type} {x : Except E α} {f : α → Except E β} {b : β}
    (h : (x >>= f) = .ok b) : ∃ a, x = .ok a ∧ f a = .ok b := by
  cases x with
  | error e => cases h
  | ok a => exact ⟨a, rfl, h⟩

theorem map_ok {α β : Type} {x : Except E α} {f : α → β} {b : β} (h : x.map f = .ok b) :
    ∃ a, x = .ok a ∧ f a = b := by
  cases x with
  | error e => cases h
  | ok a => exact ⟨a, rfl, Except.ok.inj h⟩

/-- The operations keep the invariant. -/
theorem WellFormed.run (hd : d.WellFormed) {op : Op V} (h : op.run P els d = .ok d') :
    d'.WellFormed := by
  cases op with
  | insert key value =>
    obtain ⟨hv, -, h⟩ := bind_ok h
    obtain ⟨d'', hi, rfl⟩ := map_ok h
    have hd'' : d''.WellFormed := hd.insert hi
    exact hd''
  | assign key value =>
    obtain ⟨hv, -, h⟩ := bind_ok h
    obtain ⟨d'', hi, rfl⟩ := map_ok h
    have hd'' : d''.WellFormed := hd.insert hi
    exact hd''
  | pop key subindex =>
    obtain ⟨r, hr, rfl⟩ := map_ok h
    obtain ⟨hv, -, hr⟩ := bind_ok hr
    obtain ⟨found, -, rfl⟩ := map_ok hr
    cases hp : found.bind fun bucket => d.popAt P bucket subindex with
    | none => exact hd
    | some x =>
      obtain ⟨b, -, hp⟩ := Option.bind_eq_some_iff.mp hp
      exact hd.popAt hp
  | delete key =>
    obtain ⟨r, hr, rfl⟩ := map_ok h
    obtain ⟨hv, -, hr⟩ := bind_ok hr
    obtain ⟨found, -, rfl⟩ := map_ok hr
    cases found with
    | none => exact hd
    | some b => exact hd.erase P b
  | clear =>
    obtain rfl := Except.ok.inj h
    exact WellFormed.mcallClear d
  | nativeInsert key value unique =>
    obtain ⟨hv, -, hi⟩ := bind_ok h
    exact hd.insert hi

/-- All operations but the insertion of the host interface change nothing or raise the epoch. -/
theorem quiet_of_run {op : Op V} (h : op.run P els d = .ok d')
    (hop : ∀ key value unique, op ≠ .nativeInsert key value unique) :
    d' = d ∨ d.epoch < d'.epoch := by
  cases op with
  | insert key value =>
    obtain ⟨hv, -, h⟩ := bind_ok h
    obtain ⟨d'', hi, rfl⟩ := map_ok h
    exact .inr (Nat.lt_succ_of_le (epoch_insert hi))
  | assign key value =>
    obtain ⟨hv, -, h⟩ := bind_ok h
    obtain ⟨d'', hi, rfl⟩ := map_ok h
    exact .inr (Nat.lt_succ_of_le (epoch_insert hi))
  | pop key subindex =>
    obtain ⟨r, hr, rfl⟩ := map_ok h
    obtain ⟨hv, -, hr⟩ := bind_ok hr
    obtain ⟨found, -, rfl⟩ := map_ok hr
    cases hp : found.bind fun bucket => d.popAt P bucket subindex with
    | none => exact .inl rfl
    | some x =>
      obtain ⟨b, -, hp⟩ := Option.bind_eq_some_iff.mp hp
      exact epoch_popAt hp
  | delete key =>
    obtain ⟨r, hr, rfl⟩ := map_ok h
    obtain ⟨hv, -, hr⟩ := bind_ok hr
    obtain ⟨found, -, rfl⟩ := map_ok hr
    cases found with
    | none => exact .inl rfl
    | some b => exact epoch_erase b
  | clear =>
    obtain rfl := Except.ok.inj h
    exact .inr (Nat.lt_succ_self _)
  | nativeInsert key value unique => exact absurd rfl (hop key value unique)

/-- The operations never lower the epoch. -/
theorem epoch_run {op : Op V} (h : op.run P els d = .ok d') : d.epoch ≤ d'.epoch := by
  by_cases hop : ∀ key value unique, op ≠ .nativeInsert key value unique
  · obtain rfl | hlt := quiet_of_run h hop
    · exact Nat.le_refl _
    · exact hlt.le
  · push Not at hop
    obtain ⟨key, value, unique, rfl⟩ := hop
    obtain ⟨hv, -, hi⟩ := bind_ok h
    exact epoch_insert hi

/-! ## What there is to be yielded -/

/-- The buckets of the pairs from an index on that have not been visited, each of them once. -/
def unvisited : List (Option Place) → List Bool → List Bucket
  | [], _ => []
  | none :: slots, visited => unvisited slots visited
  | some place :: slots, visited =>
    if visited[place.1.slot]? = some true then unvisited slots visited
    else place.1 :: unvisited slots (visited.set place.1.slot true)

/-- What an iterator has to yield, by its position. What a rest yields is not told here. -/
def snapshot (d : Dict V) : Position V → List (Item V)
  | .pairs index => (rowsOf d.table (d.index.drop index)).map fun row => .pair row.key row.value
  | .values index => (rowsOf d.table (d.index.drop index)).map fun row => .value row.value
  | .keys index visited =>
    (unvisited (d.index.drop index) visited).filterMap fun b =>
      (d.table.read b).map fun e => .key e.key
  | .keyValues _ none => []
  | .keyValues index (some bucket) =>
    ((d.table.read bucket).elim [] fun e =>
      ((e.value.items.map Prod.fst).drop index).map .value)
  | .rest _ => []

/-- The positions that make sense in a dictionary. -/
def goodPosition (d : Dict V) : Position V → Prop
  | .keys _ visited => visited.length = d.table.buckets
  | .keyValues _ (some bucket) => ∃ e, d.table.read bucket = some e
  | _ => True

theorem Live.drop {t : RawTable (Entry V)} {index : List (Option Place)} (h : Live t index)
    (n : ℕ) : Live t (index.drop n) :=
  fun p hp => h p (List.mem_of_mem_drop hp)

/-- The walk to the next pair. -/
theorem nextRow_spec {slots : List (Option Place)} (hl : Live d.table slots) {index : ℕ}
    (hs : slots = d.index.drop index) :
    (∃ i, (nextRow d slots index : Except (Fault E) _ × ℕ) = (.ok none, i) ∧
      rowsOf d.table slots = [] ∧ rowsOf d.table (d.index.drop i) = []) ∨
    ∃ x i, (nextRow d slots index : Except (Fault E) _ × ℕ) = (.ok (some x), i) ∧
      rowsOf d.table slots = x :: rowsOf d.table (d.index.drop i) := by
  induction slots generalizing index with
  | nil => exact .inl ⟨index, rfl, rfl, by rw [← hs]; rfl⟩
  | cons slot slots ih =>
    cases slot with
    | none => exact ih hl.tail (drop_succ_of_cons hs)
    | some p =>
      obtain ⟨x, hx, hrows⟩ := hl.head (E := E)
      refine .inr ⟨x, index + 1, ?_, ?_⟩
      · rw [nextRow, hx]
        rfl
      · rw [hrows, ← drop_succ_of_cons hs]

/-- The walk to the next key. -/
theorem nextKey_spec {slots : List (Option Place)} (hl : Live d.table slots) {index : ℕ}
    (hs : slots = d.index.drop index) {visited : List Bool}
    (hlen : visited.length = d.table.buckets) :
    (∃ r, (nextKey d visited slots index : Except (Fault E) _ × ℕ × List Bool) = (.ok none, r) ∧
      unvisited slots visited = []) ∨
    ∃ b e i v, (nextKey d visited slots index : Except (Fault E) _ × ℕ × List Bool) =
        (.ok (some e.key), i, v) ∧ d.table.read b = some e ∧ v.length = d.table.buckets ∧
      unvisited slots visited = b :: unvisited (d.index.drop i) v := by
  induction slots generalizing index with
  | nil => exact .inl ⟨_, rfl, rfl⟩
  | cons slot slots ih =>
    cases slot with
    | none => exact ih hl.tail (drop_succ_of_cons hs)
    | some p =>
      obtain ⟨x, hx⟩ := hl p List.mem_cons_self
      obtain ⟨e, he, -⟩ := Option.bind_eq_some_iff.mp hx
      have hslot : p.1.slot < visited.length := by
        rw [hlen]
        exact (List.getElem?_eq_some_iff.mp (RawTable.read_eq_some.mp he).2).1
      rw [nextKey, unvisited, List.getElem?_eq_getElem hslot]
      cases hv : visited[p.1.slot] with
      | true =>
        rw [if_pos rfl]
        exact ih hl.tail (drop_succ_of_cons hs)
      | false =>
        refine .inr ⟨p.1, e, index + 1, visited.set p.1.slot true, ?_, he, ?_, ?_⟩
        · dsimp only
          rw [he]
        · rw [List.length_set, hlen]
        · rw [if_neg (by simp), ← drop_succ_of_cons hs]

variable (P els) in
/-- Iterators that are not rests go through what there is to be yielded, and do not fail. -/
theorem next_snapshot (hd : d.WellFormed) {c : Position V} (hc : goodPosition d c) (hp : c.plain) :
    goodPosition d (next P els d c).2 ∧ (next P els d c).2.plain ∧
      ((∃ a, (next P els d c).1 = .ok (some a) ∧
        snapshot d c = a :: snapshot d (next P els d c).2) ∨
      (next P els d c).1 = .ok none ∧ snapshot d c = [] ∧ snapshot d (next P els d c).2 = []) := by
  cases c with
  | pairs index =>
    obtain ⟨i, hnext, hrows, hrows'⟩ | ⟨x, i, hnext, hrows⟩ :=
      nextRow_spec (E := E) (hd.live.drop index) rfl
    · simp only [next, hnext, snapshot, hrows, hrows']
      exact ⟨trivial, trivial, .inr ⟨rfl, rfl, rfl⟩⟩
    · simp only [next, hnext, snapshot, hrows]
      exact ⟨trivial, trivial, .inl ⟨_, rfl, rfl⟩⟩
  | values index =>
    obtain ⟨i, hnext, hrows, -⟩ | ⟨x, i, hnext, hrows⟩ :=
      nextRow_spec (E := E) (hd.live.drop index) rfl
    · simp only [next, hnext, snapshot, hrows]
      exact ⟨trivial, trivial, .inr (by simp)⟩
    · simp only [next, hnext, snapshot, hrows]
      exact ⟨trivial, trivial, .inl ⟨_, rfl, rfl⟩⟩
  | keys index visited =>
    obtain ⟨r, hnext, hkeys⟩ | ⟨b, e, i, v, hnext, he, hlen, hkeys⟩ :=
      nextKey_spec (E := E) (hd.live.drop index) rfl hc
    · simp only [next, hnext, snapshot, hkeys]
      exact ⟨hc, trivial, .inr (by simp)⟩
    · simp only [next, hnext, snapshot, hkeys]
      refine ⟨hlen, trivial, .inl ⟨_, rfl, ?_⟩⟩
      rw [List.filterMap_cons_some (by rw [he]; rfl)]
  | keyValues index bucket =>
    cases bucket with
    | none => exact ⟨trivial, trivial, .inr ⟨rfl, rfl, rfl⟩⟩
    | some b =>
      obtain ⟨e, he⟩ := hc
      have hget := EntryValue.get_some e.value index
      cases hx : e.value.items[index]? with
      | none =>
        rw [hx] at hget
        have hdrop : (e.value.items.map Prod.fst).drop index = [] := by
          rw [List.drop_eq_nil_iff, List.length_map]
          exact List.getElem?_eq_none_iff.mp hx
        simp only [next, he, hget, snapshot, Option.elim_some, hdrop, Option.map_none]
        exact ⟨⟨e, he⟩, trivial, .inr (by simp)⟩
      | some x =>
        rw [hx] at hget
        obtain ⟨hlt, hxe⟩ := List.getElem?_eq_some_iff.mp hx
        have hdrop : (e.value.items.map Prod.fst).drop index =
            x.1 :: (e.value.items.map Prod.fst).drop (index + 1) := by
          rw [List.drop_eq_getElem_cons (by simpa using hlt), List.getElem_map, hxe]
        simp only [next, he, hget, snapshot, Option.elim_some, hdrop, Option.map_some]
        exact ⟨⟨e, he⟩, trivial, .inl ⟨_, rfl, rfl⟩⟩
  | rest state => exact hp.elim

/-! ## Key iterators -/

/-- The entries that are still to be visited: each of them once, none that has been visited, and all
that the slots lead to. -/
theorem unvisited_spec {slots : List (Option Place)} (hl : Live d.table slots) {visited : List Bool}
    (hlen : visited.length = d.table.buckets) :
    (unvisited slots visited).Nodup ∧
      (∀ b ∈ unvisited slots visited, visited[b.slot]? ≠ some true ∧ ∃ e, d.table.read b = some e) ∧
      ∀ p, some p ∈ slots → visited[p.1.slot]? = some true ∨ p.1 ∈ unvisited slots visited := by
  induction slots generalizing visited with
  | nil => simp [unvisited]
  | cons slot slots ih =>
    cases slot with
    | none =>
      obtain ⟨hnodup, hmem, hall⟩ := ih hl.tail hlen
      refine ⟨hnodup, hmem, fun p hp => hall p ?_⟩
      simpa using hp
    | some q =>
      obtain ⟨x, hx⟩ := hl q List.mem_cons_self
      obtain ⟨e, he, -⟩ := Option.bind_eq_some_iff.mp hx
      have hslot : q.1.slot < visited.length := by
        rw [hlen]
        exact (List.getElem?_eq_some_iff.mp (RawTable.read_eq_some.mp he).2).1
      rw [unvisited]
      split_ifs with hv
      · obtain ⟨hnodup, hmem, hall⟩ := ih hl.tail hlen
        refine ⟨hnodup, hmem, fun p hp => ?_⟩
        obtain hpq | hp := List.mem_cons.mp hp
        · obtain rfl := Option.some.inj hpq
          exact .inl hv
        · exact hall p hp
      · have hset : (visited.set q.1.slot true).length = d.table.buckets := by
          rw [List.length_set, hlen]
        obtain ⟨hnodup, hmem, hall⟩ := ih hl.tail hset
        refine ⟨List.nodup_cons.mpr ⟨fun hq => ?_, hnodup⟩, fun b hb => ?_, fun p hp => ?_⟩
        · exact (hmem q.1 hq).1 (List.getElem?_set_self hslot)
        · obtain rfl | hb := List.mem_cons.mp hb
          · exact ⟨hv, e, he⟩
          · refine ⟨fun hvb => (hmem b hb).1 ?_, (hmem b hb).2⟩
            by_cases hqb : q.1.slot = b.slot
            · rw [← hqb]
              exact List.getElem?_set_self hslot
            · rw [List.getElem?_set_ne hqb, hvb]
        · obtain hpq | hp := List.mem_cons.mp hp
          · obtain rfl := Option.some.inj hpq
            exact .inr List.mem_cons_self
          · obtain ⟨y, hy⟩ := hl p (List.mem_cons_of_mem _ hp)
            obtain ⟨f, hf, -⟩ := Option.bind_eq_some_iff.mp hy
            obtain hset | hmem' := hall p hp
            · by_cases hqp : q.1 = p.1
              · exact .inr (hqp ▸ List.mem_cons_self)
              · rw [List.getElem?_set_ne (slot_ne he hf hqp)] at hset
                exact .inl hset
            · exact .inr (List.mem_cons_of_mem _ hmem')

/-- A key iterator that has just been made has each entry to visit once. -/
theorem unvisited_perm (hd : d.WellFormed) :
    (unvisited d.index (List.replicate d.table.buckets false)).Perm d.table.iter := by
  obtain ⟨hnodup, hmem, hall⟩ :=
    unvisited_spec hd.live (List.length_replicate (n := d.table.buckets) (a := false))
  refine (List.perm_ext_iff_of_nodup hnodup RawTable.nodup_iter).mpr fun b => ?_
  rw [RawTable.mem_iter]
  refine ⟨fun hb => (hmem b hb).2, fun ⟨e, he⟩ => ?_⟩
  obtain ⟨x, hx⟩ := List.exists_mem_of_ne_nil _ (hd.nonempty b e he)
  obtain ⟨sub, hsub⟩ := List.mem_iff_getElem?.mp hx
  have hplace := List.mem_of_getElem? (hd.slot_of_item he hsub)
  refine (hall (b, sub) hplace).resolve_left fun hv => ?_
  rw [List.getElem?_replicate] at hv
  split_ifs at hv
  cases hv

/-! ## Rests -/

/-- What a rest delivers is there, and it reads nothing that is not. -/
def Defined (d : Dict V) (r : Except (Fault E) (Option (UnpackState.Delivery V))) : Prop :=
  r ≠ .error .undefined ∧ ∀ key p, r = .ok (some (key, p)) → ∃ x, row d.table p = some x

theorem defined_none : Defined d (.ok none : Except (Fault E) _) :=
  ⟨nofun, nofun⟩

theorem defined_raise (e : E) : Defined d (.error (.raise e)) :=
  ⟨nofun, nofun⟩

theorem defined_some {key : V} {p : Place} {x : Row V} (h : row d.table p = some x) :
    Defined d (.ok (some (key, p)) : Except (Fault E) _) := by
  refine ⟨nofun, fun key' p' heq => ?_⟩
  obtain ⟨-, rfl⟩ := Prod.mk.inj (Option.some.inj (Except.ok.inj heq))
  exact ⟨x, h⟩

/-- An instance that an entry has is at a place. -/
theorem row_of_lt {b : Bucket} {e : Entry V} (he : d.table.read b = some e) {i : ℕ}
    (hi : i < e.value.len) : ∃ x, row d.table (b, i) = some x := by
  rw [EntryValue.len_eq] at hi
  rw [row, he, Option.bind_some, EntryValue.get_some, List.getElem?_eq_getElem hi]
  exact ⟨_, rfl⟩

theorem row_of_place {key : V} {i : ℕ} {p : Place} (h : d.place P els key i = .ok (some p)) :
    ∃ x, row d.table p = some x := by
  obtain ⟨hv, -, h⟩ := bind_ok h
  obtain ⟨found, -, h⟩ := bind_ok h
  obtain ⟨b, -, hp⟩ := Option.bind_eq_some_iff.mp (Except.ok.inj h)
  obtain ⟨e, he, hp⟩ := Option.bind_eq_some_iff.mp hp
  split_ifs at hp with hi
  obtain rfl := Option.some.inj hp
  exact row_of_lt he hi

/-- An instance that is left over is one that the entry has. -/
theorem lt_of_leftover {e : Entry V} {sub i : ℕ} {floor : ℤ} {skip skip' : Skip V}
    (h : leftoverInstance els e sub floor skip = .ok (some i, skip')) : i < e.value.len := by
  unfold leftoverInstance at h
  dsimp only at h
  by_cases hpos : (positional els e.key floor && sub == 0) = true
  · rw [if_pos hpos] at h
    cases h
  · rw [if_neg hpos] at h
    obtain ⟨r, -, hr⟩ := map_ok h
    obtain ⟨hi, -⟩ := Prod.mk.inj hr
    generalize (r.1 + if positional els e.key floor = true then 1 else 0) = j at hi
    split_ifs at hi with hlt
    obtain rfl := Option.some.inj hi
    exact hlt

theorem defined_resumeWalk {slots : List (Option Place)} (hl : Live d.table slots) (floor : ℤ)
    (index : ℕ) (skip : Skip V) :
    Defined d (UnpackState.resumeWalk els d floor slots index skip).1 := by
  induction slots generalizing index skip with
  | nil => exact defined_none
  | cons slot slots ih =>
    cases slot with
    | none => exact ih hl.tail _ _
    | some p =>
      obtain ⟨x, hx⟩ := hl p List.mem_cons_self
      obtain ⟨e, he, -⟩ := Option.bind_eq_some_iff.mp hx
      rw [UnpackState.resumeWalk, he]
      dsimp only
      cases hleft : leftoverInstance els e p.2 floor skip with
      | error x => exact defined_raise x
      | ok r =>
        obtain ⟨inst, skip'⟩ := r
        cases inst with
        | none => exact ih hl.tail _ _
        | some i =>
          obtain ⟨y, hy⟩ := row_of_lt he (lt_of_leftover hleft)
          exact defined_some hy

theorem defined_intNext (hd : d.WellFormed) (pos : ℤ) (index : ℕ) (skip : Skip V) :
    Defined d (UnpackState.intNext P els d pos index skip).1 := by
  unfold UnpackState.intNext
  cases hp : d.place P els (els.ofInt pos) 0 with
  | error x => exact defined_raise x
  | ok found =>
    cases found with
    | none => exact defined_resumeWalk (hd.live.drop index) _ _ _
    | some p =>
      dsimp only
      cases offset els pos 1 with
      | error x => exact defined_raise x
      | ok pos' =>
        obtain ⟨x, hx⟩ := row_of_place hp
        exact defined_some hx

theorem defined_orderWalk (hd : d.WellFormed) {slots : List (Option Place)}
    (hl : Live d.table slots) (pos : ℤ) (index : ℕ) (skip : Skip V) :
    Defined d (UnpackState.orderWalk P els d pos slots index skip).1 := by
  induction slots generalizing index skip with
  | nil => exact defined_none
  | cons slot slots ih =>
    cases slot with
    | none => exact ih hl.tail _ _
    | some p =>
      obtain ⟨x, hx⟩ := hl p List.mem_cons_self
      obtain ⟨e, he, -⟩ := Option.bind_eq_some_iff.mp hx
      rw [UnpackState.orderWalk, he]
      dsimp only
      cases els.asInt e.key with
      | some int =>
        dsimp only
        split_ifs
        · cases offset els pos 1 with
          | error x => exact defined_raise x
          | ok pos' =>
            have hpos : 0 < e.value.len := by
              rw [EntryValue.len_eq]
              exact List.length_pos_iff.mpr (hd.nonempty p.1 e he)
            obtain ⟨y, hy⟩ := row_of_lt he hpos
            exact defined_some hy
        · exact defined_intNext hd _ _ _
      | none =>
        dsimp only
        cases hleft : leftoverInstance els e p.2 pos skip with
        | error x => exact defined_raise x
        | ok r =>
          obtain ⟨inst, skip'⟩ := r
          cases inst with
          | none => exact ih hl.tail _ _
          | some i =>
            obtain ⟨y, hy⟩ := row_of_lt he (lt_of_leftover hleft)
            exact defined_some hy

variable (P els) in
/-- In a well-formed dictionary a rest reads nothing that is not there. -/
theorem defined_nextPair (hd : d.WellFormed) (state : UnpackState V) :
    Defined d (state.nextPair P els d).1 := by
  cases state with
  | int pos index skip => exact defined_intNext hd pos index skip
  | order pos index skip => exact defined_orderWalk hd (hd.live.drop index) pos index skip
  | resume index floor skip => exact defined_resumeWalk (hd.live.drop index) floor index skip
  | run int =>
    cases int with
    | none => exact defined_none
    | some pos =>
      rw [UnpackState.nextPair]
      cases hp : d.place P els (els.ofInt pos) 0 with
      | error x => exact defined_raise x
      | ok found =>
        cases found with
        | none => exact defined_none
        | some p =>
          obtain ⟨x, hx⟩ := row_of_place hp
          exact defined_some hx

/-- No iterator reads through a bucket that is not there. -/
theorem next_defined (hd : d.WellFormed) {c : Position V} (hc : goodPosition d c) :
    (next P els d c).1 ≠ .error .undefined := by
  by_cases hp : c.plain
  · obtain ⟨-, -, ⟨a, hnext, -⟩ | ⟨hnext, -, -⟩⟩ := next_snapshot P els hd hc hp
    · simp [hnext]
    · simp [hnext]
  · cases c with
    | rest state =>
      obtain ⟨hdefined, hplace⟩ := defined_nextPair P els hd state
      rw [next]
      generalize state.nextPair P els d = r at hdefined hplace
      obtain ⟨result, state'⟩ := r
      cases result with
      | error x => exact fun h => hdefined (congrArg Except.error (Except.error.inj h))
      | ok out =>
        cases out with
        | none => exact fun h => by cases h
        | some delivery =>
          obtain ⟨key, p⟩ := delivery
          obtain ⟨x, hx⟩ := hplace key p rfl
          dsimp only
          rw [valueAt, deref, hx]
          exact fun h => by cases h
    | pairs index => exact absurd trivial hp
    | values index => exact absurd trivial hp
    | keys index visited => exact absurd trivial hp
    | keyValues index bucket => exact absurd trivial hp

end Dict

end Dolang.Object
