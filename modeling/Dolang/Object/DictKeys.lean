import Dolang.Object.DictSteps

/-!
# The keys of a dictionary

When the equality of elements is an equivalence, no two entries have equal keys under the same hash.
Most operations only move entries or take some out (`KeyMap`); an insertion adds one after it has
found none. Together with the invariant of the index this makes a dictionary `Valid`, and every
dictionary that the operations build is.
-/

namespace Dolang.Object

variable {V E : Type}

/-- An equality that is an equivalence and does not fail. -/
structure Equality (eq : V → V → Except E Bool) : Prop where
  total : ∀ a b, ∃ same, eq a b = .ok same
  refl : ∀ a, eq a a = .ok true
  symm : ∀ {a b}, eq a b = .ok true → eq b a = .ok true
  trans : ∀ {a b c}, eq a b = .ok true → eq b c = .ok true → eq a c = .ok true

namespace Dict

/-- The key of an entry and its hash. -/
def keyed (t : RawTable (Entry V)) (b : Bucket) : Option (Hash × V) :=
  (t.read b).map fun e => (e.hash, e.key)

/-- Each entry of the second table was one of the first, in a bucket of its own. -/
def KeyMap (f : Bucket → Bucket) (t t' : RawTable (Entry V)) : Prop :=
  ∀ b' x, keyed t' b' = some x → ∃ b, keyed t b = some x ∧ f b = b'

/-- No two entries have equal keys under the same hash. -/
def Distinct (eq : V → V → Except E Bool) (t : RawTable (Entry V)) : Prop :=
  ∀ b c x y, keyed t b = some x → keyed t c = some y → x.1 = y.1 → eq x.2 y.2 = .ok true → b = c

/-- No entry has a key that is equal under a hash. -/
def Absent (eq : V → V → Except E Bool) (t : RawTable (Entry V)) (hv : Hash) (key : V) : Prop :=
  ∀ b x, keyed t b = some x → x.1 = hv → eq key x.2 = .ok false

variable {eq : V → V → Except E Bool} {t t' : RawTable (Entry V)} {f : Bucket → Bucket}

theorem keyed_eq_some {b : Bucket} {x : Hash × V} :
    keyed t b = some x ↔ ∃ e, t.read b = some e ∧ (e.hash, e.key) = x :=
  Option.map_eq_some_iff

/-- Faces show the keys. -/
theorem keyed_of_face {b b' : Bucket}
    (h : (t'.read b').map Entry.face = (t.read b).map Entry.face) : keyed t' b' = keyed t b := by
  have hkeyed := congrArg (Option.map fun x : V × Hash × List V => (x.2.1, x.1)) h
  rw [Option.map_map, Option.map_map] at hkeyed
  exact hkeyed

/-- Nothing but the values of an entry changes. -/
theorem keyed_modify {b c : Bucket} (g : EntryValue V → EntryValue V) :
    keyed (t.modify b fun e => { e with value := g e.value }) c = keyed t c := by
  unfold keyed
  rw [RawTable.read_modify]
  split_ifs
  · rw [Option.map_map]
    rfl
  · rfl

theorem KeyMap.of_eq (h : ∀ b, keyed t' b = keyed t b) : KeyMap id t t' :=
  fun b _ hb => ⟨b, (h b).symm.trans hb, rfl⟩

theorem KeyMap.trans {g : Bucket → Bucket} {t'' : RawTable (Entry V)} (h : KeyMap f t t')
    (h' : KeyMap g t' t'') : KeyMap (g ∘ f) t t'' := by
  intro b'' x hb''
  obtain ⟨b', hb', rfl⟩ := h' b'' x hb''
  obtain ⟨b, hb, rfl⟩ := h b' x hb'
  exact ⟨b, hb, rfl⟩

theorem KeyMap.modify (b : Bucket) (g : EntryValue V → EntryValue V) :
    KeyMap id t (t.modify b fun e => { e with value := g e.value }) :=
  .of_eq fun _ => keyed_modify g

theorem KeyMap.remove (b : Bucket) (frees : Bool) : KeyMap id t (t.remove b frees) := by
  intro c x hc
  obtain ⟨e, he, hx⟩ := keyed_eq_some.mp hc
  rw [RawTable.read_remove] at he
  split_ifs at he
  exact ⟨c, keyed_eq_some.mpr ⟨e, he, hx⟩, rfl⟩

theorem KeyMap.compact (d : Dict V) (capacity : ℕ) :
    KeyMap id d.table (d.compact capacity).table :=
  .of_eq fun b => keyed_of_face (face_compact d capacity b)

/-- The entries of the new table are those of the old one. -/
theorem Moving.keyMap {capacity : ℕ} {done : List Place} {s : Rehash V}
    (h : Moving t capacity done s) : KeyMap (fun b => (s.moved b).getD b) t s.table := by
  intro b' x hb'
  obtain ⟨e', he', hx⟩ := keyed_eq_some.mp hb'
  obtain ⟨b, e, he, hb⟩ := h.onto b' e' he'
  obtain ⟨e'', he'', hface, -⟩ := h.arrived b e b' he hb
  have hkeyed : keyed s.table b' = keyed t b :=
    keyed_of_face (by rw [he'', he, Option.map_some, Option.map_some, hface])
  refine ⟨b, hkeyed.symm.trans hb', ?_⟩
  dsimp only
  rw [hb, Option.getD_some]

theorem Distinct.map (h : Distinct eq t) (hf : KeyMap f t t') : Distinct eq t' := by
  intro b' c' x y hb hc hxy heq
  obtain ⟨b, hx, rfl⟩ := hf b' x hb
  obtain ⟨c, hy, rfl⟩ := hf c' y hc
  rw [h b c x y hx hy hxy heq]

theorem Absent.map {hv : Hash} {key : V} (h : Absent eq t hv key) (hf : KeyMap f t t') :
    Absent eq t' hv key := by
  intro b' x hb hx
  obtain ⟨b, hb, -⟩ := hf b' x hb
  exact h b x hb hx

/-- An equality that holds of a key of the table and of another key holds the other way round. -/
def SymmAt (eq : V → V → Except E Bool) (t : RawTable (Entry V)) (key : V) : Prop :=
  ∀ b x, keyed t b = some x → eq x.2 key = .ok true → eq key x.2 = .ok true

theorem SymmAt.map {key : V} (h : SymmAt eq t key) (hf : KeyMap f t t') : SymmAt eq t' key := by
  intro b' x hb'
  obtain ⟨b, hb, -⟩ := hf b' x hb'
  exact h b x hb

/-- An entry can be added under a key that is absent. -/
theorem Distinct.insertAt (h : Distinct eq t) {i : ℕ} (hi : t.Vacant i) {e : Entry V}
    (hsymm : SymmAt eq t e.key) (habsent : Absent eq t e.hash e.key) :
    Distinct eq (t.insertAt i e) := by
  have hcases : ∀ b x, keyed (t.insertAt i e) b = some x →
      b = t.bucket i ∧ x = (e.hash, e.key) ∨ keyed t b = some x := by
    intro b x hb
    obtain ⟨e', he', hx⟩ := keyed_eq_some.mp hb
    rw [RawTable.read_insertAt hi] at he'
    split_ifs at he' with hbi
    · obtain rfl := Option.some.inj he'
      exact .inl ⟨hbi, hx.symm⟩
    · exact .inr (keyed_eq_some.mpr ⟨e', he', hx⟩)
  intro b c x y hb hc hxy hsame
  obtain ⟨rfl, rfl⟩ | hb := hcases b x hb
  · obtain ⟨rfl, -⟩ | hc := hcases c y hc
    · rfl
    · have hfalse := habsent c y hc hxy.symm
      rw [hsame] at hfalse
      cases hfalse
  · obtain ⟨rfl, rfl⟩ | hc := hcases c y hc
    · have hfalse := habsent b x hb hxy
      rw [hsymm b x hb hsame] at hfalse
      cases hfalse
    · exact h b c x y hb hc hxy hsame

/-- A dictionary whose index and entries name each other and whose keys are distinct. -/
structure Valid (eq : V → V → Except E Bool) (d : Dict V) : Prop where
  wellFormed : d.WellFormed
  distinct : Distinct eq d.table

namespace Valid

variable {d : Dict V} {P : Probing (Entry V) E Entry.hash}

theorem new : (Dict.new : Dict V).Valid eq where
  wellFormed := wellFormed_new
  distinct b c x y hb := by simp [Dict.new, keyed] at hb

/-- What `find` does not find is absent. -/
theorem absent_of_find {hv : Hash} {key : V} (h : d.find P eq hv key = .ok none) :
    Absent eq d.table hv key := by
  intro b x hb hx
  obtain ⟨e, he, rfl⟩ := keyed_eq_some.mp hb
  exact P.absent h b e he hx

theorem insertAgain (h : d.Valid eq) (b : Bucket) (value : V) (unique : Bool) :
    (d.insertAgain b value unique).Valid eq where
  wellFormed := h.wellFormed.insertAgain b value unique
  distinct := by
    unfold Dict.insertAgain
    cases he : d.table.read b with
    | none => exact h.distinct
    | some e =>
      dsimp only
      split_ifs
      · split
        · exact h.distinct.map (KeyMap.modify b fun _ => _)
        · exact h.distinct
        · exact h.distinct.map (KeyMap.modify b fun _ => _)
      · exact (h.distinct.map (KeyMap.compact d _)).map (KeyMap.modify b fun v => v.push value _)

/-- The entries of the table after the insertion of a new key. -/
theorem keyMap_insertNew (h : d.WellFormed) (key value : V) (hv : Hash) :
    ∃ t e i f, t.Vacant i ∧ KeyMap f d.table t ∧ e.key = key ∧ e.hash = hv ∧
      (d.insertNew P key value hv).table = t.insertAt i e := by
  unfold Dict.insertNew
  split_ifs with hfull
  · obtain ⟨-, hleft⟩ := h.rehash P hfull
    have hcap : d.table.len ≤ max 1 (d.table.capacity * 2) := by omega
    have hmap := (moving_rehash P h hcap).keyMap
    exact ⟨_, _, _, _, vacant_compact (P.vacant hleft) _, hmap.trans (KeyMap.compact _ _), rfl, rfl,
      rfl⟩
  · have hleft : 0 < d.table.growthLeft := by
      unfold RawTable.capacity at hfull
      omega
    exact ⟨_, _, _, _, vacant_compact (P.vacant hleft) _, KeyMap.compact _ _, rfl, rfl, rfl⟩

theorem insertNew (h : d.Valid eq) {key : V} {hv : Hash} (hsymm : SymmAt eq d.table key)
    (habsent : Absent eq d.table hv key) (value : V) :
    (d.insertNew P key value hv).Valid eq where
  wellFormed := h.wellFormed.insertNew P key value hv
  distinct := by
    obtain ⟨t, e, i, f, hi, hmap, rfl, rfl, htable⟩ :=
      keyMap_insertNew (P := P) h.wellFormed key value hv
    rw [htable]
    exact (h.distinct.map hmap).insertAt hi (hsymm.map hmap) (habsent.map hmap)

theorem insert (heq : Equality eq) (h : d.Valid eq) {key value : V} {hv : Hash} {unique : Bool}
    {d' : Dict V} (hi : d.insert P eq key value hv unique = .ok d') : d'.Valid eq := by
  unfold Dict.insert at hi
  cases hf : d.find P eq hv key with
  | error x =>
    rw [hf] at hi
    cases hi
  | ok found =>
    rw [hf] at hi
    cases found with
    | some b =>
      obtain rfl := Except.ok.inj hi
      exact h.insertAgain b value unique
    | none =>
      obtain rfl := Except.ok.inj hi
      exact h.insertNew (fun _ _ _ hsame => heq.symm hsame) (absent_of_find hf) value

theorem erase (h : d.Valid eq) (b : Bucket) : (d.erase P b).Valid eq where
  wellFormed := h.wellFormed.erase P b
  distinct := by
    unfold Dict.erase
    cases d.table.read b with
    | none => exact h.distinct
    | some e => exact h.distinct.map (KeyMap.remove b _)

theorem mcallClear (d : Dict V) : d.mcallClear.Valid eq where
  wellFormed := WellFormed.mcallClear d
  distinct b c x y hb := by simp [Dict.mcallClear, keyed] at hb

theorem popAt (h : d.Valid eq) {b : Bucket} {subindex : Option ℤ} {d' : Dict V} {value : V}
    (hp : d.popAt P b subindex = some (d', value)) : d'.Valid eq where
  wellFormed := h.wellFormed.popAt hp
  distinct := by
    unfold Dict.popAt at hp
    obtain ⟨e, he, hp⟩ := Option.bind_eq_some_iff.mp hp
    cases hv : e.value with
    | single v i =>
      rw [hv] at hp
      dsimp only at hp
      split_ifs at hp
      obtain ⟨rfl, -⟩ := Prod.mk.inj (Option.some.inj hp)
      exact (h.erase b).distinct
    | multi items =>
      rw [hv] at hp
      obtain ⟨sub, -, hp⟩ := Option.bind_eq_some_iff.mp hp
      obtain ⟨x, -, hp⟩ := Option.map_eq_some_iff.mp hp
      obtain ⟨rfl, -⟩ := Prod.mk.inj hp
      unfold Dict.popItem
      dsimp only
      split_ifs
      · exact h.distinct.map (KeyMap.remove b _)
      · exact h.distinct.map (KeyMap.modify b fun _ => _)

end Valid

section Build

variable (P : Probing (Entry V) E Entry.hash) (eq : V → V → Except E Bool) (hash : V → Except E Hash)

/-- Inserts pairs one after the other, without replacing any. -/
def insertAll : Dict V → List (V × V) → Except E (Dict V)
  | d, [] => .ok d
  | d, (key, value) :: pairs =>
    match hash key with
    | .error e => .error e
    | .ok hv =>
      match d.insert P eq key value hv false with
      | .error e => .error e
      | .ok d => insertAll d pairs

variable {P eq hash}

theorem Valid.insertAll (heq : Equality eq) {d d' : Dict V} {pairs : List (V × V)}
    (h : d.Valid eq) (hall : d.insertAll P eq hash pairs = .ok d') : d'.Valid eq := by
  induction pairs generalizing d with
  | nil => exact Except.ok.inj hall ▸ h
  | cons pair pairs ih =>
    unfold Dict.insertAll at hall
    split at hall
    · cases hall
    · split at hall
      · cases hall
      · rename_i hi
        exact ih (h.insert heq hi) hall

end Build

end Dict

end Dolang.Object
