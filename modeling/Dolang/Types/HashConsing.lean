import Dolang.Types.Lineage

/-!
# Hash-consing is canonical

`HashConsed` puts together what the ids of a database mean: an id keeps its structure in the database
and in the forks below it, two ids are equal exactly when their structures are, and a union's id depends
on the set of its leaves alone. Every database that a new one becomes is so
(`interning_canonical`).
-/

namespace Dolang.Types

open Growing Database Interner

/-- The union of `members` was interned as `id` before `db`. -/
def Interned (db : Database) (members : List (UnionMember TypeId)) (id : TypeId) : Prop :=
  ∃ s fuel t, Reachable s ∧ intern fuel (.union members) s = some (id, t) ∧ Later t db

/-- What the ids of a database mean. -/
structure HashConsed (db : Database) : Prop where
  /-- Interning gives an id that resolves. -/
  issues : ∀ {fuel node id t}, intern fuel node db = some (id, t) → ∃ normal, t.ty id = some normal
  /-- An id keeps its structure, in the forks below the database too. -/
  resolves : ∀ {db' id node}, Later db db' → db.ty id = some node →
    db'.ty id = some node ∧ SameStructure db db' id id
  /-- Interning a type again gives the same id, whatever has been interned since. -/
  again : ∀ {fuel node id t u j}, intern fuel node db = some (id, t) → Later t u → fuel ≤ j →
    intern j node u = some (id, u)
  /-- Ids are equal exactly when the normal forms are, node by node and as a whole. -/
  eq_iff : ∀ {id id' node node'}, db.ty id = some node → db.ty id' = some node' →
    (id = id' ↔ node = node') ∧ (id = id' ↔ SameStructure db db id id')
  /-- A base's types are not in the fork's own table, where its lookups do not even look. -/
  fork_types : ∀ {base id node}, db.phase = .fork base → base.ty id = some node →
    node ∉ db.tables.types ∧ place node db = some (id, db)
  /-- A type contains `unknown` exactly if that was noted. -/
  contains_unknown : ∀ {id node}, db.ty id = some node →
    (db.containsUnknown id = some true ↔ OccursUnknown db id)
  symbol_resolves : ∀ {db' id symbol}, Later db db' → db.symbol id = some symbol →
    db'.symbol id = some symbol
  /-- Ids of symbols that are not fresh are equal exactly when their texts are. -/
  symbol_eq_iff : ∀ {id id' text text'}, db.symbol id = some ⟨text, false⟩ →
    db.symbol id' = some ⟨text', false⟩ → (id = id' ↔ text = text')
  intern_symbol : ∀ {text id t}, internSymbol text db = some (id, t) →
    t.symbol id = some ⟨text, false⟩
  /-- A fresh symbol's id was not in use. -/
  fresh_symbol : ∀ {text id t}, freshSymbol text db = some (id, t) →
    db.symbol id = none ∧ t.symbol id = some ⟨text, true⟩
  fork_symbols : ∀ {base id text}, db.phase = .fork base → base.symbol id = some ⟨text, false⟩ →
    ⟨text, false⟩ ∉ db.tables.symbols ∧ internSymbol text db = some (id, db)
  /-- Unions of the same leaves, in any order, nested in any way and however often, have one id. The
  second is interned if its members have the right kinds, where what it comes to is not `top`. -/
  union_same : ∀ {fuel members id t u leaves leaves' members'},
    intern fuel (.union members) db = some (id, t) → Later t u →
    Presents (Interned db) leaves members → Presents (Interned u) leaves' members' →
    (∀ member, member ∈ leaves ↔ member ∈ leaves') →
    (∀ j id' u', intern j (.union members') u = some (id', u') → id' = id) ∧
      (id ≠ u.fixed.top → Valid u (.union members') →
        ∃ k, ∀ j ≥ k, ∃ u', intern j (.union members') u = some (id, u'))
  /-- A union with a leaf `top` is `top`. It is interned if its members have the right kinds and its
  projections could be interned. -/
  union_top : ∀ {members leaves top}, Presents (Interned db) leaves members →
    .type top ∈ leaves → db.ty top = some .top →
    (∀ fuel id t, intern fuel (.union members) db = some (id, t) → id = db.fixed.top) ∧
      (Valid db (.union members) → (∀ member ∈ leaves,
          (∃ id node, member = .type id ∧ db.ty id = some node) ∨ ∃ id, Interned db [member] id) →
        ∃ k, ∀ j ≥ k, ∃ t, intern j (.union members) db = some (db.fixed.top, t))
  /-- Interning what an id resolves to, as what interning a union gave, gives the id. -/
  stored : ∀ {id node}, db.ty id = some node →
    (∀ fuel id' t, intern fuel node db = some (id', t) → id' = id) ∧
      (Valid db node → ∃ k, ∀ j ≥ k, ∃ t, intern j node db = some (id, t))

variable {db db' : Database}

theorem Interned.makes {members : List (UnionMember TypeId)} {id : TypeId}
    (h : Interned db members id) : Makes db members id := by
  obtain ⟨s, fuel, t, hs, hid, hlater⟩ := h
  obtain ⟨ht, -, hmakes, -⟩ :=
    replays_intern_union invariant_good (le_refl fuel) members s id t hs.good trivial hid
  exact hmakes.mono (hlater.le ht)

namespace Interner

/-- A type comes to something. -/
theorem settles_type {id : TypeId} {node : Ty} (hid : db.types[id]? = some node) :
    Settles db (.type id) := by
  cases node with
  | top => exact ⟨none, .top hid⟩
  | union members => exact ⟨_, .step (.nested hid) .nil⟩
  | _ => exact ⟨_, .step (.kept (.type hid trivial)) .nil⟩

/-- A union that was made came to something. -/
theorem Makes.flattens {members : List (UnionMember TypeId)} {id : TypeId}
    (h : Makes db members id) : ∃ r, Flattens db members r := by
  obtain ⟨node, -, ⟨hf, -⟩ | ⟨flat, -, hf, -⟩⟩ := h
  · exact ⟨none, hf⟩
  · exact ⟨some flat, hf⟩

theorem Presents.interned {leaves members : List (UnionMember TypeId)}
    (h : Presents (Interned db) leaves members) : Presents (Makes db) leaves members :=
  h.mono fun _ _ => Interned.makes

theorem ty_of_le {id : TypeId} {node : Ty} (hle : db ≤ db') (h : db.ty id = some node) :
    db'.ty id = some node := by
  rw [ty_eq] at h ⊢
  exact types_of_le hle h

theorem symbol_of_le {id : SymbolId} {symbol : Symbol} (hle : db ≤ db')
    (h : db.symbol id = some symbol) : db'.symbol id = some symbol := by
  rw [symbol_eq] at h ⊢
  exact getElem?_of_le hle.symbols h

/-- The id of a union that comes to `top`. -/
theorem Makes.top (hdb : Kept db) {members : List (UnionMember TypeId)} {id : TypeId}
    (h : Makes db members id) (hf : Flattens db members none) : id = db.fixed.top := by
  obtain ⟨node, hid, hform⟩ := h
  obtain rfl := hform.unique hdb (.inl ⟨hf, rfl⟩)
  exact hdb.sound.id_unique hid hdb.sound.top

/-- A union has a single id, whatever presents its leaves. -/
theorem Makes.same (hdb : Kept db) {members members' leaves leaves' : List (UnionMember TypeId)}
    {id id' : TypeId} (h : Makes db members id) (h' : Makes db members' id')
    (hp : Presents (Makes db) leaves members) (hp' : Presents (Makes db) leaves' members')
    (hmem : ∀ member, member ∈ leaves ↔ member ∈ leaves') : id = id' := by
  obtain ⟨node, hid, hform⟩ := h
  obtain ⟨node', hid', hform'⟩ := h'
  obtain rfl := hform.same hdb hform' hp hp' hmem
  exact hdb.sound.id_unique hid hid'

/-- Another presentation of a union that was made comes to something, unless it is `top`. -/
theorem Makes.presented (hdb : Kept db) {members members' leaves leaves' : List (UnionMember TypeId)}
    {id : TypeId} (h : Makes db members id) (hne : id ≠ db.fixed.top)
    (hp : Presents (Makes db) leaves members) (hp' : Presents (Makes db) leaves' members')
    (hmem : ∀ member, member ∈ leaves ↔ member ∈ leaves') : ∃ r, Flattens db members' r := by
  obtain ⟨r, hr⟩ := h.flattens
  cases r with
  | none => exact absurd (h.top hdb hr) hne
  | some l =>
    obtain ⟨s, hs, hrel⟩ := (hp.matches hdb).1 _ hr
    cases hrel with
    | some _ =>
      have hsettles : ∀ member ∈ leaves', Settles db member := fun member hm =>
        (hs.settles member ((hmem member).mpr hm)).imp' some fun _ h => h
      obtain ⟨s', hs'⟩ := exists_flattens hsettles
      obtain ⟨r', hr', -⟩ := (hp'.matches hdb).2 s' hs'
      exact ⟨r', hr'⟩

/-- Members with a leaf `top` come to nothing else. -/
theorem flattens_top (hdb : Kept db) {members leaves : List (UnionMember TypeId)} {top : TypeId}
    {r : Option (List (UnionMember TypeId))} (hp : Presents (Makes db) leaves members)
    (hm : .type top ∈ leaves) (htop : db.types[top]? = some .top) (h : Flattens db members r) :
    r = none := by
  obtain ⟨s, hs, hrel⟩ := (hp.matches hdb).1 r h
  cases hrel with
  | none => rfl
  | some _ =>
    obtain ⟨l, hl⟩ := hs.settles _ hm
    cases hl.unique hdb.sound (.top htop)

end Interner

theorem union_same_of_good {fuel : ℕ} {members leaves leaves' members' : List (UnionMember TypeId)}
    {id : TypeId} {t u : Database} (hdb : Good db)
    (hid : intern fuel (.union members) db = some (id, t)) (hlater : Later t u)
    (hp : Presents (Interned db) leaves members) (hp' : Presents (Interned u) leaves' members')
    (hmem : ∀ member, member ∈ leaves ↔ member ∈ leaves') :
    (∀ j id' u', intern j (.union members') u = some (id', u') → id' = id) ∧
      (id ≠ u.fixed.top → Valid u (.union members') →
        ∃ k, ∀ j ≥ k, ∃ u', intern j (.union members') u = some (id, u')) := by
  obtain ⟨ht, hdt, hmakes, -⟩ :=
    replays_intern_union invariant_good (le_refl fuel) members db id t hdb trivial hid
  have hu := hlater.good ht
  have htu := hlater.le ht
  have hmakes := hmakes.mono htu
  have hp := hp.interned.mono fun _ _ h => h.mono (hdt.trans htu)
  have hp' := hp'.interned
  have hsame : ∀ j id' u', intern j (.union members') u = some (id', u') → id' = id := by
    intro j id' u' hid'
    obtain ⟨hu', hle, hmakes', -⟩ :=
      replays_intern_union invariant_good (le_refl j) members' u id' u' hu trivial hid'
    exact (hmakes.mono hle).same hu'.kept hmakes' (hp.mono fun _ _ h => h.mono hle)
      (hp'.mono fun _ _ h => h.mono hle) hmem |>.symm
  refine ⟨hsame, fun hne hvalid => ?_⟩
  obtain ⟨r, hr⟩ := hmakes.presented hu.kept hne hp hp' hmem
  have hstored : ∀ node u', u ≤ u' → Kept u' → UnionForm u' members' node →
      ∃ id : TypeId, u'.types[id]? = some node := by
    intro node u' hle hu' hform
    obtain ⟨node', hid', hform'⟩ := hmakes.mono hle
    obtain rfl := hform'.same hu' hform (hp.mono fun _ _ h => h.mono hle)
      (hp'.mono fun _ _ h => h.mono hle) hmem
    exact ⟨id, hid'⟩
  obtain ⟨k, hk⟩ := returns_intern_union hu.kept hvalid hr hstored
  refine ⟨k, fun j hj => ?_⟩
  obtain ⟨id', u', hid'⟩ := hk j hj
  obtain rfl := hsame j id' u' hid'
  exact ⟨u', hid'⟩

theorem union_top_of_good {members leaves : List (UnionMember TypeId)} {top : TypeId}
    (hdb : Good db) (hp : Presents (Interned db) leaves members) (hm : .type top ∈ leaves)
    (htop : db.ty top = some .top) :
    (∀ fuel id t, intern fuel (.union members) db = some (id, t) → id = db.fixed.top) ∧
      (Valid db (.union members) → (∀ member ∈ leaves,
          (∃ id node, member = .type id ∧ db.ty id = some node) ∨ ∃ id, Interned db [member] id) →
        ∃ k, ∀ j ≥ k, ∃ t, intern j (.union members) db = some (db.fixed.top, t)) := by
  have hp := hp.interned
  rw [ty_eq] at htop
  have hsame : ∀ fuel id t, intern fuel (.union members) db = some (id, t) →
      id = db.fixed.top := by
    intro fuel id t hid
    obtain ⟨ht, hle, hmakes, -⟩ :=
      replays_intern_union invariant_good (le_refl fuel) members db id t hdb trivial hid
    obtain ⟨r, hr⟩ := hmakes.flattens
    obtain rfl := flattens_top ht.kept (hp.mono fun _ _ h => h.mono hle) hm
      (types_of_le hle htop) hr
    rw [hmakes.top ht.kept hr, hle.fixed]
  refine ⟨hsame, fun hvalid hleaves => ?_⟩
  have hsettles : ∀ member ∈ leaves, Settles db member := by
    intro member hmember
    obtain ⟨id, node, rfl, hid⟩ | ⟨id, hid⟩ := hleaves member hmember
    · rw [ty_eq] at hid
      exact settles_type hid
    · exact hid.makes.flattens
  obtain ⟨s, hs⟩ := exists_flattens hsettles
  obtain ⟨r, hr, -⟩ := (hp.matches hdb.kept).2 s hs
  obtain rfl := flattens_top hdb.kept hp hm htop hr
  have hstored : ∀ node t, db ≤ t → Kept t → UnionForm t members node →
      ∃ id : TypeId, t.types[id]? = some node := by
    intro node t hle ht hform
    obtain rfl := hform.unique ht (.inl ⟨hr.mono hle, rfl⟩)
    exact ⟨db.fixed.top, types_of_le hle hdb.kept.sound.top⟩
  obtain ⟨k, hk⟩ := returns_intern_union hdb.kept hvalid hr hstored
  refine ⟨k, fun j hj => ?_⟩
  obtain ⟨id, t, hid⟩ := hk j hj
  obtain rfl := hsame j id t hid
  exact ⟨t, hid⟩

/-- A fork does not hold again what its base holds. -/
theorem fork_types_of_good (hdb : Good db) {base : Shared} {id : TypeId} {node : Ty}
    (hf : db.phase = .fork base) (hid : base.ty id = some node) :
    node ∉ db.tables.types ∧ place node db = some (id, db) := by
  rw [Shared.ty_eq] at hid
  have htypes : db.types = base.types ++ db.tables.types := by
    rw [types, inherited, hf]
  have hnodup := hdb.kept.sound.nodup
  have hstored : db.types[id]? = some node := by
    rw [htypes]
    exact getElem?_of_le (List.prefix_append _ _) hid
  constructor
  · rw [htypes] at hnodup
    exact fun hm => (List.disjoint_of_nodup_append hnodup) (List.mem_of_getElem? hid) hm
  · rw [place_eq hdb.kept.sound.aligned, (idxOf?_eq_some hnodup).mpr hstored]

theorem symbolIndex_eq_some {symbols : List Symbol} (h : Named symbols) {id : SymbolId}
    {text : String} (hid : symbols[id]? = some ⟨text, false⟩) :
    symbolIndex symbols text = some id := by
  cases hi : symbolIndex symbols text with
  | none => exact absurd (List.mem_of_getElem? hid) (symbolIndex_none hi)
  | some id' => rw [h id' id text (symbolIndex_some hi) hid]

theorem fork_symbols_of_good (hdb : Good db) {base : Shared} {id : SymbolId} {text : String}
    (hf : db.phase = .fork base) (hid : base.symbol id = some ⟨text, false⟩) :
    ⟨text, false⟩ ∉ db.tables.symbols ∧ internSymbol text db = some (id, db) := by
  rw [Shared.symbol_eq] at hid
  have hsymbols : db.symbols = base.symbols ++ db.tables.symbols := by
    rw [symbols, inherited, hf]
  have hstored : db.symbols[id]? = some ⟨text, false⟩ := by
    rw [hsymbols]
    exact getElem?_of_le (List.prefix_append _ _) hid
  constructor
  · intro hm
    obtain ⟨i, hi⟩ := List.getElem?_of_mem hm
    have hown : db.symbols[base.symbols.length + i]? = some ⟨text, false⟩ := by
      rw [hsymbols, List.getElem?_append_right (Nat.le_add_right ..), Nat.add_sub_cancel_left, hi]
    have hsame := hdb.named id _ text hstored hown
    obtain ⟨hlt, -⟩ := List.getElem?_eq_some_iff.mp hid
    rw [hsame] at hlt
    exact absurd hlt (Nat.not_lt.mpr (Nat.le_add_right ..))
  · rw [internSymbol_eq, symbolIndex_eq_some hdb.named hstored]

theorem intern_symbol_of_good {text : String} {id : SymbolId} {t : Database}
    (h : internSymbol text db = some (id, t)) : t.symbol id = some ⟨text, false⟩ := by
  rw [internSymbol_eq] at h
  cases hi : symbolIndex db.symbols text with
  | some i =>
    rw [hi] at h
    obtain ⟨rfl, rfl⟩ := Prod.mk.inj (Option.some.inj h)
    rw [symbol_eq]
    exact symbolIndex_some hi
  | none =>
    rw [hi] at h
    obtain ⟨rfl, rfl⟩ := Prod.mk.inj (Option.some.inj h)
    rw [symbol_eq, symbols_name]
    exact List.getElem?_concat_length ..

theorem fresh_symbol_of_good {text : String} {id : SymbolId} {t : Database}
    (h : freshSymbol text db = some (id, t)) :
    db.symbol id = none ∧ t.symbol id = some ⟨text, true⟩ := by
  rw [freshSymbol_eq] at h
  obtain ⟨rfl, rfl⟩ := Prod.mk.inj (Option.some.inj h)
  rw [symbol_eq, symbol_eq, symbols_name]
  exact ⟨List.getElem?_eq_none le_rfl, List.getElem?_concat_length ..⟩

/-- Every database that a new one becomes, through forks of forks, hash-conses canonically. -/
theorem interning_canonical (h : Reachable db) : HashConsed db where
  issues := by
    intro fuel node id t hid
    obtain ⟨-, -, ⟨normal, hnormal⟩, -⟩ :=
      replays_intern invariant_good (le_refl fuel) node db id t h.good trivial hid
    exact ⟨normal, (t.ty_eq id).trans hnormal⟩
  resolves := by
    intro db' id node hlater hid
    have hle := hlater.le h.good
    refine ⟨ty_of_le hle hid, ?_⟩
    rw [ty_eq] at hid
    exact .of_le h.good.kept.sound hle hid
  again := by
    intro fuel node id t u j hid hlater hj
    obtain ⟨ht, -, -, -, hreplay⟩ :=
      settles_intern invariant_good hj node db id t h.good trivial hid
    exact hreplay u (hlater.good ht) (hlater.le ht)
  eq_iff := by
    intro id id' node node' hid hid'
    rw [ty_eq] at hid hid'
    have hsound := h.good.kept.sound
    constructor
    · constructor
      · rintro rfl
        exact Option.some.inj (hid.symm.trans hid')
      · rintro rfl
        exact hsound.id_unique hid hid'
    · constructor
      · rintro rfl
        exact .of_le hsound le_rfl hid
      · exact SameStructure.eq hsound
  fork_types := fork_types_of_good h.good
  contains_unknown := by
    intro id node hid
    rw [ty_eq] at hid
    exact containsUnknown_iff h.good.kept.sound hid
  symbol_resolves := fun hlater hid => symbol_of_le (hlater.le h.good) hid
  symbol_eq_iff := by
    intro id id' text text' hid hid'
    rw [symbol_eq] at hid hid'
    constructor
    · rintro rfl
      exact congrArg Symbol.text (Option.some.inj (hid.symm.trans hid'))
    · rintro rfl
      exact h.good.named id id' text hid hid'
  intern_symbol := intern_symbol_of_good
  fresh_symbol := fresh_symbol_of_good
  fork_symbols := fork_symbols_of_good h.good
  union_same := union_same_of_good h.good
  union_top := union_top_of_good h.good
  stored := by
    intro id node hid
    rw [ty_eq] at hid
    exact ⟨fun fuel id' t => intern_stored h.good.kept hid,
      returns_intern_stored h.good.kept hid⟩

/-- A fork of a database that holds a literal besides what a new one holds. -/
theorem interning_canonical_fork :
    HashConsed (fork (.root (new.push (.literal (.int 3)) false).tables new.fixed 0
      { declarations := [], intrinsics := fun _ => none })) := by
  have hnew : Reachable new := .start rfl
  have hnext : Next new (.intern 2 (.literal (.int 3))) (new.push (.literal (.int 3)) false) :=
    ⟨4, rfl⟩
  have hseal : Next (new.push (.literal (.int 3)) false) .seal
      { new.push (.literal (.int 3)) false with
        phase := .own { declarations := .frozen [], intrinsics := fun _ => none } } :=
    ⟨_, [], rfl, rfl, rfl⟩
  have hfork : Next { new.push (.literal (.int 3)) false with
      phase := .own { declarations := .frozen [], intrinsics := fun _ => none } } .fork _ :=
    ⟨_, rfl, rfl⟩
  exact interning_canonical (((hnew.next hnext).next hseal).next hfork)

end Dolang.Types
