import Dolang.Types.Union

/-!
# Normal forms

`Flattens` determines what the members of a union come to, up to the order in which they are given
(`Flattens.unique`, `Flattens.mem`), and the canonical form forgets that order. A database holds types
in normal form only (`Kept`): normalizing one again gives it back.
-/

namespace Dolang.Types

open Growing Database

namespace Interner

variable {db db' : Database} {members rest : List (UnionMember TypeId)}
  {r r' : Option (List (UnionMember TypeId))}

/-! ### Types in normal form -/

/-- A node that is in normal form. -/
def Normal (db : Database) : Ty → Prop
  | .union members =>
      (∀ member ∈ members, Stands db member) ∧ Canonical db members members ∧
        ∀ id, members ≠ [.type id]
  | node => Formed db node

/-- What interning keeps: a sound database of types in normal form. -/
structure Kept (db : Database) : Prop where
  sound : db.Sound
  settled : ∀ (id : TypeId) (node : Ty), db.types[id]? = some node → Normal db node

theorem normal_iff {node : Ty} (hn : ¬∃ members, node = .union members) :
    Normal db node ↔ Formed db node := by
  cases node with
  | union members => exact absurd ⟨members, rfl⟩ hn
  | _ => exact Iff.rfl

theorem singles_of_stands (h : ∀ member ∈ members, Stands db member) : Singles members db := by
  intro id hid
  cases h _ hid with
  | type hnode hs => exact ⟨_, hnode, hs⟩
  | projection hm => exact absurd rfl (hm id)

theorem Formed.mono {node : Ty} (hle : db ≤ db') (h : Formed db node) : Formed db' node := by
  cases node with
  | union members =>
    obtain ⟨given, hform⟩ := h
    exact ⟨given, hform.mono hle⟩
  | map packs pattern =>
    obtain ⟨k, n, hfinds⟩ := h
    exact ⟨k, n, hfinds.mono hle⟩
  | apply base args kind => exact ⟨h.1.mono hle, h.2.1.mono hle, h.2.2.mono hle⟩
  | restricted target restriction =>
    obtain ⟨node, hid, hu⟩ := h
    exact ⟨node, types_of_le hle hid, hu⟩
  | fields target access =>
    obtain ⟨node, hid, hu⟩ := h
    exact ⟨node, types_of_le hle hid, hu⟩
  | _ => exact h

theorem Normal.mono {node : Ty} (hle : db ≤ db') (h : Normal db node) : Normal db' node := by
  by_cases hn : ∃ members, node = .union members
  · obtain ⟨members, rfl⟩ := hn
    obtain ⟨hstands, hcanonical, hne⟩ := h
    refine ⟨fun member hm => (hstands member hm).mono hle, ?_, hne⟩
    exact hcanonical.mono hle (singles_of_stands hstands)
  · rw [normal_iff hn] at h ⊢
    exact h.mono hle

/-- A database that differs in neither types nor notes is kept. -/
theorem Kept.of_le (h : Kept db) (hle : db ≤ db') (htypes : db'.types = db.types)
    (hgradual : db'.gradual = db.gradual) (haligned : db'.Aligned) : Kept db' where
  sound := {
    aligned := haligned
    nodup := htypes ▸ h.sound.nodup
    descend := htypes ▸ h.sound.descend
    gradual := by rw [htypes, hgradual]; exact h.sound.gradual
    flat := fun id node hid members hn =>
      singles_of_le hle (h.sound.flat id node (htypes ▸ hid) members hn)
    top := types_of_le hle (hle.fixed ▸ h.sound.top)
    unknown := types_of_le hle (hle.fixed ▸ h.sound.unknown) }
  settled id node hid := (h.settled id node (htypes ▸ hid)).mono hle

/-- What the loop leaves stands: it would keep it again. -/
theorem Flattens.stands (hdb : Kept db) {flat : List (UnionMember TypeId)}
    (h : Flattens db members r) (hr : r = some flat) : ∀ member ∈ flat, Stands db member := by
  induction h generalizing flat with
  | nil =>
    obtain rfl := Option.some.inj hr
    exact fun member hm => absurd hm List.not_mem_nil
  | top => cases hr
  | step he _ ih =>
    obtain ⟨l, rfl, rfl⟩ := Option.map_eq_some_iff.mp hr
    intro member hm
    obtain hm | hm := List.mem_append.mp hm
    · cases he with
      | nested hid => exact (hdb.settled _ _ hid).1 member hm
      | included => exact absurd hm List.not_mem_nil
      | reduced => exact absurd hm List.not_mem_nil
      | kept hs =>
        obtain rfl := List.mem_singleton.mp hm
        exact hs
    · exact ih rfl member hm

/-- The canonical form is its own. -/
theorem Canonical.self {c : List (UnionMember TypeId)} (h : Canonical db members c) :
    Canonical db c c where
  sorted := h.sorted
  mem member := by
    refine (and_iff_left_of_imp fun hm => ?_).symm
    rintro ⟨id, l, twin, he, hid, htwin, hmem⟩
    refine ((h.mem member).mp hm).2 ⟨id, l, twin, he, hid, htwin, ?_⟩
    exact ((h.mem _).mp hmem).1

/-- What normalizing gives is in normal form. -/
theorem Formed.normal (hdb : Kept db) {node : Ty} (h : Formed db node) : Normal db node := by
  by_cases hn : ∃ members, node = .union members
  · obtain ⟨members, rfl⟩ := hn
    obtain ⟨given, ⟨-, hn⟩ | ⟨flat, canonical, hf, -, hc, ⟨id, -, hid⟩ | ⟨hne, hn⟩⟩⟩ := h
    · cases hn
    · exact hdb.settled _ _ hid
    · obtain rfl := Node.union.inj hn
      exact ⟨fun member hm => hf.stands hdb rfl member ((hc.mem _).mp hm).1, hc.self, hne⟩
  · exact (normal_iff hn).mpr h

theorem place_types {node : Ty} {id : TypeId} (h : db.Aligned)
    (hp : place node db = some (id, db')) :
    db' = db ∨ db'.types = db.types ++ [node] ∧ db'.symbols = db.symbols := by
  rw [place_eq h] at hp
  cases hi : db.types.idxOf? node with
  | some i =>
    rw [hi] at hp
    obtain ⟨-, rfl⟩ := Prod.mk.inj (Option.some.inj hp)
    exact .inl rfl
  | none =>
    rw [hi] at hp
    obtain ⟨found, -, he⟩ := Option.map_eq_some_iff.mp hp
    obtain ⟨-, rfl⟩ := Prod.mk.inj he
    exact .inr ⟨types_push .., rfl⟩

theorem replays_place_kept (node : Ty) :
    Replays Kept (fun db => Normal db node) (place node) (place node) fun id db =>
      db.types[id]? = some node := by
  intro db id db' hdb hnormal hp
  have hflat : Flat node db := by
    rintro members rfl
    exact singles_of_stands hnormal.1
  obtain ⟨hsound, hle, hid, hp', hreplay⟩ := replays_place node db id db' hdb.sound hflat hp
  refine ⟨⟨hsound, fun id' node' hid' => ?_⟩, hle, hid, hp', fun u hu => hreplay u hu.sound⟩
  obtain rfl | ⟨htypes, -⟩ := place_types hdb.sound.aligned hp
  · exact hdb.settled id' node' hid'
  · rw [htypes] at hid'
    obtain hid' | ⟨-, rfl⟩ := getElem?_concat.mp hid'
    · exact (hdb.settled id' node' hid').mono hle
    · exact hnormal.mono hle

/-- Interning keeps the types that a database holds in normal form. -/
theorem invariant_kept : Invariant Kept fun node db => Normal db node where
  sound h := h.sound
  stored hdb hid := hdb.settled _ _ hid
  formed hdb h := h.normal hdb
  place := replays_place_kept
  project member hk hn h := (replays_found Kept.sound h
    (settles_project (fun ty => settles_intern invariant_sound hk ty) hn member)).post
      fun _ _ _ hq => ⟨_, _, hq⟩
  reduce packs pattern hk hn h := (replays_found Kept.sound h
    (replays_reduceMap (fun ty => settles_intern invariant_sound hk ty) hn packs pattern).steady).post
      fun _ _ _ hq => ⟨_, _, hq⟩

/-! ### What members come to -/

/-- A projection reduces to one thing. -/
theorem Projects.unique (hdb : db.Sound) {member : UnionMember TypeId} {p p' : Projected}
    (h : Projects db member p) (h' : Projects db member p') : p = p' := by
  obtain ⟨k, n, hp⟩ := h
  obtain ⟨k', n', hp'⟩ := h'
  -- Both are what it is with the larger fuels.
  have hsame : ∀ {j m q}, j ≤ max k k' → m ≤ max n n' → project (intern j) m member db = some (q, db) →
      project (intern (max k k')) (max n n') member db = some (q, db) := by
    intro j m q hj hm hq
    have hsettles := settles_project (fun ty => settles_intern invariant_sound hj ty) hm member
    exact (hsettles db q db hdb trivial hq).2.2.2.1
  have heq := (hsame (le_max_left ..) (le_max_left ..) (hp db hdb le_rfl)).symm.trans
    (hsame (le_max_right ..) (le_max_right ..) (hp' db hdb le_rfl))
  exact (Prod.mk.inj (Option.some.inj heq)).1

theorem Expands.not_top {id : TypeId} {new done : List (UnionMember TypeId)}
    (h : Expands db (.type id) new done) : db.types[id]? ≠ some .top := by
  intro hid
  cases h with
  | nested hid' => cases hid.symm.trans hid'
  | included hm => exact hm id rfl
  | reduced hm => exact hm id rfl
  | kept hs =>
    cases hs with
    | type hid' hsingle =>
      obtain rfl := Option.some.inj (hid.symm.trans hid')
      exact hsingle
    | projection hm => exact hm id rfl

theorem Expands.unique (hdb : db.Sound) {member : UnionMember TypeId}
    {new done new' done' : List (UnionMember TypeId)} (h : Expands db member new done)
    (h' : Expands db member new' done') : new = new' ∧ done = done' := by
  cases h with
  | nested hid =>
    cases h' with
    | nested hid' => grind
    | included hm => exact absurd rfl (hm _)
    | reduced hm => exact absurd rfl (hm _)
    | kept hs => cases hs <;> grind [Single]
  | included hm hid hi =>
    cases h' with
    | nested => exact absurd rfl (hm _)
    | included => grind
    | reduced => grind
    | kept hs => cases hs <;> grind
  | reduced hm hid hi hp =>
    cases h' with
    | nested => exact absurd rfl (hm _)
    | included => grind
    | reduced _ _ _ hp' =>
      obtain rfl := Projected.reduced.inj (hp.unique hdb hp')
      exact ⟨rfl, rfl⟩
    | kept hs =>
      cases hs with
      | type => exact absurd rfl (hm _)
      | projection _ _ _ hp' hne => exact absurd (hp'.unique hdb hp) (hne _)
  | kept hs =>
    cases h' with
    | nested => cases hs <;> grind [Single]
    | included => cases hs <;> grind
    | reduced hm _ _ hp =>
      cases hs with
      | type => exact absurd rfl (hm _)
      | projection _ _ _ hp' hne => exact absurd (hp'.unique hdb hp) (hne _)
    | kept => exact ⟨rfl, rfl⟩

/-- Members come to one thing. -/
theorem Flattens.unique (hdb : db.Sound) (h : Flattens db members r) (h' : Flattens db members r') :
    r = r' := by
  induction h generalizing r' with
  | nil =>
    cases h' with
    | nil => rfl
  | top hid =>
    cases h' with
    | top => rfl
    | step he => exact absurd hid he.not_top
  | step he _ ih =>
    cases h' with
    | top hid => exact absurd hid he.not_top
    | step he' h' =>
      obtain ⟨rfl, rfl⟩ := he.unique hdb he'
      rw [ih h']

/-- Members before others that come to `top`. -/
theorem Flattens.append_none (h : Flattens db members none) (rest : List (UnionMember TypeId)) :
    Flattens db (members ++ rest) none := by
  generalize hr : (none : Option (List (UnionMember TypeId))) = r at h
  induction h with
  | nil => cases hr
  | top hid => exact .top hid
  | @step member tail new done r he _ ih =>
    obtain rfl := Option.map_eq_none_iff.mp hr.symm
    have htail := ih rfl
    rw [List.append_assoc] at htail
    exact Flattens.step he htail

theorem Flattens.append {l : List (UnionMember TypeId)} (h : Flattens db members (some l))
    (hrest : Flattens db rest r) : Flattens db (members ++ rest) (r.map (l ++ ·)) := by
  generalize hs : some l = s at h
  induction h generalizing l with
  | nil =>
    obtain rfl := Option.some.inj hs
    rwa [map_nil_append]
  | top => cases hs
  | @step member tail new done s he _ ih =>
    obtain ⟨l', rfl, rfl⟩ := Option.map_eq_some_iff.mp hs.symm
    have htail := ih rfl
    rw [List.append_assoc] at htail
    rw [map_append_append]
    exact .step he htail

/-- What members come to is what the first ones come to, and then the others. -/
theorem Flattens.split (h : Flattens db (members ++ rest) r) :
    (Flattens db members none ∧ r = none) ∨
      ∃ l s, Flattens db members (some l) ∧ Flattens db rest s ∧ r = s.map (l ++ ·) := by
  generalize hm : members ++ rest = all at h
  induction h generalizing members with
  | nil =>
    obtain ⟨rfl, rfl⟩ := List.append_eq_nil_iff.mp hm
    exact .inr ⟨[], some [], .nil, .nil, rfl⟩
  | @top id tail hid =>
    cases members with
    | nil =>
      rw [List.nil_append] at hm
      subst hm
      exact .inr ⟨[], none, .nil, .top hid, rfl⟩
    | cons member members =>
      obtain ⟨rfl, -⟩ := List.cons.inj hm
      exact .inl ⟨.top hid, rfl⟩
  | @step member tail new done s he h ih =>
    cases members with
    | nil =>
      rw [List.nil_append] at hm
      subst hm
      exact .inr ⟨[], _, .nil, .step he h, (map_nil_append _).symm⟩
    | cons first members =>
      obtain ⟨rfl, rfl⟩ := List.cons.inj hm
      obtain ⟨hnone, rfl⟩ | ⟨l, s, hl, hs, rfl⟩ := ih (List.append_assoc ..)
      · exact .inl ⟨.step (r := none) he hnone, rfl⟩
      · exact .inr ⟨done ++ l, s, .step (r := some l) he hl, hs, (map_append_append ..).symm⟩

/-- A member comes to something. -/
def Settles (db : Database) (member : UnionMember TypeId) : Prop :=
  ∃ r, Flattens db [member] r

theorem Settles.mono {member : UnionMember TypeId} (hle : db ≤ db') (h : Settles db member) :
    Settles db' member :=
  h.imp fun _ hr => hr.mono hle

/-- Members come to something if each does. -/
theorem Flattens.split_cons {first : UnionMember TypeId} (h : Flattens db (first :: members) r) :
    (Flattens db [first] none ∧ r = none) ∨
      ∃ l s, Flattens db [first] (some l) ∧ Flattens db members s ∧ r = s.map (l ++ ·) := by
  rw [← List.singleton_append] at h
  exact h.split

theorem exists_flattens (h : ∀ member ∈ members, Settles db member) : ∃ r, Flattens db members r := by
  induction members with
  | nil => exact ⟨_, .nil⟩
  | cons member members ih =>
    obtain ⟨s, hs⟩ := h member List.mem_cons_self
    obtain ⟨r, hr⟩ := ih fun m hm => h m (List.mem_cons_of_mem _ hm)
    cases s with
    | none => exact ⟨none, hs.append_none members⟩
    | some l => exact ⟨_, hs.append hr⟩

/-- Members that do not come to `top` each come to something. -/
theorem Flattens.settles {l : List (UnionMember TypeId)} (h : Flattens db members (some l)) :
    ∀ member ∈ members, ∃ s, Flattens db [member] (some s) := by
  induction members generalizing l with
  | nil => exact fun member hm => absurd hm List.not_mem_nil
  | cons first members ih =>
    obtain ⟨-, hr⟩ | ⟨s, r, hs, hr, he⟩ := Flattens.split_cons h
    · cases hr
    · obtain ⟨l', rfl, -⟩ := Option.map_eq_some_iff.mp he.symm
      intro member hm
      obtain rfl | hm := List.mem_cons.mp hm
      · exact ⟨s, hs⟩
      · exact ih hr member hm

theorem Flattens.exists_none (h : Flattens db members none) :
    ∃ member ∈ members, Flattens db [member] none := by
  induction members with
  | nil => cases h
  | cons first members ih =>
    obtain ⟨hfirst, -⟩ | ⟨s, r, -, hr, he⟩ := Flattens.split_cons h
    · exact ⟨first, List.mem_cons_self, hfirst⟩
    · obtain rfl := Option.map_eq_none_iff.mp he.symm
      obtain ⟨member, hm, hnone⟩ := ih hr
      exact ⟨member, List.mem_cons_of_mem _ hm, hnone⟩

/-- What is among the members of a union that is not `top`. -/
theorem Flattens.mem_iff (hdb : db.Sound) {l : List (UnionMember TypeId)}
    (h : Flattens db members (some l)) (x : UnionMember TypeId) :
    x ∈ l ↔ ∃ member ∈ members, ∃ s, Flattens db [member] (some s) ∧ x ∈ s := by
  induction members generalizing l with
  | nil =>
    obtain rfl := Option.some.inj (h.unique hdb .nil)
    simp
  | cons first members ih =>
    obtain ⟨-, hr⟩ | ⟨s, r, hs, hr, he⟩ := Flattens.split_cons h
    · cases hr
    · obtain ⟨l', rfl, rfl⟩ := Option.map_eq_some_iff.mp he.symm
      rw [List.mem_append, ih hr, List.exists_mem_cons_iff]
      refine or_congr_left ⟨fun hx => ⟨s, hs, hx⟩, ?_⟩
      rintro ⟨s', hs', hx⟩
      rwa [Option.some.inj (hs.unique hdb hs')]

/-! ### Presentations of a union -/

/-- What `c` lacks of `l` are fresh literals whose regular twins it has. -/
def Covers (db : Database) (c l : List (UnionMember TypeId)) : Prop :=
  (∀ member ∈ c, member ∈ l) ∧ ∀ member ∈ l, member ∈ c ∨ Twinned db c member

theorem Twinned.mono {c l : List (UnionMember TypeId)} (h : ∀ member ∈ c, member ∈ l)
    {member : UnionMember TypeId} (ht : Twinned db c member) : Twinned db l member := by
  obtain ⟨id, l, twin, he, hid, htwin, hmem⟩ := ht
  exact ⟨id, l, twin, he, hid, htwin, h _ hmem⟩

/-- Twins are not dropped. -/
theorem Covers.twinned {c l : List (UnionMember TypeId)} (h : Covers db c l)
    {member : UnionMember TypeId} (ht : Twinned db l member) : Twinned db c member := by
  obtain ⟨id, l, twin, he, hid, htwin, hmem⟩ := ht
  obtain hc | ⟨id', l', twin', he', hid', -, -⟩ := h.2 _ hmem
  · exact ⟨id, l, twin, he, hid, htwin, hc⟩
  · obtain rfl := UnionMember.type.inj he'
    cases htwin.symm.trans hid'

theorem Covers.refl (l : List (UnionMember TypeId)) : Covers db l l :=
  ⟨fun _ hm => hm, fun _ hm => .inl hm⟩

theorem Covers.trans {a b c : List (UnionMember TypeId)} (h : Covers db a b) (h' : Covers db b c) :
    Covers db a c := by
  refine ⟨fun member hm => h'.1 member (h.1 member hm), fun member hm => ?_⟩
  obtain hb | ht := h'.2 member hm
  · exact h.2 member hb
  · exact .inr (h.twinned ht)

theorem Covers.append {a b c d : List (UnionMember TypeId)} (h : Covers db a b)
    (h' : Covers db c d) : Covers db (a ++ c) (b ++ d) := by
  constructor
  · intro member hm
    obtain hm | hm := List.mem_append.mp hm
    · exact List.mem_append_left _ (h.1 member hm)
    · exact List.mem_append_right _ (h'.1 member hm)
  · intro member hm
    obtain hm | hm := List.mem_append.mp hm
    · obtain ha | ht := h.2 member hm
      · exact .inl (List.mem_append_left _ ha)
      · exact .inr (ht.mono fun _ => List.mem_append_left _)
    · obtain hc | ht := h'.2 member hm
      · exact .inl (List.mem_append_right _ hc)
      · exact .inr (ht.mono fun _ => List.mem_append_right _)

theorem Canonical.covers {c : List (UnionMember TypeId)} (h : Canonical db members c) :
    Covers db c members := by
  refine ⟨fun member hm => ((h.mem member).mp hm).1, fun member hm => ?_⟩
  by_cases ht : Twinned db members member
  · obtain ⟨id, l, twin, he, hid, htwin, hmem⟩ := ht
    refine .inr ⟨id, l, twin, he, hid, htwin, (h.mem _).mpr ⟨hmem, ?_⟩⟩
    rintro ⟨id', l', -, he', hid', -, -⟩
    obtain rfl := UnionMember.type.inj he'
    cases htwin.symm.trans hid'
  · exact .inl ((h.mem member).mpr ⟨hm, ht⟩)

/-- Members that cover others have their canonical form. -/
theorem Canonical.of_covers {l c : List (UnionMember TypeId)} (h : Canonical db members c)
    (hc : Covers db members l) : Canonical db l c where
  sorted := h.sorted
  mem member := by
    rw [h.mem]
    constructor
    · exact fun hm => ⟨hc.1 member hm.1, fun ht => hm.2 (hc.twinned ht)⟩
    · rintro ⟨hm, ht⟩
      have hnot : ¬Twinned db members member := fun h => ht (h.mono hc.1)
      exact ⟨(hc.2 member hm).resolve_right hnot, hnot⟩

/-- Members of which each list comes to what the other does, twins apart. -/
def Matches (db : Database) (a b : List (UnionMember TypeId)) : Prop :=
  (∀ r, Flattens db a r → ∃ s, Flattens db b s ∧ Option.Rel (Covers db) r s) ∧
    ∀ s, Flattens db b s → ∃ r, Flattens db a r ∧ Option.Rel (Covers db) r s

theorem Matches.refl (a : List (UnionMember TypeId)) : Matches db a a := by
  have hrefl : ∀ r, Option.Rel (Covers db) r r := by
    intro r
    cases r with
    | none => exact .none
    | some l => exact .some (.refl l)
  exact ⟨fun r h => ⟨r, h, hrefl r⟩, fun r h => ⟨r, h, hrefl r⟩⟩

theorem rel_trans {r s t : Option (List (UnionMember TypeId))} (h : Option.Rel (Covers db) r s)
    (h' : Option.Rel (Covers db) s t) : Option.Rel (Covers db) r t := by
  cases h with
  | none =>
    cases h' with
    | none => exact .none
  | some hc =>
    cases h' with
    | some hc' => exact .some (hc.trans hc')

theorem rel_append {l m : List (UnionMember TypeId)} (h : Covers db l m)
    (h' : Option.Rel (Covers db) r r') :
    Option.Rel (Covers db) (r.map (l ++ ·)) (r'.map (m ++ ·)) := by
  cases h' with
  | none => exact .none
  | some hc => exact .some (h.append hc)

theorem Matches.trans {a b c : List (UnionMember TypeId)} (h : Matches db a b)
    (h' : Matches db b c) : Matches db a c := by
  constructor
  · intro r hr
    obtain ⟨s, hs, hrs⟩ := h.1 r hr
    obtain ⟨t, ht, hst⟩ := h'.1 s hs
    exact ⟨t, ht, rel_trans hrs hst⟩
  · intro t ht
    obtain ⟨s, hs, hst⟩ := h'.2 t ht
    obtain ⟨r, hr, hrs⟩ := h.2 s hs
    exact ⟨r, hr, rel_trans hrs hst⟩

theorem Matches.append {a b c d : List (UnionMember TypeId)} (h : Matches db a b)
    (h' : Matches db c d) : Matches db (a ++ c) (b ++ d) := by
  constructor
  · intro r hr
    obtain ⟨ha, rfl⟩ | ⟨l, t, ha, hc, rfl⟩ := hr.split
    · obtain ⟨s, hs, hrel⟩ := h.1 none ha
      cases hrel
      exact ⟨none, hs.append_none d, .none⟩
    · obtain ⟨s, hs, hrel⟩ := h.1 _ ha
      obtain ⟨u, hu, hrel'⟩ := h'.1 t hc
      cases hrel with
      | some hcover => exact ⟨_, hs.append hu, rel_append hcover hrel'⟩
  · intro s hs
    obtain ⟨hb, rfl⟩ | ⟨l, t, hb, hd, rfl⟩ := hs.split
    · obtain ⟨r, hr, hrel⟩ := h.2 none hb
      cases hrel
      exact ⟨none, hr.append_none c, .none⟩
    · obtain ⟨r, hr, hrel⟩ := h.2 _ hb
      obtain ⟨u, hu, hrel'⟩ := h'.2 t hd
      cases hrel with
      | some hcover => exact ⟨_, hr.append hu, rel_append hcover hrel'⟩

/-- A type that interning a union gave comes to what the union's members do. -/
theorem Makes.matches (hdb : Kept db) {id : TypeId} (h : Makes db members id) :
    Matches db [.type id] members := by
  obtain ⟨r, c, hr, hc, hrel⟩ : ∃ r c, Flattens db members r ∧ Flattens db [.type id] c ∧
      Option.Rel (Covers db) c r := by
    obtain ⟨node, hid, ⟨hf, rfl⟩ | ⟨flat, canonical, hf, -, hc, hnode⟩⟩ := h
    · exact ⟨none, none, hf, .top hid, .none⟩
    · refine ⟨_, some canonical, hf, ?_, .some hc.covers⟩
      obtain ⟨id', rfl, hid'⟩ | ⟨-, rfl⟩ := hnode
      · obtain rfl := hdb.sound.id_unique hid hid'
        exact .step (.kept (hf.stands hdb rfl _ ((hc.mem _).mp List.mem_cons_self).1)) .nil
      · have hnil : Flattens db [] (some []) := .nil
        have hstep := Flattens.step (.nested hid) hnil
        rwa [Option.map_some, List.append_nil] at hstep
  constructor
  · intro s hs
    obtain rfl := hc.unique hdb.sound hs
    exact ⟨r, hr, hrel⟩
  · intro s hs
    obtain rfl := hr.unique hdb.sound hs
    exact ⟨c, hc, hrel⟩

/-- `members` presents `leaves`: some of these in the order that they have there, and others as types
that were made of them. -/
inductive Presents (made : List (UnionMember TypeId) → TypeId → Prop) :
    List (UnionMember TypeId) → List (UnionMember TypeId) → Prop
  | nil : Presents made [] []
  | leaf {member leaves rest} : Presents made leaves rest →
      Presents made (member :: leaves) (member :: rest)
  | nested {inner given id leaves rest} : Presents made inner given → made given id →
      Presents made leaves rest → Presents made (inner ++ leaves) (.type id :: rest)

theorem Presents.mono {made made' : List (UnionMember TypeId) → TypeId → Prop}
    (hle : ∀ given id, made given id → made' given id) {leaves : List (UnionMember TypeId)}
    (h : Presents made leaves members) : Presents made' leaves members := by
  induction h with
  | nil => exact .nil
  | leaf _ ih => exact .leaf ih
  | nested _ hmade _ ihinner ih => exact .nested ihinner (hle _ _ hmade) ih

theorem Presents.matches (hdb : Kept db) {leaves : List (UnionMember TypeId)}
    (h : Presents (Makes db) leaves members) : Matches db members leaves := by
  induction h with
  | nil => exact .refl []
  | leaf _ ih => exact Matches.append (.refl [_]) ih
  | nested _ hmakes _ ihinner ih => exact ((hmakes.matches hdb).trans ihinner).append ih

/-! ### The type of a union -/

/-- What a union comes to, and its normal form. -/
theorem unionForm_iff (hdb : Kept db) {node : Ty} :
    UnionForm db members node ↔ ∃ r, Flattens db members r ∧
      match r with
      | none => node = .top
      | some flat => ∃ c, Canonical db flat c ∧ UnionNode db c node := by
  constructor
  · rintro (⟨hf, hn⟩ | ⟨flat, c, hf, -, hc, hn⟩)
    · exact ⟨none, hf, hn⟩
    · exact ⟨some flat, hf, c, hc, hn⟩
  · rintro ⟨r, hf, hr⟩
    cases r with
    | none => exact .inl ⟨hf, hr⟩
    | some flat =>
      obtain ⟨c, hc, hn⟩ := hr
      exact .inr ⟨flat, c, hf, singles_of_stands (hf.stands hdb rfl), hc, hn⟩

/-- Members that match have the same normal form. -/
theorem UnionForm.of_matches (hdb : Kept db) {leaves : List (UnionMember TypeId)} {node : Ty}
    (h : UnionForm db members node) (hm : Matches db members leaves) :
    UnionForm db leaves node := by
  rw [unionForm_iff hdb] at h ⊢
  obtain ⟨r, hf, hr⟩ := h
  obtain ⟨s, hs, hrel⟩ := hm.1 r hf
  cases hrel with
  | none => exact ⟨none, hs, hr⟩
  | some hcover =>
    obtain ⟨c, hc, hn⟩ := hr
    exact ⟨_, hs, c, hc.of_covers hcover, hn⟩

theorem Canonical.of_mem_iff {l c : List (UnionMember TypeId)} (h : Canonical db members c)
    (hmem : ∀ x, x ∈ members ↔ x ∈ l) : Canonical db l c :=
  h.of_covers ⟨fun x hx => (hmem x).mp hx, fun x hx => .inl ((hmem x).mpr hx)⟩

/-- The order of the members and how often each is there do not matter. -/
theorem UnionForm.of_mem_iff (hdb : Kept db) {leaves : List (UnionMember TypeId)} {node : Ty}
    (h : UnionForm db members node) (hmem : ∀ x, x ∈ members ↔ x ∈ leaves)
    (hr : Flattens db leaves r) : UnionForm db leaves node := by
  rw [unionForm_iff hdb] at h ⊢
  obtain ⟨s, hf, hs⟩ := h
  refine ⟨r, hr, ?_⟩
  cases s with
  | none =>
    obtain ⟨member, hm, hnone⟩ := hf.exists_none
    cases r with
    | none => exact hs
    | some l =>
      obtain ⟨l', hl'⟩ := hr.settles member ((hmem member).mp hm)
      cases hl'.unique hdb.sound hnone
  | some flat =>
    cases r with
    | none =>
      obtain ⟨member, hm, hnone⟩ := hr.exists_none
      obtain ⟨l', hl'⟩ := hf.settles member ((hmem member).mpr hm)
      cases hl'.unique hdb.sound hnone
    | some l =>
      obtain ⟨c, hc, hn⟩ := hs
      refine ⟨c, hc.of_mem_iff fun x => ?_, hn⟩
      rw [hf.mem_iff hdb.sound, hr.mem_iff hdb.sound]
      simp only [hmem]

theorem UnionNode.unique {c : List (UnionMember TypeId)} {node node' : Ty}
    (h : UnionNode db c node) (h' : UnionNode db c node') : node = node' := by
  obtain ⟨id, rfl, hid⟩ | ⟨hne, rfl⟩ := h
  · obtain ⟨id', he, hid'⟩ | ⟨hne, -⟩ := h'
    · obtain rfl := UnionMember.type.inj (List.singleton_inj.mp he)
      exact Option.some.inj (hid.symm.trans hid')
    · exact absurd rfl (hne id)
  · obtain ⟨id', he, -⟩ | ⟨-, rfl⟩ := h'
    · exact absurd he (hne id')
    · rfl

/-- A union has one normal form. -/
theorem UnionForm.unique (hdb : Kept db) {node node' : Ty} (h : UnionForm db members node)
    (h' : UnionForm db members node') : node = node' := by
  rw [unionForm_iff hdb] at h h'
  obtain ⟨r, hf, hr⟩ := h
  obtain ⟨s, hs, hs'⟩ := h'
  obtain rfl := hf.unique hdb.sound hs
  cases r with
  | none => exact hr.trans hs'.symm
  | some flat =>
    obtain ⟨c, hc, hn⟩ := hr
    obtain ⟨c', hc', hn'⟩ := hs'
    obtain rfl := hc.unique hc' fun _ => Iff.rfl
    exact hn.unique hn'

/-- Unions that present the same leaves, in any order and however often, have one normal form. -/
theorem UnionForm.same (hdb : Kept db) {leaves leaves' members' : List (UnionMember TypeId)}
    {node node' : Ty} (h : UnionForm db members node) (h' : UnionForm db members' node')
    (hp : Presents (Makes db) leaves members) (hp' : Presents (Makes db) leaves' members')
    (hmem : ∀ x, x ∈ leaves ↔ x ∈ leaves') : node = node' := by
  have hleaves := h'.of_matches hdb (hp'.matches hdb)
  obtain ⟨r, hr, -⟩ := (unionForm_iff hdb).mp hleaves
  exact ((h.of_matches hdb (hp.matches hdb)).of_mem_iff hdb hmem hr).unique hdb hleaves

end Interner

end Dolang.Types
