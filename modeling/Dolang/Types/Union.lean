import Dolang.Types.Interning
import Mathlib.Data.List.Dedup
import Mathlib.Data.List.Sort

/-!
# Unions

What a union's members come to does not depend on how the loop over them goes: `Flattens` says it
member by member, of a database and any above it. The normal form is then determined by the set of
what they come to (`Canonical`): it is put in the order of ids, each once, without the fresh literals
whose regular twins are there.

`replays_intern` closes the induction over the functions that intern, and `Makes` is what interning a
union gives: two unions whose members come to the same are the same type.
-/

namespace Dolang.Types

open Growing Database

namespace Interner

/-- What a computation gives in this database and those above it, with nothing left to add. -/
def Finds {α : Type} (db : Database) (m : Interner α) (a : α) : Prop :=
  ∀ u, Sound u → db ≤ u → m u = some (a, u)

/-- What a projection reduces to. -/
def Projects (db : Database) (member : UnionMember TypeId) (p : Projected) : Prop :=
  ∃ k n, Finds db (project (intern k) n member) p

/-- A member that the loop keeps as it is. -/
inductive Stands (db : Database) : UnionMember TypeId → Prop
  | type {id node} : db.types[id]? = some node → Single node → Stands db (.type id)
  | projection {member node p} : (∀ id, member ≠ .type id) → db.types[member.id]? = some node →
      onlyIncluded node = none → Projects db member p → (∀ members, p ≠ .reduced members) →
      Stands db member

/-- What the loop does with a member that is not `top`: it goes on with `new` in its place and keeps
`done`. -/
inductive Expands (db : Database) :
    UnionMember TypeId → List (UnionMember TypeId) → List (UnionMember TypeId) → Prop
  | nested {id members} : db.types[id]? = some (.union members) → Expands db (.type id) [] members
  | included {member inner node} : (∀ id, member ≠ .type id) → db.types[member.id]? = some node →
      onlyIncluded node = some inner → Expands db member [member.withId inner] []
  | reduced {member members node} : (∀ id, member ≠ .type id) → db.types[member.id]? = some node →
      onlyIncluded node = none → Projects db member (.reduced members) → Expands db member members []
  | kept {member} : Stands db member → Expands db member [] [member]

/-- What union members come to, or `none` if there is `top` among them. -/
inductive Flattens (db : Database) :
    List (UnionMember TypeId) → Option (List (UnionMember TypeId)) → Prop
  | nil : Flattens db [] (some [])
  | top {id rest} : db.types[id]? = some .top → Flattens db (.type id :: rest) none
  | step {member rest new done r} : Expands db member new done → Flattens db (new ++ rest) r →
      Flattens db (member :: rest) (r.map (done ++ ·))

variable {db db' : Database} {k k' n n' : ℕ}

theorem Finds.mono {α : Type} {m : Interner α} {a : α} (hle : db ≤ db') (h : Finds db m a) :
    Finds db' m a :=
  fun u hu hdb => h u hu (hle.trans hdb)

theorem Projects.mono {member : UnionMember TypeId} {p : Projected} (hle : db ≤ db')
    (h : Projects db member p) : Projects db' member p := by
  obtain ⟨k, n, h⟩ := h
  exact ⟨k, n, h.mono hle⟩

theorem Stands.mono {member : UnionMember TypeId} (hle : db ≤ db') (h : Stands db member) :
    Stands db' member := by
  cases h with
  | type hid hs => exact .type (types_of_le hle hid) hs
  | projection hm hid hi hp hne =>
    exact .projection hm (types_of_le hle hid) hi (hp.mono hle) hne

theorem Expands.mono {member : UnionMember TypeId} {new done : List (UnionMember TypeId)}
    (hle : db ≤ db') (h : Expands db member new done) : Expands db' member new done := by
  cases h with
  | nested hid => exact .nested (types_of_le hle hid)
  | included hm hid hi => exact .included hm (types_of_le hle hid) hi
  | reduced hm hid hi hp => exact .reduced hm (types_of_le hle hid) hi (hp.mono hle)
  | kept hs => exact .kept (hs.mono hle)

theorem Flattens.mono {members : List (UnionMember TypeId)}
    {r : Option (List (UnionMember TypeId))} (hle : db ≤ db') (h : Flattens db members r) :
    Flattens db' members r := by
  induction h with
  | nil => exact .nil
  | top hid => exact .top (types_of_le hle hid)
  | step he _ ih => exact .step (he.mono hle) ih

theorem map_nil_append {α : Type} (r : Option (List α)) : r.map ([] ++ ·) = r :=
  Option.map_id'

theorem map_append_append {α : Type} (r : Option (List α)) (l l' : List α) :
    r.map ((l ++ l') ++ ·) = (r.map (l' ++ ·)).map (l ++ ·) := by
  cases r with
  | none => rfl
  | some m => simp

/-- A step that keeps nothing. -/
theorem Flattens.replace {member : UnionMember TypeId} {new rest : List (UnionMember TypeId)}
    {r : Option (List (UnionMember TypeId))} (he : Expands db member new [])
    (h : Flattens db (new ++ rest) r) : Flattens db (member :: rest) r := by
  have hstep := Flattens.step he h
  rwa [map_nil_append] at hstep

theorem stays_singles {I : Database → Prop} (members : List (UnionMember TypeId)) :
    Stays I (Singles members) :=
  fun _ _ _ _ hle h => singles_of_le hle h

theorem stays_projects {I : Database → Prop} (member : UnionMember TypeId) (p : Projected) :
    Stays I fun db => Projects db member p :=
  fun _ _ _ _ hle h => h.mono hle

theorem singles_append {members members' : List (UnionMember TypeId)} (h : Singles members db)
    (h' : Singles members' db) : Singles (members ++ members') db := by
  intro id hid
  obtain hid | hid := List.mem_append.mp hid
  · exact h id hid
  · exact h' id hid

theorem singles_type {id : TypeId} {node : Ty} (hid : db.types[id]? = some node)
    (hs : Single node) : Singles [.type id] db := by
  intro id' hid'
  obtain rfl := UnionMember.type.inj (List.mem_singleton.mp hid')
  exact ⟨node, hid, hs⟩

theorem singles_other {member : UnionMember TypeId} (hm : ∀ id, member ≠ .type id) :
    Singles [member] db :=
  fun id hid => absurd (List.mem_singleton.mp hid).symm (hm id)

/-! ### The canonical form -/

/-- A fresh literal whose regular twin is among the members. -/
def Twinned (db : Database) (members : List (UnionMember TypeId))
    (member : UnionMember TypeId) : Prop :=
  ∃ id l twin, member = .type id ∧ db.types[id]? = some (.fresh l) ∧
    db.types[twin]? = some (.literal l) ∧ .type twin ∈ members

/-- `canonical` is what the normal form keeps of `members`, in order. -/
structure Canonical (db : Database) (members canonical : List (UnionMember TypeId)) : Prop where
  sorted : canonical.Pairwise fun a b => rank a < rank b
  mem : ∀ member, member ∈ canonical ↔ member ∈ members ∧ ¬Twinned db members member

/-- The node of a union with these members: one without others is its only type. -/
def UnionNode (db : Database) (canonical : List (UnionMember TypeId)) (node : Ty) : Prop :=
  (∃ id, canonical = [.type id] ∧ db.types[id]? = some node) ∨
    (∀ id, canonical ≠ [.type id]) ∧ node = .union canonical

theorem rank_injective : Function.Injective rank := by
  intro a b h
  cases a <;> cases b <;> simp_all [rank, Prod.ext_iff]

theorem sorted_pairwise (members : List (UnionMember TypeId)) :
    (sorted members).Pairwise fun a b => rank a < rank b := by
  have hle : (members.mergeSort fun a b => decide (rank a ≤ rank b)).Pairwise
      fun a b => decide (rank a ≤ rank b) = true := by
    refine List.pairwise_mergeSort (fun a b c hab hbc => ?_) (fun a b => ?_) members
    · rw [decide_eq_true_eq] at hab hbc ⊢
      exact hab.trans hbc
    · rw [Bool.or_eq_true, decide_eq_true_eq, decide_eq_true_eq]
      exact le_total _ _
  refine ((hle.sublist (List.dedup_sublist _)).and (List.nodup_dedup _)).imp fun {a b} h => ?_
  exact lt_of_le_of_ne (of_decide_eq_true h.1) fun he => h.2 (rank_injective he)

theorem mem_sorted {members : List (UnionMember TypeId)} {member : UnionMember TypeId} :
    member ∈ sorted members ↔ member ∈ members := by
  rw [sorted, List.mem_dedup, List.mem_mergeSort]

/-- The canonical form is determined by what is among the members. -/
theorem Canonical.unique {members members' c c' : List (UnionMember TypeId)}
    (h : Canonical db members c) (h' : Canonical db members' c')
    (hmem : ∀ member, member ∈ members ↔ member ∈ members') : c = c' := by
  have hirr : Std.Irrefl fun a b : UnionMember TypeId => rank a < rank b := ⟨fun a => lt_irrefl _⟩
  refine h.sorted.eq_of_mem_iff h'.sorted fun {member} => ?_
  have htwin : Twinned db members member ↔ Twinned db members' member := by
    unfold Twinned
    simp only [hmem]
  rw [h.mem, h'.mem, hmem, htwin]

/-- What is twinned is so because of types that the database holds. -/
theorem twinned_of_le (hle : db ≤ db') {members : List (UnionMember TypeId)}
    (hs : Singles members db) {member : UnionMember TypeId} (hm : member ∈ members) :
    Twinned db' members member ↔ Twinned db members member := by
  constructor
  · rintro ⟨id, l, twin, rfl, hid, htwin, hmem⟩
    obtain ⟨node, hnode, -⟩ := hs id hm
    obtain ⟨node', hnode', -⟩ := hs twin hmem
    obtain rfl := Option.some.inj ((types_of_le hle hnode).symm.trans hid)
    obtain rfl := Option.some.inj ((types_of_le hle hnode').symm.trans htwin)
    exact ⟨id, l, twin, rfl, hnode, hnode', hmem⟩
  · rintro ⟨id, l, twin, rfl, hid, htwin, hmem⟩
    exact ⟨id, l, twin, rfl, types_of_le hle hid, types_of_le hle htwin, hmem⟩

theorem Canonical.mono (hle : db ≤ db') {members c : List (UnionMember TypeId)}
    (hs : Singles members db) (h : Canonical db members c) : Canonical db' members c where
  sorted := h.sorted
  mem member := by
    rw [h.mem]
    exact and_congr_right fun hm => not_congr (twinned_of_le hle hs hm).symm

theorem UnionNode.mono (hle : db ≤ db') {c : List (UnionMember TypeId)} {node : Ty}
    (h : UnionNode db c node) : UnionNode db' c node :=
  h.imp (fun ⟨id, hc, hid⟩ => ⟨id, hc, types_of_le hle hid⟩) fun h => h

/-- The normal form of a union. -/
def UnionForm (db : Database) (members : List (UnionMember TypeId)) (node : Ty) : Prop :=
  (Flattens db members none ∧ node = .top) ∨
    ∃ flat canonical, Flattens db members (some flat) ∧ Singles flat db ∧
      Canonical db flat canonical ∧ UnionNode db canonical node

theorem UnionForm.mono (hle : db ≤ db') {members : List (UnionMember TypeId)} {node : Ty}
    (h : UnionForm db members node) : UnionForm db' members node := by
  obtain ⟨hf, hn⟩ | ⟨flat, canonical, hf, hs, hc, hn⟩ := h
  · exact .inl ⟨hf.mono hle, hn⟩
  · exact .inr ⟨flat, canonical, hf.mono hle, singles_of_le hle hs, hc.mono hle hs, hn.mono hle⟩

theorem Canonical.singles {members c : List (UnionMember TypeId)} (h : Canonical db members c)
    (hs : Singles members db) : Singles c db :=
  fun id hid => hs id ((h.mem _).mp hid).1

theorem UnionForm.flat {members : List (UnionMember TypeId)} {node : Ty}
    (h : UnionForm db members node) : Flat node db := by
  rintro ms rfl
  obtain ⟨-, hn⟩ | ⟨flat, canonical, -, hs, hc, ⟨id, rfl, hid⟩ | ⟨-, hn⟩⟩ := h
  · cases hn
  · obtain ⟨node, hnode, hsingle⟩ := hc.singles hs id List.mem_cons_self
    obtain rfl := Option.some.inj (hid.symm.trans hnode)
    exact hsingle.elim
  · obtain rfl := Node.union.inj hn
    exact hc.singles hs

/-- The form that normalizing gives a node. A union is the normal form of some members, and nothing
else reduces. -/
def Formed (db : Database) : Ty → Prop
  | .union members => ∃ given, UnionForm db given (.union members)
  | .quantified binders _ => binders ≠ []
  | .map packs pattern => ∃ k n, Finds db (reduceMap (intern k) n packs pattern) none
  | .apply base args _ =>
      Finds db (restriction base args) none ∧ Finds db (fields base args) none ∧
        Finds db (projection base args) none
  | .restricted target _ | .fields target _ =>
      ∃ node, db.types[target]? = some node ∧ node.isUnknown = false
  | _ => True

/-- An invariant `I` that interning keeps, with what it requires of a node to be added. -/
structure Invariant (I : Database → Prop) (Pre : Ty → Database → Prop) : Prop where
  sound : ∀ {db}, I db → db.Sound
  stored : ∀ {db} {id : TypeId} {node}, I db → db.types[id]? = some node → Pre node db
  formed : ∀ {db node}, I db → Formed db node → Pre node db
  place : ∀ node, Replays I (Pre node) (place node) (place node) fun id db =>
    db.types[id]? = some node
  project : ∀ {k k' n n'} member, k ≤ k' → n ≤ n' → Steady I (project (intern k) n member)
      (project (intern k') n' member) → Replays I (fun _ => True) (project (intern k) n member)
        (project (intern k') n' member) fun p db => Projects db member p
  reduce : ∀ {k k' n n'} packs pattern, k ≤ k' → n ≤ n' → Steady I
      (reduceMap (intern k) n packs pattern) (reduceMap (intern k') n' packs pattern) → Replays I (fun _ => True)
        (reduceMap (intern k) n packs pattern) (reduceMap (intern k') n' packs pattern)
        fun reduced db => ∃ k n, Finds db (reduceMap (intern k) n packs pattern) reduced

variable {I : Database → Prop} {Pre : Ty → Database → Prop}

theorem Formed.flat {node : Ty} (h : Formed db node) : Flat node db := by
  rintro members rfl
  obtain ⟨given, hform⟩ := h
  exact hform.flat members rfl

/-- A union's normal form is a type that the database holds, or is `top` or a union. -/
theorem UnionForm.formed {members : List (UnionMember TypeId)} {node : Ty}
    (h : UnionForm db members node) :
    (∃ id : TypeId, db.types[id]? = some node) ∨ Formed db node := by
  obtain ⟨-, rfl⟩ | ⟨flat, canonical, hf, hs, hc, hnode⟩ := h
  · exact .inr trivial
  · obtain ⟨id, -, hid⟩ | ⟨hne, rfl⟩ := hnode
    · exact .inl ⟨id, hid⟩
    · exact .inr ⟨members, .inr ⟨flat, canonical, hf, hs, hc, .inr ⟨hne, rfl⟩⟩⟩

theorem UnionForm.pre (inv : Invariant I Pre) (hdb : I db) {members : List (UnionMember TypeId)}
    {node : Ty} (h : UnionForm db members node) : Pre node db := by
  obtain ⟨id, hid⟩ | hformed := h.formed
  · exact inv.stored hdb hid
  · exact inv.formed hdb hformed

/-! ### The loop over the members -/

/-- What the loop over `pending` returns, with `normalized` done before. -/
def Flattened (pending normalized : List (UnionMember TypeId))
    (r : Option (List (UnionMember TypeId))) (db : Database) : Prop :=
  (∃ r', Flattens db pending r' ∧ r = r'.map (normalized ++ ·)) ∧
    ∀ members, r = some members → Singles members db

theorem flatten_other {i : Ty → Interner TypeId} {member : UnionMember TypeId}
    (hm : ∀ id, member ≠ .type id) (pending normalized : List (UnionMember TypeId)) :
    flatten i (n + 1) (member :: pending) normalized = (do
      match onlyIncluded (← ty member.id) with
      | some inner => flatten i n (member.withId inner :: pending) normalized
      | none => do
          match ← project i n member with
          | .reduced members => flatten i n (members ++ pending) normalized
          | .pending | .conflict => flatten i n pending (normalized ++ [member])) := by
  cases member with
  | type id => exact absurd rfl (hm id)
  | _ => rfl

theorem replays_flatten (inv : Invariant I Pre)
    (hi : ∀ ty, Steady I (intern k ty) (intern k' ty)) (hk : k ≤ k') (h : n ≤ n')
    (pending normalized : List (UnionMember TypeId)) :
    Replays I (Singles normalized) (flatten (intern k) n pending normalized)
      (flatten (intern k') n' pending normalized) (Flattened pending normalized) := by
  induction n generalizing n' pending normalized with
  | zero => exact .fail
  | succ n ih =>
    obtain ⟨m, rfl⟩ : ∃ m, n' = m + 1 := ⟨n' - 1, by omega⟩
    have hle : n ≤ m := by omega
    cases pending with
    | nil =>
      refine Replays.pure fun db _ hs => ⟨⟨some [], .nil, by simp⟩, ?_⟩
      rintro members ⟨⟩
      exact hs
    | cons member pending =>
      by_cases hm : ∀ id, member ≠ .type id
      · rw [flatten_other hm, flatten_other hm]
        refine (replays_ty member.id).bind fun node => ?_
        cases honly : onlyIncluded node with
        | some inner =>
          have hrec := (ih hle (member.withId inner :: pending) normalized).frame
            (stays_types member.id node)
          refine hrec.weaken (fun db _ hp => ⟨hp.2, hp.1⟩) fun r db _ hq => ?_
          obtain ⟨⟨⟨r', hf, he⟩, hs⟩, hid⟩ := hq
          exact ⟨⟨r', .replace (.included hm hid honly) hf, he⟩, hs⟩
        | none =>
          have hproject := (inv.project member hk hle (settles_project hi hle member)).frame
            ((stays_types member.id node).and (stays_singles normalized))
          refine (hproject.pre fun db _ hp => ⟨trivial, hp⟩).bind fun p => ?_
          have hstays : Stays I fun db => db.types[member.id]? = some node ∧ Projects db member p :=
            (stays_types member.id node).and (stays_projects member p)
          have hkept : (∀ members, p ≠ .reduced members) → Replays I
              (fun db => Projects db member p ∧ db.types[member.id]? = some node ∧
                Singles normalized db)
              (flatten (intern k) n pending (normalized ++ [member]))
              (flatten (intern k') m pending (normalized ++ [member]))
              (Flattened (member :: pending) normalized) := by
            intro hne
            have hrec := (ih hle pending (normalized ++ [member])).frame hstays
            refine hrec.weaken (fun db _ hp =>
              ⟨singles_append hp.2.2 (singles_other hm), hp.2.1, hp.1⟩) fun r db _ hq => ?_
            obtain ⟨⟨⟨r', hf, rfl⟩, hall⟩, hid, hp⟩ := hq
            exact ⟨⟨_, .step (.kept (.projection hm hid honly hp hne)) hf, map_append_append ..⟩, hall⟩
          cases p with
          | reduced members =>
            have hrec := (ih hle (members ++ pending) normalized).frame hstays
            refine hrec.weaken (fun db _ hp => ⟨hp.2.2, hp.2.1, hp.1⟩) fun r db _ hq => ?_
            obtain ⟨⟨⟨r', hf, he⟩, hall⟩, hid, hp⟩ := hq
            exact ⟨⟨r', .replace (.reduced hm hid honly hp) hf, he⟩, hall⟩
          | pending => exact hkept fun _ => nofun
          | conflict => exact hkept fun _ => nofun
      · rw [not_forall] at hm
        obtain ⟨id, hm⟩ := hm
        obtain rfl := not_not.mp hm
        refine (replays_ty id).bind fun node => ?_
        have hsingle : Single node → Replays I
            (fun db => db.types[id]? = some node ∧ Singles normalized db)
            (flatten (intern k) n pending (normalized ++ [.type id]))
            (flatten (intern k') m pending (normalized ++ [.type id]))
            (Flattened (.type id :: pending) normalized) := by
          intro hs
          have hrec := (ih hle pending (normalized ++ [.type id])).frame (stays_types id node)
          refine hrec.weaken (fun db _ hp => ⟨singles_append hp.2 (singles_type hp.1 hs), hp.1⟩)
            fun r db _ hq => ?_
          obtain ⟨⟨⟨r', hf, rfl⟩, hall⟩, hid⟩ := hq
          exact ⟨⟨_, .step (.kept (.type hid hs)) hf, map_append_append ..⟩, hall⟩
        cases node with
        | top => exact Replays.pure fun db _ hp => ⟨⟨none, .top hp.1, rfl⟩, fun _ h => nomatch h⟩
        | union members =>
          have hrec := (ih hle pending (normalized ++ members)).frame
            (stays_types id (.union members))
          refine hrec.weaken (fun db hdb hp =>
            ⟨singles_append hp.2 ((inv.sound hdb).flat id _ hp.1 members rfl), hp.1⟩) fun r db _ hq => ?_
          obtain ⟨⟨⟨r', hf, rfl⟩, hall⟩, hid⟩ := hq
          exact ⟨⟨_, .step (.nested hid) hf, map_append_append ..⟩, hall⟩
        | _ => exact hsingle trivial

/-! ### Dropping fresh twins -/

theorem replays_intern_literal (inv : Invariant I Pre) (h : k ≤ k') (l : Literal) :
    Replays I (fun _ => True) (intern k (.literal l)) (intern k' (.literal l)) fun id db =>
      db.types[id]? = some (.literal l) := by
  cases k with
  | zero => exact .fail
  | succ k =>
    obtain ⟨m, rfl⟩ : ∃ m, k' = m + 1 := ⟨k' - 1, by omega⟩
    exact (inv.place (.literal l)).pre fun _ hdb _ => inv.formed hdb trivial

/-- A type that is not a literal of the kind that `f` makes. -/
def Unlike (f : Literal → Ty) (member : UnionMember TypeId) (db : Database) : Prop :=
  ∀ id, member = .type id → ∃ node, db.types[id]? = some node ∧ ∀ l, node ≠ f l

theorem stays_unlike (f : Literal → Ty) (member : UnionMember TypeId) :
    Stays I (Unlike f member) := by
  intro db db' _ _ hle h id hid
  obtain ⟨node, hnode, hne⟩ := h id hid
  exact ⟨node, types_of_le hle hnode, hne⟩

/-- What `regularMember` returns. -/
def RegularAt (member : UnionMember TypeId) (found : Option TypeId) (db : Database) : Prop :=
  (∃ id l, member = .type id ∧ db.types[id]? = some (.literal l) ∧ found = some id) ∨
    Unlike .literal member db ∧ found = none

theorem stays_regularAt (member : UnionMember TypeId) (found : Option TypeId) :
    Stays I (RegularAt member found) := by
  rintro db db' hs hs' hle (⟨id, l, hm, hid, hf⟩ | ⟨hu, hf⟩)
  · exact .inl ⟨id, l, hm, types_of_le hle hid, hf⟩
  · exact .inr ⟨stays_unlike .literal member db db' hs hs' hle hu, hf⟩

theorem replays_regularMember (member : UnionMember TypeId) :
    Replays I (fun _ => True) (regularMember member) (regularMember member)
      (RegularAt member) := by
  cases member with
  | type id =>
    refine (replays_ty id).bind fun node => ?_
    cases node with
    | literal l => exact Replays.pure fun db _ hp => .inl ⟨id, l, rfl, hp.1, rfl⟩
    | _ =>
      refine Replays.pure fun db _ hp => .inr ⟨fun id' he => ?_, rfl⟩
      obtain rfl := UnionMember.type.inj he
      exact ⟨_, hp.1, fun _ => nofun⟩
  | _ => exact Replays.pure fun db _ _ => .inr ⟨fun _ => nofun, rfl⟩

/-- What `retained` returns. -/
def RetainedAt (literals : List TypeId) (member : UnionMember TypeId)
    (found : Option (UnionMember TypeId)) (db : Database) : Prop :=
  (∃ id l twin, member = .type id ∧ db.types[id]? = some (.fresh l) ∧
      db.types[twin]? = some (.literal l) ∧
      found = if twin ∈ literals then none else some member) ∨
    Unlike .fresh member db ∧ found = some member

theorem stays_retainedAt (literals : List TypeId) (member : UnionMember TypeId)
    (found : Option (UnionMember TypeId)) : Stays I (RetainedAt literals member found) := by
  rintro db db' hs hs' hle (⟨id, l, twin, hm, hid, htwin, hf⟩ | ⟨hu, hf⟩)
  · exact .inl ⟨id, l, twin, hm, types_of_le hle hid, types_of_le hle htwin, hf⟩
  · exact .inr ⟨stays_unlike .fresh member db db' hs hs' hle hu, hf⟩

theorem replays_regular (inv : Invariant I Pre) (h : k ≤ k') {id : TypeId} {l : Literal} :
    Replays I (fun db => db.types[id]? = some (.fresh l)) (regular (intern k) id)
      (regular (intern k') id) fun twin db =>
        db.types[twin]? = some (.literal l) ∧ db.types[id]? = some (.fresh l) := by
  refine (replays_ty id).bind fun node => ?_
  by_cases hn : node = .fresh l
  · subst hn
    refine ((replays_intern_literal inv h l).frame (stays_types id (.fresh l))).pre ?_
    exact fun db _ hp => ⟨trivial, hp.2⟩
  · refine Replays.absurd fun db _ hp => hn ?_
    exact Option.some.inj (hp.1.symm.trans hp.2)

theorem replays_retained (inv : Invariant I Pre) (h : k ≤ k') (literals : List TypeId)
    (member : UnionMember TypeId) :
    Replays I (fun _ => True) (retained (intern k) literals member)
      (retained (intern k') literals member) (RetainedAt literals member) := by
  cases member with
  | type id =>
    refine (replays_ty id).bind fun node => ?_
    cases node with
    | fresh l =>
      refine ((replays_regular inv h).pre fun _ _ hp => hp.1).bind fun twin => ?_
      by_cases hmem : twin ∈ literals
      · rw [if_pos hmem]
        exact Replays.pure fun db _ hp => .inl ⟨id, l, twin, rfl, hp.2, hp.1, (if_pos hmem).symm⟩
      · rw [if_neg hmem]
        exact Replays.pure fun db _ hp => .inl ⟨id, l, twin, rfl, hp.2, hp.1, (if_neg hmem).symm⟩
    | _ =>
      refine Replays.pure fun db _ hp => .inr ⟨fun id' he => ?_, rfl⟩
      obtain rfl := UnionMember.type.inj he
      exact ⟨_, hp.1, fun _ => nofun⟩
  | _ => exact Replays.pure fun db _ _ => .inr ⟨fun _ => nofun, rfl⟩

theorem sublist_reduceOption {α : Type} {l : List α} {os : List (Option α)}
    (h : List.Forall₂ (fun a o => o = some a ∨ o = none) l os) : os.reduceOption.Sublist l := by
  induction h with
  | nil => exact List.Sublist.slnil
  | @cons a o l os hao _ ih =>
    obtain rfl | rfl := hao
    · rw [List.reduceOption_cons_of_some]
      exact ih.cons_cons a
    · rw [List.reduceOption_cons_of_none]
      exact ih.cons a

/-- What the regular literals among the members are. -/
theorem mem_literals {members : List (UnionMember TypeId)} {found : List (Option TypeId)}
    (h : List.Forall₂ (fun m o => RegularAt m o db) members found) (id : TypeId) :
    id ∈ found.reduceOption ↔
      .type id ∈ members ∧ ∃ l, db.types[id]? = some (.literal l) := by
  induction h with
  | nil => simp
  | @cons member o members found hmo _ ih =>
    obtain ⟨id', l, rfl, hid, rfl⟩ | ⟨hu, rfl⟩ := hmo
    · rw [List.reduceOption_cons_of_some, List.mem_cons, List.mem_cons, ih]
      constructor
      · rintro (rfl | ⟨hmem, hl⟩)
        · exact ⟨.inl rfl, l, hid⟩
        · exact ⟨.inr hmem, hl⟩
      · rintro ⟨he | hmem, hl⟩
        · exact .inl (UnionMember.type.inj he)
        · exact .inr ⟨hmem, hl⟩
    · rw [List.reduceOption_cons_of_none, List.mem_cons, ih]
      constructor
      · exact fun h => ⟨.inr h.1, h.2⟩
      · rintro ⟨he | hmem, l, hl⟩
        · obtain ⟨node, hnode, hne⟩ := hu id he.symm
          exact absurd (Option.some.inj (hnode.symm.trans hl)) (hne l)
        · exact ⟨hmem, l, hl⟩

/-- What is retained of the members. -/
theorem mem_retained (hdb : db.Sound) {all members : List (UnionMember TypeId)}
    {literals : List TypeId} {found : List (Option (UnionMember TypeId))}
    (hl : ∀ id, id ∈ literals ↔ .type id ∈ all ∧ ∃ l, db.types[id]? = some (.literal l))
    (h : List.Forall₂ (fun m o => RetainedAt literals m o db) members found)
    (member : UnionMember TypeId) :
    member ∈ found.reduceOption ↔ member ∈ members ∧ ¬Twinned db all member := by
  induction h with
  | nil => simp
  | @cons m o members found hmo _ ih =>
    have hm : (o = none ∧ Twinned db all m) ∨ (o = some m ∧ ¬Twinned db all m) := by
      obtain ⟨id, l, twin, rfl, hid, htwin, rfl⟩ | ⟨hu, rfl⟩ := hmo
      · split_ifs with hmem
        · exact .inl ⟨rfl, id, l, twin, rfl, hid, htwin, ((hl twin).mp hmem).1⟩
        · refine .inr ⟨rfl, ?_⟩
          rintro ⟨id', l', twin', he, hid', htwin', hall⟩
          obtain rfl := UnionMember.type.inj he
          obtain rfl := Node.fresh.inj (Option.some.inj (hid.symm.trans hid'))
          obtain rfl := hdb.id_unique htwin htwin'
          exact hmem ((hl twin).mpr ⟨hall, l, htwin⟩)
      · refine .inr ⟨rfl, ?_⟩
        rintro ⟨id, l, twin, he, hid, -, -⟩
        obtain ⟨node, hnode, hne⟩ := hu id he
        exact hne l (Option.some.inj (hnode.symm.trans hid))
    obtain ⟨rfl, ht⟩ | ⟨rfl, ht⟩ := hm
    · rw [List.reduceOption_cons_of_none, ih, List.mem_cons]
      constructor
      · exact fun h => ⟨.inr h.1, h.2⟩
      · rintro ⟨rfl | hmem, hn⟩
        · exact absurd ht hn
        · exact ⟨hmem, hn⟩
    · rw [List.reduceOption_cons_of_some, List.mem_cons, ih, List.mem_cons]
      constructor
      · rintro (rfl | h)
        · exact ⟨.inl rfl, ht⟩
        · exact ⟨.inr h.1, h.2⟩
      · rintro ⟨rfl | hmem, hn⟩
        · exact .inl rfl
        · exact .inr ⟨hmem, hn⟩

theorem sublist_retained {members : List (UnionMember TypeId)} {literals : List TypeId}
    {found : List (Option (UnionMember TypeId))}
    (h : List.Forall₂ (fun m o => RetainedAt literals m o db) members found) :
    found.reduceOption.Sublist members := by
  refine sublist_reduceOption (h.imp fun m o hmo => ?_)
  obtain ⟨-, -, twin, -, -, -, rfl⟩ | ⟨-, rfl⟩ := hmo
  · split_ifs
    · exact .inr rfl
    · exact .inl rfl
  · exact .inl rfl

/-- What has been found out of the members before the fresh twins are dropped. -/
structure Noted (members flat : List (UnionMember TypeId)) (literals : List (Option TypeId))
    (db : Database) : Prop where
  flattens : Flattens db members (some flat)
  singles : Singles flat db
  literals : List.Forall₂ (fun m o => RegularAt m o db) (sorted flat) literals

theorem stays_noted (members flat : List (UnionMember TypeId)) (literals : List (Option TypeId)) :
    Stays I (Noted members flat literals) := fun db db' hs hs' hle h => {
  flattens := h.flattens.mono hle
  singles := singles_of_le hle h.singles
  literals := h.literals.imp fun m o hmo => stays_regularAt m o db db' hs hs' hle hmo }

theorem Noted.mem {members flat : List (UnionMember TypeId)} {literals : List (Option TypeId)}
    (h : Noted members flat literals db) (id : TypeId) :
    id ∈ literals.reduceOption ↔ .type id ∈ flat ∧ ∃ l, db.types[id]? = some (.literal l) := by
  rw [mem_literals h.literals, mem_sorted]

theorem replays_literals (members flat : List (UnionMember TypeId)) :
    Replays I (fun db => Flattens db members (some flat) ∧ Singles flat db)
      ((sorted flat).mapM regularMember) ((sorted flat).mapM regularMember) fun literals db =>
        Noted members flat literals db := by
  have hstays : Stays I fun db => Flattens db members (some flat) ∧ Singles flat db :=
    fun db db' _ _ hle h => ⟨h.1.mono hle, singles_of_le hle h.2⟩
  have hregular := (Replays.mapM (stays_const True) stays_regularAt (sorted flat) fun m _ =>
    replays_regularMember m).frame hstays
  exact hregular.weaken (fun db _ hf => ⟨trivial, hf⟩) fun literals db _ hq =>
    ⟨hq.2.1, hq.2.2, hq.1⟩

theorem replays_retain (inv : Invariant I Pre) (hk : k ≤ k') (members flat : List (UnionMember TypeId))
    (literals : List (Option TypeId)) :
    Replays I (Noted members flat literals)
      (retain (intern k) literals.reduceOption (sorted flat))
      (retain (intern k') literals.reduceOption (sorted flat)) fun canonical db =>
        Canonical db flat canonical ∧ Noted members flat literals db := by
  unfold retain
  split_ifs with hempty
  · refine Replays.pure fun db _ h => ⟨⟨sorted_pairwise flat, fun member => ?_⟩, h⟩
    rw [mem_sorted]
    refine (and_iff_left ?_).symm
    rintro ⟨id, l, twin, -, -, htwin, hmem⟩
    have := (h.mem twin).mpr ⟨hmem, l, htwin⟩
    rw [List.isEmpty_iff.mp hempty] at this
    exact List.not_mem_nil this
  · have hmap := Replays.mapM (stays_const True) (stays_retainedAt literals.reduceOption)
      (sorted flat) fun m _ => replays_retained inv hk literals.reduceOption m
    refine ((hmap.frame (stays_noted members flat literals)).pre fun db _ h => ⟨trivial, h⟩).map
      fun found db hdb h => ⟨⟨?_, fun member => ?_⟩, h.2⟩
    · exact (sorted_pairwise flat).sublist (sublist_retained h.1)
    · rw [mem_retained (inv.sound hdb) h.2.mem h.1, mem_sorted]

theorem replays_unionOf (canonical : List (UnionMember TypeId)) {P : Database → Prop} :
    Replays I P (unionOf canonical) (unionOf canonical) fun node db =>
      UnionNode db canonical node ∧ P db := by
  unfold unionOf
  split
  · next id =>
    exact (replays_ty id).post fun node db _ h => ⟨.inl ⟨id, rfl, h.1⟩, h.2⟩
  · next hne => exact Replays.pure fun db _ h => ⟨.inr ⟨hne, rfl⟩, h⟩

theorem replays_normalizeUnion (inv : Invariant I Pre)
    (hi : ∀ ty, Steady I (intern k ty) (intern k' ty)) (hk : k ≤ k') (h : n ≤ n')
    (members : List (UnionMember TypeId)) :
    Replays I (fun _ => True) (normalizeUnion (intern k) n members)
      (normalizeUnion (intern k') n' members) fun node db => UnionForm db members node := by
  have hflatten := (replays_flatten inv hi hk h members []).pre
    fun db _ (_ : True) id hid => absurd hid List.not_mem_nil
  refine hflatten.bind fun r => ?_
  cases r with
  | none =>
    refine Replays.pure fun db _ hf => .inl ⟨?_, rfl⟩
    obtain ⟨⟨r', hf, he⟩, -⟩ := hf
    rwa [Option.map_eq_none_iff.mp he.symm] at hf
  | some flat =>
    have hpre : ∀ db, Flattened members [] (some flat) db →
        Flattens db members (some flat) ∧ Singles flat db := by
      rintro db ⟨⟨r', hf, he⟩, hs⟩
      refine ⟨?_, hs flat rfl⟩
      cases r' with
      | none => cases he
      | some l =>
        obtain rfl := Option.some.inj he
        exact hf
    refine ((replays_literals members flat).pre fun db _ hf => hpre db hf).bind fun literals => ?_
    refine (replays_retain inv hk members flat literals).bind fun canonical => ?_
    refine (replays_unionOf canonical).post fun node db _ hq => .inr ?_
    exact ⟨flat, canonical, hq.2.2.flattens, hq.2.2.singles, hq.2.1, hq.1⟩

/-! ### Closing the induction -/

/-- What is found by reading only is found again. -/
theorem replays_found {α : Type} {m m' : Interner α} (hI : ∀ {db}, I db → db.Sound)
    (h : Steady I m m') (hs : Steady Sound m m') :
    Replays I (fun _ => True) m m' fun a db => Finds db m' a := by
  intro db a db' hdb hP hm
  obtain ⟨hdb', hle, -, hm', hreplay⟩ := h db a db' hdb hP hm
  obtain ⟨-, -, -, -, hfinds⟩ := hs db a db' (hI hdb) trivial hm
  exact ⟨hdb', hle, hfinds, hm', hreplay⟩

theorem stays_finds {α : Type} (m : Interner α) (a : α) : Stays I fun db => Finds db m a :=
  fun _ _ _ _ hle h => h.mono hle

theorem replays_normalizeRestricted (inv : Invariant I Pre) (target : TypeId)
    (restriction : Restriction TypeId) :
    Replays I (fun _ => True) (normalizeRestricted target restriction)
      (normalizeRestricted target restriction) Pre := by
  refine (replays_ty target).bind fun node => ?_
  cases node with
  | unknown kind => exact Replays.pure fun db hdb hq => inv.stored hdb hq.1
  | _ => exact Replays.pure fun db hdb hq => inv.formed hdb ⟨_, hq.1, rfl⟩

theorem replays_normalizeFields (inv : Invariant I Pre) (target : TypeId) (access : FieldAccess) :
    Replays I (fun _ => True) (normalizeFields target access) (normalizeFields target access)
      Pre := by
  refine (replays_ty target).bind fun node => ?_
  cases node with
  | unknown kind => exact Replays.pure fun db hdb hq => inv.formed hdb trivial
  | _ => exact Replays.pure fun db hdb hq => inv.formed hdb ⟨_, hq.1, rfl⟩

theorem replays_normalize (inv : Invariant I Pre)
    (hi : ∀ ty, Steady I (intern k ty) (intern k' ty)) (hk : k ≤ k') (h : n ≤ n') (node : Ty) :
    Replays I (fun _ => True) (normalize (intern k) n node) (normalize (intern k') n' node) Pre := by
  have hunion : ∀ {P : Database → Prop} members, Replays I P (normalizeUnion (intern k) n members)
      (normalizeUnion (intern k') n' members) Pre := fun members =>
    (replays_normalizeUnion inv hi hk h members).weaken (fun _ _ _ => trivial)
      fun node db hdb hform => hform.pre inv hdb
  cases node with
  | union members => exact hunion members
  | restricted target restriction => exact replays_normalizeRestricted inv target restriction
  | fields target access => exact replays_normalizeFields inv target access
  | quantified binders body =>
    cases binders with
    | nil => exact (replays_ty body).post fun node db hdb hq => inv.stored hdb hq.1
    | cons binder binders =>
      exact Replays.pure fun db hdb _ => inv.formed hdb (List.cons_ne_nil _ _)
  | map packs pattern =>
    have hreduce := replays_reduceMap (I := I) hi h packs pattern
    have hfound := inv.reduce packs pattern hk h hreduce.steady
    refine (hreduce.and hfound).bind fun reduced => ?_
    cases reduced with
    | some node =>
      refine Replays.pure fun db hdb hq => inv.formed hdb ?_
      obtain ⟨kind, rfl⟩ | ⟨items, rfl⟩ := hq.1 node rfl
      · trivial
      · trivial
    | none => exact Replays.pure fun db hdb hq => inv.formed hdb hq.2
  | apply base args kind =>
    have hrestriction := replays_found inv.sound (settles_restriction base args)
      (settles_restriction base args)
    have hfields := replays_found inv.sound (settles_fields base args) (settles_fields base args)
    have hprojection := replays_found inv.sound (settles_projection base args)
      (settles_projection base args)
    refine hrestriction.bind fun found => ?_
    cases found with
    | some found => exact (replays_normalizeRestricted inv _ _).pre fun _ _ _ => trivial
    | none =>
      refine ((hfields.frame (stays_finds _ none)).pre fun db _ hq => ⟨trivial, hq⟩).bind
        fun found => ?_
      cases found with
      | some found => exact (replays_normalizeFields inv _ _).pre fun _ _ _ => trivial
      | none =>
        refine ((hprojection.frame ((stays_finds _ none).and (stays_finds _ none))).pre
          fun db _ hq => ⟨trivial, hq⟩).bind fun found => ?_
        cases found with
        | some members => exact hunion members
        | none => exact Replays.pure fun db hdb hq => inv.formed hdb ⟨hq.2.2, hq.2.1, hq.1⟩
  | _ => exact Replays.pure fun db hdb _ => inv.formed hdb trivial

/-- Interning replays: what it adds, it finds again, with any more fuel, and it finds the same type
later whatever else has been interned in between. -/
theorem replays_intern (inv : Invariant I Pre) (h : k ≤ k') (node : Ty) :
    Replays I (fun _ => True) (intern k node) (intern k' node) fun id db =>
      ∃ normal, db.types[id]? = some normal := by
  induction k generalizing k' node with
  | zero => exact .fail
  | succ k ih =>
    obtain ⟨m, rfl⟩ : ∃ m, k' = m + 1 := ⟨k' - 1, by omega⟩
    have hle : k ≤ m := by omega
    have hi := fun ty => (ih hle ty).steady
    refine Replays.bind (settles_validate hle node) fun _ => ?_
    refine Replays.bind (replays_normalize inv hi hle hle node) fun normal => ?_
    exact (inv.place normal).post fun _ _ _ hid => ⟨normal, hid⟩

theorem settles_intern (inv : Invariant I Pre) (h : k ≤ k') (node : Ty) :
    Steady I (intern k node) (intern k' node) :=
  (replays_intern inv h node).steady

/-- What interning a union gives. -/
def Makes (db : Database) (members : List (UnionMember TypeId)) (id : TypeId) : Prop :=
  ∃ node, db.types[id]? = some node ∧ UnionForm db members node

theorem Makes.mono {members : List (UnionMember TypeId)} {id : TypeId} (hle : db ≤ db')
    (h : Makes db members id) : Makes db' members id := by
  obtain ⟨node, hid, hform⟩ := h
  exact ⟨node, types_of_le hle hid, hform.mono hle⟩

theorem replays_intern_union (inv : Invariant I Pre) (h : k ≤ k')
    (members : List (UnionMember TypeId)) :
    Replays I (fun _ => True) (intern k (.union members)) (intern k' (.union members))
      fun id db => Makes db members id := by
  cases k with
  | zero => exact .fail
  | succ k =>
    obtain ⟨m, rfl⟩ : ∃ m, k' = m + 1 := ⟨k' - 1, by omega⟩
    have hle : k ≤ m := by omega
    refine Replays.bind (settles_validate hle _) fun _ => ?_
    have hform := replays_normalizeUnion inv (fun ty => settles_intern inv hle ty) hle hle members
    refine Replays.bind hform fun node => ?_
    have hstays : Stays I fun db => UnionForm db members node :=
      fun _ _ _ _ hle h => h.mono hle
    refine ((inv.place node).frame hstays).weaken (fun db hdb hf => ⟨hf.pre inv hdb, hf⟩)
      fun id db _ hq => ⟨node, hq.1, hq.2⟩

/-- What always holds of a database is an invariant of interning. -/
theorem invariant_sound : Invariant Sound Flat where
  sound h := h
  stored hdb hid := hdb.flat _ _ hid
  formed _ h := h.flat
  place := replays_place
  project _ _ _ h := h.again.post fun _ _ _ hq => ⟨_, _, hq.2⟩
  reduce _ _ _ _ h := h.again.post fun _ _ _ hq => ⟨_, _, hq.2⟩

end Interner

end Dolang.Types
