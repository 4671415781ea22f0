import Dolang.Types.Canonical

/-!
# Interning a union returns

`Flattens` says what the members of a union come to; here the loop is shown to get there, given enough
fuel, and so is what follows it. A union is then interned as soon as its members have the right kinds
and each comes to something, if its normal form is a type that the database holds.
-/

namespace Dolang.Types

open Growing Database

namespace Interner

variable {db db' : Database} {members : List (UnionMember TypeId)}
  {r : Option (List (UnionMember TypeId))} {k k' n n' : ℕ}

/-! ### The loop -/

theorem flatten_mono (hk : k ≤ k') (hn : n ≤ n') (hdb : db.Sound)
    {pending normalized : List (UnionMember TypeId)} (hs : Singles normalized db)
    (h : flatten (intern k) n pending normalized db = some (r, db')) :
    flatten (intern k') n' pending normalized db = some (r, db') := by
  have hreplays := replays_flatten invariant_sound (fun ty => settles_intern invariant_sound hk ty)
    hk hn pending normalized
  exact (hreplays db r db' hdb hs h).2.2.2.1

theorem Expands.singles (hdb : db.Sound) {member : UnionMember TypeId}
    {new done : List (UnionMember TypeId)} (h : Expands db member new done) : Singles done db := by
  cases h with
  | nested hid => exact hdb.flat _ _ hid _ rfl
  | included => exact fun id hid => absurd hid List.not_mem_nil
  | reduced => exact fun id hid => absurd hid List.not_mem_nil
  | kept hs =>
    refine singles_of_stands fun m hm => ?_
    rwa [List.mem_singleton.mp hm]

theorem ty_run {id : TypeId} {node : Ty} (hid : db.types[id]? = some node) :
    ty id db = some (node, db) :=
  read_eq_some.mpr ⟨(db.ty_eq id).trans hid, rfl⟩

theorem run_bind {α β : Type} {m : Interner α} {f : α → Interner β} {a : α}
    (h : m db = some (a, db')) : (m >>= f) db = f a db' := by
  show (m db).bind (fun p => f p.1 p.2) = f a db'
  rw [h]
  rfl

/-- What the loop does with a projection that does not stand for another: it goes on with what the
projection reduces to, or keeps it. -/
theorem flatten_projection (hdb : db.Sound) {member : UnionMember TypeId} {node : Ty} {p : Projected}
    (hm : ∀ id, member ≠ .type id) (hid : db.types[member.id]? = some node)
    (hi : onlyIncluded node = none) (hp : Projects db member p) :
    ∃ k n, ∀ k' ≥ k, ∀ n' ≥ n, ∀ rest normalized,
      flatten (intern k') (n' + 1) (member :: rest) normalized db =
        (match p with
          | .reduced members => flatten (intern k') n' (members ++ rest) normalized
          | .pending | .conflict => flatten (intern k') n' rest (normalized ++ [member])) db := by
  obtain ⟨k, n, hp⟩ := hp
  refine ⟨k, n, fun k' hk n' hn rest normalized => ?_⟩
  have hsettles := settles_project (fun ty => settles_intern invariant_sound hk ty) hn member
  have hp' := (hsettles db p db hdb trivial (hp db hdb le_rfl)).2.2.2.1
  rw [flatten_other hm, run_bind (ty_run hid), hi]
  exact run_bind hp'

/-- What the loop does with a member. -/
theorem Expands.runs (hdb : db.Sound) {member : UnionMember TypeId}
    {new done : List (UnionMember TypeId)} (h : Expands db member new done) :
    ∃ k n, ∀ k' ≥ k, ∀ n' ≥ n, ∀ rest normalized,
      flatten (intern k') (n' + 1) (member :: rest) normalized db =
        flatten (intern k') n' (new ++ rest) (normalized ++ done) db := by
  cases h with
  | nested hid =>
    refine ⟨0, 0, fun k' _ n' _ rest normalized => ?_⟩
    rw [flatten, run_bind (ty_run hid)]
    rfl
  | included hm hid hi =>
    refine ⟨0, 0, fun k' _ n' _ rest normalized => ?_⟩
    rw [flatten_other hm, run_bind (ty_run hid), hi, List.append_nil]
    rfl
  | reduced hm hid hi hp =>
    obtain ⟨k, n, h⟩ := flatten_projection hdb hm hid hi hp
    refine ⟨k, n, fun k' hk n' hn rest normalized => ?_⟩
    rw [h k' hk n' hn, List.append_nil]
  | kept hs =>
    cases hs with
    | @type id node hid hsingle =>
      refine ⟨0, 0, fun k' _ n' _ rest normalized => ?_⟩
      rw [flatten, run_bind (ty_run hid)]
      cases node with
      | top => exact hsingle.elim
      | union => exact hsingle.elim
      | _ => rfl
    | @projection _ node p hm hid hi hp hne =>
      obtain ⟨k, n, h⟩ := flatten_projection hdb hm hid hi hp
      refine ⟨k, n, fun k' hk n' hn rest normalized => ?_⟩
      rw [h k' hk n' hn]
      cases p with
      | reduced members => exact absurd rfl (hne members)
      | _ => rfl

/-- The loop returns what the members come to. -/
theorem Flattens.runs (hdb : db.Sound) (h : Flattens db members r) :
    ∃ k n, ∀ normalized, Singles normalized db →
      flatten (intern k) n members normalized db = some (r.map (normalized ++ ·), db) := by
  induction h with
  | nil =>
    refine ⟨0, 1, fun normalized _ => ?_⟩
    rw [Option.map_some, List.append_nil]
    rfl
  | top hid =>
    refine ⟨0, 1, fun normalized _ => ?_⟩
    rw [flatten, run_bind (ty_run hid)]
    rfl
  | @step member rest new done r he _ ih =>
    obtain ⟨k, n, hrest⟩ := ih
    obtain ⟨j, m, hmember⟩ := he.runs hdb
    refine ⟨max k j, max n m + 1, fun normalized hs => ?_⟩
    have hdone := singles_append hs (he.singles hdb)
    rw [hmember _ (le_max_right ..) _ (le_max_right ..), ← map_append_append]
    exact flatten_mono (le_max_left ..) (le_max_left ..) hdb hdone (hrest _ hdone)

/-! ### The normal form -/

theorem returns_ty {I : Database → Prop} (id : TypeId) :
    Returns I (fun db => ∃ node, db.types[id]? = some node) (ty id) := by
  refine Returns.read fun db _ h => ?_
  obtain ⟨node, hid⟩ := h
  exact ⟨node, (db.ty_eq id).trans hid⟩

/-- A node without children can be added. -/
theorem returns_place_leaf {node : Ty} (hn : node.children = []) :
    Returns Kept (fun _ => True) (place node) := by
  intro db hdb _
  rw [place_eq hdb.sound.aligned]
  cases db.types.idxOf? node with
  | some i => exact ⟨i, db, rfl⟩
  | none =>
    have hnotes : db.childNotes node = some [] := by
      unfold childNotes
      rw [hn]
      rfl
    rw [hnotes]
    exact ⟨_, _, rfl⟩

theorem returns_place_stored (node : Ty) :
    Returns Kept (fun db => ∃ id : TypeId, db.types[id]? = some node) (place node) := by
  rintro db hdb ⟨id, hid⟩
  rw [place_eq hdb.sound.aligned, (idxOf?_eq_some hdb.sound.nodup).mpr hid]
  exact ⟨id, db, rfl⟩

theorem returns_intern_literal (l : Literal) :
    Returns Kept (fun _ => True) (intern (k + 1) (.literal l)) :=
  returns_place_leaf rfl

theorem returns_regularMember {member : UnionMember TypeId} (hm : member ∈ members) :
    Returns Kept (Singles members) (regularMember member) := by
  cases member with
  | type id =>
    have hty : Returns Kept (Singles members) (ty id) := (returns_ty id).pre fun db _ hs => by
      obtain ⟨node, hid, -⟩ := hs id hm
      exact ⟨node, hid⟩
    refine hty.bind (replays_ty id) fun node => ?_
    cases node <;> exact .pure _
  | _ => exact .pure _

theorem returns_retained (literals : List TypeId) {member : UnionMember TypeId}
    (hm : member ∈ members) :
    Returns Kept (Singles members) (retained (intern (k + 1)) literals member) := by
  cases member with
  | type id =>
    have hty : Returns Kept (Singles members) (ty id) := (returns_ty id).pre fun db _ hs => by
      obtain ⟨node, hid, -⟩ := hs id hm
      exact ⟨node, hid⟩
    refine hty.bind (replays_ty id) fun node => ?_
    cases node with
    | fresh l =>
      have hregular : Returns Kept (fun db => db.types[id]? = some (.fresh l))
          (regular (intern (k + 1)) id) := by
        refine ((returns_ty id).pre fun db _ hid => ⟨_, hid⟩).bind (replays_ty id) fun node => ?_
        cases node with
        | fresh l' => exact (returns_intern_literal l').pre fun _ _ _ => trivial
        | _ => exact .pure _
      refine (hregular.pre fun db _ hq => hq.1).bind
        ((replays_regular invariant_kept le_rfl).pre fun db _ hq => hq.1) fun twin => ?_
      split_ifs <;> exact .pure _
    | _ => exact .pure _
  | _ => exact .pure _

theorem returns_retain (literals : List TypeId) (members : List (UnionMember TypeId)) :
    Returns Kept (Singles members) (retain (intern (k + 1)) literals members) := by
  unfold retain
  split_ifs with hempty
  · exact .pure _
  · have hsteady : ∀ m, Steady Kept (retained (intern (k + 1)) literals m)
        (retained (intern (k + 1)) literals m) :=
      fun m => (replays_retained invariant_kept le_rfl literals m).steady
    refine Returns.map (Returns.mapM (stays_singles members) hsteady members fun m hm => ?_)
    exact returns_retained literals hm

theorem returns_unionOf (canonical : List (UnionMember TypeId)) :
    Returns Kept (Singles canonical) (unionOf canonical) := by
  unfold unionOf
  split
  · next id =>
    refine (returns_ty id).pre fun db _ hs => ?_
    obtain ⟨node, hid, -⟩ := hs id List.mem_cons_self
    exact ⟨node, hid⟩
  · exact .pure _

theorem singles_sorted {flat : List (UnionMember TypeId)} (h : Singles flat db) :
    Singles (sorted flat) db :=
  fun id hid => h id (mem_sorted.mp hid)

/-- Normalizing a union returns once its members come to something. -/
theorem Flattens.returns (hdb : Kept db) (h : Flattens db members r) :
    ∃ k, ∀ j ≥ k, ∃ node db', normalizeUnion (intern j) j members db = some (node, db') := by
  obtain ⟨k, n, hruns⟩ := h.runs hdb.sound
  refine ⟨max k n + 1, fun j hj => ?_⟩
  have hnil : Singles [] db := fun id hid => absurd hid List.not_mem_nil
  have hk : k ≤ j := by omega
  have hn : n ≤ j := by omega
  have hflatten := flatten_mono hk hn hdb.sound hnil (hruns [] hnil)
  rw [map_nil_append] at hflatten
  obtain ⟨i, rfl⟩ : ∃ i, j = i + 1 := ⟨j - 1, by omega⟩
  cases r with
  | none => exact ⟨.top, db, run_bind hflatten⟩
  | some flat =>
    have hliterals : Returns Kept (fun db => Flattens db members (some flat) ∧ Singles flat db)
        ((sorted flat).mapM regularMember) := by
      have hsteady : ∀ m, Steady Kept (regularMember m) (regularMember m) :=
        fun m => (replays_regularMember m).steady
      refine (Returns.mapM (stays_singles (sorted flat)) hsteady _ fun m hm =>
        returns_regularMember hm).pre fun db _ hs => singles_sorted hs.2
    have hrest : Returns Kept (fun db => Flattens db members (some flat) ∧ Singles flat db) (do
        let literals ← (sorted flat).mapM regularMember
        unionOf (← retain (intern (i + 1)) literals.reduceOption (sorted flat))) := by
      refine hliterals.bind (replays_literals members flat) fun literals => ?_
      have hretain := (returns_retain (k := i) literals.reduceOption (sorted flat)).pre
        fun db _ (hs : Noted members flat literals db) => singles_sorted hs.singles
      refine hretain.bind (replays_retain invariant_kept le_rfl members flat literals)
        fun canonical => ?_
      exact (returns_unionOf canonical).pre fun db _ hs => hs.1.singles hs.2.singles
    obtain ⟨node, db', hnode⟩ := hrest db hdb ⟨h, singles_of_stands (h.stands hdb rfl)⟩
    exact ⟨node, db', (run_bind hflatten).trans hnode⟩

/-- A node passes the checks that interning makes of it. -/
def Valid (db : Database) (node : Ty) : Prop :=
  ∃ n, validate n node db = some ((), db)

theorem Valid.runs {node : Ty} (hdb : db.Sound) (h : Valid db node) :
    ∃ k, ∀ j ≥ k, validate j node db = some ((), db) := by
  obtain ⟨k, hk⟩ := h
  exact ⟨k, fun j hj => (settles_validate hj node db () db hdb trivial hk).2.2.2.1⟩

/-- A union whose members have the right kinds and come to something is interned, if the database
holds its normal form. -/
theorem returns_intern_union (hdb : Kept db) (hvalid : Valid db (.union members))
    (h : Flattens db members r)
    (hstored : ∀ node db', db ≤ db' → Kept db' → UnionForm db' members node →
      ∃ id : TypeId, db'.types[id]? = some node) :
    ∃ k, ∀ j ≥ k, ∃ id db', intern j (.union members) db = some (id, db') := by
  obtain ⟨k, hvalidate⟩ := hvalid.runs hdb.sound
  obtain ⟨m, hnormalize⟩ := h.returns hdb
  refine ⟨max k m + 1, fun j hj => ?_⟩
  obtain ⟨i, rfl⟩ : ∃ i, j = i + 1 := ⟨j - 1, by omega⟩
  obtain ⟨node, db', hnode⟩ := hnormalize i (by omega)
  have hform := replays_normalizeUnion invariant_kept
    (fun ty => settles_intern invariant_kept (le_refl i) ty) le_rfl (le_refl i) members
  obtain ⟨hdb', hle, hform', -⟩ := hform db node db' hdb trivial hnode
  obtain ⟨id, db'', hid⟩ := returns_place_stored node db' hdb' (hstored node db' hle hdb' hform')
  exact ⟨id, db'', (run_bind (hvalidate i (by omega))).trans ((run_bind hnode).trans hid)⟩

/-! ### Interning what the database holds -/

theorem flattens_self (h : ∀ member ∈ members, Stands db member) :
    Flattens db members (some members) := by
  induction members with
  | nil => exact .nil
  | cons member members ih =>
    exact .step (.kept (h member List.mem_cons_self)) (ih fun m hm => h m (List.mem_cons_of_mem _ hm))

/-- A union in normal form is its normal form. -/
theorem Normal.unionForm (h : Normal db (.union members)) :
    UnionForm db members (.union members) := by
  obtain ⟨hstands, hcanonical, hne⟩ := h
  exact .inr ⟨members, members, flattens_self hstands, singles_of_stands hstands, hcanonical,
    .inr ⟨hne, rfl⟩⟩

/-- Normalizing a node in normal form that is not a union returns it. -/
theorem Formed.normalize (hdb : db.Sound) {node : Ty} (hn : ¬∃ members, node = .union members)
    (h : Formed db node) : ∃ k, ∀ j ≥ k, normalize (intern j) j node db = some (node, db) := by
  cases node with
  | union members => exact absurd ⟨members, rfl⟩ hn
  | quantified binders body =>
    cases binders with
    | nil => exact absurd rfl h
    | cons binder binders => exact ⟨0, fun _ _ => rfl⟩
  | map packs pattern =>
    obtain ⟨k, n, hfinds⟩ := h
    refine ⟨max k n, fun j hj => ?_⟩
    have hsettles : ∀ ty, Steady Sound (intern k ty) (intern j ty) :=
      fun ty => settles_intern invariant_sound ((le_max_left k n).trans hj) ty
    have hreplays := replays_reduceMap hsettles ((le_max_right k n).trans hj) packs pattern
    exact run_bind (hreplays db none db hdb trivial (hfinds db hdb le_rfl)).2.2.2.1
  | apply base args kind =>
    obtain ⟨hrestriction, hfields, hprojection⟩ := h
    refine ⟨0, fun j _ => (run_bind (hrestriction db hdb le_rfl)).trans ?_⟩
    exact (run_bind (hfields db hdb le_rfl)).trans (run_bind (hprojection db hdb le_rfl))
  | restricted target restriction =>
    obtain ⟨node, hid, hu⟩ := h
    refine ⟨0, fun j _ => (run_bind (ty_run hid)).trans ?_⟩
    cases node with
    | unknown kind => cases hu
    | _ => rfl
  | fields target access =>
    obtain ⟨node, hid, hu⟩ := h
    refine ⟨0, fun j _ => (run_bind (ty_run hid)).trans ?_⟩
    cases node with
    | unknown kind => cases hu
    | _ => rfl
  | _ => exact ⟨0, fun _ _ => rfl⟩

theorem normalize_normal (hdb : Kept db) {node node' : Ty} (h : Normal db node)
    (hrun : normalize (intern k) k node db = some (node', db')) : node' = node := by
  by_cases hn : ∃ members, node = .union members
  · obtain ⟨members, rfl⟩ := hn
    have hform := replays_normalizeUnion invariant_kept
      (fun ty => settles_intern invariant_kept (le_refl k) ty) le_rfl (le_refl k) members
    obtain ⟨hdb', hle, hform', -⟩ := hform db node' db' hdb trivial hrun
    exact hform'.unique hdb' (h.unionForm.mono hle)
  · obtain ⟨m, hm⟩ := ((normal_iff hn).mp h).normalize hdb.sound hn
    have hmono := replays_normalize invariant_kept
      (fun ty => settles_intern invariant_kept (le_max_left k m) ty) (le_max_left k m)
      (le_max_left k m) node
    have hrun' := (hmono db node' db' hdb trivial hrun).2.2.2.1
    exact (Prod.mk.inj (Option.some.inj (hrun'.symm.trans (hm _ (le_max_right k m))))).1

/-- Interning a type that the database holds gives its id. -/
theorem intern_stored (hdb : Kept db) {id id' : TypeId} {node : Ty}
    (hid : db.types[id]? = some node) (h : intern k node db = some (id', db')) : id' = id := by
  cases k with
  | zero => cases h
  | succ k =>
    obtain ⟨⟨⟩, u, hvalidate, h⟩ := bind_eq_some.mp h
    obtain ⟨node', v, hnormalize, hplace⟩ := bind_eq_some.mp h
    obtain ⟨hu, hdu, -⟩ := settles_validate (I := Kept) (le_refl k) node db () u hdb trivial hvalidate
    have hnormal := (hdb.settled id node hid).mono hdu
    obtain rfl := normalize_normal hu hnormal hnormalize
    have hsettles := replays_normalize invariant_kept
      (fun ty => settles_intern invariant_kept (le_refl k) ty) le_rfl (le_refl k) node'
    obtain ⟨hv, huv, hpre, -⟩ := hsettles u node' v hu trivial hnormalize
    obtain ⟨hdb', hle, hid', -⟩ := invariant_kept.place node' v id' db' hv hpre hplace
    exact hdb'.sound.id_unique hid' (types_of_le (hdu.trans (huv.trans hle)) hid)

/-- Interning a type that the database holds returns, if it passes the checks. -/
theorem returns_intern_stored (hdb : Kept db) {id : TypeId} {node : Ty}
    (hid : db.types[id]? = some node) (hvalid : Valid db node) :
    ∃ k, ∀ j ≥ k, ∃ db', intern j node db = some (id, db') := by
  have hsome : ∃ k, ∀ j ≥ k, ∃ id' db', intern j node db = some (id', db') := by
    by_cases hn : ∃ members, node = .union members
    · obtain ⟨members, rfl⟩ := hn
      have hnormal := hdb.settled id _ hid
      refine returns_intern_union hdb hvalid (flattens_self hnormal.1) fun node db' hle hdb' h => ?_
      obtain rfl := h.unique hdb' (hnormal.unionForm.mono hle)
      exact ⟨id, types_of_le hle hid⟩
    · obtain ⟨m, hm⟩ := ((normal_iff hn).mp (hdb.settled id node hid)).normalize hdb.sound hn
      obtain ⟨k, hk⟩ := hvalid.runs hdb.sound
      refine ⟨max k m + 1, fun j hj => ?_⟩
      obtain ⟨i, rfl⟩ : ∃ i, j = i + 1 := ⟨j - 1, by omega⟩
      obtain ⟨id', db', hplace⟩ := returns_place_stored node db hdb ⟨id, hid⟩
      exact ⟨id', db', (run_bind (hk i (by omega))).trans ((run_bind (hm i (by omega))).trans hplace)⟩
  obtain ⟨k, hk⟩ := hsome
  refine ⟨k, fun j hj => ?_⟩
  obtain ⟨id', db', h⟩ := hk j hj
  obtain rfl := intern_stored hdb hid h
  exact ⟨db', h⟩

end Interner

end Dolang.Types
