import Dolang.Types.Normalize
import Mathlib.Data.List.Nodup

/-!
# What interning keeps

A database only grows: `db ≤ db'` says that `db'` has the types and symbols of `db` under the same
ids, possibly more, and the same declarations and intrinsics. `Database.Sound` is what the tables
always meet. No type is held twice, its base's included; a type's children have smaller ids; whether
a type contains `unknown` was noted correctly; and a member of a union is neither `top` nor a union.

`replays_place` is the rule for looking a node up: its id is the node's, whatever else the database
comes to hold.
-/

namespace Dolang.Types

open Growing

namespace Database

/-- What `db` holds, `db'` holds under the same ids. -/
structure Extends (db db' : Database) : Prop where
  types : db.types <+: db'.types
  gradual : db.gradual <+: db'.gradual
  symbols : db.symbols <+: db'.symbols
  intrinsic : db'.intrinsic = db.intrinsic
  tryDeclaration : db'.tryDeclaration = db.tryDeclaration
  fixed : db'.fixed = db.fixed

instance : Preorder Database where
  le := Extends
  le_refl db := ⟨List.prefix_rfl, List.prefix_rfl, List.prefix_rfl, rfl, rfl, rfl⟩
  le_trans _ _ _ h h' := {
    types := h.types.trans h'.types
    gradual := h.gradual.trans h'.gradual
    symbols := h.symbols.trans h'.symbols
    intrinsic := h'.intrinsic.trans h.intrinsic
    tryDeclaration := h'.tryDeclaration.trans h.tryDeclaration
    fixed := h'.fixed.trans h.fixed }

/-- A type that a union has as a member. -/
def Single : Ty → Prop
  | .top | .union _ => False
  | _ => True

/-- None of the members is `top` or a union. -/
def Singles (members : List (UnionMember TypeId)) (db : Database) : Prop :=
  ∀ id, .type id ∈ members → ∃ member, db.types[id]? = some member ∧ Single member

/-- A node that is a union has no member that is `top` or a union. -/
def Flat (node : Ty) (db : Database) : Prop :=
  ∀ members, node = .union members → Singles members db

/-- Whether a node contains `unknown`, as far as the children's notes go. -/
def gradualOf (node : Ty) (gradual : List Bool) : Bool :=
  node.isUnknown || (node.children.map fun child => gradual.getD child.1 false).any fun b => b

/-- What a database's tables always meet. -/
structure Sound (db : Database) : Prop where
  aligned : db.Aligned
  nodup : db.types.Nodup
  descend : ∀ (id : TypeId) (node : Ty), db.types[id]? = some node →
    ∀ child ∈ node.children, child.1 < id
  gradual : ∀ (id : TypeId) (node : Ty), db.types[id]? = some node →
    db.gradual[id]? = some (gradualOf node db.gradual)
  flat : ∀ (id : TypeId) (node : Ty), db.types[id]? = some node → Flat node db
  top : db.types[db.fixed.top]? = some .top
  unknown : db.types[db.fixed.unknown]? = some (.unknown .type)

variable {db db' : Database} {id : TypeId} {node : Ty}

theorem getElem?_of_le {α : Type} {l l' : List α} (h : l <+: l') {i : ℕ} {a : α} (ha : l[i]? = some a) :
    l'[i]? = some a := by
  obtain ⟨rest, rfl⟩ := h
  obtain ⟨hlt, -⟩ := List.getElem?_eq_some_iff.mp ha
  rwa [List.getElem?_append_left hlt]

/-- An id keeps its type. -/
theorem types_of_le (h : db ≤ db') (hid : db.types[id]? = some node) :
    db'.types[id]? = some node :=
  getElem?_of_le h.types hid

theorem stays_types {I : Database → Prop} (id : TypeId) (node : Ty) :
    Stays I fun db => db.types[id]? = some node :=
  fun _ _ _ _ hle h => types_of_le hle h

theorem singles_of_le {members : List (UnionMember TypeId)} (hle : db ≤ db')
    (h : Singles members db) : Singles members db' := by
  intro id hid
  obtain ⟨member, hm, hsingle⟩ := h id hid
  exact ⟨member, types_of_le hle hm, hsingle⟩

/-- The same type has the same id. -/
theorem Sound.id_unique (h : db.Sound) {id' : TypeId} (hid : db.types[id]? = some node)
    (hid' : db.types[id']? = some node) : id = id' := by
  obtain ⟨hlt, rfl⟩ := List.getElem?_eq_some_iff.mp hid
  obtain ⟨hlt', he⟩ := List.getElem?_eq_some_iff.mp hid'
  exact ((h.nodup.getElem_inj_iff).mp he).symm

/-! ### Looking a node up -/

theorem idxOf?_eq_some {l : List Ty} (hl : l.Nodup) {i : ℕ} {a : Ty} :
    l.idxOf? a = some i ↔ l[i]? = some a := by
  rw [List.idxOf?, List.findIdx?_eq_some_iff_getElem, List.getElem?_eq_some_iff]
  constructor
  · rintro ⟨hlt, he, -⟩
    exact ⟨hlt, eq_of_beq he⟩
  · rintro ⟨hlt, rfl⟩
    refine ⟨hlt, beq_self_eq_true _, fun j hj => ?_⟩
    rw [beq_iff_eq]
    intro he
    exact absurd ((hl.getElem_inj_iff).mp he) (Nat.ne_of_lt hj)

/-- A database with one type more. -/
def push (db : Database) (node : Ty) (gradual : Bool) : Database :=
  { db with tables := { db.tables with
      types := db.tables.types ++ [node], gradual := db.tables.gradual ++ [gradual] } }

@[simp]
theorem types_push (db : Database) (node : Ty) (g : Bool) :
    (db.push node g).types = db.types ++ [node] := by
  rw [types, types, List.append_assoc]
  rfl

@[simp]
theorem gradual_push (db : Database) (node : Ty) (g : Bool) :
    (db.push node g).gradual = db.gradual ++ [g] := by
  rw [gradual, gradual, List.append_assoc]
  rfl

theorem le_push (db : Database) (node : Ty) (g : Bool) : db ≤ db.push node g where
  types := by rw [types_push]; exact List.prefix_append _ _
  gradual := by rw [gradual_push]; exact List.prefix_append _ _
  symbols := List.prefix_rfl
  intrinsic := rfl
  tryDeclaration := rfl
  fixed := rfl

/-- The notes on a node's children. -/
def childNotes (db : Database) (node : Ty) : Option (List Bool) :=
  node.children.mapM fun child => db.containsUnknown child.1

theorem insert_eq (h : db.Aligned) (node : Ty) :
    insert node db = match db.tables.types.idxOf? node with
      | some i => some (i, db)
      | none => (db.childNotes node).map fun found =>
          (db.tables.types.length, db.push node (node.isUnknown || found.any fun b => b)) := by
  unfold insert idOwned
  cases hi : db.tables.types.idxOf? node with
  | some i =>
    have hlt : i < db.tables.types.length := by
      rw [List.idxOf?, List.findIdx?_eq_some_iff_getElem] at hi
      exact hi.choose
    dsimp only
    rw [if_neg (by rw [h.own]; exact Nat.ne_of_lt hlt)]
  | none =>
    dsimp only
    rw [if_pos h.own.symm]
    rfl

/-- A node is found where the database or one of its bases holds it, and else added. -/
theorem place_eq (h : db.Aligned) (node : Ty) :
    place node db = match db.types.idxOf? node with
      | some id => some (id, db)
      | none => (db.childNotes node).map fun found =>
          (db.types.length, db.push node (node.isUnknown || found.any fun b => b)) := by
  rw [place, insert_eq h, types, inherited, idxOf?_append]
  cases hp : db.phase with
  | own l =>
    dsimp only
    rw [List.idxOf?_nil, Option.none_or]
    cases db.tables.types.idxOf? node with
    | some i => simp
    | none => simp
  | fork base =>
    dsimp only
    rw [Shared.typeId_eq, Shared.typeCount_eq]
    cases base.types.idxOf? node with
    | some i => rfl
    | none =>
      rw [Option.none_or]
      cases db.tables.types.idxOf? node with
      | some i => rfl
      | none =>
        dsimp only
        rw [Option.map_none, Option.map_map, List.length_append]
        rfl

theorem idxOf?_eq_none {l : List Ty} {a : Ty} : l.idxOf? a = none ↔ a ∉ l := by
  rw [List.idxOf?, List.findIdx?_eq_none_iff]
  constructor
  · intro h ha
    exact absurd (h a ha) (by simp)
  · intro h b hb
    rw [beq_eq_false_iff_ne]
    rintro rfl
    exact h hb

/-- Notes on children are found only for children that the database holds. -/
theorem childNotes_eq_some (h : db.Aligned) {found : List Bool} (hf : db.childNotes node = some found) :
    (∀ child ∈ node.children, child.1 < db.types.length) ∧
      found = node.children.map fun child => db.gradual.getD child.1 false := by
  unfold childNotes at hf
  generalize node.children = l at hf ⊢
  induction l generalizing found with
  | nil =>
    rw [List.mapM_nil] at hf
    obtain rfl := Option.some.inj hf
    exact ⟨fun c hc => absurd hc List.not_mem_nil, rfl⟩
  | cons c l ih =>
    rw [List.mapM_cons] at hf
    obtain ⟨b, hb, hf⟩ := Option.bind_eq_some_iff.mp hf
    obtain ⟨bs, hbs, hf⟩ := Option.bind_eq_some_iff.mp hf
    obtain rfl := Option.some.inj hf
    obtain ⟨hl, rfl⟩ := ih hbs
    rw [h.containsUnknown_eq] at hb
    obtain ⟨hlt, -⟩ := List.getElem?_eq_some_iff.mp hb
    refine ⟨fun d hd => ?_, ?_⟩
    · obtain rfl | hd := List.mem_cons.mp hd
      · rwa [← h.length]
      · exact hl d hd
    · rw [List.map_cons, List.getD_eq_getElem?_getD, hb]
      rfl

theorem Sound.lt_length (h : db.Sound) (hid : db.types[id]? = some node) {child : TypeId × ℕ}
    (hc : child ∈ node.children) : child.1 < db.types.length :=
  (h.descend id node hid child hc).trans (List.getElem?_eq_some_iff.mp hid).choose

/-- Notes do not change as a database grows. -/
theorem gradualOf_append {l l' : List Bool} (h : ∀ child ∈ node.children, child.1 < l.length) :
    gradualOf node (l ++ l') = gradualOf node l := by
  unfold gradualOf
  congr 2
  refine List.map_congr_left fun child hc => ?_
  rw [List.getD_eq_getElem?_getD, List.getElem?_append_left (h child hc),
    List.getD_eq_getElem?_getD]

theorem getElem?_concat {α : Type} {l : List α} {a b : α} {i : ℕ} :
    (l ++ [a])[i]? = some b ↔ l[i]? = some b ∨ i = l.length ∧ a = b := by
  rw [getElem?_append_ite]
  split_ifs with hi
  · exact ⟨.inl, fun h => h.resolve_right fun h => absurd h.1 (Nat.ne_of_lt hi)⟩
  · rw [List.getElem?_eq_none (Nat.le_of_not_lt hi), List.getElem?_singleton]
    constructor
    · intro h
      split_ifs at h with h0
      exact .inr ⟨by omega, Option.some.inj h⟩
    · rintro (h | ⟨rfl, rfl⟩)
      · cases h
      · simp

theorem Sound.push (h : db.Sound) (hn : node ∉ db.types) {found : List Bool}
    (hf : db.childNotes node = some found) (hflat : Flat node db) :
    (db.push node (node.isUnknown || found.any fun b => b)).Sound := by
  obtain ⟨hchildren, rfl⟩ := childNotes_eq_some h.aligned hf
  rw [← h.aligned.length] at hchildren
  have hle := db.le_push node (gradualOf node db.gradual)
  change (db.push node (gradualOf node db.gradual)).Sound
  constructor
  case aligned =>
    refine ⟨?_, h.aligned.base⟩
    show (db.tables.gradual ++ [_]).length = (db.tables.types ++ [node]).length
    rw [List.length_append, List.length_append, h.aligned.own]
    rfl
  case nodup =>
    rw [types_push]
    exact h.nodup.append (List.nodup_singleton _) (by simpa using hn)
  case descend =>
    intro id node' hid child hc
    rw [types_push] at hid
    obtain hid | ⟨rfl, rfl⟩ := getElem?_concat.mp hid
    · exact h.descend id node' hid child hc
    · rw [← h.aligned.length]
      exact hchildren child hc
  case gradual =>
    intro id node' hid
    rw [types_push] at hid
    rw [gradual_push]
    obtain hid | ⟨rfl, rfl⟩ := getElem?_concat.mp hid
    · rw [gradualOf_append fun c hc => by rw [h.aligned.length]; exact h.lt_length hid hc]
      exact getElem?_concat.mpr (.inl (h.gradual id node' hid))
    · rw [gradualOf_append hchildren]
      exact getElem?_concat.mpr (.inr ⟨h.aligned.length.symm, rfl⟩)
  case flat =>
    intro id node' hid
    have hflat' : Flat node' db := by
      rw [types_push] at hid
      obtain hid | ⟨rfl, rfl⟩ := getElem?_concat.mp hid
      · exact h.flat id node' hid
      · exact hflat
    exact fun members hm => singles_of_le hle (hflat' members hm)
  case top => exact types_of_le hle h.top
  case unknown => exact types_of_le hle h.unknown

/-- The rule for looking a node up: its id is the node's from then on. -/
theorem replays_place (node : Ty) :
    Replays Sound (Flat node) (place node) (place node) fun id db => db.types[id]? = some node := by
  intro db id db' hs hflat hm
  have hfound : ∀ u, u.Sound → u.types[id]? = some node → place node u = some (id, u) := by
    intro u hu hid
    rw [place_eq hu.aligned, (idxOf?_eq_some hu.nodup).mpr hid]
  rw [place_eq hs.aligned] at hm
  cases hi : db.types.idxOf? node with
  | some i =>
    rw [hi] at hm
    obtain ⟨rfl, rfl⟩ := Prod.mk.inj (Option.some.inj hm)
    have hid := (idxOf?_eq_some hs.nodup).mp hi
    exact ⟨hs, le_rfl, hid, hfound _ hs hid, fun u hu hle => hfound u hu (types_of_le hle hid)⟩
  | none =>
    rw [hi] at hm
    obtain ⟨found, hf, he⟩ := Option.map_eq_some_iff.mp hm
    obtain ⟨rfl, rfl⟩ := Prod.mk.inj he
    have hid : (db.push node (node.isUnknown || found.any fun b => b)).types[db.types.length]? =
        some node := by
      rw [types_push]
      exact List.getElem?_concat_length ..
    refine ⟨hs.push (idxOf?_eq_none.mp hi) hf hflat, db.le_push _ _, hid, ?_, fun u hu hle =>
      hfound u hu (types_of_le hle hid)⟩
    rw [place_eq hs.aligned, hi]
    exact hm

end Database

end Dolang.Types
