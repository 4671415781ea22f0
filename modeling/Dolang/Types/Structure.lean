import Dolang.Types.Returning

/-!
# Structures

Two types have the same structure when their nodes are the same but for the ids of the children, and
the children have the same structure. `Node.relabel` puts other children in a node's places, so that a
node of pairs stands for two nodes whose children correspond. Within a database, only a type itself has
its structure (`SameStructure.eq`), and its structure contains `unknown` exactly when that was noted
(`containsUnknown_iff`).
-/

namespace Dolang.Types

open Growing Database

variable {ι κ ν : Type}

namespace UnionMember

def relabel (f : ι → κ) : UnionMember ι → UnionMember κ
  | type id => type (f id)
  | expand id => expand (f id)
  | keys id => keys (f id)
  | values id => values (f id)
  | entries id => entries (f id)
  | indexItem id key => indexItem (f id) (f key)
  | assignItem id key => assignItem (f id) (f key)
  | insertItem id key => insertItem (f id) (f key)

end UnionMember

def Argument.relabel (f : ι → κ) (arg : Argument ι) : Argument κ :=
  arg.withTy (f arg.ty)

def Element.relabel (f : ι → κ) : Element ι → Element κ
  | positional ty => positional (f ty)
  | keyed key value => keyed (f key) (f value)
  | included schema => included (f schema)

def SchemaItem.relabel (f : ι → κ) (item : SchemaItem ι) : SchemaItem κ where
  multiplicity := item.multiplicity
  element := item.element.relabel f

def Binder.relabel (f : ι → κ) (binder : Binder ι) : Binder κ :=
  { binder with bound := binder.bound.map f, default := binder.default.map f }

def FunctionType.relabel (f : ι → κ) (func : FunctionType ι) : FunctionType κ where
  params := f func.params
  result := f func.result
  input := func.input.map f
  output := func.output.map f

def Restriction.relabel (f : ι → κ) : Restriction ι → Restriction κ
  | deletable key => deletable (f key)
  | clearable => clearable

namespace Node

/-- A node with other children in the same places. -/
def relabel (f : ι → κ) : Node ι → Node κ
  | top => top
  | unknown kind => unknown kind
  | unsupported kind occurrence => unsupported kind occurrence
  | literal l => literal l
  | fresh l => fresh l
  | decl d => decl d
  | metatype d => metatype d
  | bound reference kind => bound reference kind
  | rigid d slot kind => rigid d slot kind
  | apply base args kind => apply (f base) (args.map (Argument.relabel f)) kind
  | union members => union (members.map (UnionMember.relabel f))
  | function func => function (func.relabel f)
  | schema items => schema (items.map (SchemaItem.relabel f))
  | quantified binders body => quantified (binders.map (Binder.relabel f)) (f body)
  | map packs pattern => map (packs.map f) (f pattern)
  | restricted target restriction => restricted (f target) (restriction.relabel f)
  | fields target access => fields (f target) access
  | overloaded overloads implementation func =>
      overloaded (overloads.map f) (implementation.map f) func

section

variable {m : Type → Type} [Monad m] [LawfulMonad m] (f : ι → κ)

/-- Mapping the children with a function relabels them. -/
theorem mapChildren_pure (node : Node ι) :
    node.mapChildren (fun child _ => pure (f child)) = (pure (node.relabel f) : m (Node κ)) := by
  have hoption : ∀ (groups : ℕ) (o : Option ι),
      mapOption (fun child _ => pure (f child)) groups o = (pure (o.map f) : m (Option κ)) := by
    intro groups o
    cases o with
    | none => rfl
    | some ty => simp [mapOption]
  have hmember : mapMember (fun child _ => pure (f child)) =
      fun member => (pure (member.relabel f) : m (UnionMember κ)) := by
    funext member
    cases member <;> simp [mapMember, UnionMember.relabel]
  have hitem : mapItem (fun child _ => pure (f child)) =
      fun item => (pure (item.relabel f) : m (SchemaItem κ)) := by
    funext item
    obtain ⟨multiplicity, element⟩ := item
    cases element <;> simp [mapItem, SchemaItem.relabel, Element.relabel]
  have hbinder : ∀ groups, mapBinder (fun child _ => pure (f child)) groups =
      fun binder => (pure (binder.relabel f) : m (Binder κ)) := by
    intro groups
    funext binder
    simp [mapBinder, hoption, Binder.relabel]
  cases node with
  | restricted target restriction =>
    cases restriction <;> simp [mapChildren, relabel, Restriction.relabel]
  | apply base args kind =>
    simp only [mapChildren, relabel, map_pure, List.mapM_pure, pure_bind]
    rfl
  | _ => simp [mapChildren, relabel, hoption, hmember, hitem, hbinder, FunctionType.relabel]

end

theorem children_relabel (f : ι → κ) (node : Node ι) :
    (node.relabel f).children = node.children.map fun child => (f child.1, child.2) := by
  have hmember : ∀ member : UnionMember ι,
      (member.relabel f).id = f member.id ∧ (member.relabel f).key = member.key.map f := by
    intro member
    cases member <;> exact ⟨rfl, rfl⟩
  have hargument : ∀ arg : Argument ι, (arg.relabel f).ty = f arg.ty := by
    intro arg
    cases arg <;> rfl
  have hgroups : ∀ binders : List (Binder ι),
      groupsOf (binders.map (Binder.relabel f)) = groupsOf binders := by
    intro binders
    cases binders <;> rfl
  cases node with
  | apply base args kind => simp [children, relabel, hargument]
  | union members =>
    simp [children, relabel, hmember, List.map_flatMap, List.flatMap_map, Option.toList_map,
      Function.comp_def]
  | function func =>
    simp [children, relabel, FunctionType.relabel, Option.toList_map, Function.comp_def]
  | schema items =>
    simp only [children, relabel, List.map_flatMap, List.flatMap_map]
    congr 1
    funext item
    obtain ⟨multiplicity, element⟩ := item
    cases element <;> rfl
  | quantified binders body =>
    simp [children, relabel, hgroups, Binder.relabel, List.map_flatMap, List.flatMap_map,
      Option.toList_map, Function.comp_def]
  | restricted target restriction =>
    cases restriction <;> rfl
  | overloaded overloads implementation func =>
    simp [children, relabel, Option.toList_map, Function.comp_def]
  | _ => simp [children, relabel]

theorem relabel_relabel (f : ι → κ) (g : κ → ν) (node : Node ι) :
    (node.relabel f).relabel g = node.relabel fun child => g (f child) := by
  have hmember : ∀ member : UnionMember ι,
      (member.relabel f).relabel g = member.relabel fun child => g (f child) := by
    intro member
    cases member <;> rfl
  have hargument : ∀ arg : Argument ι,
      (arg.relabel f).relabel g = arg.relabel fun child => g (f child) := by
    intro arg
    cases arg <;> rfl
  have helement : ∀ element : Element ι,
      (element.relabel f).relabel g = element.relabel fun child => g (f child) := by
    intro element
    cases element <;> rfl
  cases node with
  | apply base args kind => simp [relabel, hargument]
  | union members => simp [relabel, hmember]
  | function func =>
    simp [relabel, FunctionType.relabel, Option.map_map, Function.comp_def]
  | schema items => simp [relabel, SchemaItem.relabel, helement]
  | quantified binders body => simp [relabel, Binder.relabel, Function.comp_def]
  | restricted target restriction => cases restriction <;> rfl
  | _ => simp [relabel, Function.comp_def]

/-- Nodes are made the same by functions that agree on the children. -/
theorem relabel_congr {f g : ι → κ} {node : Node ι}
    (h : ∀ child ∈ node.children, f child.1 = g child.1) : node.relabel f = node.relabel g := by
  have hoption : ∀ o : Option ι, (∀ ty, o = some ty → f ty = g ty) → o.map f = o.map g := by
    intro o ho
    cases o with
    | none => rfl
    | some ty => rw [Option.map_some, Option.map_some, ho ty rfl]
  cases node with
  | apply base args kind =>
    simp only [children, List.forall_mem_cons, List.forall_mem_map] at h
    have hargs : args.map (Argument.relabel f) = args.map (Argument.relabel g) := by
      refine List.map_congr_left fun arg ha => ?_
      rw [Argument.relabel, h.2 arg ha, Argument.relabel]
    rw [relabel, relabel, h.1, hargs]
  | union members =>
    refine congrArg union (List.map_congr_left fun member hm => ?_)
    have hid : f member.id = g member.id :=
      h (member.id, 0) (List.mem_flatMap.mpr ⟨member, hm, List.mem_cons_self⟩)
    have hkey : ∀ key, member.key = some key → f key = g key := fun key he =>
      h (key, 0) (List.mem_flatMap.mpr ⟨member, hm, by simp [he]⟩)
    cases member with
    | indexItem id key => exact congrArg₂ UnionMember.indexItem hid (hkey key rfl)
    | assignItem id key => exact congrArg₂ UnionMember.assignItem hid (hkey key rfl)
    | insertItem id key => exact congrArg₂ UnionMember.insertItem hid (hkey key rfl)
    | _ => exact congrArg _ hid
  | function func =>
    simp only [children, List.forall_mem_cons, List.forall_mem_map, List.mem_append,
      Option.mem_toList] at h
    obtain ⟨hparams, hresult, hrest⟩ := h
    rw [relabel, relabel, FunctionType.relabel, FunctionType.relabel, hparams, hresult,
      hoption _ fun ty he => hrest ty (.inl he), hoption _ fun ty he => hrest ty (.inr he)]
  | schema items =>
    refine congrArg schema (List.map_congr_left fun item hi => ?_)
    have hitem : ∀ child ∈ (schema [item]).children, f child.1 = g child.1 := by
      intro child hc
      refine h child (List.mem_flatMap.mpr ⟨item, hi, ?_⟩)
      simpa [children] using hc
    obtain ⟨multiplicity, element⟩ := item
    cases element with
    | positional ty =>
      exact congrArg (fun c => SchemaItem.mk multiplicity (.positional c)) (hitem (ty, 0) (by simp [children]))
    | keyed key value =>
      have hk := hitem (key, 0) (by simp [children])
      have hv := hitem (value, 0) (by simp [children])
      exact congrArg₂ (fun c d => SchemaItem.mk multiplicity (.keyed c d)) hk hv
    | included inner =>
      exact congrArg (fun c => SchemaItem.mk multiplicity (.included c)) (hitem (inner, 0) (by simp [children]))
  | quantified binders body =>
    have hbody : f body = g body := h (body, groupsOf binders) (by simp [children])
    have hbinders : binders.map (Binder.relabel f) = binders.map (Binder.relabel g) := by
      refine List.map_congr_left fun binder hb => ?_
      have hchild : ∀ ty, binder.bound = some ty ∨ binder.default = some ty → f ty = g ty := by
        intro ty hty
        refine h (ty, groupsOf binders) (List.mem_append_left _ (List.mem_flatMap.mpr ⟨binder, hb, ?_⟩))
        simpa using hty
      rw [Binder.relabel, Binder.relabel, hoption _ fun ty he => hchild ty (.inl he),
        hoption _ fun ty he => hchild ty (.inr he)]
    rw [relabel, relabel, hbody, hbinders]
  | map packs pattern =>
    simp only [children, List.forall_mem_append, List.forall_mem_map, List.forall_mem_singleton] at h
    rw [relabel, relabel, h.2, List.map_congr_left h.1]
  | restricted target restriction =>
    cases restriction with
    | deletable key =>
      have hk := h (key, 0) (by simp [children, Restriction.key])
      have ht := h (target, 0) (by simp [children])
      exact congrArg₂ (fun c d => restricted c (.deletable d)) ht hk
    | clearable => exact congrArg (fun c => restricted c .clearable) (h (target, 0) (by simp [children]))
  | fields target access =>
    exact congrArg (fun c => fields c access) (h (target, 0) (by simp [children]))
  | overloaded overloads implementation func =>
    simp only [children, List.forall_mem_map, List.mem_append, Option.mem_toList] at h
    rw [relabel, relabel, List.map_congr_left fun ty hm => h ty (.inl hm),
      hoption _ fun ty he => h ty (.inr he)]
  | _ => rfl

theorem relabel_id (node : Node ι) : (node.relabel fun child => child) = node := by
  have hmember : (UnionMember.relabel fun child : ι => child) = id := by
    funext member
    cases member <;> rfl
  have hargument : (Argument.relabel fun child : ι => child) = id := by
    funext arg
    cases arg <;> rfl
  have hitem : (SchemaItem.relabel fun child : ι => child) = id := by
    funext item
    obtain ⟨multiplicity, element⟩ := item
    cases element <;> rfl
  have hbinder : (Binder.relabel fun child : ι => child) = id := by
    funext binder
    simp [Binder.relabel]
  cases node with
  | restricted target restriction => cases restriction <;> rfl
  | _ => simp [relabel, FunctionType.relabel, hmember, hargument, hitem, hbinder]

end Node

/-! ### The same structure -/

/-- The types have the same structure, `id` in `db` and `id'` in `db'`. -/
inductive SameStructure (db db' : Database) : TypeId → TypeId → Prop
  | node {id id'} (pairs : Node (TypeId × TypeId)) :
      db.types[id]? = some (pairs.relabel Prod.fst) →
      db'.types[id']? = some (pairs.relabel Prod.snd) →
      (∀ child ∈ pairs.children, SameStructure db db' child.1.1 child.1.2) →
      SameStructure db db' id id'

variable {db db' : Database} {id id' : TypeId}

/-- Within a database, types with the same structure are the same. -/
theorem SameStructure.eq (hdb : db.Sound) (h : SameStructure db db id id') : id = id' := by
  induction h with
  | node pairs hid hid' _ ih =>
    have hsame : pairs.relabel Prod.fst = pairs.relabel Prod.snd := Node.relabel_congr ih
    rw [← hsame] at hid'
    exact hdb.id_unique hid hid'

/-- A type keeps its structure. -/
theorem SameStructure.of_le (hdb : db.Sound) (hle : db ≤ db') {node : Ty}
    (hid : db.types[id]? = some node) : SameStructure db db' id id := by
  induction id using Nat.strong_induction_on generalizing node with
  | _ id ih =>
    have hnode : (node.relabel fun child => (child, child)).relabel Prod.fst = node := by
      rw [Node.relabel_relabel]
      exact node.relabel_id
    have hnode' : (node.relabel fun child => (child, child)).relabel Prod.snd = node := by
      rw [Node.relabel_relabel]
      exact node.relabel_id
    refine .node (node.relabel fun child => (child, child)) (hnode.symm ▸ hid)
      (hnode'.symm ▸ types_of_le hle hid) fun child hc => ?_
    rw [Node.children_relabel] at hc
    obtain ⟨child', hc', rfl⟩ := List.mem_map.mp hc
    obtain ⟨hlt, -⟩ := List.getElem?_eq_some_iff.mp hid
    have hdescend := hdb.descend id node hid child' hc'
    have hchild := List.getElem?_eq_getElem (hdescend.trans hlt)
    exact ih child'.1 hdescend hchild

/-! ### Containing `unknown` -/

/-- `unknown` occurs in the type's structure. -/
inductive OccursUnknown (db : Database) : TypeId → Prop
  | here {id kind} : db.types[id]? = some (.unknown kind) → OccursUnknown db id
  | child {id node child} : db.types[id]? = some node → child ∈ node.children →
      OccursUnknown db child.1 → OccursUnknown db id

/-- What is noted of a type is whether `unknown` occurs in it. -/
theorem containsUnknown_iff (hdb : db.Sound) {node : Ty} (hid : db.types[id]? = some node) :
    db.containsUnknown id = some true ↔ OccursUnknown db id := by
  induction id using Nat.strong_induction_on generalizing node with
  | _ id ih =>
    have hchildren : ∀ child ∈ node.children, db.gradual.getD child.1 false = true ↔
        OccursUnknown db child.1 := by
      intro child hc
      have hdescend := hdb.descend id node hid child hc
      obtain ⟨hlt, -⟩ := List.getElem?_eq_some_iff.mp hid
      have hchild := List.getElem?_eq_getElem (hdescend.trans hlt)
      rw [← ih child.1 hdescend hchild, hdb.aligned.containsUnknown_eq,
        hdb.gradual child.1 _ hchild, List.getD_eq_getElem?_getD, hdb.gradual child.1 _ hchild]
      simp
    rw [hdb.aligned.containsUnknown_eq, hdb.gradual id node hid, Option.some.injEq, gradualOf,
      Bool.or_eq_true, List.any_map, List.any_eq_true]
    constructor
    · rintro (hu | ⟨child, hc, hg⟩)
      · cases node with
        | unknown kind => exact .here hid
        | _ => cases hu
      · exact .child hid hc ((hchildren child hc).mp hg)
    · intro h
      cases h with
      | here hid' =>
        obtain rfl := Option.some.inj (hid.symm.trans hid')
        exact .inl rfl
      | child hid' hc h =>
        obtain rfl := Option.some.inj (hid.symm.trans hid')
        exact .inr ⟨_, hc, (hchildren _ hc).mpr h⟩

end Dolang.Types
