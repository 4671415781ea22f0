import Dolang.Types.Store

/-!
# Interning replays

Every function of `Normalize.lean` only adds to the database, and once the database holds what it
added, it gives the same result again and adds nothing (`Steady`), whatever fuel it is given. So the
order in which types are interned does not matter, nor what is interned in between. `replays_intern`
puts this together by induction on the fuel.
-/

namespace Dolang.Types

open Growing Database

namespace Interner

variable {I : Database → Prop} {n n' : ℕ}

/-! ### Reading -/

theorem replays_ty (id : TypeId) {P : Database → Prop} :
    Replays I P (ty id) (ty id) fun node db => db.types[id]? = some node ∧ P db := by
  have h : Replays I P (ty id) (ty id) fun node db => db.ty id = some node ∧ P db := by
    refine Replays.read fun db db' _ _ hle node hid => ?_
    rw [ty_eq] at hid ⊢
    exact types_of_le hle hid
  refine h.post fun node db _ hq => ?_
  rw [← ty_eq]
  exact hq

theorem settles_ty (id : TypeId) : Steady I (ty id) (ty id) :=
  (replays_ty id).steady

theorem settles_intrinsic (i : Intrinsic) : Steady I (intrinsic i) (intrinsic i) := by
  refine Steady.read fun db db' _ _ hle a ha => ?_
  rwa [hle.intrinsic]

theorem settles_fixed : Steady I fixed fixed := by
  refine Steady.read fun db db' _ _ hle a ha => ?_
  rwa [hle.fixed]

theorem settles_tryDeclaration (id : DeclId) :
    Steady I (tryDeclaration id) (tryDeclaration id) := by
  refine Steady.read fun db db' _ _ hle a ha => ?_
  rwa [hle.tryDeclaration]

/-! ### Validation -/

theorem settles_knownKind (h : n ≤ n') (id : TypeId) :
    Steady I (knownKind n id) (knownKind n' id) := by
  induction n generalizing n' id with
  | zero => exact .fail
  | succ n ih =>
    obtain ⟨k, rfl⟩ : ∃ k, n' = k + 1 := ⟨n' - 1, by omega⟩
    refine (settles_ty id).bind fun node => ?_
    cases node with
    | decl d => exact (settles_tryDeclaration d).bind fun _ => .pure _
    | quantified binders body => exact ih (by omega) body
    | _ => exact .pure _

theorem settles_expectKind (h : n ≤ n') (id : TypeId) (kind : Kind) :
    Steady I (expectKind n id kind) (expectKind n' id kind) := by
  refine (settles_knownKind h id).bind fun found => ?_
  cases found with
  | none => exact .pure _
  | some actual => exact .check

theorem settles_expectKind? (h : n ≤ n') (id : Option TypeId) (kind : Kind) :
    Steady I (expectKind? n id kind) (expectKind? n' id kind) := by
  cases id with
  | none => exact .pure _
  | some id => exact settles_expectKind h id kind

theorem settles_validateMember (h : n ≤ n') (member : UnionMember TypeId) :
    Steady I (validateMember n member) (validateMember n' member) := by
  cases member with
  | type id => exact settles_expectKind h id .type
  | _ => exact (settles_expectKind h _ .schema).bind fun _ => settles_expectKind? h _ .type

theorem settles_validateItem (h : n ≤ n') (item : SchemaItem TypeId) :
    Steady I (validateItem n item) (validateItem n' item) := by
  unfold validateItem
  cases item.element with
  | positional id => exact settles_expectKind h id .type
  | included id => exact settles_expectKind h id .schema
  | keyed key value =>
    exact (settles_expectKind h key .type).bind fun _ => settles_expectKind h value .type

theorem settles_validateBinder (h : n ≤ n') (binder : Binder TypeId) :
    Steady I (validateBinder n binder) (validateBinder n' binder) := by
  have hrest : Steady I
      (expectKind? n binder.bound binder.kind >>= fun _ =>
        expectKind? n binder.default binder.kind)
      (expectKind? n' binder.bound binder.kind >>= fun _ =>
        expectKind? n' binder.default binder.kind) :=
    (settles_expectKind? h _ _).bind fun _ => settles_expectKind? h _ _
  unfold validateBinder
  cases binder.binding with
  | rest r => exact Steady.bind .check fun _ => hrest
  | _ => exact hrest

theorem settles_validateArgument (h : n ≤ n') (arg : Argument TypeId) :
    Steady I (validateArgument n arg) (validateArgument n' arg) := by
  cases arg with
  | expand id => exact settles_expectKind h id .schema
  | _ => exact (settles_ty _).ignore

theorem settles_validate (h : n ≤ n') (node : Ty) :
    Steady I (validate n node) (validate n' node) := by
  cases node with
  | decl d => exact (settles_tryDeclaration d).ignore
  | metatype d => exact (settles_tryDeclaration d).ignore
  | rigid d slot kind => exact (settles_tryDeclaration d).ignore
  | apply base args kind =>
    exact (settles_ty base).ignore.bind fun _ => .forM (settles_validateArgument h) args
  | union members => exact .forM (settles_validateMember h) members
  | overloaded overloads implementation function =>
    refine Steady.bind .check fun _ => ?_
    have hall := Steady.forM (I := I) (fun id => settles_expectKind h id .type)
      (overloads ++ implementation.toList)
    cases function with
    | none => exact hall
    | some d => exact (settles_tryDeclaration d).ignore.bind fun _ => hall
  | function func =>
    refine (settles_expectKind h _ _).bind fun _ => (settles_expectKind h _ _).bind fun _ => ?_
    exact (settles_expectKind? h _ _).bind fun _ => settles_expectKind? h _ _
  | schema items => exact .forM (settles_validateItem h) items
  | quantified binders body =>
    refine Steady.bind .check fun _ => (settles_ty body).ignore.bind fun _ => ?_
    exact .forM (settles_validateBinder h) binders
  | map packs pattern =>
    refine Steady.bind .check fun _ => ?_
    exact (Steady.forM (fun pack => settles_expectKind h pack .schema) packs).bind fun _ =>
      settles_expectKind h pattern .type
  | restricted target restriction =>
    exact (settles_expectKind h _ _).bind fun _ => settles_expectKind? h _ _
  | fields target access => exact settles_expectKind h _ _
  | _ => exact .pure _

/-! ### Instances of a pattern -/

section Children

variable {f f' : TypeId → ℕ → Interner TypeId}

theorem settles_mapOption (h : ∀ ty groups, Steady I (f ty groups) (f' ty groups)) (groups : ℕ)
    (ty : Option TypeId) : Steady I (Node.mapOption f groups ty) (Node.mapOption f' groups ty) := by
  cases ty with
  | none => exact .pure _
  | some ty => exact (h ty groups).map

theorem settles_mapMember (h : ∀ ty groups, Steady I (f ty groups) (f' ty groups))
    (member : UnionMember TypeId) :
    Steady I (Node.mapMember f member) (Node.mapMember f' member) := by
  cases member with
  | indexItem => exact (h _ _).bind fun _ => (h _ _).bind fun _ => .pure _
  | assignItem => exact (h _ _).bind fun _ => (h _ _).bind fun _ => .pure _
  | insertItem => exact (h _ _).bind fun _ => (h _ _).bind fun _ => .pure _
  | _ => exact (h _ _).map

theorem settles_mapSchemaItem (h : ∀ ty groups, Steady I (f ty groups) (f' ty groups))
    (item : SchemaItem TypeId) : Steady I (Node.mapItem f item) (Node.mapItem f' item) := by
  unfold Node.mapItem
  cases item.element with
  | keyed key value => exact (h _ _).bind fun _ => (h _ _).bind fun _ => .pure _
  | _ => exact (h _ _).bind fun _ => .pure _

theorem settles_mapBinder (h : ∀ ty groups, Steady I (f ty groups) (f' ty groups)) (groups : ℕ)
    (binder : Binder TypeId) :
    Steady I (Node.mapBinder f groups binder) (Node.mapBinder f' groups binder) :=
  (settles_mapOption h groups _).bind fun _ => (settles_mapOption h groups _).bind fun _ => .pure _

theorem settles_mapChildren (h : ∀ ty groups, Steady I (f ty groups) (f' ty groups)) (node : Ty) :
    Steady I (node.mapChildren f) (node.mapChildren f') := by
  cases node with
  | apply base args kind =>
    exact (h _ _).bind fun _ => (Steady.mapM (fun _ => (h _ _).map) args).bind fun _ => .pure _
  | union members => exact (Steady.mapM (settles_mapMember h) members).bind fun _ => .pure _
  | function func =>
    refine (h _ _).bind fun _ => (h _ _).bind fun _ => ?_
    exact (settles_mapOption h _ _).bind fun _ => (settles_mapOption h _ _).bind fun _ => .pure _
  | schema items => exact (Steady.mapM (settles_mapSchemaItem h) items).bind fun _ => .pure _
  | quantified binders body =>
    refine (Steady.mapM (settles_mapBinder h _) binders).bind fun _ => ?_
    exact (h _ _).bind fun _ => .pure _
  | map packs pattern =>
    exact (Steady.mapM (fun _ => h _ _) packs).bind fun _ => (h _ _).bind fun _ => .pure _
  | restricted target restriction =>
    refine (h _ _).bind fun _ => ?_
    cases restriction with
    | deletable key => exact (h _ _).bind fun _ => .pure _
    | clearable => exact .pure _
  | fields target access => exact (h _ _).bind fun _ => .pure _
  | overloaded overloads implementation func =>
    refine (Steady.mapM (fun _ => h _ _) overloads).bind fun _ => ?_
    exact (settles_mapOption h _ _).bind fun _ => .pure _
  | _ => exact .pure _

end Children

section

variable {i i' : Ty → Interner TypeId}

theorem settles_shiftInner (hi : ∀ ty, Steady I (i ty) (i' ty)) (h : n ≤ n') (id : TypeId)
    (cutoff : ℕ) (amount : ℤ) :
    Steady I (shiftInner i n id cutoff amount) (shiftInner i' n' id cutoff amount) := by
  induction n generalizing n' id cutoff with
  | zero => exact .fail
  | succ n ih =>
    obtain ⟨k, rfl⟩ : ∃ k, n' = k + 1 := ⟨n' - 1, by omega⟩
    have hnode : ∀ node : Ty, Steady I
        (do i (← node.mapChildren fun child groups => do
          guard (cutoff + groups < 2 ^ 32)
          shiftInner i n child (cutoff + groups) amount))
        (do i' (← node.mapChildren fun child groups => do
          guard (cutoff + groups < 2 ^ 32)
          shiftInner i' k child (cutoff + groups) amount)) := by
      intro node
      refine (settles_mapChildren (fun child groups => ?_) node).bind hi
      exact Steady.bind .check fun _ => ih (by omega) child (cutoff + groups)
    refine (settles_ty id).bind fun node => ?_
    cases node with
    | bound reference kind =>
      dsimp only
      split_ifs
      · exact hi _
      · exact Steady.bind .check fun _ => hi _
    | _ => exact hnode _

theorem settles_substituteInner (hi : ∀ ty, Steady I (i ty) (i' ty)) (args : List TypeId)
    (isOpen : Bool) (h : n ≤ n') (id : TypeId) (cutoff : ℕ) :
    Steady I (substituteInner i args isOpen n id cutoff)
      (substituteInner i' args isOpen n' id cutoff) := by
  induction n generalizing n' id cutoff with
  | zero => exact .fail
  | succ n ih =>
    obtain ⟨k, rfl⟩ : ∃ k, n' = k + 1 := ⟨n' - 1, by omega⟩
    have hnode : ∀ node : Ty, Steady I
        (do i (← node.mapChildren fun child groups => do
          guard (cutoff + groups < 2 ^ 32)
          substituteInner i args isOpen n child (cutoff + groups)))
        (do i' (← node.mapChildren fun child groups => do
          guard (cutoff + groups < 2 ^ 32)
          substituteInner i' args isOpen k child (cutoff + groups))) := by
      intro node
      refine (settles_mapChildren (fun child groups => ?_) node).bind hi
      exact Steady.bind .check fun _ => ih (by omega) child (cutoff + groups)
    refine (settles_ty id).bind fun node => ?_
    cases node with
    | bound reference kind =>
      dsimp only
      split_ifs
      · exact .pure _
      · exact Steady.bind .check fun _ => hi _
      · cases args[reference.slot]? with
        | none => exact .fail
        | some arg =>
          refine (settles_expectKind (by omega) arg kind).bind fun _ => ?_
          exact Steady.bind .check fun _ => settles_shiftInner hi (by omega) _ _ _
    | _ => exact hnode _

theorem settles_instantiate (hi : ∀ ty, Steady I (i ty) (i' ty)) (h : n ≤ n') (root : TypeId)
    (items : List TypeId) : Steady I (instantiate i n root items) (instantiate i' n' root items) :=
  settles_substituteInner hi items true h root 0

end

/-! ### A schema's keyed view -/

theorem settles_promoteInto (h : n ≤ n') (schema : TypeId) (outer : Multiplicity) (view : View) :
    Steady I (promoteInto n schema outer view) (promoteInto n' schema outer view) := by
  induction n generalizing n' schema outer view with
  | zero => exact .fail
  | succ n ih =>
    obtain ⟨k, rfl⟩ : ∃ k, n' = k + 1 := ⟨n' - 1, by omega⟩
    refine (settles_ty schema).bind fun node => ?_
    cases node with
    | schema items =>
      refine (Steady.foldlM (fun view item => ?_) items view).map
      cases item.element with
      | positional value => exact .pure _
      | keyed key value => exact .pure _
      | included inner =>
        refine (ih (by omega) inner _ view).bind fun found => ?_
        cases found with
        | some view => exact .pure _
        | none => exact (settles_ty inner).bind fun _ => .pure _
    | _ => exact .pure _

theorem settles_collides (h : n ≤ n') (key : TypeId) (positions : ℕ) (varying : Bool) :
    Steady I (collides n key positions varying) (collides n' key positions varying) := by
  induction n generalizing n' key with
  | zero => exact .fail
  | succ n ih =>
    obtain ⟨k, rfl⟩ : ∃ k, n' = k + 1 := ⟨n' - 1, by omega⟩
    have hother : ∀ b : Bool, Steady I (do return b && some key == (← intrinsic .int))
        (do return b && some key == (← intrinsic .int)) :=
      fun b => (settles_intrinsic .int).bind fun _ => .pure _
    refine (settles_ty key).bind fun node => ?_
    cases node with
    | literal l =>
      cases l with
      | int => exact .pure _
      | _ => exact hother _
    | fresh l =>
      cases l with
      | int => exact .pure _
      | _ => exact hother _
    | union members =>
      refine Steady.anyM (fun member => ?_) members
      cases member with
      | type ty => exact ih (by omega) ty
      | _ => exact .pure _
    | _ => exact hother _

theorem settles_promoted (h : n ≤ n') (schema : TypeId) :
    Steady I (promoted n schema) (promoted n' schema) := by
  refine (settles_promoteInto h schema _ _).bind fun found => ?_
  cases found with
  | none => exact .pure _
  | some view =>
    refine (Steady.anyM (fun item => settles_collides h _ _ _) _).bind fun conflict => ?_
    cases conflict with
    | true => exact .pure _
    | false =>
      refine Steady.bind (m := if view.pending = true then _ else _) ?_ fun pending => ?_
      · split_ifs
        · exact .pure _
        · exact .anyM (fun item => settles_collides h _ _ _) _
        · exact .pure _
      · cases pending with
        | true => exact .pure _
        | false => exact .pure _

/-! ### Projections -/

section

variable {i i' : Ty → Interner TypeId}

theorem settles_entry (hi : ∀ ty, Steady I (i ty) (i' ty)) (key value : TypeId) :
    Steady I (entry i key value) (entry i' key value) := by
  refine (settles_intrinsic .tuple).bind fun found => ?_
  cases found with
  | none => exact .pure _
  | some tuple => exact (hi _).bind fun _ => (hi _).map

theorem settles_projectKeys (member : UnionMember TypeId) (view : Promoted) :
    Steady I (projectKeys member view) (projectKeys member view) := by
  unfold projectKeys
  dsimp only
  split_ifs
  · refine (settles_intrinsic .int).bind fun found => ?_
    cases found with
    | none => exact .pure _
    | some int => exact .pure _
  · exact .pure _

theorem settles_projectPairs (hi : ∀ ty, Steady I (i ty) (i' ty)) (view : Promoted) :
    Steady I (projectPairs i view) (projectPairs i' view) := by
  refine (Steady.mapM (fun position => (hi _).bind fun _ => .pure _) _).bind fun fixed => ?_
  dsimp only
  split_ifs
  · exact .pure _
  · refine (settles_intrinsic .int).bind fun found => ?_
    cases found with
    | none => exact .pure _
    | some int => exact .pure _

theorem settles_projectEntries (hi : ∀ ty, Steady I (i ty) (i' ty)) (member : UnionMember TypeId)
    (view : Promoted) :
    Steady I (projectEntries i member view) (projectEntries i' member view) := by
  refine (settles_projectPairs hi view).bind fun pairs => ?_
  cases pairs with
  | none => exact .pure _
  | some pairs =>
    refine (Steady.mapM (fun pair => settles_entry hi pair.1 pair.2) pairs).bind fun entries => ?_
    cases entries.mapM fun entry => entry with
    | none => exact .pure _
    | some entries => exact .pure _

/-- A projection of what a schema is promoted to. -/
theorem settles_view (h : n ≤ n') (schema : TypeId) {f f' : Promoted → Interner Projected}
    (hf : ∀ view, Steady I (f view) (f' view)) :
    Steady I (do match ← promoted n schema with
        | .promoted view => f view
        | .pending => return .pending
        | .conflict => return .conflict)
      (do match ← promoted n' schema with
        | .promoted view => f' view
        | .pending => return .pending
        | .conflict => return .conflict) := by
  refine (settles_promoted h schema).bind fun found => ?_
  cases found with
  | promoted view => exact hf view
  | pending => exact .pure _
  | conflict => exact .pure _

theorem settles_project (hi : ∀ ty, Steady I (i ty) (i' ty)) (h : n ≤ n')
    (member : UnionMember TypeId) : Steady I (project i n member) (project i' n' member) := by
  have hunknown : Steady I (do return Projected.reduced [.type (← fixed).unknown])
      (do return Projected.reduced [.type (← fixed).unknown]) :=
    settles_fixed.bind fun _ => .pure _
  cases member with
  | type => exact .pure _
  | expand schema =>
    refine (settles_ty schema).bind fun node => ?_
    cases node with
    | schema items =>
      dsimp only
      cases items.mapM (expandItem (.expand schema)) with
      | none => exact .pure _
      | some members => exact .pure _
    | _ => exact .pure _
  | keys schema =>
    refine (settles_ty _).bind fun node => ?_
    cases node with
    | unknown => exact hunknown
    | schema items => exact settles_view h schema fun view => settles_projectKeys _ view
    | _ => exact .pure _
  | entries schema =>
    refine (settles_ty _).bind fun node => ?_
    cases node with
    | unknown => exact hunknown
    | schema items => exact settles_view h schema fun view => settles_projectEntries hi _ view
    | _ => exact .pure _
  | _ =>
    refine (settles_ty _).bind fun node => ?_
    cases node with
    | unknown => exact hunknown
    | _ => exact .pure _

/-! ### Mappings -/

theorem settles_splice (h : n ≤ n') (schema : TypeId) (outer : Multiplicity) :
    Steady I (splice n schema outer) (splice n' schema outer) := by
  induction n generalizing n' schema outer with
  | zero => exact .fail
  | succ n ih =>
    obtain ⟨k, rfl⟩ : ∃ k, n' = k + 1 := ⟨n' - 1, by omega⟩
    refine (settles_ty schema).bind fun node => ?_
    cases node with
    | schema items =>
      refine (Steady.foldlM (fun spliced item => ?_) items _).map
      obtain ⟨multiplicity, element⟩ := item
      cases element with
      | included inner =>
        refine (ih (by omega) inner _).bind fun found => ?_
        cases found with
        | some inner => exact .pure _
        | none => exact .pure _
      | _ => exact .pure _
    | _ => exact .pure _

theorem settles_mapItem (hi : ∀ ty, Steady I (i ty) (i' ty)) (h : n ≤ n') (pattern : TypeId)
    (item : SchemaItem TypeId) :
    Steady I (mapItem i n pattern item) (mapItem i' n' pattern item) := by
  unfold mapItem
  cases item.element with
  | included inner => exact (hi _).bind fun _ => .pure _
  | _ => exact (settles_instantiate hi h _ _).bind fun _ => .pure _

theorem settles_mapItems (hi : ∀ ty, Steady I (i ty) (i' ty)) (h : n ≤ n') (pattern : TypeId)
    (spliced : List (List (SchemaItem TypeId))) (items : List (SchemaItem TypeId × ℕ)) :
    Steady I (mapItems i n pattern spliced items) (mapItems i' n' pattern spliced items) := by
  induction items with
  | nil => exact .pure _
  | cons item rest ih =>
    obtain ⟨lead, index⟩ := item
    unfold mapItems
    cases spliced.mapM fun items => items[index]? >>= correspond lead with
    | none => exact .pure _
    | some types =>
      refine (settles_instantiate hi h _ _).bind fun ty => ih.bind fun found => ?_
      cases found with
      | none => exact .pure _
      | some items => exact .pure _

theorem replays_reduceMap (hi : ∀ ty, Steady I (i ty) (i' ty)) (h : n ≤ n') (packs : List TypeId)
    (pattern : TypeId) :
    Replays I (fun _ => True) (reduceMap i n packs pattern) (reduceMap i' n' packs pattern)
      fun reduced _ => ∀ node, reduced = some node →
        (∃ kind, node = .unknown kind) ∨ ∃ items, node = .schema items := by
  have hnone : ∀ {P : Database → Prop}, Replays I P (pure none) (pure none)
      fun (reduced : Option Ty) _ => ∀ node, reduced = some node →
        (∃ kind, node = .unknown kind) ∨ ∃ items, node = .schema items :=
    Replays.pure fun _ _ _ _ => nofun
  have hdynamic : Steady I (dynamicPack packs) (dynamicPack packs) := by
    unfold dynamicPack
    split
    · exact (settles_ty _).map
    · exact .pure _
  refine Replays.bind hdynamic fun dynamic => ?_
  cases dynamic with
  | true =>
    refine Replays.pure fun db _ _ node he => .inl ?_
    obtain rfl := Option.some.inj he
    exact ⟨_, rfl⟩
  | false =>
    refine Replays.bind (Steady.mapM (fun pack => settles_splice h pack .required) packs)
      fun spliced => ?_
    cases spliced.mapM fun items => items with
    | none => exact hnone
    | some spliced =>
      match spliced with
      | [] => exact hnone
      | [items] =>
        refine Replays.bind (Steady.mapM (settles_mapItem hi h pattern) items) fun items => ?_
        refine Replays.pure fun db _ _ node he => .inr ?_
        obtain rfl := Option.some.inj he
        exact ⟨_, rfl⟩
      | first :: second :: rest =>
        dsimp only
        split_ifs
        · exact hnone
        · refine Replays.bind (settles_mapItems hi h _ _ _) fun items => ?_
          refine Replays.pure fun db _ _ node he => .inr ?_
          obtain ⟨items, -, rfl⟩ := Option.map_eq_some_iff.mp he
          exact ⟨_, rfl⟩

end

/-! ### Intrinsic applications -/

theorem settles_restriction (base : TypeId) (args : List (Argument TypeId)) :
    Steady I (restriction base args) (restriction base args) := by
  refine (settles_intrinsic .deletable).bind fun deletable => ?_
  split_ifs
  · split <;> exact .pure _
  · refine (settles_intrinsic .clearable).bind fun clearable => ?_
    split_ifs
    · split <;> exact .pure _
    · exact .pure _

theorem settles_findIntrinsic {α : Type} (base : TypeId) (l : List (Intrinsic × α)) :
    Steady I (findIntrinsic base l) (findIntrinsic base l) := by
  induction l with
  | nil => exact .pure _
  | cons entry l ih =>
    refine (settles_intrinsic entry.1).bind fun found => ?_
    split_ifs
    · exact .pure _
    · exact ih

theorem settles_fields (base : TypeId) (args : List (Argument TypeId)) :
    Steady I (fields base args) (fields base args) := by
  refine (settles_findIntrinsic base _).bind fun access => ?_
  split <;> exact .pure _

theorem settles_projection (base : TypeId) (args : List (Argument TypeId)) :
    Steady I (projection base args) (projection base args) := by
  refine (settles_findIntrinsic base _).bind fun found => ?_
  cases found with
  | some member => dsimp only; split <;> exact .pure _
  | none =>
    refine (settles_findIntrinsic base _).bind fun found => ?_
    cases found with
    | some member => exact .pure _
    | none => exact .pure _

end Interner

end Dolang.Types
