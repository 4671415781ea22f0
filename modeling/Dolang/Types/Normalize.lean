import Dolang.Types.Database
import Mathlib.Algebra.Group.Nat.Defs
import Mathlib.Data.Option.Basic
import Mathlib.Data.Prod.Lex
import Mathlib.Data.List.ReduceOption
import Mathlib.Order.Nat

/-!
# Interning

`intern` brings a node to its canonical outer form and looks it up, adding it if the database lacks
it. The children are canonical already, so only the node itself changes: a quantifier without binders
is its body, an application of an intrinsic the structure that it stands for, a union is flattened,
with its members sorted and its projections evaluated as far as their schemas are known, and a mapping
over packs that are known is the schema that it makes.

Bringing a node to that form interns further nodes: the entries of a schema, the regular twin of a
fresh literal, the instances of a mapping's pattern. The functions take the interning of those as an
argument `intern`, and `intern` hands itself to them. An id that was never issued, a kind that does
not match and the other misuses that panic end a computation, and so does the end of the fuel that
the recursions run on. The memo tables of `shift` and `substitute` only save work and are left out,
and so is the list of the kinds that are not known before their declaration is populated, which
sealing goes through.
-/

namespace Dolang.Types

open Growing

/-- A computation that interns. -/
abbrev Interner := Comp Database

namespace Interner

def ty (id : TypeId) : Interner Ty :=
  read fun db => db.ty id

def intrinsic (intrinsic : Intrinsic) : Interner (Option TypeId) :=
  read fun db => some (db.intrinsic intrinsic)

def fixed : Interner Fixed :=
  read fun db => some db.fixed

/-- A declaration, or `none` while it is not populated. -/
def tryDeclaration (id : DeclId) : Interner (Option Declaration) :=
  read fun db => db.tryDeclaration id

/-! ### Validation -/

def knownKind : ℕ → TypeId → Interner (Option Kind)
  | 0, _ => failure
  | fuel + 1, id => do
      match ← ty id with
      | .schema _ | .map _ _ | .restricted _ _ | .fields _ _ => return some .schema
      | .bound _ kind | .rigid _ _ kind | .apply _ _ kind => return some kind
      | .decl id => return (← tryDeclaration id).map Declaration.resultKind
      | .quantified _ body => knownKind fuel body
      | .unknown kind | .unsupported kind _ => return some kind
      | _ => return some .type

def expectKind (fuel : ℕ) (id : TypeId) (expected : Kind) : Interner Unit := do
  match ← knownKind fuel id with
  | some actual => guard (actual = expected)
  | none => return

/-- Checks an optional child. -/
def expectKind? (fuel : ℕ) (id : Option TypeId) (expected : Kind) : Interner Unit :=
  match id with
  | some id => expectKind fuel id expected
  | none => return

def validateMember (fuel : ℕ) (member : UnionMember TypeId) : Interner Unit :=
  match member with
  | .type id => expectKind fuel id .type
  | _ => do
      expectKind fuel member.id .schema
      expectKind? fuel member.key .type

def validateItem (fuel : ℕ) (item : SchemaItem TypeId) : Interner Unit :=
  match item.element with
  | .positional id => expectKind fuel id .type
  | .included id => expectKind fuel id .schema
  | .keyed key value => do
      expectKind fuel key .type
      expectKind fuel value .type

def validateBinder (fuel : ℕ) (binder : Binder TypeId) : Interner Unit := do
  match binder.binding with
  | .rest _ => guard (binder.kind = .schema)
  | _ => pure ()
  expectKind? fuel binder.bound binder.kind
  expectKind? fuel binder.default binder.kind

def validateArgument (fuel : ℕ) : Argument TypeId → Interner Unit
  | .expand id => expectKind fuel id .schema
  | .positional id | .keyword _ id => discard (ty id)

def validate (fuel : ℕ) : Ty → Interner Unit
  | .top | .unknown _ | .unsupported _ _ | .literal _ | .fresh _ | .bound _ _ => return
  | .decl id | .metatype id | .rigid id _ _ => discard (tryDeclaration id)
  | .apply base args _ => do
      discard (ty base)
      args.forM (validateArgument fuel)
  | .union members => members.forM (validateMember fuel)
  | .overloaded overloads implementation function => do
      guard (overloads ≠ [])
      match function with
      | some function => discard (tryDeclaration function)
      | none => pure ()
      (overloads ++ implementation.toList).forM fun id => expectKind fuel id .type
  | .function func => do
      expectKind fuel func.params .schema
      expectKind fuel func.result .type
      expectKind? fuel func.input .type
      expectKind? fuel func.output .type
  | .schema items => items.forM (validateItem fuel)
  | .quantified binders body => do
      guard (binders.length ≤ 2 ^ 16)
      discard (ty body)
      binders.forM (validateBinder fuel)
  | .map packs pattern => do
      guard (packs ≠ [] ∧ packs.length ≤ 2 ^ 16)
      packs.forM fun pack => expectKind fuel pack .schema
      expectKind fuel pattern .type
  | .restricted target restriction => do
      expectKind fuel target .schema
      expectKind? fuel restriction.key .type
  | .fields target _ => expectKind fuel target .type

section

variable (intern : Ty → Interner TypeId)

/-! ### Instances of a pattern -/

/-- `shift`, where the caller relies on no reference being to a group that it removes. -/
def shiftInner : ℕ → TypeId → ℕ → ℤ → Interner TypeId
  | 0, _, _, _ => failure
  | fuel + 1, id, cutoff, amount => do
      match ← ty id with
      | .bound reference kind =>
          if reference.depth < cutoff then intern (.bound reference kind)
          else do
            let shifted := (reference.depth : ℤ) + amount
            guard (cutoff ≤ shifted ∧ shifted < 2 ^ 16)
            intern (.bound { reference with depth := shifted.toNat } kind)
      | node => do
          let mapped ← node.mapChildren fun child groups => do
            guard (cutoff + groups < 2 ^ 32)
            shiftInner fuel child (cutoff + groups) amount
          intern mapped

/-- Replaces the references to the group at `cutoff` with `args`. References beyond it are an error,
unless `open` makes them one group nearer. -/
def substituteInner (args : List TypeId) (isOpen : Bool) : ℕ → TypeId → ℕ → Interner TypeId
  | 0, _, _ => failure
  | fuel + 1, id, cutoff => do
      match ← ty id with
      | .bound reference kind =>
          if reference.depth < cutoff then return id
          else if cutoff < reference.depth then do
            guard (isOpen = true)
            intern (.bound { reference with depth := reference.depth - 1 } kind)
          else
            match args[reference.slot]? with
            | some arg => do
                expectKind fuel arg kind
                guard (cutoff < 2 ^ 16)
                shiftInner intern fuel arg 0 cutoff
            | none => failure
      | node => do
          let mapped ← node.mapChildren fun child groups => do
            guard (cutoff + groups < 2 ^ 32)
            substituteInner args isOpen fuel child (cutoff + groups)
          intern mapped

/-- A pattern with the references to its own group replaced with `items`. -/
def instantiate (fuel : ℕ) (root : TypeId) (items : List TypeId) : Interner TypeId :=
  substituteInner intern items true fuel root 0

end

/-! ### A schema's keyed view -/

/-- A schema's items as a collection indexes them, each position keyed by its index. -/
structure Promoted where
  /-- The value of each position whose index is fixed, in order. -/
  fixed : List TypeId := []
  /-- The values of the positions after them, whose indexes vary. -/
  varying : List TypeId := []
  keyed : List (Multiplicity × TypeId × TypeId) := []
  /-- The included schemas not yet known. -/
  unknowns : List TypeId := []
  deriving DecidableEq, Repr

def Promoted.positions (promoted : Promoted) : Bool :=
  !promoted.fixed.isEmpty || !promoted.varying.isEmpty

/-- A keyed view while it is put together. -/
structure View where
  promoted : Promoted := {}
  varies : Bool := false
  pending : Bool := false
  deriving DecidableEq, Repr

inductive Promotion where
  | promoted (promoted : Promoted)
  | pending
  | conflict
  deriving DecidableEq, Repr

def View.position (view : View) (multiplicity : Multiplicity) (value : TypeId) : View :=
  if view.varies || multiplicity ≠ .required then
    { view with
      varies := true
      promoted := { view.promoted with varying := view.promoted.varying ++ [value] } }
  else
    { view with promoted := { view.promoted with fixed := view.promoted.fixed ++ [value] } }

def View.keyed (view : View) (item : Multiplicity × TypeId × TypeId) : View :=
  { view with promoted := { view.promoted with keyed := view.promoted.keyed ++ [item] } }

/-- An included schema that is not known, or is the dynamic schema. -/
def View.unknown (view : View) (inner : TypeId) (isUnknown : Bool) : View :=
  { pending := view.pending || !isUnknown
    varies := true
    promoted := { view.promoted with unknowns := view.promoted.unknowns ++ [inner] } }

/-- Adds a schema's items to a keyed view, or is `none` if it is not a schema. -/
def promoteInto : ℕ → TypeId → Multiplicity → View → Interner (Option View)
  | 0, _, _, _ => failure
  | fuel + 1, schema, outer, view => do
      match ← ty schema with
      | .schema items =>
          some <$> items.foldlM (fun view item =>
            match item.element with
            | .positional value =>
                return view.position (outer.compose item.multiplicity) value
            | .keyed key value =>
                return view.keyed (outer.compose item.multiplicity, key, value)
            | .included inner => do
                match ← promoteInto fuel inner (outer.compose item.multiplicity) view with
                | some view => return view
                | none => return view.unknown inner (← ty inner).isUnknown) view
      | _ => return none

/-- Whether a key may be the index of a position. -/
def collides : ℕ → TypeId → ℕ → Bool → Interner Bool
  | 0, _, _, _ => failure
  | fuel + 1, key, positions, varying => do
      match ← ty key with
      | .literal (.int i) | .fresh (.int i) =>
          return decide (0 ≤ i) && (varying || decide (i < positions))
      | .union members => members.anyM fun member =>
          match member with
          | .type ty => collides fuel ty positions varying
          | _ => return false
      | _ => return (decide (0 < positions) || varying) && some key == (← intrinsic .int)

def promoted (fuel : ℕ) (schema : TypeId) : Interner Promotion := do
  match ← promoteInto fuel schema .required {} with
  | none => return .pending
  | some view => do
      let view' := view.promoted
      if ← view'.keyed.anyM fun item =>
          collides fuel item.2.1 view'.fixed.length (!view'.varying.isEmpty) then
        return .conflict
      else if ← (if view.pending then
          if view'.positions then pure true
          else view'.keyed.anyM fun item => collides fuel item.2.1 0 true
        else pure false) then
        return .pending
      else
        return .promoted view'

/-! ### Projections -/

inductive Projected where
  | reduced (members : List (UnionMember TypeId))
  | pending
  | conflict
  deriving DecidableEq, Repr

/-- What an item contributes to an expansion, if the expansion takes it. -/
def expandItem (member : UnionMember TypeId) (item : SchemaItem TypeId) :
    Option (UnionMember TypeId) :=
  match item.element with
  | .positional ty => some (.type ty)
  | .included inner => some (member.withId inner)
  | .keyed _ _ => none

def valuesItem (member : UnionMember TypeId) (item : SchemaItem TypeId) : UnionMember TypeId :=
  match item.element with
  | .included inner => member.withId inner
  | .positional ty | .keyed _ ty => .type ty

section

variable (intern : Ty → Interner TypeId)

/-- `Tuple[key, value]`, if `Tuple` is designated. -/
def entry (key value : TypeId) : Interner (Option TypeId) := do
  match ← intrinsic .tuple with
  | none => return none
  | some tuple => do
      let item (ty : TypeId) : SchemaItem TypeId :=
        { multiplicity := .required, element := .positional ty }
      let items ← intern (.schema [item key, item value])
      some <$> intern (.apply tuple [.positional items] .type)

/-- The keys of a keyed view: an `Int` selects every position. -/
def projectKeys (member : UnionMember TypeId) (view : Promoted) : Interner Projected := do
  let keys := view.keyed.map fun item => UnionMember.type item.2.1
  let rest := view.unknowns.map member.withId
  if view.positions then
    match ← intrinsic .int with
    | none => return .pending
    | some int => return .reduced (.type int :: keys ++ rest)
  else return .reduced (keys ++ rest)

/-- The pairs of key and value of a keyed view, or `none` if a position's key is not known. -/
def projectPairs (view : Promoted) : Interner (Option (List (TypeId × TypeId))) := do
  let fixed ← view.fixed.zipIdx.mapM fun position => do
    return (← intern (.literal (.int position.2)), position.1)
  let keyed := view.keyed.map fun item => item.2
  if view.varying.isEmpty then return some (fixed ++ keyed)
  else
    match ← intrinsic .int with
    | none => return none
    | some int => return some (fixed ++ view.varying.map (fun value => (int, value)) ++ keyed)

def projectEntries (member : UnionMember TypeId) (view : Promoted) : Interner Projected := do
  match ← projectPairs intern view with
  | none => return .pending
  | some pairs => do
      let entries ← pairs.mapM fun pair => entry intern pair.1 pair.2
      match entries.mapM fun entry => entry with
      | none => return .pending
      | some entries =>
          return .reduced (entries.map UnionMember.type ++ view.unknowns.map member.withId)

/-- What a projection member of a union stands for, as far as its schema is known. -/
def project (fuel : ℕ) (member : UnionMember TypeId) : Interner Projected :=
  match member with
  | .type _ => return .pending
  | .expand schema => do
      match ← ty schema with
      | .schema items =>
          match items.mapM (expandItem member) with
          | some members => return .reduced members
          | none => return .pending
      | _ => return .pending
  | _ => do
      match ← ty member.id with
      | .unknown _ => return .reduced [.type (← fixed).unknown]
      | .schema items =>
          match member with
          | .values _ => return .reduced (items.map (valuesItem member))
          | .keys schema => do
              match ← promoted fuel schema with
              | .promoted view => projectKeys member view
              | .pending => return .pending
              | .conflict => return .conflict
          | .entries schema => do
              match ← promoted fuel schema with
              | .promoted view => projectEntries intern member view
              | .pending => return .pending
              | .conflict => return .conflict
          -- Selecting by a key takes the solver.
          | _ => return .pending
      | _ => return .pending

/-! ### Unions -/

/-- The order of union members: by their variant, then by their ids. -/
def rank : UnionMember TypeId → ℕ ×ₗ ℕ ×ₗ ℕ
  | .type id => toLex (0, toLex (id, 0))
  | .expand id => toLex (1, toLex (id, 0))
  | .keys id => toLex (2, toLex (id, 0))
  | .values id => toLex (3, toLex (id, 0))
  | .entries id => toLex (4, toLex (id, 0))
  | .indexItem id key => toLex (5, toLex (id, key))
  | .assignItem id key => toLex (6, toLex (id, key))
  | .insertItem id key => toLex (7, toLex (id, key))

/-- Members in order, each once. -/
def sorted (members : List (UnionMember TypeId)) : List (UnionMember TypeId) :=
  (members.mergeSort fun a b => decide (rank a ≤ rank b)).dedup

/-- The schema `S` of `{...S}`. -/
def onlyIncluded : Ty → Option TypeId
  | .schema [{ multiplicity := .required, element := .included inner }] => some inner
  | _ => none

/-- Works through the pending members, with those of nested unions and of projections in their
place, or is `none` once one is `top`. -/
def flatten : ℕ → List (UnionMember TypeId) → List (UnionMember TypeId) →
    Interner (Option (List (UnionMember TypeId)))
  | 0, _, _ => failure
  | _ + 1, [], normalized => return some normalized
  | fuel + 1, .type id :: pending, normalized => do
      match ← ty id with
      | .top => return none
      | .union nested => flatten fuel pending (normalized ++ nested)
      | _ => flatten fuel pending (normalized ++ [.type id])
  | fuel + 1, member :: pending, normalized => do
      match onlyIncluded (← ty member.id) with
      | some inner => flatten fuel (member.withId inner :: pending) normalized
      | none => do
          match ← project intern fuel member with
          | .reduced members => flatten fuel (members ++ pending) normalized
          | .pending | .conflict => flatten fuel pending (normalized ++ [member])

/-- A fresh literal's regular twin, or any other type itself. -/
def regular (id : TypeId) : Interner TypeId := do
  match ← ty id with
  | .fresh literal => intern (.literal literal)
  | _ => return id

/-- The type of a member that is a regular literal. -/
def regularMember (member : UnionMember TypeId) : Interner (Option TypeId) :=
  match member with
  | .type id => do
      match ← ty id with
      | .literal _ => return some id
      | _ => return none
  | _ => return none

/-- A member, unless it is the fresh twin of one of the regular literals. -/
def retained (literals : List TypeId) (member : UnionMember TypeId) :
    Interner (Option (UnionMember TypeId)) :=
  match member with
  | .type id => do
      match ← ty id with
      | .fresh _ => do
          if (← regular intern id) ∈ literals then return none else return some member
      | _ => return some member
  | _ => return some member

/-- The members without the fresh twins of the regular literals. -/
def retain (literals : List TypeId) (members : List (UnionMember TypeId)) :
    Interner (List (UnionMember TypeId)) :=
  if literals.isEmpty then return members
  else List.reduceOption <$> members.mapM (retained intern literals)

/-- A union with a single member is it. -/
def unionOf (members : List (UnionMember TypeId)) : Interner Ty :=
  match members with
  | [.type id] => ty id
  | _ => return .union members

def normalizeUnion (fuel : ℕ) (members : List (UnionMember TypeId)) : Interner Ty := do
  match ← flatten intern fuel members [] with
  | none => return .top
  | some normalized => do
      let literals ← (sorted normalized).mapM regularMember
      unionOf (← retain intern literals.reduceOption (sorted normalized))

/-! ### Mappings -/

/-- A schema's items within an item of multiplicity `outer`, those of the schemas that it includes in
their place, or `none` if it is not a schema. -/
def splice : ℕ → TypeId → Multiplicity → Interner (Option (List (SchemaItem TypeId)))
  | 0, _, _ => failure
  | fuel + 1, schema, outer => do
      match ← ty schema with
      | .schema items =>
          some <$> items.foldlM (fun spliced item => do
            let multiplicity := outer.compose item.multiplicity
            match item.element with
            | .included inner =>
                match ← splice fuel inner multiplicity with
                | some inner => return spliced ++ inner
                | none => return spliced ++ [{ item with multiplicity }]
            | _ => return spliced ++ [{ item with multiplicity }]) []
      | _ => return none

/-- The item of a mapping over a single pack. -/
def mapItem (fuel : ℕ) (pattern : TypeId) (item : SchemaItem TypeId) :
    Interner (SchemaItem TypeId) :=
  match item.element with
  | .positional ty =>
      return { item with element := .positional (← instantiate intern fuel pattern [ty]) }
  | .keyed key value =>
      return { item with element := .keyed key (← instantiate intern fuel pattern [value]) }
  | .included inner =>
      return { item with element := .included (← intern (.map [inner] pattern)) }

/-- The type of a pack's item that corresponds to the first pack's, if it does. -/
def correspond (lead item : SchemaItem TypeId) : Option TypeId :=
  if item.multiplicity ≠ lead.multiplicity then none
  else match lead.element, item.element with
    | .positional _, .positional ty => some ty
    | .keyed key _, .keyed key' value => if key = key' then some value else none
    | _, _ => none

/-- The items of a mapping over several packs, or `none` if two do not correspond. -/
def mapItems (fuel : ℕ) (pattern : TypeId) (spliced : List (List (SchemaItem TypeId))) :
    List (SchemaItem TypeId × ℕ) → Interner (Option (List (SchemaItem TypeId)))
  | [] => return some []
  | (lead, index) :: rest =>
      match spliced.mapM fun items => items[index]? >>= correspond lead with
      | none => return none
      | some types => do
          let ty ← instantiate intern fuel pattern types
          let element : Element TypeId := match lead.element with
            | .keyed key _ => .keyed key ty
            | _ => .positional ty
          match ← mapItems fuel pattern spliced rest with
          | none => return none
          | some items => return some ({ lead with element } :: items)

/-- Whether the packs are a single one, the dynamic schema. -/
def dynamicPack : List TypeId → Interner Bool
  | [pack] => Ty.isUnknown <$> ty pack
  | _ => return false

/-- The schema that a mapping stands for, if its packs are known well enough. -/
def reduceMap (fuel : ℕ) (packs : List TypeId) (pattern : TypeId) : Interner (Option Ty) := do
  if ← dynamicPack packs then return some (.unknown .schema)
  else
    match (← packs.mapM fun pack => splice fuel pack .required).mapM fun items => items with
    | none => return none
    | some [items] => do
        return some (.schema (← items.mapM (mapItem intern fuel pattern)))
    | some [] => return none
    | some (first :: rest) =>
        if rest.any fun items => items.length ≠ first.length then return none
        else return (← mapItems intern fuel pattern (first :: rest) first.zipIdx).map Node.schema

end

/-! ### Intrinsic applications -/

/-- The restricted schema that an application of `Deletable` or `Clearable` stands for. -/
def restriction (base : TypeId) (args : List (Argument TypeId)) :
    Interner (Option (TypeId × Restriction TypeId)) := do
  if (← intrinsic .deletable) = some base then
    match args with
    | [.positional schema, .positional key] => return some (schema, .deletable key)
    | _ => return none
  else if (← intrinsic .clearable) = some base then
    match args with
    | [.positional schema] => return some (schema, .clearable)
    | _ => return none
  else return none

/-- The first of some intrinsics that a type is, with what goes with it. -/
def findIntrinsic {α : Type} (base : TypeId) : List (Intrinsic × α) → Interner (Option α)
  | [] => return none
  | (i, a) :: rest => do
      if (← intrinsic i) = some base then return some a
      else findIntrinsic base rest

/-- The member schema that an application of `Fields` or `MutFields` stands for. -/
def fields (base : TypeId) (args : List (Argument TypeId)) :
    Interner (Option (TypeId × FieldAccess)) := do
  let access ← findIntrinsic base [(.fields, FieldAccess.read), (.mutFields, FieldAccess.write)]
  match access, args with
  | some access, [.positional target] => return some (target, access)
  | _, _ => return none

/-- The member that projects an argument, if the argument is a schema. -/
def projectArgument (member : TypeId → UnionMember TypeId) :
    Argument TypeId → Option (UnionMember TypeId)
  | .positional schema | .expand schema => some (member schema)
  | .keyword _ _ => none

/-- The union members that an application of a projecting intrinsic stands for. -/
def projection (base : TypeId) (args : List (Argument TypeId)) :
    Interner (Option (List (UnionMember TypeId))) := do
  match ← findIntrinsic base [(.indexItem, UnionMember.indexItem),
      (.assignItem, UnionMember.assignItem), (.insertItem, UnionMember.insertItem)] with
  | some member =>
      match args with
      | [.positional schema, .positional key] => return some [member schema key]
      | _ => return none
  | none => do
      match ← findIntrinsic base [(.union, UnionMember.expand), (.keys, UnionMember.keys),
          (.values, UnionMember.values), (.entries, UnionMember.entries)] with
      | some member => return args.mapM (projectArgument member)
      | none => return none

/-! ### Normal forms -/

/-- Removing items of the dynamic schema leaves it. -/
def normalizeRestricted (target : TypeId) (restriction : Restriction TypeId) : Interner Ty := do
  match ← ty target with
  | .unknown kind => return .unknown kind
  | _ => return .restricted target restriction

/-- The dynamic type's members are the dynamic schema. -/
def normalizeFields (target : TypeId) (access : FieldAccess) : Interner Ty := do
  match ← ty target with
  | .unknown _ => return .unknown .schema
  | _ => return .fields target access

section

variable (intern : Ty → Interner TypeId)

/-- A type's canonical outer form. Its children are assumed canonical already. -/
def normalize (fuel : ℕ) : Ty → Interner Ty
  | .quantified [] body => ty body
  | .map packs pattern => do
      match ← reduceMap intern fuel packs pattern with
      | some reduced => return reduced
      | none => return .map packs pattern
  | .apply base args kind => do
      match ← restriction base args with
      | some (target, restriction) => normalizeRestricted target restriction
      | none => do
          match ← fields base args with
          | some (target, access) => normalizeFields target access
          | none => do
              match ← projection base args with
              | some members => normalizeUnion intern fuel members
              | none => return .apply base args kind
  | .restricted target restriction => normalizeRestricted target restriction
  | .fields target access => normalizeFields target access
  | .union members => normalizeUnion intern fuel members
  | node => return node

end

end Interner

/-- The id of a type, which is brought to its canonical form. -/
def intern : ℕ → Ty → Interner TypeId
  | 0, _ => failure
  | fuel + 1, ty => do
      Interner.validate fuel ty
      Database.place (← Interner.normalize (intern fuel) fuel ty)

end Dolang.Types
