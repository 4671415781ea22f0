import Mathlib.Data.List.Forall2
import Mathlib.Data.Int.Notation
import Mathlib.Tactic.Common

/-!
# Type structures

A type is a node whose children are ids of other types. `Node ι` has ids `ι`, so that what only
looks at the shape of a node, or at its children, is said for any. Declarations are leaves: their ids
are kept, not what they expose.

`Node.children` and `Node.mapChildren` visit the children in the same order, each with the number of
binder groups that it is under.
-/

namespace Dolang.Types

abbrev TypeId := ℕ

abbrev SymbolId := ℕ

abbrev DeclId := ℕ

inductive Kind where
  | type
  | schema
  deriving DecidableEq, Repr

/-- A reference to a binder: it counts groups outward, then selects a slot. -/
structure BoundRef where
  depth : ℕ
  slot : ℕ
  deriving DecidableEq, Repr

/-- Exact values. -/
inductive Literal where
  | nil
  | bool (b : Bool)
  | int (i : ℤ)
  | str (s : String)
  | sym (name : SymbolId)
  deriving DecidableEq, Repr

inductive Variance where
  | invariant
  | covariant
  | contravariant
  deriving DecidableEq, Repr

inductive Rest where
  | all
  | positional
  | keyed
  deriving DecidableEq, Repr

inductive Binding where
  | positional
  | keyword (name : SymbolId)
  | rest (rest : Rest)
  | implicit
  deriving DecidableEq, Repr

structure Binder (ι : Type) where
  kind : Kind
  binding : Binding
  bound : Option ι
  default : Option ι
  variance : Variance
  deriving DecidableEq, Repr

inductive Argument (ι : Type) where
  | positional (ty : ι)
  | keyword (name : SymbolId) (ty : ι)
  | expand (ty : ι)
  deriving DecidableEq, Repr

inductive Multiplicity where
  | required
  | optional
  | repeated
  deriving DecidableEq, Repr

/-- An item of multiplicity `inner` within one of this multiplicity. -/
def Multiplicity.compose : Multiplicity → Multiplicity → Multiplicity
  | .required, inner => inner
  | .optional, .repeated => .repeated
  | .repeated, _ => .repeated
  | .optional, _ => .optional

inductive Element (ι : Type) where
  | positional (ty : ι)
  | keyed (key value : ι)
  /-- Another schema's items. -/
  | included (schema : ι)
  deriving DecidableEq, Repr

structure SchemaItem (ι : Type) where
  multiplicity : Multiplicity
  element : Element ι
  deriving DecidableEq, Repr

/-- A function type. -/
structure FunctionType (ι : Type) where
  params : ι
  result : ι
  input : Option ι
  output : Option ι
  deriving DecidableEq, Repr

inductive UnionMember (ι : Type) where
  | type (ty : ι)
  /-- A schema's positional items' types. -/
  | expand (schema : ι)
  | keys (schema : ι)
  | values (schema : ι)
  /-- A pair of key and value for each of a schema's items. -/
  | entries (schema : ι)
  | indexItem (schema key : ι)
  | assignItem (schema key : ι)
  | insertItem (schema key : ι)
  deriving DecidableEq, Repr

inductive Restriction (ι : Type) where
  | deletable (key : ι)
  | clearable
  deriving DecidableEq, Repr

inductive FieldAccess where
  | read
  | write
  deriving DecidableEq, Repr

/-- A type's structure, over the ids of its children. -/
inductive Node (ι : Type) where
  | top
  /-- The dynamic type or schema. -/
  | unknown (kind : Kind)
  | unsupported (kind : Kind) (occurrence : ℕ)
  | literal (literal : Literal)
  /-- A literal that a literal term gave. -/
  | fresh (literal : Literal)
  | decl (decl : DeclId)
  | metatype (decl : DeclId)
  | bound (reference : BoundRef) (kind : Kind)
  | rigid (decl : DeclId) (slot : ℕ) (kind : Kind)
  | apply (base : ι) (args : List (Argument ι)) (kind : Kind)
  | union (members : List (UnionMember ι))
  | function (func : FunctionType ι)
  | schema (items : List (SchemaItem ι))
  | quantified (binders : List (Binder ι)) (body : ι)
  /-- A schema of a pattern for each item of its packs. -/
  | map (packs : List ι) (pattern : ι)
  | restricted (schema : ι) (restriction : Restriction ι)
  | fields (target : ι) (access : FieldAccess)
  | overloaded (overloads : List ι) (implementation : Option ι) (function : Option DeclId)
  deriving DecidableEq, Repr

abbrev Ty := Node TypeId

variable {ι κ : Type}

namespace Argument

def ty : Argument ι → ι
  | positional ty | keyword _ ty | expand ty => ty

/-- The same argument, with another type. -/
def withTy : Argument ι → κ → Argument κ
  | positional _, ty => .positional ty
  | keyword name _, ty => .keyword name ty
  | expand _, ty => .expand ty

end Argument

namespace UnionMember

/-- The member's type, or the schema that it projects. -/
def id : UnionMember ι → ι
  | type id | expand id | keys id | values id | entries id | indexItem id _ | assignItem id _
  | insertItem id _ => id

/-- The key that an item projection selects by. -/
def key : UnionMember ι → Option ι
  | indexItem _ key | assignItem _ key | insertItem _ key => some key
  | _ => none

/-- The schema that it projects, if it is a projection. -/
def projected : UnionMember ι → Option ι
  | type _ => none
  | member => some member.id

/-- The same kind of member of another schema, with the same key. -/
def withId : UnionMember ι → ι → UnionMember ι
  | type _, id => type id
  | expand _, id => expand id
  | keys _, id => keys id
  | values _, id => values id
  | entries _, id => entries id
  | indexItem _ key, id => indexItem id key
  | assignItem _ key, id => assignItem id key
  | insertItem _ key, id => insertItem id key

end UnionMember

namespace Restriction

def key : Restriction ι → Option ι
  | deletable key => some key
  | clearable => none

end Restriction

namespace Node

/-- Whether a nonempty list of binders opens a group. -/
def groupsOf (binders : List (Binder ι)) : ℕ :=
  if binders.isEmpty then 0 else 1

/-- `visit_children`: the immediate children, each with the number of groups around it. -/
def children : Node ι → List (ι × ℕ)
  | top | unknown _ | unsupported _ _ | literal _ | fresh _ | decl _ | metatype _ | bound _ _
  | rigid _ _ _ => []
  | apply base args _ => (base, 0) :: args.map fun arg => (arg.ty, 0)
  | union members => members.flatMap fun member =>
      (member.id, 0) :: member.key.toList.map fun key => (key, 0)
  | function func =>
      (func.params, 0) :: (func.result, 0) ::
        (func.input.toList ++ func.output.toList).map fun ty => (ty, 0)
  | schema items => items.flatMap fun item => match item.element with
      | .positional ty | .included ty => [(ty, 0)]
      | .keyed key value => [(key, 0), (value, 0)]
  | quantified binders body =>
      (binders.flatMap fun binder => (binder.bound.toList ++ binder.default.toList).map fun ty =>
        (ty, groupsOf binders)) ++ [(body, groupsOf binders)]
  | map packs pattern => (packs.map fun pack => (pack, 0)) ++ [(pattern, 1)]
  | restricted target restriction =>
      (target, 0) :: restriction.key.toList.map fun key => (key, 0)
  | fields target _ => [(target, 0)]
  | overloaded overloads implementation _ =>
      (overloads ++ implementation.toList).map fun ty => (ty, 0)

section Map

variable {m : Type → Type} [Monad m] (f : ι → ℕ → m κ)

def mapOption (groups : ℕ) : Option ι → m (Option κ)
  | none => pure none
  | some ty => some <$> f ty groups

def mapMember : UnionMember ι → m (UnionMember κ)
  | .type id => .type <$> f id 0
  | .expand id => .expand <$> f id 0
  | .keys id => .keys <$> f id 0
  | .values id => .values <$> f id 0
  | .entries id => .entries <$> f id 0
  | .indexItem id key => return .indexItem (← f id 0) (← f key 0)
  | .assignItem id key => return .assignItem (← f id 0) (← f key 0)
  | .insertItem id key => return .insertItem (← f id 0) (← f key 0)

def mapItem (item : SchemaItem ι) : m (SchemaItem κ) :=
  match item.element with
  | .positional ty => return { multiplicity := item.multiplicity, element := .positional (← f ty 0) }
  | .included ty => return { multiplicity := item.multiplicity, element := .included (← f ty 0) }
  | .keyed key value =>
      return { multiplicity := item.multiplicity, element := .keyed (← f key 0) (← f value 0) }

def mapBinder (groups : ℕ) (binder : Binder ι) : m (Binder κ) := do
  let bound ← mapOption f groups binder.bound
  let default ← mapOption f groups binder.default
  return { binder with bound, default }

/-- `map_children`: the node rebuilt with its children mapped. -/
def mapChildren : Node ι → m (Node κ)
  | top => return .top
  | unknown kind => return .unknown kind
  | unsupported kind occurrence => return .unsupported kind occurrence
  | literal l => return .literal l
  | fresh l => return .fresh l
  | decl d => return .decl d
  | metatype d => return .metatype d
  | bound reference kind => return .bound reference kind
  | rigid d slot kind => return .rigid d slot kind
  | apply base args kind => do
      let base ← f base 0
      let args ← args.mapM fun arg => arg.withTy <$> f arg.ty 0
      return .apply base args kind
  | union members => return .union (← members.mapM (mapMember f))
  | function func => do
      let params ← f func.params 0
      let result ← f func.result 0
      let input ← mapOption f 0 func.input
      let output ← mapOption f 0 func.output
      return .function { params, result, input, output }
  | schema items => return .schema (← items.mapM (mapItem f))
  | quantified binders body => do
      let mapped ← binders.mapM (mapBinder f (groupsOf binders))
      return .quantified mapped (← f body (groupsOf binders))
  | map packs pattern => do
      let packs ← packs.mapM fun pack => f pack 0
      return .map packs (← f pattern 1)
  | restricted target restriction => do
      let target ← f target 0
      match restriction with
      | .deletable key => return .restricted target (.deletable (← f key 0))
      | .clearable => return .restricted target .clearable
  | fields target access => return .fields (← f target 0) access
  | overloaded overloads implementation func => do
      let overloads ← overloads.mapM fun ty => f ty 0
      return .overloaded overloads (← mapOption f 0 implementation) func

end Map

end Node

end Dolang.Types
