import Dolang.Typeck.Disjoint
import Dolang.Types.Node

/-!
# Closed types

The closed types of one sealed database, by their ids `T`, as joins, widening and narrowing look at
them. Interning adds structures, but an id and a structure stand for each other once and for all, so
`intern` is a function here. Of a type's node the model keeps what those look at (`Form`): unions,
literals, and the declarations that a class type applies.

`Interned` carries what interning guarantees of the ids: a type's own structure interns as the type,
a union of one member is that member, `Value` absorbs a union that it is a member of, and any other
union has the members that it is made of, except a fresh literal beside its regular twin.
-/

namespace Dolang.Typeck

open Types (Literal UnionMember)

/-- A type's structure. -/
inductive Form (n : ℕ) (T : Type) where
  /-- `Value`. -/
  | top
  /-- The dynamic type. -/
  | unknown
  | literal (l : Literal)
  /-- A literal that a literal term gave. -/
  | fresh (l : Literal)
  | union (members : List (UnionMember T))
  | decl (d : Fin n)
  | apply (base : T) (args : List T)
  /-- Any other structure, by its id. -/
  | other (id : T)
  deriving DecidableEq

/-- The types of a database. -/
structure Store (n : ℕ) (T : Type) where
  ty : T → Form n T
  intern : Form n T → T
  containsUnknown : T → Bool

namespace Store

variable {n : ℕ} {T : Type} (types : Store n T)

def top : T := types.intern .top

def unknown : T := types.intern .unknown

/-- `union_members`: the members of a type, as a union's. -/
def unionMembers (ty : T) : List (UnionMember T) :=
  match types.ty ty with
  | .union members => members
  | _ => [.type ty]

/-- The literal a literal type is, fresh or regular. -/
def literal (ty : T) : Option Literal :=
  match types.ty ty with
  | .literal l | .fresh l => some l
  | _ => none

/-- The regular twin of a fresh literal; any other type is its own. -/
def regular (ty : T) : T :=
  match types.ty ty with
  | .fresh l => types.intern (.literal l)
  | _ => ty

/-- A member that a canonical union can have. -/
def IsMember (member : UnionMember T) : Prop :=
  ∃ ty, member ∈ types.unionMembers ty

/-- The fresh twin of a literal. -/
def IsFresh (member : UnionMember T) (l : Literal) : Prop :=
  member = .type (types.intern (.fresh l))

/-- What interning guarantees. -/
structure Canonical : Prop where
  intern_ty : ∀ ty, types.intern (types.ty ty) = ty
  ty_top : types.ty types.top = .top
  ty_unknown : types.ty types.unknown = .unknown
  ty_literal : ∀ l, types.ty (types.intern (.literal l)) = .literal l
  ty_fresh : ∀ l, types.ty (types.intern (.fresh l)) = .fresh l
  ty_decl : ∀ d, types.ty (types.intern (.decl d)) = .decl d
  /-- A union with a single member is it. -/
  single : ∀ ty, (∀ members, types.ty ty ≠ .union members) → types.intern (.union [.type ty]) = ty
  /-- `Value` absorbs a union. -/
  absorb : ∀ members, .type types.top ∈ members → types.intern (.union members) = types.top
  /-- The members of a union without `Value`. -/
  mem_union : ∀ members, (∀ m ∈ members, types.IsMember m) → .type types.top ∉ members →
    ∀ m, m ∈ types.unionMembers (types.intern (.union members)) ↔
      m ∈ members ∧ ∀ l, types.IsFresh m l → .type (types.intern (.literal l)) ∉ members
  /-- Normalization keeps the regular twin. -/
  twin : ∀ l,
    types.intern (.union [.type (types.intern (.fresh l)), .type (types.intern (.literal l))]) =
      types.intern (.literal l)
  contains_top : types.containsUnknown types.top = false
  contains_unknown : types.containsUnknown types.unknown = true
  contains_literal : ∀ l, types.containsUnknown (types.intern (.literal l)) = false
  contains_fresh : ∀ l, types.containsUnknown (types.intern (.fresh l)) = false

end Store

/-- The types of a database, as interning keeps them. -/
structure Interned (n : ℕ) (T : Type) extends Store n T where
  canonical : toStore.Canonical

namespace Interned

variable {n : ℕ} {T : Type} (types : Interned n T)

/-- A type is the union of its members. -/
theorem union_unionMembers (ty : T) : types.intern (.union (types.unionMembers ty)) = ty := by
  unfold Store.unionMembers
  split
  next members h => rw [← h, types.canonical.intern_ty]
  next h => exact types.canonical.single ty h

theorem unionMembers_top : types.unionMembers types.top = [.type types.top] := by
  rw [Store.unionMembers, types.canonical.ty_top]

theorem unionMembers_unknown : types.unionMembers types.unknown = [.type types.unknown] := by
  rw [Store.unionMembers, types.canonical.ty_unknown]

/-- The regular twin of a fresh literal is another type. -/
theorem fresh_of_regular {ty twin : T} (h : types.regular ty = twin) (hne : ty ≠ twin) :
    ∃ l, ty = types.intern (.fresh l) ∧ twin = types.intern (.literal l) := by
  unfold Store.regular at h
  split at h
  next l hty => exact ⟨l, by rw [← hty, types.canonical.intern_ty], h.symm⟩
  next => exact absurd h hne

/-- The type of a member: a projection's is the union of it alone. -/
def typeOf (member : UnionMember T) : T :=
  match member with
  | .type ty => ty
  | member => types.intern (.union [member])

end Interned

end Dolang.Typeck
