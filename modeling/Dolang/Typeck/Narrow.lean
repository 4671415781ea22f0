import Dolang.Typeck.Lattice

/-!
# Narrowing

The model of `typeck/solver/narrow.rs`: a closed type is narrowed member by member against a class,
a literal or the shape of a pattern. Its aliases and projections are exposed first, as far as they
stand for unions.

What narrowing asks of a solver beside joins is a parameter: what an alias looks like through
(`view`) and is replaced by (`expose`), the rigid arguments of a class, and the bounds of its
binders. A pattern that always matches a member is one that `guaranteed` says so of.
-/

namespace Dolang.Typeck

open Types (Literal UnionMember Binder Kind Variance)

/-- A solver, with what narrowing asks of it. -/
structure Narrower (n : ℕ) (T : Type) extends Solver n T where
  /-- The structure of a transparent alias; any other type is its own. -/
  view : T → T
  /-- What an alias of a union or a projection is replaced by, with the type that is then exposed.
  -/
  expose : UnionMember T → Option (T × T)
  isFinal : Fin n → Bool
  rigids : Fin n → List T
  binderBound : Binder T → List T → Option T
  /-- The open schema. -/
  openSchema : T
  /-- The intrinsic `Func`. -/
  func : Option (Fin n)
  gradualFunction : T

/-- The relation of a value's class to a class, or of a value to a literal. -/
inductive Narrowing where
  | upper
  | exact
  deriving DecidableEq, Repr

/-- What a variable is narrowed against. -/
inductive NarrowTarget (n : ℕ) (T : Type) where
  | class (d : Fin n)
  | literal (ty : T)
  /-- A pattern, by the members that it always matches. -/
  | shape (guaranteed : T → Bool)

/-- A union member, as narrowing sees it. -/
inductive Seen (n : ℕ) (T : Type) where
  | unknown
  | top
  | literal (l : Literal) (nominal : Option (Nominal n T))
  | class (nominal : Nominal n T)
  | opaqueType

namespace Narrower

variable {n : ℕ} {T : Type} (s : Narrower n T)

/-- A member as narrowing sees it, through any transparent alias. -/
def classify (ty : T) : Seen n T :=
  match s.types.ty (s.view ty) with
  | .unknown => .unknown
  | .top => .top
  | .literal l | .fresh l => .literal l (s.start ty)
  | _ =>
    match s.start ty with
    | some nominal => .class nominal
    | none => .opaqueType

/-- Whether a class reaches the target, or `none` when that can't be proven. -/
def reaches (nominal : Nominal n T) (target : Fin n) : Option Bool :=
  (s.ancestor nominal target).map (·.isSome)

/-- A class applied to its own rigids, walked to a declaration: the arguments that has there. -/
def descent (d decl : Fin n) : Option (Option (List T)) :=
  (s.ancestor ⟨d, s.rigids d⟩ decl).map (·.map (·.arguments))

/-- Whether a class that doesn't reach another provably has no instance of it. -/
def disjoint (nominal : Nominal n T) (d : Fin n) : Bool :=
  (s.isFinal nominal.declaration && (s.descent d nominal.declaration).any (·.isNone)) ||
    s.db.disjointApart nominal.declaration d

/-- An argument every instance's own is below or above, written without `Unknown`. -/
def soundArgument (binder : Binder T) (binders : List (Binder T)) : Option T :=
  match binder.variance, binder.kind with
  | .covariant, kind =>
    match s.binderBound binder (binders.map fun binder => s.unknownOf binder.kind), kind with
    | some bound, _ => if s.types.containsUnknown bound then none else some bound
    | none, .type => some s.types.top
    | none, .schema => if s.types.containsUnknown s.openSchema then none else some s.openSchema
  | .contravariant, .type => some (s.types.intern (.union []))
  | .contravariant, .schema | .invariant, _ => none

/-- A class applied to the carried argument for each binder that has one, and to a sound argument
for the others. -/
def approximate (d : Fin n) (carried : List (Option T)) : Option T :=
  if (s.binders d).isEmpty then some (s.types.intern (.decl d))
  else do
    let arguments ← (s.binders d).zipIdx.mapM fun (binder, slot) =>
      (carried[slot]?.join).or (s.soundArgument binder (s.binders d))
    return s.types.intern (.apply (s.types.intern (.decl d)) arguments)

/-- A class applied to `Unknown` for each binder. -/
def applyUnknown (d : Fin n) : T :=
  if s.func = some d then s.gradualFunction
  else if (s.binders d).isEmpty then s.types.intern (.decl d)
  else
    s.types.intern (.apply (s.types.intern (.decl d))
      ((s.binders d).map fun binder => s.unknownOf binder.kind))

/-- A class as a whole, for a member whose class says nothing of it. -/
def whole (d : Fin n) (kept : T) : T :=
  if s.gradual then s.applyUnknown d else (s.approximate d []).getD kept

variable [DecidableEq T]

/-- The argument that carries down from a member's to a binder's rigid: where each of the member's
binders that has the rigid carries the same. -/
def carriedArgument (binder : Binder T) (rigid : T) (found : List (T × T × Binder T)) : Option T :=
  match (found.filter (·.1 = rigid)).map fun (_, argument, memberBinder) =>
      if memberBinder.variance = .invariant ∨ memberBinder.variance = binder.variance then
        some argument
      else none with
  | some first :: rest => if rest.all (· = some first) then some first else none
  | _ => none

/-- A class that a value of a member is an instance of, with the arguments that carry down from it.
-/
def below (d : Fin n) (member : Nominal n T) (kept : T) : T :=
  if (s.binders d).isEmpty then s.whole d kept
  else
    match s.descent d member.declaration with
    | some (some descent) =>
      if (s.binders member.declaration).isEmpty then s.whole d kept
      else
        let found := descent.zip (member.arguments.zip (s.binders member.declaration))
        let carried := ((s.binders d).zip (s.rigids d)).map fun (binder, rigid) =>
          carriedArgument binder rigid found
        if s.gradual then
          s.types.intern (.apply (s.types.intern (.decl d))
            (((s.binders d).zip carried).map fun (binder, carried) =>
              carried.getD (s.unknownOf binder.kind)))
        else (s.approximate d carried).getD kept
    | _ => s.whole d kept

/-- A member narrowed against a class, or `none` when it's dropped. -/
def narrowClass (kept : T) (relation : Narrowing) (negated : Bool) (d : Fin n) : Option T :=
  match relation, negated with
  | .upper, false =>
    match s.classify kept with
    | .class nominal =>
      match s.reaches nominal d with
      | some true => some kept
      | some false => if s.disjoint nominal d then none else some (s.below d nominal kept)
      | none => some (s.below d nominal kept)
    | .literal _ (some nominal) =>
      match s.reaches nominal d with
      | some true => some kept
      | some false => none
      | none => some (s.whole d kept)
    | .literal _ none => some kept
    -- An `Unknown` member stays dynamic.
    | .unknown => some (s.applyUnknown d)
    | .top | .opaqueType => some (s.whole d kept)
  | .upper, true =>
    match s.classify kept with
    | .class nominal | .literal _ (some nominal) =>
      if s.reaches nominal d = some true then none else some kept
    | _ => some kept
  | .exact, false =>
    match s.classify kept with
    | .class nominal =>
      if nominal.declaration = d then some kept
      else
        match s.descent d nominal.declaration with
        | some (some _) => some (s.below d nominal kept)
        | some none => none
        | none => some (s.whole d kept)
    | .literal _ (some nominal) => if nominal.declaration = d then some kept else none
    | .literal _ none => some kept
    | .unknown => some (s.applyUnknown d)
    | .top | .opaqueType => some (s.whole d kept)
  | .exact, true =>
    match s.classify kept with
    | .literal _ (some nominal) => if nominal.declaration = d then none else some kept
    | _ => some kept

/-- A member narrowed by equality with a literal, or `none` when it's dropped. -/
def narrowLiteral (kept : T) (negated : Bool) (target : Literal) : Option T :=
  match s.classify kept with
  | .literal l _ => if (l = target) ≠ negated then some kept else none
  | .class nominal =>
    if negated ∧ s.intrinsic target = some nominal.declaration then
      match target with
      | .nil => none
      | .bool value => some (s.types.intern (.literal (.bool !value)))
      | _ => some kept
    else some kept
  | _ => some kept

/-- A type's union members, with each alias of a union and each projection that is known in their
place, and the types that are exposed by then. -/
def exposedMembers : ℕ → List T → T → Option (List T × List (UnionMember T))
  | 0, _, _ => none
  | fuel + 1, exposed, ty =>
    (s.types.unionMembers ty).foldlM (fun (exposed, members) member =>
      match s.expose member with
      | none => some (exposed, members ++ [member])
      | some (name, body) =>
        if name ∈ exposed then some (exposed, members ++ [member])
        else do
          let (exposed, inner) ← exposedMembers fuel (name :: exposed) body
          return (exposed, members ++ inner)) (exposed, [])

/-- A member narrowed by the relation against the target, or by its negation. A projection's members
are unknown, so it's kept. -/
def narrowMember (relation : Narrowing) (negated : Bool) (target : NarrowTarget n T)
    (member : UnionMember T) : Option T :=
  match member, target with
  | .type ty, .class d => s.narrowClass ty relation negated d
  | .type ty, .literal literal =>
    match s.types.literal literal with
    | some literal => s.narrowLiteral ty negated literal
    | none => some ty
  | .type ty, .shape guaranteed => if guaranteed ty then none else some ty
  | member, _ => some (s.types.intern (.union [member]))

/-- The join of what the members are narrowed to. -/
def narrowMembers (relation : Narrowing) (negated : Bool) (target : NarrowTarget n T) :
    List (UnionMember T) → T → T
  | [], result => result
  | member :: rest, result =>
    narrowMembers relation negated target rest
      (((s.narrowMember relation negated target member).map (s.lub result)).getD result)

/-- Narrow a closed type by a relation against a target, or by its negation: the join of its members
narrowed. Only a pattern's mismatch narrows, and what is no literal is no target. -/
def narrow (fuel : ℕ) (ty : T) (relation : Narrowing) (negated : Bool) (target : NarrowTarget n T) :
    Option T :=
  match target with
  | .shape _ =>
    if negated then do
      let (_, members) ← s.exposedMembers fuel [] ty
      return s.narrowMembers relation negated target members (s.types.intern (.union []))
    else some ty
  | .literal literal =>
    match s.types.literal literal with
    | none => some ty
    | some _ => do
      let (_, members) ← s.exposedMembers fuel [] ty
      return s.narrowMembers relation negated target members (s.types.intern (.union []))
  | .class _ => do
    let (_, members) ← s.exposedMembers fuel [] ty
    return s.narrowMembers relation negated target members (s.types.intern (.union []))

end Narrower

end Dolang.Typeck
