import Dolang.Typeck.Closed

/-!
# Joins and widening

The model of `typeck/solver/lattice.rs`. `lub` joins two closed types, `commonSupertype` finds the
least ancestor that a union's members share, and `Widening.join` joins into a flow variable and
widens once the variable has grown too many times.

A solver's other parts are parameters: what `probe` proves, the head of a supertype in its
declaration's environment, where the ancestors of structures other than classes and literals start,
and where the budget ends (`exhausted`, asked for the declarations on the way to a visit). `none`
stands for an issue.
-/

namespace Dolang.Typeck

open Types (Literal UnionMember Binder Kind)

/-- A declaration applied to arguments, which are also its environment. -/
structure Nominal (n : ℕ) (T : Type) where
  declaration : Fin n
  arguments : List T

/-- A solver over a sealed database. -/
structure Solver (n : ℕ) (T : Type) where
  db : Database n
  types : Interned n T
  gradual : Bool
  /-- `probe` gives `Proven`. -/
  probe : T → T → Bool
  /-- The head of a supertype in an environment: a nominal type, `some none` for a structural one,
  or an issue. -/
  head : TypeId → List T → Option (Option (Nominal n T))
  /-- What an alias expands to, when that is nominal. -/
  expand : Fin n → List T → Option (Nominal n T)
  /-- The class of an intrinsic's literals, if it is designated. -/
  intrinsic : Literal → Option (Fin n)
  /-- Where the ancestors of another structure start. -/
  startOther : T → Option (Nominal n T)
  binders : Fin n → List (Binder T)
  unknownOf : Kind → T
  exhausted : List (Fin n) → Bool
  depthLimit : ℕ

/-- Whether the kind declares a nominal type. -/
def DeclKind.nominal : DeclKind → Bool
  | .classDecl | .protocol | .opaqueAlias => true
  | _ => false

namespace Solver

variable {n : ℕ} {T : Type} (s : Solver n T)

/-! ### Ancestors -/

/-- The supertypes that a walk follows: those the runtime inherits from, or all. -/
def supertypes (runtime : Bool) (d : Fin n) : List Supertype :=
  (s.db.declaration d).supertypes.filter fun supertype => supertype.runtime || !runtime

/-- The first of the supertypes in which a search finds something. A structural supertype is an
issue. -/
def firstFound (search : Nominal n T → Option (Option (Nominal n T))) (arguments : List T) :
    List Supertype → Option (Option (Nominal n T))
  | [] => some none
  | supertype :: rest =>
    match s.head supertype.ty arguments with
    | some (some next) =>
      match search next with
      | some none => firstFound search arguments rest
      | found => found
    | _ => none

/-- `ancestor_in`: the first of a nominal type and its ancestors, in MRO order, that applies the
target. `path` are the declarations on the way. -/
def ancestorIn (runtime : Bool) (target : Fin n) :
    ℕ → List (Fin n) → Nominal n T → Option (Option (Nominal n T))
  | 0, _, _ => none
  | room + 1, path, current =>
    if s.exhausted (current.declaration :: path) then none
    else if current.declaration = target then some (some current)
    else if current.declaration ∈ path then none
    else
      s.firstFound (ancestorIn runtime target room (current.declaration :: path)) current.arguments
        (s.supertypes runtime current.declaration)

/-- `ancestor`, following every supertype. -/
def ancestor (current : Nominal n T) (target : Fin n) : Option (Option (Nominal n T)) :=
  s.ancestorIn false target s.depthLimit [] current

/-- `preorder`: the declarations of a nominal type and its ancestors, in MRO order. -/
def preorder : ℕ → List (Fin n) → Nominal n T → Option (List (Fin n))
  | 0, _, _ => none
  | room + 1, path, current =>
    if s.exhausted (current.declaration :: path) ∨ current.declaration ∈ path then none
    else do
      let visited ← (s.supertypes false current.declaration).mapM fun supertype => do
        match ← s.head supertype.ty current.arguments with
        | some next => preorder room (current.declaration :: path) next
        | none => return []
      return current.declaration :: visited.flatten

/-- A declaration applied to arguments, through an alias. -/
def nominal (d : Fin n) (arguments : List T) : Option (Nominal n T) :=
  if (s.db.declaration d).kind.nominal then some ⟨d, arguments⟩ else s.expand d arguments

/-- Where a member's ancestors start. -/
def start (ty : T) : Option (Nominal n T) :=
  match s.types.ty ty with
  | .decl d => s.nominal d []
  | .apply base arguments =>
    match s.types.ty base with
    | .decl d => s.nominal d arguments
    | _ => none
  | .literal l | .fresh l => (s.intrinsic l).map (⟨·, []⟩)
  | .other id => s.startOther id
  | .top | .unknown | .union _ => none

/-- A declaration as the head of its own ancestor walk. -/
def bare (d : Fin n) : Nominal n T :=
  ⟨d, (s.binders d).map fun binder => s.unknownOf binder.kind⟩

/-! ### Joins -/

/-- The type of a member that joins compare. -/
def comparable : UnionMember T → Option T
  | .type ty => if s.types.containsUnknown ty then none else some ty
  | _ => none

variable [DecidableEq T]

/-- Whether a member is the fresh twin of a type. -/
def isTwin (ty : T) : UnionMember T → Bool
  | .type twin => twin ≠ ty && s.types.regular twin = ty
  | _ => false

/-- A regular literal in the place of its fresh twin, where there is one. -/
def replaceTwin (ty : T) : List (UnionMember T) → Option (List (UnionMember T))
  | [] => none
  | twin :: rest =>
    if s.isTwin ty twin then some (.type ty :: rest) else (replaceTwin ty rest).map (twin :: ·)

/-- A member that is neither there nor the twin of one. -/
def joinNew (kept : List (UnionMember T)) (member : UnionMember T) : List (UnionMember T) :=
  match s.comparable member with
  | none => kept ++ [member]
  | some ty =>
    if kept.any fun k => (s.comparable k).any (s.probe ty ·) then kept
    else kept.filter (fun k => (s.comparable k).all fun k => !s.probe k ty) ++ [member]

/-- One member joined into those that are kept. -/
def joinMember (kept : List (UnionMember T)) (member : UnionMember T) : List (UnionMember T) :=
  if member ∈ kept then kept
  else
    match member with
    | .type ty => (s.replaceTwin ty kept).getD (s.joinNew kept member)
    | _ => s.joinNew kept member

/-- Members joined one after another, or `none` once one is `Unknown`. -/
def joinMembers : List (UnionMember T) → List (UnionMember T) → Option (List (UnionMember T))
  | [], kept => some kept
  | member :: rest, kept =>
    if member = .type s.types.unknown then none else joinMembers rest (s.joinMember kept member)

/-- The join of two closed types: their union, without members that are below another member. -/
def lub (a b : T) : T :=
  let kept := s.types.unionMembers a
  if .type s.types.unknown ∈ kept then s.types.unknown
  else
    match s.joinMembers (s.types.unionMembers b) kept with
    | none => s.types.unknown
    | some kept => s.types.intern (.union kept)

/-! ### Common supertypes -/

/-- Combine the arguments a binder receives from each member, by its variance. -/
def combine (binder : Binder T) : List T → Option T
  | [] => none
  | first :: rest =>
    if rest.all (· = first) then some first
    else if binder.kind = .schema then none
    else
      match binder.variance with
      | .covariant => some (rest.foldl s.lub first)
      | .contravariant =>
        (first :: rest).find? fun lowest => (first :: rest).all (s.probe lowest ·)
      | .invariant => none

/-- A declaration applied to the combination of each start's arguments for it. -/
def shared (d : Fin n) (starts : List (Nominal n T)) : Option T :=
  if (s.binders d).any (·.binding ≠ .positional) then none
  else do
    let found ← starts.mapM fun start => (s.ancestor start d).join
    if (s.binders d).isEmpty then return s.types.intern (.decl d)
    let arguments ← (s.binders d).zipIdx.mapM fun (binder, slot) =>
      s.combine binder (found.filterMap (·.arguments[slot]?))
    return s.types.intern (.apply (s.types.intern (.decl d)) arguments)

/-- The least ancestor a union's members share, other than `Value`. -/
def commonSupertype (ty : T) : Option T :=
  match s.types.ty ty with
  | .union members => do
    let starts ← members.mapM fun
      | .type ty => s.start ty
      | _ => none
    let candidates ← s.preorder s.depthLimit [] (← starts.head?)
    let shared := candidates.eraseDups.filterMap fun d => (s.shared d starts).map (d, ·)
    let minimal ← shared.find? fun (d, _) => shared.all fun (other, _) =>
      other = d || ((s.ancestor (s.bare other) d).join).isNone
    return minimal.2
  | _ => some ty

end Solver

/-- Increases a variable's join may make at a widening point before each stage. -/
def wideningLimit : ℕ := 3

/-- A flow variable's widening state: a 32-bit counter. -/
structure Widening where
  increases : ℕ
  deriving DecidableEq, Repr

namespace Widening

variable {n : ℕ} {T : Type} [DecidableEq T] (s : Solver n T)

/-- What a solver widens to at last. -/
def last : T :=
  if s.gradual then s.types.unknown else s.types.top

/-- Join `new` into `old`, widening once the join has grown too many times. -/
def join (w : Widening) (old new : T) : T × Widening :=
  let joined := s.lub old new
  if joined = old then (old, w)
  else
    let w : Widening := ⟨(w.increases + 1) % 2 ^ 32⟩
    if 2 * wideningLimit < w.increases then (last s, w)
    else if wideningLimit < w.increases then ((s.commonSupertype joined).getD (last s), w)
    else (joined, w)

end Widening

end Dolang.Typeck
