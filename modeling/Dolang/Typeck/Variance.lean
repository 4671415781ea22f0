import Dolang.Lib.Rust
import Dolang.Lib.Worklist
import Dolang.Types.Node
import Mathlib.Logic.Function.Basic

/-!
# Solving for variance

`solve` of `typeck/elab/variance.rs`. Constraints give a lower bound on the use of a key, as the uses of
other keys compose it. A worklist raises uses until all bounds hold, a first time with a key that is not
used as no use at all, and a second time with it as invariant.

A map is a function with `none` where there is no entry. The worklist is a queue with the next
constraint in front, so what is pushed last comes first.
-/

namespace Dolang.Typeck

open Dolang.Rust Dolang.Types

/-- `Use`: the directions a binder is used in so far. -/
inductive Use where
  | none
  | co
  | contra
  | both
  deriving DecidableEq

namespace Use

/-- `Use::join`. -/
def join : Use → Use → Use
  | .none, u => u
  | u, .none => u
  | .co, .co => .co
  | .contra, .contra => .contra
  | _, _ => .both

/-- `Use::flip`. -/
def flip : Use → Use
  | .none => .none
  | .co => .contra
  | .contra => .co
  | .both => .both

/-- `Use::then`: a use of `inner` in a position used as another. -/
def «then» : Use → Use → Use
  | .none, _ | _, .none => .none
  | .co, inner => inner
  | .contra, inner => inner.flip
  | .both, _ => .both

/-- `Use::of`. -/
def of : Variance → Use
  | .covariant => .co
  | .contravariant => .contra
  | .invariant => .both

/-- `Use::variance`. -/
def variance : Use → Variance
  | .co => .covariant
  | .contra => .contravariant
  | _ => .invariant

end Use

namespace Variance

variable {K : Type} [DecidableEq K]

/-- `Source`: a lower bound on the use of a key. -/
inductive Source (K : Type) where
  /-- A use, as the variance of each key in turn composes it. -/
  | path (first : Use) (keys : List K)
  /-- Every use of another key. -/
  | join (key : K)

/-- The keys that a source reads. -/
def Source.keys : Source K → List K
  | .path _ keys => keys
  | .join key => [key]

/-- The use of a key in a map. -/
def use (uses : K → Option Use) (key : K) : Use :=
  (uses key).getD .none

/-- `read` of `solve`. -/
def read (unusedInvariant : Bool) (uses : K → Option Use) (key : K) : Use :=
  match use uses key with
  | .none => if unusedInvariant then .both else .none
  | u => u

/-- The use that a source gives. -/
def value (unusedInvariant : Bool) (uses : K → Option Use) : Source K → Use
  | .path first keys => keys.foldl (fun u key => u.then (read unusedInvariant uses key)) first
  | .join key => use uses key

/-- The constraints that read a key. -/
def dependents (constraints : List (K × Source K)) (key : K) : List ℕ :=
  constraints.zipIdx.flatMap fun (c, index) =>
    (c.2.keys.filter (· = key)).map fun _ => index

/-- One iteration of the loop of `run`. -/
def visit (constraints : List (K × Source K)) (unusedInvariant : Bool) (index : ℕ)
    (uses : K → Option Use) : Exec Empty ((K → Option Use) × List ℕ) := do
  let (target, source) ← unwrap constraints[index]?
  let entry := use uses target
  let joined := entry.join (value unusedInvariant uses source)
  let uses := Function.update uses target (some joined)
  return (uses, if joined = entry then [] else (dependents constraints target).reverse)

/-- `run` of `solve`. -/
def run (constraints : List (K × Source K)) (unusedInvariant : Bool) (fuel : ℕ)
    (uses : K → Option Use) : Exec Empty (K → Option Use) :=
  Worklist.run (visit constraints unusedInvariant) fuel uses (List.range constraints.length)

/-- The loop of `solve` over the own keys, of which those without a use are invariant. -/
def settleOwn (own : List K) (uses : K → Option Use) : K → Option Use :=
  own.foldl (fun uses key =>
    Function.update uses key (some (if use uses key = .none then .both else use uses key))) uses

/-- `solve`. -/
def solve (fuel : ℕ) (constraints : List (K × Source K)) (own : List K) (fixed : K → Option Use) :
    Exec Empty (K → Option Use) := do
  let uses ← run constraints false fuel fixed
  run constraints true fuel (settleOwn own uses)

end Variance

end Dolang.Typeck
