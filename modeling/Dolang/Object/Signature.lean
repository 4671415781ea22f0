import Dolang.Object.Unpack
import Dolang.Runtime.Frame

/-!
# Unpacking signatures

`sig::Unpack`: how many positional slots there are to fill, which key slots, and what happens to
what is left over. What fills a slot is a value of the source or a default.
-/

namespace Dolang.Object

open Dolang.Bytecode (Rest Variadic)

variable {V E : Type}

/-- `sig::UnpackKeyKind`: a symbol, by its name, or a constant. -/
inductive KeyKind (V : Type) where
  | sym (name : String)
  | const (value : V)

/-- `sig::UnpackKey`. -/
structure KeyItem (V : Type) where
  kind : KeyKind V
  default : Option V

/-- `sig::Unpack`. Its slots are in memory, so there are not more than an integer of 64 bits tells. -/
structure Sig (V : Type) where
  required : ℕ
  optional : List V
  keys : List (KeyItem V)
  variadic : Variadic
  fits : ((required + optional.length + keys.length : ℕ) : ℤ) ≤ i64Max

namespace Sig

/-- The number of positional slots. -/
def posCount (sig : Sig V) : ℕ :=
  sig.required + sig.optional.length

/-- How leftover positional items are handled. -/
def posRest (sig : Sig V) : Rest :=
  sig.variadic.positional

/-- How leftover keyed items are handled. -/
def keyRest (sig : Sig V) : Rest :=
  sig.variadic.keyed

/-- Whether there is a `*name` rest. -/
def takesPos (sig : Sig V) : Bool :=
  match sig.variadic with
  | .split .capture _ => true
  | _ => false

/-- Whether there is a `**name` rest. -/
def takesKeys (sig : Sig V) : Bool :=
  match sig.variadic with
  | .split _ .capture => true
  | _ => false

/-- The default of a positional slot, if it is optional. -/
def posDefault (sig : Sig V) (i : ℕ) : Option V :=
  if i < sig.required then none else sig.optional[i - sig.required]?

end Sig

/-- What fills a slot: a value, and where the pair is that it comes from unless it is a default. -/
structure Filled (V : Type) where
  place : Option Place
  value : V

/-- Why an unpacking fails. -/
inductive Refusal (V E : Type) where
  | missingPositional (i : ℕ)
  | unexpectedPositional (i : ℕ)
  | missingKey (kind : KeyKind V)
  | unexpectedKey (key : V)
  | fault (f : Fault E)

/-- What the elements raise. -/
def raising {α : Type} : Except E α → Except (Refusal V E) α
  | .ok a => .ok a
  | .error e => .error (.fault (.raise e))

/-- Fills the key slots of a source without keyed items. -/
def defaultKeys : List (KeyItem V) → Except (Refusal V E) (List (Filled V))
  | [] => .ok []
  | key :: keys =>
    match key.default with
    | none => .error (.missingKey key.kind)
    | some value => (defaultKeys keys).map ({ place := none, value } :: ·)

/-- `unpack_cursor`: fills the slots from a list of items, and tells how many of them it took. -/
def unpackCursor (sig : Sig V) (items : List (Filled V)) :
    Except (Refusal V E) (List (Filled V) × ℕ) :=
  if items.length < sig.required then .error (.missingPositional items.length)
  else
    match defaultKeys sig.keys with
    | .error e => .error e
    | .ok keys =>
      if sig.posRest = .none ∧ sig.posCount < items.length then
        .error (.unexpectedPositional sig.posCount)
      else
        let taken := min sig.posCount items.length
        let defaults := (sig.optional.drop (taken - sig.required)).map fun value =>
          { place := none, value }
        .ok (items.take taken ++ defaults ++ keys, taken)

end Dolang.Object
