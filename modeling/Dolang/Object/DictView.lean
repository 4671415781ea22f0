import Dolang.Object.Signature

/-!
# Unpacking a dictionary view

`find_pair`, `unpack_sig_pairs`, `unpack_pairs` and `settle_leftovers` of `object/dict_view.rs`. A
view, or the rest of one, unpacks a list of pairs with a mask of those that it has consumed. The
numbers of the positional slots fit into 64 bits by `Sig.fits`, so that they are not checked again.
-/

namespace Dolang.Object

open Dolang.Bytecode (Rest Variadic)

variable {V E : Type}

/-- What a slot asks for: a key, a default, and what is wrong when there is neither. -/
structure Wanted (V E : Type) where
  key : V
  default : Option V
  missing : Refusal V E

/-- The element that a key item asks a view for: a symbol stands for its string. -/
def KeyKind.viewKey (els : Elements V E) : KeyKind V → V
  | sym name => els.ofStr name
  | const value => value

namespace DictView

section

variable (els : Elements V E)

/-- `find_pair`: the first pair with a key that has not been consumed. -/
def findPair : List (V × V) → List Bool → V → Except E (Option (ℕ × V))
  | (k, value) :: pairs, mark :: consumed, key =>
    if mark then (findPair pairs consumed key).map (Option.map fun r => (r.1 + 1, r.2))
    else
      match els.eq k key with
      | .error e => .error e
      | .ok true => .ok (some (0, value))
      | .ok false => (findPair pairs consumed key).map (Option.map fun r => (r.1 + 1, r.2))
  | _, _, _ => .ok none

/-- Fills slots one after the other, each with a pair that has not been consumed or its default. -/
def fill (pairs : List (V × V)) :
    List (Wanted V E) → List Bool → Except (Refusal V E) (List V × List Bool)
  | [], consumed => .ok ([], consumed)
  | wanted :: wants, consumed =>
    match findPair els pairs consumed wanted.key with
    | .error e => .error (.fault (.raise e))
    | .ok (some (i, value)) =>
      (fill pairs wants (consumed.set i true)).map fun r => (value :: r.1, r.2)
    | .ok none =>
      match wanted.default with
      | none => .error wanted.missing
      | some value => (fill pairs wants consumed).map fun r => (value :: r.1, r.2)

/-- What the positional slots ask for, with the defaults `posDefault`. -/
def wantedPositional (sig : Sig V) (posDefault : ℕ → Option V) : List (Wanted V E) :=
  (List.range sig.posCount).map fun (i : ℕ) =>
    { key := els.ofInt (i : ℤ), default := posDefault i, missing := .missingPositional i }

/-- What the slots ask for in `unpack_sig_pairs`. The default of a positional slot is looked up
without looking whether the slot is optional. -/
def wantedSig (sig : Sig V) : List (Wanted V E) :=
  wantedPositional els sig (fun i => sig.optional[i - sig.required]?) ++
    sig.keys.map fun item =>
      { key := item.kind.viewKey els, default := item.default, missing := .missingKey item.kind }

/-- What is missing when `unpack_pairs` does not find the key of a key item. -/
def missingKey (sig : Sig V) (key : V) : Refusal V E :=
  if sig.posCount ≠ 0 ∧ (els.asInt key).any (fun i => decide (-(2 ^ 63) ≤ i ∧ i ≤ i64Max)) then
    .missingPositional (sig.posCount - 1)
  else .missingKey (.const key)

/-- What the slots ask for in `unpack_pairs`, where each positional slot comes with its own
default. -/
def wantedItems (sig : Sig V) : List (Wanted V E) :=
  wantedPositional els sig sig.posDefault ++
    sig.keys.map fun item =>
      { key := item.kind.viewKey els, default := item.default
        missing := missingKey els sig (item.kind.viewKey els) }

/-- The place of the first pair with an integer key that has not been consumed. -/
def findInt (pairs : List (V × V)) (consumed : List Bool) (i : ℤ) : Option ℕ :=
  (pairs.zip consumed).findIdx? fun p => !p.2 && decide (els.asInt p.1.1 = some i)

/-- The places of the pairs with the integer keys from `next` on. There are not more than pairs. -/
def runFrom (pairs : List (V × V)) (consumed : List Bool) : ℕ → ℤ → List ℕ
  | 0, _ => []
  | fuel + 1, next =>
    match findInt els pairs consumed next with
    | none => []
    | some i => i :: runFrom pairs consumed fuel (next + 1)

/-- `settle_leftovers`. It tells the places of the positional items that a `*` rest takes. -/
def settleLeftovers (sig : Sig V) (pairs : List (V × V)) (consumed : List Bool) :
    Except (Refusal V E) (List ℕ × List Bool) :=
  if sig.variadic = .discard ∨ sig.variadic = .capture then .ok ([], consumed)
  else
    let run := runFrom els pairs consumed pairs.length sig.posCount
    if sig.posRest = .none ∧ sig.keyRest = .none ∧ run ≠ [] then
      .error (.unexpectedPositional sig.posCount)
    else
      let run := if sig.posRest = .none then [] else run
      let consumed := run.foldl (fun consumed i => consumed.set i true) consumed
      match sig.keyRest, (pairs.zip consumed).find? fun p => !p.2 with
      | .none, some p => .error (.unexpectedKey p.1.1)
      | _, _ => .ok (run, consumed)

/-- The pairs that have not been consumed. -/
def unconsumed (pairs : List (V × V)) (consumed : List Bool) : List (V × V) :=
  ((pairs.zip consumed).filter fun p => !p.2).map Prod.fst

/-- What an unpacking of pairs hands out: the values of the slots, those of a `*name` rest, and the
pairs of a `**name` rest or of the rest of everything. -/
structure Unpacked (V : Type) where
  slots : List V
  run : List V
  rest : List (V × V)

/-- An unpacking of pairs. -/
def unpackWanted (sig : Sig V) (wants : List (Wanted V E)) (pairs : List (V × V)) :
    Except (Refusal V E) (Unpacked V) := do
  let filled ← fill els pairs wants (List.replicate pairs.length false)
  let settled ← settleLeftovers els sig pairs filled.2
  return {
    slots := filled.1
    run := settled.1.filterMap fun i => pairs[i]?.map Prod.snd
    rest := unconsumed pairs settled.2 }

/-- `op_unpack` of a view and of the rest of one. -/
def opUnpack (sig : Sig V) (pairs : List (V × V)) : Except (Refusal V E) (Unpacked V) :=
  unpackWanted els sig (wantedSig els sig) pairs

/-- `unpack_pairs`, which unpacks the pairs of an object without a view of it. -/
def unpackPairs (sig : Sig V) (pairs : List (V × V)) : Except (Refusal V E) (Unpacked V) :=
  unpackWanted els sig (wantedItems els sig) pairs

end

end DictView

end Dolang.Object
