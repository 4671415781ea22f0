import Dolang.Object.Signature

/-!
# Unpacking a dictionary

`unpack_matched`, `leftover_key`, `run_values` and the two `op_unpack` of `object/dict.rs`. An
unpacking fills the slots of a signature and hands out lazy rests. It is a function of the
dictionary and, for a rest, of where the rest is, which it does not change. The loops over a run of
integer keys count down what is left up to the largest integer.
-/

namespace Dolang.Object

open Dolang.Bytecode (Rest)

variable {V E : Type}

/-- The element that a key item asks for. -/
def KeyKind.key (els : Elements V E) : KeyKind V → V
  | sym name => els.ofSym name
  | const value => value

/-- How far `unpack_matched` got. -/
structure Matched where
  /-- The first integer key after those taken positionally, if any remain. -/
  start : Option ℤ
  /-- The end of the run of leftover positional items from `start`. -/
  stop : Option ℤ
  /-- First instances of integer keys below this were consumed beforehand. -/
  floor : ℤ

/-- The floor for a `**name` rest: it takes the leftover positional items too, as keyed ones, unless
a `*` rest takes them. -/
def Matched.keyFloor (m : Matched) (sig : Sig V) : ℤ :=
  if sig.posRest = .none then m.start.getD m.floor else m.stop.getD m.floor

namespace Dict

variable (P : Probing (Entry V) E Entry.hash) (els : Elements V E)

/-- `Dict::get`: an instance of a key with its place. -/
def get (d : Dict V) (key : V) (instance' : ℕ) : Except E (Option (Place × V)) :=
  (d.place P els key instance').map fun place => place.bind fun p =>
    (row d.table p).map fun x => (p, x.value)

/-- Whether there is a pair with an integer key. -/
def getInt (d : Dict V) (i : ℤ) : Except E (Option (Place × V)) :=
  d.get P els (els.ofInt i) 0

/-- The positional slots that are filled from the integer keys from `next` on. -/
def takePositional (d : Dict V) (next : ℤ) : ℕ → ℕ → Except (Refusal V E) (List (Filled V))
  | 0, _ => .ok []
  | slots + 1, taken => do
    let key ← raising (offset els next taken)
    let found ← raising (d.getInt P els key)
    match found with
    | none => return []
    | some (place, value) =>
      let rest ← takePositional d next slots (taken + 1)
      return { place := some place, value } :: rest

/-- The end of the run of integer keys from `i` on. -/
def runEnd (d : Dict V) : ℕ → ℤ → Except E ℤ
  | 0, i => do
    let found ← d.getInt P els i
    if found.isSome then .error els.overflow else return i
  | left + 1, i => do
    let found ← d.getInt P els i
    if found.isSome then runEnd d left (i + 1) else return i

/-- Fills the slot of a key item with the instance of its key that is next. -/
def takeKey (d : Dict V) (item : KeyItem V) (skip : Skip V) :
    Except (Refusal V E) (Filled V × Skip V) := do
  let key := item.kind.key els
  let hv ← raising (els.hash key)
  let added ← raising (skip.add els key hv)
  let found ← raising
    (if (added.1 : ℤ) ≤ i64Max then d.get P els key added.1 else .error els.overflow)
  match found, item.default with
  | some x, _ => return ({ place := some x.1, value := x.2 }, added.2)
  | none, some value => return ({ place := none, value }, added.2)
  | none, none => .error (.missingKey item.kind)

/-- Fills the key slots. -/
def takeKeys (d : Dict V) :
    List (KeyItem V) → Skip V → Except (Refusal V E) (List (Filled V) × Skip V)
  | [], skip => .ok ([], skip)
  | item :: items, skip => do
    let slot ← d.takeKey P els item skip
    let rest ← takeKeys d items slot.2
    return (slot.1 :: rest.1, rest.2)

/-- The walk of `leftover_key`. -/
def leftoverWalk (d : Dict V) (limit : ℤ) :
    List (Option Place) → Skip V → Except (Refusal V E) (Option V)
  | [], _ => .ok none
  | none :: slots, skip => leftoverWalk d limit slots skip
  | some (bucket, subindex) :: slots, skip =>
    match d.table.read bucket with
    | none => .error (.fault .undefined)
    | some entry =>
      if positional els entry.key limit && subindex == 0 then leftoverWalk d limit slots skip
      else do
        let (seen, skip) ← raising (skip.add els entry.key entry.hash)
        if entry.value.len ≤ seen then leftoverWalk d limit slots skip else return some entry.key

/-- `leftover_key`: the key of the first pair that an unpacking left behind. -/
def leftoverKey (d : Dict V) (limit : ℤ) (skip : Skip V) : Except (Refusal V E) (Option V) :=
  leftoverWalk els d limit d.index skip

/-- The positional slots that are filled from the run, if positional items remain. -/
def takeRun (d : Dict V) (sig : Sig V) : Option ℤ → Except (Refusal V E) (List (Filled V))
  | none => .ok []
  | some next => d.takePositional P els next sig.posCount 0

/-- The positional slots: those that are filled from the run, and the defaults of the others. -/
def fillPositional (d : Dict V) (sig : Sig V) (next : Option ℤ) :
    Except (Refusal V E) (List (Filled V) × ℕ) := do
  let slots ← d.takeRun P els sig next
  if slots.length < sig.required then .error (.missingPositional slots.length)
  else
    let defaults := (sig.optional.drop (slots.length - sig.required)).map fun value =>
      { place := none, value }
    return (slots ++ defaults, slots.length)

/-- Where the leftover positional items begin and end. -/
def runFrom (d : Dict V) (next : Option ℤ) (taken : ℕ) :
    Except (Refusal V E) (Option (ℤ × ℤ)) :=
  match next with
  | none => .ok none
  | some next => do
    let start ← raising (offset els next taken)
    let stop ← raising (d.runEnd P els (i64Max - start).toNat start)
    return some (start, stop)

/-- The floor above which leftovers are looked for, unless rests take them all. -/
def leftoverFloor (sig : Sig V) (m : Matched) : Option ℤ :=
  match sig.posRest, sig.keyRest with
  | .none, .none => some (m.start.getD m.floor)
  | _, .none => some (m.stop.getD m.floor)
  | _, _ => none

/-- Checks for leftovers of a kind that no rest takes. -/
def checkLeftover (d : Dict V) (sig : Sig V) (m : Matched) (skip : Skip V) :
    Except (Refusal V E) Unit :=
  if sig.posRest = .none ∧ sig.keyRest = .none ∧ m.start ≠ m.stop then
    .error (.unexpectedPositional sig.posCount)
  else
    match leftoverFloor sig m with
    | none => .ok ()
    | some floor =>
      match d.leftoverKey els floor skip with
      | .error e => .error e
      | .ok none => .ok ()
      | .ok (some key) => .error (.unexpectedKey key)

/-- `unpack_matched`: fills the positional and key slots. -/
def unpackMatched (d : Dict V) (sig : Sig V) (next : Option ℤ) (floor : ℤ) (skip : Skip V) :
    Except (Refusal V E) (List (Filled V) × Matched × Skip V) := do
  let (slots, taken) ← d.fillPositional P els sig next
  let run ← d.runFrom P els next taken
  let (keys, skip) ← d.takeKeys P els sig.keys skip
  let m : Matched := { start := run.map Prod.fst, stop := run.map Prod.snd, floor }
  d.checkLeftover els sig m skip
  return (slots ++ keys, m, skip)

/-- The loop of `run_values`. -/
def runValuesLoop (d : Dict V) : ℕ → ℤ → Except (Refusal V E) (List (Filled V))
  | 0, i => do
    let found ← raising (d.getInt P els i)
    return (found.map fun x => { place := some x.1, value := x.2 }).toList
  | left + 1, i => do
    let found ← raising (d.getInt P els i)
    match found with
    | none => return []
    | some (place, value) =>
      let rest ← runValuesLoop d left (i + 1)
      return { place := some place, value } :: rest

/-- `run_values`: the run of integer keys from a position on. -/
def runValues (d : Dict V) : Option ℤ → Except (Refusal V E) (List (Filled V))
  | none => .ok []
  | some pos => d.runValuesLoop P els (i64Max - pos).toNat pos

end Dict

/-- What an unpacking hands out: what fills the slots, and where the rests are, in the order of
their slots. -/
structure Unpacked (V : Type) where
  slots : List (Filled V)
  rests : List (UnpackState V)

/-- The rests of a matching: one for everything that is left over, or the `*name` rest and the
`**name` rest. -/
def rests (sig : Sig V) (m : Matched) (resume : ℕ) (skip : Skip V) (child : UnpackState V) :
    List (UnpackState V) :=
  if sig.variadic = .capture then [child]
  else (if sig.takesPos then [.run m.start] else []) ++
    if sig.takesKeys then [.resume resume (m.keyFloor sig) skip] else []

section

variable (P : Probing (Entry V) E Entry.hash) (els : Elements V E)

/-- `Dict::op_unpack`. -/
def Dict.opUnpack (d : Dict V) (sig : Sig V) : Except (Refusal V E) (Unpacked V) := do
  let (slots, m, skip) ← d.unpackMatched P els sig (some 0) 0 []
  return { slots, rests := rests sig m 0 skip (.order (m.start.getD i64Max) 0 skip) }

/-- Where a `*name` rest of a run begins, when `taken` of its items have been taken. -/
def UnpackState.runAfter (values : List (Filled V)) (taken : ℕ) :
    Option ℤ → Except (Refusal V E) (Option ℤ)
  | none => .ok none
  | some pos =>
    if taken < values.length then (raising (offset els pos taken)).map some else .ok none

/-- `Unpack::op_unpack` of the positional run of a `*name` rest, which unpacks as a sequence. A
`**name` rest of it is empty. -/
def UnpackState.unpackRun (d : Dict V) (sig : Sig V) (pos : Option ℤ) :
    Except (Refusal V E) (Unpacked V) := do
  let values ← d.runValues P els pos
  let slots ← unpackCursor sig values
  let next ← runAfter els values slots.2 pos
  let rests := if sig.variadic = .capture ∨ sig.takesPos then [.run next] else []
  return { slots := slots.1, rests }

/-- `Unpack::op_unpack` of a rest with keyed items, which are matched from `next` on above `floor`. -/
def UnpackState.unpackRest (d : Dict V) (sig : Sig V) (next : Option ℤ) (floor : ℤ) (resume : ℕ)
    (skip : Skip V) : Except (Refusal V E) (Unpacked V) := do
  let (slots, m, skip) ← d.unpackMatched P els sig next floor skip
  let child := m.start.elim (.resume resume floor skip) fun pos => .int pos resume skip
  return { slots, rests := rests sig m resume skip child }

/-- `Unpack::op_unpack`. -/
def UnpackState.opUnpack (d : Dict V) (sig : Sig V) :
    UnpackState V → Except (Refusal V E) (Unpacked V)
  | .int pos index skip => unpackRest P els d sig (some pos) pos index skip
  | .order pos index skip => unpackRest P els d sig (some pos) pos index skip
  | .resume index floor skip => unpackRest P els d sig none floor index skip
  | .run pos => unpackRun P els d sig pos

end

end Dolang.Object
