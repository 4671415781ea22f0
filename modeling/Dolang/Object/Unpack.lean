import Dolang.Object.DictOrder

/-!
# Lazy rests of a dictionary

`Skip`, `leftover_instance` and `UnpackState` of `object/dict.rs`: how a rest finds its way through
the pairs that an unpacking has left. The entries of a skip table are looked for one after the
other.
-/

namespace Dolang.Object

/-- What the elements can do, as far as unpacking is concerned. -/
structure Elements (V E : Type) where
  eq : V → V → Except E Bool
  hash : V → Except E Hash
  /-- The integer that an element is, `as_int`. -/
  asInt : V → Option ℤ
  /-- A 64-bit integer as an element, `from_i64`. -/
  ofInt : ℤ → V
  /-- The object of a symbol, by its name. -/
  ofSym : String → V
  /-- A string as an element. -/
  ofStr : String → V
  /-- The error of an integer that is too large. -/
  overflow : E

/-- How many instances of a key have been consumed. -/
structure Seen (V : Type) where
  value : V
  hash : Hash
  count : ℕ

abbrev Skip (V : Type) := List (Seen V)

/-- The largest integer of 64 bits. -/
def i64Max : ℤ := 2 ^ 63 - 1

/-- Where a rest is. -/
inductive UnpackState (V : Type) where
  /-- It delivers the positional run from `int`, before resuming the keyed items at `resume`. -/
  | int (int : ℤ) (resume : ℕ) (skip : Skip V)
  /-- It walks in insertion order while the integer keys met continue the positional run. -/
  | order (int : ℤ) (index : ℕ) (skip : Skip V)
  /-- It delivers the keyed items from `index`. First instances of integer keys below `floor` were
  consumed positionally. -/
  | resume (index : ℕ) (floor : ℤ) (skip : Skip V)
  /-- It delivers only the positional run, for a `*name` rest. -/
  | run (int : Option ℤ)

section

variable {V E : Type} (P : Probing (Entry V) E Entry.hash) (els : Elements V E)

/-- Counts an instance of a key as consumed, and says how many were before, `Skip::add`. -/
def Skip.add (skip : Skip V) (value : V) (hv : Hash) : Except E (ℕ × Skip V) :=
  match skip with
  | [] => .ok (0, [{ value, hash := hv, count := 1 }])
  | seen :: skip =>
    if seen.hash = hv then
      match els.eq value seen.value with
      | .error e => .error e
      | .ok true => .ok (seen.count, { seen with count := seen.count + 1 } :: skip)
      | .ok false => (Skip.add skip value hv).map fun r => (r.1, seen :: r.2)
    else (Skip.add skip value hv).map fun r => (r.1, seen :: r.2)

/-- `offset`: an addition of 64-bit integers that can overflow. -/
def offset (base : ℤ) (by' : ℕ) : Except E ℤ :=
  if base + by' ≤ i64Max then .ok (base + by') else .error els.overflow

/-- Whether a key is one of the integers below `floor`. -/
def positional (key : V) (floor : ℤ) : Bool :=
  (els.asInt key).any fun int => decide (0 ≤ int ∧ int < floor)

/-- Which instance a walk over leftover pairs delivers when it reaches one, `leftover_instance`. -/
def leftoverInstance (entry : Entry V) (subindex : ℕ) (floor : ℤ) (skip : Skip V) :
    Except E (Option ℕ × Skip V) :=
  let pos := positional els entry.key floor
  if pos && subindex == 0 then .ok (none, skip)
  else
    (Skip.add els skip entry.key entry.hash).map fun r =>
      let instance' := r.1 + if pos then 1 else 0
      (if instance' < entry.value.len then some instance' else none, r.2)

namespace Dict

/-- The place of an instance of a key, `Dict::get` up to the reading of the value. -/
def place (d : Dict V) (key : V) (instance' : ℕ) : Except E (Option Place) := do
  let hv ← els.hash key
  let found ← d.find P els.eq hv key
  return found.bind fun bucket =>
    (d.table.read bucket).bind fun entry =>
      if instance' < entry.value.len then some (bucket, instance') else none

end Dict

namespace UnpackState

def isRun : UnpackState V → Bool
  | run _ => true
  | _ => false

/-- What a rest delivers: a key with the place of the value. -/
abbrev Delivery (V : Type) := V × Place

/-- The keyed items that are left of the index. -/
def resumeWalk (d : Dict V) (floor : ℤ) :
    List (Option Place) → ℕ → Skip V →
      Except (Fault E) (Option (Delivery V)) × UnpackState V
  | [], index, skip => (.ok none, resume index floor skip)
  | none :: slots, index, skip => resumeWalk d floor slots (index + 1) skip
  | some (bucket, subindex) :: slots, index, skip =>
    match d.table.read bucket with
    | none => (.error .undefined, resume (index + 1) floor skip)
    | some entry =>
      match leftoverInstance els entry subindex floor skip with
      | .error e => (.error (.raise e), resume (index + 1) floor skip)
      | .ok (none, skip) => resumeWalk d floor slots (index + 1) skip
      | .ok (some instance', skip) =>
        (.ok (some (entry.key, (bucket, instance'))), resume (index + 1) floor skip)

/-- The keyed items from an index on. -/
def resumeNext (d : Dict V) (index : ℕ) (floor : ℤ) (skip : Skip V) :
    Except (Fault E) (Option (Delivery V)) × UnpackState V :=
  resumeWalk els d floor (d.index.drop index) index skip

/-- The positional run, and the keyed items after it. -/
def intNext (d : Dict V) (int : ℤ) (resume : ℕ) (skip : Skip V) :
    Except (Fault E) (Option (Delivery V)) × UnpackState V :=
  match d.place P els (els.ofInt int) 0 with
  | .error e => (.error (.raise e), .int int resume skip)
  | .ok (some place) =>
    match offset els int 1 with
    | .error e => (.error (.raise e), .int int resume skip)
    | .ok next => (.ok (some (els.ofInt int, place)), .int next resume skip)
  | .ok none => resumeNext els d resume int skip

/-- The walk in insertion order. -/
def orderWalk (d : Dict V) (int : ℤ) :
    List (Option Place) → ℕ → Skip V →
      Except (Fault E) (Option (Delivery V)) × UnpackState V
  | [], index, skip => (.ok none, order int index skip)
  | none :: slots, index, skip => orderWalk d int slots (index + 1) skip
  | some (bucket, subindex) :: slots, index, skip =>
    match d.table.read bucket with
    | none => (.error .undefined, order int index skip)
    | some entry =>
      match els.asInt entry.key with
      | some key =>
        if subindex = 0 ∧ key = int then
          match offset els int 1 with
          | .error e => (.error (.raise e), order int (index + 1) skip)
          | .ok next => (.ok (some (entry.key, (bucket, 0))), order next (index + 1) skip)
        else intNext P els d int index skip
      | none =>
        match leftoverInstance els entry subindex int skip with
        | .error e => (.error (.raise e), order int (index + 1) skip)
        | .ok (none, skip) => orderWalk d int slots (index + 1) skip
        | .ok (some instance', skip) =>
          (.ok (some (entry.key, (bucket, instance'))), order int (index + 1) skip)

/-- `next_pair`: what a rest delivers next, and where it is then. -/
def nextPair (d : Dict V) : UnpackState V →
    Except (Fault E) (Option (Delivery V)) × UnpackState V
  | run none => (.ok none, run none)
  | run (some pos) =>
    match d.place P els (els.ofInt pos) 0 with
    | .error e => (.error (.raise e), run (some pos))
    | .ok none => (.ok none, run none)
    | .ok (some place) =>
      (.ok (some (els.ofInt pos, place)), run (if pos + 1 ≤ i64Max then some (pos + 1) else none))
  | int pos index skip => intNext P els d pos index skip
  | resume index floor skip => resumeNext els d index floor skip
  | order pos index skip => orderWalk P els d pos (d.index.drop index) index skip

end UnpackState

end

end Dolang.Object
