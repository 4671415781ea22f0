import Dolang.Lib.FailFast
import Dolang.Object.Unpack

/-!
# The iterators of a dictionary

Each iterator is a position in the dictionary that it was made for: `Iter`, `Values`, `Keys`,
`KeyValues` and `UnpackIter` of `object/dict.rs`. The steps of these are the `*_op_next` functions
after the epoch has been checked. The changes are the operations of a dictionary, each with the
element operations of its own; `nativeInsert` is the one of the host interface, in `value/view.rs`.
-/

namespace Dolang.Object

/-- What an iterator yields. -/
inductive Item (V : Type) where
  | pair (key value : V)
  | key (key : V)
  | value (value : V)
  deriving DecidableEq

/-- What an iterator holds. -/
inductive Position (V : Type) where
  | pairs (index : ℕ)
  | values (index : ℕ)
  /-- With the buckets whose keys have been yielded. -/
  | keys (index : ℕ) (visited : List Bool)
  /-- With the bucket of the key. -/
  | keyValues (index : ℕ) (bucket : Option Bucket)
  | rest (state : UnpackState V)

namespace Dict

variable {V E : Type}

/-- Walks past the holes to the next pair of the index, and tells the index after it. -/
def nextRow (d : Dict V) : List (Option Place) → ℕ → Except (Fault E) (Option (Row V)) × ℕ
  | [], index => (.ok none, index)
  | none :: slots, index => nextRow d slots (index + 1)
  | some place :: _, index => ((deref d.table place).map some, index + 1)

/-- `next_key_from_index`: walks to the next entry whose bucket has not been visited. -/
def nextKey (d : Dict V) (visited : List Bool) :
    List (Option Place) → ℕ → Except (Fault E) (Option V) × ℕ × List Bool
  | [], index => (.ok none, index, visited)
  | none :: slots, index => nextKey d visited slots (index + 1)
  | some place :: slots, index =>
    match visited[place.1.slot]? with
    | none => (.error .undefined, index + 1, visited)
    | some true => nextKey d visited slots (index + 1)
    | some false =>
      match d.table.read place.1 with
      | none => (.error .undefined, index + 1, visited)
      | some entry => (.ok (some entry.key), index + 1, visited.set place.1.slot true)

/-- The value at a place. -/
def valueAt (d : Dict V) (place : Place) : Except (Fault E) V :=
  (deref d.table place).map Row.value

section Next

variable (P : Probing (Entry V) E Entry.hash) (els : Elements V E)

/-- The next element of an iterator. -/
def next (d : Dict V) : Position V → Except (Fault E) (Option (Item V)) × Position V
  | .pairs index =>
    let r := nextRow d (d.index.drop index) index
    (r.1.map (Option.map fun row => .pair row.key row.value), .pairs r.2)
  | .values index =>
    let r := nextRow d (d.index.drop index) index
    match r.1 with
    | .ok none => (.ok none, .values index)
    | .ok (some row) => (.ok (some (.value row.value)), .values r.2)
    | .error e => (.error e, .values index)
  | .keys index visited =>
    let r := nextKey d visited (d.index.drop index) index
    match r.1 with
    | .ok none => (.ok none, .keys index visited)
    | .ok (some key) => (.ok (some (.key key)), .keys r.2.1 r.2.2)
    | .error e => (.error e, .keys index visited)
  | .keyValues index none => (.ok none, .keyValues index none)
  | .keyValues index (some bucket) =>
    match d.table.read bucket with
    | none => (.error .undefined, .keyValues index (some bucket))
    | some entry =>
      match entry.value.get (some index) with
      | none => (.ok none, .keyValues index (some bucket))
      | some value => (.ok (some (.value value)), .keyValues (index + 1) (some bucket))
  | .rest state =>
    let r := state.nextPair P els d
    match r.1 with
    | .error e => (.error e, .rest r.2)
    | .ok none => (.ok none, .rest r.2)
    | .ok (some (key, place)) =>
      ((valueAt d place).map fun value =>
        some (if r.2.isRun then .value value else .pair key value), .rest r.2)

end Next

/-! ## The operations -/

/-- An operation of a dictionary. -/
inductive Op (V : Type) where
  | insert (key value : V)
  | assign (key value : V)
  | pop (key : V) (subindex : Option ℤ)
  | delete (key : V)
  | clear
  /-- The insertion of the host interface. -/
  | nativeInsert (key value : V) (unique : Bool)

/-- `Dict::insert` of the host interface, which does not raise the epoch. -/
def nativeInsert (P : Probing (Entry V) E Entry.hash) (els : Elements V E) (d : Dict V)
    (key value : V) (unique : Bool) : Except E (Dict V) := do
  let hv ← els.hash key
  d.insert P els.eq key value hv unique

/-- What an operation makes of a dictionary. One that fails leaves it as it is. -/
def Op.run (P : Probing (Entry V) E Entry.hash) (els : Elements V E) (d : Dict V) :
    Op V → Except E (Dict V)
  | insert key value => d.mcallInsert P els.eq els.hash key value
  | assign key value => d.opAssign P els.eq els.hash key value
  | pop key subindex =>
    (d.mcallPop P els.eq els.hash key subindex).map fun r => r.elim d Prod.fst
  | delete key => (d.delete P els.eq els.hash key).map Prod.fst
  | clear => .ok d.mcallClear
  | nativeInsert key value unique => d.nativeInsert P els key value unique

end Dict

end Dolang.Object
