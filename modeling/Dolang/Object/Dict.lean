import Mathlib.Data.List.ReduceOption
import Dolang.Object.RawTable
import Dolang.Runtime.Dict

/-!
# Dictionaries

`EntryValue`, `Entry` and `Dict` of `object/dict.rs` with the operations that change a dictionary.
A dictionary holds its entries in a raw table. Its index lists the pairs in the order of their
insertion: each slot names the bucket of an entry and an instance of that entry's key, and each
instance knows its slot. A slot whose pair has been taken out stays behind as a hole until the index
is compacted.

Elements are of any type. Their equality and their hash can fail, in which case nothing has been
changed yet.
-/

namespace Dolang.Object

open Dolang.Runtime (element)

/-- The values of a key, each with its slot in the index. -/
inductive EntryValue (V : Type) where
  | single (value : V) (index : ℕ)
  | multi (items : List (V × ℕ))

namespace EntryValue

variable {V : Type}

def len : EntryValue V → ℕ
  | single _ _ => 1
  | multi items => items.length

/-- The value of an instance, or the one that was inserted last. -/
def get : EntryValue V → Option ℕ → Option V
  | single value _, index => if index.getD 0 = 0 then some value else none
  | multi items, index => (items[index.getD (items.length - 1)]?).map Prod.fst

/-- The values with their slots, whichever way they are stored. -/
def items : EntryValue V → List (V × ℕ)
  | single value index => [(value, index)]
  | multi items => items

/-- Moves an instance to another slot. -/
def setIndex (subindex i : ℕ) : EntryValue V → EntryValue V
  | single value index => if subindex = 0 then single value i else single value index
  | multi items => multi (items.modify subindex fun item => (item.1, i))

/-- Adds an instance at the end. -/
def push (value : V) (i : ℕ) : EntryValue V → EntryValue V
  | single existing index => multi [(existing, index), (value, i)]
  | multi items => multi (items ++ [(value, i)])

end EntryValue

/-- A key with its values and with the hash under which it was put in. -/
structure Entry (V : Type) where
  key : V
  value : EntryValue V
  hash : Hash

/-- A slot of the index: an entry and an instance of its key. -/
abbrev Place := Bucket × ℕ

structure Dict (V : Type) where
  table : RawTable (Entry V)
  index : List (Option Place)
  epoch : ℕ
  totalPairs : ℕ

namespace Dict

variable {V E : Type}

def new : Dict V where
  table := .new
  index := []
  epoch := 0
  totalPairs := 0

/-- Tells the instance at a place that its slot is `i`. -/
def setIndex (table : RawTable (Entry V)) (place : Place) (i : ℕ) : RawTable (Entry V) :=
  table.modify place.1 fun e => { e with value := e.value.setIndex place.2 i }

/-- Gives the instances at some places the slots from `i` on. -/
def renumber : List Place → ℕ → RawTable (Entry V) → RawTable (Entry V)
  | [], _, table => table
  | place :: places, i, table => renumber places (i + 1) (setIndex table place i)

/-- Makes sure that the index is not mostly holes before a slot is added to it, the first part of
`next_index`. -/
def compact (d : Dict V) (capacity : ℕ) : Dict V :=
  if 2 * capacity ≤ d.index.length then
    { d with
      table := renumber d.index.reduceOption 0 d.table
      index := d.index.reduceOption.map some }
  else d

/-- Adds a slot to the index, the second part of `next_index`. -/
def append (d : Dict V) (place : Place) : Dict V :=
  { d with index := d.index ++ [some place], totalPairs := d.totalPairs + 1 }

/-- Where a move to a new table stands: the table that it empties, the table that it fills, where
the buckets of the former went, and the index of the latter. -/
structure Rehash (V : Type) where
  old : RawTable (Entry V)
  table : RawTable (Entry V)
  remap : List (Option Bucket)
  index : List (Option Place)

section Probing

variable (P : Probing (Entry V) E Entry.hash) (eq : V → V → Except E Bool)

/-- The new bucket of an entry, which is moved unless it has been before. -/
def Rehash.bucket (s : Rehash V) (bucket : Bucket) : Rehash V × Bucket :=
  match s.remap[bucket.slot]?.join with
  | some bucket => (s, bucket)
  | none =>
    match s.old.read bucket with
    | some entry =>
      let i := P.place s.table entry.hash
      ({ s with
          old := s.old.remove bucket (P.frees s.old bucket)
          table := s.table.insertAt i entry
          remap := s.remap.set bucket.slot (some (s.table.bucket i)) },
        s.table.bucket i)
    | none => (s, bucket)

/-- Moves one pair. -/
def Rehash.move (s : Rehash V) (place : Place) : Rehash V :=
  let (s, bucket) := s.bucket P place.1
  { s with
    table := setIndex s.table (bucket, place.2) s.index.length
    index := s.index ++ [some (bucket, place.2)] }

/-- Moves everything to a table with room for twice as much. -/
def rehash (d : Dict V) (oldCapacity : ℕ) : Dict V × ℕ :=
  let capacity := max 1 (oldCapacity * 2)
  let s := d.index.reduceOption.foldl (Rehash.move P)
    { old := d.table
      table := .withCapacity (d.table.allocation + 1) capacity
      remap := List.replicate d.table.buckets none
      index := [] }
  ({ table := s.table, index := s.index, epoch := d.epoch + 1, totalPairs := d.totalPairs },
    capacity)

/-- The entry of a key. -/
def find (d : Dict V) (hash : Hash) (key : V) : Except E (Option Bucket) :=
  P.find d.table hash fun e => eq key e.key

/-- Inserts under a key that is there. -/
def insertAgain (d : Dict V) (bucket : Bucket) (value : V) (unique : Bool) : Dict V :=
  match d.table.read bucket with
  | none => d
  | some entry =>
    if unique then
      match entry.value with
      | .single _ index =>
        { d with table := d.table.modify bucket fun e => { e with value := .single value index } }
      | .multi [] => d
      | .multi ((_, index) :: items) =>
        { d with
          table := d.table.modify bucket fun e => { e with value := .single value index }
          index := items.foldl (fun slots item => slots.set item.2 none) d.index
          totalPairs := d.totalPairs - items.length }
    else
      let d := d.compact d.table.capacity
      { d with
        table := d.table.modify bucket fun e =>
          { e with value := e.value.push value d.index.length } }.append (bucket, entry.value.len)

/-- Inserts under a key that is not there. -/
def insertNew (d : Dict V) (key value : V) (hv : Hash) : Dict V :=
  let (d, cap) := if d.table.len = d.table.capacity then d.rehash P d.table.capacity
    else (d, d.table.capacity)
  let slot := P.place d.table hv
  let d := d.compact cap
  { d with
    table := d.table.insertAt slot
      { key, value := .single value d.index.length, hash := hv } }.append (d.table.bucket slot, 0)

/-- `Dict::insert`. With `unique`, the value replaces those that are there. -/
def insert (d : Dict V) (key value : V) (hv : Hash) (unique : Bool) : Except E (Dict V) :=
  (d.find P eq hv key).map fun
    | some bucket => d.insertAgain bucket value unique
    | none => d.insertNew P key value hv

/-- Takes an entry out, with all its pairs. -/
def erase (d : Dict V) (bucket : Bucket) : Dict V :=
  match d.table.read bucket with
  | none => d
  | some entry =>
    { table := d.table.remove bucket (P.frees d.table bucket)
      index := entry.value.items.foldl (fun slots item => slots.set item.2 none) d.index
      epoch := d.epoch + 1
      totalPairs := d.totalPairs - entry.value.len }

variable (hash : V → Except E Hash)

/-- `Dict::delete`. It says whether there was such a key. -/
def delete (d : Dict V) (key : V) : Except E (Dict V × Bool) := do
  let hv ← hash key
  (d.find P eq hv key).map fun
    | some bucket => (d.erase P bucket, true)
    | none => (d, false)

/-- `dict[key] = value`. -/
def opAssign (d : Dict V) (key value : V) : Except E (Dict V) := do
  let hv ← hash key
  (d.insert P eq key value hv true).map fun d => { d with epoch := d.epoch + 1 }

/-- `dict.insert key value`. -/
def mcallInsert (d : Dict V) (key value : V) : Except E (Dict V) := do
  let hv ← hash key
  (d.insert P eq key value hv false).map fun d => { d with epoch := d.epoch + 1 }

/-- `dict.clear`. -/
def mcallClear (d : Dict V) : Dict V where
  table := d.table.clear
  index := []
  epoch := d.epoch + 1
  totalPairs := 0

/-- Takes one of several instances out. The later ones move up, and the last one leaves no entry
behind. -/
def popItem (d : Dict V) (bucket : Bucket) (items : List (V × ℕ)) (subindex : ℕ) : Dict V :=
  let items' := items.eraseIdx subindex
  let index := match items[subindex]? with
    | some item => d.index.set item.2 none
    | none => d.index
  { table :=
      if items' = [] then d.table.remove bucket (P.frees d.table bucket)
      else d.table.modify bucket fun e => { e with value := .multi items' }
    index := (items'.zipIdx.drop subindex).foldl
      (fun slots item => slots.modify item.1.2 (Option.map fun place => (place.1, item.2))) index
    epoch := d.epoch + 1
    totalPairs := d.totalPairs - 1 }

/-- Takes an instance out of an entry, the first one unless another one is asked for. -/
def popAt (d : Dict V) (bucket : Bucket) (subindex : Option ℤ) : Option (Dict V × V) :=
  (d.table.read bucket).bind fun entry =>
    match entry.value with
    | .single value _ =>
      if subindex.elim (some 0) (element 1) = some 0 then some (d.erase P bucket, value) else none
    | .multi items =>
      (subindex.elim (some 0) (element items.length)).bind fun subindex =>
        items[subindex]?.map fun item => (d.popItem P bucket items subindex, item.1)

/-- `dict.pop key subindex`, up to the default. -/
def mcallPop (d : Dict V) (key : V) (subindex : Option ℤ) : Except E (Option (Dict V × V)) := do
  let hv ← hash key
  (d.find P eq hv key).map fun bucket => bucket.bind fun bucket => d.popAt P bucket subindex

end Probing

end Dict

end Dolang.Object
