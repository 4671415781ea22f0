import Dolang.Lib.Service
import Dolang.Object.Numbered

/-!
# Dictionaries as multimaps

A dictionary is a service that answers the requests of a program: `Dict::get` and the `mcall_*`
functions of `object/dict.rs`, with `op_index`, `op_assign` and the field `len`. A `Multimap`
answers the same requests, by what they mean for pairs in the order of their insertion. An error of
an element leaves either as it was.

A default that a request carries for a key that is not there is left to the caller.
-/

namespace Dolang.Object

open Dolang.Runtime (element)

variable {V E : Type}

/-- A request to a dictionary. -/
inductive Request (V : Type) where
  | insert (key value : V)
  /-- `dict[key] = value`. -/
  | assign (key value : V)
  | delete (key : V)
  | pop (key : V) (subindex : Option ℤ)
  | clear
  /-- Goes on with a copy. -/
  | copy
  | get (key : V) (subindex : Option ℤ)
  /-- `dict[key]`. -/
  | index (key : V)
  | contains (key : V) (value : Option V)
  | count (key : V)
  | len
  deriving DecidableEq

/-- The answer to a request. -/
inductive Answer (V : Type) where
  | done
  | flag (found : Bool)
  | value (value : Option V)
  | number (count : ℕ)
  deriving DecidableEq

/-- The key of a request. -/
def Request.key? : Request V → Option V
  | .insert key _ | .assign key _ | .delete key | .pop key _ | .get key _ | .index key
  | .contains key _ | .count key => some key
  | .clear | .copy | .len => none

/-! ### The dictionary -/

namespace Dict

section

variable (P : Probing (Entry V) E Entry.hash) (els : Elements V E) (d : Dict V)

/-- The entry of a key, by its hash. -/
def entry (key : V) : Except E (Option (Entry V)) := do
  let hv ← els.hash key
  (d.find P els.eq hv key).map fun found => found.bind d.table.read

/-- `Dict::get`: an instance of a key, or the one that was inserted last. -/
def getInstance (key : V) (instance' : Option ℤ) : Except E (Option V) :=
  (d.entry P els key).map fun found => found.bind fun entry =>
    match instance' with
    | some i => (element entry.value.len i).bind fun i => entry.value.get (some i)
    | none => entry.value.get none

/-- `dict[key]`. -/
def opIndex (key : V) : Except E (Option V) :=
  (d.entry P els key).map fun found => found.bind fun entry => entry.value.get none

/-- `dict.contains key value`. -/
def mcallContains (key : V) (value : Option V) : Except E Bool := do
  match ← d.entry P els key, value with
  | none, _ => return false
  | some _, none => return true
  | some entry, some value => entry.value.items.anyM fun item => els.eq item.1 value

/-- `dict.count key`. -/
def mcallCount (key : V) : Except E ℕ :=
  (d.entry P els key).map fun found => found.elim 0 fun entry => entry.value.len

/-- `dict.copy`: puts every pair in again, in the order of the index. -/
def copy : Except E (Dict V) :=
  d.rows.foldlM (fun copy x => copy.insert P els.eq x.key x.value x.hash false) new

def request : Request V → Except E (Dict V × Answer V)
  | .insert key value => (d.mcallInsert P els.eq els.hash key value).map (·, .done)
  | .assign key value => (d.opAssign P els.eq els.hash key value).map (·, .done)
  | .delete key => (d.delete P els.eq els.hash key).map fun r => (r.1, .flag r.2)
  | .pop key subindex => (d.mcallPop P els.eq els.hash key subindex).map fun r =>
    (r.elim d Prod.fst, .value (r.map Prod.snd))
  | .clear => .ok (d.mcallClear, .done)
  | .copy => (d.copy P els).map (·, .done)
  | .get key subindex => (d.getInstance P els key subindex).map fun value => (d, .value value)
  | .index key => (d.opIndex P els key).map fun value => (d, .value value)
  | .contains key value => (d.mcallContains P els key value).map fun found => (d, .flag found)
  | .count key => (d.mcallCount P els key).map fun count => (d, .number count)
  | .len => .ok (d, .number d.totalPairs)

/-- Answers a request. -/
def serve (r : Request V) : Dict V × Except E (Answer V) :=
  match d.request P els r with
  | .ok (d, answer) => (d, .ok answer)
  | .error e => (d, .error e)

end

end Dict

/-! ### The multimap -/

namespace Pairs

section

variable (els : Elements V E) (m : Multimap V V)

/-- Which instance of a key is meant, when it is there. -/
def pick (key : V) (subindex : ℤ) : Option ℕ :=
  element (m.values els.same key).length subindex

/-- The instance of a key that is popped, with its value: the first one unless another one is asked
for. -/
def popped (key : V) (subindex : Option ℤ) : Option (ℕ × V) :=
  (subindex.elim (some 0) (pick els m key)).bind fun i =>
    ((m.values els.same key)[i]?).map (i, ·)

/-- What a request means for pairs. -/
def request : Request V → Except E (Multimap V V × Answer V)
  | .insert key value => .ok (m.insert els.same key value, .done)
  | .assign key value => .ok (m.assign els.same key value, .done)
  | .delete key => .ok (m.delete els.same key, .flag (m.any fun pair => els.same key pair.1))
  | .pop key subindex =>
    match popped els m key subindex with
    | some (i, value) => .ok (m.remove els.same key i, .value (some value))
    | none => .ok (m, .value none)
  | .clear => .ok ([], .done)
  | .copy => .ok (m, .done)
  | .get key (some subindex) =>
    .ok (m, .value ((pick els m key subindex).bind ((m.values els.same key)[·]?)))
  | .get key none | .index key => .ok (m, .value (m.values els.same key).getLast?)
  | .contains key none => .ok (m, .flag (m.any fun pair => els.same key pair.1))
  | .contains key (some value) =>
    ((m.values els.same key).anyM fun v => els.eq v value).map fun found => (m, .flag found)
  | .count key => .ok (m, .number (m.values els.same key).length)
  | .len => .ok (m, .number m.length)

/-- Answers a request. -/
def serve (r : Request V) : Multimap V V × Except E (Answer V) :=
  match request els m r with
  | .ok (m, answer) => (m, .ok answer)
  | .error e => (m, .error e)

end

end Pairs

end Dolang.Object
