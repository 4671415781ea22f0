import Mathlib.Data.List.Sort
import Dolang.Lib.OrderedSet
import Dolang.Lib.Service
import Dolang.Object.Lookup
import Dolang.Object.ValueSet

/-!
# Set algebra

The methods of sets in `object/set.rs` that read one or two sets: membership, copies, unions,
intersections, differences and the comparisons of sets, with `op_eq` and `op_hash`. Any number of
sets answers the requests of a program, which names each by its number; a method that makes a set
makes another one.

Lists without repetitions answer the same requests, each by what it means for sets in the order of
insertion.
-/

namespace Dolang.Object

variable {V E : Type}

/-- A request to some sets, which are given by their numbers. -/
inductive SetRequest (V : Type) where
  | make
  | add (set : ℕ) (value : V)
  | delete (set : ℕ) (value : V)
  | clear (set : ℕ)
  | copy (set : ℕ)
  | contains (set : ℕ) (value : V)
  | len (set : ℕ)
  | union (left right : ℕ)
  | intersect (left right : ℕ)
  | diff (left right : ℕ)
  | symDiff (left right : ℕ)
  | isSubset (left right : ℕ)
  | isSuperset (left right : ℕ)
  /-- `left == right`. -/
  | equal (left right : ℕ)
  /-- What a set feeds to a hasher, after the symbol of sets and the number of digests. -/
  | hash (set : ℕ)

/-- The answer to a request. -/
inductive SetAnswer where
  | done
  | flag (found : Bool)
  | number (count : ℕ)
  | digests (hashes : List Hash)
  deriving DecidableEq

/-- The element of a request. -/
def SetRequest.value? : SetRequest V → Option V
  | .add _ value | .delete _ value | .contains _ value => some value
  | _ => none

/-- Sorts digests, which are numbers of 64 bits. -/
def sortDigests (digests : List Hash) : List Hash :=
  digests.insertionSort fun a b => a.toNat ≤ b.toNat

/-! ### Tables -/

namespace ValueSet

section

variable (P : Probing (Member V) E Member.hash) (els : Elements V E)

/-- The members with their hashes, in the order of insertion. -/
def entries (s : ValueSet V) : List (V × Hash) :=
  s.order.reduceOption.filterMap fun b => (s.inner.read b).map fun m => (m.value, m.hash)

/-- `contains`. -/
def contains (s : ValueSet V) (value : V) (hash : Hash) : Except E Bool :=
  (s.find P els.eq hash value).map Option.isSome

/-- `insert_known_unique`, which neither looks for the value nor drops the holes. -/
def insertKnownUnique (s : ValueSet V) (value : V) (hash : Hash) : ValueSet V :=
  let s := s.reserve P
  let slot := P.place s.inner hash
  { s with
    inner := s.inner.insertAt slot { value, hash, index := s.order.length }
    order := s.order ++ [some (s.inner.bucket slot)] }

def cloned (s : ValueSet V) : ValueSet V :=
  s.entries.foldl (fun set m => set.insertKnownUnique P m.1 m.2) new

/-- Inserts the members that `keep` says so of. -/
def extendBy (keep : V → Hash → Except E Bool) (s : ValueSet V) (members : List (V × Hash)) :
    Except E (ValueSet V) :=
  members.foldlM (fun s m => do
    if ← keep m.1 m.2 then (s.insert P els.eq m.1 m.2).map Prod.fst else pure s) s

/-- `extend_from`. -/
def extendFrom (s other : ValueSet V) : Except E (ValueSet V) :=
  extendBy P els (fun _ _ => .ok true) s other.entries

def union (left right : ValueSet V) : Except E (ValueSet V) :=
  (left.cloned P).extendFrom P els right

def intersect (left right : ValueSet V) : Except E (ValueSet V) :=
  extendBy P els (right.contains P els) new left.entries

def diff (left right : ValueSet V) : Except E (ValueSet V) :=
  extendBy P els (fun value hash => (right.contains P els value hash).map not) new left.entries

def symDiff (left right : ValueSet V) : Except E (ValueSet V) := do
  extendBy P els (fun value hash => (left.contains P els value hash).map not)
    (← left.diff P els right) right.entries

/-- The members in the order of the table. -/
def stored (s : ValueSet V) : List (Member V) :=
  s.inner.iter.filterMap s.inner.read

/-- Whether `right` has all members of `left`. -/
def isSubset (left right : ValueSet V) : Except E Bool :=
  left.stored.allM fun m => right.contains P els m.value m.hash

/-- `op_eq`. -/
def opEq (left right : ValueSet V) : Except E Bool :=
  if left.inner.len ≠ right.inner.len then .ok false else left.isSubset P els right

/-- `op_hash`, up to the symbol of sets and the number of digests. -/
def opHash (s : ValueSet V) : Except E (List Hash) :=
  (s.stored.mapM fun m => els.hash m.value).map sortDigests

end

end ValueSet

/-- Answers a request that changes one set. -/
def changeSet {S : Type} (sets : List S) (i : ℕ) (f : S → Except E (S × SetAnswer)) :
    Except E (List S × SetAnswer) :=
  match sets[i]? with
  | some s => (f s).map fun r => (sets.set i r.1, r.2)
  | none => .ok (sets, .done)

/-- Answers a request that reads one set. -/
def readSet {S : Type} (sets : List S) (i : ℕ) (f : S → Except E SetAnswer) :
    Except E (List S × SetAnswer) :=
  match sets[i]? with
  | some s => (f s).map (sets, ·)
  | none => .ok (sets, .done)

/-- Answers a request that makes a set from another one. -/
def copySet {S : Type} (sets : List S) (i : ℕ) (f : S → Except E S) :
    Except E (List S × SetAnswer) :=
  match sets[i]? with
  | some s => (f s).map fun s => (sets ++ [s], .done)
  | none => .ok (sets, .done)

/-- Answers a request that makes a set from two. -/
def makeSet {S : Type} (sets : List S) (i j : ℕ) (f : S → S → Except E S) :
    Except E (List S × SetAnswer) :=
  copySet sets i fun l =>
    match sets[j]? with
    | some r => f l r
    | none => .ok l

/-- Answers a request that compares two sets. -/
def compareSets {S : Type} (sets : List S) (i j : ℕ) (f : S → S → Except E Bool) :
    Except E (List S × SetAnswer) :=
  readSet sets i fun l =>
    match sets[j]? with
    | some r => (f l r).map .flag
    | none => .ok .done

namespace ValueSet

variable (P : Probing (Member V) E Member.hash) (els : Elements V E) (sets : List (ValueSet V))

def request : SetRequest V → Except E (List (ValueSet V) × SetAnswer)
  | .make => .ok (sets ++ [new], .done)
  | .add i value => changeSet sets i fun s => do
    let hash ← els.hash value
    return ((← s.insert P els.eq value hash).1, .done)
  | .delete i value => changeSet sets i fun s => do
    let hash ← els.hash value
    (s.delete P els.eq value hash).map fun r => (r.1, .flag r.2)
  | .clear i => changeSet sets i fun s => .ok (s.clear, .done)
  | .copy i => copySet sets i fun s => .ok (s.cloned P)
  | .contains i value => readSet sets i fun s => do
    let hash ← els.hash value
    (s.contains P els value hash).map .flag
  | .len i => readSet sets i fun s => .ok (.number s.inner.len)
  | .union i j => makeSet sets i j (union P els)
  | .intersect i j => makeSet sets i j (intersect P els)
  | .diff i j => makeSet sets i j (diff P els)
  | .symDiff i j => makeSet sets i j (symDiff P els)
  | .isSubset i j => compareSets sets i j (isSubset P els)
  | .isSuperset i j => compareSets sets i j fun l r => r.isSubset P els l
  | .equal i j => compareSets sets i j (opEq P els)
  | .hash i => readSet sets i fun s => (s.opHash els).map .digests

/-- Answers a request. -/
def serve (r : SetRequest V) : List (ValueSet V) × Except E SetAnswer :=
  match request P els sets r with
  | .ok (sets, answer) => (sets, .ok answer)
  | .error e => (sets, .error e)

end ValueSet

/-! ### Lists -/

namespace Elems

variable (els : Elements V E) (sets : List (List V))

/-- The digests of some elements, sorted. -/
def digests (l : List V) : Except E (List Hash) :=
  (l.mapM els.hash).map sortDigests

/-- What a request means for sets in the order of insertion. -/
def request : SetRequest V → Except E (List (List V) × SetAnswer)
  | .make => .ok (sets ++ [[]], .done)
  | .add i value => changeSet sets i fun l => .ok (OrderedSet.add els.same l value, .done)
  | .delete i value => changeSet sets i fun l =>
    .ok (OrderedSet.erase els.same l value, .flag (OrderedSet.has els.same l value))
  | .clear i => changeSet sets i fun _ => .ok ([], .done)
  | .copy i => copySet sets i .ok
  | .contains i value => readSet sets i fun l => .ok (.flag (OrderedSet.has els.same l value))
  | .len i => readSet sets i fun l => .ok (.number l.length)
  | .union i j => makeSet sets i j fun l r => .ok (OrderedSet.union els.same l r)
  | .intersect i j => makeSet sets i j fun l r => .ok (OrderedSet.inter els.same l r)
  | .diff i j => makeSet sets i j fun l r => .ok (OrderedSet.diff els.same l r)
  | .symDiff i j => makeSet sets i j fun l r => .ok (OrderedSet.symmDiff els.same l r)
  | .isSubset i j => compareSets sets i j fun l r => .ok (OrderedSet.subset els.same l r)
  | .isSuperset i j => compareSets sets i j fun l r => .ok (OrderedSet.subset els.same r l)
  | .equal i j => compareSets sets i j fun l r => .ok (OrderedSet.equal els.same l r)
  | .hash i => readSet sets i fun l => (digests els l).map .digests

/-- Answers a request. -/
def serve (r : SetRequest V) : List (List V) × Except E SetAnswer :=
  match request els sets r with
  | .ok (sets, answer) => (sets, .ok answer)
  | .error e => (sets, .error e)

end Elems

end Dolang.Object
