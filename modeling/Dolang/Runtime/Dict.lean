import Dolang.Lib.System
import Dolang.Runtime.Prim

/-!
# Dictionaries and sets

The tables of `object/dict.rs` and `object/set.rs`, on primitive keys. A table is the list of its
entries, each with the hash under which it was put in. The raw table that holds them is a parameter
(`Probing`): it finds an entry that is equal to a key, if there is one under the key's hash. It may
come upon one under another hash too.
-/

namespace Dolang.Runtime

abbrev Hash := BitVec 64

/-- An entry of a table. -/
structure Entry (V : Type) where
  key : Prim
  value : V
  hash : Hash
  deriving DecidableEq

/-- A raw table, as far as probing goes. -/
structure Probing (V : Type) where
  /-- The place of an entry that satisfies a condition, for the hash that it should have. -/
  find : List (Entry V) → Hash → (Entry V → Bool) → Option ℕ
  found : ∀ {table hash p i}, find table hash p = some i → ∃ e, table[i]? = some e ∧ p e = true
  complete : ∀ {table hash p}, find table hash p = none →
    ∀ e ∈ table, e.hash = hash → p e = false

/-- A table, with the hasher of its virtual machine and its raw table. -/
structure Tables (V : Type) where
  /-- What the hasher makes of what it is fed. -/
  finish : List Prim.Write → Hash
  probing : Probing V

namespace Tables

variable {V : Type} (T : Tables V)

/-- The hash of a key. -/
def hash (key : Prim) : Hash :=
  T.finish key.opHash

/-- Where a table holds a key. -/
def find (table : List (Entry V)) (key : Prim) : Option ℕ :=
  T.probing.find table (T.hash key) fun e => key.opEq e.key

/-- Changes the value under a key, or adds an entry for it. -/
def upsert (table : List (Entry V)) (key : Prim) (fresh : V) (update : V → V) : List (Entry V) :=
  match T.find table key with
  | some i => table.modify i fun e => { e with value := update e.value }
  | none => table ++ [{ key, value := fresh, hash := T.hash key }]

/-- Erases the entry of a key. -/
def delete (table : List (Entry V)) (key : Prim) : List (Entry V) :=
  match T.find table key with
  | some i => table.eraseIdx i
  | none => table

/-- What happens to a table. -/
inductive Action (V : Type) where
  | upsert (key : Prim) (fresh : V) (update : V → V)
  | delete (key : Prim)
  | clear
  /-- The entries move to another raw table, each under its own hash. -/
  | rehash (table : List (Entry V))

def next (table : List (Entry V)) : Action V → List (Entry V) → Prop
  | .upsert key fresh update, table' => table' = T.upsert table key fresh update
  | .delete key, table' => table' = T.delete table key
  | .clear, table' => table' = []
  | .rehash entries, table' => entries.Perm table ∧ table' = entries

/-- A table that starts out empty. -/
def system : System (List (Entry V)) (Action V) where
  start table := table = []
  next := T.next

/-- Each entry has the hash of its key. -/
def Hashed (table : List (Entry V)) : Prop :=
  ∀ e ∈ table, e.hash = T.hash e.key

variable {T}

theorem Hashed.upsert {table : List (Entry V)} (h : T.Hashed table) (key : Prim) (fresh : V)
    (update : V → V) : T.Hashed (T.upsert table key fresh update) := by
  unfold Tables.upsert
  cases T.find table key with
  | none =>
    intro e he
    obtain he | he := List.mem_append.mp he
    · exact h e he
    · obtain rfl := List.mem_singleton.mp he
      rfl
  | some i =>
    intro e he
    obtain ⟨j, hj⟩ := List.mem_iff_getElem?.mp he
    rw [List.getElem?_modify] at hj
    obtain ⟨e', he', rfl⟩ := Option.map_eq_some_iff.mp hj
    have hmem := h e' (List.mem_of_getElem? he')
    split_ifs <;> exact hmem

theorem Hashed.delete {table : List (Entry V)} (h : T.Hashed table) (key : Prim) :
    T.Hashed (T.delete table key) := by
  unfold Tables.delete
  cases T.find table key with
  | none => exact h
  | some i => exact fun e he => h e (List.mem_of_mem_eraseIdx he)

/-- In whatever order the entries came in, each has the hash of its key. -/
theorem hashed_of_reachable {table : List (Entry V)} (h : T.system.Reachable table) :
    T.Hashed table := by
  refine h.invariant ?_ ?_
  · rintro table rfl
    exact fun e he => absurd he List.not_mem_nil
  · intro table a table' htable _ hn
    cases a with
    | upsert key fresh update => exact hn ▸ htable.upsert key fresh update
    | delete key => exact hn ▸ htable.delete key
    | clear => exact hn ▸ fun e he => absurd he List.not_mem_nil
    | rehash entries =>
      obtain ⟨hperm, rfl⟩ := hn
      exact fun e he => htable e (hperm.mem_iff.mp he)

/-- A key is found under one that is equal to it and that the hasher takes for the same. -/
theorem find_ne_none {table : List (Entry V)} (h : T.Hashed table) {e : Entry V} (he : e ∈ table)
    {key : Prim} (heq : key.opEq e.key = true) (hhash : key.opHash = e.key.opHash) :
    T.find table key ≠ none := by
  intro hnone
  have hkey : e.hash = T.hash key := (h e he).trans (congrArg T.finish hhash.symm)
  have hfalse := T.probing.complete hnone e he hkey
  simp [heq] at hfalse

end Tables

/-- The values of an entry of a dictionary, in the order in which they were inserted. -/
abbrev EntryValue (V : Type) := { values : List V // values ≠ [] }

/-- The value at an index, the latest one by default. -/
def EntryValue.get {V : Type} (value : EntryValue V) (index : Option ℕ) : Option V :=
  value.val[index.getD (value.val.length - 1)]?

/-- An index that counts from the end when it is negative, `index::element`. -/
def element (len : ℕ) (index : ℤ) : Option ℕ :=
  let index := if index < 0 then len + index else index
  if 0 ≤ index ∧ index < len then some index.toNat else none

/-- A dictionary. -/
abbrev Dict (V : Type) := List (Entry (EntryValue V))

namespace Dict

variable {V : Type} (T : Tables (EntryValue V))

/-- The value of a key, or the instance of it that is asked for. -/
def get (dict : Dict V) (key : Prim) (nth : Option ℤ) : Option V :=
  (T.find dict key).bind fun i => dict[i]?.bind fun e =>
    match nth with
    | none => e.value.get none
    | some nth => (element e.value.val.length nth).bind fun index => e.value.get (some index)

/-- Inserts a value, which replaces those that are there when the key is unique. -/
def insert (dict : Dict V) (key : Prim) (value : V) (unique : Bool) : Dict V :=
  T.upsert dict key ⟨[value], List.cons_ne_nil _ _⟩ fun values =>
    if unique then ⟨[value], List.cons_ne_nil _ _⟩
    else ⟨values.val ++ [value], by simp⟩

/-- A key that is found has a value. -/
theorem get_ne_none {dict : Dict V} {key : Prim} (h : T.find dict key ≠ none) :
    get T dict key none ≠ none := by
  obtain ⟨i, hi⟩ := Option.ne_none_iff_exists'.mp h
  obtain ⟨e, he, -⟩ := T.probing.found hi
  have hlen := List.length_pos_iff.mpr e.value.property
  simp only [get, hi, he, EntryValue.get, Option.bind_some, Option.getD_none, ne_eq]
  rw [List.getElem?_eq_none_iff]
  omega

/-- An insertion is a step of the table. -/
theorem insert_next (dict : Dict V) (key : Prim) (value : V) (unique : Bool) :
    ∃ a, T.next dict a (insert T dict key value unique) :=
  ⟨.upsert key _ _, rfl⟩

end Dict

/-- A set: its members are the keys of a table. -/
abbrev ValueSet := List (Entry Unit)

namespace ValueSet

variable (T : Tables Unit)

def contains (set : ValueSet) (value : Prim) : Bool :=
  (T.find set value).isSome

/-- Adds a member, unless it is one. -/
def insert (set : ValueSet) (value : Prim) : ValueSet :=
  T.upsert set value () id

theorem insert_next (set : ValueSet) (value : Prim) : ∃ a, T.next set a (insert T set value) :=
  ⟨.upsert value () id, rfl⟩

end ValueSet

/-- Equal keys hash equally, and a table that holds one finds it under the other, exactly when the
two are not the same number in two representations: equality goes by the number, the hash by the
representation. -/
theorem found_iff_not_twins {a b : Prim} (ha : a.Proper) (hb : b.Proper) :
    ((b.opEq a = true → b.opHash = a.opHash) ∧
      (∀ (V : Type) (T : Tables (EntryValue V)) (dict : Dict V), T.system.Reachable dict →
        (∃ e ∈ dict, e.key = a) → b.opEq a = true → dict.get T b none ≠ none) ∧
      ∀ (T : Tables Unit) (set : ValueSet), T.system.Reachable set →
        (∃ e ∈ set, e.key = a) → b.opEq a = true → set.contains T b = true) ↔
      ¬Prim.Twins b a := by
  refine ⟨fun h => (Prim.opHash_iff hb ha).mp h.1, fun h => ?_⟩
  have hhash := (Prim.opHash_iff hb ha).mpr h
  refine ⟨hhash, fun V T dict hreach hheld heq => ?_, fun T set hreach hheld heq => ?_⟩
  · obtain ⟨e, he, rfl⟩ := hheld
    exact Dict.get_ne_none T
      (Tables.find_ne_none (Tables.hashed_of_reachable hreach) he heq (hhash heq))
  · obtain ⟨e, he, rfl⟩ := hheld
    exact Option.isSome_iff_ne_none.mpr
      (Tables.find_ne_none (Tables.hashed_of_reachable hreach) he heq (hhash heq))

/-- A raw table that is probed from end to end. -/
def Probing.linear (V : Type) : Probing V where
  find table hash p := table.findIdx? fun e => e.hash == hash && p e
  found := by
    intro table hash p i h
    obtain ⟨hlt, hp, -⟩ := List.findIdx?_eq_some_iff_getElem.mp h
    rw [Bool.and_eq_true] at hp
    exact ⟨table[i], List.getElem?_eq_getElem hlt, hp.2⟩
  complete := by
    intro table hash p h e he hhash
    have hnone := List.findIdx?_eq_none_iff.mp h e he
    simpa [hhash] using hnone

/-- A hasher that keeps the last of what it is fed. -/
def lastWrite (writes : List Prim.Write) : Hash :=
  match writes.getLast? with
  | some (.u64 n) => n
  | some (.i128 n) => n.setWidth 64
  | some (.u8 n) | some (.isize n) => n
  | none => 0

/-- The tables with that hasher. -/
def Tables.linear (V : Type) : Tables V where
  finish := lastWrite
  probing := .linear V

/-- A dictionary finds the key `7` that it holds. -/
theorem found_seven :
    (Dict.insert (.linear _) [] (.int 7) true false).get (.linear _) (.int 7) none ≠ none := by
  have hreach : (Tables.linear (EntryValue Bool)).system.Reachable
      (Dict.insert (.linear _) [] (.int 7) true false) := by
    obtain ⟨a, ha⟩ := Dict.insert_next (.linear _) [] (.int 7) true false
    exact .step (.start rfl) trivial ha
  exact ((found_iff_not_twins (a := .int 7) (b := .int 7) trivial trivial).mpr id).2.1 Bool _ _
    hreach ⟨_, List.mem_singleton_self _, rfl⟩ rfl

/-- The float `1.0` is equal to the integer `1`, but it is hashed otherwise and a dictionary that
holds the integer does not find it; and so for the two zeros. -/
theorem one_not_found :
    Prim.opEq (.f64 ⟨0x3ff0000000000000⟩) (.int 1) = true ∧
      Prim.opHash (.f64 ⟨0x3ff0000000000000⟩) ≠ Prim.opHash (.int 1) ∧
      (Dict.insert (.linear _) [] (.int 1) true false).get (.linear _)
        (.f64 ⟨0x3ff0000000000000⟩) none = none ∧
      Prim.opEq (.f64 ⟨0⟩) (.f64 ⟨0x8000000000000000⟩) = true ∧
      Prim.opHash (.f64 ⟨0⟩) ≠ Prim.opHash (.f64 ⟨0x8000000000000000⟩) := by
  decide +kernel

end Dolang.Runtime
