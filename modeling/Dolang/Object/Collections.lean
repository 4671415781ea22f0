import Dolang.Object.Iterators
import Dolang.Object.ValueSet

/-!
# Collections with iterators

Dictionaries and sets as stores with any number of iterators, along any run of their operations and
of calls of `next`. A call of `next` raises a concurrency error, or it continues the listing of the
collection for which the iterator was made (`Continues`). For dictionaries this needs that no
iterator is at work when the host interface inserts a pair (`Unobserved`).
-/

namespace Dolang.Object

open FailFast

variable {V E : Type}

/-- A call of `next` by an iterator that has a fixed list of elements to yield: it says that the
collection has been modified, or it yields the next element of the list, or it ends when all of them
have been yielded. It raises no other error. -/
def Continues {α ε : Type} (elements yielded : List α) : Except (Failure ε) (Option α) → Prop
  | .error .modified => True
  | .error (.raised _) => False
  | .ok (some a) => ∃ rest, elements = yielded ++ a :: rest
  | .ok none => elements = yielded

/-- An iterator that reads what it was made for, and goes through a listing of it, continues the
listing. -/
theorem continues_of_sound {S M W C α ε : Type} {F : FailFast S M W C α ε} {s : S}
    {k : Cursor S C α} {good : C → Prop} {listing : C → List α} (hk : k.Sound F s)
    (hlists : Lists F k.made good listing) (hstart : good k.start) (w : W) :
    Continues (listing k.start) k.yielded (Cursor.read F w s k).1 := by
  obtain ⟨hgood, hlisting⟩ := hlists.reads hstart hk.reads
  obtain hmodified | ⟨-, hread⟩ := hk.read_eq (w := w)
  · rw [hmodified]
    trivial
  · rw [hread, hlisting]
    cases hnext : F.next w k.made k.position with
    | mk result c =>
      cases result with
      | error e => exact absurd (by rw [hnext]) (hlists.total (w := w) (e := e) hgood)
      | ok out =>
        cases out with
        | none =>
          obtain ⟨hleft, -⟩ := hlists.none hgood hnext
          rw [hleft]
          exact List.append_nil _
        | some a =>
          rw [hlists.some hgood hnext]
          exact ⟨_, rfl⟩

/-! ## Dictionaries -/

namespace Dict

/-- An operation, with what the elements answer during it. -/
abbrev Change (V E : Type) := Op V × Elements V E

variable (P : Probing (Entry V) E Entry.hash)

/-- What an operation leaves of a dictionary. One that fails changes nothing. -/
def change (m : Change V E) (d : Dict V) : Dict V :=
  match m.1.run P m.2 d with
  | .ok d' => d'
  | .error _ => d

/-- A change is a run of the operation or nothing at all. -/
theorem change_cases (m : Change V E) (d : Dict V) :
    m.1.run P m.2 d = .ok (change P m d) ∨ change P m d = d := by
  unfold change
  cases hrun : m.1.run P m.2 d with
  | ok d' => exact .inl rfl
  | error e => exact .inr rfl

/-- A dictionary as a store that iterators read. -/
def failFast : FailFast (Dict V) (Change V E) (Elements V E) (Position V) (Item V) (Fault E) where
  valid := WellFormed
  epoch := Dict.epoch
  change := change P
  valid_change := by
    intro d m hd
    obtain hrun | hsame := change_cases P m d
    · exact hd.run hrun
    · rwa [hsame]
  epoch_le := by
    intro d m _
    obtain hrun | hsame := change_cases P m d
    · exact epoch_run hrun
    · rw [hsame]
  good := goodPosition
  next := next P
  good_next := by
    intro els d c hd hc
    by_cases hp : c.plain
    · exact (next_snapshot P els hd hc hp).1
    · cases c with
      | rest state =>
        rw [next]
        generalize state.nextPair P els d = r
        obtain ⟨result, state'⟩ := r
        cases result with
        | error x => trivial
        | ok out => cases out <;> trivial
      | _ => exact absurd trivial hp

/-- Iterators that are not rests go through the snapshot. -/
theorem lists_snapshot {d : Dict V} (hd : d.WellFormed) :
    Lists (failFast P) d (fun c => goodPosition d c ∧ c.plain) (snapshot d) where
  kept := by
    rintro els c ⟨hc, hp⟩
    obtain ⟨hc', hp', -⟩ := next_snapshot P els hd hc hp
    exact ⟨hc', hp'⟩
  some := by
    rintro els c a c' ⟨hc, hp⟩ (hnext : next P els d c = _)
    obtain ⟨-, -, ⟨a', ha, hlist⟩ | ⟨hnone, -, -⟩⟩ := next_snapshot P els hd hc hp
    · rw [hnext] at ha hlist
      obtain rfl := Option.some.inj (Except.ok.inj ha)
      exact hlist
    · rw [hnext] at hnone
      cases hnone
  none := by
    rintro els c c' ⟨hc, hp⟩ (hnext : next P els d c = _)
    obtain ⟨-, -, ⟨a', ha, hlist⟩ | ⟨-, hlist⟩⟩ := next_snapshot P els hd hc hp
    · rw [hnext] at ha
      cases ha
    · rw [hnext] at hlist
      exact hlist
  total := by
    rintro els c e ⟨hc, hp⟩ (hnext : (next P els d c).1 = _)
    obtain ⟨-, -, ⟨a', ha, -⟩ | ⟨hnone, -, -⟩⟩ := next_snapshot P els hd hc hp
    · rw [hnext] at ha
      cases ha
    · rw [hnext] at hnone
      cases hnone

/-- The states and the actions of a dictionary with iterators. -/
abbrev Iterated (V : Type) := State (Dict V) (Position V) (Item V)

abbrev Iteration (V E : Type) := Action (Change V E) (Elements V E) (Position V)

/-- The host interface inserts a pair only when no iterator has the epoch of the dictionary, unless
the insertion fails or the pair has a new key for which the dictionary is full, so that it moves to
a new table. -/
def Unobserved (st : Iterated V) : Iteration V E → Prop
  | .change (.nativeInsert key _ _, els) =>
    (∀ k ∈ st.cursors, k.epoch ≠ st.store.epoch) ∨
      ∀ hv found, els.hash key = .ok hv → st.store.find P els.eq hv key = .ok found →
        found = none ∧ st.store.table.len = st.store.table.capacity
  | _ => True

/-- An insertion of a new key into a full dictionary raises the epoch. -/
theorem epoch_insertNew_full {d : Dict V} (hfull : d.table.len = d.table.capacity) (key value : V)
    (hv : Hash) : d.epoch < (d.insertNew P key value hv).epoch := by
  rw [insertNew, if_pos hfull]
  change d.epoch < ((d.rehash P d.table.capacity).1.compact _).epoch
  rw [epoch_compact]
  exact Nat.lt_succ_self _

variable {P}

/-- The changes that the condition allows are quiet. -/
theorem Unobserved.quiet {st : Iterated V} {m : Change V E} (h : Unobserved P st (.change m)) :
    (failFast P).Quiet st.store st.cursors (change P m st.store) := by
  obtain ⟨op, els⟩ := m
  obtain hrun | hsame := change_cases P (op, els) st.store
  · by_cases hop : ∀ key value unique, op ≠ .nativeInsert key value unique
    · exact (quiet_of_run hrun hop).imp_right .inl
    · push Not at hop
      obtain ⟨key, value, unique, rfl⟩ := hop
      obtain hnone | hnew := h
      · exact .inr (.inr hnone)
      · obtain ⟨hv, hhash, hi⟩ := bind_ok hrun
        obtain ⟨found, hf, hd'⟩ := map_ok hi
        obtain ⟨rfl, hfull⟩ := hnew hv found hhash hf
        refine .inr (.inl ?_)
        dsimp only at hd'
        rw [← hd']
        exact epoch_insertNew_full P hfull key value hv
  · exact .inl hsame

/-- The keys, one for each entry. -/
def keys (d : Dict V) : List V :=
  d.table.iter.filterMap fun b => (d.table.read b).map Entry.key

/-- What a call of `next` by an iterator does, whatever the elements answer during it: iterators
that are not rests continue the listing of the dictionary that they were made for, and a key
iterator lists each key once. A rest goes on in that dictionary, from where it has come there.
Nothing is read that is not there. -/
structure FailsFast (P : Probing (Entry V) E Entry.hash) (st : Iterated V)
    (k : Cursor (Dict V) (Position V) (Item V)) (els : Elements V E) : Prop where
  listed : k.start.plain →
    Continues (snapshot k.made k.start) k.yielded (Cursor.read (failFast P) els st.store k).1
  keys : k.start = .keys 0 (List.replicate k.made.table.buckets false) →
    (snapshot k.made k.start).Perm (k.made.keys.map .key)
  rest : (Cursor.read (failFast P) els st.store k).1 = .error .modified ∨
    st.store = k.made ∧ (failFast P).Reads k.made k.start k.yielded k.position ∧
      (Cursor.read (failFast P) els st.store k).1 =
        (next P els k.made k.position).1.mapError .raised
  pointers : (Cursor.read (failFast P) els st.store k).1 ≠ .error (.raised .undefined)

/-- An iterator that reads what it was made for is fail-fast. -/
theorem failsFast_of_sound {st : Iterated V} {k : Cursor (Dict V) (Position V) (Item V)}
    (hk : k.Sound (failFast P) st.store) (els : Elements V E) : FailsFast P st k els where
  listed hp := continues_of_sound hk (lists_snapshot P hk.valid) ⟨hk.good_start, hp⟩ els
  keys hkeys := by
    rw [hkeys, snapshot, List.drop_zero, Dict.keys, List.map_filterMap]
    have hperm := (unvisited_perm hk.valid).filterMap
      fun b => (k.made.table.read b).map fun e => (Item.key e.key : Item V)
    simpa only [Option.map_map, Function.comp_def] using hperm
  rest := (hk.read_eq (w := els)).imp_right fun ⟨hsame, hread⟩ => ⟨hsame, hk.reads, hread⟩
  pointers hread := by
    obtain hmodified | ⟨-, heq⟩ := hk.read_eq (w := els)
    · rw [hmodified] at hread
      cases hread
    · rw [heq] at hread
      have hdefined : (next P els k.made k.position).1 ≠ .error .undefined :=
        next_defined hk.valid hk.good
      refine hdefined ?_
      change ((next P els k.made k.position).1.mapError _) = _ at hread
      generalize (next P els k.made k.position).1 = r at hread
      cases r with
      | error e => rw [Failure.raised.inj (Except.error.inj hread)]
      | ok out => cases hread

end Dict

/-! ## Sets -/

namespace ValueSet

/-- An operation of a set. -/
inductive Op (V : Type) where
  | add (value : V)
  | delete (value : V)
  | clear

/-- What an operation makes of a set. -/
def Op.run (P : Probing (Member V) E Member.hash) (els : Elements V E) (s : ValueSet V) :
    Op V → Except E (ValueSet V)
  | add value => do
    let hash ← els.hash value
    (s.insert P els.eq value hash).map Prod.fst
  | delete value => do
    let hash ← els.hash value
    (s.delete P els.eq value hash).map Prod.fst
  | clear => .ok s.clear

variable {P : Probing (Member V) E Member.hash}

/-- Every operation raises the epoch or changes nothing. -/
theorem changed_run {s s' : ValueSet V} (hs : s.WellFormed) {els : Elements V E} {op : Op V}
    (h : op.run P els s = .ok s') : Changed s s' := by
  cases op with
  | add value =>
    obtain ⟨hash, -, h⟩ := Dict.bind_ok h
    obtain ⟨⟨_, added⟩, hi, rfl⟩ := Dict.map_ok h
    exact changed_insert hs hi
  | delete value =>
    obtain ⟨hash, -, h⟩ := Dict.bind_ok h
    obtain ⟨⟨_, deleted⟩, hi, rfl⟩ := Dict.map_ok h
    exact changed_delete hs hi
  | clear =>
    obtain rfl := Except.ok.inj h
    exact changed_clear hs

/-- What an operation leaves of a set. One that fails changes nothing. -/
def change (P : Probing (Member V) E Member.hash) (m : Op V × Elements V E) (s : ValueSet V) :
    ValueSet V :=
  match m.1.run P m.2 s with
  | .ok s' => s'
  | .error _ => s

theorem changed_change {s : ValueSet V} (hs : s.WellFormed) (m : Op V × Elements V E) :
    Changed s (change P m s) := by
  unfold change
  cases hrun : m.1.run P m.2 s with
  | ok s' => exact changed_run hs hrun
  | error e => exact ⟨hs, .inl rfl⟩

/-- A set as a store that iterators read. -/
def failFast (P : Probing (Member V) E Member.hash) :
    FailFast (ValueSet V) (Op V × Elements V E) Unit ℕ V (Fault E) where
  valid := WellFormed
  epoch := ValueSet.epoch
  change := change P
  valid_change hs := (changed_change hs _).1
  epoch_le hs := by
    obtain ⟨-, hsame | hlt⟩ := changed_change hs _
    · rw [hsame]
    · exact hlt.le
  good _ _ := True
  next _ := next
  good_next _ _ := trivial

/-- The members from a place of the order on. -/
def snapshot (s : ValueSet V) (index : ℕ) : List V :=
  membersOf s.inner (s.order.drop index)

/-- An iterator goes through the snapshot. -/
theorem lists_snapshot (P : Probing (Member V) E Member.hash) {s : ValueSet V} (hs : s.WellFormed) :
    Lists (failFast P) s (fun _ => True) s.snapshot where
  kept _ := trivial
  some := by
    rintro _ c a c' - (hnext : s.next c = _)
    obtain ⟨i, hnone, -⟩ | ⟨x, i, hsome, hlist⟩ := nextMember_spec (E := E) hs (rfl : s.order.drop c = _)
    · rw [next, hnone] at hnext
      cases hnext
    · rw [next, hsome] at hnext
      obtain ⟨hx, rfl⟩ := Prod.mk.inj hnext
      obtain rfl := Option.some.inj (Except.ok.inj hx)
      exact hlist
  none := by
    rintro _ c c' - (hnext : s.next c = _)
    obtain ⟨i, hnone, hlist, hlist'⟩ | ⟨x, i, hsome, -⟩ :=
      nextMember_spec (E := E) hs (rfl : s.order.drop c = _)
    · rw [next, hnone] at hnext
      obtain ⟨-, rfl⟩ := Prod.mk.inj hnext
      exact ⟨hlist, hlist'⟩
    · rw [next, hsome] at hnext
      cases hnext
  total := by
    rintro _ c e - (hnext : (s.next c).1 = _)
    obtain ⟨i, hnone, -⟩ | ⟨x, i, hsome, -⟩ := nextMember_spec (E := E) hs (rfl : s.order.drop c = _)
    · rw [next, hnone] at hnext
      cases hnext
    · rw [next, hsome] at hnext
      cases hnext

/-- Whatever happens to a set, its iterators continue the listing of the set that they were made
for. -/
theorem continues_of_run {P : Probing (Member V) E Member.hash}
    {st : State (ValueSet V) ℕ V} (h : ((failFast P).system .new).Reachable st)
    {k : Cursor (ValueSet V) ℕ V} (hk : k ∈ st.cursors) :
    Continues (k.made.snapshot k.start) k.yielded (Cursor.read (failFast P) () st.store k).1 := by
  obtain ⟨-, hsound⟩ := sound_of_run (F := failFast P) wellFormed_new h fun st m hs _ =>
    (changed_change hs m).2.imp_right .inl
  exact continues_of_sound (hsound k hk) (lists_snapshot P (hsound k hk).valid) trivial ()

end ValueSet

/-! ## Iterators of both -/

namespace Dict

/-- Numbers as elements. -/
def numbers : Elements ℕ Unit where
  eq a b := .ok (a == b)
  hash k := .ok (BitVec.ofNat 64 k)
  asInt k := some k
  ofInt := Int.toNat
  ofSym := String.length
  ofStr := String.length
  overflow := ()

/-- Tables of numbers. -/
abbrev probing : Probing (Entry ℕ) Unit Entry.hash := .linear Entry.hash

/-- A dictionary with one pair. -/
def onePair : Dict ℕ :=
  change probing (.insert 7 1, numbers) new

/-- An iterator of its pairs, which has yielded this one. -/
def reader : Cursor (Dict ℕ) (Position ℕ) (Item ℕ) :=
  (Cursor.read (failFast probing) numbers onePair (.new (failFast probing) onePair (.pairs 0))).2

/-- They are made without a native insertion. -/
theorem run_reader :
    ((failFast probing).system new).Run (Unobserved probing) ⟨onePair, [reader]⟩ := by
  have hnew : ((failFast probing).system new).Run (Unobserved probing) ⟨new, []⟩ :=
    .start ⟨rfl, rfl⟩
  have hinsert : ((failFast probing).system new).Run (Unobserved probing) ⟨onePair, []⟩ :=
    hnew.step (a := .change (.insert 7 1, numbers)) trivial rfl
  have hmake : ((failFast probing).system new).Run (Unobserved probing)
      ⟨onePair, [.new (failFast probing) onePair (.pairs 0)]⟩ :=
    hinsert.step (a := .make (.pairs 0)) trivial ⟨trivial, rfl⟩
  exact hmake.step (a := .read 0 numbers) trivial ⟨_, rfl, rfl⟩

end Dict

end Dolang.Object
