import Dolang.Gc.Heap
import Dolang.Lib.Marking

/-!
# The cycle collector

`Arena::collect_full`, which finds garbage by trial deletion. The references that objects of the
ring report are taken off their counts, so what is left of a count comes from elsewhere. What such
objects lead to is alive. Of the rest, strands are cancelled, and what they lead to is rescued, as
they have to unwind first. The others are trash and are cleared.
-/

namespace Dolang.Gc

open Dolang.Rust

/-- The trial counts, with the objects that have not been found alive. -/
structure Marks where
  trial : Addr → ℕ
  trash : List Addr
  /-- `jh_trash`. -/
  strands : List Addr

namespace Heap

variable (h : Heap)

/-- Pass 1: the counts to be tried, unless an object is mutably borrowed. -/
def startTrial : Option (Addr → ℕ) :=
  if h.cyclic.any fun a => (h.objs a).borrow = borrowMut then none
  else some (h.cyclic.foldl (fun trial a => Function.update trial a (h.objs a).strong) fun _ => 0)

/-- Takes the reference to a child off. -/
def subtract (trial : Addr → ℕ) (child : Addr) : Exec Empty (Addr → ℕ) :=
  if (h.objs child).vtbl.cyclic then
    if trial child = 0 then abort else .ok (Function.update trial child (trial child - 1))
  else .ok trial

/-- Pass 2. -/
def subtractAll (trial : Addr → ℕ) : Exec Empty (Addr → ℕ) :=
  h.cyclic.foldlM (fun trial item => (h.objs item).trace.foldlM h.subtract trial) trial

/-- Puts one object among those that are alive, strands or trash. -/
def sort (s : Marks × List Addr) (item : Addr) : Marks × List Addr :=
  if s.1.trial item = 0 then
    if (h.objs item).vtbl.isStrand then ({ s.1 with strands := item :: s.1.strands }, s.2)
    else ({ s.1 with trash := item :: s.1.trash }, s.2)
  else (s.1, item :: s.2)

/-- Pass 3. -/
def partition (trial : Addr → ℕ) : Marks × List Addr :=
  h.cyclic.foldl h.sort (⟨trial, [], []⟩, [])

/-- How an object is found alive: its trial count is set, and it leaves its queue. -/
def marker : Marking.Marker Addr Marks where
  marked m a := m.trial a != 0
  mark m a :=
    { trial := Function.update m.trial a 1
      trash := m.trash.erase a
      strands := m.strands.erase a }
  marked_mark m a b := by
    dsimp only
    rw [Function.update_apply, bne_iff_ne, bne_iff_ne]
    split_ifs with hb
    · exact ⟨fun _ => .inr hb, fun _ => Nat.one_ne_zero⟩
    · exact ⟨.inl, fun h => h.resolve_right hb⟩

/-- Whether a child is looked at, which strands are not in a rescue. -/
def eligible (rescue : Bool) (child : Addr) : Bool :=
  (h.objs child).vtbl.cyclic && !(rescue && (h.objs child).vtbl.isStrand)

/-- What `trace` visits of an object. -/
def children (item : Addr) : List Addr :=
  (h.objs item).trace

/-- Visits what is alive and its children, as pass 4 does and the rescue. -/
def propagate (rescue : Bool) (m : Marks) (alive : List Addr) : Exec Empty Marks :=
  Worklist.run (Marking.visit marker h.children (h.eligible rescue))
    (h.cyclic.length + alive.length) m alive

/-- Pass 4.5: the children of strands that are trash. -/
def rescue (m : Marks) : Exec Empty Marks :=
  let (m, alive) :=
    (m.strands.flatMap h.children).foldl (Marking.step marker (h.eligible true)) (m, [])
  h.propagate true m alive

/-- Clears an object, which an extra reference keeps meanwhile. -/
def clearObj (item : Addr) : Exec Empty Heap := do
  let h ← h.retain item
  (h.set item (h.objs item).cleared).drain ((h.objs item).fields ++ [item])

/-- Pass 5, with the objects that it clears. An object that is borrowed is left alone. -/
def sweep : ℕ → Heap → Exec Empty (Heap × List Addr)
  | 0, _ => .error .fuel
  | fuel + 1, h =>
    match h.trash with
    | [] => .ok (h, [])
    | item :: trash =>
      let h := { h with trash }
      if (h.objs item).borrow ≠ 0 then sweep fuel h
      else do
        let h ← h.clearObj item
        let (h, log) ← sweep fuel h
        return (h, item :: log)

/-- `collect_full`, with the objects that it clears. There are none when the collection is put off.
-/
def collectFull : Exec Empty (Heap × Option (List Addr)) :=
  match h.startTrial with
  | none => .ok (h, none)
  | some trial => do
    let trial ← h.subtractAll trial
    let (m, alive) := h.partition trial
    let m ← h.propagate false m alive
    let m ← h.rescue m
    let trash := m.trash ++ m.strands
    let (h, log) ← sweep (trash.length + 1) { h with trash }
    return (h, some log)

end Heap

end Dolang.Gc
