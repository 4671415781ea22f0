import Dolang.Gc.Collected
import Dolang.Lib.Service

/-!
# A program and its collector

A program holds references to objects, some of them on the stacks of strands, and works on what they
lead to. Between any two of its steps there may be a collection. Over every run no assertion of the
heap fails, and the program reads what it would read in a graph in which nothing is ever released
(`collection_invisible`).
-/

namespace Dolang.Gc

open Dolang.Rust Relation

/-- What a program does. -/
inductive Op where
  | alloc (vtbl : Vtbl)
  | clone (a : Addr)
  | drop (a : Addr)
  /-- Moves a reference to `b` into `a`. -/
  | store (a b : Addr) (kept : Bool)
  /-- Clones a reference that `a` owns. -/
  | load (a : Addr) (i : ℕ)
  /-- Moves a reference to `b` out of `a`. -/
  | take (a b : Addr)
  /-- Moves a reference onto the stack of a strand, which its handle may report. -/
  | push (s a : Addr) (reported : Bool)
  | pop (s a : Addr)
  | setBorrow (a : Addr) (borrow : ℕ)
  | collect

/-- What a program gets to know. It is refused what it cannot do without a reference. -/
inductive Answer where
  | done
  | refused
  | panicked
  | object (a : Option Addr)
  deriving DecidableEq

/-! ### The heap -/

/-- A heap with the references that a program holds and those on the stacks of strands. -/
structure Machine where
  heap : Heap
  handles : List Addr
  frames : List (Addr × Addr)

/-- Takes out the first reference that an object owns to another one. -/
def Obj.takeRef (o : Obj) (b : Addr) : Obj :=
  { o with refs := o.refs.eraseP fun r => r.1 = b ∧ r.2 ≠ .stack }

namespace Machine

/-- Nothing is there. -/
def new : Machine where
  heap := { objs := fun _ => ⟨⟨false, false⟩, 0, 0, []⟩, top := 0, cyclic := [], trash := [] }
  handles := []
  frames := []

variable (m : Machine)

/-- The references to an object from outside of the heap. -/
def ext (a : Addr) : ℕ :=
  m.handles.count a + (m.frames.map Prod.snd).count a

/-- Whether the program has a reference. -/
def holds (a : Addr) : Bool :=
  a ∈ m.handles || a ∈ m.frames.map Prod.snd

/-- `Header::new` and `Base::new_from_raw`. -/
def alloc (vtbl : Vtbl) : Machine where
  heap :=
    { objs := Function.update m.heap.objs m.heap.top ⟨vtbl, 1, 0, []⟩
      top := m.heap.top + 1
      cyclic := if vtbl.cyclic then m.heap.top :: m.heap.cyclic else m.heap.cyclic
      trash := m.heap.trash }
  handles := m.heap.top :: m.handles
  frames := m.frames

def request : Op → Exec Empty (Machine × Answer)
  | .alloc vtbl =>
    if vtbl.isStrand && !vtbl.cyclic then .ok (m, .refused)
    else .ok (m.alloc vtbl, .object (some m.heap.top))
  | .clone a =>
    if m.holds a then do
      let heap ← m.heap.retain a
      return ({ m with heap, handles := a :: m.handles }, .done)
    else .ok (m, .refused)
  | .drop a =>
    if a ∈ m.handles then do
      let heap ← m.heap.drain [a]
      return ({ m with heap, handles := m.handles.erase a }, .done)
    else .ok (m, .refused)
  | .store a b kept =>
    if m.holds a && b ∈ m.handles && (kept || !(m.heap.objs a).vtbl.isStrand) then
      let o := m.heap.objs a
      let refs := o.refs ++ [(b, if kept then .kept else .field)]
      .ok ({ m with heap := m.heap.set a { o with refs }, handles := m.handles.erase b }, .done)
    else .ok (m, .refused)
  | .load a i =>
    if m.holds a then
      match (m.heap.objs a).owned[i]? with
      | none => .ok (m, .object none)
      | some b => do
        let heap ← m.heap.retain b
        return ({ m with heap, handles := b :: m.handles }, .object (some b))
    else .ok (m, .refused)
  | .take a b =>
    if m.holds a then
      if b ∈ (m.heap.objs a).owned then
        .ok ({ m with
          heap := m.heap.set a ((m.heap.objs a).takeRef b)
          handles := b :: m.handles }, .object (some b))
      else .ok (m, .object none)
    else .ok (m, .refused)
  | .push s a reported =>
    if a ∈ m.handles then
      let o := m.heap.objs s
      let heap :=
        if reported && o.vtbl.isStrand && m.heap.Live s then
          m.heap.set s { o with refs := o.refs ++ [(a, .stack)] }
        else m.heap
      .ok ({ heap, handles := m.handles.erase a, frames := (s, a) :: m.frames }, .done)
    else .ok (m, .refused)
  | .pop s a =>
    if (s, a) ∈ m.frames then
      let o := m.heap.objs s
      .ok ({
        heap := m.heap.set s { o with refs := o.refs.erase (a, .stack) }
        handles := a :: m.handles
        frames := m.frames.erase (s, a) }, .done)
    else .ok (m, .refused)
  | .setBorrow a borrow =>
    if m.holds a then
      .ok ({ m with heap := m.heap.set a { m.heap.objs a with borrow } }, .done)
    else .ok (m, .refused)
  | .collect => do
    let (heap, _) ← m.heap.collectFull
    return ({ m with heap }, .done)

/-- A step of the program. -/
def serve (op : Op) : Machine × Answer :=
  match m.request op with
  | .ok r => r
  | .error _ => (m, .panicked)

end Machine

/-! ### The graph -/

/-- Objects that are never released. -/
structure Graph where
  vtbl : Addr → Vtbl
  owned : Addr → List Addr
  top : Addr
  handles : List Addr
  frames : List (Addr × Addr)

namespace Graph

def new : Graph where
  vtbl _ := ⟨false, false⟩
  owned _ := []
  top := 0
  handles := []
  frames := []

variable (g : Graph)

def holds (a : Addr) : Bool :=
  a ∈ g.handles || a ∈ g.frames.map Prod.snd

/-- A step of the program in a graph. A collection does nothing. -/
def serve : Op → Graph × Answer
  | .alloc vtbl =>
    if vtbl.isStrand && !vtbl.cyclic then (g, .refused)
    else
      ({ g with
        vtbl := Function.update g.vtbl g.top vtbl
        owned := Function.update g.owned g.top []
        top := g.top + 1
        handles := g.top :: g.handles }, .object (some g.top))
  | .clone a => if g.holds a then ({ g with handles := a :: g.handles }, .done) else (g, .refused)
  | .drop a =>
    if a ∈ g.handles then ({ g with handles := g.handles.erase a }, .done) else (g, .refused)
  | .store a b kept =>
    if g.holds a && b ∈ g.handles && (kept || !(g.vtbl a).isStrand) then
      ({ g with
        owned := Function.update g.owned a (g.owned a ++ [b])
        handles := g.handles.erase b }, .done)
    else (g, .refused)
  | .load a i =>
    if g.holds a then
      match (g.owned a)[i]? with
      | none => (g, .object none)
      | some b => ({ g with handles := b :: g.handles }, .object (some b))
    else (g, .refused)
  | .take a b =>
    if g.holds a then
      if b ∈ g.owned a then
        ({ g with
          owned := Function.update g.owned a ((g.owned a).erase b)
          handles := b :: g.handles }, .object (some b))
      else (g, .object none)
    else (g, .refused)
  | .push s a _ =>
    if a ∈ g.handles then
      ({ g with handles := g.handles.erase a, frames := (s, a) :: g.frames }, .done)
    else (g, .refused)
  | .pop s a =>
    if (s, a) ∈ g.frames then
      ({ g with handles := a :: g.handles, frames := g.frames.erase (s, a) }, .done)
    else (g, .refused)
  | .setBorrow a _ => if g.holds a then (g, .done) else (g, .refused)
  | .collect => (g, .done)

end Graph

end Dolang.Gc
