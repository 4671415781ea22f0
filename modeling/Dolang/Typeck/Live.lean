import Dolang.Lib.Sweeps
import Dolang.Typeck.Cfg

/-!
# Which slots each block may read before writing them

The model of `typeck/flow/live.rs`. `Collect` gathers what a block, or the edge its pattern matches
on, does to its function's slots: the slots it reads before any write, and those it writes. `live`
sweeps over the blocks, by falling rank, until no block's live slots change: those live at a block's
entry are the ones it reads first, those live at an end that it does not write, and all that are
live at its handler.

A bit box is a list of bits, and an index beyond its end panics, as does an index of a block or
function that the graph does not have. The maps of edges and of `finally` ends are filled in one
pass over the blocks; here each block keeps what it adds to them (`Gathered`). The loop has a fuel
argument.
-/

namespace Dolang.Typeck

open Rust Cfg

/-- A fixed number of bits. -/
abbrev BitBox := List Bool

namespace BitBox

/-- `bitbox![0; width]`. -/
def zeros (width : Nat) : BitBox := List.replicate width false

def get (b : BitBox) (i : Nat) : Exec Empty Bool := unwrap b[i]?

def set (b : BitBox) (i : Nat) (value : Bool) : Exec Empty BitBox :=
  if i < b.length then .ok (List.set b i value) else abort

/-- The indices of its ones, in order. -/
def iterOnes (b : BitBox) : List Nat := (b.zipIdx.filter (·.1)).map (·.2)

/-- Set each of some bits to a value. -/
def setAll (value : Bool) : List Nat → BitBox → Exec Empty BitBox
  | [], b => .ok b
  | slot :: slots, b => do
    setAll value slots (← b.set slot value)

/-- `union(into, from)`. -/
def union (into source : BitBox) : Exec Empty BitBox := into.setAll true source.iterOnes

/-- Set the bits to zero that are ones of another box. -/
def clear (into source : BitBox) : Exec Empty BitBox := into.setAll false source.iterOnes

end BitBox

namespace Live

/-- What a block or edge does to its function's slots, in order. -/
structure Transfer where
  /-- Read before any write. -/
  uses : BitBox
  /-- Written. -/
  defs : BitBox

/-- What a transfer is collected with: the graph, the slots, and the function. -/
structure Collect where
  ir : Ir
  slots : FuncId → VarId → Option Nat
  func : FuncId

namespace Collect

variable (c : Collect)

def slot (var : VarId) : Option Nat := c.slots c.func var

def read (var : VarId) (t : Transfer) : Exec Empty Transfer :=
  match c.slot var with
  | none => .ok t
  | some slot => do
    if ← t.defs.get slot then return t
    else return { t with uses := ← t.uses.set slot true }

def write (var : VarId) (t : Transfer) : Exec Empty Transfer :=
  match c.slot var with
  | none => .ok t
  | some slot => do return { t with defs := ← t.defs.set slot true }

/-- Do something for each of a list, in order. -/
def each {α : Type} (f : α → Transfer → Exec Empty Transfer) :
    List α → Transfer → Exec Empty Transfer
  | [], t => .ok t
  | a :: as, t => do each f as (← f a t)

def expr (value : Expr) : Transfer → Exec Empty Transfer :=
  each (fun e t =>
    match e with
    | .var var | .copy var => c.read var t
    | _ => .ok t) value.walk

/-- A pattern's constant keys, then its bindings. -/
def pattern (p : Pattern) (t : Transfer) : Exec Empty Transfer := do
  each c.write p.vars (← each c.expr p.walk t)

def step : Step → Transfer → Exec Empty Transfer
  | .let_ pattern value, t => do c.pattern pattern (← c.expr value t)
  | .assign (.var var value), t => do c.write var (← c.expr value t)
  | .assign (.field object value), t => do
    let t ← c.expr object t
    c.expr (← value.operand) t
  | .assign (.index object index value), t => do
    let t ← c.expr object t
    let t ← c.expr (← index.operand) t
    c.expr (← value.operand) t
  | .assign (.import value), t => c.expr value t
  | .default var value, t => do
    let t ← c.expr value t
    c.write var (← c.read var t)
  | .eval value, t | .push value, t => c.expr value t
  | .dup, t | .pop, t => .ok t
  | .assume assume, t => do
    let t ← match assume.against with
      | .class value | .value value => c.expr value t
      | .decl | .type | .shape => pure t
    c.read assume.var t
  | .capture funcs, t =>
    each (fun func t => do each c.read (← unwrap c.ir.funcs[func]?).escapes t) funcs t
  | .cache vars, t => each c.write vars t
  | .escape supers, t => do
    let func ← unwrap c.ir.funcs[c.func]?
    each c.read (func.fields ++ func.supers.filter fun _ => supers) t

def terminal : Terminal → Transfer → Exec Empty Transfer
  | .ite value _ _, t | .unpack _ value _ _, t | .throw value, t | .returnFrom value, t =>
    c.expr value t
  | .catch clauses _, t => each (fun clause t => c.expr clause.1 t) clauses t
  | .next iter _ _ _, t => each c.read iter.toList t
  | .branch _, t | .return, t | .elseFallthrough, t | .leave _ _, t | .endFinally, t
  | .guard _ _, t | .escape, t | .unreachable, t => .ok t

end Collect

/-- What one block adds: its own transfer, the target and bindings of the edge its pattern matches
on, and where a `finally` of which depth ends continuing to. -/
structure Gathered where
  transfer : Transfer
  edge : Option (BlockId × Transfer)
  «end» : Option ((FuncId × Nat) × BlockId)

section

variable (ir : Ir) (vars : List (List VarId)) (slots : FuncId → VarId → Option Nat)

/-- The writes of a declared function's parameters, in its entry block. -/
def params (c : Collect) (func : Func) (id : BlockId) (t : Transfer) : Exec Empty Transfer :=
  if id = func.entry ∧ func.kind = .decl then
    match func.params with
    | .unpack items => Collect.each c.write (items.filterMap (·.var)) t
    | .bind _ => abort
  else .ok t

/-- The read of a function's result, in its exit block. -/
def result (c : Collect) (func : Func) (id : BlockId) (t : Transfer) : Exec Empty Transfer :=
  if id = func.exit then c.read func.result t else .ok t

/-- A block's own transfer. -/
def own (c : Collect) (func : Func) (data : Block) (id : BlockId) (t : Transfer) :
    Exec Empty Transfer := do
  let t ← params c func id t
  let t ← result c func id t
  let t ← Collect.each c.step data.steps t
  c.terminal data.terminal t

/-- The target and bindings of the edge that a block's pattern matches on. -/
def bound (c : Collect) (empty : Transfer) : Terminal → Exec Empty (Option (BlockId × Transfer))
  | .unpack pattern _ target _ | .next _ pattern target _ => do
    return some (target, ← c.pattern pattern empty)
  | _ => .ok none

/-- Where a `finally` ends continuing to, with its function and depth. -/
def tagged (func : FuncId) : Terminal → Exec Empty (Option ((FuncId × Nat) × BlockId))
  | .leave entry (.goto target) => do
    return some ((func, (← unwrap ir.blocks[entry]?).depth), target)
  | _ => .ok none

/-- The pass over one block. -/
def gather (data : Block) (id : BlockId) : Exec Empty Gathered := do
  let func ← unwrap ir.funcs[data.func]?
  let width := (← unwrap vars[data.func]?).length
  let c : Collect := { ir, slots, func := data.func }
  let empty : Transfer := { uses := .zeros width, defs := .zeros width }
  let transfer ← own c func data id empty
  let edge ← bound c empty data.terminal
  let «end» ← tagged ir data.func data.terminal
  return { transfer, edge, «end» }

/-- The bits of a target, through the edge to it. -/
def through (live : List BitBox) (edge : Option (BlockId × Transfer)) (target : BlockId) :
    Exec Empty BitBox := do
  let at_ ← unwrap live[target]?
  match edge with
  | some (bound, edge) =>
    if bound = target then do (← at_.clear edge.defs).union edge.uses else return at_
  | none => return at_

/-- Join what some targets give. -/
def join (give : BlockId → Exec Empty BitBox) : List BlockId → BitBox → Exec Empty BitBox
  | [], out => .ok out
  | target :: targets, out => do join give targets (← out.union (← give target))

/-- The targets that the `finally` bodies of a function and depth end continuing to. -/
def ends (gathered : List Gathered) (key : FuncId × Nat) : List BlockId :=
  gathered.filterMap fun g => g.end.bind fun (k, target) => if k = key then some target else none

/-- What a block's end joins: what its successors give, and at the end of a `finally` body, the
targets it continues to. -/
def out (gathered : List Gathered) (data : Block) (own : Gathered) (live : List BitBox)
    (empty : BitBox) : Exec Empty BitBox := do
  let out ← join (through live own.edge) data.terminal.successors empty
  match data.terminal with
  | .endFinally =>
    join (fun target => unwrap live[target]?) (ends gathered (data.func, data.depth)) out
  | _ => return out

/-- The live slots of one block, from those of all. -/
def transfer (gathered : List Gathered) (block : BlockId) (live : List BitBox) :
    Exec Empty BitBox := do
  let data ← unwrap ir.blocks[block]?
  let own ← unwrap gathered[block]?
  let width := (← unwrap vars[data.func]?).length
  let out ← out gathered data own live (.zeros width)
  let out ← out.clear own.transfer.defs
  let out ← out.union own.transfer.uses
  match data.handler with
  | some handler => out.union (← unwrap live[handler]?)
  | none => return out

/-- The visit of one block in a sweep. -/
def visit (gathered : List Gathered) (block : BlockId) (live : List BitBox) :
    Exec Empty (List BitBox × Bool) := do
  let out ← transfer ir vars gathered block live
  if out ≠ (← unwrap live[block]?) then return (live.set block out, true)
  else return (live, false)

/-- The blocks by falling rank. -/
def order (rank : BlockId → Nat) : List BlockId :=
  (List.range ir.blocks.length).mergeSort fun a b => rank b ≤ rank a

/-- The pass over all blocks. -/
def gatherAll : Exec Empty (List Gathered) :=
  mapAll (fun p => gather ir vars slots p.1 p.2) ir.blocks.zipIdx

/-- No live slots. -/
def start : Exec Empty (List BitBox) :=
  mapAll (fun data => do return .zeros (← unwrap vars[data.func]?).length) ir.blocks

/-- Each block's live slots at its entry, by block, each over its function's slots. -/
def live (rank : BlockId → Nat) (fuel : Nat) : Exec Empty (List BitBox) := do
  let gathered ← gatherAll ir vars slots
  let live ← start ir vars
  Sweeps.untilStable (visit ir vars gathered) (order ir rank) fuel live

end

end Live

end Dolang.Typeck
