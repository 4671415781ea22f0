import Dolang.Lib.Accesses
import Dolang.Typeck.Live

/-!
# Paths through a typing graph

What the steps and terminals of a graph read and write, in order, and the paths along which they do
so. A point of a block is a number of its accesses that are done. A path goes on within the block,
from the end of the block along an edge of its terminal, from the end of a `finally` body to a
target that a `Leave` into a `finally` of its depth names, and from any point to the block's
handler. An edge that a pattern matches on has the accesses of the pattern.
-/

namespace Dolang.Typeck.Cfg

open Accesses

/-- A variable reference reads. -/
def Expr.accesses (e : Expr) : List (Access VarId) :=
  e.walk.flatMap fun
    | .var v | .copy v => [.read v]
    | _ => []

/-- A pattern reads its constant keys, and writes its variables. -/
def Pattern.accesses (p : Pattern) : List (Access VarId) :=
  p.walk.flatMap Expr.accesses ++ p.vars.map .write

/-- What an operand reads. -/
def Item.accesses : Item → List (Access VarId)
  | .pos value => value.accesses
  | _ => []

def Target.accesses : Target → List (Access VarId)
  | .var v value => value.accesses ++ [.write v]
  | .field object value => object.accesses ++ value.accesses
  | .index object key value => object.accesses ++ key.accesses ++ value.accesses
  | .import value => value.accesses

def Against.accesses : Against → List (Access VarId)
  | .class e | .value e => e.accesses
  | .decl | .type | .shape => []

namespace Ir

variable (ir : Ir)

/-- What the creation of a function reads. -/
def captured (func : FuncId) : List VarId :=
  match ir.funcs[func]? with
  | some func => func.escapes
  | none => []

/-- What a step of a function accesses. A default reads the variable that it writes; a narrowing
reads its variable. -/
def stepAccesses (func : Func) : Step → List (Access VarId)
  | .let_ pattern value => value.accesses ++ pattern.accesses
  | .assign target => target.accesses
  | .default var value => value.accesses ++ [.read var, .write var]
  | .eval value | .push value => value.accesses
  | .dup | .pop => []
  | .assume assume => assume.against.accesses ++ [.read assume.var]
  | .capture funcs => (funcs.flatMap ir.captured).map .read
  | .cache vars => vars.map .write
  | .escape supers => (func.fields ++ if supers then func.supers else []).map .read

end Ir

def Terminal.accesses : Terminal → List (Access VarId)
  | .ite value _ _ | .unpack _ value _ _ | .throw value | .returnFrom value => value.accesses
  | .catch clauses _ => clauses.flatMap (·.1.accesses)
  | .next iter _ _ _ => iter.toList.map .read
  | .branch _ | .return | .elseFallthrough | .leave _ _ | .endFinally | .guard _ _ | .escape
  | .unreachable => []

/-- The edges of a terminal, with what is accessed along them. -/
def Terminal.edges : Terminal → List (List (Access VarId) × BlockId)
  | .unpack pattern _ onThen onElse => [(pattern.accesses, onThen), ([], onElse)]
  | .next _ pattern body exit => [(pattern.accesses, body), ([], exit)]
  | terminal => terminal.successors.map ([], ·)

/-- The edges lead to the successors. -/
theorem Terminal.mem_successors {terminal : Terminal} {l : List (Access VarId)} {target : BlockId}
    (h : (l, target) ∈ terminal.edges) : target ∈ terminal.successors := by
  unfold edges at h
  split at h
  · simp only [List.mem_cons, Prod.mk.injEq, List.not_mem_nil, or_false] at h
    obtain ⟨-, rfl⟩ | ⟨-, rfl⟩ := h
    · exact List.mem_cons_self
    · exact List.mem_cons_of_mem _ List.mem_cons_self
  · simp only [List.mem_cons, Prod.mk.injEq, List.not_mem_nil, or_false] at h
    obtain ⟨-, rfl⟩ | ⟨-, rfl⟩ := h
    · exact List.mem_cons_self
    · exact List.mem_cons_of_mem _ List.mem_cons_self
  · obtain ⟨target', hmem, heq⟩ := List.mem_map.mp h
    exact (Prod.mk.inj heq).2 ▸ hmem

/-- The targets of a terminal that binds a pattern are different. -/
def Terminal.Distinct : Terminal → Prop
  | .unpack _ _ onThen onElse => onThen ≠ onElse
  | .next _ _ body exit => body ≠ exit
  | _ => True

namespace Ir

variable (ir : Ir)

/-- What a block accesses: the entry of a declared function writes its parameters, and the exit
reads the result. -/
def blockAccesses (id : BlockId) (block : Block) : List (Access VarId) :=
  match ir.funcs[block.func]? with
  | none => []
  | some func =>
    (if id = func.entry ∧ func.kind = .decl then func.params.vars.map .write else []) ++
      (if id = func.exit then [.read func.result] else []) ++
        block.steps.flatMap (ir.stepAccesses func) ++ block.terminal.accesses

/-- The edges of a block. -/
inductive Edge (block : Block) : List (Access VarId) → BlockId → Prop where
  | continues {l : List (Access VarId)} {target : BlockId}
    (h : (l, target) ∈ block.terminal.edges) : Edge block l target
  /-- A `finally` body's end continues to where a `Leave` into one of its depth says. -/
  | ends {leave entered : Block} {entry target : BlockId} (hend : block.terminal = .endFinally)
    (hleave : leave ∈ ir.blocks) (hterminal : leave.terminal = .leave entry (.goto target))
    (hfunc : leave.func = block.func) (hentry : ir.blocks[entry]? = some entered)
    (hdepth : entered.depth = block.depth) : Edge block [] target

/-- Accesses of the slots that variables have in a function. -/
def onSlots (slots : FuncId → VarId → Option ℕ) (func : FuncId) (l : List (Access VarId)) :
    List (Access ℕ) :=
  l.filterMap fun
    | .read var => (slots func var).map .read
    | .write var => (slots func var).map .write

/-- What lowering makes of a step: operands are positional, and the functions of the step exist. -/
def StepValid : Step → Prop
  | .assign (.field _ value) => ∃ e, value = .pos e
  | .assign (.index _ key value) => (∃ e, key = .pos e) ∧ ∃ e, value = .pos e
  | .capture funcs => ∀ func ∈ funcs, func < ir.funcs.length
  | _ => True

/-- A block is that of a function. -/
def Within (func : FuncId) (id : BlockId) : Prop :=
  ∃ block, ir.blocks[id]? = some block ∧ block.func = func

/-- What validation and lowering promise of a block: its function exists, and its edges and handler
are in that function. -/
structure BlockValid (block : Block) : Prop where
  func : block.func < ir.funcs.length
  steps : ∀ step ∈ block.steps, ir.StepValid step
  successors : ∀ target ∈ block.terminal.successors, ir.Within block.func target
  handler : ∀ target, block.handler = some target → ir.Within block.func target
  leave : ∀ entry target, block.terminal = .leave entry (.goto target) →
    ir.Within block.func target

/-- A graph as lowering leaves it, with the variables and slots of its functions: each slot is one
of its function's. -/
structure Valid (vars : List (List VarId)) (slots : FuncId → VarId → Option ℕ) : Prop where
  blocks : ∀ block ∈ ir.blocks, ir.BlockValid block
  params : ∀ func ∈ ir.funcs, func.kind = .decl → ∃ items, func.params = .unpack items
  length : vars.length = ir.funcs.length
  slots : ∀ (func : FuncId) (names : List VarId), vars[func]? = some names →
    ∀ var slot, slots func var = some slot → slot < names.length

/-- A point of a block: how many of its accesses are done. -/
structure Point where
  block : BlockId
  done : ℕ

/-- The steps of paths from point to point. -/
inductive PointStep (slots : FuncId → VarId → Option ℕ) :
    Point → List (Access ℕ) → Point → Prop where
  | access {id : BlockId} {block : Block} {i : ℕ} {a : Access ℕ}
    (hblock : ir.blocks[id]? = some block)
    (ha : (onSlots slots block.func (ir.blockAccesses id block))[i]? = some a) :
    PointStep slots ⟨id, i⟩ [a] ⟨id, i + 1⟩
  | raise {id handler : BlockId} {block : Block} {i : ℕ} (hblock : ir.blocks[id]? = some block)
    (hhandler : block.handler = some handler) : PointStep slots ⟨id, i⟩ [] ⟨handler, 0⟩
  | edge {id target : BlockId} {block : Block} {l : List (Access VarId)}
    (hblock : ir.blocks[id]? = some block) (hedge : ir.Edge block l target) :
    PointStep slots ⟨id, (onSlots slots block.func (ir.blockAccesses id block)).length⟩
      (onSlots slots block.func l) ⟨target, 0⟩

variable {ir}

/-- What a step from a point of a block is. -/
theorem PointStep.inv {slots : FuncId → VarId → Option ℕ} {p q : Point} {l : List (Access ℕ)}
    (h : ir.PointStep slots p l q) : ∃ block, ir.blocks[p.block]? = some block ∧
      ((∃ a, (onSlots slots block.func (ir.blockAccesses p.block block))[p.done]? = some a ∧
          l = [a] ∧ q = ⟨p.block, p.done + 1⟩) ∨
        (∃ handler, block.handler = some handler ∧ l = [] ∧ q = ⟨handler, 0⟩) ∨
        (p.done = (onSlots slots block.func (ir.blockAccesses p.block block)).length ∧
          ∃ edge target, ir.Edge block edge target ∧ l = onSlots slots block.func edge ∧
            q = ⟨target, 0⟩)) := by
  cases h with
  | access hblock ha => exact ⟨_, hblock, .inl ⟨_, ha, rfl, rfl⟩⟩
  | raise hblock hhandler => exact ⟨_, hblock, .inr (.inl ⟨_, hhandler, rfl, rfl⟩)⟩
  | edge hblock hedge => exact ⟨_, hblock, .inr (.inr ⟨rfl, _, _, hedge, rfl, rfl⟩)⟩

/-- An edge of a block leads to a block of its function. -/
theorem Valid.within_of_edge {vars : List (List VarId)} {slots : FuncId → VarId → Option ℕ}
    (h : ir.Valid vars slots) {block : Block} (hblock : block ∈ ir.blocks) {l : List (Access VarId)}
    {target : BlockId} (hedge : ir.Edge block l target) : ir.Within block.func target := by
  cases hedge with
  | continues hmem => exact (h.blocks block hblock).successors target (Terminal.mem_successors hmem)
  | ends _ hleave hterminal hfunc => exact hfunc ▸ (h.blocks _ hleave).leave _ _ hterminal

end Ir

end Dolang.Typeck.Cfg
