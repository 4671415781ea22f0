import Dolang.Compile.Lower
import Mathlib.Logic.Relation

/-!
# What an expression and a graph compute

Left-to-right short-circuit evaluation (`Expr.evaluate`) says what an expression is meant to do:
which operands it evaluates, which it tests, and what comes out. It is stated over a machine with
arbitrary values and states, in which evaluating an operand and testing a value can do anything,
also raise. The trace of an evaluation has each operand at most once, in the order of the expression,
and a test only right after the evaluation of the operand it tests (`Once`).

A graph runs on the same machine, one instruction or terminator a step (`Machine.step`).
-/

namespace Dolang.Compile

open Dolang.Bytecode

/-- The runtime, as far as a short circuit can tell: values of type `V`, states of type `σ`, and
errors of type `ε`. -/
structure Machine (V σ ε : Type) where
  /-- `Value::op_bool`, which can run a user's `(bool)` method. -/
  truth : V → σ → Except ε (Bool × σ)
  /-- `Value::from_bool`. -/
  ofBool : Bool → V
  /-- The constants that instructions refer to. -/
  const : Nat → V
  /-- `consttab.bool`. -/
  constBool : Bool → Nat
  /-- All the other instructions, on the stack and the state. -/
  exec : Inst → List V → σ → Option (Except ε (List V × σ))
  /-- All the other terminators, which choose the next block. -/
  jump : Term → List V → σ → Option (Except ε (Nat × List V × σ))
  const_constBool : ∀ b, const (constBool b) = ofBool b
  /-- A truth value is its own truth, and testing it does nothing. -/
  truth_ofBool : ∀ b x, truth (ofBool b) x = .ok (b, x)

/-- What an evaluation does. -/
inductive Action (O : Type) where
  /-- It evaluates an operand. -/
  | evaluate (o : O)
  /-- It tests the truthiness of an operand's value. -/
  | test (o : O)

/-- An evaluation: its trace, and what comes out. -/
def Eval (O σ ε α : Type) := σ → List (Action O) × Except ε (α × σ)

namespace Eval

variable {O σ ε α β : Type}

/-- Evaluate one thing after the other. -/
def bind (f : Eval O σ ε α) (next : α → Eval O σ ε β) : Eval O σ ε β := fun x =>
  match f x with
  | (trace, .ok (a, x')) => (trace ++ (next a x').1, (next a x').2)
  | (trace, .error e) => (trace, .error e)

instance : Monad (Eval O σ ε) where
  pure a := fun x => ([], .ok (a, x))
  bind := bind

/-- One action. -/
def act (action : Action O) (f : σ → Except ε (α × σ)) : Eval O σ ε α := fun x => ([action], f x)

/-- What comes out. -/
def outcome (f : Eval O σ ε α) (x : σ) : Except ε (α × σ) := (f x).2

theorem outcome_pure (a : α) (x : σ) : (pure a : Eval O σ ε α).outcome x = .ok (a, x) := rfl

theorem outcome_act (action : Action O) (f : σ → Except ε (α × σ)) (x : σ) :
    (act action f).outcome x = f x := rfl

theorem outcome_bind (f : Eval O σ ε α) (next : α → Eval O σ ε β) (x : σ) :
    (f >>= next).outcome x = f.outcome x >>= fun r => (next r.1).outcome r.2 := by
  show (bind f next x).2 = _
  rw [bind, outcome]
  obtain ⟨trace, e | ⟨a, x'⟩⟩ := f x <;> rfl

end Eval

/-- The operator goes on to the next operand after one with this truth. -/
def LogicalOp.goesOn : LogicalOp → Bool → Bool
  | .ampAmp, b => b
  | .barBar, b => !b

/-- What is to come out of an evaluation: nothing, the value, or the value and its truth. -/
inductive Need where
  | effect
  | value
  | truth
  deriving DecidableEq, Repr

section Evaluate

variable {O V σ ε : Type} (m : Machine V σ ε) (eval : O → σ → Except ε (V × σ))

/-- Evaluate an operand, and test it when its truth is needed. -/
def evaluateOperand (need : Need) (o : O) : Eval O σ ε (V × Bool) := do
  let v ← Eval.act (.evaluate o) (eval o)
  if need = .truth then do
    let b ← Eval.act (.test o) (m.truth v)
    return (v, b)
  else return (v, false)

mutual

/-- Evaluate an expression. The truth of its value is known when it is needed. -/
def Expr.evaluate : Expr O → Need → Eval O σ ε (V × Bool)
  | .operand o, need => evaluateOperand m eval need o
  | .group e, need => e.evaluate need
  | .cast e, need => e.evaluate need
  | .bang e, .effect => e.evaluate .effect
  | .bang e, _ => do
    let (_, b) ← e.evaluate .truth
    return (m.ofBool !b, !b)
  | .logical op init last, need => evaluateInit op init (last.evaluate need)

/-- Evaluate operands until one decides, or `last` after them. -/
def evaluateInit (op : LogicalOp) : List (Expr O) → Eval O σ ε (V × Bool) → Eval O σ ε (V × Bool)
  | [], last => last
  | e :: init, last => do
    let (v, b) ← e.evaluate .truth
    if op.goesOn b then evaluateInit op init last else return (v, b)

end

end Evaluate

/-! ### The operands of an expression -/

section Operands

variable {O : Type}

mutual

/-- The operands, in the order of the expression. -/
def Expr.operands : Expr O → List O
  | .operand o => [o]
  | .group e => e.operands
  | .cast e => e.operands
  | .bang e => e.operands
  | .logical _ init last => operandsInit init ++ last.operands

/-- The operands of a list of expressions. -/
def operandsInit : List (Expr O) → List O
  | [] => []
  | e :: init => e.operands ++ operandsInit init

end

/-- A trace evaluates some of the operands, each once and in order, and tests some of these, each
once and right after its evaluation. -/
inductive Once : List O → List (Action O) → Prop where
  | nil : Once [] []
  | skip {o : O} {os : List O} {trace : List (Action O)} : Once os trace → Once (o :: os) trace
  | evaluate {o : O} {os : List O} {trace : List (Action O)} : Once os trace →
      Once (o :: os) (.evaluate o :: trace)
  | test {o : O} {os : List O} {trace : List (Action O)} : Once os trace →
      Once (o :: os) (.evaluate o :: .test o :: trace)

theorem Once.skips : (os : List O) → Once os []
  | [] => .nil
  | _ :: os => .skip (Once.skips os)

theorem Once.append {os os' : List O} {trace trace' : List (Action O)} (h : Once os trace)
    (h' : Once os' trace') : Once (os ++ os') (trace ++ trace') := by
  induction h with
  | nil => exact h'
  | skip _ ih => exact .skip ih
  | evaluate _ ih => exact .evaluate ih
  | test _ ih => exact .test ih

/-- A trace of the first operands leaves the others alone. -/
theorem Once.weaken {os : List O} {trace : List (Action O)} (h : Once os trace) (os' : List O) :
    Once (os ++ os') trace := by
  simpa using h.append (Once.skips os')

/-- One evaluation after the other. -/
theorem Once.bind {σ ε α β : Type} {os os' : List O} {f : Eval O σ ε α} {next : α → Eval O σ ε β}
    {x : σ} (hf : Once os (f x).1) (hnext : ∀ a x', Once os' (next a x').1) :
    Once (os ++ os') ((f >>= next) x).1 := by
  show Once _ (Eval.bind f next x).1
  rw [Eval.bind]
  generalize f x = r at hf ⊢
  obtain ⟨trace, e | ⟨a, x'⟩⟩ := r
  · exact hf.weaken os'
  · exact hf.append (hnext a x')

/-- One evaluation, then something that evaluates nothing. -/
theorem Once.map {σ ε α β : Type} {os : List O} {f : Eval O σ ε α} {next : α → Eval O σ ε β}
    {x : σ} (hf : Once os (f x).1) (hnext : ∀ a x', (next a x').1 = []) :
    Once os ((f >>= next) x).1 := by
  have h : Once (os ++ []) ((f >>= next) x).1 := hf.bind fun a x' => (hnext a x').symm ▸ .nil
  rwa [List.append_nil] at h

end Operands

section Trace

variable {O V σ ε : Type} {m : Machine V σ ε} {eval : O → σ → Except ε (V × σ)}

theorem once_evaluateOperand (need : Need) (o : O) (x : σ) :
    Once [o] (evaluateOperand m eval need o x).1 := by
  rw [evaluateOperand]
  show Once _ (Eval.bind _ _ x).1
  rw [Eval.bind, Eval.act]
  obtain e | ⟨v, x'⟩ := eval o x
  · exact .evaluate .nil
  · by_cases hneed : need = .truth
    · simp only [if_pos hneed]
      show Once _ (_ ++ (Eval.bind _ _ x').1)
      rw [Eval.bind, Eval.act]
      obtain e | ⟨b, x''⟩ := m.truth v x'
      · exact .test .nil
      · exact .test .nil
    · simp only [if_neg hneed]
      exact .evaluate .nil

mutual

/-- An evaluation has each operand at most once, in order, and tests it at most once. -/
theorem Expr.once_evaluate : (e : Expr O) → (need : Need) → (x : σ) →
    Once e.operands (e.evaluate m eval need x).1
  | .operand o, need, x => by
    rw [Expr.operands, Expr.evaluate]
    exact once_evaluateOperand need o x
  | .group e, need, x => by
    rw [Expr.operands, Expr.evaluate]
    exact e.once_evaluate need x
  | .cast e, need, x => by
    rw [Expr.operands, Expr.evaluate]
    exact e.once_evaluate need x
  | .bang e, .effect, x => by
    rw [Expr.operands, Expr.evaluate]
    exact e.once_evaluate .effect x
  | .bang e, .value, x => by
    rw [Expr.operands, Expr.evaluate]
    · exact (e.once_evaluate .truth x).map fun _ _ => rfl
    · simp
  | .bang e, .truth, x => by
    rw [Expr.operands, Expr.evaluate]
    · exact (e.once_evaluate .truth x).map fun _ _ => rfl
    · simp
  | .logical op init last, need, x => by
    rw [Expr.operands, Expr.evaluate]
    exact once_evaluateInit op init (last.once_evaluate need) x

theorem once_evaluateInit (op : LogicalOp) : (init : List (Expr O)) →
    {last : Eval O σ ε (V × Bool)} → {os : List O} → (∀ x, Once os (last x).1) → (x : σ) →
    Once (operandsInit init ++ os) (evaluateInit m eval op init last x).1
  | [], _, _, hlast, x => by
    rw [operandsInit, evaluateInit]
    exact hlast x
  | e :: init, last, os, hlast, x => by
    rw [operandsInit, evaluateInit, List.append_assoc]
    refine (e.once_evaluate .truth x).bind fun (v, b) x' => ?_
    dsimp only
    split
    · exact once_evaluateInit op init hlast x'
    · exact Once.skips _

end

end Trace

/-! ### Running a graph -/

/-- A running graph: the block, the position in it, the stack with its top first, and the state. A
raised error ends the run. -/
inductive Config (V σ ε : Type) where
  | running (block pos : Nat) (stack : List V) (state : σ)
  | raised (e : ε)

namespace Machine

variable {V σ ε : Type} (m : Machine V σ ε)

/-- What an instruction does. -/
def execInst : Inst → List V → σ → Option (Except ε (List V × σ))
  | .pop, _ :: stack, x => some (.ok (stack, x))
  | .dup, v :: stack, x => some (.ok (v :: v :: stack, x))
  | .not, v :: stack, x => some (do
    let (b, x) ← m.truth v x
    return (m.ofBool (!b) :: stack, x))
  | .loadConst id, stack, x => some (.ok (m.const id :: stack, x))
  | inst, stack, x => m.exec inst stack x

/-- Where a terminator goes. -/
def execTerm : Term → List V → σ → Option (Except ε (Nat × List V × σ))
  | .branch target, stack, x => some (.ok (target, stack, x))
  | .cond onTrue onFalse, v :: stack, x => some (do
    let (b, x) ← m.truth v x
    return (if b then onTrue else onFalse, stack, x))
  | term, stack, x => m.jump term stack x

/-- On to the next instruction. -/
def next (block pos : Nat) : Except ε (List V × σ) → Config V σ ε
  | .ok (stack, x) => .running block pos stack x
  | .error e => .raised e

/-- On to the start of a block. -/
def enter : Except ε (Nat × List V × σ) → Config V σ ε
  | .ok (target, stack, x) => .running target 0 stack x
  | .error e => .raised e

/-- One instruction or terminator. -/
def step (g : Graph) : Config V σ ε → Option (Config V σ ε)
  | .raised _ => none
  | .running block pos stack x =>
    match g.blocks[block]? with
    | none => none
    | some b =>
      match b.insts[pos]? with
      | some inst => (m.execInst inst stack x).map (next block (pos + 1))
      | none => (m.execTerm b.term stack x).map enter

/-- A run of the graph from one configuration to another. As a step is a function, there is one run
only. -/
def Reaches (g : Graph) : Config V σ ε → Config V σ ε → Prop :=
  Relation.ReflTransGen fun c c' => m.step g c = some c'

variable {m} {g : Graph} {c c' : Config V σ ε} {block pos : Nat} {stack : List V} {x : σ}
  {b : Block}

theorem Reaches.single (h : m.step g c = some c') : m.Reaches g c c' :=
  Relation.ReflTransGen.single h

theorem step_inst {inst : Inst} (hinst : (g.insts block)[pos]? = some inst) :
    m.step g (.running block pos stack x) =
      (m.execInst inst stack x).map (next block (pos + 1)) := by
  rw [Graph.insts] at hinst
  rcases hb : g.blocks[block]? with _ | b
  · rw [hb] at hinst
    cases hinst
  · rw [hb] at hinst
    have hinst : b.insts[pos]? = some inst := hinst
    rw [step, hb]
    dsimp only
    rw [hinst]

theorem step_term (hb : g.blocks[block]? = some b) (hpos : b.insts.length ≤ pos) :
    m.step g (.running block pos stack x) = (m.execTerm b.term stack x).map enter := by
  rw [step, hb]
  dsimp only
  rw [List.getElem?_eq_none hpos]

end Machine

end Dolang.Compile
