import Dolang.Bytecode.Inst
import Dolang.Lib.Worklist

/-!
# The bytecode verifier

`dolang-bytecode/src/verify.rs`, pass by pass. A function is verified in three passes over its
code: `syntaxPass` decodes it and checks its immediates, `basicBlocks` finds the instructions that
start a basic block, and `dataflow` runs an abstract state through the blocks. With a certificate
the third pass checks the claimed state of every block (`FuncVerifier.check`). Without one it
computes the states as a fixed point (`FuncVerifier.compute`).

A `Vec` is a list with its last element at the end. The queue of the data flow loop is a worklist
(`Dolang.Lib.Worklist`), and the two searches by offset look for an equal key, as the offsets they
search are increasing. Error strings and debug output are left out.
-/

namespace Dolang.Bytecode

open Dolang.Rust

/-! ## Functions, certificates and limits -/

/-- A `Range<usize>`. -/
structure Span where
  start : Nat
  stop : Nat
  deriving DecidableEq, Repr

/-- `Range::len`. -/
def Span.len (s : Span) : Nat := s.stop - s.start

/-- The bytes of a range, where it is one of the string. -/
def Span.slice {α : Type} (s : Span) (bytes : List α) : Option (List α) :=
  if s.start ≤ s.stop ∧ s.stop ≤ bytes.length then some ((bytes.take s.stop).drop s.start)
  else none

/-- An argument of a pack. -/
inductive Arg where
  | value
  | pack
  | key (sym : Nat)
  deriving DecidableEq, Repr

/-- An entry of the function table. -/
structure Func where
  /-- Index in the unpack table of the function's parameters. -/
  sig : Nat
  locals : Nat
  /-- Sizes of the upvar records that the function captures, the innermost one last. -/
  upvars : List Nat
  /-- Span of the function's instructions in the code table. -/
  bytecode : Span
  deriving DecidableEq, Repr

/-- What is known of a local. -/
inductive LocalState where
  | invalid
  | value
  deriving DecidableEq, Repr

/-- The abstract state of a frame. -/
structure BlockState where
  /-- Depth of the operand stack. -/
  operands : Nat
  locals : List LocalState
  /-- Sizes of the upvar records in scope, the innermost one last. -/
  upvars : List Nat
  deriving DecidableEq, Repr

/-- The claimed state of every basic block but the first. -/
structure Certificate where
  maxOperandDepth : Nat
  blocks : List (Nat × BlockState)
  deriving DecidableEq, Repr

/-- `limit::UPVAR_TOTAL`. -/
def upvarTotal : Nat := 2^12

/-- The number of builtins, `BUILTINS.len()`. -/
def builtinsLen : Nat := 21

/-! ## Errors and context -/

/-- `verify::InstError`. -/
inductive InstError where
  | invalidOpcode
  | invalidElseKind
  | truncated
  | integerOverflow
  | operandDepthConflict (src into : Nat)
  | upvarDepthConflict (src into : Nat)
  | upvarCountConflict (depth src into : Nat)
  | noOpSwap
  | operandIndexOutOfBounds (i : Nat)
  | operandUnderflow
  | branchTargetOutOfBounds
  | branchTargetInvalid
  | constIndexOutOfBounds
  | symIndexOutOfBounds
  | builtinIndexOutOfBounds
  | localIndexOutOfBounds
  | localLoadUninitialized
  | upvarDepthOutOfBounds
  | upvarIndexOutOfBounds
  | upvarPushExceedsLimit
  | upvarUnderflow
  | packIndexOutOfBounds
  | unpackIndexOutOfBounds
  | funcIndexOutOfBounds
  | upvarSigMismatch
  | returnWithExcessOperands
  | returnWithExcessUpvars
  | instructionUnreachable
  | notAFixedPoint
  | reifyMismatch (i j : Nat)
  deriving DecidableEq, Repr

/-- `verify::FuncError`. -/
inductive FuncError where
  | inst (offset : Nat) (error : InstError)
  | unexpectedEnd
  | upvarLimitExceeded
  | basicBlockMismatch
  | operandDepthMismatch
  | unused
  deriving DecidableEq, Repr

/-- `verify::Context`: the tables that a function's code refers to. The arity of an unpack is a sum,
which can overflow. -/
structure Context where
  code : List UInt8
  function : Nat → Option Func
  pack : Nat → Option (List Arg)
  unpackArity : Nat → Exec Empty (Option Nat)
  symbolValid : Nat → Bool
  constantValid : Nat → Bool

/-- A context's arity within a computation that has errors of its own. -/
def Context.arity {ε : Type} (ctx : Context) (index : Nat) : Exec ε (Option Nat) :=
  mapErr Empty.elim (ctx.unpackArity index)

/-- The arity of an unpack that an earlier pass has looked up. -/
def Context.arityUnwrap {ε : Type} (ctx : Context) (index : Nat) : Exec ε Nat := do
  unwrap (← ctx.arity index)

/-! ## Block states -/

/-- `LocalState::merge`. -/
def LocalState.merge : LocalState → LocalState → LocalState
  | .value, .value => .value
  | _, _ => .invalid

/-- `BlockState::neutral`: the operand depth `usize::MAX` marks it. -/
def BlockState.neutral : BlockState := ⟨usizeMax, [], []⟩

/-- The first pair of upvar counts that differ, with its depth from the innermost record. -/
def upvarConflict : List Nat → List Nat → Option (Nat × Nat × Nat)
  | l :: ls, r :: rs => if l ≠ r then some (ls.length, l, r) else upvarConflict ls rs
  | _, _ => none

/-- The locals of `into` merged with those of `from` as far as both lists reach. -/
def mergeLocals : List LocalState → List LocalState → List LocalState
  | l :: ls, r :: rs => l.merge r :: mergeLocals ls rs
  | _, into => into

/-- `BlockState::merge`: the merged state of `into`. -/
def BlockState.merge (self into : BlockState) : Exec InstError BlockState :=
  if into.operands = usizeMax then .ok self
  else if self.operands ≠ into.operands then
    fail (.operandDepthConflict self.operands into.operands)
  else if self.upvars.length ≠ into.upvars.length then
    fail (.upvarDepthConflict self.upvars.length into.upvars.length)
  else
    match upvarConflict self.upvars into.upvars with
    | some (depth, l, r) => fail (.upvarCountConflict depth l r)
    | none => .ok { into with locals := mergeLocals self.locals into.locals }

/-- `BlockState::pop`. -/
def BlockState.pop (b : BlockState) : Exec InstError BlockState := do
  let operands ← okOr .operandUnderflow (checkedSub b.operands 1)
  return { b with operands := operands }

/-- `BlockState::push`. -/
def BlockState.push (b : BlockState) : Exec InstError BlockState := do
  let operands ← strictAdd b.operands 1
  return { b with operands := operands }

/-- `for _ in 0..n { block.pop()? }`. -/
def BlockState.popN (b : BlockState) : Nat → Exec InstError BlockState
  | 0 => .ok b
  | n + 1 => do (← b.pop).popN n

/-- `for _ in 0..n { block.push() }`. -/
def BlockState.pushN (b : BlockState) : Nat → Exec InstError BlockState
  | 0 => .ok b
  | n + 1 => do (← b.push).pushN n

/-- The sum of upvar counts, saturating. -/
def upvarSum (upvars : List Nat) : Nat := upvars.foldl saturatingAdd 0

/-! ## Pass 0: syntax -/

/-- An instruction's offset and whether it starts a basic block. -/
structure OffsetInfo where
  offset : Nat
  startBb : Bool
  deriving DecidableEq, Repr

/-- The error of `syntax` for a decoding error. -/
def decodeFailure : DecError → FuncError
  | .invalidOpcode offset => .inst offset .invalidOpcode
  | .truncated offset => .inst offset .truncated
  | .integerOverflow offset => .inst offset .integerOverflow

/-- The branch target of an instruction that ends at `after` is inside the code. -/
def targetInBounds (after : Nat) (target : Int) (bytecodeLen : Nat) : Bool :=
  match checkedAddSigned after target with
  | some abs => abs < bytecodeLen
  | none => false

/-- The checks that `syntax` makes of one instruction. The result says whether the next instruction
starts a basic block, and which function is used. -/
def checkInst (ctx : Context) (func : Func) (i : InstOffsets) :
    Exec FuncError (Bool × List Nat) := do
  let err : InstError → FuncError := .inst i.before
  let check (c : Bool) (e : InstError) : Exec FuncError Unit := if c then .ok () else fail (err e)
  let inBounds (target : Int) := targetInBounds i.after target func.bytecode.len
  match i.inst with
  | .swap a b =>
    check (a != b) .noOpSwap
    return (false, [])
  | .call sig | .reify sig =>
    check (ctx.pack sig).isSome .packIndexOutOfBounds
    return (false, [])
  | .methodCall sym sig =>
    check (ctx.symbolValid sym) .symIndexOutOfBounds
    check (ctx.pack sig).isSome .packIndexOutOfBounds
    return (false, [])
  | .builtin idx sig =>
    check (idx < builtinsLen) .builtinIndexOutOfBounds
    check (ctx.pack sig).isSome .packIndexOutOfBounds
    return (false, [])
  | .loadConst index =>
    check (ctx.constantValid index) .constIndexOutOfBounds
    return (false, [])
  | .loadLocal index | .storeLocal index =>
    check (index < func.locals) .localIndexOutOfBounds
    return (false, [])
  | .get index | .set index =>
    check (ctx.symbolValid index) .symIndexOutOfBounds
    return (false, [])
  | .close index | .nlGuard index =>
    check (ctx.function index).isSome .funcIndexOutOfBounds
    return (false, [index])
  | .branch target | .branchTrue target | .branchFalse target =>
    check (inBounds target) .branchTargetOutOfBounds
    return (true, [])
  | .unpack index =>
    check (← ctx.arity index).isSome .unpackIndexOutOfBounds
    return (false, [])
  | .elseFallthrough kind =>
    check (kind ≤ 1) .invalidElseKind
    return (true, [])
  | .nlBranch _ _ => return (true, [])
  | .unpackBranch index target =>
    check (← ctx.arity index).isSome .unpackIndexOutOfBounds
    check (inBounds target) .branchTargetOutOfBounds
    return (true, [])
  | _ => return (false, [])

/-- What `syntax` leaves behind: the instruction offsets, the functions used and the last
instruction. -/
structure SyntaxInfo where
  offsets : List OffsetInfo
  uses : List Nat
  last : Inst
  deriving DecidableEq, Repr

/-- The loop of `syntax` over the decoded instructions. -/
def syntaxLoop (ctx : Context) (func : Func) :
    List (Except DecError InstOffsets) → Bool → Inst → Exec FuncError SyntaxInfo
  | [], _, last => .ok ⟨[], [], last⟩
  | .error e :: _, _, _ => fail (decodeFailure e)
  | .ok i :: items, needBb, _ => do
    let (needBb', uses) ← checkInst ctx func i
    let info ← syntaxLoop ctx func items needBb' i.inst
    return ⟨⟨i.before, needBb⟩ :: info.offsets, uses ++ info.uses, info.last⟩

/-- The instructions that may end a function. -/
def Inst.mayEnd : Inst → Bool
  | .ret | .branch _ | .nlBranch _ _ | .elseFallthrough _ => true
  | _ => false

/-- `FuncVerifier::syntax`. -/
def syntaxPass (ctx : Context) (func : Func) : Exec FuncError SyntaxInfo := do
  if upvarSum func.upvars > upvarTotal then fail .upvarLimitExceeded
  let bytecode ← unwrap (func.bytecode.slice ctx.code)
  let info ← syntaxLoop ctx func (insts bytecode 0) true .ret
  if info.last.mayEnd then return info else fail .unexpectedEnd

/-! ## Pass 1: basic blocks -/

/-- A basic block in the data flow pass. -/
structure Block where
  offset : Nat
  /-- The block's state changed (no certificate), or the block was reached (certificate). -/
  mark : Bool
  state : BlockState
  deriving DecidableEq, Repr

/-- The displacement of an instruction that branches. -/
def Inst.branchTarget : Inst → Option Int
  | .branch target | .branchTrue target | .branchFalse target | .unpackBranch _ target =>
    some target
  | _ => none

/-- Let the instruction at `target` start a basic block. -/
def startBlock (target : Nat) (offsets : List OffsetInfo) : Option (List OffsetInfo) :=
  if offsets.any (·.offset == target) then
    some (offsets.map fun o => if o.offset = target then { o with startBb := true } else o)
  else none

/-- The loop of `basic_blocks` over the decoded instructions. -/
def markTargets :
    List (Except DecError InstOffsets) → List OffsetInfo → Exec FuncError (List OffsetInfo)
  | [], offsets => .ok offsets
  | .error _ :: _, _ => abort
  | .ok i :: items, offsets =>
    match i.inst.branchTarget with
    | none => markTargets items offsets
    | some target => do
      let offset ← unwrap (checkedAddSigned i.after target)
      let offsets ← okOr (.inst i.before .branchTargetInvalid) (startBlock offset offsets)
      markTargets items offsets

/-- The offsets that start a basic block. -/
def leaders (offsets : List OffsetInfo) : List Nat :=
  (offsets.filter (·.startBb)).map (·.offset)

/-- `FuncVerifier::basic_blocks`. -/
def basicBlocks (ctx : Context) (func : Func) (offsets : List OffsetInfo)
    (cert : Option Certificate) : Exec FuncError (List Block) := do
  let bytecode ← unwrap (func.bytecode.slice ctx.code)
  let offsets ← markTargets (insts bytecode 0) offsets
  match cert with
  | some cert =>
    -- The subtraction underflows when there is no instruction at all.
    let count ← unwrap (checkedSub (leaders offsets).length 1)
    if cert.blocks.length ≠ count ∨ (leaders offsets).drop 1 ≠ cert.blocks.map (·.1) then
      fail .basicBlockMismatch
    return ⟨0, false, .neutral⟩ :: cert.blocks.map fun (offset, state) => ⟨offset, false, state⟩
  | none => return (leaders offsets).map fun offset => ⟨offset, false, .neutral⟩

/-! ## Pass 2: data flow -/

/-- `FuncVerifier::step`: the effect of one instruction on the state of a block. -/
def step (ctx : Context) (func : Func) (block : BlockState) (inst : Inst) :
    Exec InstError BlockState :=
  match inst with
  | .branch _ => .ok block
  | .neg | .not | .bitNot => do (← block.pop).push
  | .add | .div | .ediv | .mod | .mul | .bitAnd | .bitOr | .bitXor | .shl | .shr | .eq | .ne
  | .gt | .lt | .gte | .lte | .sub => do (← (← block.pop).pop).push
  | .dup => do (← (← block.pop).push).push
  | .pick n => if block.operands ≤ n then fail (.operandIndexOutOfBounds n) else block.push
  | .swap i j =>
    if block.operands ≤ i then fail (.operandIndexOutOfBounds i)
    else if block.operands ≤ j then fail (.operandIndexOutOfBounds j)
    else .ok block
  | .pop | .branchTrue _ | .branchFalse _ => block.pop
  | .loadLocal index => do
    let local_ ← unwrap block.locals[index]?
    if local_ = .invalid then fail .localLoadUninitialized else block.push
  | .storeLocal index => do
    let block ← block.pop
    if index < block.locals.length then
      return { block with locals := block.locals.set index .value }
    else abort
  | .call index | .methodCall _ index => do
    let args ← unwrap (ctx.pack index)
    (← (← block.popN args.length).pop).push
  | .builtin _ sig => do
    let args ← unwrap (ctx.pack sig)
    (← block.popN args.length).push
  | .loadConst _ => block.push
  | .loadUpvar index depth => do
    if block.upvars.length ≤ depth then fail .upvarDepthOutOfBounds
    let count ← unwrap block.upvars[block.upvars.length - 1 - depth]?
    if count ≤ index then fail .upvarIndexOutOfBounds
    block.push
  | .storeUpvar index depth => do
    if block.upvars.length ≤ depth then fail .upvarDepthOutOfBounds
    let count ← unwrap block.upvars[block.upvars.length - 1 - depth]?
    if count ≤ index then fail .upvarIndexOutOfBounds
    block.pop
  | .get _ => do (← block.pop).push
  | .set _ => do (← block.pop).pop
  | .index => do (← (← block.pop).pop).push
  | .assign => do (← (← block.pop).pop).pop
  | .pushUpvars count =>
    let upvars := block.upvars ++ [count]
    if upvarSum upvars > upvarTotal then fail .upvarPushExceedsLimit
    else .ok { block with upvars := upvars }
  | .popUpvars =>
    if block.upvars.length = func.upvars.length then fail .upvarUnderflow
    else .ok { block with upvars := block.upvars.dropLast }
  | .close index => do
    let callee ← okOr .funcIndexOutOfBounds (ctx.function index)
    if callee.upvars ≠ block.upvars then fail .upvarSigMismatch
    block.push
  | .ret => do
    let block ← block.pop
    if block.operands ≠ 0 then fail .returnWithExcessOperands
    if block.upvars.length ≠ func.upvars.length then fail .returnWithExcessUpvars
    return block
  | .reify index => do
    if block.upvars.length = func.upvars.length then fail .upvarUnderflow
    let count ← unwrap block.upvars.getLast?
    let args ← unwrap (ctx.pack index)
    if count ≠ args.length then fail (.reifyMismatch count args.length)
    { block with upvars := block.upvars.dropLast }.push
  | .next => do (← (← block.pop).push).push
  | .unpack index => do
    let arity ← ctx.arityUnwrap index
    (← block.pop).pushN arity
  | .nlGuard index => do
    let callee ← okOr .funcIndexOutOfBounds (ctx.function index)
    -- The guard's marker is a record of no values.
    if callee.upvars ≠ block.upvars ++ [0] then fail .upvarSigMismatch
    (← block.push).push
  | .elseFallthrough _ => .ok block
  | .nlBranch depth _ =>
    if block.upvars.length ≤ depth then fail .upvarDepthOutOfBounds else .ok block
  | .unpackBranch _ _ => block.pop

/-- `FuncVerifier::edge_state`: the effect of an instruction along one of its edges. -/
def edgeState (ctx : Context) (inst : Inst) (taken : Bool) (state : BlockState) :
    Exec InstError BlockState :=
  match inst, taken with
  | .unpackBranch index _, false => do state.pushN (← ctx.arityUnwrap index)
  | _, _ => .ok state

/-- The instructions after which control does not fall through. -/
def Inst.stops : Inst → Bool
  | .branch _ | .ret | .nlBranch _ _ | .elseFallthrough _ => true
  | _ => false

/-- The state of the loop over the instructions of a block: the block state, the maximum operand
depth and the last instruction. -/
structure Walk where
  state : BlockState
  depth : Nat
  last : InstOffsets
  deriving DecidableEq, Repr

/-- The loop of `dataflow` over the instructions of a block. -/
def walk (ctx : Context) (func : Func) :
    List (Except DecError InstOffsets) → Walk → Exec FuncError Walk
  | [], w => .ok w
  | .error _ :: _, _ => abort
  | .ok i :: items, w => do
    let state ← mapErr (.inst i.before) (step ctx func w.state i.inst)
    walk ctx func items ⟨state, max w.depth state.operands, i⟩

/-- The state of the data flow pass: the blocks and the maximum operand depth. -/
structure Flow where
  blocks : List Block
  maxOperandDepth : Nat
  deriving DecidableEq, Repr

/-- An edge state, which is not expected to fail. -/
def edge (ctx : Context) (last : InstOffsets) (taken : Bool) (state : BlockState) :
    Exec FuncError BlockState :=
  mapErr (.inst last.before) (edgeState ctx last.inst taken state)

/-- The block after `bb`, where control falls through to it from the block's last instruction. -/
def nextBlock (starts : List Nat) (bb : Nat) (last : Inst) : Option Nat :=
  if last.stops then none else if bb + 1 ≠ starts.length then some (bb + 1) else none

/-- The block that the last instruction of a block branches to. -/
def branchBlock (starts : List Nat) (last : InstOffsets) : Exec FuncError (Option Nat) :=
  match last.inst.branchTarget with
  | none => .ok none
  | some target => do
    let offset ← unwrap (checkedAddSigned last.after target)
    let sid ← unwrap (starts.idxOf? offset)
    return some sid

/-- A successor with the state that reaches it. -/
def edgeTo (ctx : Context) (w : Walk) (taken : Bool) :
    Option Nat → Exec FuncError (List (Nat × BlockState))
  | some sid => do
    let state ← edge ctx w.last taken w.state
    return [(sid, state)]
  | none => return []

/-- The successors of a block, each with the state that reaches it. -/
def successors (ctx : Context) (starts : List Nat) (bb : Nat) (w : Walk) :
    Exec FuncError (List (Nat × BlockState)) := do
  let branch ← branchBlock starts w.last
  let fall ← edgeTo ctx w false (nextBlock starts bb w.last.inst)
  let taken ← edgeTo ctx w true branch
  return fall ++ taken

/-- The instructions of a block: those of the code cut at the offset of the next block. -/
def blockInsts (bytecode : List UInt8) (starts : List Nat) (bb start : Nat) :
    Exec FuncError (List (Except DecError InstOffsets)) :=
  match starts[bb + 1]? with
  | some stop => if stop ≤ bytecode.length then .ok (insts (bytecode.take stop) start) else abort
  | none => .ok (insts bytecode start)

/-- The maximum of a depth and the operand depths of edge states. -/
def edgeDepth (depth : Nat) (succs : List (Nat × BlockState)) : Nat :=
  succs.foldl (fun d s => max d s.2.operands) depth

/-- The part of the loop of `dataflow` that runs a block from its state: the successors of the block
with the states that reach them, and the maximum operand depth. The blocks are given by their
offsets. -/
def flowBlock (ctx : Context) (func : Func) (bytecode : List UInt8) (starts : List Nat) (bb : Nat)
    (state : BlockState) (depth : Nat) : Exec FuncError (List (Nat × BlockState) × Nat) := do
  let start ← unwrap starts[bb]?
  let items ← blockInsts bytecode starts bb start
  let w ← walk ctx func items ⟨state, depth, ⟨0, .pop, 0⟩⟩
  let succs ← successors ctx starts bb w
  return (succs, edgeDepth w.depth succs)

/-- Bring the state that reaches a block together with the block's own, with a certificate: the
claimed state must not change. The result is what to push on the queue. -/
def checkEdge (sid : Nat) (edge : BlockState) (blocks : List Block) :
    Exec FuncError (List Block × List Nat) := do
  let succ ← unwrap blocks[sid]?
  let claimed ← mapErr (.inst succ.offset) (edge.merge succ.state)
  if claimed ≠ succ.state then fail (.inst succ.offset .notAFixedPoint)
  return (blocks.set sid { succ with mark := true }, if succ.mark then [] else [sid])

/-- Bring the state that reaches a block together with the block's own, without a certificate: a
changed block is visited again. The result is what to push on the queue. -/
def mergeEdge (sid : Nat) (edge : BlockState) (blocks : List Block) :
    Exec FuncError (List Block × List Nat) := do
  let succ ← unwrap blocks[sid]?
  let state ← mapErr (.inst succ.offset) (edge.merge succ.state)
  let changed := !succ.mark && state != succ.state
  return (blocks.set sid { succ with state := state, mark := succ.mark || changed },
    if changed then [sid] else [])

/-- The loop of `dataflow` over the successors of a block. What is pushed last comes first. -/
def mergeEdges (checking : Bool) :
    List (Nat × BlockState) → List Block → Exec FuncError (List Block × List Nat)
  | [], blocks => .ok (blocks, [])
  | (sid, edge) :: succs, blocks => do
    let (blocks, pushed) ←
      if checking then checkEdge sid edge blocks else mergeEdge sid edge blocks
    let (blocks, pushed') ← mergeEdges checking succs blocks
    return (blocks, pushed' ++ pushed)

/-- The body of the loop of `dataflow`, for the block taken off the queue. -/
def visit (ctx : Context) (func : Func) (bytecode : List UInt8) (checking : Bool) (bb : Nat)
    (flow : Flow) : Exec FuncError (Flow × List Nat) := do
  let block ← unwrap flow.blocks[bb]?
  let starts := flow.blocks.map (·.offset)
  let (succs, depth) ← flowBlock ctx func bytecode starts bb block.state flow.maxOperandDepth
  let blocks := if checking then flow.blocks else flow.blocks.set bb { block with mark := false }
  let (blocks, pushed) ← mergeEdges checking succs blocks
  return (⟨blocks, depth⟩, pushed)

/-- The state of a function's entry block: its parameters on the operand stack, no local set. -/
def entryState (func : Func) (operands : Nat) : BlockState :=
  ⟨operands, List.replicate func.locals .invalid, func.upvars⟩

/-- `FuncVerifier::dataflow`, with a bound on the number of blocks taken off the queue. -/
def dataflow (ctx : Context) (func : Func) (checking : Bool) (blocks : List Block) (fuel : Nat) :
    Exec FuncError Flow := do
  let bytecode ← unwrap (func.bytecode.slice ctx.code)
  let operands ← ctx.arityUnwrap func.sig
  let first ← unwrap blocks.head?
  let blocks := blocks.set 0 { first with state := entryState func operands, mark := true }
  let flow ← Worklist.run (visit ctx func bytecode checking) fuel ⟨blocks, operands⟩ [0]
  if checking then
    match flow.blocks.find? (!·.mark) with
    | some block => fail (.inst block.offset .instructionUnreachable)
    | none => return flow
  else return flow

/-- `FuncVerifier::compute`: the certificate and the functions used. -/
def FuncVerifier.compute (ctx : Context) (func : Func) (fuel : Nat) :
    Exec FuncError (Certificate × List Nat) := do
  let info ← syntaxPass ctx func
  let blocks ← basicBlocks ctx func info.offsets none
  let flow ← dataflow ctx func false blocks fuel
  return (⟨flow.maxOperandDepth, (flow.blocks.drop 1).map fun b => (b.offset, b.state)⟩, info.uses)

/-- `FuncVerifier::check`: the functions used. -/
def FuncVerifier.check (ctx : Context) (func : Func) (cert : Certificate) (fuel : Nat) :
    Exec FuncError (List Nat) := do
  let info ← syntaxPass ctx func
  let blocks ← basicBlocks ctx func info.offsets (some cert)
  let flow ← dataflow ctx func true blocks fuel
  if cert.maxOperandDepth ≠ flow.maxOperandDepth then fail .operandDepthMismatch
  return info.uses

/-! ## All functions -/

/-- `verify::Error`. -/
structure VerifyError where
  func : Nat
  error : FuncError
  deriving DecidableEq, Repr

/-- A function's entry in the use relation. -/
structure Used where
  used : Bool
  uses : List Nat
  deriving DecidableEq, Repr

/-- The loop of `verify_used` over the functions that one function uses. -/
def markUses : List Nat → List Used → Exec VerifyError (List Used × List Nat)
  | [], used => .ok (used, [])
  | reli :: rest, used => do
    let rel ← unwrap used[reli]?
    if rel.used then markUses rest used
    else do
      let (used, pushed) ← markUses rest (used.set reli { rel with used := true })
      return (used, pushed ++ [reli])

/-- The body of the loop of `verify_used`. -/
def visitUsed (index : Nat) (used : List Used) : Exec VerifyError (List Used × List Nat) := do
  let entry ← unwrap used[index]?
  markUses entry.uses used

/-- `Verifier::verify_used`. -/
def verifyUsed (used : List Used) (fuel : Nat) : Exec VerifyError Unit := do
  let entry ← unwrap used.head?
  let used ← Worklist.run visitUsed fuel (used.set 0 { entry with used := true }) [0]
  match used.findIdx? (!·.used) with
  | some i => fail ⟨i, .unused⟩
  | none => return

/-- The loop of `Verifier::check` over the functions, from the index of the first one. -/
def checkFuncs (ctx : Context) (fuel : Nat) :
    Nat → List (Func × Certificate) → Exec VerifyError (List Used)
  | _, [] => .ok []
  | i, (func, cert) :: funcs => do
    let uses ← mapErr (⟨i, ·⟩) (FuncVerifier.check ctx func cert fuel)
    return ⟨false, uses⟩ :: (← checkFuncs ctx fuel (i + 1) funcs)

/-- `Verifier::check`. -/
def Verifier.check (ctx : Context) (funcs : List (Func × Certificate)) (fuel : Nat) :
    Exec VerifyError Unit := do
  verifyUsed (← checkFuncs ctx fuel 0 funcs) fuel

/-- The loop of `Verifier::compute` over the functions, from the index of the first one. -/
def computeFuncs (ctx : Context) (fuel : Nat) :
    Nat → List Func → Exec VerifyError (List (Certificate × Used))
  | _, [] => .ok []
  | i, func :: funcs => do
    let (cert, uses) ← mapErr (⟨i, ·⟩) (FuncVerifier.compute ctx func fuel)
    return (cert, ⟨false, uses⟩) :: (← computeFuncs ctx fuel (i + 1) funcs)

/-- `Verifier::compute`. -/
def Verifier.compute (ctx : Context) (funcs : List Func) (fuel : Nat) :
    Exec VerifyError (List Certificate) := do
  let certs ← computeFuncs ctx fuel 0 funcs
  verifyUsed (certs.map (·.2)) fuel
  return certs.map (·.1)

end Dolang.Bytecode
