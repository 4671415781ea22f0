import Dolang.Runtime.Frame

/-!
# The interpreter

`Vm::step` of `dolang-runtime/src/interp.rs`. Many instructions apply an operation to values: a call,
arithmetic, a conversion to a truth value. The operation runs outside of the frame and may itself
call functions, so such an instruction has two halves. `step` runs up to the operation and leaves the
frame waiting. `resume` goes on with what the operation gave, which may be any value or error.

A machine has the frames that were started, the upvar records and the functions that were made. In
one action a frame takes a step or resumes, or some function that was made is called with some
arguments, by a waiting frame or from elsewhere. A run is a list of actions, so the statements about
all runs cover every nesting of calls, every order of frames and every outcome of an operation.
-/

namespace Dolang.Runtime

open Dolang.Rust Dolang.Bytecode

/-! ## One instruction -/

/-- What the frames of a program share: upvar records, and functions with their captured records. -/
structure Shared where
  heap : Heap
  closures : List (Nat × Option Nat)

/-- Allocates an upvar record around the current one. -/
def Shared.alloc (st : Shared) (parent : Option Nat) (vars : List Value) : Shared × Nat :=
  ({ st with heap := st.heap ++ [⟨parent, vars, false⟩] }, st.heap.length)

/-- `Value::function`. -/
def Shared.function (st : Shared) (func : Nat) (upvars : Option Nat) : Shared :=
  { st with closures := (func, upvars) :: st.closures }

/-- `frame.upvars.take().unwrap()` and the record around it. -/
def Shared.popUpvars (st : Shared) (f : CallFrame) : Exec Thrown (Nat × CallFrame) := do
  let p ← unwrap f.upvars
  let r ← unwrap st.heap[p]?
  return (p, { f with upvars := r.parent })

/-- The slots of arguments that are collected one by one. Only a pack that is expanded stays. -/
def takenArgs (f : CallFrame) (args : List SigArg) : List Value :=
  let start := f.sp - args.length
  f.slots.mapIdx fun i v =>
    if start ≤ i ∧ i < f.sp ∧ args.getD (i - start) .expand ≠ .expand then .nil else v

/-- `Vm::marshal_args`: the arguments of a call lie on top of the stack, above `headroom` slots. -/
def marshalArgs (f : CallFrame) (sig : Pack) (headroom : Nat) : Exec Thrown CallFrame :=
  if f.base + sig.len + headroom ≤ f.sp ∧ f.sp ≤ f.slots.length then
    match sig with
    | .fixed _ => .ok f
    | .var args => .ok { f with slots := takenArgs f args }
  else abort

/-- The callee or receiver of a call and its arguments. -/
def beginCall (f : CallFrame) (sig : Pack) : Exec Thrown CallFrame := do
  let i ← unwrap (checkedSub f.sp (sig.len + 1))
  let (_, f) ← f.take i
  marshalArgs f sig 1

/-- The slots of an unpack. -/
def beginUnpack (program : Program) (f : CallFrame) (index : Nat) : Exec Thrown CallFrame := do
  let (_, f) ← f.pop
  let sig ← unwrap program.unpacktab[index]?
  f.reserve sig.len

/-- Leaves a frame waiting. -/
def CallFrame.wait (f : CallFrame) (i : InstOffsets) : CallFrame := { f with status := .waiting i }

/-- `Vm::step` up to the operation that the instruction applies, or to its end. The decoder is
behind the instruction. -/
def exec (program : Program) (st : Shared) (f : CallFrame) (i : InstOffsets) :
    Exec Thrown (Shared × CallFrame) :=
  match i.inst with
  | .pop => do
    let (_, f) ← f.pop
    return (st, f)
  | .dup => do return (st, ← f.dup)
  | .pick n => do return (st, ← f.pick n)
  | .swap a b => do return (st, ← f.swap a b)
  | .loadConst index => do
    let value ← unwrap program.consttab[index]?
    return (st, ← f.push (.const value))
  | .loadLocal index => do
    let value ← f.load index
    return (st, ← f.push value)
  | .loadUpvar index depth => do
    let value ← Upvars.getUnchecked st.heap f.upvars index depth
    return (st, ← f.push value)
  | .storeLocal index => do
    let (value, f) ← f.pop
    return (st, ← f.store index value)
  | .storeUpvar index depth => do
    let (value, f) ← f.pop
    let heap ← Upvars.setUnchecked st.heap f.upvars index depth value
    return ({ st with heap }, f)
  | .get sym => do
    let _ ← unwrap program.symtab[sym]?
    let (_, f) ← f.pop
    return (st, f.wait i)
  | .set sym => do
    let _ ← unwrap program.symtab[sym]?
    let (_, f) ← f.pop
    let (_, f) ← f.pop
    return (st, f.wait i)
  | .assign => do
    let (_, f) ← f.pop
    let (_, f) ← f.pop
    let (_, f) ← f.pop
    return (st, f.wait i)
  | .pushUpvars count =>
    let (st, p) := st.alloc f.upvars (List.replicate count .nil)
    .ok (st, { f with upvars := some p })
  | .popUpvars => do
    let (_, f) ← st.popUpvars f
    return (st, f)
  | .call index => do
    let sig ← unwrap program.packtab[index]?
    return (st, (← beginCall f sig).wait i)
  | .methodCall sym index => do
    let _ ← unwrap program.symtab[sym]?
    let sig ← unwrap program.packtab[index]?
    return (st, (← beginCall f sig).wait i)
  | .builtin index sig => do
    let sig ← unwrap program.packtab[sig]?
    let f ← marshalArgs f sig 0
    -- Every builtin has a case and the rest is `unreachable_unchecked`.
    if index < builtinsLen then return (st, f.wait i) else abort
  | .neg | .not | .bitNot | .next | .branchTrue _ | .branchFalse _ => do
    let (_, f) ← f.pop
    return (st, f.wait i)
  | .bitAnd | .bitOr | .bitXor | .shl | .shr | .add | .sub | .mul | .div | .ediv | .mod | .eq | .ne
  | .lt | .gt | .lte | .gte | .index => do
    let (_, f) ← f.pop
    let (_, f) ← f.pop
    return (st, f.wait i)
  | .close index => do
    let f' ← f.push (.function index f.upvars)
    return (st.function index f.upvars, f')
  | .ret => do
    let (_, f) ← f.pop
    return (st, { f with status := .done })
  | .branch offset => do
    -- A backward branch first gives way to interrupts and the collector.
    if offset < 0 then return (st, f.wait i)
    return (st, ← f.seek offset)
  | .reify index => do
    let sig ← unwrap program.packtab[index]?
    let (p, f) ← st.popUpvars f
    match sig with
    | .fixed syms => return (st, ← f.push (.module p syms))
    | .var _ => abort
  | .unpack index | .unpackBranch index _ => do
    return (st, (← beginUnpack program f index).wait i)
  | .elseFallthrough kind => fail (.elseFallthrough kind)
  | .nlBranch depth indicator => do
    let p ← Upvars.atDepth st.heap f.upvars depth
    let r ← unwrap st.heap[p]?
    if r.stale then fail .staleBranch
    fail (.nonLocalJump (indicator % 2^8) p)
  | .nlGuard index =>
    let (st, p) := st.alloc f.upvars []
    .ok (st.function index (some p), { f with upvars := some p }.wait i)

/-- What an operation gives: a value, a truth value, or values written to the slots of an unpack. -/
structure Reply where
  value : Value
  flag : Bool
  items : List Value

/-- The end of a call. -/
def endCall (f : CallFrame) (count : Nat) (value : Value) : Exec Thrown CallFrame := do
  let f ← f.discard count
  f.push value

/-- Branches if a condition holds. -/
def seekIf (f : CallFrame) (c : Bool) (offset : Int) : Exec Thrown CallFrame :=
  if c then f.seek offset else .ok f

/-- The end of a guard: its marker becomes stale and is popped. -/
def endGuard (st : Shared) (f : CallFrame) (out : Except Thrown Reply) :
    Exec Thrown (Shared × CallFrame) := do
  let p ← unwrap f.upvars
  let r ← unwrap st.heap[p]?
  let st := { st with heap := st.heap.set p { r with stale := true } }
  match out with
  | .ok reply => do
    let f ← f.push reply.value
    let f ← f.push .nil
    let (_, f) ← st.popUpvars f
    return (st, f)
  | .error (.nonLocalJump indicator target) => do
    if target = p then do
      let f ← f.push .nil
      let f ← f.push (.const (.int indicator))
      let (_, f) ← st.popUpvars f
      return (st, f)
    else fail (.nonLocalJump indicator target)
  | .error e => fail e

/-- `Vm::step` from the operation on. -/
def resume (program : Program) (st : Shared) (f : CallFrame) (i : InstOffsets)
    (out : Except Thrown Reply) : Exec Thrown (Shared × CallFrame) :=
  let f := { f with status := .running }
  match i.inst, out with
  | .nlGuard _, out => endGuard st f out
  -- An error of the operation leaves the interpreter.
  | _, .error e => fail e
  | .call index, .ok reply | .methodCall _ index, .ok reply => do
    let sig ← unwrap program.packtab[index]?
    return (st, ← endCall f (sig.len + 1) reply.value)
  | .builtin _ index, .ok reply => do
    let sig ← unwrap program.packtab[index]?
    return (st, ← endCall f sig.len reply.value)
  | .get _, .ok reply | .index, .ok reply | .neg, .ok reply | .not, .ok reply | .bitNot, .ok reply
  | .bitAnd, .ok reply | .bitOr, .ok reply | .bitXor, .ok reply | .shl, .ok reply | .shr, .ok reply
  | .add, .ok reply | .sub, .ok reply | .mul, .ok reply | .div, .ok reply | .ediv, .ok reply
  | .mod, .ok reply | .eq, .ok reply | .ne, .ok reply | .lt, .ok reply | .gt, .ok reply
  | .lte, .ok reply | .gte, .ok reply => do
    return (st, ← f.push reply.value)
  | .next, .ok reply => do
    let f ← f.push reply.value
    return (st, ← f.push (.const (.bool reply.flag)))
  | .branch offset, .ok _ => do return (st, ← f.seek offset)
  | .branchTrue offset, .ok reply => do return (st, ← seekIf f reply.flag offset)
  | .branchFalse offset, .ok reply => do return (st, ← seekIf f (!reply.flag) offset)
  | .unpack index, .ok reply => do
    let sig ← unwrap program.unpacktab[index]?
    return (st, f.fill sig.len reply.items)
  | .unpackBranch index offset, .ok reply => do
    let sig ← unwrap program.unpacktab[index]?
    if reply.flag then return (st, f.fill sig.len reply.items)
    let f ← f.discard sig.len
    return (st, ← f.seek offset)
  | _, .ok _ => .ok (st, f)

/-- The code of a frame's function. -/
def CallFrame.code (program : Program) (f : CallFrame) : Exec Thrown (List UInt8) := do
  let (info, _) ← unwrap program.funcs[f.func]?
  unwrap (info.bytecode.slice program.bytecode)

/-- The instruction that the decoder reads, which has to be there. -/
def fetch (code : List UInt8) (pc : Nat) : Exec Thrown InstOffsets :=
  match next code pc with
  | some (.ok (inst, after)) => .ok ⟨pc, inst, after⟩
  | _ => abort

/-- One turn of the loop of `Vm::run`, up to an operation. -/
def step (program : Program) (st : Shared) (f : CallFrame) : Exec Thrown (Shared × CallFrame) := do
  let code ← f.code program
  let i ← fetch code f.pc
  exec program st { f with pc := i.after } i

/-! ## Machines -/

/-- The frames of a program and what they share. -/
structure Machine where
  shared : Shared
  frames : List CallFrame

/-- What happens next. -/
inductive Action where
  /-- A running frame goes on. -/
  | step (k : Nat)
  /-- An operation that a frame waits for ends. -/
  | resume (k : Nat) (out : Except Thrown Reply)
  /-- A function that was made is called. -/
  | call (closure : Nat) (args : List CallArg)

/-- Puts back a frame, which has ended if an error has left it. -/
def Machine.settle (m : Machine) (k : Nat) (f : CallFrame) :
    Exec Thrown (Shared × CallFrame) → Exec Empty Machine
  | .ok (shared, f') => .ok ⟨shared, m.frames.set k f'⟩
  | .error (.err _) => .ok { m with frames := m.frames.set k { f with status := .done } }
  | .error .panic => .error .panic
  | .error .fuel => .error .fuel

/-- Starts a frame, `Function::call_with_frame`. -/
def startCall (program : Program) (func : Nat) (upvars : Option Nat) (args : List CallArg) :
    Exec Thrown CallFrame := do
  let f ← CallFrame.new program func upvars
  f.unpackUnchecked program args

/-- The keyed arguments are looked up as the signature allows. -/
def argsFound (program : Program) (func : Nat) (args : List CallArg) : Bool :=
  match program.funcs[func]? with
  | none => true
  | some (info, _) =>
    match program.unpacktab[info.sig]? with
    | none => true
    | some u => args.all u.finds

/-- An action. One that is not possible changes nothing. -/
def Machine.act (program : Program) (m : Machine) : Action → Exec Empty Machine
  | .step k =>
    match m.frames[k]? with
    | some f =>
      match f.status with
      | .running => m.settle k f (Runtime.step program m.shared f)
      | _ => .ok m
    | none => .ok m
  | .resume k out =>
    match m.frames[k]? with
    | some f =>
      match f.status with
      | .waiting i => m.settle k f (Runtime.resume program m.shared f i out)
      | _ => .ok m
    | none => .ok m
  | .call closure args =>
    match m.shared.closures[closure]? with
    | some (func, upvars) =>
      if argsFound program func args then
        match startCall program func upvars args with
        | .ok f => .ok { m with frames := m.frames ++ [f] }
        | .error (.err _) => .ok m
        | .error .panic => .error .panic
        | .error .fuel => .error .fuel
      else .ok m
    | none => .ok m

/-- A run. -/
def Machine.run (program : Program) : Machine → List Action → Exec Empty Machine
  | m, [] => .ok m
  | m, a :: as => do
    let m ← m.act program a
    Machine.run program m as

/-- `Bytecode::run_inner`: a program starts with a frame of function `0`, without upvar records and
arguments. -/
def runInner (program : Program) : Exec Thrown Machine := do
  let f ← CallFrame.new program 0 none
  return ⟨⟨[], []⟩, [f]⟩

end Dolang.Runtime
