import Dolang.Bytecode.Total
import Dolang.Bytecode.Typing
import Dolang.Runtime.Chain
import Dolang.Runtime.Verified

/-!
# The interpreter stays in bounds

The states of a function's certificate describe its frames: before an instruction a frame has as
many operands as the state says and a chain of upvar records of the sizes it says (`FrameOk`). A
step from such a frame makes no access out of bounds and ends in such a frame (`exec_safe`,
`resume_safe`). The one exception is a `Reify` of a pack with arguments that are expanded, for which
the interpreter has no case.
-/

namespace Dolang.Runtime

open Dolang.Rust Dolang.Bytecode

/-! ## Frames and states -/

/-- The instructions that wait for an operation. -/
def waits : Inst → Bool
  | .get _ | .set _ | .index | .assign | .call _ | .methodCall _ _ | .builtin _ _ | .neg | .not
  | .bitNot | .bitAnd | .bitOr | .bitXor | .shl | .shr | .add | .sub | .mul | .div | .ediv | .mod
  | .eq | .ne | .lt | .gt | .lte | .gte | .branch _ | .branchTrue _ | .branchFalse _ | .next
  | .unpack _ | .unpackBranch _ _ | .nlGuard _ => true
  | _ => false

/-- The operands of a frame that waits for an operation of an instruction. -/
def heldOperands (ctx : Context) (inst : Inst) (n : Nat) : Nat :=
  match inst with
  | .call _ | .methodCall _ _ | .builtin _ _ => n
  | .unpack u | .unpackBranch u _ => n - 1 + ctx.unpackLen u
  | inst => n - pops ctx inst

/-- The upvar records of a frame that waits for an operation of an instruction. -/
def heldUpvars (inst : Inst) (upvars : List Nat) : List Nat :=
  match inst with
  | .nlGuard _ => upvars ++ [0]
  | _ => upvars

/-- A frame of a function with certain operands and upvar records. -/
structure FrameAt (func : Func) (cert : Certificate) (heap : Heap) (f : CallFrame) (pc n : Nat)
    (upvars : List Nat) : Prop where
  base : f.base = func.locals
  slots : f.slots.length = func.locals + cert.maxOperandDepth
  sp : f.sp = func.locals + n
  pc : f.pc = pc
  /-- The innermost record of a chain is the last one of a state. -/
  chain : ChainIs heap f.upvars upvars.reverse

/-- Where an instruction leads to. -/
def dest (i : InstOffsets) : Bool → Option Nat
  | true => i.target
  | false => if i.inst.stops then none else some i.after

/-- The functions that were made have the records their code was verified with. -/
def SharedOk (program : Program) (st : Shared) : Prop :=
  ∀ c ∈ st.closures, ∃ entry, program.funcs[c.1]? = some entry ∧
    ChainIs st.heap c.2 entry.1.upvars.reverse

/-- A frame is as the certificate of its function says. -/
def FrameOk (program : Program) (ctx : Context) (heap : Heap) (f : CallFrame) : Prop :=
  f.status = .done ∨ ∃ entry func cert code l u i s,
    program.funcs[f.func]? = some entry ∧ VerifiedFunc program ctx entry func cert code l u ∧
    At ctx l (cert.claims func u.len) i s ∧ KeepsUpvars func s ∧
    s.operands ≤ cert.maxOperandDepth ∧
    (f.status = .running ∧ FrameAt func cert heap f i.before s.operands s.upvars ∨
      f.status = .waiting i ∧ waits i.inst = true ∧ FrameAt func cert heap f i.after
        (heldOperands ctx i.inst s.operands) (heldUpvars i.inst s.upvars))

/-- What a step from an instruction leaves: a frame that has ended, that waits, or that is at a
destination of the instruction with the state along that edge. -/
structure Lands (program : Program) (ctx : Context) (func : Func) (cert : Certificate)
    (i : InstOffsets) (s : BlockState) (heap : Heap) (f : CallFrame) (r : Shared × CallFrame) :
    Prop where
  shared : SharedOk program r.1
  heap : heap.Extends r.1.heap
  same_func : r.2.func = f.func
  frame : r.2.status = .done ∨
    r.2.status = .waiting i ∧ waits i.inst = true ∧ FrameAt func cert r.1.heap r.2 i.after
      (heldOperands ctx i.inst s.operands) (heldUpvars i.inst s.upvars) ∨
    r.2.status = .running ∧ ∃ taken pc, dest i taken = some pc ∧
      FrameAt func cert r.1.heap r.2 pc
        (edgeAfter ctx i.inst taken (stateAfter ctx i.inst s)).operands
        (edgeAfter ctx i.inst taken (stateAfter ctx i.inst s)).upvars

section

variable {func : Func} {cert : Certificate} {heap heap' : Heap} {f : CallFrame} {pc n : Nat}
  {upvars : List Nat}

theorem FrameAt.mono (h : FrameAt func cert heap f pc n upvars) (hext : heap.Extends heap') :
    FrameAt func cert heap' f pc n upvars :=
  { h with chain := h.chain.mono hext }

/-- Slots and the stack pointer change. -/
theorem FrameAt.update (h : FrameAt func cert heap f pc n upvars) {f' : CallFrame} {m : Nat}
    (hbase : f'.base = f.base) (hslots : f'.slots.length = f.slots.length)
    (hsp : f'.sp = func.locals + m) (hpc : f'.pc = f.pc) (hupvars : f'.upvars = f.upvars) :
    FrameAt func cert heap f' pc m upvars :=
  ⟨hbase.trans h.base, hslots.trans h.slots, hsp, hpc.trans h.pc, hupvars ▸ h.chain⟩

theorem SharedOk.mono {program : Program} {st : Shared} (h : SharedOk program st)
    (hext : st.heap.Extends heap') : SharedOk program { st with heap := heap' } := by
  intro c hc
  obtain ⟨entry, hentry, hchain⟩ := h c hc
  exact ⟨entry, hentry, hchain.mono hext⟩

theorem FrameOk.mono {program : Program} {ctx : Context} (h : FrameOk program ctx heap f)
    (hext : heap.Extends heap') : FrameOk program ctx heap' f := by
  rcases h with hdone | ⟨entry, func, cert, code, l, u, i, s, hentry, hv, hat, hkeeps, hle, hst⟩
  · exact .inl hdone
  · refine .inr ⟨entry, func, cert, code, l, u, i, s, hentry, hv, hat, hkeeps, hle, ?_⟩
    rcases hst with ⟨hrun, hframe⟩ | ⟨hwait, hwaits, hframe⟩
    · exact .inl ⟨hrun, hframe.mono hext⟩
    · exact .inr ⟨hwait, hwaits, hframe.mono hext⟩

end

/-- The next instruction of a frame is as the certificate says. -/
theorem Lands.frameOk {program : Program} {ctx : Context} {entry : Func × Nat} {func : Func}
    {cert : Certificate} {code : List UInt8} {l : List InstOffsets} {u : Unpack} {i : InstOffsets}
    {s : BlockState} {heap : Heap} {f : CallFrame} {r : Shared × CallFrame}
    (h : Lands program ctx func cert i s heap f r) (hentry : program.funcs[f.func]? = some entry)
    (hv : VerifiedFunc program ctx entry func cert code l u)
    (hat : At ctx l (cert.claims func u.len) i s) (hkeeps : KeepsUpvars func s)
    (hle : s.operands ≤ cert.maxOperandDepth) : FrameOk program ctx r.1.heap r.2 := by
  have hentry' : program.funcs[r.2.func]? = some entry := h.same_func ▸ hentry
  rcases h.frame with hdone | ⟨hwait, hframe⟩ | ⟨hrun, taken, pc, hdest, hframe⟩
  · exact .inl hdone
  · exact .inr ⟨entry, func, cert, code, l, u, i, s, hentry', hv, hat, hkeeps, hle,
      .inr ⟨hwait, hframe⟩⟩
  · -- The destination is an instruction, to which an edge leads.
    obtain ⟨j, hedge, hj⟩ : ∃ j, Edge l i taken j ∧ j.before = pc := by
      cases taken with
      | true =>
        have htarget : i.target = some pc := hdest
        have hmem : pc ∈ targets l := List.mem_filterMap.mpr ⟨i, hat.mem, htarget⟩
        obtain ⟨j, hj, rfl⟩ := List.mem_map.mp (hv.decoded.targets pc hmem)
        exact ⟨j, .branch hat.mem hj htarget, rfl⟩
      | false =>
        simp only [dest] at hdest
        split at hdest
        · cases hdest
        · rename_i hstops
          cases hdest
          obtain ⟨a, b, hl⟩ := List.append_of_mem hat.mem
          obtain ⟨j, b', rfl, hj⟩ := hv.decoded.falls hl (by simpa using hstops)
          exact ⟨j, .fall hat.mem (by rw [hl]; simp) (by simpa using hstops) hj, hj⟩
    obtain ⟨t, hpass⟩ := hat.edge hv.decoded hv.accepts.fixed hedge
    have hcore := hpass.absorbs.1
    have hready := (step_eq_ok.mp (hat.step hv.accepts.fixed)).2.1
    have hkeeps' := ((hkeeps.step hready).edge ctx i.inst taken).of_sameCore hcore
    have hle' := hpass.depth hv.accepts.depth
    rw [hcore.1] at hle' hframe
    rw [hcore.2, ← hj] at hframe
    exact .inr ⟨entry, func, cert, code, l, u, j, t, hentry', hv, hpass.state, hkeeps', hle',
      .inl ⟨hrun, hframe⟩⟩

/-! ## Steps -/

/-- What is known of a frame that has just decoded an instruction. -/
structure Before (program : Program) (ctx : Context) (func : Func) (cert : Certificate)
    (st : Shared) (f : CallFrame) (i : InstOffsets) (s : BlockState) : Prop where
  tables : VerifiedProgram program ctx
  shared : SharedOk program st
  running : f.status = .running
  frame : FrameAt func cert st.heap f i.after s.operands s.upvars
  depth : s.operands ≤ cert.maxOperandDepth
  /-- The operands fit after the instruction, on each edge. -/
  room : operandsAfter ctx i.inst s.operands ≤ cert.maxOperandDepth
  edge_room : i.inst.stops = false →
    (edgeAfter ctx i.inst false (stateAfter ctx i.inst s)).operands ≤ cert.maxOperandDepth
  needs : needs ctx i.inst ≤ s.operands
  ready : Ready ctx func i.inst s.operands s.upvars
  checked : SyntaxOk ctx func i
  keeps : KeepsUpvars func s
  target : i.inst.branchTarget.isSome → i.target.isSome

section

variable {program : Program} {ctx : Context} {func : Func} {cert : Certificate} {st : Shared}
  {f : CallFrame} {i : InstOffsets} {s : BlockState}

/-- A step that falls through and leaves the shared state as it is. -/
theorem Lands.fall (hst : SharedOk program st) {f' : CallFrame} (hfunc : f'.func = f.func)
    (hrun : f'.status = .running) (hstops : i.inst.stops = false) {n : Nat} {upvars : List Nat}
    (hframe : FrameAt func cert st.heap f' i.after n upvars)
    (hn : n = (edgeAfter ctx i.inst false (stateAfter ctx i.inst s)).operands)
    (hupvars : upvars = (edgeAfter ctx i.inst false (stateAfter ctx i.inst s)).upvars) :
    Lands program ctx func cert i s st.heap f (st, f') := by
  subst hn hupvars
  exact ⟨hst, Heap.Extends.refl _, hfunc,
    .inr (.inr ⟨hrun, false, i.after, by simp [dest, hstops], hframe⟩)⟩

/-- A step that waits and leaves the shared state as it is. -/
theorem Lands.wait (hst : SharedOk program st) {f' : CallFrame} (hfunc : f'.func = f.func)
    (hwaits : waits i.inst = true)
    (hframe : FrameAt func cert st.heap f' i.after (heldOperands ctx i.inst s.operands)
      (heldUpvars i.inst s.upvars)) :
    Lands program ctx func cert i s st.heap f (st, f'.wait i) :=
  ⟨hst, Heap.Extends.refl _, hfunc,
    .inr (.inl ⟨rfl, hwaits, hframe.base, hframe.slots, hframe.sp, hframe.pc, hframe.chain⟩)⟩

/-- The bounds of the stack pointer before a step. -/
theorem Before.bounds (h : Before program ctx func cert st f i s) :
    f.base = func.locals ∧ f.sp = func.locals + s.operands ∧
      f.slots.length = func.locals + cert.maxOperandDepth ∧ s.operands ≤ cert.maxOperandDepth :=
  ⟨h.frame.base, h.frame.sp, h.frame.slots, h.depth⟩

/-- The arguments of a call are on the stack. -/
theorem marshalArgs_safe {sig : Pack} {headroom : Nat} {P : CallFrame → Prop}
    (hargs : f.base + sig.len + headroom ≤ f.sp) (hroom : f.sp ≤ f.slots.length)
    (hP : ∀ slots : List Value, slots.length = f.slots.length → P { f with slots }) :
    Safe (marshalArgs f sig headroom) P := by
  unfold marshalArgs
  rw [if_pos ⟨hargs, hroom⟩]
  cases sig with
  | fixed syms => exact safe_ok.mpr (hP f.slots rfl)
  | var args => exact safe_ok.mpr (hP _ (by simp [takenArgs]))

section Operations

variable (h : Before program ctx func cert st f i s) (hwaits : waits i.inst = true)
  (hupvars : heldUpvars i.inst s.upvars = s.upvars)
include h hwaits hupvars

/-- An instruction that takes one operand for its operation. -/
theorem pop_wait_safe (hpops : 1 ≤ s.operands)
    (hheld : heldOperands ctx i.inst s.operands = s.operands - 1) :
    Safe (do
      let (_, f) ← f.pop
      return (st, f.wait i)) (Lands program ctx func cert i s st.heap f) := by
  obtain ⟨hbase, hsp, hslots, hle⟩ := h.bounds
  simp only [safe_bind, safe_pop, safe_pure]
  refine ⟨⟨by omega, by omega⟩, .wait h.shared rfl hwaits ?_⟩
  rw [hupvars, hheld]
  exact h.frame.update rfl (by simp) (by simp only; omega) rfl rfl

/-- An instruction that takes two operands for its operation. -/
theorem pop2_wait_safe (hpops : 2 ≤ s.operands)
    (hheld : heldOperands ctx i.inst s.operands = s.operands - 2) :
    Safe (do
      let (_, f) ← f.pop
      let (_, f) ← f.pop
      return (st, f.wait i)) (Lands program ctx func cert i s st.heap f) := by
  obtain ⟨hbase, hsp, hslots, hle⟩ := h.bounds
  simp only [safe_bind, safe_pop, safe_pure, List.length_set]
  refine ⟨⟨by omega, by omega⟩, ⟨by omega, by omega⟩, .wait h.shared rfl hwaits ?_⟩
  rw [hupvars, hheld]
  exact h.frame.update rfl (by simp) (by simp only; omega) rfl rfl

/-- An instruction that takes three operands for its operation. -/
theorem pop3_wait_safe (hpops : 3 ≤ s.operands)
    (hheld : heldOperands ctx i.inst s.operands = s.operands - 3) :
    Safe (do
      let (_, f) ← f.pop
      let (_, f) ← f.pop
      let (_, f) ← f.pop
      return (st, f.wait i)) (Lands program ctx func cert i s st.heap f) := by
  obtain ⟨hbase, hsp, hslots, hle⟩ := h.bounds
  simp only [safe_bind, safe_pop, safe_pure, List.length_set]
  refine ⟨⟨by omega, by omega⟩, ⟨by omega, by omega⟩, ⟨by omega, by omega⟩, .wait h.shared rfl hwaits ?_⟩
  rw [hupvars, hheld]
  exact h.frame.update rfl (by simp) (by simp only; omega) rfl rfl

/-- The callee and the arguments of a call are on the stack. -/
theorem beginCall_safe {sig : Pack} (hargs : sig.len + 1 ≤ s.operands)
    (hheld : heldOperands ctx i.inst s.operands = s.operands) :
    Safe (do return (st, (← beginCall f sig).wait i))
      (Lands program ctx func cert i s st.heap f) := by
  obtain ⟨hbase, hsp, hslots, hle⟩ := h.bounds
  simp only [beginCall, safe_bind, safe_fromTop, safe_take, safe_pure]
  refine ⟨by omega, ⟨by omega, by omega⟩, ?_⟩
  apply marshalArgs_safe (by simp only; omega) (by simp only [List.length_set]; omega)
  intro slots hlen
  refine .wait h.shared rfl hwaits ?_
  rw [hupvars, hheld]
  exact h.frame.update rfl (by simpa using hlen) hsp rfl rfl

/-- An unpack has slots for what it writes. -/
theorem beginUnpack_safe {index n : Nat} (hn : ctx.unpackArity index = .ok (some n))
    (hpops : 1 ≤ s.operands) (hroom : s.operands - 1 + n ≤ cert.maxOperandDepth)
    (hheld : heldOperands ctx i.inst s.operands = s.operands - 1 + n) :
    Safe (do return (st, (← beginUnpack program f index).wait i))
      (Lands program ctx func cert i s st.heap f) := by
  obtain ⟨hbase, hsp, hslots, hle⟩ := h.bounds
  obtain ⟨u, hu, rfl⟩ := h.tables.unpacktab index n hn
  simp only [beginUnpack, safe_bind, safe_pop, safe_unwrap, safe_reserve, safe_pure, List.length_set]
  refine ⟨⟨by omega, by omega⟩, u, hu, ⟨by omega, by omega⟩, .wait h.shared rfl hwaits ?_⟩
  rw [hupvars, hheld]
  exact h.frame.update rfl (by simp) (by simp only; omega) rfl rfl

end Operations

/-- An instruction that pushes a value. -/
theorem push_fall_safe (h : Before program ctx func cert st f i s) {value : Value}
    (hstops : i.inst.stops = false)
    (hafter : stateAfter ctx i.inst s = ⟨s.operands + 1, s.locals, s.upvars⟩)
    (hedge : ∀ t, edgeAfter ctx i.inst false t = t) :
    Safe (do return (st, ← f.push value)) (Lands program ctx func cert i s st.heap f) := by
  obtain ⟨hbase, hsp, hslots, hle⟩ := h.bounds
  have hroom := h.edge_room hstops
  rw [hedge, hafter] at hroom
  simp only [safe_bind, safe_push, safe_pure]
  refine ⟨⟨by omega, by simp only at hroom; omega⟩, .fall h.shared rfl h.running hstops
    (h.frame.update (m := s.operands + 1) rfl (by simp) (by simp only; omega) rfl rfl) ?_ ?_⟩
  · rw [hedge, hafter]
  · rw [hedge, hafter]

end

section

variable {program : Program} {ctx : Context} {func : Func} {cert : Certificate} {st : Shared}
  {f : CallFrame} {before after : Nat} {s : BlockState}

/-- The size of a record that an instruction refers to. -/
theorem chain_size {upvars : List Nat} {depth c : Nat} (hdepth : depth < upvars.length)
    (hc : upvars[upvars.length - 1 - depth]? = some c) : upvars.reverse[depth]? = some c := by
  rw [List.getElem?_reverse hdepth]
  exact hc

theorem exec_pick_safe {n : Nat}
    (h : Before program ctx func cert st f ⟨before, .pick n, after⟩ s) :
    Safe (exec program st f ⟨before, .pick n, after⟩)
      (Lands program ctx func cert ⟨before, .pick n, after⟩ s st.heap f) := by
  obtain ⟨hbase, hsp, hslots, hle⟩ := h.bounds
  have hneeds : n + 1 ≤ s.operands := h.needs
  have hroom : s.operands - 0 + 1 ≤ cert.maxOperandDepth := h.room
  simp only [exec, safe_bind, safe_pure]
  apply safe_pick (by omega) (by omega)
  intro slots hlen
  exact .fall h.shared rfl h.running rfl
    (h.frame.update (m := s.operands + 1) rfl hlen (by simp only; omega) rfl rfl) rfl rfl

theorem exec_dup_safe (h : Before program ctx func cert st f ⟨before, .dup, after⟩ s) :
    Safe (exec program st f ⟨before, .dup, after⟩)
      (Lands program ctx func cert ⟨before, .dup, after⟩ s st.heap f) := by
  obtain ⟨hbase, hsp, hslots, hle⟩ := h.bounds
  have hneeds : 1 ≤ s.operands := h.needs
  have hroom : s.operands - 1 + 2 ≤ cert.maxOperandDepth := h.room
  simp only [exec, CallFrame.dup, safe_bind, safe_pure]
  apply safe_pick (by omega) (by omega)
  intro slots hlen
  have hn : s.operands + 1 = s.operands - 1 + 2 := by omega
  exact .fall h.shared rfl h.running rfl
    (h.frame.update rfl hlen (by simp only; omega) rfl rfl) hn rfl

theorem exec_swap_safe {a b : Nat}
    (h : Before program ctx func cert st f ⟨before, .swap a b, after⟩ s) :
    Safe (exec program st f ⟨before, .swap a b, after⟩)
      (Lands program ctx func cert ⟨before, .swap a b, after⟩ s st.heap f) := by
  obtain ⟨hbase, hsp, hslots, hle⟩ := h.bounds
  have hneeds : max a b + 1 ≤ s.operands := h.needs
  simp only [exec, safe_bind, safe_pure]
  apply safe_swap (by omega) (by omega) (by omega)
  intro slots hlen
  exact .fall h.shared rfl h.running rfl (h.frame.update rfl hlen hsp rfl rfl) rfl rfl

theorem exec_pop_safe (h : Before program ctx func cert st f ⟨before, .pop, after⟩ s) :
    Safe (exec program st f ⟨before, .pop, after⟩)
      (Lands program ctx func cert ⟨before, .pop, after⟩ s st.heap f) := by
  obtain ⟨hbase, hsp, hslots, hle⟩ := h.bounds
  have hneeds : 1 ≤ s.operands := h.needs
  simp only [exec, safe_bind, safe_pop, safe_pure]
  exact ⟨⟨by omega, by omega⟩, .fall h.shared rfl h.running rfl
    (h.frame.update (m := s.operands - 1) rfl (by simp) (by simp only; omega) rfl rfl) rfl rfl⟩

theorem exec_ret_safe (h : Before program ctx func cert st f ⟨before, .ret, after⟩ s) :
    Safe (exec program st f ⟨before, .ret, after⟩)
      (Lands program ctx func cert ⟨before, .ret, after⟩ s st.heap f) := by
  obtain ⟨hbase, hsp, hslots, hle⟩ := h.bounds
  have hneeds : 1 ≤ s.operands := h.needs
  simp only [exec, safe_bind, safe_pop, safe_pure]
  exact ⟨⟨by omega, by omega⟩, h.shared, Heap.Extends.refl _, rfl, .inl rfl⟩

theorem exec_loadLocal_safe {index : Nat}
    (h : Before program ctx func cert st f ⟨before, .loadLocal index, after⟩ s) :
    Safe (exec program st f ⟨before, .loadLocal index, after⟩)
      (Lands program ctx func cert ⟨before, .loadLocal index, after⟩ s st.heap f) := by
  obtain ⟨hbase, hsp, hslots, hle⟩ := h.bounds
  have hlt : index < func.locals := h.checked
  simp only [exec, safe_bind]
  apply safe_load (by omega) (by omega)
  intro value
  rw [← safe_bind]
  exact push_fall_safe h rfl rfl fun _ => rfl

theorem exec_loadUpvar_safe {index depth : Nat}
    (h : Before program ctx func cert st f ⟨before, .loadUpvar index depth, after⟩ s) :
    Safe (exec program st f ⟨before, .loadUpvar index depth, after⟩)
      (Lands program ctx func cert ⟨before, .loadUpvar index depth, after⟩ s st.heap f) := by
  obtain ⟨hdepth, c, hc, hlt⟩ := h.ready
  obtain ⟨value, hvalue⟩ := h.frame.chain.getUnchecked (chain_size hdepth hc) hlt
  simp only [exec, hvalue, ok_bind]
  exact push_fall_safe h rfl rfl fun _ => rfl

theorem exec_storeLocal_safe {index : Nat}
    (h : Before program ctx func cert st f ⟨before, .storeLocal index, after⟩ s) :
    Safe (exec program st f ⟨before, .storeLocal index, after⟩)
      (Lands program ctx func cert ⟨before, .storeLocal index, after⟩ s st.heap f) := by
  obtain ⟨hbase, hsp, hslots, hle⟩ := h.bounds
  have hneeds : 1 ≤ s.operands := h.needs
  have hlt : index < func.locals := h.checked
  simp only [exec, safe_bind, safe_pop, safe_store, safe_pure, List.length_set]
  exact ⟨⟨by omega, by omega⟩, ⟨by omega, by omega⟩, .fall h.shared rfl h.running rfl
    (h.frame.update (m := s.operands - 1) rfl (by simp) (by simp only; omega) rfl rfl) rfl rfl⟩

theorem exec_storeUpvar_safe {index depth : Nat}
    (h : Before program ctx func cert st f ⟨before, .storeUpvar index depth, after⟩ s) :
    Safe (exec program st f ⟨before, .storeUpvar index depth, after⟩)
      (Lands program ctx func cert ⟨before, .storeUpvar index depth, after⟩ s st.heap f) := by
  obtain ⟨hbase, hsp, hslots, hle⟩ := h.bounds
  have hneeds : 1 ≤ s.operands := h.needs
  obtain ⟨hdepth, c, hc, hlt⟩ := h.ready
  simp only [exec, safe_bind, safe_pop]
  refine ⟨⟨by omega, by omega⟩, ?_⟩
  obtain ⟨heap, hheap, hext⟩ := h.frame.chain.setUnchecked (chain_size hdepth hc) hlt
    (f.slots.getD (f.sp - 1) .nil)
  rw [hheap, safe_ok, safe_pure]
  exact ⟨h.shared.mono hext, hext, rfl, .inr (.inr ⟨h.running, false, after, rfl,
    (h.frame.mono hext).update (m := s.operands - 1) rfl (by simp) (by simp only; omega) rfl
      rfl⟩)⟩

theorem exec_pushUpvars_safe {count : Nat}
    (h : Before program ctx func cert st f ⟨before, .pushUpvars count, after⟩ s) :
    Safe (exec program st f ⟨before, .pushUpvars count, after⟩)
      (Lands program ctx func cert ⟨before, .pushUpvars count, after⟩ s st.heap f) := by
  have hext := st.extends_alloc f.upvars (List.replicate count .nil)
  have hchain := h.frame.chain.alloc (List.replicate count .nil)
  rw [List.length_replicate] at hchain
  simp only [exec, safe_ok]
  refine ⟨h.shared.mono hext, hext, rfl, .inr (.inr ⟨h.running, false, after, rfl, ?_⟩)⟩
  refine ⟨h.frame.base, h.frame.slots, h.frame.sp, h.frame.pc, ?_⟩
  show ChainIs _ _ (s.upvars ++ [count]).reverse
  rw [List.reverse_append]
  exact hchain

/-- A record that the function has pushed is on the chain. -/
theorem Before.pushed {i : InstOffsets} (h : Before program ctx func cert st f i s)
    (hne : s.upvars.length ≠ func.upvars.length) :
    ∃ n, s.upvars.reverse = n :: s.upvars.dropLast.reverse := by
  have hnil : s.upvars ≠ [] := by
    intro hnil
    have hle := h.keeps.length_le
    rw [hnil] at hle hne
    exact hne (Nat.le_antisymm (Nat.zero_le _) hle)
  refine ⟨s.upvars.getLast hnil, ?_⟩
  conv_lhs => rw [← List.dropLast_append_getLast hnil]
  rw [List.reverse_append]
  rfl

theorem exec_popUpvars_safe
    (h : Before program ctx func cert st f ⟨before, .popUpvars, after⟩ s) :
    Safe (exec program st f ⟨before, .popUpvars, after⟩)
      (Lands program ctx func cert ⟨before, .popUpvars, after⟩ s st.heap f) := by
  obtain ⟨n, hn⟩ := h.pushed h.ready
  have hchain := h.frame.chain
  rw [hn] at hchain
  obtain ⟨p, r, -, -, hrest, hpop⟩ := hchain.popUpvars
  simp only [exec, hpop, ok_bind, safe_pure]
  exact .fall h.shared rfl h.running rfl
    ⟨h.frame.base, h.frame.slots, h.frame.sp, h.frame.pc, hrest⟩ rfl rfl

theorem exec_reify_safe {p : Nat}
    (h : Before program ctx func cert st f ⟨before, .reify p, after⟩ s)
    (hfixed : ∀ args, program.packtab[p]? ≠ some (.var args)) :
    Safe (exec program st f ⟨before, .reify p, after⟩)
      (Lands program ctx func cert ⟨before, .reify p, after⟩ s st.heap f) := by
  obtain ⟨hbase, hsp, hslots, hle⟩ := h.bounds
  obtain ⟨hne, args, -, hargs⟩ := h.ready
  obtain ⟨sig, hsig, -⟩ := h.tables.packtab p args hargs
  have hroom : s.operands - 0 + 1 ≤ cert.maxOperandDepth := h.room
  obtain ⟨n, hn⟩ := h.pushed hne
  have hchain := h.frame.chain
  rw [hn] at hchain
  obtain ⟨q, r, -, -, hrest, hpop⟩ := hchain.popUpvars
  simp only [exec, hsig, unwrap, ok_bind, hpop]
  cases sig with
  | var args => exact absurd hsig (hfixed args)
  | fixed syms =>
    simp only [safe_bind, safe_push, safe_pure]
    exact ⟨⟨by omega, by omega⟩, .fall h.shared rfl h.running rfl (n := s.operands + 1)
      ⟨hbase, by simpa using hslots, by simp only; omega, h.frame.pc, hrest⟩ rfl rfl⟩

/-- The function that an instruction makes has the records it was verified with. -/
theorem SharedOk.function (hst : SharedOk program st) {index : Nat} {this : Option Nat}
    {callee : Func} {upvars : List Nat} (htables : VerifiedProgram program ctx)
    (hcallee : ctx.function index = some callee) (hupvars : callee.upvars = upvars)
    (hchain : ChainIs st.heap this upvars.reverse) :
    SharedOk program (st.function index this) := by
  intro c hc
  rcases List.mem_cons.mp hc with rfl | hc
  · obtain ⟨entry, hentry, heq⟩ := htables.function index callee hcallee
    exact ⟨entry, hentry, by rw [heq, hupvars]; exact hchain⟩
  · exact hst c hc

theorem exec_close_safe {index : Nat}
    (h : Before program ctx func cert st f ⟨before, .close index, after⟩ s) :
    Safe (exec program st f ⟨before, .close index, after⟩)
      (Lands program ctx func cert ⟨before, .close index, after⟩ s st.heap f) := by
  obtain ⟨hbase, hsp, hslots, hle⟩ := h.bounds
  obtain ⟨callee, hcallee, hupvars⟩ := h.ready
  have hroom : s.operands - 0 + 1 ≤ cert.maxOperandDepth := h.room
  simp only [exec, safe_bind, safe_push, safe_pure]
  exact ⟨⟨by omega, by omega⟩, h.shared.function h.tables hcallee hupvars h.frame.chain,
    Heap.Extends.refl _, rfl, .inr (.inr ⟨h.running, false, after, rfl,
      h.frame.update (m := s.operands + 1) rfl (by simp) (by simp only; omega) rfl rfl⟩)⟩

theorem exec_nlGuard_safe {index : Nat}
    (h : Before program ctx func cert st f ⟨before, .nlGuard index, after⟩ s) :
    Safe (exec program st f ⟨before, .nlGuard index, after⟩)
      (Lands program ctx func cert ⟨before, .nlGuard index, after⟩ s st.heap f) := by
  obtain ⟨callee, hcallee, hupvars⟩ := h.ready
  have hext := st.extends_alloc f.upvars []
  have hchain := h.frame.chain.alloc []
  have hreverse : (s.upvars ++ [0]).reverse = 0 :: s.upvars.reverse := by
    rw [List.reverse_append]
    rfl
  have hchain' : ChainIs (st.alloc f.upvars []).1.heap (some (st.alloc f.upvars []).2)
      (s.upvars ++ [0]).reverse := by
    rw [hreverse]
    exact hchain
  simp only [exec, safe_ok]
  exact ⟨(h.shared.mono hext).function h.tables hcallee hupvars hchain', hext, rfl,
    .inr (.inl ⟨rfl, rfl, h.frame.base, h.frame.slots, h.frame.sp, h.frame.pc, hchain'⟩)⟩

theorem exec_nlBranch_safe {depth indicator : Nat}
    (h : Before program ctx func cert st f ⟨before, .nlBranch depth indicator, after⟩ s) :
    Safe (exec program st f ⟨before, .nlBranch depth indicator, after⟩)
      (Lands program ctx func cert ⟨before, .nlBranch depth indicator, after⟩ s st.heap f) := by
  have hdepth : depth < s.upvars.length := h.ready
  obtain ⟨p, r, hp, hr, -⟩ := h.frame.chain.atDepth (by simpa using hdepth)
  simp only [exec, hp, hr, unwrap, ok_bind]
  split
  · exact safe_fail
  · exact safe_fail

theorem exec_branch_safe {offset : Int}
    (h : Before program ctx func cert st f ⟨before, .branch offset, after⟩ s) :
    Safe (exec program st f ⟨before, .branch offset, after⟩)
      (Lands program ctx func cert ⟨before, .branch offset, after⟩ s st.heap f) := by
  simp only [exec]
  split
  · -- A backward branch waits before it is taken.
    exact safe_pure.mpr (.wait h.shared rfl rfl h.frame)
  · obtain ⟨pc, hpc⟩ := Option.isSome_iff_exists.mp (h.target rfl)
    simp only [safe_bind, safe_seek, safe_pure]
    refine ⟨pc, by rw [h.frame.pc]; exact hpc, h.shared, Heap.Extends.refl _, rfl,
      .inr (.inr ⟨h.running, true, pc, hpc, ?_⟩)⟩
    exact ⟨h.frame.base, h.frame.slots, h.frame.sp, rfl, h.frame.chain⟩

/-- The pack that an instruction refers to. -/
theorem Before.pack {i : InstOffsets} (h : Before program ctx func cert st f i s) {index : Nat}
    (hpack : ∃ args, ctx.pack index = some args) :
    ∃ sig, program.packtab[index]? = some sig ∧ sig.len = ctx.packLen index := by
  obtain ⟨args, hargs⟩ := hpack
  obtain ⟨sig, hsig, hlen⟩ := h.tables.packtab index args hargs
  exact ⟨sig, hsig, by rw [packLen_eq hargs]; exact hlen⟩

/-- A step stays in bounds and leaves the frame as the certificate says. -/
theorem exec_safe {i : InstOffsets} (h : Before program ctx func cert st f i s)
    (hreify : ∀ p, i.inst = .reify p → ∀ args, program.packtab[p]? ≠ some (.var args)) :
    Safe (exec program st f i) (Lands program ctx func cert i s st.heap f) := by
  obtain ⟨before, inst, after⟩ := i
  obtain ⟨hbase, hsp, hslots, hle⟩ := h.bounds
  have hneeds := h.needs
  cases inst
  case pop => exact exec_pop_safe h
  case dup => exact exec_dup_safe h
  case pick n => exact exec_pick_safe h
  case swap a b => exact exec_swap_safe h
  case ret => exact exec_ret_safe h
  case loadLocal index => exact exec_loadLocal_safe h
  case loadUpvar index depth => exact exec_loadUpvar_safe h
  case storeLocal index => exact exec_storeLocal_safe h
  case storeUpvar index depth => exact exec_storeUpvar_safe h
  case pushUpvars count => exact exec_pushUpvars_safe h
  case popUpvars => exact exec_popUpvars_safe h
  case reify p => exact exec_reify_safe h (hreify p rfl)
  case close index => exact exec_close_safe h
  case nlGuard index => exact exec_nlGuard_safe h
  case nlBranch depth indicator => exact exec_nlBranch_safe h
  case branch offset => exact exec_branch_safe h
  case elseFallthrough kind => exact safe_fail
  case loadConst index =>
    have hlt := h.tables.consttab index h.checked
    simp only [exec, List.getElem?_eq_getElem hlt, unwrap, ok_bind]
    exact push_fall_safe h rfl rfl fun _ => rfl
  case get sym =>
    have hlt := h.tables.symtab sym h.checked
    simp only [exec, List.getElem?_eq_getElem hlt, unwrap, ok_bind]
    exact pop_wait_safe h rfl rfl hneeds rfl
  case set sym =>
    have hlt := h.tables.symtab sym h.checked
    simp only [exec, List.getElem?_eq_getElem hlt, unwrap, ok_bind]
    exact pop2_wait_safe h rfl rfl hneeds rfl
  case assign => exact pop3_wait_safe h rfl rfl hneeds rfl
  case call index =>
    obtain ⟨sig, hsig, hlen⟩ := h.pack h.ready
    simp only [exec, hsig, unwrap, ok_bind]
    exact beginCall_safe h rfl rfl (by rw [hlen]; exact hneeds) rfl
  case methodCall sym index =>
    have hlt := h.tables.symtab sym h.checked.1
    obtain ⟨sig, hsig, hlen⟩ := h.pack h.ready
    simp only [exec, List.getElem?_eq_getElem hlt, hsig, unwrap, ok_bind]
    exact beginCall_safe h rfl rfl (by rw [hlen]; exact hneeds) rfl
  case builtin index sigIndex =>
    obtain ⟨hindex, -⟩ := h.checked
    obtain ⟨sig, hsig, hlen⟩ := h.pack h.ready
    have hargs : sig.len ≤ s.operands := by
      rw [hlen]
      exact hneeds
    simp only [exec, hsig, unwrap, ok_bind, safe_bind, if_pos hindex, safe_pure]
    apply marshalArgs_safe (by omega) (by omega)
    intro slots hslots'
    exact .wait h.shared rfl rfl (h.frame.update rfl hslots' hsp rfl rfl)
  case unpack index =>
    obtain ⟨n, hn⟩ := h.ready
    have hheld : heldOperands ctx (.unpack index) s.operands = s.operands - 1 + n := by
      rw [heldOperands, unpackLen_eq hn]
    have hroom : s.operands - 1 + ctx.unpackLen index ≤ cert.maxOperandDepth := h.room
    rw [unpackLen_eq hn] at hroom
    exact beginUnpack_safe h rfl rfl hn hneeds hroom hheld
  case unpackBranch index offset =>
    obtain ⟨n, hn⟩ := h.checked
    have hheld : heldOperands ctx (.unpackBranch index offset) s.operands =
        s.operands - 1 + n := by
      rw [heldOperands, unpackLen_eq hn]
    have hroom : s.operands - 1 + 0 + ctx.unpackLen index ≤ cert.maxOperandDepth :=
      h.edge_room rfl
    rw [unpackLen_eq hn] at hroom
    exact beginUnpack_safe h rfl rfl hn hneeds (by omega) hheld
  case neg | not | bitNot | next | branchTrue | branchFalse =>
    exact pop_wait_safe h rfl rfl hneeds rfl
  all_goals exact pop2_wait_safe h rfl rfl hneeds rfl

end

/-! ## Ends of operations -/

/-- What is known of a frame that waits for an operation of an instruction. -/
structure Held (program : Program) (ctx : Context) (func : Func) (cert : Certificate)
    (st : Shared) (f : CallFrame) (i : InstOffsets) (s : BlockState) : Prop where
  tables : VerifiedProgram program ctx
  shared : SharedOk program st
  frame : FrameAt func cert st.heap f i.after (heldOperands ctx i.inst s.operands)
    (heldUpvars i.inst s.upvars)
  depth : s.operands ≤ cert.maxOperandDepth
  room : operandsAfter ctx i.inst s.operands ≤ cert.maxOperandDepth
  edge_room : i.inst.stops = false →
    (edgeAfter ctx i.inst false (stateAfter ctx i.inst s)).operands ≤ cert.maxOperandDepth
  needs : needs ctx i.inst ≤ s.operands
  ready : Ready ctx func i.inst s.operands s.upvars
  checked : SyntaxOk ctx func i
  target : i.inst.branchTarget.isSome → i.target.isSome

section

variable {program : Program} {ctx : Context} {func : Func} {cert : Certificate} {st : Shared}
  {f : CallFrame} {i : InstOffsets} {s : BlockState}

/-- A frame goes on at the target of a branch. -/
theorem Lands.branch (hst : SharedOk program st) {f' : CallFrame} (hfunc : f'.func = f.func)
    (hrun : f'.status = .running) {pc n : Nat} {upvars : List Nat} (hpc : i.target = some pc)
    (hframe : FrameAt func cert st.heap f' pc n upvars)
    (hn : n = (edgeAfter ctx i.inst true (stateAfter ctx i.inst s)).operands)
    (hupvars : upvars = (edgeAfter ctx i.inst true (stateAfter ctx i.inst s)).upvars) :
    Lands program ctx func cert i s st.heap f (st, f') := by
  subst hn hupvars
  exact ⟨hst, Heap.Extends.refl _, hfunc, .inr (.inr ⟨hrun, true, pc, hpc, hframe⟩)⟩

/-- The result of an operation is pushed. -/
theorem resume_push_safe (h : Held program ctx func cert st f i s) {reply : Reply}
    (hheld : heldOperands ctx i.inst s.operands + 1 =
      (edgeAfter ctx i.inst false (stateAfter ctx i.inst s)).operands)
    (hupvars : heldUpvars i.inst s.upvars =
      (edgeAfter ctx i.inst false (stateAfter ctx i.inst s)).upvars)
    (hstops : i.inst.stops = false) :
    Safe (do return (st, ← { f with status := .running }.push reply.value))
      (Lands program ctx func cert i s st.heap f) := by
  have hroom := h.edge_room hstops
  rw [← hheld] at hroom
  have hbase := h.frame.base
  have hsp := h.frame.sp
  have hslots := h.frame.slots
  simp only [safe_bind, safe_push, safe_pure]
  exact ⟨⟨by omega, by omega⟩, .fall h.shared rfl rfl hstops
    (h.frame.update rfl (by simp) (by simp only; omega) rfl rfl) hheld hupvars⟩

/-- The callee and the arguments of a call are replaced by its result. -/
theorem resume_call_safe (h : Held program ctx func cert st f i s) {reply : Reply} {count : Nat}
    (hcount : count ≤ s.operands) (hheld : heldOperands ctx i.inst s.operands = s.operands)
    (hafter : s.operands - count + 1 =
      (edgeAfter ctx i.inst false (stateAfter ctx i.inst s)).operands)
    (hupvars : heldUpvars i.inst s.upvars =
      (edgeAfter ctx i.inst false (stateAfter ctx i.inst s)).upvars)
    (hstops : i.inst.stops = false) :
    Safe (do return (st, ← endCall { f with status := .running } count reply.value))
      (Lands program ctx func cert i s st.heap f) := by
  have hroom := h.edge_room hstops
  rw [← hafter] at hroom
  have hbase := h.frame.base
  have hsp := h.frame.sp
  have hslots := h.frame.slots
  have hle := h.depth
  rw [hheld] at hsp
  simp only [endCall, safe_bind, safe_discard, safe_push, safe_pure, List.length_mapIdx]
  exact ⟨⟨by omega, by omega⟩, ⟨by omega, by omega⟩, .fall h.shared rfl rfl hstops
    (h.frame.update rfl (by simp) (by simp only; omega) rfl rfl) hafter hupvars⟩

/-- A conditional branch is taken or not. -/
theorem resume_seekIf_safe (h : Held program ctx func cert st f i s) {offset : Int} {c : Bool}
    (hinst : i.inst = .branchTrue offset ∨ i.inst = .branchFalse offset) :
    Safe (do return (st, ← seekIf { f with status := .running } c offset))
      (Lands program ctx func cert i s st.heap f) := by
  obtain ⟨before, inst, after⟩ := i
  have htarget : ∃ pc, InstOffsets.target ⟨before, inst, after⟩ = some pc ∧
      checkedAddSigned after offset = some pc := by
    rcases hinst with rfl | rfl <;>
      exact Option.isSome_iff_exists.mp (h.target rfl) |>.imp fun pc hpc => ⟨hpc, hpc⟩
  obtain ⟨pc, hpc, hadd⟩ := htarget
  have hframe := h.frame
  unfold seekIf
  cases c with
  | true =>
    simp only [if_true, safe_bind, safe_seek, safe_pure]
    refine ⟨pc, by rw [hframe.pc]; exact hadd, ?_⟩
    have hframe' := hframe
    rcases hinst with rfl | rfl <;>
      exact .branch h.shared rfl rfl hpc
        ⟨hframe.base, hframe.slots, hframe.sp, rfl, hframe.chain⟩ rfl rfl
  | false =>
    simp only [Bool.false_eq_true, if_false, safe_bind, safe_ok, safe_pure]
    rcases hinst with rfl | rfl <;>
      exact .fall h.shared rfl rfl rfl
        ⟨hframe.base, hframe.slots, hframe.sp, hframe.pc, hframe.chain⟩ rfl rfl

end

section

variable {program : Program} {ctx : Context} {func : Func} {cert : Certificate} {st : Shared}
  {f : CallFrame} {before after : Nat} {s : BlockState}

theorem resume_unpackBranch_safe {index : Nat} {offset : Int} {reply : Reply}
    (h : Held program ctx func cert st f ⟨before, .unpackBranch index offset, after⟩ s) :
    Safe (resume program st f ⟨before, .unpackBranch index offset, after⟩ (.ok reply))
      (Lands program ctx func cert ⟨before, .unpackBranch index offset, after⟩ s st.heap f) := by
  obtain ⟨n, hn⟩ := h.checked
  obtain ⟨u, hu, rfl⟩ := h.tables.unpacktab index n hn
  have hlen := unpackLen_eq hn
  have hframe := h.frame
  have hsp : f.sp = func.locals + (s.operands - 1 + ctx.unpackLen index) := hframe.sp
  have hroom : s.operands - 1 + 0 + ctx.unpackLen index ≤ cert.maxOperandDepth := h.edge_room rfl
  have hbase := hframe.base
  have hslots := hframe.slots
  rw [hlen] at hsp hroom
  obtain ⟨pc, hpc⟩ := Option.isSome_iff_exists.mp (h.target rfl)
  simp only [resume, hu, unwrap, ok_bind]
  split
  · refine safe_pure.mpr (.fall h.shared rfl rfl rfl ?_ rfl rfl)
    exact ⟨hbase, by simpa [CallFrame.fill] using hslots, hframe.sp, hframe.pc, hframe.chain⟩
  · -- The slots are given back before the branch is taken.
    simp only [safe_bind, safe_discard, safe_seek, safe_pure]
    refine ⟨⟨by omega, by omega⟩, pc, by rw [hframe.pc]; exact hpc, ?_⟩
    refine .branch h.shared rfl rfl hpc (n := s.operands - 1) ?_ rfl rfl
    exact ⟨hbase, by simpa using hslots, by simp only; omega, rfl, hframe.chain⟩

/-- A guard that ends normally pushes two values and pops its marker. -/
theorem guardEnd_safe {index p : Nat} {r : Upvars}
    (h : Held program ctx func cert st f ⟨before, .nlGuard index, after⟩ s)
    (hr : st.heap[p]? = some r) (hrest : ChainIs st.heap r.parent s.upvars.reverse) (v w : Value) :
    Safe (do
      let f ← { f with upvars := some p, status := .running }.push v
      let f ← f.push w
      let (_, f) ← Shared.popUpvars { st with heap := st.heap.set p { r with stale := true } } f
      return ({ st with heap := st.heap.set p { r with stale := true } }, f))
      (Lands program ctx func cert ⟨before, .nlGuard index, after⟩ s st.heap f) := by
  have hframe := h.frame
  have hbase := hframe.base
  have hslots := hframe.slots
  have hsp : f.sp = func.locals + (s.operands - 0) := hframe.sp
  have hroom : s.operands - 0 + 2 ≤ cert.maxOperandDepth := h.room
  have hext : st.heap.Extends (st.heap.set p { r with stale := true }) :=
    Heap.extends_set hr rfl rfl
  have hlt := (List.getElem?_eq_some_iff.mp hr).1
  have hget : (st.heap.set p { r with stale := true })[p]? = some { r with stale := true } := by
    simp [hlt]
  simp only [Shared.popUpvars, safe_bind, safe_push, safe_unwrap, safe_pure, List.length_set]
  refine ⟨⟨by omega, by omega⟩, ⟨by omega, by omega⟩, p, rfl, _, hget, h.shared.mono hext, hext, rfl,
    .inr (.inr ⟨rfl, false, after, rfl, ?_⟩)⟩
  have hsp' : f.sp + 1 + 1 = func.locals + (s.operands - 0 + 2) := by omega
  exact ⟨hbase, by simpa using hslots, hsp', hframe.pc, hrest.mono hext⟩

/-- The end of a guard pops its marker and pushes two values. -/
theorem resume_nlGuard_safe {index : Nat} {out : Except Thrown Reply}
    (h : Held program ctx func cert st f ⟨before, .nlGuard index, after⟩ s) :
    Safe (resume program st f ⟨before, .nlGuard index, after⟩ out)
      (Lands program ctx func cert ⟨before, .nlGuard index, after⟩ s st.heap f) := by
  have hchain : ChainIs st.heap f.upvars (0 :: s.upvars.reverse) := by
    have hchain := h.frame.chain
    simpa [heldUpvars] using hchain
  obtain ⟨p, r, hp, hr, hrest, -⟩ := hchain.popUpvars
  simp only [resume, endGuard, hp, hr, unwrap, ok_bind]
  -- Both normal ends push two values and pop the marker.
  split
  · exact guardEnd_safe h hr hrest _ _
  · split
    · exact guardEnd_safe h hr hrest _ _
    · exact safe_fail
  · exact safe_fail

/-- The end of an operation stays in bounds and leaves the frame as the certificate says. -/
theorem resume_safe {i : InstOffsets} {out : Except Thrown Reply}
    (h : Held program ctx func cert st f i s) (hwaits : waits i.inst = true) :
    Safe (resume program st f i out) (Lands program ctx func cert i s st.heap f) := by
  obtain ⟨before, inst, after⟩ := i
  have hframe := h.frame
  have hneeds := h.needs
  have hpack : ∀ index, (∃ args, ctx.pack index = some args) →
      ∃ sig, program.packtab[index]? = some sig ∧ sig.len = ctx.packLen index := by
    rintro index ⟨args, hargs⟩
    obtain ⟨sig, hsig, hlen⟩ := h.tables.packtab index args hargs
    exact ⟨sig, hsig, by rw [packLen_eq hargs]; exact hlen⟩
  cases out with
  | error e =>
    cases inst
    case nlGuard index => exact resume_nlGuard_safe h
    all_goals exact safe_fail
  | ok reply =>
    cases inst <;> first | exact absurd hwaits Bool.false_ne_true | skip
    case nlGuard index => exact resume_nlGuard_safe h
    case unpackBranch index offset => exact resume_unpackBranch_safe h
    case set sym | assign =>
      exact safe_ok.mpr (.fall h.shared rfl rfl rfl
        ⟨hframe.base, hframe.slots, hframe.sp, hframe.pc, hframe.chain⟩ rfl rfl)
    case call index | methodCall sym index =>
      obtain ⟨sig, hsig, hlen⟩ := hpack index h.ready
      simp only [resume, hsig, unwrap, ok_bind]
      exact resume_call_safe h (by rw [hlen]; exact hneeds) rfl (by rw [hlen]; rfl) rfl rfl
    case builtin index sigIndex =>
      obtain ⟨sig, hsig, hlen⟩ := hpack sigIndex h.ready
      simp only [resume, hsig, unwrap, ok_bind]
      exact resume_call_safe h (by rw [hlen]; exact hneeds) rfl (by rw [hlen]; rfl) rfl rfl
    case next =>
      have hroom : s.operands - 1 + 2 ≤ cert.maxOperandDepth := h.room
      have hsp : f.sp = func.locals + (s.operands - 1) := hframe.sp
      have hbase := hframe.base
      have hslots := hframe.slots
      simp only [resume, safe_bind, safe_push, safe_pure, List.length_set]
      exact ⟨⟨by omega, by omega⟩, ⟨by omega, by omega⟩, .fall h.shared rfl rfl rfl
        (hframe.update (m := s.operands - 1 + 2) rfl (by simp) (by simp only; omega) rfl rfl) rfl
        rfl⟩
    case branch offset =>
      obtain ⟨pc, hpc⟩ := Option.isSome_iff_exists.mp (h.target rfl)
      simp only [resume, safe_bind, safe_seek, safe_pure]
      exact ⟨pc, by rw [hframe.pc]; exact hpc, .branch h.shared rfl rfl hpc
        ⟨hframe.base, hframe.slots, hframe.sp, rfl, hframe.chain⟩ rfl rfl⟩
    case branchTrue offset => exact resume_seekIf_safe h (.inl rfl)
    case branchFalse offset => exact resume_seekIf_safe h (.inr rfl)
    case unpack index =>
      obtain ⟨n, hn⟩ := h.ready
      obtain ⟨u, hu, rfl⟩ := h.tables.unpacktab index n hn
      have hslots := hframe.slots
      simp only [resume, hu, unwrap, ok_bind, safe_pure]
      exact .fall h.shared rfl rfl rfl
        ⟨hframe.base, by simpa [CallFrame.fill] using hslots, hframe.sp, hframe.pc, hframe.chain⟩
        rfl rfl
    all_goals exact resume_push_safe h rfl rfl rfl

end

end Dolang.Runtime
