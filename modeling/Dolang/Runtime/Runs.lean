import Dolang.Runtime.Safety

/-!
# Runs stay in bounds

A machine keeps its frames and functions as the certificates say (`MachineOk`): a frame that takes a
step does (`step_safe`, `resume_frame_safe`), and so does a function that was made and is called
(`startCall_safe`). By induction no run makes an access out of bounds (`run_safe`).

The checks do not establish two things that this needs. The frame that `run_inner` makes for
function `0` has no arguments and no upvar records, whatever that function was verified with. And
nothing keeps the code from a `Reify` of a pack with arguments that are expanded.
-/

namespace Dolang.Runtime

open Dolang.Rust Dolang.Bytecode

/-! ## Runs -/

/-- A machine whose frames and functions are as the certificates say. -/
structure MachineOk (program : Program) (ctx : Context) (m : Machine) : Prop where
  shared : SharedOk program m.shared
  frames : ∀ f ∈ m.frames, FrameOk program ctx m.shared.heap f

/-- An action executes a `Reify` of a pack with arguments that are expanded. -/
def ReifiesVar (program : Program) (m : Machine) : Action → Prop
  | .step k => ∃ f code after p args, m.frames[k]? = some f ∧ f.status = .running ∧
      f.code program = .ok code ∧ next code f.pc = some (.ok (.reify p, after)) ∧
      program.packtab[p]? = some (.var args)
  | _ => False

/-- No action of a run executes such a `Reify`. -/
def NeverReifiesVar (program : Program) : Machine → List Action → Prop
  | _, [] => True
  | m, a :: as => ¬ReifiesVar program m a ∧
      ∀ m', m.act program a = .ok m' → NeverReifiesVar program m' as

/-- The frames that are about to take a step have all slots of their function, the stack pointer
between the locals and the end of the slots, and an instruction to decode. -/
def InBounds (program : Program) (m : Machine) : Prop :=
  ∀ f ∈ m.frames, f.status = .running →
    ∃ info slots code inst after, program.funcs[f.func]? = some (info, slots) ∧
      f.base = info.locals ∧ f.slots.length = slots ∧ info.locals ≤ f.sp ∧ f.sp ≤ slots ∧
      info.bytecode.slice program.bytecode = some code ∧
      next code f.pc = some (.ok (inst, after))

section

variable {program : Program} {ctx : Context} {st : Shared} {f : CallFrame}

/-- The code of a frame's function. -/
theorem VerifiedFunc.frame_code {entry : Func × Nat} {func : Func} {cert : Certificate}
    {code : List UInt8} {l : List InstOffsets} {u : Unpack}
    (hv : VerifiedFunc program ctx entry func cert code l u)
    (hentry : program.funcs[f.func]? = some entry) : f.code program = .ok code := by
  simp [CallFrame.code, hentry, unwrap, hv.slice]

/-- The operands fit where an instruction falls through. -/
theorem VerifiedFunc.fall_le {entry : Func × Nat} {func : Func} {cert : Certificate}
    {code : List UInt8} {l : List InstOffsets} {u : Unpack} {i : InstOffsets} {s : BlockState}
    (hv : VerifiedFunc program ctx entry func cert code l u)
    (hat : At ctx l (cert.claims func u.len) i s) (hstops : i.inst.stops = false) :
    (edgeAfter ctx i.inst false (stateAfter ctx i.inst s)).operands ≤ cert.maxOperandDepth := by
  -- The instruction is followed by another one, with a state.
  obtain ⟨a, b, hl⟩ := List.append_of_mem hat.mem
  obtain ⟨j, b', rfl, hj⟩ := hv.decoded.falls hl hstops
  obtain ⟨t, hpass⟩ := hat.edge hv.decoded hv.accepts.fixed
    (.fall hat.mem (by rw [hl]; simp) hstops hj)
  exact hpass.depth hv.accepts.depth

/-- A step of a frame that is as its certificate says. -/
theorem step_safe (htables : VerifiedProgram program ctx) (hst : SharedOk program st)
    (hf : FrameOk program ctx st.heap f) (hrun : f.status = .running)
    (hreify : ∀ code after p args, f.code program = .ok code →
      next code f.pc = some (.ok (.reify p, after)) → program.packtab[p]? ≠ some (.var args)) :
    Safe (step program st f) fun r => SharedOk program r.1 ∧ st.heap.Extends r.1.heap ∧
      FrameOk program ctx r.1.heap r.2 := by
  rcases hf with hdone | ⟨entry, func, cert, code, l, u, i, s, hentry, hv, hat, hkeeps, hle, hcase⟩
  · rw [hrun] at hdone
    cases hdone
  · obtain ⟨-, hframe⟩ | ⟨hwait, -⟩ := hcase
    · obtain ⟨hneeds, hready, -, -⟩ := step_eq_ok.mp (hat.step hv.accepts.fixed)
      have hnext := hv.decoded.chain.next hat.mem
      have hcode := hv.frame_code hentry
      have hfetch : fetch code f.pc = .ok i := by
        rw [hframe.pc, fetch, hnext]
      have hbefore : Before program ctx func cert st { f with pc := i.after } i s :=
        { tables := htables
          shared := hst
          running := hrun
          frame := ⟨hframe.base, hframe.slots, hframe.sp, rfl, hframe.chain⟩
          depth := hle
          room := hat.depth_le hv.accepts.depth
          edge_room := hv.fall_le hat
          needs := hneeds.1
          ready := hready
          checked := hv.decoded.checked i hat.mem
          keeps := hkeeps
          target := hv.decoded.target i hat.mem }
      have hfixed : ∀ p, i.inst = .reify p → ∀ args, program.packtab[p]? ≠ some (.var args) := by
        intro p hp args
        apply hreify code i.after p args hcode
        rw [hframe.pc, hnext, hp]
      simp only [step, hcode, ok_bind, hfetch]
      apply (exec_safe hbefore hfixed).mono
      intro r hr
      exact ⟨hr.shared, hr.heap, hr.frameOk hentry hv hat hkeeps hle⟩
    · rw [hrun] at hwait
      cases hwait

/-- The end of an operation in a frame that is as its certificate says. -/
theorem resume_frame_safe (htables : VerifiedProgram program ctx) (hst : SharedOk program st)
    {i : InstOffsets} {out : Except Thrown Reply} (hf : FrameOk program ctx st.heap f)
    (hwait : f.status = .waiting i) :
    Safe (resume program st f i out) fun r => SharedOk program r.1 ∧
      st.heap.Extends r.1.heap ∧ FrameOk program ctx r.1.heap r.2 := by
  rcases hf with hdone | ⟨entry, func, cert, code, l, u, j, s, hentry, hv, hat, hkeeps, hle, hcase⟩
  · rw [hwait] at hdone
    cases hdone
  · obtain ⟨hrun, -⟩ | ⟨hj, hwaits, hframe⟩ := hcase
    · rw [hwait] at hrun
      cases hrun
    · rw [hwait] at hj
      cases hj
      obtain ⟨hneeds, hready, -, -⟩ := step_eq_ok.mp (hat.step hv.accepts.fixed)
      have hheld : Held program ctx func cert st f i s :=
        { tables := htables
          shared := hst
          frame := hframe
          depth := hle
          room := hat.depth_le hv.accepts.depth
          edge_room := hv.fall_le hat
          needs := hneeds.1
          ready := hready
          checked := hv.decoded.checked i hat.mem
          target := hv.decoded.target i hat.mem }
      apply (resume_safe hheld hwaits).mono
      intro r hr
      exact ⟨hr.shared, hr.heap, hr.frameOk hentry hv hat hkeeps hle⟩

/-- A new frame of a function, with its arguments on the stack, is as its certificate says. -/
theorem VerifiedFunc.start {entry : Func × Nat} {func : Func} {cert : Certificate}
    {code : List UInt8} {l : List InstOffsets} {u : Unpack} {heap : Heap}
    (hv : VerifiedFunc program ctx entry func cert code l u)
    (hentry : program.funcs[f.func]? = some entry) (hrun : f.status = .running)
    (hframe : FrameAt func cert heap f 0 u.len func.upvars) : FrameOk program ctx heap f := by
  obtain ⟨i, l', hl⟩ := List.exists_cons_of_ne_nil hv.ne_nil
  have hchain := hv.decoded.chain
  rw [hl] at hchain
  have hat : At ctx l (cert.claims func u.len) i (entryState func u.len) := At.first hl
  refine .inr ⟨entry, func, cert, code, l, u, i, entryState func u.len, hentry, hv, hat,
    List.prefix_refl _, hv.accepts.depth.arity_le, .inl ⟨hrun, ?_⟩⟩
  have hzero : i.before = 0 := hchain.1
  rw [hzero]
  exact hframe

/-- A call of a function that was made. -/
theorem startCall_safe (htables : VerifiedProgram program ctx) {heap : Heap} {k : Nat}
    {upvars : Option Nat} {args : List CallArg} {entry : Func × Nat}
    (hentry : program.funcs[k]? = some entry)
    (hchain : ChainIs heap upvars entry.1.upvars.reverse)
    (hargs : argsFound program k args = true) :
    Safe (startCall program k upvars args) (FrameOk program ctx heap) := by
  obtain ⟨func, cert, code, l, u, hv⟩ := htables.funcs k entry hentry
  have hfound : args.all u.finds = true := by
    simpa [argsFound, hentry, hv.sig] using hargs
  have harity := hv.accepts.depth.arity_le
  have hslots := hv.slots
  have hlocals := hv.locals
  simp only [startCall, CallFrame.new, hentry, unwrap, ok_bind]
  apply (unpackUnchecked_safe hentry hv.sig (by simp) (by omega) hv.keys hfound).mono
  rintro f ⟨slots, hlen, rfl⟩
  exact hv.start hentry rfl ⟨hlocals, hlen.trans hslots, by simp only; omega, rfl,
    hv.upvars ▸ hchain⟩

end

/-- A frame that has made a step is put back among the others. -/
theorem MachineOk.settle {program : Program} {ctx : Context} {m : Machine}
    (hm : MachineOk program ctx m) {k : Nat} {f : CallFrame}
    {x : Exec Thrown (Shared × CallFrame)}
    (hx : Safe x fun r => SharedOk program r.1 ∧ m.shared.heap.Extends r.1.heap ∧
      FrameOk program ctx r.1.heap r.2) :
    Safe (m.settle k f x) (MachineOk program ctx) := by
  match x, hx with
  | .ok (shared, f'), hx =>
    obtain ⟨hshared, hext, hf'⟩ := safe_ok.mp hx
    refine safe_ok.mpr ⟨hshared, fun g hg => ?_⟩
    rcases List.mem_or_eq_of_mem_set hg with hg | rfl
    · exact (hm.frames g hg).mono hext
    · exact hf'
  | .error (.err e), _ =>
    refine safe_ok.mpr ⟨hm.shared, fun g hg => ?_⟩
    rcases List.mem_or_eq_of_mem_set hg with hg | rfl
    · exact hm.frames g hg
    · exact .inl rfl
  | .error .panic, hx => exact absurd rfl hx.1.1
  | .error .fuel, hx => exact absurd rfl hx.1.2

/-- An action keeps the frames and functions as the certificates say. -/
theorem act_safe {program : Program} {ctx : Context} {m : Machine} {a : Action}
    (htables : VerifiedProgram program ctx) (hm : MachineOk program ctx m)
    (hreify : ¬ReifiesVar program m a) :
    Safe (m.act program a) (MachineOk program ctx) := by
  cases a with
  | step k =>
    simp only [Machine.act]
    split
    · rename_i f hf
      split
      · rename_i hrun
        apply hm.settle
        refine step_safe htables hm.shared (hm.frames f (List.mem_of_getElem? hf)) hrun ?_
        intro code after p args hcode hnext hpack
        exact hreify ⟨f, code, after, p, args, hf, hrun, hcode, hnext, hpack⟩
      · exact safe_ok.mpr hm
    · exact safe_ok.mpr hm
  | resume k out =>
    simp only [Machine.act]
    split
    · rename_i f hf
      split
      · rename_i i hwait
        apply hm.settle
        exact resume_frame_safe htables hm.shared (hm.frames f (List.mem_of_getElem? hf)) hwait
      · exact safe_ok.mpr hm
    · exact safe_ok.mpr hm
  | call closure args =>
    simp only [Machine.act]
    split
    · rename_i k upvars hclosure
      split
      · rename_i hargs
        obtain ⟨entry, hentry, hchain⟩ := hm.shared _ (List.mem_of_getElem? hclosure)
        have hcall := startCall_safe htables hentry hchain hargs
        split
        · rename_i f hf
          rw [hf, safe_ok] at hcall
          refine safe_ok.mpr ⟨hm.shared, fun g hg => ?_⟩
          rcases List.mem_append.mp hg with hg | hg
          · exact hm.frames g hg
          · obtain rfl := List.mem_singleton.mp hg
            exact hcall
        · exact safe_ok.mpr hm
        · rename_i hpanic
          exact absurd hpanic hcall.1.1
        · rename_i hfuel
          exact absurd hfuel hcall.1.2
      · exact safe_ok.mpr hm
    · exact safe_ok.mpr hm

/-- A run keeps the frames and functions as the certificates say. -/
theorem run_safe {program : Program} {ctx : Context} (htables : VerifiedProgram program ctx)
    {actions : List Action} {m : Machine} (hm : MachineOk program ctx m)
    (hreify : NeverReifiesVar program m actions) :
    Safe (m.run program actions) (MachineOk program ctx) := by
  induction actions generalizing m with
  | nil => exact safe_ok.mpr hm
  | cons a as ih =>
    rw [Machine.run, safe_bind]
    have hact := act_safe htables hm hreify.1
    exact ⟨hact.1, fun m' hm' => ih (hact.2 m' hm') (hreify.2 m' hm')⟩

/-- A machine that is as the certificates say is within bounds. -/
theorem MachineOk.inBounds {program : Program} {ctx : Context} {m : Machine}
    (hm : MachineOk program ctx m) : InBounds program m := by
  intro f hf hrun
  rcases hm.frames f hf with hdone | ⟨entry, func, cert, code, l, u, i, s, hentry, hv, hat, -, hle,
    hcase⟩
  · rw [hrun] at hdone
    cases hdone
  · obtain ⟨-, hframe⟩ | ⟨hwait, -⟩ := hcase
    · have hnext := hv.decoded.chain.next hat.mem
      rw [← hframe.pc] at hnext
      have hsp := hframe.sp
      have hlocals := hv.locals
      have hslots := hv.slots
      exact ⟨entry.1, entry.2, code, i.inst, i.after, hentry, hframe.base.trans hlocals.symm,
        hframe.slots.trans hslots.symm, by omega, by omega, hv.slice, hnext⟩
    · rw [hrun] at hwait
      cases hwait

/-- Function `0` takes no arguments and captures nothing. -/
def EntryPlain (index : Index) : Prop :=
  ∃ e sig, index.functab[0]? = some e ∧ e.func.upvars = [] ∧
    index.unpacktab[e.func.sig]? = some sig ∧ sig.entries = 0

/-- The frame that `run_inner` makes is as the certificate of function `0` says. -/
theorem runInner_ok {pc : Postcard} {buffer : List UInt8} {fuel : Nat} {content : Content}
    {program : Program} (h : deserialize pc buffer fuel = .ok content)
    (hload : loadBytecode content buffer = .ok program) (hentry : EntryPlain content.index) :
    ∃ ctx m, VerifiedProgram program ctx ∧ runInner program = .ok m ∧
      MachineOk program ctx m := by
  obtain ⟨main, htables⟩ := verified_of_load h hload
  obtain ⟨e, sig, he, hupvars, hsig, hzero⟩ := hentry
  have hload' := hload
  unfold loadBytecode at hload'
  simp only [bind_eq_ok, pure, Except.pure, Except.ok.injEq] at hload'
  obtain ⟨main', -, funcs, hfuncs, symroots, -, consttab, -, packtab, -, unpacktab, hunpacks, _, -,
    rfl⟩ := hload'
  obtain ⟨entry, hfunc, hloadFunc⟩ := mapAll_getElem? hfuncs he
  obtain rfl := loadFunc_spec hloadFunc
  obtain ⟨u, hu, hloadUnpack⟩ := mapAll_getElem? hunpacks hsig
  -- The signature has no entries, so the verified code starts with no operands.
  have hlen : u.len = 0 := by
    have hmax : 0 < usizeMax := by decide
    rw [(loadUnpack_spec hloadUnpack).1]
    unfold UnpackSig.entries saturatingAdd at hzero
    omega
  obtain ⟨func, cert, code, l, u', hv⟩ := htables.funcs 0 _ hfunc
  have hsame := hv.sig
  rw [hu] at hsame
  cases hsame
  refine ⟨_, _, htables, by simp [runInner, CallFrame.new, hfunc, unwrap]; rfl, ?_⟩
  refine ⟨fun c hc => absurd hc List.not_mem_nil, fun f hf => ?_⟩
  obtain rfl := List.mem_singleton.mp hf
  have hchain : func.upvars = [] := hv.upvars.symm.trans hupvars
  refine hv.start hfunc rfl ⟨hv.locals, ?_, ?_, rfl, ?_⟩
  · rw [List.length_replicate]
    exact hv.slots
  · rw [hlen]
    exact hv.locals
  · rw [hchain]
    rfl

/-- The program of the file with the looping function. -/
def loopProgram : Program where
  bytecode := loopFile
  funcs := [(⟨0, 1, [], ⟨11, 22⟩⟩, 2)]
  symtab := []
  consttab := [.nil]
  packtab := []
  unpacktab := [⟨0, [], [], .split .none .none⟩]
  debugbintab := ⟨22, 22⟩
  funcdebugs := []
  moduleName := none

/-- A file whose function `0` has a parameter and returns it. -/
def argIndex : Index :=
  { oneFuncIndex ⟨0, 0, [], ⟨0, 1⟩⟩ ⟨1, []⟩ with
    unpacktab := [⟨1, [], [], .split .none .none⟩] }

/-- Its encoded index. -/
def argIndexBytes : List UInt8 :=
  [0, 1, 0, 0, 1, 1, 0, 0, 2, 0, 0, 1, 0, 0, 0, 0, 1, 1, 0, 0, 0]

/-- Its program. -/
def argProgram : Program where
  bytecode := serialize argIndexBytes [38] []
  funcs := [(⟨0, 0, [], ⟨11, 12⟩⟩, 1)]
  symtab := []
  consttab := [.nil]
  packtab := []
  unpacktab := [⟨1, [], [], .split .none .none⟩]
  debugbintab := ⟨12, 12⟩
  funcdebugs := []
  moduleName := none

end Dolang.Runtime
