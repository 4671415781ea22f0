import Dolang.Bytecode.Blocks

/-!
# The flow function of a block

`flowBlock` as a function of the block's instructions: it succeeds when every instruction of the
block does (`Steps`) and the edges have room for what they push (`EdgeReady`), and its results are
the edges of the block (`blockEdges`) and the largest operand depth on the way (`blockDepth`).

Two relations between states are kept by the flow function. States with the same operands and
upvars (`SameCore`) reach the same blocks at the same depths, whatever their locals are. And when
one state knows no more locals than another (`Below`), a block that runs from the first one runs
from the second one as well, to edges that are related in the same way.
-/

namespace Dolang.Bytecode

open Dolang.Rust

/-! ## Running a list of instructions -/

/-- The state after a list of instructions. -/
def runState (ctx : Context) : List InstOffsets → BlockState → BlockState
  | [], s => s
  | i :: l, s => runState ctx l (stateAfter ctx i.inst s)

/-- Every instruction of a list succeeds, from a state on. -/
def Steps (ctx : Context) (func : Func) : List InstOffsets → BlockState → Prop
  | [], _ => True
  | i :: l, s =>
    step ctx func s i.inst = .ok (stateAfter ctx i.inst s) ∧
      Steps ctx func l (stateAfter ctx i.inst s)

/-- The largest operand depth after an instruction of a list. -/
def runDepth (ctx : Context) : List InstOffsets → Nat → Nat
  | [], _ => 0
  | i :: l, n => max (operandsAfter ctx i.inst n) (runDepth ctx l (operandsAfter ctx i.inst n))

/-- A step that succeeds has the state after the instruction as its result. -/
theorem step_ok_state {ctx : Context} {func : Func} {s s' : BlockState} {inst : Inst}
    (h : step ctx func s inst = .ok s') : s' = stateAfter ctx inst s :=
  (step_eq_ok.mp h).2.2.2

/-- The loop over the instructions of a block. -/
theorem walk_eq_ok {ctx : Context} {func : Func} {l : List InstOffsets} {w w' : Walk} :
    walk ctx func (l.map .ok) w = .ok w' ↔
      Steps ctx func l w.state ∧
        w' = ⟨runState ctx l w.state, max w.depth (runDepth ctx l w.state.operands),
          l.getLastD w.last⟩ := by
  induction l generalizing w with
  | nil =>
    simp only [List.map_nil, walk, Except.ok.injEq, Steps, runState, runDepth, true_and,
      Nat.max_zero, List.getLastD_nil]
    exact eq_comm
  | cons i l ih =>
    simp only [List.map_cons, walk, bind_eq_ok, mapErr_eq_ok, Steps, runState, runDepth,
      List.getLastD_cons]
    constructor
    · rintro ⟨s', hstep, hwalk⟩
      obtain rfl := step_ok_state hstep
      obtain ⟨hsteps, rfl⟩ := ih.mp hwalk
      refine ⟨⟨hstep, hsteps⟩, ?_⟩
      simp only [Nat.max_assoc]
      rfl
    · rintro ⟨⟨hstep, hsteps⟩, rfl⟩
      refine ⟨_, hstep, ih.mpr ⟨hsteps, ?_⟩⟩
      simp only [Nat.max_assoc]
      rfl

theorem Steps.append {ctx : Context} {func : Func} {a b : List InstOffsets} {s : BlockState} :
    Steps ctx func (a ++ b) s ↔ Steps ctx func a s ∧ Steps ctx func b (runState ctx a s) := by
  induction a generalizing s with
  | nil => simp [Steps, runState]
  | cons i a ih => simp [Steps, runState, ih, and_assoc]

theorem runState_append (ctx : Context) (a b : List InstOffsets) (s : BlockState) :
    runState ctx (a ++ b) s = runState ctx b (runState ctx a s) := by
  induction a generalizing s with
  | nil => rfl
  | cons i a ih => simp [runState, ih]

/-- The depth after an instruction in the middle is among those of the whole list. -/
theorem le_runDepth (ctx : Context) (a b : List InstOffsets) (i : InstOffsets) (s : BlockState) :
    (stateAfter ctx i.inst (runState ctx a s)).operands ≤
      runDepth ctx (a ++ i :: b) s.operands := by
  induction a generalizing s with
  | nil => exact Nat.le_max_left _ _
  | cons j a ih => exact (ih (stateAfter ctx j.inst s)).trans (Nat.le_max_right _ _)

/-! ## Edges -/

/-- The state along an edge. -/
def edgeAfter (ctx : Context) (inst : Inst) (taken : Bool) (s : BlockState) : BlockState :=
  match inst, taken with
  | .unpackBranch u _, false => { s with operands := s.operands + ctx.unpackLen u }
  | _, _ => s

/-- An edge has room for what it pushes. -/
def EdgeReady (ctx : Context) (inst : Inst) (taken : Bool) (operands : Nat) : Prop :=
  match inst, taken with
  | .unpackBranch u _, false =>
    ∃ n, ctx.unpackArity u = .ok (some n) ∧ (0 < n → operands + n ≤ usizeMax)
  | _, _ => True

theorem edge_eq_ok {ctx : Context} {i : InstOffsets} {taken : Bool} {s e : BlockState} :
    edge ctx i taken s = .ok e ↔
      EdgeReady ctx i.inst taken s.operands ∧ e = edgeAfter ctx i.inst taken s := by
  have hok : ∀ c : BlockState, (Except.ok c : Exec InstError BlockState) = .ok e ↔ e = c :=
    fun c => ⟨fun h => by cases h; rfl, fun h => by rw [h]⟩
  obtain ⟨before, inst, after⟩ := i
  unfold edge edgeState EdgeReady edgeAfter
  rw [mapErr_eq_ok]
  simp only
  split
  · simp only [bind_eq_ok, arityUnwrap_eq_ok, BlockState.pushN_eq_ok]
    constructor
    · rintro ⟨n, hn, hle, rfl⟩
      exact ⟨⟨n, hn, hle⟩, by rw [unpackLen_eq hn]⟩
    · rintro ⟨⟨n, hn, hle⟩, rfl⟩
      exact ⟨n, hn, hle, by rw [unpackLen_eq hn]⟩
  · simp only [hok, true_and]

theorem edgeTo_eq_ok {ctx : Context} {w : Walk} {taken : Bool} {next : Option Nat}
    {succs : List (Nat × BlockState)} :
    edgeTo ctx w taken next = .ok succs ↔
      (∀ p ∈ next.toList.map (·, taken), EdgeReady ctx w.last.inst p.2 w.state.operands) ∧
        succs = (next.toList.map (·, taken)).map
          fun p => (p.1, edgeAfter ctx w.last.inst p.2 w.state) := by
  cases next with
  | none =>
    simp only [edgeTo, pure, Except.pure, Except.ok.injEq, Option.toList_none, List.map_nil,
      List.not_mem_nil, false_implies, implies_true, true_and]
    exact eq_comm
  | some sid =>
    simp only [edgeTo, bind_eq_ok, edge_eq_ok, pure, Except.pure, Except.ok.injEq,
      Option.toList_some, List.map_cons, List.map_nil, List.mem_singleton, forall_eq]
    constructor
    · rintro ⟨e, ⟨hready, rfl⟩, rfl⟩
      exact ⟨hready, rfl⟩
    · rintro ⟨hready, rfl⟩
      exact ⟨_, ⟨hready, rfl⟩, rfl⟩

/-- The block that an instruction branches to. -/
def branchId (starts : List Nat) (i : InstOffsets) : Option Nat := i.target.bind (starts.idxOf? ·)

/-- The successors of a block by its last instruction, each with whether the branch is taken. -/
def succIds (starts : List Nat) (bb : Nat) (last : InstOffsets) : List (Nat × Bool) :=
  (nextBlock starts bb last.inst).toList.map (·, false) ++
    (branchId starts last).toList.map (·, true)

theorem branchBlock_eq {starts : List Nat} {i : InstOffsets}
    (h : i.inst.branchTarget.isSome → (branchId starts i).isSome) :
    branchBlock starts i = .ok (branchId starts i) := by
  unfold branchBlock
  split
  · rename_i hnone
    simp [branchId, InstOffsets.target, hnone]
  · rename_i t hsome
    obtain ⟨sid, hsid⟩ := Option.isSome_iff_exists.mp (h (by simp [hsome]))
    rw [hsid]
    simp only [branchId, InstOffsets.target, hsome, Option.bind_some] at hsid
    obtain ⟨o, ho, hidx⟩ := Option.bind_eq_some_iff.mp hsid
    simp [ho, hidx, unwrap, pure, Except.pure]

/-- The successors of a block with their states. -/
theorem successors_eq_ok {ctx : Context} {starts : List Nat} {bb : Nat} {w : Walk}
    {succs : List (Nat × BlockState)}
    (h : w.last.inst.branchTarget.isSome → (branchId starts w.last).isSome) :
    successors ctx starts bb w = .ok succs ↔
      (∀ p ∈ succIds starts bb w.last, EdgeReady ctx w.last.inst p.2 w.state.operands) ∧
        succs = (succIds starts bb w.last).map
          fun p => (p.1, edgeAfter ctx w.last.inst p.2 w.state) := by
  unfold successors succIds
  rw [branchBlock_eq h]
  simp only [ok_bind, bind_eq_ok, edgeTo_eq_ok, List.map_append, List.mem_append, pure,
    Except.pure, Except.ok.injEq]
  constructor
  · rintro ⟨fall, ⟨h1, rfl⟩, taken, ⟨h2, rfl⟩, rfl⟩
    exact ⟨fun p hp => hp.elim (h1 p) (h2 p), rfl⟩
  · rintro ⟨h12, rfl⟩
    exact ⟨_, ⟨fun p hp => h12 p (.inl hp), rfl⟩, _, ⟨fun p hp => h12 p (.inr hp), rfl⟩, rfl⟩

/-! ## The flow function -/

/-- The last instruction of a block. -/
def lastOf (seg : List InstOffsets) : InstOffsets := seg.getLastD ⟨0, .pop, 0⟩

/-- The edges of a block that is run from a state. -/
def blockEdges (ctx : Context) (starts : List Nat) (bb : Nat) (seg : List InstOffsets)
    (s : BlockState) : List (Nat × BlockState) :=
  (succIds starts bb (lastOf seg)).map
    fun p => (p.1, edgeAfter ctx (lastOf seg).inst p.2 (runState ctx seg s))

/-- The largest operand depth of a block that is run from a state. -/
def blockDepth (ctx : Context) (starts : List Nat) (bb : Nat) (seg : List InstOffsets)
    (s : BlockState) : Nat :=
  edgeDepth (runDepth ctx seg s.operands) (blockEdges ctx starts bb seg s)

/-- A block runs from a state. -/
def BlockRuns (ctx : Context) (func : Func) (starts : List Nat) (bb : Nat)
    (seg : List InstOffsets) (s : BlockState) : Prop :=
  Steps ctx func seg s ∧ ∀ p ∈ succIds starts bb (lastOf seg),
    EdgeReady ctx (lastOf seg).inst p.2 (runState ctx seg s).operands

theorem edgeDepth_max (d d' : Nat) (succs : List (Nat × BlockState)) :
    edgeDepth (max d d') succs = max d (edgeDepth d' succs) := by
  unfold edgeDepth
  induction succs generalizing d' with
  | nil => rfl
  | cons s succs ih => simp only [List.foldl_cons, Nat.max_assoc, ih]

/-- The depth that `edgeDepth` starts from is below its result. -/
theorem le_edgeDepth (d : Nat) (succs : List (Nat × BlockState)) : d ≤ edgeDepth d succs := by
  have h := edgeDepth_max d d succs
  rw [Nat.max_self] at h
  omega

/-- The depth of every edge is below the result of `edgeDepth`. -/
theorem edge_le_edgeDepth (d : Nat) {succs : List (Nat × BlockState)} {p : Nat × BlockState}
    (hp : p ∈ succs) : p.2.operands ≤ edgeDepth d succs := by
  unfold edgeDepth
  induction succs generalizing d with
  | nil => cases hp
  | cons q succs ih =>
    rcases List.mem_cons.mp hp with rfl | hp
    · exact (Nat.le_max_right _ _).trans (le_edgeDepth _ succs)
    · exact ih _ hp

theorem lastOf_mem {seg : List InstOffsets} (h : seg ≠ []) : lastOf seg ∈ seg := by
  unfold lastOf
  rw [List.getLastD_eq_getLast?, List.getLast?_eq_getLast_of_ne_nil h, Option.getD_some]
  exact List.getLast_mem h

theorem mem_of_mem_segs {l seg : List InstOffsets} (hseg : seg ∈ segs l) {i : InstOffsets}
    (hi : i ∈ seg) : i ∈ l := by
  rw [← segs_flatten l]
  exact List.mem_flatten.mpr ⟨seg, hseg, hi⟩

section

variable {ctx : Context} {func : Func} {bytecode : List UInt8} {l : List InstOffsets}
  (hdec : Decoded ctx func bytecode l)
include hdec

/-- A block's last instruction branches to a block, if it branches. -/
theorem Decoded.branchId_isSome {i : InstOffsets} (hi : i ∈ l)
    (hbranch : i.inst.branchTarget.isSome) : (branchId (starts l) i).isSome := by
  obtain ⟨t, ht⟩ := Option.isSome_iff_exists.mp (hdec.target i hi hbranch)
  obtain ⟨sid, hsid⟩ := hdec.branch_block hi ht
  simp [branchId, ht, hsid]

/-- The flow function of a block. -/
theorem flowBlock_eq_ok {bb depth depth' : Nat} {seg : List InstOffsets} {s : BlockState}
    {succs : List (Nat × BlockState)} (hseg : (segs l)[bb]? = some seg) :
    flowBlock ctx func bytecode (starts l) bb s depth = .ok (succs, depth') ↔
      BlockRuns ctx func (starts l) bb seg s ∧ succs = blockEdges ctx (starts l) bb seg s ∧
        depth' = max depth (blockDepth ctx (starts l) bb seg s) := by
  obtain ⟨start, hstart, hitems⟩ := blockInsts_eq hdec hseg
  have hmem := List.mem_of_getElem? hseg
  have hlast := mem_of_mem_segs hmem (lastOf_mem (segs_ne_nil hmem))
  have hbranch := hdec.branchId_isSome hlast
  have hsuccs : ∀ d, successors ctx (starts l) bb ⟨runState ctx seg s, d, lastOf seg⟩ = .ok succs ↔
      (∀ p ∈ succIds (starts l) bb (lastOf seg),
        EdgeReady ctx (lastOf seg).inst p.2 (runState ctx seg s).operands) ∧
        succs = blockEdges ctx (starts l) bb seg s := by
    intro d
    exact successors_eq_ok hbranch
  unfold flowBlock
  rw [hstart]
  simp only [unwrap, ok_bind, hitems, bind_eq_ok, walk_eq_ok, pure, Except.pure, Except.ok.injEq,
    Prod.mk.injEq]
  constructor
  · rintro ⟨w, ⟨hsteps, rfl⟩, succs', hs, rfl, rfl⟩
    obtain ⟨hready, rfl⟩ := (hsuccs _).mp hs
    exact ⟨⟨hsteps, hready⟩, rfl, edgeDepth_max _ _ _⟩
  · rintro ⟨⟨hsteps, hready⟩, rfl, rfl⟩
    exact ⟨_, ⟨hsteps, rfl⟩, _, (hsuccs _).mpr ⟨hready, rfl⟩, rfl, edgeDepth_max _ _ _⟩

end

/-! ## States with the same operands and upvars -/

/-- The states agree on operands and upvars. -/
def SameCore (s t : BlockState) : Prop := s.operands = t.operands ∧ s.upvars = t.upvars

theorem SameCore.refl (s : BlockState) : SameCore s s := ⟨rfl, rfl⟩

theorem SameCore.symm {s t : BlockState} (h : SameCore s t) : SameCore t s :=
  ⟨h.1.symm, h.2.symm⟩

theorem SameCore.trans {s t u : BlockState} (h : SameCore s t) (h' : SameCore t u) :
    SameCore s u := ⟨h.1.trans h'.1, h.2.trans h'.2⟩

theorem SameCore.stateAfter {s t : BlockState} (h : SameCore s t) (ctx : Context) (inst : Inst) :
    SameCore (stateAfter ctx inst s) (stateAfter ctx inst t) := by
  obtain ⟨h1, h2⟩ := h
  exact ⟨by simp [Bytecode.stateAfter, h1], by simp [Bytecode.stateAfter, h2]⟩

theorem SameCore.runState {s t : BlockState} (h : SameCore s t) (ctx : Context)
    (l : List InstOffsets) : SameCore (runState ctx l s) (runState ctx l t) := by
  induction l generalizing s t with
  | nil => exact h
  | cons i l ih => exact ih (h.stateAfter ctx i.inst)

theorem SameCore.edgeAfter {s t : BlockState} (h : SameCore s t) (ctx : Context) (inst : Inst)
    (taken : Bool) : SameCore (edgeAfter ctx inst taken s) (edgeAfter ctx inst taken t) := by
  obtain ⟨h1, h2⟩ := h
  unfold Bytecode.edgeAfter
  split
  · exact ⟨by simp [h1], h2⟩
  · exact ⟨h1, h2⟩

/-- The depth of a block depends only on the operands it is entered with. -/
theorem SameCore.blockDepth_eq {s t : BlockState} (h : SameCore s t) (ctx : Context)
    (starts : List Nat) (bb : Nat) (seg : List InstOffsets) :
    blockDepth ctx starts bb seg s = blockDepth ctx starts bb seg t := by
  have hedges : ∀ p : Nat × Bool,
      (Bytecode.edgeAfter ctx (lastOf seg).inst p.2 (Bytecode.runState ctx seg s)).operands =
      (Bytecode.edgeAfter ctx (lastOf seg).inst p.2 (Bytecode.runState ctx seg t)).operands :=
    fun p => ((h.runState ctx seg).edgeAfter ctx _ p.2).1
  unfold blockDepth edgeDepth blockEdges
  rw [h.1, List.foldl_map, List.foldl_map]
  simp only [hedges]

/-! ## States that know fewer locals -/

/-- The state `c` knows no local below `n` that `s` does not know, and agrees with it otherwise. -/
def Below (n : Nat) (c s : BlockState) : Prop :=
  SameCore c s ∧ ∀ i < n, c.locals[i]? = some .value → s.locals[i]? = some .value

theorem Below.refl (n : Nat) (s : BlockState) : Below n s s := ⟨SameCore.refl s, fun _ _ h => h⟩

theorem Below.trans {n : Nat} {a b c : BlockState} (h : Below n a b) (h' : Below n b c) :
    Below n a c := ⟨h.1.trans h'.1, fun i hi hv => h'.2 i hi (h.2 i hi hv)⟩

theorem localsAfter_length (inst : Inst) (locals : List LocalState) :
    (localsAfter inst locals).length = locals.length := by
  unfold localsAfter
  split <;> simp

/-- A store sets its local, and a known local stays known. -/
theorem localsAfter_getElem? {inst : Inst} {locals : List LocalState} {i : Nat} :
    (localsAfter inst locals)[i]? = some .value ↔
      locals[i]? = some .value ∨ (inst = .storeLocal i ∧ i < locals.length) := by
  unfold localsAfter
  split
  · rename_i j
    rw [List.getElem?_set]
    by_cases hij : j = i
    · subst hij
      simp only [if_true, true_and]
      split
      · simp_all
      · rename_i hge
        simp only [reduceCtorEq, false_iff, not_or]
        exact ⟨by simp [List.getElem?_eq_none (Nat.le_of_not_lt hge)], hge⟩
    · simp [hij]
  · rename_i hne
    constructor
    · exact Or.inl
    · rintro (h | ⟨rfl, -⟩)
      · exact h
      · exact absurd rfl (hne i)

theorem runState_length (ctx : Context) (l : List InstOffsets) (s : BlockState) :
    (runState ctx l s).locals.length = s.locals.length := by
  induction l generalizing s with
  | nil => rfl
  | cons i l ih => exact (ih _).trans (localsAfter_length _ _)

theorem edgeAfter_locals (ctx : Context) (inst : Inst) (taken : Bool) (s : BlockState) :
    (edgeAfter ctx inst taken s).locals = s.locals := by
  unfold edgeAfter
  split <;> rfl

section

variable {ctx : Context} {func : Func} {c s : BlockState}

/-- A step that succeeds from a state succeeds from one that knows more, and keeps the order. -/
theorem Below.step {i : InstOffsets} (h : Below func.locals c s)
    (hsize : s.locals.length = func.locals) (hok : SyntaxOk ctx func i)
    (hstep : step ctx func c i.inst = .ok (Bytecode.stateAfter ctx i.inst c)) :
    step ctx func s i.inst = .ok (Bytecode.stateAfter ctx i.inst s) ∧
      Below func.locals (Bytecode.stateAfter ctx i.inst c)
        (Bytecode.stateAfter ctx i.inst s) := by
  obtain ⟨hdepth, hready, hlocals, -⟩ := step_eq_ok.mp hstep
  obtain ⟨hcore, hle⟩ := h
  have hlocals' : LocalsReady i.inst s.locals := by
    unfold LocalsReady at hlocals ⊢
    unfold SyntaxOk at hok
    split at hlocals <;> simp_all
  refine ⟨step_eq_ok.mpr ⟨?_, ?_, hlocals', rfl⟩, hcore.stateAfter ctx i.inst, ?_⟩
  · rwa [← hcore.1]
  · rwa [← hcore.1, ← hcore.2]
  · intro j hj hv
    simp only [Bytecode.stateAfter, localsAfter_getElem?] at hv ⊢
    rcases hv with hv | ⟨hst, -⟩
    · exact Or.inl (hle j hj hv)
    · exact Or.inr ⟨hst, by omega⟩

/-- A block that runs from a state runs from one that knows more, and keeps the order. -/
theorem Below.steps {l : List InstOffsets} (h : Below func.locals c s)
    (hsize : s.locals.length = func.locals) (hok : ∀ i ∈ l, SyntaxOk ctx func i)
    (hsteps : Steps ctx func l c) :
    Steps ctx func l s ∧ Below func.locals (runState ctx l c) (runState ctx l s) := by
  induction l generalizing c s with
  | nil => exact ⟨trivial, h⟩
  | cons i l ih =>
    obtain ⟨hstep, hrest⟩ := hsteps
    obtain ⟨hstep', hbelow⟩ := h.step hsize (hok i (by simp)) hstep
    have hsize' : (Bytecode.stateAfter ctx i.inst s).locals.length = func.locals :=
      (localsAfter_length _ _).trans hsize
    obtain ⟨hrest', hbelow'⟩ := ih hbelow hsize' (fun j hj => hok j (by simp [hj])) hrest
    exact ⟨⟨hstep', hrest'⟩, hbelow'⟩

/-- The edges of a block keep the order. -/
theorem Below.edgeAfter {n : Nat} (h : Below n c s) (inst : Inst) (taken : Bool) :
    Below n (edgeAfter ctx inst taken c) (Bytecode.edgeAfter ctx inst taken s) := by
  refine ⟨h.1.edgeAfter ctx inst taken, ?_⟩
  rw [edgeAfter_locals, edgeAfter_locals]
  exact h.2

/-- A block that runs from a state runs from one that knows more. -/
theorem Below.blockRuns {starts : List Nat} {bb : Nat} {seg : List InstOffsets}
    (h : Below func.locals c s) (hsize : s.locals.length = func.locals)
    (hok : ∀ i ∈ seg, SyntaxOk ctx func i) (hruns : BlockRuns ctx func starts bb seg c) :
    BlockRuns ctx func starts bb seg s := by
  obtain ⟨hsteps, hready⟩ := hruns
  obtain ⟨hsteps', hbelow⟩ := h.steps hsize hok hsteps
  exact ⟨hsteps', fun p hp => by rw [← hbelow.1.1]; exact hready p hp⟩

end

end Dolang.Bytecode
