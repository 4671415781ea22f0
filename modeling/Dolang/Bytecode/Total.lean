import Dolang.Bytecode.Depth
import Dolang.Bytecode.Typing

/-!
# Checking a certificate returns

`FuncVerifier.check` ends with a verdict and does not panic, for every certificate whose lists of
locals have an entry for each local that their block uses (`Certificate.Fits`). The other things a
panic could come from have been established when they are used: the tables by the first pass, the
blocks by the second one, the upvar records by the states of the blocks reached so far
(`KeepsUpvars`), and the room for pushes by the bound on the operand depth.
-/

namespace Dolang.Bytecode

open Dolang.Rust

/-! ## The records of the function stay in scope -/

/-- The upvar records that the function captured are the outermost ones in scope. -/
def KeepsUpvars (func : Func) (s : BlockState) : Prop := func.upvars <+: s.upvars

/-- Only records that the function has pushed are popped. -/
theorem KeepsUpvars.step {ctx : Context} {func : Func} {s : BlockState} {inst : Inst}
    (h : KeepsUpvars func s) (hready : Ready ctx func inst s.operands s.upvars) :
    KeepsUpvars func (stateAfter ctx inst s) := by
  have hdrop : s.upvars.length ≠ func.upvars.length → func.upvars <+: s.upvars.dropLast := by
    intro hne
    obtain ⟨rest, hrest⟩ := h
    rw [← hrest] at hne ⊢
    have hnil : rest ≠ [] := by
      rintro rfl
      simp at hne
    rw [List.dropLast_append_of_ne_nil hnil]
    exact List.prefix_append _ _
  unfold KeepsUpvars stateAfter upvarsAfter
  unfold Ready at hready
  split
  · exact h.trans (List.prefix_append _ _)
  · exact hdrop hready
  · exact hdrop hready.1
  · exact h

theorem KeepsUpvars.edge {func : Func} {s : BlockState} (h : KeepsUpvars func s) (ctx : Context)
    (inst : Inst) (taken : Bool) : KeepsUpvars func (edgeAfter ctx inst taken s) := by
  unfold edgeAfter
  split <;> exact h

theorem KeepsUpvars.of_sameCore {func : Func} {s t : BlockState} (h : KeepsUpvars func s)
    (hcore : SameCore s t) : KeepsUpvars func t := by
  unfold KeepsUpvars
  rw [← hcore.2]
  exact h

/-! ## The passes before the data flow -/

section

variable {ctx : Context} {func : Func}

/-- The first pass does not panic where the arities of the unpack table do not. -/
theorem checkInst_returns (harity : ∀ u, Returns (ctx.unpackArity u)) (i : InstOffsets) :
    Returns (checkInst ctx func i) := by
  have hcheck : ∀ (c : Bool) (e : FuncError),
      Returns (if c then .ok () else fail e : Exec FuncError Unit) := by
    intro c e
    cases c <;> simp
  obtain ⟨before, inst, after⟩ := i
  cases inst <;> simp only [checkInst]
  case unpack u =>
    refine Returns.bind (Returns.mapErr _ (harity u)) fun o _ => ?_
    exact Returns.bind (hcheck _ _) fun _ _ => Returns.pure _
  case unpackBranch u _ =>
    refine Returns.bind (Returns.mapErr _ (harity u)) fun o _ => ?_
    refine Returns.bind (hcheck _ _) fun _ _ => ?_
    exact Returns.bind (hcheck _ _) fun _ _ => Returns.pure _
  case methodCall | builtin =>
    refine Returns.bind (hcheck _ _) fun _ _ => ?_
    exact Returns.bind (hcheck _ _) fun _ _ => Returns.pure _
  all_goals
    first
    | exact Returns.pure _
    | exact Returns.bind (hcheck _ _) fun _ _ => Returns.pure _

theorem syntaxLoop_returns (harity : ∀ u, Returns (ctx.unpackArity u))
    (items : List (Except DecError InstOffsets)) :
    ∀ (needBb : Bool) (last : Inst), Returns (syntaxLoop ctx func items needBb last) := by
  induction items with
  | nil => exact fun _ _ => Returns.ok _
  | cons item items ih =>
    intro needBb last
    cases item with
    | error e => exact Returns.fail _
    | ok i =>
      refine Returns.bind (checkInst_returns harity i) fun r _ => ?_
      exact Returns.bind (ih _ _) fun _ _ => Returns.pure _

theorem syntaxPass_returns (harity : ∀ u, Returns (ctx.unpackArity u)) {bytecode : List UInt8}
    (hslice : func.bytecode.slice ctx.code = some bytecode) : Returns (syntaxPass ctx func) := by
  unfold syntaxPass
  simp only [fail_bind, returns_ite_fail, hslice, unwrap, ok_bind]
  intro _
  refine Returns.bind (syntaxLoop_returns harity _ _ _) fun info _ => ?_
  split <;> simp

/-- The second pass finds a displacement for every branch that the first one has checked. -/
theorem markTargets_returns {l : List InstOffsets}
    (h : ∀ i ∈ l, i.inst.branchTarget.isSome → i.target.isSome) :
    ∀ offsets : List OffsetInfo, Returns (markTargets (l.map .ok) offsets) := by
  induction l with
  | nil => exact fun _ => Returns.ok _
  | cons i l ih =>
    intro offsets
    have hrest := ih fun j hj => h j (by simp [hj])
    simp only [List.map_cons, markTargets]
    split
    · exact hrest offsets
    · rename_i target htarget
      have hsome := h i (by simp) (by simp [htarget])
      simp only [InstOffsets.target, htarget, Option.bind_some] at hsome
      obtain ⟨t, ht⟩ := Option.isSome_iff_exists.mp hsome
      rw [ht]
      simp only [unwrap, ok_bind, returns_okOr_bind]
      exact fun offsets' _ => hrest offsets'

/-! ## The data flow -/

/-- Every local that an instruction of the list uses has an entry. -/
def LocalsFit (seg : List InstOffsets) (locals : List LocalState) : Prop :=
  ∀ i ∈ seg, ∀ n, i.inst = .loadLocal n ∨ i.inst = .storeLocal n → n < locals.length

/-- The loop over the instructions of a block does not panic. -/
theorem walk_returns {seg : List InstOffsets} :
    ∀ {w : Walk}, (∀ i ∈ seg, SyntaxOk ctx func i) → KeepsUpvars func w.state →
      LocalsFit seg w.state.locals →
      w.state.operands + (seg.map fun i => pushes ctx i.inst).sum ≤ usizeMax →
      Returns (walk ctx func (seg.map .ok) w) := by
  induction seg with
  | nil => exact fun _ _ _ _ => Returns.ok _
  | cons i seg ih =>
    intro w hok hkeeps hfit hroom
    simp only [List.map_cons, List.sum_cons] at hroom
    have hsafe : StepSafe ctx func i.inst w.state := by
      refine ⟨by omega, ?_⟩
      have hi := hok i (by simp)
      have hlocal := hfit i (by simp)
      have hlen := hkeeps.length_le
      unfold SyntaxOk at hi
      cases hinst : i.inst <;> simp only [hinst] at hi hlocal ⊢
      case loadLocal n => exact hlocal n (.inl rfl)
      case storeLocal n => exact hlocal n (.inr rfl)
      case reify => exact ⟨hi, hlen⟩
      case methodCall | builtin => exact hi.2
      case call => exact hi
      case unpack => exact hi
    refine Returns.bind (Returns.mapErr _ (step_returns hsafe)) fun s hs => ?_
    rw [mapErr_eq_ok, step_eq_ok] at hs
    obtain ⟨-, hready, -, rfl⟩ := hs
    refine ih (fun j hj => hok j (by simp [hj])) (hkeeps.step hready) ?_ ?_
    · intro j hj n hn
      simp only [stateAfter, localsAfter_length]
      exact hfit j (by simp [hj]) n hn
    · have hle := stateAfter_operands_le ctx i w.state
      simp only
      omega

/-- An edge has room for what it pushes. -/
theorem edge_returns {i : InstOffsets} {taken : Bool} {s : BlockState}
    (hok : SyntaxOk ctx func i)
    (hroom : s.operands + growth ctx i ≤ usizeMax + pushes ctx i.inst) :
    Returns (edge ctx i taken s) := by
  have hready : EdgeReady ctx i.inst taken s.operands := by
    unfold EdgeReady
    unfold growth at hroom
    unfold SyntaxOk at hok
    split
    · rename_i u _ hinst
      simp only [hinst] at hok hroom
      obtain ⟨n, hn⟩ := hok
      rw [unpackLen_eq hn] at hroom
      exact ⟨n, hn, fun _ => by omega⟩
    · trivial
  rw [edge_eq_ok.mpr ⟨hready, rfl⟩]
  exact Returns.ok _

theorem edgeTo_returns {w : Walk} {taken : Bool} {next : Option Nat}
    (hok : SyntaxOk ctx func w.last)
    (hroom : w.state.operands + growth ctx w.last ≤ usizeMax + pushes ctx w.last.inst) :
    Returns (edgeTo ctx w taken next) := by
  cases next with
  | none => exact Returns.pure _
  | some sid => exact Returns.bind (edge_returns hok hroom) fun _ _ => Returns.pure _

theorem successors_returns {starts : List Nat} {bb : Nat} {w : Walk}
    (hbranch : w.last.inst.branchTarget.isSome → (branchId starts w.last).isSome)
    (hok : SyntaxOk ctx func w.last)
    (hroom : w.state.operands + growth ctx w.last ≤ usizeMax + pushes ctx w.last.inst) :
    Returns (successors ctx starts bb w) := by
  unfold successors
  rw [branchBlock_eq hbranch, ok_bind]
  refine Returns.bind (edgeTo_returns hok hroom) fun _ _ => ?_
  exact Returns.bind (edgeTo_returns hok hroom) fun _ _ => Returns.pure _

theorem merge_returns (e t : BlockState) : Returns (e.merge t) := by
  unfold BlockState.merge
  by_cases hmax : t.operands = usizeMax
  · rw [if_pos hmax]
    exact Returns.ok _
  · simp only [if_neg hmax, returns_ite_fail]
    intro _ _
    split
    · exact Returns.fail _
    · exact Returns.ok _

/-- The loop over the successors does not panic while checking when they are blocks. -/
theorem mergeEdges_returns {succs : List (Nat × BlockState)} :
    ∀ {blocks : List Block}, (∀ p ∈ succs, p.1 < blocks.length) →
      Returns (mergeEdges true succs blocks) := by
  induction succs with
  | nil => exact fun _ => Returns.ok _
  | cons p succs ih =>
    obtain ⟨sid, e⟩ := p
    intro blocks h
    have hlt : sid < blocks.length := h (sid, e) (by simp)
    have hcheck : Returns (checkEdge sid e blocks) := by
      unfold checkEdge
      rw [returns_unwrap_bind]
      refine ⟨_, List.getElem?_eq_getElem hlt, ?_⟩
      refine Returns.bind (Returns.mapErr _ (merge_returns _ _)) fun claimed _ => ?_
      simp only [fail_bind, returns_ite_fail, Returns.pure, implies_true]
    rw [mergeEdges]
    simp only [if_true]
    refine Returns.bind hcheck fun r hr => ?_
    obtain ⟨blocks', pushed⟩ := r
    obtain ⟨b, hb, -, rfl, -⟩ := checkEdge_eq_ok.mp hr
    refine Returns.bind (ih ?_) fun _ _ => Returns.pure _
    intro q hq
    simp only [List.length_set]
    exact h q (by simp [hq])

variable {bytecode : List UInt8} {l : List InstOffsets}

/-- The successors of a block are blocks. -/
theorem succ_lt {bb : Nat} {seg : List InstOffsets}
    (hseg : (segs l)[bb]? = some seg) {p : Nat × Bool}
    (hp : p ∈ succIds (starts l) bb (lastOf seg)) : p.1 < (segs l).length := by
  have hlt := (List.getElem?_eq_some_iff.mp hseg).1
  rw [succIds, List.mem_append] at hp
  rcases hp with hp | hp
  · obtain ⟨sid, hsid, rfl⟩ := List.mem_map.mp hp
    rw [Option.mem_toList, nextBlock] at hsid
    split_ifs at hsid with hstops hne
    cases hsid
    rw [starts_length] at hne
    simp only
    omega
  · obtain ⟨sid, hsid, rfl⟩ := List.mem_map.mp hp
    rw [Option.mem_toList, branchId] at hsid
    obtain ⟨t, -, hidx⟩ := Option.bind_eq_some_iff.mp hsid
    rw [← starts_length]
    exact (List.idxOf?_eq_some_iff.mp hidx).1

/-- Running a block does not panic. -/
theorem flowBlock_returns (hdec : Decoded ctx func bytecode l) {bb depth : Nat}
    {seg : List InstOffsets} {s : BlockState} (hseg : (segs l)[bb]? = some seg)
    (hkeeps : KeepsUpvars func s) (hfit : LocalsFit seg s.locals)
    (hroom : s.operands + growthSum ctx seg ≤ usizeMax) :
    Returns (flowBlock ctx func bytecode (starts l) bb s depth) := by
  obtain ⟨start, hstart, hitems⟩ := blockInsts_eq hdec hseg
  have hmem := List.mem_of_getElem? hseg
  have hne := segs_ne_nil hmem
  have hok : ∀ i ∈ seg, SyntaxOk ctx func i := fun i hi => hdec.checked i (mem_of_mem_segs hmem hi)
  have hlast := lastOf_mem hne
  have hpushes := pushes_le_growth ctx seg
  unfold flowBlock
  rw [hstart]
  simp only [unwrap, ok_bind, hitems]
  refine Returns.bind (walk_returns hok hkeeps hfit (by simp only; omega)) fun w hw => ?_
  obtain ⟨-, rfl⟩ := walk_eq_ok.mp hw
  have hle := runState_operands_le_growth ctx hne s
  refine Returns.bind ?_ fun succs _ => Returns.pure _
  exact successors_returns (hdec.branchId_isSome (mem_of_mem_segs hmem hlast)) (hok _ hlast)
    (hle.trans (Nat.add_le_add_right hroom _))

/-- The marked blocks keep the upvar records of the function. -/
def CheckKeeps (func : Func) (blocks : List Block) : Prop :=
  ∀ (i : Nat) (b : Block), blocks[i]? = some b → b.mark = true → KeepsUpvars func b.state

theorem KeepsUpvars.runState {seg : List InstOffsets} {s : BlockState} (h : KeepsUpvars func s)
    (hsteps : Steps ctx func seg s) : KeepsUpvars func (runState ctx seg s) := by
  induction seg generalizing s with
  | nil => exact h
  | cons i seg ih => exact ih (h.step (step_eq_ok.mp hsteps.1).2.1) hsteps.2

variable {claims : List BlockState} {arity : Nat}

/-- The loop body keeps the records. -/
theorem CheckKeeps.visit (hdec : Decoded ctx func bytecode l)
    (hlen : claims.length = (segs l).length) {bb : Nat} {flow flow' : Flow}
    {queue pushed : List Nat} (hinv : CheckInv ctx func l claims arity flow (bb :: queue))
    (h : CheckKeeps func flow.blocks)
    (hvisit : Bytecode.visit ctx func bytecode true bb flow = .ok (flow', pushed)) :
    CheckKeeps func flow'.blocks := by
  obtain ⟨b, seg, hb, hseg, hs, hruns, hmarks, -⟩ := hinv.visit_cases hdec hlen hvisit
  obtain ⟨b', hb', hmark⟩ := hinv.queued bb (by simp)
  rw [hb] at hb'
  cases hb'
  have hkeeps := (h bb b hb hmark).runState hruns.1
  intro i c' hc' hm'
  have hclaim := congrArg (·[i]?) hmarks.claims
  simp only [List.getElem?_map, hc', Option.map_some] at hclaim
  obtain ⟨c, hc, hcc⟩ := Option.map_eq_some_iff.mp hclaim.symm
  have hstate : c.state = c'.state := congrArg Prod.snd hcc
  rw [← hstate]
  rcases (hmarks.marked i).mp ⟨c', hc', hm'⟩ with ⟨d, hd, hm⟩ | hmem
  · rw [hc] at hd
    cases hd
    exact h i c hc hm
  · obtain ⟨p, hp, rfl⟩ := List.mem_map.mp hmem
    obtain ⟨t, ht, hmerge⟩ := hmarks.merges p hp
    rw [List.getElem?_map, hc] at ht
    cases ht
    obtain ⟨q, -, rfl⟩ := List.mem_map.mp hp
    exact (hkeeps.edge ctx _ q.2).of_sameCore (absorbs_of_merge hmerge).1

/-- Each block of the certificate has an entry for every local of the function that the block
uses. -/
def Certificate.Fits (ctx : Context) (func : Func) (cert : Certificate) : Prop :=
  ∀ bytecode l, func.bytecode.slice ctx.code = some bytecode → insts bytecode 0 = l.map .ok →
    ∀ (bb : Nat) (seg : List InstOffsets) (b : Nat × BlockState), (segs l)[bb + 1]? = some seg →
      cert.blocks[bb]? = some b → ∀ i ∈ seg, ∀ n < func.locals,
        i.inst = .loadLocal n ∨ i.inst = .storeLocal n → n < b.2.locals.length

/-- A certificate with an entry for each local in every block fits. -/
theorem Certificate.fits_of_length {cert : Certificate}
    (h : ∀ b ∈ cert.blocks, func.locals ≤ b.2.locals.length) : cert.Fits ctx func := by
  intro bytecode l _ _ bb seg b _ hb i _ n hn _
  exact lt_of_lt_of_le hn (h b (List.mem_of_getElem? hb))

/-- A visit does not panic. -/
theorem visit_returns {cert : Certificate} (hdec : Decoded ctx func bytecode l)
    (hlen : (cert.claims func arity).length = (segs l).length) (hfits : cert.Fits ctx func)
    (hroom : arity + 2 * growthSum ctx l ≤ usizeMax) {bb : Nat} {flow : Flow} {queue : List Nat}
    (hinv : CheckInv ctx func l (cert.claims func arity) arity flow (bb :: queue))
    (hgrowth : CheckGrowth ctx l arity flow) (hkeeps : CheckKeeps func flow.blocks) :
    Returns (visit ctx func bytecode true bb flow) := by
  obtain ⟨b, hb, hmark⟩ := hinv.queued bb (by simp)
  have hs := hinv.state_eq hlen hb
  obtain ⟨seg, hseg⟩ : ∃ seg, (segs l)[bb]? = some seg :=
    ⟨_, List.getElem?_eq_getElem (hlen ▸ (List.getElem?_eq_some_iff.mp hs).1)⟩
  have hmem := List.mem_of_getElem? hseg
  have hfit : LocalsFit seg b.state.locals := by
    intro i hi n hn
    have hlt : n < func.locals := by
      have hok := hdec.checked i (mem_of_mem_segs hmem hi)
      unfold SyntaxOk at hok
      rcases hn with hn | hn <;> simpa only [hn] using hok
    cases bb with
    | zero =>
      rw [← Option.some.inj hs, entryState, List.length_replicate]
      exact hlt
    | succ bb =>
      rw [Certificate.claims, List.getElem?_cons_succ, List.getElem?_map] at hs
      obtain ⟨c, hc, hcs⟩ := Option.map_eq_some_iff.mp hs
      rw [← hcs]
      exact hfits bytecode l hdec.slice (insts_eq_map_ok.mpr hdec.chain) bb seg c hseg hc i hi n hlt
        hn
  obtain ⟨⟨V, hV⟩, -⟩ := hgrowth
  have hoperands := hV.bound bb b.state (markedState_eq_some.mpr ⟨b, hb, hmark, rfl⟩)
  have hsum := sum_blockGrowth_le ctx l hV.subset
  have hseggrowth : growthSum ctx seg ≤ growthSum ctx l := by
    have hle := sum_blockGrowth_le ctx l (V := {bb}) (by
      simpa using (List.getElem?_eq_some_iff.mp hseg).1)
    simpa [blockGrowth, hseg] using hle
  unfold visit
  rw [returns_unwrap_bind]
  refine ⟨b, hb, ?_⟩
  simp only [hinv.starts_eq hlen, if_true]
  refine Returns.bind (flowBlock_returns hdec hseg (hkeeps bb b hb hmark) hfit (by omega))
    fun r hr => ?_
  obtain ⟨succs, depth⟩ := r
  obtain ⟨-, rfl, -⟩ := (flowBlock_eq_ok hdec hseg).mp hr
  refine Returns.bind (mergeEdges_returns ?_) fun _ _ => Returns.pure _
  intro p hp
  obtain ⟨q, hq, rfl⟩ := List.mem_map.mp hp
  have hblocks : flow.blocks.length = (segs l).length := by
    simpa using congrArg List.length (hinv.starts_eq hlen)
  rw [hblocks]
  exact succ_lt hseg hq

/-- What a function's verification relies on: the table of functions has been checked and the
depth is bounded. -/
structure FuncReady (ctx : Context) (func : Func) : Prop where
  slice : ∃ bytecode, func.bytecode.slice ctx.code = some bytecode ∧ bytecode ≠ []
  arity : ∀ u, Returns (ctx.unpackArity u)
  sig : ∃ arity, ctx.unpackArity func.sig = .ok (some arity)
  /-- Twice all pushes fit into a `usize`. -/
  room : ∀ bytecode l arity, func.bytecode.slice ctx.code = some bytecode →
    insts bytecode 0 = l.map .ok → ctx.unpackArity func.sig = .ok (some arity) →
    arity + 2 * growthSum ctx l ≤ usizeMax

/-- The instructions of a function whose first pass has succeeded. -/
theorem insts_of_syntaxPass {bytecode : List UInt8} {info : SyntaxInfo}
    (hslice : func.bytecode.slice ctx.code = some bytecode)
    (hpass : syntaxPass ctx func = .ok info) :
    ∃ l : List InstOffsets, insts bytecode 0 = l.map .ok ∧
      ∀ i ∈ l, i.inst.branchTarget.isSome → i.target.isSome := by
  unfold syntaxPass at hpass
  simp only [fail_bind, ite_fail_eq_ok, hslice, unwrap, ok_bind, bind_eq_ok] at hpass
  obtain ⟨-, info', hloop, -⟩ := hpass
  obtain ⟨l, hitems, hl, -⟩ := syntaxLoop_eq_ok hloop
  exact ⟨l, hitems, fun i hi => (hl i hi).2⟩

/-- The blocks that checking starts from, when the certificate has the offsets of the code. -/
theorem basicBlocks_returns {bytecode : List UInt8} {info : SyntaxInfo} (cert : Certificate)
    (hslice : func.bytecode.slice ctx.code = some bytecode) (hbytes : bytecode ≠ [])
    (hpass : syntaxPass ctx func = .ok info) :
    Returns (basicBlocks ctx func info.offsets (some cert)) ∧
      ∀ blocks, basicBlocks ctx func info.offsets (some cert) = .ok blocks →
        ∃ l, Decoded ctx func bytecode l ∧ l ≠ [] ∧
          (starts l).drop 1 = cert.blocks.map (·.1) ∧
          blocks = ⟨0, false, .neutral⟩ ::
            cert.blocks.map fun (offset, state) => ⟨offset, false, state⟩ := by
  obtain ⟨l', hitems, htargets⟩ := insts_of_syntaxPass hslice hpass
  have hmarks := markTargets_returns htargets info.offsets
  rw [← hitems] at hmarks
  have hpos : ∀ offsets, markTargets (insts bytecode 0) info.offsets = .ok offsets →
      ∃ l, Decoded ctx func bytecode l ∧ l ≠ [] ∧ leaders offsets = starts l ∧
        1 ≤ (leaders offsets).length := by
    intro offsets hmark
    obtain ⟨l, hdec, hleaders, -⟩ := decoded_of_passes hpass hslice hmark
    have hl : l ≠ [] := by
      rintro rfl
      exact hbytes (List.length_eq_zero_iff.mp (Nat.le_zero.mp hdec.chain))
    refine ⟨l, hdec, hl, hleaders, ?_⟩
    rw [hleaders]
    exact List.length_pos_of_ne_nil (starts_ne_nil hl)
  unfold basicBlocks
  simp only [hslice, unwrap, ok_bind]
  constructor
  · refine Returns.bind hmarks fun offsets hmark => ?_
    obtain ⟨l, -, -, -, hle⟩ := hpos offsets hmark
    simp only [checkedSub, if_pos hle, ok_bind, fail_bind, returns_ite_fail, Returns.pure,
      implies_true]
  · intro blocks hblocks
    simp only [bind_eq_ok, fail_bind, ite_fail_eq_ok, pure, Except.pure, Except.ok.injEq,
      not_or, ne_eq, not_not] at hblocks
    obtain ⟨offsets, hmark, count, -, ⟨-, hoffsets⟩, rfl⟩ := hblocks
    obtain ⟨l, hdec, hl, hleaders, -⟩ := hpos offsets hmark
    rw [hleaders] at hoffsets
    exact ⟨l, hdec, hl, hoffsets, rfl⟩

/-- Checking a function returns, when the certificate fits. -/
theorem check_returns {cert : Certificate} {fuel : Nat} (h : FuncReady ctx func)
    (hfits : cert.Fits ctx func) (hfuel : cert.blocks.length + 1 ≤ fuel) :
    Returns (FuncVerifier.check ctx func cert fuel) := by
  obtain ⟨bytecode, hslice, hbytes⟩ := h.slice
  obtain ⟨arity, harity⟩ := h.sig
  unfold FuncVerifier.check
  refine Returns.bind (syntaxPass_returns h.arity hslice) fun info hpass => ?_
  obtain ⟨hreturns, hblocks⟩ := basicBlocks_returns cert hslice hbytes hpass
  refine Returns.bind hreturns fun blocks hb => ?_
  obtain ⟨l, hdec, hl, hoffsets, rfl⟩ := hblocks blocks hb
  have hlen := claims_length func arity hl hoffsets
  have hroom := h.room bytecode l arity hslice (insts_eq_map_ok.mpr hdec.chain) harity
  refine Returns.bind ?_ fun flow _ => ?_
  · unfold dataflow
    simp only [hslice, unwrap, ok_bind, Context.arityUnwrap, Context.arity, harity, mapErr,
      List.head?_cons, List.set_cons_zero, if_true]
    refine Returns.bind (Worklist.run_returns
      (fun flow queue => CheckInv ctx func l (cert.claims func arity) arity flow queue ∧
        CheckGrowth ctx l arity flow ∧ CheckKeeps func flow.blocks)
      (fun flow => unmarked flow.blocks) ?_ ?_ ⟨checkInv_init hdec.chain hl hoffsets
        ⟨0, true, entryState func arity⟩ rfl, checkGrowth_init, ?_⟩ ?_) fun flow _ => ?_
    · rintro bb flow queue ⟨hinv, hgrowth, hkeeps⟩
      exact visit_returns hdec hlen hfits hroom hinv hgrowth hkeeps
    · rintro bb flow queue flow' pushed ⟨hinv, hgrowth, hkeeps⟩ hvisit
      obtain ⟨hinv', hcount⟩ := hinv.visit hdec hlen hvisit
      exact ⟨⟨hinv', hgrowth.visit hdec hlen hinv hvisit, hkeeps.visit hdec hlen hinv hvisit⟩,
        hcount.le⟩
    · intro i b hb hmark
      cases i with
      | zero =>
        cases hb
        exact List.prefix_refl _
      | succ i =>
        simp only [List.getElem?_cons_succ, List.getElem?_map, Option.map_eq_some_iff] at hb
        obtain ⟨q, -, rfl⟩ := hb
        cases hmark
    · refine le_trans (Nat.add_le_add_right ?_ 1) hfuel
      rw [unmarked, List.countP_cons_of_neg (by simp)]
      exact List.countP_le_length.trans (by simp)
    · split <;> simp
  · simp only [fail_bind, returns_ite_fail, Returns.pure, implies_true]

end

end Dolang.Bytecode
