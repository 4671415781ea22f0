import Dolang.Bytecode.Compute
import Dolang.Bytecode.Paths

/-!
# Checking and computing agree

A certificate that `FuncVerifier.check` accepts exists exactly when `FuncVerifier.compute` succeeds
with every block reached, and the computed certificate is the best one: it is accepted, and every
accepted certificate has its depths and upvars and claims no more locals. The certificates are
those whose claims about locals have been looked at by merging (`Certificate.Covers`), and the
operand depth stays below the mark of the neutral state (`DepthBound`).

`uncovered_accepted` is a certificate that is accepted although nothing can be computed. Its second
block has no entry for the function's local, so that the third block's claim to know it is compared
with nothing.
-/

namespace Dolang.Bytecode

open Dolang.Rust

/-! ## Statements -/

/-- `compute` returns the certificate. -/
def Computed (ctx : Context) (func : Func) (cert : Certificate) : Prop :=
  ∃ fuel uses, FuncVerifier.compute ctx func fuel = .ok (cert, uses)

/-- No block has been left in the neutral state. -/
def Certificate.AllReached (cert : Certificate) : Prop := ∀ b ∈ cert.blocks, b.2 ≠ .neutral

/-- A claimed certificate has the depths, offsets and upvars of a computed one, and claims no more
locals. -/
structure Certificate.Agrees (func : Func) (computed claimed : Certificate) : Prop where
  depth : claimed.maxOperandDepth = computed.maxOperandDepth
  offsets : claimed.blocks.map (·.1) = computed.blocks.map (·.1)
  states : List.Forall₂ (fun c s => c.2.operands = s.2.operands ∧ c.2.upvars = s.2.upvars ∧
    ∀ i < func.locals, c.2.locals[i]? = some .value → s.2.locals[i]? = some .value)
    claimed.blocks computed.blocks

/-! ## What is computed is accepted -/

/-- The first block is given its state and its mark. -/
theorem set_first {blocks : List Block} {first : Block} (s : BlockState)
    (hfirst : blocks.head? = some first) :
    blocks.set 0 { first with state := s, mark := true } =
      blocks.modifyHead fun b => { b with state := s, mark := true } := by
  cases blocks with
  | nil => cases hfirst
  | cons b blocks => cases hfirst; rfl

/-- What `compute` runs. -/
theorem compute_passes {ctx : Context} {func : Func} {cert : Certificate} {fuel : Nat}
    {uses : List Nat} :
    FuncVerifier.compute ctx func fuel = .ok (cert, uses) ↔
      ∃ info bytecode offsets arity flow, syntaxPass ctx func = .ok info ∧
        func.bytecode.slice ctx.code = some bytecode ∧
        markTargets (insts bytecode 0) info.offsets = .ok offsets ∧
        ctx.unpackArity func.sig = .ok (some arity) ∧ leaders offsets ≠ [] ∧
        Worklist.run (visit ctx func bytecode false) fuel
          ⟨((leaders offsets).map fun offset => (⟨offset, false, .neutral⟩ : Block)).modifyHead
            (fun b => { b with state := entryState func arity, mark := true }), arity⟩ [0] =
          .ok flow ∧
        uses = info.uses ∧
        cert = ⟨flow.maxOperandDepth, (flow.blocks.drop 1).map fun b => (b.offset, b.state)⟩ := by
  unfold FuncVerifier.compute basicBlocks dataflow
  simp only [bind_eq_ok, unwrap_eq_ok, arityUnwrap_eq_ok, pure, Except.pure, Except.ok.injEq,
    Bool.false_eq_true, if_false, Prod.mk.injEq]
  constructor
  · rintro ⟨info, hpass, blocks, ⟨bytecode, hslice, offsets, hmark, rfl⟩, flow,
      ⟨bytecode', hslice', arity, harity, first, hfirst, flow', hrun, rfl⟩, rfl, rfl⟩
    rw [hslice] at hslice'
    cases hslice'
    rw [set_first _ hfirst] at hrun
    refine ⟨info, bytecode, offsets, arity, flow', hpass, hslice, hmark, harity, ?_, hrun, rfl,
      rfl⟩
    rintro hnil
    rw [hnil] at hfirst
    cases hfirst
  · rintro ⟨info, bytecode, offsets, arity, flow, hpass, hslice, hmark, harity, hne, hrun, rfl,
      rfl⟩
    obtain ⟨o, os, ho⟩ := List.exists_cons_of_ne_nil hne
    refine ⟨info, hpass, _, ⟨bytecode, hslice, offsets, hmark, rfl⟩, flow,
      ⟨bytecode, hslice, arity, harity, ⟨o, false, .neutral⟩, ?_, flow, ?_, rfl⟩, rfl, rfl⟩
    · rw [ho]
      rfl
    · rw [set_first _ (by rw [ho]; rfl)]
      exact hrun

section

variable {ctx : Context} {func : Func} {bytecode : List UInt8} {l : List InstOffsets}
  {arity : Nat}

/-- The certificate that a finished run describes. -/
def flowCert (flow : Flow) : Certificate :=
  ⟨flow.maxOperandDepth, (flow.blocks.drop 1).map fun b => (b.offset, b.state)⟩

/-- The claims of a computed certificate are the states of the blocks. -/
theorem flowCert_claims {flow : Flow} {queue : List Nat}
    (h : ComputeInv ctx func l arity flow queue) :
    (flowCert flow).claims func arity = flow.blocks.map (·.state) := by
  obtain ⟨b, hb, hstate, -⟩ := h.entry
  cases hblocks : flow.blocks with
  | nil => rw [hblocks] at hb; cases hb
  | cons c cs =>
    rw [hblocks] at hb
    cases hb
    simp [Certificate.claims, flowCert, hblocks, hstate, Function.comp_def]

/-- When the loop has ended with a state for every block, the states are a fixed point. -/
theorem flowCert_accepts {flow : Flow} (h : ComputeInv ctx func l arity flow [])
    (hall : ∀ (i : Nat) (b : Block), flow.blocks[i]? = some b → IsState func b.state) :
    Accepts ctx func l arity (flowCert flow) := by
  have hclaims := flowCert_claims h
  have hlen : flow.blocks.length = (segs l).length := by
    simpa using congrArg List.length h.offsets
  have hget : ∀ {i : Nat} {s : BlockState}, ((flowCert flow).claims func arity)[i]? = some s →
      ∃ b, flow.blocks[i]? = some b ∧ IsState func b.state ∧ b.state = s := by
    intro i s hs
    rw [hclaims, List.getElem?_map] at hs
    obtain ⟨b, hb, rfl⟩ := Option.map_eq_some_iff.mp hs
    exact ⟨b, hb, hall i b hb, rfl⟩
  refine ⟨?_, ⟨?_, ?_, ?_⟩, ?_, ⟨h.arity_le, ?_, ?_⟩⟩
  · rw [← h.offsets, ← List.map_drop]
    simp [flowCert, Function.comp_def]
  · rw [hclaims, List.length_map, hlen]
  · intro bb seg s hseg hs
    obtain ⟨b, hb, hstate, rfl⟩ := hget hs
    exact (h.done hseg hb hstate (by simp)).1
  · intro bb seg s hseg hs p hp
    obtain ⟨b, hb, hstate, rfl⟩ := hget hs
    obtain ⟨t, ht, -, habs⟩ := (h.done hseg hb hstate (by simp)).2.1 p hp
    refine ⟨t.state, ?_, habs⟩
    rw [hclaims, List.getElem?_map, ht]
    rfl
  · intro bb hbb
    have hlt : bb < flow.blocks.length := by omega
    have hb := List.getElem?_eq_getElem hlt
    exact h.reach bb _ hb (hall bb _ hb)
  · intro bb seg s hseg hs
    obtain ⟨b, hb, hstate, rfl⟩ := hget hs
    exact (h.done hseg hb hstate (by simp)).2.2
  · rcases h.attained with heq | ⟨bb, seg, b, hseg, hb, -, heq⟩
    · exact .inl heq
    · refine .inr ⟨bb, seg, b.state, hseg, ?_, heq⟩
      rw [hclaims, List.getElem?_map, hb]
      rfl

/-- A computed certificate has one entry for each local in every block, so it covers its claims. -/
theorem flowCert_covered {flow : Flow} (h : ComputeInv ctx func l arity flow [])
    (hall : ∀ (i : Nat) (b : Block), flow.blocks[i]? = some b → IsState func b.state) :
    Covered func l ((flowCert flow).claims func arity) := by
  intro bb seg s p t _ hs _ _ i hi _
  rw [flowCert_claims h, List.getElem?_map] at hs
  obtain ⟨b, hb, rfl⟩ := Option.map_eq_some_iff.mp hs
  rw [(hall bb b hb).length]
  exact hi

/-- The run of `compute` keeps the invariant, where the depth stays bounded. -/
theorem compute_run_inv (hdec : Decoded ctx func bytecode l) (hl : l ≠ [])
    (hbound : arity + growthSum ctx l < usizeMax) {fuel : Nat} {flow : Flow}
    (hrun : Worklist.run (visit ctx func bytecode false) fuel ⟨initBlocks func l arity, arity⟩ [0] =
      .ok flow) :
    ComputeInv ctx func l arity flow [] ∧ ComputeGrowth ctx l arity flow := by
  refine Worklist.run_invariant
    (fun flow queue => ComputeInv ctx func l arity flow queue ∧ ComputeGrowth ctx l arity flow)
    ?_ ⟨computeInv_init hl (by omega), computeGrowth_init⟩ hrun
  rintro bb flow queue flow' pushed ⟨hinv, hgrowth⟩ hvisit
  obtain ⟨b, seg, hv⟩ := hinv.visited hdec (fun hb hseg p hp =>
    lt_of_le_of_lt (hgrowth.edge_le hinv hb hseg p hp) hbound) hvisit
  exact ⟨(hinv.visit hv).1, hgrowth.visit hinv hv⟩

end

/-- A computed certificate whose blocks have all been reached is accepted, and covers its claims. -/
theorem computed_accepted {ctx : Context} {func : Func} {cert : Certificate}
    (hdepth : DepthBound ctx func) (h : Computed ctx func cert) (hall : cert.AllReached) :
    Accepted ctx func cert ∧ cert.Covers ctx func := by
  obtain ⟨fuel, uses, hcompute⟩ := h
  obtain ⟨info, bytecode, offsets, arity, flow, hpass, hslice, hmark, harity, hne, hrun, rfl,
    rfl⟩ := compute_passes.mp hcompute
  obtain ⟨l, hdec, hleaders, -⟩ := decoded_of_passes hpass hslice hmark
  rw [hleaders] at hne hrun
  have hl : l ≠ [] := by
    rintro rfl
    exact hne rfl
  have hbound := hdepth bytecode l arity hslice (insts_eq_map_ok.mpr hdec.chain) harity
  obtain ⟨hinv, V, hgrowth⟩ := compute_run_inv hdec hl hbound hrun
  have hstates : ∀ (i : Nat) (b : Block), flow.blocks[i]? = some b → IsState func b.state := by
    intro i b hb
    cases i with
    | zero =>
      obtain ⟨b', hb', -, hstate⟩ := hinv.entry
      rw [hb] at hb'
      cases hb'
      exact hstate
    | succ i =>
      refine (hinv.ok _ b hb).resolve_left (hall (b.offset, b.state) ?_)
      refine List.mem_map.mpr ⟨b, ?_, rfl⟩
      exact List.mem_of_getElem? (i := i) (by rw [List.getElem?_drop, Nat.add_comm]; exact hb)
  have hacc := flowCert_accepts hinv hstates
  have hmax : flow.maxOperandDepth < usizeMax := by
    rcases hinv.attained with heq | ⟨bb, seg, b, hseg, hb, hstate, heq⟩
    · omega
    · have hle := hgrowth.blockDepth_le hseg
        ((setState_eq_some hinv.ok).mpr ⟨b, hb, hstate, rfl⟩)
      omega
  refine ⟨⟨_, info.uses, check_complete hpass hslice hmark hdec hleaders hl harity hacc hmax
    (le_refl _)⟩, ?_⟩
  intro bytecode' l' arity' hslice' hinsts' harity'
  rw [hslice] at hslice'
  cases hslice'
  rw [insts_eq_map_ok.mpr hdec.chain] at hinsts'
  rw [harity] at harity'
  cases harity'
  obtain rfl : l = l' := List.map_injective_iff.mpr (fun a b h => by cases h; rfl) hinsts'
  exact flowCert_covered hinv hstates

/-! ## What is accepted can be computed -/

/-- The claimed states stay below the computed ones. -/
def CertInv (func : Func) (claims : List BlockState) (blocks : List Block) : Prop :=
  ∀ {i : Nat} {b : Block} {c : BlockState}, blocks[i]? = some b → claims[i]? = some c →
    IsState func b.state → Below func.locals c b.state

/-- The claimed states have the operands and upvars of the computed ones. -/
def CertCore (func : Func) (claims : List BlockState) (blocks : List Block) : Prop :=
  claims.length = blocks.length ∧ ∀ {i : Nat} {b : Block} {c : BlockState}, blocks[i]? = some b →
    claims[i]? = some c → IsState func b.state → SameCore c b.state

/-- The loop over the successors goes through when every edge has the operands and upvars of the
claimed state. -/
theorem mergeEdges_compute_ok {func : Func} {claims : List BlockState}
    {succs : List (Nat × BlockState)} :
    ∀ {blocks : List Block}, (∀ p ∈ succs, IsState func p.2) → StatesOk func blocks →
      CertCore func claims blocks →
      (∀ p ∈ succs, ∃ c, claims[p.1]? = some c ∧ SameCore p.2 c) →
      ∃ blocks' pushed, mergeEdges false succs blocks = .ok (blocks', pushed) := by
  induction succs with
  | nil => exact fun _ _ _ _ => ⟨_, _, rfl⟩
  | cons p succs ih =>
    obtain ⟨sid, e⟩ := p
    intro blocks he hok hcore hclaims
    obtain ⟨c, hc, hec⟩ := hclaims (sid, e) (by simp)
    have hlt : sid < blocks.length := hcore.1 ▸ (List.getElem?_eq_some_iff.mp hc).1
    obtain ⟨b, hb⟩ : ∃ b, blocks[sid]? = some b := ⟨_, List.getElem?_eq_getElem hlt⟩
    have hmerge : ∃ r, e.merge b.state = .ok r := by
      rcases hok sid b hb with hneutral | hstate
      · rw [hneutral]
        exact ⟨e, rfl⟩
      · exact ⟨_, (merge_eq_ok (Nat.ne_of_lt hstate.operands_lt)).mpr
          ⟨hec.trans (hcore.2 hb hc hstate), rfl⟩⟩
    obtain ⟨r, hr⟩ := hmerge
    obtain ⟨mid, pushed, hfirst⟩ : ∃ mid pushed, mergeEdge sid e blocks = .ok (mid, pushed) :=
      ⟨_, _, mergeEdge_eq_ok.mpr ⟨b, r, hb, hr, rfl, rfl⟩⟩
    have hm := mergeEdge_merged (he (sid, e) (by simp)) hok hfirst
    have hlen : mid.length = blocks.length := by simpa using congrArg List.length hm.offsets
    have hcore' : CertCore func claims mid := by
      refine ⟨hcore.1.trans hlen.symm, ?_⟩
      intro i m c' hmi hc' hstate
      have hilt : i < blocks.length := hlen ▸ (List.getElem?_eq_some_iff.mp hmi).1
      have hbi := List.getElem?_eq_getElem hilt
      by_cases hsame : m.state = blocks[i].state
      · rw [hsame] at hstate ⊢
        exact hcore.2 hbi hc' hstate
      · have hi : i = sid := by simpa using (hm.changed i _ m hbi hmi hsame).1
        subst hi
        obtain ⟨m', hm', -, habs⟩ := hm.absorbs (i, e) (by simp)
        rw [hmi] at hm'
        rw [hc] at hc'
        cases hm'
        cases hc'
        exact hec.symm.trans habs.1
    obtain ⟨blocks', pushed', hrest⟩ := ih (fun p hp => he p (by simp [hp])) hm.ok hcore'
      (fun p hp => hclaims p (by simp [hp]))
    refine ⟨blocks', pushed' ++ pushed, ?_⟩
    rw [mergeEdges]
    simp only [Bool.false_eq_true, if_false, hfirst, ok_bind, hrest]
    rfl

section

variable {ctx : Context} {func : Func} {bytecode : List UInt8} {l : List InstOffsets}
  {arity : Nat} {claims : List BlockState}

/-- A block that runs from its claimed state, and whose edges the claimed states absorb. What they
claim to know has an entry in the block's list of locals. -/
structure FixedAt (ctx : Context) (func : Func) (l : List InstOffsets) (claims : List BlockState)
    (bb : Nat) (seg : List InstOffsets) (c : BlockState) : Prop where
  runs : BlockRuns ctx func (starts l) bb seg c
  absorbs : ∀ p ∈ blockEdges ctx (starts l) bb seg c, ∃ t, claims[p.1]? = some t ∧ Absorbs t p.2
  covered : ∀ p ∈ succIds (starts l) bb (lastOf seg), ∀ t, claims[p.1]? = some t →
    ∀ i < func.locals, t.locals[i]? = some .value → i < c.locals.length

/-- Every block of a fixed point is fixed. -/
theorem FixedPoint.fixedAt (hfixed : FixedPoint ctx func l claims) (hcov : Covered func l claims)
    {bb : Nat} {seg : List InstOffsets} {c : BlockState} (hseg : (segs l)[bb]? = some seg)
    (hc : claims[bb]? = some c) : FixedAt ctx func l claims bb seg c :=
  ⟨hfixed.runs hseg hc, hfixed.absorbs hseg hc, fun _ hp _ ht => hcov hseg hc hp ht⟩

/-- The edges of a block from a claimed state and from the computed one. -/
theorem edges_below (hdec : Decoded ctx func bytecode l) {bb : Nat} {seg : List InstOffsets}
    {c s : BlockState} (hfixed : FixedAt ctx func l claims bb seg c)
    (hseg : (segs l)[bb]? = some seg) (hs : IsState func s) (hbelow : Below func.locals c s) :
    BlockRuns ctx func (starts l) bb seg s ∧
      ∀ p ∈ blockEdges ctx (starts l) bb seg s, ∃ q ∈ succIds (starts l) bb (lastOf seg), ∃ e t,
        q.1 = p.1 ∧ claims[p.1]? = some t ∧ Absorbs t e ∧ Below func.locals e p.2 ∧
        e.locals.length = c.locals.length := by
  have hmem := List.mem_of_getElem? hseg
  have hok : ∀ i ∈ seg, SyntaxOk ctx func i := fun i hi => hdec.checked i (mem_of_mem_segs hmem hi)
  have hruns := hfixed.runs
  refine ⟨hbelow.blockRuns hs.length hok hruns, ?_⟩
  intro p hp
  obtain ⟨q, hq, rfl⟩ := List.mem_map.mp hp
  obtain ⟨t, ht, habs⟩ := hfixed.absorbs (q.1, _) (List.mem_map.mpr ⟨q, hq, rfl⟩)
  have hrun := (hbelow.steps hs.length hok hruns.1).2
  refine ⟨q, hq, _, t, rfl, ht, habs, hrun.edgeAfter _ q.2, ?_⟩
  rw [edgeAfter_locals, runState_length]

/-- Against a certificate a visit succeeds, and keeps the claimed states below the computed ones. -/
theorem CertInv.visit (hdec : Decoded ctx func bytecode l)
    (hclen : claims.length = (segs l).length) {bb : Nat} {flow : Flow} {queue : List Nat}
    (hinv : ComputeInv ctx func l arity flow (bb :: queue)) (h : CertInv func claims flow.blocks)
    (hat : ∀ {s seg c}, IsState func s → (segs l)[bb]? = some seg → claims[bb]? = some c →
      Below func.locals c s → FixedAt ctx func l claims bb seg c)
    (hlt : ∀ {b seg}, flow.blocks[bb]? = some b → (segs l)[bb]? = some seg →
      ∀ p ∈ blockEdges ctx (starts l) bb seg b.state, p.2.operands < usizeMax) :
    ∃ flow' pushed b seg, Bytecode.visit ctx func bytecode false bb flow = .ok (flow', pushed) ∧
      Visited ctx func l bb flow flow' pushed b seg ∧ CertInv func claims flow'.blocks := by
  obtain ⟨b, seg, hb, hstate, hseg⟩ := hinv.queued_block
  have hblocks : flow.blocks.length = (segs l).length := by
    simpa using congrArg List.length hinv.offsets
  obtain ⟨c, hc⟩ : ∃ c, claims[bb]? = some c :=
    ⟨_, List.getElem?_eq_getElem (hclen ▸ (List.getElem?_eq_some_iff.mp hseg).1)⟩
  have hfixed := hat hstate hseg hc (h hb hc hstate)
  obtain ⟨hruns, hedges⟩ := edges_below hdec hfixed hseg hstate (h hb hc hstate)
  have hflow : flowBlock ctx func bytecode (starts l) bb b.state flow.maxOperandDepth =
      .ok (_, _) := (flowBlock_eq_ok hdec hseg).mpr ⟨hruns, rfl, rfl⟩
  have hcore : CertCore func claims (flow.blocks.set bb { b with mark := false }) := by
    refine ⟨by rw [List.length_set]; omega, ?_⟩
    intro i m c' hm hc' hms
    obtain ⟨m', hm', hmm, -⟩ := getElem?_clear hb hm
    rw [← hmm] at hms ⊢
    exact (h hm' hc' hms).1
  obtain ⟨blocks, pushed, hmerge⟩ := mergeEdges_compute_ok
    (edges_isState hstate (hlt hb hseg)) (statesOk_clear hb hinv.ok) hcore (by
      intro p hp
      obtain ⟨q, -, e, t, -, ht, habs, hbelow, -⟩ := hedges p hp
      exact ⟨t, ht, hbelow.1.symm.trans habs.1⟩)
  have hvisit : Bytecode.visit ctx func bytecode false bb flow = .ok (⟨blocks, _⟩, pushed) :=
    visit_compute_eq_ok.mpr ⟨b, _, _, blocks, hb, by rw [hinv.offsets]; exact hflow, hmerge, rfl⟩
  obtain ⟨b', seg', hv⟩ := hinv.visited hdec hlt hvisit
  have hbb : b = b' := Option.some.inj (hb.symm.trans hv.block)
  have hss : seg = seg' := Option.some.inj (hseg.symm.trans hv.segment)
  subst hbb hss
  refine ⟨_, pushed, b, seg, hvisit, hv, ?_⟩
  intro i m' c' hm' hc' hms'
  obtain ⟨m, hm, hchanged⟩ := hv.before hm'
  obtain ⟨m0, hm0, hm0s⟩ := clear_getElem? hb hm
  have hmcore : SameCore c' m'.state := by
    by_cases hsame : m'.state = m.state
    · rw [hsame] at hms' ⊢
      exact (h hm hc' hms').1
    · obtain ⟨p, hp, rfl⟩ := List.mem_map.mp (hchanged hsame).1
      obtain ⟨m'', hm'', -, habs'⟩ := hv.merged.absorbs p hp
      obtain ⟨q, -, e, t, -, ht, habs, hbelow, -⟩ := hedges p hp
      rw [hm'] at hm''
      rw [hc'] at ht
      cases hm''
      cases ht
      exact (habs.1.symm.trans hbelow.1).trans habs'.1
  refine ⟨hmcore, fun j hj hval => ?_⟩
  -- A claimed local is known to the block before the visit and to every edge that is merged.
  refine (hv.merged.local_keeps i m0 m' j hm0 hm' ?_ ?_).resolve_left hms'.ne_neutral
  · rw [hm0s]
    rcases hinv.ok i m hm with hneutral | hms
    · exact .inl hneutral
    · exact .inr ((h hm hc' hms).2 j hj hval)
  · rintro p hp rfl
    obtain ⟨q, hq, e, t, hqp, ht, habs, hbelow, hlen⟩ := hedges p hp
    rw [hc'] at ht
    cases ht
    have hjlt : j < e.locals.length := by
      rw [hlen]
      exact hfixed.covered q hq _ (by rw [hqp]; exact hc') j hj hval
    refine hbelow.2 j hj ?_
    have hne := habs.2 j hval
    rw [List.getElem?_eq_getElem hjlt] at hne ⊢
    cases he : e.locals[j] with
    | value => rfl
    | invalid => rw [he] at hne; exact absurd rfl hne

end

/-- The number of visits that suffice to compute a certificate. -/
def computeFuel (func : Func) (blocks : Nat) : Nat := blocks * (func.locals + 1) + 1

theorem potentialSum_init (func : Func) (l : List InstOffsets) (arity : Nat)
    (harity : arity < usizeMax) :
    potentialSum func (initBlocks func l arity) ≤ (segs l).length * (func.locals + 1) := by
  have hle : ∀ blocks : List Block, (∀ b ∈ blocks, potential func b.state ≤ func.locals + 1) →
      potentialSum func blocks ≤ blocks.length * (func.locals + 1) := by
    intro blocks hb
    induction blocks with
    | nil => simp [potentialSum]
    | cons b blocks ih =>
      have h1 := hb b (by simp)
      have h2 := ih fun c hc => hb c (by simp [hc])
      simp only [potentialSum, List.map_cons, List.sum_cons, List.length_cons] at h2 ⊢
      rw [Nat.add_mul]
      omega
  have hlen : (initBlocks func l arity).length = (segs l).length := by
    simp [initBlocks]
  rw [← hlen]
  refine hle _ fun b hb => ?_
  obtain ⟨i, hi⟩ := List.mem_iff_getElem?.mp hb
  rcases initBlocks_getElem? i b hi with ⟨-, heq, -⟩ | ⟨-, heq, -⟩
  · rw [heq, potential, if_neg (entry_isState harity).ne_neutral]
    exact (List.count_le_length).trans (by simp [entryState])
  · rw [heq, potential, if_pos rfl]

section

variable {ctx : Context} {func : Func} {bytecode : List UInt8} {l : List InstOffsets}
  {arity : Nat} {cert : Certificate}

/-- Once nothing is queued, every block that the first one leads to has a state. -/
theorem ComputeInv.reached {flow : Flow} (h : ComputeInv ctx func l arity flow []) {bb : Nat}
    (hreach : Reach l bb) : ∃ b, flow.blocks[bb]? = some b ∧ IsState func b.state := by
  induction hreach with
  | entry =>
    obtain ⟨b, hb, -, hstate⟩ := h.entry
    exact ⟨b, hb, hstate⟩
  | edge _ hseg hp ih =>
    obtain ⟨b, hb, hstate⟩ := ih
    obtain ⟨t, ht, hts, -⟩ := (h.done hseg hb hstate (by simp)).2.1 _
      (List.mem_map.mpr ⟨_, hp, rfl⟩)
    exact ⟨t, ht, hts⟩

/-- The largest depth depends on the operands and upvars of the states only. -/
theorem IsMaxDepth.congr {claims claims' : List BlockState} {d : Nat}
    (hcore : ∀ {bb : Nat} {s : BlockState}, claims'[bb]? = some s →
      ∃ c, claims[bb]? = some c ∧ SameCore c s) (hlen : claims.length = claims'.length)
    (h : IsMaxDepth ctx l claims arity d) : IsMaxDepth ctx l claims' arity d := by
  refine ⟨h.arity_le, ?_, ?_⟩
  · intro bb seg s hseg hs
    obtain ⟨c, hc, hsame⟩ := hcore hs
    rw [← hsame.blockDepth_eq]
    exact h.block_le hseg hc
  · rcases h.attained with heq | ⟨bb, seg, c, hseg, hc, heq⟩
    · exact .inl heq
    · have hlt : bb < claims'.length := hlen ▸ (List.getElem?_eq_some_iff.mp hc).1
      have hs := List.getElem?_eq_getElem hlt
      obtain ⟨c', hc', hsame⟩ := hcore hs
      rw [hc] at hc'
      cases hc'
      exact .inr ⟨bb, seg, _, hseg, hs, by rw [heq, hsame.blockDepth_eq]⟩

/-- The finished run agrees with every accepted certificate that it has stayed above. -/
theorem flowCert_agrees {flow : Flow} (hinv : ComputeInv ctx func l arity flow [])
    (hacc : Accepts ctx func l arity cert)
    (hcert : CertInv func (cert.claims func arity) flow.blocks)
    (hall : ∀ (i : Nat) (b : Block), flow.blocks[i]? = some b → IsState func b.state) :
    (flowCert flow).Agrees func cert := by
  have hclaims := flowCert_claims hinv
  have hacc' := flowCert_accepts hinv hall
  have hlen := hacc.fixed.length.trans hacc'.fixed.length.symm
  have hbelow : ∀ {i : Nat} {c s : BlockState}, (cert.claims func arity)[i]? = some c →
      ((flowCert flow).claims func arity)[i]? = some s → Below func.locals c s := by
    intro i c s hc hs
    rw [hclaims, List.getElem?_map] at hs
    obtain ⟨b, hb, rfl⟩ := Option.map_eq_some_iff.mp hs
    exact hcert hb hc (hall i b hb)
  refine ⟨?_, ?_, ?_⟩
  · refine (hacc.depth.congr ?_ hlen).unique hacc'.depth
    intro bb s hs
    have hlt := hlen.symm ▸ (List.getElem?_eq_some_iff.mp hs).1
    have hc := List.getElem?_eq_getElem hlt
    exact ⟨_, hc, (hbelow hc hs).1⟩
  · exact hacc.offsets.symm.trans hacc'.offsets
  · have hlen' : cert.blocks.length = (flowCert flow).blocks.length := by
      simpa [Certificate.claims] using hlen
    refine List.forall₂_iff_get.mpr ⟨hlen', fun i h1 h2 => ?_⟩
    have hget : ∀ {cert : Certificate} (h : i < cert.blocks.length),
        (cert.claims func arity)[i + 1]? = some cert.blocks[i].2 := by
      intro cert h
      simp [Certificate.claims, h]
    obtain ⟨⟨hops, hup⟩, hlocals⟩ := hbelow (hget h1) (hget h2)
    exact ⟨hops, hup, hlocals⟩

/-- The run that computes a certificate succeeds where another one is accepted, and stays above
the claimed states. -/
theorem compute_run_ok (hdec : Decoded ctx func bytecode l) (hl : l ≠ [])
    (hbound : arity + growthSum ctx l < usizeMax) (hacc : Accepts ctx func l arity cert)
    (hcov : Covered func l (cert.claims func arity)) :
    ∃ flow, Worklist.run (visit ctx func bytecode false) (computeFuel func (segs l).length)
      ⟨initBlocks func l arity, arity⟩ [0] = .ok flow ∧ ComputeInv ctx func l arity flow [] ∧
      CertInv func (cert.claims func arity) flow.blocks := by
  have hinit : CertInv func (cert.claims func arity) (initBlocks func l arity) := by
    intro i b c hb hc hstate
    rcases initBlocks_getElem? i b hb with ⟨rfl, heq, -⟩ | ⟨-, heq, -⟩
    · cases hc
      rw [heq]
      exact Below.refl _ _
    · exact absurd heq hstate.ne_neutral
  obtain ⟨flow, hrun, hinv, -, hcert⟩ := Worklist.run_ok
    (fun flow queue => ComputeInv ctx func l arity flow queue ∧ ComputeGrowth ctx l arity flow ∧
      CertInv func (cert.claims func arity) flow.blocks)
    (fun flow => potentialSum func flow.blocks)
    (by
      rintro bb flow queue ⟨hinv, hgrowth, hcert⟩
      obtain ⟨flow', pushed, b, seg, hvisit, hv, hcert'⟩ :=
        CertInv.visit hdec hacc.fixed.length hinv hcert
          (fun _ hseg hc _ => hacc.fixed.fixedAt hcov hseg hc) (fun hb hseg p hp =>
          lt_of_le_of_lt (hgrowth.edge_le hinv hb hseg p hp) hbound)
      obtain ⟨hinv', hle⟩ := hinv.visit hv
      exact ⟨flow', pushed, hvisit, ⟨hinv', hgrowth.visit hinv hv, hcert'⟩, hle⟩)
    ⟨computeInv_init hl (by omega), computeGrowth_init, hinit⟩
    (Nat.add_le_add_right (potentialSum_init func l arity (by omega)) 1)
  exact ⟨flow, hrun, hinv, hcert⟩

end

/-- If a certificate that covers its claims is accepted, one can be computed, and agrees with it. -/
theorem accepted_computed {ctx : Context} {func : Func} {cert : Certificate}
    (hdepth : DepthBound ctx func) (h : Accepted ctx func cert) (hcov : cert.Covers ctx func) :
    ∃ cert', Computed ctx func cert' ∧ cert'.AllReached ∧ cert'.Agrees func cert := by
  obtain ⟨fuel, uses, hcheck⟩ := h
  obtain ⟨info, bytecode, offsets, hpass, hslice, hmark⟩ := check_first_passes hcheck
  obtain ⟨l, hdec, hleaders, -⟩ := decoded_of_passes hpass hslice hmark
  obtain ⟨bytecode', l', arity, hdec', hl, -, harity, hacc⟩ := check_sound hcheck
  obtain ⟨rfl, rfl⟩ := hdec.unique hdec'
  have hinsts := insts_eq_map_ok.mpr hdec.chain
  have hbound := hdepth bytecode l arity hslice hinsts harity
  obtain ⟨flow, hrun, hinv, hcert⟩ := compute_run_ok hdec hl hbound hacc
    (hcov bytecode l arity hslice hinsts harity)
  have hall : ∀ (i : Nat) (b : Block), flow.blocks[i]? = some b → IsState func b.state := by
    intro i b hb
    have hlt : i < (segs l).length := by
      have hlen : flow.blocks.length = (segs l).length := by
        simpa using congrArg List.length hinv.offsets
      exact hlen ▸ (List.getElem?_eq_some_iff.mp hb).1
    obtain ⟨b', hb', hstate⟩ := hinv.reached (hacc.reach i hlt)
    rw [hb] at hb'
    cases hb'
    exact hstate
  refine ⟨flowCert flow, ⟨computeFuel func (segs l).length, info.uses, ?_⟩, ?_,
    flowCert_agrees hinv hacc hcert hall⟩
  · refine compute_passes.mpr ⟨info, bytecode, offsets, arity, flow, hpass, hslice, hmark, harity,
      ?_, ?_, rfl, rfl⟩
    · rw [hleaders]
      exact starts_ne_nil hl
    · rw [hleaders]
      exact hrun
  · intro p hp
    obtain ⟨b, hb, rfl⟩ := List.mem_map.mp hp
    obtain ⟨i, hi⟩ := List.mem_iff_getElem?.mp (List.mem_of_mem_drop hb)
    exact (hall i b hi).ne_neutral

/-- With more visits than suffice `compute` returns the same. -/
theorem compute_mono {ctx : Context} {func : Func} {fuel fuel' : Nat} (hle : fuel ≤ fuel') :
    Settles (FuncVerifier.compute ctx func fuel) (FuncVerifier.compute ctx func fuel') := by
  unfold FuncVerifier.compute dataflow
  refine (Settles.refl _).bind fun info => (Settles.refl _).bind fun blocks => ?_
  refine Settles.bind ?_ fun flow => Settles.refl _
  refine (Settles.refl _).bind fun bytecode => (Settles.refl _).bind fun operands => ?_
  refine (Settles.refl _).bind fun first => ?_
  exact Settles.bind (Worklist.run_mono hle) fun flow => Settles.refl _

/-- One certificate at most is computed. -/
theorem Computed.unique {ctx : Context} {func : Func} {cert cert' : Certificate}
    (h : Computed ctx func cert) (h' : Computed ctx func cert') : cert = cert' := by
  obtain ⟨fuel, uses, hrun⟩ := h
  obtain ⟨fuel', uses', hrun'⟩ := h'
  have h1 := compute_mono (Nat.le_max_left fuel fuel') (by rw [hrun]; exact fun h => by cases h)
  have h2 := compute_mono (Nat.le_max_right fuel fuel') (by rw [hrun']; exact fun h => by cases h)
  rw [h1, hrun, hrun'] at h2
  cases h2
  rfl

/-- The looping function pushes little. -/
theorem loop_depthBound : DepthBound loopContext loopFunc := by
  intro bytecode l arity hslice hinsts harity
  obtain rfl : [10, 1, 32, 1, 11, 1, 40, 15, 11, 1, 38] = bytecode := by
    simpa [loopFunc, Span.slice, loopContext, codeContext] using hslice
  obtain rfl : 0 = arity := by
    simpa [loopFunc, loopContext, codeContext] using harity
  obtain rfl := (insts_eq_map_ok.mp hinsts).unique (insts_eq_map_ok.mp loopInsts_eq)
  decide

/-- Checking and computing agree, on certificates that cover their claims about locals and where
the operand depth stays below the mark of the neutral state. -/
theorem check_agrees_with_compute {ctx : Context} {func : Func} (hdepth : DepthBound ctx func) :
    ((∃ cert, Accepted ctx func cert ∧ cert.Covers ctx func) ↔
      ∃ cert, Computed ctx func cert ∧ cert.AllReached) ∧
    (∀ cert, Computed ctx func cert → cert.AllReached → Accepted ctx func cert) ∧
    (∀ cert cert', Computed ctx func cert → Accepted ctx func cert' → cert'.Covers ctx func →
      cert.AllReached ∧ cert.Agrees func cert') := by
  refine ⟨⟨?_, ?_⟩, ?_, ?_⟩
  · rintro ⟨cert, hacc, hcov⟩
    obtain ⟨cert', hcomp, hall, -⟩ := accepted_computed hdepth hacc hcov
    exact ⟨cert', hcomp, hall⟩
  · rintro ⟨cert, hcomp, hall⟩
    exact ⟨cert, computed_accepted hdepth hcomp hall⟩
  · exact fun cert hcomp hall => (computed_accepted hdepth hcomp hall).1
  · intro cert cert' hcomp hacc hcov
    obtain ⟨cert'', hcomp', hall, hagrees⟩ := accepted_computed hdepth hacc hcov
    obtain rfl := hcomp.unique hcomp'
    exact ⟨hall, hagrees⟩

/-- The depth of the looping function is bounded, and what is computed for it agrees with its
certificate. -/
theorem loop_check_agrees_with_compute : DepthBound loopContext loopFunc ∧
    (∃ cert, Computed loopContext loopFunc cert ∧ cert.AllReached) ∧
    ∀ cert, Computed loopContext loopFunc cert → cert.Agrees loopFunc loopCert := by
  obtain ⟨h1, -, h3⟩ := check_agrees_with_compute loop_depthBound
  exact ⟨loop_depthBound, h1.mp ⟨loopCert, loopCert_accepted, loopCert_covers⟩,
    fun cert hcomp => (h3 cert loopCert hcomp loopCert_accepted loopCert_covers).2⟩

/-- The certificate is accepted, although computing one fails at the load. -/
theorem uncovered_accepted : Accepted unsetContext unsetFunc unsetCert ∧
    ¬ ∃ cert, Computed unsetContext unsetFunc cert := by
  constructor
  · exact unsetCert_accepted
  · rintro ⟨cert, fuel, uses, h⟩
    have hfail : FuncVerifier.compute unsetContext unsetFunc 3 =
        .error (.err (.inst 4 .localLoadUninitialized)) := by decide +kernel
    have hmore := compute_mono (Nat.le_max_left 3 fuel) (by rw [hfail]; exact fun h => by cases h)
    have hfuel := compute_mono (Nat.le_max_right 3 fuel) (by rw [h]; exact fun h => by cases h)
    rw [hmore, hfail, h] at hfuel
    cases hfuel

end Dolang.Bytecode
