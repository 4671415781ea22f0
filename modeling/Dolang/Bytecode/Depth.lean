import Dolang.Bytecode.Check
import Mathlib.Algebra.BigOperators.Group.Finset.Basic
import Mathlib.Algebra.Order.BigOperators.Group.Finset

/-!
# Bounds on the operand depth

The operand depth of a block is bounded by the arguments of the function and what the instructions
of other blocks push. A block's depth is fixed when it is first reached, so each visited block
counts once: if `V` is a set of visited blocks, every depth found so far is at most that of the
arguments plus the growth of the blocks in `V`. The sum over all blocks is that over all
instructions (`sum_blockGrowth`).
-/

namespace Dolang.Bytecode

open Dolang.Rust

/-- The operands that an instruction can add, on any edge. -/
def growth (ctx : Context) (i : InstOffsets) : Nat :=
  pushes ctx i.inst + match i.inst with
    | .unpackBranch u _ => ctx.unpackLen u
    | _ => 0

/-- The operands that a list of instructions can add. -/
def growthSum (ctx : Context) (l : List InstOffsets) : Nat := (l.map (growth ctx)).sum

/-- The operands that a block can add. -/
def blockGrowth (ctx : Context) (l : List InstOffsets) (bb : Nat) : Nat :=
  growthSum ctx ((segs l)[bb]?.getD [])

theorem growthSum_append (ctx : Context) (a b : List InstOffsets) :
    growthSum ctx (a ++ b) = growthSum ctx a + growthSum ctx b := by
  simp [growthSum]

theorem stateAfter_operands_le (ctx : Context) (i : InstOffsets) (s : BlockState) :
    (stateAfter ctx i.inst s).operands ≤ s.operands + pushes ctx i.inst := by
  simp only [stateAfter, operandsAfter]
  omega

/-- Running instructions adds at most their pushes. -/
theorem runState_operands_le (ctx : Context) (l : List InstOffsets) (s : BlockState) :
    (runState ctx l s).operands ≤ s.operands + (l.map fun i => pushes ctx i.inst).sum := by
  induction l generalizing s with
  | nil => simp [runState]
  | cons i l ih =>
    have h := ih (stateAfter ctx i.inst s)
    have hstep := stateAfter_operands_le ctx i s
    simp only [runState, List.map_cons, List.sum_cons]
    omega

theorem pushes_le_growth (ctx : Context) (l : List InstOffsets) :
    (l.map fun i => pushes ctx i.inst).sum ≤ growthSum ctx l := by
  induction l with
  | nil => simp [growthSum]
  | cons i l ih =>
    simp only [growthSum, List.map_cons, List.sum_cons, growth] at ih ⊢
    omega

theorem edgeAfter_operands_le (ctx : Context) (i : InstOffsets) (taken : Bool) (t : BlockState) :
    (edgeAfter ctx i.inst taken t).operands + pushes ctx i.inst ≤ t.operands + growth ctx i := by
  obtain ⟨before, inst, after⟩ := i
  unfold edgeAfter growth
  simp only
  split
  · simp only
    omega
  · omega

/-- What the last instruction of a block adds is part of the block's growth. -/
theorem runState_operands_le_growth (ctx : Context) {seg : List InstOffsets} (hseg : seg ≠ [])
    (s : BlockState) :
    (runState ctx seg s).operands + growth ctx (lastOf seg) ≤
      s.operands + growthSum ctx seg + pushes ctx (lastOf seg).inst := by
  have hsplit : seg = seg.dropLast ++ [lastOf seg] := by
    unfold lastOf
    rw [List.getLastD_eq_getLast?, List.getLast?_eq_getLast_of_ne_nil hseg, Option.getD_some]
    exact (List.dropLast_append_getLast hseg).symm
  have hinit := runState_operands_le ctx seg.dropLast s
  have hgrowth := pushes_le_growth ctx seg.dropLast
  have hlast := stateAfter_operands_le ctx (lastOf seg) (runState ctx seg.dropLast s)
  have hrun : runState ctx seg s =
      stateAfter ctx (lastOf seg).inst (runState ctx seg.dropLast s) := by
    conv_lhs => rw [hsplit, runState_append]
    rfl
  have hsum : growthSum ctx seg = growthSum ctx seg.dropLast + growth ctx (lastOf seg) := by
    conv_lhs => rw [hsplit, growthSum_append]
    simp [growthSum]
  rw [← hrun] at hlast
  omega

/-- An edge of a block has at most the depth of the block's state and the block's growth. -/
theorem edge_operands_le (ctx : Context) (starts : List Nat) (bb : Nat) {seg : List InstOffsets}
    (hseg : seg ≠ []) (s : BlockState) {p : Nat × BlockState}
    (hp : p ∈ blockEdges ctx starts bb seg s) :
    p.2.operands ≤ s.operands + growthSum ctx seg := by
  obtain ⟨q, -, rfl⟩ := List.mem_map.mp hp
  have hrun := runState_operands_le_growth ctx hseg s
  have hedge := edgeAfter_operands_le ctx (lastOf seg) q.2 (runState ctx seg s)
  simp only
  omega

/-- Running instructions reaches at most the depth of all their pushes. -/
theorem runDepth_le (ctx : Context) (l : List InstOffsets) (n : Nat) :
    runDepth ctx l n ≤ n + (l.map fun i => pushes ctx i.inst).sum := by
  induction l generalizing n with
  | nil => simp [runDepth]
  | cons i l ih =>
    have h := ih (operandsAfter ctx i.inst n)
    have hstep : operandsAfter ctx i.inst n ≤ n + pushes ctx i.inst := by
      simp only [operandsAfter]
      omega
    simp only [runDepth, List.map_cons, List.sum_cons]
    omega

theorem edgeDepth_le {d n : Nat} {succs : List (Nat × BlockState)} (hd : d ≤ n)
    (h : ∀ p ∈ succs, p.2.operands ≤ n) : edgeDepth d succs ≤ n := by
  unfold edgeDepth
  induction succs generalizing d with
  | nil => exact hd
  | cons p succs ih =>
    have hp := h p (by simp)
    exact ih (Nat.max_le.mpr ⟨hd, hp⟩) fun q hq => h q (by simp [hq])

/-- The depth of a block is at most that of its state and the block's growth. -/
theorem blockDepth_le_growth (ctx : Context) (starts : List Nat) (bb : Nat)
    {seg : List InstOffsets} (hseg : seg ≠ []) (s : BlockState) :
    blockDepth ctx starts bb seg s ≤ s.operands + growthSum ctx seg := by
  refine edgeDepth_le ?_ fun p hp => edge_operands_le ctx starts bb hseg s hp
  have h1 := runDepth_le ctx seg s.operands
  have h2 := pushes_le_growth ctx seg
  omega

/-- The growth of all blocks is that of all instructions. -/
theorem sum_blockGrowth (ctx : Context) (l : List InstOffsets) :
    ∑ bb ∈ Finset.range (segs l).length, blockGrowth ctx l bb = growthSum ctx l := by
  have hgen : ∀ ss : List (List InstOffsets),
      ∑ bb ∈ Finset.range ss.length, growthSum ctx (ss[bb]?.getD []) =
        growthSum ctx ss.flatten := by
    intro ss
    induction ss with
    | nil => simp [growthSum]
    | cons s ss ih =>
      rw [List.length_cons, Finset.sum_range_succ', List.flatten_cons, growthSum_append, ← ih]
      simp [Nat.add_comm]
  rw [← segs_flatten l]
  simpa [blockGrowth, segs_flatten] using hgen (segs l)

/-- The growth of some blocks is at most that of all instructions. -/
theorem sum_blockGrowth_le (ctx : Context) (l : List InstOffsets) {V : Finset Nat}
    (hV : V ⊆ Finset.range (segs l).length) :
    ∑ bb ∈ V, blockGrowth ctx l bb ≤ growthSum ctx l := by
  rw [← sum_blockGrowth ctx l]
  exact Finset.sum_le_sum_of_subset hV

/-- A visited block more. -/
theorem sum_insert_blockGrowth (ctx : Context) (l : List InstOffsets) {V : Finset Nat} {bb : Nat}
    (hbb : bb ∉ V) :
    ∑ i ∈ insert bb V, blockGrowth ctx l i =
      blockGrowth ctx l bb + ∑ i ∈ V, blockGrowth ctx l i :=
  Finset.sum_insert hbb

/-! ## Visited blocks -/

/-- The depths found so far: `seen` has the states of the blocks that have one, and `V` the blocks
that have been visited. -/
structure GrowthInv (ctx : Context) (l : List InstOffsets) (arity : Nat)
    (seen : Nat → Option BlockState) (V : Finset Nat) : Prop where
  subset : V ⊆ Finset.range (segs l).length
  visited : ∀ i ∈ V, ∃ s, seen i = some s
  /-- The successors of a visited block have states, with the operands of its edges. -/
  closed : ∀ i ∈ V, ∀ {seg s}, (segs l)[i]? = some seg → seen i = some s →
    blockDepth ctx (starts l) i seg s ≤ arity + growthSum ctx l ∧
      ∀ p ∈ blockEdges ctx (starts l) i seg s, ∃ t, seen p.1 = some t ∧ SameCore p.2 t
  /-- Each visited block counts once. -/
  bound : ∀ i s, seen i = some s → s.operands ≤ arity + ∑ bb ∈ V, blockGrowth ctx l bb

section

variable {ctx : Context} {l : List InstOffsets} {arity : Nat} {seen : Nat → Option BlockState}
  {V : Finset Nat} {bb : Nat} {seg : List InstOffsets} {s : BlockState}

/-- A block with a state has room for what it pushes. -/
theorem GrowthInv.room (h : GrowthInv ctx l arity seen V) (hseg : (segs l)[bb]? = some seg)
    (hs : seen bb = some s) (hbb : bb ∉ V) :
    s.operands + growthSum ctx seg ≤ arity + ∑ i ∈ insert bb V, blockGrowth ctx l i := by
  have hgrowth : blockGrowth ctx l bb = growthSum ctx seg := by simp [blockGrowth, hseg]
  rw [sum_insert_blockGrowth ctx l hbb, hgrowth]
  have := h.bound bb s hs
  omega

theorem insert_subset_range (h : GrowthInv ctx l arity seen V)
    (hseg : (segs l)[bb]? = some seg) : insert bb V ⊆ Finset.range (segs l).length := by
  intro i hi
  rcases Finset.mem_insert.mp hi with rfl | hi
  · exact Finset.mem_range.mpr (List.getElem?_eq_some_iff.mp hseg).1
  · exact h.subset hi

/-- The depths of a block with a state are bounded by the growth of all instructions. -/
theorem GrowthInv.blockDepth_le (h : GrowthInv ctx l arity seen V)
    (hseg : (segs l)[bb]? = some seg) (hs : seen bb = some s) :
    blockDepth ctx (starts l) bb seg s ≤ arity + growthSum ctx l := by
  by_cases hbb : bb ∈ V
  · exact (h.closed bb hbb hseg hs).1
  · have hroom := h.room hseg hs hbb
    have hall := sum_blockGrowth_le ctx l (insert_subset_range h hseg)
    refine (blockDepth_le_growth ctx (starts l) bb ?_ s).trans (by omega)
    exact segs_ne_nil (List.mem_of_getElem? hseg)

/-- A visit gives states to the successors of a block. -/
theorem GrowthInv.visit (h : GrowthInv ctx l arity seen V) (hseg : (segs l)[bb]? = some seg)
    (hs : seen bb = some s) {seen' : Nat → Option BlockState}
    (hkeep : ∀ i t, seen i = some t → ∃ t', seen' i = some t' ∧ SameCore t t')
    (hnew : ∀ i t', seen' i = some t' →
      (∃ t, seen i = some t) ∨ i ∈ (blockEdges ctx (starts l) bb seg s).map (·.1))
    (hedges : ∀ p ∈ blockEdges ctx (starts l) bb seg s, ∃ t', seen' p.1 = some t' ∧
      SameCore p.2 t') :
    GrowthInv ctx l arity seen' (insert bb V) := by
  have hsubset := insert_subset_range h hseg
  -- The edges of a block have the same operands before and after the visit.
  have hcore : ∀ {i : Nat} {seg' : List InstOffsets} {t t' : BlockState}, SameCore t t' →
      (∀ p ∈ blockEdges ctx (starts l) i seg' t, ∃ u, seen' p.1 = some u ∧ SameCore p.2 u) →
      ∀ p ∈ blockEdges ctx (starts l) i seg' t', ∃ u, seen' p.1 = some u ∧ SameCore p.2 u := by
    intro i seg' t t' hsame hold p hp
    obtain ⟨q, hq, rfl⟩ := List.mem_map.mp hp
    obtain ⟨u, hu, huc⟩ := hold (q.1, _) (List.mem_map.mpr ⟨q, hq, rfl⟩)
    exact ⟨u, hu, ((hsame.runState ctx seg').edgeAfter ctx _ q.2).symm.trans huc⟩
  refine ⟨hsubset, ?_, ?_, ?_⟩
  · intro i hi
    rcases Finset.mem_insert.mp hi with rfl | hi
    · obtain ⟨t', ht', -⟩ := hkeep i s hs
      exact ⟨t', ht'⟩
    · obtain ⟨t, ht⟩ := h.visited i hi
      obtain ⟨t', ht', -⟩ := hkeep i t ht
      exact ⟨t', ht'⟩
  · intro i hi seg' s' hseg' hs'
    by_cases hib : i = bb
    · subst hib
      rw [hseg] at hseg'
      cases hseg'
      obtain ⟨t', ht', hsame⟩ := hkeep i s hs
      rw [hs'] at ht'
      cases ht'
      refine ⟨?_, hcore hsame hedges⟩
      rw [← hsame.blockDepth_eq]
      exact h.blockDepth_le hseg hs
    · have hiV : i ∈ V := (Finset.mem_insert.mp hi).resolve_left hib
      obtain ⟨t, ht⟩ := h.visited i hiV
      obtain ⟨t', ht', hsame⟩ := hkeep i t ht
      rw [hs'] at ht'
      cases ht'
      obtain ⟨hdepth, hold⟩ := h.closed i hiV hseg' ht
      refine ⟨by rw [← hsame.blockDepth_eq]; exact hdepth, hcore hsame ?_⟩
      intro p hp
      obtain ⟨u, hu, huc⟩ := hold p hp
      obtain ⟨u', hu', huc'⟩ := hkeep p.1 u hu
      exact ⟨u', hu', huc.trans huc'⟩
  · intro i s' hs'
    have hmono : ∑ j ∈ V, blockGrowth ctx l j ≤ ∑ j ∈ insert bb V, blockGrowth ctx l j :=
      Finset.sum_le_sum_of_subset (Finset.subset_insert bb V)
    have hold : ∀ t, seen i = some t →
        s'.operands ≤ arity + ∑ j ∈ insert bb V, blockGrowth ctx l j := by
      intro t ht
      obtain ⟨t', ht', hsame⟩ := hkeep i t ht
      rw [hs'] at ht'
      cases ht'
      rw [← hsame.1]
      exact (h.bound i t ht).trans (by omega)
    rcases hnew i s' hs' with ⟨t, ht⟩ | hmem
    · exact hold t ht
    · obtain ⟨p, hp, rfl⟩ := List.mem_map.mp hmem
      by_cases hbb : bb ∈ V
      · -- A block visited before has given its successors their states.
        obtain ⟨t, ht, -⟩ := (h.closed bb hbb hseg hs).2 p hp
        exact hold t ht
      · obtain ⟨t', ht', hsame⟩ := hedges p hp
        rw [hs'] at ht'
        cases ht'
        have hne := segs_ne_nil (List.mem_of_getElem? hseg)
        have hle := edge_operands_le ctx (starts l) bb hne s hp
        have hroom := h.room hseg hs hbb
        rw [← hsame.1]
        omega

/-- Before the first visit only the first block has a state. -/
theorem growthInv_init {s : BlockState} (hs : s.operands ≤ arity)
    (hseen : ∀ i t, seen i = some t → t = s) : GrowthInv ctx l arity seen ∅ := by
  refine ⟨by simp, by simp, by simp, ?_⟩
  intro i t ht
  rw [hseen i t ht]
  simpa using hs

end

/-! ## Checked certificates -/

/-- The states of the marked blocks. -/
def markedState (blocks : List Block) (i : Nat) : Option BlockState :=
  (blocks[i]?.filter (·.mark)).map (·.state)

theorem markedState_eq_some {blocks : List Block} {i : Nat} {s : BlockState} :
    markedState blocks i = some s ↔ ∃ b, blocks[i]? = some b ∧ b.mark = true ∧ b.state = s := by
  simp [markedState, Option.filter_eq_some_iff, and_assoc]

/-- What checking knows of the operand depth. -/
def CheckGrowth (ctx : Context) (l : List InstOffsets) (arity : Nat) (flow : Flow) : Prop :=
  (∃ V, GrowthInv ctx l arity (markedState flow.blocks) V) ∧
    flow.maxOperandDepth ≤ arity + growthSum ctx l

/-- The loop body keeps the bound on the depth. -/
theorem CheckGrowth.visit {ctx : Context} {func : Func} {bytecode : List UInt8}
    {l : List InstOffsets} {claims : List BlockState} {arity : Nat}
    (hdec : Decoded ctx func bytecode l) (hlen : claims.length = (segs l).length) {bb : Nat}
    {flow flow' : Flow} {queue pushed : List Nat}
    (hinv : CheckInv ctx func l claims arity flow (bb :: queue)) (h : CheckGrowth ctx l arity flow)
    (hvisit : visit ctx func bytecode true bb flow = .ok (flow', pushed)) :
    CheckGrowth ctx l arity flow' := by
  obtain ⟨⟨V, hgrowth⟩, hmax⟩ := h
  obtain ⟨b, seg, hb, hseg, hs, hruns, hmarks, hdepth⟩ := hinv.visit_cases hdec hlen hvisit
  have hmark : markedState flow.blocks bb = some b.state := by
    obtain ⟨b', hb', hm⟩ := hinv.queued bb (by simp)
    rw [hb] at hb'
    cases hb'
    exact markedState_eq_some.mpr ⟨b, hb, hm, rfl⟩
  -- Checking does not change states, so a marked block has its claimed state.
  have hstate : ∀ {i : Nat} {c c' : Block}, flow.blocks[i]? = some c →
      flow'.blocks[i]? = some c' → c'.state = c.state := by
    intro i c c' hc hc'
    have hclaim := congrArg (·[i]?) hmarks.claims
    simp only [List.getElem?_map, hc, hc', Option.map_some, Option.some.injEq] at hclaim
    exact congrArg Prod.snd hclaim
  have hlength : flow'.blocks.length = flow.blocks.length := by
    simpa using congrArg List.length hmarks.claims
  refine ⟨⟨insert bb V, hgrowth.visit hseg hmark ?_ ?_ ?_⟩, ?_⟩
  · intro i t ht
    obtain ⟨c, hc, hm, rfl⟩ := markedState_eq_some.mp ht
    obtain ⟨c', hc', hm'⟩ := (hmarks.marked i).mpr (.inl ⟨c, hc, hm⟩)
    exact ⟨c'.state, markedState_eq_some.mpr ⟨c', hc', hm', rfl⟩, by
      rw [hstate hc hc']; exact SameCore.refl _⟩
  · intro i t' ht'
    obtain ⟨c', hc', hm', rfl⟩ := markedState_eq_some.mp ht'
    rcases (hmarks.marked i).mp ⟨c', hc', hm'⟩ with ⟨c, hc, hm⟩ | hmem
    · exact .inl ⟨c.state, markedState_eq_some.mpr ⟨c, hc, hm, rfl⟩⟩
    · exact .inr hmem
  · intro p hp
    obtain ⟨t, ht, hmerge⟩ := hmarks.merges p hp
    obtain ⟨c', hc', hm'⟩ := (hmarks.marked p.1).mpr (.inr (List.mem_map_of_mem hp))
    rw [List.getElem?_map] at ht
    obtain ⟨c, hc, rfl⟩ := Option.map_eq_some_iff.mp ht
    refine ⟨c'.state, markedState_eq_some.mpr ⟨c', hc', hm', rfl⟩, ?_⟩
    rw [hstate hc hc']
    exact (absorbs_of_merge hmerge).1
  · rw [hdepth]
    exact Nat.max_le.mpr ⟨hmax, hgrowth.blockDepth_le hseg hmark⟩

/-- Before the first visit. -/
theorem checkGrowth_init {ctx : Context} {func : Func} {l : List InstOffsets} {cert : Certificate}
    {arity : Nat} :
    CheckGrowth ctx l arity ⟨⟨0, true, entryState func arity⟩ ::
      cert.blocks.map (fun (offset, state) => ⟨offset, false, state⟩), arity⟩ := by
  refine ⟨⟨∅, growthInv_init (s := entryState func arity) (le_refl _) ?_⟩, Nat.le_add_right _ _⟩
  intro i t ht
  obtain ⟨b, hb, hm, rfl⟩ := markedState_eq_some.mp ht
  cases i with
  | zero => cases hb; rfl
  | succ i =>
    simp only [List.getElem?_cons_succ, List.getElem?_map, Option.map_eq_some_iff] at hb
    obtain ⟨q, -, rfl⟩ := hb
    cases hm

/-- The depth of an accepted certificate is bounded by the arguments and all pushes. -/
theorem check_depth_le {ctx : Context} {func : Func} {cert : Certificate} {fuel : Nat}
    {uses : List Nat} (h : FuncVerifier.check ctx func cert fuel = .ok uses) :
    ∃ bytecode l arity, Decoded ctx func bytecode l ∧
      ctx.unpackArity func.sig = .ok (some arity) ∧
      cert.maxOperandDepth ≤ arity + growthSum ctx l := by
  obtain ⟨bytecode, l, arity, flow, hdec, hl, -, harity, hoffsets, hrun, -, hdepth⟩ :=
    check_passes h
  have hlen := claims_length func arity hl hoffsets
  have hinv := Worklist.run_invariant
    (fun flow queue => CheckInv ctx func l (cert.claims func arity) arity flow queue ∧
      CheckGrowth ctx l arity flow)
    (fun bb s queue s' pushed hs hv =>
      ⟨(hs.1.visit hdec hlen hv).1, hs.2.visit hdec hlen hs.1 hv⟩)
    ⟨checkInv_init hdec.chain hl hoffsets ⟨0, true, entryState func arity⟩ rfl, checkGrowth_init⟩
    hrun
  exact ⟨bytecode, l, arity, hdec, harity, by rw [hdepth]; exact hinv.2.2⟩

/-- The operand depth of a function cannot reach the mark of the neutral state, whatever path is
taken: the arguments and all that the instructions push stay below it. -/
def DepthBound (ctx : Context) (func : Func) : Prop :=
  ∀ bytecode l arity, func.bytecode.slice ctx.code = some bytecode →
    insts bytecode 0 = l.map .ok → ctx.unpackArity func.sig = .ok (some arity) →
    arity + growthSum ctx l < usizeMax

end Dolang.Bytecode
