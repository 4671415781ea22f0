import Dolang.Bytecode.Transfer

/-!
# What certificate checking accepts

`FuncVerifier.check` in terms of the function's blocks. An accepted certificate assigns a state to
every block such that each block runs from its state and every edge is absorbed by the state of the
block it leads to (`FixedPoint`), every block is reached from the first one, and the claimed depth
is the largest one on the way (`IsMaxDepth`). `check_sound` derives this from an accepted
certificate, by the invariant `CheckInv` of the data flow loop. `check_complete` is the converse.
-/

namespace Dolang.Bytecode

open Dolang.Rust

/-! ## Merging -/

theorem upvarConflict_eq_none {a b : List Nat} (h : a.length = b.length) :
    upvarConflict a b = none ↔ a = b := by
  induction a generalizing b with
  | nil => cases b <;> simp_all [upvarConflict]
  | cons x a ih =>
    cases b with
    | nil => simp at h
    | cons y b =>
      have hlen : a.length = b.length := by simpa using h
      by_cases hxy : x = y
      · simp [upvarConflict, hxy, ih hlen]
      · simp [upvarConflict, hxy]

theorem mergeLocals_length (a b : List LocalState) : (mergeLocals a b).length = b.length := by
  induction a generalizing b with
  | nil => cases b <;> rfl
  | cons x a ih => cases b <;> simp [mergeLocals, ih]

/-- A merged local is known when it was and the other state does not refute it. A state whose list
of locals is too short refutes nothing. -/
theorem mergeLocals_getElem? (a b : List LocalState) (i : Nat) :
    (mergeLocals a b)[i]? = some .value ↔ b[i]? = some .value ∧ a[i]? ≠ some .invalid := by
  induction a generalizing b i with
  | nil => cases b <;> simp [mergeLocals]
  | cons x a ih =>
    cases b with
    | nil => simp [mergeLocals]
    | cons y b =>
      cases i with
      | zero => cases x <;> cases y <;> simp [mergeLocals, LocalState.merge]
      | succ i => simpa [mergeLocals] using ih b i

/-- Two lists of locals with the same length and the same known ones are equal. -/
theorem locals_ext {a b : List LocalState} (hlen : a.length = b.length)
    (h : ∀ i : Nat, a[i]? = some .value ↔ b[i]? = some .value) : a = b := by
  refine List.ext_getElem? fun i => ?_
  by_cases hi : i < a.length
  · have hb : i < b.length := by omega
    have hval := h i
    rw [List.getElem?_eq_getElem hi, List.getElem?_eq_getElem hb] at hval ⊢
    simp only [Option.some.injEq] at hval
    cases ha : a[i] <;> cases hb' : b[i] <;> simp_all
  · rw [List.getElem?_eq_none (by omega), List.getElem?_eq_none (by omega)]

/-- Merging into a state that is not the neutral one. -/
theorem merge_eq_ok {e t r : BlockState} (h : t.operands ≠ usizeMax) :
    e.merge t = .ok r ↔
      SameCore e t ∧ r = { t with locals := mergeLocals e.locals t.locals } := by
  unfold BlockState.merge SameCore
  rw [if_neg h]
  simp only [ne_eq, ite_fail_eq_ok, not_not]
  constructor
  · rintro ⟨h1, h2, h3⟩
    split at h3
    · cases h3
    · rename_i hnone
      cases h3
      exact ⟨⟨h1, (upvarConflict_eq_none h2).mp hnone⟩, rfl⟩
  · rintro ⟨⟨h1, h2⟩, rfl⟩
    have hlen : e.upvars.length = t.upvars.length := by rw [h2]
    rw [(upvarConflict_eq_none hlen).mpr h2]
    exact ⟨h1, hlen, rfl⟩

/-- The state `t` of a block absorbs the state `e` of an edge: the edge refutes nothing that `t`
knows. -/
def Absorbs (t e : BlockState) : Prop :=
  SameCore e t ∧ ∀ i : Nat, t.locals[i]? = some .value → e.locals[i]? ≠ some .invalid

/-- A state that merging does not change absorbs what is merged into it. -/
theorem absorbs_of_merge {e t : BlockState} (h : e.merge t = .ok t) : Absorbs t e := by
  by_cases hmax : t.operands = usizeMax
  · unfold BlockState.merge at h
    rw [if_pos hmax] at h
    cases h
    exact ⟨SameCore.refl e, fun i hi hinv => by rw [hi] at hinv; cases hinv⟩
  · obtain ⟨hcore, heq⟩ := (merge_eq_ok hmax).mp h
    refine ⟨hcore, fun i hi => ?_⟩
    have hlocals : t.locals = mergeLocals e.locals t.locals := congrArg BlockState.locals heq
    rw [hlocals] at hi
    exact ((mergeLocals_getElem? _ _ _).mp hi).2

/-- Merging does not change a state that absorbs what is merged into it. -/
theorem merge_of_absorbs {e t : BlockState} (h : Absorbs t e) (hmax : t.operands ≠ usizeMax) :
    e.merge t = .ok t := by
  refine (merge_eq_ok hmax).mpr ⟨h.1, ?_⟩
  have hlocals : mergeLocals e.locals t.locals = t.locals := by
    refine locals_ext (mergeLocals_length _ _) fun i => ?_
    rw [mergeLocals_getElem?]
    exact ⟨And.left, fun hi => ⟨hi, h.2 i hi⟩⟩
  rw [hlocals]

/-! ## Fixed points -/

/-- A state for every block such that blocks run and edges are absorbed. -/
structure FixedPoint (ctx : Context) (func : Func) (l : List InstOffsets)
    (claims : List BlockState) : Prop where
  /-- There is a state for each block. -/
  length : claims.length = (segs l).length
  /-- Every block runs from its state. -/
  runs : ∀ {bb seg s}, (segs l)[bb]? = some seg → claims[bb]? = some s →
    BlockRuns ctx func (starts l) bb seg s
  /-- Every edge is absorbed by the state of the block it leads to. -/
  absorbs : ∀ {bb seg s}, (segs l)[bb]? = some seg → claims[bb]? = some s →
    ∀ p ∈ blockEdges ctx (starts l) bb seg s, ∃ t, claims[p.1]? = some t ∧ Absorbs t p.2

/-- The blocks that the first block leads to. -/
inductive Reach (l : List InstOffsets) : Nat → Prop where
  | entry : Reach l 0
  | edge {bb : Nat} {seg : List InstOffsets} {p : Nat × Bool} : Reach l bb →
      (segs l)[bb]? = some seg → p ∈ succIds (starts l) bb (lastOf seg) → Reach l p.1

/-- The depth `d` is the largest one of the function: that of its arguments or of some block. -/
structure IsMaxDepth (ctx : Context) (l : List InstOffsets) (claims : List BlockState)
    (arity d : Nat) : Prop where
  arity_le : arity ≤ d
  block_le : ∀ {bb seg s}, (segs l)[bb]? = some seg → claims[bb]? = some s →
    blockDepth ctx (starts l) bb seg s ≤ d
  attained : d = arity ∨ ∃ bb seg s, (segs l)[bb]? = some seg ∧ claims[bb]? = some s ∧
    d = blockDepth ctx (starts l) bb seg s

/-- The largest depth is unique. -/
theorem IsMaxDepth.unique {ctx : Context} {l : List InstOffsets} {claims : List BlockState}
    {arity d d' : Nat} (h : IsMaxDepth ctx l claims arity d)
    (h' : IsMaxDepth ctx l claims arity d') : d = d' := by
  have hle : ∀ {a b}, IsMaxDepth ctx l claims arity a → IsMaxDepth ctx l claims arity b →
      a ≤ b := by
    intro a b ha hb
    rcases ha.attained with rfl | ⟨bb, seg, s, hseg, hs, rfl⟩
    · exact hb.arity_le
    · exact hb.block_le hseg hs
  exact Nat.le_antisymm (hle h h') (hle h' h)

/-- The states of a function's blocks that a certificate claims. -/
def Certificate.claims (func : Func) (arity : Nat) (cert : Certificate) : List BlockState :=
  entryState func arity :: cert.blocks.map (·.2)

/-- What a certificate has to satisfy. -/
structure Accepts (ctx : Context) (func : Func) (l : List InstOffsets) (arity : Nat)
    (cert : Certificate) : Prop where
  /-- The certificate's blocks are those of the code. -/
  offsets : (starts l).drop 1 = cert.blocks.map (·.1)
  /-- Its states are a fixed point. -/
  fixed : FixedPoint ctx func l (cert.claims func arity)
  /-- All blocks are reached. -/
  reach : ∀ bb < (segs l).length, Reach l bb
  /-- Its depth is the largest one. -/
  depth : IsMaxDepth ctx l (cert.claims func arity) arity cert.maxOperandDepth

/-! ## Marking the successors of a block -/

/-- A block's offset and state, which checking does not change. -/
def Block.claim (b : Block) : Nat × BlockState := (b.offset, b.state)

/-- The block is marked. -/
def IsMarked (blocks : List Block) (i : Nat) : Prop := ∃ b, blocks[i]? = some b ∧ b.mark = true

/-- The number of blocks that are not marked. -/
def unmarked (blocks : List Block) : Nat := blocks.countP (!·.mark)

theorem checkEdge_eq_ok {sid : Nat} {e : BlockState} {blocks blocks' : List Block}
    {pushed : List Nat} :
    checkEdge sid e blocks = .ok (blocks', pushed) ↔
      ∃ b, blocks[sid]? = some b ∧ e.merge b.state = .ok b.state ∧
        blocks' = blocks.set sid { b with mark := true } ∧
        pushed = if b.mark then [] else [sid] := by
  unfold checkEdge
  simp only [unwrap_eq_ok, bind_eq_ok, mapErr_eq_ok, fail_bind, ite_fail_eq_ok, ne_eq,
    not_not, pure, Except.pure, Except.ok.injEq, Prod.mk.injEq]
  constructor
  · rintro ⟨b, hb, claimed, hmerge, rfl, rfl, rfl⟩
    exact ⟨b, hb, hmerge, rfl, rfl⟩
  · rintro ⟨b, hb, hmerge, rfl, rfl⟩
    exact ⟨b, hb, _, hmerge, rfl, rfl, rfl⟩

theorem claim_set_mark {blocks : List Block} {i : Nat} {b : Block} (h : blocks[i]? = some b)
    (m : Bool) : (blocks.set i { b with mark := m }).map Block.claim = blocks.map Block.claim := by
  rw [List.map_set]
  have hget : (blocks.map Block.claim)[i]? = some b.claim := by simp [h]
  refine List.ext_getElem? fun j => ?_
  rw [List.getElem?_set]
  split
  · rename_i hij
    subst hij
    rw [hget]
    simp [Block.claim, (List.getElem?_eq_some_iff.mp h).1]
  · rfl

theorem isMarked_set {blocks : List Block} {i j : Nat} {b : Block} (h : blocks[i]? = some b) :
    IsMarked (blocks.set i { b with mark := true }) j ↔ IsMarked blocks j ∨ j = i := by
  have hlt := (List.getElem?_eq_some_iff.mp h).1
  unfold IsMarked
  rw [List.getElem?_set]
  by_cases hij : i = j
  · subst hij
    simp [hlt]
  · have hji : j ≠ i := fun h => hij h.symm
    simp [hij, hji]

/-- Marking an unmarked block lowers their number. -/
theorem unmarked_set {blocks : List Block} {i : Nat} {b : Block} (h : blocks[i]? = some b) :
    unmarked (blocks.set i { b with mark := true }) + (if b.mark then 0 else 1) =
      unmarked blocks := by
  have hset := Worklist.countP_set_of_not (p := fun b : Block => !b.mark) h
    (b := { b with mark := true }) rfl
  unfold unmarked
  rw [← hset]
  cases b.mark <;> rfl

/-- What the loop over the successors does while checking: it marks them, and pushes those that
were not marked. -/
structure Marks (succs : List (Nat × BlockState)) (blocks blocks' : List Block)
    (pushed : List Nat) : Prop where
  claims : blocks'.map Block.claim = blocks.map Block.claim
  merges : ∀ p ∈ succs, ∃ t, (blocks.map Block.claim)[p.1]? = some t ∧ p.2.merge t.2 = .ok t.2
  marked : ∀ i, IsMarked blocks' i ↔ IsMarked blocks i ∨ i ∈ succs.map (·.1)
  pushed_mem : ∀ i ∈ pushed, i ∈ succs.map (·.1)
  mem_pushed : ∀ i, IsMarked blocks' i → IsMarked blocks i ∨ i ∈ pushed
  count : unmarked blocks' + pushed.length = unmarked blocks

theorem mergeEdges_marks {succs : List (Nat × BlockState)} :
    ∀ {blocks blocks' : List Block} {pushed : List Nat},
      mergeEdges true succs blocks = .ok (blocks', pushed) →
      Marks succs blocks blocks' pushed := by
  induction succs with
  | nil =>
    intro blocks blocks' pushed h
    cases h
    exact ⟨rfl, by simp, by simp, by simp, fun i => Or.inl, rfl⟩
  | cons p succs ih =>
    obtain ⟨sid, e⟩ := p
    intro blocks blocks' pushed h
    simp only [mergeEdges, if_true, bind_eq_ok, Prod.exists, pure, Except.pure, Except.ok.injEq,
      Prod.mk.injEq] at h
    obtain ⟨mid, pushed1, hcheck, blocks2, pushed2, hrest, rfl, rfl⟩ := h
    obtain ⟨b, hb, hmerge, rfl, rfl⟩ := checkEdge_eq_ok.mp hcheck
    have hih := ih hrest
    have hclaim := claim_set_mark hb true
    have hset := fun j => isMarked_set (j := j) hb
    have hcount := unmarked_set hb
    refine ⟨hih.claims.trans hclaim, ?_, ?_, ?_, ?_, ?_⟩
    · intro q hq
      rcases List.mem_cons.mp hq with rfl | hq
      · exact ⟨b.claim, by simp [hb], hmerge⟩
      · rw [← hclaim]
        exact hih.merges q hq
    · intro i
      rw [hih.marked, hset, List.map_cons, List.mem_cons]
      tauto
    · intro i hi
      rw [List.map_cons, List.mem_cons]
      rcases List.mem_append.mp hi with hi | hi
      · exact .inr (hih.pushed_mem i hi)
      · left
        split at hi
        · cases hi
        · simpa using hi
    · intro i hi
      rcases hih.mem_pushed i hi with hi | hi
      · rcases (hset i).mp hi with hi | rfl
        · exact .inl hi
        · cases hmark : b.mark with
          | true => exact .inl ⟨b, hb, hmark⟩
          | false => exact .inr (by simp)
      · exact .inr (by simp [hi])
    · have := hih.count
      rw [List.length_append]
      split <;> simp_all
      omega

/-- The loop over the successors goes through when every claimed state is unchanged. -/
theorem mergeEdges_check_ok {succs : List (Nat × BlockState)} :
    ∀ {blocks : List Block},
      (∀ p ∈ succs, ∃ t, (blocks.map Block.claim)[p.1]? = some t ∧ p.2.merge t.2 = .ok t.2) →
      ∃ blocks' pushed, mergeEdges true succs blocks = .ok (blocks', pushed) := by
  induction succs with
  | nil => exact fun _ => ⟨_, _, rfl⟩
  | cons p succs ih =>
    obtain ⟨sid, e⟩ := p
    intro blocks h
    obtain ⟨t, ht, hmerge⟩ := h (sid, e) (by simp)
    rw [List.getElem?_map] at ht
    obtain ⟨b, hb, rfl⟩ := Option.map_eq_some_iff.mp ht
    have hcheck : checkEdge sid e blocks =
        .ok (blocks.set sid { b with mark := true }, if b.mark then [] else [sid]) :=
      checkEdge_eq_ok.mpr ⟨b, hb, hmerge, rfl, rfl⟩
    have hclaims : ∀ q ∈ succs, ∃ t, ((blocks.set sid { b with mark := true }).map
        Block.claim)[q.1]? = some t ∧ q.2.merge t.2 = .ok t.2 := by
      intro q hq
      rw [claim_set_mark hb]
      exact h q (by simp [hq])
    obtain ⟨blocks', pushed, hrest⟩ := ih hclaims
    refine ⟨blocks', pushed ++ if b.mark then [] else [sid], ?_⟩
    rw [mergeEdges]
    simp only [if_true, hcheck, ok_bind, hrest]
    rfl

/-! ## The loop -/

section

variable {ctx : Context} {func : Func} {bytecode : List UInt8} {l : List InstOffsets}

/-- A block that has been visited: it ran, its edges left the claimed states alone and marked their
blocks, and its depth is accounted for. -/
structure Done (ctx : Context) (func : Func) (l : List InstOffsets) (claims : List BlockState)
    (flow : Flow) (bb : Nat) (seg : List InstOffsets) (s : BlockState) : Prop where
  runs : BlockRuns ctx func (starts l) bb seg s
  merges : ∀ p ∈ blockEdges ctx (starts l) bb seg s,
    ∃ t, claims[p.1]? = some t ∧ p.2.merge t = .ok t
  marked : ∀ p ∈ blockEdges ctx (starts l) bb seg s, IsMarked flow.blocks p.1
  depth_le : blockDepth ctx (starts l) bb seg s ≤ flow.maxOperandDepth

/-- The invariant of the data flow loop while checking. -/
structure CheckInv (ctx : Context) (func : Func) (l : List InstOffsets) (claims : List BlockState)
    (arity : Nat) (flow : Flow) (queue : List Nat) : Prop where
  /-- The blocks keep their offsets and states. -/
  claim : flow.blocks.map Block.claim = (starts l).zip claims
  /-- What is queued is marked. -/
  queued : ∀ i ∈ queue, IsMarked flow.blocks i
  /-- What is marked is queued or done. -/
  done : ∀ {i seg s}, IsMarked flow.blocks i → (segs l)[i]? = some seg → claims[i]? = some s →
    i ∈ queue ∨ Done ctx func l claims flow i seg s
  /-- What is marked is reached. -/
  reach : ∀ i, IsMarked flow.blocks i → Reach l i
  /-- The first block is marked. -/
  entry : IsMarked flow.blocks 0
  arity_le : arity ≤ flow.maxOperandDepth
  attained : flow.maxOperandDepth = arity ∨ ∃ bb seg s, (segs l)[bb]? = some seg ∧
    claims[bb]? = some s ∧ flow.maxOperandDepth = blockDepth ctx (starts l) bb seg s

variable {claims : List BlockState} {arity : Nat}

theorem CheckInv.starts_eq {flow : Flow} {queue : List Nat}
    (h : CheckInv ctx func l claims arity flow queue) (hlen : claims.length = (segs l).length) :
    flow.blocks.map (·.offset) = starts l := by
  have hfst := congrArg (List.map Prod.fst) h.claim
  rw [List.map_map, List.map_fst_zip (by simp [hlen])] at hfst
  exact hfst

theorem CheckInv.claims_eq {flow : Flow} {queue : List Nat}
    (h : CheckInv ctx func l claims arity flow queue) (hlen : claims.length = (segs l).length) :
    flow.blocks.map (·.state) = claims := by
  have hsnd := congrArg (List.map Prod.snd) h.claim
  rw [List.map_map, List.map_snd_zip (by simp [hlen])] at hsnd
  exact hsnd

/-- A block's state by its index. -/
theorem CheckInv.state_eq {flow : Flow} {queue : List Nat}
    (h : CheckInv ctx func l claims arity flow queue) (hlen : claims.length = (segs l).length)
    {i : Nat} {b : Block} (hb : flow.blocks[i]? = some b) : claims[i]? = some b.state := by
  rw [← h.claims_eq hlen, List.getElem?_map, hb]
  rfl

/-- What a visit does while checking, from what the flow function and the merges do. -/
theorem visit_check_eq_ok {bb : Nat} {flow flow' : Flow} {pushed : List Nat} :
    visit ctx func bytecode true bb flow = .ok (flow', pushed) ↔
      ∃ b succs depth blocks, flow.blocks[bb]? = some b ∧
        flowBlock ctx func bytecode (flow.blocks.map (·.offset)) bb b.state
          flow.maxOperandDepth = .ok (succs, depth) ∧
        mergeEdges true succs flow.blocks = .ok (blocks, pushed) ∧ flow' = ⟨blocks, depth⟩ := by
  unfold visit
  simp only [unwrap_eq_ok, bind_eq_ok, if_true, Prod.exists, pure, Except.pure, Except.ok.injEq,
    Prod.mk.injEq]
  constructor
  · rintro ⟨b, hb, succs, depth, hflow, blocks, pushed', hmerge, rfl, rfl⟩
    exact ⟨b, succs, depth, blocks, hb, hflow, hmerge, rfl⟩
  · rintro ⟨b, succs, depth, blocks, hb, hflow, hmerge, rfl⟩
    exact ⟨b, hb, succs, depth, hflow, blocks, pushed, hmerge, rfl, rfl⟩

/-- The successors of a block are those of its edges. -/
theorem mem_blockEdges {starts : List Nat} {bb sid : Nat} {seg : List InstOffsets}
    {s : BlockState} :
    sid ∈ (blockEdges ctx starts bb seg s).map (·.1) ↔
      ∃ p ∈ succIds starts bb (lastOf seg), p.1 = sid := by
  simp [blockEdges]

/-- What a visit does while checking: the block runs, and its successors are marked. -/
theorem CheckInv.visit_cases (hdec : Decoded ctx func bytecode l)
    (hlen : claims.length = (segs l).length) {bb : Nat} {flow flow' : Flow}
    {queue pushed : List Nat} (h : CheckInv ctx func l claims arity flow queue)
    (hvisit : visit ctx func bytecode true bb flow = .ok (flow', pushed)) :
    ∃ b seg, flow.blocks[bb]? = some b ∧ (segs l)[bb]? = some seg ∧ claims[bb]? = some b.state ∧
      BlockRuns ctx func (starts l) bb seg b.state ∧
      Marks (blockEdges ctx (starts l) bb seg b.state) flow.blocks flow'.blocks pushed ∧
      flow'.maxOperandDepth =
        max flow.maxOperandDepth (blockDepth ctx (starts l) bb seg b.state) := by
  obtain ⟨b, succs, depth, blocks, hb, hflow, hmerge, rfl⟩ := visit_check_eq_ok.mp hvisit
  have hs := h.state_eq hlen hb
  have hlt : bb < (segs l).length := hlen ▸ (List.getElem?_eq_some_iff.mp hs).1
  obtain ⟨seg, hseg⟩ : ∃ seg, (segs l)[bb]? = some seg := ⟨_, List.getElem?_eq_getElem hlt⟩
  rw [h.starts_eq hlen] at hflow
  obtain ⟨hruns, rfl, rfl⟩ := (flowBlock_eq_ok hdec hseg).mp hflow
  exact ⟨b, seg, hb, hseg, hs, hruns, mergeEdges_marks hmerge, rfl⟩

/-- The loop body keeps the invariant. -/
theorem CheckInv.visit (hdec : Decoded ctx func bytecode l)
    (hlen : claims.length = (segs l).length) {bb : Nat} {flow flow' : Flow}
    {queue pushed : List Nat} (h : CheckInv ctx func l claims arity flow (bb :: queue))
    (hvisit : visit ctx func bytecode true bb flow = .ok (flow', pushed)) :
    CheckInv ctx func l claims arity flow' (pushed ++ queue) ∧
      unmarked flow'.blocks + pushed.length = unmarked flow.blocks := by
  obtain ⟨b, seg, hb, hseg, hs, hruns, hmarks, hdepth⟩ := h.visit_cases hdec hlen hvisit
  obtain ⟨blocks, depth⟩ := flow'
  simp only at hmarks hdepth
  subst hdepth
  have hclaim : blocks.map Block.claim = (starts l).zip claims := hmarks.claims.trans h.claim
  have hbb := h.reach bb (h.queued bb (by simp))
  -- The visited block is done: its edges have been merged and marked.
  have hdone : Done ctx func l claims
      ⟨blocks, max flow.maxOperandDepth (blockDepth ctx (starts l) bb seg b.state)⟩ bb seg
      b.state := by
    refine ⟨hruns, ?_, ?_, Nat.le_max_right _ _⟩
    · intro p hp
      obtain ⟨t, ht, hm⟩ := hmarks.merges p hp
      refine ⟨t.2, ?_, hm⟩
      rw [h.claim] at ht
      exact (List.getElem?_zip_eq_some.mp ht).2
    · intro p hp
      exact (hmarks.marked p.1).mpr (.inr (List.mem_map_of_mem hp))
  refine ⟨⟨hclaim, ?_, ?_, ?_, (hmarks.marked 0).mpr (.inl h.entry),
    h.arity_le.trans (Nat.le_max_left _ _), ?_⟩, hmarks.count⟩
  · intro i hi
    rcases List.mem_append.mp hi with hi | hi
    · exact (hmarks.marked i).mpr (.inr (hmarks.pushed_mem i hi))
    · exact (hmarks.marked i).mpr (.inl (h.queued i (by simp [hi])))
  · intro i seg' s' hi hseg' hs'
    rcases hmarks.mem_pushed i hi with hi | hi
    · rcases h.done hi hseg' hs' with hq | hold
      · rcases List.mem_cons.mp hq with rfl | hq
        · rw [hseg] at hseg'
          rw [hs] at hs'
          cases hseg'
          cases hs'
          exact .inr hdone
        · exact .inl (by simp [hq])
      · refine .inr ⟨hold.runs, hold.merges, ?_, hold.depth_le.trans (Nat.le_max_left _ _)⟩
        exact fun p hp => (hmarks.marked p.1).mpr (.inl (hold.marked p hp))
    · exact .inl (by simp [hi])
  · intro i hi
    rcases (hmarks.marked i).mp hi with hi | hi
    · exact h.reach i hi
    · obtain ⟨p, hp, rfl⟩ := mem_blockEdges.mp hi
      exact Reach.edge hbb hseg hp
  · rcases Nat.le_total flow.maxOperandDepth (blockDepth ctx (starts l) bb seg b.state) with
      hle | hle
    · exact .inr ⟨bb, seg, b.state, hseg, hs, Nat.max_eq_right hle⟩
    · simp only [Nat.max_eq_left hle]
      exact h.attained

/-- The blocks that checking starts from. -/
theorem checkInv_init {bytecode : List UInt8} {cert : Certificate} (hchain : Chain bytecode 0 l)
    (hl : l ≠ []) (hoffsets : (starts l).drop 1 = cert.blocks.map (·.1)) (b : Block)
    (hb : b.offset = 0) :
    CheckInv ctx func l (cert.claims func arity) arity
      ⟨{ b with state := entryState func arity, mark := true } ::
        cert.blocks.map (fun (offset, state) => ⟨offset, false, state⟩), arity⟩ [0] := by
  have hstarts : starts l = 0 :: cert.blocks.map (·.1) := by
    obtain ⟨i, l', rfl⟩ := List.exists_cons_of_ne_nil hl
    have hzero : i.before = 0 := hchain.1
    rw [← hoffsets]
    simp [starts, offsetsOf, leaders, hzero]
  have hmark : ∀ i, IsMarked ({ b with state := entryState func arity, mark := true } ::
      cert.blocks.map (fun (offset, state) => ⟨offset, false, state⟩)) i → i = 0 := by
    rintro i ⟨c, hc, hm⟩
    cases i with
    | zero => rfl
    | succ i =>
      simp only [List.getElem?_cons_succ, List.getElem?_map, Option.map_eq_some_iff] at hc
      obtain ⟨q, -, rfl⟩ := hc
      cases hm
  refine ⟨?_, ?_, ?_, ?_, ⟨_, rfl, rfl⟩, le_refl _, .inl rfl⟩
  · rw [hstarts, Certificate.claims, List.zip_cons_cons, List.map_cons, List.map_map]
    refine congrArg₂ _ (by simp [Block.claim, hb]) ?_
    rw [List.zip_map', List.map_congr_left]
    intro p _
    rfl
  · intro i hi
    obtain rfl : i = 0 := by simpa using hi
    exact ⟨_, rfl, rfl⟩
  · intro i seg s hi _ _
    exact .inl (by simp [hmark i hi])
  · intro i hi
    rw [hmark i hi]
    exact Reach.entry

end

/-- The claims of a certificate whose offsets fit are one for each block. -/
theorem claims_length {l : List InstOffsets} {cert : Certificate} (func : Func) (arity : Nat)
    (hl : l ≠ []) (hoffsets : (starts l).drop 1 = cert.blocks.map (·.1)) :
    (cert.claims func arity).length = (segs l).length := by
  have hlength := congrArg List.length hoffsets
  have hne : 0 < (segs l).length := by
    rw [List.length_pos_iff]
    intro hnil
    have hflat := segs_flatten l
    rw [hnil] at hflat
    exact hl hflat.symm
  simp only [List.length_drop, starts_length, List.length_map] at hlength
  simp only [Certificate.claims, List.length_cons, List.length_map]
  omega

/-- `check` accepts the certificate. -/
def Accepted (ctx : Context) (func : Func) (cert : Certificate) : Prop :=
  ∃ fuel uses, FuncVerifier.check ctx func cert fuel = .ok uses

/-- The passes over the code that come before the data flow have succeeded. -/
theorem check_first_passes {ctx : Context} {func : Func} {cert : Certificate} {fuel : Nat}
    {uses : List Nat} (h : FuncVerifier.check ctx func cert fuel = .ok uses) :
    ∃ info bytecode offsets, syntaxPass ctx func = .ok info ∧
      func.bytecode.slice ctx.code = some bytecode ∧
      markTargets (insts bytecode 0) info.offsets = .ok offsets := by
  unfold FuncVerifier.check basicBlocks at h
  simp only [bind_eq_ok, unwrap_eq_ok] at h
  obtain ⟨info, hpass, blocks, ⟨bytecode, hslice, offsets, hmark, -⟩, -⟩ := h
  exact ⟨info, bytecode, offsets, hpass, hslice, hmark⟩

/-- What `check` runs, after the passes that it shares with `compute`. -/
theorem check_passes {ctx : Context} {func : Func} {cert : Certificate} {fuel : Nat}
    {uses : List Nat} (h : FuncVerifier.check ctx func cert fuel = .ok uses) :
    ∃ bytecode l arity flow, Decoded ctx func bytecode l ∧ l ≠ [] ∧
      uses = l.flatMap (·.inst.uses) ∧ ctx.unpackArity func.sig = .ok (some arity) ∧
      (starts l).drop 1 = cert.blocks.map (·.1) ∧
      Worklist.run (visit ctx func bytecode true) fuel
        ⟨⟨0, true, entryState func arity⟩ ::
          cert.blocks.map (fun (offset, state) => ⟨offset, false, state⟩), arity⟩ [0] = .ok flow ∧
      flow.blocks.find? (!·.mark) = none ∧ cert.maxOperandDepth = flow.maxOperandDepth := by
  unfold FuncVerifier.check at h
  simp only [bind_eq_ok, fail_bind, ite_fail_eq_ok, ne_eq, not_not, pure, Except.pure,
    Except.ok.injEq] at h
  obtain ⟨info, hpass, blocks, hblocks, flow, hflow, hdepth, rfl⟩ := h
  unfold basicBlocks at hblocks
  simp only [bind_eq_ok, unwrap_eq_ok, checkedSub_eq_some, fail_bind, ite_fail_eq_ok, pure,
    Except.pure, Except.ok.injEq, not_or, ne_eq, not_not] at hblocks
  obtain ⟨bytecode, hslice, offsets, hmark, count, ⟨hpos, rfl⟩, ⟨-, hoffsets⟩, rfl⟩ := hblocks
  obtain ⟨l, hdec, hleaders, huses⟩ := decoded_of_passes hpass hslice hmark
  rw [hleaders] at hpos hoffsets
  unfold dataflow at hflow
  simp only [hslice, unwrap, ok_bind, List.head?_cons, bind_eq_ok, arityUnwrap_eq_ok,
    List.set_cons_zero, if_true] at hflow
  obtain ⟨arity, harity, flow', hrun, hfind⟩ := hflow
  split at hfind
  · cases hfind
  · rename_i hnone
    cases hfind
    refine ⟨bytecode, l, arity, flow, hdec, ?_, huses, harity, hoffsets, hrun, hnone, hdepth⟩
    rintro rfl
    simp [starts, offsetsOf, leaders] at hpos

/-- An accepted certificate is a fixed point that reaches all blocks, with the largest depth. -/
theorem check_sound {ctx : Context} {func : Func} {cert : Certificate} {fuel : Nat}
    {uses : List Nat} (h : FuncVerifier.check ctx func cert fuel = .ok uses) :
    ∃ bytecode l arity, Decoded ctx func bytecode l ∧ l ≠ [] ∧ uses = l.flatMap (·.inst.uses) ∧
      ctx.unpackArity func.sig = .ok (some arity) ∧ Accepts ctx func l arity cert := by
  obtain ⟨bytecode, l, arity, flow, hdec, hl, huses, harity, hoffsets, hrun, hall, hdepth⟩ :=
    check_passes h
  have hlen := claims_length func arity hl hoffsets
  have hinv := Worklist.run_invariant (CheckInv ctx func l (cert.claims func arity) arity)
    (fun bb s queue s' pushed hs hv => (hs.visit hdec hlen hv).1)
    (checkInv_init hdec.chain hl hoffsets ⟨0, true, entryState func arity⟩ rfl) hrun
  -- Nothing is queued any more and every block is marked, so every block is done.
  have hmarked : ∀ bb < (segs l).length, IsMarked flow.blocks bb := by
    intro bb hbb
    have hlt : bb < flow.blocks.length := by
      have hlength := congrArg List.length (hinv.claims_eq hlen)
      rw [List.length_map] at hlength
      omega
    refine ⟨flow.blocks[bb], List.getElem?_eq_getElem hlt, ?_⟩
    have hnot := List.find?_eq_none.mp hall flow.blocks[bb] (List.getElem_mem hlt)
    simpa using hnot
  have hdone : ∀ {bb seg s}, (segs l)[bb]? = some seg → (cert.claims func arity)[bb]? = some s →
      Done ctx func l (cert.claims func arity) flow bb seg s := by
    intro bb seg s hseg hs
    rcases hinv.done (hmarked bb (List.getElem?_eq_some_iff.mp hseg).1) hseg hs with hq | hdone
    · cases hq
    · exact hdone
  refine ⟨bytecode, l, arity, hdec, hl, huses, harity, ?_⟩
  refine ⟨hoffsets, ⟨hlen, fun hseg hs => (hdone hseg hs).runs, ?_⟩, ?_, ?_⟩
  · intro bb seg s hseg hs p hp
    obtain ⟨t, ht, hmerge⟩ := (hdone hseg hs).merges p hp
    exact ⟨t, ht, absorbs_of_merge hmerge⟩
  · exact fun bb hbb => hinv.reach bb (hmarked bb hbb)
  · rw [hdepth]
    exact ⟨hinv.arity_le, fun hseg hs => (hdone hseg hs).depth_le, hinv.attained⟩

/-- A certificate that is a fixed point, reaches all blocks and has the largest depth is accepted,
where that depth is not the mark of the neutral state. -/
theorem check_complete {ctx : Context} {func : Func} {cert : Certificate} {info : SyntaxInfo}
    {bytecode : List UInt8} {offsets : List OffsetInfo} {l : List InstOffsets} {arity fuel : Nat}
    (hpass : syntaxPass ctx func = .ok info)
    (hslice : func.bytecode.slice ctx.code = some bytecode)
    (hmark : markTargets (insts bytecode 0) info.offsets = .ok offsets)
    (hdec : Decoded ctx func bytecode l) (hleaders : leaders offsets = starts l) (hl : l ≠ [])
    (harity : ctx.unpackArity func.sig = .ok (some arity))
    (hacc : Accepts ctx func l arity cert) (hmax : cert.maxOperandDepth < usizeMax)
    (hfuel : cert.blocks.length + 1 ≤ fuel) :
    FuncVerifier.check ctx func cert fuel = .ok info.uses := by
  obtain ⟨hoffsets, hfixed, hreach, hdepth⟩ := hacc
  have hlen := hfixed.length
  -- Every visit goes through, as the claimed states absorb the edges.
  have hstep : ∀ bb flow queue, CheckInv ctx func l (cert.claims func arity) arity flow
      (bb :: queue) → ∃ flow' pushed, visit ctx func bytecode true bb flow = .ok (flow', pushed) ∧
        CheckInv ctx func l (cert.claims func arity) arity flow' (pushed ++ queue) ∧
        unmarked flow'.blocks + pushed.length ≤ unmarked flow.blocks := by
    intro bb flow queue h
    obtain ⟨b, hb, -⟩ := h.queued bb (by simp)
    have hs := h.state_eq hlen hb
    have hlt : bb < (segs l).length := hlen ▸ (List.getElem?_eq_some_iff.mp hs).1
    obtain ⟨seg, hseg⟩ : ∃ seg, (segs l)[bb]? = some seg := ⟨_, List.getElem?_eq_getElem hlt⟩
    have hflow : flowBlock ctx func bytecode (starts l) bb b.state flow.maxOperandDepth =
        .ok (_, _) := (flowBlock_eq_ok hdec hseg).mpr ⟨hfixed.runs hseg hs, rfl, rfl⟩
    have hmerges : ∀ p ∈ blockEdges ctx (starts l) bb seg b.state,
        ∃ t, (flow.blocks.map Block.claim)[p.1]? = some t ∧ p.2.merge t.2 = .ok t.2 := by
      intro p hp
      obtain ⟨t, ht, habs⟩ := hfixed.absorbs hseg hs p hp
      have hle := edge_le_edgeDepth (runDepth ctx seg b.state.operands) hp
      have hle' := hdepth.block_le hseg hs
      have hneutral : t.operands ≠ usizeMax := by
        rw [← habs.1.1]
        unfold blockDepth at hle'
        omega
      have hlt' : p.1 < (starts l).length := by
        rw [starts_length, ← hlen]
        exact (List.getElem?_eq_some_iff.mp ht).1
      refine ⟨((starts l)[p.1], t), ?_, merge_of_absorbs habs hneutral⟩
      rw [h.claim]
      exact List.getElem?_zip_eq_some.mpr ⟨List.getElem?_eq_getElem hlt', ht⟩
    obtain ⟨blocks, pushed, hmerge⟩ := mergeEdges_check_ok hmerges
    have hvisit : visit ctx func bytecode true bb flow = .ok (⟨blocks, _⟩, pushed) :=
      visit_check_eq_ok.mpr ⟨b, _, _, blocks, hb, by rw [h.starts_eq hlen]; exact hflow, hmerge,
        rfl⟩
    obtain ⟨hinv, hcount⟩ := h.visit hdec hlen hvisit
    exact ⟨_, pushed, hvisit, hinv, hcount.le⟩
  have hunmarked : unmarked (⟨0, true, entryState func arity⟩ ::
      cert.blocks.map (fun (offset, state) => ⟨offset, false, state⟩)) ≤ cert.blocks.length := by
    unfold unmarked
    rw [List.countP_cons]
    simpa using List.countP_le_length (l := cert.blocks.map fun (offset, state) =>
      (⟨offset, false, state⟩ : Block)) (p := (!·.mark))
  obtain ⟨flow, hrun, hinv⟩ := Worklist.run_ok
    (CheckInv ctx func l (cert.claims func arity) arity) (fun flow => unmarked flow.blocks) hstep
    (checkInv_init hdec.chain hl hoffsets ⟨0, true, entryState func arity⟩ rfl)
    ((Nat.add_le_add_right hunmarked 1).trans hfuel)
  -- Every block is reached, and what is reached is marked.
  have hmarked : ∀ bb, Reach l bb → IsMarked flow.blocks bb := by
    intro bb hbb
    induction hbb with
    | entry => exact hinv.entry
    | @edge bb seg p _ hseg hp ih =>
      obtain ⟨b, hb, hm⟩ := ih
      rcases hinv.done ⟨b, hb, hm⟩ hseg (hinv.state_eq hlen hb) with hq | hdone
      · cases hq
      · exact hdone.marked (p.1, _) (List.mem_map.mpr ⟨p, hp, rfl⟩)
  have hlength : flow.blocks.length = (segs l).length := by
    have h := congrArg List.length (hinv.claims_eq hlen)
    rw [List.length_map] at h
    omega
  have hall : flow.blocks.find? (!·.mark) = none := by
    rw [List.find?_eq_none]
    intro b hb
    obtain ⟨bb, hlt, rfl⟩ := List.getElem_of_mem hb
    obtain ⟨b', hb', hm⟩ := hmarked bb (hreach bb (by omega))
    rw [List.getElem?_eq_getElem hlt] at hb'
    cases hb'
    simp [hm]
  have hflowDepth : IsMaxDepth ctx l (cert.claims func arity) arity flow.maxOperandDepth := by
    refine ⟨hinv.arity_le, ?_, hinv.attained⟩
    intro bb seg s hseg hs
    have hbb := hmarked bb (hreach bb (List.getElem?_eq_some_iff.mp hseg).1)
    rcases hinv.done hbb hseg hs with hq | hdone
    · cases hq
    · exact hdone.depth_le
  have hblocks : basicBlocks ctx func info.offsets (some cert) =
      .ok (⟨0, false, .neutral⟩ :: cert.blocks.map
        fun (offset, state) => ⟨offset, false, state⟩) := by
    have hpos : 1 ≤ (starts l).length := by
      rw [starts_length, ← hlen]
      simp [Certificate.claims]
    have hcount : cert.blocks.length = (starts l).length - 1 := by
      simpa using (congrArg List.length hoffsets).symm
    unfold basicBlocks
    simp only [bind_eq_ok, unwrap_eq_ok, checkedSub_eq_some, fail_bind, ite_fail_eq_ok, pure,
      Except.pure, not_or, ne_eq, not_not]
    exact ⟨bytecode, hslice, offsets, hmark, _, ⟨by rw [hleaders]; exact hpos, rfl⟩,
      ⟨by rw [hleaders]; exact hcount, by rw [hleaders]; exact hoffsets⟩, trivial⟩
  have hdataflow : dataflow ctx func true (⟨0, false, .neutral⟩ :: cert.blocks.map
      fun (offset, state) => ⟨offset, false, state⟩) fuel = .ok flow := by
    unfold dataflow
    simp only [hslice, unwrap, ok_bind, List.head?_cons, bind_eq_ok, arityUnwrap_eq_ok,
      List.set_cons_zero, if_true]
    refine ⟨arity, harity, flow, hrun, ?_⟩
    rw [hall]
    rfl
  unfold FuncVerifier.check
  simp only [hpass, hblocks, hdataflow, ok_bind]
  rw [if_neg (by simpa using hdepth.unique hflowDepth)]
  rfl

end Dolang.Bytecode
