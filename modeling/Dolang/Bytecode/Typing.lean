import Dolang.Bytecode.Check

/-!
# The state before every instruction

A certificate states what holds at the start of each block. Running a block's instructions from
there gives the state before each of them (`At`). Along every edge between two instructions the
state after the first one is absorbed by the state before the second one (`At.edge`), every
instruction succeeds from its state (`At.step`), and no depth on the way exceeds that of the
certificate (`At.depth_le`). Together these carry an invariant of a run from one instruction to the
next without going back to blocks.
-/

namespace Dolang.Bytecode

open Dolang.Rust

/-! ## Edges between instructions -/

/-- Control passes from one instruction to another, by falling through or by a taken branch. -/
inductive Edge (l : List InstOffsets) : InstOffsets → Bool → InstOffsets → Prop where
  | fall {i j : InstOffsets} : i ∈ l → j ∈ l → i.inst.stops = false → j.before = i.after →
      Edge l i false j
  | branch {i j : InstOffsets} : i ∈ l → j ∈ l → i.target = some j.before → Edge l i true j

/-- An instruction is determined by its offset. -/
theorem Chain.eq_of_before {code : List UInt8} {pos : Nat} {l : List InstOffsets}
    (h : Chain code pos l) {i j : InstOffsets} (hi : i ∈ l) (hj : j ∈ l)
    (heq : i.before = j.before) : i = j := by
  have hnext := h.next hi
  rw [heq, h.next hj] at hnext
  obtain ⟨bi, ii, ai⟩ := i
  obtain ⟨bj, ij, aj⟩ := j
  cases hnext
  cases heq
  rfl

/-- An instruction starts where the one before it ends. -/
theorem Chain.before_eq_after {code : List UInt8} {pos : Nat} {a b : List InstOffsets}
    {i j : InstOffsets} (h : Chain code pos (a ++ i :: j :: b)) : j.before = i.after := by
  obtain ⟨mid, hmid, -⟩ := h.append
  exact hmid.2.2.1

/-- The last instruction of a list that is not empty. -/
theorem lastInst_append (d : Inst) (a : List InstOffsets) (i : InstOffsets) :
    lastInst d (a ++ [i]) = i.inst := by
  induction a generalizing d with
  | nil => rfl
  | cons j a ih => exact ih j.inst

theorem Inst.stops_of_mayEnd {inst : Inst} (h : inst.mayEnd = true) : inst.stops = true := by
  cases inst <;> first | rfl | cases h

/-- Branches end blocks. -/
theorem Inst.endsBlock_of_branchTarget {inst : Inst} (h : inst.branchTarget.isSome) :
    inst.endsBlock = true := by
  cases inst <;> first | rfl | cases h

section

variable {ctx : Context} {func : Func} {bytecode : List UInt8} {l : List InstOffsets}

/-- An instruction that does not stop is followed by another one. -/
theorem Decoded.falls (hdec : Decoded ctx func bytecode l) {a b : List InstOffsets}
    {i : InstOffsets} (hl : l = a ++ i :: b) (hstops : i.inst.stops = false) :
    ∃ j b', b = j :: b' ∧ j.before = i.after := by
  subst hl
  cases b with
  | nil =>
    have hlast := hdec.last
    rw [lastInst_append] at hlast
    rw [Inst.stops_of_mayEnd hlast] at hstops
    cases hstops
  | cons j b => exact ⟨j, b, rfl, hdec.chain.before_eq_after⟩

/-- Every instruction is in some block. -/
theorem exists_seg {i : InstOffsets} (hi : i ∈ l) :
    ∃ (bb : Nat) (a b : List InstOffsets), (segs l)[bb]? = some (a ++ i :: b) := by
  rw [← segs_flatten l] at hi
  obtain ⟨seg, hseg, hi⟩ := List.mem_flatten.mp hi
  obtain ⟨bb, hbb⟩ := List.mem_iff_getElem?.mp hseg
  obtain ⟨a, b, rfl⟩ := List.append_of_mem hi
  exact ⟨bb, a, b, hbb⟩

/-- The instructions before a block, those of the block and those after it. -/
theorem split_at_seg {bb : Nat} {seg : List InstOffsets} (hseg : (segs l)[bb]? = some seg) :
    l = ((segs l).take bb).flatten ++ (seg ++ ((segs l).drop (bb + 1)).flatten) := by
  obtain ⟨hlt, hget⟩ := List.getElem?_eq_some_iff.mp hseg
  conv_lhs => rw [← segs_flatten l, ← List.take_append_drop bb (segs l),
    List.drop_eq_getElem_cons hlt, hget]
  rw [List.flatten_append, List.flatten_cons]

/-- The instruction after one in the middle of a block. -/
theorem Decoded.fall_inside (hdec : Decoded ctx func bytecode l) {bb : Nat}
    {a b : List InstOffsets} {i j j' : InstOffsets}
    (hseg : (segs l)[bb]? = some (a ++ i :: j' :: b)) (hj : j ∈ l) (heq : j.before = i.after) :
    j = j' := by
  have hmem : j' ∈ l := mem_of_mem_segs (List.mem_of_getElem? hseg) (by simp)
  have hchain := hdec.chain
  rw [split_at_seg hseg] at hchain
  obtain ⟨mid, hmid, -⟩ := hchain.append
  rw [List.append_assoc] at hmid
  exact hdec.chain.eq_of_before hj hmem (heq.trans hmid.before_eq_after.symm)

/-- The instruction after the last one of a block starts the next block. -/
theorem Decoded.fall_outside (hdec : Decoded ctx func bytecode l) {bb : Nat}
    {a : List InstOffsets} {i j : InstOffsets} (hseg : (segs l)[bb]? = some (a ++ [i]))
    (hj : j ∈ l) (hstops : i.inst.stops = false) (heq : j.before = i.after) :
    ∃ b, (segs l)[bb + 1]? = some (j :: b) := by
  have hsplit := split_at_seg hseg
  rw [List.append_assoc, ← List.append_assoc] at hsplit
  obtain ⟨j', b', hrest, hj'⟩ := hdec.falls hsplit hstops
  cases hnext : (segs l)[bb + 1]? with
  | none =>
    rw [List.drop_eq_nil_iff.mpr (List.getElem?_eq_none_iff.mp hnext)] at hrest
    cases hrest
  | some seg =>
    obtain ⟨x, b, rfl⟩ := List.exists_cons_of_ne_nil (segs_ne_nil (List.mem_of_getElem? hnext))
    obtain ⟨hlt, hget⟩ := List.getElem?_eq_some_iff.mp hnext
    rw [List.drop_eq_getElem_cons hlt, hget] at hrest
    cases hrest
    have hx : j' ∈ l := mem_of_mem_segs (List.mem_of_getElem? hnext) (by simp)
    obtain rfl := hdec.chain.eq_of_before hj hx (heq.trans hj'.symm)
    exact ⟨b, rfl⟩

/-- A taken branch leads to the first instruction of a block. -/
theorem Decoded.branch_start (hdec : Decoded ctx func bytecode l) {i j : InstOffsets} (hi : i ∈ l)
    (hj : j ∈ l) (htarget : i.target = some j.before) :
    ∃ sid b, branchId (starts l) i = some sid ∧ (segs l)[sid]? = some (j :: b) := by
  obtain ⟨sid, hsid⟩ := hdec.branch_block hi htarget
  have hstart : (starts l)[sid]? = some j.before := by
    obtain ⟨hlt, heq, -⟩ := List.idxOf?_eq_some_iff.mp hsid
    rw [List.getElem?_eq_getElem hlt, heq]
  have hlt : sid < (segs l).length := by
    rw [← starts_length]
    exact (List.getElem?_eq_some_iff.mp hstart).1
  have hseg := List.getElem?_eq_getElem hlt
  obtain ⟨x, b, hx⟩ := List.exists_cons_of_ne_nil (segs_ne_nil (List.mem_of_getElem? hseg))
  rw [hx] at hseg
  have hmem : x ∈ l := mem_of_mem_segs (List.mem_of_getElem? hseg) (by simp)
  have hbefore := starts_getElem? l hseg
  rw [hstart] at hbefore
  obtain rfl := hdec.chain.eq_of_before hj hmem (Option.some.inj hbefore)
  exact ⟨sid, b, by simp [branchId, htarget, hsid], hseg⟩

/-- A branch is the last instruction of its block. -/
theorem seg_of_branch {bb : Nat} {a b : List InstOffsets} {i : InstOffsets}
    (hseg : (segs l)[bb]? = some (a ++ i :: b)) (hends : i.inst.endsBlock = true) : b = [] := by
  cases b with
  | nil => rfl
  | cons j b =>
    have hi : i ∈ (a ++ i :: j :: b).dropLast := by
      rw [List.dropLast_append_of_ne_nil (by simp)]
      simp
    rw [segs_endsBlock (List.mem_of_getElem? hseg) hi] at hends
    cases hends

end

/-! ## States -/

/-- The state before an instruction, by the claim for its block. -/
def At (ctx : Context) (l : List InstOffsets) (claims : List BlockState) (i : InstOffsets)
    (s : BlockState) : Prop :=
  ∃ (bb : Nat) (a b : List InstOffsets) (c : BlockState), (segs l)[bb]? = some (a ++ i :: b) ∧
    claims[bb]? = some c ∧ s = runState ctx a c

/-- Where a block claims to know a local, every predecessor's list of locals has an entry for it. -/
def Covered (func : Func) (l : List InstOffsets) (claims : List BlockState) : Prop :=
  ∀ {bb seg s p t}, (segs l)[bb]? = some seg → claims[bb]? = some s →
    p ∈ succIds (starts l) bb (lastOf seg) → claims[p.1]? = some t →
    ∀ i < func.locals, t.locals[i]? = some .value → i < s.locals.length

/-- The claims of a certificate about locals are covered, along every edge of the code. -/
def Certificate.Covers (ctx : Context) (func : Func) (cert : Certificate) : Prop :=
  ∀ bytecode l arity, func.bytecode.slice ctx.code = some bytecode →
    insts bytecode 0 = l.map .ok → ctx.unpackArity func.sig = .ok (some arity) →
    Covered func l (cert.claims func arity)

/-- A certificate with an entry for each local in every block covers its claims. -/
theorem Certificate.covers_of_length {ctx : Context} {func : Func} {cert : Certificate}
    (h : ∀ b ∈ cert.blocks, func.locals ≤ b.2.locals.length) : cert.Covers ctx func := by
  intro bytecode l arity _ _ _ bb seg s p t _ hs _ _ i hi _
  cases bb with
  | zero =>
    cases hs
    simpa [entryState] using hi
  | succ bb =>
    rw [Certificate.claims, List.getElem?_cons_succ, List.getElem?_map] at hs
    obtain ⟨b, hb, rfl⟩ := Option.map_eq_some_iff.mp hs
    exact lt_of_lt_of_le hi (h b (List.mem_of_getElem? hb))

section

variable {ctx : Context} {func : Func} {bytecode : List UInt8} {l : List InstOffsets}
  {claims : List BlockState} {i j : InstOffsets} {s : BlockState}

theorem At.mem (h : At ctx l claims i s) : i ∈ l := by
  obtain ⟨bb, a, b, c, hseg, -⟩ := h
  exact mem_of_mem_segs (List.mem_of_getElem? hseg) (by simp)

/-- The first instruction has the state of the first claim. -/
theorem At.first {b : List InstOffsets} {c : BlockState} {cs : List BlockState}
    (hl : l = i :: b) : At ctx l (c :: cs) i c := by
  have hne : l ≠ [] := by
    rw [hl]
    exact List.cons_ne_nil _ _
  have hpos : 0 < (segs l).length := by
    rw [← starts_length]
    exact List.length_pos_of_ne_nil (starts_ne_nil hne)
  have hseg := List.getElem?_eq_getElem hpos
  obtain ⟨x, b', hx⟩ := List.exists_cons_of_ne_nil (segs_ne_nil (List.mem_of_getElem? hseg))
  rw [hx] at hseg
  have hsplit := split_at_seg hseg
  have hhead := congrArg List.head? hsplit
  rw [hl] at hhead
  cases hhead
  exact ⟨0, [], b', c, hseg, rfl, rfl⟩

/-- Every instruction has a state. -/
theorem FixedPoint.exists_at (h : FixedPoint ctx func l claims) (hi : i ∈ l) :
    ∃ s, At ctx l claims i s := by
  obtain ⟨bb, a, b, hseg⟩ := exists_seg hi
  have hlt := h.length ▸ (List.getElem?_eq_some_iff.mp hseg).1
  exact ⟨_, bb, a, b, _, hseg, List.getElem?_eq_getElem hlt, rfl⟩

/-- Every instruction succeeds from its state. -/
theorem At.step (h : At ctx l claims i s) (hfixed : FixedPoint ctx func l claims) :
    Bytecode.step ctx func s i.inst = .ok (stateAfter ctx i.inst s) := by
  obtain ⟨bb, a, b, c, hseg, hc, rfl⟩ := h
  exact ((Steps.append.mp (hfixed.runs hseg hc).1).2).1

/-- What holds along an edge from an instruction with state `s` to one with state `t`. -/
structure Passes (ctx : Context) (func : Func) (l : List InstOffsets) (claims : List BlockState)
    (i : InstOffsets) (s : BlockState) (taken : Bool) (j : InstOffsets) (t : BlockState) :
    Prop where
  /-- The edge has room for what it pushes. -/
  ready : EdgeReady ctx i.inst taken (stateAfter ctx i.inst s).operands
  state : At ctx l claims j t
  /-- The second state absorbs the state along the edge. -/
  absorbs : Absorbs t (edgeAfter ctx i.inst taken (stateAfter ctx i.inst s))
  /-- The second state claims to know only locals that the first one has an entry for. -/
  covered : Covered func l claims → ∀ n < func.locals, t.locals[n]? = some .value →
    n < s.locals.length
  /-- The depth along the edge does not exceed the largest one. -/
  depth : ∀ {arity d}, IsMaxDepth ctx l claims arity d →
    (edgeAfter ctx i.inst taken (stateAfter ctx i.inst s)).operands ≤ d

/-- An edge out of a block is among the block's successors. -/
theorem passes_of_succ (hfixed : FixedPoint ctx func l claims) {bb sid : Nat}
    {a seg : List InstOffsets} {c : BlockState} {taken : Bool}
    (hseg : (segs l)[bb]? = some (a ++ [i])) (hc : claims[bb]? = some c)
    (hsucc : (sid, taken) ∈ succIds (starts l) bb i) (hsid : (segs l)[sid]? = some (j :: seg)) :
    ∃ t, Passes ctx func l claims i (runState ctx a c) taken j t := by
  have hlast : lastOf (a ++ [i]) = i := by simp [lastOf]
  have hrun : runState ctx (a ++ [i]) c = stateAfter ctx i.inst (runState ctx a c) := by
    rw [runState_append]
    rfl
  rw [← hlast] at hsucc
  have hready := (hfixed.runs hseg hc).2 (sid, taken) hsucc
  have hmem : (sid, edgeAfter ctx (lastOf (a ++ [i])).inst taken (runState ctx (a ++ [i]) c)) ∈
      blockEdges ctx (starts l) bb (a ++ [i]) c := List.mem_map.mpr ⟨(sid, taken), hsucc, rfl⟩
  obtain ⟨t, ht, habs⟩ := hfixed.absorbs hseg hc _ hmem
  rw [hlast, hrun] at hready habs
  refine ⟨t, hready, ⟨sid, [], seg, t, hsid, ht, rfl⟩, habs, fun hcov n hn hv => ?_,
    fun hdepth => ?_⟩
  · rw [runState_length]
    exact hcov hseg hc hsucc ht n hn hv
  · have hle := (edge_le_edgeDepth _ hmem).trans (hdepth.block_le hseg hc)
    rwa [hlast, hrun] at hle

/-- The depth after an instruction does not exceed the largest one. -/
theorem At.depth_le {arity d : Nat} (h : At ctx l claims i s)
    (hdepth : IsMaxDepth ctx l claims arity d) : (stateAfter ctx i.inst s).operands ≤ d := by
  obtain ⟨bb, a, b, c, hseg, hc, rfl⟩ := h
  exact (le_runDepth ctx a b i c).trans
    ((le_edgeDepth _ _).trans (hdepth.block_le hseg hc))

/-- Inside a block the state before the next instruction is the state after this one. -/
theorem passes_inside {bb : Nat} {a b : List InstOffsets} {c : BlockState}
    (hseg : (segs l)[bb]? = some (a ++ i :: j :: b)) (hc : claims[bb]? = some c) :
    ∃ t, Passes ctx func l claims i (runState ctx a c) false j t := by
  have hends : i.inst.endsBlock ≠ true := fun hends => by cases seg_of_branch hseg hends
  have hedge : ∀ s, edgeAfter ctx i.inst false s = s := by
    intro s
    unfold edgeAfter
    split
    · rename_i hinst _
      exact absurd (by rw [hinst]; rfl) hends
    · rfl
  have hready : ∀ n, EdgeReady ctx i.inst false n := by
    intro n
    unfold EdgeReady
    split
    · rename_i hinst _
      exact absurd (by rw [hinst]; rfl) hends
    · trivial
  refine ⟨_, hready _, ⟨bb, a ++ [i], b, c, by simpa using hseg, hc, rfl⟩, ?_,
    fun _ n _ hv => ?_, fun hdepth => ?_⟩
  · rw [hedge, runState_append]
    exact ⟨SameCore.refl _, fun n hv => by rw [runState, runState] at hv; simp [hv]⟩
  · have hlt := (List.getElem?_eq_some_iff.mp hv).1
    rw [runState_length] at hlt ⊢
    exact hlt
  · rw [hedge]
    exact At.depth_le ⟨bb, a, j :: b, c, hseg, hc, rfl⟩ hdepth

/-- The state of an instruction passes along its edges. -/
theorem At.edge (h : At ctx l claims i s) (hdec : Decoded ctx func bytecode l)
    (hfixed : FixedPoint ctx func l claims) {taken : Bool} (hedge : Edge l i taken j) :
    ∃ t, Passes ctx func l claims i s taken j t := by
  obtain ⟨bb, a, b, c, hseg, hc, rfl⟩ := h
  cases hedge with
  | fall hi hj hstops heq =>
    cases b with
    | cons j' b =>
      obtain rfl := hdec.fall_inside hseg hj heq
      exact passes_inside hseg hc
    | nil =>
      obtain ⟨seg, hnext⟩ := hdec.fall_outside hseg hj hstops heq
      have hne := Nat.ne_of_lt (List.getElem?_eq_some_iff.mp hnext).1
      exact passes_of_succ hfixed hseg hc (by simp [succIds, nextBlock, hstops, hne]) hnext
  | branch hi hj htarget =>
    have hsome : i.inst.branchTarget.isSome := by
      unfold InstOffsets.target at htarget
      obtain ⟨d, hd, -⟩ := Option.bind_eq_some_iff.mp htarget
      simp [hd]
    obtain rfl := seg_of_branch hseg (Inst.endsBlock_of_branchTarget hsome)
    obtain ⟨sid, seg, hid, hsid⟩ := hdec.branch_start hi hj htarget
    exact passes_of_succ hfixed hseg hc (by simp [succIds, hid]) hsid

end

end Dolang.Bytecode
