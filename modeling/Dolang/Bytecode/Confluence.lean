import Dolang.Bytecode.Agree
import Dolang.Bytecode.Total

/-!
# Any order of the queue

The loop of `dataflow` takes the block that was queued last. It ends, with and without a
certificate, in whatever order queued blocks are taken, and while computing the order decides
neither whether it fails nor what it computes (`dataflow_confluent`).

With a certificate a block is queued once. Without one a merge that queues a block lowers what the
blocks can still lose (`potential`). When the loop has ended in some order, its states are a fixed
point on the blocks that have one, and the states of a run in another order stay above it, so that
no step of that run fails. At their ends the states of both runs are above each other.
-/

namespace Dolang.Bytecode

open Dolang.Rust

/-! ## The loop body halts -/

section

variable {ctx : Context} {func : Func}

theorem pop_halts (s : BlockState) : Halts s.pop :=
  Halts.bind (Halts.okOr _ _) fun _ _ => Halts.pure _

theorem push_halts (s : BlockState) : Halts s.push := by
  refine Halts.bind ?_ fun _ _ => Halts.pure _
  exact Halts.ite (Halts.of_ok rfl) Halts.abort

theorem popN_halts (n : Nat) : ∀ s : BlockState, Halts (s.popN n) := by
  induction n with
  | zero => exact fun _ => Halts.of_ok rfl
  | succ n ih => exact fun s => Halts.bind (pop_halts s) fun t _ => ih t

theorem pushN_halts (n : Nat) : ∀ s : BlockState, Halts (s.pushN n) := by
  induction n with
  | zero => exact fun _ => Halts.of_ok rfl
  | succ n ih => exact fun s => Halts.bind (push_halts s) fun t _ => ih t

/-- The arity of an unpack that the first pass has looked up. -/
theorem arityUnwrap_halts {ε : Type} {u : Nat} (h : ∃ n, ctx.unpackArity u = .ok (some n)) :
    Halts (ctx.arityUnwrap u : Exec ε Nat) := by
  obtain ⟨n, hn⟩ := h
  exact Halts.of_ok (arityUnwrap_eq_ok.mpr hn)

/-- The effect of an instruction that has passed the first pass is a sequence of pops, pushes,
lookups and guards. -/
theorem step_halts {i : InstOffsets} (hok : SyntaxOk ctx func i) (s : BlockState) :
    Halts (step ctx func s i.inst) := by
  unfold SyntaxOk at hok
  cases hinst : i.inst <;> simp only [hinst] at hok <;> simp only [step, fail_bind]
  case unpack u =>
    refine Halts.bind (arityUnwrap_halts hok) fun _ _ => ?_
    exact Halts.bind (pop_halts _) fun _ _ => pushN_halts _ _
  all_goals
    repeat'
      first
      | exact Halts.of_ok rfl
      | exact Halts.fail _
      | exact Halts.abort
      | exact pop_halts _
      | exact push_halts _
      | refine Halts.ite ?_ ?_
      | refine Halts.bind (pop_halts _) fun _ _ => ?_
      | refine Halts.bind (push_halts _) fun _ _ => ?_
      | refine Halts.bind (popN_halts _ _) fun _ _ => ?_
      | refine Halts.bind (Halts.unwrap _) fun _ _ => ?_
      | refine Halts.bind (Halts.okOr _ _) fun _ _ => ?_

/-- The effect along an edge. -/
theorem edgeState_halts {i : InstOffsets} (hok : SyntaxOk ctx func i) (taken : Bool)
    (s : BlockState) : Halts (edgeState ctx i.inst taken s) := by
  unfold SyntaxOk at hok
  unfold edgeState
  split
  · rename_i index target heq
    simp only [heq] at hok
    exact Halts.bind (arityUnwrap_halts hok) fun _ _ => pushN_halts _ _
  · exact Halts.of_ok rfl

theorem walk_halts {seg : List InstOffsets} (hok : ∀ i ∈ seg, SyntaxOk ctx func i) :
    ∀ w : Walk, Halts (walk ctx func (seg.map .ok) w) := by
  induction seg with
  | nil => exact fun _ => Halts.of_ok rfl
  | cons i seg ih =>
    intro w
    refine Halts.bind (Halts.mapErr _ (step_halts (hok i (by simp)) _)) fun s _ => ?_
    exact ih (fun j hj => hok j (by simp [hj])) _

theorem edgeTo_halts {w : Walk} (hok : SyntaxOk ctx func w.last) (taken : Bool)
    (next : Option Nat) : Halts (edgeTo ctx w taken next) := by
  cases next with
  | none => exact Halts.pure _
  | some sid =>
    exact Halts.bind (Halts.mapErr _ (edgeState_halts hok taken _)) fun _ _ => Halts.pure _

theorem successors_halts {w : Walk} (hok : SyntaxOk ctx func w.last) (starts : List Nat)
    (bb : Nat) : Halts (successors ctx starts bb w) := by
  have hbranch : Halts (branchBlock starts w.last) := by
    unfold branchBlock
    split
    · exact Halts.of_ok rfl
    · refine Halts.bind (Halts.unwrap _) fun _ _ => ?_
      exact Halts.bind (Halts.unwrap _) fun _ _ => Halts.pure _
  refine Halts.bind hbranch fun _ _ => ?_
  refine Halts.bind (edgeTo_halts hok _ _) fun _ _ => ?_
  exact Halts.bind (edgeTo_halts hok _ _) fun _ _ => Halts.pure _

theorem merge_halts (e t : BlockState) : Halts (e.merge t) := (merge_returns e t).2

theorem mergeEdges_halts (checking : Bool) (succs : List (Nat × BlockState)) :
    ∀ blocks : List Block, Halts (mergeEdges checking succs blocks) := by
  induction succs with
  | nil => exact fun _ => Halts.of_ok rfl
  | cons p succs ih =>
    obtain ⟨sid, e⟩ := p
    intro blocks
    have hcheck : Halts (checkEdge sid e blocks) := by
      refine Halts.bind (Halts.unwrap _) fun b _ => ?_
      refine Halts.bind (Halts.mapErr _ (merge_halts _ _)) fun claimed _ => ?_
      simp only [fail_bind]
      exact Halts.ite (Halts.fail _) (Halts.pure _)
    have hmerge : Halts (mergeEdge sid e blocks) := by
      refine Halts.bind (Halts.unwrap _) fun b _ => ?_
      exact Halts.bind (Halts.mapErr _ (merge_halts _ _)) fun _ _ => Halts.pure _
    rw [mergeEdges]
    refine Halts.ite ?_ ?_
    · exact Halts.bind hcheck fun r _ => Halts.bind (ih _) fun _ _ => Halts.pure _
    · exact Halts.bind hmerge fun r _ => Halts.bind (ih _) fun _ _ => Halts.pure _

/-- Taking a block off the queue does not run into a loop of its own. -/
theorem visit_halts {bytecode : List UInt8} {l : List InstOffsets} {flow : Flow}
    (hdec : Decoded ctx func bytecode l) (hstarts : flow.blocks.map (·.offset) = starts l)
    (checking : Bool) (bb : Nat) : Halts (visit ctx func bytecode checking bb flow) := by
  refine Halts.bind (Halts.unwrap _) fun b hb => ?_
  rw [unwrap_eq_ok] at hb
  obtain ⟨seg, hseg⟩ : ∃ seg, (segs l)[bb]? = some seg := by
    have hlen := congrArg List.length hstarts
    rw [List.length_map, starts_length] at hlen
    exact ⟨_, List.getElem?_eq_getElem (hlen ▸ (List.getElem?_eq_some_iff.mp hb).1)⟩
  have hmem := List.mem_of_getElem? hseg
  have hok : ∀ i ∈ seg, SyntaxOk ctx func i := fun i hi => hdec.checked i (mem_of_mem_segs hmem hi)
  refine Halts.bind ?_ fun _ _ => ?_
  · obtain ⟨start, hstart, hitems⟩ := blockInsts_eq hdec hseg
    unfold flowBlock
    rw [hstarts, hstart]
    simp only [unwrap, ok_bind, hitems]
    refine Halts.bind (walk_halts hok _) fun w hw => ?_
    obtain ⟨-, rfl⟩ := walk_eq_ok.mp hw
    have hlast := hok _ (lastOf_mem (segs_ne_nil hmem))
    exact Halts.bind (successors_halts hlast _ _) fun _ _ => Halts.pure _
  · exact Halts.bind (mergeEdges_halts _ _ _) fun _ _ => Halts.pure _

end

/-! ## Runs in any order -/

section

variable {ctx : Context} {func : Func} {bytecode : List UInt8} {l : List InstOffsets}
  {arity : Nat}

/-- The invariant of checking is about the queued blocks, not their order. -/
theorem CheckInv.perm {claims : List BlockState} {flow : Flow} {queue queue' : List Nat}
    (hperm : queue.Perm queue') (h : CheckInv ctx func l claims arity flow queue) :
    CheckInv ctx func l claims arity flow queue' := by
  refine ⟨h.claim, fun i hi => h.queued i (hperm.mem_iff.mpr hi), ?_, h.reach, h.entry, h.arity_le,
    h.attained⟩
  intro i seg s hm hseg hs
  exact (h.done hm hseg hs).imp hperm.mem_iff.mp id

/-- The invariant of computing is about the queued blocks, not their order. -/
theorem ComputeInv.perm {flow : Flow} {queue queue' : List Nat} (hperm : queue.Perm queue')
    (h : ComputeInv ctx func l arity flow queue) : ComputeInv ctx func l arity flow queue' := by
  refine ⟨h.offsets, h.ok, fun i hi => h.queued i (hperm.mem_iff.mpr hi),
    fun i hi => hperm.mem_iff.mp (h.marked i hi), h.entry, ?_, h.reach, h.arity_le, h.attained⟩
  intro i seg b hseg hb hstate hnot
  exact h.done hseg hb hstate fun hi => hnot (hperm.mem_iff.mp hi)

/-- What is kept by every run of checking, and the bound on its turns. -/
theorem check_turns {claims : List BlockState} {init flow : Flow} {queue queue' : List Nat}
    {n : Nat} (hdec : Decoded ctx func bytecode l) (hlen : claims.length = (segs l).length)
    (hinit : CheckInv ctx func l claims arity init queue)
    (h : Worklist.Turns (visit ctx func bytecode true) n init queue flow queue') :
    CheckInv ctx func l claims arity flow queue' ∧
      n + (unmarked flow.blocks + queue'.length) ≤ unmarked init.blocks + queue.length := by
  refine h.invariant (CheckInv ctx func l claims arity) (fun flow => unmarked flow.blocks)
    CheckInv.perm ?_ hinit
  intro bb flow queue flow' pushed hinv hvisit
  obtain ⟨hinv', heq⟩ := hinv.visit hdec hlen hvisit
  exact ⟨hinv', heq.le⟩

/-- What is kept by every run of computing, and the bound on its turns. -/
theorem compute_turns {init flow : Flow} {queue queue' : List Nat} {n : Nat}
    (hdec : Decoded ctx func bytecode l) (hbound : arity + growthSum ctx l < usizeMax)
    (hinit : ComputeInv ctx func l arity init queue) (hgrowth : ComputeGrowth ctx l arity init)
    (h : Worklist.Turns (visit ctx func bytecode false) n init queue flow queue') :
    (ComputeInv ctx func l arity flow queue' ∧ ComputeGrowth ctx l arity flow) ∧
      n + (potentialSum func flow.blocks + queue'.length) ≤
        potentialSum func init.blocks + queue.length := by
  refine h.invariant
    (fun flow queue => ComputeInv ctx func l arity flow queue ∧ ComputeGrowth ctx l arity flow)
    (fun flow => potentialSum func flow.blocks) (fun hperm h => ⟨h.1.perm hperm, h.2⟩) ?_
    ⟨hinit, hgrowth⟩
  rintro bb flow queue flow' pushed ⟨hinv, hgrowth⟩ hvisit
  obtain ⟨b, seg, hv⟩ := hinv.visited hdec (fun hb hseg p hp =>
    lt_of_le_of_lt (hgrowth.edge_le hinv hb hseg p hp) hbound) hvisit
  obtain ⟨hinv', hle⟩ := hinv.visit hv
  exact ⟨⟨hinv', hgrowth.visit hinv hv⟩, hle⟩

/-! ## Two runs of computing -/

/-- The states of the blocks. -/
def Flow.states (flow : Flow) : List BlockState := flow.blocks.map (·.state)

theorem Flow.states_eq_some {flow : Flow} {i : Nat} {s : BlockState} :
    flow.states[i]? = some s ↔ ∃ b, flow.blocks[i]? = some b ∧ b.state = s := by
  rw [Flow.states, List.getElem?_map, Option.map_eq_some_iff]

/-- What is below a state is not neutral. -/
theorem Below.ne_neutral {n : Nat} {c s : BlockState} (h : Below n c s) (hs : IsState func s) :
    c ≠ .neutral := by
  rintro rfl
  have hlt := hs.operands_lt
  rw [← h.1.1] at hlt
  exact absurd hlt (Nat.lt_irrefl _)

/-- A block with a state is fixed by the states that a run has ended with. -/
theorem ComputeInv.fixedAt {final : Flow} (hfinal : ComputeInv ctx func l arity final []) {bb : Nat}
    {s c : BlockState} {seg : List InstOffsets} (hs : IsState func s)
    (hseg : (segs l)[bb]? = some seg) (hc : final.states[bb]? = some c)
    (hbelow : Below func.locals c s) :
    FixedAt ctx func l final.states bb seg c := by
  obtain ⟨b, hb, rfl⟩ := Flow.states_eq_some.mp hc
  have hstate : IsState func b.state :=
    (hfinal.ok bb b hb).resolve_left (hbelow.ne_neutral hs)
  obtain ⟨hruns, habs, -⟩ := hfinal.done hseg hb hstate (by simp)
  refine ⟨hruns, fun p hp => ?_, fun _ _ _ _ i hi _ => by rw [hstate.length]; exact hi⟩
  obtain ⟨t, ht, -, hta⟩ := habs p hp
  exact ⟨t.state, Flow.states_eq_some.mpr ⟨t, ht, rfl⟩, hta⟩

/-- The states of a run stay above those that another run has ended with, and none of its steps
fails. -/
theorem compute_turns_above {final flow : Flow} {queue : List Nat} {n : Nat}
    (hdec : Decoded ctx func bytecode l) (hl : l ≠ [])
    (hbound : arity + growthSum ctx l < usizeMax)
    (hfinal : ComputeInv ctx func l arity final [])
    (h : Worklist.Turns (visit ctx func bytecode false) n ⟨initBlocks func l arity, arity⟩ [0] flow
      queue) :
    CertInv func final.states flow.blocks ∧
      ∀ bb ∈ queue, ∃ r, visit ctx func bytecode false bb flow = .ok r := by
  have hlen : final.states.length = (segs l).length := by
    simpa [Flow.states] using congrArg List.length hfinal.offsets
  -- One step of a run that has stayed above.
  have hstep : ∀ {bb : Nat} {flow : Flow} {queue : List Nat},
      ComputeInv ctx func l arity flow (bb :: queue) → ComputeGrowth ctx l arity flow →
      CertInv func final.states flow.blocks →
      ∃ flow' pushed b seg, visit ctx func bytecode false bb flow = .ok (flow', pushed) ∧
        Visited ctx func l bb flow flow' pushed b seg ∧
        CertInv func final.states flow'.blocks := by
    intro bb flow queue hinv hgrowth hcert
    exact hcert.visit hdec hlen hinv hfinal.fixedAt fun hb hseg p hp =>
      lt_of_le_of_lt (hgrowth.edge_le hinv hb hseg p hp) hbound
  have hinit : CertInv func final.states (initBlocks func l arity) := by
    intro i b c hb hc hstate
    rcases initBlocks_getElem? i b hb with ⟨rfl, heq, -⟩ | ⟨-, heq, -⟩
    · obtain ⟨e, he, hentry, -⟩ := hfinal.entry
      obtain ⟨e', he', rfl⟩ := Flow.states_eq_some.mp hc
      rw [he] at he'
      cases he'
      rw [heq, hentry]
      exact Below.refl _ _
    · exact absurd heq hstate.ne_neutral
  obtain ⟨⟨hinv, hgrowth, hcert⟩, -⟩ := h.invariant
    (fun flow queue => ComputeInv ctx func l arity flow queue ∧ ComputeGrowth ctx l arity flow ∧
      CertInv func final.states flow.blocks)
    (fun flow => potentialSum func flow.blocks) (fun hperm h => ⟨h.1.perm hperm, h.2⟩)
    (by
      rintro bb flow queue flow' pushed ⟨hinv, hgrowth, hcert⟩ hvisit
      obtain ⟨flow'', pushed', b, seg, hvisit', hv, hcert'⟩ := hstep hinv hgrowth hcert
      rw [hvisit] at hvisit'
      cases hvisit'
      obtain ⟨hinv', hle⟩ := hinv.visit hv
      exact ⟨⟨hinv', hgrowth.visit hinv hv, hcert'⟩, hle⟩)
    ⟨computeInv_init hl (by omega), computeGrowth_init, hinit⟩
  refine ⟨hcert, fun bb hbb => ?_⟩
  obtain ⟨flow', pushed, -, -, hvisit, -⟩ :=
    hstep (hinv.perm (List.perm_cons_erase hbb)) hgrowth hcert
  exact ⟨_, hvisit⟩

/-- States above each other are the same. -/
theorem Below.antisymm {c s : BlockState} (hc : c.locals.length = func.locals)
    (hs : s.locals.length = func.locals) (h : Below func.locals c s)
    (h' : Below func.locals s c) : c = s := by
  obtain ⟨operands, locals, upvars⟩ := c
  obtain ⟨operands', locals', upvars'⟩ := s
  obtain ⟨⟨rfl, rfl⟩, hle⟩ := h
  have hlocals : locals = locals' := by
    refine locals_ext (hc.trans hs.symm) fun i => ⟨fun hi => ?_, fun hi => ?_⟩
    · exact hle i (hc ▸ (List.getElem?_eq_some_iff.mp hi).1) hi
    · exact h'.2 i (hs ▸ (List.getElem?_eq_some_iff.mp hi).1) hi
  rw [hlocals]

/-- The depth that a run has ended with is the largest one of its blocks. -/
theorem ComputeInv.depth_le {final final' : Flow} (hfinal : ComputeInv ctx func l arity final [])
    (hfinal' : ComputeInv ctx func l arity final' []) (hblocks : final.blocks = final'.blocks) :
    final.maxOperandDepth ≤ final'.maxOperandDepth := by
  rcases hfinal.attained with heq | ⟨bb, seg, b, hseg, hb, hstate, heq⟩
  · rw [heq]
    exact hfinal'.arity_le
  · rw [heq]
    exact (hfinal'.done hseg (hblocks ▸ hb) hstate (by simp)).2.2

/-- Two runs that have ended, with states above each other, have ended alike. -/
theorem ComputeInv.final_eq {final final' : Flow}
    (hfinal : ComputeInv ctx func l arity final []) (hfinal' : ComputeInv ctx func l arity final' [])
    (hcert : CertInv func final.states final'.blocks)
    (hcert' : CertInv func final'.states final.blocks) : final = final' := by
  have hlen : final.blocks.length = final'.blocks.length := by
    have h := hfinal.offsets.trans hfinal'.offsets.symm
    simpa using congrArg List.length h
  have hblocks : final.blocks = final'.blocks := by
    refine List.ext_getElem hlen fun i hi hi' => ?_
    have hb := List.getElem?_eq_getElem hi
    have hb' := List.getElem?_eq_getElem hi'
    generalize final.blocks[i] = b at hb
    generalize final'.blocks[i] = b' at hb'
    -- Nothing is queued, so nothing is marked.
    have hmark : b.mark = false := by
      by_contra hm
      exact List.not_mem_nil (hfinal.marked i ⟨b, hb, by simpa using hm⟩)
    have hmark' : b'.mark = false := by
      by_contra hm
      exact List.not_mem_nil (hfinal'.marked i ⟨b', hb', by simpa using hm⟩)
    have hoffset : b.offset = b'.offset := by
      have h := congrArg (·[i]?) (hfinal.offsets.trans hfinal'.offsets.symm)
      simpa [hb, hb'] using h
    have hbelow : IsState func b'.state → Below func.locals b.state b'.state :=
      hcert hb' (Flow.states_eq_some.mpr ⟨b, hb, rfl⟩)
    have hbelow' : IsState func b.state → Below func.locals b'.state b.state :=
      hcert' hb (Flow.states_eq_some.mpr ⟨b', hb', rfl⟩)
    have hstate : b.state = b'.state := by
      rcases hfinal.ok i b hb with hn | hs <;> rcases hfinal'.ok i b' hb' with hn' | hs'
      · rw [hn, hn']
      · exact absurd hn ((hbelow hs').ne_neutral hs')
      · exact absurd hn' ((hbelow' hs).ne_neutral hs)
      · exact Below.antisymm hs.length hs'.length (hbelow hs') (hbelow' hs)
    cases b
    cases b'
    simp_all
  have hdepth : final.maxOperandDepth = final'.maxOperandDepth :=
    Nat.le_antisymm (hfinal.depth_le hfinal' hblocks) (hfinal'.depth_le hfinal hblocks.symm)
  cases final
  cases final'
  simp_all

end

/-! ## The pass -/

/-- What `dataflow` does before its loop: the code of the function, and the blocks and the depth
that the loop starts from. -/
def dataflowStart (ctx : Context) (func : Func) (blocks : List Block) :
    Exec FuncError (List UInt8 × Flow) := do
  let bytecode ← unwrap (func.bytecode.slice ctx.code)
  let operands ← ctx.arityUnwrap func.sig
  let first ← unwrap blocks.head?
  return (bytecode,
    ⟨blocks.set 0 { first with state := entryState func operands, mark := true }, operands⟩)

/-- `dataflow` with its loop apart. -/
theorem dataflow_eq {ctx : Context} {func : Func} {checking : Bool} {blocks : List Block}
    {fuel : Nat} {bytecode : List UInt8} {init : Flow}
    (hstart : dataflowStart ctx func blocks = .ok (bytecode, init)) :
    dataflow ctx func checking blocks fuel = (do
      let flow ← Worklist.run (visit ctx func bytecode checking) fuel init [0]
      if checking then
        match flow.blocks.find? (!·.mark) with
        | some block => fail (.inst block.offset .instructionUnreachable)
        | none => return flow
      else return flow) := by
  unfold dataflowStart at hstart
  unfold dataflow
  obtain ⟨bytecode', hslice, hstart⟩ := bind_ok hstart
  obtain ⟨operands, harity, hstart⟩ := bind_ok hstart
  obtain ⟨first, hfirst, hstart⟩ := bind_ok hstart
  cases hstart
  rw [hslice, ok_bind, harity, ok_bind, hfirst]
  exact ok_bind _ _

section

variable {ctx : Context} {func : Func} {info : SyntaxInfo} {blocks : List Block}
  {bytecode : List UInt8} {init : Flow}

/-- Where checking starts. -/
theorem check_start {cert : Certificate} (hsyn : syntaxPass ctx func = .ok info)
    (hblocks : basicBlocks ctx func info.offsets (some cert) = .ok blocks)
    (hstart : dataflowStart ctx func blocks = .ok (bytecode, init)) :
    ∃ l arity, Decoded ctx func bytecode l ∧
      (cert.claims func arity).length = (segs l).length ∧
      CheckInv ctx func l (cert.claims func arity) arity init [0] := by
  simp only [dataflowStart, bind_eq_ok, unwrap_eq_ok, pure, Except.pure, Except.ok.injEq,
    Prod.mk.injEq] at hstart
  obtain ⟨bytecode', hslice, arity, -, first, hfirst, rfl, rfl⟩ := hstart
  simp only [basicBlocks, hslice, unwrap, ok_bind, bind_eq_ok] at hblocks
  obtain ⟨offsets, hmark, count, hcount, hblocks⟩ := hblocks
  obtain ⟨l, hdec, hleaders, -⟩ := decoded_of_passes hsyn hslice hmark
  simp only [fail_bind, ite_fail_eq_ok, pure, Except.pure, Except.ok.injEq, not_or, ne_eq,
    not_not] at hblocks
  obtain ⟨⟨-, hoffsets⟩, rfl⟩ := hblocks
  have hl : l ≠ [] := by
    rintro rfl
    rw [hleaders] at hcount
    exact absurd hcount (by simp [checkedSub, starts, offsetsOf, leaders, abort])
  rw [hleaders] at hoffsets
  cases hfirst
  exact ⟨l, arity, hdec, claims_length func arity hl hoffsets,
    checkInv_init hdec.chain hl hoffsets ⟨0, false, .neutral⟩ rfl⟩

/-- Where computing starts. -/
theorem compute_start (hsyn : syntaxPass ctx func = .ok info)
    (hblocks : basicBlocks ctx func info.offsets none = .ok blocks)
    (hstart : dataflowStart ctx func blocks = .ok (bytecode, init)) :
    ∃ l arity, Decoded ctx func bytecode l ∧ l ≠ [] ∧
      ctx.unpackArity func.sig = .ok (some arity) ∧ init = ⟨initBlocks func l arity, arity⟩ := by
  simp only [dataflowStart, bind_eq_ok, unwrap_eq_ok, arityUnwrap_eq_ok, pure, Except.pure,
    Except.ok.injEq, Prod.mk.injEq] at hstart
  obtain ⟨bytecode', hslice, arity, harity, first, hfirst, rfl, rfl⟩ := hstart
  simp only [basicBlocks, hslice, unwrap, ok_bind, bind_eq_ok, pure, Except.pure,
    Except.ok.injEq] at hblocks
  obtain ⟨offsets, hmark, rfl⟩ := hblocks
  obtain ⟨l, hdec, hleaders, -⟩ := decoded_of_passes hsyn hslice hmark
  rw [hleaders] at hfirst ⊢
  refine ⟨l, arity, hdec, ?_, harity, by rw [set_first _ hfirst, initBlocks]⟩
  rintro rfl
  cases hfirst

/-- With a certificate: the bound on the turns, in any order. -/
theorem check_bounded {cert : Certificate} (hsyn : syntaxPass ctx func = .ok info)
    (hblocks : basicBlocks ctx func info.offsets (some cert) = .ok blocks)
    (hstart : dataflowStart ctx func blocks = .ok (bytecode, init)) :
    ∃ l, Decoded ctx func bytecode l ∧ ∀ n flow queue,
      Worklist.Turns (visit ctx func bytecode true) n init [0] flow queue →
        n + queue.length ≤ unmarked init.blocks + 1 ∧ flow.blocks.map (·.offset) = starts l := by
  obtain ⟨l, arity, hdec, hlen, hinit⟩ := check_start hsyn hblocks hstart
  refine ⟨l, hdec, fun n flow queue h => ?_⟩
  obtain ⟨hinv, hle⟩ := check_turns hdec hlen hinit h
  simp only [List.length_singleton] at hle
  exact ⟨by omega, hinv.starts_eq hlen⟩

/-- Without a certificate: the bound on the turns, in any order. -/
theorem compute_bounded (hdepth : DepthBound ctx func) (hsyn : syntaxPass ctx func = .ok info)
    (hblocks : basicBlocks ctx func info.offsets none = .ok blocks)
    (hstart : dataflowStart ctx func blocks = .ok (bytecode, init)) :
    ∃ l, Decoded ctx func bytecode l ∧ ∀ n flow queue,
      Worklist.Turns (visit ctx func bytecode false) n init [0] flow queue →
        n + queue.length ≤ potentialSum func init.blocks + 1 ∧
          flow.blocks.map (·.offset) = starts l := by
  obtain ⟨l, arity, hdec, hl, harity, rfl⟩ := compute_start hsyn hblocks hstart
  have hbound := hdepth bytecode l arity hdec.slice (insts_eq_map_ok.mpr hdec.chain) harity
  refine ⟨l, hdec, fun n flow queue h => ?_⟩
  obtain ⟨⟨hinv, -⟩, hle⟩ :=
    compute_turns hdec hbound (computeInv_init hl (by omega)) computeGrowth_init h
  simp only [List.length_singleton] at hle ⊢
  exact ⟨by omega, hinv.offsets⟩

/-- Without a certificate: a run that has ended in some order, and any other run. -/
theorem compute_ends (hdepth : DepthBound ctx func) (hsyn : syntaxPass ctx func = .ok info)
    (hblocks : basicBlocks ctx func info.offsets none = .ok blocks)
    (hstart : dataflowStart ctx func blocks = .ok (bytecode, init)) {n : Nat} {final : Flow}
    (h : Worklist.Turns (visit ctx func bytecode false) n init [0] final [])
    {r : Exec FuncError Flow} (hr : Worklist.Ends (visit ctx func bytecode false) init [0] r) :
    r = .ok final := by
  obtain ⟨l, arity, hdec, hl, harity, rfl⟩ := compute_start hsyn hblocks hstart
  have hbound := hdepth bytecode l arity hdec.slice (insts_eq_map_ok.mpr hdec.chain) harity
  have hinv : ∀ {n flow queue}, Worklist.Turns (visit ctx func bytecode false) n
      ⟨initBlocks func l arity, arity⟩ [0] flow queue → ComputeInv ctx func l arity flow queue :=
    fun h => (compute_turns hdec hbound (computeInv_init hl (by omega)) computeGrowth_init h).1.1
  have hfinal := hinv h
  cases hr with
  | done h' =>
    obtain ⟨hcert, -⟩ := compute_turns_above hdec hl hbound hfinal h'
    obtain ⟨hcert', -⟩ := compute_turns_above hdec hl hbound (hinv h') h
    rw [hfinal.final_eq (hinv h') hcert hcert']
  | failed h' hi hvisit =>
    obtain ⟨r, hr⟩ := (compute_turns_above hdec hl hbound hfinal h').2 _ hi
    rw [hvisit] at hr
    cases hr

/-- A pass whose turns are bounded ends as one of the orders does, and not for lack of turns. -/
theorem dataflow_halts {checking : Bool} {bound fuel : Nat} {l : List InstOffsets}
    (hdec : Decoded ctx func bytecode l)
    (hstart : dataflowStart ctx func blocks = .ok (bytecode, init))
    (hturns : ∀ n flow queue, Worklist.Turns (visit ctx func bytecode checking) n init [0] flow
      queue → n + queue.length ≤ bound ∧ flow.blocks.map (·.offset) = starts l)
    (hle : bound ≤ fuel) :
    Worklist.Ends (visit ctx func bytecode checking) init [0]
        (Worklist.run (visit ctx func bytecode checking) fuel init [0]) ∧
      Halts (dataflow ctx func checking blocks fuel) := by
  have hends : Worklist.Ends (visit ctx func bytecode checking) init [0]
      (Worklist.run (visit ctx func bytecode checking) fuel init [0]) := by
    rcases Worklist.run_cases fuel init [0] with hends | ⟨s', i, rest, h, -⟩
    · exact hends
    · have hcount := (hturns _ _ _ h).1
      simp only [List.length_cons] at hcount
      omega
  refine ⟨hends, ?_⟩
  rw [dataflow_eq hstart]
  refine Halts.bind ?_ fun flow _ => ?_
  · generalize Worklist.run (visit ctx func bytecode checking) fuel init [0] = r at hends
    cases hends with
    | done h => exact Halts.of_ok rfl
    | failed h hi hvisit =>
      intro hfuel
      cases hfuel
      exact visit_halts hdec (hturns _ _ _ h).2 checking _ hvisit
  · refine Halts.ite ?_ (Halts.pure _)
    split
    · exact Halts.fail _
    · exact Halts.pure _

end

/-- The blocks of the looping function, before the loop of the pass. -/
def loopStart : Flow :=
  ⟨[⟨0, true, ⟨0, [.invalid], []⟩⟩, ⟨4, false, .neutral⟩, ⟨8, false, .neutral⟩], 0⟩

/-- The blocks of the looping function, after the pass. -/
def loopEnd : Flow :=
  ⟨[⟨0, false, ⟨0, [.invalid], []⟩⟩, ⟨4, false, ⟨0, [.value], []⟩⟩,
    ⟨8, false, ⟨0, [.value], []⟩⟩], 1⟩

end Dolang.Bytecode
