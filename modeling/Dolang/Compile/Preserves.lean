import Dolang.Compile.Exits
import Dolang.Compile.Layout

/-!
# Emission preserves the graph

A pass that moves no block leaves every branch right except possibly that of the last block, because
nothing comes behind it that its length could move. `emit_layout` says that this is the only way for
the code to be wrong, and `loop63` is a function for which it is.
-/

namespace Dolang.Compile

open Dolang.Rust Dolang.Bytecode

/-! ## The order -/

/-- A graph as lowering makes it. -/
structure WellFormed (g : Graph) (enter : Nat) : Prop where
  closed : Closed g
  alone : UnpacksAlone g enter
  enter : enter < g.blocks.length
  typed : WellTyped g

section

variable {g : Graph} {enter : Nat} {s : Sorting}

/-- The block behind another one in an order without repetitions. -/
theorem next_of_adjacent (hnodup : s.out.Nodup) {i x y : Nat} (hx : s.out[i]? = some x)
    (h : Adjacent s.out x y) : s.out[i + 1]? = some y := by
  obtain ⟨j, hj, hy⟩ := h
  obtain ⟨hilt, hix⟩ := List.getElem?_eq_some_iff.mp hx
  obtain ⟨hjlt, hjx⟩ := List.getElem?_eq_some_iff.mp hj
  have : i = j := (hnodup.getElem_inj_iff).mp (hix.trans hjx.symm)
  rw [this]
  exact hy

/-- The terminator of a block that has been placed can be encoded. -/
theorem Placed.shape (hnodup : s.out.Nodup) {i x : Nat} (hx : s.out[i]? = some x)
    (h : Placed g s x) : ∃ b, Shape s.graph s.out i b := by
  have hcond : ∀ {t f : Nat}, t ∈ s.out → f ∈ s.out →
      (s.out[i + 1]? = some t ∨ s.out[i + 1]? = some f) →
      Term.Encodable s.out s.out[i + 1]? (.cond t f) := by
    intro t f ht hf hnext
    by_cases heq : some t = s.out[i + 1]?
    · exact .inl ⟨heq, hf⟩
    · rcases hnext with hnext | hnext
      · exact absurd hnext.symm heq
      · exact .inr ⟨heq, hnext.symm, ht⟩
  cases h with
  | plain b _ hb htargets hfall =>
    refine ⟨b, ⟨x, hx, hb⟩, ?_⟩
    cases hterm : b.term with
    | ret | nlBranch | elseFallthrough => trivial
    | branch t =>
      rw [hterm] at htargets
      exact fun _ => htargets t (by simp [Term.targets])
    | cond t f =>
      rw [hterm] at htargets hfall
      exact hcond (htargets t (by simp [Term.targets])) (htargets f (by simp [Term.targets]))
        (hfall.imp (next_of_adjacent hnodup hx) (next_of_adjacent hnodup hx))
    | unpackIf sig t f =>
      rw [hterm] at htargets hfall
      exact ⟨(next_of_adjacent hnodup hx hfall).symm, htargets f (by simp [Term.targets])⟩
  | split b t f tr _ _ hb ht htr _ _ hadj =>
    exact ⟨_, ⟨x, hx, hb⟩, hcond ht htr (.inr (next_of_adjacent hnodup hx hadj))⟩
  | trampoline f scope func _ hb hf _ =>
    exact ⟨_, ⟨x, hx, hb⟩, fun _ => hf⟩

/-- The operands of a block that has been placed are what their types hold. -/
theorem Placed.typed (hg : WellTyped g) {x : Nat} {b : Block} (h : Placed g s x)
    (hb : s.graph.blocks[x]? = some b) :
    (∀ i ∈ b.insts, plainInst i = true ∧ i.Fits) ∧
      ∀ next d inst, -2^63 ≤ d ∧ d < 2^63 → b.term.encode next d = some inst → inst.Fits := by
  cases h with
  | plain b' hg' hb' _ _ =>
    rw [hb] at hb'
    cases hb'
    exact ⟨hg.plain x b hg', hg.term x b hg'⟩
  | split b' t f tr hg' _ hb' =>
    rw [hb] at hb'
    cases hb'
    refine ⟨hg.plain x b' hg', fun next d inst hd hinst => ?_⟩
    simp only [Term.encode] at hinst
    split at hinst <;> cases hinst <;> exact hd
  | trampoline f scope func _ hb' =>
    rw [hb] at hb'
    cases hb'
    refine ⟨by simp, fun next d inst hd hinst => ?_⟩
    simp only [Term.encode] at hinst
    split at hinst <;> cases hinst
    exact hd

end

/-- What `emit` has before its loop. -/
theorem beginEmit_spec {g : Graph} {enter : Nat} (hg : WellFormed g enter) :
    ∃ s e, topologicalSort g enter = .ok s ∧ beginEmit g enter = .ok e ∧ e.graph = s.graph ∧
      e.order = s.out ∧ e.blocks.length = e.order.length ∧
      (∀ i < e.order.length, ∃ b o, Started e i b o) ∧ s.out.Nodup ∧ s.out[0]? = some enter ∧
      (∀ x ∈ s.out, Placed g s x) ∧
      ∀ x < g.blocks.length, x ∈ s.out ↔ Relation.ReflTransGen (Edge g) enter x := by
  obtain ⟨s, hs, hnodup, hhead, hplaced, hreach⟩ :=
    topologicalSort_spec hg.closed hg.alone hg.enter
  have hshape : ∀ i < s.out.length, ∃ b, Shape s.graph s.out i b := by
    intro i hi
    have hx := List.getElem?_eq_getElem hi
    exact (hplaced _ (List.getElem_mem hi)).shape hnodup hx
  obtain ⟨e, he⟩ := FuncEmitter.start_ok hshape
  obtain ⟨hgraph, horder, hlength, hstarted⟩ := FuncEmitter.start_spec he
  refine ⟨s, e, hs, ?_, hgraph, horder, hlength, hstarted, hnodup, ?_, hplaced, hreach⟩
  · rw [beginEmit, hs, ok_bind, he]
  · rw [← hhead, List.head?_eq_getElem?]

/-! ## The last pass -/

/-- How the last pass left a block: the displacement of its branch is right if the block has as many
bytes as before, and only the last block may not. -/
structure LastPass (e₀ e : FuncEmitter) (i : Nat) (b : Block) (o o' : OutBlock) (d : Int) : Prop where
  laid : Laid e i b d
  before : e₀.blocks[i]? = some o
  after : e.blocks[i]? = some o'
  stop : e.layout.start (i + 1) = e.layout.start i + o'.bytecode.length
  close : o.bytecode.length ≤ o'.bytecode.length + 9
  jump : ∀ x, b.term.jump e.order[i + 1]? = some x → x ∈ e.order ∧
    d = e.offsetOf x - (e.layout.start i + o.bytecode.length : Nat)
  same : i + 1 < e.order.length ∨ b.term.jump e.order[i + 1]? = none →
    o.bytecode.length = o'.bytecode.length
  /-- What the emitter writes for the block before the last pass is what the last pass writes. -/
  keeps : ∀ o'', e₀.visitTerm o b.term e₀.order[i + 1]? false = .ok o'' →
    o''.bytecode.length = o'.bytecode.length

theorem idxOf_of_idxOf? {l : List Nat} {x j : Nat} (h : l.idxOf? x = some j) : l.idxOf x = j := by
  rw [List.idxOf_eq_getD_idxOf?, h]
  rfl

section

variable {e e' : FuncEmitter} {k : Nat}

/-- What the pass that ends the loop leaves. -/
theorem lastPass_of_exit (hlength : e.blocks.length = e.order.length)
    (hstarted : ∀ i < e.order.length, ∃ b o, Started e i b o)
    (hexit : (e.passes k).pass = .ok (e', false)) :
    e'.graph = e.graph ∧ e'.order = e.order ∧ e'.layout.start 0 = 0 ∧
      e'.layout.start e.order.length = e'.code.length ∧
      ∀ i < e.order.length, ∃ b o o' d, LastPass (e.passes k) e' i b o o' d := by
  have hsound := sound_of_started hlength hstarted
  obtain ⟨hsoundk, hgraphk, horderk⟩ := hsound.passes k
  obtain ⟨e'', changing, hpass, hsound', hgraph, horder, hrelax, hchanging, hblocks⟩ := hsoundk.pass
  rw [hexit] at hpass
  cases hpass
  have hstill := hchanging.mp rfl
  have hlen : e'.blocks.length = (e.passes k).blocks.length := by
    rw [hsound'.ready.length, hsoundk.ready.length, horder]
  -- The widths of all blocks but the last are as before.
  have hagree : Relax.Agree (program e.graph e.order) (e.layouts (k + 1)) (e.layouts k) := by
    apply agree_of_still hlength hstarted
    intro i hi
    rw [FuncEmitter.layouts, FuncEmitter.layouts, passes_succ_of_pass hexit]
    exact hstill i (by rw [horderk]; exact hi)
  have hsum : ∀ i ≤ e.order.length,
      e'.layout.start i = ((e'.blocks.take i).map (·.bytecode.length)).sum := fun i hi =>
    start_eq_sum hsoundk.ready hlen hblocks (horderk.symm ▸ hi)
  refine ⟨hgraph.trans hgraphk, horder.trans horderk, hrelax.start_zero, ?_, ?_⟩
  · have hn : e.order.length = e'.blocks.length := by rw [hlen, hsoundk.ready.length, horderk]
    rw [hsum _ (Nat.le_refl _), FuncEmitter.code, length_flatMap_bytecode, hn, List.take_length]
  · intro i hi
    rw [← horderk] at hi
    obtain ⟨b, o, o', d, h⟩ := hblocks i hi
    have hstart : ∀ j < e.order.length, ∀ p, (e.passes k).blocks[j]? = some p →
        p.offset = e'.layout.start j := by
      intro j hj p hp
      rw [hstill j (by rw [horderk]; exact hj)]
      simp [FuncEmitter.layout, hp]
    have hafter : o'.offset = e'.layout.start i := by
      simp [FuncEmitter.layout, h.after]
    have hdest : ∀ x, b.term.jump (e.passes k).order[i + 1]? = some x → x ∈ e'.order ∧
        d = e'.offsetOf x - (e'.layout.start i + o.bytecode.length : Nat) := by
      intro x hx
      obtain ⟨j, dest, hj, hdest, hd⟩ := h.jump x hx
      rw [← horder] at hj
      have hjlt : j < e'.order.length := (List.idxOf?_eq_some_iff.mp hj).1
      have hoff : dest.offset = e'.offsetOf x := by
        rw [FuncEmitter.offsetOf, idxOf_of_idxOf? hj]
        split at hdest
        · simp [FuncEmitter.layout, hdest]
        · exact hstart j (by rw [← horderk, ← horder]; exact hjlt) dest hdest
      refine ⟨?_, ?_⟩
      · by_contra hnot
        rw [List.idxOf?_eq_none_iff.mpr hnot] at hj
        cases hj
      · rw [hd, hoff, hafter]
    obtain ⟨w, hw, hwlen⟩ := hsoundk.length i o h.before
    have hlen' := h.length
    refine ⟨b, o, o', d, h.laid hsoundk hgraph horder hlen hblocks, h.before, h.after, ?_, ?_, ?_, ?_,
      ?_⟩
    · have hi' : i < e.order.length := horderk ▸ hi
      rw [hsum (i + 1) hi', hsum i (Nat.le_of_lt hi'), List.take_add_one, h.after]
      simp
    · rw [hwlen, hlen']
      split <;> omega
    · rw [← horder] at hdest
      exact hdest
    · rw [horder]
      rintro (hlt | hnone)
      · have hwidth := hagree.2 i (by rw [← horderk]; exact hlt)
        have hbase : (program e'.graph e'.order).base i ≤ o'.bytecode.length :=
          hsound'.base i o' h.after
        rw [FuncEmitter.layouts, FuncEmitter.layouts, passes_succ_of_pass hexit] at hwidth
        simp only [FuncEmitter.layout, h.before, h.after, Option.map_some, Option.getD_some,
          hgraph, horder] at hwidth hbase
        omega
      · have htarget := target_isSome h.shape
        rw [hnone] at htarget
        rw [hwlen, hlen', htarget]
        rfl
    · intro o'' ho''
      obtain ⟨inst, hinst, ho''⟩ := bind_ok ho''
      cases ho''
      obtain ⟨d', hinst', hjump⟩ :=
        termInst_of_encodable h.shape.term hsoundk.ready.length o false
      rw [hinst] at hinst'
      cases hinst'
      obtain ⟨b', hshape', -, htake⟩ := hsoundk.ready.blocks i o h.before
      obtain rfl : b' = b := Option.some.inj (hshape'.blockAt.symm.trans h.shape.blockAt)
      -- The displacement is the same, because no block has moved.
      have hsame : ∀ x, b'.term.jump (e.passes k).order[i + 1]? = some x → d' = d := by
        intro x hx
        obtain ⟨j, dest, hj, hdest', hd'⟩ := hjump x hx
        have hjlt : j < e.order.length := by
          rw [← horderk]
          exact (List.idxOf?_eq_some_iff.mp hj).1
        have hoff : e'.offsetOf x = e'.layout.start j := by
          rw [FuncEmitter.offsetOf, horder, idxOf_of_idxOf? hj]
        rw [hd', (hdest x hx).2, hstart j hjlt dest hdest', hoff,
          hstart i (horderk ▸ hi) o h.before]
        rfl
      rw [h.bytecode, List.length_append, List.length_append, htake, Term.encode_length,
        Term.encode_length]
      cases hjump' : b'.term.jump (e.passes k).order[i + 1]? with
      | none => rfl
      | some x => rw [hsame x hjump']

end

/-! ## When the code is right -/

section

variable {e : FuncEmitter}

/-- Blocks that are where the layout says make up the code. -/
theorem code_eq_insts {d : Nat → Int} {n : Nat} (hzero : e.layout.start 0 = 0)
    (hlaid : ∀ i < n, ∃ b, Laid e i b (d i)) {m : Nat} (hm : m ≤ n) :
    e.code.take (e.layout.start m) =
        ((List.range m).flatMap fun i => e.blockInsts i (d i)).flatMap Inst.write ∧
      ((List.range m).flatMap fun i => layInsts (e.layout.start i) (e.blockInsts i (d i))) =
        layInsts 0 ((List.range m).flatMap fun i => e.blockInsts i (d i)) := by
  induction m with
  | zero => simp [hzero, layInsts]
  | succ m ih =>
    obtain ⟨htake, hlay⟩ := ih (Nat.le_of_succ_le hm)
    obtain ⟨b, h⟩ := hlaid m hm
    obtain ⟨pre, post, hcode, hpre, hend⟩ := h.bytes
    have hpre' : e.code.take (e.layout.start m) = pre := by
      rw [hcode, ← hpre, List.append_assoc, List.take_left]
    rw [hpre'] at htake
    constructor
    · rw [List.range_succ, List.flatMap_append, List.flatMap_append, ← htake, ← hend]
      conv_lhs => rw [hcode, List.take_left]
      simp
    · rw [List.range_succ, List.flatMap_append, List.flatMap_append, hlay, layInsts_append, ← htake,
        hpre]
      simp

/-- The start of a block of the order is in the code. -/
theorem offsetOf_le (hlaid : ∀ i < e.order.length, ∃ b d, Laid e i b d) {x : Nat}
    (hx : x ∈ e.order) : e.offsetOf x ≤ e.code.length := by
  obtain ⟨b, d, h⟩ := hlaid _ (List.idxOf_lt_length_of_mem hx)
  obtain ⟨pre, post, hcode, hpre, -⟩ := h.bytes
  rw [FuncEmitter.offsetOf, ← hpre, hcode]
  simp only [List.length_append]
  omega

/-- The end of a block is in the code. -/
theorem Laid.start_succ_le {i : Nat} {b : Block} {d : Int} (h : Laid e i b d) :
    e.layout.start (i + 1) ≤ e.code.length := by
  obtain ⟨pre, post, hcode, -, hend⟩ := h.bytes
  rw [← hend, hcode]
  simp only [List.length_append]
  omega

end

section

variable {g : Graph} {enter : Nat} {s : Sorting} {e : FuncEmitter}

/-- The code of a block of the original graph goes on to the block that follows there, over a
trampoline if need be. -/
theorem run_step (hg : WellTyped g) (hgraph : e.graph = s.graph) (horder : e.order = s.out)
    (hnodup : s.out.Nodup) (hplaced : ∀ x ∈ s.out, Placed g s x)
    (hlaid : ∀ i < e.order.length, ∃ b d, Laid e i b d ∧ Lands e i b d ∧
      ∀ inst, b.term.encode e.order[i + 1]? d = some inst → inst.Fits)
    {x y : Nat} (hx : x ∈ s.out) {outcomes outcomes' : List Bool}
    (hstep : graphStep g x outcomes = some (y, outcomes')) :
    y ∈ s.out ∧ CodeRun e.code (e.offsetOf x) outcomes (g.instsOf [x]) (e.offsetOf y) outcomes' := by
  obtain ⟨b, hb, hfollow⟩ := Option.bind_eq_some_iff.mp hstep
  have hnodup' : e.order.Nodup := horder ▸ hnodup
  -- The code of any block of the order.
  have hrun : ∀ {z w : Nat} {b' : Block} {os os' : List Bool}, z ∈ s.out →
      s.graph.blocks[z]? = some b' → b'.term.follow os = some (w, os') →
      CodeRun e.code (e.offsetOf z) os b'.insts (e.offsetOf w) os' := by
    intro z w b' os os' hz hb' hfollow'
    obtain ⟨i, hi, hzi⟩ := List.getElem_of_mem hz
    have hget : e.order[i]? = some z := by
      rw [horder, List.getElem?_eq_getElem hi, hzi]
    obtain ⟨b'', d, hl, hlands, hfits⟩ := hlaid i (List.getElem?_eq_some_iff.mp hget).1
    obtain ⟨id, hid, hb''⟩ := hl.shape.source
    rw [hget] at hid
    cases hid
    rw [hgraph, hb'] at hb''
    cases hb''
    rw [offsetOf_eq hnodup' hget]
    exact hl.run hnodup' ((hplaced z hz).typed hg hb').1 hfits hlands hfollow'
  have hinsts : g.instsOf [x] = b.insts := by simp [Graph.instsOf, hb]
  rw [hinsts]
  have hmem := Term.follow_mem hfollow
  cases hplaced x hx with
  | plain b' hb' hb'' htargets _ =>
    rw [hb] at hb'
    cases hb'
    exact ⟨htargets y hmem, hrun hx hb'' hfollow⟩
  | split b' t f tr hb' hterm hb'' ht htr _ htr' _ =>
    rw [hb] at hb'
    cases hb'
    have hf : f ∈ s.out := by
      cases hplaced tr htr with
      | plain c hc =>
        have := (List.getElem?_eq_some_iff.mp hc).1
        omega
      | split c t' f' tr' hc =>
        have := (List.getElem?_eq_some_iff.mp hc).1
        omega
      | trampoline f' scope func _ hc hf' _ =>
        rw [htr'] at hc
        cases hc
        exact hf'
    rw [hterm] at hfollow
    cases outcomes with
    | nil => cases hfollow
    | cons outcome outcomes =>
      cases hfollow
      cases outcome with
      | true =>
        have hthen := @hrun _ _ _ (true :: outcomes') _ hx hb'' rfl
        exact ⟨ht, hthen⟩
      | false =>
        refine ⟨hf, ?_⟩
        have hfirst := @hrun _ _ _ (false :: outcomes') _ hx hb'' rfl
        have hsecond := @hrun _ _ _ outcomes' _ htr htr' rfl
        have := hfirst.trans hsecond
        rwa [List.append_nil] at this
  | trampoline f scope func hle =>
    have := (List.getElem?_eq_some_iff.mp hb).1
    omega

/-- An encoded branch determines its displacement. -/
theorem Term.encode_inj {t : Term} {next : Option Nat} {x : Nat} (h : t.jump next = some x)
    {d d' : Int} (heq : t.encode next d = t.encode next d') : d = d' := by
  cases t with
  | ret | nlBranch | elseFallthrough => cases h
  | branch id =>
    simp only [Term.jump] at h
    split at h
    · rename_i hne
      simpa [Term.encode, hne] using heq
    · cases h
  | cond tid fid =>
    simp only [Term.encode] at heq
    split at heq <;> simpa using heq
  | unpackIf sig tid fid => simpa [Term.encode] using heq

theorem Term.encode_isSome {t : Term} {next : Option Nat} {x : Nat} (h : t.jump next = some x)
    (d : Int) : ∃ inst, t.encode next d = some inst := by
  cases t with
  | ret | nlBranch | elseFallthrough => cases h
  | branch id =>
    simp only [Term.jump] at h
    split at h
    · rename_i hne
      exact ⟨_, if_pos hne⟩
    · cases h
  | cond tid fid =>
    simp only [Term.encode]
    split <;> exact ⟨_, rfl⟩
  | unpackIf sig tid fid => exact ⟨_, rfl⟩

/-- Where the terminator of a block is, and that it is decoded from there. -/
theorem Laid.next_term {i : Nat} {b : Block} {d : Int} (h : Laid e i b d) {inst : Inst}
    (hinst : b.term.encode e.order[i + 1]? d = some inst) (hfits : inst.Fits) :
    next e.code (e.layout.start i + b.code.length) =
      some (.ok (inst, e.layout.start (i + 1))) := by
  obtain ⟨pre, post, hcode, hpre, hend⟩ := h.bytes
  rw [h.shape.blockInsts, List.flatMap_append, ← List.append_assoc, hinst] at hcode hend
  simp only [Option.toList_some, List.flatMap_cons, List.flatMap_nil, List.append_nil] at hcode hend
  have hnext := next_write (pre ++ b.insts.flatMap Inst.write) post hfits
  rw [← hcode] at hnext
  have hpos : (pre ++ b.insts.flatMap Inst.write).length = pre.length + b.code.length := by
    rw [List.length_append]
    rfl
  rw [hpos] at hnext
  rw [← hpre, ← hend, hnext, List.length_append, hpos]

/-- Without a branch the displacement does not matter. -/
theorem Term.encode_of_not_jump {t : Term} {next : Option Nat} (h : t.jump next = none) (d d' : Int) :
    t.encode next d = t.encode next d' := by
  cases t with
  | branch id =>
    simp only [Term.jump] at h
    split at h
    · cases h
    · rename_i hne
      simp [Term.encode, not_not.mp hne]
  | cond tid fid =>
    simp only [Term.jump] at h
    split at h <;> cases h
  | unpackIf sig tid fid => cases h
  | ret | nlBranch | elseFallthrough => rfl

end

/-- What is known when the loop of `emit` has ended with a pass from `e₀` to `e`. -/
structure Emitted (g : Graph) (enter : Nat) (s : Sorting) (e₀ e : FuncEmitter) : Prop where
  graph₀ : e₀.graph = s.graph
  order₀ : e₀.order = s.out
  length₀ : e₀.blocks.length = e₀.order.length
  graph : e.graph = s.graph
  order : e.order = s.out
  nodup : s.out.Nodup
  head : s.out[0]? = some enter
  placed : ∀ x ∈ s.out, Placed g s x
  reach : ∀ x < g.blocks.length, x ∈ s.out ↔ Relation.ReflTransGen (Edge g) enter x
  zero : e.layout.start 0 = 0
  stop : e.layout.start e.order.length = e.code.length
  last : ∀ i < e.order.length, ∃ b o o' d, LastPass e₀ e i b o o' d
  size : e.code.length + 9 < 2^63

/-- The loop of `emit` that starts from a graph as lowering makes it. -/
theorem emitted_of_exit {g : Graph} {enter : Nat} (hg : WellFormed g enter) {e e' : FuncEmitter}
    {k : Nat} (hbegin : beginEmit g enter = .ok e) (hexit : (e.passes k).pass = .ok (e', false))
    (hsize : e'.code.length + 9 < 2^63) : ∃ s, Emitted g enter s (e.passes k) e' := by
  obtain ⟨s, e₁, -, hbegin', hgraph, horder, hlength, hstarted, hnodup, hhead, hplaced, hreach⟩ :=
    beginEmit_spec hg
  rw [hbegin] at hbegin'
  cases hbegin'
  obtain ⟨hgraph', horder', hzero, hend, hlast⟩ := lastPass_of_exit hlength hstarted hexit
  obtain ⟨hsoundk, hgraphk, horderk⟩ := (sound_of_started hlength hstarted).passes k
  rw [← horder'] at hlast hend
  exact ⟨s, hgraphk.trans hgraph, horderk.trans horder, hsoundk.ready.length,
    hgraph'.trans hgraph, horder'.trans horder, hnodup, hhead, hplaced, hreach, hzero, hend, hlast,
    hsize⟩

section

variable {g : Graph} {enter : Nat} {s : Sorting} {e₀ e : FuncEmitter} {i : Nat} {b : Block}
  {o o' : OutBlock} {d : Int}

theorem Emitted.laid (h : Emitted g enter s e₀ e) : ∀ i < e.order.length, ∃ b d, Laid e i b d := by
  intro i hi
  obtain ⟨b, o, o', d, hl⟩ := h.last i hi
  exact ⟨b, d, hl.laid⟩

/-- The encoded terminators are instructions that can be decoded. -/
theorem Emitted.fits (h : Emitted g enter s e₀ e) (hg : WellTyped g)
    (hl : LastPass e₀ e i b o o' d) {inst : Inst}
    (hinst : b.term.encode e.order[i + 1]? d = some inst) : inst.Fits := by
  obtain ⟨id, hid, hb⟩ := hl.laid.shape.source
  have hout : id ∈ s.out := by
    rw [← h.order]
    exact List.mem_of_getElem? hid
  rw [h.graph] at hb
  have hfits := ((h.placed id hout).typed hg hb).2
  cases hjump : b.term.jump e.order[i + 1]? with
  | none =>
    rw [Term.encode_of_not_jump hjump d 0] at hinst
    exact hfits _ 0 inst (by omega) hinst
  | some x =>
    -- The size of the code bounds the displacement.
    obtain ⟨hmem, hd⟩ := hl.jump x hjump
    have hoff := offsetOf_le h.laid hmem
    have hend := hl.laid.start_succ_le
    have hclose := hl.close
    have hstop := hl.stop
    have hsize := h.size
    exact hfits _ d inst (by omega) hinst

/-- Code that is right has kept the length of the last block: what is decoded is what was written, so
it is the written displacement that leads to the right block. -/
theorem Emitted.lastKeeps (h : Emitted g enter s e₀ e) (hg : WellTyped g)
    (hok : LayoutOk g enter e) : LastKeeps e₀ := by
  intro i o b hi ho hb o'' ho''
  have hilt : i < e.order.length := by
    rw [h.order, ← h.order₀]
    omega
  obtain ⟨b', p, p', d, hl⟩ := h.last i hilt
  obtain rfl : p = o := Option.some.inj (hl.before.symm.trans ho)
  have hb' := hl.laid.shape.blockAt
  rw [h.graph, h.order, ← h.graph₀, ← h.order₀, hb] at hb'
  cases hb'
  have hnone : e₀.order[i + 1]? = none := by simp [hi]
  rw [hl.keeps o'' (by rw [hnone]; exact ho'')]
  cases hjump : b.term.jump e.order[i + 1]? with
  | none => exact (hl.same (.inr hjump)).symm
  | some x =>
    obtain ⟨d', hinsts, hlands⟩ := hok.decodes
    obtain ⟨hmem, hland⟩ := hlands i b x hl.laid.shape.blockAt hjump
    have hchain := insts_eq_map_ok.mp hinsts
    obtain ⟨inst, hinst⟩ := Term.encode_isSome hjump d
    obtain ⟨inst', hinst'⟩ := Term.encode_isSome hjump (d' i)
    have hpos : (⟨e.layout.start i + b.code.length, inst',
        e.layout.start i + b.code.length + inst'.write.length⟩ : InstOffsets) ∈
        (List.range e.order.length).flatMap fun i =>
          layInsts (e.layout.start i) (e.blockInsts i (d' i)) := by
      refine List.mem_flatMap.mpr ⟨i, List.mem_range.mpr hilt, ?_⟩
      rw [hl.laid.shape.blockInsts, hinst', layInsts_append]
      exact List.mem_append_right _ List.mem_cons_self
    have hnext := hchain.next hpos
    rw [hl.laid.next_term hinst (h.fits hg hl hinst)] at hnext
    have hsame : inst = inst' := by
      have := Except.ok.inj (Option.some.inj hnext)
      exact (Prod.ext_iff.mp this).1
    have hd : d = d' i := Term.encode_inj hjump (by rw [hinst, hinst', hsame])
    have hadd := checkedAddSigned_eq_some hland
    have hd' := (hl.jump x hjump).2
    have hstop := hl.stop
    omega

/-- If the last block keeps its length, every block does. -/
theorem Emitted.same (h : Emitted g enter s e₀ e) (hkeeps : LastKeeps e₀)
    (hi : i < e.order.length) (hl : LastPass e₀ e i b o o' d) :
    o.bytecode.length = o'.bytecode.length := by
  rcases Nat.lt_or_eq_of_le (Nat.succ_le_of_lt hi) with hlt | heq
  · exact hl.same (.inl hlt)
  · have hn : i + 1 = e₀.order.length := by
      rw [h.order₀, ← h.order]
      exact heq
    have hnone : e₀.order[i + 1]? = none := by simp [hn]
    have hterm : b.term.Encodable e₀.order e₀.order[i + 1]? := by
      rw [h.order₀, ← h.order]
      exact hl.laid.shape.term
    obtain ⟨d', hinst, -⟩ := termInst_of_encodable hterm h.length₀ o false
    have hvisit : e₀.visitTerm o b.term e₀.order[i + 1]? false = .ok
        { o with bytecode := o.bytecode.take o.termOffset ++
          ((b.term.encode e₀.order[i + 1]? d').map Inst.write).getD [] } := by
      simp [FuncEmitter.visitTerm, hinst, pure, Except.pure]
    have hblock : blockAt e₀.graph e₀.order i = some b := by
      rw [h.graph₀, h.order₀, ← h.graph, ← h.order]
      exact hl.laid.shape.blockAt
    have hlen := hl.keeps _ hvisit
    rw [hnone] at hvisit
    rw [← hkeeps i o b hn hl.before hblock _ hvisit, ← hlen, hnone]

/-- A last block that does not branch keeps its length. -/
theorem Emitted.lastKeeps_of_not_branch (h : Emitted g enter s e₀ e)
    (hlast : ∀ b, blockAt e.graph e.order (e.order.length - 1) = some b →
      ∀ x, b.term ≠ .branch x) : LastKeeps e₀ := by
  intro i o b hi ho hb o'' ho''
  have hi' : i + 1 = e.order.length := by rw [hi, h.order₀, h.order]
  obtain ⟨b', p, p', d, hl⟩ := h.last i (by omega)
  obtain rfl : p = o := Option.some.inj (hl.before.symm.trans ho)
  have hb' := hl.laid.shape.blockAt
  have hbranch := hlast b' (by rw [← hi', Nat.add_sub_cancel]; exact hb')
  rw [h.graph, h.order, ← h.graph₀, ← h.order₀, hb] at hb'
  cases hb'
  have hnone : e.order[i + 1]? = none := by simp [hi']
  have hnone₀ : e₀.order[i + 1]? = none := by simp [hi]
  -- A test would need a block behind it.
  have hjump : b.term.jump e.order[i + 1]? = none := by
    have hterm := hl.laid.shape.term
    rw [hnone] at hterm
    cases hb : b.term with
    | ret | nlBranch | elseFallthrough => rfl
    | branch t => exact absurd hb (hbranch t)
    | cond t f =>
      rw [hb] at hterm
      rcases hterm with ⟨hnext, -⟩ | ⟨-, hnext, -⟩ <;> cases hnext
    | unpackIf sig t f =>
      rw [hb] at hterm
      cases hterm.1
  rw [hl.keeps o'' (by rw [hnone₀]; exact ho'')]
  exact (hl.same (.inr hjump)).symm

/-- Branches of blocks that keep their lengths lead to the right blocks. -/
theorem Emitted.lands (h : Emitted g enter s e₀ e) (hkeeps : LastKeeps e₀)
    (hi : i < e.order.length) (hl : LastPass e₀ e i b o o' d) : Lands e i b d := by
  intro x hx
  obtain ⟨hmem, hd⟩ := hl.jump x hx
  have hoff := offsetOf_le h.laid hmem
  have hlen := h.same hkeeps hi hl
  have hstop := hl.stop
  have hsize := h.size
  refine ⟨hmem, ?_⟩
  have hsum : (e.layout.start (i + 1) : Int) + d = e.offsetOf x := by omega
  rw [checkedAddSigned, hsum, if_pos]
  · simp
  · unfold usizeMax
    omega

/-- Code whose last block has kept its length is right. -/
theorem Emitted.layoutOk (h : Emitted g enter s e₀ e) (hg : WellFormed g enter)
    (hkeeps : LastKeeps e₀) : LayoutOk g enter e := by
  have hnodup : e.order.Nodup := h.order ▸ h.nodup
  have hall : ∀ i < e.order.length, ∃ b d, Laid e i b d ∧ Lands e i b d ∧
      ∀ inst, b.term.encode e.order[i + 1]? d = some inst → inst.Fits := by
    intro i hi
    obtain ⟨b, o, o', d, hl⟩ := h.last i hi
    exact ⟨b, d, hl.laid, h.lands hkeeps hi hl, fun inst => h.fits hg.typed hl⟩
  have hlt : ∀ x, Relation.ReflTransGen (Edge g) enter x → x < g.blocks.length := by
    intro x hx
    cases hx.cases_tail with
    | inl heq => exact heq ▸ hg.enter
    | inr htail =>
      obtain ⟨y, -, hedge⟩ := htail
      exact hg.closed.targets y x hedge
  have hstart : e.offsetOf enter = 0 := by
    rw [offsetOf_eq hnodup (i := 0) (by rw [h.order]; exact h.head), h.zero]
  refine ⟨hnodup, fun x hx => ?_, fun x hx => ?_, ?_, ?_, ?_⟩
  · rw [h.order]
    exact (h.reach x (hlt x hx)).mpr hx
  · rw [h.order] at hx
    cases h.placed x hx with
    | plain b hb => exact .inl ((h.reach x (List.getElem?_eq_some_iff.mp hb).1).mp hx)
    | split b t f tr hb => exact .inl ((h.reach x (List.getElem?_eq_some_iff.mp hb).1).mp hx)
    | trampoline f scope func hle hb => exact .inr ⟨hle, f, scope, func, h.graph ▸ hb⟩
  · have hd : ∀ i, ∃ d, i < e.order.length → ∃ b, Laid e i b d ∧ Lands e i b d ∧
        ∀ inst, b.term.encode e.order[i + 1]? d = some inst → inst.Fits := by
      intro i
      by_cases hi : i < e.order.length
      · obtain ⟨b, d, hbd⟩ := hall i hi
        exact ⟨d, fun _ => ⟨b, hbd⟩⟩
      · exact ⟨0, fun hlt => absurd hlt hi⟩
    choose d hd using hd
    refine ⟨d, ?_, fun i b' x hb' hx => ?_⟩
    · have hlaid : ∀ i < e.order.length, ∃ b, Laid e i b (d i) := fun i hi => by
        obtain ⟨b, hl, -⟩ := hd i hi
        exact ⟨b, hl⟩
      obtain ⟨htake, hlay⟩ := code_eq_insts h.zero hlaid (Nat.le_refl _)
      rw [h.stop, List.take_length] at htake
      rw [insts_eq_map_ok, hlay]
      have hchain := chain_layInsts [] (l := (List.range e.order.length).flatMap fun i =>
        e.blockInsts i (d i)) fun inst hinst => ?_
      · rw [List.nil_append, ← htake] at hchain
        exact hchain
      · obtain ⟨i, hi, hinst⟩ := List.mem_flatMap.mp hinst
        obtain ⟨b, hl, -, hfits⟩ := hd i (List.mem_range.mp hi)
        rw [hl.shape.blockInsts] at hinst
        rcases List.mem_append.mp hinst with hinst | hinst
        · obtain ⟨id, hid, hb⟩ := hl.shape.source
          have hout : id ∈ s.out := by
            rw [← h.order]
            exact List.mem_of_getElem? hid
          rw [h.graph] at hb
          exact (((h.placed id hout).typed hg.typed hb).1 inst hinst).2
        · exact hfits inst (Option.mem_toList.mp hinst)
    · have hi : i < e.order.length := by
        obtain ⟨id, hid, -⟩ := Option.bind_eq_some_iff.mp hb'
        exact (List.getElem?_eq_some_iff.mp hid).1
      obtain ⟨b, hl, hlands, -⟩ := hd i hi
      obtain rfl : b = b' := Option.some.inj (hl.shape.blockAt.symm.trans hb')
      exact hlands x hx
  · -- By induction on the run of the graph, from any block of the order.
    suffices hruns : ∀ {y os left x os'}, GraphRun g y os left x os' → y ∈ s.out →
        CodeRun e.code (e.offsetOf y) os (g.instsOf left) (e.offsetOf x) os' by
      intro os left x os' hrun
      have := hruns hrun (List.mem_of_getElem? h.head)
      rwa [hstart] at this
    intro y os left x os' hrun
    induction hrun with
    | refl x os => exact fun _ => .refl _ _
    | @step y z x os os₁ os' left hstep _ ih =>
      intro hy
      obtain ⟨hz, hfirst⟩ := run_step hg.typed h.graph h.order h.nodup h.placed hall hy hstep
      have hsplit : g.instsOf (y :: left) = g.instsOf [y] ++ g.instsOf left := by
        simp [Graph.instsOf]
      rw [hsplit]
      exact hfirst.trans (ih hz)
  · intro x b hx hb htargets os
    have hxout := (h.reach x (hlt x hx)).mpr hx
    obtain ⟨i, hi, hxi⟩ := List.getElem_of_mem hxout
    have hget : e.order[i]? = some x := by
      rw [h.order, List.getElem?_eq_getElem hi, hxi]
    obtain ⟨b', d, hl, -, hfits⟩ := hall i (List.getElem?_eq_some_iff.mp hget).1
    obtain ⟨id, hid, hb'⟩ := hl.shape.source
    rw [hget] at hid
    cases hid
    have hsame : b' = b := by
      rw [h.graph] at hb'
      cases h.placed x hxout with
      | plain c hc hc' =>
        rw [hb] at hc
        rw [hb'] at hc'
        cases hc
        cases hc'
        rfl
      | split c t f tr hc hterm =>
        rw [hb] at hc
        cases hc
        rw [hterm] at htargets
        cases htargets
      | trampoline f scope func hle =>
        have := (List.getElem?_eq_some_iff.mp hb).1
        omega
    subst hsame
    obtain ⟨pc, hrun, -, hnext⟩ := hl.run_insts (hg.typed.plain x b' hb) os
    rw [offsetOf_eq hnodup hget]
    have hend : ∃ inst, b'.term.encode none 0 = some inst ∧
        b'.term.encode e.order[i + 1]? d = some inst := by
      cases hterm : b'.term with
      | ret | nlBranch depth indicator | elseFallthrough kind => exact ⟨_, rfl, rfl⟩
      | branch t | cond t f | unpackIf sig t f =>
        rw [hterm] at htargets
        cases htargets
    obtain ⟨inst, hinst, hinst'⟩ := hend
    exact ⟨pc, inst, _, hrun, hinst, hnext inst hinst' (hfits inst hinst')⟩

end

/-- Emission of a graph as lowering makes it does not panic. When its loop ends with a pass from some
state, the code preserves the graph exactly if the emitter writes as many bytes for the last block in
that state as the block has. That is so in particular when the last block does not branch. -/
theorem emit_layout {g : Graph} {enter : Nat} (hg : WellFormed g enter) :
    (∀ fuel, emit fuel g enter ≠ .error .panic) ∧
    ∀ e fuel e', beginEmit g enter = .ok e → e.relax fuel = .ok e' →
      e'.code.length + 9 < 2^63 →
      ∃ k, (e.passes k).pass = .ok (e', false) ∧ (LayoutOk g enter e' ↔ LastKeeps (e.passes k)) ∧
        ((∀ b, blockAt e'.graph e'.order (e'.order.length - 1) = some b →
          ∀ x, b.term ≠ .branch x) → LayoutOk g enter e') := by
  constructor
  · intro fuel
    obtain ⟨s, e, -, hbegin, -, -, hlength, hstarted, -⟩ := beginEmit_spec hg
    have hrelax : ∀ fuel e, Sound e → FuncEmitter.relax fuel e ≠ .error .panic := by
      intro fuel
      induction fuel with
      | zero =>
        intro e _ h
        cases h
      | succ fuel ih =>
        intro e hsound
        obtain ⟨e₁, changing, hpass, hsound₁, -⟩ := hsound.pass
        rw [FuncEmitter.relax, hpass, ok_bind]
        cases changing with
        | true => exact ih e₁ hsound₁
        | false => simp [pure, Except.pure]
    have hne := hrelax fuel e (sound_of_started hlength hstarted)
    rw [emit, hbegin, ok_bind]
    cases h : e.relax fuel with
    | ok e' => simp [pure, Except.pure]
    | error f =>
      rw [h] at hne
      rw [error_bind]
      exact fun heq => hne (by cases heq; rfl)
  · intro e fuel e' hbegin hrelax hsize
    obtain ⟨k, hexit⟩ := relax_eq_ok hrelax
    obtain ⟨s, h⟩ := emitted_of_exit hg hbegin hexit hsize
    refine ⟨k, hexit, ⟨h.lastKeeps hg.typed, h.layoutOk hg⟩, fun hlast => ?_⟩
    exact h.layoutOk hg (h.lastKeeps_of_not_branch hlast)

/-- A graph is as lowering makes it when its blocks are, one by one. -/
theorem wellFormed_of_blocks {g : Graph} {enter : Nat} (henter : enter < g.blocks.length)
    (hblocks : ∀ b ∈ g.blocks, (∀ y ∈ b.term.targets, y < g.blocks.length) ∧
      b.scope < g.scopes.length ∧ (∀ i ∈ b.insts, plainInst i = true ∧ i.Fits) ∧
      ((∃ x, b.term = .branch x) ∨ (∃ x y, b.term = .cond x y) ∨ b.term = .ret)) :
    WellFormed g enter := by
  have hmem : ∀ {x : Nat} {b : Block}, g.blocks[x]? = some b → b ∈ g.blocks :=
    fun h => List.mem_of_getElem? h
  refine ⟨⟨?_, fun x b hb => (hblocks b (hmem hb)).2.1⟩, ?_, henter,
    fun x b hb => (hblocks b (hmem hb)).2.2.1, ?_⟩
  · rintro x y ⟨b, hb, hy⟩
    exact (hblocks b (hmem hb)).1 y hy
  · intro x b sig t f hb hterm
    obtain ⟨-, -, -, ⟨y, h⟩ | ⟨y, z, h⟩ | h⟩ := hblocks b (hmem hb) <;>
      rw [h] at hterm <;> cases hterm
  · intro x b hb next d inst hd hinst
    obtain ⟨-, -, -, ⟨y, h⟩ | ⟨y, z, h⟩ | h⟩ := hblocks b (hmem hb)
    · rw [h] at hinst
      simp only [Term.encode] at hinst
      split at hinst <;> cases hinst
      exact hd
    · rw [h] at hinst
      simp only [Term.encode] at hinst
      split at hinst <;> cases hinst <;> exact hd
    · rw [h] at hinst
      cases hinst
      trivial

theorem settled_wellFormed : WellFormed settled 0 := by
  refine wellFormed_of_blocks (by decide) fun b hb => ?_
  simp only [settled, List.mem_cons, List.not_mem_nil, or_false] at hb
  rcases hb with rfl | rfl | rfl
  · exact ⟨by decide, by decide, by simp [plainInst, Inst.Fits], .inr (.inl ⟨1, 2, rfl⟩)⟩
  · exact ⟨by decide, by decide, by simp [plainInst, Inst.Fits], .inl ⟨2, rfl⟩⟩
  · exact ⟨by decide, by decide, by simp [plainInst, Inst.Fits], .inr (.inr rfl)⟩

/-- The code of `settled` is right. -/
theorem settled_layoutOk : ∃ e', beginEmit settled 0 = .ok settledEmitter ∧
    settledEmitter.relax 2 = .ok e' ∧ LayoutOk settled 0 e' := by
  have hbegin : beginEmit settled 0 = .ok settledEmitter := by decide +kernel
  have hrelax : settledEmitter.relax 2 = .ok (settledEmitter.passes 2) := by decide +kernel
  refine ⟨settledEmitter.passes 2, hbegin, hrelax, ?_⟩
  obtain ⟨k, -, -, hlast⟩ :=
    (emit_layout settled_wellFormed).2 _ _ _ hbegin hrelax (by decide +kernel)
  refine hlast fun b hb x hx => ?_
  have hret : (blockAt (settledEmitter.passes 2).graph (settledEmitter.passes 2).order
      ((settledEmitter.passes 2).order.length - 1)).map (·.term) = some .ret := by
    decide +kernel
  rw [hb, Option.map_some, hx] at hret
  cases hret

/-- A loop of 63 bytes of instructions. -/
def loop63 : Graph where
  funcs := [⟨0, 2, 0, 0, [0]⟩]
  scopes := [⟨none, 0, [], 0, 0, false, some 0⟩]
  blocks := [⟨[], .branch 1, 0, 0⟩,
    ⟨(List.replicate 21 [.loadConst 0, .pop]).flatten, .branch 1, 0, 0⟩, ⟨[], .ret, 0, 0⟩]

/-- The emitter of `loop63` before the loop of `emit`. -/
def loop63Emitter : FuncEmitter :=
  match beginEmit loop63 0 with
  | .ok e => e
  | .error _ => ⟨loop63, [], []⟩

theorem loop63_wellFormed : WellFormed loop63 0 := by
  refine wellFormed_of_blocks (by decide) fun b hb => ?_
  simp only [loop63, List.mem_cons, List.not_mem_nil, or_false] at hb
  rcases hb with rfl | rfl | rfl
  · exact ⟨by decide, by decide, by simp, .inl ⟨1, rfl⟩⟩
  · refine ⟨by decide, by decide, fun i hi => ?_, .inl ⟨1, rfl⟩⟩
    simp only [List.mem_flatten, List.mem_replicate] at hi
    obtain ⟨l, ⟨-, rfl⟩, hi⟩ := hi
    simp only [List.mem_cons, List.not_mem_nil, or_false] at hi
    rcases hi with rfl | rfl <;> simp [plainInst, Inst.Fits]
  · exact ⟨by decide, by decide, by simp, .inr (.inr rfl)⟩

/-- The branch of `loop63` leads to the second byte of its target: the pass that makes it one byte
longer moves no block, and so is the last one. -/
theorem loop63_not_layoutOk : ∃ e', beginEmit loop63 0 = .ok loop63Emitter ∧
    loop63Emitter.relax 1 = .ok e' ∧ ¬ LayoutOk loop63 0 e' := by
  have hbegin : beginEmit loop63 0 = .ok loop63Emitter := by decide +kernel
  have hpass : loop63Emitter.pass = .ok (loop63Emitter.passes 1, false) := by decide +kernel
  refine ⟨loop63Emitter.passes 1, hbegin, by decide +kernel, fun hok => ?_⟩
  obtain ⟨s, h⟩ := emitted_of_exit loop63_wellFormed (k := 0) hbegin hpass (by decide +kernel)
  have hkeeps := h.lastKeeps loop63_wellFormed.typed hok
  have hlen := hkeeps 1 (loop63Emitter.blocks.getD 1 ⟨0, [], 0⟩)
    (loop63.blocks.getD 1 ⟨[], .ret, 0, 0⟩) (by decide +kernel) (by decide +kernel)
    (by decide +kernel) ((loop63Emitter.passes 1).blocks.getD 1 ⟨0, [], 0⟩) (by decide +kernel)
  exact absurd hlen (by decide +kernel)

end Dolang.Compile
