import Dolang.Bytecode.Blocks
import Dolang.Compile.Passes

/-!
# The emitted code

What a function's code should be when the passes of `emit` have ended: the blocks of the order one
after the other, each branch leading to the first byte of the block that its terminator names, and
the same sequence of blocks run for any outcome of the tests (`LayoutOk`). A block whose bytes are
where the layout says and whose branch leads to the right block runs as in the graph (`Laid.run`).
-/

namespace Dolang.Compile

open Dolang.Rust Dolang.Bytecode

/-! ## Running code -/

/-- An instruction that only goes on to the next one. -/
def plainInst : Inst → Bool
  | .branch _ | .branchTrue _ | .branchFalse _ | .unpackBranch _ _ | .ret | .nlBranch _ _
  | .elseFallthrough _ => false
  | _ => true

/-- One instruction at a position, with the outcomes of the tests to come. It says which instruction
of a block it was, if any. -/
def codeStep (code : List UInt8) (pc : Nat) (outcomes : List Bool) :
    Option (List Inst × Nat × List Bool) :=
  match next code pc with
  | some (.ok (inst, after)) =>
    if plainInst inst then some ([inst], after, outcomes)
    else
      match inst, outcomes with
      | .branch d, outcomes => (checkedAddSigned after d).map fun pc => ([], pc, outcomes)
      | .branchTrue d, outcome :: outcomes =>
        (if outcome then checkedAddSigned after d else some after).map fun pc => ([], pc, outcomes)
      | .branchFalse d, outcome :: outcomes | .unpackBranch _ d, outcome :: outcomes =>
        (if outcome then some after else checkedAddSigned after d).map fun pc => ([], pc, outcomes)
      | _, _ => none
  | _ => none

/-- Steps of the code, with the instructions of blocks that they run. -/
inductive CodeRun (code : List UInt8) : Nat → List Bool → List Inst → Nat → List Bool → Prop where
  | refl (pc : Nat) (outcomes : List Bool) : CodeRun code pc outcomes [] pc outcomes
  | step {pc pc' pc'' : Nat} {outcomes outcomes' outcomes'' : List Bool} {ran rest : List Inst} :
      codeStep code pc outcomes = some (ran, pc', outcomes') →
      CodeRun code pc' outcomes' rest pc'' outcomes'' →
      CodeRun code pc outcomes (ran ++ rest) pc'' outcomes''

theorem CodeRun.trans {code : List UInt8} {a b c : Nat} {oa ob oc : List Bool}
    {ran rest : List Inst} (hab : CodeRun code a oa ran b ob) (hbc : CodeRun code b ob rest c oc) :
    CodeRun code a oa (ran ++ rest) c oc := by
  induction hab with
  | refl => exact hbc
  | step hstep _ ih =>
    rw [List.append_assoc]
    exact .step hstep (ih hbc)

theorem CodeRun.single {code : List UInt8} {a b : Nat} {oa ob : List Bool} {ran : List Inst}
    (h : codeStep code a oa = some (ran, b, ob)) : CodeRun code a oa ran b ob := by
  have := CodeRun.step h (.refl b ob)
  rwa [List.append_nil] at this

/-- The block that follows, with the outcomes of the tests to come. -/
def Term.follow : Term → List Bool → Option (Nat × List Bool)
  | .branch target, outcomes => some (target, outcomes)
  | .cond onTrue onFalse, outcome :: outcomes | .unpackIf _ onTrue onFalse, outcome :: outcomes =>
    some (if outcome then onTrue else onFalse, outcomes)
  | _, _ => none

/-- The block that follows is one of the successors. -/
theorem Term.follow_mem {t : Term} {outcomes outcomes' : List Bool} {y : Nat}
    (h : t.follow outcomes = some (y, outcomes')) : y ∈ t.targets := by
  cases t with
  | branch target =>
    obtain ⟨rfl, -⟩ : target = y ∧ outcomes = outcomes' := by simpa [Term.follow] using h
    simp [Term.targets]
  | cond onTrue onFalse | unpackIf sig onTrue onFalse =>
    cases outcomes with
    | nil => cases h
    | cons outcome outcomes =>
      cases h
      cases outcome <;> simp [Term.targets]
  | ret | nlBranch | elseFallthrough => cases h

/-- One step of a graph. -/
def graphStep (g : Graph) (x : Nat) (outcomes : List Bool) : Option (Nat × List Bool) :=
  g.blocks[x]?.bind fun b => b.term.follow outcomes

/-- Steps of a graph, with the blocks that they leave. -/
inductive GraphRun (g : Graph) : Nat → List Bool → List Nat → Nat → List Bool → Prop where
  | refl (x : Nat) (outcomes : List Bool) : GraphRun g x outcomes [] x outcomes
  | step {x y z : Nat} {outcomes outcomes' outcomes'' : List Bool} {left : List Nat} :
      graphStep g x outcomes = some (y, outcomes') → GraphRun g y outcomes' left z outcomes'' →
      GraphRun g x outcomes (x :: left) z outcomes''

/-! ## The layout -/

/-- Instructions with their offsets, from a position on. -/
def layInsts : Nat → List Inst → List InstOffsets
  | _, [] => []
  | pos, inst :: l => ⟨pos, inst, pos + inst.write.length⟩ :: layInsts (pos + inst.write.length) l

/-- The bytes that `emit` returns. -/
def FuncEmitter.code (e : FuncEmitter) : List UInt8 := e.blocks.flatMap (·.bytecode)

/-- The instructions of the block at a position, given the displacement of its branch. -/
def FuncEmitter.blockInsts (e : FuncEmitter) (i : Nat) (d : Int) : List Inst :=
  match blockAt e.graph e.order i with
  | some b => b.insts ++ (b.term.encode e.order[i + 1]? d).toList
  | none => []

/-- Where a block starts. -/
def FuncEmitter.offsetOf (e : FuncEmitter) (x : Nat) : Nat := e.layout.start (e.order.idxOf x)

/-- The instructions of the blocks of a graph. -/
def Graph.instsOf (g : Graph) (blocks : List Nat) : List Inst :=
  blocks.flatMap fun x => (g.blocks[x]?.map (·.insts)).getD []

/-- The code of a function preserves its graph. -/
structure LayoutOk (g : Graph) (enter : Nat) (e : FuncEmitter) : Prop where
  /-- Every block that can be reached is there once, and the others are trampolines. -/
  nodup : e.order.Nodup
  reachable : ∀ x, Relation.ReflTransGen (Edge g) enter x → x ∈ e.order
  others : ∀ x ∈ e.order, Relation.ReflTransGen (Edge g) enter x ∨
    g.blocks.length ≤ x ∧ ∃ f scope func, e.graph.blocks[x]? = some ⟨[], .branch f, scope, func⟩
  /-- The bytes decode into the instructions of the blocks in order, and each displacement leads to
  the start of the block that the terminator names. -/
  decodes : ∃ d : Nat → Int,
    insts e.code 0 = ((List.range e.order.length).flatMap fun i =>
      layInsts (e.layout.start i) (e.blockInsts i (d i))).map .ok ∧
    ∀ (i : Nat) (b : Block) (x : Nat), blockAt e.graph e.order i = some b →
      b.term.jump e.order[i + 1]? = some x →
      x ∈ e.order ∧ checkedAddSigned (e.layout.start (i + 1)) (d i) = some (e.offsetOf x)
  /-- The code runs the blocks that the graph does. -/
  runs : ∀ outcomes left x outcomes', GraphRun g enter outcomes left x outcomes' →
    CodeRun e.code 0 outcomes (g.instsOf left) (e.offsetOf x) outcomes'
  /-- It stops where the graph does. -/
  stops : ∀ x (b : Block), Relation.ReflTransGen (Edge g) enter x → g.blocks[x]? = some b →
    b.term.targets = [] → ∀ outcomes, ∃ pc inst after,
      CodeRun e.code (e.offsetOf x) outcomes b.insts pc outcomes ∧
      b.term.encode none 0 = some inst ∧ next e.code pc = some (.ok (inst, after))

/-- The emitter writes as many bytes for the last block as it has. -/
def LastKeeps (e : FuncEmitter) : Prop :=
  ∀ (i : Nat) (o : OutBlock) (b : Block), i + 1 = e.order.length → e.blocks[i]? = some o →
    blockAt e.graph e.order i = some b → ∀ o', e.visitTerm o b.term none false = .ok o' →
      o'.bytecode.length = o.bytecode.length

/-- The operands of instructions and terminators are what their types hold, and the instructions of a
block do not branch. -/
structure WellTyped (g : Graph) : Prop where
  plain : ∀ (x : Nat) (b : Block), g.blocks[x]? = some b → ∀ i ∈ b.insts, plainInst i = true ∧ i.Fits
  term : ∀ (x : Nat) (b : Block), g.blocks[x]? = some b → ∀ next d inst,
    -2^63 ≤ d ∧ d < 2^63 → b.term.encode next d = some inst → inst.Fits

/-! ## Written instructions -/

theorem layInsts_append (pos : Nat) (a b : List Inst) :
    layInsts pos (a ++ b) = layInsts pos a ++ layInsts (pos + (a.flatMap Inst.write).length) b := by
  induction a generalizing pos with
  | nil => simp [layInsts]
  | cons inst a ih =>
    simp only [List.cons_append, layInsts, ih, List.flatMap_cons, List.length_append, Nat.add_assoc]

/-- Written instructions decode to themselves. -/
theorem chain_layInsts (pre : List UInt8) {l : List Inst} (hfits : ∀ i ∈ l, i.Fits) :
    Chain (pre ++ l.flatMap Inst.write) pre.length (layInsts pre.length l) := by
  induction l generalizing pre with
  | nil => simp [Chain, layInsts]
  | cons inst l ih =>
    have hnext := next_write pre (l.flatMap Inst.write) (hfits inst List.mem_cons_self)
    have hrest := ih (pre ++ inst.write) fun i hi => hfits i (List.mem_cons_of_mem _ hi)
    rw [List.length_append] at hrest
    rw [List.flatMap_cons, ← List.append_assoc]
    exact ⟨rfl, hnext, hrest⟩

/-- The instructions of a block are run one after the other. -/
theorem codeRun_insts {code pre post : List UInt8} {l : List Inst} {outcomes : List Bool}
    (hcode : code = pre ++ l.flatMap Inst.write ++ post)
    (hplain : ∀ i ∈ l, plainInst i = true ∧ i.Fits) :
    CodeRun code pre.length outcomes l (pre ++ l.flatMap Inst.write).length outcomes := by
  induction l generalizing pre with
  | nil =>
    simp only [List.flatMap_nil, List.append_nil]
    exact .refl _ _
  | cons inst l ih =>
    obtain ⟨hp, hfits⟩ := hplain inst List.mem_cons_self
    have hsplit : code = (pre ++ inst.write) ++ l.flatMap Inst.write ++ post := by
      rw [hcode, List.flatMap_cons]
      simp only [List.append_assoc]
    have hrest := ih hsplit fun i hi => hplain i (List.mem_cons_of_mem _ hi)
    have hnext : next code pre.length = some (.ok (inst, (pre ++ inst.write).length)) := by
      have := next_write pre (l.flatMap Inst.write ++ post) hfits
      rw [List.length_append, hsplit, List.append_assoc (pre ++ inst.write)]
      exact this
    have hstep : codeStep code pre.length outcomes =
        some ([inst], (pre ++ inst.write).length, outcomes) := by
      simp only [codeStep, hnext, hp, if_true]
    rw [List.flatMap_cons, ← List.append_assoc]
    exact .step hstep hrest

/-! ## The blocks after the last pass -/

/-- A block of the emitted code: where its bytes are, and how its branch was computed. -/
structure Laid (e : FuncEmitter) (i : Nat) (b : Block) (d : Int) : Prop where
  shape : Shape e.graph e.order i b
  bytes : ∃ pre post, e.code = pre ++ (e.blockInsts i d).flatMap Inst.write ++ post ∧
    pre.length = e.layout.start i ∧
    (pre ++ (e.blockInsts i d).flatMap Inst.write).length = e.layout.start (i + 1)

theorem Shape.blockInsts {e : FuncEmitter} {i : Nat} {b : Block}
    (h : Shape e.graph e.order i b) (d : Int) :
    e.blockInsts i d = b.insts ++ (b.term.encode e.order[i + 1]? d).toList := by
  simp [FuncEmitter.blockInsts, h.blockAt]

theorem flatMap_toList_write (o : Option Inst) :
    o.toList.flatMap Inst.write = (o.map Inst.write).getD [] := by
  cases o <;> simp

section

variable {e e' : FuncEmitter}

/-- The bytes of the blocks one after the other. -/
theorem length_flatMap_bytecode (l : List OutBlock) :
    (l.flatMap (·.bytecode)).length = (l.map (·.bytecode.length)).sum := by
  rw [List.length_flatMap]

/-- A block that a pass has written is where the layout says. -/
theorem Rewritten.laid (hsound : Sound e) (hgraph : e'.graph = e.graph)
    (horder : e'.order = e.order) (hlength : e'.blocks.length = e.blocks.length)
    (hblocks : ∀ i < e.order.length, ∃ b o o' d, Rewritten e e' i b o o' d) {i : Nat} {b : Block}
    {o o' : OutBlock} {d : Int} (h : Rewritten e e' i b o o' d) : Laid e' i b d := by
  have hi : i < e.order.length := hsound.ready.length ▸ (List.getElem?_eq_some_iff.mp h.before).1
  have hshape : Shape e'.graph e'.order i b := by
    rw [hgraph, horder]
    exact h.shape
  have hbytes : (e'.blockInsts i d).flatMap Inst.write = o'.bytecode := by
    rw [hshape.blockInsts, List.flatMap_append, flatMap_toList_write, h.bytecode, horder]
    rfl
  obtain ⟨hlt, hget⟩ := List.getElem?_eq_some_iff.mp h.after
  have hsplit : e'.blocks = e'.blocks.take i ++ o' :: e'.blocks.drop (i + 1) := by
    conv_lhs => rw [← List.take_append_drop i e'.blocks, List.drop_eq_getElem_cons hlt]
    rw [hget]
  refine ⟨hshape, (e'.blocks.take i).flatMap (·.bytecode),
    (e'.blocks.drop (i + 1)).flatMap (·.bytecode), ?_, ?_, ?_⟩
  · rw [hbytes]
    conv_lhs => rw [FuncEmitter.code, hsplit]
    simp only [List.flatMap_append, List.flatMap_cons, List.append_assoc]
  · rw [length_flatMap_bytecode, start_eq_sum hsound.ready hlength hblocks (Nat.le_of_lt hi)]
  · rw [hbytes, List.length_append, length_flatMap_bytecode,
      start_eq_sum hsound.ready hlength hblocks hi, List.take_add_one, h.after]
    simp

end

/-! ## Running a block -/

/-- The branch of a block leads to the block that its terminator names. -/
def Lands (e : FuncEmitter) (i : Nat) (b : Block) (d : Int) : Prop :=
  ∀ x, b.term.jump e.order[i + 1]? = some x →
    x ∈ e.order ∧ checkedAddSigned (e.layout.start (i + 1)) d = some (e.offsetOf x)

section

variable {e : FuncEmitter} {i : Nat} {b : Block} {d : Int}

/-- A block of the order starts where the layout says. -/
theorem offsetOf_eq (hnodup : e.order.Nodup) {x : Nat} (hx : e.order[i]? = some x) :
    e.offsetOf x = e.layout.start i := by
  obtain ⟨hlt, rfl⟩ := List.getElem?_eq_some_iff.mp hx
  rw [FuncEmitter.offsetOf, hnodup.idxOf_getElem i hlt]

/-- The code of a block runs its instructions, and then its terminator is next. -/
theorem Laid.run_insts (h : Laid e i b d) (hplain : ∀ i ∈ b.insts, plainInst i = true ∧ i.Fits)
    (outcomes : List Bool) :
    ∃ pc, CodeRun e.code (e.layout.start i) outcomes b.insts pc outcomes ∧
      (b.term.encode e.order[i + 1]? d = none → pc = e.layout.start (i + 1)) ∧
      ∀ inst, b.term.encode e.order[i + 1]? d = some inst → inst.Fits →
        next e.code pc = some (.ok (inst, e.layout.start (i + 1))) := by
  obtain ⟨pre, post, hcode, hpre, hend⟩ := h.bytes
  rw [h.shape.blockInsts] at hcode hend
  rw [List.flatMap_append, ← List.append_assoc] at hcode hend
  refine ⟨(pre ++ b.insts.flatMap Inst.write).length, ?_, ?_, ?_⟩
  · rw [← hpre]
    rw [List.append_assoc] at hcode
    exact codeRun_insts hcode hplain
  · intro hnone
    rw [← hend, hnone]
    simp
  · intro inst hinst hfits
    rw [hinst] at hcode hend
    simp only [Option.toList_some, List.flatMap_cons, List.flatMap_nil, List.append_nil] at hcode hend
    rw [hcode, next_write _ _ hfits, ← hend]
    simp only [List.length_append]

/-- The code of a block goes on to the block that follows in the graph. -/
theorem Laid.run (h : Laid e i b d) (hnodup : e.order.Nodup)
    (hplain : ∀ i ∈ b.insts, plainInst i = true ∧ i.Fits)
    (hfits : ∀ inst, b.term.encode e.order[i + 1]? d = some inst → inst.Fits)
    (hlands : Lands e i b d) {outcomes outcomes' : List Bool} {y : Nat}
    (hfollow : b.term.follow outcomes = some (y, outcomes')) :
    CodeRun e.code (e.layout.start i) outcomes b.insts (e.offsetOf y) outcomes' := by
  obtain ⟨pc, hrun, hnone, hsome⟩ := h.run_insts hplain outcomes
  -- The block that is next in the order starts at the end of this one.
  have hfall : ∀ x, e.order[i + 1]? = some x → e.offsetOf x = e.layout.start (i + 1) :=
    fun x hx => offsetOf_eq hnodup hx
  -- It remains to run the terminator.
  suffices hterm : CodeRun e.code pc outcomes [] (e.offsetOf y) outcomes' by
    have := hrun.trans hterm
    rwa [List.append_nil] at this
  have hencodable := h.shape.term
  cases hb : b.term with
  | ret | nlBranch depth indicator | elseFallthrough kind =>
    rw [hb] at hfollow
    cases hfollow
  | branch t =>
    rw [hb] at hfollow
    obtain ⟨rfl, rfl⟩ : t = y ∧ outcomes = outcomes' := by simpa [Term.follow] using hfollow
    by_cases hnext : some t ≠ e.order[i + 1]?
    · have henc : b.term.encode e.order[i + 1]? d = some (.branch d) := by
        simp [hb, Term.encode, hnext]
      obtain ⟨-, hland⟩ := hlands t (by simp [hb, Term.jump, hnext])
      apply CodeRun.single
      simp [codeStep, hsome _ henc (hfits _ henc), plainInst, hland]
    · have heq : e.order[i + 1]? = some t := (not_not.mp hnext).symm
      have henc : b.term.encode e.order[i + 1]? d = none := by
        simp [hb, Term.encode, heq]
      rw [hnone henc, hfall t heq]
      exact .refl _ _
  | cond t f =>
    rw [hb] at hencodable hfollow
    cases outcomes with
    | nil => cases hfollow
    | cons outcome outcomes =>
      cases hfollow
      apply CodeRun.single
      rcases hencodable with ⟨hnext, -⟩ | ⟨hne, hnext, -⟩
      · have henc : b.term.encode e.order[i + 1]? d = some (.branchFalse d) := by
          simp [hb, Term.encode, hnext]
        obtain ⟨-, hland⟩ := hlands f (by simp [hb, Term.jump, hnext])
        cases outcome
        · simp [codeStep, hsome _ henc (hfits _ henc), plainInst, hland]
        · simp [codeStep, hsome _ henc (hfits _ henc), plainInst, hfall t hnext.symm]
      · have henc : b.term.encode e.order[i + 1]? d = some (.branchTrue d) := by
          simp [hb, Term.encode, hne]
        obtain ⟨-, hland⟩ := hlands t (by simp [hb, Term.jump, hne])
        cases outcome
        · simp [codeStep, hsome _ henc (hfits _ henc), plainInst, hfall f hnext.symm]
        · simp [codeStep, hsome _ henc (hfits _ henc), plainInst, hland]
  | unpackIf sig t f =>
    rw [hb] at hencodable hfollow
    cases outcomes with
    | nil => cases hfollow
    | cons outcome outcomes =>
      cases hfollow
      apply CodeRun.single
      have henc : b.term.encode e.order[i + 1]? d = some (.unpackBranch sig d) := by
        simp [hb, Term.encode]
      obtain ⟨-, hland⟩ := hlands f (by simp [hb, Term.jump])
      cases outcome
      · simp [codeStep, hsome _ henc (hfits _ henc), plainInst, hland]
      · simp [codeStep, hsome _ henc (hfits _ henc), plainInst, hfall t hencodable.1.symm]

end

end Dolang.Compile
