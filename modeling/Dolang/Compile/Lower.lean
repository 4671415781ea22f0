import Dolang.Compile.Graph

/-!
# Lowering short circuits

`lower_short_circuit` of `dolang-compile/src/lower.rs` and the arms of `lower_expr` that use it, over
the graph of `Compile/Graph.lean`. An expression is made of `&&`, `||`, `!`, groups and casts over
operands, which are all the other expressions; how an operand is lowered is a parameter. Spans and
inbound edges are left out: nothing here reads them.

The graph that lowering leaves differs from the one before in the current block and in new blocks
only (`Graph.Extends`).
-/

namespace Dolang.Compile

open Dolang.Rust Dolang.Bytecode

/-- The operator of an `Expr::Logical`. -/
inductive LogicalOp where
  | ampAmp
  | barBar
  deriving DecidableEq, Repr

/-- `Expr`, as far as short circuits go. The operands of an `Expr::Logical` are split as
`exprs.split_last()` does, so there is a last one. -/
inductive Expr (O : Type) where
  | operand (o : O)
  | group (expr : Expr O)
  | cast (expr : Expr O)
  | bang (expr : Expr O)
  | logical (op : LogicalOp) (init : List (Expr O)) (last : Expr O)

/-- An expression is an `Expr::Logical` in groups and casts. -/
def Expr.isLogical {O : Type} : Expr O → Bool
  | .group e | .cast e => e.isLogical
  | .logical .. => true
  | .operand _ | .bang _ => false

/-- `lower_expr` passes an `Expr::Logical` on to `lower_short_circuit`, which passes everything else
back. -/
def Expr.rank {O : Type} : Expr O → Nat
  | .logical .. => 1
  | _ => 0

theorem Expr.rank_logical {O : Type} (op : LogicalOp) (init : List (Expr O)) (last : Expr O) :
    (Expr.logical op init last).rank = 1 := rfl

theorem Expr.rank_operand {O : Type} (o : O) : (Expr.operand o).rank = 0 := rfl

theorem Expr.rank_group {O : Type} (e : Expr O) : e.group.rank = 0 := rfl

theorem Expr.rank_cast {O : Type} (e : Expr O) : e.cast.rank = 0 := rfl

theorem Expr.rank_bang {O : Type} (e : Expr O) : e.bang.rank = 0 := rfl

theorem Expr.rank_le {O : Type} (e : Expr O) : e.rank ≤ 1 := by
  cases e <;> simp [Expr.rank]

/-- Change a block. -/
def Graph.update (g : Graph) (id : Nat) (f : Block → Block) : Graph :=
  { g with blocks := g.blocks.modify id f }

/-- `Scope` of `lower.rs`: the graph, and the block that instructions are added to. -/
structure Lowering where
  graph : Graph
  bb : Nat
  deriving DecidableEq, Repr

namespace Lowering

/-- The current block. -/
def block (s : Lowering) : Exec Empty Block := unwrap s.graph.blocks[s.bb]?

/-- Add an instruction to the current block. -/
def push (s : Lowering) (inst : Inst) : Lowering :=
  { s with graph := s.graph.update s.bb fun b => { b with insts := b.insts ++ [inst] } }

/-- End the current block. -/
def setTerm (s : Lowering) (term : Term) : Lowering :=
  { s with graph := s.graph.update s.bb fun b => { b with term } }

/-- Allocate a block of the function and the scope of the current one. -/
def alloc (s : Lowering) : Exec Empty (Lowering × Nat) := do
  let b ← s.block
  let (graph, id) ← s.graph.allocBlock b.func b.scope
  return ({ s with graph }, id)

/-- `Scope::switch`. -/
def switch (s : Lowering) (id : Nat) : Exec Empty Lowering := do
  let _ ← unwrap s.graph.blocks[id]?
  return { s with bb := id }

/-- `Scope::link`, which fails for a block that does not exist. -/
def link (s : Lowering) (id : Nat) : Exec Empty Unit := do
  let _ ← unwrap s.graph.blocks[id]?

/-- The branch that ends a test of an operand, once the operand is lowered. -/
def branchOn (s : Lowering) (onThen onElse : Nat) (wantResult : Bool) : Exec Empty Lowering := do
  if onThen = onElse then
    let s := if wantResult then s else s.push .pop
    let s := s.setTerm (.branch onThen)
    s.link onThen
    return s
  else
    let s := if wantResult then s.push .dup else s
    let s := s.setTerm (.cond onThen onElse)
    s.link onElse
    s.link onThen
    return s

/-- The closure `load` of `lower_expr`: a block that loads a truth value and goes on at `join`.
`constBool` is `consttab.bool`. -/
def load (constBool : Bool → Nat) (s : Lowering) (join : Nat) (value : Bool) :
    Exec Empty (Lowering × Nat) := do
  let (s, id) ← s.alloc
  let graph := s.graph.update id fun b =>
    { b with insts := b.insts ++ [.loadConst (constBool value)], term := .branch join }
  let _ ← unwrap graph.blocks[join]?
  return ({ s with graph }, id)

end Lowering

section Lower

variable {O : Type} (lowerOperand : O → Lowering → Exec Empty Lowering) (constBool : Bool → Nat)

mutual

/-- `lower_expr`. -/
def lowerExpr : Expr O → Lowering → Exec Empty Lowering
  | .operand o, s => lowerOperand o s
  | .group e, s => lowerExpr e s
  | .cast e, s => lowerExpr e s
  | .logical op init last, s => do
    let (s, join) ← s.alloc
    let s ← lowerShortCircuit (.logical op init last) join join true s
    s.switch join
  | .bang e, s =>
    if e.isLogical then do
      let (s, join) ← s.alloc
      let (s, falsy) ← s.load constBool join false
      let (s, truthy) ← s.load constBool join true
      let s ← lowerShortCircuit e falsy truthy false s
      s.switch join
    else do
      let s ← lowerExpr e s
      return s.push .not
termination_by e => 2 * sizeOf e + e.rank
decreasing_by
  all_goals simp only [Expr.rank_logical, Expr.rank_group, Expr.rank_cast,
    Expr.rank_bang, Expr.group.sizeOf_spec, Expr.cast.sizeOf_spec,
    Expr.bang.sizeOf_spec, Expr.logical.sizeOf_spec]
  all_goals have := Expr.rank_le ‹Expr O›; omega

/-- `lower_short_circuit`. -/
def lowerShortCircuit : Expr O → Nat → Nat → Bool → Lowering → Exec Empty Lowering
  | .group e, onThen, onElse, wantResult, s => lowerShortCircuit e onThen onElse wantResult s
  | .cast e, onThen, onElse, wantResult, s => lowerShortCircuit e onThen onElse wantResult s
  | .bang e, onThen, onElse, false, s => lowerShortCircuit e onElse onThen false s
  | .bang e, onThen, onElse, true, s => do
    let s ← lowerExpr (.bang e) s
    s.branchOn onThen onElse true
  | .logical op init last, onThen, onElse, wantResult, s => do
    let s ← lowerInit op init onThen onElse wantResult s
    lowerShortCircuit last onThen onElse wantResult s
  | .operand o, onThen, onElse, wantResult, s => do
    let s ← lowerExpr (.operand o) s
    s.branchOn onThen onElse wantResult
termination_by e => 2 * sizeOf e + (1 - e.rank)
decreasing_by
  all_goals simp only [Expr.rank_logical, Expr.rank_operand, Expr.rank_group, Expr.rank_cast,
    Expr.rank_bang, Expr.group.sizeOf_spec, Expr.cast.sizeOf_spec,
    Expr.bang.sizeOf_spec, Expr.logical.sizeOf_spec, Expr.operand.sizeOf_spec]
  all_goals omega

/-- The loop of `lower_short_circuit` over all operands but the last. -/
def lowerInit (op : LogicalOp) : List (Expr O) → Nat → Nat → Bool → Lowering → Exec Empty Lowering
  | [], _, _, _, s => .ok s
  | e :: init, onThen, onElse, wantResult, s => do
    let (s, long) ← s.alloc
    let (t, f) := match op with
      | .ampAmp => (long, onElse)
      | .barBar => (onThen, long)
    let s ← lowerShortCircuit e t f wantResult s
    let s ← s.switch long
    let s := if wantResult then s.push .pop else s
    lowerInit op init onThen onElse wantResult s
termination_by init => 2 * sizeOf init
decreasing_by
  all_goals simp only [List.cons.sizeOf_spec]
  all_goals omega
end

end Lower

/-! ## What lowering changes -/

/-- Every block is in a scope of the graph. -/
def Graph.Scoped (g : Graph) : Prop := ∀ b ∈ g.blocks, b.scope < g.scopes.length

/-- The instructions of a block. -/
def Graph.insts (g : Graph) (id : Nat) : List Inst := (g.blocks[id]?.map (·.insts)).getD []

/-- A block is the current one or not yet allocated. -/
def Graph.Within (g : Graph) (bb id : Nat) : Prop := id = bb ∨ g.blocks.length ≤ id

/-- Lowering into the block `bb` of `g` can leave `g'`. -/
structure Graph.Extends (g : Graph) (bb : Nat) (g' : Graph) : Prop where
  scopes : g'.Scoped
  length_le : g.blocks.length ≤ g'.blocks.length
  /-- The other blocks are as before. -/
  old : ∀ b < g.blocks.length, b ≠ bb → g'.blocks[b]? = g.blocks[b]?
  /-- The current block only grows. -/
  here : g.insts bb <+: g'.insts bb

/-- The graph `h` has the code that lowering added to the block `bb` of `g` when it left `g'`. Of the
block `after`, which is still open, it may have more. -/
def Graph.Keeps (g : Graph) (bb : Nat) (g' : Graph) (after : Option Nat) (h : Graph) : Prop :=
  ∀ b < g'.blocks.length, g.Within bb b →
    if after = some b then g'.insts b <+: h.insts b else h.blocks[b]? = g'.blocks[b]?

/-- The state of a lowering is consistent. -/
structure Lowering.Valid (s : Lowering) : Prop where
  scopes : s.graph.Scoped
  lt : s.bb < s.graph.blocks.length

/-- Where the next instruction goes. -/
def Lowering.pos (s : Lowering) : Nat := (s.graph.insts s.bb).length

namespace Graph

variable {g g₁ g₂ h : Graph} {bb bb₁ id : Nat} {after : Option Nat}

theorem insts_congr (heq : g.blocks[id]? = g₁.blocks[id]?) : g.insts id = g₁.insts id := by
  rw [insts, insts, heq]

theorem insts_eq {b : Block} (hb : g.blocks[id]? = some b) : g.insts id = b.insts := by
  rw [insts, hb]
  rfl

theorem Within.trans (hbb : g.Within bb bb₁) (hle : g.blocks.length ≤ g₁.blocks.length)
    (hid : g₁.Within bb₁ id) : g.Within bb id := by
  rcases hid with rfl | hid
  · exact hbb
  · exact .inr (hle.trans hid)

theorem Extends.refl (hg : g.Scoped) : g.Extends bb g :=
  ⟨hg, Nat.le_refl _, fun _ _ _ => rfl, List.prefix_refl _⟩

/-- Lowering goes on in the same block, or in one that it has allocated. -/
theorem Extends.trans (h₁ : g.Extends bb g₁) (hlt : bb < g.blocks.length) (hbb : g.Within bb bb₁)
    (h₂ : g₁.Extends bb₁ g₂) : g.Extends bb g₂ := by
  have hold : ∀ b < g.blocks.length, b ≠ bb₁ → g₂.blocks[b]? = g₁.blocks[b]? := fun b hb hne =>
    h₂.old b (hb.trans_le h₁.length_le) hne
  refine ⟨h₂.scopes, h₁.length_le.trans h₂.length_le, fun b hb hne => ?_, ?_⟩
  · have hne₁ : b ≠ bb₁ := by
      rintro rfl
      exact hbb.elim hne (fun hle => absurd hb (Nat.not_lt.mpr hle))
    rw [hold b hb hne₁, h₁.old b hb hne]
  · by_cases hsame : bb = bb₁
    · subst hsame
      exact h₁.here.trans h₂.here
    · rw [insts_congr (hold bb hlt hsame)]
      exact h₁.here

/-- The code of a first part of a lowering, whose last block the rest goes on in. -/
theorem Keeps.left (hk : g.Keeps bb g₂ after h) (h₂ : g₁.Extends bb₁ g₂)
    (hafter : ∀ b ∈ after, g₁.Within bb₁ b) : g.Keeps bb g₁ (some bb₁) h := by
  intro b hb hwithin
  have hkb := hk b (hb.trans_le h₂.length_le) hwithin
  by_cases hsame : bb₁ = b
  · subst hsame
    rw [if_pos rfl]
    split at hkb
    · exact h₂.here.trans hkb
    · rw [insts_congr hkb]
      exact h₂.here
  · rw [if_neg (by simpa using hsame)]
    have hnot : after ≠ some b := fun heq =>
      (hafter b heq).elim (fun h => hsame h.symm) (fun hle => absurd hb (Nat.not_lt.mpr hle))
    rw [if_neg hnot] at hkb
    rw [hkb, h₂.old b hb (Ne.symm hsame)]

/-- The code of the rest of a lowering. -/
theorem Keeps.right (hk : g.Keeps bb g₂ after h) (hbb : g.Within bb bb₁)
    (hle : g.blocks.length ≤ g₁.blocks.length) : g₁.Keeps bb₁ g₂ after h :=
  fun b hb hwithin => hk b hb (hbb.trans hle hwithin)

/-- A lowering that does not touch the open block keeps all it made. -/
theorem Keeps.close (hk : g.Keeps bb g₁ (some id) h) (hid : ¬g.Within bb id) :
    g.Keeps bb g₁ none h := by
  intro b hb hwithin
  have hne : some id ≠ some b := fun heq => hid (Option.some.inj heq ▸ hwithin)
  have hkb := hk b hb hwithin
  rw [if_neg hne] at hkb
  rw [if_neg (Option.some_ne_none b).symm]
  exact hkb

/-- A block that lowering is done with. -/
theorem Keeps.block (hk : g.Keeps bb g₁ after h) (hlt : id < g₁.blocks.length)
    (hid : g.Within bb id) (hafter : after ≠ some id) : h.blocks[id]? = g₁.blocks[id]? := by
  have := hk id hlt hid
  rwa [if_neg hafter] at this

theorem getElem?_update (f : Block → Block) (i : Nat) :
    (g.update id f).blocks[i]? = if id = i then g.blocks[i]?.map f else g.blocks[i]? := by
  rw [update, List.getElem?_modify]
  split
  · rfl
  · exact Option.map_id'

/-- A change that adds instructions to the current block. -/
theorem Extends.update (hg : g.Scoped) {f : Block → Block} (hscope : ∀ b, (f b).scope = b.scope)
    (hinsts : ∀ b, b.insts <+: (f b).insts) : g.Extends bb (g.update bb f) := by
  refine ⟨fun b hb => ?_, (List.length_modify ..).ge, fun b _ hne => ?_, ?_⟩
  · obtain ⟨i, hi⟩ := List.mem_iff_getElem?.mp hb
    rw [getElem?_update] at hi
    split at hi
    · obtain ⟨b', hb', rfl⟩ := Option.map_eq_some_iff.mp hi
      rw [hscope]
      exact hg b' (List.mem_of_getElem? hb')
    · exact hg b (List.mem_of_getElem? hi)
  · rw [getElem?_update, if_neg hne.symm]
  · rw [insts, insts, getElem?_update, if_pos rfl]
    cases g.blocks[bb]? with
    | none => exact List.prefix_refl _
    | some b => exact hinsts b

/-- A new block. -/
theorem Extends.concat (hg : g.Scoped) {b : Block} (hb : b.scope < g.scopes.length) :
    g.Extends bb { g with blocks := g.blocks ++ [b] } := by
  refine ⟨fun b' hb' => ?_, ?_, fun i hi _ => List.getElem?_append_left hi, ?_⟩
  · rcases List.mem_append.mp hb' with hold | hnew
    · exact hg b' hold
    · rwa [List.mem_singleton.mp hnew]
  · rw [List.length_append]
    exact Nat.le_add_right _ _
  · by_cases hlt : bb < g.blocks.length
    · have hsame : insts { g with blocks := g.blocks ++ [b] } bb = g.insts bb := by
        rw [insts, insts, List.getElem?_append_left hlt]
      exact hsame ▸ List.prefix_refl _
    · have hnil : g.insts bb = [] := by simp [insts, List.getElem?_eq_none (Nat.not_lt.mp hlt)]
      exact hnil ▸ List.nil_prefix

theorem Extends.valid (h₁ : g.Extends bb g₁) (hlt : id < g₁.blocks.length) :
    Lowering.Valid ⟨g₁, id⟩ :=
  ⟨h₁.scopes, hlt⟩

end Graph

namespace Lowering

variable {s : Lowering} {id onThen onElse : Nat}

theorem Valid.block (hs : s.Valid) : ∃ b, s.graph.blocks[s.bb]? = some b ∧
    b.insts = s.graph.insts s.bb ∧ b.scope < s.graph.scopes.length := by
  have hb := List.getElem?_eq_getElem hs.lt
  exact ⟨_, hb, (Graph.insts_eq hb).symm, hs.scopes _ (List.mem_of_getElem? hb)⟩

theorem push_extends (hs : s.Valid) (inst : Inst) : s.graph.Extends s.bb (s.push inst).graph :=
  .update hs.scopes (fun _ => rfl) fun _ => List.prefix_append _ _

theorem push_valid (hs : s.Valid) (inst : Inst) : (s.push inst).Valid :=
  (push_extends hs inst).valid (hs.lt.trans_le (push_extends hs inst).length_le)

theorem insts_push (hs : s.Valid) (inst : Inst) :
    (s.push inst).graph.insts s.bb = s.graph.insts s.bb ++ [inst] := by
  obtain ⟨b, hb, hinsts, -⟩ := hs.block
  rw [push, Graph.insts, Graph.getElem?_update, if_pos rfl, hb, ← hinsts]
  rfl

theorem pos_push (hs : s.Valid) (inst : Inst) : (s.push inst).pos = s.pos + 1 := by
  rw [pos, pos, ← List.length_singleton (a := inst), ← List.length_append, ← insts_push hs]
  rfl

/-- A new block is empty, and in the scope of the current one. -/
theorem alloc_ok (hs : s.Valid) : ∃ b, s.alloc =
      .ok ({ s with graph := { s.graph with blocks := s.graph.blocks ++ [b] } },
        s.graph.blocks.length) ∧
    b.insts = [] ∧ b.scope < s.graph.scopes.length := by
  obtain ⟨b, hb, -, hscope⟩ := hs.block
  refine ⟨⟨[], .ret, b.scope, b.func⟩, ?_, rfl, hscope⟩
  have halloc : s.graph.allocBlock b.func b.scope = .ok
      ({ s.graph with blocks := s.graph.blocks ++ [⟨[], .ret, b.scope, b.func⟩] },
        s.graph.blocks.length) := by
    rw [Graph.allocBlock, List.getElem?_eq_getElem hscope]
    rfl
  rw [alloc, block, hb]
  show (s.graph.allocBlock b.func b.scope >>= _) = _
  rw [halloc]
  rfl

theorem link_ok (hid : id < s.graph.blocks.length) : s.link id = .ok () := by
  rw [link, List.getElem?_eq_getElem hid]
  rfl

theorem switch_ok (hid : id < s.graph.blocks.length) : s.switch id = .ok { s with bb := id } := by
  rw [switch, List.getElem?_eq_getElem hid]
  rfl

/-- A block that loads a truth value. -/
theorem load_ok (hs : s.Valid) (constBool : Bool → Nat) {join : Nat}
    (hjoin : join < s.graph.blocks.length) (value : Bool) : ∃ b, s.load constBool join value =
      .ok ({ s with graph := { s.graph with blocks := s.graph.blocks ++ [b] } },
        s.graph.blocks.length) ∧
    b.insts = [.loadConst (constBool value)] ∧ b.term = .branch join ∧
    b.scope < s.graph.scopes.length := by
  obtain ⟨b, halloc, hinsts, hscope⟩ := alloc_ok hs
  refine ⟨⟨b.insts ++ [.loadConst (constBool value)], .branch join, b.scope, b.func⟩, ?_,
    by rw [hinsts]; rfl, rfl, hscope⟩
  have hmodify (f : Block → Block) : (s.graph.blocks ++ [b]).modify s.graph.blocks.length f =
      s.graph.blocks ++ [f b] := by
    rw [List.modify_eq_set_getElem?, List.getElem?_concat_length]
    simp
  rw [load, halloc, ok_bind]
  simp only [Graph.update, hmodify]
  rw [List.getElem?_append_left hjoin, List.getElem?_eq_getElem hjoin]
  rfl

/-- What a branch adds to the current block. -/
def branchInsts (onThen onElse : Nat) (wantResult : Bool) : List Inst :=
  if onThen = onElse then if wantResult then [] else [.pop]
  else if wantResult then [.dup] else []

/-- A branch ends the current block. -/
theorem branchOn_ok (wantResult : Bool) (hs : s.Valid) (hthen : onThen < s.graph.blocks.length)
    (helse : onElse < s.graph.blocks.length) : ∃ g b,
    s.branchOn onThen onElse wantResult = .ok ⟨g, s.bb⟩ ∧ s.graph.Extends s.bb g ∧
    g.blocks[s.bb]? = some b ∧
    b.insts = s.graph.insts s.bb ++ branchInsts onThen onElse wantResult ∧
    b.term = if onThen = onElse then .branch onThen else .cond onThen onElse := by
  have hend (s' : Lowering) (hs' : s'.Valid) (hext : s.graph.Extends s.bb s'.graph)
      (hbb : s'.bb = s.bb) (term : Term) : s.graph.Extends s.bb (s'.setTerm term).graph ∧
      ∃ b, (s'.setTerm term).graph.blocks[s.bb]? = some b ∧ b.insts = s'.graph.insts s.bb ∧
        b.term = term := by
    obtain ⟨b, hb, hinsts, -⟩ := hs'.block
    rw [hbb] at hb hinsts
    refine ⟨hext.trans hs.lt (.inl rfl) ?_, { b with term }, ?_, hinsts, rfl⟩
    · rw [← hbb]
      exact .update hs'.scopes (fun _ => rfl) fun _ => List.prefix_refl _
    · rw [setTerm, Graph.getElem?_update, if_pos hbb, hb]
      rfl
  have hlink (s' : Lowering) (hext : s.graph.Extends s.bb s'.graph) {id : Nat}
      (hid : id < s.graph.blocks.length) : s'.link id = .ok () :=
    link_ok (hid.trans_le hext.length_le)
  have hself : s.graph.Extends s.bb s.graph := .refl hs.scopes
  rw [branchOn, branchInsts]
  by_cases hsame : onThen = onElse
  · simp only [if_pos hsame]
    cases wantResult
    · obtain ⟨hext, b, hb, hinsts, hterm⟩ := hend (s.push .pop) (push_valid hs _)
        (push_extends hs _) rfl (.branch onThen)
      refine ⟨_, b, ?_, hext, hb, hinsts.trans (insts_push hs _), hterm⟩
      simp only [Bool.false_eq_true, if_false, hlink _ hext hthen]
      rfl
    · obtain ⟨hext, b, hb, hinsts, hterm⟩ := hend s hs hself rfl (.branch onThen)
      refine ⟨_, b, ?_, hext, hb, hinsts.trans (List.append_nil _).symm, hterm⟩
      simp only [if_true, hlink _ hext hthen]
      rfl
  · simp only [if_neg hsame]
    cases wantResult
    · obtain ⟨hext, b, hb, hinsts, hterm⟩ := hend s hs hself rfl (.cond onThen onElse)
      refine ⟨_, b, ?_, hext, hb, hinsts.trans (List.append_nil _).symm, hterm⟩
      simp only [Bool.false_eq_true, if_false, hlink _ hext helse, hlink _ hext hthen]
      rfl
    · obtain ⟨hext, b, hb, hinsts, hterm⟩ := hend (s.push .dup) (push_valid hs _)
        (push_extends hs _) rfl (.cond onThen onElse)
      refine ⟨_, b, ?_, hext, hb, hinsts.trans (insts_push hs _), hterm⟩
      simp only [if_true, hlink _ hext helse, hlink _ hext hthen]
      rfl

end Lowering

end Dolang.Compile
