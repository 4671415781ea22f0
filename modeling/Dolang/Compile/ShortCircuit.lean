import Dolang.Compile.Evaluate

/-!
# Short circuits are lowered correctly

The code that `lower_short_circuit` adds does what left-to-right short-circuit evaluation does. A
statement about a lowering says what runs of any graph do that has its code (`Graph.Keeps`), so it
holds whatever is lowered later into the targets and into the last block. `Lowers` is the statement
for code that leaves a value and goes on, `Branches` the one for code that goes to one of two targets.

An operand is any expression whose lowering leaves its value (`Operand`). What is built from operands
is an operand again (`Expr.toOperand`), also under further instructions (`Operand.strict`).
-/

namespace Dolang.Compile

open Dolang.Rust Dolang.Bytecode

section Statements

variable {V σ ε : Type} (m : Machine V σ ε)

/-- Where an expression's code goes on, with its value on the stack. -/
def Lowering.after (s : Lowering) (stack : List V) : Except ε (V × σ) → Config V σ ε
  | .ok (v, x) => .running s.bb s.pos (v :: stack) x
  | .error e => .raised e

/-- Where the code of several expressions goes on, with their values on the stack. -/
def Lowering.afterAll (s : Lowering) (stack : List V) : Except ε (List V × σ) → Config V σ ε
  | .ok (vs, x) => .running s.bb s.pos (vs.reverse ++ stack) x
  | .error e => .raised e

/-- Where a branch goes, with the value on the stack when it is wanted. -/
def branched (onThen onElse : Nat) (wantResult : Bool) (stack : List V) :
    Except ε ((V × Bool) × σ) → Config V σ ε
  | .ok ((v, b), x) =>
    .running (if b then onThen else onElse) 0 (if wantResult then v :: stack else stack) x
  | .error e => .raised e

/-- The lowering does not fail, and its code leaves the value of an evaluation. -/
def Lowers (lower : Lowering → Exec Empty Lowering) (eval : σ → Except ε (V × σ)) : Prop :=
  ∀ s : Lowering, s.Valid → ∃ s', lower s = .ok s' ∧ s.graph.Extends s.bb s'.graph ∧
    s.graph.Within s.bb s'.bb ∧ s'.bb < s'.graph.blocks.length ∧
    ∀ g, s.graph.Keeps s.bb s'.graph (some s'.bb) g → ∀ stack x,
      m.Reaches g (.running s.bb s.pos stack x) (s'.after stack (eval x))

/-- `Lowers` for code that leaves several values. -/
def LowersAll (lower : Lowering → Exec Empty Lowering) (eval : σ → Except ε (List V × σ)) : Prop :=
  ∀ s : Lowering, s.Valid → ∃ s', lower s = .ok s' ∧ s.graph.Extends s.bb s'.graph ∧
    s.graph.Within s.bb s'.bb ∧ s'.bb < s'.graph.blocks.length ∧
    ∀ g, s.graph.Keeps s.bb s'.graph (some s'.bb) g → ∀ stack x,
      m.Reaches g (.running s.bb s.pos stack x) (s'.afterAll stack (eval x))

/-- The lowering does not fail, and its code branches as an evaluation comes out. -/
def Branches (lower : Lowering → Exec Empty Lowering) (onThen onElse : Nat) (wantResult : Bool)
    (eval : σ → Except ε ((V × Bool) × σ)) : Prop :=
  ∀ s : Lowering, s.Valid → onThen < s.graph.blocks.length → onElse < s.graph.blocks.length →
    ∃ s', lower s = .ok s' ∧ s.graph.Extends s.bb s'.graph ∧
      ∀ g, s.graph.Keeps s.bb s'.graph none g → ∀ stack x,
        m.Reaches g (.running s.bb s.pos stack x)
          (branched onThen onElse wantResult stack (eval x))

/-- An operand: an expression whose lowering leaves its value. -/
structure Operand where
  lower : Lowering → Exec Empty Lowering
  eval : σ → Except ε (V × σ)
  lowers : Lowers m lower eval

/-- What `lower_short_circuit` needs of an expression. Where both targets are the same its truth does
not matter. -/
def need (onThen onElse : Nat) (wantResult : Bool) : Need :=
  if onThen = onElse then if wantResult then .value else .effect else .truth

variable {m}

/-- How an expression comes out. -/
def Expr.outcome (e : Expr (Operand m)) (need : Need) (x : σ) : Except ε ((V × Bool) × σ) :=
  (e.evaluate m Operand.eval need).outcome x

/-- The value of an expression. -/
def Expr.value (e : Expr (Operand m)) (x : σ) : Except ε (V × σ) :=
  (e.outcome .value x).map fun r => (r.1.1, r.2)

/-- The lowering of an expression. -/
def Expr.lower (e : Expr (Operand m)) : Lowering → Exec Empty Lowering :=
  lowerExpr Operand.lower m.constBool e

/-- The short circuit of an expression. -/
def Expr.lowerBranch (e : Expr (Operand m)) (onThen onElse : Nat) (wantResult : Bool) :
    Lowering → Exec Empty Lowering :=
  lowerShortCircuit Operand.lower m.constBool e onThen onElse wantResult

end Statements

section Outcome

variable {V σ ε : Type} {m : Machine V σ ε} {e last : Expr (Operand m)} {x : σ}

theorem outcome_operand (o : Operand m) (need : Need) : (Expr.operand o).outcome need x =
    o.eval x >>= fun r => if need = .truth then
      m.truth r.1 r.2 >>= fun t => .ok ((r.1, t.1), t.2) else .ok ((r.1, false), r.2) := by
  rw [Expr.outcome, Expr.evaluate, evaluateOperand, Eval.outcome_bind, Eval.outcome_act]
  refine bind_congr fun r => ?_
  by_cases hneed : need = .truth
  · rw [if_pos hneed, if_pos hneed, Eval.outcome_bind, Eval.outcome_act]
    rfl
  · rw [if_neg hneed, if_neg hneed]
    rfl

theorem outcome_bang_effect : e.bang.outcome .effect x = e.outcome .effect x := by
  rw [Expr.outcome, Expr.evaluate]
  rfl

theorem outcome_bang {need : Need} (hneed : need ≠ .effect) : e.bang.outcome need x =
    e.outcome .truth x >>= fun r => .ok ((m.ofBool !r.1.2, !r.1.2), r.2) := by
  rw [Expr.outcome, Expr.evaluate, Eval.outcome_bind]
  · rfl
  · exact hneed

theorem outcome_logical {op : LogicalOp} {init : List (Expr (Operand m))} {need : Need} :
    (Expr.logical op init last).outcome need x =
      (evaluateInit m Operand.eval op init (last.evaluate m Operand.eval need)).outcome x := by
  rw [Expr.outcome, Expr.evaluate]

theorem outcome_init_nil {op : LogicalOp} {last : Eval (Operand m) σ ε (V × Bool)} :
    (evaluateInit m Operand.eval op [] last).outcome x = last.outcome x := by
  rw [evaluateInit]

theorem outcome_init_cons {op : LogicalOp} {init : List (Expr (Operand m))}
    {last : Eval (Operand m) σ ε (V × Bool)} :
    (evaluateInit m Operand.eval op (e :: init) last).outcome x =
      e.outcome .truth x >>= fun r => if op.goesOn r.1.2 then
        (evaluateInit m Operand.eval op init last).outcome r.2 else .ok r := by
  rw [evaluateInit, Eval.outcome_bind]
  refine bind_congr fun r => ?_
  dsimp only
  split <;> rfl

/-- The truth of an expression that is no short circuit is found by testing its value. -/
theorem outcome_truth : (e : Expr (Operand m)) → e.isLogical = false → (x : σ) →
    e.outcome .truth x = e.outcome .value x >>= fun r =>
      m.truth r.1.1 r.2 >>= fun t => .ok ((r.1.1, t.1), t.2)
  | .operand o, _, x => by
    rw [outcome_operand, outcome_operand, bind_assoc]
    rfl
  | .group e, h, x => by
    have := outcome_truth e h x
    simpa only [Expr.outcome, Expr.evaluate] using this
  | .cast e, h, x => by
    have := outcome_truth e h x
    simpa only [Expr.outcome, Expr.evaluate] using this
  | .bang e, _, x => by
    rw [outcome_bang (by decide), outcome_bang (by decide), bind_assoc]
    refine bind_congr fun r => ?_
    show _ = (m.truth _ _ >>= _)
    rw [m.truth_ofBool]
    rfl

end Outcome

/-! ## The parts of a lowering -/

section Parts

variable {V σ ε : Type} {m : Machine V σ ε} {lower : Lowering → Exec Empty Lowering}
  {onThen onElse : Nat} {wantResult : Bool}

/-- An instruction after the code of its arguments. -/
theorem LowersAll.push {eval : σ → Except ε (List V × σ)} (h : LowersAll m lower eval) (inst : Inst)
    {after : σ → Except ε (V × σ)} (herror : ∀ x e, eval x = .error e → after x = .error e)
    (hinst : ∀ x vs x', eval x = .ok (vs, x') → ∀ stack,
      m.execInst inst (vs.reverse ++ stack) x' =
        some ((after x).map fun r => (r.1 :: stack, r.2))) :
    Lowers m (fun s => lower s >>= fun s => .ok (s.push inst)) after := by
  intro s hs
  obtain ⟨s₁, hlower, hext, hwithin, hlt, hrun⟩ := h s hs
  have hs₁ : s₁.Valid := hext.valid hlt
  have hpush := Lowering.push_extends hs₁ inst
  have hok : (lower s >>= fun s => Except.ok (s.push inst)) = .ok (s₁.push inst) := by
    rw [hlower]
    rfl
  refine ⟨s₁.push inst, hok, hext.trans hs.lt hwithin hpush, hwithin,
    (Lowering.push_valid hs₁ inst).lt, fun g hk stack x => ?_⟩
  have hk₁ := hk.left hpush (by rintro b hb; obtain rfl := Option.some.inj hb; exact .inl rfl)
  have hget : (g.insts s₁.bb)[s₁.pos]? = some inst := by
    have hinsts := hk s₁.bb (Lowering.push_valid hs₁ inst).lt hwithin
    rw [if_pos (show some (s₁.push inst).bb = some s₁.bb from rfl),
      Lowering.insts_push hs₁] at hinsts
    obtain ⟨rest, hrest⟩ := hinsts
    rw [← hrest, Lowering.pos, List.append_assoc, List.getElem?_append_right (Nat.le_refl _),
      Nat.sub_self]
    rfl
  refine (hrun g hk₁ stack x).trans ?_
  rcases heval : eval x with e | ⟨vs, x'⟩
  · rw [herror x e heval]
    exact Relation.ReflTransGen.refl
  · show m.Reaches g (.running s₁.bb s₁.pos (vs.reverse ++ stack) x')
      ((s₁.push inst).after stack (after x))
    refine Machine.Reaches.single ?_
    rw [Machine.step_inst hget, hinst x vs x' heval, Option.map_some, Option.some.injEq]
    rcases after x with e | ⟨v, x''⟩
    · rfl
    · rw [Lowering.after, Lowering.pos_push hs₁]
      rfl

/-- One value is a list of one value. -/
theorem Lowers.all {eval : σ → Except ε (V × σ)} (h : Lowers m lower eval) :
    LowersAll m lower (fun x => (eval x).map fun r => ([r.1], r.2)) := by
  intro s hs
  obtain ⟨s', hlower, hext, hwithin, hlt, hrun⟩ := h s hs
  refine ⟨s', hlower, hext, hwithin, hlt, fun g hk stack x => ?_⟩
  have hrun := hrun g hk stack x
  dsimp only
  generalize eval x = r at hrun ⊢
  rcases r with e | ⟨v, x'⟩ <;> exact hrun

/-- An instruction after the code of a value. -/
theorem Lowers.push {eval : σ → Except ε (V × σ)} (h : Lowers m lower eval) (inst : Inst)
    (apply : V → σ → Except ε (V × σ)) (hinst : ∀ v stack x, m.execInst inst (v :: stack) x =
      some ((apply v x).map fun r => (r.1 :: stack, r.2))) :
    Lowers m (fun s => lower s >>= fun s => .ok (s.push inst))
      (fun x => eval x >>= fun r => apply r.1 r.2) := by
  refine h.all.push inst (fun x e heval => ?_) fun x vs x' heval stack => ?_
  · rcases heval' : eval x with e' | ⟨v, x''⟩ <;> rw [heval'] at heval <;> cases heval
    rfl
  · rcases heval' : eval x with e' | ⟨v, x''⟩ <;> rw [heval'] at heval <;> cases heval
    exact hinst v stack x''

/-- The code of a branch, with the value of the operand on the stack. -/
theorem Machine.Reaches.branchOn {g : Graph} {s : Lowering} {b : Block}
    (hb : g.blocks[s.bb]? = some b)
    (hinsts : b.insts = s.graph.insts s.bb ++ Lowering.branchInsts onThen onElse wantResult)
    (hterm : b.term = if onThen = onElse then .branch onThen else .cond onThen onElse)
    (v : V) (stack : List V) (x : σ) :
    m.Reaches g (.running s.bb s.pos (v :: stack) x)
      (branched onThen onElse wantResult stack (if onThen = onElse then .ok ((v, false), x)
        else m.truth v x >>= fun t => .ok ((v, t.1), t.2))) := by
  have hget (i : Nat) : (g.insts s.bb)[s.pos + i]? =
      (Lowering.branchInsts onThen onElse wantResult)[i]? := by
    rw [Graph.insts_eq hb, hinsts, Lowering.pos, List.getElem?_append_right (Nat.le_add_right _ _),
      Nat.add_sub_cancel_left]
  have hlen : b.insts.length =
      s.pos + (Lowering.branchInsts onThen onElse wantResult).length := by
    rw [hinsts, List.length_append, Lowering.pos]
  have hend {pos : Nat} (hpos : b.insts.length ≤ pos) (stack : List V) (x : σ) :
      m.step g (.running s.bb pos stack x) = (m.execTerm b.term stack x).map enter :=
    Machine.step_term hb hpos
  rw [Lowering.branchInsts] at hget hlen
  by_cases hsame : onThen = onElse
  · rw [if_pos hsame]
    simp only [if_pos hsame] at hget hlen hterm
    rw [hterm] at hend
    cases wantResult
    · refine .head (b := .running s.bb (s.pos + 1) stack x) ?_ (.single ?_)
      · show m.step g (.running s.bb (s.pos + 0) _ _) = _
        rw [Machine.step_inst (hget 0)]
        rfl
      · rw [hend (by rw [hlen]; exact Nat.le_refl _)]
        simp [Machine.execTerm, enter, branched, hsame]
    · refine .single ?_
      rw [hend (by rw [hlen]; exact Nat.le_refl _)]
      simp [Machine.execTerm, enter, branched, hsame]
  · rw [if_neg hsame]
    simp only [if_neg hsame] at hget hlen hterm
    rw [hterm] at hend
    cases wantResult
    · refine .single ?_
      rw [hend (by rw [hlen]; exact Nat.le_refl _)]
      rw [Machine.execTerm]
      rcases m.truth v x with e | ⟨t, x'⟩ <;> rfl
    · refine .head (b := .running s.bb (s.pos + 1) (v :: v :: stack) x) ?_ (.single ?_)
      · show m.step g (.running s.bb (s.pos + 0) _ _) = _
        rw [Machine.step_inst (hget 0)]
        rfl
      · rw [hend (by rw [hlen]; exact Nat.le_refl _), Machine.execTerm]
        rcases m.truth v x with e | ⟨t, x'⟩ <;> rfl

/-- The code of a value, then a branch on it. -/
theorem Lowers.branchOn {eval : σ → Except ε (V × σ)} (h : Lowers m lower eval)
    {after : σ → Except ε ((V × Bool) × σ)}
    (hsame : onThen = onElse → ∀ x, (after x).map (fun r => (r.1.1, r.2)) = eval x)
    (hne : onThen ≠ onElse → ∀ x, after x = eval x >>= fun r =>
      m.truth r.1 r.2 >>= fun t => .ok ((r.1, t.1), t.2)) :
    Branches m (fun s => lower s >>= fun s => s.branchOn onThen onElse wantResult)
      onThen onElse wantResult after := by
  intro s hs hthen helse
  obtain ⟨s₁, hlower, hext, hwithin, hlt, hrun⟩ := h s hs
  obtain ⟨g', b, hbranch, hext', hb, hinsts, hterm⟩ :=
    Lowering.branchOn_ok wantResult (hext.valid hlt) (hthen.trans_le hext.length_le)
      (helse.trans_le hext.length_le)
  have hok : (lower s >>= fun s => s.branchOn onThen onElse wantResult) = .ok ⟨g', s₁.bb⟩ := by
    rw [hlower]
    exact hbranch
  refine ⟨⟨g', s₁.bb⟩, hok, hext.trans hs.lt hwithin hext', fun g hk stack x => ?_⟩
  rw [← hk.block (hlt.trans_le hext'.length_le) hwithin (by simp)] at hb
  refine (hrun g (hk.left hext' (by rintro b hb; cases hb)) stack x).trans ?_
  have hbranches := Machine.Reaches.branchOn (m := m) hb hinsts hterm
  by_cases htargets : onThen = onElse
  · rw [← hsame htargets]
    rcases after x with e | ⟨⟨v, t⟩, x'⟩
    · exact Relation.ReflTransGen.refl
    · have := hbranches v stack x'
      rw [if_pos htargets] at this
      simp only [branched, htargets, ite_self] at this ⊢
      exact this
  · rw [hne htargets]
    rcases eval x with e | ⟨v, x'⟩
    · exact Relation.ReflTransGen.refl
    · have := hbranches v stack x'
      rwa [if_neg htargets] at this

/-- An instruction that only moves on to the next one. -/
theorem Machine.Reaches.inst {g : Graph} {inst : Inst} {block pos : Nat} {stack stack' : List V}
    {x : σ} (hinst : (g.insts block)[pos]? = some inst)
    (hexec : m.execInst inst stack x = some (.ok (stack', x))) :
    m.Reaches g (.running block pos stack x) (.running block (pos + 1) stack' x) := by
  refine Machine.Reaches.single ?_
  rw [Machine.step_inst hinst, hexec]
  rfl

end Parts

section Loop

variable {V σ ε : Type} {m : Machine V σ ε} {onThen onElse : Nat} {wantResult : Bool}

/-- The targets of an operand that is not the last: the next operand is at `long`. -/
def LogicalOp.targets (op : LogicalOp) (long onThen onElse : Nat) : Nat × Nat :=
  match op with
  | .ampAmp => (long, onElse)
  | .barBar => (onThen, long)

/-- An operand that is not the last goes on to the next one, or branches. -/
theorem LogicalOp.branched_targets (op : LogicalOp) (long : Nat) (stack : List V) (v : V) (b : Bool)
    (x : σ) : branched (ε := ε) (op.targets long onThen onElse).1
      (op.targets long onThen onElse).2 wantResult stack (.ok ((v, b), x)) =
    if op.goesOn b then .running long 0 (if wantResult then v :: stack else stack) x
      else branched onThen onElse wantResult stack (.ok ((v, b), x)) := by
  cases op <;> cases b <;> rfl

/-- The start of the next operand, which drops the value of the one before. -/
theorem Lowering.long_ok (m : Machine V σ ε) (wantResult : Bool) {s : Lowering} (hs : s.Valid) (hinsts : s.graph.insts s.bb = []) :
    let s' := if wantResult then s.push .pop else s
    s'.bb = s.bb ∧ s'.Valid ∧ s.graph.Extends s.bb s'.graph ∧
      ∀ g, s'.graph.insts s.bb <+: g.insts s.bb → ∀ v stack x,
        m.Reaches g (.running s.bb 0 (if wantResult then v :: stack else stack) x)
          (.running s.bb s'.pos stack x) := by
  cases wantResult with
  | false =>
    refine ⟨rfl, hs, .refl hs.scopes, fun g _ v stack x => ?_⟩
    simp only [Bool.false_eq_true, if_false, pos, hinsts]
    exact Relation.ReflTransGen.refl
  | true =>
    refine ⟨rfl, push_valid hs _, push_extends hs _, fun g hg v stack x => ?_⟩
    simp only [if_true] at hg ⊢
    have hpos : (s.push .pop).pos = 0 + 1 := by rw [pos_push hs, pos, hinsts, List.length_nil]
    have hget : (g.insts s.bb)[0]? = some .pop := by
      rw [insts_push hs, hinsts] at hg
      obtain ⟨rest, hrest⟩ := hg
      rw [← hrest]
      rfl
    rw [hpos]
    exact Machine.Reaches.inst hget rfl

/-- The loop over the operands but the last, and the code of the last. -/
theorem branches_init (op : LogicalOp) (init : List (Expr (Operand m)))
    (hinit : ∀ e ∈ init, ∀ onThen onElse, Branches m (e.lowerBranch onThen onElse wantResult)
      onThen onElse wantResult (e.outcome (need onThen onElse wantResult)))
    {lowerLast : Lowering → Exec Empty Lowering} {last : Eval (Operand m) σ ε (V × Bool)}
    (hlast : Branches m lowerLast onThen onElse wantResult last.outcome) :
    Branches m (fun s => lowerInit Operand.lower m.constBool op init onThen onElse wantResult s >>=
      lowerLast) onThen onElse wantResult (evaluateInit m Operand.eval op init last).outcome := by
  induction init with
  | nil =>
    intro s hs hthen helse
    obtain ⟨s', hok, hext, hrun⟩ := hlast s hs hthen helse
    refine ⟨s', ?_, hext, fun g hk stack x => ?_⟩
    · show (lowerInit Operand.lower m.constBool op [] onThen onElse wantResult s >>= lowerLast) = _
      rw [lowerInit]
      exact hok
    · rw [outcome_init_nil]
      exact hrun g hk stack x
  | cons e init ih =>
    intro s hs hthen helse
    have ih := ih fun e' he' => hinit e' (List.mem_cons_of_mem _ he')
    -- The block of the next operand.
    obtain ⟨b, halloc, hempty, hscope⟩ := Lowering.alloc_ok hs
    generalize hlong : s.graph.blocks.length = long at halloc
    generalize hg₁ : ({ s.graph with blocks := s.graph.blocks ++ [b] } : Graph) = g₁ at halloc
    have hext₁ : s.graph.Extends s.bb g₁ := hg₁ ▸ .concat hs.scopes hscope
    have hlen₁ : g₁.blocks.length = long + 1 := by rw [← hg₁, ← hlong, List.length_append]; rfl
    have hnew : g₁.insts long = [] := by
      rw [← hempty, ← hg₁, ← hlong]
      exact Graph.insts_eq List.getElem?_concat_length
    have hbb : s.bb < long := hlong ▸ hs.lt
    have hwithin : s.graph.Within s.bb long := .inr (Nat.le_of_eq hlong)
    -- The code of the operand.
    have htargets : (op.targets long onThen onElse).1 < g₁.blocks.length ∧
        (op.targets long onThen onElse).2 < g₁.blocks.length := by
      cases op <;> simp only [LogicalOp.targets] <;> omega
    have hne : (op.targets long onThen onElse).1 ≠ (op.targets long onThen onElse).2 := by
      cases op <;> simp only [LogicalOp.targets] <;> omega
    obtain ⟨s₂, hlower, hext₂, hrun₂⟩ := hinit e List.mem_cons_self _ _ ⟨g₁, s.bb⟩
      (hext₁.valid (by omega)) htargets.1 htargets.2
    rw [need, if_neg hne] at hrun₂
    have hlong₂ : long < s₂.graph.blocks.length := by have := hext₂.length_le; dsimp only at this; omega
    have hext₁₂ : s.graph.Extends s.bb s₂.graph := hext₁.trans hs.lt (.inl rfl) hext₂
    have hinsts₂ : s₂.graph.insts long = [] := by
      rw [Graph.insts_congr (hext₂.old long (by dsimp only; omega) hbb.ne'), hnew]
    -- The code of the others.
    have hs₂ : Lowering.Valid ⟨s₂.graph, long⟩ := hext₂.valid hlong₂
    obtain ⟨hbb₃, hs₃, hext₃, hrun₃⟩ :=
      Lowering.long_ok m wantResult hs₂ hinsts₂
    generalize hs₃' : (if wantResult then Lowering.push ⟨s₂.graph, long⟩ .pop
      else ⟨s₂.graph, long⟩) = s₃ at hbb₃ hs₃ hext₃ hrun₃
    dsimp only at hbb₃ hext₃ hrun₃
    have hlen₃ : s.graph.blocks.length ≤ s₃.graph.blocks.length :=
      hext₁₂.length_le.trans hext₃.length_le
    obtain ⟨s₄, hrest, hext₄, hrun₄⟩ := ih s₃ hs₃ (hthen.trans_le hlen₃) (helse.trans_le hlen₃)
    rw [hbb₃] at hext₄ hrun₄
    have hext₂₄ : s₂.graph.Extends long s₄.graph := hext₃.trans hlong₂ (.inl rfl) hext₄
    refine ⟨s₄, ?_, hext₁₂.trans hs.lt hwithin hext₂₄, fun g hk stack x => ?_⟩
    · show (lowerInit Operand.lower m.constBool op (e :: init) onThen onElse wantResult s >>=
        lowerLast) = _
      rw [lowerInit, halloc]
      show ((lowerShortCircuit Operand.lower m.constBool e (op.targets long onThen onElse).1
        (op.targets long onThen onElse).2 wantResult ⟨g₁, s.bb⟩ >>= _) >>= lowerLast) = _
      rw [show lowerShortCircuit Operand.lower m.constBool e _ _ wantResult ⟨g₁, s.bb⟩ = _
        from hlower, ok_bind, Lowering.switch_ok hlong₂, ok_bind, hs₃']
      exact hrest
    · have hk₁ : g₁.Keeps s.bb s₂.graph none g :=
        ((hk.left hext₂₄ (by rintro b hb; cases hb)).right (.inl rfl) hext₁.length_le).close
          fun h => h.elim (fun h => by omega) (fun h => by omega)
      have hk₃ : s₃.graph.Keeps long s₄.graph none g := hk.right hwithin hlen₃
      have hpop : s₃.graph.insts long <+: g.insts long := by
        rw [Graph.insts_congr (hk.block (hlong₂.trans_le hext₂₄.length_le) hwithin (by simp))]
        exact hext₄.here
      have hpos : s.pos = Lowering.pos ⟨g₁, s.bb⟩ := by
        rw [Lowering.pos, Lowering.pos, Graph.insts_congr]
        rw [← hg₁]
        exact (List.getElem?_append_left hs.lt).symm
      rw [hpos, outcome_init_cons]
      refine (hrun₂ g hk₁ stack x).trans ?_
      rcases e.outcome .truth x with err | ⟨⟨v, t⟩, x'⟩
      · exact Relation.ReflTransGen.refl
      · rw [LogicalOp.branched_targets]
        show m.Reaches g _ (branched onThen onElse wantResult stack
          (if op.goesOn t then (evaluateInit m Operand.eval op init last).outcome x'
            else .ok ((v, t), x')))
        split
        · exact (hrun₃ g hpop v stack x').trans (hrun₄ g hk₃ stack x')
        · exact Relation.ReflTransGen.refl

end Loop

/-! ## The code of an expression -/

section Equations

variable {V σ ε : Type} {m : Machine V σ ε} {e last : Expr (Operand m)} {onThen onElse : Nat}
  {wantResult : Bool}

theorem lower_operand (o : Operand m) : (Expr.operand o).lower = o.lower := by
  funext s
  rw [Expr.lower, lowerExpr]

theorem lower_group : e.group.lower = e.lower := by
  funext s
  rw [Expr.lower, lowerExpr, Expr.lower]

theorem lower_cast : e.cast.lower = e.lower := by
  funext s
  rw [Expr.lower, lowerExpr, Expr.lower]

theorem lower_logical {op : LogicalOp} {init : List (Expr (Operand m))} :
    (Expr.logical op init last).lower = fun s => s.alloc >>= fun r =>
      (Expr.logical op init last).lowerBranch r.2 r.2 true r.1 >>= fun s => s.switch r.2 := by
  funext s
  rw [Expr.lower, lowerExpr]
  rfl

/-- A negated short circuit branches to one of two blocks that load a truth value. -/
theorem lower_bang_logical (he : e.isLogical = true) : e.bang.lower = fun s => s.alloc >>= fun r =>
    (r.1.load m.constBool r.2 false >>= fun falsy =>
      falsy.1.load m.constBool r.2 true >>= fun truthy =>
      e.lowerBranch falsy.2 truthy.2 false truthy.1) >>= fun s => s.switch r.2 := by
  funext s
  rw [Expr.lower, lowerExpr, if_pos he]
  refine bind_congr fun r => ?_
  rw [bind_assoc]
  refine bind_congr fun falsy => ?_
  rw [bind_assoc]
  rfl

theorem lower_bang (he : e.isLogical = false) :
    e.bang.lower = fun s => e.lower s >>= fun s => .ok (s.push .not) := by
  funext s
  rw [Expr.lower, lowerExpr, if_neg (by simp [he])]
  rfl

theorem lowerBranch_operand (o : Operand m) :
    (Expr.operand o).lowerBranch onThen onElse wantResult =
      fun s => o.lower s >>= fun s => s.branchOn onThen onElse wantResult := by
  funext s
  rw [Expr.lowerBranch, lowerShortCircuit, lowerExpr]

theorem lowerBranch_group : e.group.lowerBranch onThen onElse wantResult =
    e.lowerBranch onThen onElse wantResult := by
  funext s
  rw [Expr.lowerBranch, lowerShortCircuit, Expr.lowerBranch]

theorem lowerBranch_cast : e.cast.lowerBranch onThen onElse wantResult =
    e.lowerBranch onThen onElse wantResult := by
  funext s
  rw [Expr.lowerBranch, lowerShortCircuit, Expr.lowerBranch]

/-- A negation swaps the targets. -/
theorem lowerBranch_bang : e.bang.lowerBranch onThen onElse false =
    e.lowerBranch onElse onThen false := by
  funext s
  rw [Expr.lowerBranch, lowerShortCircuit, Expr.lowerBranch]

theorem lowerBranch_bang_true : e.bang.lowerBranch onThen onElse true =
    fun s => e.bang.lower s >>= fun s => s.branchOn onThen onElse true := by
  funext s
  rw [Expr.lowerBranch, lowerShortCircuit, Expr.lower]

theorem lowerBranch_logical {op : LogicalOp} {init : List (Expr (Operand m))} :
    (Expr.logical op init last).lowerBranch onThen onElse wantResult = fun s =>
      lowerInit Operand.lower m.constBool op init onThen onElse wantResult s >>=
        last.lowerBranch onThen onElse wantResult := by
  funext s
  rw [Expr.lowerBranch, lowerShortCircuit]
  rfl

theorem outcome_group : e.group.outcome = e.outcome := by
  funext need x
  rw [Expr.outcome, Expr.evaluate, Expr.outcome]

theorem outcome_cast : e.cast.outcome = e.outcome := by
  funext need x
  rw [Expr.outcome, Expr.evaluate, Expr.outcome]

end Equations

section Expressions

variable {V σ ε : Type} {m : Machine V σ ε} {onThen onElse : Nat} {wantResult : Bool}

/-- A block that the code goes to with a value is where it goes on. -/
theorem Lowers.join {body : Nat → Lowering → Exec Empty Lowering}
    {after : σ → Except ε ((V × Bool) × σ)}
    (h : ∀ join, Branches m (body join) join join true after) :
    Lowers m (fun s => s.alloc >>= fun r => body r.2 r.1 >>= fun s => s.switch r.2)
      (fun x => (after x).map fun r => (r.1.1, r.2)) := by
  intro s hs
  obtain ⟨b, halloc, hempty, hscope⟩ := Lowering.alloc_ok hs
  generalize hjoin : s.graph.blocks.length = join at halloc
  generalize hg₁ : ({ s.graph with blocks := s.graph.blocks ++ [b] } : Graph) = g₁ at halloc
  have hext₁ : s.graph.Extends s.bb g₁ := hg₁ ▸ .concat hs.scopes hscope
  have hlen₁ : g₁.blocks.length = join + 1 := by rw [← hg₁, ← hjoin, List.length_append]; rfl
  have hnew : g₁.insts join = [] := by
    rw [← hempty, ← hg₁, ← hjoin]
    exact Graph.insts_eq List.getElem?_concat_length
  have hbb : s.bb < join := hjoin ▸ hs.lt
  have hwithin : s.graph.Within s.bb join := .inr (Nat.le_of_eq hjoin)
  obtain ⟨s₂, hbody, hext₂, hrun⟩ := h join ⟨g₁, s.bb⟩ (hext₁.valid (by omega))
    (by dsimp only; omega) (by dsimp only; omega)
  dsimp only at hext₂ hrun
  have hjoin₂ : join < s₂.graph.blocks.length := by have := hext₂.length_le; omega
  have hok : (s.alloc >>= fun r => body r.2 r.1 >>= fun s => s.switch r.2) =
      .ok ⟨s₂.graph, join⟩ := by
    rw [halloc, ok_bind, hbody, ok_bind, Lowering.switch_ok hjoin₂]
  refine ⟨⟨s₂.graph, join⟩, hok, hext₁.trans hs.lt (.inl rfl) hext₂, hwithin, hjoin₂,
    fun g (hk : s.graph.Keeps s.bb s₂.graph (some join) g) stack x => ?_⟩
  have hk₁ : g₁.Keeps s.bb s₂.graph none g := (hk.right (.inl rfl) hext₁.length_le).close
    fun h => h.elim (fun h => by omega) (fun h => by omega)
  have hpos : s.pos = Lowering.pos ⟨g₁, s.bb⟩ := by
    rw [Lowering.pos, Lowering.pos, Graph.insts_congr]
    rw [← hg₁]
    exact (List.getElem?_append_left hs.lt).symm
  have hend : Lowering.pos ⟨s₂.graph, join⟩ = 0 := by
    rw [Lowering.pos, Graph.insts_congr (hext₂.old join (by omega) hbb.ne'), hnew,
      List.length_nil]
  rw [hpos]
  refine (hrun g hk₁ stack x).trans ?_
  dsimp only
  rcases after x with e | ⟨⟨v, t⟩, x'⟩
  · exact Relation.ReflTransGen.refl
  · show m.Reaches g _ (.running join (Lowering.pos ⟨s₂.graph, join⟩) (v :: stack) x')
    rw [hend, branched, ite_self]
    exact Relation.ReflTransGen.refl

/-- The code of a block that loads a truth value. -/
theorem Machine.Reaches.load {g : Graph} {b : Block} {id join : Nat} {value : Bool}
    (hb : g.blocks[id]? = some b) (hinsts : b.insts = [.loadConst (m.constBool value)])
    (hterm : b.term = .branch join) (stack : List V) (x : σ) :
    m.Reaches g (.running id 0 stack x) (.running join 0 (m.ofBool value :: stack) x) := by
  have hget : (g.insts id)[0]? = some (.loadConst (m.constBool value)) := by
    rw [Graph.insts_eq hb, hinsts]
    rfl
  have hload : m.Reaches g (.running id 0 stack x)
      (.running id 1 (m.const (m.constBool value) :: stack) x) := Machine.Reaches.inst hget rfl
  rw [m.const_constBool] at hload
  refine hload.trans (Machine.Reaches.single ?_)
  rw [Machine.step_term hb (by rw [hinsts]; exact Nat.le_refl _), hterm]
  rfl

/-- The code of a negated short circuit, which loads a truth value in place of its own. -/
theorem branches_load {e : Expr (Operand m)}
    (he : ∀ onThen onElse, Branches m (e.lowerBranch onThen onElse false) onThen onElse false
      (e.outcome (need onThen onElse false))) (join : Nat) :
    Branches m (fun s => s.load m.constBool join false >>= fun falsy =>
      falsy.1.load m.constBool join true >>= fun truthy =>
      e.lowerBranch falsy.2 truthy.2 false truthy.1) join join true (e.bang.outcome .value) := by
  intro s hs hjoin _
  obtain ⟨b₁, hload₁, hinsts₁, hterm₁, hscope₁⟩ := Lowering.load_ok hs m.constBool
    hjoin false
  generalize hfalsy : s.graph.blocks.length = falsy at hload₁
  generalize hg₁ : ({ s.graph with blocks := s.graph.blocks ++ [b₁] } : Graph) = g₁ at hload₁
  have hext₁ : s.graph.Extends s.bb g₁ := hg₁ ▸ .concat hs.scopes hscope₁
  have hlen₁ : g₁.blocks.length = falsy + 1 := by rw [← hg₁, ← hfalsy, List.length_append]; rfl
  have hb₁ : g₁.blocks[falsy]? = some b₁ := by
    rw [← hg₁, ← hfalsy]
    exact List.getElem?_concat_length
  have hbb : s.bb < falsy := hfalsy ▸ hs.lt
  have hs₁ : Lowering.Valid ⟨g₁, s.bb⟩ := hext₁.valid (by omega)
  obtain ⟨b₂, hload₂, hinsts₂, hterm₂, hscope₂⟩ := Lowering.load_ok hs₁ m.constBool
    (show join < g₁.blocks.length by omega) true
  generalize htruthy : g₁.blocks.length = truthy at hload₂
  generalize hg₂ : ({ g₁ with blocks := g₁.blocks ++ [b₂] } : Graph) = g₂ at hload₂
  have hext₂ : g₁.Extends s.bb g₂ := hg₂ ▸ .concat hs₁.scopes hscope₂
  have hlen₂ : g₂.blocks.length = truthy + 1 := by rw [← hg₂, ← htruthy, List.length_append]; rfl
  have hb₂ : g₂.blocks[truthy]? = some b₂ := by
    rw [← hg₂, ← htruthy]
    exact List.getElem?_concat_length
  have hext₁₂ : s.graph.Extends s.bb g₂ := hext₁.trans hs.lt (.inl rfl) hext₂
  obtain ⟨s₃, hlower, hext₃, hrun⟩ := he falsy truthy ⟨g₂, s.bb⟩ (hext₁₂.valid (by omega))
    (by dsimp only; omega) (by dsimp only; omega)
  dsimp only at hext₃ hrun
  rw [need, if_neg (by omega)] at hrun
  have hlen₃ := hext₃.length_le
  have hok : (s.load m.constBool join false >>= fun falsy =>
      falsy.1.load m.constBool join true >>= fun truthy =>
      e.lowerBranch falsy.2 truthy.2 false truthy.1) = .ok s₃ := by
    rw [hload₁, ok_bind, hload₂, ok_bind, hlower]
  refine ⟨s₃, hok, hext₁₂.trans hs.lt (.inl rfl) hext₃, fun g hk stack x => ?_⟩
  have hkeep (i : Nat) (hi : i < g₂.blocks.length) (hge : falsy ≤ i) :
      g.blocks[i]? = g₂.blocks[i]? := by
    rw [hk.block (by omega) (.inr (by omega)) (by simp), hext₃.old i hi (by omega)]
  have hfalsy' : g.blocks[falsy]? = some b₁ := by
    rw [hkeep falsy (by omega) (Nat.le_refl _), hext₂.old falsy (by omega) (by omega), hb₁]
  have htruthy' : g.blocks[truthy]? = some b₂ := by
    rw [hkeep truthy (by omega) (by omega), hb₂]
  have hpos : s.pos = Lowering.pos ⟨g₂, s.bb⟩ := by
    rw [Lowering.pos, Lowering.pos, Graph.insts_congr]
    rw [← hg₂, ← hg₁]
    dsimp only
    rw [List.getElem?_append_left (by rw [List.length_append]; exact Nat.lt_add_right _ hs.lt),
      List.getElem?_append_left hs.lt]
  rw [hpos, outcome_bang (by decide)]
  refine (hrun g (hk.right (.inl rfl) hext₁₂.length_le) stack x).trans ?_
  rcases e.outcome .truth x with err | ⟨⟨v, t⟩, x'⟩
  · exact Relation.ReflTransGen.refl
  · cases t
    · exact Machine.Reaches.load htruthy' hinsts₂ hterm₂ stack x'
    · exact Machine.Reaches.load hfalsy' hinsts₁ hterm₁ stack x'

/-- The short circuit of an expression that is not one tests its value. -/
theorem branches_value {e : Expr (Operand m)} (h : Lowers m e.lower e.value)
    (he : e.isLogical = false) (hwant : wantResult = true ∨ ∀ x, e.outcome .effect x =
      e.outcome .value x) :
    Branches m (fun s => e.lower s >>= fun s => s.branchOn onThen onElse wantResult)
      onThen onElse wantResult (e.outcome (need onThen onElse wantResult)) := by
  refine h.branchOn (fun hsame x => ?_) fun hne x => ?_
  · have hneed : e.outcome (need onThen onElse wantResult) x = e.outcome .value x := by
      rw [need, if_pos hsame]
      rcases hwant with rfl | heffect
      · rfl
      · cases wantResult
        · exact heffect x
        · rfl
    rw [hneed, Expr.value]
  · rw [need, if_neg hne, outcome_truth e he, Expr.value]
    rcases e.outcome .value x with err | ⟨⟨v, t⟩, x'⟩ <;> rfl

/-- The lowering of an expression leaves its value, and its short circuit branches on its truth. -/
theorem Expr.lowered : (e : Expr (Operand m)) → Lowers m e.lower e.value ∧
    ∀ onThen onElse wantResult, Branches m (e.lowerBranch onThen onElse wantResult) onThen onElse
      wantResult (e.outcome (need onThen onElse wantResult))
  | .operand o => by
    have hvalue : (Expr.operand o).value = o.eval := by
      funext x
      rw [Expr.value, outcome_operand]
      rcases o.eval x with e | ⟨v, x'⟩ <;> rfl
    have hlowers : Lowers m (Expr.operand o).lower (Expr.operand o).value := by
      rw [hvalue, lower_operand]
      exact o.lowers
    refine ⟨hlowers, fun onThen onElse wantResult => ?_⟩
    rw [lowerBranch_operand, ← lower_operand]
    exact branches_value hlowers rfl (.inr fun x => by rw [outcome_operand, outcome_operand]; rfl)
  | .group e => by
    have hvalue : e.group.value = e.value := funext fun x => by
      rw [Expr.value, outcome_group, Expr.value]
    rw [lower_group, hvalue, outcome_group]
    simp only [lowerBranch_group]
    exact e.lowered
  | .cast e => by
    have hvalue : e.cast.value = e.value := funext fun x => by
      rw [Expr.value, outcome_cast, Expr.value]
    rw [lower_cast, hvalue, outcome_cast]
    simp only [lowerBranch_cast]
    exact e.lowered
  | .logical op init last => by
    have hinit : ∀ e ∈ init, ∀ onThen onElse wantResult, Branches m
        (e.lowerBranch onThen onElse wantResult) onThen onElse wantResult
        (e.outcome (need onThen onElse wantResult)) := fun e _ => e.lowered.2
    have hbranch (onThen onElse : Nat) (wantResult : Bool) : Branches m
        ((Expr.logical op init last).lowerBranch onThen onElse wantResult) onThen onElse wantResult
        ((Expr.logical op init last).outcome (need onThen onElse wantResult)) := by
      have houtcome : (Expr.logical op init last).outcome (need onThen onElse wantResult) =
          (evaluateInit m Operand.eval op init
            (last.evaluate m Operand.eval (need onThen onElse wantResult))).outcome :=
        funext fun _ => outcome_logical
      rw [lowerBranch_logical, houtcome]
      exact branches_init op init (fun e he onThen onElse => hinit e he onThen onElse wantResult)
        (last.lowered.2 onThen onElse wantResult)
    refine ⟨?_, hbranch⟩
    have hjoin (join : Nat) : Branches m
        ((Expr.logical op init last).lowerBranch join join true) join join true
        ((Expr.logical op init last).outcome .value) := by
      have h := hbranch join join true
      rwa [need, if_pos rfl, if_pos rfl] at h
    rw [lower_logical]
    exact Lowers.join hjoin
  | .bang e => by
    obtain ⟨hlowers, hbranches⟩ := e.lowered
    have hbang : Lowers m e.bang.lower e.bang.value := by
      cases he : e.isLogical with
      | true =>
        rw [lower_bang_logical he]
        exact Lowers.join fun join => branches_load (fun _ _ => hbranches _ _ false) join
      | false =>
        have hnot := hlowers.push .not (fun v x => (m.truth v x).map fun t => (m.ofBool !t.1, t.2))
          fun v stack x => by
            rw [Machine.execInst]
            rcases m.truth v x with err | ⟨t, x'⟩ <;> rfl
        have hvalue : e.bang.value = fun x => e.value x >>= fun r =>
            (m.truth r.1 r.2).map fun t => (m.ofBool !t.1, t.2) := by
          funext x
          rw [Expr.value, outcome_bang (by decide), outcome_truth e he, Expr.value]
          rcases e.outcome .value x with err | ⟨⟨v, t⟩, x'⟩
          · rfl
          · show Except.map _ ((m.truth v x' >>= _) >>= _) = (m.truth v x').map _
            rcases m.truth v x' with err | ⟨t', x''⟩ <;> rfl
        rw [lower_bang he, hvalue]
        exact hnot
    refine ⟨hbang, fun onThen onElse wantResult => ?_⟩
    cases wantResult with
    | true =>
      rw [lowerBranch_bang_true]
      exact branches_value hbang rfl (.inl rfl)
    | false =>
      rw [lowerBranch_bang]
      intro s hs hthen helse
      obtain ⟨s', hok, hext, hrun⟩ := hbranches onElse onThen false s hs helse hthen
      refine ⟨s', hok, hext, fun g hk stack x => ?_⟩
      have hrun := hrun g hk stack x
      by_cases hsame : onThen = onElse
      · rw [need, if_pos hsame.symm] at hrun
        rw [need, if_pos hsame]
        show m.Reaches g _ (branched _ _ _ _ (e.bang.outcome .effect x))
        rw [outcome_bang_effect, hsame]
        rwa [hsame] at hrun
      · rw [need, if_neg (Ne.symm hsame)] at hrun
        rw [need, if_neg hsame, outcome_bang (by decide)]
        generalize e.outcome .truth x = r at hrun ⊢
        rcases r with err | ⟨⟨v, t⟩, x'⟩
        · exact hrun
        · cases t <;> exact hrun

end Expressions

/-! ## Operands -/

section Operands

variable {V σ ε : Type} {m : Machine V σ ε}

/-- An expression over operands is an operand. -/
def Expr.toOperand (e : Expr (Operand m)) : Operand m where
  lower := e.lower
  eval := e.value
  lowers := e.lowered.1

/-- Lower operands one after the other, as the arguments of an instruction are. -/
def lowerAll : List (Operand m) → Lowering → Exec Empty Lowering
  | [], s => .ok s
  | o :: os, s => o.lower s >>= lowerAll os

/-- Evaluate operands one after the other. -/
def evalAll : List (Operand m) → σ → Except ε (List V × σ)
  | [], x => .ok ([], x)
  | o :: os, x => o.eval x >>= fun r => (evalAll os r.2).map fun rs => (r.1 :: rs.1, rs.2)

theorem lowersAll : (os : List (Operand m)) → LowersAll m (lowerAll os) (evalAll os)
  | [] => fun s hs => ⟨s, rfl, .refl hs.scopes, .inl rfl, hs.lt, fun _ _ _ _ => .refl⟩
  | o :: os => by
    intro s hs
    obtain ⟨s₁, hlower₁, hext₁, hwithin₁, hlt₁, hrun₁⟩ := o.lowers s hs
    obtain ⟨s₂, hlower₂, hext₂, hwithin₂, hlt₂, hrun₂⟩ := lowersAll os s₁ (hext₁.valid hlt₁)
    have hok : lowerAll (o :: os) s = .ok s₂ := by
      rw [lowerAll, hlower₁]
      exact hlower₂
    refine ⟨s₂, hok, hext₁.trans hs.lt hwithin₁ hext₂, hwithin₁.trans hext₁.length_le hwithin₂,
      hlt₂, fun g hk stack x => ?_⟩
    have hk₁ := hk.left hext₂ fun b hb => Option.some.inj hb ▸ hwithin₂
    have hk₂ := hk.right hwithin₁ hext₁.length_le
    refine (hrun₁ g hk₁ stack x).trans ?_
    rw [evalAll]
    rcases o.eval x with e | ⟨v, x'⟩
    · exact Relation.ReflTransGen.refl
    · refine (hrun₂ g hk₂ (v :: stack) x').trans ?_
      show m.Reaches g _ (s₂.afterAll stack ((evalAll os x').map _))
      rcases evalAll os x' with e | ⟨vs, x''⟩
      · exact Relation.ReflTransGen.refl
      · show m.Reaches g (.running s₂.bb s₂.pos (vs.reverse ++ v :: stack) x'')
          (.running s₂.bb s₂.pos ((v :: vs).reverse ++ stack) x'')
        rw [List.reverse_cons, List.append_assoc]
        exact Relation.ReflTransGen.refl

theorem length_evalAll : (os : List (Operand m)) → {x x' : σ} → {vs : List V} →
    evalAll os x = .ok (vs, x') → vs.length = os.length
  | [], _, _, _, h => by
    cases h
    rfl
  | o :: os, x, _, _, h => by
    rw [evalAll] at h
    rcases heval : o.eval x with e | ⟨v, x''⟩ <;> rw [heval] at h
    · cases h
    · change (evalAll os x'').map _ = _ at h
      rcases hrest : evalAll os x'' with e | ⟨vs', x'''⟩ <;> rw [hrest] at h <;> cases h
      rw [List.length_cons, List.length_cons, length_evalAll os hrest]

/-- Most other arms of `lower_expr`: the arguments, left to right, and an instruction on them. -/
def Operand.strict (args : List (Operand m)) (inst : Inst) (apply : List V → σ → Except ε (V × σ))
    (hinst : ∀ vs stack x, vs.length = args.length → m.execInst inst (vs.reverse ++ stack) x =
      some ((apply vs x).map fun r => (r.1 :: stack, r.2))) : Operand m where
  lower s := lowerAll args s >>= fun s => .ok (s.push inst)
  eval x := evalAll args x >>= fun r => apply r.1 r.2
  lowers := by
    refine (lowersAll args).push inst (fun x e h => by rw [h]; rfl) fun x vs x' h stack => ?_
    rw [h]
    exact hinst vs stack x' (length_evalAll args h)

end Operands

/-! ## The result -/

/-- A short circuit of any expression to any two targets does not fail and changes no block but the
current one and its own. Its code does what left-to-right short-circuit evaluation does, each operand
at most once, in order and tested at most once, and goes to the target that the truth says, with the
value on the stack when it is wanted. -/
theorem short_circuit_evaluates {V σ ε : Type} (m : Machine V σ ε) (e : Expr (Operand m))
    (onThen onElse : Nat) (wantResult : Bool) (s : Lowering) (hs : s.Valid)
    (hthen : onThen < s.graph.blocks.length) (helse : onElse < s.graph.blocks.length) :
    ∃ s', lowerShortCircuit Operand.lower m.constBool e onThen onElse wantResult s = .ok s' ∧
      s.graph.Extends s.bb s'.graph ∧
      ∀ g, s.graph.Keeps s.bb s'.graph none g → ∀ stack x,
        let evaluation := e.evaluate m Operand.eval (need onThen onElse wantResult) x
        Once e.operands evaluation.1 ∧
        m.Reaches g (.running s.bb s.pos stack x)
          (branched onThen onElse wantResult stack evaluation.2) := by
  obtain ⟨s', hok, hext, hrun⟩ := e.lowered.2 onThen onElse wantResult s hs hthen helse
  exact ⟨s', hok, hext, fun g hk stack x => ⟨e.once_evaluate _ x, hrun g hk stack x⟩⟩

/-- A machine with numbers for values. -/
def numbers : Machine Nat Unit Empty where
  truth v x := .ok (v != 0, x)
  ofBool := Bool.toNat
  const := id
  constBool := Bool.toNat
  exec _ _ _ := none
  jump _ _ _ := none
  const_constBool _ := rfl
  truth_ofBool b _ := by cases b <;> rfl

/-- A constant. -/
def numbers.constant (v : Nat) : Operand numbers :=
  .strict [] (.loadConst v) (fun _ x => .ok (v, x)) fun vs _ _ h => by
    rw [List.length_eq_zero_iff.mp h]
    rfl

/-- The code of `5 && !0` goes to the first target. -/
theorem short_circuit_evaluates_bang :
    let e : Expr (Operand numbers) :=
      .logical .ampAmp [.operand (numbers.constant 5)] (.bang (.operand (numbers.constant 0)))
    let block : Block := ⟨[], .ret, 0, 0⟩
    let s : Lowering := ⟨⟨[], [⟨none, 0, [], 0, 0, false, some 0⟩], [block, block, block]⟩, 0⟩
    ∃ s', lowerShortCircuit Operand.lower numbers.constBool e 1 2 false s = .ok s' ∧
      numbers.Reaches s'.graph (.running 0 0 [] ()) (.running 1 0 [] ()) := by
  intro e block s
  have hs : s.Valid := ⟨fun b hb => by
    have : b = block := by simpa [s] using hb
    subst this
    exact Nat.zero_lt_one, Nat.zero_lt_succ 2⟩
  obtain ⟨s', hok, -, hrun⟩ := short_circuit_evaluates numbers e 1 2 false s hs
    (by decide) (by decide)
  have hkeeps : s.graph.Keeps s.bb s'.graph none s'.graph := fun b _ _ => by
    rw [if_neg (Option.some_ne_none b).symm]
  exact ⟨s', hok, (hrun s'.graph hkeeps [] ()).2⟩

end Dolang.Compile
