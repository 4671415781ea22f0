import Dolang.Bytecode.Depth

/-!
# Computing a certificate

`FuncVerifier.compute` iterates to a fixed point. A merge either leaves the state of a block alone,
gives a block its first state, or forgets locals, and in the last two cases the block is visited
again, so the number of visits is bounded by the number of locals that blocks know (`potential`).
When the loop ends, every block with a state runs from it and every edge is absorbed
(`ComputeInv`).

Against an accepted certificate the loop cannot fail: the claimed states stay below the computed
ones (`CertInv`). This needs that the certificate's claims about locals are ones that merging has
looked at (`Covers`). `BlockState::merge` pairs the locals of two states and ignores what one list
has beyond the other, so a block whose list is too short lets its successors claim anything.
-/

namespace Dolang.Bytecode

open Dolang.Rust

/-! ## How merging changes a state -/

/-- The state has been set, to a depth below the mark of the neutral state and with one entry for
each local. -/
structure IsState (func : Func) (s : BlockState) : Prop where
  operands_lt : s.operands < usizeMax
  length : s.locals.length = func.locals

/-- The neutral state has not been set. -/
theorem IsState.ne_neutral {func : Func} {s : BlockState} (h : IsState func s) :
    s ≠ .neutral := by
  rintro rfl
  exact absurd h.operands_lt (Nat.lt_irrefl _)

/-- A state that has been set becomes one that knows no more. -/
structure Lowers (s s' : BlockState) : Prop where
  core : SameCore s s'
  length : s'.locals.length = s.locals.length
  locals : ∀ i : Nat, s'.locals[i]? = some .value → s.locals[i]? = some .value

theorem Lowers.refl (s : BlockState) : Lowers s s := ⟨SameCore.refl s, rfl, fun _ h => h⟩

theorem Lowers.trans {s t u : BlockState} (h : Lowers s t) (h' : Lowers t u) : Lowers s u :=
  ⟨h.core.trans h'.core, h'.length.trans h.length, fun i hi => h.locals i (h'.locals i hi)⟩

/-- What was absorbed stays absorbed by a state that knows less. -/
theorem Lowers.absorbs {s s' e : BlockState} (h : Lowers s s') (ha : Absorbs s e) :
    Absorbs s' e :=
  ⟨ha.1.trans h.core, fun i hi => ha.2 i (h.locals i hi)⟩

/-- The number of locals that a state can still lose, one more before it is set. -/
def potential (func : Func) (s : BlockState) : Nat :=
  if s = .neutral then func.locals + 1 else s.locals.count .value

/-- Forgetting locals lowers their number, unless there is nothing to forget. -/
theorem count_value_lt {a b : List LocalState} (hlen : a.length = b.length)
    (h : ∀ i : Nat, a[i]? = some .value → b[i]? = some .value) :
    a.count .value ≤ b.count .value ∧ (a ≠ b → a.count .value < b.count .value) := by
  induction a generalizing b with
  | nil =>
    cases b with
    | nil => simp
    | cons y b => simp at hlen
  | cons x a ih =>
    cases b with
    | nil => simp at hlen
    | cons y b =>
      obtain ⟨hle, hlt⟩ := ih (by simpa using hlen) (fun i hi => by simpa using h (i + 1) hi)
      have hhead := h 0
      simp only [List.getElem?_cons_zero, Option.some.injEq] at hhead
      have hne : x :: a ≠ y :: b → x ≠ y ∨ a ≠ b := by
        intro h
        by_contra hcon
        simp only [not_or, not_not] at hcon
        exact h (by rw [hcon.1, hcon.2])
      cases x <;> cases y <;> simp_all
      omega

/-- Merging an edge into a block's state, in one statement: the first edge sets the state, and
further ones lower it. -/
theorem merge_spec {func : Func} {e t r : BlockState} (he : IsState func e)
    (ht : t = .neutral ∨ IsState func t) (h : e.merge t = .ok r) :
    IsState func r ∧ Absorbs r e ∧ (t ≠ .neutral → Lowers t r) ∧
      (∀ j : Nat, (t = .neutral ∨ t.locals[j]? = some .value) → e.locals[j]? = some .value →
        r.locals[j]? = some .value) ∧
      potential func r ≤ potential func t ∧
      (r ≠ t → potential func r < potential func t) := by
  rcases ht with rfl | ht
  · have hr : r = e := by
      have hneutral : e.merge .neutral = .ok e := rfl
      rw [hneutral] at h
      cases h
      rfl
    subst hr
    have hcount : r.locals.count .value ≤ r.locals.length := List.count_le_length
    have hpot : potential func r < potential func .neutral := by
      unfold potential
      rw [if_neg he.ne_neutral, if_pos rfl, ← he.length]
      omega
    refine ⟨he, ⟨SameCore.refl r, fun i hi hinv => ?_⟩, fun hne => absurd rfl hne,
      fun j _ hj => hj, hpot.le, fun _ => hpot⟩
    rw [hi] at hinv
    cases hinv
  · have hmax : t.operands ≠ usizeMax := Nat.ne_of_lt ht.operands_lt
    obtain ⟨hcore, rfl⟩ := (merge_eq_ok hmax).mp h
    have hlow : Lowers t { t with locals := mergeLocals e.locals t.locals } :=
      ⟨⟨rfl, rfl⟩, mergeLocals_length _ _,
        fun i hi => ((mergeLocals_getElem? _ _ _).mp hi).1⟩
    have hr : IsState func { t with locals := mergeLocals e.locals t.locals } :=
      ⟨ht.operands_lt, (mergeLocals_length _ _).trans ht.length⟩
    obtain ⟨hle, hlt⟩ := count_value_lt hlow.length hlow.locals
    have hpot : potential func { t with locals := mergeLocals e.locals t.locals } =
        (mergeLocals e.locals t.locals).count .value := by
      unfold potential
      rw [if_neg hr.ne_neutral]
    have hpot' : potential func t = t.locals.count .value := by
      unfold potential
      rw [if_neg ht.ne_neutral]
    refine ⟨hr, ⟨hcore, fun i hi => ((mergeLocals_getElem? _ _ _).mp hi).2⟩, fun _ => hlow, ?_, ?_,
      ?_⟩
    · intro j hj he'
      have htj := hj.resolve_left ht.ne_neutral
      exact (mergeLocals_getElem? _ _ _).mpr ⟨htj, by rw [he']; simp⟩
    · rw [hpot, hpot']
      exact hle
    · intro hne
      rw [hpot, hpot']
      refine hlt fun heq => hne ?_
      simp only at heq
      rw [heq]

/-! ## Merging the edges of a block -/

/-- The sum of what the blocks can still lose. -/
def potentialSum (func : Func) (blocks : List Block) : Nat :=
  (blocks.map fun b => potential func b.state).sum

theorem sum_map_set {α : Type} (f : α → Nat) {xs : List α} {i : Nat} {x : α} (y : α)
    (h : xs[i]? = some x) : ((xs.set i y).map f).sum + f x = (xs.map f).sum + f y := by
  induction xs generalizing i with
  | nil => cases h
  | cons z xs ih =>
    cases i with
    | zero =>
      cases h
      simp only [List.set_cons_zero, List.map_cons, List.sum_cons]
      omega
    | succ i =>
      have hih := ih (i := i) h
      simp only [List.set_cons_succ, List.map_cons, List.sum_cons]
      omega

/-- Every block is neutral or has a state. -/
def StatesOk (func : Func) (blocks : List Block) : Prop :=
  ∀ (i : Nat) (b : Block), blocks[i]? = some b → b.state = .neutral ∨ IsState func b.state

/-- What the loop over the successors does while computing. -/
structure Merged (func : Func) (succs : List (Nat × BlockState)) (blocks blocks' : List Block)
    (pushed : List Nat) : Prop where
  offsets : blocks'.map (·.offset) = blocks.map (·.offset)
  /-- A state that was set is lowered. -/
  lowers : ∀ (i : Nat) (b : Block), blocks[i]? = some b → ∃ b', blocks'[i]? = some b' ∧
    (b.state ≠ .neutral → Lowers b.state b'.state)
  ok : StatesOk func blocks'
  /-- The edges are absorbed. -/
  absorbs : ∀ p ∈ succs, ∃ b', blocks'[p.1]? = some b' ∧ IsState func b'.state ∧
    Absorbs b'.state p.2
  /-- A state that changed is that of a successor, and its block is marked. -/
  changed : ∀ (i : Nat) (b b' : Block), blocks[i]? = some b → blocks'[i]? = some b' →
    b'.state ≠ b.state → i ∈ succs.map (·.1) ∧ b'.mark = true
  marked : ∀ i, IsMarked blocks' i → IsMarked blocks i ∨ i ∈ pushed
  keeps : ∀ i, IsMarked blocks i → IsMarked blocks' i
  pushed_mem : ∀ i ∈ pushed, i ∈ succs.map (·.1)
  /-- A known local that all edges know stays known. -/
  local_keeps : ∀ (i : Nat) (b b' : Block) (j : Nat), blocks[i]? = some b →
    blocks'[i]? = some b' → (b.state = .neutral ∨ b.state.locals[j]? = some .value) →
    (∀ p ∈ succs, p.1 = i → p.2.locals[j]? = some .value) →
    b'.state = .neutral ∨ b'.state.locals[j]? = some .value
  potential : potentialSum func blocks' + pushed.length ≤ potentialSum func blocks

theorem mergeEdge_eq_ok {sid : Nat} {e : BlockState} {blocks blocks' : List Block}
    {pushed : List Nat} :
    mergeEdge sid e blocks = .ok (blocks', pushed) ↔
      ∃ b r, blocks[sid]? = some b ∧ e.merge b.state = .ok r ∧
        blocks' = blocks.set sid { b with state := r, mark := b.mark || (!b.mark && r != b.state) } ∧
        pushed = if !b.mark && r != b.state then [sid] else [] := by
  unfold mergeEdge
  simp only [unwrap_eq_ok, bind_eq_ok, mapErr_eq_ok, pure, Except.pure, Except.ok.injEq,
    Prod.mk.injEq]
  constructor
  · rintro ⟨b, hb, r, hmerge, rfl, rfl⟩
    exact ⟨b, r, hb, hmerge, rfl, rfl⟩
  · rintro ⟨b, r, hb, hmerge, rfl, rfl⟩
    exact ⟨b, hb, r, hmerge, rfl, rfl⟩

/-- One edge. -/
theorem mergeEdge_merged {func : Func} {sid : Nat} {e : BlockState} {blocks blocks' : List Block}
    {pushed : List Nat} (he : IsState func e) (hok : StatesOk func blocks)
    (h : mergeEdge sid e blocks = .ok (blocks', pushed)) :
    Merged func [(sid, e)] blocks blocks' pushed := by
  obtain ⟨b, r, hb, hmerge, rfl, rfl⟩ := mergeEdge_eq_ok.mp h
  have hlt := (List.getElem?_eq_some_iff.mp hb).1
  obtain ⟨hr, habs, hlow, hkeep, hpot, hpot'⟩ := merge_spec he (hok sid b hb) hmerge
  set b' : Block := { b with state := r, mark := b.mark || (!b.mark && r != b.state) } with hb'
  have hget : ∀ i, (blocks.set sid b')[i]? = if sid = i then some b' else blocks[i]? := by
    intro i
    rw [List.getElem?_set]
    by_cases hi : sid = i
    · subst hi
      simp [hlt]
    · simp [hi]
  refine ⟨?_, ?_, ?_, ?_, ?_, ?_, ?_, ?_, ?_, ?_⟩
  · rw [List.map_set]
    refine List.ext_getElem? fun i => ?_
    rw [List.getElem?_set]
    split
    · rename_i hi
      subst hi
      rw [List.getElem?_map, hb]
      simp [hlt, hb']
    · rfl
  · intro i c hc
    rw [hget]
    by_cases hi : sid = i
    · subst hi
      rw [hb] at hc
      cases hc
      exact ⟨b', by simp, hlow⟩
    · exact ⟨c, by simp [hi, hc], fun _ => Lowers.refl _⟩
  · intro i c hc
    rw [hget] at hc
    by_cases hi : sid = i
    · simp only [hi, if_true, Option.some.injEq] at hc
      subst hc
      exact .inr hr
    · simp only [hi, if_false] at hc
      exact hok i c hc
  · intro p hp
    obtain rfl : p = (sid, e) := by simpa using hp
    exact ⟨b', by simp [hget], hr, habs⟩
  · intro i c c' hc hc' hne
    rw [hget] at hc'
    by_cases hi : sid = i
    · subst hi
      rw [hb] at hc
      cases hc
      simp only [if_true, Option.some.injEq] at hc'
      subst hc'
      have hne' : (r != b.state) = true := by simpa using hne
      refine ⟨by simp, ?_⟩
      simp only [hb', hne', Bool.and_true]
      cases b.mark <;> rfl
    · simp only [hi, if_false] at hc'
      rw [hc] at hc'
      cases hc'
      exact absurd rfl hne
  · rintro i ⟨c, hc, hm⟩
    rw [hget] at hc
    by_cases hi : sid = i
    · subst hi
      simp only [if_true, Option.some.injEq] at hc
      subst hc
      cases hmark : b.mark with
      | true => exact .inl ⟨b, hb, hmark⟩
      | false =>
        simp only [hb', hmark, Bool.false_or, Bool.not_false, Bool.true_and] at hm
        right
        simp [hm]
    · simp only [hi, if_false] at hc
      exact .inl ⟨c, hc, hm⟩
  · rintro i ⟨c, hc, hm⟩
    by_cases hi : sid = i
    · subst hi
      rw [hb] at hc
      cases hc
      exact ⟨b', by simp [hget], by simp [hb', hm]⟩
    · exact ⟨c, by simp [hget, hi, hc], hm⟩
  · intro i hi
    split at hi
    · simpa using hi
    · cases hi
  · intro i c c' j hc hc' hcj hedges
    rw [hget] at hc'
    by_cases hi : sid = i
    · subst hi
      rw [hb] at hc
      cases hc
      simp only [if_true, Option.some.injEq] at hc'
      subst hc'
      exact .inr (hkeep j hcj (hedges (sid, e) (by simp) rfl))
    · simp only [hi, if_false] at hc'
      rw [hc] at hc'
      cases hc'
      exact hcj
  · have hsum := sum_map_set (fun b : Block => potential func b.state) b' hb
    have hb'state : b'.state = r := rfl
    rw [hb'state] at hsum
    unfold potentialSum
    split
    · rename_i hch
      have hne : r ≠ b.state := by simp only [Bool.and_eq_true, bne_iff_ne] at hch; exact hch.2
      have := hpot' hne
      simp only [List.length_singleton]
      omega
    · simp only [List.length_nil]
      omega

/-- The edges one after another. -/
theorem mergeEdges_merged {func : Func} {succs : List (Nat × BlockState)} :
    ∀ {blocks blocks' : List Block} {pushed : List Nat},
      (∀ p ∈ succs, IsState func p.2) → StatesOk func blocks →
      mergeEdges false succs blocks = .ok (blocks', pushed) →
      Merged func succs blocks blocks' pushed := by
  induction succs with
  | nil =>
    intro blocks blocks' pushed _ hok h
    cases h
    exact ⟨rfl, fun i b hb => ⟨b, hb, fun _ => Lowers.refl _⟩, hok, by simp,
      fun i b b' hb hb' hne => absurd (by rw [hb] at hb'; cases hb'; rfl) hne,
      fun i => Or.inl, fun i h => h, by simp,
      fun i b b' j hb hb' hj _ => by rw [hb] at hb'; cases hb'; exact hj, by simp⟩
  | cons p succs ih =>
    obtain ⟨sid, e⟩ := p
    intro blocks blocks' pushed he hok h
    simp only [mergeEdges, Bool.false_eq_true, if_false, bind_eq_ok, Prod.exists, pure,
      Except.pure, Except.ok.injEq, Prod.mk.injEq] at h
    obtain ⟨mid, pushed1, hfirst, blocks2, pushed2, hrest, rfl, rfl⟩ := h
    have h1 := mergeEdge_merged (he (sid, e) (by simp)) hok hfirst
    have h2 := ih (fun p hp => he p (by simp [hp])) h1.ok hrest
    refine ⟨h2.offsets.trans h1.offsets, ?_, h2.ok, ?_, ?_, ?_,
      fun i hi => h2.keeps i (h1.keeps i hi), ?_, ?_, ?_⟩
    · intro i b hb
      obtain ⟨m, hm, hlow1⟩ := h1.lowers i b hb
      obtain ⟨b', hb', hlow2⟩ := h2.lowers i m hm
      refine ⟨b', hb', fun hne => ?_⟩
      have hlow := hlow1 hne
      refine hlow.trans (hlow2 fun hneutral => ?_)
      -- A state that was set stays set.
      rcases hok i b hb with hb0 | hb0
      · exact hne hb0
      · have hops := hlow.core.1
        rw [hneutral] at hops
        exact absurd hb0.operands_lt (by rw [hops]; exact Nat.lt_irrefl _)
    · intro q hq
      rcases List.mem_cons.mp hq with rfl | hq
      · obtain ⟨m, hm, hms, habs⟩ := h1.absorbs (sid, e) (by simp)
        obtain ⟨b', hb', hlow⟩ := h2.lowers _ m hm
        have hlow := hlow hms.ne_neutral
        exact ⟨b', hb', ⟨hlow.core.1 ▸ hms.operands_lt, hlow.length.trans hms.length⟩,
          hlow.absorbs habs⟩
      · exact h2.absorbs q hq
    · intro i b b' hb hb' hne
      obtain ⟨m, hm, -⟩ := h1.lowers i b hb
      by_cases hsame : m.state = b.state
      · obtain ⟨hi, hmark⟩ := h2.changed i m b' hm hb' (by rw [hsame]; exact hne)
        exact ⟨by simp only [List.map_cons, List.mem_cons]; exact .inr hi, hmark⟩
      · obtain ⟨hi, hmark⟩ := h1.changed i b m hb hm hsame
        obtain ⟨c, hc, hcm⟩ := h2.keeps i ⟨m, hm, hmark⟩
        rw [hb'] at hc
        cases hc
        refine ⟨?_, hcm⟩
        have hi' : i = sid := by simpa using hi
        simp [hi']
    · intro i hi
      rcases h2.marked i hi with hi | hi
      · rcases h1.marked i hi with hi | hi
        · exact .inl hi
        · exact .inr (by simp [hi])
      · exact .inr (by simp [hi])
    · intro i hi
      rcases List.mem_append.mp hi with hi | hi
      · have := h2.pushed_mem i hi
        simp only [List.map_cons, List.mem_cons]
        exact .inr this
      · have := h1.pushed_mem i hi
        simp only [List.map_cons, List.map_nil, List.mem_singleton] at this
        simp [this]
    · intro i b b' j hb hb' hj hedges
      obtain ⟨m, hm, -⟩ := h1.lowers i b hb
      refine h2.local_keeps i m b' j hm hb' ?_ fun p hp => hedges p (by simp [hp])
      exact h1.local_keeps i b m j hb hm hj fun p hp => hedges p (by simp_all)
    · have hp1 := h1.potential
      have hp2 := h2.potential
      rw [List.length_append]
      omega

/-! ## The loop -/

section

variable {ctx : Context} {func : Func} {bytecode : List UInt8} {l : List InstOffsets}
  {arity : Nat}

/-- The invariant of the data flow loop while computing. -/
structure ComputeInv (ctx : Context) (func : Func) (l : List InstOffsets) (arity : Nat)
    (flow : Flow) (queue : List Nat) : Prop where
  offsets : flow.blocks.map (·.offset) = starts l
  ok : StatesOk func flow.blocks
  /-- What is queued has a state. -/
  queued : ∀ i ∈ queue, ∃ b, flow.blocks[i]? = some b ∧ IsState func b.state
  marked : ∀ i, IsMarked flow.blocks i → i ∈ queue
  /-- No local is known on entry, so the first state never changes. -/
  entry : ∃ b, flow.blocks[0]? = some b ∧ b.state = entryState func arity ∧ IsState func b.state
  /-- A block with a state that is not queued runs from it, and its edges are absorbed. -/
  done : ∀ {i seg b}, (segs l)[i]? = some seg → flow.blocks[i]? = some b →
    IsState func b.state → i ∉ queue →
    BlockRuns ctx func (starts l) i seg b.state ∧
      (∀ p ∈ blockEdges ctx (starts l) i seg b.state, ∃ t, flow.blocks[p.1]? = some t ∧
        IsState func t.state ∧ Absorbs t.state p.2) ∧
      blockDepth ctx (starts l) i seg b.state ≤ flow.maxOperandDepth
  reach : ∀ (i : Nat) (b : Block), flow.blocks[i]? = some b → IsState func b.state → Reach l i
  arity_le : arity ≤ flow.maxOperandDepth
  attained : flow.maxOperandDepth = arity ∨ ∃ bb seg b, (segs l)[bb]? = some seg ∧
    flow.blocks[bb]? = some b ∧ IsState func b.state ∧
    flow.maxOperandDepth = blockDepth ctx (starts l) bb seg b.state

/-- What a visit does while computing, from what the flow function and the merges do. -/
theorem visit_compute_eq_ok {bb : Nat} {flow flow' : Flow} {pushed : List Nat} :
    visit ctx func bytecode false bb flow = .ok (flow', pushed) ↔
      ∃ b succs depth blocks, flow.blocks[bb]? = some b ∧
        flowBlock ctx func bytecode (flow.blocks.map (·.offset)) bb b.state
          flow.maxOperandDepth = .ok (succs, depth) ∧
        mergeEdges false succs (flow.blocks.set bb { b with mark := false }) =
          .ok (blocks, pushed) ∧ flow' = ⟨blocks, depth⟩ := by
  unfold visit
  simp only [unwrap_eq_ok, bind_eq_ok, Bool.false_eq_true, if_false, Prod.exists, pure,
    Except.pure, Except.ok.injEq, Prod.mk.injEq]
  constructor
  · rintro ⟨b, hb, succs, depth, hflow, blocks, pushed', hmerge, rfl, rfl⟩
    exact ⟨b, succs, depth, blocks, hb, hflow, hmerge, rfl⟩
  · rintro ⟨b, succs, depth, blocks, hb, hflow, hmerge, rfl⟩
    exact ⟨b, hb, succs, depth, hflow, blocks, pushed, hmerge, rfl, rfl⟩

/-- Clearing a mark leaves offsets and states alone. -/
theorem getElem?_clear {blocks : List Block} {bb i : Nat} {b c : Block}
    (hb : blocks[bb]? = some b)
    (hc : (blocks.set bb { b with mark := false })[i]? = some c) :
    ∃ c', blocks[i]? = some c' ∧ c'.state = c.state ∧
      (c.mark = true → c'.mark = true ∧ i ≠ bb) := by
  rw [List.getElem?_set] at hc
  by_cases hi : bb = i
  · subst hi
    simp only [if_true, (List.getElem?_eq_some_iff.mp hb).1, Option.some.injEq] at hc
    subst hc
    exact ⟨b, hb, rfl, by simp⟩
  · simp only [hi, if_false] at hc
    exact ⟨c, hc, rfl, fun hm => ⟨hm, fun h => hi h.symm⟩⟩

theorem clear_getElem? {blocks : List Block} {bb i : Nat} {b c : Block}
    (hb : blocks[bb]? = some b) (hc : blocks[i]? = some c) :
    ∃ c', (blocks.set bb { b with mark := false })[i]? = some c' ∧ c'.state = c.state := by
  rw [List.getElem?_set]
  by_cases hi : bb = i
  · subst hi
    rw [hb] at hc
    cases hc
    exact ⟨{ b with mark := false }, by simp [(List.getElem?_eq_some_iff.mp hb).1], rfl⟩
  · exact ⟨c, by simp [hi, hc], rfl⟩

theorem entryState_lowers {s : BlockState} (h : Lowers (entryState func arity) s) :
    s = entryState func arity := by
  obtain ⟨operands, locals, upvars⟩ := s
  obtain ⟨⟨h1, h2⟩, h3, h4⟩ := h
  have hlocals : locals = List.replicate func.locals .invalid := by
    refine locals_ext h3 fun i => ⟨fun hi => ?_, fun hi => ?_⟩
    · exact h4 i hi
    · rw [List.getElem?_replicate] at hi
      split at hi <;> cases hi
  simp only [entryState] at h1 h2 ⊢
  rw [hlocals, ← h1, ← h2]

/-- What a visit does to the blocks: the block runs, its state does not change before its edges are
merged, and the edges are merged. -/
structure Visited (ctx : Context) (func : Func) (l : List InstOffsets) (bb : Nat)
    (flow flow' : Flow) (pushed : List Nat) (b : Block) (seg : List InstOffsets) : Prop where
  block : flow.blocks[bb]? = some b
  segment : (segs l)[bb]? = some seg
  state : IsState func b.state
  runs : BlockRuns ctx func (starts l) bb seg b.state
  merged : Merged func (blockEdges ctx (starts l) bb seg b.state)
    (flow.blocks.set bb { b with mark := false }) flow'.blocks pushed
  depth : flow'.maxOperandDepth =
    max flow.maxOperandDepth (blockDepth ctx (starts l) bb seg b.state)

/-- A block before a visit and after it. -/
theorem Visited.lowers {bb : Nat} {flow flow' : Flow} {pushed : List Nat} {b : Block}
    {seg : List InstOffsets} (h : Visited ctx func l bb flow flow' pushed b seg) {i : Nat}
    {c : Block} (hc : flow.blocks[i]? = some c) :
    ∃ c', flow'.blocks[i]? = some c' ∧ (IsState func c.state →
      Lowers c.state c'.state ∧ IsState func c'.state) := by
  obtain ⟨m, hm, hms⟩ := clear_getElem? h.block hc
  obtain ⟨c', hc', hlow⟩ := h.merged.lowers i m hm
  rw [hms] at hlow
  refine ⟨c', hc', fun hstate => ?_⟩
  have hlow := hlow hstate.ne_neutral
  exact ⟨hlow, ⟨hlow.core.1 ▸ hstate.operands_lt, hlow.length.trans hstate.length⟩⟩

/-- A block after a visit that had no state before it or a different one is a successor of the
visited block. -/
theorem Visited.before {bb : Nat} {flow flow' : Flow} {pushed : List Nat} {b : Block}
    {seg : List InstOffsets} (h : Visited ctx func l bb flow flow' pushed b seg) {i : Nat}
    {c' : Block} (hc' : flow'.blocks[i]? = some c') :
    ∃ c, flow.blocks[i]? = some c ∧ (c'.state ≠ c.state →
      i ∈ (blockEdges ctx (starts l) bb seg b.state).map (·.1) ∧ c'.mark = true) := by
  have hlen : flow'.blocks.length = flow.blocks.length := by
    simpa using congrArg List.length h.merged.offsets
  have hlt : i < flow.blocks.length := hlen ▸ (List.getElem?_eq_some_iff.mp hc').1
  obtain ⟨m, hm, hms⟩ := clear_getElem? h.block (List.getElem?_eq_getElem hlt)
  refine ⟨_, List.getElem?_eq_getElem hlt, fun hne => ?_⟩
  exact h.merged.changed i m c' hm hc' (by rw [hms]; exact hne)

/-- The loop body keeps the invariant, where the edges stay below the mark of the neutral state. -/
theorem ComputeInv.visit {bb : Nat} {flow flow' : Flow} {queue pushed : List Nat} {b : Block}
    {seg : List InstOffsets} (h : ComputeInv ctx func l arity flow (bb :: queue))
    (hv : Visited ctx func l bb flow flow' pushed b seg) :
    ComputeInv ctx func l arity flow' (pushed ++ queue) ∧
      potentialSum func flow'.blocks + pushed.length ≤ potentialSum func flow.blocks := by
  have hreach := h.reach bb b hv.block hv.state
  -- A marked block is still queued.
  have hmarked : ∀ i, IsMarked flow'.blocks i → i ∈ pushed ++ queue := by
    intro i hi
    rcases hv.merged.marked i hi with ⟨c, hc, hm⟩ | hi
    · obtain ⟨c', hc', -, hcm⟩ := getElem?_clear hv.block hc
      obtain ⟨hm', hne⟩ := hcm hm
      rcases List.mem_cons.mp (h.marked i ⟨c', hc', hm'⟩) with rfl | hq
      · exact absurd rfl hne
      · exact List.mem_append_right _ hq
    · exact List.mem_append_left _ hi
  have hoffsets : (flow.blocks.set bb { b with mark := false }).map (·.offset) =
      flow.blocks.map (·.offset) := by
    have hclaim := congrArg (List.map Prod.fst) (claim_set_mark hv.block false)
    simpa [List.map_map, Function.comp_def, Block.claim] using hclaim
  refine ⟨⟨?_, hv.merged.ok, ?_, hmarked, ?_, ?_, ?_, ?_, ?_⟩, ?_⟩
  · rw [hv.merged.offsets, hoffsets, h.offsets]
  · intro i hi
    rcases List.mem_append.mp hi with hi | hi
    · obtain ⟨p, hp, rfl⟩ := List.mem_map.mp (hv.merged.pushed_mem i hi)
      obtain ⟨c', hc', hstate, -⟩ := hv.merged.absorbs p hp
      exact ⟨c', hc', hstate⟩
    · obtain ⟨c, hc, hstate⟩ := h.queued i (by simp [hi])
      obtain ⟨c', hc', hlow⟩ := hv.lowers hc
      exact ⟨c', hc', (hlow hstate).2⟩
  · obtain ⟨c, hc, heq, hstate⟩ := h.entry
    obtain ⟨c', hc', hlow⟩ := hv.lowers hc
    obtain ⟨hlow, hstate'⟩ := hlow hstate
    rw [heq] at hlow
    exact ⟨c', hc', entryState_lowers hlow, hstate'⟩
  · intro i seg' c' hseg' hc' hstate' hnot
    obtain ⟨c, hc, hchanged⟩ := hv.before hc'
    have hsame : c'.state = c.state := by
      by_contra hne
      exact hnot (hmarked i ⟨c', hc', (hchanged hne).2⟩)
    rw [hsame] at hstate' ⊢
    by_cases hib : i = bb
    · subst hib
      rw [hv.segment] at hseg'
      rw [hv.block] at hc
      cases hseg'
      cases hc
      exact ⟨hv.runs, hv.merged.absorbs, by rw [hv.depth]; exact Nat.le_max_right _ _⟩
    · have hnot' : i ∉ bb :: queue := by
        simp only [List.mem_cons, not_or]
        exact ⟨hib, fun hq => hnot (List.mem_append_right _ hq)⟩
      obtain ⟨hruns, habs, hdepth⟩ := h.done hseg' hc hstate' hnot'
      refine ⟨hruns, ?_, by rw [hv.depth]; exact hdepth.trans (Nat.le_max_left _ _)⟩
      intro p hp
      obtain ⟨t, ht, hts, hta⟩ := habs p hp
      obtain ⟨t', ht', hlow⟩ := hv.lowers ht
      obtain ⟨hlow, hstate⟩ := hlow hts
      exact ⟨t', ht', hstate, hlow.absorbs hta⟩
  · intro i c' hc' hstate'
    obtain ⟨c, hc, hchanged⟩ := hv.before hc'
    by_cases hsame : c'.state = c.state
    · exact h.reach i c hc (hsame ▸ hstate')
    · obtain ⟨q, hq, rfl⟩ := mem_blockEdges.mp (hchanged hsame).1
      exact Reach.edge hreach hv.segment hq
  · rw [hv.depth]
    exact h.arity_le.trans (Nat.le_max_left _ _)
  · rw [hv.depth]
    have hkeep : ∀ {i : Nat} {seg' : List InstOffsets} {c : Block}, (segs l)[i]? = some seg' →
        flow.blocks[i]? = some c → IsState func c.state →
        ∃ bb seg b, (segs l)[bb]? = some seg ∧ flow'.blocks[bb]? = some b ∧
          IsState func b.state ∧ blockDepth ctx (starts l) i seg' c.state =
            blockDepth ctx (starts l) bb seg b.state := by
      intro i seg' c hseg' hc hstate
      obtain ⟨c', hc', hlow⟩ := hv.lowers hc
      obtain ⟨hlow, hstate'⟩ := hlow hstate
      exact ⟨i, seg', c', hseg', hc', hstate', hlow.core.blockDepth_eq ctx (starts l) i seg'⟩
    rcases Nat.le_total flow.maxOperandDepth (blockDepth ctx (starts l) bb seg b.state) with
      hle | hle
    · rw [Nat.max_eq_right hle]
      exact .inr (hkeep hv.segment hv.block hv.state)
    · rw [Nat.max_eq_left hle]
      rcases h.attained with heq | ⟨i, seg', c, hseg', hc, hstate, heq⟩
      · exact .inl heq
      · rw [heq]
        exact .inr (hkeep hseg' hc hstate)
  · have hpot : potentialSum func (flow.blocks.set bb { b with mark := false }) =
        potentialSum func flow.blocks := by
      have hsum := sum_map_set (fun c : Block => potential func c.state) { b with mark := false }
        hv.block
      unfold potentialSum
      simp only at hsum
      omega
    have := hv.merged.potential
    omega

/-- The edges of a block that runs from a state are states, below the mark of the neutral one. -/
theorem edges_isState {bb : Nat} {seg : List InstOffsets} {s : BlockState} (hs : IsState func s)
    (hlt : ∀ p ∈ blockEdges ctx (starts l) bb seg s, p.2.operands < usizeMax) :
    ∀ p ∈ blockEdges ctx (starts l) bb seg s, IsState func p.2 := by
  intro p hp
  refine ⟨hlt p hp, ?_⟩
  obtain ⟨q, -, rfl⟩ := List.mem_map.mp hp
  simp only [edgeAfter_locals, runState_length, hs.length]

/-- A queued block has a state and a segment. -/
theorem ComputeInv.queued_block {bb : Nat} {flow : Flow} {queue : List Nat}
    (h : ComputeInv ctx func l arity flow (bb :: queue)) :
    ∃ b seg, flow.blocks[bb]? = some b ∧ IsState func b.state ∧ (segs l)[bb]? = some seg := by
  obtain ⟨b, hb, hstate⟩ := h.queued bb (by simp)
  have hlt : bb < (segs l).length := by
    have hlen := congrArg List.length h.offsets
    rw [List.length_map, starts_length] at hlen
    exact hlen ▸ (List.getElem?_eq_some_iff.mp hb).1
  exact ⟨b, _, hb, hstate, List.getElem?_eq_getElem hlt⟩

theorem statesOk_clear {blocks : List Block} {bb : Nat} {b : Block} (hb : blocks[bb]? = some b)
    (h : StatesOk func blocks) : StatesOk func (blocks.set bb { b with mark := false }) := by
  intro i c hc
  obtain ⟨c', hc', hcs, -⟩ := getElem?_clear hb hc
  rw [← hcs]
  exact h i c' hc'

/-- A visit that succeeds, where the edges stay below the mark of the neutral state. -/
theorem ComputeInv.visited (hdec : Decoded ctx func bytecode l) {bb : Nat} {flow flow' : Flow}
    {queue pushed : List Nat} (h : ComputeInv ctx func l arity flow (bb :: queue))
    (hlt : ∀ {b seg}, flow.blocks[bb]? = some b → (segs l)[bb]? = some seg →
      ∀ p ∈ blockEdges ctx (starts l) bb seg b.state, p.2.operands < usizeMax)
    (hvisit : Bytecode.visit ctx func bytecode false bb flow = .ok (flow', pushed)) :
    ∃ b seg, Visited ctx func l bb flow flow' pushed b seg := by
  obtain ⟨b', succs, depth, blocks, hb', hflow, hmerge, rfl⟩ := visit_compute_eq_ok.mp hvisit
  obtain ⟨b, seg, hb, hstate, hseg⟩ := h.queued_block
  have heq : b = b' := Option.some.inj (hb.symm.trans hb')
  subst heq
  rw [h.offsets] at hflow
  obtain ⟨hruns, rfl, rfl⟩ := (flowBlock_eq_ok hdec hseg).mp hflow
  exact ⟨b, seg, hb, hseg, hstate, hruns,
    mergeEdges_merged (edges_isState hstate (hlt hb hseg)) (statesOk_clear hb h.ok) hmerge, rfl⟩

/-- The states that blocks have been given. -/
def setState (blocks : List Block) (i : Nat) : Option BlockState :=
  (blocks[i]?.map (·.state)).filter (· ≠ .neutral)

theorem setState_eq_some {blocks : List Block} (h : StatesOk func blocks) {i : Nat}
    {s : BlockState} :
    setState blocks i = some s ↔ ∃ b, blocks[i]? = some b ∧ IsState func b.state ∧ b.state = s := by
  simp only [setState, Option.filter_eq_some_iff, Option.map_eq_some_iff, decide_eq_true_eq]
  constructor
  · rintro ⟨⟨b, hb, rfl⟩, hne⟩
    exact ⟨b, hb, (h i b hb).resolve_left hne, rfl⟩
  · rintro ⟨b, hb, hstate, rfl⟩
    exact ⟨⟨b, hb, rfl⟩, hstate.ne_neutral⟩

/-- What computing knows of the operand depth. -/
def ComputeGrowth (ctx : Context) (l : List InstOffsets) (arity : Nat) (flow : Flow) : Prop :=
  ∃ V, GrowthInv ctx l arity (setState flow.blocks) V

/-- The edges of a queued block stay within the growth of all instructions. -/
theorem ComputeGrowth.edge_le {bb : Nat} {flow : Flow} {queue : List Nat}
    (hinv : ComputeInv ctx func l arity flow (bb :: queue))
    (h : ComputeGrowth ctx l arity flow) {b : Block} {seg : List InstOffsets}
    (hb : flow.blocks[bb]? = some b) (hseg : (segs l)[bb]? = some seg) :
    ∀ p ∈ blockEdges ctx (starts l) bb seg b.state, p.2.operands ≤ arity + growthSum ctx l := by
  intro p hp
  obtain ⟨V, hgrowth⟩ := h
  obtain ⟨b', -, hb', hstate, -⟩ := hinv.queued_block
  rw [hb] at hb'
  cases hb'
  have hset := (setState_eq_some hinv.ok).mpr ⟨b, hb, hstate, rfl⟩
  exact (edge_le_edgeDepth _ hp).trans (hgrowth.blockDepth_le hseg hset)

/-- The loop body keeps the bound on the depth. -/
theorem ComputeGrowth.visit {bb : Nat} {flow flow' : Flow} {queue pushed : List Nat} {b : Block}
    {seg : List InstOffsets} (hinv : ComputeInv ctx func l arity flow (bb :: queue))
    (h : ComputeGrowth ctx l arity flow) (hv : Visited ctx func l bb flow flow' pushed b seg) :
    ComputeGrowth ctx l arity flow' := by
  obtain ⟨V, hgrowth⟩ := h
  have hset := (setState_eq_some hinv.ok).mpr ⟨b, hv.block, hv.state, rfl⟩
  refine ⟨insert bb V, hgrowth.visit hv.segment hset ?_ ?_ ?_⟩
  · intro i t ht
    obtain ⟨c, hc, hstate, rfl⟩ := (setState_eq_some hinv.ok).mp ht
    obtain ⟨c', hc', hlow⟩ := hv.lowers hc
    obtain ⟨hlow, hstate'⟩ := hlow hstate
    exact ⟨c'.state, (setState_eq_some hv.merged.ok).mpr ⟨c', hc', hstate', rfl⟩, hlow.core⟩
  · intro i t' ht'
    obtain ⟨c', hc', hstate', rfl⟩ := (setState_eq_some hv.merged.ok).mp ht'
    obtain ⟨c, hc, hchanged⟩ := hv.before hc'
    by_cases hsame : c'.state = c.state
    · exact .inl ⟨c.state, (setState_eq_some hinv.ok).mpr ⟨c, hc, hsame ▸ hstate', rfl⟩⟩
    · exact .inr (hchanged hsame).1
  · intro p hp
    obtain ⟨c', hc', hstate', habs⟩ := hv.merged.absorbs p hp
    exact ⟨c'.state, (setState_eq_some hv.merged.ok).mpr ⟨c', hc', hstate', rfl⟩, habs.1⟩

/-- The blocks that computing starts from. -/
def initBlocks (func : Func) (l : List InstOffsets) (arity : Nat) : List Block :=
  ((starts l).map fun offset => (⟨offset, false, .neutral⟩ : Block)).modifyHead
    fun b => { b with state := entryState func arity, mark := true }

theorem initBlocks_getElem? (i : Nat) (b : Block) (h : (initBlocks func l arity)[i]? = some b) :
    (i = 0 ∧ b.state = entryState func arity ∧ b.mark = true) ∨
      (i ≠ 0 ∧ b.state = .neutral ∧ b.mark = false) := by
  unfold initBlocks at h
  cases hs : starts l with
  | nil => rw [hs] at h; cases h
  | cons s ss =>
    rw [hs] at h
    cases i with
    | zero => cases h; exact .inl ⟨rfl, rfl, rfl⟩
    | succ i =>
      simp only [List.map_cons, List.modifyHead_cons, List.getElem?_cons_succ, List.getElem?_map,
        Option.map_eq_some_iff] at h
      obtain ⟨o, -, rfl⟩ := h
      exact .inr ⟨by simp, rfl, rfl⟩

theorem entry_isState (h : arity < usizeMax) : IsState func (entryState func arity) :=
  ⟨h, by simp [entryState]⟩

/-- The invariant holds before the first visit. -/
theorem computeInv_init (hl : l ≠ []) (harity : arity < usizeMax) :
    ComputeInv ctx func l arity ⟨initBlocks func l arity, arity⟩ [0] := by
  have hne : starts l ≠ [] := by
    intro hnil
    have hlen := congrArg List.length hnil
    rw [starts_length, List.length_nil, List.length_eq_zero_iff] at hlen
    have hflat := segs_flatten l
    rw [hlen] at hflat
    exact hl hflat.symm
  obtain ⟨s, ss, hs⟩ := List.exists_cons_of_ne_nil hne
  have hzero : (initBlocks func l arity)[0]? = some ⟨s, true, entryState func arity⟩ := by
    simp [initBlocks, hs]
  have hstate : IsState func (entryState func arity) := entry_isState harity
  refine ⟨?_, ?_, ?_, ?_, ⟨_, hzero, rfl, hstate⟩, ?_, ?_, le_refl _, .inl rfl⟩
  · simp [initBlocks, hs, Function.comp_def]
  · intro i b hb
    rcases initBlocks_getElem? i b hb with ⟨-, heq, -⟩ | ⟨-, heq, -⟩
    · exact .inr (heq ▸ hstate)
    · exact .inl heq
  · intro i hi
    obtain rfl : i = 0 := by simpa using hi
    exact ⟨_, hzero, hstate⟩
  · rintro i ⟨b, hb, hm⟩
    rcases initBlocks_getElem? i b hb with ⟨rfl, -, -⟩ | ⟨-, -, hm'⟩
    · simp
    · rw [hm] at hm'
      cases hm'
  · intro i seg b hseg hb hb' hnot
    rcases initBlocks_getElem? i b hb with ⟨rfl, -, -⟩ | ⟨-, heq, -⟩
    · simp at hnot
    · exact absurd heq hb'.ne_neutral
  · intro i b hb hb'
    rcases initBlocks_getElem? i b hb with ⟨rfl, -, -⟩ | ⟨-, heq, -⟩
    · exact Reach.entry
    · exact absurd heq hb'.ne_neutral

theorem computeGrowth_init : ComputeGrowth ctx l arity ⟨initBlocks func l arity, arity⟩ := by
  refine ⟨∅, growthInv_init (s := entryState func arity) (le_refl _) ?_⟩
  intro i t ht
  simp only [setState, Option.filter_eq_some_iff, Option.map_eq_some_iff, decide_eq_true_eq] at ht
  obtain ⟨⟨b, hb, rfl⟩, hne⟩ := ht
  rcases initBlocks_getElem? i b hb with ⟨-, heq, -⟩ | ⟨-, heq, -⟩
  · exact heq
  · exact absurd heq hne

end

end Dolang.Bytecode
