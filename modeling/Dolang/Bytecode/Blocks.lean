import Dolang.Bytecode.Step

/-!
# Instructions and basic blocks

What the first two passes of the verifier establish, in terms of the list of a function's
instructions. `syntaxPass` decodes the whole code (`Chain`) and checks every instruction
(`SyntaxOk`). `basicBlocks` cuts the list into segments at the instructions that start a block
(`segs`), and a block's instructions in the data flow pass are those of its segment
(`blockInsts_eq`). Both results are collected in `Decoded`.
-/

namespace Dolang.Bytecode

open Dolang.Rust

/-! ## Pass 0 -/

/-- Whether the instruction after this one starts a block. -/
def Inst.endsBlock : Inst → Bool
  | .branch _ | .branchTrue _ | .branchFalse _ | .elseFallthrough _ | .nlBranch _ _
  | .unpackBranch _ _ => true
  | _ => false

/-- The functions that an instruction uses. -/
def Inst.uses : Inst → List Nat
  | .close f | .nlGuard f => [f]
  | _ => []

/-- What `syntax` has checked of an instruction. -/
def SyntaxOk (ctx : Context) (func : Func) (i : InstOffsets) : Prop :=
  match i.inst with
  | .swap a b => a ≠ b
  | .call sig | .reify sig => (ctx.pack sig).isSome
  | .methodCall sym sig => ctx.symbolValid sym ∧ (ctx.pack sig).isSome
  | .builtin idx sig => idx < builtinsLen ∧ (ctx.pack sig).isSome
  | .loadConst index => ctx.constantValid index
  | .loadLocal index | .storeLocal index => index < func.locals
  | .get index | .set index => ctx.symbolValid index
  | .close index | .nlGuard index => (ctx.function index).isSome
  | .unpack index => ∃ n, ctx.unpackArity index = .ok (some n)
  | .elseFallthrough kind => kind ≤ 1
  | .unpackBranch index _ => ∃ n, ctx.unpackArity index = .ok (some n)
  | _ => True

/-- The offset that an instruction branches to. -/
def InstOffsets.target (i : InstOffsets) : Option Nat :=
  i.inst.branchTarget.bind (checkedAddSigned i.after)

/-- A check of `syntax` that passed. -/
theorem check_eq_ok {c : Bool} {e : FuncError} {u : Unit} :
    (if c then .ok () else fail e : Exec FuncError Unit) = .ok u ↔ c = true := by
  cases c <;> simp [fail]

/-- A passed instruction satisfies `SyntaxOk`, and the results say where blocks start and which
functions are used. -/
theorem checkInst_eq_ok {ctx : Context} {func : Func} {i : InstOffsets} {r : Bool × List Nat}
    (h : checkInst ctx func i = .ok r) :
    r = (i.inst.endsBlock, i.inst.uses) ∧ SyntaxOk ctx func i ∧
      (i.inst.branchTarget.isSome → i.target.isSome) := by
  obtain ⟨before, inst, after⟩ := i
  have harity : ∀ {o : Option Nat} {index : Nat}, ctx.unpackArity index = .ok o → o.isSome →
      ∃ n, ctx.unpackArity index = .ok (some n) := by
    intro o index h1 h2
    obtain ⟨n, rfl⟩ := Option.isSome_iff_exists.mp h2
    exact ⟨n, h1⟩
  have htarget : ∀ {t : Int} {len : Nat}, targetInBounds after t len = true →
      (checkedAddSigned after t).isSome := by
    intro t len ht
    unfold targetInBounds at ht
    split at ht
    · simp [*]
    · cases ht
  cases inst <;>
    simp only [checkInst, bind_eq_ok, check_eq_ok, arity_eq_ok, exists_const, pure, Except.pure,
      Except.ok.injEq] at h <;>
    simp only [SyntaxOk, InstOffsets.target, Inst.branchTarget, Inst.endsBlock, Inst.uses,
      Option.bind_some, Option.isSome_none, Bool.false_eq_true, false_implies, and_true]
  case unpack =>
    obtain ⟨o, h1, h2, rfl⟩ := h
    exact ⟨rfl, harity h1 h2⟩
  case unpackBranch =>
    obtain ⟨o, h1, h2, h3, rfl⟩ := h
    exact ⟨rfl, harity h1 h2, fun _ => htarget h3⟩
  case branch | branchTrue | branchFalse =>
    exact ⟨h.2.symm, trivial, fun _ => htarget h.1⟩
  all_goals grind

/-- A list of instructions covers the code from a position on, each one starting where the one
before it ends. -/
def Chain (code : List UInt8) : Nat → List InstOffsets → Prop
  | pos, [] => code.length ≤ pos
  | pos, i :: l =>
    i.before = pos ∧ next code pos = some (.ok (i.inst, i.after)) ∧ Chain code i.after l

/-- The instructions from a position on decode without an error exactly when they are a chain. -/
theorem insts_eq_map_ok {code : List UInt8} {l : List InstOffsets} {pos : Nat} :
    insts code pos = l.map .ok ↔ Chain code pos l := by
  induction l generalizing pos with
  | nil =>
    rw [insts_eq, Chain, ← next_eq_none_iff]
    cases next code pos with
    | none => simp
    | some r => cases r <;> simp
  | cons i l ih =>
    obtain ⟨before, inst, after⟩ := i
    rw [insts_eq, Chain, ← ih]
    cases next code pos with
    | none => simp
    | some r =>
      cases r with
      | error e => simp
      | ok q =>
        obtain ⟨inst', after'⟩ := q
        simp only [List.map_cons, List.cons.injEq, Except.ok.injEq, InstOffsets.mk.injEq,
          Option.some.injEq, Prod.mk.injEq]
        constructor
        · rintro ⟨⟨rfl, rfl, rfl⟩, h⟩
          exact ⟨rfl, ⟨rfl, rfl⟩, h⟩
        · rintro ⟨rfl, ⟨rfl, rfl⟩, h⟩
          exact ⟨⟨rfl, rfl, rfl⟩, h⟩

/-- There is one chain at most from a position. -/
theorem Chain.unique {code : List UInt8} {pos : Nat} {l l' : List InstOffsets}
    (h : Chain code pos l) (h' : Chain code pos l') : l = l' := by
  have hmap : l.map (Except.ok : _ → Except DecError _) = l'.map Except.ok :=
    (insts_eq_map_ok.mpr h).symm.trans (insts_eq_map_ok.mpr h')
  exact List.map_injective_iff.mpr (fun a b hab => Except.ok.inj hab) hmap

/-- The offsets that `syntax` collects: an instruction starts a block when the one before it ends
one. -/
def offsetsOf : Bool → List InstOffsets → List OffsetInfo
  | _, [] => []
  | startBb, i :: l => ⟨i.before, startBb⟩ :: offsetsOf i.inst.endsBlock l

/-- The last instruction of a list, or a default. -/
def lastInst : Inst → List InstOffsets → Inst
  | last, [] => last
  | _, i :: l => lastInst i.inst l

/-- The results of the loop of `syntax`. -/
theorem syntaxLoop_eq_ok {ctx : Context} {func : Func} :
    ∀ {items : List (Except DecError InstOffsets)} {needBb : Bool} {last : Inst}
      {info : SyntaxInfo}, syntaxLoop ctx func items needBb last = .ok info →
      ∃ l : List InstOffsets, items = l.map .ok ∧
        (∀ i ∈ l, SyntaxOk ctx func i ∧ (i.inst.branchTarget.isSome → i.target.isSome)) ∧
        info = ⟨offsetsOf needBb l, l.flatMap (·.inst.uses), lastInst last l⟩ := by
  intro items
  induction items with
  | nil =>
    intro needBb last info h
    cases h
    exact ⟨[], rfl, by simp, rfl⟩
  | cons item items ih =>
    intro needBb last info h
    cases item with
    | error e => cases h
    | ok i =>
      obtain ⟨r, hcheck, h⟩ := bind_ok h
      obtain ⟨rfl, hok, htarget⟩ := checkInst_eq_ok hcheck
      obtain ⟨info', hloop, h⟩ := bind_ok h
      cases h
      obtain ⟨l, rfl, hl, rfl⟩ := ih hloop
      refine ⟨i :: l, rfl, ?_, rfl⟩
      intro j hj
      rcases List.mem_cons.mp hj with rfl | hj
      · exact ⟨hok, htarget⟩
      · exact hl j hj

/-! ## Pass 1 -/

/-- The offsets that a list of instructions branches to. -/
def targets (l : List InstOffsets) : List Nat := l.filterMap (·.target)

/-- The results of the loop of `basic_blocks`: the targets are offsets of instructions, and start
blocks. -/
theorem markTargets_eq_ok {l : List InstOffsets} :
    ∀ {offsets offsets' : List OffsetInfo}, markTargets (l.map .ok) offsets = .ok offsets' →
      offsets' = offsets.map (fun o => ⟨o.offset, o.startBb || decide (o.offset ∈ targets l)⟩) ∧
        ∀ t ∈ targets l, t ∈ offsets.map (·.offset) := by
  induction l with
  | nil =>
    intro offsets offsets' h
    cases h
    simp [targets]
  | cons i l ih =>
    intro offsets offsets' h
    simp only [List.map_cons, markTargets] at h
    split at h
    · rename_i hnone
      have htargets : targets (i :: l) = targets l := by
        simp [targets, InstOffsets.target, hnone]
      rw [htargets]
      exact ih h
    · rename_i target hsome
      simp only [unwrap_bind_eq_ok, okOr_bind_eq_ok] at h
      obtain ⟨t, ht, mid, hstart, h⟩ := h
      have htargets : targets (i :: l) = t :: targets l := by
        simp [targets, InstOffsets.target, hsome, ht]
      unfold startBlock at hstart
      split at hstart
      · rename_i hany
        obtain ⟨hmap, hmem⟩ := ih h
        cases hstart
        have hoffsets : (offsets.map fun o =>
            if o.offset = t then { o with startBb := true } else o).map (·.offset) =
            offsets.map (·.offset) := by
          rw [List.map_map]
          refine List.map_congr_left fun o _ => ?_
          simp only [Function.comp_apply]
          split <;> rfl
        rw [hoffsets] at hmem
        rw [htargets]
        constructor
        · rw [hmap, List.map_map]
          refine List.map_congr_left fun o _ => ?_
          simp only [Function.comp_apply, List.mem_cons]
          by_cases ho : o.offset = t <;> simp [ho]
        · intro t' ht'
          rcases List.mem_cons.mp ht' with rfl | ht'
          · obtain ⟨o, ho, heq⟩ := List.any_eq_true.mp hany
            exact List.mem_map.mpr ⟨o, ho, by simpa using heq⟩
          · exact hmem t' ht'
      · cases hstart

/-- The instructions, each with whether it starts a block: the first one, those after the end of a
block, and those in `ts`. -/
def flags (ts : List Nat) : Bool → List InstOffsets → List (InstOffsets × Bool)
  | _, [] => []
  | start, i :: l => (i, start || decide (i.before ∈ ts)) :: flags ts i.inst.endsBlock l

/-- Cut a list at its flagged elements: what precedes the first one, and a segment for each. -/
def cut : List (InstOffsets × Bool) → List InstOffsets × List (List InstOffsets)
  | [] => ([], [])
  | (i, start) :: l =>
    if start then ([], (i :: (cut l).1) :: (cut l).2) else (i :: (cut l).1, (cut l).2)

/-- The instructions of each basic block. -/
def segs (l : List InstOffsets) : List (List InstOffsets) := (cut (flags (targets l) true l)).2

/-- The offset of each basic block. -/
def starts (l : List InstOffsets) : List Nat :=
  leaders ((offsetsOf true l).map fun o => ⟨o.offset, o.startBb || decide (o.offset ∈ targets l)⟩)

theorem offsetsOf_map_flags (ts : List Nat) (start : Bool) (l : List InstOffsets) :
    ((offsetsOf start l).map fun o => (⟨o.offset, o.startBb || decide (o.offset ∈ ts)⟩ :
      OffsetInfo)) = (flags ts start l).map fun p => ⟨p.1.before, p.2⟩ := by
  induction l generalizing start with
  | nil => rfl
  | cons i l ih => simp [offsetsOf, flags, ih]

/-- The leaders are the first instructions of the segments. -/
theorem leaders_flags (fl : List (InstOffsets × Bool)) :
    (leaders (fl.map fun p => ⟨p.1.before, p.2⟩)).map some =
      (cut fl).2.map fun seg => seg.head?.map (·.before) := by
  induction fl with
  | nil => rfl
  | cons p fl ih =>
    obtain ⟨i, start⟩ := p
    cases start
    · simpa [leaders, cut] using ih
    · simpa [leaders, cut] using ih

theorem starts_map_some (l : List InstOffsets) :
    (starts l).map some = (segs l).map fun seg => seg.head?.map (·.before) := by
  rw [starts, offsetsOf_map_flags, leaders_flags, segs]

@[simp]
theorem starts_length (l : List InstOffsets) : (starts l).length = (segs l).length := by
  simpa using congrArg List.length (starts_map_some l)

/-- The offset of a block is that of its first instruction. -/
theorem starts_getElem? (l : List InstOffsets) {bb : Nat} {seg : List InstOffsets}
    (h : (segs l)[bb]? = some seg) : (starts l)[bb]? = seg.head?.map (·.before) := by
  have hmap := congrArg (·[bb]?) (starts_map_some l)
  simp only [List.getElem?_map, h, Option.map_some] at hmap
  cases hs : (starts l)[bb]? with
  | none => rw [hs] at hmap; cases hmap
  | some s =>
    rw [hs] at hmap
    simpa using hmap

/-- What cutting keeps: the pieces are the whole list. -/
theorem cut_flatten (fl : List (InstOffsets × Bool)) :
    (cut fl).1 ++ (cut fl).2.flatten = fl.map (·.1) := by
  induction fl with
  | nil => rfl
  | cons p fl ih =>
    obtain ⟨i, start⟩ := p
    cases start <;> simp [cut, ih]

theorem flags_map_fst (ts : List Nat) (start : Bool) (l : List InstOffsets) :
    (flags ts start l).map (·.1) = l := by
  induction l generalizing start with
  | nil => rfl
  | cons i l ih => simp [flags, ih]

/-- The segments are the instructions. -/
theorem segs_flatten (l : List InstOffsets) : (segs l).flatten = l := by
  have h := cut_flatten (flags (targets l) true l)
  rw [flags_map_fst] at h
  have hfirst : (cut (flags (targets l) true l)).1 = [] := by
    cases l with
    | nil => rfl
    | cons i l => simp [flags, cut]
  rwa [hfirst, List.nil_append] at h

/-- Code that is not empty has a first block. -/
theorem starts_ne_nil {l : List InstOffsets} (h : l ≠ []) : starts l ≠ [] := by
  intro hnil
  have hsegs : segs l = [] := by
    rw [← List.length_eq_zero_iff, ← starts_length, hnil, List.length_nil]
  apply h
  rw [← segs_flatten l, hsegs, List.flatten_nil]

/-- No segment is empty. -/
theorem cut_ne_nil (fl : List (InstOffsets × Bool)) : ∀ seg ∈ (cut fl).2, seg ≠ [] := by
  induction fl with
  | nil => simp [cut]
  | cons p fl ih =>
    obtain ⟨i, start⟩ := p
    cases start
    · simpa [cut] using ih
    · intro seg hseg
      simp only [cut, if_true, List.mem_cons] at hseg
      rcases hseg with rfl | hseg
      · simp
      · exact ih seg hseg

theorem segs_ne_nil {l seg : List InstOffsets} (h : seg ∈ segs l) : seg ≠ [] := cut_ne_nil _ seg h

/-- Inside a segment only the last instruction can end a block. -/
theorem cut_endsBlock (ts : List Nat) (start : Bool) (l : List InstOffsets) :
    (start = true → (cut (flags ts start l)).1 = []) ∧
      (∀ i ∈ (cut (flags ts start l)).1.dropLast, i.inst.endsBlock = false) ∧
      ∀ seg ∈ (cut (flags ts start l)).2, ∀ i ∈ seg.dropLast, i.inst.endsBlock = false := by
  induction l generalizing start with
  | nil => simp [flags, cut]
  | cons i l ih =>
    obtain ⟨hfirst, hopen, hsegs⟩ := ih i.inst.endsBlock
    have hcons : ∀ j ∈ (i :: (cut (flags ts i.inst.endsBlock l)).1).dropLast,
        j.inst.endsBlock = false := by
      intro j hj
      cases hc : (cut (flags ts i.inst.endsBlock l)).1 with
      | nil => rw [hc] at hj; cases hj
      | cons k ks =>
        rw [hc] at hj hopen
        rw [List.dropLast_cons_of_ne_nil (by simp), List.mem_cons] at hj
        rcases hj with rfl | hj
        · -- If `j` ended a block, the instruction after it would start a segment.
          by_contra hends
          have hnil := hfirst (by simpa using hends)
          rw [hc] at hnil
          cases hnil
        · exact hopen j hj
    simp only [flags, cut]
    split
    · rename_i hflag
      refine ⟨fun _ => rfl, by simp, ?_⟩
      intro seg hseg
      rcases List.mem_cons.mp hseg with rfl | hseg
      · exact hcons
      · exact hsegs seg hseg
    · rename_i hflag
      refine ⟨fun hstart => absurd (by simp [hstart]) hflag, hcons, hsegs⟩

theorem segs_endsBlock {l seg : List InstOffsets} (h : seg ∈ segs l) {i : InstOffsets}
    (hi : i ∈ seg.dropLast) : i.inst.endsBlock = false :=
  (cut_endsBlock (targets l) true l).2.2 seg h i hi

/-- A branch target starts a block. -/
theorem mem_starts {l : List InstOffsets} {t : Nat} (ht : t ∈ targets l)
    (hmem : t ∈ l.map (·.before)) : t ∈ starts l := by
  have hoffsets : ∀ start (l : List InstOffsets),
      (offsetsOf start l).map (·.offset) = l.map (·.before) := by
    intro start l
    induction l generalizing start with
    | nil => rfl
    | cons i l ih => simp [offsetsOf, ih]
  rw [← hoffsets true] at hmem
  obtain ⟨o, ho, rfl⟩ := List.mem_map.mp hmem
  unfold starts leaders
  refine List.mem_map.mpr ⟨⟨o.offset, o.startBb || decide (o.offset ∈ targets l)⟩, ?_, rfl⟩
  rw [List.mem_filter]
  exact ⟨List.mem_map.mpr ⟨o, ho, rfl⟩, by simp [ht]⟩

/-! ## The code of a block -/

/-- A chain goes on where it was cut. -/
theorem Chain.append {code : List UInt8} {a b : List InstOffsets} {pos : Nat}
    (h : Chain code pos (a ++ b)) : ∃ mid, Chain code mid b ∧ pos ≤ mid := by
  induction a generalizing pos with
  | nil => exact ⟨pos, h, le_refl _⟩
  | cons i a ih =>
    obtain ⟨rfl, hnext, h⟩ := h
    obtain ⟨mid, hb, hle⟩ := ih h
    have hbounds := next_bounds hnext
    exact ⟨mid, hb, by omega⟩

/-- A chain starts at its first instruction. -/
theorem Chain.head {code : List UInt8} {i : InstOffsets} {l : List InstOffsets} {pos : Nat}
    (h : Chain code pos (i :: l)) : pos = i.before := h.1.symm

/-- Every instruction of a chain decodes at its offset. -/
theorem Chain.next {code : List UInt8} {l : List InstOffsets} {pos : Nat} (h : Chain code pos l)
    {i : InstOffsets} (hi : i ∈ l) :
    Bytecode.next code i.before = some (.ok (i.inst, i.after)) := by
  induction l generalizing pos with
  | nil => cases hi
  | cons j l ih =>
    obtain ⟨rfl, hnext, h⟩ := h
    rcases List.mem_cons.mp hi with rfl | hi
    · exact hnext
    · exact ih h hi

/-- A chain cut before one of its instructions is a chain of the code cut there. -/
theorem Chain.take {code : List UInt8} {a b : List InstOffsets} {j : InstOffsets} {pos : Nat}
    (h : Chain code pos (a ++ j :: b)) : Chain (code.take j.before) pos a := by
  induction a generalizing pos with
  | nil =>
    obtain ⟨rfl, hnext, -⟩ := h
    simp [Chain]
  | cons i a ih =>
    obtain ⟨rfl, hnext, h⟩ := h
    obtain ⟨mid, hmid, hle⟩ := h.append
    have hj := hmid.head
    exact ⟨rfl, next_take hnext (by omega), ih h⟩

/-- What the first two passes establish of a function's code. -/
structure Decoded (ctx : Context) (func : Func) (bytecode : List UInt8) (l : List InstOffsets) :
    Prop where
  /-- The function's span lies in the code table. -/
  slice : func.bytecode.slice ctx.code = some bytecode
  /-- The instructions cover the code. -/
  chain : Chain bytecode 0 l
  /-- Every instruction has passed the first pass. -/
  checked : ∀ i ∈ l, SyntaxOk ctx func i
  /-- A branch has a target. -/
  target : ∀ i ∈ l, i.inst.branchTarget.isSome → i.target.isSome
  /-- Branch targets are offsets of instructions. -/
  targets : ∀ t ∈ targets l, t ∈ l.map (·.before)
  /-- The last instruction may end the function. -/
  last : (lastInst .ret l).mayEnd = true
  /-- The upvars of the function are within their limit. -/
  upvars : upvarSum func.upvars ≤ upvarTotal

/-- The code of a function decodes in one way only. -/
theorem Decoded.unique {ctx : Context} {func : Func} {bytecode bytecode' : List UInt8}
    {l l' : List InstOffsets} (h : Decoded ctx func bytecode l)
    (h' : Decoded ctx func bytecode' l') : bytecode = bytecode' ∧ l = l' := by
  have hcode : bytecode = bytecode' := Option.some.inj (h.slice.symm.trans h'.slice)
  subst hcode
  exact ⟨rfl, h.chain.unique h'.chain⟩

/-- The instructions of a block as the data flow pass decodes them. -/
theorem blockInsts_eq {ctx : Context} {func : Func} {bytecode : List UInt8}
    {l : List InstOffsets} (h : Decoded ctx func bytecode l) {bb : Nat} {seg : List InstOffsets}
    (hseg : (segs l)[bb]? = some seg) :
    ∃ start, (starts l)[bb]? = some start ∧
      blockInsts bytecode (starts l) bb start = .ok (seg.map .ok) := by
  have hlt : bb < (segs l).length := (List.getElem?_eq_some_iff.mp hseg).1
  have hget : (segs l)[bb] = seg := (List.getElem?_eq_some_iff.mp hseg).2
  obtain ⟨x, a, rfl⟩ := List.exists_cons_of_ne_nil (segs_ne_nil (List.mem_of_getElem? hseg))
  have hsplit : (segs l).flatten =
      ((segs l).take bb).flatten ++ ((x :: a) ++ ((segs l).drop (bb + 1)).flatten) := by
    conv_lhs => rw [← List.take_append_drop bb (segs l), List.drop_eq_getElem_cons hlt, hget]
    rw [List.flatten_append, List.flatten_cons]
  have hchain := h.chain
  rw [← segs_flatten l, hsplit] at hchain
  obtain ⟨mid, hmid, -⟩ := hchain.append
  have hx : mid = x.before := hmid.head
  subst hx
  refine ⟨x.before, by rw [starts_getElem? l hseg]; rfl, ?_⟩
  unfold blockInsts
  cases hnext : (segs l)[bb + 1]? with
  | none =>
    have hnone : (starts l)[bb + 1]? = none := by
      rw [List.getElem?_eq_none_iff] at hnext ⊢
      simpa using hnext
    have hdrop : (segs l).drop (bb + 1) = [] := by
      rw [List.drop_eq_nil_iff]
      exact List.getElem?_eq_none_iff.mp hnext
    rw [hdrop, List.flatten_nil, List.append_nil] at hmid
    rw [hnone]
    exact congrArg Except.ok (insts_eq_map_ok.mpr hmid)
  | some seg' =>
    obtain ⟨y, b, rfl⟩ := List.exists_cons_of_ne_nil (segs_ne_nil (List.mem_of_getElem? hnext))
    have hlt' : bb + 1 < (segs l).length := (List.getElem?_eq_some_iff.mp hnext).1
    have hget' : (segs l)[bb + 1] = y :: b := (List.getElem?_eq_some_iff.mp hnext).2
    rw [List.drop_eq_getElem_cons hlt', hget', List.flatten_cons, List.cons_append] at hmid
    have hstart : (starts l)[bb + 1]? = some y.before := by rw [starts_getElem? l hnext]; rfl
    have hy : y.before < bytecode.length := by
      have hnext := next_bounds (hmid.next (i := y) (by simp))
      omega
    rw [hstart]
    simp only [if_pos hy.le]
    exact congrArg Except.ok (insts_eq_map_ok.mpr hmid.take)

/-- A branch target is the offset of a block. -/
theorem Decoded.branch_block {ctx : Context} {func : Func} {bytecode : List UInt8}
    {l : List InstOffsets} (h : Decoded ctx func bytecode l) {i : InstOffsets} (hi : i ∈ l)
    {t : Nat} (ht : i.target = some t) : ∃ sid, (starts l).idxOf? t = some sid := by
  have hmem : t ∈ Bytecode.targets l := List.mem_filterMap.mpr ⟨i, hi, ht⟩
  have hstart := mem_starts hmem (h.targets t hmem)
  cases hidx : (starts l).idxOf? t with
  | some sid => exact ⟨sid, rfl⟩
  | none => exact absurd hstart (List.idxOf?_eq_none_iff.mp hidx)

/-- The first pass, and the marking of targets that starts the second one. -/
theorem decoded_of_passes {ctx : Context} {func : Func} {info : SyntaxInfo}
    {bytecode : List UInt8} {offsets : List OffsetInfo} (hpass : syntaxPass ctx func = .ok info)
    (hslice : func.bytecode.slice ctx.code = some bytecode)
    (hmark : markTargets (insts bytecode 0) info.offsets = .ok offsets) :
    ∃ l, Decoded ctx func bytecode l ∧ leaders offsets = starts l ∧
      info.uses = l.flatMap (·.inst.uses) := by
  unfold syntaxPass at hpass
  simp only [fail_bind, ite_fail_eq_ok, hslice, unwrap, ok_bind, bind_eq_ok] at hpass
  obtain ⟨hupvars, info', hloop, hend⟩ := hpass
  obtain ⟨l, hitems, hl, rfl⟩ := syntaxLoop_eq_ok hloop
  split at hend
  · rename_i hlast
    cases hend
    rw [hitems] at hmark
    obtain ⟨rfl, htargets⟩ := markTargets_eq_ok hmark
    refine ⟨l, ⟨hslice, insts_eq_map_ok.mp hitems, fun i hi => (hl i hi).1,
      fun i hi => (hl i hi).2, ?_, hlast, by omega⟩, rfl, rfl⟩
    intro t ht
    have hmem := htargets t ht
    rw [← flags_map_fst (Bytecode.targets l) true l, List.map_map]
    have hoffsets := congrArg (List.map OffsetInfo.offset)
      (offsetsOf_map_flags (Bytecode.targets l) true l)
    simp only [List.map_map] at hoffsets
    rw [show ((fun x : InstOffsets => x.before) ∘ fun x : InstOffsets × Bool => x.1) =
      (OffsetInfo.offset ∘ fun p : InstOffsets × Bool => ⟨p.1.before, p.2⟩) from rfl, ← hoffsets]
    exact hmem
  · cases hend

end Dolang.Bytecode
