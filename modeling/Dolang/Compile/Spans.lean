import Dolang.Bytecode.SourceMap
import Dolang.Compile.Layout

/-!
# The source spans of emitted instructions

The part of `dolang-compile/src/emit.rs` that follows where instructions come from. `visit_insts`
records an entry for each instruction, `visit_term` one for the terminator on the first pass, and
`debug_table` turns the entries that have a span into the source map. The bytes are those of
`Dolang.Compile.Emit`.

`visit_term` also takes an entry off when the terminator is not encoded, on every pass. On the first
one this is the entry it has just recorded. On each pass after that it is the last one of the block's
instructions that is left (`SpanEmitter.relax_entries`).
-/

namespace Dolang.Bytecode

/-- `Inst::raises`: whether a backtrace can stop at the instruction. -/
def Inst.raises : Inst → Bool
  | .add | .sub | .mul | .div | .ediv | .mod | .neg | .not | .bitNot | .bitAnd | .bitOr | .bitXor
  | .shl | .shr | .eq | .ne | .gt | .lt | .gte | .lte => true
  | .call _ | .methodCall _ _ | .builtin _ _ => true
  | .get _ | .set _ | .index | .assign => true
  | .next | .unpack _ | .unpackBranch _ _ => true
  -- Truthiness dispatches.
  | .branchTrue _ | .branchFalse _ => true
  -- A backward branch checks for interrupts.
  | .branch offset => offset < 0
  | .nlGuard _ | .nlBranch _ _ | .elseFallthrough _ => true
  | .dup | .pick _ | .swap _ _ | .pop => false
  | .loadConst _ | .loadLocal _ | .loadUpvar _ _ | .storeLocal _ | .storeUpvar _ _ => false
  | .pushUpvars _ | .popUpvars | .close _ | .reify _ | .ret => false

end Dolang.Bytecode

namespace Dolang.Compile

open Dolang.Rust Dolang.Bytecode

/-- `source::Span`: a range of bytes of the source. -/
structure SrcSpan where
  start : Nat
  stop : Nat
  deriving DecidableEq, Repr

/-- `source::Span::INVALID`. -/
def SrcSpan.invalid : SrcSpan := ⟨2^32 - 1, 0⟩

/-- `source::File`, as far as it locates spans. What it returns has been made by `Span::new`. -/
structure SourceFile where
  locate : SrcSpan → SourcePos
  valid : ∀ span, (locate span).Valid

/-- The spans of a block: those of its instructions, and that of its terminator. -/
structure BlockSpans where
  insts : List SrcSpan
  term : SrcSpan
  deriving DecidableEq, Repr

/-- There are spans for each block, one for each instruction. -/
structure Parallel (blocks : List Block) (spans : List BlockSpans) : Prop where
  length : spans.length = blocks.length
  insts : ∀ (x : Nat) (b : Block) (given : BlockSpans), blocks[x]? = some b →
    spans[x]? = some given → given.insts.length = b.insts.length

/-- A graph with the spans of its instructions and terminators. -/
structure SpanGraph where
  graph : Graph
  spans : List BlockSpans
  parallel : Parallel graph.blocks spans

/-! ## The order of the blocks -/

/-- The state of `topological_sort_rec`, with the spans of the blocks of its graph. -/
structure SpanSorting where
  sorting : Sorting
  spans : List BlockSpans
  deriving DecidableEq, Repr

/-- `visit`, with spans. -/
def visitSpans (go : Nat → SpanSorting → Exec Empty SpanSorting) (id : Nat) (s : SpanSorting) :
    Exec Empty SpanSorting :=
  if id ∈ s.sorting.seen then .ok s else go id { s with sorting := s.sorting.place id }

/-- `Sorting.trampoline`, with spans. The terminator of the new block has the span of the one that
it is split off from. -/
def SpanSorting.trampoline (s : SpanSorting) (id : Nat) (block : Block) (tid fid : Nat) :
    Exec Empty SpanSorting := do
  let given ← unwrap s.spans[id]?
  let sorting ← s.sorting.trampoline id block tid fid
  return ⟨sorting, s.spans ++ [⟨[], given.term⟩]⟩

/-- `topological_sort_rec`, with spans. -/
def topologicalSortSpansRec : Nat → Nat → SpanSorting → Exec Empty SpanSorting
  | 0, _, _ => .error .fuel
  | fuel + 1, id, s => do
    let block ← unwrap s.sorting.graph.blocks[id]?
    match block.term with
    | .ret | .nlBranch .. | .elseFallthrough _ => .ok s
    | .branch bid => visitSpans (topologicalSortSpansRec fuel) bid s
    | .cond tid fid =>
      if tid ∈ s.sorting.seen ∧ fid ∈ s.sorting.seen then s.trampoline id block tid fid
      else do
        let s ← visitSpans (topologicalSortSpansRec fuel) tid s
        visitSpans (topologicalSortSpansRec fuel) fid s
    | .unpackIf _ tid fid => do
      let s ← visitSpans (topologicalSortSpansRec fuel) tid s
      visitSpans (topologicalSortSpansRec fuel) fid s

/-- `topological_sort`, with spans. -/
def topologicalSortSpans (g : SpanGraph) (enter : Nat) : Exec Empty SpanSorting :=
  topologicalSortSpansRec (g.graph.blocks.length + 1) enter ⟨⟨g.graph, [enter], [enter]⟩, g.spans⟩

/-! ## Recording spans -/

/-- `SpanEntry`: where an instruction is in its block, and its span. -/
structure SpanEntry where
  offset : Nat
  span : SrcSpan
  deriving DecidableEq, Repr

/-- What `visit_insts` records. -/
def instEntries : Nat → List Inst → List SrcSpan → List SpanEntry
  | offset, inst :: insts, span :: spans =>
    ⟨offset, if inst.raises then span else .invalid⟩ ::
      instEntries (offset + inst.write.length) insts spans
  | _, _, _ => []

/-- What `visit_term` does to the entries of a block, given the instruction that it writes. -/
def termEntries (entries : List SpanEntry) (termOffset : Nat) (span : SrcSpan) (inst : Option Inst)
    (initial : Bool) : List SpanEntry :=
  let entries := if initial then entries ++ [⟨termOffset, span⟩] else entries
  match inst with
  | none => entries.dropLast
  | some inst =>
    if initial ∧ !inst.raises then entries.modifyLast fun entry => { entry with span := .invalid }
    else entries

/-- `FuncEmitter`, with the spans of the graph and the entries of the emitted blocks. -/
structure SpanEmitter where
  emitter : FuncEmitter
  given : List BlockSpans
  entries : List (List SpanEntry)
  deriving DecidableEq, Repr

/-- `FuncEmitter::new`, from the result of `topological_sort`. -/
def SpanEmitter.new (s : SpanSorting) : SpanEmitter :=
  ⟨FuncEmitter.new s.sorting, s.spans, List.replicate s.sorting.out.length []⟩

/-- The spans of the block at a position of the order. -/
def SpanEmitter.givenAt (s : SpanEmitter) (i : Nat) : Option BlockSpans :=
  s.emitter.order[i]?.bind fun id => s.given[id]?

/-- Replaces a block and its entries. -/
def SpanEmitter.set (s : SpanEmitter) (i : Nat) (output : OutBlock) (entries : List SpanEntry) :
    SpanEmitter :=
  { s with emitter := s.emitter.set i output, entries := s.entries.set i entries }

/-- `visit_term`. -/
def SpanEmitter.visitTerm (s : SpanEmitter) (output : OutBlock) (entries : List SpanEntry)
    (term : Term) (span : SrcSpan) (next : Option Nat) (initial : Bool) :
    Exec Empty (OutBlock × List SpanEntry) := do
  let inst ← s.emitter.termInst output term next initial
  let bytecode := output.bytecode.take output.termOffset ++ (inst.map Inst.write).getD []
  return ({ output with bytecode }, termEntries entries output.termOffset span inst initial)

/-- The body of the first loop of `emit`. -/
def SpanEmitter.startBlock (st : SpanEmitter × Nat) (i : Nat) : Exec Empty (SpanEmitter × Nat) := do
  let (s, offset) := st
  let (source, next) ← s.emitter.source i
  let given ← unwrap (s.givenAt i)
  let output ← unwrap s.emitter.blocks[i]?
  let entries ← unwrap s.entries[i]?
  let output := visitInsts source { output with offset }
  let entries := entries ++ instEntries 0 source.insts given.insts
  let s := s.set i output entries
  let offset := offset + output.bytecode.length
  let (output, entries) ← s.visitTerm output entries source.term given.term next true
  return (s.set i output entries, offset)

/-- The first loop of `emit`. -/
def SpanEmitter.start (s : SpanEmitter) : Exec Empty SpanEmitter := do
  let (s, _) ← (List.range s.emitter.order.length).foldlM startBlock (s, 0)
  return s

/-- The body of the loop over the blocks in the loop of `emit`. -/
def SpanEmitter.relaxBlock (st : SpanEmitter × Nat × Bool) (i : Nat) :
    Exec Empty (SpanEmitter × Nat × Bool) := do
  let (s, offset, changing) := st
  let (source, next) ← s.emitter.source i
  let given ← unwrap (s.givenAt i)
  let output ← unwrap s.emitter.blocks[i]?
  let entries ← unwrap s.entries[i]?
  let changing := changing || output.offset != offset
  let output := { output with offset }
  let s := s.set i output entries
  let (output, entries) ← s.visitTerm output entries source.term given.term next false
  return (s.set i output entries, offset + output.bytecode.length, changing)

/-- One pass of the loop of `emit`, and whether it has moved a block. -/
def SpanEmitter.pass (s : SpanEmitter) : Exec Empty (SpanEmitter × Bool) := do
  let (s, _, changing) ←
    (List.range s.emitter.order.length).foldlM relaxBlock (s, 0, false)
  return (s, changing)

/-- The loop of `emit`, with a bound on the number of passes. -/
def SpanEmitter.relax : Nat → SpanEmitter → Exec Empty SpanEmitter
  | 0, _ => .error .fuel
  | fuel + 1, s => do
    let (s, changing) ← s.pass
    if changing then s.relax fuel else return s

/-- `FuncEmitter::new` and the part of `emit` before its loop. -/
def beginSpans (g : SpanGraph) (enter : Nat) : Exec Empty SpanEmitter := do
  let s ← topologicalSortSpans g enter
  (SpanEmitter.new s).start

/-- The locations that `debug_table` collects. -/
def SpanEmitter.locations (s : SpanEmitter) (file : SourceFile) : List (Nat × SourcePos) :=
  (s.emitter.blocks.zip s.entries).flatMap fun (block, entries) =>
    (entries.filter (·.span ≠ .invalid)).map fun entry =>
      (entry.offset + block.offset, file.locate entry.span)

/-- Where a function is defined. -/
def definitionPos (file : SourceFile) (span : SrcSpan) : SourcePos :=
  if span = .invalid then SourcePos.new 0 0 0 else file.locate span

/-- `debug_table`: the definition and the source map. -/
def SpanEmitter.debugTable (s : SpanEmitter) (file : SourceFile) (span : SrcSpan) :
    Exec Empty (SourcePos × List SourceSpan) := do
  let definition := definitionPos file span
  let sourcemap ← encodeSourcemap (s.locations file)
  let sourcemap ← if sourcemap = [] then encodeSourcemap [(0, definition)] else pure sourcemap
  return (definition, sourcemap)

/-! ## The bytes are those of the emitter -/

/-- A trampoline has no instructions, and so no spans of any. -/
theorem Parallel.trampoline {s s' : SpanSorting} {id tid fid : Nat} {block : Block}
    (h : Parallel s.sorting.graph.blocks s.spans)
    (hblock : s.sorting.graph.blocks[id]? = some block)
    (hs : s.trampoline id block tid fid = .ok s') :
    s.sorting.trampoline id block tid fid = .ok s'.sorting ∧
      Parallel s'.sorting.graph.blocks s'.spans := by
  obtain ⟨given, hgiven, hs⟩ := bind_ok hs
  obtain ⟨sorting, hsorting, hs⟩ := bind_ok hs
  cases hs
  refine ⟨hsorting, ?_⟩
  obtain ⟨⟨graph, trampoline⟩, halloc, hsorting⟩ := bind_ok hsorting
  obtain ⟨scope, -, halloc⟩ := bind_ok halloc
  cases halloc
  cases hsorting
  have hlt := (List.getElem?_eq_some_iff.mp hblock).1
  constructor
  · simp [Sorting.place, h.length]
  · intro x b given' hb hgiven'
    simp only [Sorting.place, List.getElem?_set, List.length_set, List.length_append,
      List.length_singleton] at hb
    by_cases hx : x < s.spans.length
    · rw [List.getElem?_append_left hx] at hgiven'
      have hne : s.sorting.graph.blocks.length ≠ x := by
        have := h.length
        omega
      by_cases hid : id = x
      · subst hid
        rw [if_pos rfl, if_pos (by omega)] at hb
        cases hb
        exact h.insts id block given' hblock hgiven'
      · rw [if_neg hid, if_neg hne, List.getElem?_append_left (h.length ▸ hx)] at hb
        exact h.insts x b given' hb hgiven'
    · rw [List.getElem?_append_right (Nat.not_lt.mp hx), List.getElem?_singleton] at hgiven'
      split at hgiven'
      · rename_i heq
        cases hgiven'
        have hlength := h.length
        rw [if_neg (by omega), if_pos (by omega), if_pos (by omega)] at hb
        cases hb
        rfl
      · cases hgiven'

theorem topologicalSortSpansRec_ok {fuel : Nat} : ∀ {id : Nat} {s s' : SpanSorting},
    topologicalSortSpansRec fuel id s = .ok s' → Parallel s.sorting.graph.blocks s.spans →
      topologicalSortRec fuel id s.sorting = .ok s'.sorting ∧
        Parallel s'.sorting.graph.blocks s'.spans := by
  induction fuel with
  | zero =>
    intro id s s' h _
    cases h
  | succ fuel ih =>
    intro id s s' h hs
    -- A successor is visited unless it has been placed.
    have hvisit : ∀ {id : Nat} {s s' : SpanSorting},
        visitSpans (topologicalSortSpansRec fuel) id s = .ok s' →
        Parallel s.sorting.graph.blocks s.spans →
        visit (topologicalSortRec fuel) id s.sorting = .ok s'.sorting ∧
          Parallel s'.sorting.graph.blocks s'.spans := by
      intro id s s' h hs
      unfold visitSpans at h
      unfold visit
      split at h
      · rename_i hseen
        cases h
        exact ⟨if_pos hseen, hs⟩
      · rename_i hseen
        rw [if_neg hseen]
        exact ih h hs
    have htwo : ∀ {t f : Nat}, (do
          let s ← visitSpans (topologicalSortSpansRec fuel) t s
          visitSpans (topologicalSortSpansRec fuel) f s) = .ok s' →
        (do
          let s ← visit (topologicalSortRec fuel) t s.sorting
          visit (topologicalSortRec fuel) f s) = .ok s'.sorting ∧
          Parallel s'.sorting.graph.blocks s'.spans := by
      intro t f h
      obtain ⟨s₁, h₁, h₂⟩ := bind_ok h
      obtain ⟨h₁, hs₁⟩ := hvisit h₁ hs
      rw [h₁, ok_bind]
      exact hvisit h₂ hs₁
    rw [topologicalSortSpansRec] at h
    rw [topologicalSortRec]
    obtain ⟨block, hblock, h⟩ := bind_ok h
    rw [hblock, ok_bind]
    cases hterm : block.term with
    | ret | nlBranch | elseFallthrough =>
      simp only [hterm] at h ⊢
      cases h
      exact ⟨rfl, hs⟩
    | branch bid =>
      simp only [hterm] at h ⊢
      exact hvisit h hs
    | cond tid fid =>
      simp only [hterm] at h ⊢
      split at h
      · rename_i hseen
        rw [if_pos hseen]
        exact hs.trampoline (unwrap_eq_ok.mp hblock) h
      · rename_i hseen
        rw [if_neg hseen]
        exact htwo h
    | unpackIf sig tid fid =>
      simp only [hterm] at h ⊢
      exact htwo h

/-- The order is that of `topologicalSort`, and the spans are still those of the blocks. -/
theorem topologicalSortSpans_ok {g : SpanGraph} {enter : Nat} {s : SpanSorting}
    (h : topologicalSortSpans g enter = .ok s) :
    topologicalSort g.graph enter = .ok s.sorting ∧ Parallel s.sorting.graph.blocks s.spans :=
  topologicalSortSpansRec_ok h g.parallel

/-- What `visit_term` does. -/
theorem SpanEmitter.visitTerm_eq_ok {s : SpanEmitter} {output output' : OutBlock}
    {entries entries' : List SpanEntry} {term : Term} {span : SrcSpan} {next : Option Nat}
    {initial : Bool} :
    s.visitTerm output entries term span next initial = .ok (output', entries') ↔
      ∃ inst, s.emitter.termInst output term next initial = .ok inst ∧
        s.emitter.visitTerm output term next initial = .ok output' ∧
        entries' = termEntries entries output.termOffset span inst initial := by
  unfold SpanEmitter.visitTerm FuncEmitter.visitTerm
  simp only [bind_eq_ok, pure, Except.pure, Except.ok.injEq, Prod.mk.injEq]
  constructor
  · rintro ⟨inst, hinst, hout, hentries⟩
    exact ⟨inst, hinst, ⟨inst, hinst, hout⟩, hentries.symm⟩
  · rintro ⟨inst, hinst, ⟨inst', hinst', hout⟩, hentries⟩
    rw [hinst] at hinst'
    cases hinst'
    exact ⟨inst, hinst, hout, hentries.symm⟩

/-- A step of the first loop of `emit`, with spans. -/
theorem SpanEmitter.startBlock_ok {s s' : SpanEmitter} {offset offset' i : Nat}
    (h : startBlock (s, offset) i = .ok (s', offset')) :
    Compile.startBlock (s.emitter, offset) i = .ok (s'.emitter, offset') ∧ s'.given = s.given ∧
      ∃ b next given output entries inst, s.emitter.source i = .ok (b, next) ∧
        s.givenAt i = some given ∧ s.emitter.blocks[i]? = some output ∧
        s.entries[i]? = some entries ∧
        (s.emitter.set i (visitInsts b { output with offset })).termInst
          (visitInsts b { output with offset }) b.term next true = .ok inst ∧
        s'.entries = s.entries.set i
          (termEntries (entries ++ instEntries 0 b.insts given.insts) b.code.length given.term inst
            true) := by
  obtain ⟨⟨b, next⟩, hsource, h⟩ := bind_ok h
  obtain ⟨given, hgiven, h⟩ := bind_ok h
  obtain ⟨output, houtput, h⟩ := bind_ok h
  obtain ⟨entries, hentries, h⟩ := bind_ok h
  obtain ⟨⟨output', entries'⟩, hterm, h⟩ := bind_ok h
  cases h
  obtain ⟨inst, hinst, hout, rfl⟩ := visitTerm_eq_ok.mp hterm
  refine ⟨?_, rfl, b, next, given, output, entries, inst, hsource, unwrap_eq_ok.mp hgiven,
    unwrap_eq_ok.mp houtput, unwrap_eq_ok.mp hentries, hinst, ?_⟩
  · simp only [Compile.startBlock, hsource, ok_bind, houtput]
    rw [show (s.emitter.set i (visitInsts b { output with offset })).visitTerm
      (visitInsts b { output with offset }) b.term next true = .ok output' from hout]
    rfl
  · simp [SpanEmitter.set, visitInsts, Block.code]

/-- A step of a pass, with spans. -/
theorem SpanEmitter.relaxBlock_ok {s s' : SpanEmitter} {offset offset' i : Nat}
    {changing changing' : Bool}
    (h : relaxBlock (s, offset, changing) i = .ok (s', offset', changing')) :
    Compile.relaxBlock (s.emitter, offset, changing) i = .ok (s'.emitter, offset', changing') ∧
      s'.given = s.given ∧
      ∃ b next given output entries inst, s.emitter.source i = .ok (b, next) ∧
        s.givenAt i = some given ∧ s.emitter.blocks[i]? = some output ∧
        s.entries[i]? = some entries ∧
        (s.emitter.set i { output with offset }).termInst { output with offset } b.term next
          false = .ok inst ∧
        s'.entries = s.entries.set i
          (termEntries entries output.termOffset given.term inst false) := by
  obtain ⟨⟨b, next⟩, hsource, h⟩ := bind_ok h
  obtain ⟨given, hgiven, h⟩ := bind_ok h
  obtain ⟨output, houtput, h⟩ := bind_ok h
  obtain ⟨entries, hentries, h⟩ := bind_ok h
  obtain ⟨⟨output', entries'⟩, hterm, h⟩ := bind_ok h
  cases h
  obtain ⟨inst, hinst, hout, rfl⟩ := visitTerm_eq_ok.mp hterm
  refine ⟨?_, rfl, b, next, given, output, entries, inst, hsource, unwrap_eq_ok.mp hgiven,
    unwrap_eq_ok.mp houtput, unwrap_eq_ok.mp hentries, hinst, ?_⟩
  · simp only [Compile.relaxBlock, hsource, ok_bind, houtput]
    rw [show (s.emitter.set i { output with offset }).visitTerm
      { output with offset } b.term next false = .ok output' from hout]
    rfl
  · simp [SpanEmitter.set]

end Dolang.Compile
