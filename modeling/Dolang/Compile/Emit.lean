import Dolang.Compile.Order

/-!
# Emission of a function

`FuncEmitter` of `dolang-compile/src/emit.rs`. A first pass encodes the instructions of each block
and guesses its terminator. Further passes encode the terminators again, until a pass moves no block.
Offsets are those of bytes in memory, so the additions of the source do not overflow.

A terminator can be encoded or not whatever the offsets are (`Term.Encodable`), and its length depends
on them only through one displacement (`Term.encode_length`).
-/

namespace Dolang.Compile

open Dolang.Rust Dolang.Bytecode

/-- `emit::Block`, without its spans. -/
structure OutBlock where
  offset : Nat
  bytecode : List UInt8
  termOffset : Nat
  deriving DecidableEq, Repr

/-- `FuncEmitter`. The map of the source is the position in the order. -/
structure FuncEmitter where
  graph : Graph
  order : List Nat
  blocks : List OutBlock
  deriving DecidableEq, Repr

/-- `FuncEmitter::new`, from the result of `topological_sort`. -/
def FuncEmitter.new (s : Sorting) : FuncEmitter :=
  ⟨s.graph, s.out, List.replicate s.out.length ⟨0, [], 0⟩⟩

/-- `visit_insts`. -/
def visitInsts (input : Block) (output : OutBlock) : OutBlock :=
  let bytecode := input.insts.flatMap Inst.write
  { output with bytecode, termOffset := bytecode.length }

/-- The displacement to a block, from behind the bytes that a block has so far. -/
def FuncEmitter.displacement (e : FuncEmitter) (output : OutBlock) (id : Nat) (initial : Bool) :
    Exec Empty Int := do
  let i ← unwrap (e.order.idxOf? id)
  let dest ← unwrap e.blocks[i]?
  -- The first pass guesses one byte.
  let src := output.offset + output.bytecode.length + if initial then 1 else 0
  return (dest.offset : Int) - src

/-- The instruction that `visit_term` writes, if any. -/
def FuncEmitter.termInst (e : FuncEmitter) (output : OutBlock) (term : Term) (next : Option Nat)
    (initial : Bool) : Exec Empty (Option Inst) :=
  match term with
  | .ret => .ok (some .ret)
  | .elseFallthrough kind => .ok (some (.elseFallthrough kind))
  | .branch id =>
    if some id ≠ next then do return some (.branch (← e.displacement output id initial))
    else .ok none
  | .cond tid fid =>
    if some tid = next then do return some (.branchFalse (← e.displacement output fid initial))
    else if some fid = next then do
      return some (.branchTrue (← e.displacement output tid initial))
    -- Neither successor is next in block order.
    else abort
  | .unpackIf sig tid fid =>
    -- The success block has to be next in block order.
    if some tid = next then do
      return some (.unpackBranch sig (← e.displacement output fid initial))
    else abort
  | .nlBranch depth indicator => .ok (some (.nlBranch depth indicator))

/-- `visit_term`. -/
def FuncEmitter.visitTerm (e : FuncEmitter) (output : OutBlock) (term : Term) (next : Option Nat)
    (initial : Bool) : Exec Empty OutBlock := do
  let inst ← e.termInst output term next initial
  let bytecode := output.bytecode.take output.termOffset ++ (inst.map Inst.write).getD []
  return { output with bytecode }

/-- Replaces a block. -/
def FuncEmitter.set (e : FuncEmitter) (i : Nat) (output : OutBlock) : FuncEmitter :=
  { e with blocks := e.blocks.set i output }

/-- The block of the graph at a position of the order, and the one behind it. -/
def FuncEmitter.source (e : FuncEmitter) (i : Nat) : Exec Empty (Block × Option Nat) := do
  let id ← unwrap e.order[i]?
  let block ← unwrap e.graph.blocks[id]?
  return (block, e.order[i + 1]?)

/-- The body of the first loop of `emit`. -/
def startBlock (st : FuncEmitter × Nat) (i : Nat) : Exec Empty (FuncEmitter × Nat) := do
  let (e, offset) := st
  let (source, next) ← e.source i
  let output ← unwrap e.blocks[i]?
  let output := visitInsts source { output with offset }
  let e := e.set i output
  let offset := offset + output.bytecode.length
  let output ← e.visitTerm output source.term next true
  return (e.set i output, offset)

/-- The first loop of `emit`. -/
def FuncEmitter.start (e : FuncEmitter) : Exec Empty FuncEmitter := do
  let (e, _) ← (List.range e.order.length).foldlM startBlock (e, 0)
  return e

/-- The body of the loop over the blocks in the loop of `emit`. -/
def relaxBlock (st : FuncEmitter × Nat × Bool) (i : Nat) : Exec Empty (FuncEmitter × Nat × Bool) := do
  let (e, offset, changing) := st
  let (source, next) ← e.source i
  let output ← unwrap e.blocks[i]?
  let changing := changing || output.offset != offset
  let output := { output with offset }
  let e := e.set i output
  let output ← e.visitTerm output source.term next false
  return (e.set i output, offset + output.bytecode.length, changing)

/-- One pass of the loop of `emit`, and whether it has moved a block. -/
def FuncEmitter.pass (e : FuncEmitter) : Exec Empty (FuncEmitter × Bool) := do
  let (e, _, changing) ← (List.range e.order.length).foldlM relaxBlock (e, 0, false)
  return (e, changing)

/-- The loop of `emit`, with a bound on the number of passes. -/
def FuncEmitter.relax : Nat → FuncEmitter → Exec Empty FuncEmitter
  | 0, _ => .error .fuel
  | fuel + 1, e => do
    let (e, changing) ← e.pass
    if changing then e.relax fuel else return e

/-- `FuncEmitter::new` and the part of `emit` before its loop. -/
def beginEmit (g : Graph) (enter : Nat) : Exec Empty FuncEmitter := do
  let s ← topologicalSort g enter
  (FuncEmitter.new s).start

/-- `FuncEmitter::new` and `emit`. -/
def emit (fuel : Nat) (g : Graph) (enter : Nat) : Exec Empty (List UInt8) := do
  let e ← beginEmit g enter
  let e ← e.relax fuel
  return e.blocks.flatMap (·.bytecode)

/-! ## Terminators -/

/-- The block that the terminator of a block branches to, where it is encoded as a branch. -/
def Term.jump (next : Option Nat) : Term → Option Nat
  | .branch id => if some id ≠ next then some id else none
  | .cond tid fid => if some tid = next then some fid else some tid
  | .unpackIf _ _ fid => some fid
  | _ => none

/-- The bytes of an encoded terminator besides its displacement. -/
def Term.fixedLen (next : Option Nat) : Term → Nat
  | .ret => 1
  | .elseFallthrough kind => 1 + encodedLen kind
  | .branch id => if some id ≠ next then 1 else 0
  | .cond _ _ => 1
  | .unpackIf sig _ _ => 1 + encodedLen sig
  | .nlBranch depth indicator => 1 + encodedLen depth + encodedLen indicator

/-- A terminator can be encoded: the block that it falls through to is next, and the other one is in
the order. -/
def Term.Encodable (order : List Nat) (next : Option Nat) : Term → Prop
  | .branch id => some id ≠ next → id ∈ order
  | .cond tid fid => (some tid = next ∧ fid ∈ order) ∨ (some tid ≠ next ∧ some fid = next ∧ tid ∈ order)
  | .unpackIf _ tid fid => some tid = next ∧ fid ∈ order
  | _ => True

/-- The encoded terminator, given its displacement. -/
def Term.encode (next : Option Nat) (d : Int) : Term → Option Inst
  | .ret => some .ret
  | .elseFallthrough kind => some (.elseFallthrough kind)
  | .branch id => if some id ≠ next then some (.branch d) else none
  | .cond tid _ => if some tid = next then some (.branchFalse d) else some (.branchTrue d)
  | .unpackIf sig _ _ => some (.unpackBranch sig d)
  | .nlBranch depth indicator => some (.nlBranch depth indicator)

theorem Term.encode_length (t : Term) (next : Option Nat) (d : Int) :
    (((t.encode next d).map Inst.write).getD []).length =
      t.fixedLen next + if (t.jump next).isSome then encodedLen (zag d) else 0 := by
  cases t with
  | branch id =>
    simp only [Term.encode, Term.fixedLen, Term.jump]
    split <;> simp [Inst.write, encodeIVar, Nat.add_comm]
  | cond tid fid =>
    simp only [Term.encode, Term.fixedLen, Term.jump]
    split <;> simp [Inst.write, encodeIVar, Nat.add_comm]
  | _ =>
    simp only [Term.encode, Term.fixedLen, Term.jump, Option.map_some, Option.getD_some, Inst.write,
      List.length_append, List.length_cons, List.length_nil, encodeUVar_length, encodeIVar,
      Option.isSome_some, Option.isSome_none, if_true, if_false, Bool.false_eq_true, Nat.zero_add,
      Nat.add_zero]

section

variable {e : FuncEmitter} {next : Option Nat} {output : OutBlock} {initial : Bool}

/-- The displacement to a block of the order. -/
theorem displacement_of_mem {id : Nat} (hid : id ∈ e.order)
    (hlen : e.blocks.length = e.order.length) (output : OutBlock) (initial : Bool) :
    ∃ j dest, e.order.idxOf? id = some j ∧ e.blocks[j]? = some dest ∧
      e.displacement output id initial =
        .ok (dest.offset - (output.offset + output.bytecode.length + if initial then 1 else 0 : Nat)) := by
  obtain ⟨j, hj⟩ : ∃ j, e.order.idxOf? id = some j := by
    cases h : e.order.idxOf? id with
    | none => exact absurd hid (List.idxOf?_eq_none_iff.mp h)
    | some j => exact ⟨j, rfl⟩
  have hlt : j < e.order.length := by
    rw [List.idxOf?_eq_some_iff] at hj
    exact hj.1
  have hdest : e.blocks[j]? = some e.blocks[j] := List.getElem?_eq_getElem (hlen ▸ hlt)
  refine ⟨j, _, hj, hdest, ?_⟩
  simp [FuncEmitter.displacement, hj, hdest, unwrap, pure, Except.pure]

/-- A terminator that can be encoded is, with the displacement to the block that it branches to. -/
theorem termInst_of_encodable {t : Term} (ht : t.Encodable e.order next)
    (hlen : e.blocks.length = e.order.length) (output : OutBlock) (initial : Bool) :
    ∃ d, e.termInst output t next initial = .ok (t.encode next d) ∧
      ∀ id, t.jump next = some id → ∃ j dest, e.order.idxOf? id = some j ∧
        e.blocks[j]? = some dest ∧
        d = dest.offset - (output.offset + output.bytecode.length + if initial then 1 else 0 : Nat) := by
  -- Every kind of branch encodes one displacement.
  have hbranch : ∀ {id : Nat}, id ∈ e.order → t.jump next = some id →
      (∀ d, e.displacement output id initial = .ok d →
        e.termInst output t next initial = .ok (t.encode next d)) →
      ∃ d, e.termInst output t next initial = .ok (t.encode next d) ∧
        ∀ id, t.jump next = some id → ∃ j dest, e.order.idxOf? id = some j ∧
          e.blocks[j]? = some dest ∧
          d = dest.offset - (output.offset + output.bytecode.length + if initial then 1 else 0 : Nat) := by
    intro id hid hjump hinst
    obtain ⟨j, dest, hj, hdest, hd⟩ := displacement_of_mem hid hlen output initial
    refine ⟨_, hinst _ hd, fun id' hid' => ⟨j, dest, ?_, hdest, rfl⟩⟩
    rw [hjump] at hid'
    cases hid'
    exact hj
  cases t with
  | branch id =>
    by_cases hnext : some id ≠ next
    · refine hbranch (ht hnext) (by simp [Term.jump, hnext]) fun d hd => ?_
      simp [FuncEmitter.termInst, Term.encode, hnext, hd, pure, Except.pure]
    · refine ⟨0, ?_, fun id' hid' => ?_⟩
      · simp only [FuncEmitter.termInst, Term.encode, if_neg hnext]
      · simp only [Term.jump, if_neg hnext] at hid'
        cases hid'
  | cond tid fid =>
    rcases ht with ⟨hnext, hmem⟩ | ⟨hne, hnext, hmem⟩
    · refine hbranch hmem (by simp [Term.jump, hnext]) fun d hd => ?_
      simp [FuncEmitter.termInst, Term.encode, hnext, hd, pure, Except.pure]
    · refine hbranch hmem (by simp [Term.jump, hne]) fun d hd => ?_
      simp only [FuncEmitter.termInst, Term.encode, if_neg hne, if_pos hnext, hd, ok_bind]
      rfl
  | unpackIf sig tid fid =>
    refine hbranch ht.2 rfl fun d hd => ?_
    simp [FuncEmitter.termInst, Term.encode, ht.1, hd, pure, Except.pure]
  | ret | nlBranch | elseFallthrough => exact ⟨0, rfl, fun _ h => by cases h⟩

/-- A terminator that was encoded can be. -/
theorem encodable_of_termInst {t : Term} {inst : Option Inst}
    (h : e.termInst output t next initial = .ok inst) : t.Encodable e.order next := by
  -- A displacement is only to a block of the order.
  have hmem : ∀ {id : Nat} {d : Int}, e.displacement output id initial = .ok d → id ∈ e.order := by
    intro id d hd
    obtain ⟨j, hj, -⟩ := bind_ok hd
    by_contra hnot
    rw [List.idxOf?_eq_none_iff.mpr hnot] at hj
    cases hj
  cases t with
  | branch id =>
    intro hnext
    simp only [FuncEmitter.termInst, if_pos hnext] at h
    obtain ⟨d, hd, -⟩ := bind_ok h
    exact hmem hd
  | cond tid fid =>
    simp only [FuncEmitter.termInst] at h
    split at h
    · rename_i hnext
      obtain ⟨d, hd, -⟩ := bind_ok h
      exact .inl ⟨hnext, hmem hd⟩
    · rename_i hne
      split at h
      · rename_i hnext
        obtain ⟨d, hd, -⟩ := bind_ok h
        exact .inr ⟨hne, hnext, hmem hd⟩
      · cases h
  | unpackIf sig tid fid =>
    simp only [FuncEmitter.termInst] at h
    split at h
    · rename_i hnext
      obtain ⟨d, hd, -⟩ := bind_ok h
      exact ⟨hnext, hmem hd⟩
    · cases h
  | ret | nlBranch | elseFallthrough => trivial

end

end Dolang.Compile
