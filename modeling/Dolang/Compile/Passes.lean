import Dolang.Compile.Emit
import Dolang.Lib.Relax

/-!
# The passes of emission

What the first pass of `emit` leaves (`FuncEmitter.start_spec`) and what a further pass does
(`FuncEmitter.pass_spec`). A further pass is one of `Dolang.Relax` (`Sound.pass`), so the passes from
an emitter are a run of layouts (`Sound.run`).
-/

namespace Dolang.Compile

open Dolang.Rust Dolang.Bytecode

/-! ## One pass -/

/-- The bytes of a block's instructions. -/
def Block.code (b : Block) : List UInt8 := b.insts.flatMap Inst.write

/-- The block at each position of the order is there and its terminator can be encoded. -/
structure Shape (g : Graph) (order : List Nat) (i : Nat) (b : Block) : Prop where
  source : ∃ id, order[i]? = some id ∧ g.blocks[id]? = some b
  term : b.term.Encodable order order[i + 1]?

/-- The emitter has encoded the instructions of each block. -/
structure Ready (e : FuncEmitter) : Prop where
  length : e.blocks.length = e.order.length
  blocks : ∀ (i : Nat) (o : OutBlock), e.blocks[i]? = some o →
    ∃ b, Shape e.graph e.order i b ∧ o.termOffset = b.code.length ∧
      o.bytecode.take o.termOffset = b.code

/-- The block at a position of the order. -/
def blockAt (g : Graph) (order : List Nat) (i : Nat) : Option Block :=
  order[i]?.bind fun id => g.blocks[id]?

theorem Shape.blockAt {g : Graph} {order : List Nat} {i : Nat} {b : Block}
    (h : Shape g order i b) : blockAt g order i = some b := by
  obtain ⟨id, hid, hb⟩ := h.source
  simp [Compile.blockAt, hid, hb]

/-- What is laid out: the bytes of each block but for displacements, and where it branches. -/
def program (g : Graph) (order : List Nat) : Relax.Program where
  size := order.length
  base i := ((blockAt g order i).map fun b =>
    b.code.length + b.term.fixedLen order[i + 1]?).getD 0
  target i := (blockAt g order i).bind fun b =>
    (b.term.jump order[i + 1]?).bind fun id => order.idxOf? id
  len d := encodedLen (zag d)
  bound := 9
  len_le d := (encodedLen_bounds _).2
  len_mono := by
    intro d d' hle hneg
    apply encodedLen_mono
    rcases Int.lt_or_eq_of_le hneg with hlt | rfl
    · exact zag_le_zag (.inr ⟨hle, hlt⟩)
    · exact Nat.zero_le _

/-- The bytes in all blocks. -/
def FuncEmitter.total (e : FuncEmitter) : Nat := (e.blocks.map (·.bytecode.length)).sum

/-- The layout of an emitter. The end of the code is where another block would start. -/
def FuncEmitter.layout (e : FuncEmitter) : Relax.Layout where
  start i := (e.blocks[i]?.map (·.offset)).getD e.total
  width i := (e.blocks[i]?.map (·.bytecode.length)).getD 0 - (program e.graph e.order).base i

/-- How a block is after a pass from `e` to `e'`: behind the blocks before it, with its terminator
encoded from the places of its own pass where it branches backwards, and of the pass before where it
branches forwards. -/
structure Rewritten (e e' : FuncEmitter) (i : Nat) (b : Block) (o o' : OutBlock) (d : Int) : Prop where
  shape : Shape e.graph e.order i b
  before : e.blocks[i]? = some o
  after : e'.blocks[i]? = some o'
  termOffset : o'.termOffset = b.code.length
  bytecode : o'.bytecode = b.code ++ ((b.term.encode e.order[i + 1]? d).map Inst.write).getD []
  offset : o'.offset = ((e'.blocks.take i).map (·.bytecode.length)).sum
  jump : ∀ id, b.term.jump e.order[i + 1]? = some id → ∃ j dest, e.order.idxOf? id = some j ∧
    (if j ≤ i then e'.blocks[j]? else e.blocks[j]?) = some dest ∧
    d = dest.offset - (o'.offset + o.bytecode.length : Nat)

/-- What a pass leaves of the blocks before a position stays when a later block is replaced. -/
theorem Rewritten.set {e e' : FuncEmitter} {i k : Nat} {b : Block} {o o' : OutBlock} {d : Int}
    (h : Rewritten e e' i b o o' d) (hk : i < k) (new : OutBlock) :
    Rewritten e (e'.set k new) i b o o' d := by
  have hget : ∀ j ≤ i, (e'.set k new).blocks[j]? = e'.blocks[j]? := by
    intro j hj
    exact List.getElem?_set_ne (by omega)
  refine { h with after := (hget i (Nat.le_refl i)).trans h.after, offset := ?_, jump := ?_ }
  · rw [h.offset]
    simp [FuncEmitter.set, List.take_set_of_le (Nat.le_of_lt hk)]
  · intro id hid
    obtain ⟨j, dest, hj, hdest, hd⟩ := h.jump id hid
    refine ⟨j, dest, hj, ?_, hd⟩
    split
    · rename_i hle
      rw [if_pos hle] at hdest
      rw [hget j hle]
      exact hdest
    · rename_i hle
      rw [if_neg hle] at hdest
      exact hdest

/-- What holds in a pass before the block at a position. -/
structure InPass (e : FuncEmitter) (i : Nat) (st : FuncEmitter × Nat × Bool) : Prop where
  graph : st.1.graph = e.graph
  order : st.1.order = e.order
  length : st.1.blocks.length = e.blocks.length
  rest : ∀ j ≥ i, st.1.blocks[j]? = e.blocks[j]?
  done : ∀ j < i, ∃ b o o' d, Rewritten e st.1 j b o o' d
  offset : st.2.1 = ((st.1.blocks.take i).map (·.bytecode.length)).sum
  changing : st.2.2 = true ↔ ∃ j < i, ∃ (o o' : OutBlock), e.blocks[j]? = some o ∧
    st.1.blocks[j]? = some o' ∧ o.offset ≠ o'.offset

/-- The step of a pass. -/
theorem InPass.step {e : FuncEmitter} (he : Ready e) {i : Nat} (hi : i < e.order.length)
    {st : FuncEmitter × Nat × Bool} (h : InPass e i st) :
    ∃ st', relaxBlock st i = .ok st' ∧ InPass e (i + 1) st' := by
  obtain ⟨e₁, offset, changing⟩ := st
  obtain ⟨hgraph, horder, hlength, hrest, hdone, hoffset, hchanging⟩ := h
  simp only at hgraph horder hlength hrest hdone hoffset hchanging
  have hi' : i < e.blocks.length := he.length ▸ hi
  obtain ⟨o, ho⟩ : ∃ o, e.blocks[i]? = some o := ⟨_, List.getElem?_eq_getElem hi'⟩
  obtain ⟨b, hshape, hoff, htake⟩ := he.blocks i o ho
  obtain ⟨id, hid, hb⟩ := hshape.source
  have ho₁ := (hrest i (Nat.le_refl i)).trans ho
  generalize hmoved : ({ o with offset } : OutBlock) = moved
  have hlen : (e₁.set i moved).blocks.length = (e₁.set i moved).order.length := by
    simp only [FuncEmitter.set, List.length_set, hlength, horder, he.length]
  have hterm : b.term.Encodable (e₁.set i moved).order e.order[i + 1]? := by
    simp only [FuncEmitter.set, horder]
    exact hshape.term
  obtain ⟨d, hinst, hjump⟩ := termInst_of_encodable hterm hlen moved false
  generalize hnew : ({ moved with bytecode := moved.bytecode.take moved.termOffset ++
    ((b.term.encode e.order[i + 1]? d).map Inst.write).getD [] } : OutBlock) = new
  have hnewoff : new.offset = offset := by rw [← hnew, ← hmoved]
  refine ⟨(e₁.set i new, offset + new.bytecode.length, changing || o.offset != offset), ?_, ?_⟩
  · have hset : (e₁.set i moved).set i new = e₁.set i new := by
      simp [FuncEmitter.set]
    simp only [relaxBlock, FuncEmitter.source, horder, hgraph, hid, hb, ho₁, unwrap, ok_bind, pure,
      Except.pure, hmoved, FuncEmitter.visitTerm, hinst]
    rw [← hset, ← hnew, ← hmoved]
  · have hget : ∀ j, j ≠ i → (e₁.set i new).blocks[j]? = e₁.blocks[j]? := fun j hj =>
      List.getElem?_set_ne (Ne.symm hj)
    have hself : (e₁.set i new).blocks[i]? = some new :=
      List.getElem?_set_self (by rw [hlength]; exact hi')
    have htakei : (e₁.set i new).blocks.take i = e₁.blocks.take i := by
      simp [FuncEmitter.set, List.take_set_of_le (Nat.le_refl i)]
    refine ⟨hgraph, horder, ?_, ?_, ?_, ?_, ?_⟩
    · simp only [FuncEmitter.set, List.length_set, hlength]
    · intro j hj
      rw [hget j (by omega)]
      exact hrest j (by omega)
    · intro j hj
      rcases Nat.lt_or_eq_of_le (Nat.le_of_lt_succ hj) with hlt | rfl
      · obtain ⟨b', p, p', d', hre⟩ := hdone j hlt
        exact ⟨b', p, p', d', hre.set hlt new⟩
      · refine ⟨b, o, new, d, hshape, ho, hself, ?_, ?_, ?_, ?_⟩
        · rw [← hnew, ← hmoved]
          exact hoff
        · rw [← hnew, ← hmoved]
          simp only [htake]
        · rw [hnewoff, htakei, hoffset]
        · intro id' hid'
          obtain ⟨k, dest, hk, hdest, hd⟩ := hjump id' hid'
          have hsrc : moved.offset + moved.bytecode.length + (if false = true then 1 else 0) =
              new.offset + o.bytecode.length := by
            rw [hnewoff, ← hmoved]
            rfl
          rw [hsrc] at hd
          simp only [FuncEmitter.set, horder] at hk
          rcases Nat.lt_trichotomy k j with hlt | rfl | hgt
          · refine ⟨k, dest, hk, ?_, hd⟩
            rw [if_pos (Nat.le_of_lt hlt), hget k (by omega), ← hdest]
            exact (List.getElem?_set_ne (by omega)).symm
          · -- The block branches to itself.
            refine ⟨k, new, hk, ?_, ?_⟩
            · rw [if_pos (Nat.le_refl k)]
              exact hself
            · have : dest = moved := by
                have hmv : (e₁.set k moved).blocks[k]? = some moved :=
                  List.getElem?_set_self (by rw [hlength]; exact hi')
                rw [hmv] at hdest
                exact (Option.some.inj hdest).symm
              rw [hd, this, hnewoff, ← hmoved]
          · refine ⟨k, dest, hk, ?_, hd⟩
            rw [if_neg (by omega), ← hrest k (by omega), ← hdest]
            exact (List.getElem?_set_ne (by omega)).symm
    · have hsplit : (e₁.set i new).blocks.take (i + 1) = e₁.blocks.take i ++ [new] := by
        rw [List.take_add_one, htakei, hself]
        rfl
      simp only [hsplit, List.map_append, List.sum_append, List.map_cons, List.map_nil, List.sum_cons,
        List.sum_nil, hoffset, Nat.add_zero]
    · simp only [Bool.or_eq_true, bne_iff_ne, hchanging]
      constructor
      · rintro (⟨j, hj, p, p', hp, hp', hne⟩ | hne)
        · exact ⟨j, Nat.lt_succ_of_lt hj, p, p', hp, by rw [hget j (by omega)]; exact hp', hne⟩
        · exact ⟨i, Nat.lt_succ_self i, o, new, ho, hself, by rw [hnewoff]; exact hne⟩
      · rintro ⟨j, hj, p, p', hp, hp', hne⟩
        rcases Nat.lt_or_eq_of_le (Nat.le_of_lt_succ hj) with hlt | rfl
        · exact .inl ⟨j, hlt, p, p', hp, by rw [← hget j (by omega)]; exact hp', hne⟩
        · rw [ho] at hp
          rw [hself] at hp'
          cases hp
          cases hp'
          exact .inr (by rw [← hnewoff]; exact hne)

/-- What a pass does. -/
theorem FuncEmitter.pass_spec {e : FuncEmitter} (he : Ready e) :
    ∃ e' changing, e.pass = .ok (e', changing) ∧ e'.graph = e.graph ∧ e'.order = e.order ∧
      e'.blocks.length = e.blocks.length ∧
      (∀ i < e.order.length, ∃ b o o' d, Rewritten e e' i b o o' d) ∧
      (changing = true ↔ ∃ (i : Nat) (o o' : OutBlock), e.blocks[i]? = some o ∧ e'.blocks[i]? = some o' ∧
        o.offset ≠ o'.offset) := by
  have hinit : InPass e 0 (e, 0, false) := by
    constructor <;> simp
  obtain ⟨⟨e', offset, changing⟩, hfold, hpass⟩ :=
    foldlM_range_ok (InPass e) hinit fun i hi st hst => hst.step he hi
  refine ⟨e', changing, ?_, hpass.graph, hpass.order, hpass.length, hpass.done, ?_⟩
  · simp [FuncEmitter.pass, hfold, pure, Except.pure]
  · rw [hpass.changing]
    constructor
    · rintro ⟨j, -, o, o', ho, ho', hne⟩
      exact ⟨j, o, o', ho, ho', hne⟩
    · rintro ⟨j, o, o', ho, ho', hne⟩
      refine ⟨j, ?_, o, o', ho, ho', hne⟩
      rw [← he.length]
      exact (List.getElem?_eq_some_iff.mp ho).1

/-! ## Passes as passes of a layout -/

section

variable {e e' : FuncEmitter}

/-- After a pass the instructions are still encoded. -/
theorem Ready.pass (he : Ready e) (hgraph : e'.graph = e.graph) (horder : e'.order = e.order)
    (hlength : e'.blocks.length = e.blocks.length)
    (hblocks : ∀ i < e.order.length, ∃ b o o' d, Rewritten e e' i b o o' d) : Ready e' := by
  refine ⟨by rw [hlength, he.length, horder], fun i p hp => ?_⟩
  have hi : i < e.order.length := by
    rw [← he.length, ← hlength]
    exact (List.getElem?_eq_some_iff.mp hp).1
  obtain ⟨b, o, o', d, h⟩ := hblocks i hi
  obtain rfl : o' = p := Option.some.inj (h.after.symm.trans hp)
  refine ⟨b, ?_, h.termOffset, ?_⟩
  · rw [hgraph, horder]
    exact h.shape
  · rw [h.bytecode, h.termOffset, List.take_left]

theorem program_base {g : Graph} {order : List Nat} {i : Nat} {b : Block} (h : Shape g order i b) :
    (program g order).base i = b.code.length + b.term.fixedLen order[i + 1]? := by
  simp [program, h.blockAt]

theorem program_target {g : Graph} {order : List Nat} {i : Nat} {b : Block}
    (h : Shape g order i b) : (program g order).target i =
      (b.term.jump order[i + 1]?).bind fun id => order.idxOf? id := by
  simp [program, h.blockAt]

theorem program_target_lt {g : Graph} {order : List Nat} {i t : Nat}
    (h : (program g order).target i = some t) : t < (program g order).size := by
  simp only [program, Option.bind_eq_some_iff] at h
  obtain ⟨b, -, id, -, hidx⟩ := h
  exact (List.idxOf?_eq_some_iff.mp hidx).1

/-- A block that branches to a block of the order has a target. -/
theorem target_isSome {g : Graph} {order : List Nat} {i : Nat} {b : Block}
    (h : Shape g order i b) :
    ((program g order).target i).isSome = (b.term.jump order[i + 1]?).isSome := by
  rw [program_target h]
  -- Where a branch is encoded, its target is in the order.
  have hmem : ∀ id, b.term.jump order[i + 1]? = some id → id ∈ order := by
    intro id hid
    have hterm := h.term
    cases hb : b.term with
    | branch c =>
      rw [hb] at hid hterm
      simp only [Term.jump] at hid
      split at hid
      · rename_i hne
        cases hid
        exact hterm hne
      · cases hid
    | cond t f =>
      rw [hb] at hid hterm
      simp only [Term.jump] at hid
      rcases hterm with ⟨hnext, hf⟩ | ⟨hne, -, ht⟩
      · rw [if_pos hnext] at hid
        cases hid
        exact hf
      · rw [if_neg hne] at hid
        cases hid
        exact ht
    | unpackIf sig t f =>
      rw [hb] at hid hterm
      cases hid
      exact hterm.2
    | ret | nlBranch | elseFallthrough =>
      rw [hb] at hid
      cases hid
  cases hjump : b.term.jump order[i + 1]? with
  | none => rfl
  | some id =>
    have hin := hmem id hjump
    cases hidx : order.idxOf? id with
    | none => exact absurd hin (List.idxOf?_eq_none_iff.mp hidx)
    | some j => simp [hidx]

/-- The length of a block that a pass has written. -/
theorem Rewritten.length {i : Nat} {b : Block} {o o' : OutBlock} {d : Int}
    (h : Rewritten e e' i b o o' d) :
    o'.bytecode.length = (program e.graph e.order).base i +
      if ((program e.graph e.order).target i).isSome then encodedLen (zag d) else 0 := by
  rw [h.bytecode, List.length_append, Term.encode_length, program_base h.shape,
    target_isSome h.shape, Nat.add_assoc]

theorem total_eq (e : FuncEmitter) :
    e.total = ((e.blocks.take e.blocks.length).map (·.bytecode.length)).sum := by
  rw [List.take_length]
  rfl

/-- Where the blocks start after a pass: each behind those before it. -/
theorem start_eq_sum (he : Ready e) (hlength : e'.blocks.length = e.blocks.length)
    (hblocks : ∀ i < e.order.length, ∃ b o o' d, Rewritten e e' i b o o' d) {i : Nat}
    (hi : i ≤ e.order.length) :
    e'.layout.start i = ((e'.blocks.take i).map (·.bytecode.length)).sum := by
  rcases Nat.lt_or_eq_of_le hi with hlt | rfl
  · obtain ⟨b, o, o', d, h⟩ := hblocks i hlt
    simp only [FuncEmitter.layout, h.after, Option.map_some, Option.getD_some, h.offset]
  · have hlen : e'.blocks.length = e.order.length := by rw [hlength, he.length]
    have hnone : e'.blocks[e.order.length]? = none := by simp [hlen]
    simp only [FuncEmitter.layout, hnone, Option.map_none, Option.getD_none, total_eq, hlen]

/-- A pass over blocks that have at least their fixed bytes is a pass of their layouts. -/
theorem relax_pass (he : Ready e) (hgraph : e'.graph = e.graph) (horder : e'.order = e.order)
    (hlength : e'.blocks.length = e.blocks.length)
    (hblocks : ∀ i < e.order.length, ∃ b o o' d, Rewritten e e' i b o o' d)
    (hbase : ∀ (i : Nat) (o : OutBlock), e.blocks[i]? = some o →
      (program e.graph e.order).base i ≤ o.bytecode.length) :
    Relax.Pass (program e.graph e.order) e.layout e'.layout := by
  have hstart : ∀ i ≤ e.order.length,
      e'.layout.start i = ((e'.blocks.take i).map (·.bytecode.length)).sum :=
    fun i hi => start_eq_sum he hlength hblocks hi
  -- The bytes of its displacement.
  have hwidth : ∀ {i : Nat} {b o o' d}, Rewritten e e' i b o o' d → e'.layout.width i =
      if ((program e.graph e.order).target i).isSome then encodedLen (zag d) else 0 := by
    intro i b o o' d h
    simp only [FuncEmitter.layout, h.after, Option.map_some, Option.getD_some, hgraph, horder,
      h.length]
    omega
  constructor
  · rw [hstart 0 (Nat.zero_le _)]
    rfl
  · intro i hi
    obtain ⟨b, o, o', d, h⟩ := hblocks i hi
    rw [hstart (i + 1) hi, hstart i (Nat.le_of_lt hi), hwidth h, List.take_add_one, h.after]
    simp only [Option.toList_some, List.map_append, List.map_cons, List.map_nil, List.sum_append,
      List.sum_cons, List.sum_nil, h.length, Nat.add_zero, Nat.add_assoc]
  · intro i hi
    obtain ⟨b, o, o', d, h⟩ := hblocks i hi
    rw [hwidth h]
    cases htarget : (program e.graph e.order).target i with
    | none => rfl
    | some t =>
      simp only [Option.isSome_some, if_true, Option.map_some, Option.getD_some]
      rw [program_target h.shape] at htarget
      obtain ⟨id, hid, hidx⟩ := Option.bind_eq_some_iff.mp htarget
      obtain ⟨j, dest, hj, hdest, hd⟩ := h.jump id hid
      obtain rfl : t = j := Option.some.inj (hidx.symm.trans hj)
      -- Both ends of the displacement are those of the layouts.
      have hsrc : o'.offset + o.bytecode.length =
          e'.layout.start i + (program e.graph e.order).base i + e.layout.width i := by
        have := hbase i o h.before
        simp only [FuncEmitter.layout, h.after, h.before, Option.map_some, Option.getD_some]
        omega
      have hdst : dest.offset = if t ≤ i then e'.layout.start t else e.layout.start t := by
        split at hdest <;> rename_i hle
        · simp only [if_pos hle, FuncEmitter.layout, hdest, Option.map_some, Option.getD_some]
        · simp only [if_neg hle, FuncEmitter.layout, hdest, Option.map_some, Option.getD_some]
      show encodedLen (zag d) = encodedLen (zag (Relax.displacement _ _ _ _ _))
      rw [hd, Relax.displacement, hsrc, hdst]

end

/-! ## The first pass -/

/-- How the first pass leaves a block: behind the instructions of the blocks before it, as if these
had no terminators. -/
structure Started (e : FuncEmitter) (i : Nat) (b : Block) (o : OutBlock) : Prop where
  shape : Shape e.graph e.order i b
  block : e.blocks[i]? = some o
  termOffset : o.termOffset = b.code.length
  bytecode : ∃ d, o.bytecode =
    b.code ++ ((b.term.encode e.order[i + 1]? d).map Inst.write).getD []
  offset : o.offset = ((e.blocks.take i).map (·.termOffset)).sum

/-- What holds in the first pass before the block at a position. -/
structure InStart (e : FuncEmitter) (i : Nat) (st : FuncEmitter × Nat) : Prop where
  graph : st.1.graph = e.graph
  order : st.1.order = e.order
  length : st.1.blocks.length = e.order.length
  done : ∀ j < i, ∃ b o, Started st.1 j b o
  offset : st.2 = ((st.1.blocks.take i).map (·.termOffset)).sum

/-- The step of the first pass. -/
theorem InStart.step {e : FuncEmitter} {i : Nat} (hi : i < e.order.length)
    {st st' : FuncEmitter × Nat} (h : InStart e i st) (hstep : startBlock st i = .ok st') :
    InStart e (i + 1) st' := by
  obtain ⟨e₁, offset⟩ := st
  obtain ⟨hgraph, horder, hlength, hdone, hoffset⟩ := h
  simp only at hgraph horder hlength hdone hoffset
  unfold startBlock at hstep
  simp only [FuncEmitter.source] at hstep
  obtain ⟨⟨b, next⟩, hsource, hstep⟩ := bind_ok hstep
  obtain ⟨id, hid, hsource⟩ := bind_ok hsource
  obtain ⟨b', hb, hsource⟩ := bind_ok hsource
  cases hsource
  have hid := unwrap_eq_ok.mp hid
  have hb := unwrap_eq_ok.mp hb
  obtain ⟨o, ho, hstep⟩ := bind_ok hstep
  generalize hout : visitInsts b { o with offset } = output at hstep
  have hcode : output.bytecode = b.code ∧ output.termOffset = b.code.length ∧
      output.offset = offset := by
    rw [← hout]
    exact ⟨rfl, rfl, rfl⟩
  obtain ⟨new, hterm, hstep⟩ := bind_ok hstep
  obtain ⟨inst, hinst, hterm⟩ := bind_ok hterm
  cases hterm
  cases hstep
  have hlen : (e₁.set i output).blocks.length = (e₁.set i output).order.length := by
    simp only [FuncEmitter.set, List.length_set, hlength, horder]
  have henc := encodable_of_termInst hinst
  obtain ⟨d, hinst', -⟩ := termInst_of_encodable henc hlen output true
  rw [hinst] at hinst'
  cases hinst'
  generalize hnew : ({ output with bytecode := output.bytecode.take output.termOffset ++
    ((b.term.encode e₁.order[i + 1]? d).map Inst.write).getD [] } : OutBlock) = new
  have hset : (e₁.set i output).set i new = e₁.set i new := by simp [FuncEmitter.set]
  rw [hset]
  have hget : ∀ j, j ≠ i → (e₁.set i new).blocks[j]? = e₁.blocks[j]? := fun j hj =>
    List.getElem?_set_ne (Ne.symm hj)
  have hself : (e₁.set i new).blocks[i]? = some new :=
    List.getElem?_set_self (by rw [hlength]; exact hi)
  have htake : ∀ j ≤ i, (e₁.set i new).blocks.take j = e₁.blocks.take j := by
    intro j hj
    simp [FuncEmitter.set, List.take_set_of_le hj]
  have hnewoff : new.termOffset = b.code.length ∧ new.offset = offset := by
    rw [← hnew]
    exact hcode.2
  refine ⟨hgraph, horder, ?_, ?_, ?_⟩
  · simp only [FuncEmitter.set, List.length_set, hlength]
  · intro j hj
    rcases Nat.lt_or_eq_of_le (Nat.le_of_lt_succ hj) with hlt | rfl
    · obtain ⟨b', p, hp⟩ := hdone j hlt
      refine ⟨b', p, { hp with block := ?_, offset := ?_ }⟩
      · rw [hget j (by omega)]
        exact hp.block
      · rw [htake j (by omega)]
        exact hp.offset
    · refine ⟨b, new, ⟨⟨id, hid, hb⟩, henc⟩, hself, hnewoff.1, ⟨d, ?_⟩, ?_⟩
      · rw [← hnew]
        simp only [hcode.1, hcode.2.1, List.take_length]
        rfl
      · rw [htake j (Nat.le_refl j), hnewoff.2, hoffset]
  · have hsplit : (e₁.set i new).blocks.take (i + 1) = e₁.blocks.take i ++ [new] := by
      rw [List.take_add_one, htake i (Nat.le_refl i), hself]
      rfl
    simp only [hsplit, List.map_append, List.sum_append, List.map_cons, List.map_nil, List.sum_cons,
      List.sum_nil, hoffset, hnewoff.1, hcode.1, Nat.add_zero]

/-- What the first pass does. -/
theorem FuncEmitter.start_spec {s : Sorting} {e : FuncEmitter}
    (h : (FuncEmitter.new s).start = .ok e) :
    e.graph = s.graph ∧ e.order = s.out ∧ e.blocks.length = e.order.length ∧
      ∀ i < e.order.length, ∃ b o, Started e i b o := by
  unfold FuncEmitter.start at h
  obtain ⟨⟨e', offset⟩, hfold, h⟩ := bind_ok h
  cases h
  have hinit : InStart (FuncEmitter.new s) 0 (FuncEmitter.new s, 0) := by
    constructor <;> simp [FuncEmitter.new]
  obtain ⟨hgraph, horder, hlength, hdone, -⟩ :=
    foldlM_range_inv (InStart (FuncEmitter.new s)) hfold hinit fun i hi _ _ hst => hst.step hi
  simp only at hgraph horder hlength hdone
  refine ⟨hgraph, horder, by rw [hlength, horder], fun i hi => hdone i ?_⟩
  rw [← horder]
  exact hi

/-- The step of the first pass returns where the terminator can be encoded. -/
theorem InStart.step_ok {e : FuncEmitter} {i : Nat} (hi : i < e.order.length) {b : Block}
    (hb : Shape e.graph e.order i b) {st : FuncEmitter × Nat} (h : InStart e i st) :
    ∃ st', startBlock st i = .ok st' := by
  obtain ⟨e₁, offset⟩ := st
  obtain ⟨hgraph, horder, hlength, -, -⟩ := h
  simp only at hgraph horder hlength
  obtain ⟨⟨id, hid, hb⟩, hterm⟩ := hb
  have ho : e₁.blocks[i]? = some (e₁.blocks.get ⟨i, hlength ▸ hi⟩) :=
    List.getElem?_eq_getElem (hlength ▸ hi)
  generalize e₁.blocks.get ⟨i, hlength ▸ hi⟩ = o at ho
  generalize hout : visitInsts b { o with offset } = output
  have hlen : (e₁.set i output).blocks.length = (e₁.set i output).order.length := by
    rw [FuncEmitter.set, List.length_set, hlength, horder]
  rw [← horder] at hterm
  obtain ⟨d, hinst, -⟩ := termInst_of_encodable (e := e₁.set i output) hterm hlen output true
  rw [← horder] at hid
  rw [← hgraph] at hb
  refine ⟨((e₁.set i output).set i { output with
    bytecode := output.bytecode.take output.termOffset ++
      ((b.term.encode e₁.order[i + 1]? d).map Inst.write).getD [] },
    offset + output.bytecode.length), ?_⟩
  simp only [startBlock, FuncEmitter.source, hid, hb, ho, unwrap, ok_bind, pure, Except.pure, hout,
    FuncEmitter.visitTerm, hinst]

/-- The first pass returns where every terminator can be encoded. -/
theorem FuncEmitter.start_ok {s : Sorting}
    (h : ∀ i < s.out.length, ∃ b, Shape s.graph s.out i b) :
    ∃ e, (FuncEmitter.new s).start = .ok e := by
  have hinit : InStart (FuncEmitter.new s) 0 (FuncEmitter.new s, 0) := by
    constructor <;> simp [FuncEmitter.new]
  have hstep : ∀ i < (FuncEmitter.new s).order.length, ∀ st, InStart (FuncEmitter.new s) i st →
      ∃ st', startBlock st i = .ok st' ∧ InStart (FuncEmitter.new s) (i + 1) st' := by
    intro i hi st hst
    obtain ⟨b, hb⟩ := h i hi
    obtain ⟨st', hst'⟩ := hst.step_ok hi hb
    exact ⟨st', hst', hst.step hi hst'⟩
  obtain ⟨⟨e, offset⟩, hfold, -⟩ := foldlM_range_ok _ hinit hstep
  refine ⟨e, ?_⟩
  rw [FuncEmitter.start, hfold]
  rfl

section

variable {e : FuncEmitter}

/-- What the first pass leaves can be passed over. -/
theorem ready_of_started (hlength : e.blocks.length = e.order.length)
    (h : ∀ i < e.order.length, ∃ b o, Started e i b o) : Ready e := by
  refine ⟨hlength, fun i p hp => ?_⟩
  have hi : i < e.order.length := hlength ▸ (List.getElem?_eq_some_iff.mp hp).1
  obtain ⟨b, o, hs⟩ := h i hi
  obtain rfl : o = p := Option.some.inj (hs.block.symm.trans hp)
  obtain ⟨d, hd⟩ := hs.bytecode
  refine ⟨b, hs.shape, hs.termOffset, ?_⟩
  rw [hd, hs.termOffset, List.take_left]

/-- The length of a block after the first pass. -/
theorem Started.length {i : Nat} {b : Block} {o : OutBlock} (h : Started e i b o) :
    ∃ d, o.bytecode.length = (program e.graph e.order).base i +
      if ((program e.graph e.order).target i).isSome then encodedLen (zag d) else 0 := by
  obtain ⟨d, hd⟩ := h.bytecode
  refine ⟨d, ?_⟩
  rw [hd, List.length_append, Term.encode_length, program_base h.shape, target_isSome h.shape,
    Nat.add_assoc]

/-- The emitter can be passed over, and each block has its fixed bytes and at most nine more, where it
branches. -/
structure Sound (e : FuncEmitter) : Prop where
  ready : Ready e
  length : ∀ (i : Nat) (o : OutBlock), e.blocks[i]? = some o →
    ∃ w ≤ 9, o.bytecode.length = (program e.graph e.order).base i +
      if ((program e.graph e.order).target i).isSome then w else 0

theorem Sound.base (h : Sound e) (i : Nat) (o : OutBlock) (ho : e.blocks[i]? = some o) :
    (program e.graph e.order).base i ≤ o.bytecode.length := by
  obtain ⟨w, -, hw⟩ := h.length i o ho
  rw [hw]
  exact Nat.le_add_right _ _

theorem sound_of_started (hlength : e.blocks.length = e.order.length)
    (h : ∀ i < e.order.length, ∃ b o, Started e i b o) : Sound e := by
  refine ⟨ready_of_started hlength h, fun i p hp => ?_⟩
  obtain ⟨b, o, hs⟩ := h i (hlength ▸ (List.getElem?_eq_some_iff.mp hp).1)
  obtain rfl : o = p := Option.some.inj (hs.block.symm.trans hp)
  obtain ⟨d, hd⟩ := hs.length
  exact ⟨_, (encodedLen_bounds _).2, hd⟩

/-- A pass of the emitter is a pass of its layout, and it says whether a block has moved. -/
theorem Sound.pass (h : Sound e) :
    ∃ e' changing, e.pass = .ok (e', changing) ∧ Sound e' ∧ e'.graph = e.graph ∧
      e'.order = e.order ∧ Relax.Pass (program e.graph e.order) e.layout e'.layout ∧
      (changing = false ↔ ∀ i < e.order.length, e'.layout.start i = e.layout.start i) ∧
      ∀ i < e.order.length, ∃ b o o' d, Rewritten e e' i b o o' d := by
  obtain ⟨e', changing, hpass, hgraph, horder, hlength, hblocks, hchanging⟩ :=
    FuncEmitter.pass_spec h.ready
  refine ⟨e', changing, hpass, ⟨h.ready.pass hgraph horder hlength hblocks, ?_⟩, hgraph, horder,
    relax_pass h.ready hgraph horder hlength hblocks h.base, ?_, hblocks⟩
  · intro i p hp
    have hi : i < e.order.length := by
      rw [← h.ready.length, ← hlength]
      exact (List.getElem?_eq_some_iff.mp hp).1
    obtain ⟨b, o, o', d, hre⟩ := hblocks i hi
    obtain rfl : o' = p := Option.some.inj (hre.after.symm.trans hp)
    rw [hgraph, horder]
    exact ⟨_, (encodedLen_bounds _).2, hre.length⟩
  · rw [← Bool.not_eq_true, hchanging]
    constructor
    · intro hnone i hi
      obtain ⟨b, o, o', d, hre⟩ := hblocks i hi
      simp only [FuncEmitter.layout, hre.after, hre.before, Option.map_some, Option.getD_some]
      by_contra hne
      exact hnone ⟨i, o, o', hre.before, hre.after, fun heq => hne heq.symm⟩
    · rintro hsame ⟨i, o, o', ho, ho', hne⟩
      have hi : i < e.order.length := h.ready.length ▸ (List.getElem?_eq_some_iff.mp ho).1
      have := hsame i hi
      simp only [FuncEmitter.layout, ho, ho', Option.map_some, Option.getD_some] at this
      exact hne this.symm

/-- The emitter after a number of passes. -/
def FuncEmitter.passes (e : FuncEmitter) : Nat → FuncEmitter
  | 0 => e
  | k + 1 =>
    match (e.passes k).pass with
    | .ok (e', _) => e'
    | .error _ => e.passes k

theorem passes_succ_of_pass {k : Nat} {e' : FuncEmitter} {changing : Bool}
    (h : (e.passes k).pass = .ok (e', changing)) : e.passes (k + 1) = e' := by
  simp only [FuncEmitter.passes, h]

theorem Sound.passes (h : Sound e) (k : Nat) :
    Sound (e.passes k) ∧ (e.passes k).graph = e.graph ∧ (e.passes k).order = e.order := by
  induction k with
  | zero => exact ⟨h, rfl, rfl⟩
  | succ k ih =>
    obtain ⟨e', changing, hpass, hsound, hgraph, horder, -⟩ := ih.1.pass
    rw [passes_succ_of_pass hpass]
    exact ⟨hsound, hgraph.trans ih.2.1, horder.trans ih.2.2⟩

/-- The layouts after the passes. -/
def FuncEmitter.layouts (e : FuncEmitter) (k : Nat) : Relax.Layout := (e.passes k).layout

theorem Sound.run (h : Sound e) : Relax.Run (program e.graph e.order) e.layouts := by
  intro k
  obtain ⟨hsound, hgraph, horder⟩ := h.passes k
  obtain ⟨e', changing, hpass, -, -, -, hrelax, -⟩ := hsound.pass
  rw [FuncEmitter.layouts, FuncEmitter.layouts, passes_succ_of_pass hpass, ← hgraph, ← horder]
  exact hrelax

/-- The passes after the first one are the passes of what it leaves. -/
theorem passes_succ {e₁ : FuncEmitter} {changing : Bool} (hpass : e.pass = .ok (e₁, changing))
    (j : Nat) : e.passes (j + 1) = e₁.passes j := by
  induction j with
  | zero => exact passes_succ_of_pass (k := 0) hpass
  | succ j ih =>
    rw [FuncEmitter.passes, ih]
    rfl

/-- The loop of `emit` ends with the first pass that moves no block. -/
theorem relax_eq_ok {fuel : Nat} {e' : FuncEmitter} (h : e.relax fuel = .ok e') :
    ∃ k, (e.passes k).pass = .ok (e', false) := by
  induction fuel generalizing e with
  | zero => cases h
  | succ fuel ih =>
    unfold FuncEmitter.relax at h
    obtain ⟨⟨e₁, changing⟩, hpass, h⟩ := bind_ok h
    cases changing with
    | false =>
      cases h
      exact ⟨0, hpass⟩
    | true =>
      obtain ⟨k, hk⟩ := ih h
      refine ⟨k + 1, ?_⟩
      rw [passes_succ hpass]
      exact hk

theorem relax_of_still (h : Sound e) {k : Nat} {e' : FuncEmitter}
    (hk : (e.passes k).pass = .ok (e', false)) : ∃ fuel e'', e.relax fuel = .ok e'' := by
  induction k generalizing e with
  | zero =>
    refine ⟨1, e', ?_⟩
    have hk : e.pass = .ok (e', false) := hk
    simp [FuncEmitter.relax, hk, pure, Except.pure]
  | succ k ih =>
    obtain ⟨e₁, changing, hpass, hsound, -⟩ := h.pass
    cases changing with
    | false =>
      refine ⟨1, e₁, ?_⟩
      simp [FuncEmitter.relax, hpass, pure, Except.pure]
    | true =>
      rw [passes_succ hpass] at hk
      obtain ⟨fuel, e'', hrelax⟩ := ih hsound hk
      refine ⟨fuel + 1, e'', ?_⟩
      simp only [FuncEmitter.relax, hpass, ok_bind, if_true]
      exact hrelax

end

end Dolang.Compile
