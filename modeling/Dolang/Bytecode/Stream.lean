import Dolang.Bytecode.Blocks

/-!
# Instruction streams

The codec of whole instruction streams. What `Inst::write` puts one after the other is what
`InstDecoder` reads, with the offsets of the writes. Code in which `InstDecoder` finds no error is read
the same by the interpreter's `UnsafeInstDecoder`, which checks nothing: a read outside the code, or
of a byte that is no opcode, is undefined there and yields nothing here. The interpreter reads the
operands in its own arms (`unsafeOperands`), apart from those of `InstDecoder::next`.
-/

namespace Dolang.Bytecode

open Dolang.Bytes Dolang.Rust

/-! ## The unchecked decoder -/

/-- A reader without errors of its own, which yields nothing where a read is undefined. -/
abbrev UnsafeReader (α : Type) := List UInt8 → Nat → Option (α × Nat)

/-- `UnsafeInstDecoder::opcode`, which takes the byte as an opcode. -/
def unsafeOpcode : UnsafeReader Opcode := fun code pos => do
  let op ← Opcode.ofByte (← code[pos]?)
  return (op, pos + 1)

/-- `UnsafeInstDecoder::usize`. The cast keeps the low 64 bits. -/
def unsafeUsize : UnsafeReader Nat := fun code pos => do
  let (v, pos) ← unsafeDecodeUVar code pos
  return (v % 2^64, pos)

/-- `UnsafeInstDecoder::isize`, with `UnsafeDecode for IVar`. An `IVar` is an `isize`. -/
def unsafeIsize : UnsafeReader Int := fun code pos => do
  let (v, pos) ← unsafeDecodeUVar code pos
  return (zig v, pos)

/-- An instruction with one unsigned immediate. -/
def unsafe1 (inst : Nat → Inst) : UnsafeReader Inst := fun code pos => do
  let (a, pos) ← unsafeUsize code pos
  return (inst a, pos)

/-- An instruction with two unsigned immediates. -/
def unsafe2 (inst : Nat → Nat → Inst) : UnsafeReader Inst := fun code pos => do
  let (a, pos) ← unsafeUsize code pos
  let (b, pos) ← unsafeUsize code pos
  return (inst a b, pos)

/-- An instruction with a branch displacement. -/
def unsafeBranch (inst : Int → Inst) : UnsafeReader Inst := fun code pos => do
  let (d, pos) ← unsafeIsize code pos
  return (inst d, pos)

/-- An instruction with an unsigned immediate and a branch displacement. -/
def unsafeUnpackBranch (inst : Nat → Int → Inst) : UnsafeReader Inst := fun code pos => do
  let (a, pos) ← unsafeUsize code pos
  let (d, pos) ← unsafeIsize code pos
  return (inst a d, pos)

/-- The operands that the arms of `Vm::step` read. -/
def unsafeOperands (op : Opcode) : UnsafeReader Inst := fun code pos =>
  match op with
  | .pop => some (.pop, pos)
  | .dup => some (.dup, pos)
  | .pick => unsafe1 .pick code pos
  | .swap => unsafe2 .swap code pos
  | .loadConst => unsafe1 .loadConst code pos
  | .loadLocal => unsafe1 .loadLocal code pos
  | .loadUpvar => unsafe2 .loadUpvar code pos
  | .storeLocal => unsafe1 .storeLocal code pos
  | .storeUpvar => unsafe2 .storeUpvar code pos
  | .get => unsafe1 .get code pos
  | .set => unsafe1 .set code pos
  | .index => some (.index, pos)
  | .assign => some (.assign, pos)
  | .pushUpvars => unsafe1 .pushUpvars code pos
  | .popUpvars => some (.popUpvars, pos)
  | .call => unsafe1 .call code pos
  | .methodCall => unsafe2 .methodCall code pos
  | .builtin => unsafe2 .builtin code pos
  | .neg => some (.neg, pos)
  | .not => some (.not, pos)
  | .bitNot => some (.bitNot, pos)
  | .close => unsafe1 .close code pos
  | .bitAnd => some (.bitAnd, pos)
  | .bitOr => some (.bitOr, pos)
  | .bitXor => some (.bitXor, pos)
  | .shl => some (.shl, pos)
  | .shr => some (.shr, pos)
  | .add => some (.add, pos)
  | .sub => some (.sub, pos)
  | .mul => some (.mul, pos)
  | .div => some (.div, pos)
  | .ediv => some (.ediv, pos)
  | .mod => some (.mod, pos)
  | .eq => some (.eq, pos)
  | .ne => some (.ne, pos)
  | .lt => some (.lt, pos)
  | .gt => some (.gt, pos)
  | .lte => some (.lte, pos)
  | .gte => some (.gte, pos)
  | .ret => some (.ret, pos)
  | .branch => unsafeBranch .branch code pos
  | .branchTrue => unsafeBranch .branchTrue code pos
  | .branchFalse => unsafeBranch .branchFalse code pos
  | .reify => unsafe1 .reify code pos
  | .next => some (.next, pos)
  | .unpack => unsafe1 .unpack code pos
  | .unpackBranch => unsafeUnpackBranch .unpackBranch code pos
  | .elseFallthrough => unsafe1 .elseFallthrough code pos
  | .nlBranch => unsafe2 .nlBranch code pos
  | .nlGuard => unsafe1 .nlGuard code pos

/-- One instruction of the unchecked decoder. -/
def unsafeNext : UnsafeReader Inst := fun code pos => do
  let (op, pos) ← unsafeOpcode code pos
  unsafeOperands op code pos

/-- A number of instructions from a position on, each one read where the one before it ended. -/
def unsafeInsts (code : List UInt8) : Nat → Nat → Option (List InstOffsets)
  | 0, _ => some []
  | n + 1, pos => do
    let (inst, after) ← unsafeNext code pos
    return ⟨pos, inst, after⟩ :: (← unsafeInsts code n after)

/-! ## The unchecked decoder follows the checked one -/

/-- An unchecked reader reads all that a checked one does. -/
def UnsafeReader.Follows {α : Type} (u : UnsafeReader α) (r : Reader α) : Prop :=
  ∀ code pos a after, r code pos = .ok (a, after) → u code pos = some (a, after)

theorem unsafeUsize_follows : unsafeUsize.Follows readUsize := by
  intro code pos v after h
  have hdec := readUsize_eq_ok h
  rw [unsafeUsize, unsafeDecodeUVar_eq, hdec]
  show some (v % 2^64, after) = _
  rw [Nat.mod_eq_of_lt (decodeUVar_bounds hdec).2.2]

theorem unsafeIsize_follows : unsafeIsize.Follows readIsize := by
  intro code pos v after h
  obtain ⟨u, hdec, rfl⟩ := readIsize_eq_ok h
  rw [unsafeIsize, unsafeDecodeUVar_eq, hdec]
  rfl

theorem UnsafeReader.Follows.pure {α : Type} (a : α) :
    UnsafeReader.Follows (fun _ pos => some (a, pos)) fun _ pos => .ok (a, pos) := by
  intro code pos b after h
  cases h
  rfl

/-- Reading one value after another follows when both readers do. -/
theorem UnsafeReader.Follows.bind {α β : Type} {u : UnsafeReader α} {r : Reader α}
    {uf : α → UnsafeReader β} {rf : α → Reader β} (hu : u.Follows r)
    (hf : ∀ a, (uf a).Follows (rf a)) :
    UnsafeReader.Follows
      (fun code pos => do
        let (a, pos) ← u code pos
        uf a code pos)
      (fun code pos => do
        let (a, pos) ← r code pos
        rf a code pos) := by
  intro code pos b after h
  dsimp only at h ⊢
  rcases hr : r code pos with e | ⟨a, mid⟩ <;> rw [hr] at h
  · cases h
  · rw [hu code pos a mid hr]
    exact hf a code mid b after h

theorem unsafe1_follows (inst : Nat → Inst) : (unsafe1 inst).Follows (read1 inst) :=
  unsafeUsize_follows.bind fun a => .pure (inst a)

theorem unsafe2_follows (inst : Nat → Nat → Inst) : (unsafe2 inst).Follows (read2 inst) :=
  unsafeUsize_follows.bind fun a => unsafeUsize_follows.bind fun b => .pure (inst a b)

theorem unsafeBranch_follows (inst : Int → Inst) :
    (unsafeBranch inst).Follows (readBranch inst) :=
  unsafeIsize_follows.bind fun d => .pure (inst d)

theorem unsafeUnpackBranch_follows (inst : Nat → Int → Inst) :
    (unsafeUnpackBranch inst).Follows (readUnpackBranch inst) :=
  unsafeUsize_follows.bind fun a => unsafeIsize_follows.bind fun d => .pure (inst a d)

/-- The interpreter reads the operands of every opcode as `InstDecoder` does. -/
theorem unsafeOperands_follows (op : Opcode) : (unsafeOperands op).Follows (readOperands op) := by
  cases op <;>
    first
    | exact UnsafeReader.Follows.pure _
    | exact unsafe1_follows _
    | exact unsafe2_follows _
    | exact unsafeBranch_follows _
    | exact unsafeUnpackBranch_follows _

theorem unsafeNext_eq {code : List UInt8} {pos after : Nat} {inst : Inst}
    (h : next code pos = some (.ok (inst, after))) :
    unsafeNext code pos = some (inst, after) := by
  obtain ⟨b, op, hb, hop, hread⟩ := next_eq_ok h
  rw [unsafeNext, unsafeOpcode, hb]
  show ((Opcode.ofByte b >>= _) >>= _) = _
  rw [hop]
  exact unsafeOperands_follows op code (pos + 1) inst after hread

/-- The unchecked decoder reads a chain of instructions. -/
theorem Chain.unsafeInsts_eq {code : List UInt8} {pos : Nat} {l : List InstOffsets}
    (h : Chain code pos l) : unsafeInsts code l.length pos = some l := by
  induction l generalizing pos with
  | nil => rfl
  | cons i l ih =>
    obtain ⟨rfl, hnext, hrest⟩ := h
    rw [List.length_cons, unsafeInsts, unsafeNext_eq hnext]
    show (unsafeInsts code l.length i.after >>= _) = _
    rw [ih hrest]
    rfl

/-! ## Whole streams -/

/-- Instructions written one after the other. -/
def writeAll (l : List Inst) : List UInt8 := l.flatMap Inst.write

/-- The instructions with the offsets at which they are written, from a position on. -/
def written : Nat → List Inst → List InstOffsets
  | _, [] => []
  | pos, inst :: l => ⟨pos, inst, pos + inst.write.length⟩ :: written (pos + inst.write.length) l

/-- Written instructions are a chain behind anything. -/
theorem chain_writeAll (pre : List UInt8) {l : List Inst} (h : ∀ inst ∈ l, inst.Fits) :
    Chain (pre ++ writeAll l) pre.length (written pre.length l) := by
  induction l generalizing pre with
  | nil => simp [writeAll, written, Chain]
  | cons inst l ih =>
    have hnext := next_write pre (writeAll l) (h inst List.mem_cons_self)
    have hrest := ih (pre ++ inst.write) fun i hi => h i (List.mem_cons_of_mem _ hi)
    rw [List.length_append] at hrest
    have hcode : pre ++ writeAll (inst :: l) = pre ++ inst.write ++ writeAll l := by
      rw [writeAll, List.flatMap_cons, List.append_assoc]
      rfl
    rw [hcode]
    exact ⟨rfl, hnext, hrest⟩

/-- The decoder reads what was written, with the offsets of the writes. On any code in which it finds
no error, the unchecked decoder reads the same instructions at the same offsets. -/
theorem stream_codec :
    (∀ l : List Inst, (∀ inst ∈ l, inst.Fits) → insts (writeAll l) 0 = (written 0 l).map .ok) ∧
    (∀ code : List UInt8, (∀ r ∈ insts code 0, ∃ i, r = .ok i) →
      ∃ l, insts code 0 = l.map .ok ∧ unsafeInsts code l.length 0 = some l) := by
  refine ⟨fun l h => ?_, fun code h => ?_⟩
  · exact insts_eq_map_ok.mpr (chain_writeAll [] h)
  · obtain ⟨l, hl⟩ : ∃ l : List InstOffsets, insts code 0 = l.map .ok := by
      generalize insts code 0 = items at h
      induction items with
      | nil => exact ⟨[], rfl⟩
      | cons r items ih =>
        obtain ⟨i, rfl⟩ := h r List.mem_cons_self
        obtain ⟨l, rfl⟩ := ih fun r hr => h r (List.mem_cons_of_mem _ hr)
        exact ⟨i :: l, rfl⟩
    exact ⟨l, hl, (insts_eq_map_ok.mp hl).unsafeInsts_eq⟩

/-- An operand of nine bytes for a number that needs one. -/
theorem stream_codec_long :
    insts (writeAll [.pick 7, .branch (-1)]) 0 = [.ok ⟨0, .pick 7, 2⟩, .ok ⟨2, .branch (-1), 4⟩] ∧
    ∃ l, insts [8, 0, 7, 0, 0, 0, 0, 0, 0, 0] 0 = l.map .ok ∧
      unsafeInsts [8, 0, 7, 0, 0, 0, 0, 0, 0, 0] l.length 0 = some l := by
  refine ⟨stream_codec.1 [.pick 7, .branch (-1)] ?_, stream_codec.2 _ ?_⟩
  · intro inst hinst
    rcases List.mem_cons.mp hinst with rfl | hinst
    · show 7 < 2^64
      decide
    · obtain rfl := List.mem_singleton.mp hinst
      show -2^63 ≤ (-1 : ℤ) ∧ (-1 : ℤ) < 2^63
      decide
  · have hcode : insts [8, 0, 7, 0, 0, 0, 0, 0, 0, 0] 0 = [.ok ⟨0, .pick 7, 10⟩] := by decide
    rw [hcode]
    intro r hr
    exact ⟨_, List.mem_singleton.mp hr⟩

end Dolang.Bytecode
