import Dolang.Bytecode.Varint
import Dolang.Lib.Rust

/-!
# Instructions

The instruction set of `dolang-bytecode/src/lib.rs`: opcodes, decoded instructions, the encoder
`Inst.write` and the decoder of `InstDecoder`, which reads from a position of a byte string. The
decoder's readers see only the bytes they pass (`Reader.Local`), so an instruction reads the same
from a string cut behind it (`next_take`), and a written instruction reads back anywhere
(`next_write`).
-/

namespace Dolang.Bytecode

open Dolang.Bytes Dolang.Rust

/-- An opcode. The first one is the byte `1` and each other one its predecessor plus one. -/
inductive Opcode where
  | add | call | methodCall | builtin | div | ediv | dup | pick | swap | loadConst | loadLocal
  | loadUpvar | get | set | index | assign | mod | mul | neg | not | bitNot | bitAnd | bitOr
  | bitXor | pop | eq | ne | gt | lt | gte | lte | storeLocal | storeUpvar | sub | pushUpvars
  | popUpvars | close | ret | branch | branchTrue | branchFalse | reify | next | unpack | nlGuard
  | nlBranch | shl | shr | unpackBranch | elseFallthrough
  deriving DecidableEq, Repr

/-- The opcodes by the byte that encodes them, from `1`. -/
def opcodeTable : List Opcode :=
  [.add, .call, .methodCall, .builtin, .div, .ediv, .dup, .pick, .swap, .loadConst, .loadLocal,
   .loadUpvar, .get, .set, .index, .assign, .mod, .mul, .neg, .not, .bitNot, .bitAnd, .bitOr,
   .bitXor, .pop, .eq, .ne, .gt, .lt, .gte, .lte, .storeLocal, .storeUpvar, .sub, .pushUpvars,
   .popUpvars, .close, .ret, .branch, .branchTrue, .branchFalse, .reify, .next, .unpack, .nlGuard,
   .nlBranch, .shl, .shr, .unpackBranch, .elseFallthrough]

/-- The byte that encodes an opcode. -/
def Opcode.toByte (op : Opcode) : UInt8 := UInt8.ofNat (op.ctorIdx + 1)

/-- `Opcode::decode` of a byte. -/
def Opcode.ofByte (b : UInt8) : Option Opcode :=
  if b = 0 then none else opcodeTable[b.toNat - 1]?

/-- A decoded instruction. -/
inductive Inst where
  | add
  | call (sig : Nat)
  | methodCall (sym : Nat) (sig : Nat)
  | builtin (idx : Nat) (sig : Nat)
  | div | ediv | dup
  | pick (n : Nat)
  | swap (i : Nat) (j : Nat)
  | loadConst (id : Nat)
  | loadLocal (index : Nat)
  | loadUpvar (index : Nat) (depth : Nat)
  | get (sym : Nat)
  | set (sym : Nat)
  | index | assign | mod | mul | neg | not | bitNot | bitAnd | bitOr | bitXor | pop | eq | ne | gt
  | lt | gte | lte
  | storeLocal (index : Nat)
  | storeUpvar (index : Nat) (depth : Nat)
  | sub
  | pushUpvars (count : Nat)
  | popUpvars
  | close (func : Nat)
  | ret
  | branch (offset : Int)
  | branchTrue (offset : Int)
  | branchFalse (offset : Int)
  | reify (pack : Nat)
  | next
  | unpack (unpack : Nat)
  | nlGuard (func : Nat)
  | nlBranch (depth : Nat) (indicator : Nat)
  | shl | shr
  | unpackBranch (unpack : Nat) (offset : Int)
  | elseFallthrough (kind : Nat)
  deriving DecidableEq, Repr

/-- What goes wrong while decoding, with the offset it is found at. A cursor over a byte string has
no input error besides its end, so `DecError::Io` is not among them. -/
inductive DecError where
  | invalidOpcode (offset : Nat)
  | truncated (offset : Nat)
  | integerOverflow (offset : Nat)
  deriving DecidableEq, Repr

/-- A reader of a byte string from a position, to a value and the position after it. -/
abbrev Reader (α : Type) := List UInt8 → Nat → Except DecError (α × Nat)

/-- `InstDecoder::usize`. -/
def readUsize : Reader Nat := fun code pos =>
  match decodeUVar code pos with
  | none => .error (.truncated pos)
  | some (v, after) => if v ≤ usizeMax then .ok (v, after) else .error (.integerOverflow pos)

/-- `InstDecoder::isize`. -/
def readIsize : Reader Int := fun code pos =>
  match decodeIVar code pos with
  | none => .error (.truncated pos)
  | some (v, after) =>
    if -2^63 ≤ v ∧ v < 2^63 then .ok (v, after) else .error (.integerOverflow pos)

/-- An instruction with one unsigned immediate. -/
def read1 (inst : Nat → Inst) : Reader Inst := fun code pos => do
  let (a, pos) ← readUsize code pos
  return (inst a, pos)

/-- An instruction with two unsigned immediates. -/
def read2 (inst : Nat → Nat → Inst) : Reader Inst := fun code pos => do
  let (a, pos) ← readUsize code pos
  let (b, pos) ← readUsize code pos
  return (inst a b, pos)

/-- An instruction with a branch displacement. -/
def readBranch (inst : Int → Inst) : Reader Inst := fun code pos => do
  let (d, pos) ← readIsize code pos
  return (inst d, pos)

/-- An instruction with an unsigned immediate and a branch displacement. -/
def readUnpackBranch (inst : Nat → Int → Inst) : Reader Inst := fun code pos => do
  let (a, pos) ← readUsize code pos
  let (d, pos) ← readIsize code pos
  return (inst a d, pos)

/-- The immediates of an instruction, after its opcode. -/
def readOperands (op : Opcode) : Reader Inst := fun code pos =>
  match op with
  | .add => .ok (.add, pos)
  | .call => read1 .call code pos
  | .methodCall => read2 .methodCall code pos
  | .builtin => read2 .builtin code pos
  | .div => .ok (.div, pos)
  | .ediv => .ok (.ediv, pos)
  | .dup => .ok (.dup, pos)
  | .pick => read1 .pick code pos
  | .swap => read2 .swap code pos
  | .loadConst => read1 .loadConst code pos
  | .loadLocal => read1 .loadLocal code pos
  | .loadUpvar => read2 .loadUpvar code pos
  | .get => read1 .get code pos
  | .set => read1 .set code pos
  | .index => .ok (.index, pos)
  | .assign => .ok (.assign, pos)
  | .mod => .ok (.mod, pos)
  | .mul => .ok (.mul, pos)
  | .neg => .ok (.neg, pos)
  | .not => .ok (.not, pos)
  | .bitNot => .ok (.bitNot, pos)
  | .bitAnd => .ok (.bitAnd, pos)
  | .bitOr => .ok (.bitOr, pos)
  | .bitXor => .ok (.bitXor, pos)
  | .pop => .ok (.pop, pos)
  | .eq => .ok (.eq, pos)
  | .ne => .ok (.ne, pos)
  | .gt => .ok (.gt, pos)
  | .lt => .ok (.lt, pos)
  | .gte => .ok (.gte, pos)
  | .lte => .ok (.lte, pos)
  | .storeLocal => read1 .storeLocal code pos
  | .storeUpvar => read2 .storeUpvar code pos
  | .sub => .ok (.sub, pos)
  | .pushUpvars => read1 .pushUpvars code pos
  | .popUpvars => .ok (.popUpvars, pos)
  | .close => read1 .close code pos
  | .ret => .ok (.ret, pos)
  | .branch => readBranch .branch code pos
  | .branchTrue => readBranch .branchTrue code pos
  | .branchFalse => readBranch .branchFalse code pos
  | .reify => read1 .reify code pos
  | .next => .ok (.next, pos)
  | .unpack => read1 .unpack code pos
  | .nlGuard => read1 .nlGuard code pos
  | .nlBranch => read2 .nlBranch code pos
  | .shl => .ok (.shl, pos)
  | .shr => .ok (.shr, pos)
  | .unpackBranch => readUnpackBranch .unpackBranch code pos
  | .elseFallthrough => read1 .elseFallthrough code pos

/-- `InstDecoder::next`: nothing at the end of the string, otherwise an error or the instruction at
the position and the position after it. -/
def next (code : List UInt8) (pos : Nat) : Option (Except DecError (Inst × Nat)) :=
  match code[pos]? with
  | none => none
  | some b =>
    match Opcode.ofByte b with
    | none => some (.error (.invalidOpcode pos))
    | some op => some (readOperands op code (pos + 1))

/-- An instruction with the offsets before and after it. -/
structure InstOffsets where
  before : Nat
  inst : Inst
  after : Nat
  deriving DecidableEq, Repr

/-- The instructions from a position on, with a bound on their number. Every consumer stops at the
first error, so the sequence ends there. -/
def instsFrom (code : List UInt8) : Nat → Nat → List (Except DecError InstOffsets)
  | 0, _ => []
  | fuel + 1, pos =>
    match next code pos with
    | none => []
    | some (.error e) => [.error e]
    | some (.ok (inst, after)) => .ok ⟨pos, inst, after⟩ :: instsFrom code fuel after

/-- `FuncVerifier::insts`. An instruction has at least one byte, so there are no more of them than
bytes. -/
def insts (code : List UInt8) (start : Nat) : List (Except DecError InstOffsets) :=
  instsFrom code (code.length - start) start

/-- `Inst::write`. -/
def Inst.write : Inst → List UInt8
  | .add => [Opcode.add.toByte]
  | .call sig => [Opcode.call.toByte] ++ encodeUVar sig
  | .methodCall sym sig => [Opcode.methodCall.toByte] ++ encodeUVar sym ++ encodeUVar sig
  | .builtin idx sig => [Opcode.builtin.toByte] ++ encodeUVar idx ++ encodeUVar sig
  | .div => [Opcode.div.toByte]
  | .ediv => [Opcode.ediv.toByte]
  | .dup => [Opcode.dup.toByte]
  | .pick n => [Opcode.pick.toByte] ++ encodeUVar n
  | .swap i j => [Opcode.swap.toByte] ++ encodeUVar i ++ encodeUVar j
  | .loadConst id => [Opcode.loadConst.toByte] ++ encodeUVar id
  | .loadLocal idx => [Opcode.loadLocal.toByte] ++ encodeUVar idx
  | .loadUpvar idx depth => [Opcode.loadUpvar.toByte] ++ encodeUVar idx ++ encodeUVar depth
  | .get sym => [Opcode.get.toByte] ++ encodeUVar sym
  | .set sym => [Opcode.set.toByte] ++ encodeUVar sym
  | .index => [Opcode.index.toByte]
  | .assign => [Opcode.assign.toByte]
  | .mod => [Opcode.mod.toByte]
  | .mul => [Opcode.mul.toByte]
  | .neg => [Opcode.neg.toByte]
  | .not => [Opcode.not.toByte]
  | .bitNot => [Opcode.bitNot.toByte]
  | .bitAnd => [Opcode.bitAnd.toByte]
  | .bitOr => [Opcode.bitOr.toByte]
  | .bitXor => [Opcode.bitXor.toByte]
  | .pop => [Opcode.pop.toByte]
  | .eq => [Opcode.eq.toByte]
  | .ne => [Opcode.ne.toByte]
  | .gt => [Opcode.gt.toByte]
  | .lt => [Opcode.lt.toByte]
  | .gte => [Opcode.gte.toByte]
  | .lte => [Opcode.lte.toByte]
  | .storeLocal idx => [Opcode.storeLocal.toByte] ++ encodeUVar idx
  | .storeUpvar idx depth => [Opcode.storeUpvar.toByte] ++ encodeUVar idx ++ encodeUVar depth
  | .sub => [Opcode.sub.toByte]
  | .pushUpvars count => [Opcode.pushUpvars.toByte] ++ encodeUVar count
  | .popUpvars => [Opcode.popUpvars.toByte]
  | .close func => [Opcode.close.toByte] ++ encodeUVar func
  | .ret => [Opcode.ret.toByte]
  | .branch offset => [Opcode.branch.toByte] ++ encodeIVar offset
  | .branchTrue offset => [Opcode.branchTrue.toByte] ++ encodeIVar offset
  | .branchFalse offset => [Opcode.branchFalse.toByte] ++ encodeIVar offset
  | .reify pack => [Opcode.reify.toByte] ++ encodeUVar pack
  | .next => [Opcode.next.toByte]
  | .unpack id => [Opcode.unpack.toByte] ++ encodeUVar id
  | .nlGuard func => [Opcode.nlGuard.toByte] ++ encodeUVar func
  | .nlBranch depth indicator => [Opcode.nlBranch.toByte] ++ encodeUVar depth ++ encodeUVar indicator
  | .shl => [Opcode.shl.toByte]
  | .shr => [Opcode.shr.toByte]
  | .unpackBranch id offset => [Opcode.unpackBranch.toByte] ++ encodeUVar id ++ encodeIVar offset
  | .elseFallthrough kind => [Opcode.elseFallthrough.toByte] ++ encodeUVar kind

/-- The immediates of an instruction are `usize` and `isize` values. -/
def Inst.Fits : Inst → Prop
  | .call sig => sig < 2^64
  | .methodCall sym sig => sym < 2^64 ∧ sig < 2^64
  | .builtin idx sig => idx < 2^64 ∧ sig < 2^64
  | .pick n => n < 2^64
  | .swap i j => i < 2^64 ∧ j < 2^64
  | .loadConst id => id < 2^64
  | .loadLocal idx => idx < 2^64
  | .loadUpvar idx depth => idx < 2^64 ∧ depth < 2^64
  | .get sym => sym < 2^64
  | .set sym => sym < 2^64
  | .storeLocal idx => idx < 2^64
  | .storeUpvar idx depth => idx < 2^64 ∧ depth < 2^64
  | .pushUpvars count => count < 2^64
  | .close func => func < 2^64
  | .branch offset => (-2^63 ≤ offset ∧ offset < 2^63)
  | .branchTrue offset => (-2^63 ≤ offset ∧ offset < 2^63)
  | .branchFalse offset => (-2^63 ≤ offset ∧ offset < 2^63)
  | .reify pack => pack < 2^64
  | .unpack id => id < 2^64
  | .nlGuard func => func < 2^64
  | .nlBranch depth indicator => depth < 2^64 ∧ indicator < 2^64
  | .unpackBranch id offset => id < 2^64 ∧ (-2^63 ≤ offset ∧ offset < 2^63)
  | .elseFallthrough kind => kind < 2^64
  | _ => True

/-! ## Opcodes -/

/-- Every opcode decodes from its byte. -/
@[simp]
theorem Opcode.ofByte_toByte (op : Opcode) : Opcode.ofByte op.toByte = some op := by
  cases op <;> rfl

/-! ## What a reader sees -/

/-- A reader moves forward inside the string and sees only the bytes it passes. -/
def Reader.Local {α : Type} (r : Reader α) : Prop :=
  ∀ code pos a after, r code pos = .ok (a, after) → pos ≤ code.length →
    pos ≤ after ∧ after ≤ code.length ∧ ∀ e, after ≤ e → r (code.take e) pos = .ok (a, after)

theorem readUsize_eq_ok {code : List UInt8} {pos v after : Nat}
    (h : readUsize code pos = .ok (v, after)) : decodeUVar code pos = some (v, after) := by
  unfold readUsize at h
  split at h
  · cases h
  · split_ifs at h
    cases h
    assumption

theorem readIsize_eq_ok {code : List UInt8} {pos after : Nat} {v : Int}
    (h : readIsize code pos = .ok (v, after)) :
    ∃ u, decodeUVar code pos = some (u, after) ∧ zig u = v := by
  unfold readIsize at h
  split at h
  · cases h
  · rename_i v' after' hdec
    split_ifs at h
    cases h
    obtain ⟨⟨u, after''⟩, hu, heq⟩ := Option.map_eq_some_iff.mp hdec
    cases heq
    exact ⟨u, hu, rfl⟩

theorem readUsize_local : readUsize.Local := by
  intro code pos v after h _
  have hdec := readUsize_eq_ok h
  obtain ⟨hpos, hafter, hv⟩ := decodeUVar_bounds hdec
  refine ⟨by omega, hafter, ?_⟩
  intro e he
  unfold readUsize
  rw [decodeUVar_take hdec he]
  exact if_pos (by unfold usizeMax; omega)

theorem readIsize_local : readIsize.Local := by
  intro code pos v after h _
  obtain ⟨u, hdec, rfl⟩ := readIsize_eq_ok h
  obtain ⟨hpos, hafter, hu⟩ := decodeUVar_bounds hdec
  refine ⟨by omega, hafter, ?_⟩
  intro e he
  unfold readIsize decodeIVar
  rw [decodeUVar_take hdec he]
  exact if_pos (zig_bounds hu)

/-- Reading one value after another is local when both readers are. -/
theorem Reader.Local.bind {α β : Type} {r : Reader α} {f : α → Reader β} (hr : r.Local)
    (hf : ∀ a, (f a).Local) :
    Reader.Local (fun code pos => do
      let (a, pos) ← r code pos
      f a code pos) := by
  intro code pos b after h hpos
  simp only at h ⊢
  cases hra : r code pos with
  | error e =>
    rw [hra] at h
    cases h
  | ok p =>
    obtain ⟨a, mid⟩ := p
    rw [hra] at h
    obtain ⟨h1, h2, h3⟩ := hr _ _ _ _ hra hpos
    obtain ⟨h4, h5, h6⟩ := hf a _ _ _ _ h h2
    refine ⟨h1.trans h4, h5, ?_⟩
    intro e he
    have hr' := h3 e (h4.trans he)
    have hf' := h6 e he
    rw [hr']
    exact hf'

theorem Reader.Local.pure {α : Type} (a : α) : Reader.Local fun _ pos => .ok (a, pos) := by
  intro code pos b after h hpos
  cases h
  exact ⟨le_refl _, hpos, fun _ _ => rfl⟩

theorem read1_local (inst : Nat → Inst) : (read1 inst).Local :=
  readUsize_local.bind fun a => .pure (inst a)

theorem read2_local (inst : Nat → Nat → Inst) : (read2 inst).Local :=
  readUsize_local.bind fun a => readUsize_local.bind fun b => .pure (inst a b)

theorem readBranch_local (inst : Int → Inst) : (readBranch inst).Local :=
  readIsize_local.bind fun d => .pure (inst d)

theorem readUnpackBranch_local (inst : Nat → Int → Inst) : (readUnpackBranch inst).Local :=
  readUsize_local.bind fun a => readIsize_local.bind fun d => .pure (inst a d)

/-- The immediates of every opcode are read locally. -/
theorem readOperands_local (op : Opcode) : (readOperands op).Local := by
  cases op <;>
    first
    | exact Reader.Local.pure _
    | exact read1_local _
    | exact read2_local _
    | exact readBranch_local _
    | exact readUnpackBranch_local _

/-- A decoded instruction comes from its opcode's immediates. -/
theorem next_eq_ok {code : List UInt8} {pos after : Nat} {inst : Inst}
    (h : next code pos = some (.ok (inst, after))) :
    ∃ b op, code[pos]? = some b ∧ Opcode.ofByte b = some op ∧
      readOperands op code (pos + 1) = .ok (inst, after) := by
  unfold next at h
  split at h
  · cases h
  · rename_i b hb
    split at h
    · cases h
    · rename_i op hop
      exact ⟨b, op, hb, hop, by simpa using h⟩

/-- An instruction has at least one byte and lies in the string. -/
theorem next_bounds {code : List UInt8} {pos after : Nat} {inst : Inst}
    (h : next code pos = some (.ok (inst, after))) : pos < after ∧ after ≤ code.length := by
  obtain ⟨b, op, hb, -, hread⟩ := next_eq_ok h
  have hlt : pos < code.length := (List.getElem?_eq_some_iff.mp hb).1
  obtain ⟨h1, h2, -⟩ := readOperands_local op _ _ _ _ hread (by omega)
  omega

/-- An instruction that ends before `e` is the same in the string cut at `e`. -/
theorem next_take {code : List UInt8} {pos after e : Nat} {inst : Inst}
    (h : next code pos = some (.ok (inst, after))) (he : after ≤ e) :
    next (code.take e) pos = some (.ok (inst, after)) := by
  obtain ⟨b, op, hb, hop, hread⟩ := next_eq_ok h
  have hlt : pos < code.length := (List.getElem?_eq_some_iff.mp hb).1
  obtain ⟨h1, -, h3⟩ := readOperands_local op _ _ _ _ hread (by omega)
  unfold next
  rw [List.getElem?_take_of_lt (by omega), hb]
  simp only [hop]
  rw [h3 e he]

/-- There is no instruction at or behind the end of the string. -/
theorem next_eq_none_iff {code : List UInt8} {pos : Nat} :
    next code pos = none ↔ code.length ≤ pos := by
  unfold next
  split
  · rename_i h
    simpa using h
  · rename_i b h
    have hlt := (List.getElem?_eq_some_iff.mp h).1
    split <;> simp <;> omega

/-- The sequence of instructions, one instruction at a time. -/
theorem insts_eq (code : List UInt8) (pos : Nat) :
    insts code pos =
      match next code pos with
      | none => []
      | some (.error e) => [.error e]
      | some (.ok (inst, after)) => .ok ⟨pos, inst, after⟩ :: insts code after := by
  have hfuel : ∀ n m p, code.length - p ≤ n → code.length - p ≤ m →
      instsFrom code n p = instsFrom code m p := by
    intro n
    induction n with
    | zero =>
      intro m p hn _
      have hnone : next code p = none := next_eq_none_iff.mpr (by omega)
      cases m with
      | zero => rfl
      | succ m => rw [instsFrom, instsFrom, hnone]
    | succ n ih =>
      intro m p hn hm
      cases m with
      | zero =>
        have hnone : next code p = none := next_eq_none_iff.mpr (by omega)
        rw [instsFrom, instsFrom, hnone]
      | succ m =>
        rw [instsFrom, instsFrom]
        cases hnext : next code p with
        | none => rfl
        | some r =>
          cases r with
          | error e => rfl
          | ok q =>
            obtain ⟨inst, after⟩ := q
            have hb := next_bounds hnext
            simp only
            rw [ih m after (by omega) (by omega)]
  unfold insts
  rw [hfuel (code.length - pos) (code.length - pos + 1) pos (le_refl _) (by omega), instsFrom]
  cases hnext : next code pos with
  | none => rfl
  | some r =>
    cases r with
    | error e => rfl
    | ok q =>
      obtain ⟨inst, after⟩ := q
      have hb := next_bounds hnext
      simp only
      rw [hfuel (code.length - pos) (code.length - after) after (by omega) (le_refl _)]

/-! ## Written instructions read back -/

/-- Reading a written `usize`. -/
theorem readUsize_write (pre post : List UInt8) {x : Nat} (hx : x < 2^64) :
    readUsize (pre ++ encodeUVar x ++ post) pre.length =
      .ok (x, (pre ++ encodeUVar x).length) := by
  unfold readUsize
  rw [decodeUVar_encodeUVar pre post hx]
  simp only [List.length_append, encodeUVar_length]
  exact if_pos (by unfold usizeMax; omega)

/-- Reading a written `isize`. -/
theorem readIsize_write (pre post : List UInt8) {x : Int} (hx : -2^63 ≤ x ∧ x < 2^63) :
    readIsize (pre ++ encodeIVar x ++ post) pre.length =
      .ok (x, (pre ++ encodeIVar x).length) := by
  unfold readIsize
  rw [decodeIVar_encodeIVar pre post hx.1 hx.2]
  simp only [List.length_append, encodeIVar, encodeUVar_length]
  exact if_pos hx

theorem read1_write (inst : Nat → Inst) (pre post : List UInt8) {a : Nat} (ha : a < 2^64) :
    read1 inst (pre ++ encodeUVar a ++ post) pre.length =
      .ok (inst a, (pre ++ encodeUVar a).length) := by
  unfold read1
  rw [readUsize_write pre post ha]
  rfl

theorem read2_write (inst : Nat → Nat → Inst) (pre post : List UInt8) {a b : Nat}
    (ha : a < 2^64) (hb : b < 2^64) :
    read2 inst (pre ++ (encodeUVar a ++ encodeUVar b) ++ post) pre.length =
      .ok (inst a b, (pre ++ (encodeUVar a ++ encodeUVar b)).length) := by
  unfold read2
  have h1 := readUsize_write pre (encodeUVar b ++ post) ha
  have h2 := readUsize_write (pre ++ encodeUVar a) post hb
  simp only [List.append_assoc] at h1 h2 ⊢
  rw [h1]
  simp only [bind, Except.bind]
  rw [h2]
  rfl

theorem readBranch_write (inst : Int → Inst) (pre post : List UInt8) {d : Int}
    (hd : -2^63 ≤ d ∧ d < 2^63) :
    readBranch inst (pre ++ encodeIVar d ++ post) pre.length =
      .ok (inst d, (pre ++ encodeIVar d).length) := by
  unfold readBranch
  rw [readIsize_write pre post hd]
  rfl

theorem readUnpackBranch_write (inst : Nat → Int → Inst) (pre post : List UInt8) {a : Nat}
    {d : Int} (ha : a < 2^64) (hd : -2^63 ≤ d ∧ d < 2^63) :
    readUnpackBranch inst (pre ++ (encodeUVar a ++ encodeIVar d) ++ post) pre.length =
      .ok (inst a d, (pre ++ (encodeUVar a ++ encodeIVar d)).length) := by
  unfold readUnpackBranch
  have h1 := readUsize_write pre (encodeIVar d ++ post) ha
  have h2 := readIsize_write (pre ++ encodeUVar a) post hd
  simp only [List.append_assoc] at h1 h2 ⊢
  rw [h1]
  simp only [bind, Except.bind]
  rw [h2]
  rfl

/-- An instruction is written as its opcode followed by bytes that its reader reads back. -/
theorem Inst.write_spec (inst : Inst) (h : inst.Fits) :
    ∃ op operands, inst.write = op.toByte :: operands ∧ ∀ pre post,
      readOperands op (pre ++ operands ++ post) pre.length =
        .ok (inst, (pre ++ operands).length) := by
  have simple : ∀ (op : Opcode) (i : Inst),
      (∀ code pos, readOperands op code pos = .ok (i, pos)) → ∀ pre post : List UInt8,
      readOperands op (pre ++ [] ++ post) pre.length = .ok (i, (pre ++ []).length) := by
    intro op i hop pre post
    rw [hop, List.append_nil]
  cases inst
  case call | pick | loadConst | loadLocal | get | set | storeLocal | pushUpvars | close | reify |
      unpack | nlGuard | elseFallthrough =>
    exact ⟨_, _, rfl, fun pre post => read1_write _ pre post h⟩
  case methodCall | builtin | swap | loadUpvar | storeUpvar | nlBranch =>
    exact ⟨_, _, rfl, fun pre post => read2_write _ pre post h.1 h.2⟩
  case branch | branchTrue | branchFalse =>
    exact ⟨_, _, rfl, fun pre post => readBranch_write _ pre post h⟩
  case unpackBranch =>
    exact ⟨_, _, rfl, fun pre post => readUnpackBranch_write _ pre post h.1 h.2⟩
  all_goals exact ⟨_, [], rfl, simple _ _ fun _ _ => rfl⟩

/-- A written instruction reads back at any position, whatever follows it. -/
theorem next_write (pre post : List UInt8) {inst : Inst} (h : inst.Fits) :
    next (pre ++ inst.write ++ post) pre.length =
      some (.ok (inst, pre.length + inst.write.length)) := by
  obtain ⟨op, operands, hwrite, hread⟩ := inst.write_spec h
  have hbyte := getElem?_append_cons pre (operands ++ post) op.toByte
  have hoperands := hread (pre ++ [op.toByte]) post
  simp only [List.append_assoc, List.singleton_append, List.length_append, List.length_cons,
    List.length_nil] at hoperands
  unfold next
  rw [hwrite]
  simp only [List.append_assoc, List.cons_append] at hbyte hoperands ⊢
  rw [hbyte]
  simp only [Opcode.ofByte_toByte, List.length_cons]
  rw [hoperands]

/-- A written instruction has at least its opcode. -/
theorem Inst.write_length_pos (inst : Inst) : 0 < inst.write.length := by
  cases inst <;> simp [Inst.write]

end Dolang.Bytecode
