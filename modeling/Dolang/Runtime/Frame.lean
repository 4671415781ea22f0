import Dolang.Lib.Safe
import Dolang.Runtime.Load

/-!
# Call frames and upvar records

The frames and upvar records of `dolang-runtime/src/frame.rs`, with the operations that
`dolang-runtime/src/interp.rs` has on them. The runtime does not check its indices: here an access
out of bounds is a panic. An access to an operand also has to stay above the locals and an access to
a local below the operands, which the runtime's slots do not tell apart. Upvar records live in a
heap and are shared by pointers, which are positions in it. `unpackUnchecked` puts the arguments of
a call where a function's code expects them.
-/

namespace Dolang.Bytecode

/-- Treatment of leftover positional items. -/
def Variadic.positional : Variadic → Rest
  | .discard => .discard
  | .capture => .capture
  | .split pos _ => pos

/-- Treatment of leftover keyed items. -/
def Variadic.keyed : Variadic → Rest
  | .discard => .discard
  | .capture => .capture
  | .split _ key => key

end Dolang.Bytecode

namespace Dolang.Runtime

open Dolang.Rust Dolang.Bytecode

/-! ## Values and errors -/

/-- A value. Objects that the interpreter itself neither makes nor inspects have a number. -/
inductive Value where
  | const (v : ConstValue)
  | function (id : Nat) (upvars : Option Nat)
  | module (upvars : Nat) (syms : List (Option SymObj))
  | tuple (items : List Value)
  | record (entries : List (Option SymObj × Value))
  | object (id : Nat)
  | uninit

/-- `Value::NIL`. -/
def Value.nil : Value := .const .nil

def Value.isUninit : Value → Bool
  | .uninit => true
  | _ => false

/-- The errors that end a frame. -/
inductive Thrown where
  /-- A jump to the guard whose marker record is `target`. -/
  | nonLocalJump (indicator : Nat) (target : Nat)
  | staleBranch
  | elseFallthrough (kind : Nat)
  | unexpectedPositional (pos : Nat)
  | unexpectedKey (sym : SymObj)
  | duplicateKey (sym : SymObj)
  | missingPositional (pos : Nat)
  | missingKey (sym : SymObj)
  /-- An error of an operation on values. -/
  | raised (id : Nat)

/-! ## Upvar records -/

/-- `Upvars`: a record of captured variables and the record around it. -/
structure Upvars where
  parent : Option Nat
  vars : List Value
  stale : Bool

/-- The records, by pointer. A record is not reused while something points to it. -/
abbrev Heap := List Upvars

/-- `Upvars::at_depth`: a pointer to the record some levels up. -/
def Upvars.atDepth (heap : Heap) : Option Nat → Nat → Exec Thrown Nat
  | this, 0 => unwrap this
  | this, depth + 1 => do
    let p ← unwrap this
    let r ← unwrap heap[p]?
    Upvars.atDepth heap r.parent depth

/-- `Upvars::get_unchecked`. -/
def Upvars.getUnchecked (heap : Heap) (this : Option Nat) (index depth : Nat) :
    Exec Thrown Value := do
  let p ← Upvars.atDepth heap this depth
  let r ← unwrap heap[p]?
  unwrap r.vars[index]?

/-- `Upvars::set_unchecked`. -/
def Upvars.setUnchecked (heap : Heap) (this : Option Nat) (index depth : Nat) (value : Value) :
    Exec Thrown Heap := do
  let p ← Upvars.atDepth heap this depth
  let r ← unwrap heap[p]?
  let _ ← unwrap r.vars[index]?
  return heap.set p { r with vars := r.vars.set index value }

/-! ## Frames -/

/-- Where a frame is: before an instruction, waiting for an operation of one, or at its end. -/
inductive Status where
  | running
  | waiting (i : InstOffsets)
  | done

/-- `CallFrame`. The operands start at `base`. -/
structure CallFrame where
  func : Nat
  base : Nat
  upvars : Option Nat
  /-- The position of the decoder in the function's code. -/
  pc : Nat
  sp : Nat
  slots : List Value
  status : Status

/-- `CallFrame::new`. -/
def CallFrame.new (program : Program) (func : Nat) (upvars : Option Nat) :
    Exec Thrown CallFrame := do
  let (info, slots) ← unwrap program.funcs[func]?
  return {
    func
    base := info.locals
    upvars
    pc := 0
    sp := info.locals
    slots := List.replicate slots .nil
    status := .running }

/-- `CallFrame::push`. -/
def CallFrame.push (f : CallFrame) (value : Value) : Exec Thrown CallFrame :=
  if f.base ≤ f.sp ∧ f.sp < f.slots.length then
    .ok { f with slots := f.slots.set f.sp value, sp := f.sp + 1 }
  else abort

/-- `CallFrame::pop`. -/
def CallFrame.pop (f : CallFrame) : Exec Thrown (Value × CallFrame) :=
  if f.base < f.sp ∧ f.sp ≤ f.slots.length then
    .ok (f.slots.getD (f.sp - 1) .nil, { f with slots := f.slots.set (f.sp - 1) .nil, sp := f.sp - 1 })
  else abort

/-- `CallFrame::discard`. -/
def CallFrame.discard (f : CallFrame) (count : Nat) : Exec Thrown CallFrame :=
  if f.base + count ≤ f.sp ∧ f.sp ≤ f.slots.length then
    .ok { f with
      slots := f.slots.mapIdx fun i v => if f.sp - count ≤ i ∧ i < f.sp then .nil else v
      sp := f.sp - count }
  else abort

/-- An operand by its slot. -/
def CallFrame.operand (f : CallFrame) (i : Nat) : Exec Thrown Value :=
  if f.base ≤ i ∧ i < f.slots.length then .ok (f.slots.getD i .nil) else abort

/-- `CallFrame::pick`. -/
def CallFrame.pick (f : CallFrame) (depth : Nat) : Exec Thrown CallFrame := do
  -- The position is computed in `usize`, where a negative one is no slot.
  let i ← unwrap (checkedSub f.sp (depth + 1))
  let value ← f.operand i
  f.push value

/-- `CallFrame::dup`. -/
def CallFrame.dup (f : CallFrame) : Exec Thrown CallFrame := f.pick 0

/-- `CallFrame::swap`. -/
def CallFrame.swap (f : CallFrame) (i j : Nat) : Exec Thrown CallFrame := do
  let a ← unwrap (checkedSub f.sp (i + 1))
  let b ← unwrap (checkedSub f.sp (j + 1))
  let x ← f.operand a
  let y ← f.operand b
  return { f with slots := (f.slots.set a y).set b x }

/-- `CallFrame::load`, of a local. -/
def CallFrame.load (f : CallFrame) (index : Nat) : Exec Thrown Value :=
  if index < f.base then unwrap f.slots[index]? else abort

/-- `CallFrame::store`, to a local. -/
def CallFrame.store (f : CallFrame) (index : Nat) (value : Value) : Exec Thrown CallFrame :=
  if index < f.base ∧ index < f.slots.length then
    .ok { f with slots := f.slots.set index value }
  else abort

/-- `CallFrame::take`, of an operand. -/
def CallFrame.take (f : CallFrame) (index : Nat) : Exec Thrown (Value × CallFrame) := do
  let value ← f.operand index
  return (value, { f with slots := f.slots.set index .nil })

/-- The slots that an unpack writes to. -/
def CallFrame.reserve (f : CallFrame) (count : Nat) : Exec Thrown CallFrame :=
  if f.base ≤ f.sp ∧ f.sp + count ≤ f.slots.length then .ok { f with sp := f.sp + count }
  else abort

/-- Values that an unpack has written to the topmost slots. -/
def CallFrame.fill (f : CallFrame) (count : Nat) (items : List Value) : CallFrame :=
  { f with slots := f.slots.mapIdx fun i v =>
      if f.sp - count ≤ i ∧ i < f.sp then items.getD (i - (f.sp - count)) v else v }

/-- `UnsafeInstDecoder::seek`. -/
def CallFrame.seek (f : CallFrame) (offset : Int) : Exec Thrown CallFrame := do
  let pc ← unwrap (checkedAddSigned f.pc offset)
  return { f with pc }

/-! ## When the operations stay in bounds -/

section

variable {f : CallFrame} {P : CallFrame → Prop}

theorem safe_push {value : Value} :
    Safe (f.push value) P ↔ (f.base ≤ f.sp ∧ f.sp < f.slots.length) ∧
      P { f with slots := f.slots.set f.sp value, sp := f.sp + 1 } := by
  rw [CallFrame.push, safe_ite_abort, safe_ok]

theorem safe_pop {P : Value × CallFrame → Prop} :
    Safe f.pop P ↔ (f.base < f.sp ∧ f.sp ≤ f.slots.length) ∧
      P (f.slots.getD (f.sp - 1) .nil,
        { f with slots := f.slots.set (f.sp - 1) .nil, sp := f.sp - 1 }) := by
  rw [CallFrame.pop, safe_ite_abort, safe_ok]

theorem safe_discard {count : Nat} :
    Safe (f.discard count) P ↔ (f.base + count ≤ f.sp ∧ f.sp ≤ f.slots.length) ∧
      P { f with
        slots := f.slots.mapIdx fun i v => if f.sp - count ≤ i ∧ i < f.sp then .nil else v
        sp := f.sp - count } := by
  rw [CallFrame.discard, safe_ite_abort, safe_ok]

theorem safe_operand {i : Nat} {P : Value → Prop} :
    Safe (f.operand i) P ↔ (f.base ≤ i ∧ i < f.slots.length) ∧ P (f.slots.getD i .nil) := by
  rw [CallFrame.operand, safe_ite_abort, safe_ok]

/-- A position in the stack, counted from the top. -/
theorem safe_fromTop {ε : Type} {n : Nat} {P : Nat → Prop} :
    Safe (unwrap (checkedSub f.sp n) : Exec ε Nat) P ↔ n ≤ f.sp ∧ P (f.sp - n) := by
  simp only [safe_unwrap, checkedSub_eq_some, and_assoc, exists_and_left, exists_eq_left']

theorem safe_pick {depth : Nat} (hdepth : f.base + depth + 1 ≤ f.sp)
    (hroom : f.sp < f.slots.length)
    (hP : ∀ slots, slots.length = f.slots.length → P { f with slots, sp := f.sp + 1 }) :
    Safe (f.pick depth) P := by
  simp only [CallFrame.pick, safe_bind, safe_fromTop, safe_operand, safe_push]
  exact ⟨by omega, ⟨by omega, by omega⟩, ⟨by omega, hroom⟩, hP _ (List.length_set ..)⟩

theorem safe_swap {i j : Nat} (hi : f.base + i + 1 ≤ f.sp) (hj : f.base + j + 1 ≤ f.sp)
    (hroom : f.sp ≤ f.slots.length)
    (hP : ∀ slots, slots.length = f.slots.length → P { f with slots }) :
    Safe (f.swap i j) P := by
  simp only [CallFrame.swap, safe_bind, safe_fromTop, safe_operand, safe_pure]
  exact ⟨by omega, by omega, ⟨by omega, by omega⟩, ⟨by omega, by omega⟩, hP _ (by simp)⟩

theorem safe_load {index : Nat} {P : Value → Prop} (hbase : index < f.base)
    (hlen : f.base ≤ f.slots.length) (hP : ∀ v, P v) : Safe (f.load index) P := by
  rw [CallFrame.load, if_pos hbase, safe_unwrap]
  exact ⟨_, List.getElem?_eq_getElem (by omega), hP _⟩

theorem safe_store {index : Nat} {value : Value} :
    Safe (f.store index value) P ↔ (index < f.base ∧ index < f.slots.length) ∧
      P { f with slots := f.slots.set index value } := by
  rw [CallFrame.store, safe_ite_abort, safe_ok]

theorem safe_take {index : Nat} {P : Value × CallFrame → Prop} :
    Safe (f.take index) P ↔ (f.base ≤ index ∧ index < f.slots.length) ∧
      P (f.slots.getD index .nil, { f with slots := f.slots.set index .nil }) := by
  rw [CallFrame.take, safe_bind, safe_operand, safe_pure]

theorem safe_reserve {count : Nat} :
    Safe (f.reserve count) P ↔ (f.base ≤ f.sp ∧ f.sp + count ≤ f.slots.length) ∧
      P { f with sp := f.sp + count } := by
  rw [CallFrame.reserve, safe_ite_abort, safe_ok]

theorem safe_seek {offset : Int} :
    Safe (f.seek offset) P ↔ ∃ pc, checkedAddSigned f.pc offset = some pc ∧ P { f with pc } := by
  rw [CallFrame.seek, safe_bind, safe_unwrap]
  simp only [safe_pure]

end

/-! ## Arguments -/

/-- An argument of a call. A keyed one comes with the position among the signature's keys that a
binary search has found for it. -/
inductive CallArg where
  | pos (value : Value)
  | key (sym : SymObj) (found : Option Nat) (value : Value)

/-- The answers that the binary search of `sym_offset` may give: any key with the symbol, and none
only if there is no such key. -/
def Unpack.finds (u : Unpack) : CallArg → Bool
  | .pos _ => true
  | .key sym (some i) _ => u.keys[i]?.any (·.kind == .sym sym)
  | .key sym none _ => !u.keys.any (·.kind == .sym sym)

/-- `Unpack::sym_offset`, from the position of the key. -/
def Unpack.symOffset (u : Unpack) (found : Option Nat) : Option Nat :=
  found.map (· + u.required + u.optional.length)

/-- An argument slot. -/
def getSlot (slots : List Value) (i : Nat) : Exec Thrown Value := unwrap slots[i]?

/-- Sets an argument slot. -/
def setSlot (slots : List Value) (i : Nat) (value : Value) : Exec Thrown (List Value) :=
  if i < slots.length then .ok (slots.set i value) else abort

/-- The state of the loop over the arguments. -/
structure Unpacking where
  pos : Nat
  slots : List Value
  rest : Option (List (Option SymObj × Value))
  posRest : Option (List Value)
  keyRest : Option (List (SymObj × Value))

/-- The loop's body for a positional argument. -/
def unpackPos (u : Unpack) (offset : Nat) (st : Unpacking) (value : Value) :
    Exec Thrown Unpacking :=
  if st.pos = u.required + u.optional.length then
    if u.variadic = .capture then do
      let rest ← unwrap st.rest
      return { st with rest := some (rest ++ [(none, value)]) }
    else match u.variadic.positional with
      | .none => fail (.unexpectedPositional st.pos)
      | .discard => return st
      | .capture => do
        let posRest ← unwrap st.posRest
        return { st with posRest := some (posRest ++ [value]) }
  else do
    let slots ← setSlot st.slots (offset + st.pos) value
    return { st with slots, pos := st.pos + 1 }

/-- A keyed argument that no key takes. -/
def unpackExtraKey (u : Unpack) (st : Unpacking) (sym : SymObj) (value : Value) :
    Exec Thrown Unpacking :=
  if u.variadic = .capture then do
    let rest ← unwrap st.rest
    return { st with rest := some (rest ++ [(some sym, value)]) }
  else match u.variadic.keyed with
    | .none => fail (.unexpectedKey sym)
    | .discard => return st
    | .capture => do
      let keyRest ← unwrap st.keyRest
      return { st with keyRest := some (keyRest ++ [(sym, value)]) }

/-- The loop's body for a keyed argument. -/
def unpackKeyed (u : Unpack) (offset : Nat) (st : Unpacking) (sym : SymObj) (found : Option Nat)
    (value : Value) : Exec Thrown Unpacking :=
  match u.symOffset found with
  | some i => do
    let dest ← getSlot st.slots (offset + i)
    if dest.isUninit then do
      let slots ← setSlot st.slots (offset + i) value
      return { st with slots }
    else if u.variadic.keyed = .none then fail (.duplicateKey sym)
    else unpackExtraKey u st sym value
  | none => unpackExtraKey u st sym value

/-- The loop's body. -/
def unpackArg (u : Unpack) (offset : Nat) (st : Unpacking) : CallArg → Exec Thrown Unpacking
  | .pos value => unpackPos u offset st value
  | .key sym found value => unpackKeyed u offset st sym found value

/-- The loop over the defaults of optional positional parameters. -/
def unpackOptional (u : Unpack) (offset pos : Nat) (slots : List Value) :
    Exec Thrown (List Value) :=
  if pos - u.required ≤ u.optional.length then
    (u.optional.drop (pos - u.required)).zipIdx.foldlM
      (fun slots d => setSlot slots (offset + u.required + d.2) (.const d.1)) slots
  else abort

/-- The loop over the keys that were not given. -/
def unpackMissing (u : Unpack) (offset : Nat) (slots : List Value) : Exec Thrown (List Value) :=
  u.keys.zipIdx.foldlM (fun slots k => do
    let i := offset + (u.required + u.optional.length) + k.2
    let value ← getSlot slots i
    if value.isUninit then
      match k.1.default, k.1.kind with
      | some d, _ => setSlot slots i (.const d)
      | none, .sym sym => fail (.missingKey sym)
      | none, .const _ => abort
    else return slots) slots

/-- Stores the leftover items. -/
def unpackRests (u : Unpack) (offset : Nat) (st : Unpacking) (slots : List Value) :
    Exec Thrown (List Value) := do
  let restSlot := offset + (u.required + u.optional.length) + u.keys.length
  let slots ← match st.rest with
    | some rest => setSlot slots restSlot (.record rest)
    | none => .ok slots
  let (slots, restSlot) ← match st.posRest with
    | some values => do
      let slots ← setSlot slots restSlot (.tuple values)
      pure (slots, restSlot + 1)
    | none => .ok (slots, restSlot)
  match st.keyRest with
  | some entries => setSlot slots restSlot (.record (entries.map fun e => (some e.1, e.2)))
  | none => .ok slots

/-- `CallFrame::unpack_unchecked`. -/
def CallFrame.unpackUnchecked (program : Program) (f : CallFrame) (args : List CallArg) :
    Exec Thrown CallFrame := do
  let (func, slotMax) ← unwrap program.funcs[f.func]?
  let u ← unwrap program.unpacktab[func.sig]?
  let offset := func.locals
  if slotMax < func.locals + u.len ∨ f.slots.length < offset + u.len then abort
  let cleared := f.slots.mapIdx fun i v => if offset ≤ i ∧ i < offset + u.len then .uninit else v
  let split := u.variadic ≠ .capture
  let st ← args.foldlM (unpackArg u offset)
    { pos := 0
      slots := cleared
      rest := if u.variadic = .capture then some [] else none
      posRest := if u.variadic.positional = .capture ∧ split then some [] else none
      keyRest := if u.variadic.keyed = .capture ∧ split then some [] else none }
  if st.pos < u.required then fail (.missingPositional st.pos)
  let slots ← unpackOptional u offset st.pos st.slots
  let slots ← unpackMissing u offset slots
  let slots ← unpackRests u offset st slots
  return { f with slots, sp := offset + u.len }

/-! ## Arguments stay in their slots -/

theorem safe_setSlot {slots : List Value} {i : Nat} {value : Value} {P : List Value → Prop} :
    Safe (setSlot slots i value) P ↔ i < slots.length ∧ P (slots.set i value) := by
  rw [setSlot, safe_ite_abort, safe_ok]

theorem safe_getSlot {slots : List Value} {i : Nat} {P : Value → Prop} (hi : i < slots.length)
    (hP : ∀ v, P v) : Safe (getSlot slots i) P := by
  rw [getSlot, safe_unwrap]
  exact ⟨_, List.getElem?_eq_getElem hi, hP _⟩

/-- What the loop over the arguments keeps: positions below their number, the number of slots, and
a list for each kind of leftover that the signature captures. -/
structure Unpacking.Ok (u : Unpack) (n : Nat) (st : Unpacking) : Prop where
  pos : st.pos ≤ u.required + u.optional.length
  slots : st.slots.length = n
  rest : st.rest.isSome = decide (u.variadic = .capture)
  posRest : st.posRest.isSome = decide (u.variadic.positional = .capture ∧ u.variadic ≠ .capture)
  keyRest : st.keyRest.isSome = decide (u.variadic.keyed = .capture ∧ u.variadic ≠ .capture)

section

variable {u : Unpack} {offset n : Nat} {st : Unpacking}

/-- A list of leftovers is there if the signature captures them. -/
theorem isSome_ite {α : Type} {c : Prop} [Decidable c] (a : α) :
    (if c then some a else none).isSome = decide c := by
  split <;> rename_i h
  · exact (decide_eq_true h).symm
  · exact (decide_eq_false h).symm

/-- A leftover goes to the list that collects it. -/
theorem safe_unwrap_isSome {ε α : Type} {o : Option α} {P : α → Prop} (ho : o.isSome = true)
    (hP : ∀ a, P a) : Safe (unwrap o : Exec ε α) P := by
  obtain ⟨a, rfl⟩ := Option.isSome_iff_exists.mp ho
  exact safe_unwrap.mpr ⟨a, rfl, hP a⟩

theorem unpackPos_safe (h : st.Ok u n) (hn : offset + u.len ≤ n) (value : Value) :
    Safe (unpackPos u offset st value) (·.Ok u n) := by
  unfold unpackPos
  split
  · split
    · rename_i hcapture
      rw [safe_bind]
      apply safe_unwrap_isSome (h.rest.trans (decide_eq_true hcapture))
      intro rest
      exact safe_pure.mpr ⟨h.pos, h.slots, by simp [hcapture], h.posRest, h.keyRest⟩
    · rename_i hcapture
      split
      · exact safe_fail
      · exact safe_pure.mpr h
      · rename_i hpos
        have hsplit := And.intro hpos hcapture
        rw [safe_bind]
        apply safe_unwrap_isSome (h.posRest.trans (decide_eq_true hsplit))
        intro posRest
        exact safe_pure.mpr ⟨h.pos, h.slots, h.rest, by simp [hpos, hcapture], h.keyRest⟩
  · have hpos := h.pos
    have hslots := h.slots
    rw [safe_bind, safe_setSlot, safe_pure]
    unfold Unpack.len at hn
    exact ⟨by omega, by simp only; omega, by simpa using hslots, h.rest, h.posRest, h.keyRest⟩

theorem unpackExtraKey_safe (h : st.Ok u n) (sym : SymObj) (value : Value) :
    Safe (unpackExtraKey u st sym value) (·.Ok u n) := by
  unfold unpackExtraKey
  split
  · rename_i hcapture
    rw [safe_bind]
    apply safe_unwrap_isSome (h.rest.trans (decide_eq_true hcapture))
    intro rest
    exact safe_pure.mpr ⟨h.pos, h.slots, by simp [hcapture], h.posRest, h.keyRest⟩
  · rename_i hcapture
    split
    · exact safe_fail
    · exact safe_pure.mpr h
    · rename_i hkeyed
      have hsplit := And.intro hkeyed hcapture
      rw [safe_bind]
      apply safe_unwrap_isSome (h.keyRest.trans (decide_eq_true hsplit))
      intro keyRest
      exact safe_pure.mpr ⟨h.pos, h.slots, h.rest, h.posRest, by simp [hkeyed, hcapture]⟩

/-- A key that was found is one of the signature's. -/
theorem Unpack.finds_lt {sym : SymObj} {i : Nat} {value : Value}
    (h : u.finds (.key sym (some i) value) = true) : i < u.keys.length := by
  simp only [Unpack.finds] at h
  cases hkey : u.keys[i]? with
  | none =>
    rw [hkey] at h
    cases h
  | some key => exact (List.getElem?_eq_some_iff.mp hkey).1

theorem unpackArg_safe (h : st.Ok u n) (hn : offset + u.len ≤ n) {arg : CallArg}
    (harg : u.finds arg = true) : Safe (unpackArg u offset st arg) (·.Ok u n) := by
  cases arg with
  | pos value => exact unpackPos_safe h hn value
  | key sym found value =>
    cases found with
    | none => exact unpackExtraKey_safe h sym value
    | some i =>
      have hlt := Unpack.finds_lt harg
      have hslots := h.slots
      unfold Unpack.len at hn
      have hoffset : u.symOffset (some i) = some (i + u.required + u.optional.length) := rfl
      simp only [unpackArg, unpackKeyed, hoffset, safe_bind]
      apply safe_getSlot (by omega)
      intro dest
      split
      · rw [safe_bind, safe_setSlot, safe_pure]
        exact ⟨by omega, h.pos, by simpa using hslots, h.rest, h.posRest, h.keyRest⟩
      · split
        · exact safe_fail
        · exact unpackExtraKey_safe h sym value

theorem unpackOptional_safe {pos : Nat} {slots : List Value} (hslots : slots.length = n)
    (hn : offset + u.len ≤ n) (hpos : pos ≤ u.required + u.optional.length) :
    Safe (unpackOptional u offset pos slots) fun slots => slots.length = n := by
  rw [unpackOptional, if_pos (by omega)]
  refine Safe.foldlM (fun slots : List Value => slots.length = n) hslots fun slots d hd hslots => ?_
  -- The counter stays below the number of optional parameters.
  have hlt := (List.mem_zipIdx hd).2.1
  rw [List.length_drop] at hlt
  unfold Unpack.len at hn
  rw [safe_setSlot, List.length_set]
  exact ⟨by omega, hslots⟩

theorem unpackMissing_safe {slots : List Value} (hslots : slots.length = n)
    (hn : offset + u.len ≤ n) (hkeys : ∀ key ∈ u.keys, ∀ c, key.kind ≠ .const c) :
    Safe (unpackMissing u offset slots) fun slots => slots.length = n := by
  refine Safe.foldlM (fun slots : List Value => slots.length = n) hslots fun slots k hk hslots => ?_
  obtain ⟨-, hlt, hkey⟩ := List.mem_zipIdx hk
  unfold Unpack.len at hn
  simp only [safe_bind]
  apply safe_getSlot (by omega)
  intro value
  split
  · split
    · rw [safe_setSlot, List.length_set]
      exact ⟨by omega, hslots⟩
    · exact safe_fail
    · rename_i c _ hkind
      have hmem : k.1 ∈ u.keys := by
        rw [hkey]
        exact List.getElem_mem _
      exact absurd hkind (hkeys k.1 hmem c)
  · exact safe_pure.mpr hslots

theorem unpackRests_safe {slots : List Value} (h : st.Ok u n) (hslots : slots.length = n)
    (hn : offset + u.len ≤ n) : Safe (unpackRests u offset st slots) fun slots => slots.length = n := by
  have hcaptures : offset + (u.required + u.optional.length) + u.keys.length +
      u.variadic.captures ≤ n := by
    unfold Unpack.len at hn
    omega
  obtain ⟨-, -, hrest, hpos, hkey⟩ := h
  -- Each rest that is captured has a slot of its own behind the keys.
  have hcount : (if st.rest.isSome then 1 else 0) + (if st.posRest.isSome then 1 else 0) +
      (if st.keyRest.isSome then 1 else 0) = u.variadic.captures := by
    rw [hrest, hpos, hkey]
    cases u.variadic with
    | discard => rfl
    | capture => rfl
    | split a b => cases a <;> cases b <;> rfl
  have hexcl : st.rest.isSome = true → st.posRest = none ∧ st.keyRest = none := by
    intro hsome
    rw [hrest, decide_eq_true_iff] at hsome
    constructor
    · simpa [hsome] using hpos
    · simpa [hsome] using hkey
  unfold unpackRests
  cases hr : st.rest with
  | some rest =>
    obtain ⟨hp, hk⟩ := hexcl (by rw [hr]; rfl)
    simp only [hr, hp, hk, Option.isSome_some, Option.isSome_none, if_true] at hcount
    simp only [hp, hk, safe_bind, safe_setSlot, safe_ok, List.length_set]
    exact ⟨by simp at hcount; omega, hslots⟩
  | none =>
    rw [hr] at hcount
    cases hp : st.posRest <;> cases hk : st.keyRest <;>
      simp only [hp, hk, Option.isSome_some, Option.isSome_none, if_true, Bool.false_eq_true,
        if_false] at hcount <;>
      simp only [safe_bind, safe_setSlot, safe_ok, safe_pure, List.length_set] <;>
      omega

end

/-- Arguments are put into the slots above the locals, and the stack pointer behind them. -/
theorem unpackUnchecked_safe {program : Program} {f : CallFrame} {func : Func} {slotMax : Nat}
    {u : Unpack} {args : List CallArg} (hfunc : program.funcs[f.func]? = some (func, slotMax))
    (hu : program.unpacktab[func.sig]? = some u) (hslots : f.slots.length = slotMax)
    (hmax : func.locals + u.len ≤ slotMax) (hkeys : ∀ key ∈ u.keys, ∀ c, key.kind ≠ .const c)
    (hargs : args.all u.finds = true) :
    Safe (f.unpackUnchecked program args) fun f' => ∃ slots, slots.length = slotMax ∧
      f' = { f with slots, sp := func.locals + u.len } := by
  have hlen : f.slots.length = slotMax := hslots
  unfold CallFrame.unpackUnchecked
  simp only [hfunc, hu, unwrap, ok_bind]
  rw [if_neg (by omega)]
  simp only [safe_bind]
  -- The loop over the arguments, then the three steps that complete the slots.
  apply (Safe.foldlM (·.Ok u slotMax) (f := unpackArg u func.locals) ?_ ?_).mono
  · intro st hst
    split
    · exact safe_fail
    · simp only [safe_bind]
      apply (unpackOptional_safe hst.slots hmax hst.pos).mono
      intro slots hslots
      apply (unpackMissing_safe hslots hmax hkeys).mono
      intro slots hslots
      apply (unpackRests_safe hst hslots hmax).mono
      intro slots hslots
      exact safe_pure.mpr ⟨slots, hslots, rfl⟩
  · exact ⟨Nat.zero_le _, by simp [hlen], isSome_ite _, isSome_ite _, isSome_ite _⟩
  · intro st arg harg hst
    exact unpackArg_safe hst hmax (List.all_eq_true.mp hargs arg harg)

end Dolang.Runtime
