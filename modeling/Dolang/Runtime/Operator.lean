import Dolang.Runtime.Compare
import Dolang.Runtime.Repr

/-!
# Operators of values

How the binary operators of values are dispatched, `value/mod.rs`, and the handlers of the objects that
stand for numbers, `object/int.rs` and `object/float.rs`: boxed integers and floats, and literals that
keep their text. Other objects are a parameter, with what they convert to and how they answer.

A literal is to behave as the plain number that it stands for. The handlers of a literal are those of
a boxed integer but for the reflected shifts, which shift the wrong way (`verbatim_iff`).
-/

namespace Dolang.Runtime.Operator

/-- The operators that share one dispatch. -/
inductive Op where
  | band | bor | bxor | shl | shr
  | add | sub | mul | div | ediv | mod
  | lt | lte | gt | gte
  deriving DecidableEq, Repr

/-- The handlers of an object: each operator with the object on its left, and with the object on its
right where that is no other operator with the object on its left. -/
inductive Handler where
  | forward (op : Op)
  | reflected (op : Op)
  | eq | req | ne | rne
  deriving DecidableEq, Repr

/-- The handler of the object on the right. -/
def Op.handler : Op → Handler
  | .lt => .forward .gt
  | .lte => .forward .gte
  | .gt => .forward .lt
  | .gte => .forward .lte
  | op => .reflected op

/-- An object: a boxed number, a literal with its text, or another one. -/
inductive Obj (O : Type) where
  | int (value : Integer)
  | f64 (value : F64)
  | verbatimInt (value : Integer) (text : String)
  | verbatimF64 (value : F64) (text : String)
  | other (o : O)

inductive Value (O : Type) where
  | prim (p : Prim)
  | object (o : Obj O)

/-- The other objects. -/
structure Objects (O : Type) where
  /-- The number of an instance of a class derived from a number's. -/
  toPrim : O → Option Prim
  handle : O → Handler → Value O → Except OpError (Value O)
  toBool : O → Except OpError Bool

section

variable {O : Type} (F : Floats) (objects : Objects O)

/-- An integer that goes into a word. -/
def packs (v : Integer) : Bool :=
  ((Signed.checked 64 v.toInt).bind Packed.fromI64).isSome

namespace Value

def fromInt (v : Integer) : Value O :=
  if packs v then .prim (.int v) else .object (.int v)

def fromF64 (v : F64) : Value O :=
  if (Packed.fromF64 v).isSome then .prim (.f64 (Packed.canonical v)) else .object (.f64 v)

def fromPrim : Prim → Value O
  | .int v => fromInt v
  | .f64 v => fromF64 v
  | p => .prim p

def fromBool (b : Bool) : Value O := .prim (.bool b)

def toPrim : Value O → Except OpError Prim
  | .prim p => .ok p
  | .object (.int v) => .ok (.int v)
  | .object (.f64 v) => .ok (.f64 v)
  | .object (.verbatimInt v _) => .ok (.int v)
  | .object (.verbatimF64 v _) => .ok (.f64 v)
  | .object (.other o) => orError (.typeError "not a primitive type") (objects.toPrim o)

end Value

/-- `Prim::op_bool`. -/
def primBool : Prim → Bool
  | .nil => false
  | .f64 v => !v.eq ⟨0⟩
  | .int v => v != 0
  | .bool b => b

namespace Value

def opBool : Value O → Except OpError Bool
  | .prim p => .ok (primBool p)
  | .object (.int v) | .object (.verbatimInt v _) => .ok (primBool (.int v))
  | .object (.f64 v) | .object (.verbatimF64 v _) => .ok (primBool (.f64 v))
  | .object (.other o) => objects.toBool o

end Value

/-! ### Handlers -/

/-- A primitive operator with the receiver on its left. -/
def binop (left : Prim) (right : Value O) (op : Prim → Prim → Except OpError Prim) : Except OpError (Value O) := do
  let prim ← right.toPrim objects
  let value ← op left prim
  return .fromPrim value

/-- A primitive operator with the receiver on its right. -/
def rbinop (left : Prim) (right : Value O) (op : Prim → Prim → Except OpError Prim) : Except OpError (Value O) := do
  let prim ← right.toPrim objects
  let value ← op prim left
  return .fromPrim value

/-- `Prim::op_*`. -/
def Op.prim : Op → Prim → Prim → Except OpError Prim
  | .band => Prim.opBand
  | .bor => Prim.opBor
  | .bxor => Prim.opBxor
  | .shl => Prim.opShl
  | .shr => Prim.opShr
  | .add => Prim.opAdd F
  | .sub => Prim.opSub F
  | .mul => Prim.opMul F
  | .div => Prim.opDiv F
  | .ediv => Prim.opEdiv F
  | .mod => Prim.opMod F
  | .lt => Prim.opLt
  | .lte => Prim.opLte
  | .gt => Prim.opGt
  | .gte => Prim.opGte

/-- What `Value::op_rband` and those like it do on primitive values. -/
def Op.primReversed : Op → Prim → Prim → Except OpError Prim
  | .sub => Prim.opRsub F
  | .div => Prim.opRdiv F
  | .ediv => Prim.opRediv F
  | .mod => Prim.opRmod F
  | .shl => fun left right => Prim.opShl right left
  | .shr => fun left right => Prim.opShr right left
  | op => op.prim F

/-- The order of a number and an operand, `op_lt`. -/
def numberLt (this : Prim) (other : Value O) : Except OpError (Value O) :=
  binop objects this other Prim.opLt

/-- The equality of a number and an operand, `op_eq`. -/
def numberEq (this : Prim) (other : Value O) : Except OpError (Value O) :=
  match other.toPrim objects with
  | .ok prim => .ok (.fromBool (this.opEq prim))
  | .error _ => .error (.unsupported "`==`")

/-- `op_lte` where an object has none of its own. -/
def numberLte (this : Prim) (other : Value O) : Except OpError (Value O) := do
  let lt ← numberLt objects this other
  if ← lt.opBool objects then return .fromBool true
  let eq ← numberEq objects this other
  return .fromBool (← eq.opBool objects)

namespace Obj

def opLt : Obj O → Value O → Except OpError (Value O)
  | .int v => numberLt objects (.int v)
  | .f64 v => numberLt objects (.f64 v)
  | .verbatimInt v _ => numberLt objects (.int v)
  | .verbatimF64 v _ => numberLt objects (.f64 v)
  | .other o => objects.handle o (.forward .lt)

def opLte : Obj O → Value O → Except OpError (Value O)
  | .int v => numberLte objects (.int v)
  | .f64 v => numberLte objects (.f64 v)
  | .verbatimInt v _ => numberLte objects (.int v)
  | .verbatimF64 v _ => numberLte objects (.f64 v)
  | .other o => objects.handle o (.forward .lte)

end Obj

/-- Dispatches to the left operand only. -/
def opLtDirect : Value O → Value O → Except OpError (Value O)
  | .object this, other => this.opLt objects other
  | .prim this, other => do
    let other ← other.toPrim objects
    let value ← Prim.opLt this other
    return .fromPrim value

def opLteDirect : Value O → Value O → Except OpError (Value O)
  | .object this, other => this.opLte objects other
  | .prim this, other => do
    let other ← other.toPrim objects
    let value ← Prim.opLte this other
    return .fromPrim value

/-- The handlers of a boxed integer with the integer on the left. -/
def intForward (v : Integer) (other : Value O) : Op → Except OpError (Value O)
  | .band => binop objects (.int v) other Prim.opBand
  | .bor => binop objects (.int v) other Prim.opBor
  | .bxor => binop objects (.int v) other Prim.opBxor
  | .shl => binop objects (.int v) other Prim.opShl
  | .shr => binop objects (.int v) other Prim.opShr
  | .add => binop objects (.int v) other (Prim.opAdd F)
  | .sub => binop objects (.int v) other (Prim.opSub F)
  | .mul => binop objects (.int v) other (Prim.opMul F)
  | .div => binop objects (.int v) other (Prim.opDiv F)
  | .ediv => binop objects (.int v) other (Prim.opEdiv F)
  | .mod => binop objects (.int v) other (Prim.opMod F)
  | .lt => numberLt objects (.int v) other
  | .lte => numberLte objects (.int v) other
  | .gt => opLtDirect objects other (.object (.int v))
  | .gte => opLteDirect objects other (.object (.int v))

/-- The handlers of a boxed integer with the integer on the right. -/
def intReflected (v : Integer) (other : Value O) : Op → Except OpError (Value O)
  | .band => binop objects (.int v) other Prim.opBand
  | .bor => binop objects (.int v) other Prim.opBor
  | .bxor => binop objects (.int v) other Prim.opBxor
  | .shl => rbinop objects (.int v) other Prim.opShl
  | .shr => rbinop objects (.int v) other Prim.opShr
  | .add => binop objects (.int v) other (Prim.opAdd F)
  | .sub => rbinop objects (.int v) other (Prim.opSub F)
  | .mul => binop objects (.int v) other (Prim.opMul F)
  | .div => rbinop objects (.int v) other (Prim.opDiv F)
  | .ediv => rbinop objects (.int v) other (Prim.opEdiv F)
  | .mod => rbinop objects (.int v) other (Prim.opMod F)
  | .lt => opLtDirect objects other (.object (.int v))
  | .lte => opLteDirect objects other (.object (.int v))
  | .gt => numberLt objects (.int v) other
  | .gte => numberLte objects (.int v) other

/-- The handlers of an integer literal with the literal on the left. -/
def verbatimForward (v : Integer) (text : String) (other : Value O) : Op → Except OpError (Value O)
  | .band => binop objects (.int v) other Prim.opBand
  | .bor => binop objects (.int v) other Prim.opBor
  | .bxor => binop objects (.int v) other Prim.opBxor
  | .shl => binop objects (.int v) other Prim.opShl
  | .shr => binop objects (.int v) other Prim.opShr
  | .add => binop objects (.int v) other (Prim.opAdd F)
  | .sub => binop objects (.int v) other (Prim.opSub F)
  | .mul => binop objects (.int v) other (Prim.opMul F)
  | .div => binop objects (.int v) other (Prim.opDiv F)
  | .ediv => binop objects (.int v) other (Prim.opEdiv F)
  | .mod => binop objects (.int v) other (Prim.opMod F)
  | .lt => numberLt objects (.int v) other
  | .lte => numberLte objects (.int v) other
  | .gt => opLtDirect objects other (.object (.verbatimInt v text))
  | .gte => opLteDirect objects other (.object (.verbatimInt v text))

/-- The handlers of an integer literal with the literal on the right. Its shifts are the forward
ones. -/
def verbatimReflected (v : Integer) (text : String) (other : Value O) : Op → Except OpError (Value O)
  | .band => binop objects (.int v) other Prim.opBand
  | .bor => binop objects (.int v) other Prim.opBor
  | .bxor => binop objects (.int v) other Prim.opBxor
  | .shl => binop objects (.int v) other Prim.opShl
  | .shr => binop objects (.int v) other Prim.opShr
  | .add => binop objects (.int v) other (Prim.opAdd F)
  | .sub => rbinop objects (.int v) other (Prim.opSub F)
  | .mul => binop objects (.int v) other (Prim.opMul F)
  | .div => rbinop objects (.int v) other (Prim.opDiv F)
  | .ediv => rbinop objects (.int v) other (Prim.opEdiv F)
  | .mod => rbinop objects (.int v) other (Prim.opMod F)
  | .lt => opLtDirect objects other (.object (.verbatimInt v text))
  | .lte => opLteDirect objects other (.object (.verbatimInt v text))
  | .gt => numberLt objects (.int v) other
  | .gte => numberLte objects (.int v) other

/-- The handlers of a float, boxed or a literal, with the float on the left. It has none for bits. -/
def floatForward (this : Obj O) (v : F64) (other : Value O) : Op → Except OpError (Value O)
  | .band => .error (.unsupported "`&`")
  | .bor => .error (.unsupported "`|`")
  | .bxor => .error (.unsupported "`^`")
  | .shl => .error (.unsupported "`<<`")
  | .shr => .error (.unsupported "`>>`")
  | .add => binop objects (.f64 v) other (Prim.opAdd F)
  | .sub => binop objects (.f64 v) other (Prim.opSub F)
  | .mul => binop objects (.f64 v) other (Prim.opMul F)
  | .div => binop objects (.f64 v) other (Prim.opDiv F)
  | .ediv => binop objects (.f64 v) other (Prim.opEdiv F)
  | .mod => binop objects (.f64 v) other (Prim.opMod F)
  | .lt => numberLt objects (.f64 v) other
  | .lte => numberLte objects (.f64 v) other
  | .gt => opLtDirect objects other (.object this)
  | .gte => opLteDirect objects other (.object this)

/-- The handlers of a float with the float on the right. -/
def floatReflected (this : Obj O) (v : F64) (other : Value O) : Op → Except OpError (Value O)
  | .band => .error (.unsupported "`&`")
  | .bor => .error (.unsupported "`|`")
  | .bxor => .error (.unsupported "`^`")
  | .shl => .error (.unsupported "reflected `<<`")
  | .shr => .error (.unsupported "reflected `>>`")
  | .add => binop objects (.f64 v) other (Prim.opAdd F)
  | .sub => rbinop objects (.f64 v) other (Prim.opSub F)
  | .mul => binop objects (.f64 v) other (Prim.opMul F)
  | .div => rbinop objects (.f64 v) other (Prim.opDiv F)
  | .ediv => rbinop objects (.f64 v) other (Prim.opEdiv F)
  | .mod => rbinop objects (.f64 v) other (Prim.opMod F)
  | .lt => opLtDirect objects other (.object this)
  | .lte => opLteDirect objects other (.object this)
  | .gt => numberLt objects (.f64 v) other
  | .gte => numberLte objects (.f64 v) other

namespace Obj

def forward : Obj O → Value O → Op → Except OpError (Value O)
  | .int v, operand, op => intForward F objects v operand op
  | .verbatimInt v text, operand, op => verbatimForward F objects v text operand op
  | .f64 v, operand, op => floatForward F objects (.f64 v) v operand op
  | .verbatimF64 v text, operand, op => floatForward F objects (.verbatimF64 v text) v operand op
  | .other o, operand, op => objects.handle o (.forward op) operand

def reflected : Obj O → Value O → Op → Except OpError (Value O)
  | .int v, operand, op => intReflected F objects v operand op
  | .verbatimInt v text, operand, op => verbatimReflected F objects v text operand op
  | .f64 v, operand, op => floatReflected F objects (.f64 v) v operand op
  | .verbatimF64 v text, operand, op => floatReflected F objects (.verbatimF64 v text) v operand op
  | .other o, operand, op => objects.handle o op.handler operand

/-- `op_eq`, which is `op_req` too where an object has none of its own. -/
def opEq : Obj O → Value O → Except OpError (Value O)
  | .int v => numberEq objects (.int v)
  | .f64 v => numberEq objects (.f64 v)
  | .verbatimInt v _ => numberEq objects (.int v)
  | .verbatimF64 v _ => numberEq objects (.f64 v)
  | .other o => objects.handle o .eq

def opReq : Obj O → Value O → Except OpError (Value O)
  | .other o => objects.handle o .req
  | this => this.opEq objects

end Obj

/-- `op_ne` of a number, the negation of `op_eq`, which is `op_rne` too. -/
def numberNe (this : Obj O) (other : Value O) : Except OpError (Value O) := do
  let eq ← this.opEq objects other
  return .fromBool (!(← eq.opBool objects))

namespace Obj

def opNe : Obj O → Value O → Except OpError (Value O)
  | .other o => objects.handle o .ne
  | this => numberNe objects this

def opRne : Obj O → Value O → Except OpError (Value O)
  | .other o => objects.handle o .rne
  | this => numberNe objects this

end Obj

/-! ### Dispatch -/

/-- An operator that nothing supports. -/
def settle : Except OpError (Value O) → Except OpError (Value O)
  | .error (.unsupported _) => .error (.typeError "no overload available")
  | res => res

/-- The first answer, or the second where the first is that the operator is not supported. -/
def orElse (first second : Except OpError (Value O)) : Except OpError (Value O) :=
  match first with
  | .error (.unsupported _) => second
  | res => res

namespace Value

/-- Whether two values are one. A number and another object never are. -/
def reprEq (same : O → O → Bool) : Value O → Value O → Bool
  | .object (.other a), .object (.other b) => same a b
  | .prim a, .prim b => a = b
  | _, _ => false

/-- `Value::op_band` and those like it, through `Value::binop`. -/
def op (op : Op) (left right : Value O) : Except OpError (Value O) :=
  settle (match left, right with
    | .prim a, .prim b => (op.prim F a b).map fromPrim
    | .object a, .prim _ => a.forward F objects right op
    | .prim _, .object b => b.reflected F objects left op
    | .object a, .object b =>
      orElse (a.forward F objects right op) (b.reflected F objects left op))

/-- `Value::op_rband` and those like it: the receiver is the right operand. -/
def opReversed (op : Op) (left right : Value O) : Except OpError (Value O) :=
  settle (match left, right with
    | .prim a, .prim b => (op.primReversed F a b).map fromPrim
    | .object a, .prim _ => a.reflected F objects right op
    | .prim _, .object b => b.forward F objects left op
    | .object a, .object b =>
      orElse (a.reflected F objects right op) (b.forward F objects left op))

/-- What equality falls back to. -/
def settleEq (same : O → O → Bool) (negate : Bool) (left right : Value O)
    (res : Except OpError (Value O)) : Except OpError (Value O) :=
  orElse res (.ok (fromBool (left.reprEq same right ^^ negate)))

def opEq (same : O → O → Bool) (left right : Value O) : Except OpError (Value O) :=
  settleEq same false left right (match left, right with
    | .prim a, .prim b => .ok (fromBool (a.opEq b))
    | .object a, .prim _ => a.opEq objects right
    | .prim _, .object b => b.opReq objects left
    | .object a, .object b => orElse (a.opEq objects right) (b.opReq objects left))

def opNe (same : O → O → Bool) (left right : Value O) : Except OpError (Value O) :=
  settleEq same true left right (match left, right with
    | .prim a, .prim b => .ok (fromBool (!a.opEq b))
    | .object a, .prim _ => a.opNe objects right
    | .prim _, .object b => b.opRne objects left
    | .object a, .object b => orElse (a.opNe objects right) (b.opRne objects left))

end Value

end

end Dolang.Runtime.Operator
