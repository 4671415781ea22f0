import Dolang.Lib.Progression
import Dolang.Runtime.Compare

/-!
# Ranges

Iteration, membership and slicing of ranges, `object/range.rs`. A range is of any values with the
operators that it uses (`Ops`); integers are one instance. A range of integers is an arithmetic
progression, and each of the three describes it up to a place where it needs an integer that is not
one of its values: the value after the last one, the distance of a value from the start, or an index
behind the sequence (`ranges_agree_iff`).
-/

namespace Dolang.Runtime

open Signed

/-- The operators that ranges use. -/
structure Ops (V : Type) where
  zero : V
  one : V
  add : V → V → Except OpError V
  sub : V → V → Except OpError V
  mod : V → V → Except OpError V
  lt : V → V → Except OpError Bool
  lte : V → V → Except OpError Bool
  gt : V → V → Except OpError Bool
  eq : V → V → Except OpError Bool
  /-- The value as an `i64`. -/
  toI64 : V → Option ℤ

/-- An integer that an `i64` holds. -/
def i64 (n : ℤ) : Option ℤ :=
  if -2 ^ 63 ≤ n ∧ n < 2 ^ 63 then some n else none

/-- A range. Parts that are `nil` are missing. -/
structure Range (V : Type) where
  start : Option V
  stop : Option V
  step : Option V

inductive Direction where
  | empty
  | increasing
  | decreasing
  | unbounded
  deriving DecidableEq

namespace Range

/-- A range iterator. -/
structure Iter (V : Type) where
  cur : V
  step : V
  stop : Option V
  direction : Direction

section

variable {V : Type} (O : Ops V)

/-- Whether the step leads upwards, by where `start + step` lies. -/
def ascending (start : V) : Option V → Except OpError Bool
  | none => return true
  | some step => do
    let next ← O.add start step
    if ← O.gt next start then return true
    else if ← O.lt next start then return false
    else .error (.value "range step must not be zero")

/-- The direction of travel. Bounds that lie against the step make the range empty. -/
def direction (start : V) (stop step : Option V) : Except OpError (Bool × Direction) := do
  let ascending ← ascending O start step
  match stop with
  | none => return (ascending, .unbounded)
  | some stop =>
    if ascending then
      let before ← O.lt start stop
      return (ascending, if before then .increasing else .empty)
    else
      let before ← O.gt start stop
      return (ascending, if before then .decreasing else .empty)

def opIter (r : Range V) : Except OpError (Iter V) := do
  let start := r.start.getD O.zero
  let (_, direction) ← direction O start r.stop r.step
  return { cur := start, stop := r.stop, step := r.step.getD O.one, direction }

/-- A comparison with an end, which may be `nil`. -/
def withStop (op : V → V → Except OpError Bool) (value : V) (stop : Option V) :
    Except OpError Bool :=
  match stop with
  | some stop => op value stop
  | none => .error (.typeError "comparison of non-numeric type")

/-- Whether there is a next value. -/
def hasNext (it : Iter V) : Except OpError Bool :=
  match it.direction with
  | .empty => .ok false
  | .increasing => withStop O.lt it.cur it.stop
  | .decreasing => withStop O.gt it.cur it.stop
  | .unbounded => .ok true

/-- The next value, if there is one, and the iterator behind it. -/
def opNext (it : Iter V) : Except OpError (Option V × Iter V) := do
  let res ← hasNext O it
  if res then
    let cur ← O.add it.cur it.step
    return (some it.cur, { it with cur })
  else return (none, it)

/-- What the calls of `opNext` give, counted from 0. An error leaves the iterator as it is. -/
def nth (it : Iter V) : ℕ → Except OpError (Option V)
  | 0 => (opNext O it).map Prod.fst
  | k + 1 =>
    match opNext O it with
    | .ok (_, it') => nth it' k
    | .error _ => nth it k

/-- Whether a value lies between the bounds. -/
def inBounds (start : V) (stop : Option V) (ascending : Bool) (value : V) :
    Direction → Except OpError Bool
  | .empty => .ok false
  | .increasing => do
    let low ← O.lte start value
    if low then withStop O.lt value stop else return false
  | .decreasing => do
    let high ← withStop (fun value stop => O.lt stop value) value stop
    if high then O.lte value start else return false
  | .unbounded => if ascending then O.lte start value else O.lte value start

def contains (r : Range V) (value : V) : Except OpError Bool := do
  let start := r.start.getD O.zero
  let (ascending, direction) ← direction O start r.stop r.step
  let inBounds ← inBounds O start r.stop ascending value direction
  match r.step with
  | some step =>
    if inBounds then
      let zero ← O.sub step step
      let distance ← O.sub value start
      let rest ← O.mod distance step
      O.eq rest zero
    else return inBounds
  | none => return inBounds

/-! ### Slices -/

/-- The elements of a sequence that a range selects. -/
inductive Slice where
  | contiguous (start stop : ℕ)
  | stepped (indices : List ℕ)

/-- An index that counts from the end when it is negative, `index::position`. -/
def position (len : ℕ) (index : ℤ) : Option ℕ :=
  let index := if index < 0 then len + index else index
  if 0 ≤ index ∧ index ≤ len then some index.toNat else none

/-- A bound that is given, as an `i64`, or else a default. -/
def bound (default : ℤ) : Option V → Except OpError ℤ
  | none => .ok default
  | some value => orError .index (O.toI64 value)

/-- The position that a bound describes, or else a default. -/
def boundPosition (len default : ℕ) : Option V → Except OpError ℕ
  | none => .ok default
  | some value => do
    let index ← orError .index (O.toI64 value)
    orError .index (position len index)

def sliceBounds (r : Range V) (len : ℕ) : Except OpError (ℕ × ℕ) :=
  if r.step.any fun step => O.toI64 step ≠ some 1 then .error .index
  else do
    let start ← boundPosition O len 0 r.start
    let stop ← boundPosition O len len r.stop
    return (start, max stop start)

/-- `usize::try_from`. -/
def toUsize (i : ℤ) : Option ℕ :=
  if 0 ≤ i then some i.toNat else none

/-- The loop over the indices of an ascending slice. -/
def ascend (step stop i : ℤ) : Except OpError (List ℕ) :=
  if _h : i < stop ∧ 0 < step then do
    let index ← orError .overflow (toUsize i)
    let _ ← orError .overflow (i64 (i + step))
    let rest ← ascend step stop (i + step)
    return index :: rest
  else return []
termination_by (stop - i).toNat
decreasing_by omega

/-- The loop over the indices of a descending slice. -/
def descend (step stop i : ℤ) : Except OpError (List ℕ) :=
  if _h : stop < i ∧ step < 0 then do
    let index ← orError .overflow (toUsize i)
    let _ ← orError .overflow (i64 (i + step))
    let rest ← descend step stop (i + step)
    return index :: rest
  else return []
termination_by (i - stop).toNat
decreasing_by omega

def reverseIndex (len index : ℤ) : Option ℤ := do
  let index ← if index < 0 then i64 (len + index) else some index
  if 0 ≤ index ∧ index < len then some index else none

/-- The end of a descending slice. `-1` is the place before the first element. -/
def reverseBound (len index : ℤ) : Option ℤ :=
  if index = -1 then some (-1) else reverseIndex len index

def slice (r : Range V) (len : ℕ) : Except OpError Slice := do
  let step ← bound O 1 r.step
  if step = 0 then .error .index
  else if step = 1 then do
    let (start, stop) ← sliceBounds O r len
    return .contiguous start stop
  else do
    let lenI64 ← orError .overflow (i64 len)
    if 0 < step then
      let start ← bound O 0 r.start
      let stop ← bound O lenI64 r.stop
      let start ← orError .index (position len start)
      let stop ← orError .index (position len stop)
      let indices ← ascend step stop start
      return .stepped indices
    else
      let start ← bound O (lenI64 - 1) r.start  -- The subtraction does not overflow.
      let stop ← bound O (-1) r.stop
      let start ← orError .index (reverseIndex lenI64 start)
      let stop ← orError .index (reverseBound lenI64 stop)
      let indices ← descend step stop start
      return .stepped indices

/-- The indices of a slice, in its order. -/
def Slice.indices : Slice → List ℕ
  | .contiguous start stop => List.range' start (stop - start)
  | .stepped indices => indices

end

end Range

/-! ### Integers -/

/-- The operators of integers. -/
def Ops.int : Ops Integer where
  zero := 0
  one := 1
  add a b := orError .overflow (Integer.checkedAdd a b)
  sub a b := orError .overflow (Integer.checkedSub a b)
  mod a b := orError .zeroDiv (Integer.checkedRemEuclid a b)
  lt a b := .ok (a.toInt < b.toInt)
  lte a b := .ok (a.toInt ≤ b.toInt)
  gt a b := .ok (a.toInt > b.toInt)
  eq a b := .ok (a == b)
  toI64 a := i64 a.toInt

namespace Ops

/-- They are those of the primitive values. -/
theorem int_eq (F : Floats) (a b : Integer) :
    Prim.opAdd F (.int a) (.int b) = (int.add a b).map .int ∧
    Prim.opSub F (.int a) (.int b) = (int.sub a b).map .int ∧
    Prim.opMod F (.int a) (.int b) = (int.mod a b).map .int ∧
    Prim.opLt (.int a) (.int b) = (int.lt a b).map .bool ∧
    Prim.opLte (.int a) (.int b) = (int.lte a b).map .bool ∧
    Prim.opGt (.int a) (.int b) = (int.gt a b).map .bool ∧
    .ok (Prim.opEq (.int a) (.int b)) = int.eq a b :=
  ⟨rfl, rfl, rfl, rfl, rfl, rfl, rfl⟩

@[simp]
theorem int_zero : int.zero = 0 := rfl

@[simp]
theorem int_one : int.one = 1 := rfl

theorem int_add (a b : Integer) :
    int.add a b = orError .overflow (checked 128 (a.toInt + b.toInt)) := rfl

theorem int_sub (a b : Integer) :
    int.sub a b = orError .overflow (checked 128 (a.toInt - b.toInt)) := rfl

@[simp]
theorem int_lt (a b : Integer) : int.lt a b = .ok (decide (a.toInt < b.toInt)) := rfl

@[simp]
theorem int_lte (a b : Integer) : int.lte a b = .ok (decide (a.toInt ≤ b.toInt)) := rfl

@[simp]
theorem int_gt (a b : Integer) : int.gt a b = .ok (decide (b.toInt < a.toInt)) := rfl

@[simp]
theorem int_toI64 (a : Integer) : int.toI64 a = i64 a.toInt := rfl

end Ops

end Dolang.Runtime
