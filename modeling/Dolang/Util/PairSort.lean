import Mathlib.Data.Int.Notation
import Mathlib.Logic.Function.Basic
import Mathlib.Tactic.Common

/-!
# Sorting two slices in lockstep

`sort_by` of `pairsort.rs`, a merge sort of two slices at once through uninitialised scratch. The
slices and the scratch are memory whose cells hold a value or are uninitialised. An access outside of
it, a copy between overlapping ranges, a use of an uninitialised value and a failed assertion of the
source all end the computation with `undefined`. The comparator is a function with a state of its own
that may fail.
-/

namespace Dolang.Util.PairSort

variable {σ E T U α β : Type}

/-- What a pointer points into. -/
inductive Area where
  | slices
  | scratch
  deriving DecidableEq

/-- The values on one side of the pairs: a slice, and scratch. -/
abbrev Column (α : Type) := Area → List (Option α)

/-- The memory that a sort works on. -/
structure Memory (T U : Type) where
  left : Column T
  right : Column U

/-- Why a sort stops early. -/
inductive Fault (E : Type) where
  /-- A comparison failed. -/
  | err (e : E)
  /-- Undefined behaviour, or a failed assertion. -/
  | undefined

/-- A part of a sort, which works on the state of the comparator and the memory. -/
abbrev Sorting (σ E T U α : Type) := ExceptT (Fault E) (StateM (σ × Memory T U)) α

/-- `ptr::copy_nonoverlapping`. -/
def copyNonoverlapping (c : Column α) (a : Area) (src : ℕ) (b : Area) (dst count : ℕ) :
    Option (Column α) :=
  if src + count ≤ (c a).length ∧ dst + count ≤ (c b).length ∧
      (a = b → src + count ≤ dst ∨ dst + count ≤ src) then
    some (Function.update c b
      ((c b).take dst ++ ((c a).drop src).take count ++ (c b).drop (dst + count)))
  else none

/-- `ptr::swap`. -/
def swapCells (c : Column α) (a : Area) (i j : ℕ) : Option (Column α) := do
  let x ← (c a)[i]?
  let y ← (c a)[j]?
  return Function.update c a (((c a).set i y).set j x)

/-- An assertion, or a precondition. -/
def check (p : Prop) [Decidable p] : Sorting σ E T U Unit :=
  if p then pure () else throw .undefined

/-- Changes both sides of the memory. -/
def change (f : Column T → Option (Column T)) (g : Column U → Option (Column U)) :
    Sorting σ E T U Unit := do
  let (s, m) ← get
  match f m.left, g m.right with
  | some left, some right => set (s, { left, right : Memory T U })
  | _, _ => throw .undefined

/-- `SlicePair`: two pointers and the number of elements behind each of them. -/
structure SlicePair where
  area : Area
  left : ℕ
  right : ℕ
  len : ℕ

namespace SlicePair

/-- `split_at`. -/
def splitAt (p : SlicePair) (mid : ℕ) : SlicePair × SlicePair :=
  ({ p with len := mid },
    { p with left := p.left + mid, right := p.right + mid, len := p.len - mid })

/-- `&*left_at(index)`. -/
def leftAt (p : SlicePair) (index : ℕ) : Sorting σ E T U T := do
  check (index < p.len)
  match (← get).2.left p.area |>.getD (p.left + index) none with
  | some value => return value
  | none => throw .undefined

/-- `swap`. -/
def swap (p : SlicePair) (i j : ℕ) : Sorting σ E T U Unit := do
  check (i < p.len)
  check (j < p.len)
  change (swapCells · p.area (p.left + i) (p.left + j))
    (swapCells · p.area (p.right + i) (p.right + j))

/-- `copy_elem_to`. -/
def copyElemTo (p dst : SlicePair) (srcIdx dstIdx : ℕ) : Sorting σ E T U Unit := do
  check (srcIdx < p.len)
  check (dstIdx < dst.len)
  change (copyNonoverlapping · p.area (p.left + srcIdx) dst.area (dst.left + dstIdx) 1)
    (copyNonoverlapping · p.area (p.right + srcIdx) dst.area (dst.right + dstIdx) 1)

/-- `copy_range_to`. -/
def copyRangeTo (p dst : SlicePair) (srcStart count dstStart : ℕ) : Sorting σ E T U Unit := do
  check (srcStart ≤ p.len)
  check (count ≤ p.len - srcStart)
  check (dstStart ≤ dst.len)
  check (count ≤ dst.len - dstStart)
  change (copyNonoverlapping · p.area (p.left + srcStart) dst.area (dst.left + dstStart) count)
    (copyNonoverlapping · p.area (p.right + srcStart) dst.area (dst.right + dstStart) count)

/-- `copy_back_to`. -/
def copyBackTo (p dst : SlicePair) : Sorting σ E T U Unit := do
  check (p.len = dst.len)
  p.copyRangeTo dst 0 p.len 0

end SlicePair

/-- A comparator: the next state, and an answer or an error. -/
abbrev Comparator (σ E T : Type) := σ → T → T → Except E Bool × σ

section

variable (isLess : Comparator σ E T)

/-- A call of `is_less` on the elements at two indices. -/
def compare (v : SlicePair) (i j : ℕ) : Sorting σ E T U Bool := do
  let a ← v.leftAt i
  let b ← v.leftAt j
  let (s, m) ← get
  let (answer, s') := isLess s a b
  set (s', m)
  match answer with
  | .ok answer => return answer
  | .error e => throw (.err e)

/-- The loop of `merge`. It ends with the first indices that are not merged yet, of the left half,
of the right half and of the scratch. -/
def mergeLoop (v scratch : SlicePair) (mid : ℕ) (l r i : ℕ) : Sorting σ E T U (ℕ × ℕ × ℕ) :=
  if h : l < mid ∧ r < v.len then do
    let takeLeft := !(← compare isLess v r l)
    if takeLeft then
      v.copyElemTo scratch l i
      mergeLoop v scratch mid (l + 1) r (i + 1)
    else
      v.copyElemTo scratch r i
      mergeLoop v scratch mid l (r + 1) (i + 1)
  else return (l, r, i)
termination_by (mid - l) + (v.len - r)

/-- The copies at the end of `merge`, of what is left of one half. -/
def copyRest (v scratch : SlicePair) (mid l r i : ℕ) : Sorting σ E T U Unit :=
  if l < mid then v.copyRangeTo scratch l (mid - l) i
  else if r < v.len then v.copyRangeTo scratch r (v.len - r) i
  else return ()

/-- `merge`. -/
def merge (v scratch : SlicePair) (mid : ℕ) : Sorting σ E T U Unit := do
  check (0 < mid ∧ mid < v.len)
  check (v.len = scratch.len)
  let (l, r, i) ← mergeLoop isLess v scratch mid 0 mid 0
  copyRest v scratch mid l r i
  scratch.copyBackTo v

/-- `mergesort_core`. -/
def mergesortCore (v scratch : SlicePair) : Sorting σ E T U Unit :=
  if h : 2 < v.len then do
    let mid := v.len / 2
    check (mid ≤ v.len)
    check (mid ≤ scratch.len)
    mergesortCore (v.splitAt mid).1 (scratch.splitAt mid).1
    mergesortCore (v.splitAt mid).2 (scratch.splitAt mid).2
    merge isLess v scratch mid
  else if v.len = 2 then do
    if ← compare isLess v 1 0 then
      v.swap 0 1
  else return ()
termination_by v.len
decreasing_by
  · simp only [SlicePair.splitAt]
    omega
  · simp only [SlicePair.splitAt]
    omega

/-- `sort_by`, on memory whose scratch is that of `mergesort_main`. -/
def sortMemory (len : ℕ) : Sorting σ E T U Unit :=
  if len < 2 then return ()
  else
    mergesortCore isLess { area := .slices, left := 0, right := 0, len }
      { area := .scratch, left := 0, right := 0, len }

/-- A column of a slice and of as much uninitialised scratch. -/
def column (values : List α) : Column α
  | .slices => values.map some
  | .scratch => List.replicate values.length none

/-- `sort_by`: how it ends, the state of the comparator then, and the slices. -/
def sortBy (left : List T) (right : List U) (s : σ) :
    Except (Fault E) Unit × σ × List (Option T) × List (Option U) :=
  if left.length ≠ right.length then (.error .undefined, s, left.map some, right.map some)
  else
    let (r, s, m) := (sortMemory isLess left.length).run.run
      (s, { left := column left, right := column right })
    (r, s, m.left .slices, m.right .slices)

end

end Dolang.Util.PairSort
