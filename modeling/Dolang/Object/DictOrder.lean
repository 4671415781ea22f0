import Dolang.Lib.PrefixBy
import Dolang.Object.DictKeys

/-!
# Equality, order and hash of dictionaries

`op_hash`, `op_eq` and `op_lt` of `object/dict.rs`. Each walks over the index of one dictionary or
over those of two in step, past the holes. A cursor is the part of an index that it has not passed.
A pending interrupt is not modelled.
-/

namespace Dolang.Object

/-- The ways in which a walk can fail. -/
inductive Fault (E : Type) where
  /-- It reads a slot that there is not, or an entry through a dangling bucket. -/
  | undefined
  /-- An element's own operation raises an error. -/
  | raise (e : E)
  deriving DecidableEq

/-- A pair with the hash of its key. -/
structure Row (V : Type) where
  hash : Hash
  key : V
  value : V
  deriving DecidableEq

namespace Dict

variable {V E W : Type}

/-- The pair at a place. -/
def row (t : RawTable (Entry V)) (p : Place) : Option (Row V) :=
  (t.read p.1).bind fun e => (e.value.get (some p.2)).map fun value =>
    { hash := e.hash, key := e.key, value }

/-- Reads the pair at a place through its bucket. -/
def deref (t : RawTable (Entry V)) (p : Place) : Except (Fault E) (Row V) :=
  match row t p with
  | some row => .ok row
  | none => .error .undefined

/-- The pairs in the order of the index. -/
def rows (d : Dict V) : List (Row V) :=
  d.index.reduceOption.filterMap (row d.table)

/-- What an element's operation says. -/
def lift {α : Type} : Except E α → Except (Fault E) α
  | .ok a => .ok a
  | .error e => .error (.raise e)

/-- Moves a cursor past the holes and past the next pair. -/
def advance : List (Option Place) → Option (Place × List (Option Place))
  | [] => none
  | none :: index => advance index
  | some place :: index => some (place, index)

/-- What is fed to a hasher. -/
inductive Fed (W : Type) where
  /-- The symbol of dictionaries, `sym::DICT`. -/
  | dict
  | hash (hash : Hash)
  /-- What an element feeds. -/
  | element (words : W)
  deriving DecidableEq

section Walks

variable (eq lt : V → V → Except E Bool) (feed : V → Except E W)

/-- The walk of `op_hash`. -/
def hashWalk (t : RawTable (Entry V)) : List (Option Place) → Except (Fault E) (List (Fed W))
  | [] => .ok []
  | none :: index => hashWalk t index
  | some place :: index => do
    let row ← deref t place
    let words ← lift (feed row.value)
    let rest ← hashWalk t index
    return .hash row.hash :: .element words :: rest

/-- What a dictionary feeds to a hasher. -/
def opHash (d : Dict V) : Except (Fault E) (List (Fed W)) := do
  let fed ← hashWalk feed d.table d.index
  return .dict :: fed

/-- Whether two pairs are equal for `op_eq`. -/
def sameRow (l r : Row V) : Except E Bool :=
  if l.hash ≠ r.hash then .ok false
  else do
    let same ← eq l.key r.key
    if same then eq l.value r.value else return false

/-- The walk of `op_eq`. It goes on as long as there are slots on the left. -/
def eqWalk (left right : RawTable (Entry V)) :
    List (Option Place) → List (Option Place) → Except (Fault E) Bool
  | [], _ => .ok true
  | none :: l, r => eqWalk left right l r
  | some p :: l, r =>
    match advance r with
    | none => .error .undefined
    | some (q, r) => do
      let x ← deref left p
      let y ← deref right q
      let same ← lift (sameRow eq x y)
      if same then eqWalk left right l r else return false

def opEq (left right : Dict V) : Except (Fault E) Bool :=
  if left.table.len ≠ right.table.len then .ok false
  else eqWalk eq left.table right.table left.index right.index

/-- How the first of two elements that are not equal decides, if they are not. -/
def compare (l r : V) (next : Except (Fault E) Bool) : Except (Fault E) Bool := do
  let same ← lift (eq l r)
  if same then next else lift (lt l r)

/-- The walk of `op_lt`. It goes on as long as there are slots on both sides, and leaves the rest to
`last`. -/
def ltWalk (left right : RawTable (Entry V)) (last : Bool) :
    List (Option Place) → List (Option Place) → Except (Fault E) Bool
  | [], _ => .ok last
  | none :: l, r => ltWalk left right last l r
  | some p :: l, r =>
    match advance r with
    | none => .ok last
    | some (q, r) => do
      let x ← deref left p
      let y ← deref right q
      compare eq lt x.key y.key (compare eq lt x.value y.value (ltWalk left right last l r))

def opLt (left right : Dict V) : Except (Fault E) Bool :=
  ltWalk eq lt left.table right.table (decide (left.table.len < right.table.len)) left.index
    right.index

end Walks

/-! ## The walks over the pairs -/

/-- The slots after the first one that is left. -/
theorem drop_succ_of_cons {α : Type} {l rest : List α} {a : α} {n : ℕ}
    (h : a :: rest = l.drop n) : rest = l.drop (n + 1) := by
  rw [← List.tail_drop, ← h, List.tail_cons]

section Rows

variable (eq lt : V → V → Except E Bool) (feed : V → Except E W)

/-- `hashWalk` over pairs. -/
def hashRows : List (Row V) → Except (Fault E) (List (Fed W))
  | [] => .ok []
  | row :: rows => do
    let words ← lift (feed row.value)
    let rest ← hashRows rows
    return .hash row.hash :: .element words :: rest

/-- `eqWalk` over pairs. -/
def eqRows : List (Row V) → List (Row V) → Except (Fault E) Bool
  | [], _ => .ok true
  | _ :: _, [] => .error .undefined
  | x :: l, y :: r => do
    let same ← lift (sameRow eq x y)
    if same then eqRows l r else return false

/-- `ltWalk` over pairs. -/
def ltRows (last : Bool) : List (Row V) → List (Row V) → Except (Fault E) Bool
  | [], _ => .ok last
  | _ :: _, [] => .ok last
  | x :: l, y :: r => compare eq lt x.key y.key (compare eq lt x.value y.value (ltRows last l r))

variable {eq lt feed} {t left right : RawTable (Entry V)} {index l r : List (Option Place)}

/-- The pairs that are left of an index. -/
def rowsOf (t : RawTable (Entry V)) (index : List (Option Place)) : List (Row V) :=
  index.reduceOption.filterMap (row t)

/-- Each slot that is not a hole leads to a pair. -/
def Live (t : RawTable (Entry V)) (index : List (Option Place)) : Prop :=
  ∀ p, some p ∈ index → ∃ x, row t p = some x

theorem Live.tail {slot : Option Place} (h : Live t (slot :: index)) : Live t index :=
  fun p hp => h p (List.mem_cons_of_mem slot hp)

/-- The first pair that is left. -/
theorem Live.head {p : Place} (h : Live t (some p :: index)) :
    ∃ x, deref t p = (.ok x : Except (Fault E) (Row V)) ∧
      rowsOf t (some p :: index) = x :: rowsOf t index := by
  obtain ⟨x, hx⟩ := h p List.mem_cons_self
  refine ⟨x, ?_, ?_⟩
  · rw [deref, hx]
  · rw [rowsOf, List.reduceOption_cons_of_some, List.filterMap_cons_some hx]
    rfl

/-- A cursor moves on to the next pair, if one is left. -/
theorem Live.advance (h : Live t index) :
    (Dict.advance index = none ∧ rowsOf t index = []) ∨
      ∃ q rest x, Dict.advance index = some (q, rest) ∧ Live t rest ∧
        deref t q = (.ok x : Except (Fault E) (Row V)) ∧ rowsOf t index = x :: rowsOf t rest := by
  induction index with
  | nil => exact .inl ⟨rfl, rfl⟩
  | cons slot index ih =>
    cases slot with
    | none => exact ih h.tail
    | some q =>
      obtain ⟨x, hx, hrows⟩ := h.head (E := E)
      exact .inr ⟨q, index, x, rfl, h.tail, hx, hrows⟩

theorem hashWalk_eq (h : Live t index) :
    hashWalk feed t index = hashRows feed (rowsOf t index) := by
  induction index with
  | nil => rfl
  | cons slot index ih =>
    cases slot with
    | none => exact ih h.tail
    | some p =>
      obtain ⟨x, hx, hrows⟩ := h.head (E := E)
      rw [hrows, hashWalk, hashRows, hx, ih h.tail]
      rfl

theorem eqWalk_eq (hl : Live left l) (hr : Live right r) :
    eqWalk eq left right l r = eqRows eq (rowsOf left l) (rowsOf right r) := by
  induction l generalizing r with
  | nil => rfl
  | cons slot l ih =>
    cases slot with
    | none => exact ih hl.tail hr
    | some p =>
      obtain ⟨x, hx, hxs⟩ := hl.head (E := E)
      rw [hxs, eqWalk]
      obtain ⟨hnone, hys⟩ | ⟨q, rest, y, hsome, hrest, hy, hys⟩ := hr.advance (E := E)
      · rw [hnone, hys]
        rfl
      · rw [hsome, hys, eqRows]
        dsimp only
        rw [hx, hy, ← ih hl.tail hrest]
        rfl

theorem ltWalk_eq {last : Bool} (hl : Live left l) (hr : Live right r) :
    ltWalk eq lt left right last l r = ltRows eq lt last (rowsOf left l) (rowsOf right r) := by
  induction l generalizing r with
  | nil => rfl
  | cons slot l ih =>
    cases slot with
    | none => exact ih hl.tail hr
    | some p =>
      obtain ⟨x, hx, hxs⟩ := hl.head (E := E)
      rw [hxs, ltWalk]
      obtain ⟨hnone, hys⟩ | ⟨q, rest, y, hsome, hrest, hy, hys⟩ := hr.advance (E := E)
      · rw [hnone, hys]
        rfl
      · rw [hsome, hys, ltRows]
        dsimp only
        rw [hx, hy, ← ih hl.tail hrest]
        rfl

end Rows

/-- In a well-formed dictionary every slot leads to a pair. -/
theorem WellFormed.live {d : Dict V} (h : d.WellFormed) : Live d.table d.index := by
  intro p hp
  obtain ⟨i, hi⟩ := List.mem_iff_getElem?.mp hp
  obtain ⟨e, v, he, hx⟩ := h.item_of_slot hi
  refine ⟨{ hash := e.hash, key := e.key, value := v }, ?_⟩
  rw [row, he, Option.bind_some, EntryValue.get_some, hx]
  rfl

end Dict

end Dolang.Object
