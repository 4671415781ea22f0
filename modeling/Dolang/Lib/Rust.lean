import Mathlib.Algebra.Group.Nat.Defs
import Mathlib.Data.List.Forall2
import Mathlib.Tactic.Common

/-!
# Computations that can fail or panic

A translated function returns `Exec ε α`: a value, an error of its own error type `ε`, a panic, or
an exhausted fuel argument. Panics stand for a failed index, `unwrap`, `expect`, `unreachable!` or
strict arithmetic operation. Fuel stands for the iterations of a `while` loop, so that every
function here is total and can be evaluated.

Besides the type there are the arithmetic operations of a 64-bit `usize` that can fail, the rule
that takes a successful sequence of computations apart (`bind_ok`), and the rule that a sequence
returns when its parts do (`Returns.bind`).
-/

namespace Dolang.Rust

/-- The ways a computation can end without a value. -/
inductive Fault (ε : Type) where
  /-- The function returned its error `e`. -/
  | err (e : ε)
  /-- The thread panicked. -/
  | panic
  /-- The loop bound of the model was too small. -/
  | fuel
  deriving DecidableEq, Repr

/-- A computation with errors of type `ε` that can panic. -/
abbrev Exec (ε α : Type) := Except (Fault ε) α

/-- The largest `usize` of a 64-bit target. -/
def usizeMax : Nat := 2^64 - 1

section Basic

variable {ε ε' α β : Type}

/-- Return the error `e`. -/
def fail (e : ε) : Exec ε α := .error (.err e)

/-- Panic. -/
def abort : Exec ε α := .error .panic

/-- `Option::unwrap`, `Option::expect` and a checked index: panic on `None`. -/
def unwrap : Option α → Exec ε α
  | some a => .ok a
  | none => abort

/-- `Option::ok_or`: the error `e` on `None`. -/
def okOr (e : ε) : Option α → Exec ε α
  | some a => .ok a
  | none => fail e

/-- `Result::map_err`: panics and exhausted fuel pass through. -/
def mapErr (f : ε → ε') : Exec ε α → Exec ε' α
  | .ok a => .ok a
  | .error (.err e) => fail (f e)
  | .error .panic => .error .panic
  | .error .fuel => .error .fuel

/-- `usize::strict_add`. -/
def strictAdd (a b : Nat) : Exec ε Nat := if a + b ≤ usizeMax then .ok (a + b) else abort

/-- `usize::checked_add_signed`. -/
def checkedAddSigned (a : Nat) (d : Int) : Option Nat :=
  if 0 ≤ (a : Int) + d ∧ (a : Int) + d ≤ usizeMax then some ((a : Int) + d).toNat else none

/-- `usize::saturating_add`. -/
def saturatingAdd (a b : Nat) : Nat := min (a + b) usizeMax

/-- `usize::checked_sub`. -/
def checkedSub (a b : Nat) : Option Nat := if b ≤ a then some (a - b) else none

/-- `usize::checked_add`. -/
def checkedAdd (a b : Nat) : Option Nat := if a + b ≤ usizeMax then some (a + b) else none

/-- A loop over the elements of a list with their indices, which ends at the first failure. -/
def forEach (f : Nat → α → Exec ε Unit) : Nat → List α → Exec ε Unit
  | _, [] => .ok ()
  | i, a :: as => do
    f i a
    forEach f (i + 1) as

/-- A map over a list that ends at the first failure. -/
def mapAll (f : α → Exec ε β) : List α → Exec ε (List β)
  | [] => .ok []
  | a :: as => do
    let b ← f a
    return b :: (← mapAll f as)

/-- A successful sequence is a successful first computation and a successful second one. -/
theorem bind_ok {x : Exec ε α} {f : α → Exec ε β} {b : β} (h : (x >>= f) = .ok b) :
    ∃ a, x = .ok a ∧ f a = .ok b := by
  cases x with
  | ok a => exact ⟨a, rfl, h⟩
  | error e => exact absurd h (by simp [bind, Except.bind])

/-- A sequence whose first computation succeeded continues with the second one. -/
@[simp]
theorem ok_bind (a : α) (f : α → Exec ε β) : ((Except.ok a : Exec ε α) >>= f) = f a := rfl

/-- A sequence whose first computation ended early ends with it. -/
@[simp]
theorem error_bind (e : Fault ε) (f : α → Exec ε β) :
    ((Except.error e : Exec ε α) >>= f) = .error e := rfl

/-- A sequence that starts with an error ends with it. -/
@[simp]
theorem fail_bind (e : ε) (f : α → Exec ε β) : ((fail e : Exec ε α) >>= f) = fail e := rfl

/-- `bind_ok` as an equivalence. -/
theorem bind_eq_ok {x : Exec ε α} {f : α → Exec ε β} {b : β} :
    (x >>= f) = .ok b ↔ ∃ a, x = .ok a ∧ f a = .ok b := by
  constructor
  · exact bind_ok
  · rintro ⟨a, rfl, h⟩
    exact h

/-- A guard that passed. -/
theorem ite_fail_eq_ok {c : Prop} [Decidable c] {e : ε} {x : Exec ε α} {a : α} :
    (if c then fail e else x) = .ok a ↔ ¬c ∧ x = .ok a := by
  by_cases h : c <;> simp [h, fail]

@[simp]
theorem unwrap_eq_ok {o : Option α} {a : α} : (unwrap o : Exec ε α) = .ok a ↔ o = some a := by
  cases o <;> simp [unwrap, abort]

@[simp]
theorem okOr_eq_ok {o : Option α} {a : α} {e : ε} : okOr e o = .ok a ↔ o = some a := by
  cases o <;> simp [okOr, fail]

/-- A sequence whose first computation has no result. -/
theorem bind_unit_eq_ok {x : Exec ε Unit} {f : Unit → Exec ε β} {b : β} :
    (x >>= f) = .ok b ↔ x = .ok () ∧ f () = .ok b := by
  rw [bind_eq_ok]
  constructor
  · rintro ⟨⟨⟩, h⟩
    exact h
  · exact fun h => ⟨(), h⟩

theorem unwrap_bind_eq_ok {o : Option α} {f : α → Exec ε β} {b : β} :
    (unwrap o >>= f) = .ok b ↔ ∃ a, o = some a ∧ f a = .ok b := by
  simp only [bind_eq_ok, unwrap_eq_ok]

theorem okOr_bind_eq_ok {o : Option α} {e : ε} {f : α → Exec ε β} {b : β} :
    (okOr e o >>= f) = .ok b ↔ ∃ a, o = some a ∧ f a = .ok b := by
  simp only [bind_eq_ok, okOr_eq_ok]

@[simp]
theorem checkedSub_eq_some {a b c : Nat} : checkedSub a b = some c ↔ b ≤ a ∧ a - b = c := by
  unfold checkedSub
  split
  · simp_all
  · simp only [reduceCtorEq, false_iff, not_and]
    omega

@[simp]
theorem mapErr_eq_ok {x : Exec ε α} {f : ε → ε'} {a : α} : mapErr f x = .ok a ↔ x = .ok a := by
  rcases x with (e | _ | _) | a <;> simp [mapErr, fail]

@[simp]
theorem strictAdd_eq_ok {a b c : Nat} :
    (strictAdd a b : Exec ε Nat) = .ok c ↔ a + b ≤ usizeMax ∧ a + b = c := by
  unfold strictAdd
  split
  · simp_all
  · simp only [abort, reduceCtorEq, false_iff, not_and]
    omega

/-- A signed addition that stays in range, as integers. -/
theorem checkedAddSigned_eq_some {a c : Nat} {d : Int} (h : checkedAddSigned a d = some c) :
    (c : Int) = a + d := by
  unfold checkedAddSigned at h
  split at h
  · have hc : ((a : Int) + d).toNat = c := by simpa using h
    omega
  · cases h

/-- The computation ends with a value or with an error of its own. -/
def Returns (x : Exec ε α) : Prop := x ≠ .error .panic ∧ x ≠ .error .fuel

@[simp]
theorem Returns.ok (a : α) : Returns (.ok a : Exec ε α) := by simp [Returns]

@[simp]
theorem Returns.pure (a : α) : Returns (Pure.pure a : Exec ε α) := Returns.ok a

@[simp]
theorem Returns.fail (e : ε) : Returns (Rust.fail e : Exec ε α) := by simp [Returns, Rust.fail]

/-- A sequence returns when its first computation does and, on every value that one can return,
the second one does. -/
theorem Returns.bind {x : Exec ε α} {f : α → Exec ε β} (hx : Returns x)
    (hf : ∀ a, x = .ok a → Returns (f a)) : Returns (x >>= f) := by
  cases x with
  | ok a => exact hf a rfl
  | error e =>
    cases e with
    | err e => exact ⟨by simp, by simp⟩
    | panic => exact absurd rfl hx.1
    | fuel => exact absurd rfl hx.2

/-- The computation of a checked `Option` returns on every value there can be. -/
theorem returns_okOr_bind {e : ε} {o : Option α} {f : α → Exec ε β} :
    Returns (okOr e o >>= f) ↔ ∀ a, o = some a → Returns (f a) := by
  cases o with
  | none => simp [okOr]
  | some a => simp [okOr]

/-- The computation of an unwrapped `Option` returns when there is a value. -/
theorem returns_unwrap_bind {o : Option α} {f : α → Exec ε β} :
    Returns (unwrap o >>= f) ↔ ∃ a, o = some a ∧ Returns (f a) := by
  cases o with
  | none => simp [unwrap, abort, Returns]
  | some a => simp [unwrap]

/-- A guard returns when what it guards does. -/
theorem returns_ite_fail {c : Prop} [Decidable c] {e : ε} {x : Exec ε α} :
    Returns (if c then fail e else x) ↔ (¬c → Returns x) := by
  by_cases h : c <;> simp [h]

theorem Returns.mapErr {x : Exec ε α} (f : ε → ε') (h : Returns x) :
    Returns (Rust.mapErr f x) := by
  obtain ⟨h1, h2⟩ := h
  rcases x with (e | _ | _) | a
  · exact Returns.fail _
  · exact absurd rfl h1
  · exact absurd rfl h2
  · exact Returns.ok a

/-- The computation ends: it does not run out of fuel. -/
def Halts (x : Exec ε α) : Prop := x ≠ .error .fuel

theorem Halts.of_ok {x : Exec ε α} {a : α} (h : x = .ok a) : Halts x := by
  rw [h]
  exact fun h => by cases h

@[simp]
theorem Halts.pure (a : α) : Halts (Pure.pure a : Exec ε α) := Halts.of_ok rfl

@[simp]
theorem Halts.fail (e : ε) : Halts (Rust.fail e : Exec ε α) := by simp [Halts, Rust.fail]

@[simp]
theorem Halts.abort : Halts (Rust.abort : Exec ε α) := by simp [Halts, Rust.abort]

@[simp]
theorem Halts.unwrap (o : Option α) : Halts (Rust.unwrap o : Exec ε α) := by
  cases o
  · exact Halts.abort
  · exact Halts.of_ok rfl

@[simp]
theorem Halts.okOr (e : ε) (o : Option α) : Halts (Rust.okOr e o : Exec ε α) := by
  cases o
  · exact Halts.fail e
  · exact Halts.of_ok rfl

/-- A sequence ends when its first computation does and, on every value, the second one does. -/
theorem Halts.bind {x : Exec ε α} {f : α → Exec ε β} (hx : Halts x)
    (hf : ∀ a, x = .ok a → Halts (f a)) : Halts (x >>= f) := by
  cases x with
  | ok a => exact hf a rfl
  | error e => exact fun h => hx (by cases h; rfl)

/-- A choice ends when both alternatives do. -/
theorem Halts.ite {c : Prop} [Decidable c] {x y : Exec ε α} (hx : Halts x) (hy : Halts y) :
    Halts (if c then x else y) := by
  split
  · exact hx
  · exact hy

theorem Halts.mapErr {x : Exec ε α} (f : ε → ε') (h : Halts x) : Halts (Rust.mapErr f x) := by
  rcases x with (e | _ | _) | a
  · exact Halts.fail _
  · exact fun h => by cases h
  · exact absurd rfl h
  · exact Halts.of_ok rfl

/-- A loop succeeds when every iteration does. -/
theorem forEach_eq_ok {f : Nat → α → Exec ε Unit} {l : List α} {k : Nat} :
    forEach f k l = .ok () ↔ ∀ (i : Nat) (a : α), l[i]? = some a → f (k + i) a = .ok () := by
  induction l generalizing k with
  | nil => simp [forEach]
  | cons x l ih =>
    simp only [forEach, bind_eq_ok, ih]
    constructor
    · rintro ⟨_, hx, hl⟩ i a ha
      cases i with
      | zero =>
        cases ha
        exact hx
      | succ i =>
        rw [Nat.add_comm i, ← Nat.add_assoc]
        exact hl i a ha
    · intro h
      refine ⟨(), h 0 x rfl, fun i a ha => ?_⟩
      rw [Nat.add_assoc, Nat.add_comm 1]
      exact h (i + 1) a ha

/-- A loop returns when every iteration does. -/
theorem Returns.forEach {f : Nat → α → Exec ε Unit} {l : List α} {k : Nat}
    (h : ∀ (i : Nat) (a : α), l[i]? = some a → Returns (f (k + i) a)) :
    Returns (Rust.forEach f k l) := by
  induction l generalizing k with
  | nil => exact Returns.ok ()
  | cons x l ih =>
    refine Returns.bind (h 0 x rfl) fun _ _ => ih fun i a ha => ?_
    rw [Nat.add_assoc, Nat.add_comm 1]
    exact h (i + 1) a ha

/-- A map that succeeds, element by element. -/
theorem mapAll_eq_ok {f : α → Exec ε β} {l : List α} {bs : List β} :
    mapAll f l = .ok bs ↔ List.Forall₂ (fun a b => f a = .ok b) l bs := by
  induction l generalizing bs with
  | nil =>
    rw [List.forall₂_nil_left_iff]
    constructor
    · rintro ⟨⟩
      rfl
    · rintro rfl
      rfl
  | cons a l ih =>
    simp only [mapAll, bind_eq_ok, ih, pure, Except.pure, Except.ok.injEq,
      List.forall₂_cons_left_iff]
    constructor
    · rintro ⟨b, hb, bs', hbs, rfl⟩
      exact ⟨b, bs', hb, hbs, rfl⟩
    · rintro ⟨b, bs', hb, hbs, rfl⟩
      exact ⟨b, hb, bs', hbs, rfl⟩

/-- The results of a map are those of its elements. -/
theorem mapAll_getElem? {f : α → Exec ε β} {l : List α} {bs : List β} (h : mapAll f l = .ok bs) :
    bs.length = l.length ∧ ∀ (i : Nat) a b, l[i]? = some a → bs[i]? = some b → f a = .ok b := by
  obtain ⟨hlength, heach⟩ := List.forall₂_iff_get.mp (mapAll_eq_ok.mp h)
  refine ⟨hlength.symm, fun i a b ha hb => ?_⟩
  obtain ⟨hi, rfl⟩ := List.getElem?_eq_some_iff.mp ha
  obtain ⟨hi', rfl⟩ := List.getElem?_eq_some_iff.mp hb
  exact heach i hi hi'

/-- A map succeeds when it does on every element. -/
theorem exists_mapAll_eq_ok {f : α → Exec ε β} {l : List α} :
    (∃ bs, mapAll f l = .ok bs) ↔ ∀ a ∈ l, ∃ b, f a = .ok b := by
  induction l with
  | nil => simp [mapAll]
  | cons a l ih =>
    simp only [mapAll, bind_eq_ok, pure, Except.pure, Except.ok.injEq, List.forall_mem_cons, ← ih]
    constructor
    · rintro ⟨-, b, hb, bs, hbs, -⟩
      exact ⟨⟨b, hb⟩, bs, hbs⟩
    · rintro ⟨⟨b, hb⟩, bs, hbs⟩
      exact ⟨_, b, hb, bs, hbs, rfl⟩

/-- The second computation ends as the first one does, unless the first one ran out of fuel. -/
def Settles (x y : Exec ε α) : Prop := x ≠ .error .fuel → y = x

theorem Settles.refl (x : Exec ε α) : Settles x x := fun _ => rfl

/-- Sequences settle when their parts do. -/
theorem Settles.bind {x y : Exec ε α} {f g : α → Exec ε β} (hx : Settles x y)
    (hf : ∀ a, Settles (f a) (g a)) : Settles (x >>= f) (y >>= g) := by
  intro hne
  cases x with
  | ok a =>
    rw [hx (fun h => by cases h)]
    exact hf a hne
  | error e =>
    rw [hx (fun h => hne (by rw [h]; rfl))]
    rfl

end Basic

/-! ## Loops over positions -/

/-- An invariant of a loop over the positions below a number, all of whose steps return. -/
theorem foldlM_range_ok {σ : Type} {f : σ → Nat → Exec ε σ} (Q : Nat → σ → Prop) {n : Nat} {s : σ}
    (hinit : Q 0 s) (hstep : ∀ i < n, ∀ s, Q i s → ∃ s', f s i = .ok s' ∧ Q (i + 1) s') :
    ∃ s', (List.range n).foldlM f s = .ok s' ∧ Q n s' := by
  induction n with
  | zero => exact ⟨s, rfl, hinit⟩
  | succ n ih =>
    obtain ⟨s₁, hs₁, hQ₁⟩ := ih fun i hi => hstep i (Nat.lt_succ_of_lt hi)
    obtain ⟨s₂, hs₂, hQ₂⟩ := hstep n (Nat.lt_succ_self n) s₁ hQ₁
    refine ⟨s₂, ?_, hQ₂⟩
    rw [List.range_succ, List.foldlM_append, hs₁, ok_bind, List.foldlM_cons, hs₂, ok_bind]
    rfl

/-- An invariant of a loop over the positions below a number that has returned. -/
theorem foldlM_range_inv {σ : Type} {f : σ → Nat → Exec ε σ} (Q : Nat → σ → Prop) {n : Nat}
    {s t : σ} (h : (List.range n).foldlM f s = .ok t) (hinit : Q 0 s)
    (hstep : ∀ i < n, ∀ s s', Q i s → f s i = .ok s' → Q (i + 1) s') : Q n t := by
  induction n generalizing t with
  | zero =>
    cases h
    exact hinit
  | succ n ih =>
    rw [List.range_succ, List.foldlM_append] at h
    obtain ⟨s₁, hs₁, h⟩ := bind_ok h
    rw [List.foldlM_cons] at h
    obtain ⟨s₂, hs₂, h⟩ := bind_ok h
    cases h
    exact hstep n (Nat.lt_succ_self n) s₁ t
      (ih hs₁ fun i hi => hstep i (Nat.lt_succ_of_lt hi)) hs₂

end Dolang.Rust
