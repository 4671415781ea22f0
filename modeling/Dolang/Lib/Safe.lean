import Dolang.Lib.Rust

/-!
# Postconditions

`Safe x P` says that `x` neither panics nor runs out of fuel, and that a value it returns satisfies
`P`. Errors are allowed. The rules below compute `Safe` of a computation from its parts, so a
statement about a function turns into the conditions on its input.
-/

namespace Dolang.Rust

variable {ε α β : Type}

/-- The computation returns, and a value that it returns has the property. -/
def Safe (x : Exec ε α) (P : α → Prop) : Prop :=
  Returns x ∧ ∀ a, x = .ok a → P a

theorem Safe.returns {x : Exec ε α} {P : α → Prop} (h : Safe x P) : Returns x := h.1

theorem Safe.mono {x : Exec ε α} {P Q : α → Prop} (h : Safe x P) (hPQ : ∀ a, P a → Q a) :
    Safe x Q :=
  ⟨h.1, fun a ha => hPQ a (h.2 a ha)⟩

@[simp]
theorem safe_ok {a : α} {P : α → Prop} : Safe (.ok a : Exec ε α) P ↔ P a := by
  constructor
  · exact fun h => h.2 a rfl
  · exact fun h => ⟨Returns.ok a, fun b hb => by cases hb; exact h⟩

@[simp]
theorem safe_pure {a : α} {P : α → Prop} : Safe (pure a : Exec ε α) P ↔ P a := safe_ok

@[simp]
theorem safe_fail {e : ε} {P : α → Prop} : Safe (fail e : Exec ε α) P :=
  ⟨Returns.fail e, fun _ h => by cases h⟩

@[simp]
theorem safe_abort {P : α → Prop} : ¬Safe (abort : Exec ε α) P :=
  fun h => h.1.1 rfl

/-- A sequence of two computations. -/
theorem safe_bind {x : Exec ε α} {f : α → Exec ε β} {Q : β → Prop} :
    Safe (x >>= f) Q ↔ Safe x fun a => Safe (f a) Q := by
  cases x with
  | ok a => simp
  | error e =>
    -- Neither side returns a value, so only the kind of the fault matters.
    rw [error_bind]
    simp [Safe, Returns]

theorem safe_unwrap {o : Option α} {P : α → Prop} :
    Safe (unwrap o : Exec ε α) P ↔ ∃ a, o = some a ∧ P a := by
  cases o with
  | none =>
    simp only [reduceCtorEq, false_and, exists_false, iff_false]
    exact safe_abort
  | some a => simp [unwrap]

theorem safe_ite {c : Prop} [Decidable c] {x y : Exec ε α} {P : α → Prop} :
    Safe (if c then x else y) P ↔ (c → Safe x P) ∧ (¬c → Safe y P) := by
  split <;> rename_i h <;> simp [h]

/-- A guard that panics unless it holds. -/
theorem safe_ite_abort {c : Prop} [Decidable c] {x : Exec ε α} {P : α → Prop} :
    Safe (if c then x else abort) P ↔ c ∧ Safe x P := by
  split <;> rename_i h <;> simp [h]

/-- An invariant of a loop over a list. -/
theorem Safe.foldlM {f : β → α → Exec ε β} (Inv : β → Prop) {l : List α} {b : β} (hb : Inv b)
    (hstep : ∀ b, ∀ a ∈ l, Inv b → Safe (f b a) Inv) : Safe (l.foldlM f b) Inv := by
  induction l generalizing b with
  | nil =>
    show Safe (pure b : Exec ε β) Inv
    exact safe_pure.mpr hb
  | cons a l ih =>
    rw [List.foldlM_cons, safe_bind]
    apply (hstep b a (by simp) hb).mono
    intro b' hb'
    exact ih hb' fun b a ha => hstep b a (by simp [ha])

end Dolang.Rust
