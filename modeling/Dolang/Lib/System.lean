import Mathlib.Logic.Relation

/-!
# Runs of a system

A system starts in one of its start states and moves by actions. `Run good s` says that some run
whose actions all meet `good` ends in `s`; with `fun _ _ => True` these are the reachable states. A
property of the start states that every good action preserves holds in every such state
(`Run.invariant`).
-/

namespace Dolang

/-- A system with states `σ` and actions `α`. -/
structure System (σ α : Type*) where
  /-- The states that a run starts in. -/
  start : σ → Prop
  /-- What an action does. -/
  next : σ → α → σ → Prop

namespace System

variable {σ α : Type*} {M : System σ α} {good : σ → α → Prop} {s t : σ} {a : α}

/-- A run whose actions all meet `good`, by its last state. -/
inductive Run (M : System σ α) (good : σ → α → Prop) : σ → Prop
  | start {s : σ} : M.start s → Run M good s
  | step {s t : σ} {a : α} : Run M good s → good s a → M.next s a t → Run M good t

/-- The states that a system reaches. -/
abbrev Reachable (M : System σ α) : σ → Prop :=
  M.Run fun _ _ => True

/-- A property of the start states that every good action preserves holds along every run. -/
theorem Run.invariant {I : σ → Prop} (h : M.Run good s) (h0 : ∀ s, M.start s → I s)
    (hstep : ∀ s a t, I s → good s a → M.next s a t → I t) : I s := by
  induction h with
  | start hs => exact h0 _ hs
  | step _ hg hn ih => exact hstep _ _ _ ih hg hn

/-- A run under a stronger condition is one under a weaker condition. -/
theorem Run.mono {good' : σ → α → Prop} (h : M.Run good s) (hg : ∀ s a, good s a → good' s a) :
    M.Run good' s := by
  induction h with
  | start hs => exact .start hs
  | step _ ha hn ih => exact .step ih (hg _ _ ha) hn

theorem Run.reachable (h : M.Run good s) : M.Reachable s :=
  h.mono fun _ _ _ => trivial

end System

end Dolang
