import Mathlib.Tactic.Common

/-!
# Services

A service has a state and answers one request after the other. A service simulates another one when
related states answer a request alike and go to related states (`answers_eq`). Only requests that
meet some condition are considered, which is what the two have to agree on.
-/

namespace Dolang.Service

variable {σ τ ρ α : Type*}

/-- The answers to a list of requests, with the state after them. -/
def answers (step : σ → ρ → σ × α) : σ → List ρ → List α × σ
  | s, [] => ([], s)
  | s, request :: requests =>
    let (s, answer) := step s request
    let (rest, s) := answers step s requests
    (answer :: rest, s)

/-- Two services answer alike for good in related states. -/
theorem answers_eq {step : σ → ρ → σ × α} {step' : τ → ρ → τ × α} {R : σ → τ → Prop}
    {Good : ρ → Prop}
    (h : ∀ s t r, R s t → Good r → (step s r).2 = (step' t r).2 ∧ R (step s r).1 (step' t r).1)
    {s : σ} {t : τ} (hst : R s t) {requests : List ρ} (hgood : ∀ r ∈ requests, Good r) :
    (answers step s requests).1 = (answers step' t requests).1 ∧
      R (answers step s requests).2 (answers step' t requests).2 := by
  induction requests generalizing s t with
  | nil => exact ⟨rfl, hst⟩
  | cons r requests ih =>
    obtain ⟨hanswer, hnext⟩ := h s t r hst (hgood r List.mem_cons_self)
    obtain ⟨hrest, hlast⟩ := ih hnext fun r hr => hgood r (List.mem_cons_of_mem _ hr)
    unfold answers
    exact ⟨congrArg₂ List.cons hanswer hrest, hlast⟩

end Dolang.Service
