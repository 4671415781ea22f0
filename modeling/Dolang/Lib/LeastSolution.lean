import Mathlib.Order.Bounds.Basic
import Mathlib.Order.Lattice
import Mathlib.Data.Int.Notation

/-!
# Least solutions of constraints

A constraint says that the value of a target is at least that of a source, which is computed from the
values of keys. The solutions above a base that have the least values are unique, and do not depend on
the order or number of the constraints. A loop that raises a target to the value of a source stays below
all solutions (`update_le`), so where it ends with a solution, that is the least one.
-/

namespace Dolang.LeastSolution

variable {K γ α : Type*}

/-- An assignment meets constraints, which are targets with sources. -/
def Solves [LE α] (value : (K → α) → γ → α) (constraints : List (K × γ)) (σ : K → α) : Prop :=
  ∀ c ∈ constraints, value σ c.2 ≤ σ c.1

/-- The solutions above a base. -/
def solutions [LE α] (value : (K → α) → γ → α) (constraints : List (K × γ)) (base : K → α) :
    Set (K → α) :=
  {σ | base ≤ σ ∧ Solves value constraints σ}

theorem solutions_congr [LE α] {value : (K → α) → γ → α} {constraints constraints' : List (K × γ)}
    {base : K → α} (h : ∀ c, c ∈ constraints ↔ c ∈ constraints') :
    solutions value constraints base = solutions value constraints' base := by
  ext σ
  simp only [solutions, Solves, h]

/-- Constraints that are met one by one in both of two parts are met. -/
theorem solves_append [LE α] {value : (K → α) → γ → α} {l r : List (K × γ)} {σ : K → α} :
    Solves value (l ++ r) σ ↔ Solves value l σ ∧ Solves value r σ := by
  simp only [Solves, List.mem_append, or_imp, forall_and]

section Raise

variable [DecidableEq K] [SemilatticeSup α] {value : (K → α) → γ → α}

/-- Raising a target to the value of a source stays below a solution. -/
theorem update_le (hmono : ∀ s, Monotone fun σ => value σ s) {c : K × γ}
    {constraints : List (K × γ)} (hc : c ∈ constraints) {σ τ : K → α} (hle : σ ≤ τ)
    (hτ : Solves value constraints τ) :
    Function.update σ c.1 (σ c.1 ⊔ value σ c.2) ≤ τ :=
  update_le_iff.mpr
    ⟨sup_le (hle c.1) ((hmono c.2 hle).trans (hτ c hc)), fun k _ => hle k⟩

/-- A key that is no target has the value of the base in a least solution. -/
theorem eq_of_not_target (hmono : ∀ s, Monotone fun σ => value σ s)
    {constraints : List (K × γ)} {base σ : K → α}
    (h : IsLeast (solutions value constraints base) σ) {k : K} (hk : ∀ c ∈ constraints, c.1 ≠ k) :
    σ k = base k := by
  obtain ⟨⟨hbase, hsolves⟩, hleast⟩ := h
  have hlow : Function.update σ k (base k) ≤ σ := update_le_iff.mpr ⟨hbase k, fun _ _ => le_rfl⟩
  have hle : σ ≤ Function.update σ k (base k) := by
    refine hleast ⟨le_update_iff.mpr ⟨le_rfl, fun j _ => hbase j⟩, fun c hc => ?_⟩
    rw [Function.update_of_ne (hk c hc)]
    exact (hmono c.2 hlow).trans (hsolves c hc)
  have hk' := hle k
  rw [Function.update_self] at hk'
  exact le_antisymm hk' (hbase k)

end Raise

end Dolang.LeastSolution
