import Dolang.Lib.Rust

/-!
# Sweeps until nothing changes

A loop that visits the items of an order one after another, and does so again as long as a visit
changed something. If each change lowers a measure, the loop ends, and every item is then settled
(`untilStable_ok`): the last sweep changed nothing, so all of its visits saw the same state.
-/

namespace Dolang.Sweeps

open Rust

variable {ε σ ι : Type}

/-- One sweep: visit the items in order, and tell whether a visit changed something. -/
def sweep (visit : ι → σ → Exec ε (σ × Bool)) : List ι → σ → Exec ε (σ × Bool)
  | [], s => .ok (s, false)
  | i :: order, s => do
    let (s', changed) ← visit i s
    let (s'', more) ← sweep visit order s'
    return (s'', changed || more)

/-- Sweep until nothing changes. -/
def untilStable (visit : ι → σ → Exec ε (σ × Bool)) (order : List ι) : Nat → σ → Exec ε σ
  | 0, _ => .error .fuel
  | fuel + 1, s => do
    let (s', changed) ← sweep visit order s
    if changed then untilStable visit order fuel s' else return s'

variable {visit : ι → σ → Exec ε (σ × Bool)} {Inv : σ → Prop} {Settled : ι → σ → Prop}
  {measure : σ → Nat} {order : List ι}

/-- What a visit has to do: keep the invariant, and either leave the state, where the item is
settled, or lower the measure. -/
def Visits (visit : ι → σ → Exec ε (σ × Bool)) (Inv : σ → Prop) (Settled : ι → σ → Prop)
    (measure : σ → Nat) (order : List ι) : Prop :=
  ∀ i ∈ order, ∀ s, Inv s → ∃ s' changed, visit i s = .ok (s', changed) ∧ Inv s' ∧
    if changed then measure s' < measure s else s' = s ∧ Settled i s

/-- A sweep settles each item, unless it lowers the measure. -/
theorem sweep_ok (hvisit : Visits visit Inv Settled measure order) {s : σ} (hs : Inv s) :
    ∃ s' changed, sweep visit order s = .ok (s', changed) ∧ Inv s' ∧
      if changed then measure s' < measure s else s' = s ∧ ∀ i ∈ order, Settled i s := by
  induction order generalizing s with
  | nil => exact ⟨s, false, rfl, hs, rfl, fun _ h => absurd h List.not_mem_nil⟩
  | cons i order ih =>
    obtain ⟨s₁, changed, hfirst, hs₁, hchanged⟩ := hvisit i List.mem_cons_self s hs
    obtain ⟨s₂, more, hrest, hs₂, hmore⟩ :=
      ih (fun j hj => hvisit j (List.mem_cons_of_mem _ hj)) hs₁
    refine ⟨s₂, changed || more, ?_, hs₂, ?_⟩
    · rw [sweep, hfirst, ok_bind]
      dsimp only
      rw [hrest]
      rfl
    cases changed with
    | true =>
      cases more with
      | true => exact Nat.lt_trans hmore hchanged
      | false => exact hmore.1 ▸ hchanged
    | false =>
      obtain ⟨rfl, hsettled⟩ := hchanged
      cases more with
      | true => exact hmore
      | false => exact ⟨hmore.1, List.forall_mem_cons.mpr ⟨hsettled, hmore.2⟩⟩

/-- The loop ends, and every item of the order is then settled. -/
theorem untilStable_ok (hvisit : Visits visit Inv Settled measure order) {s : σ} (hs : Inv s)
    {fuel : Nat} (hfuel : measure s < fuel) : ∃ s', untilStable visit order fuel s = .ok s' ∧
      Inv s' ∧ ∀ i ∈ order, Settled i s' := by
  induction fuel generalizing s with
  | zero => omega
  | succ fuel ih =>
    obtain ⟨s', changed, hsweep, hs', hchanged⟩ := sweep_ok hvisit hs
    rw [untilStable, hsweep, ok_bind]
    cases changed with
    | true => exact ih hs' (Nat.lt_of_lt_of_le hchanged (Nat.le_of_lt_succ hfuel))
    | false => exact ⟨s', rfl, hs', hchanged.1 ▸ hchanged.2⟩

end Dolang.Sweeps
