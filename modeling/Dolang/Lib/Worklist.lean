import Dolang.Lib.Rust

/-!
# Worklist loops

The loop `while let Some(i) = queue.pop() { .. }`, whose body takes an item, changes a state and
pushes further items. The queue is a list with the next item in front, so `visit` returns what it
pushed with the last pushed item first.

Three rules reason about the loop: an invariant of the body is an invariant of the loop
(`run_invariant`), a body that decreases a measure with each item taken ends the loop
(`run_returns`, `run_ok`), and more fuel changes no result (`run_mono`).

The last part is about the loop that may take any queued item (`Turns`, `Ends`), with the same rules
and the fact that the loop above is one of its orders (`run_cases`).
-/

namespace Dolang.Worklist

open Dolang.Rust

variable {ε σ ι : Type}

/-- Take items off the queue until it is empty. -/
def run (visit : ι → σ → Exec ε (σ × List ι)) : Nat → σ → List ι → Exec ε σ
  | _, s, [] => .ok s
  | 0, _, _ :: _ => .error .fuel
  | fuel + 1, s, i :: queue => do
    let (s', pushed) ← visit i s
    run visit fuel s' (pushed ++ queue)

variable {visit : ι → σ → Exec ε (σ × List ι)}

@[simp]
theorem run_nil (fuel : Nat) (s : σ) : run visit fuel s [] = .ok s := by
  cases fuel <;> rfl

/-- What holds before the loop and is kept by its body holds after the loop, of an empty queue. -/
theorem run_invariant (Inv : σ → List ι → Prop)
    (hstep : ∀ i s queue s' pushed, Inv s (i :: queue) → visit i s = .ok (s', pushed) →
      Inv s' (pushed ++ queue)) :
    ∀ {fuel : Nat} {s s' : σ} {queue : List ι}, Inv s queue →
      run visit fuel s queue = .ok s' → Inv s' [] := by
  intro fuel
  induction fuel with
  | zero =>
    intro s s' queue hs hrun
    cases queue with
    | nil => cases hrun; exact hs
    | cons i queue => cases hrun
  | succ fuel ih =>
    intro s s' queue hs hrun
    cases queue with
    | nil => cases hrun; exact hs
    | cons i queue =>
      obtain ⟨⟨t, pushed⟩, hvisit, hrest⟩ := bind_ok hrun
      exact ih (hstep i s queue t pushed hs hvisit) hrest

/-- A loop returns when its body does and lowers a measure with each item it takes. -/
theorem run_returns (Inv : σ → List ι → Prop) (measure : σ → Nat)
    (hreturns : ∀ i s queue, Inv s (i :: queue) → Returns (visit i s))
    (hstep : ∀ i s queue s' pushed, Inv s (i :: queue) → visit i s = .ok (s', pushed) →
      Inv s' (pushed ++ queue) ∧ measure s' + pushed.length ≤ measure s) :
    ∀ {fuel : Nat} {s : σ} {queue : List ι}, Inv s queue →
      measure s + queue.length ≤ fuel → Returns (run visit fuel s queue) := by
  intro fuel
  induction fuel with
  | zero =>
    intro s queue hs hle
    cases queue with
    | nil => exact Returns.ok s
    | cons i queue => simp at hle
  | succ fuel ih =>
    intro s queue hs hle
    cases queue with
    | nil => exact Returns.ok s
    | cons i queue =>
      refine Returns.bind (hreturns i s queue hs) ?_
      rintro ⟨t, pushed⟩ hvisit
      obtain ⟨ht, hmeasure⟩ := hstep i s queue t pushed hs hvisit
      refine ih ht ?_
      simp only [List.length_append, List.length_cons] at hle ⊢
      omega

/-- A loop whose body succeeds whenever the invariant holds, and lowers a measure with each item
it takes, succeeds. -/
theorem run_ok (Inv : σ → List ι → Prop) (measure : σ → Nat)
    (hstep : ∀ i s queue, Inv s (i :: queue) → ∃ s' pushed, visit i s = .ok (s', pushed) ∧
      Inv s' (pushed ++ queue) ∧ measure s' + pushed.length ≤ measure s) :
    ∀ {fuel : Nat} {s : σ} {queue : List ι}, Inv s queue →
      measure s + queue.length ≤ fuel →
      ∃ s', run visit fuel s queue = .ok s' ∧ Inv s' [] := by
  intro fuel
  induction fuel with
  | zero =>
    intro s queue hs hle
    cases queue with
    | nil => exact ⟨s, rfl, hs⟩
    | cons i queue => simp at hle
  | succ fuel ih =>
    intro s queue hs hle
    cases queue with
    | nil => exact ⟨s, rfl, hs⟩
    | cons i queue =>
      obtain ⟨t, pushed, hvisit, ht, hmeasure⟩ := hstep i s queue hs
      have hle' : measure t + (pushed ++ queue).length ≤ fuel := by
        simp only [List.length_append, List.length_cons] at hle ⊢
        omega
      obtain ⟨s', hrun, hs'⟩ := ih ht hle'
      refine ⟨s', ?_, hs'⟩
      rw [run, hvisit]
      exact hrun

/-- A run that does not exhaust its fuel is the same with more fuel. -/
theorem run_mono {fuel : Nat} :
    ∀ {fuel' : Nat} {s : σ} {queue : List ι}, fuel ≤ fuel' →
      Settles (run visit fuel s queue) (run visit fuel' s queue) := by
  induction fuel with
  | zero =>
    intro fuel' s queue _ hrun
    cases queue with
    | nil => rw [run_nil, run_nil]
    | cons i queue => exact absurd rfl hrun
  | succ fuel ih =>
    intro fuel' s queue hle hrun
    cases queue with
    | nil => rw [run_nil, run_nil]
    | cons i queue =>
      obtain ⟨fuel', rfl⟩ : ∃ n, fuel' = n + 1 := ⟨fuel' - 1, by omega⟩
      rw [run] at hrun
      rw [run, run]
      cases hvisit : visit i s with
      | error e => rfl
      | ok r =>
        rw [hvisit] at hrun
        exact ih (by omega) hrun

/-! ## Any order -/

/-- A number of turns of the loop, each of which takes some queued item, from one state and queue to
another. -/
inductive Turns (visit : ι → σ → Exec ε (σ × List ι)) :
    Nat → σ → List ι → σ → List ι → Prop where
  | refl (s : σ) (queue : List ι) : Turns visit 0 s queue s queue
  | turn {n : Nat} {s t s' : σ} {queue rest pushed queue' : List ι} {i : ι}
      (hqueue : queue.Perm (i :: rest)) (hvisit : visit i s = .ok (t, pushed))
      (hrest : Turns visit n t (pushed ++ rest) s' queue') : Turns visit (n + 1) s queue s' queue'

/-- The results that the loop can have when any queued item may be taken. -/
inductive Ends (visit : ι → σ → Exec ε (σ × List ι)) (s : σ) (queue : List ι) :
    Exec ε σ → Prop where
  | done {n : Nat} {s' : σ} (h : Turns visit n s queue s' []) : Ends visit s queue (.ok s')
  | failed {n : Nat} {s' : σ} {queue' : List ι} {i : ι} {e : Fault ε}
      (h : Turns visit n s queue s' queue') (hi : i ∈ queue') (hvisit : visit i s' = .error e) :
      Ends visit s queue (.error e)

/-- What every turn keeps is kept by a number of them, and when each turn lowers a measure, that
measure bounds their number. -/
theorem Turns.invariant (Inv : σ → List ι → Prop) (measure : σ → Nat)
    (hperm : ∀ {s queue queue'}, queue.Perm queue' → Inv s queue → Inv s queue')
    (hstep : ∀ i s queue s' pushed, Inv s (i :: queue) → visit i s = .ok (s', pushed) →
      Inv s' (pushed ++ queue) ∧ measure s' + pushed.length ≤ measure s)
    {n : Nat} {s s' : σ} {queue queue' : List ι} (h : Turns visit n s queue s' queue')
    (hs : Inv s queue) :
    Inv s' queue' ∧ n + (measure s' + queue'.length) ≤ measure s + queue.length := by
  induction h with
  | refl s queue => exact ⟨hs, by omega⟩
  | turn hqueue hvisit _ ih =>
    obtain ⟨ht, hmeasure⟩ := hstep _ _ _ _ _ (hperm hqueue hs) hvisit
    obtain ⟨hs', hle⟩ := ih ht
    have hlen := hqueue.length_eq
    simp only [List.length_append, List.length_cons] at hle hlen
    exact ⟨hs', by omega⟩

/-- A turn before the others. -/
theorem Ends.turn {s t : σ} {queue rest pushed : List ι} {i : ι} {r : Exec ε σ}
    (hqueue : queue.Perm (i :: rest)) (hvisit : visit i s = .ok (t, pushed))
    (h : Ends visit t (pushed ++ rest) r) : Ends visit s queue r := by
  cases h with
  | done h => exact .done (.turn hqueue hvisit h)
  | failed h hi hvisit' => exact .failed (.turn hqueue hvisit h) hi hvisit'

/-- The loop that takes the last pushed item ends as some order does, unless its fuel is used up. -/
theorem run_cases (fuel : Nat) (s : σ) (queue : List ι) :
    Ends visit s queue (run visit fuel s queue) ∨
      ∃ s' i rest, Turns visit fuel s queue s' (i :: rest) ∧
        run visit fuel s queue = .error .fuel := by
  induction fuel generalizing s queue with
  | zero =>
    cases queue with
    | nil => exact .inl (.done (.refl s []))
    | cons i queue => exact .inr ⟨s, i, queue, .refl _ _, rfl⟩
  | succ fuel ih =>
    cases queue with
    | nil => exact .inl (.done (.refl s []))
    | cons i queue =>
      rw [run]
      cases hvisit : visit i s with
      | error e => exact .inl (.failed (.refl s (i :: queue)) (by simp) hvisit)
      | ok r =>
        obtain ⟨t, pushed⟩ := r
        rcases ih t (pushed ++ queue) with hends | ⟨s', j, rest, hturns, hrun⟩
        · exact .inl (.turn (List.Perm.refl _) hvisit hends)
        · exact .inr ⟨s', j, rest, .turn (List.Perm.refl _) hvisit hturns, hrun⟩

/-- Replacing an element by one that does not count lowers a count by what the element counted. -/
theorem countP_set_of_not {α : Type} {p : α → Bool} {l : List α} {i : Nat} {a b : α}
    (h : l[i]? = some a) (hb : p b = false) :
    (l.set i b).countP p + (if p a then 1 else 0) = l.countP p := by
  obtain ⟨hlt, rfl⟩ := List.getElem?_eq_some_iff.mp h
  rw [List.countP_set hlt, hb]
  have hpos : p l[i] = true → 0 < l.countP p := fun hp =>
    List.countP_pos_iff.mpr ⟨l[i], List.getElem_mem hlt, hp⟩
  cases hp : p l[i] with
  | false => simp
  | true =>
    have := hpos hp
    simp only [if_true, Bool.false_eq_true, if_false]
    omega

end Dolang.Worklist
