import Dolang.Compile.Graph

/-!
# What elaboration learns about variables

The variables of a scope while it is elaborated (`elab.rs`): each comes with the epoch of its last
update. A nested function marks what it uses as captured when it resolves a name, and a guard marks
everything that was updated since its statement began. An import of the prelude is emitted only when
something used or exported it, so a captured variable is always emitted (`Elaborated.emitted`): the
imports are bound before the first statement, and later updates use or export them.
-/

namespace Dolang.Compile

open Dolang.Rust

/-- The variables of a scope with the epochs of their last updates. -/
abbrev Bindings := List (Var × Nat)

namespace Bindings

/-- Updates a variable. -/
def update (b : Bindings) (index : Nat) (f : Var → Var) (epoch : Nat) : Bindings :=
  b.modify index fun p => (f p.1, epoch)

/-- `insert_with_lookup` and `insert_synthetic`. -/
def insert (b : Bindings) (isPrelude used exported : Bool) (epoch : Nat) : Bindings :=
  b ++ [({ captured := false, used, exported, isPrelude }, epoch)]

/-- `resolve_inner` in the scope that has the name. An import that names the variable again replaces
its origin. -/
def resolve (b : Bindings) (index : Nat) (capture : Bool) (promote : Option Bool) (epoch : Nat) :
    Bindings :=
  b.update index (fun v => {
    captured := v.captured || capture
    used := true
    exported := v.exported
    isPrelude := promote.getD v.isPrelude }) epoch

/-- `mark_local_used`. -/
def markLocalUsed (b : Bindings) (index epoch : Nat) : Bindings :=
  b.update index (fun v => { v with used := true }) epoch

/-- `mark_local_exported`. -/
def markLocalExported (b : Bindings) (index epoch : Nat) : Bindings :=
  b.update index (fun v => { v with exported := true }) epoch

/-- `mark_initialized`, for a binding that was made before its statement. -/
def markInitialized (b : Bindings) (index epoch : Nat) : Bindings :=
  b.update index (fun v => v) epoch

/-- `mark_captures_since`. -/
def markCapturesSince (b : Bindings) (epoch : Nat) : Bindings :=
  b.map fun p => if epoch < p.2 then ({ p.1 with captured := true }, p.2) else p

/-- What `elaborate` does to the variables of a module: a REPL exports all of its own, and exported
variables count as captured. -/
def markExports (b : Bindings) (repl : Var → Bool) : Bindings :=
  b.map fun p =>
    let v := if repl p.1 && !p.1.isPrelude then { p.1 with exported := true } else p.1
    (if v.exported then { v with captured := true } else v, p.2)

end Bindings

/-- The variables of a scope whose statements begin in the epoch `start`, at some later epoch. The
imports of the prelude are bound before that, and a guard's statement begins after it. A vector has
at most `usizeMax` elements. -/
inductive Elaborates (start : Nat) : Nat → Bindings → Prop where
  | new {epoch : Nat} : epoch ≤ start → Elaborates start epoch []
  | bumpEpoch {epoch : Nat} {b : Bindings} : Elaborates start epoch b → Elaborates start (epoch + 1) b
  | insert {epoch : Nat} {b : Bindings} {isPrelude used exported : Bool} :
      Elaborates start epoch b → (isPrelude = true → epoch ≤ start) → b.length < usizeMax →
      Elaborates start epoch (b.insert isPrelude used exported epoch)
  | resolve {epoch index : Nat} {b : Bindings} {capture : Bool} {promote : Option Bool} :
      Elaborates start epoch b → Elaborates start epoch (b.resolve index capture promote epoch)
  | markLocalUsed {epoch index : Nat} {b : Bindings} : Elaborates start epoch b →
      Elaborates start epoch (b.markLocalUsed index epoch)
  | markLocalExported {epoch index : Nat} {b : Bindings} : Elaborates start epoch b →
      Elaborates start epoch (b.markLocalExported index epoch)
  | markInitialized {epoch index : Nat} {b : Bindings} : Elaborates start epoch b →
      (∀ p, b[index]? = some p → p.1.isPrelude = false) →
      Elaborates start epoch (b.markInitialized index epoch)
  | markCapturesSince {epoch since : Nat} {b : Bindings} : Elaborates start epoch b → start ≤ since →
      Elaborates start epoch (b.markCapturesSince since)
  | markExports {epoch : Nat} {b : Bindings} {repl : Var → Bool} : Elaborates start epoch b →
      Elaborates start epoch (b.markExports repl)

/-- The variables of a scope after elaboration. -/
def Elaborated (vars : List Var) : Prop :=
  ∃ start epoch b, Elaborates start epoch b ∧ vars = b.map Prod.fst

/-- What holds of a variable at any time: if it is captured then it is emitted, and if it is not
emitted then it has not been updated since the statements began. -/
def BindingOk (start : Nat) (p : Var × Nat) : Prop :=
  p.1.isEmitted = true ∨ p.1.captured = false ∧ p.2 ≤ start

theorem BindingOk.update {start : Nat} {b : Bindings} {index epoch : Nat} {f : Var → Var}
    (h : ∀ p ∈ b, BindingOk start p)
    (hf : ∀ p, b[index]? = some p → (f p.1).isEmitted = true) :
    ∀ p ∈ b.update index f epoch, BindingOk start p := by
  intro p hp
  obtain ⟨i, hi⟩ := List.mem_iff_getElem?.mp hp
  rw [Bindings.update, List.getElem?_modify] at hi
  obtain ⟨q, hq, rfl⟩ := Option.map_eq_some_iff.mp hi
  by_cases hindex : index = i
  · subst hindex
    rw [if_pos rfl]
    exact .inl (hf q hq)
  · rw [if_neg hindex]
    exact h q (List.mem_iff_getElem?.mpr ⟨i, hq⟩)

/-- What is used or exported is emitted. -/
theorem isEmitted_of_used {v : Var} (h : (v.used || v.exported) = true) : v.isEmitted = true := by
  rw [Var.isEmitted, h, Bool.or_true]

theorem Elaborates.bindingOk {start epoch : Nat} {b : Bindings} (h : Elaborates start epoch b) :
    ∀ p ∈ b, BindingOk start p := by
  induction h with
  | new => exact nofun
  | bumpEpoch _ ih => exact ih
  | @insert epoch b isPrelude used exported _ hepoch _ ih =>
    intro p hp
    rcases List.mem_append.mp hp with hp | hp
    · exact ih p hp
    · obtain rfl := List.mem_singleton.mp hp
      cases isPrelude with
      | false => exact .inl rfl
      | true => exact .inr ⟨rfl, hepoch rfl⟩
  | resolve _ ih => exact BindingOk.update ih fun _ _ => isEmitted_of_used rfl
  | markLocalUsed _ ih => exact BindingOk.update ih fun _ _ => isEmitted_of_used rfl
  | markLocalExported _ ih =>
    exact BindingOk.update ih fun _ _ => isEmitted_of_used (Bool.or_true _)
  | markInitialized _ hown ih =>
    exact BindingOk.update ih fun p hp => by rw [Var.isEmitted, hown p hp]; rfl
  | @markCapturesSince epoch since b _ hsince ih =>
    intro p hp
    obtain ⟨q, hq, rfl⟩ := List.mem_map.mp hp
    split_ifs with hlt
    · -- A variable that was updated since then is emitted.
      obtain hemitted | ⟨-, hle⟩ := ih q hq
      · exact .inl hemitted
      · omega
    · exact ih q hq
  | @markExports epoch b repl _ ih =>
    intro p hp
    obtain ⟨q, hq, rfl⟩ := List.mem_map.mp hp
    dsimp only
    split_ifs with hrepl hexported hexported
    · exact .inl (isEmitted_of_used (Bool.or_true _))
    · exact absurd rfl hexported
    · exact .inl (isEmitted_of_used (by rw [hexported, Bool.or_true]))
    · exact ih q hq

/-- A captured variable is emitted. -/
theorem Elaborated.emitted {vars : List Var} (h : Elaborated vars) {v : Var} (hv : v ∈ vars)
    (hcaptured : v.captured = true) : v.isEmitted = true := by
  obtain ⟨start, epoch, b, hb, rfl⟩ := h
  obtain ⟨p, hp, rfl⟩ := List.mem_map.mp hv
  obtain hemitted | ⟨hnot, -⟩ := hb.bindingOk p hp
  · exact hemitted
  · rw [hnot] at hcaptured
    cases hcaptured

theorem Elaborated.length_le {vars : List Var} (h : Elaborated vars) : vars.length ≤ usizeMax := by
  obtain ⟨start, epoch, b, hb, rfl⟩ := h
  rw [List.length_map]
  induction hb with
  | new => exact Nat.zero_le _
  | insert _ _ hlen _ =>
    rw [Bindings.insert, List.length_append]
    exact hlen
  | bumpEpoch _ ih => exact ih
  | resolve _ ih => rwa [Bindings.resolve, Bindings.update, List.length_modify]
  | markLocalUsed _ ih => rwa [Bindings.markLocalUsed, Bindings.update, List.length_modify]
  | markLocalExported _ ih => rwa [Bindings.markLocalExported, Bindings.update, List.length_modify]
  | markInitialized _ _ ih => rwa [Bindings.markInitialized, Bindings.update, List.length_modify]
  | markCapturesSince _ _ ih => rwa [Bindings.markCapturesSince, List.length_map]
  | markExports _ ih => rwa [Bindings.markExports, List.length_map]

end Dolang.Compile
