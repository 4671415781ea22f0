import Dolang.Compile.Graph
import Dolang.Runtime.Chain

/-!
# Variables and upvar records

Lowering turns a variable reference into a local or into a position in the chain of upvar records
(`resolveVarInScope`, from `dolang-compile/src/lower.rs`), and emission declares the records that a
function is entered with (`Graph.upvars`, from `dolang-compile/src/emit.rs`). At run time the chain
grows by what the code of each scope pushes: a record when a scope with captured variables is
entered, and a marker when a guard is (`Env`). `resolve_agrees` says that the three agree.

The resolver's depth does not count guards. `resolveVarInScope` passes over any number of them on
its way, but over only one of them at the end, so it finds no variable from a guard that is directly
inside another one.
-/

namespace Dolang.Compile

open Dolang.Rust Dolang.Bytecode Dolang.Runtime

/-! ## Resolution -/

/-- `lower::Var`. -/
inductive Slot where
  | localVar (index : Nat)
  | upvar (index : Nat) (depth : Nat)
  deriving DecidableEq, Repr

/-- The loop of `resolve_var_in_scope` over the scopes, from the inside. -/
def walkUp : List (Nat × Scope) → Nat → Nat → Exec Empty (List (Nat × Scope) × Nat)
  | [], _, _ => abort
  | scopes, 0, up => .ok (scopes, up)
  | (_, sc) :: scopes, remaining + 1, up =>
    let up := up + if sc.hasUpvars then 1 else 0
    if !sc.isNlGuard then walkUp scopes remaining up else walkUp scopes (remaining + 1) (up + 1)

/-- The loop of `resolve_var_in_scope` over the emitted variables of a scope. -/
def findVar (index up localOffset : Nat) : List (Var × Nat) → Nat → Nat → Exec Empty Slot
  | [], _, _ => abort
  | (v, j) :: vars, i, caps =>
    if index = j then
      if v.captured then .ok (.upvar caps up)
      else do
        let i ← unwrap (checkedSub i caps)
        return .localVar (← strictAdd i localOffset)
    else findVar index up localOffset vars (i + 1) (caps + if v.captured then 1 else 0)

/-- The emitted variables of a scope with their positions among all of them. -/
def Scope.emitted (sc : Scope) : List (Var × Nat) := sc.vars.zipIdx.filter (·.1.isEmitted)

/-- `resolve_var_in_scope`, given the scope and those around it. -/
def resolveVarInScope (scopes : List (Nat × Scope)) (index depth : Nat) : Exec Empty Slot := do
  let (scopes, up) ← walkUp scopes depth 0
  match scopes with
  | [] => abort
  | (_, sc) :: scopes =>
    if sc.isNlGuard then
      match scopes with
      | [] => abort
      | (_, sc) :: _ => findVar index (up + 1) sc.localOffset sc.emitted 0 0
    else findVar index up sc.localOffset sc.emitted 0 0

/-- `scope_to_upvar_depth`, given the scope of the block and those around it. -/
def scopeToUpvarDepth : List (Nat × Scope) → Nat → Exec Empty Nat
  | [], _ => abort
  | _, 0 => .ok 0
  | (_, sc) :: scopes, depth + 1 => do
    let up ← scopeToUpvarDepth scopes depth
    return (if sc.hasUpvars then 1 else 0) + (if sc.isNlGuard then 1 else 0) + up

/-- `Emitter::upvars`, given the scope of the function's first block and those around it. -/
def upvarsFrom : List (Nat × Scope) → List Nat
  | [] => []
  | (_, sc) :: scopes =>
    ((if sc.isNlGuard then [0] else []) ++ scopes.flatMap fun (p : Nat × Scope) =>
      (if p.2.hasUpvars then [p.2.caps] else []) ++ if p.2.isNlGuard then [0] else []).reverse

/-- `Emitter::upvars`. -/
def Graph.upvars (g : Graph) (func : Func) : Exec Empty (List Nat) := do
  let b ← unwrap g.blocks[func.enter]?
  return upvarsFrom (g.around (some b.scope))

/-! ## The chain at run time -/

/-- What an upvar record is for: the captured variables of a scope, or a guard. -/
inductive Owner where
  | captures (scope : Nat)
  | marker (scope : Nat)
  deriving DecidableEq, Repr

/-- What the code of a scope pushes when the scope is entered. A guard is entered by an `NlGuard`,
which pushes the marker and calls the guard's function. The prologue of a scope with captured
variables pushes a record for them. -/
def enter (s : Nat) (sc : Scope) (st : Shared) (this : Option Nat) (recs : List (Owner × Nat)) :
    Shared × Option Nat × List (Owner × Nat) :=
  let (st, this, recs) :=
    if sc.isNlGuard then
      let (st, p) := st.alloc this []
      (st, some p, (.marker s, p) :: recs)
    else (st, this, recs)
  if sc.hasUpvars then
    let (st, p) := st.alloc this (List.replicate sc.caps .nil)
    (st, some p, (.captures s, p) :: recs)
  else (st, this, recs)

/-- In a state of the run, code of a scope runs with a pointer to a chain of records with the given
owners and pointers, from the inside. A scope inside another one, a function that was made there and
a guard all start from the chain of the scope around them. -/
inductive Env (g : Graph) : Shared → Nat → Option Nat → List (Owner × Nat) → Prop where
  | root {st : Shared} {s : Nat} {sc : Scope} : g.scopes[s]? = some sc → sc.parent = none →
      Env g (enter s sc st none []).1 s (enter s sc st none []).2.1 (enter s sc st none []).2.2
  | inside {st : Shared} {p s : Nat} {sc : Scope} {this : Option Nat}
      {recs : List (Owner × Nat)} : Env g st p this recs → g.scopes[s]? = some sc →
      sc.parent = some p →
      Env g (enter s sc st this recs).1 s (enter s sc st this recs).2.1 (enter s sc st this recs).2.2
  /-- Other code runs in between. -/
  | later {st st' : Shared} {s : Nat} {this : Option Nat} {recs : List (Owner × Nat)} :
      Env g st s this recs → st.heap.Extends st'.heap → Env g st' s this recs

/-- A guard is entered by its `NlGuard`: the guard's function gets the chain with the marker. -/
theorem exec_nlGuard {s : Nat} {sc : Scope} (hguard : sc.isNlGuard = true)
    (hcaps : sc.hasUpvars = false) (program : Program) (st : Shared) (f : CallFrame)
    (index before after : Nat) (recs : List (Owner × Nat)) :
    let (st', this, _) := enter s sc st f.upvars recs
    exec program st f ⟨before, .nlGuard index, after⟩ =
      .ok (st'.function index this,
        { f with upvars := this }.wait ⟨before, .nlGuard index, after⟩) := by
  simp only [enter, hguard, hcaps, if_true, Bool.false_eq_true, if_false]
  rfl

/-- A scope with captured variables is entered by its `PushUpvars`. -/
theorem exec_pushUpvars {s : Nat} {sc : Scope} (hguard : sc.isNlGuard = false)
    (hcaps : sc.hasUpvars = true) (program : Program) (st : Shared) (f : CallFrame)
    (before after : Nat) (recs : List (Owner × Nat)) :
    let (st', this, _) := enter s sc st f.upvars recs
    exec program st f ⟨before, .pushUpvars sc.caps, after⟩ = .ok (st', { f with upvars := this }) := by
  simp only [enter, hguard, hcaps, if_true, Bool.false_eq_true, if_false]
  rfl

/-- The number of variables of a record. -/
def Owner.size (g : Graph) : Owner → Nat
  | .captures s => (g.scopes[s]?.map (·.caps)).getD 0
  | .marker _ => 0

theorem Owner.size_captures {g : Graph} {s : Nat} {sc : Scope} (h : g.scopes[s]? = some sc) :
    (Owner.captures s).size g = sc.caps := by
  rw [Owner.size, h]
  rfl

@[simp]
theorem Owner.size_marker (g : Graph) (s : Nat) : (Owner.marker s).size g = 0 := rfl

/-- Records are linked from a pointer outwards. -/
def Linked (g : Graph) (heap : Heap) : Option Nat → List (Owner × Nat) → Prop
  | this, [] => this = none
  | this, (o, p) :: recs => this = some p ∧
      ∃ r, heap[p]? = some r ∧ r.vars.length = o.size g ∧ Linked g heap r.parent recs

/-- The owners of the records around a scope. -/
def owners : List (Nat × Scope) → List Owner
  | [] => []
  | (s, sc) :: scopes =>
    (if sc.hasUpvars then [.captures s] else []) ++ (if sc.isNlGuard then [.marker s] else []) ++
      owners scopes

section

variable {g : Graph} {heap heap' : Heap} {this : Option Nat} {recs : List (Owner × Nat)}

theorem Linked.mono (h : Linked g heap this recs) (hext : heap.Extends heap') :
    Linked g heap' this recs := by
  induction recs generalizing this with
  | nil => exact h
  | cons o recs ih =>
    obtain ⟨rfl, r, hr, hlen, hrest⟩ := h
    obtain ⟨r', hr', hparent, hlen'⟩ := hext _ r hr
    exact ⟨rfl, r', hr', hlen'.trans hlen, hparent ▸ ih hrest⟩

/-- The sizes of linked records. -/
theorem Linked.chainIs (h : Linked g heap this recs) :
    ChainIs heap this (recs.map fun r => r.1.size g) := by
  induction recs generalizing this with
  | nil => exact h
  | cons o recs ih =>
    obtain ⟨rfl, r, hr, hlen, hrest⟩ := h
    exact ⟨_, r, rfl, hr, hlen, ih hrest⟩

/-- The record at a depth is the one with that position. -/
theorem Linked.atDepth (h : Linked g heap this recs) {d p : Nat} {o : Owner}
    (hd : recs[d]? = some (o, p)) :
    Upvars.atDepth heap this d = .ok p ∧ ∃ r, heap[p]? = some r ∧ r.vars.length = o.size g := by
  induction d generalizing this recs with
  | zero =>
    cases recs with
    | nil => cases hd
    | cons q recs =>
      cases hd
      obtain ⟨rfl, r, hr, hlen, -⟩ := h
      exact ⟨rfl, r, hr, hlen⟩
  | succ d ih =>
    cases recs with
    | nil => cases hd
    | cons q recs =>
      obtain ⟨rfl, r, hr, -, hrest⟩ := h
      obtain ⟨hp, hsize⟩ := ih hrest hd
      refine ⟨?_, hsize⟩
      simp only [Upvars.atDepth, unwrap, ok_bind, hr]
      exact hp

/-- Entering a scope links what it pushes to the chain. -/
theorem Linked.enter {st : Shared} {s : Nat} {sc : Scope} (h : Linked g st.heap this recs)
    (hs : g.scopes[s]? = some sc) :
    Linked g (enter s sc st this recs).1.heap (enter s sc st this recs).2.1
      (enter s sc st this recs).2.2 ∧
    (enter s sc st this recs).2.2.map Prod.fst =
      (if sc.hasUpvars then [.captures s] else []) ++ (if sc.isNlGuard then [.marker s] else []) ++
        recs.map Prod.fst := by
  -- One record that is pushed on a chain.
  have hpush : ∀ {st : Shared} {this recs} (vars : List Value) (o : Owner),
      Linked g st.heap this recs → vars.length = o.size g →
      Linked g (st.alloc this vars).1.heap (some (st.alloc this vars).2)
        ((o, (st.alloc this vars).2) :: recs) := by
    intro st this recs vars o hlinked hlen
    exact ⟨rfl, ⟨this, vars, false⟩, by simp [Shared.alloc], hlen,
      hlinked.mono (Heap.extends_append _ _)⟩
  have hsize : (List.replicate sc.caps Value.nil).length = (Owner.captures s).size g := by
    simp [Owner.size_captures hs]
  unfold Compile.enter
  cases sc.isNlGuard <;> cases sc.hasUpvars <;>
    simp only [Bool.false_eq_true, if_false, if_true, List.map_cons, List.nil_append,
      List.cons_append, List.append_nil, and_true]
  · exact h
  · exact hpush _ _ h hsize
  · exact hpush _ _ h rfl
  · exact hpush _ _ (hpush _ _ h rfl) hsize

end

/-- The records of running code are linked, and they are those of the scopes around it. -/
theorem Env.linked {g : Graph} (hg : GraphOk g) {st : Shared} {s : Nat} {this : Option Nat}
    {recs : List (Owner × Nat)} (h : Env g st s this recs) :
    Linked g st.heap this recs ∧ recs.map Prod.fst = owners (g.around (some s)) := by
  induction h with
  | @root st s sc hs hparent =>
    have hnone : Linked g st.heap none [] := rfl
    obtain ⟨hlinked, howners⟩ := hnone.enter hs
    refine ⟨hlinked, ?_⟩
    rw [howners, hg.around_eq hs, hparent]
    cases h : g.scopes.length <;> simp [owners, Graph.around, Graph.aroundFuel, h]
  | inside _ hs hparent ih =>
    obtain ⟨hlinked, howners⟩ := ih.1.enter hs
    refine ⟨hlinked, ?_⟩
    rw [howners, ih.2, hg.around_eq hs, hparent]
    rfl
  | later _ hext ih => exact ⟨ih.1.mono hext, ih.2⟩

/-! ## Where a reference leads -/

/-- The scope that a reference with a lexical depth is to: guards do not count. -/
def definingScope (scopes : List (Nat × Scope)) (depth : Nat) : Option (Nat × Scope) :=
  (scopes.filter (!·.2.isNlGuard))[depth]?

/-- The variables of a scope's record by their positions in the scope: its slots in order. -/
def Scope.layout (sc : Scope) : List Nat := (sc.emitted.filter (·.1.captured)).map (·.2)

/-- The numbers of variables of the records that a function has pushed since it was entered, from
the inside: up to the scope of the function. -/
def enteredSince : List (Nat × Scope) → List Nat
  | [] => []
  | (_, sc) :: scopes =>
    (if sc.hasUpvars then [sc.caps] else []) ++
      if sc.func.isSome then [] else enteredSince scopes

/-- No guard is directly inside another one. -/
def GuardsApart (scopes : List (Nat × Scope)) : Prop :=
  scopes.IsChain fun inner outer => inner.2.isNlGuard = true → outer.2.isNlGuard = false

theorem owners_append (a b : List (Nat × Scope)) : owners (a ++ b) = owners a ++ owners b := by
  induction a with
  | nil => rfl
  | cons p a ih => simp only [List.cons_append, owners, ih, List.append_assoc]

/-- The walk leaves the scopes from some point on, and counts the records of those before. -/
theorem walkUp_spec {scopes rest : List (Nat × Scope)} {depth up d : Nat}
    (h : walkUp scopes depth up = .ok (rest, d)) :
    ∃ inner, scopes = inner ++ rest ∧ d = up + (owners inner).length ∧
      (inner.filter (!·.2.isNlGuard)).length = depth := by
  induction scopes generalizing depth up with
  | nil => cases h
  | cons p scopes ih =>
    cases depth with
    | zero =>
      cases h
      exact ⟨[], rfl, rfl, rfl⟩
    | succ depth =>
      simp only [walkUp] at h
      split at h
      · rename_i hguard
        obtain ⟨inner, rfl, rfl, hlen⟩ := ih h
        refine ⟨p :: inner, rfl, ?_, ?_⟩
        · have : p.2.isNlGuard = false := by simpa using hguard
          cases hu : p.2.hasUpvars <;> simp [owners, hu, this]; omega
        · rw [List.filter_cons_of_pos (by exact hguard), List.length_cons, hlen]
      · rename_i hguard
        obtain ⟨inner, rfl, rfl, hlen⟩ := ih h
        refine ⟨p :: inner, rfl, ?_, ?_⟩
        · have : p.2.isNlGuard = true := by simpa using hguard
          cases hu : p.2.hasUpvars <;> simp [owners, hu, this] <;> omega
        · rw [List.filter_cons_of_neg (by exact hguard), hlen]

/-- The walk reaches the scope of a reference, or the guard that is directly inside it. -/
theorem walkUp_total {scopes : List (Nat × Scope)} {depth : Nat} {t : Nat × Scope}
    (hdef : definingScope scopes depth = some t) (hapart : GuardsApart scopes) (up : Nat) :
    ∃ rest d, walkUp scopes depth up = .ok (rest, d) ∧
      ((∃ outer, rest = t :: outer) ∨ ∃ q outer, q.2.isNlGuard = true ∧ rest = q :: t :: outer) := by
  induction scopes generalizing depth up with
  | nil => cases hdef
  | cons p scopes ih =>
    have hapart' : GuardsApart scopes := hapart.tail
    unfold definingScope at hdef
    cases hguard : p.2.isNlGuard with
    | true =>
      rw [List.filter_cons_of_neg (by simp [hguard])] at hdef
      cases depth with
      | zero =>
        refine ⟨p :: scopes, up, rfl, .inr ⟨p, ?_⟩⟩
        cases scopes with
        | nil => cases hdef
        | cons q scopes =>
          have hq : q.2.isNlGuard = false := by
            have := List.isChain_cons_cons.mp hapart
            exact this.1 hguard
          rw [List.filter_cons_of_pos (by simp [hq])] at hdef
          cases hdef
          exact ⟨scopes, hguard, rfl⟩
      | succ depth =>
        obtain ⟨rest, d, hwalk, hrest⟩ := ih hdef hapart' (up + (if p.2.hasUpvars then 1 else 0) + 1)
        refine ⟨rest, d, ?_, hrest⟩
        simp only [walkUp, hguard, Bool.not_true, Bool.false_eq_true, if_false]
        exact hwalk
    | false =>
      rw [List.filter_cons_of_pos (by simp [hguard])] at hdef
      cases depth with
      | zero =>
        obtain rfl : p = t := by simpa using hdef
        exact ⟨p :: scopes, up, rfl, .inl ⟨scopes, rfl⟩⟩
      | succ depth =>
        obtain ⟨rest, d, hwalk, hrest⟩ := ih hdef hapart' (up + if p.2.hasUpvars then 1 else 0)
        refine ⟨rest, d, ?_, hrest⟩
        simp only [walkUp, hguard, Bool.not_false, if_true]
        exact hwalk

/-- A captured variable that is found has the slot of its position in the layout. -/
theorem findVar_upvar {index up off : Nat} {vars : List (Var × Nat)} {i caps slot d : Nat}
    (h : findVar index up off vars i caps = .ok (.upvar slot d)) :
    d = up ∧ caps ≤ slot ∧ ((vars.filter (·.1.captured)).map (·.2))[slot - caps]? = some index := by
  induction vars generalizing i caps with
  | nil => cases h
  | cons v vars ih =>
    simp only [findVar] at h
    split at h
    · rename_i hindex
      split at h
      · rename_i hcaptured
        cases h
        refine ⟨rfl, Nat.le_refl _, ?_⟩
        rw [List.filter_cons_of_pos (by exact hcaptured), Nat.sub_self, hindex]
        rfl
      · obtain ⟨a, -, h⟩ := bind_ok h
        obtain ⟨b, -, h⟩ := bind_ok h
        cases h
    · obtain ⟨hd, hle, hslot⟩ := ih h
      cases hcaptured : v.1.captured with
      | true =>
        rw [hcaptured] at hle hslot
        rw [List.filter_cons_of_pos (by exact hcaptured)]
        simp only [if_true] at hle hslot
        have hsub : slot - caps = (slot - (caps + 1)) + 1 := by omega
        refine ⟨hd, by omega, ?_⟩
        rw [hsub]
        exact hslot
      | false =>
        rw [hcaptured] at hle hslot
        rw [List.filter_cons_of_neg (by simp [hcaptured])]
        exact ⟨hd, hle, hslot⟩

/-- A captured variable is found. -/
theorem findVar_total {index up off : Nat} {vars : List (Var × Nat)}
    (hmem : ∃ v, (v, index) ∈ vars) (hcaptured : ∀ v, (v, index) ∈ vars → v.captured = true)
    (i caps : Nat) : ∃ slot, findVar index up off vars i caps = .ok (.upvar slot up) := by
  induction vars generalizing i caps with
  | nil =>
    obtain ⟨v, hv⟩ := hmem
    cases hv
  | cons w vars ih =>
    obtain ⟨w, j⟩ := w
    simp only [findVar]
    by_cases hindex : index = j
    · subst hindex
      rw [if_pos rfl, if_pos (hcaptured w List.mem_cons_self)]
      exact ⟨caps, rfl⟩
    · rw [if_neg hindex]
      obtain ⟨v, hv⟩ := hmem
      have htail : (v, index) ∈ vars := by
        rcases List.mem_cons.mp hv with heq | htail
        · cases heq
          exact absurd rfl hindex
        · exact htail
      exact ih ⟨v, htail⟩ (fun u hu => hcaptured u (List.mem_cons_of_mem _ hu)) _ _

/-- The emitted variables of a scope by position. -/
theorem Scope.mem_emitted {sc : Scope} {v : Var} {j : Nat} :
    (v, j) ∈ sc.emitted ↔ sc.vars[j]? = some v ∧ v.isEmitted = true := by
  simp [Scope.emitted, List.mem_filter, List.mem_zipIdx_iff_getElem?]

/-- A slot of a scope is one of the variables of its record. -/
theorem ScopeOk.layout_lt {s : Nat} {sc : Scope} (h : ScopeOk s sc) :
    sc.layout.length ≤ sc.caps := by
  have hzip : sc.vars = sc.vars.zipIdx.map Prod.fst := by simp
  calc sc.layout.length
      = (sc.emitted.filter (·.1.captured)).length := by rw [Scope.layout, List.length_map]
    _ ≤ (sc.vars.zipIdx.filter (·.1.captured)).length := by
        apply List.Sublist.length_le
        exact List.Sublist.filter _ List.filter_sublist
    _ = sc.vars.countP (·.captured) := by
        rw [← List.countP_eq_length_filter]
        conv_rhs => rw [hzip, List.countP_map]
        rfl
    _ = sc.caps := h.caps.symm

/-- What a reference that resolves to an upvar has found on the way: the records of the scopes
before, and the scope that the reference is to. -/
theorem resolve_upvar {scopes : List (Nat × Scope)} {index depth slot d : Nat}
    (hok : ∀ p ∈ scopes, ScopeOk p.1 p.2)
    (h : resolveVarInScope scopes index depth = .ok (.upvar slot d)) :
    ∃ inner t outer, scopes = inner ++ t :: outer ∧ definingScope scopes depth = some t ∧
      d = (owners inner).length ∧ t.2.layout[slot]? = some index := by
  unfold resolveVarInScope at h
  obtain ⟨⟨rest, up⟩, hwalk, h⟩ := bind_ok h
  obtain ⟨inner, rfl, hup, hdepth⟩ := walkUp_spec hwalk
  rw [Nat.zero_add] at hup
  subst hup
  -- A scope in which a variable is found is no guard.
  have hfound : ∀ {sc : Scope} {s up : Nat}, ScopeOk s sc →
      findVar index up sc.localOffset sc.emitted 0 0 = .ok (.upvar slot d) →
      sc.isNlGuard = false ∧ d = up ∧ sc.layout[slot]? = some index := by
    intro sc s up hsc hfind
    obtain ⟨hd, -, hslot⟩ := findVar_upvar hfind
    refine ⟨?_, hd, hslot⟩
    by_contra hguard
    have hvars := (hsc.guard (by simpa using hguard)).1
    rw [Scope.emitted, hvars] at hfind
    cases hfind
  cases rest with
  | nil => cases h
  | cons t outer =>
    simp only at h
    split at h
    · rename_i hguard
      cases outer with
      | nil => cases h
      | cons q outer =>
        obtain ⟨hq, rfl, hslot⟩ := hfound (hok q (by simp)) h
        have hnovars : t.2.hasUpvars = false := by
          have hsc := hok t (by simp)
          rw [Scope.hasUpvars, hsc.caps, (hsc.guard hguard).1]
          rfl
        refine ⟨inner ++ [t], q, outer, by simp, ?_, ?_, hslot⟩
        · rw [definingScope, List.filter_append, List.filter_cons_of_neg (by simp [hguard]),
            List.filter_cons_of_pos (by simp [hq]), ← hdepth]
          simp
        · rw [owners_append, List.length_append]
          simp [owners, hguard, hnovars]
    · rename_i hguard
      obtain ⟨ht, rfl, hslot⟩ := hfound (hok t (by simp)) h
      refine ⟨inner, t, outer, rfl, ?_, rfl, hslot⟩
      rw [definingScope, List.filter_append, List.filter_cons_of_pos (by simp [ht]), ← hdepth]
      simp

/-- A reference to a captured variable resolves to an upvar. -/
theorem resolve_total {scopes : List (Nat × Scope)} {index depth : Nat} {t : Nat × Scope}
    (hapart : GuardsApart scopes) (hdef : definingScope scopes depth = some t)
    (hindex : index ∈ t.2.layout) :
    ∃ slot d, resolveVarInScope scopes index depth = .ok (.upvar slot d) := by
  have ht : t.2.isNlGuard = false := by
    have hmem := List.mem_of_getElem? hdef
    simpa using (List.mem_filter.mp hmem).2
  have hfind : ∀ up, ∃ slot,
      findVar index up t.2.localOffset t.2.emitted 0 0 = .ok (.upvar slot up) := by
    intro up
    simp only [Scope.layout, List.mem_map, List.mem_filter] at hindex
    obtain ⟨⟨v, j⟩, ⟨hmem, hcaptured⟩, rfl⟩ := hindex
    refine findVar_total ⟨v, hmem⟩ (fun w hw => ?_) 0 0
    have hv := (Scope.mem_emitted.mp hmem).1
    rw [(Scope.mem_emitted.mp hw).1] at hv
    cases hv
    exact hcaptured
  obtain ⟨rest, up, hwalk, ⟨outer, rfl⟩ | ⟨q, outer, hq, rfl⟩⟩ := walkUp_total hdef hapart 0
  · obtain ⟨slot, hslot⟩ := hfind up
    refine ⟨slot, up, ?_⟩
    simp only [resolveVarInScope, hwalk, ok_bind, ht, Bool.false_eq_true, if_false]
    exact hslot
  · obtain ⟨slot, hslot⟩ := hfind (up + 1)
    refine ⟨slot, up + 1, ?_⟩
    simp only [resolveVarInScope, hwalk, ok_bind, hq, if_true]
    exact hslot

/-- The records around a scope of a function are those that the function declares and those that it
has pushed since. -/
theorem sizes_of_scope {g : Graph} (hg : GraphOk g) {f : Nat} {fn : Func}
    (hfn : g.funcs[f]? = some fn) {s : Nat} (hs : s ∈ fn.scopes) :
    ∃ declared, g.upvars fn = .ok declared ∧
      (owners (g.around (some s))).map (·.size g) =
        enteredSince (g.around (some s)) ++ declared.reverse := by
  obtain ⟨b, bsc, hb, hbsc, hbfunc, -⟩ := (hg.funcs f fn hfn).enter
  refine ⟨upvarsFrom (g.around (some b.scope)), by simp [Graph.upvars, hb, unwrap, pure, Except.pure],
    ?_⟩
  -- The records of a list of scopes, and how emission lists them.
  have hsizes : ∀ l : List (Nat × Scope), (∀ p ∈ l, g.scopes[p.1]? = some p.2) →
      (owners l).map (·.size g) = l.flatMap fun (p : Nat × Scope) =>
        (if p.2.hasUpvars then [p.2.caps] else []) ++ if p.2.isNlGuard then [0] else [] := by
    intro l hl
    induction l with
    | nil => rfl
    | cons p l ih =>
      rw [List.flatMap_cons, ← ih (fun q hq => hl q (List.mem_cons_of_mem _ hq)), owners]
      have hp := hl p List.mem_cons_self
      cases p.2.hasUpvars <;> cases p.2.isNlGuard <;> simp [Owner.size_captures hp]
  induction s using Nat.strongRecOn with
  | _ s ih =>
    obtain ⟨sc, hsc, ⟨hfunc, b', hb', rfl⟩ | ⟨hnone, p, hp, hparent⟩⟩ :=
      (hg.funcs f fn hfn).scopes s hs
    · rw [hb] at hb'
      cases hb'
      have hrest := hsizes (g.around sc.parent) (fun q hq => Graph.mem_around hq)
      rw [hg.around_eq hsc, upvarsFrom, List.reverse_reverse, ← hrest, owners, enteredSince, hfunc]
      cases sc.hasUpvars <;> cases sc.isNlGuard <;> simp [Owner.size_captures hsc]
    · have hlt := (hg.scopes s sc hsc).parent p hparent
      have hguard : sc.isNlGuard = false := by
        by_contra hguard
        have := ((hg.scopes s sc hsc).guard (by simpa using hguard)).2
        rw [hnone] at this
        cases this
      rw [hg.around_eq hsc, owners, enteredSince, hnone, hguard, hparent]
      have hih := ih p hlt hp
      cases sc.hasUpvars <;> simp [Owner.size_captures hsc, hih]

/-- Different variables of a scope have different slots. -/
theorem Scope.layout_nodup (sc : Scope) : sc.layout.Nodup := by
  have hzip : (sc.vars.zipIdx.map Prod.snd).Nodup := by
    rw [List.zipIdx_map_snd]
    exact List.nodup_range'
  refine List.Nodup.sublist ?_ hzip
  exact (List.filter_sublist.trans List.filter_sublist).map Prod.snd

/-- The upvar that a reference resolves to is, in the chain of records at that point, in the record
of the scope that the reference is to, and in the variable's slot of it. The sizes of the records
are those that emission declares for the function, and those of the scopes entered since. A
reference to a captured variable does resolve to an upvar where no guard is directly inside another
one. -/
theorem resolve_agrees {g : Graph} (hg : Built g) {f : Nat} {fn : Func}
    (hfn : g.funcs[f]? = some fn) {s : Nat} (hs : s ∈ fn.scopes) {st : Shared} {this : Option Nat}
    {recs : List (Owner × Nat)} (henv : Env g st s this recs) :
    (∃ declared, g.upvars fn = .ok declared ∧
      ChainIs st.heap this (enteredSince (g.around (some s)) ++ declared.reverse)) ∧
    (∀ index depth slot d,
      resolveVarInScope (g.around (some s)) index depth = .ok (.upvar slot d) →
      ∃ t p r, definingScope (g.around (some s)) depth = some t ∧
        recs[d]? = some (.captures t.1, p) ∧ Upvars.atDepth st.heap this d = .ok p ∧
        st.heap[p]? = some r ∧ t.2.layout[slot]? = some index ∧ slot < r.vars.length) ∧
    (GuardsApart (g.around (some s)) → ∀ index depth t,
      definingScope (g.around (some s)) depth = some t → index ∈ t.2.layout →
      ∃ slot d, resolveVarInScope (g.around (some s)) index depth = .ok (.upvar slot d)) := by
  have hok := hg.ok
  obtain ⟨hlinked, howners⟩ := henv.linked hok
  refine ⟨?_, ?_, fun hapart index depth t hdef hindex => resolve_total hapart hdef hindex⟩
  · obtain ⟨declared, hdeclared, hsizes⟩ := sizes_of_scope hok hfn hs
    refine ⟨declared, hdeclared, ?_⟩
    rw [← hsizes, ← howners, List.map_map]
    exact hlinked.chainIs
  · intro index depth slot d hresolve
    have hscopes : ∀ p ∈ g.around (some s), ScopeOk p.1 p.2 :=
      fun p hp => hok.scopes p.1 p.2 (Graph.mem_around hp)
    obtain ⟨inner, t, outer, hsplit, hdef, hd, hslot⟩ := resolve_upvar hscopes hresolve
    have ht : t ∈ g.around (some s) := by
      rw [hsplit]
      simp
    -- The record of the defining scope comes right after those of the scopes inside it.
    have hlt : slot < t.2.caps := by
      have := (List.getElem?_eq_some_iff.mp hslot).1
      exact Nat.lt_of_lt_of_le this (hscopes t ht).layout_lt
    have hup : t.2.hasUpvars = true := by
      rw [Scope.hasUpvars, bne_iff_ne]
      omega
    have howner : (recs.map Prod.fst)[d]? = some (.captures t.1) := by
      rw [howners, hsplit, owners_append, hd, List.getElem?_append_right (Nat.le_refl _), owners, hup]
      simp
    rw [List.getElem?_map] at howner
    obtain ⟨⟨o, p⟩, hrec, ho⟩ := Option.map_eq_some_iff.mp howner
    cases ho
    obtain ⟨hp, r, hr, hlen⟩ := hlinked.atDepth hrec
    refine ⟨t, p, r, hdef, hrec, hp, hr, hslot, ?_⟩
    rw [hlen, Owner.size_captures (Graph.mem_around ht)]
    exact hlt

theorem scopeToUpvarDepth_eq {scopes : List (Nat × Scope)} {depth : Nat}
    (h : depth < scopes.length) :
    scopeToUpvarDepth scopes depth = .ok (owners (scopes.take depth)).length := by
  induction depth generalizing scopes with
  | zero =>
    cases scopes with
    | nil => cases h
    | cons p scopes => rfl
  | succ depth ih =>
    cases scopes with
    | nil => cases h
    | cons p scopes =>
      have hrest := ih (Nat.lt_of_succ_lt_succ h)
      simp only [scopeToUpvarDepth, hrest, ok_bind, List.take_succ_cons, owners]
      cases p.2.hasUpvars <;> cases p.2.isNlGuard <;>
        simp only [pure, Except.pure, Bool.false_eq_true, if_false, if_true, List.length_append,
          List.length_cons, List.length_nil]

/-- The depth of a non-local branch out of a guard is that of the guard's marker. -/
theorem scopeToUpvarDepth_agrees {g : Graph} (hg : Built g) {s : Nat} {st : Shared}
    {this : Option Nat} {recs : List (Owner × Nat)} (henv : Env g st s this recs) {depth : Nat}
    {t : Nat × Scope} (ht : (g.around (some s))[depth]? = some t)
    (hguard : t.2.isNlGuard = true) :
    ∃ d p, scopeToUpvarDepth (g.around (some s)) depth = .ok d ∧
      recs[d]? = some (.marker t.1, p) ∧ Upvars.atDepth st.heap this d = .ok p := by
  obtain ⟨hlinked, howners⟩ := henv.linked hg.ok
  obtain ⟨hlt, hget⟩ := List.getElem?_eq_some_iff.mp ht
  have hsplit : g.around (some s) =
      (g.around (some s)).take depth ++ t :: (g.around (some s)).drop (depth + 1) := by
    conv_lhs => rw [← List.take_append_drop depth (g.around (some s)), List.drop_eq_getElem_cons hlt]
    rw [hget]
  -- A guard has no record of its own inside its marker.
  have hup : t.2.hasUpvars = false := by
    have hsc := hg.ok.scopes t.1 t.2 (Graph.mem_around (List.mem_of_getElem? ht))
    rw [Scope.hasUpvars, hsc.caps, (hsc.guard hguard).1]
    rfl
  have howner : (recs.map Prod.fst)[(owners ((g.around (some s)).take depth)).length]? =
      some (.marker t.1) := by
    rw [howners]
    conv_lhs => rw [hsplit, owners_append]
    rw [List.take_left' (by simp [Nat.le_of_lt hlt]), List.getElem?_append_right (Nat.le_refl _)]
    simp [owners, hup, hguard]
  rw [List.getElem?_map] at howner
  obtain ⟨⟨o, p⟩, hrec, ho⟩ := Option.map_eq_some_iff.mp howner
  cases ho
  exact ⟨_, p, scopeToUpvarDepth_eq hlt, hrec, (hlinked.atDepth hrec).1⟩

/-- A function with a captured variable, a guard in it, and a function with a captured variable in
the guard. -/
def guardedGraph : Graph where
  funcs := [⟨0, 1, 0, 0, [0]⟩, ⟨2, 3, 0, 0, [1]⟩, ⟨4, 5, 0, 0, [2]⟩]
  scopes := [⟨none, 0, [⟨true, true, false, false⟩], 1, 1, false, some 0⟩,
    ⟨some 0, 0, [], 0, 0, true, some 1⟩,
    ⟨some 1, 0, [⟨true, true, false, false⟩], 1, 1, false, some 2⟩]
  blocks := [⟨[], .ret, 0, 0⟩, ⟨[], .ret, 0, 0⟩, ⟨[], .ret, 1, 1⟩, ⟨[], .ret, 1, 1⟩,
    ⟨[], .ret, 2, 2⟩, ⟨[], .ret, 2, 2⟩]

theorem guardedGraph_built : Built guardedGraph := by
  refine .func (.nlGuard (.func .new (fun s hs => by cases hs)
    (show Graph.new.allocFunc 0 [⟨true, true, false, false⟩] none = .ok (_, 0) from rfl)) ?_
    (show Graph.allocNlGuard _ 0 (some 0) = .ok (_, 1) from rfl)) ?_
    (show Graph.allocFunc _ 0 [⟨true, true, false, false⟩] (some 1) = .ok (guardedGraph, 2) from rfl)
  all_goals
    intro s hs
    cases hs
    decide

/-- The inner function's reference to the outer one's variable passes its own record and the
marker. -/
theorem guardedGraph_resolves :
    resolveVarInScope (guardedGraph.around (some 2)) 0 1 = .ok (.upvar 0 2) ∧
    ∃ st this recs, Env guardedGraph st 2 this recs ∧
      ∃ t p r, definingScope (guardedGraph.around (some 2)) 1 = some t ∧
        recs[2]? = some (.captures t.1, p) ∧ Upvars.atDepth st.heap this 2 = .ok p ∧
        st.heap[p]? = some r ∧ t.2.layout[0]? = some 0 ∧ 0 < r.vars.length := by
  have hroot : Env guardedGraph _ 0 _ _ := 
    @Env.root _ ⟨[], []⟩ _ guardedGraph.scopes[0] rfl rfl
  have hguard : Env guardedGraph _ 1 _ _ := 
    @Env.inside _ _ _ _ guardedGraph.scopes[1] _ _ hroot rfl rfl
  have hinner : Env guardedGraph _ 2 _ _ := 
    @Env.inside _ _ _ _ guardedGraph.scopes[2] _ _ hguard rfl rfl
  have hresolve : resolveVarInScope (guardedGraph.around (some 2)) 0 1 = .ok (.upvar 0 2) := by
    decide
  exact ⟨hresolve, _, _, _, hinner, (resolve_agrees guardedGraph_built (f := 2) rfl
    (by decide) hinner).2.1 0 1 0 2 hresolve⟩

end Dolang.Compile
