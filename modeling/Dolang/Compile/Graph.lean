import Dolang.Bytecode.Inst
import Mathlib.Data.List.Basic

/-!
# The graph of a program

The data model of `dolang-compile/src/cfg/mod.rs`: functions, scopes and basic blocks, with the
allocators that lowering calls. A `Built` graph is one that they have made. In it a scope comes after
the scope around it, so the scopes around a scope are a finite list (`Graph.around_eq`), and a
non-local guard has no variables of its own.
-/

namespace Dolang.Compile

open Dolang.Rust Dolang.Bytecode

/-- A variable: what matters here of its flags and its origin. -/
structure Var where
  captured : Bool
  used : Bool
  exported : Bool
  isPrelude : Bool
  deriving DecidableEq, Repr

/-- `Var::is_emitted`. -/
def Var.isEmitted (v : Var) : Bool := !v.isPrelude || (v.used || v.exported)

/-- `Scope`, without the list of its blocks. -/
structure Scope where
  parent : Option Nat
  localOffset : Nat
  vars : List Var
  caps : Nat
  funcUpvarDepth : Nat
  isNlGuard : Bool
  func : Option Nat
  deriving DecidableEq, Repr

/-- `Scope::has_upvars`. -/
def Scope.hasUpvars (s : Scope) : Bool := s.caps != 0

/-- `TermInfo`. -/
inductive Term where
  | ret
  | branch (target : Nat)
  | cond (onTrue onFalse : Nat)
  | unpackIf (sig : Nat) (onMatch onFail : Nat)
  | nlBranch (depth : Nat) (indicator : Nat)
  | elseFallthrough (kind : Nat)
  deriving DecidableEq, Repr

/-- `Block`, with its instructions as they are encoded. -/
structure Block where
  insts : List Inst
  term : Term
  scope : Nat
  func : Nat
  deriving DecidableEq, Repr

/-- `Func`, without what only debug information needs. -/
structure Func where
  enter : Nat
  exit : Nat
  sig : Nat
  locals : Nat
  scopes : List Nat
  deriving DecidableEq, Repr

/-- `Graph`. An identifier is a position. -/
structure Graph where
  funcs : List Func
  scopes : List Scope
  blocks : List Block
  deriving DecidableEq, Repr

/-- `Graph::new`. -/
def Graph.new : Graph := ⟨[], [], []⟩

/-- The number of locals among variables, `caps` of which are captured. -/
def localCount (vars : List Var) (caps : Nat) : Exec Empty Nat :=
  unwrap (checkedSub (vars.countP (·.isEmitted)) caps)

/-- Where the locals of a scope start, and how many locals its function then has. -/
def Graph.placeLocals (g : Graph) (isFunc : Bool) (borrow : Func) (locals : Nat)
    (parent : Option Nat) : Exec Empty (Nat × Nat) :=
  if isFunc then .ok (0, locals)
  else do
    let p ← unwrap parent
    let outer ← unwrap g.scopes[p]?
    let offset ← strictAdd outer.localOffset (← localCount outer.vars outer.caps)
    let top ← strictAdd offset locals
    return (offset, max borrow.locals top)

/-- The number of upvar records that a function has pushed around a scope. -/
def Graph.outerDepth (g : Graph) : Bool → Option Nat → Exec Empty Nat
  | false, some p => do
    let outer ← unwrap g.scopes[p]?
    return outer.funcUpvarDepth
  | _, _ => .ok 0

/-- `Graph::alloc_scope`. -/
def Graph.allocScope (g : Graph) (isFunc isNlGuard : Bool) (func : Nat) (parent : Option Nat)
    (vars : List Var) : Exec Empty (Graph × Nat) := do
  let id := g.scopes.length
  let borrow ← unwrap g.funcs[func]?
  let caps := vars.countP (·.captured)
  let locals ← localCount vars caps
  let (localOffset, funcLocals) ← g.placeLocals isFunc borrow locals parent
  let outerDepth ← g.outerDepth isFunc parent
  let scope : Scope := {
    parent
    localOffset
    vars
    caps
    funcUpvarDepth := outerDepth + if caps ≠ 0 then 1 else 0
    isNlGuard
    func := if isFunc then some func else none }
  let borrow := { borrow with locals := funcLocals, scopes := borrow.scopes ++ [id] }
  return ({ g with scopes := g.scopes ++ [scope], funcs := g.funcs.set func borrow }, id)

/-- `Graph::alloc_block`. -/
def Graph.allocBlock (g : Graph) (func scope : Nat) : Exec Empty (Graph × Nat) := do
  let _ ← unwrap g.scopes[scope]?
  return ({ g with blocks := g.blocks ++ [⟨[], .ret, scope, func⟩] }, g.blocks.length)

/-- The common part of `Graph::alloc_func` and `Graph::alloc_nl_guard`. -/
def Graph.allocFuncWith (g : Graph) (isNlGuard : Bool) (sig : Nat) (vars : List Var)
    (scope : Option Nat) : Exec Empty (Graph × Nat) := do
  let id := g.funcs.length
  let g : Graph := { g with funcs := g.funcs ++ [⟨0, 0, sig, 0, []⟩] }
  let (g, sid) ← g.allocScope true isNlGuard id scope vars
  let (g, enter) ← g.allocBlock id sid
  let (g, exit) ← g.allocBlock id sid
  let func ← unwrap g.funcs[id]?
  return ({ g with funcs := g.funcs.set id { func with enter, exit } }, id)

/-- `Graph::alloc_nl_guard`. -/
def Graph.allocNlGuard (g : Graph) (sig : Nat) (scope : Option Nat) : Exec Empty (Graph × Nat) :=
  g.allocFuncWith true sig [] scope

/-- `Graph::alloc_func`. -/
def Graph.allocFunc (g : Graph) (sig : Nat) (vars : List Var) (scope : Option Nat) :
    Exec Empty (Graph × Nat) :=
  g.allocFuncWith false sig vars scope

/-- The graphs that the allocators make. Lowering nests a scope in one of the same function, and a
function in any scope or none. -/
inductive Built : Graph → Prop where
  | new : Built Graph.new
  | scope {g g' : Graph} {func parent id : Nat} {fn : Func} {vars : List Var} : Built g →
      g.funcs[func]? = some fn → parent ∈ fn.scopes →
      g.allocScope false false func (some parent) vars = .ok (g', id) → Built g'
  | block {g g' : Graph} {func scope id : Nat} : Built g →
      g.allocBlock func scope = .ok (g', id) → Built g'
  | func {g g' : Graph} {sig id : Nat} {vars : List Var} {scope : Option Nat} : Built g →
      (∀ s ∈ scope, s < g.scopes.length) → g.allocFunc sig vars scope = .ok (g', id) → Built g'
  | nlGuard {g g' : Graph} {sig id : Nat} {scope : Option Nat} : Built g →
      (∀ s ∈ scope, s < g.scopes.length) → g.allocNlGuard sig scope = .ok (g', id) → Built g'

/-! ## What the allocators keep -/

/-- A scope of a graph is well-formed. -/
structure ScopeOk (s : Nat) (sc : Scope) : Prop where
  /-- The scope around it was made before. -/
  parent : ∀ p, sc.parent = some p → p < s
  caps : sc.caps = sc.vars.countP (·.captured)
  /-- A guard is a function without variables. -/
  guard : sc.isNlGuard = true → sc.vars = [] ∧ sc.func.isSome = true
  /-- A scope that is not that of a function is inside another one. -/
  inside : sc.func = none → sc.parent.isSome = true

/-- A function of a graph is well-formed. -/
structure FuncOk (g : Graph) (f : Nat) (fn : Func) : Prop where
  /-- Its first block is in the scope of the function, which is one of its scopes. -/
  enter : ∃ b sc, g.blocks[fn.enter]? = some b ∧ g.scopes[b.scope]? = some sc ∧
    sc.func = some f ∧ b.scope ∈ fn.scopes
  /-- The other ones are inside another one of its scopes. -/
  scopes : ∀ s ∈ fn.scopes, ∃ sc, g.scopes[s]? = some sc ∧
    ((sc.func = some f ∧ ∃ b, g.blocks[fn.enter]? = some b ∧ b.scope = s) ∨
      (sc.func = none ∧ ∃ p ∈ fn.scopes, sc.parent = some p))

/-- A graph is well-formed. -/
structure GraphOk (g : Graph) : Prop where
  scopes : ∀ (s : Nat) (sc : Scope), g.scopes[s]? = some sc → ScopeOk s sc
  funcs : ∀ (f : Nat) (fn : Func), g.funcs[f]? = some fn → FuncOk g f fn

/-- The number of slots that a scope takes. -/
def Scope.localCount (sc : Scope) : Nat := sc.vars.countP (·.isEmitted) - sc.caps

/-- Where `alloc_scope` places the locals of a scope, and how many slots the function then has. -/
def PlacedLocals (g : Graph) (fn : Func) (sc : Scope) (locals : Nat) : Prop :=
  if sc.func.isSome then sc.localOffset = 0 ∧ locals = sc.localCount
  else ∃ p outer, sc.parent = some p ∧ g.scopes[p]? = some outer ∧
    sc.localOffset = outer.localOffset + outer.localCount ∧
    sc.localOffset + sc.localCount ≤ usizeMax ∧
    locals = max fn.locals (sc.localOffset + sc.localCount)

theorem localCount_eq {vars : List Var} {caps n : Nat} (h : localCount vars caps = .ok n) :
    n = vars.countP (·.isEmitted) - caps :=
  (checkedSub_eq_some.mp (unwrap_eq_ok.mp h)).2.symm

theorem allocScope_spec {g g' : Graph} {isFunc isNlGuard : Bool} {func id : Nat}
    {parent : Option Nat} {vars : List Var}
    (h : g.allocScope isFunc isNlGuard func parent vars = .ok (g', id)) :
    id = g.scopes.length ∧ ∃ fn sc locals, g.funcs[func]? = some fn ∧
      g' = { g with
        scopes := g.scopes ++ [sc]
        funcs := g.funcs.set func { fn with locals, scopes := fn.scopes ++ [id] } } ∧
      sc.parent = parent ∧ sc.vars = vars ∧ sc.caps = vars.countP (·.captured) ∧
      sc.isNlGuard = isNlGuard ∧ sc.func = (if isFunc then some func else none) ∧
      (isFunc = false → parent.isSome = true) ∧ PlacedLocals g fn sc locals := by
  unfold Graph.allocScope at h
  obtain ⟨fn, hfn, h⟩ := bind_ok h
  obtain ⟨locals, hcount, h⟩ := bind_ok h
  obtain ⟨⟨localOffset, funcLocals⟩, hlocals, h⟩ := bind_ok h
  obtain ⟨depth, -, h⟩ := bind_ok h
  have hparent : isFunc = false → parent.isSome = true := by
    rintro rfl
    rw [Graph.placeLocals, if_neg (by decide)] at hlocals
    obtain ⟨p, hp, -⟩ := bind_ok hlocals
    rw [unwrap_eq_ok.mp hp]
    rfl
  cases h
  refine ⟨rfl, fn, _, funcLocals, unwrap_eq_ok.mp hfn, rfl, rfl, rfl, rfl, rfl, rfl, hparent, ?_⟩
  have hlocal := localCount_eq hcount
  cases isFunc with
  | true =>
    cases hlocals
    exact ⟨rfl, hlocal⟩
  | false =>
    rw [Graph.placeLocals, if_neg (by decide)] at hlocals
    obtain ⟨p, hp, hlocals⟩ := bind_ok hlocals
    obtain ⟨outer, houter, hlocals⟩ := bind_ok hlocals
    obtain ⟨n, hn, hlocals⟩ := bind_ok hlocals
    obtain ⟨offset, hoffset, hlocals⟩ := bind_ok hlocals
    obtain ⟨top, htop, hlocals⟩ := bind_ok hlocals
    cases hlocals
    obtain ⟨hmax, rfl⟩ := strictAdd_eq_ok.mp htop
    obtain ⟨-, rfl⟩ := strictAdd_eq_ok.mp hoffset
    subst hlocal
    rw [localCount_eq hn] at hmax ⊢
    exact ⟨p, outer, unwrap_eq_ok.mp hp, unwrap_eq_ok.mp houter, rfl, hmax, rfl⟩

theorem allocBlock_spec {g g' : Graph} {func scope id : Nat}
    (h : g.allocBlock func scope = .ok (g', id)) :
    scope < g.scopes.length ∧ id = g.blocks.length ∧
      g' = { g with blocks := g.blocks ++ [⟨[], .ret, scope, func⟩] } := by
  unfold Graph.allocBlock at h
  obtain ⟨sc, hsc, h⟩ := bind_ok h
  cases h
  exact ⟨(List.getElem?_eq_some_iff.mp (unwrap_eq_ok.mp hsc)).1, rfl, rfl⟩

/-- A new function has one scope and two blocks. -/
theorem allocFuncWith_spec {g g' : Graph} {isNlGuard : Bool} {sig id : Nat} {vars : List Var}
    {scope : Option Nat} (h : g.allocFuncWith isNlGuard sig vars scope = .ok (g', id)) :
    ∃ sc locals,
      g' = ⟨g.funcs ++ [⟨g.blocks.length, g.blocks.length + 1, sig, locals, [g.scopes.length]⟩],
        g.scopes ++ [sc], g.blocks ++ [⟨[], .ret, g.scopes.length, g.funcs.length⟩,
          ⟨[], .ret, g.scopes.length, g.funcs.length⟩]⟩ ∧
      sc.parent = scope ∧ sc.vars = vars ∧ sc.caps = vars.countP (·.captured) ∧
      sc.isNlGuard = isNlGuard ∧ sc.func = some g.funcs.length ∧ sc.localOffset = 0 ∧
      locals = sc.localCount := by
  unfold Graph.allocFuncWith at h
  obtain ⟨⟨g₁, sid⟩, hscope, h⟩ := bind_ok h
  obtain ⟨⟨g₂, enter⟩, henter, h⟩ := bind_ok h
  obtain ⟨⟨g₃, exit⟩, hexit, h⟩ := bind_ok h
  obtain ⟨fn, hfn, h⟩ := bind_ok h
  cases h
  obtain ⟨rfl, fn', sc, locals, hfn', rfl, hparent, hvars, hcaps, hguard, hfunc, -, hplaced⟩ :=
    allocScope_spec hscope
  rw [PlacedLocals, if_pos (by rw [hfunc]; rfl)] at hplaced
  obtain ⟨-, rfl, rfl⟩ := allocBlock_spec henter
  obtain ⟨-, rfl, rfl⟩ := allocBlock_spec hexit
  have hfn := unwrap_eq_ok.mp hfn
  simp only [List.getElem?_concat_length, Option.some.injEq] at hfn'
  subst hfn'
  simp only [List.length_append, List.length_cons, List.length_nil, Nat.zero_add, Nat.lt_add_one,
    List.getElem?_set_self, Option.some.injEq] at hfn
  subst hfn
  refine ⟨sc, locals, ?_, hparent, hvars, hcaps, hguard, hfunc, hplaced⟩
  simp [List.set_append_right]

/-- A function stays well-formed when scopes and blocks are added. -/
theorem FuncOk.grow {g g' : Graph} {f : Nat} {fn : Func} (h : FuncOk g f fn)
    (hscopes : ∀ (s : Nat) (sc : Scope), g.scopes[s]? = some sc → g'.scopes[s]? = some sc)
    (hblocks : ∀ (b : Nat) (bl : Block), g.blocks[b]? = some bl → g'.blocks[b]? = some bl) :
    FuncOk g' f fn := by
  obtain ⟨⟨b, sc, hb, hsc, hfunc, hmem⟩, hall⟩ := h
  refine ⟨⟨b, sc, hblocks _ _ hb, hscopes _ _ hsc, hfunc, hmem⟩, fun s hs => ?_⟩
  obtain ⟨sc', hsc', hcase⟩ := hall s hs
  refine ⟨sc', hscopes _ _ hsc', ?_⟩
  rcases hcase with ⟨hfunc', b', hb', hscope'⟩ | hinside
  · exact .inl ⟨hfunc', b', hblocks _ _ hb', hscope'⟩
  · exact .inr hinside

/-- An element of a list stays where it is when elements are added. -/
theorem getElem?_grow {α : Type} {l m : List α} {i : Nat} {a : α} (h : l[i]? = some a) :
    (l ++ m)[i]? = some a := by
  rw [List.getElem?_append_left (List.getElem?_eq_some_iff.mp h).1]
  exact h

/-- An element of a list with one more element. -/
theorem getElem?_concat_cases {α : Type} {l : List α} {a b : α} {i : Nat}
    (h : (l ++ [a])[i]? = some b) : l[i]? = some b ∨ i = l.length ∧ b = a := by
  rw [List.getElem?_append] at h
  split at h
  · exact .inl h
  · rename_i hlt
    obtain ⟨hzero, rfl⟩ := List.getElem?_eq_some_iff.mp h
    simp only [List.length_cons, List.length_nil] at hzero
    exact .inr ⟨by omega, by simp⟩

/-- A scope that is nested in one of the same function. -/
theorem GraphOk.scope {g g' : Graph} (h : GraphOk g) {func parent id : Nat} {fn : Func}
    {vars : List Var} (hfn : g.funcs[func]? = some fn) (hparent : parent ∈ fn.scopes)
    (halloc : g.allocScope false false func (some parent) vars = .ok (g', id)) : GraphOk g' := by
  obtain ⟨rfl, fn', sc, locals, hfn', rfl, hp, hvars, hcaps, hguard, hfunc, -⟩ :=
    allocScope_spec halloc
  rw [hfn] at hfn'
  cases hfn'
  obtain ⟨outer, houter, -⟩ := (h.funcs func fn hfn).scopes parent hparent
  have hlt := (List.getElem?_eq_some_iff.mp houter).1
  constructor
  · intro s sc' hsc'
    rcases getElem?_concat_cases hsc' with hold | ⟨rfl, rfl⟩
    · exact h.scopes s sc' hold
    · refine ⟨fun p hp' => ?_, by rw [hcaps, hvars], fun hg => ?_, fun _ => by rw [hp]; rfl⟩
      · rw [hp] at hp'
        cases hp'
        exact hlt
      · rw [hguard] at hg
        cases hg
  · intro f fn' hfn'
    by_cases hf : func = f
    · subst hf
      have hlt' := (List.getElem?_eq_some_iff.mp hfn).1
      simp only [List.getElem?_set_self hlt', Option.some.injEq] at hfn'
      subst hfn'
      have hok : FuncOk { g with scopes := g.scopes ++ [sc] } func fn :=
        (h.funcs func fn hfn).grow (fun _ _ => getElem?_grow) (fun _ _ hb => hb)
      obtain ⟨⟨b, bsc, hb, hbsc, hbfunc, hmem⟩, hall⟩ := hok
      refine ⟨⟨b, bsc, hb, hbsc, hbfunc, List.mem_append_left _ hmem⟩, fun s hs => ?_⟩
      rcases List.mem_append.mp hs with hs | hs
      · obtain ⟨sc', hsc', hcase⟩ := hall s hs
        refine ⟨sc', hsc', hcase.imp id ?_⟩
        rintro ⟨hnone, p, hp', hparent'⟩
        exact ⟨hnone, p, List.mem_append_left _ hp', hparent'⟩
      · obtain rfl := List.mem_singleton.mp hs
        exact ⟨sc, by simp, .inr ⟨hfunc, parent, List.mem_append_left _ hparent, hp⟩⟩
    · simp only [List.getElem?_set_ne hf] at hfn'
      exact (h.funcs f fn' hfn').grow (fun _ _ => getElem?_grow) (fun _ _ hb => hb)

theorem GraphOk.block {g g' : Graph} (h : GraphOk g) {func scope id : Nat}
    (halloc : g.allocBlock func scope = .ok (g', id)) : GraphOk g' := by
  obtain ⟨-, rfl, rfl⟩ := allocBlock_spec halloc
  exact ⟨h.scopes, fun f fn hfn =>
    (h.funcs f fn hfn).grow (fun _ _ hs => hs) (fun _ _ => getElem?_grow)⟩

theorem GraphOk.funcWith {g g' : Graph} (h : GraphOk g) {isNlGuard : Bool} {sig id : Nat}
    {vars : List Var} {scope : Option Nat} (hscope : ∀ s ∈ scope, s < g.scopes.length)
    (hvars : isNlGuard = true → vars = [])
    (halloc : g.allocFuncWith isNlGuard sig vars scope = .ok (g', id)) : GraphOk g' := by
  obtain ⟨sc, locals, rfl, hparent, hscvars, hcaps, hguard, hfunc, -⟩ := allocFuncWith_spec halloc
  constructor
  · intro s sc' hsc'
    rcases getElem?_concat_cases hsc' with hold | ⟨rfl, rfl⟩
    · exact h.scopes s sc' hold
    · refine ⟨fun p hp => hscope p (hparent ▸ hp), by rw [hcaps, hscvars], fun hg => ?_, fun hf => ?_⟩
      · rw [hscvars, hfunc]
        exact ⟨hvars (hguard ▸ hg), rfl⟩
      · rw [hfunc] at hf
        cases hf
  · intro f fn hfn
    rcases getElem?_concat_cases hfn with hold | ⟨rfl, rfl⟩
    · exact (h.funcs f fn hold).grow (fun _ _ => getElem?_grow) (fun _ _ => getElem?_grow)
    · -- The new function's scope and its first block were made with it.
      have hb : (g.blocks ++ [⟨[], .ret, g.scopes.length, g.funcs.length⟩,
          ⟨[], .ret, g.scopes.length, g.funcs.length⟩] : List Block)[g.blocks.length]? =
          some ⟨[], .ret, g.scopes.length, g.funcs.length⟩ := by
        simp
      have hs : (g.scopes ++ [sc])[g.scopes.length]? = some sc := by simp
      refine ⟨⟨_, sc, hb, hs, hfunc, by simp⟩, fun s hs' => ?_⟩
      obtain rfl := List.mem_singleton.mp hs'
      exact ⟨sc, hs, .inl ⟨hfunc, _, hb, rfl⟩⟩

/-- The allocators make well-formed graphs. -/
theorem Built.ok {g : Graph} (h : Built g) : GraphOk g := by
  induction h with
  | new =>
    constructor
    · intro s sc hs
      cases hs
    · intro f fn hf
      cases hf
  | scope _ hfn hparent halloc ih => exact ih.scope hfn hparent halloc
  | block _ halloc ih => exact ih.block halloc
  | func _ hscope halloc ih => exact ih.funcWith hscope (fun h => by cases h) halloc
  | nlGuard _ hscope halloc ih => exact ih.funcWith hscope (fun _ => rfl) halloc

/-! ## The scopes around a scope -/

/-- A scope and the scopes around it, from the inside, as far as the fuel goes. -/
def Graph.aroundFuel (g : Graph) : Nat → Option Nat → List (Nat × Scope)
  | 0, _ => []
  | _, none => []
  | fuel + 1, some s =>
    match g.scopes[s]? with
    | none => []
    | some sc => (s, sc) :: g.aroundFuel fuel sc.parent

/-- A scope and the scopes around it, from the inside. -/
def Graph.around (g : Graph) (s : Option Nat) : List (Nat × Scope) :=
  g.aroundFuel g.scopes.length s

/-- Fuel for as many scopes as there are before a scope is enough. -/
theorem GraphOk.aroundFuel_eq {g : Graph} (h : GraphOk g) :
    ∀ {n m : Nat} {s : Option Nat}, (∀ p ∈ s, p < n) → (∀ p ∈ s, p < m) →
      g.aroundFuel n s = g.aroundFuel m s := by
  intro n
  induction n with
  | zero =>
    intro m s hn _
    cases s with
    | none => cases m <;> rfl
    | some p => exact absurd (hn p rfl) (Nat.not_lt_zero p)
  | succ n ih =>
    intro m s hn hm
    cases s with
    | none => cases m <;> rfl
    | some p =>
      cases m with
      | zero => exact absurd (hm p rfl) (Nat.not_lt_zero p)
      | succ m =>
        cases hsc : g.scopes[p]? with
        | none => simp [Graph.aroundFuel, hsc]
        | some sc =>
          simp only [Graph.aroundFuel, hsc, List.cons.injEq, true_and]
          have hlt := fun q (hq : sc.parent = some q) => (h.scopes p sc hsc).parent q hq
          have hn' := hn p rfl
          have hm' := hm p rfl
          exact ih (fun q hq => by have := hlt q hq; omega)
            (fun q hq => by have := hlt q hq; omega)

/-- The scopes around a scope are the scope itself and those around its parent. -/
theorem GraphOk.around_eq {g : Graph} (h : GraphOk g) {s : Nat} {sc : Scope}
    (hs : g.scopes[s]? = some sc) : g.around (some s) = (s, sc) :: g.around sc.parent := by
  have hlt := (List.getElem?_eq_some_iff.mp hs).1
  have hparent := (h.scopes s sc hs).parent
  have hfuel : g.around (some s) = g.aroundFuel (g.scopes.length + 1) (some s) :=
    h.aroundFuel_eq (fun p hp => by cases hp; exact hlt) (fun p hp => by cases hp; omega)
  rw [hfuel]
  simp only [Graph.aroundFuel, hs]
  rfl

/-- The scopes around a scope are scopes of the graph. -/
theorem Graph.mem_around {g : Graph} {s : Option Nat} {p : Nat × Scope} (h : p ∈ g.around s) :
    g.scopes[p.1]? = some p.2 := by
  unfold Graph.around at h
  generalize g.scopes.length = n at h
  induction n generalizing s with
  | zero => cases h
  | succ n ih =>
    cases s with
    | none => cases h
    | some q =>
      simp only [Graph.aroundFuel] at h
      split at h
      · cases h
      · rename_i sc hsc
        rcases List.mem_cons.mp h with rfl | h
        · exact hsc
        · exact ih h

end Dolang.Compile
