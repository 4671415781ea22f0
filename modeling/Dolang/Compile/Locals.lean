import Dolang.Compile.Bindings
import Dolang.Compile.Scope

/-!
# Slots of local variables

`Graph::alloc_scope` places the locals of a scope behind those of the scope around it, and keeps the
number of slots of the function as a running maximum. Sibling scopes share slots, so the invariant
goes along the chain of scopes around a scope (`LocalsOk`): a scope's slots come after those of every
scope around it in the function. `locals_disjoint` draws the conclusion for what
`resolve_var_in_scope` finds.
-/

namespace Dolang.Compile

open Dolang.Rust

/-- The variables of a scope that are locals: they are emitted and not captured. -/
def Var.isLocal (v : Var) : Bool := v.isEmitted && !v.captured

/-- The slot of a variable among those of its scope. -/
def Scope.rank (sc : Scope) (index : Nat) : Nat := (sc.vars.take index).countP (·.isLocal)

theorem Scope.rank_lt {sc : Scope} {i j : Nat} {v : Var} (hv : sc.vars[i]? = some v)
    (hlocal : v.isLocal = true) (hij : i < j) : sc.rank i < sc.rank j := by
  obtain ⟨hi, rfl⟩ := List.getElem?_eq_some_iff.mp hv
  have hsplit : sc.vars.take (i + 1) = sc.vars.take i ++ [sc.vars[i]] :=
    (List.take_concat_get' sc.vars i hi).symm
  have hnext : sc.rank (i + 1) = sc.rank i + 1 := by
    rw [Scope.rank, hsplit, List.countP_append, List.countP_singleton, if_pos hlocal]
    rfl
  have hle : sc.rank (i + 1) ≤ sc.rank j :=
    List.Sublist.countP_le (List.take_sublist_take_left hij)
  omega

/-- Different locals of a scope have different slots. -/
theorem Scope.rank_inj {sc : Scope} {i j : Nat} {v w : Var} (hv : sc.vars[i]? = some v)
    (hw : sc.vars[j]? = some w) (hi : v.isLocal = true) (hj : w.isLocal = true)
    (h : sc.rank i = sc.rank j) : i = j := by
  rcases Nat.lt_trichotomy i j with hlt | heq | hgt
  · have := Scope.rank_lt hv hi hlt
    omega
  · exact heq
  · have := Scope.rank_lt hw hj hgt
    omega

theorem countP_isLocal {vars : List Var} (h : ∀ v ∈ vars, v.captured = true → v.isEmitted = true) :
    vars.countP (·.isLocal) + vars.countP (·.captured) = vars.countP (·.isEmitted) := by
  induction vars with
  | nil => rfl
  | cons v vars ih =>
    have hih := ih fun w hw => h w (List.mem_cons_of_mem _ hw)
    have hv := h v List.mem_cons_self
    simp only [List.countP_cons, Var.isLocal] at hih ⊢
    cases hc : v.captured with
    | false => cases he : v.isEmitted <;> simp <;> omega
    | true => simp [hv hc]; omega

/-- The slots of a scope's locals are among those that it takes. -/
theorem Scope.rank_lt_localCount {s : Nat} {sc : Scope} (hsc : ScopeOk s sc)
    (hvars : Elaborated sc.vars) {i : Nat} {v : Var} (hv : sc.vars[i]? = some v)
    (hlocal : v.isLocal = true) : sc.rank i < sc.localCount := by
  have hi := (List.getElem?_eq_some_iff.mp hv).1
  have hall : sc.rank sc.vars.length = sc.vars.countP (·.isLocal) := by
    rw [Scope.rank, List.take_length]
  have hcount := countP_isLocal fun w hw => hvars.emitted hw
  have hlt := Scope.rank_lt hv hlocal hi
  have hcaps := hsc.caps
  rw [Scope.localCount]
  omega

/-! ## What the allocators keep -/

/-- The slots of a scope of a function. -/
structure LocalsOk (g : Graph) (fn : Func) (sc : Scope) : Prop where
  /-- They are among those of the function. -/
  le : sc.localOffset + sc.localCount ≤ fn.locals
  /-- Those of the scope of the function come first. -/
  first : sc.func.isSome = true → sc.localOffset = 0
  /-- Those of another scope come after those of the scope around it. -/
  after : sc.func = none → sc.localOffset + sc.localCount ≤ usizeMax ∧
    ∃ p outer, sc.parent = some p ∧ g.scopes[p]? = some outer ∧
      sc.localOffset = outer.localOffset + outer.localCount

theorem LocalsOk.grow {g g' : Graph} {fn fn' : Func} {sc : Scope} (h : LocalsOk g fn sc)
    (hle : fn.locals ≤ fn'.locals)
    (hscopes : ∀ (s : Nat) (sc : Scope), g.scopes[s]? = some sc → g'.scopes[s]? = some sc) :
    LocalsOk g' fn' sc := by
  refine ⟨h.le.trans hle, h.first, fun hnone => ?_⟩
  obtain ⟨hmax, p, outer, hp, houter, hoffset⟩ := h.after hnone
  exact ⟨hmax, p, outer, hp, hscopes p outer houter, hoffset⟩

/-- The scopes of all functions have their slots. -/
def GraphLocals (g : Graph) : Prop :=
  ∀ (f : Nat) (fn : Func), g.funcs[f]? = some fn → ∀ s ∈ fn.scopes, ∀ sc : Scope,
    g.scopes[s]? = some sc → LocalsOk g fn sc

theorem GraphLocals.scope {g g' : Graph} (h : GraphLocals g) (hg : GraphOk g) {func parent id : Nat}
    {vars : List Var} (halloc : g.allocScope false false func (some parent) vars = .ok (g', id)) :
    GraphLocals g' := by
  obtain ⟨rfl, fn, sc, locals, hfn, rfl, hp, -, -, -, hfunc, -, hplaced⟩ := allocScope_spec halloc
  rw [if_neg Bool.false_ne_true] at hfunc
  rw [PlacedLocals, hfunc, if_neg (by simp)] at hplaced
  obtain ⟨p, outer, hparent, houter, hoffset, hmax, rfl⟩ := hplaced
  intro f fn' hfn' s hs sc' hsc'
  by_cases hf : func = f
  · subst hf
    have hlt := (List.getElem?_eq_some_iff.mp hfn).1
    simp only [List.getElem?_set_self hlt, Option.some.injEq] at hfn'
    subst hfn'
    rcases getElem?_concat_cases hsc' with hold | ⟨rfl, rfl⟩
    · have hmem : s ∈ fn.scopes := by
        refine (List.mem_append.mp hs).resolve_right fun hnew => ?_
        obtain rfl := List.mem_singleton.mp hnew
        exact absurd (List.getElem?_eq_some_iff.mp hold).1 (Nat.lt_irrefl _)
      exact (h func fn hfn s hmem sc' hold).grow (Nat.le_max_left _ _) fun _ _ => getElem?_grow
    · refine ⟨Nat.le_max_right _ _, fun hsome => ?_, fun _ => ⟨hmax, p, outer, hparent, ?_, hoffset⟩⟩
      · rw [hfunc] at hsome
        cases hsome
      · exact getElem?_grow houter
  · simp only [List.getElem?_set_ne hf] at hfn'
    -- The scopes of another function are older.
    obtain ⟨old, hold, -⟩ := (hg.funcs f fn' hfn').scopes s hs
    have hsame : sc' = old := Option.some.inj (hsc'.symm.trans (getElem?_grow hold))
    subst hsame
    exact (h f fn' hfn' s hs sc' hold).grow (Nat.le_refl _) fun _ _ => getElem?_grow

theorem GraphLocals.funcWith {g g' : Graph} (h : GraphLocals g) (hg : GraphOk g) {isNlGuard : Bool}
    {sig id : Nat} {vars : List Var} {scope : Option Nat}
    (halloc : g.allocFuncWith isNlGuard sig vars scope = .ok (g', id)) : GraphLocals g' := by
  obtain ⟨sc, locals, rfl, -, -, -, -, hfunc, hoffset, rfl⟩ := allocFuncWith_spec halloc
  intro f fn hfn s hs sc' hsc'
  rcases getElem?_concat_cases hfn with hold | ⟨rfl, rfl⟩
  · obtain ⟨old, hsold, -⟩ := (hg.funcs f fn hold).scopes s hs
    have hsame : sc' = old := Option.some.inj (hsc'.symm.trans (getElem?_grow hsold))
    subst hsame
    exact (h f fn hold s hs sc' hsold).grow (Nat.le_refl _) fun _ _ => getElem?_grow
  · obtain rfl := List.mem_singleton.mp hs
    have hnew : (g.scopes ++ [sc])[g.scopes.length]? = some sc := by simp
    obtain rfl := Option.some.inj (hsc'.symm.trans hnew)
    refine ⟨by rw [hoffset, Nat.zero_add], fun _ => hoffset, fun hnone => ?_⟩
    rw [hfunc] at hnone
    cases hnone

theorem Built.locals {g : Graph} (h : Built g) : GraphLocals g := by
  induction h with
  | new => exact fun _ _ hfn => nomatch hfn
  | scope hg _ _ halloc ih => exact ih.scope hg.ok halloc
  | block _ halloc ih =>
    obtain ⟨-, rfl, rfl⟩ := allocBlock_spec halloc
    exact fun f fn hfn s hs sc hsc => (ih f fn hfn s hs sc hsc).grow (Nat.le_refl _) fun _ _ h => h
  | func hg _ halloc ih => exact ih.funcWith hg.ok halloc
  | nlGuard hg _ halloc ih => exact ih.funcWith hg.ok halloc

theorem Graph.around_none (g : Graph) : g.around none = [] := by
  unfold Graph.around
  cases g.scopes.length <;> rfl

/-- A scope comes after those around it. -/
theorem GraphOk.le_of_mem_around {g : Graph} (hg : GraphOk g) {t : Nat} {p : Nat × Scope}
    (hp : p ∈ g.around (some t)) : p.1 ≤ t := by
  induction t using Nat.strongRecOn with
  | _ t ih =>
    cases htsc : g.scopes[t]? with
    | none =>
      rw [Graph.around] at hp
      cases hn : g.scopes.length with
      | zero => simp [hn, Graph.aroundFuel] at hp
      | succ n => simp [hn, Graph.aroundFuel, htsc] at hp
    | some tsc =>
      rw [hg.around_eq htsc] at hp
      rcases List.mem_cons.mp hp with rfl | hp
      · exact Nat.le_refl _
      · cases hparent : tsc.parent with
        | none =>
          rw [hparent, g.around_none] at hp
          cases hp
        | some q =>
          have hlt := (hg.scopes t tsc htsc).parent q hparent
          rw [hparent] at hp
          have hle := ih q hlt hp
          omega

theorem GraphOk.lt_of_mem_parent {g : Graph} (hg : GraphOk g) {t : Nat} {tsc : Scope}
    (htsc : g.scopes[t]? = some tsc) {p : Nat × Scope} (hp : p ∈ g.around tsc.parent) : p.1 < t := by
  cases hparent : tsc.parent with
  | none =>
    rw [hparent, g.around_none] at hp
    cases hp
  | some q =>
    rw [hparent] at hp
    exact Nat.lt_of_le_of_lt (hg.le_of_mem_around hp) ((hg.scopes t tsc htsc).parent q hparent)

/-- The scope of a function comes before the other ones of the function. -/
theorem FuncOk.first {g : Graph} (hg : GraphOk g) {f : Nat} {fn : Func}
    (h : FuncOk g f fn) {b : Block} (hb : g.blocks[fn.enter]? = some b) {s : Nat}
    (hs : s ∈ fn.scopes) : b.scope ≤ s := by
  induction s using Nat.strongRecOn with
  | _ s ih =>
    obtain ⟨sc, hsc, ⟨-, b', hb', rfl⟩ | ⟨-, p, hp, hparent⟩⟩ := h.scopes s hs
    · rw [hb] at hb'
      cases hb'
      exact Nat.le_refl _
    · have hlt := (hg.scopes s sc hsc).parent p hparent
      have hle := ih p hlt hp
      omega

/-- The slots of a scope come after those of the scopes around it in the function. -/
theorem GraphLocals.enclosing {g : Graph} (h : GraphLocals g) (hg : GraphOk g) {f : Nat} {fn : Func}
    (hfn : g.funcs[f]? = some fn) {s t : Nat} {sc tsc : Scope} (ht : t ∈ fn.scopes)
    (hs : s ∈ fn.scopes) (hsc : g.scopes[s]? = some sc) (htsc : g.scopes[t]? = some tsc)
    (hin : (s, sc) ∈ g.around (some t)) (hne : s ≠ t) :
    sc.localOffset + sc.localCount ≤ tsc.localOffset := by
  induction t using Nat.strongRecOn generalizing tsc with
  | _ t ih =>
    rw [hg.around_eq htsc] at hin
    have hmem : (s, sc) ∈ g.around tsc.parent :=
      (List.mem_cons.mp hin).resolve_left fun heq => hne (Prod.mk.inj heq).1
    obtain ⟨tsc', htsc', ⟨-, b, hb, rfl⟩ | ⟨hnone, p, hp, hparent⟩⟩ :=
      (hg.funcs f fn hfn).scopes t ht
    · -- The scopes around the scope of the function are not the function's.
      have hfirst := (hg.funcs f fn hfn).first hg hb hs
      have hlt := hg.lt_of_mem_parent htsc hmem
      dsimp only at hlt
      omega
    · rw [htsc] at htsc'
      cases htsc'
      obtain ⟨-, p', outer, hp', houter, hoffset⟩ := (h f fn hfn t ht tsc htsc).after hnone
      rw [hparent] at hp' hmem
      cases hp'
      have hlt := (hg.scopes t tsc htsc).parent p hparent
      by_cases hsp : s = p
      · subst hsp
        rw [hsc] at houter
        cases houter
        exact Nat.le_of_eq hoffset.symm
      · have hle := ih p hlt hp houter hmem hsp
        omega

/-! ## References to locals -/

/-- A local variable has the slot of its rank, behind the offset of its scope. -/
theorem findVar_local {index : Nat} (up off : Nat) {vars : List Var} {k start caps : Nat} {v : Var}
    (hk : k ≤ index) (hv : vars[index - k]? = some v) (hlocal : v.isLocal = true)
    (hcaps : caps ≤ start) :
    findVar index up off ((vars.zipIdx k).filter (·.1.isEmitted)) start caps = (do
      let i ← strictAdd (start - caps + (vars.take (index - k)).countP (·.isLocal)) off
      return .localVar i) := by
  induction vars generalizing k start caps with
  | nil => cases hv
  | cons w vars ih =>
    rw [List.zipIdx_cons]
    rcases Nat.eq_or_lt_of_le hk with rfl | hlt
    · rw [Nat.sub_self, List.getElem?_cons_zero, Option.some.injEq] at hv
      subst hv
      obtain ⟨hemitted, hcaptured⟩ := Bool.and_eq_true_iff.mp hlocal
      rw [Bool.not_eq_true'] at hcaptured
      rw [List.filter_cons_of_pos (by exact hemitted), findVar, if_pos rfl, if_neg (by simp [hcaptured]),
        checkedSub, if_pos hcaps, Nat.sub_self]
      rfl
    · have hsub : index - k = (index - (k + 1)) + 1 := by omega
      rw [hsub, List.getElem?_cons_succ] at hv
      rw [hsub, List.take_succ_cons, List.countP_cons]
      cases hemitted : w.isEmitted with
      | false =>
        have hnot : w.isLocal = false := by rw [Var.isLocal, hemitted]; rfl
        rw [List.filter_cons_of_neg (by simp [hemitted]), ih hlt hv hcaps, hnot]
        simp
      | true =>
        have hne : index ≠ k := by omega
        rw [List.filter_cons_of_pos (by exact hemitted), findVar, if_neg hne]
        cases hcaptured : w.captured with
        | false =>
          have hlocal' : w.isLocal = true := by rw [Var.isLocal, hemitted, hcaptured]; rfl
          rw [ih hlt hv (by simp; omega), hlocal']
          have heq : start + 1 - caps + List.countP (·.isLocal) (vars.take (index - (k + 1))) =
              start - caps + (List.countP (·.isLocal) (vars.take (index - (k + 1))) + 1) := by
            omega
          simp [heq]
        | true =>
          have hnot : w.isLocal = false := by rw [Var.isLocal, hemitted, hcaptured]; rfl
          rw [ih hlt hv (by simp; omega), hnot]
          simp

/-- From a block of a function, the walk to a scope of the function passes no guard. -/
theorem walkUp_inside {g : Graph} (hg : GraphOk g) {f : Nat} {fn : Func}
    (hfn : g.funcs[f]? = some fn) {b depth s : Nat} {sc : Scope} (hb : b ∈ fn.scopes)
    (hs : s ∈ fn.scopes) (hdef : definingScope (g.around (some b)) depth = some (s, sc))
    (up : Nat) :
    ∃ up', walkUp (g.around (some b)) depth up = .ok ((s, sc) :: g.around sc.parent, up') := by
  induction b using Nat.strongRecOn generalizing depth up with
  | _ b ih =>
    obtain ⟨bsc, hbsc, hcase⟩ := (hg.funcs f fn hfn).scopes b hb
    have hmem : (s, sc) ∈ g.around (some b) := (List.mem_filter.mp (List.mem_of_getElem? hdef)).1
    have hnoguard : sc.isNlGuard = false := by
      simpa using (List.mem_filter.mp (List.mem_of_getElem? hdef)).2
    rw [definingScope, hg.around_eq hbsc] at hdef
    rw [hg.around_eq hbsc] at hmem ⊢
    -- A scope around that of the function is not one of the function's.
    have hinside : (s, sc) ∈ g.around bsc.parent →
        ∃ p ∈ fn.scopes, bsc.func = none ∧ bsc.parent = some p ∧ p < b := by
      intro hin
      rcases hcase with ⟨-, b', hb', rfl⟩ | ⟨hnone, p, hp, hparent⟩
      · have hfirst := (hg.funcs f fn hfn).first hg hb' hs
        have hlt := hg.lt_of_mem_parent hbsc hin
        omega
      · exact ⟨p, hp, hnone, hparent, (hg.scopes b bsc hbsc).parent p hparent⟩
    have hbguard : bsc.isNlGuard = false := by
      by_contra hguard
      rcases List.mem_cons.mp hmem with heq | hin
      · rw [← (Prod.mk.inj heq).2] at hguard
        exact hguard hnoguard
      · obtain ⟨p, -, hnone, -⟩ := hinside hin
        have hsome := ((hg.scopes b bsc hbsc).guard (by simpa using hguard)).2
        rw [hnone] at hsome
        cases hsome
    rw [List.filter_cons_of_pos (by simp [hbguard])] at hdef
    cases depth with
    | zero =>
      rw [List.getElem?_cons_zero, Option.some.injEq] at hdef
      obtain ⟨rfl, rfl⟩ := Prod.mk.inj hdef
      exact ⟨up, rfl⟩
    | succ depth =>
      rw [List.getElem?_cons_succ] at hdef
      have hin := (List.mem_filter.mp (List.mem_of_getElem? hdef)).1
      obtain ⟨p, hp, -, hparent, hlt⟩ := hinside hin
      rw [hparent] at hdef
      obtain ⟨up', hwalk⟩ := ih p hlt hp hdef (up + if bsc.hasUpvars then 1 else 0)
      refine ⟨up', ?_⟩
      rw [walkUp, if_pos (by simp [hbguard]), hparent]
      exact hwalk

/-! ## Disjoint slots -/

/-- A variable of a scope of a function that is a local: emitted and not captured. -/
def IsLocal (g : Graph) (fn : Func) (s index : Nat) : Prop :=
  s ∈ fn.scopes ∧ ∃ sc v, g.scopes[s]? = some sc ∧ sc.vars[index]? = some v ∧ v.isEmitted = true ∧
    v.captured = false

/-- A reference at a depth, from a block in the scope `b` of a function, is to the scope `s`. -/
def Refers (g : Graph) (fn : Func) (b depth s : Nat) : Prop :=
  b ∈ fn.scopes ∧ ∃ sc, definingScope (g.around (some b)) depth = some (s, sc)

/-- A scope is around another one, or is it. -/
def Encloses (g : Graph) (s t : Nat) : Prop :=
  ∃ sc, (s, sc) ∈ g.around (some t)

/-- What a reference to a local resolves to. -/
theorem resolve_local {g : Graph} (hg : Built g)
    (hvars : ∀ (s : Nat) (sc : Scope), g.scopes[s]? = some sc → Elaborated sc.vars) {f : Nat}
    {fn : Func} (hfn : g.funcs[f]? = some fn) {b depth s index : Nat} {sc : Scope} {v : Var}
    (hb : Refers g fn b depth s) (hs : s ∈ fn.scopes) (hsc : g.scopes[s]? = some sc)
    (hv : sc.vars[index]? = some v) (hlocal : v.isLocal = true) :
    resolveVarInScope (g.around (some b)) index depth =
        .ok (.localVar (sc.rank index + sc.localOffset)) ∧
      sc.rank index + sc.localOffset < fn.locals := by
  obtain ⟨hbs, sc', hdef⟩ := hb
  have hmem := (List.mem_filter.mp (List.mem_of_getElem? hdef)).1
  obtain rfl : sc' = sc := Option.some.inj ((Graph.mem_around hmem).symm.trans hsc)
  have hnoguard : sc'.isNlGuard = false := by
    simpa using (List.mem_filter.mp (List.mem_of_getElem? hdef)).2
  have hok := hg.locals f fn hfn s hs sc' hsc
  have hrank := Scope.rank_lt_localCount (hg.ok.scopes s sc' hsc) (hvars s sc' hsc) hv hlocal
  have hfits : sc'.rank index + sc'.localOffset ≤ usizeMax := by
    cases hfunc : sc'.func with
    | none =>
      have hmax := (hok.after hfunc).1
      omega
    | some f' =>
      have hfirst := hok.first (by rw [hfunc]; rfl)
      have hlen := (hvars s sc' hsc).length_le
      have hle : sc'.rank index ≤ sc'.vars.length :=
        List.countP_le_length.trans (List.length_take_le' _ _)
      omega
  obtain ⟨up, hwalk⟩ := walkUp_inside hg.ok hfn hbs hs hdef 0
  have hle := hok.le
  refine ⟨?_, by omega⟩
  rw [resolveVarInScope, hwalk, ok_bind]
  simp only [hnoguard, Bool.false_eq_true, if_false]
  have hfound := findVar_local up sc'.localOffset (Nat.zero_le index) hv hlocal (Nat.le_refl 0)
  rw [Nat.sub_zero, Nat.sub_zero, Nat.zero_add] at hfound
  have hadd : (strictAdd (sc'.rank index) sc'.localOffset : Exec Empty Nat) =
      .ok (sc'.rank index + sc'.localOffset) := strictAdd_eq_ok.mpr ⟨hfits, rfl⟩
  rw [Scope.rank] at hadd
  rw [Scope.emitted, hfound, hadd]
  rfl

/-- **Slots of locals that live together are disjoint.** References to two different locals of a
function, in scopes one of which is around the other or in one scope, resolve to different slots, and
both are among the slots of the function. -/
theorem locals_disjoint {g : Graph} (hg : Built g)
    (hvars : ∀ (s : Nat) (sc : Scope), g.scopes[s]? = some sc → Elaborated sc.vars) {f : Nat}
    {fn : Func} (hfn : g.funcs[f]? = some fn) {s₁ s₂ index₁ index₂ b₁ b₂ depth₁ depth₂ : Nat}
    (h₁ : IsLocal g fn s₁ index₁) (h₂ : IsLocal g fn s₂ index₂) (henclose : Encloses g s₁ s₂)
    (hne : (s₁, index₁) ≠ (s₂, index₂)) (href₁ : Refers g fn b₁ depth₁ s₁)
    (href₂ : Refers g fn b₂ depth₂ s₂) :
    ∃ i₁ i₂, resolveVarInScope (g.around (some b₁)) index₁ depth₁ = .ok (.localVar i₁) ∧
      resolveVarInScope (g.around (some b₂)) index₂ depth₂ = .ok (.localVar i₂) ∧
      i₁ ≠ i₂ ∧ i₁ < fn.locals ∧ i₂ < fn.locals := by
  obtain ⟨hs₁, sc₁, v₁, hsc₁, hv₁, hemitted₁, hcaptured₁⟩ := h₁
  obtain ⟨hs₂, sc₂, v₂, hsc₂, hv₂, hemitted₂, hcaptured₂⟩ := h₂
  have hlocal₁ : v₁.isLocal = true := by rw [Var.isLocal, hemitted₁, hcaptured₁]; rfl
  have hlocal₂ : v₂.isLocal = true := by rw [Var.isLocal, hemitted₂, hcaptured₂]; rfl
  obtain ⟨hres₁, hlt₁⟩ := resolve_local hg hvars hfn href₁ hs₁ hsc₁ hv₁ hlocal₁
  obtain ⟨hres₂, hlt₂⟩ := resolve_local hg hvars hfn href₂ hs₂ hsc₂ hv₂ hlocal₂
  refine ⟨_, _, hres₁, hres₂, fun heq => ?_, hlt₁, hlt₂⟩
  by_cases hs : s₁ = s₂
  · subst hs
    rw [hsc₁] at hsc₂
    cases hsc₂
    have hrank : sc₁.rank index₁ = sc₁.rank index₂ := by omega
    exact hne (congrArg _ (Scope.rank_inj hv₁ hv₂ hlocal₁ hlocal₂ hrank))
  · obtain ⟨sc, hin⟩ := henclose
    obtain rfl : sc = sc₁ := Option.some.inj ((Graph.mem_around hin).symm.trans hsc₁)
    have hafter := hg.locals.enclosing hg.ok hfn hs₂ hs₁ hsc₁ hsc₂ hin hs
    have hrank := Scope.rank_lt_localCount (hg.ok.scopes s₁ sc hsc₁) (hvars s₁ sc hsc₁) hv₁ hlocal₁
    omega

/-- A function with a local, and a scope with a local in it. -/
def nestedGraph : Graph where
  funcs := [⟨0, 1, 0, 2, [0, 1]⟩]
  scopes := [⟨none, 0, [⟨false, true, false, false⟩], 0, 0, false, some 0⟩,
    ⟨some 0, 1, [⟨false, true, false, false⟩], 0, 0, false, none⟩]
  blocks := [⟨[], .ret, 0, 0⟩, ⟨[], .ret, 0, 0⟩]

theorem nestedGraph_built : Built nestedGraph := by
  have hroot : Built ⟨[⟨0, 1, 0, 1, [0]⟩],
      [⟨none, 0, [⟨false, true, false, false⟩], 0, 0, false, some 0⟩],
      [⟨[], .ret, 0, 0⟩, ⟨[], .ret, 0, 0⟩]⟩ :=
    .func .new (fun _ h => by cases h)
      (show Graph.new.allocFunc 0 [⟨false, true, false, false⟩] none = .ok (_, 0) from rfl)
  have hfn : ([⟨0, 1, 0, 1, [0]⟩] : List Func)[0]? = some ⟨0, 1, 0, 1, [0]⟩ := rfl
  exact .scope hroot hfn (List.mem_singleton.mpr rfl) (show Graph.allocScope _ false false 0 (some 0)
    [⟨false, true, false, false⟩] = .ok (nestedGraph, 1) from rfl)

theorem nestedGraph_elaborated (s : Nat) (sc : Scope) (h : nestedGraph.scopes[s]? = some sc) :
    Elaborated sc.vars := by
  have hinsert : Elaborates 0 0 (Bindings.insert [] false true false 0) :=
    .insert (.new (Nat.le_refl 0)) (fun _ => Nat.le_refl 0) (by decide)
  refine ⟨0, 0, _, hinsert, ?_⟩
  match s with
  | 0 => cases h; rfl
  | 1 => cases h; rfl
  | s + 2 => cases h

/-- From the inner scope, the two locals have different slots. -/
theorem nestedGraph_slots :
    ∃ i₁ i₂, resolveVarInScope (nestedGraph.around (some 1)) 0 1 = .ok (.localVar i₁) ∧
      resolveVarInScope (nestedGraph.around (some 1)) 0 0 = .ok (.localVar i₂) ∧
      i₁ ≠ i₂ ∧ i₁ < 2 ∧ i₂ < 2 := by
  have houter : IsLocal nestedGraph nestedGraph.funcs[0] 0 0 :=
    ⟨by decide, _, _, rfl, rfl, rfl, rfl⟩
  have hinner : IsLocal nestedGraph nestedGraph.funcs[0] 1 0 :=
    ⟨by decide, _, _, rfl, rfl, rfl, rfl⟩
  have hfn : nestedGraph.funcs[0]? = some nestedGraph.funcs[0] := rfl
  exact locals_disjoint nestedGraph_built nestedGraph_elaborated hfn houter hinner
    ⟨nestedGraph.scopes[0], by decide⟩ (by decide) ⟨by decide, nestedGraph.scopes[0], by decide⟩
    ⟨by decide, nestedGraph.scopes[1], by decide⟩

end Dolang.Compile
