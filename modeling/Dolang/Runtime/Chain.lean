import Dolang.Runtime.Interp

/-!
# Chains of upvar records

The records that a pointer leads to, from the innermost one outwards, have certain numbers of
variables (`ChainIs`). A chain stays what it is when records are added and variables change
(`Heap.Extends`), and a variable of it can be read and written (`ChainIs.getUnchecked`,
`ChainIs.setUnchecked`).
-/

namespace Dolang.Runtime

open Dolang.Rust Dolang.Bytecode

/-- The records from a pointer outwards have the given numbers of variables. -/
def ChainIs (heap : Heap) : Option Nat → List Nat → Prop
  | this, [] => this = none
  | this, n :: sizes => ∃ p r, this = some p ∧ heap[p]? = some r ∧ r.vars.length = n ∧
      ChainIs heap r.parent sizes

/-- Records stay where they are, with as many variables and the same record around them. -/
def Heap.Extends (heap heap' : Heap) : Prop :=
  ∀ (p : Nat) (r : Upvars), heap[p]? = some r →
    ∃ r', heap'[p]? = some r' ∧ r'.parent = r.parent ∧ r'.vars.length = r.vars.length

theorem Heap.Extends.refl (heap : Heap) : heap.Extends heap := fun _ r h => ⟨r, h, rfl, rfl⟩

theorem Heap.Extends.trans {a b c : Heap} (hab : a.Extends b) (hbc : b.Extends c) :
    a.Extends c := by
  intro p r h
  obtain ⟨r', h', hparent, hlen⟩ := hab p r h
  obtain ⟨r'', h'', hparent', hlen'⟩ := hbc p r' h'
  exact ⟨r'', h'', hparent'.trans hparent, hlen'.trans hlen⟩

/-- A record that is added. -/
theorem Heap.extends_append (heap : Heap) (r : Upvars) : Heap.Extends heap (heap ++ [r]) := by
  intro p r' h
  have hlt := (List.getElem?_eq_some_iff.mp h).1
  exact ⟨r', by rw [List.getElem?_append_left hlt]; exact h, rfl, rfl⟩

/-- A record that is changed. -/
theorem Heap.extends_set {heap : Heap} {p : Nat} {r r' : Upvars} (h : heap[p]? = some r)
    (hparent : r'.parent = r.parent) (hlen : r'.vars.length = r.vars.length) :
    Heap.Extends heap (heap.set p r') := by
  intro q s hs
  by_cases hpq : p = q
  · subst hpq
    rw [h] at hs
    cases hs
    have hlt := (List.getElem?_eq_some_iff.mp h).1
    exact ⟨r', by simp [hlt], hparent, hlen⟩
  · exact ⟨s, by rw [List.getElem?_set_ne hpq]; exact hs, rfl, rfl⟩

theorem ChainIs.mono {heap heap' : Heap} (hext : heap.Extends heap') {this : Option Nat}
    {sizes : List Nat} (h : ChainIs heap this sizes) : ChainIs heap' this sizes := by
  induction sizes generalizing this with
  | nil => exact h
  | cons n sizes ih =>
    obtain ⟨p, r, rfl, hr, hlen, hrest⟩ := h
    obtain ⟨r', hr', hparent, hlen'⟩ := hext p r hr
    exact ⟨p, r', rfl, hr', hlen'.trans hlen, hparent ▸ ih hrest⟩

/-- A record that is pushed. -/
theorem ChainIs.alloc {st : Shared} {this : Option Nat} {sizes : List Nat}
    (h : ChainIs st.heap this sizes) (vars : List Value) :
    ChainIs (st.alloc this vars).1.heap (some (st.alloc this vars).2) (vars.length :: sizes) := by
  refine ⟨_, ⟨this, vars, false⟩, rfl, ?_, rfl, h.mono (Heap.extends_append _ _)⟩
  simp [Shared.alloc]

theorem Shared.extends_alloc (st : Shared) (this : Option Nat) (vars : List Value) :
    Heap.Extends st.heap (st.alloc this vars).1.heap := Heap.extends_append _ _

/-- The record at a depth of a chain. -/
theorem ChainIs.atDepth {heap : Heap} {this : Option Nat} {sizes : List Nat} {depth : Nat}
    (h : ChainIs heap this sizes) (hdepth : depth < sizes.length) :
    ∃ p r, Upvars.atDepth heap this depth = .ok p ∧ heap[p]? = some r ∧
      sizes[depth]? = some r.vars.length := by
  induction depth generalizing this sizes with
  | zero =>
    cases sizes with
    | nil => simp at hdepth
    | cons n sizes =>
      obtain ⟨p, r, rfl, hr, rfl, -⟩ := h
      exact ⟨p, r, rfl, hr, rfl⟩
  | succ depth ih =>
    cases sizes with
    | nil => simp at hdepth
    | cons n sizes =>
      obtain ⟨p, r, rfl, hr, -, hrest⟩ := h
      obtain ⟨q, s, hq, hs, hlen⟩ := ih hrest (by simpa using hdepth)
      refine ⟨q, s, ?_, hs, hlen⟩
      simp only [Upvars.atDepth, unwrap, ok_bind, hr]
      exact hq

section

variable {heap : Heap} {this : Option Nat} {sizes : List Nat} {index depth n : Nat}

/-- A variable of a chain can be read. -/
theorem ChainIs.getUnchecked (h : ChainIs heap this sizes) (hsize : sizes[depth]? = some n)
    (hindex : index < n) : ∃ v, Upvars.getUnchecked heap this index depth = .ok v := by
  obtain ⟨p, r, hp, hr, hlen⟩ := h.atDepth (List.getElem?_eq_some_iff.mp hsize).1
  rw [hsize] at hlen
  cases hlen
  refine ⟨r.vars[index], ?_⟩
  simp [Upvars.getUnchecked, hp, hr, unwrap, List.getElem?_eq_getElem hindex]

/-- A variable of a chain can be written. -/
theorem ChainIs.setUnchecked (h : ChainIs heap this sizes) (hsize : sizes[depth]? = some n)
    (hindex : index < n) (value : Value) :
    ∃ heap', Upvars.setUnchecked heap this index depth value = .ok heap' ∧ heap.Extends heap' := by
  obtain ⟨p, r, hp, hr, hlen⟩ := h.atDepth (List.getElem?_eq_some_iff.mp hsize).1
  rw [hsize] at hlen
  cases hlen
  refine ⟨heap.set p { r with vars := r.vars.set index value }, ?_,
    Heap.extends_set hr rfl (by simp)⟩
  simp [Upvars.setUnchecked, hp, hr, unwrap, List.getElem?_eq_getElem hindex, pure, Except.pure]

end

/-- The innermost record of a chain can be popped. -/
theorem ChainIs.popUpvars {st : Shared} {f : CallFrame} {n : Nat} {sizes : List Nat}
    (h : ChainIs st.heap f.upvars (n :: sizes)) :
    ∃ p r, f.upvars = some p ∧ st.heap[p]? = some r ∧ ChainIs st.heap r.parent sizes ∧
      st.popUpvars f = .ok (p, { f with upvars := r.parent }) := by
  obtain ⟨p, r, hp, hr, -, hrest⟩ := h
  refine ⟨p, r, hp, hr, hrest, ?_⟩
  simp [Shared.popUpvars, hp, hr, unwrap, pure, Except.pure]

end Dolang.Runtime
