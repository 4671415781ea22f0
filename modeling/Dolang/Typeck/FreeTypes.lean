import Dolang.Typeck.LatticeLaws
import Mathlib.Data.Finset.Basic
import Mathlib.Data.Finset.Dedup
import Mathlib.Data.Fintype.Basic

/-!
# Types as sets of atoms

The closed types that unions make of literals, unapplied declarations and the dynamic type: a finite
set of these, without a fresh literal beside its regular twin, or `Value`. They are interned types
(`interned`), so what is said of every solver can be run on them.
-/

namespace Dolang.Typeck.FreeTypes

open Types (Literal UnionMember)

variable {n : ℕ}

/-- A type that is no union. -/
inductive Atom (n : ℕ) where
  | unknown
  | literal (l : Literal)
  | fresh (l : Literal)
  | decl (d : Fin n)
  deriving DecidableEq

/-- The members of a union. -/
@[ext]
structure Atoms (n : ℕ) where
  set : Finset (Atom n)
  apart : ∀ l, .literal l ∈ set → .fresh l ∉ set
  deriving DecidableEq

/-- A union of atoms, or `Value`. -/
abbrev FreeType (n : ℕ) := Option (Atoms n)

/-- A set keeps an atom, unless it is fresh and its regular twin is there. -/
def Atom.stays (set : Finset (Atom n)) : Atom n → Bool
  | .fresh l => .literal l ∉ set
  | _ => true

/-- The set without the fresh twins of its regular literals. -/
def reduce (set : Finset (Atom n)) : Atoms n where
  set := set.filter fun a => a.stays set
  apart _ hliteral hfresh :=
    of_decide_eq_true (Finset.mem_filter.mp hfresh).2 (Finset.mem_filter.mp hliteral).1

def single (a : Atom n) : FreeType n :=
  some ⟨{a}, fun l hliteral hfresh => by
    rw [Finset.mem_singleton] at hliteral hfresh
    cases hliteral.trans hfresh.symm⟩

def Atom.form : Atom n → Form n (FreeType n)
  | .unknown => .unknown
  | .literal l => .literal l
  | .fresh l => .fresh l
  | .decl d => .decl d

/-- The atoms of members, unless one is `Value` or a projection. -/
def joinAll : List (UnionMember (FreeType n)) → Option (Finset (Atom n))
  | [] => some ∅
  | .type (some atoms) :: members => (joinAll members).map (atoms.set ∪ ·)
  | _ :: _ => none

/-- The store of these types. The order of a union's members is left open. -/
noncomputable def store (n : ℕ) : Store n (FreeType n) where
  ty
    | none => .top
    | some atoms =>
      match atoms.set.toList with
      | [a] => a.form
      | members => .union (members.map fun a => .type (single a))
  intern
    | .top => none
    | .unknown => single .unknown
    | .literal l => single (.literal l)
    | .fresh l => single (.fresh l)
    | .decl d => single (.decl d)
    | .union members => (joinAll members).map reduce
    | .apply base _ => base
    | .other id => id
  containsUnknown
    | none => false
    | some atoms => .unknown ∈ atoms.set

theorem reduce_eq (atoms : Atoms n) : reduce atoms.set = atoms := by
  ext a
  simp only [reduce, Finset.mem_filter, and_iff_left_iff_imp]
  intro ha
  cases a with
  | fresh l => exact decide_eq_true fun hliteral => atoms.apart l hliteral ha
  | _ => rfl

theorem joinAll_eq_some {members : List (UnionMember (FreeType n))} {set : Finset (Atom n)}
    (h : joinAll members = some set) (a : Atom n) :
    a ∈ set ↔ ∃ atoms : Atoms n, .type (some atoms) ∈ members ∧ a ∈ atoms.set := by
  induction members generalizing set with
  | nil =>
    obtain rfl := Option.some.inj h
    simp
  | cons m members ih =>
    unfold joinAll at h
    split at h
    next heq => cases heq
    next atoms rest heq =>
      obtain ⟨rfl, rfl⟩ := List.cons.inj heq
      obtain ⟨rest', hrest, rfl⟩ := Option.map_eq_some_iff.mp h
      rw [Finset.mem_union, ih hrest]
      constructor
      · rintro (ha | ⟨atoms', hmem, ha⟩)
        · exact ⟨atoms, List.mem_cons_self, ha⟩
        · exact ⟨atoms', List.mem_cons_of_mem _ hmem, ha⟩
      · rintro ⟨atoms', hmem, ha⟩
        obtain heq | hmem := List.mem_cons.mp hmem
        · exact .inl (Option.some.inj (UnionMember.type.inj heq) ▸ ha)
        · exact .inr ⟨atoms', hmem, ha⟩
    next => cases h

theorem joinAll_isSome {members : List (UnionMember (FreeType n))}
    (h : ∀ m ∈ members, ∃ atoms : Atoms n, m = .type (some atoms)) :
    ∃ set, joinAll members = some set := by
  induction members with
  | nil => exact ⟨∅, rfl⟩
  | cons m members ih =>
    obtain ⟨atoms, rfl⟩ := h m List.mem_cons_self
    obtain ⟨set, hset⟩ := ih fun k hk => h k (List.mem_cons_of_mem _ hk)
    exact ⟨atoms.set ∪ set, by rw [joinAll, hset]; rfl⟩

theorem joinAll_eq_none {members : List (UnionMember (FreeType n))} :
    joinAll members = none ↔ ∃ m ∈ members, ∀ atoms : Atoms n, m ≠ .type (some atoms) := by
  constructor
  · intro h
    by_contra hall
    push Not at hall
    obtain ⟨set, hset⟩ := joinAll_isSome hall
    rw [h] at hset
    cases hset
  · rintro ⟨m, hm, hne⟩
    induction members with
    | nil => cases hm
    | cons k members ih =>
      unfold joinAll
      split
      next heq => cases heq
      next atoms rest heq =>
        obtain ⟨rfl, rfl⟩ := List.cons.inj heq
        obtain rfl | hm := List.mem_cons.mp hm
        · exact absurd rfl (hne atoms)
        · rw [ih hm]
          rfl
      next => rfl

/-- The members of a set of atoms. -/
theorem mem_unionMembers {atoms : Atoms n} {m : UnionMember (FreeType n)} :
    m ∈ (store n).unionMembers (some atoms) ↔ ∃ a ∈ atoms.set, m = .type (single a) := by
  have hlist : ∀ a, a ∈ atoms.set.toList ↔ a ∈ atoms.set := fun a => Finset.mem_toList
  unfold Store.unionMembers store
  dsimp only
  generalize hl : atoms.set.toList = l at hlist
  split
  next members hty =>
    split at hty
    next a => cases a <;> cases hty
    next =>
      obtain rfl := Form.union.inj hty
      simp only [List.mem_map, hlist, eq_comm (a := m)]
  next hty =>
    split at hty
    next a =>
      have hset : atoms.set = {a} := Finset.ext fun b => by
        rw [← hlist b, List.mem_singleton, Finset.mem_singleton]
      have hatoms : some atoms = single a := congrArg some (Atoms.ext hset)
      rw [List.mem_singleton, hatoms, hset]
      simp
    next members hne => exact absurd rfl (hty _)

theorem unionMembers_top : (store n).unionMembers none = [.type none] := rfl

/-- A member of these types is `Value` or an atom. -/
theorem isMember_iff {m : UnionMember (FreeType n)} :
    (store n).IsMember m ↔ m = .type none ∨ ∃ a, m = .type (single a) := by
  constructor
  · rintro ⟨ty, hm⟩
    cases ty with
    | none => exact .inl (List.mem_singleton.mp hm)
    | some atoms =>
      obtain ⟨a, -, rfl⟩ := mem_unionMembers.mp hm
      exact .inr ⟨a, rfl⟩
  · rintro (rfl | ⟨a, rfl⟩)
    · exact ⟨none, List.mem_singleton_self _⟩
    · exact ⟨single a, mem_unionMembers.mpr ⟨a, Finset.mem_singleton_self a, rfl⟩⟩

theorem single_inj {a b : Atom n} : single a = single b ↔ a = b := by
  rw [single, single, Option.some.injEq, Atoms.mk.injEq, Finset.singleton_inj]

theorem ty_single (a : Atom n) : (store n).ty (single a) = a.form := by
  simp [store, single]

/-- The union of a type alone is it. -/
theorem intern_alone (ty : FreeType n) : (store n).intern (.union [.type ty]) = ty := by
  cases ty with
  | none => rfl
  | some atoms =>
    show some (reduce (atoms.set ∪ ∅)) = some atoms
    rw [Finset.union_empty, reduce_eq]

/-- The union of a set's atoms is it. -/
theorem intern_atoms {atoms : Atoms n} {members : List (UnionMember (FreeType n))}
    (h : ∀ m, m ∈ members ↔ ∃ a ∈ atoms.set, m = .type (single a)) :
    (store n).intern (.union members) = some atoms := by
  obtain ⟨set, hset⟩ := joinAll_isSome fun m hm => by
    obtain ⟨a, -, rfl⟩ := (h m).mp hm
    exact ⟨_, rfl⟩
  have heq : set = atoms.set := by
    ext a
    rw [joinAll_eq_some hset]
    constructor
    · rintro ⟨other, hmem, ha⟩
      obtain ⟨b, hb, heq⟩ := (h _).mp hmem
      obtain rfl := Option.some.inj (UnionMember.type.inj heq)
      exact Finset.mem_singleton.mp ha ▸ hb
    · exact fun ha => ⟨_, (h _).mpr ⟨a, ha, rfl⟩, Finset.mem_singleton_self a⟩
  show (joinAll members).map reduce = some atoms
  rw [hset, heq, Option.map_some, reduce_eq]

theorem intern_ty (ty : FreeType n) : (store n).intern ((store n).ty ty) = ty := by
  cases ty with
  | none => rfl
  | some atoms =>
    have hmem : ∀ m, m ∈ atoms.set.toList.map (fun a => UnionMember.type (single a)) ↔
        ∃ a ∈ atoms.set, m = .type (single a) := fun m => by
      simp only [List.mem_map, Finset.mem_toList, eq_comm (a := m)]
    by_cases hone : ∃ a, atoms.set.toList = [a]
    · obtain ⟨a, hl⟩ := hone
      have hset : atoms.set = {a} := Finset.ext fun b => by
        rw [← Finset.mem_toList, hl, List.mem_singleton, Finset.mem_singleton]
      have hatoms : some atoms = single a := congrArg some (Atoms.ext hset)
      rw [hatoms, ty_single]
      cases a <;> rfl
    · have hty : (store n).ty (some atoms) =
          .union (atoms.set.toList.map fun a => .type (single a)) := by
        unfold store
        dsimp only
        split
        next a hl => exact absurd ⟨a, hl⟩ hone
        next => rfl
      rw [hty]
      exact intern_atoms hmem

/-- The members of a union without `Value`. -/
theorem mem_union {members : List (UnionMember (FreeType n))}
    (hmembers : ∀ m ∈ members, (store n).IsMember m)
    (htop : .type (store n).top ∉ members) (m : UnionMember (FreeType n)) :
    m ∈ (store n).unionMembers ((store n).intern (.union members)) ↔
      m ∈ members ∧ ∀ l, (store n).IsFresh m l →
        .type ((store n).intern (.literal l)) ∉ members := by
  have hatom : ∀ m ∈ members, ∃ a, m = .type (single a) := fun m hm =>
    (isMember_iff.mp (hmembers m hm)).resolve_left fun heq => htop (heq ▸ hm)
  obtain ⟨set, hset⟩ := joinAll_isSome fun m hm => by
    obtain ⟨a, rfl⟩ := hatom m hm
    exact ⟨_, rfl⟩
  have hset' : ∀ a, a ∈ set ↔ .type (single a) ∈ members := by
    intro a
    rw [joinAll_eq_some hset]
    constructor
    · rintro ⟨atoms, hmem, ha⟩
      obtain ⟨b, heq⟩ := hatom _ hmem
      obtain rfl := Option.some.inj (UnionMember.type.inj heq)
      obtain rfl := Finset.mem_singleton.mp ha
      exact hmem
    · exact fun hmem => ⟨_, hmem, Finset.mem_singleton_self a⟩
  have hintern : (store n).intern (.union members) = some (reduce set) := by
    show (joinAll members).map reduce = _
    rw [hset]
    rfl
  rw [hintern, mem_unionMembers]
  constructor
  · rintro ⟨a, ha, rfl⟩
    obtain ⟨ha, hstays⟩ := Finset.mem_filter.mp ha
    refine ⟨(hset' a).mp ha, fun l hfresh hliteral => ?_⟩
    obtain rfl := single_inj.mp (UnionMember.type.inj hfresh)
    exact of_decide_eq_true hstays ((hset' _).mpr hliteral)
  · rintro ⟨hm, hfresh⟩
    obtain ⟨a, rfl⟩ := hatom m hm
    refine ⟨a, Finset.mem_filter.mpr ⟨(hset' a).mpr hm, ?_⟩, rfl⟩
    cases a with
    | fresh l => exact decide_eq_true fun hliteral => hfresh l rfl ((hset' _).mp hliteral)
    | _ => rfl

theorem canonical (n : ℕ) : (store n).Canonical where
  intern_ty := intern_ty
  ty_top := rfl
  ty_unknown := ty_single _
  ty_literal l := ty_single _
  ty_fresh l := ty_single _
  ty_decl d := ty_single _
  single ty _ := intern_alone ty
  absorb members htop := by
    show (joinAll members).map reduce = none
    rw [joinAll_eq_none.mpr ⟨_, htop, fun atoms h => by cases h⟩]
    rfl
  mem_union _ := mem_union
  twin l := by
    show some (reduce ({.fresh l} ∪ ({.literal l} ∪ ∅))) = single (.literal l)
    refine congrArg some (Atoms.ext (Finset.ext fun a => ?_))
    simp only [reduce, Finset.union_empty, Finset.mem_filter, Finset.mem_union,
      Finset.mem_singleton]
    constructor
    · rintro ⟨rfl | rfl, hstays⟩
      · simp [Atom.stays] at hstays
      · rfl
    · rintro rfl
      exact ⟨.inr rfl, rfl⟩
  contains_top := rfl
  contains_unknown := by simp [store, Store.unknown, single]
  contains_literal l := by simp [store, single]
  contains_fresh l := by simp [store, single]

/-- These types, as interned types. -/
noncomputable def interned (n : ℕ) : Interned n (FreeType n) where
  toStore := store n
  canonical := canonical n

/-! ### A solver of numbers -/

/-- The literal an atom is, fresh or regular. -/
def Atom.value : Atom n → Option Literal
  | .literal l | .fresh l => some l
  | _ => none

/-- Whether a literal is one of the class's. -/
def isInt : Literal → Bool
  | .int _ => true
  | _ => false

/-- An atom is below another: either is dynamic, they are the same literal, or a number is below the
class of numbers. -/
def Atom.below : Atom 1 → Atom 1 → Bool
  | .unknown, _ | _, .unknown => true
  | .decl _, .decl _ => true
  | a, .decl _ => a.value.any isInt
  | a, b => a.value.isSome && a.value = b.value

/-- A set of atoms is below another if each of its atoms is below one of the other's. -/
def below : FreeType 1 → FreeType 1 → Bool
  | _, none => true
  | none, some t => .unknown ∈ t.set
  | some s, some t => decide (∀ a ∈ s.set, ∃ b ∈ t.set, a.below b)

/-- A solver over one class, `Int`. -/
noncomputable def numbers : Solver 1 (FreeType 1) where
  db := .ofClasses fun _ => ([], [])
  types := interned 1
  gradual := true
  probe := below
  head _ _ := none
  expand _ _ := none
  intrinsic l := if isInt l then some 0 else none
  startOther _ := none
  binders _ := []
  unknownOf _ := single .unknown
  exhausted _ := false
  depthLimit := 64

theorem Atom.below_refl (a : Atom 1) : a.below a = true := by
  cases a <;> simp [Atom.below, Atom.value]

theorem Atom.below_trans {a b c : Atom 1} (hb : b ≠ .unknown) (hab : a.below b = true)
    (hbc : b.below c = true) : a.below c = true := by
  cases b with
  | unknown => exact absurd rfl hb
  | literal l => cases a <;> cases c <;> simp_all [Atom.below, Atom.value]
  | fresh l => cases a <;> cases c <;> simp_all [Atom.below, Atom.value]
  | decl d => cases a <;> cases c <;> simp_all [Atom.below, Atom.value]

theorem Atom.below_unknown (a : Atom 1) : a.below .unknown = true := by
  cases a <;> rfl

theorem below_unknown (a : FreeType 1) : below a (single .unknown) = true := by
  cases a with
  | none => simp [below, single]
  | some s =>
    exact decide_eq_true fun a _ => ⟨.unknown, Finset.mem_singleton_self _, a.below_unknown⟩

theorem below_trans {a b c : FreeType 1} (hb : (store 1).containsUnknown b = false)
    (hab : below a b = true) (hbc : below b c = true) : below a c = true := by
  cases c with
  | none => cases a <;> rfl
  | some u =>
    cases b with
    | none =>
      have hunknown : Atom.unknown ∈ u.set := of_decide_eq_true hbc
      cases a with
      | none => exact hbc
      | some s => exact decide_eq_true fun a _ => ⟨_, hunknown, a.below_unknown⟩
    | some t =>
      cases a with
      | none => exact absurd (of_decide_eq_true hab) (of_decide_eq_false hb)
      | some s =>
        refine decide_eq_true fun a ha => ?_
        obtain ⟨b, hbt, hab⟩ := of_decide_eq_true hab a ha
        obtain ⟨c, hcu, hbc⟩ := of_decide_eq_true hbc b hbt
        refine ⟨c, hcu, Atom.below_trans ?_ hab hbc⟩
        rintro rfl
        exact of_decide_eq_false hb hbt

/-- The type of a projection is `Value`. -/
theorem typeOf_projection {m : UnionMember (FreeType n)} (h : ∀ ty, m ≠ .type ty) :
    (interned n).typeOf m = none := by
  cases m with
  | type ty => exact absurd rfl (h ty)
  | _ => rfl

/-- A member is below its union. -/
theorem below_union {members : List (UnionMember (FreeType 1))} {m : UnionMember (FreeType 1)}
    (hm : m ∈ members) :
    below ((interned 1).typeOf m) ((interned 1).intern (.union members)) = true := by
  show below _ ((joinAll members).map reduce) = true
  cases hjoin : joinAll members with
  | none => cases (interned 1).typeOf m <;> rfl
  | some set =>
    have hplain : ∃ atoms : Atoms 1, m = .type (some atoms) := by
      by_contra hne
      rw [not_exists] at hne
      rw [joinAll_eq_none.mpr ⟨m, hm, hne⟩] at hjoin
      cases hjoin
    obtain ⟨atoms, rfl⟩ := hplain
    refine decide_eq_true fun a ha => ?_
    have hset : a ∈ set := (joinAll_eq_some hjoin a).mpr ⟨atoms, hm, ha⟩
    by_cases hstays : a.stays set = true
    · exact ⟨a, Finset.mem_filter.mpr ⟨hset, hstays⟩, a.below_refl⟩
    · -- A fresh literal that does not stay is below its regular twin, which does.
      cases a with
      | fresh l =>
        have hliteral : Atom.literal l ∈ set := by
          by_contra hnot
          exact hstays (decide_eq_true hnot)
        refine ⟨.literal l, Finset.mem_filter.mpr ⟨hliteral, rfl⟩, ?_⟩
        simp [Atom.below, Atom.value]
      | _ => exact absurd rfl hstays

/-- A union is below what each of its members is below. -/
theorem union_below {members : List (UnionMember (FreeType 1))} {ty : FreeType 1}
    (h : ∀ m ∈ members, below ((interned 1).typeOf m) ty = true) :
    below ((interned 1).intern (.union members)) ty = true := by
  show below ((joinAll members).map reduce) ty = true
  cases hjoin : joinAll members with
  | none =>
    obtain ⟨m, hm, hne⟩ := joinAll_eq_none.mp hjoin
    have hbelow := h m hm
    have htop : (interned 1).typeOf m = none := by
      cases m with
      | type t =>
        cases t with
        | none => rfl
        | some atoms => exact absurd rfl (hne atoms)
      | _ => rfl
    rwa [htop] at hbelow
  | some set =>
    cases ty with
    | none => rfl
    | some t =>
      refine decide_eq_true fun a ha => ?_
      obtain ⟨atoms, hm, ha⟩ := (joinAll_eq_some hjoin a).mp (Finset.mem_filter.mp ha).1
      exact of_decide_eq_true (h _ hm) a ha

/-- No type applies a declaration. -/
theorem ty_ne_apply (ty base : FreeType n) (arguments : List (FreeType n)) :
    (store n).ty ty ≠ .apply base arguments := by
  intro h
  cases ty with
  | none => cases h
  | some atoms =>
    unfold store at h
    dsimp only at h
    split at h
    next a _ => cases a <;> cases h
    next => cases h

/-- What a type's ancestors start from is above it. -/
theorem below_start {ty : FreeType 1} {start : Nominal 1 (FreeType 1)}
    (h : numbers.start ty = some start) (d : Fin 1) : below ty (single (.decl d)) = true := by
  have hsingle : ∀ a : Atom 1, a.below (.decl d) = true →
      below (single a) (single (.decl d)) = true := fun a ha =>
    decide_eq_true fun b hb => ⟨.decl d, Finset.mem_singleton_self _,
      (Finset.mem_singleton.mp hb) ▸ ha⟩
  have hliteral : ∀ l, (numbers.intrinsic l).map (⟨·, []⟩) = some start → isInt l = true := by
    intro l hstart
    by_contra hl
    rw [show numbers.intrinsic l = none from if_neg hl] at hstart
    cases hstart
  have heq := intern_ty ty
  unfold Solver.start at h
  split at h
  next c hty =>
    rw [show (store 1).ty ty = _ from hty] at heq
    exact heq ▸ hsingle (.decl c) rfl
  next base arguments hty => exact absurd hty (ty_ne_apply ty base arguments)
  next l hty =>
    rw [show (store 1).ty ty = _ from hty] at heq
    exact heq ▸ hsingle (.literal l) (hliteral l h)
  next l hty =>
    rw [show (store 1).ty ty = _ from hty] at heq
    exact heq ▸ hsingle (.fresh l) (hliteral l h)
  all_goals cases h

/-- What the solver of numbers proves. -/
theorem numbers_subtyping : numbers.Subtyping where
  refl a := by
    cases a with
    | none => rfl
    | some s => exact decide_eq_true fun a ha => ⟨a, ha, a.below_refl⟩
  trans a b c := below_trans
  upper members m := below_union
  least members ty := union_below
  twin l := decide_eq_true fun a ha => by
    obtain rfl := Finset.mem_singleton.mp ha
    exact ⟨.fresh l, Finset.mem_singleton_self _, by simp [Atom.below, Atom.value]⟩
  unknown := below_unknown
  ancestor ty start d found arguments hstart _ _ := below_start hstart d

end Dolang.Typeck.FreeTypes
