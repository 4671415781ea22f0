import Dolang.Typeck.Joins

/-!
# Joins are upper bounds, and widening ends

What `lub` and `Widening.join` guarantee of a solver that proves subtyping (`Subtyping`): a
preorder, as far as no dynamic type stands between, in which a union is the least upper bound of its
members and a class is below its ancestors. A member stays, is below one that is compared, or is the
fresh twin of one (`Under`); a join's members cover those of both types in this sense
(`lub_covers`), which carries through folds of joins, arguments and common supertypes. Widening
counts increases, so that a variable changes only a few times (`changes_le`).
-/

namespace Dolang.Typeck

open Types (Literal UnionMember Binder Kind)

variable {n : ℕ} {T : Type}

namespace Solver

variable (s : Solver n T)

/-- A declaration applied to an argument for each of its binders. -/
def applied (d : Fin n) (arguments : List T) : T :=
  if (s.binders d).isEmpty then s.types.intern (.decl d)
  else s.types.intern (.apply (s.types.intern (.decl d)) arguments)

/-- How an argument is related to another that its binder is applied to, by the binder's variance.
-/
def Related (binder : Binder T) (x y : T) : Prop :=
  match binder.variance with
  | .covariant => s.probe x y = true
  | .contravariant => s.probe y x = true
  | .invariant => s.probe x y = true ∧ s.probe y x = true

/-- What the solver proves: a preorder, as far as no dynamic type stands between, in which a union
is the least upper bound of its members, a fresh literal is its regular twin, everything is below
the dynamic type, and a class is below its ancestors with arguments that are related by variance. -/
structure Subtyping : Prop where
  refl : ∀ a, s.probe a a = true
  trans : ∀ a b c, s.types.containsUnknown b = false → s.probe a b = true → s.probe b c = true →
    s.probe a c = true
  upper : ∀ members, ∀ m ∈ members,
    s.probe (s.types.typeOf m) (s.types.intern (.union members)) = true
  least : ∀ members ty, (∀ m ∈ members, s.probe (s.types.typeOf m) ty = true) →
    s.probe (s.types.intern (.union members)) ty = true
  twin : ∀ l, s.probe (s.types.intern (.literal l)) (s.types.intern (.fresh l)) = true
  unknown : ∀ a, s.probe a s.types.unknown = true
  ancestor : ∀ ty start d found arguments, s.start ty = some start →
    s.ancestor start d = some (some found) →
    (∀ (slot : ℕ) (binder : Binder T) (x y : T), (s.binders d)[slot]? = some binder →
      found.arguments[slot]? = some x → arguments[slot]? = some y → s.Related binder x y) →
    s.probe ty (s.applied d arguments) = true

variable {s}

/-! ### Members below members -/

variable (s) in
/-- A member is another, or below one that joins compare. -/
def Under (m k : UnionMember T) : Prop :=
  m = k ∨ ∃ ty, s.comparable k = some ty ∧ s.probe (s.types.typeOf m) ty = true

theorem Under.trans (h : s.Subtyping) {m k j : UnionMember T} (hmk : s.Under m k)
    (hkj : s.Under k j) : s.Under m j := by
  obtain rfl | ⟨ty, hcomparable, hprobe⟩ := hmk
  · exact hkj
  · obtain rfl | ⟨ty', hcomparable', hprobe'⟩ := hkj
    · exact .inr ⟨ty, hcomparable, hprobe⟩
    · obtain ⟨rfl, hunknown⟩ := comparable_eq_some.mp hcomparable
      exact .inr ⟨ty', hcomparable', h.trans _ ty _ hunknown hprobe hprobe'⟩

/-- What is above the members that cover a type's is above the type. -/
theorem Covers.probe (h : s.Subtyping) {a ty : T} {ks : List (UnionMember T)}
    (hcovers : Covers s.Under (s.types.unionMembers a) ks)
    (hks : ∀ k ∈ ks, s.probe (s.types.typeOf k) ty = true) : s.probe a ty = true := by
  rw [← s.types.union_unionMembers a]
  refine h.least _ ty fun m hm => ?_
  obtain ⟨k, hk, rfl | ⟨kty, hcomparable, hprobe⟩⟩ := hcovers m hm
  · exact hks m hk
  · obtain ⟨rfl, hunknown⟩ := comparable_eq_some.mp hcomparable
    exact h.trans _ kty _ hunknown hprobe (hks _ hk)

/-- A type whose members another's cover is below it. -/
theorem Covers.below (h : s.Subtyping) {a b : T}
    (hcovers : Covers s.Under (s.types.unionMembers a) (s.types.unionMembers b)) :
    s.probe a b = true := by
  refine hcovers.probe h fun k hk => ?_
  have hupper := h.upper _ k hk
  rwa [s.types.union_unionMembers] at hupper

theorem probe_top (h : s.Subtyping) (m : UnionMember T) :
    s.probe (s.types.typeOf m) s.types.top = true := by
  have hupper := h.upper [m, .type s.types.top] m List.mem_cons_self
  rwa [s.types.canonical.absorb _ (List.mem_cons_of_mem _ List.mem_cons_self)] at hupper

/-- A fresh literal is under its regular twin. -/
theorem under_twin (h : s.Subtyping) (l : Literal) :
    s.Under (.type (s.types.intern (.fresh l))) (.type (s.types.intern (.literal l))) := by
  refine .inr ⟨_, comparable_eq_some.mpr ⟨rfl, s.types.canonical.contains_literal l⟩, ?_⟩
  have hupper := h.upper _ _ (List.mem_cons_self
    (a := UnionMember.type (s.types.intern (.fresh l)))
    (l := [.type (s.types.intern (.literal l))]))
  rwa [s.types.canonical.twin l] at hupper

/-- Being under another carries through joins. -/
theorem Subtyping.carries (h : s.Subtyping) : s.Carries (fun _ => True) s.Under where
  refl _ := .inl rfl
  trans _ _ _ _ := Under.trans h
  twin := under_twin h
  probe m k ty kty _ _ hm hk hprobe := by
    obtain ⟨rfl, -⟩ := comparable_eq_some.mp hm
    exact .inr ⟨kty, hk, hprobe⟩
  top m _ :=
    .inr ⟨s.types.top, comparable_eq_some.mpr ⟨rfl, s.types.canonical.contains_top⟩, probe_top h m⟩

/-! ### Joins -/

section Join

variable [DecidableEq T]

/-- A join is the dynamic type, or its members cover those of both types. -/
theorem lub_under (hs : s.Subtyping) (a b : T) : s.lub a b = s.types.unknown ∨
    Covers s.Under (s.types.unionMembers a) (s.types.unionMembers (s.lub a b)) ∧
      Covers s.Under (s.types.unionMembers b) (s.types.unionMembers (s.lub a b)) := by
  refine (lub_covers hs.carries fun _ _ => trivial).imp_right
    fun h => ⟨fun m hm => ?_, fun m hm => ?_⟩
  · exact h m (List.mem_append_right _ hm)
  · exact h m (List.mem_append_left _ hm)

/-- A join is the dynamic type, or above both types. -/
theorem lub_above (hs : s.Subtyping) (a b : T) : s.lub a b = s.types.unknown ∨
    s.probe a (s.lub a b) = true ∧ s.probe b (s.lub a b) = true :=
  (lub_under hs a b).imp_right fun h => ⟨h.1.below hs, h.2.below hs⟩

/-! ### Arguments -/

/-- A fold of joins is the dynamic type, or covers every type that is joined. -/
theorem foldl_lub_covers (hs : s.Subtyping) (first : T) (rest : List T) :
    rest.foldl s.lub first = s.types.unknown ∨ ∀ arg ∈ first :: rest,
      Covers s.Under (s.types.unionMembers arg)
        (s.types.unionMembers (rest.foldl s.lub first)) := by
  induction rest generalizing first with
  | nil =>
    refine .inr fun arg harg => ?_
    obtain rfl := List.mem_singleton.mp harg
    exact fun m hm => ⟨m, hm, .inl rfl⟩
  | cons arg rest ih =>
    rw [List.foldl_cons]
    obtain hunknown | ⟨hfirst, harg⟩ := lub_under hs first arg
    · rw [hunknown]
      have hrest : rest.foldl s.lub s.types.unknown = s.types.unknown := by
        clear ih
        induction rest with
        | nil => rfl
        | cons arg rest ih => rw [List.foldl_cons, lub_unknown, ih]
      exact .inl hrest
    · refine (ih (s.lub first arg)).imp_right fun hall k hk => ?_
      have hjoin := hall _ List.mem_cons_self
      obtain rfl | hk := List.mem_cons.mp hk
      · exact hs.carries.covers_trans (fun _ _ => trivial) hfirst hjoin
      obtain rfl | hk := List.mem_cons.mp hk
      · exact hs.carries.covers_trans (fun _ _ => trivial) harg hjoin
      · exact hall k (List.mem_cons_of_mem _ hk)

/-- A fold of joins is above every type that is joined. -/
theorem foldl_lub_above (hs : s.Subtyping) {first : T} {rest : List T} {arg : T}
    (harg : arg ∈ first :: rest) : s.probe arg (rest.foldl s.lub first) = true := by
  obtain hunknown | hall := foldl_lub_covers hs first rest
  · rw [hunknown]
    exact hs.unknown arg
  · exact (hall arg harg).below hs

/-- Each argument is related to what a binder's arguments combine to. -/
theorem combine_related (hs : s.Subtyping) {binder : Binder T} {args : List T} {combined arg : T}
    (h : s.combine binder args = some combined) (harg : arg ∈ args) :
    s.Related binder arg combined := by
  unfold combine at h
  split at h
  next => cases h
  next first rest =>
    split at h
    next hsame =>
      obtain rfl := Option.some.inj h
      have heq : arg = first := by
        obtain rfl | harg := List.mem_cons.mp harg
        · rfl
        · exact of_decide_eq_true (List.all_eq_true.mp hsame arg harg)
      rw [heq, Related]
      split
      · exact hs.refl first
      · exact hs.refl first
      · exact ⟨hs.refl first, hs.refl first⟩
    next =>
      split at h
      next => cases h
      next =>
        unfold Related
        cases hvariance : binder.variance with
        | covariant =>
          simp only [hvariance] at h
          exact Option.some.inj h ▸ foldl_lub_above hs harg
        | contravariant =>
          simp only [hvariance] at h
          have hall := List.find?_some h
          exact List.all_eq_true.mp hall arg harg
        | invariant =>
          simp only [hvariance] at h
          cases h

/-- What a list gives element by element. -/
theorem getElem?_of_mapM {α β : Type} {f : α → Option β} {l : List α} {l' : List β}
    (h : l.mapM f = some l') {i : ℕ} {a : α} (ha : l[i]? = some a) :
    ∃ b, f a = some b ∧ l'[i]? = some b := by
  induction l generalizing l' i with
  | nil => cases ha
  | cons first l ih =>
    rw [List.mapM_cons] at h
    obtain ⟨b, hb, h⟩ := Option.bind_eq_some_iff.mp h
    obtain ⟨rest, hrest, h⟩ := Option.bind_eq_some_iff.mp h
    obtain rfl := Option.some.inj h
    cases i with
    | zero => exact ⟨b, Option.some.inj ha ▸ hb, rfl⟩
    | succ i => exact ih hrest ha

/-- A shared ancestor is above each type that starts below it. -/
theorem shared_above (hs : s.Subtyping) {d : Fin n} {starts : List (Nominal n T)} {ty above : T}
    {start : Nominal n T} (h : s.shared d starts = some above) (hstart : start ∈ starts)
    (hty : s.start ty = some start) : s.probe ty above = true := by
  unfold shared at h
  split at h
  next => cases h
  next =>
    obtain ⟨found, hfound, h⟩ := Option.bind_eq_some_iff.mp h
    obtain ⟨i, hi⟩ := List.getElem?_of_mem hstart
    obtain ⟨reached, hjoin, hreached⟩ := getElem?_of_mapM hfound hi
    have hancestor : s.ancestor start d = some (some reached) := Option.join_eq_some_iff.mp hjoin
    split at h
    next hempty =>
      obtain rfl := Option.some.inj h
      have happlied := hs.ancestor ty start d reached [] hty hancestor
        fun slot binder x y _ _ hy => by cases hy
      rwa [applied, if_pos hempty] at happlied
    next hempty =>
      obtain ⟨arguments, harguments, h⟩ := Option.bind_eq_some_iff.mp h
      obtain rfl := Option.some.inj h
      have happlied := hs.ancestor ty start d reached arguments hty hancestor
        fun slot binder x y hbinder hx hy => by
          have hslot : (s.binders d).zipIdx[slot]? = some (binder, slot) := by
            rw [List.getElem?_zipIdx, hbinder, Option.map_some, Nat.zero_add]
          obtain ⟨y', hcombine, hy'⟩ := getElem?_of_mapM harguments hslot
          obtain rfl := Option.some.inj (hy.symm.trans hy')
          refine combine_related hs hcombine (List.mem_filterMap.mpr ⟨reached, ?_, hx⟩)
          exact List.mem_of_getElem? hreached
      rwa [applied, if_neg hempty] at happlied

/-- The common supertype of a union is above its members. -/
theorem commonSupertype_above (hs : s.Subtyping) {ty above : T}
    (h : s.commonSupertype ty = some above) : ∀ m ∈ s.types.unionMembers ty,
      s.probe (s.types.typeOf m) above = true := by
  unfold commonSupertype at h
  unfold Store.unionMembers
  cases hty : s.types.ty ty with
  | union members =>
    simp only [hty] at h ⊢
    obtain ⟨starts, hstarts, h⟩ := Option.bind_eq_some_iff.mp h
    obtain ⟨first, -, h⟩ := Option.bind_eq_some_iff.mp h
    obtain ⟨candidates, -, h⟩ := Option.bind_eq_some_iff.mp h
    obtain ⟨minimal, hminimal, h⟩ := Option.bind_eq_some_iff.mp h
    obtain rfl := Option.some.inj h
    obtain ⟨d, -, hshared⟩ := List.mem_filterMap.mp (List.mem_of_find?_eq_some hminimal)
    obtain ⟨above, hsome, rfl⟩ := Option.map_eq_some_iff.mp hshared
    intro m hm
    obtain ⟨i, hi⟩ := List.getElem?_of_mem hm
    obtain ⟨start, hstart, hget⟩ := getElem?_of_mapM hstarts hi
    cases m with
    | type ty => exact shared_above hs hsome (List.mem_of_getElem? hget) hstart
    | _ => cases hstart
  | _ =>
    simp only [hty] at h ⊢
    obtain rfl := Option.some.inj h
    intro m hm
    obtain rfl := List.mem_singleton.mp hm
    exact hs.refl ty

/-! ### What a join leaves and keeps -/

variable (s) in
/-- A member that joining leaves out: it's one of the others, or below one of them that it is
compared with, and the twin of none. -/
def Absorbed (kept : List (UnionMember T)) (m : UnionMember T) : Prop :=
  m ∈ kept ∨ (∀ k ∈ kept, ∀ l, s.types.IsFresh k l → m ≠ .type (s.types.intern (.literal l))) ∧
    ∃ ty k kty, s.comparable m = some ty ∧ k ∈ kept ∧ s.comparable k = some kty ∧
      s.probe ty kty = true

/-- A member that is absorbed changes nothing. -/
theorem joinMember_absorbed {kept : List (UnionMember T)} {m : UnionMember T}
    (h : s.Absorbed kept m) : s.joinMember kept m = kept := by
  obtain hm | ⟨hfresh, ty, k, kty, hty, hk, hkty, hprobe⟩ := h
  · exact if_pos hm
  by_cases hm : m ∈ kept
  · exact if_pos hm
  obtain ⟨rfl, hknown⟩ := comparable_eq_some.mp hty
  have htwin : ∀ k ∈ kept, s.isTwin ty k = false := by
    intro k hk
    rw [Bool.eq_false_iff]
    intro htwin
    obtain ⟨l, hl, rfl⟩ := isTwin_iff.mp htwin
    exact hfresh k hk l hl rfl
  rw [joinMember, if_neg hm, replaceTwin_eq_none htwin, Option.getD_none, joinNew, hty]
  refine if_pos (List.any_eq_true.mpr ⟨k, hk, ?_⟩)
  rw [hkty]
  exact hprobe

/-- A join is its first type where that absorbs each member of the second. -/
theorem lub_absorbed {a b : T}
    (ha : .type s.types.unknown ∈ s.types.unionMembers a → a = s.types.unknown)
    (h : ∀ m ∈ s.types.unionMembers b, s.Absorbed (s.types.unionMembers a) m) :
    s.lub a b = a := by
  by_cases hunknown : .type s.types.unknown ∈ s.types.unionMembers a
  · rw [ha hunknown, lub_unknown]
  have hjoin : s.joinMembers (s.types.unionMembers b) (s.types.unionMembers a) =
      some (s.types.unionMembers a) := by
    generalize s.types.unionMembers b = ms at h
    induction ms with
    | nil => rfl
    | cons m ms ih =>
      have hm := h m List.mem_cons_self
      have hne : m ≠ .type s.types.unknown := by
        rintro rfl
        obtain hmem | ⟨-, ty, -, -, hty, -⟩ := hm
        · exact hunknown hmem
        · obtain ⟨heq, hknown⟩ := comparable_eq_some.mp hty
          rw [← UnionMember.type.inj heq, s.types.canonical.contains_unknown] at hknown
          cases hknown
      rw [joinMembers, if_neg hne, joinMember_absorbed hm]
      exact ih fun k hk => h k (List.mem_cons_of_mem m hk)
  obtain ⟨-, hor⟩ | ⟨-, kept, hkept, hlub⟩ := s.lub_cases a b
  · rw [joinMembers_eq_none.mpr (hor.resolve_left hunknown)] at hjoin
    cases hjoin
  · rw [hlub, ← Option.some.inj (hjoin.symm.trans hkept), s.types.union_unionMembers]

variable (s) in
/-- Of the members that joins compare, only some of the first type's, and what replaces a fresh one
of them, are below another. -/
def Reduced (a : T) (kept : List (UnionMember T)) : Prop :=
  ∀ m ∈ kept, ∀ k ∈ kept, m ≠ k → ∀ ty kty, s.comparable m = some ty → s.comparable k = some kty →
    s.probe ty kty = true → m ∈ s.types.unionMembers a ∨
      ∃ l, m = .type (s.types.intern (.literal l)) ∧
        .type (s.types.intern (.fresh l)) ∈ s.types.unionMembers a

omit [DecidableEq T] in
/-- A type has no fresh literal beside its regular twin. -/
theorem twins_apart {ty : T} {l : Literal}
    (hfresh : .type (s.types.intern (.fresh l)) ∈ s.types.unionMembers ty) :
    .type (s.types.intern (.literal l)) ∉ s.types.unionMembers ty := by
  intro hliteral
  have hself := s.types.union_unionMembers ty
  by_cases htop : .type s.types.top ∈ s.types.unionMembers ty
  · rw [s.types.canonical.absorb _ htop] at hself
    rw [← hself, s.types.unionMembers_top] at hliteral
    have hty := congrArg s.types.ty (UnionMember.type.inj (List.mem_singleton.mp hliteral))
    rw [s.types.canonical.ty_literal, s.types.canonical.ty_top] at hty
    cases hty
  · have hmem := s.types.canonical.mem_union _ (fun m hm => ⟨ty, hm⟩) htop
    rw [hself] at hmem
    exact ((hmem _).mp hfresh).2 l rfl hliteral

omit [DecidableEq T] in
/-- Joining a member keeps the members reduced. -/
theorem Joined.reduced (hs : s.Subtyping) {a b : T} {kept kept' : List (UnionMember T)}
    {member : UnionMember T} (h : Joined s kept member kept')
    (hmember : member ∈ s.types.unionMembers b)
    (hkept : ∀ m ∈ kept, m ∈ s.types.unionMembers a ∨ m ∈ s.types.unionMembers b)
    (hreduced : s.Reduced a kept) : s.Reduced a kept' := by
  cases h with
  | here => exact hreduced
  | below => exact hreduced
  | dynamic hnone =>
    intro m hm k hk hne ty kty hty hkty hprobe
    obtain hm | rfl := (List.mem_append.mp hm).imp_right List.mem_singleton.mp
    · obtain hk | rfl := (List.mem_append.mp hk).imp_right List.mem_singleton.mp
      · exact hreduced m hm k hk hne ty kty hty hkty hprobe
      · rw [hnone] at hkty
        cases hkty
    · rw [hnone] at hty
      cases hty
  | added new hnew hnone =>
    intro m hm k hk hne ty kty hty hkty hprobe
    obtain hm | rfl := (List.mem_append.mp hm).imp_right List.mem_singleton.mp
    · obtain ⟨hm, hstays⟩ := List.mem_filter.mp hm
      obtain hk | rfl := (List.mem_append.mp hk).imp_right List.mem_singleton.mp
      · exact hreduced m hm k (List.mem_of_mem_filter hk) hne ty kty hty hkty hprobe
      · -- What is below the new member is not kept.
        obtain rfl := Option.some.inj (hnew.symm.trans hkty)
        simp [hty, hprobe] at hstays
    · obtain rfl := Option.some.inj (hnew.symm.trans hty)
      obtain hk | rfl := (List.mem_append.mp hk).imp_right List.mem_singleton.mp
      · rw [hnone k (List.mem_of_mem_filter hk) kty hkty] at hprobe
        cases hprobe
      · exact absurd rfl hne
  | twin l before after hsplit hliteral =>
    have hmem : UnionMember.type (s.types.intern (.fresh l)) ∈ kept :=
      hsplit ▸ List.mem_append_right _ List.mem_cons_self
    have hfresh : .type (s.types.intern (.fresh l)) ∈ s.types.unionMembers a :=
      (hkept _ hmem).resolve_right fun hb => twins_apart hb (hliteral ▸ hmember)
    have hstays : ∀ m ∈ before ++ member :: after, m = member ∨ m ∈ kept := by
      intro m hm
      rw [hsplit]
      obtain hm | rfl | hm := List.mem_append.mp hm |>.imp_right List.mem_cons.mp
      · exact .inr (List.mem_append_left _ hm)
      · exact .inl rfl
      · exact .inr (List.mem_append_right _ (List.mem_cons_of_mem _ hm))
    intro m hmIn k hkIn hne ty kty hty hkty hprobe
    obtain rfl | hm := hstays m hmIn
    · exact .inr ⟨l, hliteral, hfresh⟩
    obtain rfl | hk := hstays k hkIn
    · -- What is below the regular twin is below the fresh one.
      subst hliteral
      obtain ⟨heq, hknown⟩ := comparable_eq_some.mp hkty
      obtain rfl := UnionMember.type.inj heq
      have hbelow := hs.trans ty _ _ hknown hprobe (hs.twin l)
      by_cases hm' : m = .type (s.types.intern (.fresh l))
      · exact .inl (hm' ▸ hfresh)
      · exact hreduced m hm _ hmem hm' ty _ hty
          (comparable_eq_some.mpr ⟨rfl, s.types.canonical.contains_fresh l⟩) hbelow
    · exact hreduced m hm k hk hne ty kty hty hkty hprobe

/-- A member of a join that it compares, from the second type only and no twin of the first's, is
below no other. -/
theorem lub_reduced (hs : s.Subtyping) (a b : T) :
    s.Reduced a (s.types.unionMembers (s.lub a b)) := by
  obtain ⟨hunknown, -⟩ | ⟨-, kept, hkept, hlub⟩ := s.lub_cases a b
  · rw [hunknown, s.types.unionMembers_unknown]
    intro m hm k hk hne
    exact absurd ((List.mem_singleton.mp hm).trans (List.mem_singleton.mp hk).symm) hne
  have hmember := isMember_kept hkept
  have hreduced : s.Reduced a kept := by
    refine (joinMembers_invariant (P := fun kept => (∀ m ∈ kept, m ∈ s.types.unionMembers a ∨
      m ∈ s.types.unionMembers b) ∧ s.Reduced a kept) (fun m hm kept kept' hjoined hP => ?_)
      ⟨fun m hm => .inl hm, fun m hm _ _ _ _ _ _ _ _ => .inl hm⟩ hkept).2
    refine ⟨fun k hk => ?_, hjoined.reduced hs hm hP.1 hP.2⟩
    obtain hk | rfl := hjoined.mem hk
    · exact hP.1 k hk
    · exact .inr hm
  rw [hlub]
  by_cases htop : .type s.types.top ∈ kept
  · rw [s.types.canonical.absorb kept htop, s.types.unionMembers_top]
    intro m hm k hk hne
    exact absurd ((List.mem_singleton.mp hm).trans (List.mem_singleton.mp hk).symm) hne
  · have hunion := s.types.canonical.mem_union kept
      (fun m hm => (hmember m hm).elim (fun h => ⟨a, h⟩) fun h => ⟨b, h⟩) htop
    intro m hm k hk
    exact hreduced m ((hunion m).mp hm).1 k ((hunion k).mp hk).1

end Join

end Solver

/-! ### Widening -/

namespace Widening

variable [DecidableEq T] {s : Solver n T}

variable (s) in
/-- How often the value of a variable changes when types are joined into it one after another. -/
def changes (w : Widening) (old : T) : List T → ℕ
  | [] => 0
  | new :: news =>
    let joined := w.join s old new
    (if joined.1 = old then 0 else 1) + changes joined.2 joined.1 news

/-- What joining does: it leaves the variable, or counts an increase and widens by its number. -/
theorem join_cases (w : Widening) (old new : T) :
    (s.lub old new = old ∧ w.join s old new = (old, w)) ∨
    (s.lub old new ≠ old ∧ (w.join s old new).2 = ⟨(w.increases + 1) % 2 ^ 32⟩ ∧
      ((w.join s old new).1 = last s ∨
        (w.increases + 1) % 2 ^ 32 ≤ 2 * wideningLimit ∧
          ((w.join s old new).1 = s.lub old new ∨
            s.commonSupertype (s.lub old new) = some (w.join s old new).1))) := by
  unfold join
  by_cases hjoined : s.lub old new = old
  · exact .inl ⟨hjoined, if_pos hjoined⟩
  refine .inr ⟨hjoined, ?_⟩
  simp only [if_neg hjoined]
  split
  next => exact ⟨rfl, .inl rfl⟩
  next hlast =>
    split
    next =>
      refine ⟨rfl, ?_⟩
      cases hcommon : s.commonSupertype (s.lub old new) with
      | none => exact .inl rfl
      | some above => exact .inr ⟨Nat.le_of_not_lt hlast, .inr rfl⟩
    next => exact ⟨rfl, .inr ⟨Nat.le_of_not_lt hlast, .inl rfl⟩⟩

/-- Joining gives the dynamic type, or a type above the old one and the new one. -/
theorem join_above (hs : s.Subtyping) (w : Widening) (old new : T) :
    (w.join s old new).1 = s.types.unknown ∨
      s.probe old (w.join s old new).1 = true ∧ s.probe new (w.join s old new).1 = true := by
  have habove := Solver.lub_above hs old new
  obtain ⟨hsame, hjoin⟩ | ⟨-, -, hlast | ⟨-, hlub | hcommon⟩⟩ := w.join_cases (s := s) old new
  · rw [hjoin]
    rw [hsame] at habove
    exact habove
  · rw [hlast, last]
    split
    · exact .inl rfl
    · exact .inr ⟨Solver.probe_top hs (.type old), Solver.probe_top hs (.type new)⟩
  · rw [hlub]
    exact habove
  · obtain hunknown | ⟨hold, hnew⟩ := Solver.lub_under hs old new
    · rw [hunknown, Solver.commonSupertype, s.types.canonical.ty_unknown] at hcommon
      exact .inl (Option.some.inj hcommon).symm
    · have hmembers := Solver.commonSupertype_above hs hcommon
      exact .inr ⟨hold.probe hs hmembers, hnew.probe hs hmembers⟩

/-- A variable that has been widened for good does not change again, as long as the counter does not
overflow. -/
theorem changes_last {w : Widening} (hw : 2 * wideningLimit < w.increases) {news : List T}
    (hroom : s.gradual = true ∨ w.increases + news.length < 2 ^ 32) :
    changes s w (last s) news = 0 := by
  induction news generalizing w with
  | nil => rfl
  | cons new news ih =>
    rw [List.length_cons] at hroom
    have hstays : (w.join s (last s) new).1 = last s ∧
        2 * wideningLimit < (w.join s (last s) new).2.increases ∧
        (s.gradual = true ∨ (w.join s (last s) new).2.increases + news.length < 2 ^ 32) := by
      obtain ⟨-, hjoin⟩ | ⟨hne, hcount, hvalue⟩ := w.join_cases (s := s) (last s) new
      · rw [hjoin]
        exact ⟨rfl, hw, hroom.imp_right fun h => Nat.lt_of_succ_lt h⟩
      · -- A gradual solver's variable absorbs whatever is joined into it.
        have hstrict : s.gradual ≠ true := by
          intro hgradual
          rw [last, if_pos hgradual, Solver.lub_unknown] at hne
          exact hne rfl
        have hroom := hroom.resolve_left hstrict
        have hmod : (w.increases + 1) % 2 ^ 32 = w.increases + 1 := Nat.mod_eq_of_lt (by omega)
        rw [hmod] at hcount hvalue
        rw [hcount]
        refine ⟨hvalue.resolve_right fun h => by omega, Nat.lt_succ_of_lt hw, .inr ?_⟩
        show w.increases + 1 + news.length < 2 ^ 32
        omega
    rw [changes, if_pos hstays.1, hstays.1, ih hstays.2.1 hstays.2.2]

/-- A variable changes at most once for each increase that is left. -/
theorem changes_le {w : Widening} (hw : w.increases ≤ 2 * wideningLimit) (old : T) {news : List T}
    (hroom : s.gradual = true ∨ w.increases + news.length < 2 ^ 32) :
    changes s w old news ≤ 2 * wideningLimit + 1 - w.increases := by
  induction news generalizing w old with
  | nil => exact Nat.zero_le _
  | cons new news ih =>
    rw [List.length_cons] at hroom
    rw [changes]
    obtain ⟨-, hjoin⟩ | ⟨-, hcount, hvalue⟩ := w.join_cases (s := s) old new
    · rw [hjoin, if_pos rfl, Nat.zero_add]
      exact ih hw old (hroom.imp_right fun h => by omega)
    · have hmod : (w.increases + 1) % 2 ^ 32 = w.increases + 1 :=
        Nat.mod_eq_of_lt (by unfold wideningLimit at hw; omega)
      rw [hmod] at hcount hvalue
      have hroom' : s.gradual = true ∨ (w.join s old new).2.increases + news.length < 2 ^ 32 := by
        rw [hcount]
        refine hroom.imp_right fun h => ?_
        show w.increases + 1 + news.length < 2 ^ 32
        omega
      have hone : (if (w.join s old new).1 = old then 0 else 1) ≤ 1 := by split <;> omega
      by_cases hmore : w.increases + 1 ≤ 2 * wideningLimit
      · have hrest := ih (hcount ▸ hmore) (w.join s old new).1 hroom'
        have hincreases : (w.join s old new).2.increases = w.increases + 1 := by rw [hcount]
        omega
      · have hlast := hvalue.resolve_right fun h => hmore h.1
        have hrest := changes_last (s := s) (w := (w.join s old new).2)
          (hcount ▸ Nat.lt_of_not_le hmore) hroom'
        rw [← hlast] at hrest
        omega

end Widening

end Dolang.Typeck
