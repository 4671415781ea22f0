import Dolang.Typeck.Lattice

/-!
# What joins keep

How `lub` goes through its members, one at a time (`Joined`), and what that keeps. A relation of
members carries through joins (`Carries`) if it is a preorder that relates a fresh literal to its
regular twin, what `probe` proves, and everything to `Value`; then each member of the types is
related to one of the join's (`lub_covers`).
-/

namespace Dolang.Typeck.Solver

open Types (Literal UnionMember)

variable {n : ℕ} {T : Type} {s : Solver n T}

theorem comparable_eq_some {m : UnionMember T} {ty : T} :
    s.comparable m = some ty ↔ m = .type ty ∧ s.types.containsUnknown ty = false := by
  cases m with
  | type id =>
    simp only [comparable, UnionMember.type.injEq]
    split
    next h =>
      constructor
      · intro heq
        cases heq
      · rintro ⟨rfl, hunknown⟩
        rw [h] at hunknown
        cases hunknown
    next h =>
      rw [Bool.not_eq_true] at h
      exact ⟨fun heq => Option.some.inj heq ▸ ⟨rfl, h⟩, fun heq => congrArg some heq.1⟩
  | _ => simp [comparable]

/-- Each member is related to one of the others. -/
def Covers (U : UnionMember T → UnionMember T → Prop) (ms ks : List (UnionMember T)) : Prop :=
  ∀ m ∈ ms, ∃ k ∈ ks, U m k

variable (s) in
/-- A relation that carries through joins of members with a property. -/
structure Carries (P : UnionMember T → Prop) (U : UnionMember T → UnionMember T → Prop) : Prop where
  refl : ∀ m, U m m
  trans : ∀ m k j, P k → U m k → U k j → U m j
  twin : ∀ l, U (.type (s.types.intern (.fresh l))) (.type (s.types.intern (.literal l)))
  probe : ∀ m k ty kty, P m → P k → s.comparable m = some ty → s.comparable k = some kty →
    s.probe ty kty = true → U m k
  top : ∀ m, P (.type s.types.top) → U m (.type s.types.top)

variable {P : UnionMember T → Prop} {U : UnionMember T → UnionMember T → Prop}

theorem Carries.covers_trans (h : s.Carries P U) {ms ks js : List (UnionMember T)}
    (hP : ∀ k ∈ ks, P k) (hmk : Covers U ms ks) (hkj : Covers U ks js) : Covers U ms js := by
  intro m hm
  obtain ⟨k, hk, hU⟩ := hmk m hm
  obtain ⟨j, hj, hU'⟩ := hkj k hk
  exact ⟨j, hj, h.trans m k j (hP k hk) hU hU'⟩

/-- The members of a union cover those that it is made of. -/
theorem covers_union (h : s.Carries P U) {ms : List (UnionMember T)} (hP : ∀ m ∈ ms, P m)
    (hms : ∀ m ∈ ms, s.types.IsMember m) :
    Covers U ms (s.types.unionMembers (s.types.intern (.union ms))) := by
  intro m hm
  by_cases htop : .type s.types.top ∈ ms
  · rw [s.types.canonical.absorb ms htop, s.types.unionMembers_top]
    exact ⟨_, List.mem_singleton_self _, h.top m (hP _ htop)⟩
  · have hmem := s.types.canonical.mem_union ms hms htop
    by_cases htwin : ∃ l, s.types.IsFresh m l ∧ .type (s.types.intern (.literal l)) ∈ ms
    · obtain ⟨l, rfl, hliteral⟩ := htwin
      refine ⟨_, (hmem _).mpr ⟨hliteral, fun l' hfresh => ?_⟩, h.twin l⟩
      -- A regular literal is no fresh one.
      have hty := congrArg s.types.ty (UnionMember.type.inj hfresh)
      rw [s.types.canonical.ty_literal, s.types.canonical.ty_fresh] at hty
      cases hty
    · refine ⟨m, (hmem m).mpr ⟨hm, fun l hfresh hliteral => ?_⟩, h.refl m⟩
      exact htwin ⟨l, hfresh, hliteral⟩

/-- What a member joins to: it is there, it replaces its fresh twin, it is below one that is kept,
or it is added and those below it are dropped. -/
inductive Joined (s : Solver n T) (kept : List (UnionMember T)) (m : UnionMember T) :
    List (UnionMember T) → Prop where
  | here (hm : m ∈ kept) : Joined s kept m kept
  | twin (l : Literal) (before after : List (UnionMember T))
    (hkept : kept = before ++ .type (s.types.intern (.fresh l)) :: after)
    (hm : m = .type (s.types.intern (.literal l))) : Joined s kept m (before ++ m :: after)
  | below (ty k kty : _) (hm : s.comparable m = some ty) (hk : k ∈ kept)
    (hkty : s.comparable k = some kty) (hprobe : s.probe ty kty = true) : Joined s kept m kept
  | dynamic (hm : s.comparable m = none) : Joined s kept m (kept ++ [m])
  | added (ty : T) (hm : s.comparable m = some ty)
    (hnone : ∀ k ∈ kept, ∀ kty, s.comparable k = some kty → s.probe ty kty = false) :
    Joined s kept m
      (kept.filter (fun k => (s.comparable k).all fun k => !s.probe k ty) ++ [m])

/-- Joining a member adds nothing else. -/
theorem Joined.mem {kept kept' : List (UnionMember T)} {member m : UnionMember T}
    (h : Joined s kept member kept') (hm : m ∈ kept') : m ∈ kept ∨ m = member := by
  cases h with
  | here => exact .inl hm
  | twin l before after hkept _ =>
    subst hkept
    obtain hm | rfl | hm := List.mem_append.mp hm |>.imp_right List.mem_cons.mp
    · exact .inl (List.mem_append_left _ hm)
    · exact .inr rfl
    · exact .inl (List.mem_append_right _ (List.mem_cons_of_mem _ hm))
  | below => exact .inl hm
  | dynamic => exact (List.mem_append.mp hm).imp_right List.mem_singleton.mp
  | added =>
    exact (List.mem_append.mp hm).imp (fun hm => List.mem_of_mem_filter hm) List.mem_singleton.mp

/-- Joining a member covers it and what was kept. -/
theorem Joined.covers (hU : s.Carries P U) {kept kept' : List (UnionMember T)}
    {member : UnionMember T} (hP : ∀ m ∈ member :: kept, P m) (h : Joined s kept member kept') :
    Covers U (member :: kept) kept' := by
  intro m hm
  cases h with
  | here hmem =>
    obtain rfl | hm := List.mem_cons.mp hm
    · exact ⟨m, hmem, hU.refl m⟩
    · exact ⟨m, hm, hU.refl m⟩
  | twin l before after hkept hmember =>
    subst hkept hmember
    have hself : UnionMember.type (s.types.intern (.literal l)) ∈
        before ++ .type (s.types.intern (.literal l)) :: after :=
      List.mem_append_right _ List.mem_cons_self
    obtain rfl | hm := List.mem_cons.mp hm
    · exact ⟨_, hself, hU.refl _⟩
    obtain hm | rfl | hm := List.mem_append.mp hm |>.imp_right List.mem_cons.mp
    · exact ⟨m, List.mem_append_left _ hm, hU.refl m⟩
    · exact ⟨_, hself, hU.twin l⟩
    · exact ⟨m, List.mem_append_right _ (List.mem_cons_of_mem _ hm), hU.refl m⟩
  | below ty k kty hcomparable hk hkty hprobe =>
    obtain rfl | hm' := List.mem_cons.mp hm
    · exact ⟨k, hk, hU.probe m k ty kty (hP m hm) (hP k (List.mem_cons_of_mem m hk)) hcomparable
        hkty hprobe⟩
    · exact ⟨m, hm', hU.refl m⟩
  | dynamic =>
    obtain rfl | hm := List.mem_cons.mp hm
    · exact ⟨m, List.mem_append_right _ List.mem_cons_self, hU.refl m⟩
    · exact ⟨m, List.mem_append_left _ hm, hU.refl m⟩
  | added ty hcomparable =>
    have hself := List.mem_append_right
      (kept.filter fun k => (s.comparable k).all fun k => !s.probe k ty)
      (List.mem_singleton_self member)
    obtain rfl | hm := List.mem_cons.mp hm
    · exact ⟨m, hself, hU.refl m⟩
    by_cases hdropped : ((s.comparable m).all fun k => !s.probe k ty) = true
    · exact ⟨m, List.mem_append_left _ (List.mem_filter.mpr ⟨hm, hdropped⟩), hU.refl m⟩
    · rw [Bool.not_eq_true, Option.all_eq_false] at hdropped
      obtain ⟨mty, hmty, hprobe⟩ := hdropped
      refine ⟨member, hself, hU.probe m member mty ty (hP m (List.mem_cons_of_mem _ hm))
        (hP member List.mem_cons_self) hmty hcomparable ?_⟩
      exact (Bool.not_eq_false' (s.probe mty ty)).mp hprobe

theorem joinNew_joined (kept : List (UnionMember T)) (m : UnionMember T) :
    Joined s kept m (s.joinNew kept m) := by
  unfold joinNew
  split
  next hm => exact .dynamic hm
  next ty hm =>
    split
    next hany =>
      obtain ⟨k, hk, hprobe⟩ := List.any_eq_true.mp hany
      cases hkty : s.comparable k with
      | none => simp [hkty] at hprobe
      | some kty =>
        rw [hkty] at hprobe
        exact .below ty k kty hm hk hkty hprobe
    next hany =>
      refine .added ty hm fun k hk kty hkty => ?_
      rw [Bool.not_eq_true, List.any_eq_false] at hany
      have hk := hany k hk
      rwa [hkty, Option.any_some, Bool.not_eq_true] at hk

section Join

variable [DecidableEq T]

/-- The fresh twin of a type is a fresh literal, and the type its regular one. -/
theorem isTwin_iff {ty : T} {m : UnionMember T} : s.isTwin ty m = true ↔
    ∃ l, m = .type (s.types.intern (.fresh l)) ∧ ty = s.types.intern (.literal l) := by
  cases m with
  | type twin =>
    simp only [isTwin, Bool.and_eq_true, decide_eq_true_eq, ne_eq, decide_not, Bool.not_eq_true',
      decide_eq_false_iff_not]
    constructor
    · rintro ⟨hne, hregular⟩
      obtain ⟨l, rfl, rfl⟩ := s.types.fresh_of_regular hregular hne
      exact ⟨l, rfl, rfl⟩
    · rintro ⟨l, hm, rfl⟩
      obtain rfl := UnionMember.type.inj hm
      have hfresh := s.types.canonical.ty_fresh l
      refine ⟨fun heq => ?_, by rw [Store.regular, hfresh]⟩
      rw [heq, s.types.canonical.ty_literal] at hfresh
      cases hfresh
  | _ => simp [isTwin]

/-- A twin that is replaced stands between members that stay. -/
theorem exists_of_replaceTwin {ty : T} {kept kept' : List (UnionMember T)}
    (h : s.replaceTwin ty kept = some kept') : ∃ before twin after,
      kept = before ++ twin :: after ∧ kept' = before ++ .type ty :: after ∧
        s.isTwin ty twin = true := by
  induction kept generalizing kept' with
  | nil => cases h
  | cons m kept ih =>
    rw [replaceTwin] at h
    split at h
    next htwin =>
      obtain rfl := Option.some.inj h
      exact ⟨[], m, kept, rfl, rfl, htwin⟩
    next =>
      obtain ⟨rest, hrest, rfl⟩ := Option.map_eq_some_iff.mp h
      obtain ⟨before, twin, after, rfl, rfl, htwin⟩ := ih hrest
      exact ⟨m :: before, twin, after, rfl, rfl, htwin⟩

/-- Without a twin nothing is replaced. -/
theorem replaceTwin_eq_none {ty : T} {kept : List (UnionMember T)}
    (h : ∀ m ∈ kept, s.isTwin ty m = false) : s.replaceTwin ty kept = none := by
  induction kept with
  | nil => rfl
  | cons m kept ih =>
    rw [replaceTwin, h m List.mem_cons_self, if_neg Bool.false_ne_true,
      ih fun k hk => h k (List.mem_cons_of_mem _ hk)]
    rfl

/-- A member is joined in one of these ways. -/
theorem joinMember_joined (kept : List (UnionMember T)) (m : UnionMember T) :
    Joined s kept m (s.joinMember kept m) := by
  unfold joinMember
  by_cases hm : m ∈ kept
  · rw [if_pos hm]
    exact .here hm
  · rw [if_neg hm]
    cases m with
    | type ty =>
      dsimp only
      cases hreplace : s.replaceTwin ty kept with
      | none => exact joinNew_joined kept _
      | some kept' =>
        obtain ⟨before, twin, after, hkept, rfl, htwin⟩ := exists_of_replaceTwin hreplace
        obtain ⟨l, rfl, rfl⟩ := isTwin_iff.mp htwin
        exact .twin l before after hkept rfl
    | _ => exact joinNew_joined kept _

/-- Joining members keeps what every single join keeps. -/
theorem joinMembers_invariant {P : List (UnionMember T) → Prop}
    {ms kept kept' : List (UnionMember T)}
    (hstep : ∀ m ∈ ms, ∀ kept kept', Joined s kept m kept' → P kept → P kept') (hkept : P kept)
    (h : s.joinMembers ms kept = some kept') : P kept' := by
  induction ms generalizing kept with
  | nil => exact Option.some.inj h ▸ hkept
  | cons m ms ih =>
    rw [joinMembers] at h
    split at h
    next => cases h
    next =>
      refine ih (fun k hk => hstep k (List.mem_cons_of_mem m hk)) ?_ h
      exact hstep m List.mem_cons_self _ _ (joinMember_joined kept m) hkept

/-- Joining members covers them and what was kept. -/
theorem covers_joinMembers (hU : s.Carries P U) {ms kept kept' : List (UnionMember T)}
    (hP : ∀ m ∈ ms ++ kept, P m) (h : s.joinMembers ms kept = some kept') :
    Covers U (ms ++ kept) kept' := by
  induction ms generalizing kept with
  | nil => exact Option.some.inj h ▸ fun m hm => ⟨m, hm, hU.refl m⟩
  | cons m ms ih =>
    rw [joinMembers] at h
    split at h
    next => cases h
    next =>
      have hjoined := joinMember_joined (s := s) kept m
      have hfirst : ∀ k ∈ m :: kept, P k := by
        intro k hk
        refine hP k ?_
        obtain rfl | hk := List.mem_cons.mp hk
        · exact List.mem_cons_self
        · exact List.mem_cons_of_mem m (List.mem_append_right ms hk)
      have hstep : ∀ k ∈ s.joinMember kept m, P k := fun k hk =>
        hfirst k ((hjoined.mem hk).elim (List.mem_cons_of_mem m)
          fun heq => heq ▸ List.mem_cons_self)
      have hrest := ih (fun k hk => (List.mem_append.mp hk).elim
        (fun hk => hP k (List.mem_cons_of_mem m (List.mem_append_left kept hk))) (hstep k)) h
      have hcovers := hU.covers_trans hstep (hjoined.covers hU hfirst)
        fun k hk => hrest k (List.mem_append_right _ hk)
      intro k hk
      obtain rfl | hk := List.mem_cons.mp hk
      · exact hcovers k List.mem_cons_self
      obtain hk | hk := List.mem_append.mp hk
      · exact hrest k (List.mem_append_left _ hk)
      · exact hcovers k (List.mem_cons_of_mem m hk)

/-- Members join unless one is the dynamic type. -/
theorem joinMembers_eq_none {ms kept : List (UnionMember T)} :
    s.joinMembers ms kept = none ↔ .type s.types.unknown ∈ ms := by
  induction ms generalizing kept with
  | nil => simp [joinMembers]
  | cons m ms ih =>
    rw [joinMembers, List.mem_cons]
    split
    next h => exact ⟨fun _ => .inl h.symm, fun _ => rfl⟩
    next h => rw [ih, or_iff_right (Ne.symm h)]

/-- A join is the dynamic type, where one of the types has it for a member, or the union of members
of the types. -/
theorem lub_cases (a b : T) :
    (s.lub a b = s.types.unknown ∧ (.type s.types.unknown ∈ s.types.unionMembers a ∨
      .type s.types.unknown ∈ s.types.unionMembers b)) ∨
    (.type s.types.unknown ∉ s.types.unionMembers a ∧ ∃ kept,
      s.joinMembers (s.types.unionMembers b) (s.types.unionMembers a) = some kept ∧
        s.lub a b = s.types.intern (.union kept)) := by
  unfold lub
  by_cases ha : .type s.types.unknown ∈ s.types.unionMembers a
  · exact .inl ⟨if_pos ha, .inl ha⟩
  · simp only [if_neg ha]
    cases hkept : s.joinMembers (s.types.unionMembers b) (s.types.unionMembers a) with
    | none => exact .inl ⟨rfl, .inr (joinMembers_eq_none.mp hkept)⟩
    | some kept => exact .inr ⟨ha, kept, rfl, rfl⟩

/-- What is kept of two types is a member of one of them. -/
theorem isMember_kept {a b : T} {kept : List (UnionMember T)}
    (h : s.joinMembers (s.types.unionMembers b) (s.types.unionMembers a) = some kept) :
    ∀ m ∈ kept, m ∈ s.types.unionMembers a ∨ m ∈ s.types.unionMembers b := by
  refine joinMembers_invariant (P := fun kept => ∀ m ∈ kept, m ∈ s.types.unionMembers a ∨
    m ∈ s.types.unionMembers b) (fun m hm kept kept' hjoined hkept k hk => ?_)
    (fun m hm => .inl hm) h
  obtain hk | rfl := hjoined.mem hk
  · exact hkept k hk
  · exact .inr hm

/-- A join is the dynamic type, or its members are some of the types' and cover those. -/
theorem lub_covers (hU : s.Carries P U) {a b : T}
    (hP : ∀ m ∈ s.types.unionMembers b ++ s.types.unionMembers a, P m) :
    s.lub a b = s.types.unknown ∨
      Covers U (s.types.unionMembers b ++ s.types.unionMembers a)
        (s.types.unionMembers (s.lub a b)) := by
  obtain ⟨hunknown, -⟩ | ⟨-, kept, hkept, hlub⟩ := s.lub_cases a b
  · exact .inl hunknown
  have hmember := isMember_kept hkept
  have hPkept : ∀ m ∈ kept, P m := fun m hm => hP m ((hmember m hm).elim
    (List.mem_append_right _) (List.mem_append_left _))
  have hunion := covers_union hU hPkept fun m hm =>
    (hmember m hm).elim (fun h => ⟨a, h⟩) fun h => ⟨b, h⟩
  rw [hlub]
  exact .inr (hU.covers_trans hPkept (covers_joinMembers hU hP hkept) hunion)

/-- A member of a join is one of either type, unless the join is the dynamic type. -/
theorem mem_lub {a b : T} {m : UnionMember T} (hm : m ∈ s.types.unionMembers (s.lub a b)) :
    s.lub a b = s.types.unknown ∨ m ∈ s.types.unionMembers a ∨ m ∈ s.types.unionMembers b := by
  obtain ⟨hunknown, -⟩ | ⟨-, kept, hkept, hlub⟩ := s.lub_cases a b
  · exact .inl hunknown
  have hmember := isMember_kept hkept
  rw [hlub] at hm
  refine .inr (hmember m ?_)
  by_cases htop : .type s.types.top ∈ kept
  · rw [s.types.canonical.absorb kept htop, s.types.unionMembers_top] at hm
    exact List.mem_singleton.mp hm ▸ htop
  · have hms : ∀ m ∈ kept, s.types.IsMember m := fun m hm =>
      (hmember m hm).elim (fun h => ⟨a, h⟩) fun h => ⟨b, h⟩
    exact ((s.types.canonical.mem_union kept hms htop m).mp hm).1

theorem lub_unknown (b : T) : s.lub s.types.unknown b = s.types.unknown := by
  unfold lub
  exact if_pos (by rw [s.types.unionMembers_unknown]; exact List.mem_singleton_self _)

end Join

end Dolang.Typeck.Solver
