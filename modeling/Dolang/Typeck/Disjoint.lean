import Dolang.Lib.Search
import Mathlib.Data.Fin.VecNotation
import Mathlib.Data.Fintype.Fin
import Mathlib.Data.Fintype.Option
import Mathlib.Tactic.FinCases

/-!
# Disjoint classes

The disjointness of classes of `typeck/type/disjoint.rs`. A database of `n` declarations is sealed:
every identifier resolves. Of a type only what a supertype needs is kept, the declaration that it
applies.

The walk over the runtime supertypes carries a memo and the path that it is on (`shared`). What it
finds is described without either by `Place`: the nearest disjoint ancestor of a class, which for a
mixable class is the one of its supertypes' that reaches the others.
-/

namespace Dolang.Typeck

open Relation

abbrev TypeId := ℕ

inductive DeclKind where
  | classDecl
  | protocol
  | opaqueAlias
  | alias
  | function
  | closure
  | annotation
  deriving DecidableEq, Repr

/-- A nominal declaration's supertype. `runtime` is whether the runtime inherits from it: the others
are claims. -/
structure Supertype where
  ty : TypeId
  runtime : Bool
  deriving DecidableEq, Repr

structure Declaration where
  kind : DeclKind
  isMixable : Bool
  supertypes : List Supertype
  deriving DecidableEq, Repr

/-- A type, as far as its head goes. -/
inductive Ty (n : ℕ) where
  | decl (d : Fin n)
  | apply (base : TypeId)
  | other
  deriving DecidableEq, Repr

/-- A sealed database of `n` declarations. -/
structure Database (n : ℕ) where
  declaration : Fin n → Declaration
  ty : TypeId → Ty n
  top : TypeId
  /-- The intrinsic `Value`. -/
  value : Option TypeId

/-- A nearest disjoint ancestor, with `none` standing for `Value`. -/
abbrev Ancestor (n : ℕ) := Option (Fin n)

/-- Why a declaration has no nearest disjoint ancestor. -/
inductive NoAncestor (n : ℕ) where
  | incoherent (first second : Ancestor n)
  | unknown
  deriving DecidableEq, Repr

abbrev Memo (n : ℕ) := List (Fin n × Except (NoAncestor n) (Ancestor n))

namespace Database

variable {n : ℕ} (db : Database n)

/-- The declaration of `Value`. -/
def valueDecl : Option (Fin n) :=
  match db.value with
  | none => none
  | some id =>
    match db.ty id with
    | .decl d => some d
    | _ => none

/-- What a type applies: its base, or itself. -/
def applied (ty : TypeId) : TypeId :=
  match db.ty ty with
  | .apply base => base
  | _ => ty

/-- The declaration a supertype applies, `none` for `Value`. -/
def supertypeDecl (ty : TypeId) : Except (NoAncestor n) (Option (Fin n)) :=
  if ty = db.top then .ok none
  else
    match db.ty (db.applied ty) with
    | .decl d => .ok (if some d = db.valueDecl then none else some d)
    | _ => .error .unknown

/-- The declarations that `d` names as its supertypes. -/
def named (d : Fin n) : List (Fin n) :=
  (db.declaration d).supertypes.filterMap fun s => (db.supertypeDecl s.ty).toOption.join

/-- Whether `a` names `b` among its supertypes, directly or through theirs. -/
def reachesDecl (a b : Fin n) : Bool :=
  Search.reaches db.named a b

/-- The comparison of two candidates. -/
def reaches : Ancestor n → Ancestor n → Bool
  | _, none => true
  | none, some _ => false
  | some a, some b => db.reachesDecl a b

/-- Adds a candidate that is not there yet. -/
def push (candidates : List (Ancestor n)) (a : Ancestor n) : List (Ancestor n) :=
  if a ∈ candidates then candidates else candidates ++ [a]

/-- The first two candidates of which neither reaches the other. -/
def unrelated : List (Ancestor n) → Option (Ancestor n × Ancestor n)
  | [] => none
  | first :: rest =>
    match rest.find? fun second => !db.reaches first second && !db.reaches second first with
    | some second => some (first, second)
    | none => unrelated rest

/-- The candidate that reaches the others. A single candidate reaches itself, so where there is none
there are two. -/
def choose (candidates : List (Ancestor n)) : Except (NoAncestor n) (Ancestor n) :=
  if candidates = [] then .ok none
  else
    match candidates.find? fun c => candidates.all (db.reaches c) with
    | some nearest => .ok nearest
    | none =>
      let (first, second) :=
        (db.unrelated candidates).getD (candidates.getD 0 none, candidates.getD 1 none)
      .error (.incoherent first second)

/-- A class's nearest disjoint ancestor: itself unless it is mixable. `shared` is the walk over the
supertypes. -/
def nearestBy (shared : Fin n → Memo n → Except (NoAncestor n) (Ancestor n) × Memo n) (d : Fin n)
    (memo : Memo n) : Except (NoAncestor n) (Ancestor n) × Memo n :=
  if some d = db.valueDecl then (.ok none, memo)
  else if (db.declaration d).kind = .classDecl then
    if (db.declaration d).isMixable then shared d memo else (.ok (some d), memo)
  else (.error .unknown, memo)

/-- The candidates that the supertypes give. -/
def candidatesBy (shared : Fin n → Memo n → Except (NoAncestor n) (Ancestor n) × Memo n) :
    List Supertype → List (Ancestor n) → Memo n →
      Except (NoAncestor n) (List (Ancestor n)) × Memo n
  | [], candidates, memo => (.ok candidates, memo)
  | s :: rest, candidates, memo =>
    match db.supertypeDecl s.ty with
    | .error e => (.error e, memo)
    | .ok none => candidatesBy shared rest (push candidates none) memo
    | .ok (some head) =>
      match db.nearestBy shared head memo with
      | (.error _, memo) => (.error .unknown, memo)
      | (.ok ancestor, memo) => candidatesBy shared rest (push candidates ancestor) memo

/-- The supertypes that the runtime inherits from. -/
def runtimeSupertypes (d : Fin n) : List Supertype :=
  (db.declaration d).supertypes.filter (·.runtime)

/-- The nearest disjoint ancestor that the runtime supertypes share, `path` being the declarations
that are under way. A walk is no deeper than there are declarations. -/
def shared : ℕ → List (Fin n) → Fin n → Memo n → Except (NoAncestor n) (Ancestor n) × Memo n
  | 0, _, _, memo => (.error .unknown, memo)
  | fuel + 1, path, d, memo =>
    match memo.lookup d with
    | some found => (found, memo)
    | none =>
      if d ∈ path then (.error .unknown, memo)
      else
        -- `shared_uncached`
        let (found, memo) :=
          if (db.declaration d).kind ≠ .classDecl then (.error .unknown, memo)
          else
            match db.candidatesBy (shared fuel (d :: path)) (db.runtimeSupertypes d) [] memo with
            | (.error e, memo) => (.error e, memo)
            | (.ok candidates, memo) => (db.choose candidates, memo)
        (found, (d, found) :: memo)

/-- The nearest disjoint ancestor a class's runtime supertypes share. -/
def supertypesAncestor (d : Fin n) : Except (NoAncestor n) (Ancestor n) :=
  (db.shared (n + 1) [] d []).1

/-- A class's nearest disjoint ancestor. -/
def nearest (d : Fin n) : Except (NoAncestor n) (Ancestor n) :=
  (db.nearestBy (db.shared (n + 1) []) d []).1

/-- Whether two classes have no instance in common. -/
def disjointApart (a b : Fin n) : Bool :=
  match db.nearest a, db.nearest b with
  | .ok (some a), .ok (some b) => a ≠ b && !db.reachesDecl a b && !db.reachesDecl b a
  | _, _ => false

/-! ### Places -/

/-- The declaration that a supertype applies, when it applies one. -/
def head (s : Supertype) : Option (Fin n) :=
  (db.supertypeDecl s.ty).toOption.join

/-- The declarations that the runtime supertypes apply. -/
def heads (d : Fin n) : List (Option (Fin n)) :=
  (db.runtimeSupertypes d).map db.head

/-- The distinct ancestors in a list, in the order in which they are found. -/
def distinct (ancestors : List (Ancestor n)) : List (Ancestor n) :=
  ancestors.foldl push []

/-- The nearest disjoint ancestor of `d` is `r`. -/
inductive Place : Fin n → Ancestor n → Prop
  | value {d : Fin n} (hv : some d = db.valueDecl) : Place d none
  | disjoint {d : Fin n} (hv : some d ≠ db.valueDecl) (hk : (db.declaration d).kind = .classDecl)
      (hm : (db.declaration d).isMixable = false) : Place d (some d)
  | mixable {d : Fin n} {r : Ancestor n} (hv : some d ≠ db.valueDecl)
      (hk : (db.declaration d).kind = .classDecl) (hm : (db.declaration d).isMixable = true)
      (f : Fin n → Ancestor n) (hplace : ∀ h, some h ∈ db.heads d → Place h (f h))
      (hchoose : db.choose (distinct ((db.heads d).map (·.bind f))) = .ok r) : Place d r

/-- The supertypes of the class `d` share the ancestor `r`. -/
structure Shared (d : Fin n) (r : Ancestor n) : Prop where
  kind : (db.declaration d).kind = .classDecl
  ancestor : ∃ f : Fin n → Ancestor n, (∀ h, some h ∈ db.heads d → db.Place h (f h)) ∧
    db.choose (distinct ((db.heads d).map (·.bind f))) = .ok r

variable {db}

/-- A class has one place only. -/
theorem Place.unique {d : Fin n} {r r' : Ancestor n} (h : db.Place d r) (h' : db.Place d r') :
    r = r' := by
  induction h generalizing r' with
  | value hv =>
    cases h' with
    | value => rfl
    | disjoint hv' => exact absurd hv hv'
    | mixable hv' => exact absurd hv hv'
  | disjoint hv hk hm =>
    cases h' with
    | value hv' => exact absurd hv' hv
    | disjoint => rfl
    | mixable _ _ hm' => simp [hm] at hm'
  | @mixable d r hv hk hm f _ hchoose ih =>
    cases h' with
    | value hv' => exact absurd hv' hv
    | disjoint _ _ hm' => simp [hm] at hm'
    | mixable _ _ _ g hplace' hchoose' =>
      have hfg : (db.heads d).map (·.bind f) = (db.heads d).map (·.bind g) := by
        apply List.map_congr_left
        intro head hhead
        cases head with
        | none => rfl
        | some head => exact ih head hhead (hplace' head hhead)
      rw [hfg, hchoose'] at hchoose
      exact (Except.ok.inj hchoose).symm

/-- What the memo holds of successes is right. -/
def Memo.Sound (db : Database n) (memo : Memo n) : Prop :=
  ∀ d r, (d, .ok r) ∈ memo → db.Shared d r

/-- A walk keeps the memo right and finds what the supertypes share. -/
def Walks (db : Database n)
    (shared : Fin n → Memo n → Except (NoAncestor n) (Ancestor n) × Memo n) : Prop :=
  ∀ d memo, Memo.Sound db memo → Memo.Sound db (shared d memo).2 ∧
    ∀ r, (shared d memo).1 = .ok r → db.Shared d r

theorem nearestBy_sound
    {shared : Fin n → Memo n → Except (NoAncestor n) (Ancestor n) × Memo n} (hs : Walks db shared)
    {d : Fin n} {memo : Memo n} (hmemo : Memo.Sound db memo) :
    Memo.Sound db (db.nearestBy shared d memo).2 ∧
      ∀ r, (db.nearestBy shared d memo).1 = .ok r → db.Place d r := by
  unfold nearestBy
  split_ifs with hv hk hm
  · refine ⟨hmemo, fun r hr => ?_⟩
    cases hr
    exact .value hv
  · obtain ⟨hmemo', hr⟩ := hs d memo hmemo
    refine ⟨hmemo', fun r hok => ?_⟩
    obtain ⟨-, f, hplace, hchoose⟩ := hr r hok
    exact .mixable hv hk hm f hplace hchoose
  · refine ⟨hmemo, fun r hr => ?_⟩
    cases hr
    exact .disjoint hv hk (by simpa using hm)
  · exact ⟨hmemo, fun r hr => by cases hr⟩

open Classical in
/-- The place of a class, `none` also where it has none. -/
noncomputable def placeOf (db : Database n) (d : Fin n) : Ancestor n :=
  if h : ∃ r, db.Place d r then h.choose else none

theorem Place.placeOf_eq {d : Fin n} {r : Ancestor n} (h : db.Place d r) : db.placeOf d = r := by
  have hex : ∃ r, db.Place d r := ⟨r, h⟩
  unfold placeOf
  rw [dif_pos hex]
  exact hex.choose_spec.unique h

theorem candidatesBy_sound
    {shared : Fin n → Memo n → Except (NoAncestor n) (Ancestor n) × Memo n} (hs : Walks db shared)
    {l : List Supertype} {acc : List (Ancestor n)} {memo : Memo n} (hmemo : Memo.Sound db memo) :
    Memo.Sound db (db.candidatesBy shared l acc memo).2 ∧
      ∀ cs, (db.candidatesBy shared l acc memo).1 = .ok cs →
        (∀ h, some h ∈ l.map db.head → db.Place h (db.placeOf h)) ∧
          cs = (l.map fun s => (db.head s).bind db.placeOf).foldl push acc := by
  induction l generalizing acc memo with
  | nil =>
    refine ⟨hmemo, fun cs hcs => ?_⟩
    cases hcs
    exact ⟨fun h hh => absurd hh List.not_mem_nil, rfl⟩
  | cons s rest ih =>
    rw [candidatesBy]
    cases hdecl : db.supertypeDecl s.ty with
    | error e => exact ⟨hmemo, fun cs hcs => by cases hcs⟩
    | ok found =>
      have hhead : db.head s = found := by simp [head, hdecl, Except.toOption]
      cases found with
      | none =>
        obtain ⟨hmemo', hcs⟩ := @ih (push acc none) memo hmemo
        refine ⟨hmemo', fun cs hok => ?_⟩
        obtain ⟨hplace, rfl⟩ := hcs cs hok
        refine ⟨fun h hh => hplace h ?_, by simp [hhead]⟩
        simpa [hhead] using hh
      | some d =>
        obtain ⟨hmemo', hr⟩ := nearestBy_sound (d := d) hs hmemo
        dsimp only
        cases hnear : db.nearestBy shared d memo with
        | mk found memo' =>
          rw [hnear] at hmemo' hr
          cases found with
          | error e => exact ⟨hmemo', fun cs hcs => by cases hcs⟩
          | ok r =>
            have hd := hr r rfl
            obtain ⟨hmemo'', hcs⟩ := @ih (push acc r) memo' hmemo'
            refine ⟨hmemo'', fun cs hok => ?_⟩
            obtain ⟨hplace, rfl⟩ := hcs cs hok
            refine ⟨fun h hh => ?_, by simp [hhead, hd.placeOf_eq]⟩
            obtain hh | hh := List.mem_cons.mp hh
            · rw [hhead] at hh
              obtain rfl := Option.some.inj hh
              exact hd.placeOf_eq.symm ▸ hd
            · exact hplace h hh

theorem mem_of_lookup {memo : Memo n} {d : Fin n} {found : Except (NoAncestor n) (Ancestor n)}
    (h : memo.lookup d = some found) : (d, found) ∈ memo := by
  induction memo with
  | nil => simp at h
  | cons entry memo ih =>
    obtain ⟨d', found'⟩ := entry
    rw [List.lookup_cons] at h
    cases hd : d == d' with
    | true =>
      rw [hd] at h
      obtain rfl := eq_of_beq hd
      obtain rfl := Option.some.inj h
      exact List.mem_cons_self
    | false =>
      rw [hd] at h
      exact List.mem_cons_of_mem _ (ih h)

theorem Memo.Sound.cons {memo : Memo n} (h : Memo.Sound db memo) {d : Fin n}
    {found : Except (NoAncestor n) (Ancestor n)} (hd : ∀ r, found = .ok r → db.Shared d r) :
    Memo.Sound db ((d, found) :: memo) := by
  intro d' r hmem
  obtain heq | hmem := List.mem_cons.mp hmem
  · obtain ⟨rfl, rfl⟩ := Prod.mk.inj heq
    exact hd r rfl
  · exact h d' r hmem

theorem shared_sound (fuel : ℕ) (path : List (Fin n)) : Walks db (db.shared fuel path) := by
  induction fuel generalizing path with
  | zero => exact fun d memo hmemo => ⟨hmemo, fun r hr => by cases hr⟩
  | succ fuel ih =>
    intro d memo hmemo
    rw [shared]
    cases hlook : memo.lookup d with
    | some found =>
      refine ⟨hmemo, fun r hr => hmemo d r ?_⟩
      rw [← show found = .ok r from hr]
      exact mem_of_lookup hlook
    | none =>
      dsimp only
      split_ifs with hpath hkind
      · exact ⟨hmemo, fun r hr => by cases hr⟩
      · exact ⟨hmemo.cons (fun r hr => by cases hr), fun r hr => by cases hr⟩
      · rw [not_not] at hkind
        obtain ⟨hmemo', hcs⟩ := @candidatesBy_sound n db
          (db.shared fuel (d :: path)) (ih (d :: path)) (db.runtimeSupertypes d) [] memo hmemo
        cases hcand : db.candidatesBy (db.shared fuel (d :: path)) (db.runtimeSupertypes d) [] memo
          with
        | mk found memo' =>
          rw [hcand] at hmemo' hcs
          cases found with
          | error e => exact ⟨hmemo'.cons (fun r hr => by cases hr), fun r hr => by cases hr⟩
          | ok cs =>
            obtain ⟨hplace, rfl⟩ := hcs cs rfl
            have hshared : ∀ r, db.choose _ = .ok r → db.Shared d r := fun r hr =>
              ⟨hkind, db.placeOf, hplace, by rw [← hr, distinct, heads, List.map_map]⟩
            exact ⟨hmemo'.cons hshared, hshared⟩

/-- What the memo starts from. -/
theorem Memo.sound_nil : Memo.Sound db [] :=
  fun _ _ h => absurd h List.not_mem_nil

theorem shared_of_supertypesAncestor {d : Fin n} {r : Ancestor n}
    (h : db.supertypesAncestor d = .ok r) : db.Shared d r :=
  (shared_sound (n + 1) [] d [] Memo.sound_nil).2 r h

theorem place_of_nearest {d : Fin n} {r : Ancestor n} (h : db.nearest d = .ok r) : db.Place d r :=
  (nearestBy_sound (shared_sound (n + 1) []) Memo.sound_nil).2 r h

variable (db)

/-- Every class has an ancestor that its runtime supertypes share. -/
def Coherent : Prop :=
  ∀ d, (db.declaration d).kind = .classDecl → ∃ r, db.supertypesAncestor d = .ok r

/-- The runtime inherits `c` from `s`. -/
def Inherits (c s : Fin n) : Prop :=
  ∃ t ∈ (db.declaration c).supertypes, t.runtime = true ∧ db.supertypeDecl t.ty = .ok (some s)

/-- `s` is `c` or one of its runtime supertypes. -/
abbrev Below (c s : Fin n) : Prop :=
  ReflTransGen db.Inherits c s

/-- A class that is its own place. -/
structure IsDisjoint (d : Fin n) : Prop where
  value : some d ≠ db.valueDecl
  kind : (db.declaration d).kind = .classDecl
  mixable : (db.declaration d).isMixable = false

/-- One of two declarations reaches the other. -/
def Related (a b : Fin n) : Prop :=
  db.reachesDecl a b = true ∨ db.reachesDecl b a = true

variable {db}

theorem mem_heads {c s : Fin n} : some s ∈ db.heads c ↔ db.Inherits c s := by
  simp only [heads, runtimeSupertypes, List.mem_map, List.mem_filter, Inherits, head]
  constructor
  · rintro ⟨t, ⟨ht, hrt⟩, hs⟩
    refine ⟨t, ht, hrt, ?_⟩
    cases hdecl : db.supertypeDecl t.ty with
    | error e => simp [hdecl, Except.toOption] at hs
    | ok found =>
      rw [hdecl] at hs
      exact congrArg Except.ok (by simpa [Except.toOption] using hs)
  · rintro ⟨t, ht, hrt, hs⟩
    exact ⟨t, ⟨ht, hrt⟩, by simp [hs, Except.toOption]⟩

/-- `Value` is no supertype. -/
theorem Inherits.ne_value {c s : Fin n} (h : db.Inherits c s) : some s ≠ db.valueDecl := by
  obtain ⟨t, -, -, hs⟩ := h
  unfold supertypeDecl at hs
  split_ifs at hs with htop
  · cases hs
  split at hs
  · split_ifs at hs with hv
    · cases hs
    · cases hs
      exact hv
  · cases hs

theorem reachesDecl_refl (a : Fin n) : db.reachesDecl a a = true :=
  Search.reaches_iff.mpr .refl

theorem reachesDecl_trans {a b c : Fin n} (h : db.reachesDecl a b = true)
    (h' : db.reachesDecl b c = true) : db.reachesDecl a c = true :=
  Search.reaches_iff.mpr ((Search.reaches_iff.mp h).trans (Search.reaches_iff.mp h'))

theorem Inherits.reachesDecl {c s : Fin n} (h : db.Inherits c s) : db.reachesDecl c s = true := by
  obtain ⟨t, ht, -, hs⟩ := h
  apply Search.reaches_iff.mpr
  apply ReflTransGen.single
  show s ∈ db.named c
  exact List.mem_filterMap.mpr ⟨t, ht, by simp [hs, Except.toOption]⟩

theorem Below.reachesDecl {c s : Fin n} (h : db.Below c s) : db.reachesDecl c s = true := by
  induction h with
  | refl => exact reachesDecl_refl c
  | tail _ hstep ih => exact reachesDecl_trans ih hstep.reachesDecl

theorem reaches_trans {a b c : Ancestor n} (h : db.reaches a b = true)
    (h' : db.reaches b c = true) : db.reaches a c = true := by
  cases c with
  | none => cases a <;> rfl
  | some c =>
    cases b with
    | none => simp [reaches] at h'
    | some b =>
      cases a with
      | none => simp [reaches] at h
      | some a => exact reachesDecl_trans h h'

/-! ### Candidates -/

theorem mem_foldl_push {l acc : List (Ancestor n)} {a : Ancestor n} :
    a ∈ l.foldl push acc ↔ a ∈ l ∨ a ∈ acc := by
  induction l generalizing acc with
  | nil => simp
  | cons b l ih =>
    rw [List.foldl_cons, ih, List.mem_cons]
    unfold push
    split_ifs with hb
    · constructor
      · rintro (h | h)
        · exact .inl (.inr h)
        · exact .inr h
      · rintro ((rfl | h) | h)
        · exact .inr hb
        · exact .inl h
        · exact .inr h
    · simp only [List.mem_append, List.mem_singleton]
      tauto

theorem mem_distinct {l : List (Ancestor n)} {a : Ancestor n} : a ∈ distinct l ↔ a ∈ l := by
  simp [distinct, mem_foldl_push]

/-- The chosen candidate reaches the others. -/
theorem choose_spec {cs : List (Ancestor n)} {r : Ancestor n} (h : db.choose cs = .ok r) :
    (∀ a ∈ cs, db.reaches r a = true) ∧ ∀ a, r = some a → some a ∈ cs := by
  unfold choose at h
  split_ifs at h with hnil
  · cases h
    subst hnil
    exact ⟨fun a ha => absurd ha List.not_mem_nil, fun a ha => by cases ha⟩
  · cases hfind : cs.find? fun c => cs.all (db.reaches c) with
    | none =>
      rw [hfind] at h
      cases h
    | some nearest =>
      rw [hfind] at h
      cases h
      have hall := List.find?_some hfind
      exact ⟨List.all_eq_true.mp hall, fun a ha => ha ▸ List.mem_of_find?_eq_some hfind⟩

/-- What the supertypes share reaches the place of each, and is the place of one. -/
theorem Shared.spec {c : Fin n} {r : Ancestor n} (h : db.Shared c r) :
    (∀ s, db.Inherits c s → ∃ rs, db.Place s rs ∧ db.reaches r rs = true) ∧
      ∀ a, r = some a → ∃ s, db.Inherits c s ∧ db.Place s (some a) := by
  obtain ⟨-, f, hplace, hchoose⟩ := h
  obtain ⟨hall, hmem⟩ := choose_spec hchoose
  refine ⟨fun s hs => ?_, fun a ha => ?_⟩
  · have hs := mem_heads.mpr hs
    exact ⟨f s, hplace s hs, hall _ (mem_distinct.mpr (List.mem_map.mpr ⟨some s, hs, rfl⟩))⟩
  · obtain ⟨head, hhead, hf⟩ := List.mem_map.mp (mem_distinct.mp (hmem a ha))
    cases head with
    | none => cases hf
    | some s => exact ⟨s, mem_heads.mp hhead, hf ▸ hplace s hhead⟩

/-! ### The tree of disjoint classes -/

theorem IsDisjoint.place {d : Fin n} (h : db.IsDisjoint d) : db.Place d (some d) :=
  .disjoint h.value h.kind h.mixable

/-- The place of a class is a disjoint class that it inherits. -/
theorem Place.inherits {c : Fin n} {r : Ancestor n} (h : db.Place c r) :
    ∀ p, r = some p → db.Below c p ∧ db.IsDisjoint p := by
  induction h with
  | value => exact fun p hp => by cases hp
  | disjoint hv hk hm =>
    intro p hp
    cases hp
    exact ⟨.refl, hv, hk, hm⟩
  | @mixable c r hv hk hm f hplace hchoose ih =>
    intro p hp
    obtain ⟨s, hs, hsp⟩ := (Shared.spec ⟨hk, f, hplace, hchoose⟩).2 p hp
    have hmem := mem_heads.mpr hs
    obtain ⟨hbelow, hp⟩ := ih s hmem p ((hplace s hmem).unique hsp)
    exact ⟨.head hs hbelow, hp⟩

/-- A class of a coherent database that is not `Value` has a place. -/
theorem Coherent.exists_place (h : db.Coherent) {c : Fin n}
    (hc : (db.declaration c).kind = .classDecl) : ∃ r, db.Place c r := by
  by_cases hv : some c = db.valueDecl
  · exact ⟨none, .value hv⟩
  cases hm : (db.declaration c).isMixable with
  | false => exact ⟨some c, .disjoint hv hc hm⟩
  | true =>
    obtain ⟨r, hr⟩ := h c hc
    obtain ⟨-, f, hplace, hchoose⟩ := shared_of_supertypesAncestor hr
    exact ⟨r, .mixable hv hc hm f hplace hchoose⟩

/-- What a class inherits are classes. -/
theorem Coherent.kind_of_inherits (h : db.Coherent) {c s : Fin n}
    (hc : (db.declaration c).kind = .classDecl) (hs : db.Inherits c s) :
    (db.declaration s).kind = .classDecl := by
  obtain ⟨r, hr⟩ := h c hc
  obtain ⟨rs, hplace, -⟩ := (shared_of_supertypesAncestor hr).spec.1 s hs
  cases hplace with
  | value hv => exact absurd hv hs.ne_value
  | disjoint _ hk _ => exact hk
  | mixable _ hk => exact hk

theorem Coherent.kind_of_below (h : db.Coherent) {c s : Fin n}
    (hc : (db.declaration c).kind = .classDecl) (hs : db.Below c s) :
    (db.declaration s).kind = .classDecl := by
  induction hs with
  | refl => exact hc
  | tail _ hstep ih => exact h.kind_of_inherits ih hstep

/-- The place of a class reaches the place of each class that it inherits. -/
theorem Coherent.reaches_place (h : db.Coherent) {c s : Fin n} {r rs : Ancestor n}
    (hs : db.Below c s) (hv : some c ≠ db.valueDecl) (hr : db.Place c r) (hrs : db.Place s rs) :
    db.reaches r rs = true := by
  -- The induction is on the first step of the way.
  induction hs using ReflTransGen.head_induction_on generalizing r with
  | refl =>
    obtain rfl := hr.unique hrs
    cases r with
    | none => rfl
    | some p => exact reachesDecl_refl p
  | @head c t hstep hrest ih =>
    have hrec : ∀ rt, db.Place t rt → db.reaches rt rs = true := fun rt => ih hstep.ne_value
    cases hr with
    | value hv' => exact absurd hv' hv
    | mixable hv' hk hm f hplace hchoose =>
      obtain ⟨rt, hrt, hreach⟩ := (Shared.spec ⟨hk, f, hplace, hchoose⟩).1 t hstep
      exact reaches_trans hreach (hrec rt hrt)
    | disjoint hv' hk hm =>
      obtain ⟨r, hr⟩ := h c hk
      obtain ⟨rt, hrt, -⟩ := (shared_of_supertypesAncestor hr).spec.1 t hstep
      have hreach : db.reaches (some c) rt = true := by
        cases rt with
        | none => rfl
        | some q =>
          have hq := (hrt.inherits q rfl).1
          exact Below.reachesDecl (.head hstep hq)
      exact reaches_trans hreach (hrec rt hrt)

/-- In a coherent database the walk finds the place of a class. -/
theorem Coherent.nearest_iff (h : db.Coherent) {c p : Fin n} :
    db.nearest c = .ok (some p) ↔ db.Place c (some p) := by
  refine ⟨place_of_nearest, fun hp => ?_⟩
  have hok : ∃ r, db.nearest c = .ok r := by
    cases hp with
    | disjoint hv hk hm => exact ⟨some c, by simp [nearest, nearestBy, hv, hk, hm]⟩
    | mixable hv hk hm f hplace hchoose =>
      obtain ⟨r, hr⟩ := h c hk
      exact ⟨r, by simpa [nearest, nearestBy, hv, hk, hm, supertypesAncestor] using hr⟩
  obtain ⟨r, hr⟩ := hok
  rw [hr, (place_of_nearest hr).unique hp]

/-- Two classes are apart when their places are unrelated. -/
theorem Coherent.disjointApart_iff (h : db.Coherent) {a b : Fin n} :
    db.disjointApart a b = true ↔
      ∃ p q, db.Place a (some p) ∧ db.Place b (some q) ∧ ¬db.Related p q := by
  constructor
  · intro hab
    unfold disjointApart at hab
    split at hab
    · next p q hp hq =>
      refine ⟨p, q, place_of_nearest hp, place_of_nearest hq, ?_⟩
      simp only [Bool.and_eq_true, Bool.not_eq_true', decide_eq_true_eq] at hab
      rintro (hreach | hreach)
      · simp [hab.1.2] at hreach
      · simp [hab.2] at hreach
    · cases hab
  · rintro ⟨p, q, hp, hq, hpq⟩
    have hne : p ≠ q := by
      rintro rfl
      exact hpq (.inl (reachesDecl_refl p))
    simp only [Related, not_or, Bool.not_eq_true] at hpq
    simp [disjointApart, h.nearest_iff.mpr hp, h.nearest_iff.mpr hq, hne, hpq.1, hpq.2]

variable (db)

/-- What the answers are used for: classes that are apart have no common subclass, on either side of
the question and for their subclasses too. -/
structure Soundness : Prop where
  common : ∀ a b, db.disjointApart a b = true →
    ∀ c, (db.declaration c).kind = .classDecl → ¬(db.Below c a ∧ db.Below c b)
  symm : ∀ a b, db.disjointApart a b = db.disjointApart b a
  inherited : ∀ a b, db.disjointApart a b = true → ∀ c, (db.declaration c).kind = .classDecl →
    (db.Below c a → db.disjointApart c b = true) ∧ (db.Below c b → db.disjointApart a c = true)

/-- Where a class inherits the disjoint class `p`, its place reaches no disjoint class unrelated to
`p`. -/
def Settled : Prop :=
  ∀ c p m, (db.declaration c).kind = .classDecl → db.Below c p → db.IsDisjoint p → db.IsDisjoint m →
    (∀ q, db.Place c (some q) → db.reachesDecl q m = true) → db.Related p m

/-- A class inherits at runtime the classes that it reaches, those it claims included. -/
def Honoured : Prop :=
  ∀ c s, (db.declaration c).kind = .classDecl → (db.declaration s).kind = .classDecl →
    db.reachesDecl c s = true → db.Below c s

variable {db}

/-- Unrelated classes are so in either order. -/
theorem Related.symm {a b : Fin n} (h : db.Related a b) : db.Related b a :=
  Or.symm h

theorem Coherent.disjointApart_symm (h : db.Coherent) {a b : Fin n}
    (hab : db.disjointApart a b = true) : db.disjointApart b a = true := by
  obtain ⟨p, q, hp, hq, hpq⟩ := h.disjointApart_iff.mp hab
  exact h.disjointApart_iff.mpr ⟨q, p, hq, hp, fun hqp => hpq hqp.symm⟩

theorem Coherent.disjointApart_irrefl (h : db.Coherent) (a : Fin n) :
    db.disjointApart a a ≠ true := by
  intro ha
  obtain ⟨p, q, hp, hq, hpq⟩ := h.disjointApart_iff.mp ha
  obtain rfl := Option.some.inj (hp.unique hq)
  exact hpq (.inl (reachesDecl_refl p))

/-- In a settled database a subclass is apart from what its superclass is apart from. -/
theorem Settled.inherited (hset : db.Settled) (h : db.Coherent) {a b c : Fin n}
    (hab : db.disjointApart a b = true) (hc : (db.declaration c).kind = .classDecl)
    (hca : db.Below c a) : db.disjointApart c b = true := by
  obtain ⟨p, m, hp, hm, hpm⟩ := h.disjointApart_iff.mp hab
  obtain ⟨hap, hpd⟩ := hp.inherits p rfl
  obtain ⟨-, hmd⟩ := hm.inherits m rfl
  have hnot : ¬∀ q, db.Place c (some q) → db.reachesDecl q m = true :=
    fun hall => hpm (hset c p m hc (hca.trans hap) hpd hmd hall)
  push Not at hnot
  obtain ⟨q, hq, hqm⟩ := hnot
  refine h.disjointApart_iff.mpr ⟨q, m, hq, hm, ?_⟩
  rintro (hreach | hreach)
  · exact hqm hreach
  · -- Otherwise `m` would reach `p` by way of the place of `c`.
    have hv : some c ≠ db.valueDecl := by
      intro hv
      cases (Place.value hv).unique hq
    have hqp : db.reachesDecl q p = true := h.reaches_place hca hv hq hp
    exact hpm (.inr (reachesDecl_trans hreach hqp))

/-- Disjointness is sound exactly on the settled databases: the walk takes what a class claims for
inherited when it compares two candidates, while only what is inherited at runtime has instances. -/
theorem soundness_iff_settled (h : db.Coherent) : db.Soundness ↔ db.Settled := by
  constructor
  · intro hs c p m hc hcp hp hm hall
    by_contra hpm
    have hab := h.disjointApart_iff.mpr ⟨p, m, hp.place, hm.place, hpm⟩
    have hcm := (hs.inherited p m hab c hc).1 hcp
    obtain ⟨q, m', hq, hm', hqm⟩ := h.disjointApart_iff.mp hcm
    obtain rfl := Option.some.inj (hm.place.unique hm')
    exact hqm (.inl (hall q hq))
  · intro hset
    have hleft : ∀ a b, db.disjointApart a b = true → ∀ c, (db.declaration c).kind = .classDecl →
        db.Below c a → db.disjointApart c b = true :=
      fun a b hab c hc hca => hset.inherited h hab hc hca
    have hright : ∀ a b, db.disjointApart a b = true → ∀ c, (db.declaration c).kind = .classDecl →
        db.Below c b → db.disjointApart a c = true :=
      fun a b hab c hc hcb =>
        h.disjointApart_symm (hleft b a (h.disjointApart_symm hab) c hc hcb)
    refine ⟨fun a b hab c hc hcab => ?_, fun a b => ?_, fun a b hab c hc =>
      ⟨hleft a b hab c hc, hright a b hab c hc⟩⟩
    · have hcb := hleft a b hab c hc hcab.1
      exact h.disjointApart_irrefl c (hright c b hcb c hc hcab.2)
    · exact Bool.eq_iff_iff.mpr ⟨h.disjointApart_symm, h.disjointApart_symm⟩

/-- With every claim honoured, the disjoint classes that a class inherits are related. -/
theorem Honoured.related (hon : db.Honoured) (h : db.Coherent)
    (hacyclic : WellFounded fun s c => db.Inherits c s) {c : Fin n}
    (hc : (db.declaration c).kind = .classDecl) {p q : Fin n} (hp : db.IsDisjoint p)
    (hq : db.IsDisjoint q) (hcp : db.Below c p) (hcq : db.Below c q) : db.Related p q := by
  induction c using hacyclic.induction with
  | _ c ih =>
    obtain rfl | ⟨s, hs, hsp⟩ := hcp.cases_head
    · exact .inl hcq.reachesDecl
    obtain rfl | ⟨t, ht, htq⟩ := hcq.cases_head
    · exact .inr (Below.reachesDecl (.head hs hsp))
    -- The ancestor that the supertypes share reaches both, so it inherits both.
    obtain ⟨r, hr⟩ := h c hc
    obtain ⟨hall, hone⟩ := (shared_of_supertypesAncestor hr).spec
    obtain ⟨rs, hrs, hrrs⟩ := hall s hs
    obtain ⟨rt, hrt, hrrt⟩ := hall t ht
    have hrp := reaches_trans hrrs (h.reaches_place hsp hs.ne_value hrs hp.place)
    have hrq := reaches_trans hrrt (h.reaches_place htq ht.ne_value hrt hq.place)
    cases r with
    | none => simp [reaches] at hrp
    | some a =>
      obtain ⟨u, hu, hua⟩ := hone a rfl
      obtain ⟨hbelow, ha⟩ := hua.inherits a rfl
      have huk := h.kind_of_inherits hc hu
      exact ih u hu huk (hbelow.trans (hon a p ha.kind hp.kind hrp))
        (hbelow.trans (hon a q ha.kind hq.kind hrq))

/-- A database whose claims are honoured, and whose `Value` inherits nothing, is settled. -/
theorem Honoured.settled (hon : db.Honoured) (h : db.Coherent)
    (hacyclic : WellFounded fun s c => db.Inherits c s)
    (hvalue : ∀ v s, some v = db.valueDecl → ¬db.Inherits v s) : db.Settled := by
  intro c p m hc hcp hp hm hall
  have hv : some c ≠ db.valueDecl := by
    intro hv
    obtain rfl | ⟨s, hs, -⟩ := hcp.cases_head
    · exact hp.value hv
    · exact hvalue c s hv hs
  obtain ⟨r, hr⟩ := h.exists_place hc
  have hrp := h.reaches_place hcp hv hr hp.place
  cases r with
  | none => simp [reaches] at hrp
  | some q =>
    have hq := (hr.inherits q rfl).2
    exact hon.related h hacyclic hq.kind hp hm (hon q p hq.kind hp.kind hrp)
      (hon q m hq.kind hm.kind (hall q hr))

/-! ### The bound on the walk -/

/-- A walk that has room for every declaration is not cut short. -/
theorem shared_succ (fuel : ℕ) (path : List (Fin n)) (hpath : path.Nodup)
    (hfuel : n + 1 ≤ path.length + fuel) (d : Fin n) (memo : Memo n) :
    db.shared (fuel + 1) path d memo = db.shared fuel path d memo := by
  induction fuel generalizing path d memo with
  | zero =>
    have hlen := hpath.length_le_card
    rw [Fintype.card_fin] at hlen
    omega
  | succ fuel ih =>
    rw [shared, shared]
    cases memo.lookup d with
    | some found => rfl
    | none =>
      by_cases hd : d ∈ path
      · simp only [hd, if_true]
      · have hrec : db.shared (fuel + 1) (d :: path) = db.shared fuel (d :: path) := by
          funext d' memo'
          exact ih (d :: path) (List.nodup_cons.mpr ⟨hd, hpath⟩)
            (by rw [List.length_cons]; omega) d' memo'
        simp only [hd, if_false, hrec]

/-! ### A class that claims another -/

/-- Classes, each with the classes that it inherits and those that it claims. -/
def ofClasses (supertypes : Fin n → List (Fin n) × List (Fin n)) : Database n where
  declaration d :=
    { kind := .classDecl
      isMixable := false
      supertypes := (supertypes d).1.map (⟨·, true⟩) ++ (supertypes d).2.map (⟨·, false⟩) }
  ty id := if h : id < n then .decl ⟨id, h⟩ else .other
  top := n
  value := none

/-- `class A`, `class B`, `class S: A @B` and `class C: S B`. -/
def claimant : Database 4 :=
  ofClasses ![([], []), ([], []), ([0], [1]), ([2, 1], [])]

/-- `class A`, `class B` and `class S: A`. -/
def forest : Database 3 :=
  ofClasses ![([], []), ([], []), ([0], [])]

theorem inherits_claimant {c s : Fin 4} (h : claimant.Inherits c s) : s < c := by
  obtain ⟨t, ht, hrt, hs⟩ := h
  revert t
  fin_cases c <;> fin_cases s <;> decide

/-- Claiming `B`, `S` passes for a subclass of it, so that a common subclass `C` of `S` and `B` counts
as coherent. But `C` then inherits `A` and `B`, which are apart. -/
theorem claimant_unsound :
    claimant.Coherent ∧ (∀ c, ¬TransGen claimant.Inherits c c) ∧
      claimant.disjointApart 0 1 = true ∧ claimant.Below 3 0 ∧ claimant.Below 3 1 ∧
      ¬claimant.Soundness := by
  have hcoh : claimant.Coherent := by
    intro d _
    fin_cases d
    · exact ⟨none, rfl⟩
    · exact ⟨none, rfl⟩
    · exact ⟨some 0, rfl⟩
    · exact ⟨some 2, rfl⟩
  have hstep : ∀ c s, c = 2 ∧ s = 0 ∨ c = 3 ∧ s = 2 ∨ c = 3 ∧ s = 1 → claimant.Inherits c s := by
    rintro c s (⟨rfl, rfl⟩ | ⟨rfl, rfl⟩ | ⟨rfl, rfl⟩)
    · exact ⟨⟨0, true⟩, by decide, rfl, rfl⟩
    · exact ⟨⟨2, true⟩, by decide, rfl, rfl⟩
    · exact ⟨⟨1, true⟩, by decide, rfl, rfl⟩
  have hapart : claimant.disjointApart 0 1 = true := by decide
  have h0 : claimant.Below 3 0 := .head (hstep 3 2 (by simp)) (.single (hstep 2 0 (by simp)))
  have h1 : claimant.Below 3 1 := .single (hstep 3 1 (by simp))
  refine ⟨hcoh, fun c hc => ?_, hapart, h0, h1, fun hs => hs.common 0 1 hapart 3 rfl ⟨h0, h1⟩⟩
  have hlt : ∀ {a b : Fin 4}, TransGen claimant.Inherits a b → b < a := by
    intro a b hab
    induction hab with
    | single h => exact inherits_claimant h
    | tail _ h ih => exact (inherits_claimant h).trans ih
  exact lt_irrefl c (hlt hc)

/-- Without claims, `A` and `B` are apart, and so are `S` and `B`. -/
theorem forest_sound : forest.Soundness ∧ forest.disjointApart 2 1 = true := by
  have hcoh : forest.Coherent := by
    intro d _
    fin_cases d
    · exact ⟨none, rfl⟩
    · exact ⟨none, rfl⟩
    · exact ⟨some 0, rfl⟩
  have hstep : forest.Inherits 2 0 := ⟨⟨0, true⟩, by decide, rfl, rfl⟩
  have hlt : ∀ {c s : Fin 3}, forest.Inherits c s → s < c := by
    rintro c s ⟨t, ht, hrt, hs⟩
    revert t
    fin_cases c <;> fin_cases s <;> decide
  have hon : forest.Honoured := by
    intro c s _ _ hreach
    fin_cases c <;> fin_cases s <;> first | exact .refl | exact .single hstep | cases hreach
  have hacyclic : WellFounded fun s c => forest.Inherits c s :=
    Subrelation.wf (fun h => hlt h) (measure fun c : Fin 3 => c.val).wf
  have hset : forest.Settled :=
    hon.settled hcoh hacyclic (by simp [valueDecl, forest, ofClasses])
  exact ⟨(soundness_iff_settled hcoh).mpr hset, by decide⟩

end Database

end Dolang.Typeck
