import Mathlib.Data.Int.Notation
import Mathlib.Tactic.Common
import Dolang.Lib.System

/-!
# Fail-fast cursors

A store changes while cursors read it. It counts the changes in an epoch; a cursor notes the epoch
of the store that it is made for and refuses to read under another one. Where every change that
matters raises the epoch, a cursor only ever reads the store that it was made for, as if nothing had
happened in between (`sound_of_run`). A change under the same epoch does no harm as long as no
cursor has that epoch (`Quiet`).
-/

namespace Dolang

/-- A store that is changed and read: its states `S`, the changes `M`, what reading depends on
besides the store `W`, the positions `C` at which it is read, the elements `α` and the errors `ε` of
reading. -/
structure FailFast (S M W C α ε : Type*) where
  valid : S → Prop
  epoch : S → ℕ
  change : M → S → S
  valid_change : ∀ {s m}, valid s → valid (change m s)
  epoch_le : ∀ {s m}, valid s → epoch s ≤ epoch (change m s)
  /-- The positions that make sense in a state. -/
  good : S → C → Prop
  next : W → S → C → Except ε (Option α) × C
  good_next : ∀ {w s c}, valid s → good s c → good s (next w s c).2

namespace FailFast

variable {S M W C α ε : Type*}

/-- A cursor: what it holds, and for the record the store that it was made for, where it started,
and what it has yielded. -/
structure Cursor (S C α : Type*) where
  position : C
  epoch : ℕ
  made : S
  start : C
  yielded : List α

/-- Why a cursor does not go on. -/
inductive Failure (ε : Type*) where
  | modified
  | raised (e : ε)
  deriving DecidableEq

/-- A store with its cursors. -/
structure State (S C α : Type*) where
  store : S
  cursors : List (Cursor S C α)

inductive Action (M W C : Type*) where
  | change (m : M)
  /-- Makes a cursor. -/
  | make (c : C)
  /-- Makes a cursor from the one with number `j`, for the same store. -/
  | fork (j : ℕ) (c : C)
  /-- Asks the cursor with number `j` for its next element. -/
  | read (j : ℕ) (w : W)

variable (F : FailFast S M W C α ε)

/-- A new cursor. -/
def Cursor.new (s : S) (c : C) : Cursor S C α where
  position := c
  epoch := F.epoch s
  made := s
  start := c
  yielded := []

/-- Asks a cursor for its next element. -/
def Cursor.read (w : W) (s : S) (k : Cursor S C α) : Except (Failure ε) (Option α) × Cursor S C α :=
  if F.epoch s ≠ k.epoch then (.error .modified, k)
  else
    match F.next w s k.position with
    | (.ok (some a), c) => (.ok (some a), { k with position := c, yielded := k.yielded ++ [a] })
    | (.ok none, c) => (.ok none, { k with position := c })
    | (.error e, c) => (.error (.raised e), { k with position := c })

/-- A store with any number of cursors, of which there are none at first. -/
def system (first : S) : System (State S C α) (Action M W C) where
  start s := s.store = first ∧ s.cursors = []
  next s a t :=
    match a with
    | .change m => t = { s with store := F.change m s.store }
    | .make c => F.good s.store c ∧
        t = { s with cursors := s.cursors ++ [Cursor.new F s.store c] }
    | .fork j c => ∃ k, s.cursors[j]? = some k ∧ F.good k.made c ∧
        t = { s with cursors := s.cursors ++ [{ k with position := c, start := c, yielded := [] }] }
    | .read j w => ∃ k, s.cursors[j]? = some k ∧
        t = { s with cursors := s.cursors.set j (Cursor.read F w s.store k).2 }

/-- A change is quiet when it changes nothing, raises the epoch, or comes when no cursor has the
epoch of the store. -/
def Quiet (s : S) (cursors : List (Cursor S C α)) (t : S) : Prop :=
  t = s ∨ F.epoch s < F.epoch t ∨ ∀ k ∈ cursors, k.epoch ≠ F.epoch s

/-- What some calls of `next` yield when nothing else happens to the store. -/
inductive Reads (s : S) (c : C) : List α → C → Prop
  | start : Reads s c [] c
  | yield {l : List α} {c' c'' : C} {a : α} {w : W} : Reads s c l c' →
      F.next w s c' = (.ok (some a), c'') → Reads s c (l ++ [a]) c''
  | pass {l : List α} {c' : C} {w : W} : Reads s c l c' →
      (∀ a, (F.next w s c').1 ≠ .ok (some a)) → Reads s c l (F.next w s c').2

/-- A cursor has read the store that it was made for and nothing else, and under its epoch that is
the store that there is. -/
structure Cursor.Sound (s : S) (k : Cursor S C α) : Prop where
  epoch_made : k.epoch = F.epoch k.made
  epoch_le : k.epoch ≤ F.epoch s
  same : F.epoch s = k.epoch → s = k.made
  valid : F.valid k.made
  good_start : F.good k.made k.start
  good : F.good k.made k.position
  reads : F.Reads k.made k.start k.yielded k.position

variable {F} {s : S} {k : Cursor S C α} {w : W}

theorem Cursor.Sound.new (hs : F.valid s) {c : C} (hc : F.good s c) :
    (Cursor.new F s c : Cursor S C α).Sound F s where
  epoch_made := rfl
  epoch_le := Nat.le_refl _
  same _ := rfl
  valid := hs
  good_start := hc
  good := hc
  reads := .start

/-- A cursor made from another one reads the same store. -/
theorem Cursor.Sound.fork (h : k.Sound F s) {c : C} (hc : F.good k.made c) :
    Cursor.Sound F s { k with position := c, start := c, yielded := [] } where
  epoch_made := h.epoch_made
  epoch_le := h.epoch_le
  same := h.same
  valid := h.valid
  good_start := hc
  good := hc
  reads := .start

/-- A quiet change leaves the cursors sound. -/
theorem Cursor.Sound.change {m : M} (h : k.Sound F s) (hs : F.valid s)
    (hquiet : F.change m s = s ∨ F.epoch s < F.epoch (F.change m s) ∨ k.epoch ≠ F.epoch s) :
    k.Sound F (F.change m s) := by
  refine { h with epoch_le := Nat.le_trans h.epoch_le (F.epoch_le hs), same := fun hepoch => ?_ }
  have hle : F.epoch s ≤ F.epoch (F.change m s) := F.epoch_le hs
  have hk := h.epoch_le
  obtain hsame | hlt | hne := hquiet
  · rw [hsame] at hepoch ⊢
    exact h.same hepoch
  · omega
  · omega

/-- Reading leaves a cursor sound. -/
theorem Cursor.Sound.read (h : k.Sound F s) : (Cursor.read F w s k).2.Sound F s := by
  unfold Cursor.read
  split_ifs with hepoch
  · exact h
  · obtain rfl := h.same (not_not.mp hepoch)
    have hgood := F.good_next (w := w) h.valid h.good
    cases hnext : F.next w k.made k.position with
    | mk result c =>
      rw [hnext] at hgood
      cases result with
      | error e =>
        have hpass := h.reads.pass (w := w) (by simp [hnext])
        rw [hnext] at hpass
        exact { h with good := hgood, reads := hpass }
      | ok out =>
        cases out with
        | none =>
          have hpass := h.reads.pass (w := w) (by simp [hnext])
          rw [hnext] at hpass
          exact { h with good := hgood, reads := hpass }
        | some a => exact { h with good := hgood, reads := h.reads.yield hnext }

/-- Along a run whose changes are quiet the cursors stay sound. -/
theorem sound_of_run {first : S} (hfirst : F.valid first)
    {good : State S C α → Action M W C → Prop} {st : State S C α}
    (h : (F.system first).Run good st)
    (hquiet : ∀ st m, F.valid st.store → good st (.change m) →
      F.Quiet st.store st.cursors (F.change m st.store)) :
    F.valid st.store ∧ ∀ k ∈ st.cursors, k.Sound F st.store := by
  refine h.invariant (I := fun st => F.valid st.store ∧ ∀ k ∈ st.cursors, k.Sound F st.store)
    ?_ ?_
  · rintro st ⟨rfl, hnone⟩
    exact ⟨hfirst, by simp [hnone]⟩
  · rintro st a t ⟨hvalid, hsound⟩ hgood hnext
    cases a with
    | change m =>
      obtain rfl := hnext
      refine ⟨F.valid_change hvalid, fun k hk => (hsound k hk).change hvalid ?_⟩
      exact (hquiet st m hvalid hgood).imp_right (Or.imp_right fun hall => hall k hk)
    | make c =>
      obtain ⟨hc, rfl⟩ := hnext
      refine ⟨hvalid, fun k hk => ?_⟩
      obtain hk | hk := List.mem_append.mp hk
      · exact hsound k hk
      · obtain rfl := List.mem_singleton.mp hk
        exact .new hvalid hc
    | fork j c =>
      obtain ⟨k, hj, hc, rfl⟩ := hnext
      refine ⟨hvalid, fun k' hk' => ?_⟩
      obtain hk' | hk' := List.mem_append.mp hk'
      · exact hsound k' hk'
      · obtain rfl := List.mem_singleton.mp hk'
        exact (hsound k (List.mem_of_getElem? hj)).fork hc
    | read j w =>
      obtain ⟨k, hj, rfl⟩ := hnext
      refine ⟨hvalid, fun k' hk' => ?_⟩
      obtain hk' | rfl := List.mem_or_eq_of_mem_set hk'
      · exact hsound k' hk'
      · exact (hsound k (List.mem_of_getElem? hj)).read

/-- A sound cursor says that the store has been modified, or it reads the store that it was made
for. -/
theorem Cursor.Sound.read_eq (h : k.Sound F s) :
    (Cursor.read F w s k).1 = .error .modified ∨
      s = k.made ∧ (Cursor.read F w s k).1 =
        (F.next w k.made k.position).1.mapError Failure.raised := by
  by_cases hepoch : F.epoch s = k.epoch
  · obtain rfl := h.same hepoch
    refine .inr ⟨rfl, ?_⟩
    rw [Cursor.read, if_neg (not_not.mpr hepoch)]
    cases hnext : F.next w k.made k.position with
    | mk result c =>
      cases result with
      | error e => rfl
      | ok out => cases out <;> rfl
  · exact .inl (by rw [Cursor.read, if_pos hepoch])

/-- What is left to be yielded at a position, where reading does not fail: each element that `next`
yields is the first of them, and they stay as they are where it yields none. -/
structure Lists (F : FailFast S M W C α ε) (s : S) (good : C → Prop) (listing : C → List α) :
    Prop where
  kept : ∀ {w c}, good c → good (F.next w s c).2
  some : ∀ {w c a c'}, good c → F.next w s c = (.ok (some a), c') → listing c = a :: listing c'
  none : ∀ {w c c'}, good c → F.next w s c = (.ok none, c') → listing c = [] ∧ listing c' = []
  total : ∀ {w c e}, good c → (F.next w s c).1 ≠ .error e

/-- What has been yielded and what is left make up what there was at the start. -/
theorem Lists.reads {good : C → Prop} {listing : C → List α} (h : Lists F s good listing) {c c' : C}
    {l : List α} (hc : good c) (hreads : F.Reads s c l c') :
    good c' ∧ listing c = l ++ listing c' := by
  induction hreads with
  | start => exact ⟨hc, rfl⟩
  | @yield l c' c'' a w _ hnext ih =>
    obtain ⟨hgood, hlist⟩ := ih
    refine ⟨by simpa [hnext] using h.kept (w := w) hgood, ?_⟩
    rw [hlist, h.some hgood hnext, List.append_assoc, List.singleton_append]
  | @pass l c' w _ hnone ih =>
    obtain ⟨hgood, hlist⟩ := ih
    refine ⟨h.kept hgood, ?_⟩
    cases hnext : F.next w s c' with
    | mk result c'' =>
      cases result with
      | error e => exact absurd (by rw [hnext]) (h.total (w := w) (e := e) hgood)
      | ok out =>
        cases out with
        | some a => exact absurd (by rw [hnext]) (hnone a)
        | none =>
          obtain ⟨hleft, hleft'⟩ := h.none hgood hnext
          rw [hlist, hleft, hleft']

end FailFast

end Dolang
