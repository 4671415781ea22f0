import Mathlib.Data.List.Nodup
import Mathlib.Tactic.Common

/-!
# Sets in the order of insertion

Lists whose elements are told apart by `same`. On elements of a kind `K` that `same` compares
lawfully, two lists without repetitions are equal as sets when they are as long and one has the
elements of the other (`equal_iff`).
-/

namespace Dolang.OrderedSet

variable {α : Type*} (same : α → α → Bool)

/-- Whether an element is there. -/
def has (l : List α) (a : α) : Bool :=
  l.any (same a)

/-- Puts an element at the end unless it is there. -/
def add (l : List α) (a : α) : List α :=
  if has same l a then l else l ++ [a]

def erase (l : List α) (a : α) : List α :=
  l.filter fun b => !same a b

/-- The elements of `l`, then those of `r` that `l` has not. -/
def union (l r : List α) : List α :=
  r.foldl (add same) l

def inter (l r : List α) : List α :=
  l.filter (has same r)

def diff (l r : List α) : List α :=
  l.filter fun a => !has same r a

/-- The elements of `l` that `r` has not, then those of `r` that `l` has not. -/
def symmDiff (l r : List α) : List α :=
  union same (diff same l r) (diff same r l)

def subset (l r : List α) : Bool :=
  l.all (has same r)

/-- Whether two lists without repetitions have the same elements. -/
def equal (l r : List α) : Bool :=
  l.length == r.length && subset same l r

/-- `same` is an equivalence on elements of a kind. -/
structure Lawful (K : α → Prop) : Prop where
  refl : ∀ {a}, K a → same a a = true
  symm : ∀ {a b}, K a → K b → same a b = true → same b a = true
  trans : ∀ {a b c}, K a → K b → K c → same a b = true → same b c = true → same a c = true

/-- A list without repetitions of elements of a kind. -/
structure Distinct (K : α → Prop) (l : List α) : Prop where
  kind : ∀ a ∈ l, K a
  apart : l.Pairwise fun a b => same a b = false

variable {same} {K : α → Prop} {l r : List α} {a b : α}

theorem has_eq_false_iff : has same l a = false ↔ ∀ b ∈ l, same a b = false := by
  rw [has, List.any_eq_false]
  exact forall₂_congr fun b _ => iff_of_eq (Bool.not_eq_true _)

theorem has_append : has same (l ++ r) a = (has same l a || has same r a) :=
  List.any_append

theorem distinct_nil : Distinct same K [] where
  kind _ ha := absurd ha List.not_mem_nil
  apart := .nil

theorem Distinct.filter (h : Distinct same K l) (p : α → Bool) : Distinct same K (l.filter p) where
  kind a ha := h.kind a (List.mem_of_mem_filter ha)
  apart := h.apart.filter p

/-- Elements that are the same have the same elements as equals. -/
theorem has_congr (hs : Lawful same K) (hl : ∀ c ∈ l, K c) (ha : K a) (hb : K b)
    (hab : same a b = true) : has same l a = has same l b := by
  have hba := hs.symm ha hb hab
  unfold has
  rw [Bool.eq_iff_iff, List.any_eq_true, List.any_eq_true]
  constructor
  · rintro ⟨c, hc, hac⟩
    exact ⟨c, hc, hs.trans hb ha (hl c hc) hba hac⟩
  · rintro ⟨c, hc, hbc⟩
    exact ⟨c, hc, hs.trans ha hb (hl c hc) hab hbc⟩

/-- An element of a list without repetitions is no element of what comes before or after it. -/
theorem distinct_concat (hs : Lawful same K) (h : Distinct same K l) (ha : K a)
    (hnone : has same l a = false) : Distinct same K (l ++ [a]) where
  kind b hb := by
    obtain hb | hb := List.mem_append.mp hb
    · exact h.kind b hb
    · exact List.mem_singleton.mp hb ▸ ha
  apart := by
    refine List.pairwise_append.mpr ⟨h.apart, List.pairwise_singleton _ _, fun b hb c hc => ?_⟩
    obtain rfl := List.mem_singleton.mp hc
    refine Bool.eq_false_iff.mpr fun hbc => ?_
    have hcb := hs.symm (h.kind b hb) ha hbc
    rw [has_eq_false_iff.mp hnone b hb] at hcb
    cases hcb

/-- What is put in stays without repetitions. -/
theorem Distinct.add (hs : Lawful same K) (h : Distinct same K l) (ha : K a) :
    Distinct same K (add same l a) := by
  unfold OrderedSet.add
  split_ifs with hhas
  · exact h
  · exact distinct_concat hs h ha (Bool.eq_false_iff.mpr hhas)

theorem Distinct.union (hs : Lawful same K) (h : Distinct same K l) (hr : ∀ a ∈ r, K a) :
    Distinct same K (union same l r) := by
  unfold OrderedSet.union
  induction r generalizing l with
  | nil => exact h
  | cons a r ih =>
    exact ih (h.add hs (hr a List.mem_cons_self)) fun b hb => hr b (List.mem_cons_of_mem a hb)

/-- What is put in without repetitions goes to the end. -/
theorem union_eq_append (hs : Lawful same K) (hr : Distinct same K r) (hl : ∀ a ∈ l, K a)
    (hnone : ∀ a ∈ r, has same l a = false) : union same l r = l ++ r := by
  unfold union
  induction r generalizing l with
  | nil => exact (List.append_nil l).symm
  | cons a r ih =>
    obtain ⟨hapart, hrest⟩ := List.pairwise_cons.mp hr.apart
    have ha := hr.kind a List.mem_cons_self
    have hkind : ∀ b ∈ r, K b := fun b hb => hr.kind b (List.mem_cons_of_mem a hb)
    have hadd : add same l a = l ++ [a] := by
      unfold add
      rw [hnone a List.mem_cons_self, if_neg Bool.false_ne_true]
    rw [List.foldl_cons, hadd, ih ⟨hkind, hrest⟩, List.append_assoc]
    · rfl
    · intro b hb
      obtain hb | hb := List.mem_append.mp hb
      · exact hl b hb
      · exact List.mem_singleton.mp hb ▸ ha
    · intro b hb
      rw [has_append, hnone b (List.mem_cons_of_mem a hb), Bool.false_or, has_eq_false_iff]
      intro c hc
      obtain rfl := List.mem_singleton.mp hc
      refine Bool.eq_false_iff.mpr fun hbc => ?_
      have hcb := hs.symm (hkind b hb) ha hbc
      rw [hapart b hb] at hcb
      cases hcb

/-- A list without repetitions, put in one after the other. -/
theorem union_nil (hs : Lawful same K) (hr : Distinct same K r) : union same [] r = r :=
  union_eq_append hs hr (fun _ ha => absurd ha List.not_mem_nil) fun _ _ => rfl

/-- The elements of a union. -/
theorem has_union (hs : Lawful same K) (hl : ∀ c ∈ l, K c) (hr : ∀ c ∈ r, K c) (ha : K a) :
    has same (union same l r) a = (has same l a || has same r a) := by
  unfold union
  induction r generalizing l with
  | nil => exact (Bool.or_false _).symm
  | cons b r ih =>
    have hb := hr b List.mem_cons_self
    have hadd : ∀ c ∈ add same l b, K c := by
      intro c hc
      unfold add at hc
      split_ifs at hc
      · exact hl c hc
      · obtain hc | hc := List.mem_append.mp hc
        · exact hl c hc
        · exact List.mem_singleton.mp hc ▸ hb
    have hcons : has same (b :: r) a = (same a b || has same r a) := List.any_cons
    rw [List.foldl_cons, ih hadd fun c hc => hr c (List.mem_cons_of_mem b hc), hcons]
    unfold add
    split_ifs with hhas
    · -- `b` is there, so what is the same as `b` is there as well.
      cases hab : same a b with
      | false => rw [Bool.false_or]
      | true => rw [has_congr hs hl ha hb hab, hhas, Bool.true_or, Bool.true_or]
    · have hsingle : has same [b] a = same a b := by
        unfold has
        rw [List.any_cons, List.any_nil, Bool.or_false]
      rw [has_append, hsingle, Bool.or_assoc]

/-- Taking an element out of a list without repetitions takes one element out. -/
theorem length_erase (hs : Lawful same K) (h : Distinct same K l) (ha : K a)
    (hhas : has same l a = true) : (erase same l a).length + 1 = l.length := by
  unfold erase
  induction l with
  | nil => cases hhas
  | cons b l ih =>
    obtain ⟨happart, hrest⟩ := List.pairwise_cons.mp h.apart
    have hkind : ∀ c ∈ l, K c := fun c hc => h.kind c (List.mem_cons_of_mem b hc)
    have hcons : has same (b :: l) a = (same a b || has same l a) := List.any_cons
    cases hab : same a b with
    | true =>
      have hkeep : (l.filter fun c => !same a c) = l := by
        refine List.filter_eq_self.mpr fun c hc => ?_
        rw [Bool.not_eq_true', ← Bool.not_eq_true]
        intro hac
        have hba := hs.symm ha (h.kind b List.mem_cons_self) hab
        have hbc := hs.trans (h.kind b List.mem_cons_self) ha (hkind c hc) hba hac
        rw [happart c hc] at hbc
        cases hbc
      rw [List.filter_cons_of_neg (by simp [hab]), hkeep, List.length_cons]
    | false =>
      rw [hcons, hab, Bool.false_or] at hhas
      rw [List.filter_cons_of_pos (by simp [hab]), List.length_cons, List.length_cons,
        ih ⟨hkind, hrest⟩ hhas]

/-- A list without repetitions whose elements `r` has, without its first one. -/
theorem subset_erase (hs : Lawful same K) (hl : Distinct same K (a :: l)) (hr : Distinct same K r)
    (hsub : subset same (a :: l) r = true) :
    has same r a = true ∧ subset same l (erase same r a) = true := by
  obtain ⟨hapart, -⟩ := List.pairwise_cons.mp hl.apart
  have ha := hl.kind a List.mem_cons_self
  unfold subset at hsub ⊢
  rw [List.all_cons, Bool.and_eq_true] at hsub
  refine ⟨hsub.1, List.all_eq_true.mpr fun b hb => ?_⟩
  have hKb := hl.kind b (List.mem_cons_of_mem a hb)
  obtain ⟨c, hc, hbc⟩ := List.any_eq_true.mp (List.all_eq_true.mp hsub.2 b hb)
  refine List.any_eq_true.mpr ⟨c, List.mem_filter.mpr ⟨hc, ?_⟩, hbc⟩
  rw [Bool.not_eq_true', ← Bool.not_eq_true]
  intro hac
  have hab := hs.trans ha (hr.kind c hc) hKb hac (hs.symm hKb (hr.kind c hc) hbc)
  rw [hapart b hb] at hab
  cases hab

theorem Distinct.tail (h : Distinct same K (a :: l)) : Distinct same K l where
  kind b hb := h.kind b (List.mem_cons_of_mem a hb)
  apart := (List.pairwise_cons.mp h.apart).2

/-- A list without repetitions is no longer than one that has its elements. -/
theorem length_le_of_subset (hs : Lawful same K) (hl : Distinct same K l) (hr : Distinct same K r)
    (hsub : subset same l r = true) : l.length ≤ r.length := by
  induction l generalizing r with
  | nil => exact Nat.zero_le _
  | cons a l ih =>
    obtain ⟨hhas, hsub⟩ := subset_erase hs hl hr hsub
    have herase := length_erase hs hr (hl.kind a List.mem_cons_self) hhas
    have hle := ih hl.tail (hr.filter fun b => !same a b) hsub
    unfold erase at herase
    rw [List.length_cons]
    omega

/-- What is as long as a list whose elements it has, has no others. -/
theorem subset_of_length (hs : Lawful same K) (hl : Distinct same K l) (hr : Distinct same K r)
    (hlen : r.length ≤ l.length) (hsub : subset same l r = true) : subset same r l = true := by
  induction l generalizing r with
  | nil =>
    rw [List.length_nil, Nat.le_zero, List.length_eq_zero_iff] at hlen
    rw [hlen]
    rfl
  | cons a l ih =>
    have ha := hl.kind a List.mem_cons_self
    obtain ⟨hhas, hsub⟩ := subset_erase hs hl hr hsub
    have herase := length_erase hs hr ha hhas
    unfold erase at herase hsub
    rw [List.length_cons] at hlen
    have hback := ih hl.tail (hr.filter fun b => !same a b) (by omega) hsub
    refine List.all_eq_true.mpr fun b hb => ?_
    cases hab : same a b with
    | true =>
      exact List.any_eq_true.mpr ⟨a, List.mem_cons_self, hs.symm ha (hr.kind b hb) hab⟩
    | false =>
      have hmem : b ∈ r.filter fun b => !same a b := List.mem_filter.mpr ⟨hb, by rw [hab]; rfl⟩
      obtain ⟨c, hc, hbc⟩ := List.any_eq_true.mp (List.all_eq_true.mp hback b hmem)
      exact List.any_eq_true.mpr ⟨c, List.mem_cons_of_mem a hc, hbc⟩

/-- What does not tell the same elements apart is the same for lists that are equal as sets. -/
theorem map_perm {β : Type*} {f : α → β} (hs : Lawful same K)
    (hf : ∀ {a b}, K a → K b → same a b = true → f a = f b) (hl : Distinct same K l)
    (hr : Distinct same K r) (h : equal same l r = true) : (l.map f).Perm (r.map f) := by
  unfold equal at h
  rw [Bool.and_eq_true, beq_iff_eq] at h
  obtain ⟨hlen, hsub⟩ := h
  induction l generalizing r with
  | nil =>
    rw [List.length_nil, eq_comm, List.length_eq_zero_iff] at hlen
    rw [hlen]
  | cons a l ih =>
    have ha := hl.kind a List.mem_cons_self
    obtain ⟨hhas, hsub⟩ := subset_erase hs hl hr hsub
    have herase := length_erase hs hr ha hhas
    have hsplit := List.filter_append_perm (same a) r
    -- One element of `r` is the same as `a`.
    have hone : (r.filter (same a)).length = 1 := by
      have hlength := hsplit.length_eq
      rw [List.length_append] at hlength
      unfold erase at herase
      omega
    obtain ⟨c, hc⟩ := List.length_eq_one_iff.mp hone
    obtain ⟨hmem, hac⟩ := List.mem_filter.mp (hc ▸ List.mem_singleton_self c)
    rw [hc] at hsplit
    rw [List.length_cons] at hlen
    have hrest := ih hl.tail (hr.filter fun b => !same a b)
      (by unfold erase at herase; omega) hsub
    refine List.Perm.trans ?_ (hsplit.map f)
    rw [List.map_cons, hf ha (hr.kind c hmem) hac]
    exact hrest.cons _

/-- Lists without repetitions are equal when they have the same elements. -/
theorem equal_iff (hs : Lawful same K) (hl : Distinct same K l) (hr : Distinct same K r) :
    equal same l r = true ↔ ∀ a, K a → has same l a = has same r a := by
  have hsubset : ∀ {l r}, Distinct same K l → Distinct same K r → subset same l r = true →
      ∀ a, K a → has same l a = true → has same r a = true := by
    intro l r hl hr hsub a ha hhas
    obtain ⟨b, hb, hab⟩ := List.any_eq_true.mp hhas
    rw [has_congr hs hr.kind ha (hl.kind b hb) hab]
    exact List.all_eq_true.mp hsub b hb
  constructor
  · intro h
    unfold equal at h
    rw [Bool.and_eq_true, beq_iff_eq] at h
    obtain ⟨hlen, hsub⟩ := h
    intro a ha
    rw [Bool.eq_iff_iff]
    exact ⟨hsubset hl hr hsub a ha,
      hsubset hr hl (subset_of_length hs hl hr (Nat.le_of_eq hlen.symm) hsub) a ha⟩
  · intro h
    have hhas : ∀ {l r : List α}, (∀ a ∈ l, K a) → (∀ a, K a → has same l a = has same r a) →
        subset same l r = true := by
      intro l r hl h
      refine List.all_eq_true.mpr fun a ha => ?_
      rw [← h a (hl a ha)]
      exact List.any_eq_true.mpr ⟨a, ha, hs.refl (hl a ha)⟩
    have hlr := hhas hl.kind h
    have hrl := hhas hr.kind fun a ha => (h a ha).symm
    unfold equal
    rw [Bool.and_eq_true, beq_iff_eq]
    exact ⟨Nat.le_antisymm (length_le_of_subset hs hl hr hlr) (length_le_of_subset hs hr hl hrl),
      hlr⟩

end Dolang.OrderedSet
