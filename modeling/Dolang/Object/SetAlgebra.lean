import Mathlib.Data.List.Perm.Basic
import Dolang.Object.DictRefines
import Dolang.Object.SetRefines

/-!
# Set algebra on lists without repetitions

Any number of sets and the lists that they stand for answer every request alike and go on to stand
for each other, so they do over every list of requests (`refines_lists`). A set that is made of two
others has the elements of the left one first. Whether two sets are equal depends on neither the
order nor the table, and sets that are equal have the same hash (`equal_iff_contains`).
-/

namespace Dolang.Object.ValueSet

variable {V E : Type} {P : Probing (Member V) E Member.hash} {els : Elements V E} {K : V → Prop}
  {s s' left right : ValueSet V} {l l' r : List V}

/-! ### Two sets -/

/-- The members of a set, one after the other. -/
theorem Represents.entry (h : Represents els K s l) {x : V × Hash} (hx : x ∈ s.entries) :
    K x.1 ∧ els.hash x.1 = .ok x.2 :=
  ⟨h.distinct.kind _ (h.values ▸ List.mem_map_of_mem hx), h.hashed x hx⟩

/-- A copy stands for the same list. -/
theorem Represents.cloned (h : Represents els K s l) (hels : els.Lawful K) :
    Represents els K (s.cloned P) l := by
  -- The walk has put in the members `done`, and those to come are not the same as any of them.
  have hwalk : ∀ (rest done : List (V × Hash)) (c : ValueSet V), done ++ rest = s.entries →
      Represents els K c (done.map Prod.fst) →
      Represents els K (rest.foldl (fun set m => set.insertKnownUnique P m.1 m.2) c) l := by
    intro rest
    induction rest with
    | nil =>
      intro done c hdone hc
      rw [List.append_nil] at hdone
      rw [← h.values, ← hdone]
      exact hc
    | cons x rest ih =>
      intro done c hdone hc
      obtain ⟨hK, hhash⟩ := h.entry (x := x) (hdone ▸ List.mem_append_right _ List.mem_cons_self)
      have hnone : OrderedSet.has els.same (done.map Prod.fst) x.1 = false := by
        refine OrderedSet.has_eq_false_iff.mpr fun v hv => Bool.eq_false_iff.mpr fun hsame => ?_
        have hl := h.distinct.apart
        rw [← h.values, ← hdone, List.map_append, List.pairwise_append] at hl
        have hfalse := hl.2.2 v hv x.1 (List.mem_map_of_mem List.mem_cons_self)
        have hKv := hc.distinct.kind v hv
        rw [hels.symm hK hKv hsame] at hfalse
        cases hfalse
      refine ih (done ++ [x]) _ (by rw [List.append_assoc]; exact hdone) ?_
      rw [List.map_append]
      exact hc.insertKnownUnique hels hK hhash hnone
  exact hwalk s.entries [] new rfl represents_new

/-- The members that are kept go to the end unless they are there. -/
theorem Represents.extendBy (h : Represents els K s l) (hels : els.Lawful K)
    (keep : V → Hash → Except E Bool) (p : V → Bool) {members : List (V × Hash)}
    (hmembers : ∀ x ∈ members, K x.1 ∧ els.hash x.1 = .ok x.2)
    (hkeep : ∀ x ∈ members, keep x.1 x.2 = .ok (p x.1)) :
    ∃ s', extendBy P els keep s members = .ok s' ∧
      Represents els K s' (OrderedSet.union els.same l ((members.map Prod.fst).filter p)) := by
  unfold ValueSet.extendBy OrderedSet.union
  induction members generalizing s l with
  | nil => exact ⟨s, rfl, h⟩
  | cons x members ih =>
    obtain ⟨hK, hhash⟩ := hmembers x List.mem_cons_self
    have hmembers' := fun y hy => hmembers y (List.mem_cons_of_mem x hy)
    have hkeep' := fun y hy => hkeep y (List.mem_cons_of_mem x hy)
    rw [List.foldlM_cons, hkeep x List.mem_cons_self, List.map_cons]
    cases hp : p x.1 with
    | false =>
      rw [List.filter_cons_of_neg (by simp [hp])]
      exact ih h hmembers' hkeep'
    | true =>
      obtain ⟨s', hi, hs'⟩ := h.insert (P := P) hels hK hhash
      obtain ⟨t, hfold, ht⟩ := ih hs' hmembers' hkeep'
      rw [List.filter_cons_of_pos (by simp [hp])]
      refine ⟨t, ?_, ht⟩
      rw [← hfold]
      change ((s.insert P els.eq x.1 x.2).map Prod.fst >>= _) = _
      rw [hi]
      rfl

/-- What is kept of a set, in a new one. -/
theorem Represents.keep (h : Represents els K s l) (hels : els.Lawful K)
    {keep : V → Hash → Except E Bool} {p : V → Bool}
    (hkeep : ∀ x ∈ s.entries, keep x.1 x.2 = .ok (p x.1)) :
    ∃ s', ValueSet.extendBy P els keep new s.entries = .ok s' ∧
      Represents els K s' (l.filter p) := by
  obtain ⟨s', hs', hr⟩ := represents_new.extendBy (P := P) hels keep p (fun _ hx => h.entry hx) hkeep
  rw [h.values, OrderedSet.union_nil hels.sets (h.distinct.filter p)] at hr
  exact ⟨s', hs', hr⟩

theorem Represents.union (hl : Represents els K left l) (hr : Represents els K right r)
    (hels : els.Lawful K) :
    ∃ s', left.union P els right = .ok s' ∧
      Represents els K s' (OrderedSet.union els.same l r) := by
  have hall : ((right.entries.map Prod.fst).filter fun _ => true) = r := by
    rw [hr.values, List.filter_true]
  obtain ⟨s', hs', hu⟩ := (hl.cloned (P := P) hels).extendBy (P := P) hels (fun _ _ => .ok true)
    (fun _ => true) (fun _ hx => hr.entry hx) fun _ _ => rfl
  exact ⟨s', hs', hall ▸ hu⟩

theorem Represents.intersect (hl : Represents els K left l) (hr : Represents els K right r)
    (hels : els.Lawful K) :
    ∃ s', left.intersect P els right = .ok s' ∧
      Represents els K s' (OrderedSet.inter els.same l r) :=
  hl.keep hels fun _ hx => hr.contains hels (hl.entry hx).1 (hl.entry hx).2

/-- Whether a value is no member. -/
theorem Represents.contains_not (h : Represents els K s l) (hels : els.Lawful K) {value : V}
    {hv : Hash} (hvalue : K value) (hhash : els.hash value = .ok hv) :
    (s.contains P els value hv).map not = .ok (!OrderedSet.has els.same l value) := by
  rw [h.contains hels hvalue hhash]
  rfl

theorem Represents.diff (hl : Represents els K left l) (hr : Represents els K right r)
    (hels : els.Lawful K) :
    ∃ s', left.diff P els right = .ok s' ∧
      Represents els K s' (OrderedSet.diff els.same l r) :=
  hl.keep hels fun _ hx => hr.contains_not hels (hl.entry hx).1 (hl.entry hx).2

theorem Represents.symDiff (hl : Represents els K left l) (hr : Represents els K right r)
    (hels : els.Lawful K) :
    ∃ s', left.symDiff P els right = .ok s' ∧
      Represents els K s' (OrderedSet.symmDiff els.same l r) := by
  obtain ⟨d, hd, hdiff⟩ := hl.diff (P := P) hr hels
  obtain ⟨s', hs', hu⟩ := hdiff.extendBy (P := P) hels
    (fun v hv => (left.contains P els v hv).map not) (fun v => !OrderedSet.has els.same l v)
    (fun _ hx => hr.entry hx) fun _ hx => hl.contains_not hels (hr.entry hx).1 (hr.entry hx).2
  rw [hr.values] at hu
  refine ⟨s', ?_, hu⟩
  unfold ValueSet.symDiff
  rw [hd]
  exact hs'

/-- The members in the order of the table are those of the list. -/
theorem Represents.stored_perm (h : Represents els K s l) :
    (s.stored.map face).Perm s.entries := by
  have hperm : s.inner.iter.Perm s.order.reduceOption :=
    (List.perm_ext_iff_of_nodup RawTable.nodup_iter h.wellFormed.nodup).mpr fun b =>
      RawTable.mem_iter.trans h.wellFormed.mem_order.symm
  unfold stored
  rw [List.map_filterMap]
  exact hperm.filterMap _

theorem Represents.stored (h : Represents els K s l) {m : Member V} (hm : m ∈ s.stored) :
    K m.value ∧ els.hash m.value = .ok m.hash :=
  h.entry (h.stored_perm.mem_iff.mp (List.mem_map_of_mem (f := face) hm))

/-- A check of all elements that raises no error. -/
theorem allM_ok {α : Type} {f : α → Except E Bool} {p : α → Bool} {xs : List α}
    (h : ∀ x ∈ xs, f x = .ok (p x)) : xs.allM f = .ok (xs.all p) := by
  induction xs with
  | nil => rfl
  | cons x xs ih =>
    rw [List.allM, h x List.mem_cons_self, List.all_cons]
    cases p x with
    | false => rfl
    | true => exact ih fun y hy => h y (List.mem_cons_of_mem x hy)

theorem Represents.isSubset (hl : Represents els K left l) (hr : Represents els K right r)
    (hels : els.Lawful K) :
    left.isSubset P els right = .ok (OrderedSet.subset els.same l r) := by
  unfold ValueSet.isSubset
  rw [allM_ok fun m hm => hr.contains hels (hl.stored hm).1 (hl.stored hm).2]
  have hperm : (left.stored.map Member.value).Perm l := by
    have hvalues := hl.stored_perm.map Prod.fst
    rwa [hl.values, List.map_map] at hvalues
  refine congrArg Except.ok ?_
  unfold OrderedSet.subset
  rw [← hperm.all_eq, List.all_map]
  rfl

theorem Represents.opEq (hl : Represents els K left l) (hr : Represents els K right r)
    (hels : els.Lawful K) :
    left.opEq P els right = .ok (OrderedSet.equal els.same l r) := by
  unfold ValueSet.opEq OrderedSet.equal
  rw [hl.len, hr.len]
  split_ifs with hlen
  · rw [beq_false_of_ne hlen, Bool.false_and]
  · rw [beq_of_eq (not_ne_iff.mp hlen), Bool.true_and, hl.isSubset hr hels]

theorem mapM_ok {α β : Type} {f : α → Except E β} {g : α → β} {xs : List α}
    (h : ∀ x ∈ xs, f x = .ok (g x)) : xs.mapM f = .ok (xs.map g) := by
  induction xs with
  | nil => rfl
  | cons x xs ih =>
    rw [List.mapM_cons, h x List.mem_cons_self, ih fun y hy => h y (List.mem_cons_of_mem x hy)]
    rfl

/-- Sorting forgets the order. -/
theorem sortDigests_perm {xs ys : List Hash} (h : xs.Perm ys) : sortDigests xs = sortDigests ys := by
  unfold sortDigests
  have hxs := List.perm_insertionSort (fun a b : Hash => a.toNat ≤ b.toNat) xs
  have hys := List.perm_insertionSort (fun a b : Hash => a.toNat ≤ b.toNat) ys
  have htotal : Std.Total fun a b : Hash => a.toNat ≤ b.toNat := ⟨fun _ _ => Nat.le_total _ _⟩
  have htrans : IsTrans Hash fun a b => a.toNat ≤ b.toNat := ⟨fun _ _ _ => Nat.le_trans⟩
  refine ((hxs.trans h).trans hys.symm).eq_of_pairwise (fun a b _ _ hab hba => ?_)
    (List.pairwise_insertionSort _ xs) (List.pairwise_insertionSort _ ys)
  exact BitVec.eq_of_toNat_eq (Nat.le_antisymm hab hba)

/-- The digests of the elements are those that the members were put in under. -/
theorem Represents.digests (h : Represents els K s l) :
    Elems.digests els l = .ok (sortDigests (s.entries.map Prod.snd)) := by
  unfold Elems.digests
  rw [← h.values, List.mapM_map, mapM_ok (f := els.hash ∘ Prod.fst) h.hashed]
  rfl

theorem Represents.opHash (h : Represents els K s l) : s.opHash els = Elems.digests els l := by
  have hperm := h.stored_perm.map Prod.snd
  rw [List.map_map] at hperm
  rw [h.digests, ← sortDigests_perm hperm]
  unfold ValueSet.opHash
  rw [mapM_ok fun m hm => (h.stored hm).2]
  rfl

/-- Sets that are equal have the same hash. -/
theorem Represents.opHash_eq (hl : Represents els K left l) (hr : Represents els K right r)
    (hels : els.Lawful K) (h : OrderedSet.equal els.same l r = true) :
    left.opHash els = right.opHash els := by
  rw [hl.opHash, hr.opHash, hl.digests, hr.digests]
  have hhashes : ∀ {s l}, Represents els K s l →
      l.map els.hash = (s.entries.map Prod.snd).map Except.ok := by
    intro s l h
    rw [← h.values, List.map_map, List.map_map]
    exact List.map_congr_left h.hashed
  have hperm := OrderedSet.map_perm (f := els.hash) hels.sets hels.hash_eq hl.distinct hr.distinct h
  rw [hhashes hl, hhashes hr, List.map_perm_map_iff fun _ _ => Except.ok.inj] at hperm
  exact congrArg Except.ok (sortDigests_perm hperm)

/-! ### Requests -/

/-- Two steps that succeed with the same answer and go to related states. -/
def Alike {S T A : Type} (R : S → T → Prop) (x : Except E (S × A)) (y : Except E (T × A)) : Prop :=
  ∃ s t a, x = .ok (s, a) ∧ y = .ok (t, a) ∧ R s t

section Heap

variable {S T : Type} {R : S → T → Prop} {sets : List S} {lists : List T}

/-- A number names a state in both or in neither. -/
theorem getElem?_alike (h : List.Forall₂ R sets lists) (i : ℕ) :
    (sets[i]? = none ∧ lists[i]? = none) ∨
      ∃ s t, sets[i]? = some s ∧ lists[i]? = some t ∧ R s t := by
  induction h generalizing i with
  | nil => exact .inl ⟨rfl, rfl⟩
  | @cons s t sets lists hst _ ih =>
    cases i with
    | zero => exact .inr ⟨s, t, rfl, rfl, hst⟩
    | succ i => exact ih i

theorem set_alike (h : List.Forall₂ R sets lists) (i : ℕ) {s : S} {t : T} (hst : R s t) :
    List.Forall₂ R (sets.set i s) (lists.set i t) := by
  induction h generalizing i with
  | nil => exact .nil
  | cons hhead htail ih =>
    cases i with
    | zero => exact .cons hst htail
    | succ i => exact .cons hhead (ih i)

theorem changeSet_alike (h : List.Forall₂ R sets lists) (i : ℕ)
    {f : S → Except E (S × SetAnswer)} {g : T → Except E (T × SetAnswer)}
    (hf : ∀ s t, R s t → Alike R (f s) (g t)) :
    Alike (List.Forall₂ R) (changeSet sets i f) (changeSet lists i g) := by
  unfold changeSet
  obtain ⟨hs, ht⟩ | ⟨s, t, hs, ht, hst⟩ := getElem?_alike h i
  · rw [hs, ht]
    exact ⟨sets, lists, .done, rfl, rfl, h⟩
  · obtain ⟨s', t', a, hfs, hgt, hst'⟩ := hf s t hst
    rw [hs, ht]
    dsimp only
    rw [hfs, hgt]
    exact ⟨_, _, a, rfl, rfl, set_alike h i hst'⟩

theorem readSet_alike (h : List.Forall₂ R sets lists) (i : ℕ) {f : S → Except E SetAnswer}
    {g : T → Except E SetAnswer} (hf : ∀ s t, R s t → ∃ a, f s = .ok a ∧ g t = .ok a) :
    Alike (List.Forall₂ R) (readSet sets i f) (readSet lists i g) := by
  unfold readSet
  obtain ⟨hs, ht⟩ | ⟨s, t, hs, ht, hst⟩ := getElem?_alike h i
  · rw [hs, ht]
    exact ⟨sets, lists, .done, rfl, rfl, h⟩
  · obtain ⟨a, hfs, hgt⟩ := hf s t hst
    rw [hs, ht]
    dsimp only
    rw [hfs, hgt]
    exact ⟨sets, lists, a, rfl, rfl, h⟩

theorem copySet_alike (h : List.Forall₂ R sets lists) (i : ℕ) {f : S → Except E S}
    {g : T → Except E T}
    (hf : ∀ s t, R s t → ∃ s' t', f s = .ok s' ∧ g t = .ok t' ∧ R s' t') :
    Alike (List.Forall₂ R) (copySet sets i f) (copySet lists i g) := by
  unfold copySet
  obtain ⟨hs, ht⟩ | ⟨s, t, hs, ht, hst⟩ := getElem?_alike h i
  · rw [hs, ht]
    exact ⟨sets, lists, .done, rfl, rfl, h⟩
  · obtain ⟨s', t', hfs, hgt, hst'⟩ := hf s t hst
    rw [hs, ht]
    dsimp only
    rw [hfs, hgt]
    exact ⟨_, _, .done, rfl, rfl, List.rel_append h (.cons hst' .nil)⟩

theorem makeSet_alike (h : List.Forall₂ R sets lists) (i j : ℕ) {f : S → S → Except E S}
    {g : T → T → Except E T}
    (hf : ∀ l l' r r', R l l' → R r r' → ∃ s t, f l r = .ok s ∧ g l' r' = .ok t ∧ R s t) :
    Alike (List.Forall₂ R) (makeSet sets i j f) (makeSet lists i j g) := by
  refine copySet_alike h i fun l l' hl => ?_
  obtain ⟨hs, ht⟩ | ⟨r, r', hs, ht, hr⟩ := getElem?_alike h j
  · rw [hs, ht]
    exact ⟨l, l', rfl, rfl, hl⟩
  · rw [hs, ht]
    exact hf l l' r r' hl hr

theorem compareSets_alike (h : List.Forall₂ R sets lists) (i j : ℕ) {f : S → S → Except E Bool}
    {g : T → T → Except E Bool}
    (hf : ∀ l l' r r', R l l' → R r r' → ∃ b, f l r = .ok b ∧ g l' r' = .ok b) :
    Alike (List.Forall₂ R) (compareSets sets i j f) (compareSets lists i j g) := by
  refine readSet_alike h i fun l l' hl => ?_
  obtain ⟨hs, ht⟩ | ⟨r, r', hs, ht, hr⟩ := getElem?_alike h j
  · rw [hs, ht]
    exact ⟨.done, rfl, rfl⟩
  · obtain ⟨b, hfb, hgb⟩ := hf l l' r r' hl hr
    rw [hs, ht]
    dsimp only
    rw [hfb, hgb]
    exact ⟨.flag b, rfl, rfl⟩

end Heap

/-- Some sets and the lists that they stand for do the same at a request. -/
theorem request_alike {sets : List (ValueSet V)} {lists : List (List V)}
    (h : List.Forall₂ (Represents els K) sets lists) (hels : els.Lawful K) {q : SetRequest V}
    (hq : ∀ value, q.value? = some value → K value) :
    Alike (List.Forall₂ (Represents els K)) (request P els sets q) (Elems.request els lists q) := by
  cases q with
  | make => exact ⟨_, _, .done, rfl, rfl, List.rel_append h (.cons represents_new .nil)⟩
  | add i value =>
    obtain ⟨hv, hhash⟩ := hels.hash (hq value rfl)
    refine changeSet_alike h i fun s l hs => ?_
    obtain ⟨s', hi, hs'⟩ := hs.insert (P := P) hels (hq value rfl) hhash
    refine ⟨s', _, .done, ?_, rfl, hs'⟩
    rw [hhash]
    change ((s.insert P els.eq value hv) >>= _) = _
    rw [hi]
    rfl
  | delete i value =>
    obtain ⟨hv, hhash⟩ := hels.hash (hq value rfl)
    refine changeSet_alike h i fun s l hs => ?_
    obtain ⟨s', hi, hs'⟩ := hs.delete (P := P) hels (hq value rfl) hhash
    refine ⟨s', _, _, ?_, rfl, hs'⟩
    rw [hhash]
    change (s.delete P els.eq value hv).map _ = _
    rw [hi]
    rfl
  | clear i =>
    exact changeSet_alike h i fun s l hs => ⟨s.clear, [], .done, rfl, rfl, hs.clear⟩
  | copy i =>
    exact copySet_alike h i fun s l hs => ⟨_, l, rfl, rfl, hs.cloned hels⟩
  | contains i value =>
    obtain ⟨hv, hhash⟩ := hels.hash (hq value rfl)
    refine readSet_alike h i fun s l hs => ⟨_, ?_, rfl⟩
    rw [hhash]
    change (s.contains P els value hv).map _ = _
    rw [hs.contains hels (hq value rfl) hhash]
    rfl
  | len i => exact readSet_alike h i fun s l hs => ⟨_, by rw [hs.len], rfl⟩
  | union i j =>
    refine makeSet_alike h i j fun l l' r r' hl hr => ?_
    obtain ⟨s', hs', hu⟩ := hl.union (P := P) hr hels
    exact ⟨s', _, hs', rfl, hu⟩
  | intersect i j =>
    refine makeSet_alike h i j fun l l' r r' hl hr => ?_
    obtain ⟨s', hs', hu⟩ := hl.intersect (P := P) hr hels
    exact ⟨s', _, hs', rfl, hu⟩
  | diff i j =>
    refine makeSet_alike h i j fun l l' r r' hl hr => ?_
    obtain ⟨s', hs', hu⟩ := hl.diff (P := P) hr hels
    exact ⟨s', _, hs', rfl, hu⟩
  | symDiff i j =>
    refine makeSet_alike h i j fun l l' r r' hl hr => ?_
    obtain ⟨s', hs', hu⟩ := hl.symDiff (P := P) hr hels
    exact ⟨s', _, hs', rfl, hu⟩
  | isSubset i j =>
    exact compareSets_alike h i j fun l l' r r' hl hr => ⟨_, hl.isSubset hr hels, rfl⟩
  | isSuperset i j =>
    exact compareSets_alike h i j fun l l' r r' hl hr => ⟨_, hr.isSubset hl hels, rfl⟩
  | equal i j =>
    exact compareSets_alike h i j fun l l' r r' hl hr => ⟨_, hl.opEq hr hels, rfl⟩
  | hash i =>
    refine readSet_alike h i fun s l hs =>
      ⟨.digests (sortDigests (s.entries.map Prod.snd)), ?_, ?_⟩
    · rw [hs.opHash, hs.digests]
      rfl
    · rw [hs.digests]
      rfl

theorem serve_alike {sets : List (ValueSet V)} {lists : List (List V)}
    (h : List.Forall₂ (Represents els K) sets lists) (hels : els.Lawful K) {q : SetRequest V}
    (hq : ∀ value, q.value? = some value → K value) :
    (serve P els sets q).2 = (Elems.serve els lists q).2 ∧
      List.Forall₂ (Represents els K) (serve P els sets q).1 (Elems.serve els lists q).1 := by
  obtain ⟨sets', lists', a, hs, hl, h'⟩ := request_alike (P := P) h hels hq
  unfold ValueSet.serve Elems.serve
  rw [hs, hl]
  exact ⟨rfl, h'⟩

/-- Over every list of requests. -/
theorem answers_alike (P : Probing (Member V) E Member.hash) (hels : els.Lawful K)
    {requests : List (SetRequest V)}
    (hvalues : ∀ q ∈ requests, ∀ value, q.value? = some value → K value) :
    (Service.answers (serve P els) [] requests).1 =
        (Service.answers (Elems.serve els) [] requests).1 ∧
      List.Forall₂ (Represents els K) (Service.answers (serve P els) [] requests).2
        (Service.answers (Elems.serve els) [] requests).2 :=
  Service.answers_eq (fun _ _ _ h hq => serve_alike h hels hq) .nil hvalues

/-- Over every list of requests to any number of sets, the answers are those that lists without
repetitions give, in whatever way the tables probe. Each set then stands for its list, in the same
order, and its order and its table name each other. -/
theorem refines_lists (P : Probing (Member V) E Member.hash) (hels : els.Lawful K)
    (requests : List (SetRequest V))
    (hvalues : ∀ q ∈ requests, ∀ value, q.value? = some value → K value) :
    (Service.answers (serve P els) [] requests).1 =
        (Service.answers (Elems.serve els) [] requests).1 ∧
      List.Forall₂ (fun s l => s.entries.map Prod.fst = l ∧ s.WellFormed ∧ s.inner.len = l.length)
        (Service.answers (serve P els) [] requests).2
        (Service.answers (Elems.serve els) [] requests).2 := by
  obtain ⟨hanswers, hlast⟩ := answers_alike P hels hvalues
  exact ⟨hanswers, hlast.imp fun _ _ h => ⟨h.values, h.wellFormed, h.len⟩⟩

/-- Odd and even numbers that collide: the right set keeps what the left one has not, and sets with
the same elements in another order are equal and have one hash. -/
theorem refines_lists_parities :
    (Service.answers (serve (.linear Member.hash) Dict.parities) []
      [.make, .add 0 1, .add 0 2, .add 0 3, .make, .add 1 3, .add 1 5, .symDiff 0 1, .len 2, .make,
        .add 3 5, .add 3 2, .add 3 1, .equal 2 3, .delete 3 1, .isSubset 3 2, .isSuperset 3 2,
        .hash 3]).1 =
      [.ok .done, .ok .done, .ok .done, .ok .done, .ok .done, .ok .done, .ok .done, .ok .done,
        .ok (.number 3), .ok .done, .ok .done, .ok .done, .ok .done, .ok (.flag true),
        .ok (.flag true), .ok (.flag true), .ok (.flag false), .ok (.digests [0, 1])] :=
  (refines_lists (.linear Member.hash) Dict.lawful_parities _ fun _ _ _ _ => trivial).1.trans
    (by decide +kernel)

/-- A set in one place of the heap stands for a list. -/
theorem exists_represents {sets : List (ValueSet V)} {lists : List (List V)}
    (h : List.Forall₂ (Represents els K) sets lists) {i : ℕ} (hi : sets[i]? = some s) :
    ∃ l, Represents els K s l := by
  obtain ⟨hs, -⟩ | ⟨s', l, hs, -, hl⟩ := getElem?_alike h i
  · rw [hs] at hi
    cases hi
  · rw [hs] at hi
    exact ⟨l, Option.some.inj hi ▸ hl⟩

/-- Whatever requests have made two sets, they are equal when they answer alike for every value, in
either order, and then they have the same hash. -/
theorem equal_iff_contains (P : Probing (Member V) E Member.hash) (hels : els.Lawful K)
    (requests : List (SetRequest V))
    (hvalues : ∀ q ∈ requests, ∀ value, q.value? = some value → K value) {i j : ℕ}
    (hi : (Service.answers (serve P els) [] requests).2[i]? = some left)
    (hj : (Service.answers (serve P els) [] requests).2[j]? = some right) :
    ∃ equal, left.opEq P els right = .ok equal ∧ right.opEq P els left = .ok equal ∧
      (equal = true ↔ ∀ value hash, K value → els.hash value = .ok hash →
        left.contains P els value hash = right.contains P els value hash) ∧
      (equal = true → left.opHash els = right.opHash els) := by
  have hlast := (answers_alike P hels hvalues).2
  obtain ⟨l, hl⟩ := exists_represents hlast hi
  obtain ⟨r, hr⟩ := exists_represents hlast hj
  have hlr := OrderedSet.equal_iff hels.sets hl.distinct hr.distinct
  have hrl := OrderedSet.equal_iff hels.sets hr.distinct hl.distinct
  have hsymm : OrderedSet.equal els.same r l = OrderedSet.equal els.same l r := by
    rw [Bool.eq_iff_iff, hlr, hrl]
    exact forall₂_congr fun _ _ => eq_comm
  refine ⟨_, hl.opEq hr hels, hsymm ▸ hr.opEq hl hels, hlr.trans ?_, hl.opHash_eq hr hels⟩
  constructor
  · intro h value hash hvalue hhash
    rw [hl.contains hels hvalue hhash, hr.contains hels hvalue hhash, h value hvalue]
  · intro h value hvalue
    obtain ⟨hash, hhash⟩ := hels.hash hvalue
    have hsame := h value hash hvalue hhash
    rw [hl.contains hels hvalue hhash, hr.contains hels hvalue hhash] at hsame
    exact Except.ok.inj hsame

/-- Two sets with the same elements, put in in another order. -/
theorem equal_iff_contains_parities :
    ∃ left right : ValueSet ℕ, left.opEq (.linear Member.hash) Dict.parities right = .ok true ∧
      left.opHash Dict.parities = right.opHash Dict.parities := by
  obtain ⟨equal, heq, -, -, hhash⟩ := equal_iff_contains (.linear Member.hash)
    Dict.lawful_parities [.make, .add 0 1, .add 0 2, .make, .add 1 2, .add 1 1]
    (fun _ _ _ _ => trivial) (i := 0) (j := 1) rfl rfl
  have hequal : equal = true := Except.ok.inj (heq.symm.trans (by decide +kernel))
  rw [hequal] at heq
  exact ⟨_, _, heq, hhash hequal⟩

end Dolang.Object.ValueSet
