import Dolang.Object.SetRequests

/-!
# Sets refine lists without repetitions

A set stands for the list of its members in the order of insertion (`ValueSet.Represents`). Each
change of the set is the change of the list, whatever the order and the table go through meanwhile:
holes that are dropped, members that are given new places and moves to a new table.
-/

namespace Dolang.Object

variable {V E : Type}

/-- Elements that compare lawfully do so for sets. -/
theorem Elements.Lawful.sets {els : Elements V E} {K : V → Prop} (hels : els.Lawful K) :
    OrderedSet.Lawful els.same K where
  refl := hels.refl
  symm := hels.symm
  trans := hels.trans

namespace ValueSet

variable {s s' : ValueSet V} {l : List V} {inner : RawTable (Member V)}
  {order : List (Option Bucket)} {P : Probing (Member V) E Member.hash} {els : Elements V E}
  {K : V → Prop} {value : V} {hv : Hash}

/-! ### Entries -/

/-- What a member is apart from its place. -/
def face (m : Member V) : V × Hash :=
  (m.value, m.hash)

/-- The members of an order. -/
def entriesOf (inner : RawTable (Member V)) (order : List (Option Bucket)) : List (V × Hash) :=
  order.reduceOption.filterMap fun b => (inner.read b).map face

/-- A member is in the order when it is in the table. -/
theorem Ordered.mem_order (h : Ordered inner order) {b : Bucket} :
    b ∈ order.reduceOption ↔ ∃ m, inner.read b = some m := by
  rw [List.reduceOption_mem_iff, List.mem_iff_getElem?]
  constructor
  · rintro ⟨i, hi⟩
    obtain ⟨m, hm, -⟩ := (h i b).mp hi
    exact ⟨m, hm⟩
  · rintro ⟨m, hm⟩
    exact ⟨m.index, (h m.index b).mpr ⟨m, hm, rfl⟩⟩

theorem Ordered.mem_entriesOf (h : Ordered inner order) {x : V × Hash} :
    x ∈ entriesOf inner order ↔ ∃ b m, inner.read b = some m ∧ face m = x := by
  unfold entriesOf
  rw [List.mem_filterMap]
  constructor
  · rintro ⟨b, -, hx⟩
    obtain ⟨m, hm, rfl⟩ := Option.map_eq_some_iff.mp hx
    exact ⟨b, m, hm, rfl⟩
  · rintro ⟨b, m, hm, rfl⟩
    exact ⟨b, h.mem_order.mpr ⟨m, hm⟩, by rw [hm]; rfl⟩

theorem entriesOf_append (inner : RawTable (Member V)) (order : List (Option Bucket)) (b : Bucket) :
    entriesOf inner (order ++ [some b]) =
      entriesOf inner order ++ ((inner.read b).map face).toList := by
  unfold entriesOf
  rw [List.reduceOption_append, List.filterMap_append]
  refine congrArg _ ?_
  change List.filterMap _ [b] = _
  cases hb : (inner.read b).map face with
  | none => rw [List.filterMap_cons_none (f := fun b => (inner.read b).map face) hb]; rfl
  | some x => rw [List.filterMap_cons_some (f := fun b => (inner.read b).map face) hb]; rfl

/-- A new member comes last. -/
theorem Ordered.entriesOf_insertAt (h : Ordered inner order) {slot : ℕ}
    (hslot : inner.Vacant slot) (m : Member V) :
    entriesOf (inner.insertAt slot m) (order ++ [some (inner.bucket slot)]) =
      entriesOf inner order ++ [face m] := by
  rw [entriesOf_append, RawTable.read_insertAt hslot, if_pos rfl]
  refine congrArg (· ++ _) (List.filterMap_congr fun b hb => ?_)
  obtain ⟨n, hn⟩ := h.mem_order.mp hb
  rw [RawTable.read_insertAt hslot, if_neg]
  rintro rfl
  rw [hslot.read_eq_none] at hn
  cases hn

theorem entries_compact (h : s.WellFormed) : s.compact.entries = s.entries := by
  unfold compact
  split_ifs
  · have hkeep : (s.order.reduceOption.map some).reduceOption = s.order.reduceOption := by
      rw [Holes.reduceOption_map_some, List.map_id']
    change entriesOf (renumber _ 0 s.inner) (s.order.reduceOption.map some) =
      entriesOf s.inner s.order
    unfold entriesOf
    rw [hkeep]
    refine List.filterMap_congr fun b _ => ?_
    rw [read_renumber h.nodup, Option.map_map]
    rfl
  · rfl

/-- While members move, those that have been moved are those of the new table. -/
theorem entries_foldl {capacity n : ℕ} (hcap : n ≤ capacity) (buckets : List Bucket)
    (hnodup : buckets.Nodup) (r : RawTable (Member V) × RawTable (Member V) × List (Option Bucket))
    (h : Ordered r.2.1 r.2.2) (hgrowth : capacity + r.1.len ≤ r.2.1.growthLeft + n) :
    entriesOf (buckets.foldl (move P) r).2.1 (buckets.foldl (move P) r).2.2 =
      entriesOf r.2.1 r.2.2 ++ buckets.filterMap fun b => (r.1.read b).map face := by
  induction buckets generalizing r with
  | nil => exact (List.append_nil _).symm
  | cons b buckets ih =>
    obtain ⟨hb, hnodup⟩ := List.nodup_cons.mp hnodup
    rw [List.foldl_cons]
    obtain ⟨old, inner, order⟩ := r
    dsimp only at h hgrowth ⊢
    cases hm : old.read b with
    | none =>
      have hmove : move P (old, inner, order) b = (old, inner, order) := by
        rw [move]
        dsimp only
        rw [hm]
      rw [hmove, ih hnodup _ h hgrowth, List.filterMap_cons_none (by rw [hm]; rfl)]
    | some m =>
      have hmove : move P (old, inner, order) b =
          (old.remove b (P.frees old b),
            inner.insertAt (P.place inner m.hash) { m with index := order.length },
            order ++ [some (inner.bucket (P.place inner m.hash))]) := by
        rw [move]
        dsimp only
        rw [hm]
      have hlen : (old.remove b (P.frees old b)).len + 1 = old.len := RawTable.len_remove hm
      have hleft := RawTable.growthLeft_insertAt (t := inner) (i := P.place inner m.hash)
        (x := { m with index := order.length })
      have hslot : inner.Vacant (P.place inner m.hash) := P.vacant (by omega)
      rw [hmove, ih hnodup _ (h.insertAt hslot m.value m.hash) (by dsimp only; omega)]
      dsimp only
      rw [h.entriesOf_insertAt hslot, List.filterMap_cons_some (by rw [hm]; rfl), List.append_assoc]
      refine congrArg (_ ++ ·) (congrArg (_ :: ·) (List.filterMap_congr fun c hc => ?_))
      rw [RawTable.read_remove, if_neg]
      rintro rfl
      exact hb hc

theorem entries_reserve (h : s.WellFormed) : (s.reserve P).entries = s.entries := by
  unfold reserve
  split_ifs with hfull
  · have hcap : s.inner.len ≤ max 1 (s.inner.capacity * 2) := by omega
    have hempty : Ordered (.withCapacity (s.inner.allocation + 1) (max 1 (s.inner.capacity * 2)) :
        RawTable (Member V)) [] := by
      intro i b
      simp
    exact entries_foldl (P := P) hcap s.order.reduceOption h.nodup
      (s.inner, .withCapacity (s.inner.allocation + 1) (max 1 (s.inner.capacity * 2)), []) hempty
      (Nat.add_le_add_right (le_capacity _) _)
  · rfl

theorem entries_insertAtIndex (h : s.WellFormed) {slot : ℕ} (hslot : s.inner.Vacant slot)
    (hash : Hash) (value : V) :
    (s.insertAtIndex hash slot value).entries = s.entries ++ [(value, hash)] := by
  have hcompact : Ordered s.compact.inner s.compact.order := h.compact
  have hvacant : s.compact.inner.Vacant slot := by
    unfold ValueSet.compact
    split_ifs
    · exact vacant_renumber _ hslot 0
    · exact hslot
  rw [← entries_compact h]
  exact hcompact.entriesOf_insertAt hvacant _

/-- A member that is taken out. -/
theorem Ordered.entriesOf_remove (h : Ordered inner order) {b : Bucket} {m : Member V}
    (hm : inner.read b = some m) (frees : Bool) :
    entriesOf (inner.remove b frees) (order.set m.index none) =
      (order.reduceOption.filter (· ≠ b)).filterMap fun c => (inner.read c).map face := by
  have hb := (h m.index b).mpr ⟨m, hm, rfl⟩
  obtain ⟨hlt, hget⟩ := List.getElem?_eq_some_iff.mp hb
  -- The order has the bucket in one place only.
  have hsplit : order = order.take m.index ++ some b :: order.drop (m.index + 1) := by
    rw [← hget, List.getElem_cons_drop, List.take_append_drop]
  have hset : order.set m.index none =
      order.take m.index ++ none :: order.drop (m.index + 1) := List.set_eq_take_append_cons_drop ..
    |>.trans (by rw [if_pos hlt])
  have hnodup := h.nodup
  rw [hsplit, List.reduceOption_append, List.reduceOption_cons_of_some] at hnodup
  have hout : (order.set m.index none).reduceOption = order.reduceOption.filter (· ≠ b) := by
    rw [hset, List.reduceOption_append, List.reduceOption_cons_of_none]
    conv_rhs => rw [hsplit, List.reduceOption_append, List.reduceOption_cons_of_some]
    obtain ⟨-, hcons, hapart⟩ := List.nodup_append.mp hnodup
    obtain ⟨hafter, -⟩ := List.nodup_cons.mp hcons
    rw [List.filter_append, List.filter_cons_of_neg (by simp)]
    congr 1
    · refine (List.filter_eq_self.mpr fun c hc => decide_eq_true ?_).symm
      exact hapart c hc b List.mem_cons_self
    · refine (List.filter_eq_self.mpr fun c hc => decide_eq_true ?_).symm
      rintro rfl
      exact hafter hc
  unfold entriesOf
  rw [hout]
  refine List.filterMap_congr fun c hc => ?_
  rw [RawTable.read_remove, if_neg]
  exact fun hbc => of_decide_eq_true (List.mem_filter.mp hc).2 hbc.symm

/-! ### One set -/

/-- A set stands for a list without repetitions. -/
structure Represents (els : Elements V E) (K : V → Prop) (s : ValueSet V) (l : List V) : Prop where
  wellFormed : s.WellFormed
  values : s.entries.map Prod.fst = l
  hashed : ∀ x ∈ s.entries, els.hash x.1 = .ok x.2
  distinct : OrderedSet.Distinct els.same K l

theorem represents_new : Represents els K (new : ValueSet V) [] where
  wellFormed := wellFormed_new
  values := rfl
  hashed _ hx := absurd hx List.not_mem_nil
  distinct := OrderedSet.distinct_nil

/-- A member of the table is one of the list. -/
theorem Represents.read (h : Represents els K s l) {b : Bucket} {m : Member V}
    (hm : s.inner.read b = some m) :
    m.value ∈ l ∧ K m.value ∧ els.hash m.value = .ok m.hash := by
  have hentry : face m ∈ s.entries := h.wellFormed.mem_entriesOf.mpr ⟨b, m, hm, rfl⟩
  have hmem : m.value ∈ l := h.values ▸ List.mem_map_of_mem hentry
  exact ⟨hmem, h.distinct.kind _ hmem, h.hashed _ hentry⟩

/-- An element of the list is a member of the table. -/
theorem Represents.exists_read (h : Represents els K s l) (hv : value ∈ l) :
    ∃ b m, s.inner.read b = some m ∧ m.value = value := by
  rw [← h.values] at hv
  obtain ⟨x, hx, rfl⟩ := List.mem_map.mp hv
  obtain ⟨b, m, hm, rfl⟩ := h.wellFormed.mem_entriesOf.mp hx
  exact ⟨b, m, hm, rfl⟩

/-- The lookup of a value finds a member that is the same, if there is one. -/
theorem Represents.find (h : Represents els K s l) (hels : els.Lawful K) (hvalue : K value)
    (hhash : els.hash value = .ok hv) :
    (s.find P els.eq hv value = .ok none ∧ OrderedSet.has els.same l value = false) ∨
      ∃ b m, s.find P els.eq hv value = .ok (some b) ∧ s.inner.read b = some m ∧
        els.same value m.value = true ∧ OrderedSet.has els.same l value = true := by
  cases hf : s.find P els.eq hv value with
  | error _ =>
    obtain ⟨b, m, hm, heq⟩ := P.raised hf
    rw [hels.total hvalue (h.read hm).2.1] at heq
    cases heq
  | ok found =>
    cases found with
    | none =>
      refine .inl ⟨rfl, OrderedSet.has_eq_false_iff.mpr fun w hw => ?_⟩
      obtain ⟨b, m, hm, rfl⟩ := h.exists_read hw
      obtain ⟨-, hK, hhm⟩ := h.read hm
      refine Bool.eq_false_iff.mpr fun hsame => ?_
      -- A member that is the same has the same hash, under which the lookup has found nothing.
      have hhash' := hels.hash_eq hvalue hK hsame
      rw [hhash, hhm] at hhash'
      have hfalse := P.absent hf b m hm (Except.ok.inj hhash').symm
      rw [hels.total hvalue hK, hsame] at hfalse
      cases hfalse
    | some b =>
      obtain ⟨m, hm, heq⟩ := P.found hf
      obtain ⟨hmem, hK, -⟩ := h.read hm
      rw [hels.total hvalue hK] at heq
      have hsame := Except.ok.inj heq
      exact .inr ⟨b, m, rfl, hm, hsame, List.any_eq_true.mpr ⟨m.value, hmem, hsame⟩⟩

theorem Represents.contains (h : Represents els K s l) (hels : els.Lawful K) (hvalue : K value)
    (hhash : els.hash value = .ok hv) :
    s.contains P els value hv = .ok (OrderedSet.has els.same l value) := by
  unfold ValueSet.contains
  obtain ⟨hf, hhas⟩ | ⟨b, m, hf, -, -, hhas⟩ := h.find (P := P) hels hvalue hhash
  · rw [hf, hhas]
    rfl
  · rw [hf, hhas]
    rfl

/-- A value that is not there becomes the last one. -/
theorem Represents.concat (h : Represents els K s l) (hels : els.Lawful K) (hvalue : K value)
    (hhash : els.hash value = .ok hv) (hnone : OrderedSet.has els.same l value = false)
    (hwf : s'.WellFormed) (hentries : s'.entries = s.entries ++ [(value, hv)]) :
    Represents els K s' (l ++ [value]) where
  wellFormed := hwf
  values := by
    rw [hentries, List.map_append, h.values]
    rfl
  hashed x hx := by
    rw [hentries] at hx
    obtain hx | hx := List.mem_append.mp hx
    · exact h.hashed x hx
    · rwa [List.mem_singleton.mp hx]
  distinct := OrderedSet.distinct_concat hels.sets h.distinct hvalue hnone

theorem Represents.insert (h : Represents els K s l) (hels : els.Lawful K) (hvalue : K value)
    (hhash : els.hash value = .ok hv) :
    ∃ s', s.insert P els.eq value hv = .ok (s', !OrderedSet.has els.same l value) ∧
      Represents els K s' (OrderedSet.add els.same l value) := by
  unfold ValueSet.insert OrderedSet.add
  obtain ⟨hf, hhas⟩ | ⟨b, m, hf, -, -, hhas⟩ := h.find (P := P) hels hvalue hhash
  · obtain ⟨hwf, hleft⟩ := h.wellFormed.reserve (P := P)
    have hslot := P.vacant (h := hv) hleft
    rw [hf, hhas, if_neg Bool.false_ne_true]
    refine ⟨_, rfl, h.concat hels hvalue hhash hhas (hwf.insertAtIndex hslot hv value) ?_⟩
    rw [entries_insertAtIndex hwf hslot, entries_reserve h.wellFormed]
  · rw [hf, hhas, if_pos rfl]
    exact ⟨s, rfl, h⟩

/-- A value that is known not to be there. -/
theorem Represents.insertKnownUnique (h : Represents els K s l) (hels : els.Lawful K)
    (hvalue : K value) (hhash : els.hash value = .ok hv)
    (hnone : OrderedSet.has els.same l value = false) :
    Represents els K (s.insertKnownUnique P value hv) (l ++ [value]) := by
  obtain ⟨hwf, hleft⟩ := h.wellFormed.reserve (P := P)
  have hslot := P.vacant (h := hv) hleft
  refine h.concat hels hvalue hhash hnone (Ordered.insertAt hwf hslot value hv) ?_
  rw [← entries_reserve (P := P) h.wellFormed]
  exact Ordered.entriesOf_insertAt hwf hslot _

/-- The members of two buckets are not the same. -/
theorem Represents.unique (h : Represents els K s l) (hels : els.Lawful K) {b c : Bucket}
    {m n : Member V} (hm : s.inner.read b = some m) (hn : s.inner.read c = some n)
    (hsame : els.same m.value n.value = true) : b = c := by
  have hapart : s.order.reduceOption.Pairwise fun b c => ∀ x, (s.inner.read b).map face = some x →
      ∀ y, (s.inner.read c).map face = some y → els.same x.1 y.1 = false := by
    have hl := h.distinct.apart
    rw [← h.values, List.pairwise_map] at hl
    exact List.pairwise_filterMap.mp hl
  by_contra hne
  have hb := h.wellFormed.mem_order.mpr ⟨m, hm⟩
  have hc := h.wellFormed.mem_order.mpr ⟨n, hn⟩
  have hface : (s.inner.read b).map face = some (face m) := by rw [hm]; rfl
  have hface' : (s.inner.read c).map face = some (face n) := by rw [hn]; rfl
  have hsame' := hels.symm (h.read hm).2.1 (h.read hn).2.1 hsame
  -- One of the two comes first in the order.
  obtain ⟨i, hi, rfl⟩ := List.getElem_of_mem hb
  obtain ⟨j, hj, rfl⟩ := List.getElem_of_mem hc
  obtain hij | rfl | hji := Nat.lt_trichotomy i j
  · have hfalse := List.pairwise_iff_getElem.mp hapart i j hi hj hij _ hface _ hface'
    exact absurd hsame (Bool.eq_false_iff.mp hfalse)
  · exact hne rfl
  · have hfalse := List.pairwise_iff_getElem.mp hapart j i hj hi hji _ hface' _ hface
    exact absurd hsame' (Bool.eq_false_iff.mp hfalse)

theorem Represents.delete (h : Represents els K s l) (hels : els.Lawful K) (hvalue : K value)
    (hhash : els.hash value = .ok hv) :
    ∃ s', s.delete P els.eq value hv = .ok (s', OrderedSet.has els.same l value) ∧
      Represents els K s' (OrderedSet.erase els.same l value) := by
  unfold ValueSet.delete
  obtain ⟨hf, hhas⟩ | ⟨b, m, hf, hm, hsame, hhas⟩ := h.find (P := P) hels hvalue hhash
  · have herase : OrderedSet.erase els.same l value = l := by
      refine List.filter_eq_self.mpr fun w hw => ?_
      rw [OrderedSet.has_eq_false_iff.mp hhas w hw]
      rfl
    rw [hf, hhas, herase]
    exact ⟨s, rfl, h⟩
  · rw [hf, hhas]
    simp only [Except.map, Option.bind_some, hm, Option.map_some]
    have hentries : entriesOf (s.inner.remove b (P.frees s.inner b)) (s.order.set m.index none) =
        s.entries.filter fun x => !els.same value x.1 := by
      rw [h.wellFormed.entriesOf_remove hm]
      change _ = List.filter _ (s.order.reduceOption.filterMap fun c => (s.inner.read c).map face)
      rw [List.filter_filterMap, List.filterMap_filter]
      refine List.filterMap_congr fun c hc => ?_
      obtain ⟨n, hn⟩ := h.wellFormed.mem_order.mp hc
      rw [hn, Option.map_some, Option.filter_some]
      -- The members that stay are those that are not the same as the value.
      have hout : c = b ↔ els.same value n.value = true := by
        constructor
        · rintro rfl
          rwa [Option.some.inj (hn.symm.trans hm)]
        · intro hvn
          have hKm := (h.read hm).2.1
          have hmn := hels.trans hKm hvalue (h.read hn).2.1 (hels.symm hvalue hKm hsame) hvn
          exact (h.unique hels hm hn hmn).symm
      cases hvn : els.same value n.value with
      | true => rw [if_neg (by simp [hout.mpr hvn]), if_neg (by simp [face, hvn])]
      | false =>
        have hne : c ≠ b := fun hcb => absurd (hout.mp hcb) (Bool.eq_false_iff.mp hvn)
        rw [if_pos (by simp [hne]), if_pos (by simp [face, hvn])]
    refine ⟨_, rfl, ?_, ?_, ?_, h.distinct.filter _⟩
    · exact Ordered.remove h.wellFormed hm _
    · change (entriesOf _ _).map Prod.fst = _
      rw [hentries, ← h.values, OrderedSet.erase, List.filter_map]
      rfl
    · intro x hx
      change x ∈ entriesOf _ _ at hx
      rw [hentries] at hx
      exact h.hashed x (List.mem_of_mem_filter hx)

theorem Represents.clear (h : Represents els K s l) : Represents els K s.clear [] := by
  unfold ValueSet.clear
  split_ifs with hlen
  · -- A table that is empty has no members, so the list has no elements.
    have hnil : l = [] := List.eq_nil_iff_forall_not_mem.mpr fun v hv => by
      obtain ⟨b, m, hm, -⟩ := h.exists_read hv
      rw [RawTable.len_eq_zero hlen] at hm
      cases hm
    exact hnil ▸ h
  · refine ⟨fun i b => by simp, rfl, fun _ hx => absurd hx List.not_mem_nil, ?_⟩
    exact OrderedSet.distinct_nil

/-- There are as many members as elements of the list. -/
theorem Represents.len (h : Represents els K s l) : s.inner.len = l.length := by
  have hperm : s.inner.iter.Perm s.order.reduceOption :=
    (List.perm_ext_iff_of_nodup RawTable.nodup_iter h.wellFormed.nodup).mpr fun b =>
      RawTable.mem_iter.trans h.wellFormed.mem_order.symm
  have hlive : s.entries.length = s.order.reduceOption.length := by
    refine List.filterMap_length_eq_length.mpr fun b hb => ?_
    obtain ⟨m, hm⟩ := h.wellFormed.mem_order.mp hb
    rw [hm]
    rfl
  rw [← RawTable.length_iter, hperm.length_eq, ← hlive, ← h.values, List.length_map]

end ValueSet

end Dolang.Object
