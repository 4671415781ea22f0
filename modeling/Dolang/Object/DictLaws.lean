import Dolang.Object.DictOrder

/-!
# What equality, order and hash say about the pairs

`op_eq` and `op_lt` compare the numbers of distinct keys where the numbers of pairs would decide.
So they agree with the lists of pairs unless one list goes on where the other one ends and the
numbers of keys do not tell (`laws_iff`). Dictionaries with pairwise equal pairs under the same
hashes have as many distinct keys (`len_eq_of_rows`).
-/

namespace Dolang.Object

variable {V E W : Type}

namespace Dict

/-- Two pairs that `op_eq` takes for the same. -/
def SameRow (eq : V → V → Except E Bool) (x y : Row V) : Prop :=
  x.hash = y.hash ∧ eq x.key y.key = .ok true ∧ eq x.value y.value = .ok true

/-- Two equal pairs. -/
def EqualPair (eq : V → V → Except E Bool) (x y : Row V) : Prop :=
  eq x.key y.key = .ok true ∧ eq x.value y.value = .ok true

/-- The lexicographic order of two lists of pairs. -/
def lexLt (eq lt : V → V → Except E Bool) : List (Row V) → List (Row V) → Except (Fault E) Bool
  | [], [] => .ok false
  | [], _ :: _ => .ok true
  | _ :: _, [] => .ok false
  | x :: l, y :: r => compare eq lt x.key y.key (compare eq lt x.value y.value (lexLt eq lt l r))

section Equality

variable {eq lt : V → V → Except E Bool} {feed : V → Except E W} {l r : List (Row V)}
  {x y : Row V}

theorem SameRow.equalPair (h : SameRow eq x y) : EqualPair eq x y := h.2

theorem SameRow.symm (heq : Equality eq) (h : SameRow eq x y) : SameRow eq y x :=
  ⟨h.1.symm, heq.symm h.2.1, heq.symm h.2.2⟩

theorem EqualPair.refl (heq : Equality eq) (x : Row V) : EqualPair eq x x :=
  ⟨heq.refl _, heq.refl _⟩

theorem EqualPair.symm (heq : Equality eq) (h : EqualPair eq x y) : EqualPair eq y x :=
  ⟨heq.symm h.1, heq.symm h.2⟩

/-- Elements are equal or they are not. -/
theorem eq_cases (heq : Equality eq) (a b : V) : eq a b = .ok true ∨ eq a b = .ok false := by
  obtain ⟨same, hsame⟩ := heq.total a b
  cases same with
  | true => exact .inl hsame
  | false => exact .inr hsame

theorem sameRow_true (h : SameRow eq x y) : sameRow eq x y = .ok true := by
  obtain ⟨hhash, hkey, hvalue⟩ := h
  rw [sameRow, if_neg (not_not.mpr hhash), hkey]
  exact hvalue

theorem sameRow_false (heq : Equality eq) (h : ¬SameRow eq x y) : sameRow eq x y = .ok false := by
  unfold sameRow
  split_ifs with hhash
  · rfl
  · obtain hkey | hkey := eq_cases heq x.key y.key
    · obtain hvalue | hvalue := eq_cases heq x.value y.value
      · exact absurd ⟨not_not.mp hhash, hkey, hvalue⟩ h
      · rw [hkey]
        exact hvalue
    · rw [hkey]
      rfl

/-- The walk of `op_eq` ends without a difference when the left pairs are a prefix of the right
ones. -/
theorem eqRows_true (h : PrefixBy (SameRow eq) l r) : eqRows eq l r = .ok true := by
  induction l generalizing r with
  | nil => rfl
  | cons x l ih =>
    cases r with
    | nil => exact h.elim
    | cons y r =>
      rw [eqRows, sameRow_true h.1]
      exact ih h.2

/-- It reads past the end of the right index when the right pairs are a proper prefix of the left
ones. -/
theorem eqRows_undefined (heq : Equality eq) (h : ProperPrefixBy (SameRow eq) r l) :
    eqRows eq l r = .error .undefined := by
  obtain ⟨hstart, hlen⟩ := h
  induction l generalizing r with
  | nil => exact absurd hlen (Nat.not_lt_zero _)
  | cons x l ih =>
    cases r with
    | nil => rfl
    | cons y r =>
      rw [eqRows, sameRow_true (hstart.1.symm heq)]
      exact ih hstart.2 (Nat.lt_of_succ_lt_succ hlen)

/-- Otherwise it finds a difference. -/
theorem eqRows_false (heq : Equality eq) (hl : ¬PrefixBy (SameRow eq) l r)
    (hr : ¬PrefixBy (SameRow eq) r l) : eqRows eq l r = .ok false := by
  induction l generalizing r with
  | nil => exact absurd trivial hl
  | cons x l ih =>
    cases r with
    | nil => exact absurd trivial hr
    | cons y r =>
      rw [eqRows]
      by_cases hxy : SameRow eq x y
      · rw [sameRow_true hxy]
        exact ih (fun h => hl ⟨hxy, h⟩) fun h => hr ⟨hxy.symm heq, h⟩
      · rw [sameRow_false heq hxy]
        rfl

/-- Pairwise equal pairs under the same hashes feed a hasher the same. -/
theorem hashRows_eq (hfeed : ∀ a b, eq a b = .ok true → feed a = feed b)
    (h : List.Forall₂ (SameRow eq) l r) : hashRows feed l = hashRows feed r := by
  induction h with
  | nil => rfl
  | cons hxy _ ih => rw [hashRows, hashRows, hxy.1, hfeed _ _ hxy.2.2, ih]

/-- Where one list goes on after the other one has ended without a difference, `last` decides. -/
theorem ltRows_of_start (heq : Equality eq) {last : Bool}
    (h : PrefixBy (EqualPair eq) l r ∨ PrefixBy (EqualPair eq) r l) :
    ltRows eq lt last l r = .ok last := by
  induction l generalizing r with
  | nil => rfl
  | cons x l ih =>
    cases r with
    | nil => rfl
    | cons y r =>
      have hxy : EqualPair eq x y := by
        obtain h | h := h
        · exact h.1
        · exact h.1.symm heq
      rw [ltRows, compare, hxy.1]
      change compare eq lt x.value y.value _ = _
      rw [compare, hxy.2]
      exact ih (h.imp And.right And.right)

/-- Where there is a difference, `last` does not matter. -/
theorem ltRows_congr (heq : Equality eq) {a b : Bool} (hl : ¬PrefixBy (EqualPair eq) l r)
    (hr : ¬PrefixBy (EqualPair eq) r l) : ltRows eq lt a l r = ltRows eq lt b l r := by
  induction l generalizing r with
  | nil => exact absurd trivial hl
  | cons x l ih =>
    cases r with
    | nil => exact absurd trivial hr
    | cons y r =>
      rw [ltRows, ltRows, compare, compare, compare, compare]
      obtain hkey | hkey := eq_cases heq x.key y.key
      · obtain hvalue | hvalue := eq_cases heq x.value y.value
        · rw [ih (fun h => hl ⟨⟨hkey, hvalue⟩, h⟩)
            fun h => hr ⟨⟨heq.symm hkey, heq.symm hvalue⟩, h⟩]
        · rw [hvalue]
          rfl
      · rw [hkey]
        rfl

/-- The lexicographic order is the walk with the lengths of the lists for `last`. -/
theorem lexLt_eq : lexLt eq lt l r = ltRows eq lt (decide (l.length < r.length)) l r := by
  induction l generalizing r with
  | nil =>
    cases r with
    | nil => rfl
    | cons y r => simp [lexLt, ltRows]
  | cons x l ih =>
    cases r with
    | nil => simp [lexLt, ltRows]
    | cons y r =>
      have hlen : decide ((x :: l).length < (y :: r).length) = decide (l.length < r.length) := by
        simp
      rw [lexLt, ltRows, ih, hlen]

/-- Of two walks in opposite directions both can only be true where `last` is. -/
theorem ltRows_asymm (heq : Equality eq) (hlt : ∀ a b, lt a b = .ok true → lt b a ≠ .ok true)
    {a b : Bool} (hl : ltRows eq lt a l r = .ok true) (hr : ltRows eq lt b r l = .ok true) :
    a = true ∧ b = true := by
  have hdiffer : ∀ {v w : V} {m n : Except (Fault E) Bool}, eq v w = .ok false →
      compare eq lt v w m = .ok true → compare eq lt w v n ≠ .ok true := by
    intro v w m n hvw hm hn
    have hwv : eq w v = .ok false :=
      (eq_cases heq w v).resolve_left fun h => by simp [heq.symm h] at hvw
    rw [compare, hvw] at hm
    rw [compare, hwv] at hn
    have hlift : ∀ {o : Except E Bool}, (lift o : Except (Fault E) Bool) = .ok true →
        o = .ok true := by
      intro o ho
      cases o with
      | ok s => exact congrArg _ (Except.ok.inj ho)
      | error e => cases ho
    exact hlt v w (hlift hm) (hlift hn)
  induction l generalizing r with
  | nil =>
    cases r with
    | nil => exact ⟨Except.ok.inj hl, Except.ok.inj hr⟩
    | cons y r => exact ⟨Except.ok.inj hl, Except.ok.inj hr⟩
  | cons x l ih =>
    cases r with
    | nil => exact ⟨Except.ok.inj hl, Except.ok.inj hr⟩
    | cons y r =>
      rw [ltRows] at hl hr
      obtain hkey | hkey := eq_cases heq x.key y.key
      · obtain hvalue | hvalue := eq_cases heq x.value y.value
        · rw [compare, hkey] at hl
          rw [compare, heq.symm hkey] at hr
          change compare eq lt x.value y.value _ = _ at hl
          change compare eq lt y.value x.value _ = _ at hr
          rw [compare, hvalue] at hl
          rw [compare, heq.symm hvalue] at hr
          exact ih hl hr
        · rw [compare, hkey] at hl
          rw [compare, heq.symm hkey] at hr
          exact absurd hr (hdiffer hvalue hl)
      · exact absurd hr (hdiffer hkey hl)

end Equality

/-! ## The number of distinct keys -/

section Keys

variable {eq : V → V → Except E Bool}

/-- Equal keys under the same hash. -/
def keySetoid (heq : Equality eq) : Setoid (Hash × V) where
  r x y := x.1 = y.1 ∧ eq x.2 y.2 = .ok true
  iseqv :=
    { refl := fun x => ⟨rfl, heq.refl x.2⟩
      symm := fun h => ⟨h.1.symm, heq.symm h.2⟩
      trans := fun h k => ⟨h.1.trans k.1, heq.trans h.2 k.2⟩ }

/-- The key of a pair, up to equality. -/
def keyOf (heq : Equality eq) (x : Row V) : Quotient (keySetoid heq) :=
  Quotient.mk _ (x.hash, x.key)

/-- The keys of the entries, up to equality. -/
def keysOf (heq : Equality eq) (d : Dict V) : List (Option (Quotient (keySetoid heq))) :=
  d.table.iter.map fun b => (keyed d.table b).map (Quotient.mk _)

theorem length_keysOf (heq : Equality eq) (d : Dict V) : (keysOf heq d).length = d.table.len := by
  rw [keysOf, List.length_map, RawTable.length_iter]

theorem nodup_keysOf (heq : Equality eq) {d : Dict V} (h : d.Valid eq) : (keysOf heq d).Nodup := by
  refine RawTable.nodup_iter.map_on fun b hb c hc hbc => ?_
  obtain ⟨e, he⟩ := RawTable.mem_iter.mp hb
  obtain ⟨f, hf⟩ := RawTable.mem_iter.mp hc
  have hke : keyed d.table b = some (e.hash, e.key) := keyed_eq_some.mpr ⟨e, he, rfl⟩
  have hkf : keyed d.table c = some (f.hash, f.key) := keyed_eq_some.mpr ⟨f, hf, rfl⟩
  rw [hke, hkf] at hbc
  obtain ⟨hhash, hkey⟩ := Quotient.exact (Option.some.inj hbc)
  exact h.distinct b c _ _ hke hkf hhash hkey

/-- The entries have the keys of the pairs. -/
theorem mem_keysOf (heq : Equality eq) {d : Dict V} (h : d.WellFormed)
    {k : Option (Quotient (keySetoid heq))} :
    k ∈ keysOf heq d ↔ k ∈ d.rows.map fun x => some (keyOf heq x) := by
  constructor
  · intro hk
    obtain ⟨b, hb, rfl⟩ := List.mem_map.mp hk
    obtain ⟨e, he⟩ := RawTable.mem_iter.mp hb
    -- The entry has an instance, which is in the index.
    obtain ⟨x, hx⟩ := List.exists_mem_of_ne_nil _ (h.nonempty b e he)
    obtain ⟨sub, hsub⟩ := List.mem_iff_getElem?.mp hx
    have hplace := List.mem_of_getElem? (h.slot_of_item he hsub)
    refine List.mem_map.mpr ⟨{ hash := e.hash, key := e.key, value := x.1 }, ?_, ?_⟩
    · refine List.mem_filterMap.mpr ⟨(b, sub), List.reduceOption_mem_iff.mpr hplace, ?_⟩
      rw [row, he, Option.bind_some, EntryValue.get_some, hsub]
      rfl
    · rw [keyed_eq_some.mpr ⟨e, he, rfl⟩]
      rfl
  · intro hk
    obtain ⟨x, hx, rfl⟩ := List.mem_map.mp hk
    obtain ⟨p, -, hp⟩ := List.mem_filterMap.mp hx
    obtain ⟨e, he, hvalue⟩ := Option.bind_eq_some_iff.mp hp
    obtain ⟨v, -, rfl⟩ := Option.map_eq_some_iff.mp hvalue
    refine List.mem_map.mpr ⟨p.1, RawTable.mem_iter.mpr ⟨e, he⟩, ?_⟩
    rw [keyed_eq_some.mpr ⟨e, he, rfl⟩]
    rfl

/-- Dictionaries with pairwise equal pairs under the same hashes have as many distinct keys. -/
theorem len_eq_of_rows (heq : Equality eq) {l r : Dict V} (hl : l.Valid eq) (hr : r.Valid eq)
    (h : List.Forall₂ (SameRow eq) l.rows r.rows) : l.table.len = r.table.len := by
  have hkeys : (l.rows.map fun x => some (keyOf heq x)) =
      r.rows.map fun x => some (keyOf heq x) := by
    generalize l.rows = xs at h
    generalize r.rows = ys at h
    induction h with
    | nil => rfl
    | cons hxy _ ih =>
      rw [List.map_cons, List.map_cons, ih]
      exact congrArg (some · :: _) (Quotient.sound ⟨hxy.1, hxy.2.1⟩)
  have hperm : (keysOf heq l).Perm (keysOf heq r) := by
    refine (List.perm_ext_iff_of_nodup (nodup_keysOf heq hl) (nodup_keysOf heq hr)).mpr fun k => ?_
    rw [mem_keysOf heq hl.wellFormed, mem_keysOf heq hr.wellFormed, hkeys]
  rw [← length_keysOf heq, ← length_keysOf heq, hperm.length_eq]

end Keys

/-! ## The laws -/

section Laws

variable (eq lt : V → V → Except E Bool) (feed : V → Except E W)

/-- Equality, order and hash of two dictionaries agree with their lists of pairs. -/
structure Laws (l r : Dict V) : Prop where
  /-- No slot is read beyond the end of an index. -/
  bounds : opEq eq l r ≠ .error .undefined
  equal : opEq eq l r = .ok true ↔ List.Forall₂ (EqualPair eq) l.rows r.rows
  symmetric : opEq eq l r = .ok true ↔ opEq eq r l = .ok true
  hashes : opEq eq l r = .ok true → opHash feed l = opHash feed r
  lexicographic : opLt eq lt l r = lexLt eq lt l.rows r.rows
  irreflexive : opLt eq lt l l ≠ .ok true
  asymmetric : opLt eq lt l r = .ok true → opLt eq lt r l ≠ .ok true

/-- The numbers of distinct keys and the hashes of keys tell about two dictionaries what their lists
of pairs do. -/
structure Telling (l r : Dict V) : Prop where
  /-- With as many distinct keys, neither list of pairs goes on where the other one ends. -/
  ends : l.table.len = r.table.len →
    ¬ProperPrefixBy (SameRow eq) l.rows r.rows ∧ ¬ProperPrefixBy (SameRow eq) r.rows l.rows
  /-- Pairwise equal pairs are under the same hashes. -/
  hashes : List.Forall₂ (EqualPair eq) l.rows r.rows → List.Forall₂ (SameRow eq) l.rows r.rows
  /-- Where one list of pairs is the start of the other one, it is the shorter one exactly when its
  dictionary has fewer distinct keys. -/
  counts : PrefixBy (EqualPair eq) l.rows r.rows ∨ PrefixBy (EqualPair eq) r.rows l.rows →
    (l.table.len < r.table.len ↔ l.rows.length < r.rows.length)

variable {eq lt feed} {l r : Dict V}

/-- The walk of `op_eq` over two well-formed dictionaries. -/
theorem opEq_eq (hl : l.WellFormed) (hr : r.WellFormed) : opEq eq l r =
    if l.table.len ≠ r.table.len then .ok false else eqRows eq l.rows r.rows := by
  rw [opEq, eqWalk_eq hl.live hr.live]
  rfl

/-- A prefix that is as long as the list is one the other way round too. -/
theorem prefix_back (heq : Equality eq) {l r : List (Row V)} (h : PrefixBy (SameRow eq) r l)
    (hlen : l.length ≤ r.length) : PrefixBy (SameRow eq) l r := by
  have hall : List.Forall₂ (SameRow eq) l r :=
    (h.forall₂ hlen).flip.imp fun x y (hyx : SameRow eq y x) => hyx.symm heq
  exact .of_forall₂ hall

/-- `op_eq` says that two dictionaries are equal when they have as many distinct keys and the left
pairs are a prefix of the right ones. -/
theorem opEq_true_iff (heq : Equality eq) (hl : l.WellFormed) (hr : r.WellFormed) :
    opEq eq l r = .ok true ↔
      l.table.len = r.table.len ∧ PrefixBy (SameRow eq) l.rows r.rows := by
  rw [opEq_eq hl hr]
  split_ifs with hlen
  · simp [hlen]
  · rw [not_not] at hlen
    refine ⟨fun h => ⟨hlen, ?_⟩, fun h => eqRows_true h.2⟩
    by_contra hstart
    by_cases hback : PrefixBy (SameRow eq) r.rows l.rows
    · by_cases hshort : r.rows.length < l.rows.length
      · rw [eqRows_undefined heq ⟨hback, hshort⟩] at h
        cases h
      · exact hstart (prefix_back heq hback (by omega))
    · rw [eqRows_false heq hstart hback] at h
      cases h

/-- It reads beyond the end of the right index when they have as many distinct keys and the right
pairs are a proper prefix of the left ones. -/
theorem opEq_undefined_iff (heq : Equality eq) (hl : l.WellFormed) (hr : r.WellFormed) :
    opEq eq l r = .error .undefined ↔
      l.table.len = r.table.len ∧ ProperPrefixBy (SameRow eq) r.rows l.rows := by
  rw [opEq_eq hl hr]
  split_ifs with hlen
  · simp [hlen]
  · rw [not_not] at hlen
    refine ⟨fun h => ⟨hlen, ?_⟩, fun h => eqRows_undefined heq h.2⟩
    by_cases hstart : PrefixBy (SameRow eq) l.rows r.rows
    · rw [eqRows_true hstart] at h
      cases h
    · by_cases hback : PrefixBy (SameRow eq) r.rows l.rows
      · refine ⟨hback, ?_⟩
        by_contra hlt
        exact hstart (prefix_back heq hback (by omega))
      · rw [eqRows_false heq hstart hback] at h
        cases h

theorem opLt_eq (hl : l.WellFormed) (hr : r.WellFormed) : opLt eq lt l r =
    ltRows eq lt (decide (l.table.len < r.table.len)) l.rows r.rows :=
  ltWalk_eq hl.live hr.live

/-- The order is the lexicographic one exactly when the numbers of distinct keys decide as the
lengths of the lists do. -/
theorem opLt_lexLt_iff (heq : Equality eq) (hl : l.WellFormed) (hr : r.WellFormed) :
    opLt eq lt l r = lexLt eq lt l.rows r.rows ↔
      (PrefixBy (EqualPair eq) l.rows r.rows ∨ PrefixBy (EqualPair eq) r.rows l.rows →
        (l.table.len < r.table.len ↔ l.rows.length < r.rows.length)) := by
  rw [opLt_eq hl hr, lexLt_eq]
  by_cases hstart : PrefixBy (EqualPair eq) l.rows r.rows ∨ PrefixBy (EqualPair eq) r.rows l.rows
  · rw [ltRows_of_start heq hstart, ltRows_of_start heq hstart]
    simp [hstart]
  · obtain ⟨hfore, hback⟩ := not_or.mp hstart
    rw [ltRows_congr heq hfore hback (b := decide (l.rows.length < r.rows.length))]
    simp [hstart]

/-- A dictionary is not less than itself, and of two neither is less than the other both ways. -/
theorem opLt_asymm (heq : Equality eq) (hlt : ∀ a b, lt a b = .ok true → lt b a ≠ .ok true)
    (hl : l.WellFormed) (hr : r.WellFormed) (h : opLt eq lt l r = .ok true) :
    opLt eq lt r l ≠ .ok true := by
  intro hback
  rw [opLt_eq hl hr] at h
  rw [opLt_eq hr hl] at hback
  obtain ⟨hless, hmore⟩ := ltRows_asymm heq hlt h hback
  have := of_decide_eq_true hless
  have := of_decide_eq_true hmore
  omega

/-- Equality, order and hash agree with the lists of pairs exactly when the numbers of distinct keys
and the hashes of keys tell what those lists do. -/
theorem laws_iff (heq : Equality eq) (hlt : ∀ a b, lt a b = .ok true → lt b a ≠ .ok true)
    (hfeed : ∀ a b, eq a b = .ok true → feed a = feed b) (hl : l.Valid eq) (hr : r.Valid eq) :
    Laws eq lt feed l r ↔ Telling eq l r := by
  have hwl := hl.wellFormed
  have hwr := hr.wellFormed
  constructor
  · intro h
    refine ⟨fun hlen => ⟨fun hproper => ?_, fun hproper => ?_⟩, fun hall => ?_, ?_⟩
    · have htrue := (opEq_true_iff heq hwl hwr).mpr ⟨hlen, hproper.1⟩
      have hlengths := (h.equal.mp htrue).length_eq
      exact Nat.ne_of_lt hproper.2 hlengths
    · exact h.bounds ((opEq_undefined_iff heq hwl hwr).mpr ⟨hlen, hproper⟩)
    · obtain ⟨-, hstart⟩ := (opEq_true_iff heq hwl hwr).mp (h.equal.mpr hall)
      exact hstart.forall₂ hall.length_eq.ge
    · exact (opLt_lexLt_iff heq hwl hwr).mp h.lexicographic
  · intro h
    have htrue : opEq eq l r = .ok true ↔ List.Forall₂ (SameRow eq) l.rows r.rows := by
      rw [opEq_true_iff heq hwl hwr]
      constructor
      · rintro ⟨hlen, hstart⟩
        refine hstart.forall₂ (Nat.le_of_not_lt fun hlt => ?_)
        exact (h.ends hlen).1 ⟨hstart, hlt⟩
      · exact fun hall => ⟨len_eq_of_rows heq hl hr hall, .of_forall₂ hall⟩
    refine ⟨fun hundefined => ?_, ?_, ?_, fun heql => ?_, ?_, ?_, ?_⟩
    · obtain ⟨hlen, hproper⟩ := (opEq_undefined_iff heq hwl hwr).mp hundefined
      exact (h.ends hlen).2 hproper
    · rw [htrue]
      exact ⟨fun hall => hall.imp fun _ _ hxy => hxy.equalPair, h.hashes⟩
    · rw [htrue, opEq_true_iff heq hwr hwl]
      constructor
      · intro hall
        refine ⟨(len_eq_of_rows heq hl hr hall).symm, ?_⟩
        exact prefix_back heq (.of_forall₂ hall) hall.length_eq.ge
      · rintro ⟨hlen, hstart⟩
        have hshort : l.rows.length ≤ r.rows.length :=
          Nat.le_of_not_lt fun hlt => (h.ends hlen.symm).2 ⟨hstart, hlt⟩
        exact (prefix_back heq hstart hshort).forall₂ hstart.length_le
    · have hfed := hashRows_eq hfeed (htrue.mp heql)
      rw [opHash, opHash, hashWalk_eq hwl.live, hashWalk_eq hwr.live]
      exact congrArg (fun fed => fed >>= _) hfed
    · exact (opLt_lexLt_iff heq hwl hwr).mpr h.counts
    · exact fun hless => opLt_asymm heq hlt hwl hwl hless hless
    · exact opLt_asymm heq hlt hwl hwr

end Laws

/-! ## Two dictionaries -/

/-- Numbers as elements. -/
def natEq (a b : ℕ) : Except Unit Bool := .ok (a == b)

def natLt (a b : ℕ) : Except Unit Bool := .ok (decide (a < b))

/-- The dictionary that some insertions make. -/
def ofPairs (pairs : List (ℕ × ℕ)) : Dict ℕ :=
  match insertAll (.linear Entry.hash) natEq (fun k => .ok (BitVec.ofNat 64 k)) new pairs with
  | .ok d => d
  | .error _ => new

theorem natEq_iff {a b : ℕ} : natEq a b = .ok true ↔ a = b := by
  simp [natEq]

theorem equality_natEq : Equality natEq where
  total _ _ := ⟨_, rfl⟩
  refl _ := natEq_iff.mpr rfl
  symm h := natEq_iff.mpr (natEq_iff.mp h).symm
  trans h k := natEq_iff.mpr ((natEq_iff.mp h).trans (natEq_iff.mp k))

theorem natLt_asymm (a b : ℕ) (h : natLt a b = .ok true) : natLt b a ≠ .ok true := by
  simp only [natLt, Except.ok.injEq, decide_eq_true_eq, ne_eq] at h ⊢
  omega

theorem valid_ofPairs (pairs : List (ℕ × ℕ)) : (ofPairs pairs).Valid natEq := by
  unfold ofPairs
  split
  · rename_i h
    exact Valid.new.insertAll equality_natEq h
  · exact Valid.new

/-- A dictionary with one key and one with two keys tell, so the laws hold of them. -/
theorem laws_one_two :
    Laws natEq natLt (Except.ok : ℕ → Except Unit ℕ) (ofPairs [(7, 1)]) (ofPairs [(7, 1), (8, 2)]) := by
  have hfeed : ∀ a b, natEq a b = .ok true → (.ok a : Except Unit ℕ) = .ok b :=
    fun a b h => congrArg _ (natEq_iff.mp h)
  have hl : (ofPairs [(7, 1)]).rows = [⟨7, 7, 1⟩] := by decide +kernel
  have hr : (ofPairs [(7, 1), (8, 2)]).rows = [⟨7, 7, 1⟩, ⟨8, 8, 2⟩] := by decide +kernel
  have hlen : (ofPairs [(7, 1)]).table.len = 1 ∧ (ofPairs [(7, 1), (8, 2)]).table.len = 2 := by
    decide +kernel
  refine (laws_iff equality_natEq natLt_asymm hfeed (valid_ofPairs _) (valid_ofPairs _)).mpr
    ⟨fun h => ?_, fun h => ?_, fun _ => ?_⟩
  · omega
  · rw [hl, hr] at h
    cases h.length_eq
  · rw [hl, hr, hlen.1, hlen.2]
    decide

/-- Two dictionaries with one key, of which one has another value for it: they are equal one way
round, and the other way round the walk reads beyond the end of the shorter index. -/
theorem one_key_twice :
    opEq natEq (ofPairs [(7, 1)]) (ofPairs [(7, 1), (7, 2)]) = .ok true ∧
      opEq natEq (ofPairs [(7, 1), (7, 2)]) (ofPairs [(7, 1)]) = .error .undefined ∧
      ¬Laws natEq natLt (Except.ok : ℕ → Except Unit ℕ) (ofPairs [(7, 1)])
        (ofPairs [(7, 1), (7, 2)]) ∧
      ¬Laws natEq natLt (Except.ok : ℕ → Except Unit ℕ) (ofPairs [(7, 1), (7, 2)])
        (ofPairs [(7, 1)]) := by
  have hsame : opEq natEq (ofPairs [(7, 1)]) (ofPairs [(7, 1), (7, 2)]) = .ok true := by
    decide +kernel
  have hread : opEq natEq (ofPairs [(7, 1), (7, 2)]) (ofPairs [(7, 1)]) = .error .undefined := by
    decide +kernel
  refine ⟨hsame, hread, fun h => ?_, fun h => h.bounds hread⟩
  have hlen := (h.equal.mp hsame).length_eq
  revert hlen
  decide +kernel

end Dict

end Dolang.Object
