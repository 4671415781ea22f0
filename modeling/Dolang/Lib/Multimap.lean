import Mathlib.Data.List.Nodup
import Mathlib.Tactic.Common

/-!
# Multimaps

Pairs in the order of their insertion. Keys are compared by `same`, and a pair that is put in under
a key that is there goes under the one that is there. So all pairs of a key have it as it was put in
first.

Where pairs have numbers, taking a pair out and giving a key a single value take out and change the
pairs with certain numbers (`remove_map`, `assign_map`).
-/

namespace Dolang

/-- Pairs in the order of their insertion. -/
abbrev Multimap (κ ν : Type*) := List (κ × ν)

namespace Multimap

variable {κ ν ι : Type*} (same : κ → κ → Bool)

/-- The values of a key. -/
def values (m : Multimap κ ν) (key : κ) : List ν :=
  (m.filter fun pair => same key pair.1).map Prod.snd

/-- The key that is there for a key, or the key itself. -/
def keyOf (m : Multimap κ ν) (key : κ) : κ :=
  ((m.find? fun pair => same key pair.1).map Prod.fst).getD key

/-- Puts a pair in. -/
def insert (m : Multimap κ ν) (key : κ) (value : ν) : Multimap κ ν :=
  m ++ [(m.keyOf same key, value)]

/-- Takes all pairs of a key out. -/
def delete (m : Multimap κ ν) (key : κ) : Multimap κ ν :=
  m.filter fun pair => !same key pair.1

/-- Gives a key a single value. It stands in for the first one that is there. -/
def assign : Multimap κ ν → κ → ν → Multimap κ ν
  | [], key, value => [(key, value)]
  | pair :: m, key, value =>
    if same key pair.1 then (pair.1, value) :: delete same m key
    else pair :: assign m key value

/-- Takes one of the pairs of a key out. -/
def remove : Multimap κ ν → κ → ℕ → Multimap κ ν
  | [], _, _ => []
  | pair :: m, key, 0 => if same key pair.1 then m else pair :: remove m key 0
  | pair :: m, key, i + 1 =>
    if same key pair.1 then pair :: remove m key i else pair :: remove m key (i + 1)

variable {same} {key : κ} {value : ν}

/-- A key is there when it has values. -/
theorem values_eq_nil_iff {m : Multimap κ ν} :
    m.values same key = [] ↔ ∀ pair ∈ m, same key pair.1 = false := by
  rw [values, List.map_eq_nil_iff, List.filter_eq_nil_iff]
  exact forall₂_congr fun pair _ => iff_of_eq (Bool.not_eq_true _)

theorem any_eq (m : Multimap κ ν) (key : κ) :
    (m.any fun pair => same key pair.1) = !(m.values same key).isEmpty := by
  rw [Bool.eq_iff_iff, List.any_eq_true, Bool.not_eq_true', List.isEmpty_eq_false_iff, Ne,
    values_eq_nil_iff]
  simp

/-- A key that is not there has no pairs to take out. -/
theorem delete_eq_self {m : Multimap κ ν} (h : ∀ pair ∈ m, same key pair.1 = false) :
    m.delete same key = m :=
  List.filter_eq_self.mpr fun pair hpair => by rw [h pair hpair]; rfl

theorem keyOf_eq_self {m : Multimap κ ν} (h : ∀ pair ∈ m, same key pair.1 = false) :
    m.keyOf same key = key := by
  have hfind : (m.find? fun pair => same key pair.1) = none :=
    List.find?_eq_none.mpr fun pair hpair => Bool.eq_false_iff.mp (h pair hpair)
  rw [keyOf, hfind]
  rfl

/-- The key that is there is that of any pair, when all pairs of a key have the same. -/
theorem keyOf_eq {m : Multimap κ ν} {key' : κ} (hsame : same key key' = true)
    (h : ∀ pair ∈ m, same key pair.1 = true → pair.1 = key') {pair : κ × ν} (hpair : pair ∈ m)
    (hkey : pair.1 = key') : m.keyOf same key = key' := by
  unfold keyOf
  cases hfind : m.find? fun pair => same key pair.1 with
  | none =>
    have hnone := List.find?_eq_none.mp hfind pair hpair
    exact absurd (hkey ▸ hsame) hnone
  | some first =>
    have hfirst := List.find?_some hfind
    exact h first (List.mem_of_find?_eq_some hfind) hfirst

/-- A key is the one that is there when all pairs of it have it. -/
theorem keyOf_of_uniform {m : Multimap κ ν}
    (h : ∀ pair ∈ m, same key pair.1 = true → pair.1 = key) : m.keyOf same key = key := by
  unfold keyOf
  cases hfind : m.find? fun pair => same key pair.1 with
  | none => rfl
  | some first =>
    have hfirst := List.find?_some hfind
    exact h first (List.mem_of_find?_eq_some hfind) hfirst

theorem assign_eq_insert {m : Multimap κ ν} (h : ∀ pair ∈ m, same key pair.1 = false) :
    m.assign same key value = m ++ [(key, value)] := by
  induction m with
  | nil => rfl
  | cons pair m ih =>
    rw [assign, if_neg (Bool.eq_false_iff.mp (h pair List.mem_cons_self)),
      ih fun pair hpair => h pair (List.mem_cons_of_mem _ hpair)]
    rfl

/-- The only pair of a key. -/
theorem remove_eq_delete {m : Multimap κ ν} {v : ν} (h : m.values same key = [v]) :
    m.remove same key 0 = m.delete same key := by
  unfold values at h
  unfold delete
  induction m with
  | nil => rfl
  | cons pair m ih =>
    by_cases hsame : same key pair.1
    · rw [List.filter_cons_of_pos (p := fun pair : κ × ν => same key pair.1) hsame,
        List.map_cons] at h
      have hnone := List.map_eq_nil_iff.mp (List.cons.inj h).2
      rw [remove, if_pos hsame, List.filter_cons_of_neg (by simpa using hsame)]
      refine (List.filter_eq_self.mpr fun q hq => ?_).symm
      have hq' := List.filter_eq_nil_iff.mp hnone q hq
      rwa [Bool.not_eq_true', ← Bool.not_eq_true]
    · rw [List.filter_cons_of_neg (p := fun pair : κ × ν => same key pair.1) hsame] at h
      rw [remove, if_neg hsame, List.filter_cons_of_pos (by simpa using hsame), ih h]

/-! ### Numbers of pairs -/

theorem length_values_add_delete (m : Multimap κ ν) (key : κ) :
    (m.values same key).length + (m.delete same key).length = m.length := by
  rw [values, delete, List.length_map]
  exact (List.length_eq_length_filter_add _).symm

theorem length_assign (m : Multimap κ ν) (key : κ) (value : ν) :
    (m.assign same key value).length = (m.delete same key).length + 1 := by
  unfold delete
  induction m with
  | nil => rfl
  | cons pair m ih =>
    unfold assign
    by_cases hsame : same key pair.1
    · rw [if_pos hsame, List.filter_cons_of_neg (by simpa using hsame)]
      rfl
    · rw [if_neg hsame, List.filter_cons_of_pos (by simpa using hsame), List.length_cons, ih]
      rfl

theorem length_remove {m : Multimap κ ν} {i : ℕ} (h : i < (m.values same key).length) :
    (m.remove same key i).length + 1 = m.length := by
  unfold values at h
  rw [List.length_map] at h
  induction m generalizing i with
  | nil => cases h
  | cons pair m ih =>
    by_cases hsame : same key pair.1
    · rw [List.filter_cons_of_pos (p := fun pair : κ × ν => same key pair.1) hsame] at h
      cases i with
      | zero => rw [remove, if_pos hsame, List.length_cons]
      | succ i =>
        rw [remove, if_pos hsame]
        exact congrArg (· + 1) (ih (Nat.lt_of_succ_lt_succ h))
    · rw [List.filter_cons_of_neg (p := fun pair : κ × ν => same key pair.1) hsame] at h
      cases i with
      | zero =>
        rw [remove, if_neg hsame]
        exact congrArg (· + 1) (ih h)
      | succ i =>
        rw [remove, if_neg hsame]
        exact congrArg (· + 1) (ih h)

/-! ### Numbered pairs -/

section Numbered

variable [DecidableEq ι] {l : List (ι × κ × ν)} {x : ι × κ × ν}

/-- A number that no pair has is that of no pair to leave out. -/
theorem filter_ne_eq_self (h : x.1 ∉ l.map Prod.fst) : l.filter (fun y => y.1 ≠ x.1) = l :=
  List.filter_eq_self.mpr fun _ hy =>
    decide_eq_true fun heq => h (heq ▸ List.mem_map_of_mem (f := Prod.fst) hy)

/-- Taking one of the pairs of a key out takes out the pair with its number. -/
theorem remove_map (hnodup : (l.map Prod.fst).Nodup) {i : ℕ}
    (hx : (l.filter fun y => same key y.2.1)[i]? = some x) :
    remove same (l.map Prod.snd) key i = (l.filter fun y => y.1 ≠ x.1).map Prod.snd := by
  induction l generalizing i with
  | nil => cases hx
  | cons y l ih =>
    obtain ⟨hy, hnodup⟩ := List.nodup_cons.mp hnodup
    have hne : ∀ z ∈ l, y.1 ≠ z.1 := fun z hz heq =>
      hy (heq ▸ List.mem_map_of_mem (f := Prod.fst) hz)
    have hkeep : x ∈ l → ((y :: l).filter fun y => y.1 ≠ x.1).map Prod.snd =
        y.2 :: (l.filter fun y => y.1 ≠ x.1).map Prod.snd := by
      intro hmem
      rw [List.filter_cons_of_pos (p := fun y : ι × κ × ν => y.1 ≠ x.1)
        (decide_eq_true (hne x hmem)), List.map_cons]
    rw [List.map_cons]
    by_cases hsame : same key y.2.1
    · rw [List.filter_cons_of_pos (p := fun y : ι × κ × ν => same key y.2.1) hsame] at hx
      cases i with
      | zero =>
        obtain rfl : y = x := Option.some.inj hx
        rw [remove, if_pos hsame, List.filter_cons_of_neg (by simp), filter_ne_eq_self hy]
      | succ i =>
        rw [remove, if_pos hsame, hkeep (List.mem_of_mem_filter (List.mem_of_getElem? hx)),
          ih hnodup hx]
    · rw [List.filter_cons_of_neg (p := fun y : ι × κ × ν => same key y.2.1) hsame] at hx
      rw [hkeep (List.mem_of_mem_filter (List.mem_of_getElem? hx)), ← ih hnodup hx]
      cases i with
      | zero => rw [remove, if_neg hsame]
      | succ i => rw [remove, if_neg hsame]

/-- Giving a key a single value changes the first of its pairs and takes out the others. -/
theorem assign_map (hnodup : (l.map Prod.fst).Nodup)
    (hx : (l.filter fun y => same key y.2.1).head? = some x) :
    assign same (l.map Prod.snd) key value =
      (l.filter fun y => y.1 = x.1 || !same key y.2.1).map fun y =>
        if y.1 = x.1 then (y.2.1, value) else y.2 := by
  induction l with
  | nil => cases hx
  | cons y l ih =>
    obtain ⟨hy, hnodup⟩ := List.nodup_cons.mp hnodup
    have hne : ∀ z ∈ l, y.1 ≠ z.1 := fun z hz heq =>
      hy (heq ▸ List.mem_map_of_mem (f := Prod.fst) hz)
    rw [List.map_cons, assign]
    by_cases hsame : same key y.2.1
    · rw [List.filter_cons_of_pos (p := fun y : ι × κ × ν => same key y.2.1) hsame] at hx
      obtain rfl : y = x := Option.some.inj hx
      rw [if_pos hsame, List.filter_cons_of_pos (by simp), List.map_cons, if_pos rfl]
      congr 1
      have hrest : ∀ z ∈ l, (decide (z.1 = y.1) || !same key z.2.1) = !same key z.2.1 := by
        intro z hz
        rw [decide_eq_false (hne z hz).symm, Bool.false_or]
      rw [delete, List.filter_map, List.filter_congr hrest]
      refine List.map_congr_left fun z hz => ?_
      rw [if_neg (hne z (List.mem_of_mem_filter hz)).symm]
    · rw [List.filter_cons_of_neg (p := fun y : ι × κ × ν => same key y.2.1) hsame] at hx
      have hmem : x ∈ l := List.mem_of_mem_filter (List.mem_of_mem_head? hx)
      rw [if_neg hsame, List.filter_cons_of_pos (by simp [hsame]), List.map_cons,
        if_neg (hne x hmem), ih hnodup hx]

end Numbered

end Multimap

end Dolang
