import Dolang.Lib.StableMerge
import Dolang.Util.PairSort
import Mathlib.Data.Nat.Basic
import Mathlib.Order.RelClasses

/-!
# The lockstep sort loses nothing

A run of the sort is followed column by column: what a copy does to a column (`Column.Copied`), and
what a part of the sort leaves alone (`Column.Keeps`). The loop of `merge` moves the pairs to the
scratch in the order in which they are merged, and the slices change only when all of them are copied
back, so that a failed comparison finds every pair in the slices. `mergesortCore_spec` tells what each
run of the recursion ends with, and `sort_by_stable` what the whole sort does.
-/

namespace Dolang.Util.PairSort

variable {σ E T U α β : Type}

/-! ## Columns -/

namespace Column

variable {c c' c'' : Column α} {a b : Area}

/-- The values `xs` are in the cells from `start` on. -/
def Holds (c : Column α) (a : Area) (start : ℕ) (xs : List α) : Prop :=
  ∀ i x, xs[i]? = some x → (c a)[start + i]? = some (some x)

/-- What a copy of `count` cells changes. -/
structure Copied (c c' : Column α) (a : Area) (src : ℕ) (b : Area) (dst count : ℕ) : Prop where
  lengths : ∀ d, (c' d).length = (c d).length
  others : ∀ d, d ≠ b → c' d = c d
  cells : ∀ i, i < count → (c' b)[dst + i]? = (c a)[src + i]?
  outside : ∀ i, i < dst ∨ dst + count ≤ i → (c' b)[i]? = (c b)[i]?

/-- Only `len` cells of the slice from `v` on, and of the scratch from `w` on, have changed. -/
structure Keeps (v w len : ℕ) (c c' : Column α) : Prop where
  lengths : ∀ d, (c' d).length = (c d).length
  slices : ∀ i, i < v ∨ v + len ≤ i → (c' .slices)[i]? = (c .slices)[i]?
  scratch : ∀ i, i < w ∨ w + len ≤ i → (c' .scratch)[i]? = (c .scratch)[i]?

theorem Holds.append {start : ℕ} {xs ys : List α} :
    c.Holds a start (xs ++ ys) ↔ c.Holds a start xs ∧ c.Holds a (start + xs.length) ys := by
  constructor
  · refine fun h => ⟨fun i x hx => h i x ?_, fun i y hy => ?_⟩
    · rw [List.getElem?_append_left (List.getElem?_eq_some_iff.mp hx).1, hx]
    · rw [Nat.add_assoc]
      refine h (xs.length + i) y ?_
      rw [List.getElem?_append_right (Nat.le_add_right _ _), Nat.add_sub_cancel_left, hy]
  · rintro ⟨hxs, hys⟩ i x hx
    rcases Nat.lt_or_ge i xs.length with hi | hi
    · rw [List.getElem?_append_left hi] at hx
      exact hxs i x hx
    · rw [List.getElem?_append_right hi] at hx
      have hcell := hys _ x hx
      rwa [Nat.add_assoc, Nat.add_sub_of_le hi] at hcell

theorem Copied.holds {src dst : ℕ} {xs : List α} (h : Copied c c' a src b dst xs.length)
    (hxs : c.Holds a src xs) : c'.Holds b dst xs := by
  intro i x hx
  rw [h.cells i (List.getElem?_eq_some_iff.mp hx).1]
  exact hxs i x hx

/-- A copy does not change what other areas hold. -/
theorem Copied.holds_other {src dst count start : ℕ} {d : Area} {xs : List α}
    (h : Copied c c' a src b dst count) (hd : d ≠ b) (hxs : c.Holds d start xs) :
    c'.Holds d start xs := by
  intro i x hx
  rw [h.others d hd]
  exact hxs i x hx

/-- A copy does not change the cells before its destination. -/
theorem Copied.holds_before {src dst count start : ℕ} {xs : List α}
    (h : Copied c c' a src b dst count) (hle : start + xs.length ≤ dst) (hxs : c.Holds b start xs) :
    c'.Holds b start xs := by
  intro i x hx
  have hi := (List.getElem?_eq_some_iff.mp hx).1
  rw [h.outside _ (.inl (by omega))]
  exact hxs i x hx

theorem exists_copied {src dst count : ℕ} (hsrc : src + count ≤ (c a).length)
    (hdst : dst + count ≤ (c b).length) (hab : a ≠ b) :
    ∃ c', copyNonoverlapping c a src b dst count = some c' ∧ Copied c c' a src b dst count := by
  refine ⟨_, if_pos ⟨hsrc, hdst, fun h => absurd h hab⟩, ?_⟩
  have htake : ((c b).take dst).length = dst := List.length_take_of_le (by omega)
  have hcells : (((c a).drop src).take count).length = count := by
    rw [List.length_take, List.length_drop]
    omega
  refine ⟨fun d => ?_, fun d hd => Function.update_of_ne hd _ _, fun i hi => ?_, fun i hi => ?_⟩
  · by_cases hd : d = b
    · subst hd
      rw [Function.update_self, List.length_append, List.length_append, htake, hcells,
        List.length_drop]
      omega
    · rw [Function.update_of_ne hd]
  · rw [Function.update_self, List.append_assoc, List.getElem?_append_right (by omega), htake,
      Nat.add_sub_cancel_left, List.getElem?_append_left (by omega), List.getElem?_take_of_lt hi,
      List.getElem?_drop]
  · rw [Function.update_self]
    rcases hi with hi | hi
    · rw [List.append_assoc, List.getElem?_append_left (by omega), List.getElem?_take_of_lt hi]
    · rw [List.getElem?_append_right (by rw [List.length_append]; omega), List.length_append, htake,
        hcells, List.getElem?_drop, Nat.add_sub_of_le hi]

theorem Keeps.refl (v w len : ℕ) (c : Column α) : Keeps v w len c c :=
  ⟨fun _ => rfl, fun _ _ => rfl, fun _ _ => rfl⟩

theorem Keeps.trans {v w len : ℕ} (h : Keeps v w len c c') (h' : Keeps v w len c' c'') :
    Keeps v w len c c'' where
  lengths d := (h'.lengths d).trans (h.lengths d)
  slices i hi := (h'.slices i hi).trans (h.slices i hi)
  scratch i hi := (h'.scratch i hi).trans (h.scratch i hi)

/-- What changes a part of the cells keeps the others. -/
theorem Keeps.within {v w len n k : ℕ} (h : Keeps (v + k) (w + k) n c c') (hk : k + n ≤ len) :
    Keeps v w len c c' where
  lengths := h.lengths
  slices i hi := h.slices i (by omega)
  scratch i hi := h.scratch i (by omega)

theorem Keeps.holds {v w len start : ℕ} {xs : List α} (h : Keeps v w len c c')
    (hdisjoint : start + xs.length ≤ v ∨ v + len ≤ start) (hxs : c.Holds .slices start xs) :
    c'.Holds .slices start xs := by
  intro i x hx
  have hi := (List.getElem?_eq_some_iff.mp hx).1
  rw [h.slices _ (by omega)]
  exact hxs i x hx

theorem Copied.keeps_scratch {src dst count v w len : ℕ}
    (h : Copied c c' .slices src .scratch dst count) (hlow : w ≤ dst) (hhigh : dst + count ≤ w + len) :
    Keeps v w len c c' where
  lengths := h.lengths
  slices i _ := by rw [h.others .slices nofun]
  scratch i hi := h.outside i (by omega)

theorem Copied.keeps_slices {src dst count v w len : ℕ}
    (h : Copied c c' .scratch src .slices dst count) (hlow : v ≤ dst) (hhigh : dst + count ≤ v + len) :
    Keeps v w len c c' where
  lengths := h.lengths
  slices i hi := h.outside i (by omega)
  scratch i _ := by rw [h.others .scratch nofun]

theorem exists_swapped {v w : ℕ} {x y : α} (h : c.Holds .slices v [x, y]) :
    ∃ c', swapCells c .slices (v + 0) (v + 1) = some c' ∧ Keeps v w 2 c c' ∧
      c'.Holds .slices v [y, x] := by
  have hx := h 0 x rfl
  have hy := h 1 y rfl
  have hlen := (List.getElem?_eq_some_iff.mp hy).1
  have hne : Area.scratch ≠ .slices := nofun
  refine ⟨Function.update c .slices (((c .slices).set v (some y)).set (v + 1) (some x)), ?_, ?_, ?_⟩
  · rw [swapCells, hx, hy]
    rfl
  · refine ⟨fun d => ?_, fun i hi => ?_, fun i _ => ?_⟩
    · cases d with
      | slices => rw [Function.update_self, List.length_set, List.length_set]
      | scratch => rw [Function.update_of_ne hne]
    · rw [Function.update_self, List.getElem?_set_ne (by omega), List.getElem?_set_ne (by omega)]
    · rw [Function.update_of_ne hne]
  · rintro (_ | _ | i) z hz
    · obtain rfl := Option.some.inj hz
      rw [Function.update_self, List.getElem?_set_ne (by omega), Nat.add_zero,
        List.getElem?_set_self (by omega)]
    · obtain rfl := Option.some.inj hz
      rw [Function.update_self, Nat.zero_add, List.getElem?_set_self (by rw [List.length_set]; omega)]
    · cases hz

end Column

/-! ## Runs -/

section

variable {s s' s'' : σ × Memory T U}

/-- A run of a part of the sort from the state `s` ends with `r` in the state `s'`. -/
def Runs (x : Sorting σ E T U α) (s : σ × Memory T U) (r : Except (Fault E) α)
    (s' : σ × Memory T U) : Prop :=
  x.run.run s = (r, s')

theorem Runs.pure (a : α) (s : σ × Memory T U) :
    Runs (Pure.pure a : Sorting σ E T U α) s (.ok a) s := rfl

theorem Runs.bind {x : Sorting σ E T U α} {f : α → Sorting σ E T U β} {a : α}
    {r : Except (Fault E) β} (hx : Runs x s (.ok a) s') (hf : Runs (f a) s' r s'') :
    Runs (x >>= f) s r s'' := by
  simp only [Runs, ExceptT.run_bind, StateT.run_bind] at hx hf ⊢
  rw [hx]
  exact hf

theorem Runs.bind_error {x : Sorting σ E T U α} {e : Fault E} (hx : Runs x s (.error e) s')
    (f : α → Sorting σ E T U β) : Runs (x >>= f) s (.error e) s' := by
  simp only [Runs, ExceptT.run_bind, StateT.run_bind] at hx ⊢
  rw [hx]
  rfl

theorem runs_check {p : Prop} [Decidable p] (hp : p) (s : σ × Memory T U) :
    Runs (check p : Sorting σ E T U Unit) s (.ok ()) s := by
  rw [check, if_pos hp]
  rfl

theorem runs_change {f : Column T → Option (Column T)} {g : Column U → Option (Column U)}
    {m m' : Memory T U} (hf : f m.left = some m'.left) (hg : g m.right = some m'.right) (t : σ) :
    Runs (change f g : Sorting σ E T U Unit) (t, m) (.ok ()) (t, m') := by
  have hget : Runs (get : Sorting σ E T U (σ × Memory T U)) (t, m) (.ok (t, m)) (t, m) := rfl
  refine hget.bind ?_
  dsimp only
  rw [hf, hg]
  rfl

end

/-! ## Memory -/

namespace Memory

variable {m m' m'' : Memory T U} {p q v w : SlicePair}

/-- The pairs `xs` are in the cells of a slice pair from `start` on. -/
structure Holds (m : Memory T U) (p : SlicePair) (start : ℕ) (xs : List (T × U)) : Prop where
  left : m.left.Holds p.area (p.left + start) (xs.map Prod.fst)
  right : m.right.Holds p.area (p.right + start) (xs.map Prod.snd)

/-- The cells of a slice pair exist. -/
structure Room (m : Memory T U) (p : SlicePair) : Prop where
  left : p.left + p.len ≤ (m.left p.area).length
  right : p.right + p.len ≤ (m.right p.area).length

/-- What a copy of `count` pairs changes. -/
structure Copied (m m' : Memory T U) (p : SlicePair) (src : ℕ) (q : SlicePair) (dst count : ℕ) :
    Prop where
  left : m.left.Copied m'.left p.area (p.left + src) q.area (q.left + dst) count
  right : m.right.Copied m'.right p.area (p.right + src) q.area (q.right + dst) count

/-- Only the cells of `v` and `w` have changed. -/
structure Keeps (v w : SlicePair) (m m' : Memory T U) : Prop where
  left : Column.Keeps v.left w.left v.len m.left m'.left
  right : Column.Keeps v.right w.right v.len m.right m'.right

theorem Holds.append {start : ℕ} {xs ys : List (T × U)} :
    m.Holds p start (xs ++ ys) ↔ m.Holds p start xs ∧ m.Holds p (start + xs.length) ys := by
  constructor
  · rintro ⟨hl, hr⟩
    rw [List.map_append, Column.Holds.append, List.length_map, Nat.add_assoc] at hl hr
    exact ⟨⟨hl.1, hr.1⟩, hl.2, hr.2⟩
  · rintro ⟨⟨hl, hr⟩, hl', hr'⟩
    constructor
    · rw [List.map_append, Column.Holds.append, List.length_map, Nat.add_assoc]
      exact ⟨hl, hl'⟩
    · rw [List.map_append, Column.Holds.append, List.length_map, Nat.add_assoc]
      exact ⟨hr, hr'⟩

theorem Holds.middle {as bs cs : List (T × U)} (h : m.Holds p 0 (as ++ (bs ++ cs))) :
    m.Holds p as.length bs := by
  have hmiddle := (append.mp (append.mp h).2).1
  rwa [Nat.zero_add] at hmiddle

theorem Holds.single {xs : List (T × U)} {x : T × U} {i : ℕ} (h : m.Holds p 0 xs)
    (hx : xs[i]? = some x) : m.Holds p i [x] := by
  obtain ⟨hi, rfl⟩ := List.getElem?_eq_some_iff.mp hx
  have hsplit : xs = xs.take i ++ ([xs[i]] ++ xs.drop (i + 1)) := by
    rw [List.singleton_append, ← List.drop_eq_getElem_cons hi, List.take_append_drop]
  rw [hsplit] at h
  have hmiddle := h.middle
  rwa [List.length_take_of_le (Nat.le_of_lt hi)] at hmiddle

theorem Room.of_lengths (hl : ∀ a, (m'.left a).length = (m.left a).length)
    (hr : ∀ a, (m'.right a).length = (m.right a).length) (h : m.Room p) : m'.Room p :=
  ⟨(hl p.area).symm ▸ h.left, (hr p.area).symm ▸ h.right⟩

theorem Room.keeps (h : m.Room p) (hk : Keeps v w m m') : m'.Room p :=
  h.of_lengths hk.left.lengths hk.right.lengths

theorem Room.copied {src dst count : ℕ} (h : m.Room p) (hc : m.Copied m' v src w dst count) :
    m'.Room p :=
  h.of_lengths hc.left.lengths hc.right.lengths

theorem Copied.holds {src dst : ℕ} {xs : List (T × U)} (h : Copied m m' p src q dst xs.length)
    (hxs : m.Holds p src xs) : m'.Holds q dst xs := by
  constructor
  · refine Column.Copied.holds ?_ hxs.left
    rw [List.length_map]
    exact h.left
  · refine Column.Copied.holds ?_ hxs.right
    rw [List.length_map]
    exact h.right

theorem Copied.holds_other {src dst count start : ℕ} {xs : List (T × U)}
    (h : Copied m m' p src q dst count) (hne : v.area ≠ q.area) (hxs : m.Holds v start xs) :
    m'.Holds v start xs :=
  ⟨h.left.holds_other hne hxs.left, h.right.holds_other hne hxs.right⟩

theorem Copied.holds_before {src dst count start : ℕ} {xs : List (T × U)}
    (h : Copied m m' p src q dst count) (hle : start + xs.length ≤ dst) (hxs : m.Holds q start xs) :
    m'.Holds q start xs := by
  constructor
  · exact h.left.holds_before (by rw [List.length_map]; omega) hxs.left
  · exact h.right.holds_before (by rw [List.length_map]; omega) hxs.right

theorem Keeps.refl (v w : SlicePair) (m : Memory T U) : Keeps v w m m :=
  ⟨.refl _ _ _ _, .refl _ _ _ _⟩

theorem Keeps.trans (h : Keeps v w m m') (h' : Keeps v w m' m'') : Keeps v w m m'' :=
  ⟨h.left.trans h'.left, h.right.trans h'.right⟩

section Split

variable {mid : ℕ}

theorem Room.splitAt (h : m.Room p) (hmid : mid ≤ p.len) :
    m.Room (p.splitAt mid).1 ∧ m.Room (p.splitAt mid).2 := by
  obtain ⟨hl, hr⟩ := h
  unfold SlicePair.splitAt
  exact ⟨⟨by dsimp only; omega, by dsimp only; omega⟩, ⟨by dsimp only; omega, by dsimp only; omega⟩⟩

theorem holds_splitAt {xs ys : List (T × U)} (hxs : xs.length = mid) :
    m.Holds p 0 (xs ++ ys) ↔ m.Holds (p.splitAt mid).1 0 xs ∧ m.Holds (p.splitAt mid).2 0 ys := by
  rw [Holds.append, Nat.zero_add, hxs]
  exact ⟨fun h => ⟨⟨h.1.left, h.1.right⟩, ⟨h.2.left, h.2.right⟩⟩,
    fun h => ⟨⟨h.1.left, h.1.right⟩, ⟨h.2.left, h.2.right⟩⟩⟩

theorem Keeps.of_left (h : Keeps (v.splitAt mid).1 (w.splitAt mid).1 m m') (hmid : mid ≤ v.len) :
    Keeps v w m m' :=
  ⟨h.left.within (k := 0) (by rw [Nat.zero_add]; exact hmid),
    h.right.within (k := 0) (by rw [Nat.zero_add]; exact hmid)⟩

theorem Keeps.of_right (h : Keeps (v.splitAt mid).2 (w.splitAt mid).2 m m') (hmid : mid ≤ v.len) :
    Keeps v w m m' := by
  have hle : mid + (v.splitAt mid).2.len ≤ v.len := Nat.le_of_eq (Nat.add_sub_of_le hmid)
  exact ⟨h.left.within hle, h.right.within hle⟩

/-- What the left half is sorted by does not touch the right half. -/
theorem Keeps.holds_right {ys : List (T × U)} (h : Keeps (v.splitAt mid).1 (w.splitAt mid).1 m m')
    (hv : v.area = .slices) (hys : m.Holds (v.splitAt mid).2 0 ys) :
    m'.Holds (v.splitAt mid).2 0 ys := by
  obtain ⟨hl, hr⟩ := hys
  have harea : (v.splitAt mid).2.area = .slices := hv
  constructor
  · rw [harea] at hl ⊢
    exact h.left.holds (.inr (Nat.le_refl _)) hl
  · rw [harea] at hr ⊢
    exact h.right.holds (.inr (Nat.le_refl _)) hr

/-- What the right half is sorted by does not touch the left half. -/
theorem Keeps.holds_left {xs : List (T × U)} (h : Keeps (v.splitAt mid).2 (w.splitAt mid).2 m m')
    (hv : v.area = .slices) (hlen : xs.length = mid) (hxs : m.Holds (v.splitAt mid).1 0 xs) :
    m'.Holds (v.splitAt mid).1 0 xs := by
  obtain ⟨hl, hr⟩ := hxs
  have harea : (v.splitAt mid).1.area = .slices := hv
  constructor
  · rw [harea] at hl ⊢
    exact h.left.holds (.inl (by rw [List.length_map, hlen]; exact Nat.le_refl _)) hl
  · rw [harea] at hr ⊢
    exact h.right.holds (.inl (by rw [List.length_map, hlen]; exact Nat.le_refl _)) hr

end Split

end Memory

/-! ## Copies and comparisons -/

section

open Memory

variable {m m' : Memory T U} {p q v w : SlicePair} {isLess : Comparator σ E T}

theorem exists_copied (src dst count : ℕ) (hp : m.Room p) (hq : m.Room q) (hne : p.area ≠ q.area)
    (hsrc : src + count ≤ p.len) (hdst : dst + count ≤ q.len) :
    ∃ m', copyNonoverlapping m.left p.area (p.left + src) q.area (q.left + dst) count = some m'.left ∧
      copyNonoverlapping m.right p.area (p.right + src) q.area (q.right + dst) count =
        some m'.right ∧ m.Copied m' p src q dst count := by
  have hpl := hp.left
  have hpr := hp.right
  have hql := hq.left
  have hqr := hq.right
  have hsrcl : p.left + src + count ≤ (m.left p.area).length := by omega
  have hdstl : q.left + dst + count ≤ (m.left q.area).length := by omega
  have hsrcr : p.right + src + count ≤ (m.right p.area).length := by omega
  have hdstr : q.right + dst + count ≤ (m.right q.area).length := by omega
  obtain ⟨l, hl, hcl⟩ := Column.exists_copied hsrcl hdstl hne
  obtain ⟨r, hr, hcr⟩ := Column.exists_copied hsrcr hdstr hne
  exact ⟨⟨l, r⟩, hl, hr, hcl, hcr⟩

theorem runs_copyRangeTo (src dst count : ℕ) (hp : m.Room p) (hq : m.Room q)
    (hne : p.area ≠ q.area) (hsrc : src + count ≤ p.len) (hdst : dst + count ≤ q.len) (t : σ) :
    ∃ m', Runs (p.copyRangeTo q src count dst : Sorting σ E T U Unit) (t, m) (.ok ()) (t, m') ∧
      m.Copied m' p src q dst count := by
  obtain ⟨m', hl, hr, hc⟩ := exists_copied src dst count hp hq hne hsrc hdst
  refine ⟨m', ?_, hc⟩
  exact (runs_check (by omega) _).bind <| (runs_check (by omega) _).bind <|
    (runs_check (by omega) _).bind <| (runs_check (by omega) _).bind <| runs_change hl hr t

theorem runs_copyElemTo {i j : ℕ} (hp : m.Room p) (hq : m.Room q) (hne : p.area ≠ q.area)
    (hi : i < p.len) (hj : j < q.len) (t : σ) :
    ∃ m', Runs (p.copyElemTo q i j : Sorting σ E T U Unit) (t, m) (.ok ()) (t, m') ∧
      m.Copied m' p i q j 1 := by
  obtain ⟨m', hl, hr, hc⟩ := exists_copied i j 1 hp hq hne hi hj
  exact ⟨m', (runs_check hi _).bind <| (runs_check hj _).bind <| runs_change hl hr t, hc⟩

theorem runs_leftAt {xs : List (T × U)} {x : T × U} {i : ℕ} (h : m.Holds p 0 xs)
    (hx : xs[i]? = some x) (hi : i < p.len) (t : σ) :
    Runs (p.leftAt i : Sorting σ E T U T) (t, m) (.ok x.1) (t, m) := by
  have hcell := h.left i x.1 (by rw [List.getElem?_map, hx]; rfl)
  rw [Nat.add_zero] at hcell
  refine (runs_check hi _).bind ?_
  have hget : Runs (get : Sorting σ E T U (σ × Memory T U)) (t, m) (.ok (t, m)) (t, m) := rfl
  refine hget.bind ?_
  dsimp only
  rw [List.getD_eq_getElem?_getD, hcell]
  rfl

/-- A comparison of two elements is an answer of the comparator, or its error. -/
theorem runs_compare (isLess : Comparator σ E T) {xs : List (T × U)} {x y : T × U} {i j : ℕ} (h : m.Holds p 0 xs)
    (hx : xs[i]? = some x) (hy : xs[j]? = some y) (hi : i < p.len) (hj : j < p.len) (t : σ) :
    Runs (compare isLess p i j : Sorting σ E T U Bool) (t, m)
      ((isLess t x.1 y.1).1.mapError .err) ((isLess t x.1 y.1).2, m) := by
  refine (runs_leftAt h hx hi t).bind <| (runs_leftAt h hy hj t).bind ?_
  have hget : Runs (get : Sorting σ E T U (σ × Memory T U)) (t, m) (.ok (t, m)) (t, m) := rfl
  refine hget.bind ?_
  dsimp only
  generalize isLess t x.1 y.1 = answer
  obtain ⟨answer, t'⟩ := answer
  cases answer with
  | ok b => exact Eq.refl _
  | error e => exact Eq.refl _

/-! ## Merging -/

/-- The comparator once said that `y` is not less than `x`. -/
def Keep (isLess : Comparator σ E T) (x y : T × U) : Prop :=
  ∃ t, (isLess t y.1 x.1).1 = .ok false

/-- The comparator once said that `y` is less than `x`. -/
def Swap (isLess : Comparator σ E T) (x y : T × U) : Prop :=
  ∃ t, (isLess t y.1 x.1).1 = .ok true

/-- The comparator once failed with the error `e`. -/
def Fails (isLess : Comparator σ E T) (e : E) : Prop :=
  ∃ t a b, (isLess t a b).1 = .error e

/-- `v` are the slices, or a part of them, and `w` is as much scratch. -/
structure Paired (v w : SlicePair) : Prop where
  slices : v.area = .slices
  scratch : w.area = .scratch
  len : v.len = w.len

theorem Paired.ne (h : Paired v w) : v.area ≠ w.area := by
  rw [h.slices, h.scratch]
  exact nofun

theorem Paired.keeps_scratch (h : Paired v w) {src dst count : ℕ}
    (hc : m.Copied m' v src w dst count) (hdst : dst + count ≤ w.len) : Keeps v w m m' := by
  obtain ⟨hl, hr⟩ := hc
  have hlen := h.len
  rw [h.slices, h.scratch] at hl hr
  exact ⟨hl.keeps_scratch (by omega) (by omega), hr.keeps_scratch (by omega) (by omega)⟩

theorem Paired.keeps_slices (h : Paired v w) {src dst count : ℕ}
    (hc : m.Copied m' w src v dst count) (hdst : dst + count ≤ v.len) : Keeps v w m m' := by
  obtain ⟨hl, hr⟩ := hc
  rw [h.slices, h.scratch] at hl hr
  exact ⟨hl.keeps_slices (by omega) (by omega), hr.keeps_slices (by omega) (by omega)⟩

/-- One step of the loop moves a pair to the scratch. -/
theorem runs_take (h : Paired v w) {zs done : List (T × U)} {x : T × U} {k i : ℕ}
    (hv : m.Room v) (hw : m.Room w) (hslices : m.Holds v 0 zs) (hscratch : m.Holds w 0 done)
    (hx : zs[k]? = some x) (hk : k < v.len) (hdone : done.length = i) (hi : i < w.len) (t : σ) :
    ∃ m', Runs (v.copyElemTo w k i : Sorting σ E T U Unit) (t, m) (.ok ()) (t, m') ∧
      Keeps v w m m' ∧ m'.Holds v 0 zs ∧ m'.Holds w 0 (done ++ [x]) := by
  obtain ⟨m', hrun, hc⟩ := runs_copyElemTo hv hw h.ne hk hi t
  refine ⟨m', hrun, h.keeps_scratch hc hi, hc.holds_other h.ne hslices, Holds.append.mpr ⟨?_, ?_⟩⟩
  · exact hc.holds_before (by omega) hscratch
  · rw [Nat.zero_add, hdone]
    exact Copied.holds (show m.Copied m' v k w i [x].length from hc) (hslices.single hx)

/-- The loop moves pairs of both halves to the scratch, where they are merged, until one half is
used up or a comparison fails. The slices do not change. -/
theorem runs_mergeLoop (isLess : Comparator σ E T) (h : Paired v w) {xs ys : List (T × U)} (hlen : xs.length + ys.length = v.len)
    (t : σ) (m : Memory T U) (l r : ℕ) (done : List (T × U)) (hl : l ≤ xs.length)
    (hr : r ≤ ys.length) (hdone : done.length = l + r) (hv : m.Room v) (hw : m.Room w)
    (hslices : m.Holds v 0 (xs ++ ys)) (hscratch : m.Holds w 0 done) :
    ∃ res t' m', Runs (mergeLoop isLess v w xs.length l (xs.length + r) (l + r)) (t, m) res (t', m') ∧
      Keeps v w m m' ∧ m'.Holds v 0 (xs ++ ys) ∧
      ((∃ e, res = .error (.err e) ∧ Fails isLess e) ∨
        ∃ l' r' out, res = .ok (l', xs.length + r', l' + r') ∧ l' ≤ xs.length ∧ r' ≤ ys.length ∧
          (l' = xs.length ∨ r' = ys.length) ∧ (done ++ out).length = l' + r' ∧
          m'.Holds w 0 (done ++ out) ∧
          Merges (Keep isLess) (Swap isLess) (xs.drop l) (ys.drop r)
            (out ++ (xs.drop l' ++ ys.drop r'))) := by
  -- The number of pairs that are still to be merged.
  induction hn : (xs.length - l) + (ys.length - r) using Nat.strongRecOn
    generalizing t m l r done with
  | _ n ih =>
    by_cases hend : l < xs.length ∧ r < ys.length
    · obtain ⟨hlt, hrt⟩ := hend
      have hx : (xs ++ ys)[l]? = some xs[l] := by
        rw [List.getElem?_append_left hlt, List.getElem?_eq_getElem hlt]
      have hy : (xs ++ ys)[xs.length + r]? = some ys[r] := by
        rw [List.getElem?_append_right (by omega), Nat.add_sub_cancel_left,
          List.getElem?_eq_getElem hrt]
      have hroom := h.len
      have hasked := runs_compare isLess hslices hy hx (by omega) (by omega) t
      have hdropx : xs.drop l = xs[l] :: xs.drop (l + 1) := List.drop_eq_getElem_cons hlt
      have hdropy : ys.drop r = ys[r] :: ys.drop (r + 1) := List.drop_eq_getElem_cons hrt
      rw [mergeLoop, dif_pos ⟨hlt, by omega⟩, hdropx, hdropy]
      generalize hanswer : isLess t ys[r].1 xs[l].1 = answer at hasked
      obtain ⟨answer, t'⟩ := answer
      cases answer with
      | error e =>
        exact ⟨_, t', m, hasked.bind_error _, .refl v w m, hslices,
          .inl ⟨e, rfl, t, _, _, congrArg Prod.fst hanswer⟩⟩
      | ok less =>
        cases less with
        | false =>
          -- The pair on the left goes first.
          obtain ⟨m₁, hcopy, hkeep, hslices₁, hscratch₁⟩ := runs_take (E := E) h hv hw hslices
            hscratch hx (by omega) hdone (by omega) t'
          obtain ⟨res, t₂, m₂, hrest, hkeep₂, hslices₂, hres⟩ := ih _ (by omega) t' m₁ (l + 1) r
            (done ++ [xs[l]]) hlt hr (by simp [hdone]; omega) (hv.keeps hkeep) (hw.keeps hkeep)
            hslices₁ hscratch₁ rfl
          rw [Nat.add_right_comm l 1 r] at hrest
          refine ⟨res, t₂, m₂, hasked.bind (hcopy.bind hrest), hkeep.trans hkeep₂, hslices₂,
            hres.imp_right ?_⟩
          rintro ⟨l', r', out, hres, hl', hr', hstop, hdone', hscratch₂, hmerge⟩
          refine ⟨l', r', xs[l] :: out, hres, hl', hr', hstop, ?_, ?_, ?_⟩
          · rw [← hdone', List.append_assoc]
            rfl
          · rwa [List.append_assoc] at hscratch₂
          · rw [hdropy] at hmerge
            exact .left ⟨t, congrArg Prod.fst hanswer⟩ hmerge
        | true =>
          obtain ⟨m₁, hcopy, hkeep, hslices₁, hscratch₁⟩ := runs_take (E := E) h hv hw hslices
            hscratch hy (by omega) hdone (by omega) t'
          obtain ⟨res, t₂, m₂, hrest, hkeep₂, hslices₂, hres⟩ := ih _ (by omega) t' m₁ l (r + 1)
            (done ++ [ys[r]]) hl hrt (by simp [hdone]; omega) (hv.keeps hkeep) (hw.keeps hkeep)
            hslices₁ hscratch₁ rfl
          refine ⟨res, t₂, m₂, hasked.bind (hcopy.bind hrest), hkeep.trans hkeep₂, hslices₂,
            hres.imp_right ?_⟩
          rintro ⟨l', r', out, hres, hl', hr', hstop, hdone', hscratch₂, hmerge⟩
          refine ⟨l', r', ys[r] :: out, hres, hl', hr', hstop, ?_, ?_, ?_⟩
          · rw [← hdone', List.append_assoc]
            rfl
          · rwa [List.append_assoc] at hscratch₂
          · rw [hdropx] at hmerge
            exact .right ⟨t, congrArg Prod.fst hanswer⟩ hmerge
    · have hstop : l = xs.length ∨ r = ys.length := by omega
      rw [mergeLoop, dif_neg (by omega)]
      refine ⟨_, t, m, .pure _ _, .refl v w m, hslices,
        .inr ⟨l, r, [], rfl, hl, hr, hstop, ?_, ?_, ?_⟩⟩
      · rw [List.append_nil, hdone]
      · rwa [List.append_nil]
      · rcases hstop with rfl | rfl
        · rw [List.drop_length]
          exact .nilLeft _
        · rw [List.drop_length, List.append_nil]
          exact .nilRight _

/-- What the loop leaves of one half goes to the end of the scratch. -/
theorem runs_copyRest (h : Paired v w) {xs ys out : List (T × U)} {l r : ℕ}
    (hlen : xs.length + ys.length = v.len) (hl : l ≤ xs.length) (hr : r ≤ ys.length)
    (hstop : l = xs.length ∨ r = ys.length) (hout : out.length = l + r) (hv : m.Room v)
    (hw : m.Room w) (hslices : m.Holds v 0 (xs ++ ys)) (hscratch : m.Holds w 0 out) (t : σ) :
    ∃ m', Runs (copyRest v w xs.length l (xs.length + r) (l + r) : Sorting σ E T U Unit) (t, m)
        (.ok ()) (t, m') ∧ Keeps v w m m' ∧ m'.Holds w 0 (out ++ (xs.drop l ++ ys.drop r)) := by
  have hroom := h.len
  unfold copyRest
  by_cases hleft : l < xs.length
  · obtain rfl : r = ys.length := hstop.resolve_left (by omega)
    obtain ⟨m', hrun, hc⟩ := runs_copyRangeTo (E := E) l (l + ys.length) (xs.length - l) hv hw h.ne
      (by omega) (by omega) t
    refine ⟨m', by rwa [if_pos hleft], h.keeps_scratch hc (by omega), ?_⟩
    rw [List.drop_length, List.append_nil, Holds.append, Nat.zero_add]
    refine ⟨hc.holds_before (by omega) hscratch, ?_⟩
    have hsplit : m.Holds v 0 (xs.take l ++ (xs.drop l ++ ys)) := by
      rwa [← List.append_assoc, List.take_append_drop]
    have hrest := hsplit.middle
    rw [List.length_take_of_le hl] at hrest
    rw [hout]
    exact Copied.holds (by rwa [List.length_drop]) hrest
  · obtain rfl : l = xs.length := by omega
    rw [if_neg hleft, List.drop_length, List.nil_append]
    by_cases hright : r < ys.length
    · obtain ⟨m', hrun, hc⟩ := runs_copyRangeTo (E := E) (xs.length + r) (xs.length + r)
        (ys.length - r) hv hw h.ne (by omega) (by omega) t
      have hcount : v.len - (xs.length + r) = ys.length - r := by omega
      refine ⟨m', by rwa [if_pos (by omega), hcount], h.keeps_scratch hc (by omega), ?_⟩
      rw [Holds.append, Nat.zero_add]
      refine ⟨hc.holds_before (by omega) hscratch, ?_⟩
      have hsplit : m.Holds v 0 ((xs ++ ys.take r) ++ (ys.drop r ++ [])) := by
        rwa [List.append_nil, List.append_assoc, List.take_append_drop]
      have hrest := hsplit.middle
      rw [List.length_append, List.length_take_of_le hr] at hrest
      rw [hout]
      exact Copied.holds (by rwa [List.length_drop]) hrest
    · obtain rfl : r = ys.length := by omega
      refine ⟨m, ?_, .refl v w m, ?_⟩
      · rw [if_neg (by omega)]
        exact .pure _ _
      · rwa [List.drop_length, List.append_nil]

/-- A merge of two halves changes the slices only if no comparison fails. -/
theorem runs_merge (isLess : Comparator σ E T) (h : Paired v w) {xs ys : List (T × U)} (hlen : xs.length + ys.length = v.len)
    (hxs : 0 < xs.length) (hys : 0 < ys.length) (hv : m.Room v) (hw : m.Room w)
    (hslices : m.Holds v 0 (xs ++ ys)) (t : σ) :
    ∃ res t' m', Runs (merge isLess v w xs.length) (t, m) res (t', m') ∧ Keeps v w m m' ∧
      ((∃ e, res = .error (.err e) ∧ Fails isLess e ∧ m'.Holds v 0 (xs ++ ys)) ∨
        ∃ out, res = .ok () ∧ Merges (Keep isLess) (Swap isLess) xs ys out ∧ m'.Holds v 0 out) := by
  have hempty : m.Holds w 0 ([] : List (T × U)) := ⟨fun _ _ => nofun, fun _ _ => nofun⟩
  obtain ⟨res, t', m', hloop, hkeep, hslices', hres⟩ := runs_mergeLoop isLess h hlen t m 0 0 []
    (Nat.zero_le _) (Nat.zero_le _) rfl hv hw hslices hempty
  unfold merge
  obtain ⟨e, rfl, hfails⟩ | ⟨l, r, out, rfl, hl, hr, hstop, hout, hscratch, hmerge⟩ := hres
  · refine ⟨_, t', m', ?_, hkeep, .inl ⟨e, rfl, hfails, hslices'⟩⟩
    exact (runs_check (by omega) _).bind <| (runs_check h.len _).bind <| hloop.bind_error _
  · rw [List.nil_append] at hout hscratch
    obtain ⟨m₁, hrest, hkeep₁, hscratch₁⟩ := runs_copyRest (E := E) h hlen hl hr hstop hout
      (hv.keeps hkeep) (hw.keeps hkeep) hslices' hscratch t'
    generalize hall : out ++ (xs.drop l ++ ys.drop r) = all at hscratch₁ hmerge
    have hlength : all.length = w.len := by
      rw [hmerge.perm.length_eq, List.length_append, List.drop_zero, List.drop_zero, hlen, h.len]
    obtain ⟨m₂, hback, hc⟩ := runs_copyRangeTo (E := E) 0 0 w.len
      ((hw.keeps hkeep).keeps hkeep₁) ((hv.keeps hkeep).keeps hkeep₁) h.ne.symm (by omega)
      (by have := h.len; omega) t'
    refine ⟨.ok (), t', m₂, ?_, (hkeep.trans hkeep₁).trans
      (h.keeps_slices hc (by have := h.len; omega)), .inr ⟨all, rfl, hmerge, ?_⟩⟩
    · exact (runs_check (by omega) _).bind <| (runs_check h.len _).bind <| hloop.bind <|
        hrest.bind <| (runs_check h.len.symm _).bind hback
    · exact Copied.holds (by rwa [hlength]) hscratch₁

theorem Paired.splitAt (h : Paired v w) (mid : ℕ) :
    Paired (v.splitAt mid).1 (w.splitAt mid).1 ∧ Paired (v.splitAt mid).2 (w.splitAt mid).2 :=
  ⟨⟨h.slices, h.scratch, rfl⟩, ⟨h.slices, h.scratch, congrArg (· - mid) h.len⟩⟩

/-- A swap of two neighbours. -/
theorem runs_swap (h : Paired v w) {x y : T × U} (hlen : v.len = 2) (hslices : m.Holds v 0 [x, y])
    (t : σ) :
    ∃ m', Runs (v.swap 0 1 : Sorting σ E T U Unit) (t, m) (.ok ()) (t, m') ∧ Keeps v w m m' ∧
      m'.Holds v 0 [y, x] := by
  obtain ⟨hl, hr⟩ := hslices
  have harea := h.slices
  rw [harea] at hl hr
  obtain ⟨l, hswapl, hkeepl, hl'⟩ := Column.exists_swapped (w := w.left) hl
  obtain ⟨r, hswapr, hkeepr, hr'⟩ := Column.exists_swapped (w := w.right) hr
  refine ⟨⟨l, r⟩, ?_, ⟨hlen ▸ hkeepl, hlen ▸ hkeepr⟩, ⟨harea ▸ hl', harea ▸ hr'⟩⟩
  refine (runs_check (by omega) _).bind <| (runs_check (by omega) _).bind ?_
  rw [harea]
  exact runs_change hswapl hswapr t

/-- What every run of `mergesort_core` ends with: the pairs of the slices are sorted by merging, or
a comparison has failed and they are rearranged. -/
theorem runs_mergesortCore (isLess : Comparator σ E T) (h : Paired v w) {xs : List (T × U)} (hlen : xs.length = v.len) (t : σ)
    (m : Memory T U) (hv : m.Room v) (hw : m.Room w) (hslices : m.Holds v 0 xs) :
    ∃ res t' m', Runs (mergesortCore isLess v w) (t, m) res (t', m') ∧ Keeps v w m m' ∧
      ((∃ e out, res = .error (.err e) ∧ Fails isLess e ∧ out.Perm xs ∧ m'.Holds v 0 out) ∨
        ∃ out, res = .ok () ∧ MergeSorts (Keep isLess) (Swap isLess) xs out ∧
          m'.Holds v 0 out) := by
  induction hn : v.len using Nat.strongRecOn generalizing v w xs t m with
  | _ n ih =>
    rw [mergesortCore]
    by_cases hlong : 2 < v.len
    · -- Sort both halves and merge them.
      rw [dif_pos hlong]
      have hmid : v.len / 2 ≤ v.len := Nat.div_le_self _ _
      obtain ⟨mid, hmid'⟩ : ∃ mid, mid = v.len / 2 := ⟨_, rfl⟩
      rw [← hmid'] at hmid ⊢
      have hxs : (xs.take mid).length = mid := List.length_take_of_le (by omega)
      have hys : (xs.drop mid).length = v.len - mid := by rw [List.length_drop, hlen]
      obtain ⟨hp₁, hp₂⟩ := h.splitAt mid
      obtain ⟨hv₁, hv₂⟩ := hv.splitAt hmid
      obtain ⟨hw₁, hw₂⟩ := hw.splitAt (h.len ▸ hmid)
      rw [← List.take_append_drop mid xs, holds_splitAt hxs] at hslices
      obtain ⟨hslices₁, hslices₂⟩ := hslices
      obtain ⟨res, t₁, m₁, hrun₁, hkeep₁, hres₁⟩ := ih mid (by omega) hp₁ hxs t m hv₁ hw₁ hslices₁
        rfl
      replace hslices₂ := hkeep₁.holds_right h.slices hslices₂
      have hwhole₁ := hkeep₁.of_left hmid
      obtain ⟨e, out₁, rfl, hfails, hperm, hout₁⟩ | ⟨out₁, rfl, hsorts₁, hout₁⟩ := hres₁
      · refine ⟨_, t₁, m₁, (runs_check hmid _).bind <| (runs_check (h.len ▸ hmid) _).bind <|
          hrun₁.bind_error _, hwhole₁, .inl ⟨e, out₁ ++ xs.drop mid, rfl, hfails, ?_, ?_⟩⟩
        · rw [← List.take_append_drop mid xs, List.drop_left' hxs]
          exact hperm.append_right _
        · exact (holds_splitAt (hperm.length_eq.trans hxs)).mpr ⟨hout₁, hslices₂⟩
      have hlen₁ := hsorts₁.perm.length_eq.trans hxs
      obtain ⟨res, t₂, m₂, hrun₂, hkeep₂, hres₂⟩ := ih (v.len - mid) (by omega) hp₂ hys t₁ m₁
        (hv₂.keeps hwhole₁) (hw₂.keeps hwhole₁) hslices₂ rfl
      replace hout₁ := hkeep₂.holds_left h.slices hlen₁ hout₁
      have hwhole₂ := hwhole₁.trans (hkeep₂.of_right hmid)
      have hperm₁ := hsorts₁.perm
      obtain ⟨e, out₂, rfl, hfails, hperm, hout₂⟩ | ⟨out₂, rfl, hsorts₂, hout₂⟩ := hres₂
      · refine ⟨_, t₂, m₂, (runs_check hmid _).bind <| (runs_check (h.len ▸ hmid) _).bind <|
          hrun₁.bind <| hrun₂.bind_error _, hwhole₂, .inl ⟨e, out₁ ++ out₂, rfl, hfails, ?_, ?_⟩⟩
        · have happend := hperm₁.append hperm
          rwa [List.take_append_drop] at happend
        · exact (holds_splitAt hlen₁).mpr ⟨hout₁, hout₂⟩
      have hlen₂ := hsorts₂.perm.length_eq.trans hys
      have hperm₂ := hsorts₂.perm
      have hboth := (holds_splitAt hlen₁).mpr ⟨hout₁, hout₂⟩
      obtain ⟨res, t₃, m₃, hrun₃, hkeep₃, hres₃⟩ := runs_merge isLess h
        (by omega) (by omega) (by omega) (hv.keeps hwhole₂) (hw.keeps hwhole₂) hboth t₂
      rw [hlen₁] at hrun₃
      refine ⟨res, t₃, m₃, (runs_check hmid _).bind <| (runs_check (h.len ▸ hmid) _).bind <|
        hrun₁.bind <| hrun₂.bind hrun₃, hwhole₂.trans hkeep₃, ?_⟩
      obtain ⟨e, rfl, hfails, hout⟩ | ⟨out, rfl, hmerge, hout⟩ := hres₃
      · have happend := hperm₁.append hperm₂
        rw [List.take_append_drop] at happend
        exact .inl ⟨e, _, rfl, hfails, happend, hout⟩
      · have hsorts := MergeSorts.merge hsorts₁ hsorts₂ hmerge
        rw [List.take_append_drop] at hsorts
        exact .inr ⟨out, rfl, hsorts, hout⟩
    · rw [dif_neg hlong]
      by_cases htwo : v.len = 2
      · rw [if_pos htwo]
        match xs, hlen.trans htwo with
        | [x, y], _ =>
          have hasked := runs_compare isLess hslices (show [x, y][1]? = some y from rfl)
            (show [x, y][0]? = some x from rfl) (by omega) (by omega) t
          generalize hanswer : isLess t y.1 x.1 = answer at hasked
          obtain ⟨answer, t'⟩ := answer
          cases answer with
          | error e =>
            exact ⟨_, t', m, hasked.bind_error _, .refl v w m,
              .inl ⟨e, _, rfl, ⟨t, _, _, congrArg Prod.fst hanswer⟩, .refl _, hslices⟩⟩
          | ok less =>
            have hone : ∀ z : T × U, MergeSorts (Keep isLess) (Swap isLess) [z] [z] :=
              fun z => .short (Nat.le_refl _)
            cases less with
            | false =>
              refine ⟨_, t', m, hasked.bind (.pure _ _), .refl v w m, .inr ⟨_, rfl, ?_, hslices⟩⟩
              exact .merge (hone x) (hone y) (.left ⟨t, congrArg Prod.fst hanswer⟩ (.nilLeft _))
            | true =>
              obtain ⟨m', hswap, hkeep, hslices'⟩ := runs_swap (E := E) h htwo hslices t'
              refine ⟨_, t', m', hasked.bind hswap, hkeep, .inr ⟨_, rfl, ?_, hslices'⟩⟩
              exact .merge (hone x) (hone y) (.right ⟨t, congrArg Prod.fst hanswer⟩ (.nilRight _))
      · rw [if_neg htwo]
        exact ⟨_, t, m, .pure _ _, .refl v w m, .inr ⟨xs, rfl, .short (by omega), hslices⟩⟩

/-- The slices and the scratch that `sort_by` starts with. -/
theorem holds_start (xs : List (T × U)) :
    (⟨column (xs.map Prod.fst), column (xs.map Prod.snd)⟩ : Memory T U).Holds
      ⟨.slices, 0, 0, xs.length⟩ 0 xs := by
  constructor
  · intro i x hx
    simp only [Nat.add_zero, Nat.zero_add, column, List.getElem?_map] at hx ⊢
    rw [hx]
    rfl
  · intro i x hx
    simp only [Nat.add_zero, Nat.zero_add, column, List.getElem?_map] at hx ⊢
    rw [hx]
    rfl

/-- What a slice of the length of `xs` holds is all of it. -/
theorem Column.Holds.eq {c : Column α} {xs : List α} (h : c.Holds .slices 0 xs)
    (hlen : (c .slices).length = xs.length) : c .slices = xs.map some := by
  refine List.ext_getElem? fun i => ?_
  rw [List.getElem?_map]
  rcases Nat.lt_or_ge i xs.length with hi | hi
  · rw [List.getElem?_eq_getElem hi]
    have hcell := h i _ (List.getElem?_eq_getElem hi)
    rwa [Nat.zero_add] at hcell
  · rw [List.getElem?_eq_none hi, List.getElem?_eq_none (hlen ▸ hi)]
    rfl

/-- How `sort_by` ends, in terms of the pairs. -/
theorem sortBy_spec (isLess : Comparator σ E T) (xs : List (T × U)) (s : σ) :
    ∃ res s' out, sortBy isLess (xs.map Prod.fst) (xs.map Prod.snd) s =
        (res, s', (out.map Prod.fst).map some, (out.map Prod.snd).map some) ∧
      ((∃ e, res = .error (.err e) ∧ Fails isLess e ∧ out.Perm xs) ∨
        res = .ok () ∧ MergeSorts (Keep isLess) (Swap isLess) xs out) := by
  unfold sortBy sortMemory
  rw [if_neg (by simp), List.length_map]
  by_cases hshort : xs.length < 2
  · rw [if_pos hshort]
    exact ⟨_, _, xs, rfl, .inr ⟨rfl, .short (by omega)⟩⟩
  · rw [if_neg hshort]
    obtain ⟨res, s', m', hrun, hkeep, hres⟩ := runs_mergesortCore isLess
      (v := ⟨.slices, 0, 0, xs.length⟩) (w := ⟨.scratch, 0, 0, xs.length⟩) ⟨rfl, rfl, rfl⟩ rfl s
      ⟨column (xs.map Prod.fst), column (xs.map Prod.snd)⟩ ⟨by simp [column], by simp [column]⟩
      ⟨by simp [column], by simp [column]⟩ (holds_start xs)
    have hslices : ∀ out : List (T × U), out.Perm xs → m'.Holds ⟨.slices, 0, 0, xs.length⟩ 0 out →
        m'.left .slices = (out.map Prod.fst).map some ∧
          m'.right .slices = (out.map Prod.snd).map some := by
      intro out hperm hout
      refine ⟨hout.left.eq ?_, hout.right.eq ?_⟩
      · rw [hkeep.left.lengths, List.length_map, hperm.length_eq]
        simp [column]
      · rw [hkeep.right.lengths, List.length_map, hperm.length_eq]
        simp [column]
    rw [Runs] at hrun
    rw [hrun]
    dsimp only
    obtain ⟨e, out, rfl, hfails, hperm, hout⟩ | ⟨out, rfl, hsorts, hout⟩ := hres
    · obtain ⟨hl, hr⟩ := hslices out hperm hout
      exact ⟨_, s', out, by rw [hl, hr], .inl ⟨e, rfl, hfails, hperm⟩⟩
    · obtain ⟨hl, hr⟩ := hslices out hsorts.perm hout
      exact ⟨_, s', out, by rw [hl, hr], .inr ⟨rfl, hsorts⟩⟩

/-- **The lockstep sort is a stable sort that loses nothing.** Whatever the comparator answers, the
sort does nothing undefined, ends with an error only if a comparison failed with it, and leaves the
pairs of the slices rearranged, all of them initialised. If it ends without an error and the
comparator is a strict weak order, then the pairs are sorted, and those that are tied are in their
order. -/
theorem sort_by_stable (isLess : Comparator σ E T) (left : List T) (right : List U)
    (hlen : left.length = right.length) (s : σ) :
    ∃ (res : Except (Fault E) Unit) (s' : σ) (left' : List T) (right' : List U),
      sortBy isLess left right s = (res, s', left'.map some, right'.map some) ∧
      left'.length = left.length ∧ right'.length = right.length ∧
      (left'.zip right').Perm (left.zip right) ∧
      (res = .ok () ∨ ∃ e, res = .error (.err e) ∧ Fails isLess e) ∧
      (res = .ok () → ∀ lt : T → T → Bool, IsStrictWeakOrder T (fun a b => lt a b = true) →
        (∀ t a b answer, (isLess t a b).1 = .ok answer → answer = lt a b) →
        SortedBy (fun p q => lt p.1 q.1) (left'.zip right') ∧
          StableBy (fun p q => lt p.1 q.1) (left.zip right) (left'.zip right')) := by
  obtain ⟨res, s', out, hsort, hres⟩ := sortBy_spec isLess (left.zip right) s
  rw [List.map_fst_zip (Nat.le_of_eq hlen), List.map_snd_zip (Nat.le_of_eq hlen.symm)] at hsort
  have hzip : (out.map Prod.fst).zip (out.map Prod.snd) = out :=
    (List.zip_of_prod rfl rfl).symm
  have hperm : out.Perm (left.zip right) := by
    obtain ⟨-, -, -, hperm⟩ | ⟨-, hsorts⟩ := hres
    · exact hperm
    · exact hsorts.perm
  have hlength : out.length = left.length := by
    rw [hperm.length_eq, List.length_zip, hlen, Nat.min_self]
  refine ⟨res, s', out.map Prod.fst, out.map Prod.snd, hsort, by rw [List.length_map, hlength],
    by rw [List.length_map, hlength, hlen], hzip.symm ▸ hperm, ?_, ?_⟩
  · obtain ⟨e, he, hfails, -⟩ | ⟨hok, -⟩ := hres
    · exact .inr ⟨e, he, hfails⟩
    · exact .inl hok
  · intro hok lt hlt hanswers
    obtain ⟨e, rfl, -⟩ | ⟨-, hsorts⟩ := hres
    · cases hok
    · rw [hzip]
      have hpairs : IsStrictWeakOrder (T × U) fun p q => lt p.1 q.1 = true :=
        inferInstanceAs (IsStrictWeakOrder _ (Function.onFun (fun a b => lt a b = true) Prod.fst))
      have hkeep : ∀ x y : T × U, Keep isLess x y → lt y.1 x.1 = false :=
        fun x y ⟨t, h⟩ => (hanswers t _ _ _ h).symm
      have hswap : ∀ x y : T × U, Swap isLess x y → lt y.1 x.1 = true :=
        fun x y ⟨t, h⟩ => (hanswers t _ _ _ h).symm
      exact ⟨hsorts.sorted hpairs hkeep hswap, hsorts.stable hpairs hkeep hswap⟩

/-- The comparison of numbers, which never fails. -/
def byNumber : Comparator Unit Empty ℕ := fun s a b => (.ok (decide (a < b)), s)

theorem sort_numbers :
    ∃ (left' : List ℕ) (right' : List Char), sortBy byNumber [2, 1, 2] ['a', 'b', 'c'] () =
        (.ok (), (), left'.map some, right'.map some) ∧
      SortedBy (fun p q => decide (p.1 < q.1)) (left'.zip right') := by
  obtain ⟨res, s', left', right', hsort, -, -, -, hres, hstable⟩ :=
    sort_by_stable byNumber [2, 1, 2] ['a', 'b', 'c'] rfl ()
  obtain rfl : res = .ok () := hres.resolve_right fun ⟨e, _⟩ => e.elim
  have hlt : IsStrictWeakOrder ℕ fun a b => decide (a < b) = true := by
    simp only [decide_eq_true_eq]
    exact isStrictWeakOrder_of_isOrderConnected
  refine ⟨left', right', hsort, (hstable rfl (fun a b => decide (a < b)) hlt ?_).1⟩
  intro t a b answer h
  exact (Except.ok.inj h).symm

end

end Dolang.Util.PairSort
