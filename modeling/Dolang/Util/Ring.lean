import Mathlib.Data.List.Chain
import Mathlib.Logic.Function.Basic
import Dolang.Lib.Service

/-!
# Intrusive rings

`ring.rs`: the links of a doubly linked ring lie in its items, and the ring itself is a link that
stands before the first item and after the last one. A link that is in no ring points to itself. Any
number of rings over the same links refine as many lists (`links_refine_lists`): each operation
rewrites a few pointers, wherever in whichever ring its item is.
-/

namespace Dolang.Util.Ring

/-- The links at all addresses. -/
structure Links where
  prev : ℕ → ℕ
  next : ℕ → ℕ

namespace Links

variable (m : Links) (link ring item dest : ℕ)

/-- All links point to themselves. -/
def new : Links where
  prev := id
  next := id

/-- Sets the `next` of a link. -/
def setNext (target : ℕ) : Links :=
  { m with next := Function.update m.next link target }

/-- Sets the `prev` of a link. -/
def setPrev (target : ℕ) : Links :=
  { m with prev := Function.update m.prev link target }

/-- `Link::init`. -/
def init : Links :=
  (m.setNext link link).setPrev link link

/-- `Link::remove`. -/
def remove : Links :=
  let m := m.setNext (m.prev link) (m.next link)
  let m := m.setPrev (m.next link) (m.prev link)
  m.init link

/-- `Link::in_ring`. -/
def inRing : Bool :=
  m.next link != link

/-- `Ring::push_front`, which asserts that the item is in no ring. -/
def pushFront : Option Links :=
  if m.inRing item then none
  else
    let m := m.setNext item (m.next ring)
    let m := m.setPrev item ring
    let m := m.setPrev (m.next ring) item
    some (m.setNext ring item)

/-- `Ring::pop_front`. -/
def popFront : Links × Option ℕ :=
  if m.next ring = ring then (m, none)
  else (m.remove (m.next ring), some (m.next ring))

/-- `Ring::migrate`. -/
def migrate : Links :=
  if m.next ring = ring then m
  else
    let m := m.setNext (m.prev dest) (m.next ring)
    let m := m.setPrev (m.next ring) (m.prev dest)
    let m := m.setNext (m.prev ring) dest
    let m := m.setPrev dest (m.prev ring)
    m.init ring

/-- `Iter::next` from a link on, up to some number of times. -/
def iter (cur : ℕ) : ℕ → List ℕ
  | 0 => []
  | n + 1 => if m.next cur = ring then [] else m.next cur :: iter (m.next cur) n

end Links

/-! ### Operations -/

/-- An operation on some rings. -/
inductive Op where
  | pushFront (ring item : ℕ)
  | popFront (ring : ℕ)
  | remove (item : ℕ)
  | migrate (ring dest : ℕ)
  | inRing (item : ℕ)
  /-- The first items of a ring. -/
  | take (ring count : ℕ)

/-- The answer to an operation. -/
inductive Answer where
  | done
  | panicked
  | popped (item : Option ℕ)
  | flag (found : Bool)
  | items (items : List ℕ)
  deriving DecidableEq

/-- What an operation does to links. -/
def Links.serve (m : Links) : Op → Links × Answer
  | .pushFront ring item =>
    match m.pushFront ring item with
    | some m => (m, .done)
    | none => (m, .panicked)
  | .popFront ring => ((m.popFront ring).1, .popped (m.popFront ring).2)
  | .remove item => (m.remove item, .done)
  | .migrate ring dest => (m.migrate ring dest, .done)
  | .inRing item => (m, .flag (m.inRing item))
  | .take ring count => (m, .items (m.iter ring ring count))

/-- The items of each ring. -/
abbrev Lists := ℕ → List ℕ

namespace Lists

/-- What an operation means for lists, of which the first `rings` are in use. -/
def serve (rings : ℕ) (lists : Lists) : Op → Lists × Answer
  | .pushFront ring item =>
    if (List.range rings).any fun r => item ∈ lists r then (lists, .panicked)
    else (Function.update lists ring (item :: lists ring), .done)
  | .popFront ring => (Function.update lists ring (lists ring).tail, .popped (lists ring).head?)
  | .remove item => (fun r => (lists r).erase item, .done)
  | .migrate ring dest =>
    (Function.update (Function.update lists dest (lists dest ++ lists ring)) ring [], .done)
  | .inRing item => (lists, .flag ((List.range rings).any fun r => item ∈ lists r))
  | .take ring count => (lists, .items ((lists ring).take count))

end Lists

/-- An operation names rings below `rings` and items that are none of them. A ring is not migrated
to itself. -/
def Op.Fits (rings : ℕ) : Op → Prop
  | .pushFront ring item => ring < rings ∧ rings ≤ item
  | .popFront ring | .take ring _ => ring < rings
  | .remove item | .inRing item => rings ≤ item
  | .migrate ring dest => ring < rings ∧ dest < rings ∧ ring ≠ dest

/-! ### Chains -/

namespace Links

variable {m m' : Links} {rings : ℕ} {lists : Lists} {ring dest item a b : ℕ} {l : List ℕ}

/-- Two neighbours point to each other. -/
def Joined (m : Links) (a b : ℕ) : Prop :=
  m.next a = b ∧ m.prev b = a

/-- A chain reads the `next` of all but its last link and the `prev` of all but its first one. -/
theorem chain_congr (h : l.IsChain m.Joined) (hnext : ∀ a ∈ l.dropLast, m'.next a = m.next a)
    (hprev : ∀ b ∈ l.tail, m'.prev b = m.prev b) : l.IsChain m'.Joined := by
  induction l with
  | nil => exact .nil
  | cons a l ih =>
    cases l with
    | nil => exact .singleton a
    | cons b l =>
      obtain ⟨hab, hl⟩ := List.isChain_cons_cons.mp h
      refine List.isChain_cons_cons.mpr ⟨⟨?_, ?_⟩, ih hl ?_ ?_⟩
      · rw [hnext a List.mem_cons_self, hab.1]
      · rw [hprev b List.mem_cons_self, hab.2]
      · exact fun c hc => hnext c (List.mem_cons_of_mem a hc)
      · exact fun c hc => hprev c (List.mem_cons_of_mem b hc)

/-- The first `rings` addresses are rings, whose items are the lists. -/
structure Stands (rings : ℕ) (m : Links) (lists : Lists) : Prop where
  chained : ∀ r < rings, (r :: lists r ++ [r]).IsChain m.Joined
  nodup : ∀ r < rings, (lists r).Nodup
  items : ∀ r < rings, ∀ a ∈ lists r, rings ≤ a
  apart : ∀ r < rings, ∀ q < rings, r ≠ q → ∀ a ∈ lists r, a ∉ lists q
  alone : ∀ a, rings ≤ a → (∀ r < rings, a ∉ lists r) → m.next a = a ∧ m.prev a = a

theorem stands_new (rings : ℕ) : Stands rings new fun _ => [] where
  chained _ _ := List.isChain_pair.mpr ⟨rfl, rfl⟩
  nodup _ _ := .nil
  items _ _ _ ha := absurd ha List.not_mem_nil
  apart _ _ _ _ _ _ ha := absurd ha List.not_mem_nil
  alone _ _ _ := ⟨rfl, rfl⟩

/-- Only the lists of the rings count. -/
theorem Stands.congr {lists' : Lists} (h : Stands rings m lists)
    (hl : ∀ r < rings, lists' r = lists r) : Stands rings m lists' where
  chained r hr := hl r hr ▸ h.chained r hr
  nodup r hr := hl r hr ▸ h.nodup r hr
  items r hr := hl r hr ▸ h.items r hr
  apart r hr q hq := hl r hr ▸ hl q hq ▸ h.apart r hr q hq
  alone a ha hnone := h.alone a ha fun r hr => hl r hr ▸ hnone r hr

/-- The first item of a ring, or the ring itself. -/
theorem Stands.next_ring (h : Stands rings m lists) (hr : ring < rings) :
    m.next ring = (lists ring).head?.getD ring := by
  have hchain := h.chained ring hr
  cases hl : lists ring with
  | nil =>
    rw [hl] at hchain
    exact (List.isChain_pair.mp hchain).1
  | cons a l =>
    rw [hl] at hchain
    exact (List.isChain_cons_cons.mp hchain).1.1

theorem Stands.next_ring_eq (h : Stands rings m lists) (hr : ring < rings) :
    m.next ring = ring ↔ lists ring = [] := by
  rw [h.next_ring hr]
  cases hl : lists ring with
  | nil => exact iff_of_true rfl rfl
  | cons a l =>
    have hle := h.items ring hr a (hl ▸ List.mem_cons_self)
    refine iff_of_false (fun heq => ?_) (List.cons_ne_nil a l)
    rw [List.head?_cons, Option.getD_some] at heq
    omega

/-- An item does not point to itself exactly when it is in a ring. -/
theorem Stands.inRing_eq (h : Stands rings m lists) (hitem : rings ≤ item) :
    m.inRing item = (List.range rings).any fun r => item ∈ lists r := by
  unfold inRing
  rw [Bool.eq_iff_iff, bne_iff_ne, List.any_eq_true]
  constructor
  · intro hne
    by_contra hnone
    refine hne (h.alone item hitem fun r hr hmem => hnone ?_).1
    exact ⟨r, List.mem_range.mpr hr, decide_eq_true hmem⟩
  · rintro ⟨r, hr, hmem⟩
    have hr := List.mem_range.mp hr
    have hmem := of_decide_eq_true hmem
    obtain ⟨l₁, l₂, hl⟩ := List.append_of_mem hmem
    have hchain := h.chained r hr
    have hnodup := h.nodup r hr
    have hitems := h.items r hr
    rw [hl] at hchain hnodup hitems
    -- The next link is the next item or the ring itself.
    obtain ⟨-, hchain⟩ := List.isChain_split.mp
      (show ((r :: l₁) ++ item :: (l₂ ++ [r])).IsChain m.Joined by simpa using hchain)
    intro hself
    cases l₂ with
    | nil =>
      have hnext := (List.isChain_pair.mp hchain).1
      omega
    | cons b l₂ =>
      have hnext := (List.isChain_cons_cons.mp hchain).1.1
      rw [hself] at hnext
      have hcons := (List.nodup_append.mp hnodup).2.1
      rw [hnext] at hcons
      exact (List.nodup_cons.mp hcons).1 List.mem_cons_self

/-! ### Surgery -/

theorem next_remove (m : Links) (item a : ℕ) :
    (m.remove item).next a =
      if a = item then item else if a = m.prev item then m.next item else m.next a := by
  unfold remove init setNext setPrev
  dsimp only
  rw [Function.update_apply, Function.update_apply]

theorem prev_remove (m : Links) (item a : ℕ) :
    (m.remove item).prev a =
      if a = item then item else if a = m.next item then m.prev item else m.prev a := by
  unfold remove init setNext setPrev
  dsimp only
  rw [Function.update_apply, Function.update_apply, Function.update_apply]
  congr 2
  split_ifs with heq
  · rw [heq]
  · rfl

/-- A chain that none of the links is in that are rewritten. -/
theorem chain_frame (h : l.IsChain m.Joined)
    (hl : ∀ a ∈ l, m'.next a = m.next a ∧ m'.prev a = m.prev a) : l.IsChain m'.Joined :=
  chain_congr h (fun a ha => (hl a (List.dropLast_subset l ha)).1)
    fun b hb => (hl b (List.mem_of_mem_tail hb)).2

/-- The neighbours of an item of a ring. -/
theorem exists_neighbours {l₁ l₂ : List ℕ}
    (h : (ring :: (l₁ ++ item :: l₂) ++ [ring]).IsChain m.Joined) :
    ∃ p q, ring :: l₁ = p ++ [m.prev item] ∧ l₂ ++ [ring] = m.next item :: q ∧
      (p ++ [m.prev item]).IsChain m.Joined ∧ (m.next item :: q).IsChain m.Joined := by
  obtain ⟨p, a, hp⟩ : ∃ p a, ring :: l₁ = p ++ [a] :=
    ⟨_, _, (List.dropLast_append_getLast (List.cons_ne_nil ring l₁)).symm⟩
  obtain ⟨b, q, hq⟩ : ∃ b q, l₂ ++ [ring] = b :: q :=
    List.exists_cons_of_ne_nil (List.append_ne_nil_of_right_ne_nil l₂ (List.cons_ne_nil _ _))
  have hall : ring :: (l₁ ++ item :: l₂) ++ [ring] = p ++ a :: item :: b :: q := by
    rw [← hq, List.append_cons p a, ← hp]
    simp
  rw [hall, List.isChain_append_cons_cons, List.isChain_cons_cons] at h
  obtain ⟨hleft, ⟨-, hprev⟩, ⟨hnext, -⟩, hright⟩ := h
  subst hprev hnext
  exact ⟨p, q, hp, hq, hleft, hright⟩

/-- A ring closes behind an item that leaves it. -/
theorem chain_remove {l₁ l₂ : List ℕ} (hnodup : (ring :: (l₁ ++ item :: l₂)).Nodup)
    (h : (ring :: (l₁ ++ item :: l₂) ++ [ring]).IsChain m.Joined) :
    (ring :: (l₁ ++ l₂) ++ [ring]).IsChain (m.remove item).Joined := by
  obtain ⟨p, q, hp, hq, hleft, hright⟩ := exists_neighbours h
  have hall : ring :: (l₁ ++ l₂) ++ [ring] = p ++ m.prev item :: m.next item :: q := by
    rw [← hq, List.append_cons p, ← hp]
    simp
  have hprev : m.prev item ∈ ring :: l₁ := hp ▸ List.mem_append_right p List.mem_cons_self
  have hnext : m.next item ∈ l₂ ++ [ring] := hq ▸ List.mem_cons_self
  have hdrop : p = (ring :: l₁).dropLast := by rw [hp, List.dropLast_concat]
  have hnodupl : (p ++ [m.prev item]).Nodup := hp ▸ by grind
  have hnodupr : (m.next item :: q).Nodup := hq ▸ by grind
  rw [hall, List.isChain_append_cons_cons]
  refine ⟨chain_congr hleft ?_ ?_, ⟨?_, ?_⟩, chain_congr hright ?_ ?_⟩
  · intro a ha
    rw [List.dropLast_concat] at ha
    rw [next_remove]
    grind
  · intro b hb
    rw [← hp, List.tail_cons] at hb
    rw [prev_remove]
    grind
  · rw [next_remove]
    grind
  · rw [prev_remove]
    grind
  · intro a ha
    rw [← hq, List.dropLast_concat] at ha
    rw [next_remove]
    grind
  · intro b hb
    rw [List.tail_cons] at hb
    have hb' : b ∈ l₂ ++ [ring] := hq ▸ List.mem_cons_of_mem _ hb
    rw [prev_remove]
    grind

/-- A link that is in no ring stays as it is. -/
theorem remove_alone (hnext : m.next item = item) (hprev : m.prev item = item) :
    (m.remove item).next = m.next ∧ (m.remove item).prev = m.prev := by
  constructor
  · funext a
    rw [next_remove, hnext, hprev]
    split_ifs with ha
    · rw [ha, hnext]
    · rfl
  · funext a
    rw [prev_remove, hnext, hprev]
    split_ifs with ha
    · rw [ha, hprev]
    · rfl

/-- The links of other rings are none of those that are rewritten. -/
theorem Stands.neighbours (h : Stands rings m lists) (hr : ring < rings)
    (hmem : item ∈ lists ring) :
    (m.prev item = ring ∨ m.prev item ∈ lists ring) ∧
      (m.next item = ring ∨ m.next item ∈ lists ring) := by
  obtain ⟨l₁, l₂, hl⟩ := List.append_of_mem hmem
  obtain ⟨p, q, hp, hq, -⟩ := exists_neighbours (hl ▸ h.chained ring hr)
  have hprev : m.prev item ∈ ring :: l₁ := hp ▸ List.mem_append_right p List.mem_cons_self
  have hnext : m.next item ∈ l₂ ++ [ring] := hq ▸ List.mem_cons_self
  rw [hl]
  constructor <;> grind

/-- A link of another ring. -/
theorem Stands.other (h : Stands rings m lists) {other : ℕ} (hr : ring < rings)
    (ho : other < rings) (hne : ring ≠ other) (ha : a ∈ other :: lists other ++ [other])
    (hb : b = ring ∨ b ∈ lists ring) : a ≠ b := by
  have hitems := h.items
  have hapart := h.apart ring hr other ho hne
  have hback := h.items other ho
  have hleft := h.items ring hr
  grind

theorem Stands.remove (h : Stands rings m lists) (hitem : rings ≤ item) :
    Stands rings (m.remove item) fun r => (lists r).erase item := by
  by_cases hin : ∃ r < rings, item ∈ lists r
  · obtain ⟨ring, hr, hmem⟩ := hin
    obtain ⟨hprev, hnext⟩ := h.neighbours hr hmem
    have herase : ∀ r < rings, r ≠ ring → (lists r).erase item = lists r := fun r hlt hne =>
      List.erase_of_not_mem fun hmem' => h.apart r hlt ring hr hne item hmem' hmem
    refine ⟨fun r hlt => ?_, fun r hlt => (h.nodup r hlt).erase item, fun r hlt a ha => ?_,
      fun r hlt q hq hne a ha ha' => ?_, fun a ha hnone => ?_⟩
    · by_cases hne : r = ring
      · subst hne
        obtain ⟨l₁, l₂, hl⟩ := List.append_of_mem hmem
        have hnodup := h.nodup r hlt
        have hitems := h.items r hlt
        have hchain := h.chained r hlt
        rw [hl] at hnodup hitems hchain
        have hcons : (r :: (l₁ ++ item :: l₂)).Nodup :=
          List.nodup_cons.mpr ⟨fun hself => Nat.not_le_of_lt hlt (hitems r hself), hnodup⟩
        have hl' : (lists r).erase item = l₁ ++ l₂ := by
          rw [hl, List.erase_append_right _ (by grind), List.erase_cons_head]
        rw [hl']
        exact chain_remove hcons hchain
      · rw [herase r hlt hne]
        refine chain_frame (h.chained r hlt) fun a ha => ?_
        have hself := h.other hr hlt (Ne.symm hne) ha (.inr hmem)
        have hp := h.other hr hlt (Ne.symm hne) ha hprev
        have hn := h.other hr hlt (Ne.symm hne) ha hnext
        rw [next_remove, prev_remove, if_neg hself, if_neg hself, if_neg hp, if_neg hn]
        exact ⟨rfl, rfl⟩
    · exact h.items r hlt a (List.mem_of_mem_erase ha)
    · exact h.apart r hlt q hq hne a (List.mem_of_mem_erase ha) (List.mem_of_mem_erase ha')
    · rw [next_remove, prev_remove]
      by_cases hself : a = item
      · rw [if_pos hself, if_pos hself, hself]
        exact ⟨rfl, rfl⟩
      · have hout : ∀ r < rings, a ∉ lists r := fun r hlt hmem' =>
          hnone r hlt ((List.mem_erase_of_ne hself).mpr hmem')
        have hout' := hout ring hr
        rw [if_neg hself, if_neg hself, if_neg (by rintro rfl; grind),
          if_neg (by rintro rfl; grind)]
        exact h.alone a ha hout
  · have hout : ∀ r < rings, item ∉ lists r := fun r hr hmem => hin ⟨r, hr, hmem⟩
    obtain ⟨hnext, hprev⟩ := h.alone item hitem hout
    obtain ⟨hn, hp⟩ := remove_alone hnext hprev
    have herase : ∀ r < rings, (lists r).erase item = lists r := fun r hr =>
      List.erase_of_not_mem (hout r hr)
    refine ⟨fun r hr => ?_, fun r hr => ?_, fun r hr => ?_, fun r hr q hq => ?_,
      fun a ha hnone => ?_⟩
    · rw [herase r hr]
      exact chain_frame (h.chained r hr) fun a _ => ⟨congrFun hn a, congrFun hp a⟩
    · rw [herase r hr]
      exact h.nodup r hr
    · rw [herase r hr]
      exact h.items r hr
    · rw [herase r hr, herase q hq]
      exact h.apart r hr q hq
    · rw [hn, hp]
      exact h.alone a ha fun r hr => herase r hr ▸ hnone r hr

/-! ### Additions -/

theorem next_pushFront {m m' : Links} (h : m.pushFront ring item = some m') (a : ℕ) :
    m'.next a = if a = ring then item else if a = item then m.next ring else m.next a := by
  unfold pushFront at h
  split_ifs at h
  obtain rfl := Option.some.inj h
  unfold setNext setPrev
  dsimp only
  rw [Function.update_apply, Function.update_apply]

theorem prev_pushFront {m m' : Links} (h : m.pushFront ring item = some m') (hne : item ≠ ring)
    (a : ℕ) :
    m'.prev a = if a = m.next ring then item else if a = item then ring else m.prev a := by
  unfold pushFront at h
  split_ifs at h
  obtain rfl := Option.some.inj h
  unfold setNext setPrev
  dsimp only
  rw [Function.update_of_ne (Ne.symm hne), Function.update_apply, Function.update_apply]

theorem Stands.pushFront (h : Stands rings m lists) (hr : ring < rings) (hitem : rings ≤ item)
    (hout : ∀ r < rings, item ∉ lists r) (hm : m.pushFront ring item = some m') :
    Stands rings m' (Function.update lists ring (item :: lists ring)) := by
  have hne : item ≠ ring := by omega
  have hfirst : m.next ring = ring ∨ m.next ring ∈ lists ring := by
    rw [h.next_ring hr]
    cases lists ring with
    | nil => exact .inl rfl
    | cons a l => exact .inr List.mem_cons_self
  have hfirst' : m.next ring ≠ item := by
    rintro heq
    rw [heq] at hfirst
    obtain hring | hmem := hfirst
    · exact hne hring
    · exact hout ring hr hmem
  refine ⟨fun r hlt => ?_, fun r hlt => ?_, fun r hlt a ha => ?_, fun r hlt q hq hrq a ha ha' => ?_,
    fun a ha hnone => ?_⟩
  · by_cases hrr : r = ring
    · subst hrr
      have hchain := h.chained r hlt
      have hnodup := h.nodup r hlt
      have hitems := h.items r hlt
      have hitem' := hout r hlt
      obtain ⟨x, q, hq⟩ : ∃ x q, lists r ++ [r] = x :: q :=
        List.exists_cons_of_ne_nil (List.append_ne_nil_of_right_ne_nil _ (List.cons_ne_nil _ _))
      have hx : m.next r = x := by
        rw [List.cons_append, hq] at hchain
        exact (List.isChain_cons_cons.mp hchain).1.1
      rw [Function.update_self, List.cons_append, List.cons_append, hq]
      rw [List.cons_append, hq] at hchain
      have hnodup' : (x :: q).Nodup := hq ▸ by grind
      have hmemq : ∀ y ∈ x :: q, y = r ∨ y ∈ lists r := fun y hy => by
        rw [← hq] at hy
        grind
      refine List.isChain_cons_cons.mpr ⟨⟨?_, ?_⟩, List.isChain_cons_cons.mpr ⟨⟨?_, ?_⟩, ?_⟩⟩
      · rw [next_pushFront hm, if_pos rfl]
      · rw [prev_pushFront hm hne, if_neg (Ne.symm hfirst'), if_pos rfl]
      · rw [next_pushFront hm, if_neg hne, if_pos rfl, hx]
      · rw [prev_pushFront hm hne, if_pos hx.symm]
      · refine chain_congr (List.isChain_cons_cons.mp hchain).2 (fun y hy => ?_) fun y hy => ?_
        · rw [← hq, List.dropLast_concat] at hy
          rw [next_pushFront hm]
          grind
        · rw [List.tail_cons] at hy
          have hy' := hmemq y (List.mem_cons_of_mem x hy)
          rw [prev_pushFront hm hne]
          grind
    · rw [Function.update_of_ne hrr]
      refine chain_frame (h.chained r hlt) fun a ha => ?_
      have hself := h.other hr hlt (Ne.symm hrr) ha (.inl rfl)
      have hx := h.other hr hlt (Ne.symm hrr) ha hfirst
      have hai : a ≠ item := by
        have := hout r hlt
        grind
      rw [next_pushFront hm, prev_pushFront hm hne, if_neg hself, if_neg hai, if_neg hx,
        if_neg hai]
      exact ⟨rfl, rfl⟩
  · by_cases hrr : r = ring
    · subst hrr
      rw [Function.update_self]
      exact List.nodup_cons.mpr ⟨hout r hlt, h.nodup r hlt⟩
    · rw [Function.update_of_ne hrr]
      exact h.nodup r hlt
  · rw [Function.update_apply] at ha
    have hitems := h.items
    grind
  · rw [Function.update_apply] at ha ha'
    have hapart := h.apart
    grind
  · have hnone' : a ∉ item :: lists ring := by
      have := hnone ring hr
      rwa [Function.update_self] at this
    have hold : ∀ r < rings, a ∉ lists r := fun r hlt hmem => by
      have := hnone r hlt
      rw [Function.update_apply] at this
      grind
    have hself : a ≠ item := fun heq => hnone' (heq ▸ List.mem_cons_self)
    rw [next_pushFront hm, prev_pushFront hm hne, if_neg (by omega), if_neg hself,
      if_neg (by have := hold ring hr; grind), if_neg hself]
    exact h.alone a ha hold

/-! ### Migrations -/

theorem next_migrate (hne : m.next ring ≠ ring) (hprev : m.prev dest ≠ ring) (a : ℕ) :
    (m.migrate ring dest).next a =
      if a = ring then ring else if a = m.prev ring then dest
        else if a = m.prev dest then m.next ring else m.next a := by
  unfold migrate init setNext setPrev
  rw [if_neg hne]
  dsimp only
  rw [Function.update_of_ne (Ne.symm hprev), Function.update_of_ne (Ne.symm hne),
    Function.update_apply, Function.update_apply, Function.update_apply]

theorem prev_migrate (hne : m.next ring ≠ ring) (hprev : m.prev dest ≠ ring) (a : ℕ) :
    (m.migrate ring dest).prev a =
      if a = ring then ring else if a = dest then m.prev ring
        else if a = m.next ring then m.prev dest else m.prev a := by
  unfold migrate init setNext setPrev
  rw [if_neg hne]
  dsimp only
  rw [Function.update_of_ne (Ne.symm hprev), Function.update_of_ne (Ne.symm hne),
    Function.update_apply, Function.update_apply, Function.update_apply]

/-- The last item of a ring, or the ring itself. -/
theorem Stands.exists_prev (h : Stands rings m lists) (hr : ring < rings) :
    ∃ p, ring :: lists ring = p ++ [m.prev ring] := by
  obtain ⟨p, a, hp⟩ : ∃ p a, ring :: lists ring = p ++ [a] :=
    ⟨_, _, (List.dropLast_append_getLast (List.cons_ne_nil ring (lists ring))).symm⟩
  have hchain := h.chained ring hr
  rw [hp, List.append_assoc, List.singleton_append, List.isChain_append_cons_cons] at hchain
  exact ⟨p, hchain.2.1.2 ▸ hp⟩

theorem Stands.migrate (h : Stands rings m lists) (hr : ring < rings) (hd : dest < rings)
    (hrd : ring ≠ dest) :
    Stands rings (m.migrate ring dest)
      (Function.update (Function.update lists dest (lists dest ++ lists ring)) ring []) := by
  by_cases hempty : m.next ring = ring
  · -- Nothing is there to migrate.
    have hnil := (h.next_ring_eq hr).mp hempty
    have hsame : Function.update (Function.update lists dest (lists dest ++ lists ring)) ring [] =
        lists := by
      rw [hnil, List.append_nil, Function.update_eq_self, ← hnil, Function.update_eq_self]
    unfold Links.migrate
    rw [if_pos hempty, hsame]
    exact h
  · obtain ⟨x, s, hs⟩ := List.exists_cons_of_ne_nil
      (fun hnil => hempty ((h.next_ring_eq hr).mpr hnil))
    obtain ⟨p, hp⟩ := h.exists_prev hd
    obtain ⟨t, ht⟩ := h.exists_prev hr
    have hx : m.next ring = x := by rw [h.next_ring hr, hs]; rfl
    have hxmem : x ∈ lists ring := hs ▸ List.mem_cons_self
    have hymem : m.prev ring ∈ lists ring := by
      rw [hs] at ht ⊢
      cases t with
      | nil => exact absurd (List.cons.inj ht).2 (List.cons_ne_nil x s)
      | cons c t =>
        rw [(List.cons.inj ht).2]
        exact List.mem_append_right _ List.mem_cons_self
    have hamem : m.prev dest ∈ dest :: lists dest := hp ▸ List.mem_append_right p List.mem_cons_self
    have hitemsr := h.items ring hr
    have hitemsd := h.items dest hd
    have hapart := h.apart ring hr dest hd hrd
    have hnodupr := h.nodup ring hr
    have hnodupd := h.nodup dest hd
    have hprev : m.prev dest ≠ ring := by grind
    have hnext := next_migrate hempty hprev
    have hprev' := prev_migrate hempty hprev
    rw [hx] at hnext hprev'
    refine ⟨fun r hlt => ?_, fun r hlt => ?_, fun r hlt a ha => ?_,
      fun r hlt q hq hrq a ha ha' => ?_, fun a ha hnone => ?_⟩
    · by_cases hrr : r = ring
      · rw [hrr, Function.update_self]
        refine List.isChain_pair.mpr ⟨?_, ?_⟩
        · rw [hnext, if_pos rfl]
        · rw [hprev', if_pos rfl]
      · rw [Function.update_of_ne hrr]
        by_cases hrd' : r = dest
        · subst hrd'
          obtain ⟨t', ht'⟩ : ∃ t', lists ring = t' ++ [m.prev ring] := by
            cases t with
            | nil => exact absurd (List.cons.inj ht).2 (by rw [hs]; exact List.cons_ne_nil x s)
            | cons c t' => exact ⟨t', (List.cons.inj ht).2⟩
          have hchaind := h.chained r hlt
          have hchainr := h.chained ring hr
          have hleft : (p ++ [m.prev r]).IsChain m.Joined := by
            rw [← hp]
            exact hchaind.left_of_append
          have hmiddle : (x :: s).IsChain m.Joined := by
            rw [← hs]
            exact (List.IsChain.left_of_append hchainr).tail
          have hall : r :: (lists r ++ lists ring) ++ [r] = p ++ m.prev r :: x :: (s ++ [r]) := by
            rw [List.append_cons p, ← hp, hs]
            simp
          have hall' : x :: (s ++ [r]) = t' ++ m.prev ring :: r :: [] := by
            rw [← List.cons_append, ← hs, ht']
            simp
          rw [Function.update_self, hall, List.isChain_append_cons_cons]
          refine ⟨chain_congr hleft ?_ ?_, ⟨?_, ?_⟩, ?_⟩
          · intro y hy
            rw [List.dropLast_concat] at hy
            have hnodup : (p ++ [m.prev r]).Nodup := hp ▸ by grind
            have hmem : y ∈ r :: lists r := hp ▸ List.mem_append_left _ hy
            rw [hnext]
            grind
          · intro y hy
            rw [← hp, List.tail_cons] at hy
            rw [hprev']
            grind
          · rw [hnext]
            grind
          · rw [hprev']
            grind
          · rw [hall', List.isChain_append_cons_cons, ← ht', hs]
            refine ⟨chain_congr hmiddle ?_ ?_, ⟨?_, ?_⟩, .singleton r⟩
            · intro y hy
              rw [← hs, ht', List.dropLast_concat] at hy
              have hnodup : (t' ++ [m.prev ring]).Nodup := ht' ▸ hnodupr
              have hmem : y ∈ lists ring := ht' ▸ List.mem_append_left _ hy
              rw [hnext]
              grind
            · intro y hy
              rw [List.tail_cons] at hy
              have hmem : y ∈ lists ring := hs ▸ List.mem_cons_of_mem x hy
              have hnodup : (x :: s).Nodup := hs ▸ hnodupr
              rw [hprev']
              grind
            · rw [hnext]
              grind
            · rw [hprev']
              grind
        · rw [Function.update_of_ne hrd']
          refine chain_frame (h.chained r hlt) fun a ha => ?_
          have h1 := h.other hr hlt (Ne.symm hrr) ha (.inl rfl)
          have h2 := h.other hr hlt (Ne.symm hrr) ha (.inr hymem)
          have h3 := h.other hr hlt (Ne.symm hrr) ha (.inr hxmem)
          have h4 := h.other hd hlt (Ne.symm hrd') ha (.inl rfl)
          have h5 := h.other hd hlt (Ne.symm hrd') ha (List.mem_cons.mp hamem)
          rw [hnext, hprev', if_neg h1, if_neg h2, if_neg h5, if_neg h1, if_neg h4, if_neg h3]
          exact ⟨rfl, rfl⟩
    · simp only [Function.update_apply]
      have hnodup := h.nodup r hlt
      grind
    · simp only [Function.update_apply] at ha
      have hitems := h.items
      grind
    · simp only [Function.update_apply] at ha ha'
      have hapart := h.apart
      grind
    · simp only [Function.update_apply] at hnone
      have hold : ∀ r < rings, a ∉ lists r := fun r hlt hmem => by
        have h1 := hnone r hlt
        have h2 := hnone dest hd
        grind
      have h1 := hold ring hr
      have h2 := hold dest hd
      have halone := h.alone a ha hold
      rw [hnext, hprev']
      grind

/-! ### Runs -/

/-- What follows an item in its ring. -/
theorem iter_eq {l : List ℕ} {cur : ℕ} (hl : ∀ a ∈ l, a ≠ ring)
    (h : (cur :: l ++ [ring]).IsChain m.Joined) (n : ℕ) : m.iter ring cur n = l.take n := by
  induction n generalizing cur l with
  | zero => rfl
  | succ n ih =>
    unfold iter
    cases l with
    | nil => rw [if_pos (List.isChain_pair.mp h).1, List.take_nil]
    | cons a l =>
      obtain ⟨⟨hnext, -⟩, htail⟩ := List.isChain_cons_cons.mp h
      rw [hnext, if_neg (hl a List.mem_cons_self), List.take_succ_cons,
        ih (fun b hb => hl b (List.mem_cons_of_mem a hb)) htail]

/-- Links and the lists of their rings do the same at an operation. -/
theorem Stands.serve (h : Stands rings m lists) {op : Op} (hop : op.Fits rings) :
    (m.serve op).2 = (lists.serve rings op).2 ∧
      Stands rings (m.serve op).1 (lists.serve rings op).1 := by
  cases op with
  | pushFront ring item =>
    obtain ⟨hr, hitem⟩ := hop
    have hin := h.inRing_eq hitem
    cases hany : (List.range rings).any fun r => item ∈ lists r with
    | true =>
      have hlinks : m.serve (.pushFront ring item) = (m, .panicked) := by
        have hnone : m.pushFront ring item = none := by
          unfold Links.pushFront
          rw [hin, hany, if_pos rfl]
        simp only [Links.serve, hnone]
      have hlists : lists.serve rings (.pushFront ring item) = (lists, .panicked) := by
        simp only [Lists.serve, hany, if_true]
      rw [hlinks, hlists]
      exact ⟨rfl, h⟩
    | false =>
      have hout : ∀ r < rings, item ∉ lists r := fun r hlt hmem =>
        List.any_eq_false.mp hany r (List.mem_range.mpr hlt) (decide_eq_true hmem)
      obtain ⟨m', hm'⟩ : ∃ m', m.pushFront ring item = some m' := by
        unfold Links.pushFront
        rw [hin, hany, if_neg Bool.false_ne_true]
        exact ⟨_, rfl⟩
      have hlinks : m.serve (.pushFront ring item) = (m', .done) := by
        simp only [Links.serve, hm']
      have hlists : lists.serve rings (.pushFront ring item) =
          (Function.update lists ring (item :: lists ring), .done) := by
        simp only [Lists.serve, hany, Bool.false_eq_true, if_false]
      rw [hlinks, hlists]
      exact ⟨rfl, h.pushFront hr hitem hout hm'⟩
  | popFront ring =>
    change Answer.popped (m.popFront ring).2 = Answer.popped (lists ring).head? ∧
      Stands rings (m.popFront ring).1 (Function.update lists ring (lists ring).tail)
    unfold Links.popFront
    cases hl : lists ring with
    | nil =>
      rw [if_pos ((h.next_ring_eq hop).mpr hl)]
      refine ⟨rfl, h.congr fun r _ => ?_⟩
      rw [List.tail_nil, ← hl, Function.update_eq_self]
    | cons a l =>
      have hne : m.next ring ≠ ring := fun heq => by
        rw [h.next_ring_eq hop, hl] at heq
        cases heq
      have ha : m.next ring = a := by rw [h.next_ring hop, hl]; rfl
      have hmem : a ∈ lists ring := hl ▸ List.mem_cons_self
      rw [if_neg hne, ha]
      refine ⟨rfl, (h.remove (h.items ring hop a hmem)).congr fun r hr => ?_⟩
      -- The item is in no other ring.
      by_cases hrr : r = ring
      · rw [hrr, Function.update_self, hl, List.erase_cons_head, List.tail_cons]
      · rw [Function.update_of_ne hrr]
        exact (List.erase_of_not_mem fun hmem' => h.apart r hr ring hop hrr a hmem' hmem).symm
  | remove item => exact ⟨rfl, h.remove hop⟩
  | migrate ring dest => exact ⟨rfl, h.migrate hop.1 hop.2.1 hop.2.2⟩
  | inRing item => exact ⟨congrArg Answer.flag (h.inRing_eq hop), h⟩
  | take ring count =>
    refine ⟨congrArg Answer.items (iter_eq (fun a ha heq => ?_) (h.chained ring hop) count), h⟩
    have hle := h.items ring hop a ha
    have hlt : ring < rings := hop
    omega

end Links

/-- Over every list of operations on some rings, links that all point to themselves at first give
the answers of as many lists, the failed assertions among them. Afterwards the items of each ring
are chained in the order of its list, in both directions, and an item of no ring points to itself.
-/
theorem links_refine_lists (rings : ℕ) (ops : List Op) (hops : ∀ op ∈ ops, op.Fits rings) :
    (Service.answers Links.serve .new ops).1 =
        (Service.answers (Lists.serve rings) (fun _ => []) ops).1 ∧
      Links.Stands rings (Service.answers Links.serve .new ops).2
        (Service.answers (Lists.serve rings) (fun _ => []) ops).2 := by
  have hstep : ∀ (m : Links) (lists : Lists) op, Links.Stands rings m lists → op.Fits rings →
      (m.serve op).2 = (lists.serve rings op).2 ∧
        Links.Stands rings (m.serve op).1 (lists.serve rings op).1 := fun _ _ _ h hop => h.serve hop
  exact Service.answers_eq hstep (Links.stands_new rings) hops

/-- Items that come and go at both ends and in the middle, and an item that is in another ring. -/
theorem links_refine_two_rings :
    (Service.answers Links.serve .new
      [.pushFront 0 4, .pushFront 0 5, .pushFront 1 6, .pushFront 1 5, .remove 4, .remove 4,
        .pushFront 1 4, .migrate 1 0, .take 0 5, .popFront 0, .inRing 5, .popFront 1]).1 =
      [.done, .done, .done, .panicked, .done, .done, .done, .done, .items [5, 4, 6],
        .popped (some 5), .flag false, .popped none] :=
  (links_refine_lists 2 _ (by simp [Op.Fits])).1.trans (by decide)

end Dolang.Util.Ring
