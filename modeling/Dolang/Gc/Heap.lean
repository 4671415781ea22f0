import Mathlib.Algebra.BigOperators.Group.Finset.Basic
import Mathlib.Algebra.Order.BigOperators.Group.Finset
import Mathlib.Logic.Function.Basic
import Dolang.Lib.Worklist

/-!
# The heap

Objects of the garbage-collected heap with their reference counts (`gc/arena.rs`, `gc/mod.rs`), and
what the last release of an object sets off: its contents are dropped, which releases other objects.
As long as each count is the number of the references (`Heap.Counted`), no release fails and an
object dies with its last reference (`Counted.drain`).
-/

namespace Dolang.Gc

open Dolang.Rust

/-- An address of a header. -/
abbrev Addr := ℕ

/-- What the collector reads of a `Vtbl`. -/
structure Vtbl where
  cyclic : Bool
  isStrand : Bool

/-- Who drops a reference that `accept` reports. -/
inductive Hold where
  /-- `clear` drops it, and else the drop of its object. -/
  | field
  /-- `clear` leaves it alone, as it does the result of a strand. -/
  | kept
  /-- It is on the stack of a strand, whose future owns it. The handle of the strand reports it
  until `clear`. -/
  | stack
  deriving DecidableEq

/-- An object with its header. -/
structure Obj where
  vtbl : Vtbl
  strong : ℕ
  borrow : ℕ
  /-- What `accept` reports. -/
  refs : List (Addr × Hold)

namespace Obj

/-- What `trace` visits. -/
def trace (o : Obj) : List Addr :=
  o.refs.map Prod.fst

/-- What the object owns, which goes with it. -/
def owned (o : Obj) : List Addr :=
  (o.refs.filter fun r => r.2 ≠ .stack).map Prod.fst

/-- What `clear` drops. -/
def fields (o : Obj) : List Addr :=
  (o.refs.filter fun r => r.2 = .field).map Prod.fst

/-- What `clear` leaves. -/
def cleared (o : Obj) : Obj :=
  { o with refs := o.refs.filter fun r => r.2 = .kept }

end Obj

/-- The objects of an arena, with the ring of those that may be in a cycle and the ring of those
that a collection has found to be trash. Addresses are handed out one after the other. -/
structure Heap where
  objs : Addr → Obj
  top : Addr
  cyclic : List Addr
  trash : List Addr

namespace Heap

variable (h : Heap) (a : Addr)

/-- `BORROW_MUT`. -/
def borrowMut : ℕ := 1

def set (o : Obj) : Heap :=
  { h with objs := Function.update h.objs a o }

/-- `Header::retain`, which asserts that the object is alive. -/
def retain : Exec Empty Heap :=
  if (h.objs a).strong = 0 then abort
  else .ok (h.set a { h.objs a with strong := saturatingAdd (h.objs a).strong 1 })

/-- `Header::released`: the object leaves the rings and drops its contents. -/
def released : Heap :=
  let o := h.objs a
  let h := if o.vtbl.cyclic then
      { h with cyclic := h.cyclic.erase a, trash := h.trash.erase a }
    else h
  h.set a { o with strong := 0, refs := [] }

/-- `Header::release`, with `Header::released` after the last one. A count that is at its limit
stays there. What the dropped contents release comes next. -/
def release (a : Addr) (h : Heap) : Exec Empty (Heap × List Addr) :=
  let o := h.objs a
  if o.strong = 0 then abort
  else if o.strong = usizeMax then .ok (h, [])
  else if o.strong = 1 then .ok (h.released a, o.owned)
  else .ok (h.set a { o with strong := o.strong - 1 }, [])

/-- The number of references in the heap. -/
def weight : ℕ :=
  ∑ b ∈ Finset.range h.top, (h.objs b).owned.length

/-- Drops references one after the other. -/
def drain (pending : List Addr) : Exec Empty Heap :=
  Worklist.run release (h.weight + pending.length) h pending

/-- The references to an object that objects own. -/
def ownedTo : ℕ :=
  ∑ b ∈ Finset.range h.top, (h.objs b).owned.count a

/-- Whether an object has not been released. -/
def Live : Prop :=
  0 < (h.objs a).strong

instance : Decidable (h.Live a) :=
  inferInstanceAs (Decidable (0 < _))

end Heap

/-- Each count is the number of the references to its object: those that objects own, those that are
about to be released and those that `ext` counts, which are held outside of the heap. -/
structure Heap.Counted (ext : Addr → ℕ) (h : Heap) (pending : List Addr) : Prop where
  strong : ∀ a, (h.objs a).strong = h.ownedTo a + pending.count a + ext a
  dead : ∀ a, ¬h.Live a → (h.objs a).refs = []
  fresh : ∀ a, h.top ≤ a → ¬h.Live a
  ring : ∀ a, a ∈ h.cyclic ↔ h.Live a ∧ (h.objs a).vtbl.cyclic = true
  nodup : h.cyclic.Nodup
  trash : ∀ a ∈ h.trash, a ∈ h.cyclic
  distinct : h.trash.Nodup

namespace Heap

variable {h h' : Heap} {ext : Addr → ℕ} {pending : List Addr} {a b : Addr}

/-! ### Sums -/

/-- A sum of which one summand changes. -/
theorem sum_update {α : Type} (f : α → ℕ) (g : ℕ → α) {b n : ℕ} (hb : b < n) (v : α) :
    ∑ x ∈ Finset.range n, f (Function.update g b v x) + f (g b) =
      ∑ x ∈ Finset.range n, f (g x) + f v := by
  have hmem := Finset.mem_range.mpr hb
  have hrest : ∑ x ∈ (Finset.range n).erase b, f (Function.update g b v x) =
      ∑ x ∈ (Finset.range n).erase b, f (g x) :=
    Finset.sum_congr rfl fun x hx => by rw [Function.update_of_ne (Finset.ne_of_mem_erase hx)]
  have hnew := Finset.add_sum_erase _ (fun x => f (Function.update g b v x)) hmem
  have hold := Finset.add_sum_erase _ (fun x => f (g x)) hmem
  rw [hrest] at hnew
  simp only [Function.update_self] at hnew
  omega

theorem ownedTo_set (hb : b < h.top) (o : Obj) (a : Addr) :
    (h.set b o).ownedTo a + (h.objs b).owned.count a = h.ownedTo a + o.owned.count a :=
  sum_update (fun o : Obj => o.owned.count a) h.objs hb o

theorem weight_set (hb : b < h.top) (o : Obj) :
    (h.set b o).weight + (h.objs b).owned.length = h.weight + o.owned.length :=
  sum_update (fun o : Obj => o.owned.length) h.objs hb o

/-- What an object owns is counted. -/
theorem count_le_ownedTo (hb : b < h.top) (a : Addr) : (h.objs b).owned.count a ≤ h.ownedTo a :=
  Finset.single_le_sum (f := fun b => (h.objs b).owned.count a) (fun _ _ => Nat.zero_le _)
    (Finset.mem_range.mpr hb)

@[simp]
theorem objs_set (h : Heap) (b : Addr) (o : Obj) (a : Addr) :
    (h.set b o).objs a = if a = b then o else h.objs a :=
  Function.update_apply ..

/-! ### Releases -/

/-- What dropping references makes of a heap: an object keeps what it has or dies. -/
structure Drained (h h' : Heap) : Prop where
  top : h'.top = h.top
  vtbl : ∀ a, (h'.objs a).vtbl = (h.objs a).vtbl
  borrow : ∀ a, (h'.objs a).borrow = (h.objs a).borrow
  strong : ∀ a, (h'.objs a).strong ≤ (h.objs a).strong
  refs : ∀ a, h'.Live a → (h'.objs a).refs = (h.objs a).refs
  ring : h'.cyclic = h.cyclic.filter fun a => h'.Live a
  trash : h'.trash = h.trash.filter fun a => h'.Live a

theorem Counted.lt_top (hc : h.Counted ext pending) (ha : h.Live a) : a < h.top :=
  Nat.lt_of_not_le fun hle => hc.fresh a hle ha

/-- An object that something refers to is alive. -/
theorem Counted.live_of_mem (hc : h.Counted ext pending) (ha : a ∈ (h.objs b).owned) :
    h.Live a := by
  have hb : h.Live b := by
    by_contra hdead
    have hrefs := hc.dead b hdead
    rw [Obj.owned, hrefs] at ha
    cases ha
  have hpos := List.count_pos_iff.mpr ha
  have hle := count_le_ownedTo (hc.lt_top hb) a
  have hstrong := hc.strong a
  unfold Live
  omega

theorem Drained.refl (hc : h.Counted ext pending) : Drained h h where
  top := rfl
  vtbl _ := rfl
  borrow _ := rfl
  strong _ := Nat.le_refl _
  refs _ _ := rfl
  ring := (List.filter_eq_self.mpr fun a ha => decide_eq_true ((hc.ring a).mp ha).1).symm
  trash := (List.filter_eq_self.mpr fun a ha =>
    decide_eq_true ((hc.ring a).mp (hc.trash a ha)).1).symm

theorem Drained.live (hd : Drained h h') (ha : h'.Live a) : h.Live a :=
  Nat.lt_of_lt_of_le ha (hd.strong a)

theorem Drained.trans {h'' : Heap} (hd : Drained h h') (hd' : Drained h' h'') : Drained h h'' where
  top := hd'.top.trans hd.top
  vtbl a := (hd'.vtbl a).trans (hd.vtbl a)
  borrow a := (hd'.borrow a).trans (hd.borrow a)
  strong a := Nat.le_trans (hd'.strong a) (hd.strong a)
  refs a ha := (hd'.refs a ha).trans (hd.refs a (hd'.live ha))
  ring := by
    rw [hd'.ring, hd.ring, List.filter_filter]
    refine List.filter_congr fun a _ => ?_
    rw [Bool.eq_iff_iff, Bool.and_eq_true, decide_eq_true_iff, decide_eq_true_iff]
    exact ⟨fun ha => ha.1, fun ha => ⟨ha, hd'.live ha⟩⟩
  trash := by
    rw [hd'.trash, hd.trash, List.filter_filter]
    refine List.filter_congr fun a _ => ?_
    rw [Bool.eq_iff_iff, Bool.and_eq_true, decide_eq_true_iff, decide_eq_true_iff]
    exact ⟨fun ha => ha.1, fun ha => ⟨ha, hd'.live ha⟩⟩

/-- The counts say what is alive, so one object less is the ring without it. -/
theorem filter_live_erase {l : List Addr} (hl : l.Nodup) (hlive : ∀ x ∈ l, h.Live x)
    (hdead : ∀ x, h'.Live x ↔ h.Live x ∧ x ≠ a) : l.filter (fun x => h'.Live x) = l.erase a := by
  rw [hl.erase_eq_filter]
  refine List.filter_congr fun x hx => ?_
  rw [Bool.eq_iff_iff, decide_eq_true_iff, bne_iff_ne, hdead]
  exact ⟨fun ha => ha.2, fun ha => ⟨hlive x hx, ha⟩⟩

/-- An object that goes takes its references along as pending ones. -/
theorem Counted.released (hc : h.Counted ext (a :: pending)) (ha : (h.objs a).strong = 1) :
    (h.released a).Counted ext ((h.objs a).owned ++ pending) ∧ Drained h (h.released a) ∧
      (h.released a).weight + (h.objs a).owned.length = h.weight := by
  have hlive : h.Live a := by
    unfold Live
    omega
  have htop := hc.lt_top hlive
  have hcyclic : (h.released a).cyclic = h.cyclic.erase a := by
    unfold Heap.released
    dsimp only
    split_ifs with hvtbl
    · rfl
    · exact (List.erase_of_not_mem fun hmem => hvtbl ((hc.ring a).mp hmem).2).symm
  have htrash : (h.released a).trash = h.trash.erase a := by
    unfold Heap.released
    dsimp only
    split_ifs with hvtbl
    · rfl
    · exact (List.erase_of_not_mem fun hmem =>
        hvtbl ((hc.ring a).mp (hc.trash a hmem)).2).symm
  have hobjs : (h.released a).objs = (h.set a { h.objs a with strong := 0, refs := [] }).objs := by
    unfold Heap.released
    dsimp only
    split_ifs <;> rfl
  have htop' : (h.released a).top = h.top := by
    unfold Heap.released
    dsimp only
    split_ifs <;> rfl
  have hobj : ∀ x, (h.released a).objs x =
      if x = a then { h.objs a with strong := 0, refs := [] } else h.objs x := by
    intro x
    rw [hobjs, objs_set]
  have hdead : ∀ x, (h.released a).Live x ↔ h.Live x ∧ x ≠ a := by
    intro x
    unfold Live
    rw [hobj]
    split_ifs with hx
    · exact iff_of_false (Nat.lt_irrefl 0) fun hne => hne.2 hx
    · exact ⟨fun hpos => ⟨hpos, hx⟩, fun hpos => hpos.1⟩
  have howned : ∀ x, (h.released a).ownedTo x + (h.objs a).owned.count x = h.ownedTo x := by
    intro x
    have hset := ownedTo_set htop { h.objs a with strong := 0, refs := [] } x
    unfold ownedTo at hset ⊢
    rw [hobjs, htop']
    exact hset
  refine ⟨⟨fun x => ?_, fun x hx => ?_, fun x hx => ?_, fun x => ?_, ?_, fun x hx => ?_, ?_⟩,
    ⟨htop', fun x => ?_, fun x => ?_, fun x => ?_, fun x hx => ?_, ?_, ?_⟩, ?_⟩
  · have hstrong := hc.strong x
    have hx := howned x
    rw [List.count_cons] at hstrong
    rw [hobj, List.count_append]
    split_ifs with hxa
    · -- The last reference was the one that has been dropped.
      subst hxa
      rw [if_pos (beq_self_eq_true x)] at hstrong
      dsimp only
      omega
    · rw [if_neg (by simpa using Ne.symm hxa)] at hstrong
      omega
  · rw [hobj]
    split_ifs with hxa
    · rfl
    · exact hc.dead x fun hl => hx ((hdead x).mpr ⟨hl, hxa⟩)
  · rw [htop'] at hx
    exact fun hl => hc.fresh x hx ((hdead x).mp hl).1
  · rw [hcyclic, hc.nodup.mem_erase_iff, hc.ring, hdead, hobj]
    constructor
    · rintro ⟨hxa, hl, hv⟩
      exact ⟨⟨hl, hxa⟩, by rwa [if_neg hxa]⟩
    · rintro ⟨⟨hl, hxa⟩, hv⟩
      rw [if_neg hxa] at hv
      exact ⟨hxa, hl, hv⟩
  · rw [hcyclic]
    exact hc.nodup.erase a
  · rw [htrash, hc.distinct.mem_erase_iff] at hx
    rw [hcyclic, hc.nodup.mem_erase_iff]
    exact ⟨hx.1, hc.trash x hx.2⟩
  · rw [htrash]
    exact hc.distinct.erase a
  · rw [hobj]
    split_ifs with hxa
    · rw [hxa]
    · rfl
  · rw [hobj]
    split_ifs with hxa
    · rw [hxa]
    · rfl
  · rw [hobj]
    split_ifs with hxa
    · exact Nat.zero_le _
    · exact Nat.le_refl _
  · rw [hobj, if_neg ((hdead x).mp hx).2]
  · rw [hcyclic]
    exact (filter_live_erase hc.nodup (fun x hx => ((hc.ring x).mp hx).1) hdead).symm
  · rw [htrash]
    refine (filter_live_erase hc.distinct (fun x hx => ?_) hdead).symm
    exact ((hc.ring x).mp (hc.trash x hx)).1
  · have hset := weight_set htop { h.objs a with strong := 0, refs := [] }
    unfold weight at hset ⊢
    rw [hobjs, htop']
    exact hset

/-- A count that goes down by one. -/
theorem Counted.decrement (hc : h.Counted ext (a :: pending)) (ha : 1 < (h.objs a).strong) :
    (h.set a { h.objs a with strong := (h.objs a).strong - 1 }).Counted ext pending ∧
      Drained h (h.set a { h.objs a with strong := (h.objs a).strong - 1 }) ∧
      (h.set a { h.objs a with strong := (h.objs a).strong - 1 }).weight = h.weight := by
  have htop := hc.lt_top (Nat.lt_of_succ_lt ha)
  generalize hh : h.set a { h.objs a with strong := (h.objs a).strong - 1 } = h'
  have hobj : ∀ x, h'.objs x =
      if x = a then { h.objs a with strong := (h.objs a).strong - 1 } else h.objs x := by
    intro x
    rw [← hh, objs_set]
  have hlive : ∀ x, h'.Live x ↔ h.Live x := by
    intro x
    unfold Live
    rw [hobj]
    split_ifs with hx
    · subst hx
      exact ⟨fun _ => by omega, fun _ => by dsimp only; omega⟩
    · exact Iff.rfl
  have howned : ∀ x, h'.ownedTo x = h.ownedTo x := by
    intro x
    have hset := ownedTo_set htop { h.objs a with strong := (h.objs a).strong - 1 } x
    rw [hh] at hset
    exact Nat.add_right_cancel hset
  have hrefs : ∀ x, (h'.objs x).refs = (h.objs x).refs := by
    intro x
    rw [hobj]
    split_ifs with hx
    · rw [hx]
    · rfl
  have hvtbl : ∀ x, (h'.objs x).vtbl = (h.objs x).vtbl := by
    intro x
    rw [hobj]
    split_ifs with hx
    · rw [hx]
    · rfl
  have hring : h'.cyclic = h.cyclic := hh ▸ rfl
  have htrash : h'.trash = h.trash := hh ▸ rfl
  have htop' : h'.top = h.top := hh ▸ rfl
  have hall : ∀ x ∈ h.cyclic, decide (h'.Live x) = true := fun x hx =>
    decide_eq_true ((hlive x).mpr ((hc.ring x).mp hx).1)
  refine ⟨⟨fun x => ?_, fun x hx => ?_, fun x hx => ?_, fun x => ?_, ?_, ?_, ?_⟩,
    ⟨htop', hvtbl, fun x => ?_, fun x => ?_, fun x _ => hrefs x, ?_, ?_⟩, ?_⟩
  · have hstrong := hc.strong x
    rw [List.count_cons] at hstrong
    rw [hobj, howned]
    split_ifs with hxa
    · subst hxa
      rw [if_pos (beq_self_eq_true x)] at hstrong
      dsimp only
      omega
    · rw [if_neg (by simpa using Ne.symm hxa)] at hstrong
      exact hstrong
  · rw [hrefs]
    exact hc.dead x fun hl => hx ((hlive x).mpr hl)
  · rw [htop'] at hx
    exact fun hl => hc.fresh x hx ((hlive x).mp hl)
  · rw [hring, hvtbl, hlive, hc.ring]
  · exact hring ▸ hc.nodup
  · exact hring ▸ htrash ▸ hc.trash
  · exact htrash ▸ hc.distinct
  · rw [hobj]
    split_ifs with hx
    · rw [hx]
    · rfl
  · rw [hobj]
    split_ifs with hx
    · rw [hx]
      exact Nat.sub_le _ _
    · exact Nat.le_refl _
  · rw [hring]
    exact (List.filter_eq_self.mpr hall).symm
  · rw [htrash]
    exact (List.filter_eq_self.mpr fun x hx => hall x (hc.trash x hx)).symm
  · have hset := weight_set htop { h.objs a with strong := (h.objs a).strong - 1 }
    rw [hh] at hset
    exact Nat.add_right_cancel hset

/-- Dropping references ends, releases no object that is dead, and leaves right counts. -/
theorem Counted.drain (hc : h.Counted ext pending) (hmax : ∀ a, (h.objs a).strong < usizeMax) :
    ∃ h', h.drain pending = .ok h' ∧ h'.Counted ext [] ∧ Drained h h' := by
  have hstep : ∀ (a : Addr) (h' : Heap) (pending : List Addr),
      h'.Counted ext (a :: pending) ∧ Drained h h' →
      ∃ next pushed, release a h' = .ok (next, pushed) ∧
        (next.Counted ext (pushed ++ pending) ∧ Drained h next) ∧
        next.weight + pushed.length ≤ h'.weight := by
    rintro a h' pending ⟨hc', hd⟩
    -- The reference that is dropped is counted.
    have hstrong := hc'.strong a
    rw [List.count_cons_self] at hstrong
    have hlt := Nat.lt_of_le_of_lt (hd.strong a) (hmax a)
    by_cases hone : (h'.objs a).strong = 1
    · obtain ⟨hnext, hdrained, hweight⟩ := hc'.released hone
      refine ⟨h'.released a, (h'.objs a).owned, ?_, ⟨hnext, hd.trans hdrained⟩, hweight.le⟩
      unfold release
      rw [if_neg (by omega), if_neg (by omega), if_pos hone]
    · obtain ⟨hnext, hdrained, hweight⟩ := hc'.decrement (a := a) (by omega)
      refine ⟨_, [], ?_, ⟨hnext, hd.trans hdrained⟩, hweight.le⟩
      unfold release
      rw [if_neg (by omega), if_neg (by omega), if_neg hone]
  exact Worklist.run_ok (fun h' pending => h'.Counted ext pending ∧ Drained h h') weight hstep
    ⟨hc, Drained.refl hc⟩ (Nat.le_refl _)

end Heap

end Dolang.Gc
