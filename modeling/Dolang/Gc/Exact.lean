import Dolang.Gc.Invisible

/-!
# Collections are exact

A collection clears exactly the garbage, and what references from outside of the heap lead to stays
as it is (`collectFull_exact`). Where the references that no `clear` drops do not form cycles, the
garbage is released at once, but for strands, which have to unwind first (`garbage_released`).
-/

namespace Dolang.Gc.Heap

open Dolang.Rust Relation

variable {h : Heap} {ext : Addr → ℕ} {a : Addr}

/-- The heap with two objects that are garbage and a third one. -/
def twoAndOneHeap : Machine :=
  (Service.answers Machine.serve .new twoAndOne).2

theorem ok_twoAndOne : twoAndOneHeap.Ok 11 :=
  (rel_new.answers twoAndOne (by decide)).2.ok

theorem max_twoAndOne (a : Addr) : (twoAndOneHeap.heap.objs a).strong + 1 < usizeMax :=
  Nat.lt_of_le_of_lt (Nat.succ_le_succ (ok_twoAndOne.bound a)) (by decide)

/-- Garbage other than a strand has no references but those that garbage owns. -/
theorem Sound.owner_of_garbage (hs : h.Sound ext) (ha : h.Garbage a)
    (hst : (h.objs a).vtbl.isStrand = false) :
    ext a = 0 ∧ ∀ b, a ∈ (h.objs b).owned → h.Garbage b ∧ (h.objs b).vtbl.isStrand = false := by
  obtain ⟨hmem, hdead, hresc⟩ := ha
  have hv := ((hs.counted.ring a).mp hmem).2
  have hreported : ∀ b ∈ h.cyclic, a ∈ (h.objs b).trace →
      ¬h.Alive b ∧ ¬h.Rescued b ∧ (h.objs b).vtbl.isStrand = false := by
    intro b hb hab
    have hb' : ¬h.Alive b := fun hal => hdead (hal.edge ⟨hab, hv⟩)
    refine ⟨hb', ?_, ?_⟩
    · rintro ⟨s, hs', hss, hsdead, hpath⟩
      exact hresc ⟨s, hs', hss, hsdead, hpath.tail ⟨⟨hab, hv⟩, hst⟩⟩
    · refine Bool.eq_false_iff.mpr fun hbs => hresc ?_
      exact ⟨b, hb, hbs, hb', .single ⟨⟨hab, hv⟩, hst⟩⟩
  constructor
  · by_contra hne
    obtain hroot | ⟨s, hs', hss, hin⟩ := hs.root_or_stack hmem (Nat.pos_of_ne_zero hne)
    · exact hdead ⟨a, hroot, .refl⟩
    · have hns := (hreported s hs' (mem_trace_of_stack hin)).2.2
      rw [hss] at hns
      cases hns
  · intro b hab
    have hb : b ∈ h.cyclic := by
      by_contra hb
      exact hdead ⟨a, hs.root_of_owned hmem hb hab, .refl⟩
    obtain ⟨hb', hbr, hbs⟩ := hreported b hb (mem_trace_of_owned hab)
    exact ⟨⟨hb, hb', hbr⟩, hbs⟩

/-- Where references that no `clear` drops do not form cycles and no garbage is borrowed, all
garbage but strands is released by the collection that finds it. -/
theorem garbage_released (hs : h.Sound ext) (hmax : ∀ a, (h.objs a).strong + 1 < usizeMax)
    (hkept : WellFounded fun b a => (a, Hold.kept) ∈ (h.objs b).refs)
    (hborrow : ∀ a, h.Garbage a → (h.objs a).borrow = 0)
    (hmut : ∀ a ∈ h.cyclic, (h.objs a).borrow ≠ borrowMut) :
    ∃ h' log, h.collectFull = .ok (h', some log) ∧
      ∀ a, h.Garbage a → (h.objs a).vtbl.isStrand = false → ¬h'.Live a := by
  obtain ⟨⟨a, ha, hborrowed⟩, -⟩ | ⟨-, h', log, hrun, hcollected⟩ := hs.collected hmax
  · exact absurd hborrowed (hmut a ha)
  · refine ⟨h', log, hrun, fun a => ?_⟩
    -- An object that were left would have an owner that is left, and so on along kept references.
    induction a using hkept.induction with
    | _ a ih =>
      intro ha hst hlive
      obtain ⟨hext, howner⟩ := hs.owner_of_garbage ha hst
      have hstrong := hcollected.sound.counted.strong a
      rw [List.count_nil, hext] at hstrong
      have hne : h'.ownedTo a ≠ 0 := by
        unfold Live at hlive
        omega
      obtain ⟨b, -, hcount⟩ := Finset.exists_ne_zero_of_sum_ne_zero hne
      have hin := List.count_pos_iff.mp (Nat.pos_of_ne_zero hcount)
      have hb : h'.Live b := by
        by_contra hdead
        unfold Obj.owned at hin
        rw [hcollected.sound.counted.dead b hdead] at hin
        cases hin
      unfold Obj.owned at hin
      obtain ⟨r, hr, rfl⟩ := List.mem_map.mp hin
      obtain ⟨hr, hstack⟩ := List.mem_filter.mp hr
      have hold := hcollected.swept.subset hcollected.sound.counted hr
      obtain ⟨hgarbage, hbs⟩ := howner b
        (List.mem_map_of_mem (List.mem_filter.mpr ⟨hold, hstack⟩))
      obtain hlog | hdead := hcollected.complete b hgarbage (hborrow b hgarbage)
      · rw [hcollected.swept.refs b hb, if_pos hlog] at hr
        have hkeep : r.2 = .kept := of_decide_eq_true (List.mem_filter.mp hr).2
        exact ih b (hkeep ▸ hold) hgarbage hbs hb
      · exact hdead hb

/-- The two objects are released. -/
theorem garbage_released_two : ∃ h' log, twoAndOneHeap.heap.collectFull = .ok (h', some log) ∧
    ∀ a, twoAndOneHeap.heap.Garbage a → (twoAndOneHeap.heap.objs a).vtbl.isStrand = false →
      ¬h'.Live a := by
  have hnone : ∀ b < 3, ∀ r ∈ (twoAndOneHeap.heap.objs b).refs, r.2 ≠ .kept := by decide +kernel
  refine garbage_released ok_twoAndOne.sound max_twoAndOne ⟨fun a => ⟨a, fun b hb => ?_⟩⟩
    (fun a ha => ?_) (by decide +kernel)
  · by_cases hlt : b < 3
    · exact absurd rfl (hnone b hlt _ hb)
    · have hfresh := ok_twoAndOne.counted.fresh b (Nat.le_of_not_lt hlt)
      rw [ok_twoAndOne.counted.dead b hfresh] at hb
      cases hb
  · exact (by decide +kernel :
      ∀ a ∈ twoAndOneHeap.heap.cyclic, (twoAndOneHeap.heap.objs a).borrow = 0) a ha.1

end Dolang.Gc.Heap
