import Dolang.Gc.Sweep

/-!
# Collections

What a collection leaves of a heap (`Heap.Collected`). It comes to its end, or it is put off
(`Sound.collected`).
-/

namespace Dolang.Gc.Heap

open Dolang.Rust Relation

variable {h h' : Heap} {ext : Addr → ℕ} {a b : Addr} {log : List Addr}

/-- What a collection that clears some objects does to a heap. -/
structure Collected (ext : Addr → ℕ) (h h' : Heap) (log : List Addr) : Prop where
  /-- The counts are right, and the ring has the objects that are left and may be in a cycle. -/
  sound : h'.Sound ext
  swept : Swept log h h'
  nodup : log.Nodup
  cleared : ∀ a ∈ log, h.Garbage a ∧ (h.objs a).borrow = 0
  /-- Garbage that is not cleared is borrowed or has been released before its turn. -/
  complete : ∀ a, h.Garbage a → (h.objs a).borrow = 0 → a ∈ log ∨ ¬h'.Live a
  /-- What references from outside of the heap lead to goes on to be alive and to own the same. -/
  held : ∀ a, Held ext h a → h'.Live a ∧ (h'.objs a).owned = (h.objs a).owned

theorem Sound.startTrial (h : Heap) :
    h.startTrial = none ∧ (∃ a ∈ h.cyclic, (h.objs a).borrow = borrowMut) ∨
      (∃ trial, h.startTrial = some trial) ∧ ∀ a ∈ h.cyclic, (h.objs a).borrow ≠ borrowMut := by
  unfold Heap.startTrial
  cases hany : h.cyclic.any fun a => (h.objs a).borrow = borrowMut with
  | true =>
    obtain ⟨a, ha, hmut⟩ := List.any_eq_true.mp hany
    exact .inl ⟨if_pos rfl, a, ha, of_decide_eq_true hmut⟩
  | false =>
    refine .inr ⟨⟨_, if_neg Bool.false_ne_true⟩, fun a ha hmut => ?_⟩
    exact List.any_eq_false.mp hany a ha (decide_eq_true hmut)

/-- What an object has afterwards it had before. -/
theorem Swept.subset (hd : Swept log h h') (hc : h'.Counted ext []) {r : Addr × Hold}
    (hr : r ∈ (h'.objs a).refs) : r ∈ (h.objs a).refs := by
  by_cases hlive : h'.Live a
  · rw [hd.refs a hlive] at hr
    split_ifs at hr
    · exact List.mem_of_mem_filter hr
    · exact hr
  · rw [hc.dead a hlive] at hr
    cases hr

/-- The stack that a strand reports does not grow. -/
theorem Swept.stack_le (hd : Swept log h h') (hc : h'.Counted ext []) (s a : Addr) :
    (h'.objs s).stack.count a ≤ (h.objs s).stack.count a := by
  by_cases hs : h'.Live s
  · have hrefs := hd.refs s hs
    split_ifs at hrefs
    · have hnil : (h'.objs s).stack = [] := by
        rw [← count_cleared_stack (h.objs s)]
        unfold Obj.stack
        rw [hrefs]
      rw [hnil]
      exact Nat.zero_le _
    · unfold Obj.stack
      rw [hrefs]
  · unfold Obj.stack
    rw [hc.dead s hs]
    exact Nat.zero_le _

/-- Objects have no more than they may have. -/
theorem Swept.fit (hd : Swept log h h') (hc : h'.Counted ext []) (ha : (h.objs a).Fit) :
    (h'.objs a).Fit where
  strand hst := by
    rw [hd.vtbl] at hst ⊢
    obtain ⟨hv, hfields⟩ := ha.strand hst
    refine ⟨hv, ?_⟩
    unfold Obj.fields at hfields ⊢
    rw [List.map_eq_nil_iff, List.filter_eq_nil_iff] at hfields ⊢
    exact fun r hr => hfields r (hd.subset hc hr)
  calm hst := by
    rw [hd.vtbl] at hst
    have hcalm := ha.calm hst
    unfold Obj.stack at hcalm ⊢
    rw [List.map_eq_nil_iff, List.filter_eq_nil_iff] at hcalm ⊢
    exact fun r hr => hcalm r (hd.subset hc hr)

/-- A sweep leaves the heap sound. -/
theorem Sound.swept (hs : h.Sound ext) (hd : Swept log h h') (hc : h'.Counted ext [])
    (hidle : h'.trash = []) : h'.Sound ext where
  counted := hc
  stacked a := by
    have hle : h'.stackTo a ≤ h.stackTo a := by
      unfold stackTo
      rw [hd.top]
      exact Finset.sum_le_sum fun s _ => hd.stack_le hc s a
    exact Nat.le_trans hle (hs.stacked a)
  fit a := hd.fit hc (hs.fit a)
  idle := hidle

/-- A collection comes to its end, or it is put off. -/
theorem Sound.collected (hs : h.Sound ext) (hmax : ∀ a, (h.objs a).strong + 1 < usizeMax) :
    ((∃ a ∈ h.cyclic, (h.objs a).borrow = borrowMut) ∧ h.collectFull = .ok (h, none)) ∨
      (∀ a ∈ h.cyclic, (h.objs a).borrow ≠ borrowMut) ∧
        ∃ h' log, h.collectFull = .ok (h', some log) ∧ Collected ext h h' log := by
  obtain ⟨hstart, hmut⟩ | ⟨⟨trial, hstart⟩, hmut⟩ := Sound.startTrial h
  · refine .inl ⟨hmut, ?_⟩
    unfold collectFull
    rw [hstart]
  · refine .inr ⟨hmut, ?_⟩
    obtain ⟨trial', m₁, m, hsub, hprop, hresc, hnodup, hgarbage⟩ := hs.marks hstart
    have hc : Counted ext { h with trash := m.trash ++ m.strands } [] :=
      ⟨hs.counted.strong, hs.counted.dead, hs.counted.fresh, hs.counted.ring, hs.counted.nodup,
        fun a ha => ((hgarbage a).mp ha).1, hnodup⟩
    obtain ⟨h', log, hsweep, hc', hswept, hdone, hlognodup, hlog, hall⟩ :=
      hc.sweep (Nat.lt_succ_self _) hmax
    have hswept' : Swept log h h' :=
      ⟨hswept.top, hswept.vtbl, hswept.borrow, hswept.strong, hswept.refs, hswept.ring⟩
    refine ⟨h', log, ?_, hs.swept hswept' hc' hdone, hswept', hlognodup, fun a ha => ?_,
      fun a ha hborrow => hall a ((hgarbage a).mpr ha) hborrow, fun a ha => ?_⟩
    · unfold collectFull
      rw [hstart]
      dsimp only
      rw [hsub, ok_bind]
      rw [hprop, ok_bind, hresc, ok_bind, hsweep]
      rfl
    · obtain ⟨hmem, hborrow⟩ := hlog a ha
      exact ⟨(hgarbage a).mp hmem, hborrow⟩
    · -- Of what is held only strands are cleared, and they have no fields.
      refine ha.survives hc' hswept' fun b hb hheld => ?_
      obtain ⟨hmem, hdead, hresc'⟩ := (hgarbage b).mp (hlog b hb).1
      obtain hal | hrs | hst := hs.held hheld hmem
      · exact absurd hal hdead
      · exact absurd hrs hresc'
      · exact ((hs.fit b).strand hst).2

end Dolang.Gc.Heap
