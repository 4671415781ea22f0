import Dolang.Gc.Garbage

/-!
# What a collection does

Clearing garbage drops what it owns, which may release some of the garbage that is still to be
cleared (`Counted.sweep`). A collection clears exactly the garbage, and what references from outside
of the heap lead to stays as it is (`Held.survives`). Only strands may be cleared that such
references lead to, and these are on stacks of strands that are garbage as well. Where references
that no `clear` drops do not form cycles, garbage is released at once (`garbage_released`).
-/

namespace Dolang.Gc.Heap

open Dolang.Rust Relation

variable {h h' : Heap} {ext : Addr → ℕ} {a b item : Addr} {log : List Addr}

/-- What a sweep that clears some objects makes of a heap. -/
structure Swept (log : List Addr) (h h' : Heap) : Prop where
  top : h'.top = h.top
  vtbl : ∀ a, (h'.objs a).vtbl = (h.objs a).vtbl
  borrow : ∀ a, (h'.objs a).borrow = (h.objs a).borrow
  strong : ∀ a, (h'.objs a).strong ≤ (h.objs a).strong
  refs : ∀ a, h'.Live a →
    (h'.objs a).refs = if a ∈ log then (h.objs a).cleared.refs else (h.objs a).refs
  ring : h'.cyclic = h.cyclic.filter fun a => h'.Live a

theorem Swept.live (hd : Swept log h h') (ha : h'.Live a) : h.Live a :=
  Nat.lt_of_lt_of_le ha (hd.strong a)

theorem cleared_cleared (o : Obj) : o.cleared.cleared.refs = o.cleared.refs := by
  unfold Obj.cleared
  rw [List.filter_filter]
  exact List.filter_congr fun r _ => Bool.and_self _

theorem Swept.trans {log' : List Addr} {h'' : Heap} (hd : Swept log h h')
    (hd' : Swept log' h' h'') : Swept (log ++ log') h h'' where
  top := hd'.top.trans hd.top
  vtbl a := (hd'.vtbl a).trans (hd.vtbl a)
  borrow a := (hd'.borrow a).trans (hd.borrow a)
  strong a := Nat.le_trans (hd'.strong a) (hd.strong a)
  refs a ha := by
    have hrefs := hd.refs a (hd'.live ha)
    have hcleared : (h'.objs a).cleared.refs = (h.objs a).cleared.refs := by
      unfold Obj.cleared
      rw [hrefs]
      split_ifs with hlog
      · exact cleared_cleared _
      · rfl
    rw [hd'.refs a ha, hcleared, hrefs]
    by_cases h1 : a ∈ log
    · rw [if_pos h1, if_pos (List.mem_append_left _ h1), ite_self]
    · rw [if_neg h1]
      by_cases h2 : a ∈ log'
      · rw [if_pos h2, if_pos (List.mem_append_right _ h2)]
      · rw [if_neg h2, if_neg fun hin => (List.mem_append.mp hin).elim h1 h2]
  ring := by
    rw [hd'.ring, hd.ring, List.filter_filter]
    refine List.filter_congr fun a _ => ?_
    rw [Bool.eq_iff_iff, Bool.and_eq_true, decide_eq_true_iff, decide_eq_true_iff]
    exact ⟨fun ha => ha.1, fun ha => ⟨ha, hd'.live ha⟩⟩

/-- What `clear` leaves of an object is what it owns without its fields. -/
theorem count_owned (o : Obj) (a : Addr) :
    o.owned.count a = o.cleared.owned.count a + o.fields.count a := by
  unfold Obj.owned Obj.cleared Obj.fields
  induction o.refs with
  | nil => rfl
  | cons r refs ih =>
    obtain ⟨x, hold⟩ := r
    cases hold <;>
      simp only [List.filter_cons, List.map_cons, List.count_cons, ne_eq, reduceCtorEq,
        not_false_eq_true, not_true_eq_false, decide_true, decide_false, if_true,
        Bool.false_eq_true, if_false] at ih ⊢ <;>
      omega

theorem count_cleared_stack (o : Obj) : o.cleared.stack = [] := by
  unfold Obj.stack Obj.cleared
  rw [List.filter_filter, List.map_eq_nil_iff, List.filter_eq_nil_iff]
  intro r _ hr
  rw [Bool.and_eq_true, decide_eq_true_iff, decide_eq_true_iff] at hr
  rw [hr.1] at hr
  cases hr.2

/-- What no object loses references of is not owned more often. -/
theorem ownedTo_mono (htop : h'.top = h.top)
    (hle : ∀ b, (h'.objs b).owned.count a ≤ (h.objs b).owned.count a) :
    h'.ownedTo a ≤ h.ownedTo a := by
  unfold ownedTo
  rw [htop]
  exact Finset.sum_le_sum fun b _ => hle b

/-- An object that keeps what it has, is cleared or dies owns no more than before. -/
theorem count_owned_le (hc : h'.Counted ext [])
    (hrefs : ∀ a, h'.Live a →
      (h'.objs a).refs = if a ∈ log then (h.objs a).cleared.refs else (h.objs a).refs)
    (b a : Addr) : (h'.objs b).owned.count a ≤ (h.objs b).owned.count a := by
  have hsplit := count_owned (h.objs b) a
  unfold Obj.owned at hsplit ⊢
  by_cases hb : h'.Live b
  · rw [hrefs b hb]
    split_ifs
    · omega
    · exact Nat.le_refl _
  · rw [hc.dead b hb]
    exact Nat.zero_le _

/-- Clearing an object drops its fields. -/
theorem Counted.clearObj (hc : h.Counted ext []) (hlive : h.Live item)
    (hmax : ∀ a, (h.objs a).strong + 1 < usizeMax) :
    ∃ h', h.clearObj item = .ok h' ∧ h'.Counted ext [] ∧ Swept [item] h h' ∧
      h'.trash = h.trash.filter fun a => h'.Live a := by
  have htop := hc.lt_top hlive
  have hpos : (h.objs item).strong ≠ 0 := Nat.ne_of_gt hlive
  -- The heap with the extra reference and without the references that are dropped.
  generalize ho : ({ (h.objs item).cleared with strong := (h.objs item).strong + 1 } : Obj) = o
  have hrun : h.clearObj item = (h.set item o).drain ((h.objs item).fields ++ [item]) := by
    have hsat : saturatingAdd (h.objs item).strong 1 = (h.objs item).strong + 1 :=
      Nat.min_eq_left (hmax item).le
    unfold Heap.clearObj retain
    rw [if_neg hpos, ok_bind, hsat]
    have hset : ((h.set item { h.objs item with strong := (h.objs item).strong + 1 }).set item
        ((h.set item { h.objs item with strong := (h.objs item).strong + 1 }).objs item).cleared) =
        h.set item o := by
      unfold set
      dsimp only
      rw [Function.update_idem, Function.update_self, ← ho]
      rfl
    rw [hset, objs_set, if_pos rfl]
    rfl
  have hobj : ∀ x, (h.set item o).objs x = if x = item then o else h.objs x := fun x => objs_set ..
  have hlive' : ∀ x, (h.set item o).Live x ↔ h.Live x := by
    intro x
    unfold Live
    rw [hobj]
    split_ifs with hx
    · rw [hx, ← ho]
      exact ⟨fun _ => hlive, fun _ => Nat.succ_pos _⟩
    · exact Iff.rfl
  have hvtbl : ∀ x, ((h.set item o).objs x).vtbl = (h.objs x).vtbl := by
    intro x
    rw [hobj]
    split_ifs with hx
    · rw [hx, ← ho]
      rfl
    · rfl
  have hcounted : (h.set item o).Counted ext ((h.objs item).fields ++ [item]) := by
    refine ⟨fun x => ?_, fun x hx => ?_, fun x hx => ?_, fun x => ?_, hc.nodup, hc.trash,
      hc.distinct⟩
    · have hstrong := hc.strong x
      have hset := ownedTo_set htop o x
      have hsplit := count_owned (h.objs item) x
      have howned : o.owned = (h.objs item).cleared.owned := ho ▸ rfl
      rw [howned] at hset
      rw [List.count_nil] at hstrong
      rw [hobj, List.count_append]
      split_ifs with hx
      · subst hx
        have hone : List.count x [x] = 1 := List.count_singleton_self
        have hplus : o.strong = (h.objs x).strong + 1 := ho ▸ rfl
        omega
      · have hzero : List.count x [item] = 0 :=
          List.count_eq_zero.mpr fun hmem => hx (List.mem_singleton.mp hmem)
        omega
    · have hxi : x ≠ item := fun hxi => hx ((hlive' x).mpr (by rwa [hxi]))
      rw [hobj, if_neg hxi]
      exact hc.dead x fun hl => hx ((hlive' x).mpr hl)
    · exact fun hl => hc.fresh x hx ((hlive' x).mp hl)
    · rw [hlive', hvtbl]
      exact hc.ring x
  obtain ⟨h', hdrain, hc', hd⟩ := hcounted.drain fun x => by
    have hx := hmax x
    rw [hobj]
    split_ifs with hxi
    · have hplus : o.strong = (h.objs item).strong + 1 := ho ▸ rfl
      rw [hplus]
      exact hmax item
    · omega
  have hrefs : ∀ x, h'.Live x →
      (h'.objs x).refs = if x ∈ [item] then (h.objs x).cleared.refs else (h.objs x).refs := by
    intro x hx
    rw [hd.refs x hx, hobj]
    by_cases hxi : x = item
    · rw [if_pos hxi, if_pos (List.mem_singleton.mpr hxi), hxi, ← ho]
    · rw [if_neg hxi, if_neg fun hmem => hxi (List.mem_singleton.mp hmem)]
  have hborrow : ∀ x, (h'.objs x).borrow = (h.objs x).borrow := by
    intro x
    rw [hd.borrow, hobj]
    split_ifs with hxi
    · rw [hxi, ← ho]
      rfl
    · rfl
  refine ⟨h', hrun.trans hdrain, hc', ⟨hd.top, fun x => (hd.vtbl x).trans (hvtbl x), hborrow,
    fun x => ?_, hrefs, hd.ring⟩, hd.trash⟩
  -- The extra reference is gone, and no object owns more than before.
  have hstrong := hc.strong x
  have hstrong' := hc'.strong x
  have hmono : h'.ownedTo x ≤ h.ownedTo x :=
    ownedTo_mono hd.top fun b => count_owned_le hc' hrefs b x
  rw [List.count_nil] at hstrong hstrong'
  omega

/-- A sweep clears what has not been released before its turn. -/
theorem Counted.sweep {n : ℕ} (hc : h.Counted ext []) (hn : h.trash.length < n)
    (hmax : ∀ a, (h.objs a).strong + 1 < usizeMax) :
    ∃ h' log, Heap.sweep n h = .ok (h', log) ∧ h'.Counted ext [] ∧ Swept log h h' ∧
      h'.trash = [] ∧ log.Nodup ∧ (∀ a ∈ log, a ∈ h.trash ∧ (h.objs a).borrow = 0) ∧
      ∀ a ∈ h.trash, (h.objs a).borrow = 0 → a ∈ log ∨ ¬h'.Live a := by
  induction n generalizing h with
  | zero => exact absurd hn (Nat.not_lt_zero _)
  | succ n ih =>
    unfold Heap.sweep
    cases htrash : h.trash with
    | nil =>
      refine ⟨h, [], rfl, hc, ⟨rfl, fun _ => rfl, fun _ => rfl, fun _ => Nat.le_refl _,
        fun a _ => ?_, ?_⟩, htrash, .nil, fun a ha => ?_, fun a ha => ?_⟩
      · rw [if_neg List.not_mem_nil]
      · exact (List.filter_eq_self.mpr fun a ha => decide_eq_true ((hc.ring a).mp ha).1).symm
      · cases ha
      · cases ha
    | cons item rest =>
      obtain ⟨hitem, hrest⟩ := List.nodup_cons.mp (htrash ▸ hc.distinct)
      have hmem : item ∈ h.cyclic := hc.trash item (htrash ▸ List.mem_cons_self)
      have hc₀ : Counted ext { h with trash := rest } [] :=
        ⟨hc.strong, hc.dead, hc.fresh, hc.ring, hc.nodup,
          fun a ha => hc.trash a (htrash ▸ List.mem_cons_of_mem item ha), hrest⟩
      have hswept₀ : Swept [] h { h with trash := rest } := by
        refine ⟨rfl, fun _ => rfl, fun _ => rfl, fun _ => Nat.le_refl _, fun a _ => ?_, ?_⟩
        · rw [if_neg List.not_mem_nil]
        · exact (List.filter_eq_self.mpr fun a ha => decide_eq_true ((hc.ring a).mp ha).1).symm
      have hlen : rest.length < n := by
        rw [htrash, List.length_cons] at hn
        omega
      dsimp only
      by_cases hborrow : (h.objs item).borrow = 0
      · rw [if_neg (not_not_intro hborrow)]
        have hlive : Live { h with trash := rest } item := ((hc.ring item).mp hmem).1
        obtain ⟨h₁, hrun, hc₁, hswept, htrash₁⟩ := hc₀.clearObj hlive hmax
        have hlen₁ : h₁.trash.length < n := by
          rw [htrash₁]
          exact Nat.lt_of_le_of_lt (List.length_filter_le _ _) hlen
        obtain ⟨h', log, hsweep, hc', hswept', hdone, hnodup, hlog, hall⟩ :=
          ih hc₁ hlen₁ fun a => Nat.lt_of_le_of_lt (Nat.succ_le_succ (hswept.strong a)) (hmax a)
        have hsub : ∀ a ∈ h₁.trash, a ∈ rest := fun a ha => by
          rw [htrash₁] at ha
          exact List.mem_of_mem_filter ha
        refine ⟨h', item :: log, ?_, hc', hswept₀.trans (hswept.trans hswept'), hdone, ?_,
          fun a ha => ?_, fun a ha hba => ?_⟩
        · rw [hrun, ok_bind, hsweep]
          rfl
        · exact List.nodup_cons.mpr ⟨fun hin => hitem (hsub item (hlog item hin).1), hnodup⟩
        · obtain rfl | ha := List.mem_cons.mp ha
          · exact ⟨List.mem_cons_self, hborrow⟩
          · obtain ⟨htr, hba⟩ := hlog a ha
            exact ⟨List.mem_cons_of_mem item (hsub a htr), (hswept.borrow a).symm.trans hba⟩
        · obtain rfl | ha := List.mem_cons.mp ha
          · exact .inl List.mem_cons_self
          · by_cases hla : h₁.Live a
            · have htr : a ∈ h₁.trash := by
                rw [htrash₁]
                exact List.mem_filter.mpr ⟨ha, decide_eq_true hla⟩
              exact (hall a htr ((hswept.borrow a).trans hba)).imp_left
                (List.mem_cons_of_mem item)
            · exact .inr fun hl => hla (hswept'.live hl)
      · rw [if_pos hborrow]
        obtain ⟨h', log, hsweep, hc', hswept', hdone, hnodup, hlog, hall⟩ := ih hc₀ hlen hmax
        refine ⟨h', log, hsweep, hc', hswept₀.trans hswept', hdone, hnodup, fun a ha => ?_,
          fun a ha hba => ?_⟩
        · exact ⟨List.mem_cons_of_mem item (hlog a ha).1, (hlog a ha).2⟩
        · obtain rfl | ha := List.mem_cons.mp ha
          · exact absurd hba hborrow
          · exact hall a ha hba

/-! ### What stays -/

/-- An object that a reference from outside of the heap leads to, along what objects own. -/
def Held (ext : Addr → ℕ) (h : Heap) (a : Addr) : Prop :=
  ∃ r, 0 < ext r ∧ ReflTransGen (fun b c => c ∈ (h.objs b).owned) r a

theorem mem_trace_of_owned (ha : a ∈ (h.objs b).owned) : a ∈ (h.objs b).trace := by
  unfold Obj.owned at ha
  obtain ⟨r, hr, rfl⟩ := List.mem_map.mp ha
  exact List.mem_map_of_mem (List.mem_of_mem_filter hr)

theorem mem_trace_of_stack (ha : a ∈ (h.objs b).stack) : a ∈ (h.objs b).trace := by
  unfold Obj.stack at ha
  obtain ⟨r, hr, rfl⟩ := List.mem_map.mp ha
  exact List.mem_map_of_mem (List.mem_of_mem_filter hr)

/-- What is owned from outside of the ring is a root. -/
theorem Sound.root_of_owned (hs : h.Sound ext) (ha : a ∈ h.cyclic) (hb : b ∉ h.cyclic)
    (hab : a ∈ (h.objs b).owned) : h.Root a := by
  have hlive : h.Live b := by
    by_contra hdead
    unfold Obj.owned at hab
    rw [hs.counted.dead b hdead] at hab
    cases hab
  have hmem := Finset.mem_range.mpr (hs.counted.lt_top hlive)
  have hsum : h.inner a = ∑ b ∈ h.cyclic.toFinset, (h.objs b).trace.count a := by
    unfold inner
    rw [List.count_flatMap, List.sum_toFinset _ hs.counted.nodup]
    rfl
  have hsub : h.cyclic.toFinset ⊆ (Finset.range h.top).erase b := by
    intro c hc
    have hc := List.mem_toFinset.mp hc
    have hlive := ((hs.counted.ring c).mp hc).1
    refine Finset.mem_erase.mpr ⟨?_, Finset.mem_range.mpr (hs.counted.lt_top hlive)⟩
    rintro rfl
    exact hb hc
  have hall : ∑ b ∈ Finset.range h.top, (h.objs b).trace.count a = h.ownedTo a + h.stackTo a := by
    unfold ownedTo stackTo
    rw [← Finset.sum_add_distrib]
    exact Finset.sum_congr rfl fun b _ => count_trace (h.objs b) a
  have hpos := List.count_pos_iff.mpr (mem_trace_of_owned hab)
  have hstrong := hs.counted.strong a
  have hext := hs.stacked a
  rw [List.count_nil] at hstrong
  refine ⟨ha, ?_⟩
  calc h.inner a = ∑ b ∈ h.cyclic.toFinset, (h.objs b).trace.count a := hsum
    _ ≤ ∑ b ∈ (Finset.range h.top).erase b, (h.objs b).trace.count a :=
      Finset.sum_le_sum_of_subset hsub
    _ < (h.objs b).trace.count a +
        ∑ b ∈ (Finset.range h.top).erase b, (h.objs b).trace.count a := Nat.lt_add_of_pos_left hpos
    _ = h.ownedTo a + h.stackTo a := (Finset.add_sum_erase _ _ hmem).trans hall
    _ ≤ (h.objs a).strong := by omega

/-- A reference from outside of the heap makes a root, unless all of them are on stacks that strands
of the ring report. -/
theorem Sound.root_or_stack (hs : h.Sound ext) (ha : a ∈ h.cyclic) (hext : 0 < ext a) :
    h.Root a ∨ ∃ s ∈ h.cyclic, (h.objs s).vtbl.isStrand = true ∧ a ∈ (h.objs s).stack := by
  by_cases hroot : h.inner a < (h.objs a).strong
  · exact .inl ⟨ha, hroot⟩
  · refine .inr ?_
    have hsum : h.inner a = ∑ b ∈ h.cyclic.toFinset, (h.objs b).owned.count a +
        ∑ b ∈ h.cyclic.toFinset, (h.objs b).stack.count a := by
      unfold inner
      rw [List.count_flatMap, ← Finset.sum_add_distrib, ← List.sum_toFinset _ hs.counted.nodup]
      exact Finset.sum_congr rfl fun b _ => count_trace (h.objs b) a
    have hsub : h.cyclic.toFinset ⊆ Finset.range h.top := by
      intro c hc
      have hlive := ((hs.counted.ring c).mp (List.mem_toFinset.mp hc)).1
      exact Finset.mem_range.mpr (hs.counted.lt_top hlive)
    have hle : ∑ b ∈ h.cyclic.toFinset, (h.objs b).owned.count a ≤ h.ownedTo a :=
      Finset.sum_le_sum_of_subset hsub
    have hstrong := hs.counted.strong a
    rw [List.count_nil] at hstrong
    have hne : ∑ b ∈ h.cyclic.toFinset, (h.objs b).stack.count a ≠ 0 := by omega
    obtain ⟨s, hmem, hcount⟩ := Finset.exists_ne_zero_of_sum_ne_zero hne
    have hin := List.count_pos_iff.mp (Nat.pos_of_ne_zero hcount)
    refine ⟨s, List.mem_toFinset.mp hmem, ?_, hin⟩
    -- Only strands have stacks.
    by_contra hns
    rw [(hs.fit s).calm (Bool.eq_false_iff.mpr hns)] at hin
    cases hin

/-- What a reference leads to is alive or rescued, or it is a strand. -/
theorem Sound.held (hs : h.Sound ext) (ha : Held ext h a) (hmem : a ∈ h.cyclic) :
    h.Alive a ∨ h.Rescued a ∨ (h.objs a).vtbl.isStrand = true := by
  have hrescue : ∀ {s c}, s ∈ h.cyclic → (h.objs s).vtbl.isStrand = true →
      c ∈ (h.objs s).trace → c ∈ h.cyclic →
        h.Alive c ∨ h.Rescued c ∨ (h.objs c).vtbl.isStrand = true := by
    intro s c hs' hst hc hcm
    have hv := ((hs.counted.ring c).mp hcm).2
    by_cases hal : h.Alive s
    · exact .inl (hal.edge ⟨hc, hv⟩)
    · cases hcs : (h.objs c).vtbl.isStrand with
      | true => exact .inr (.inr rfl)
      | false => exact .inr (.inl ⟨s, hs', hst, hal, .single ⟨⟨hc, hv⟩, hcs⟩⟩)
  obtain ⟨r, hext, hpath⟩ := ha
  induction hpath with
  | refl =>
    obtain hroot | ⟨s, hs', hst, hin⟩ := hs.root_or_stack hmem hext
    · exact .inl ⟨r, hroot, .refl⟩
    · exact hrescue hs' hst (mem_trace_of_stack hin) hmem
  | @tail b c hpath hc ih =>
    have hv := ((hs.counted.ring c).mp hmem).2
    have htrace := mem_trace_of_owned hc
    by_cases hb : b ∈ h.cyclic
    · obtain hal | ⟨s, hs', hst, hdead, hsb⟩ | hst := ih hb
      · exact .inl (hal.edge ⟨htrace, hv⟩)
      · cases hcs : (h.objs c).vtbl.isStrand with
        | true => exact .inr (.inr rfl)
        | false => exact .inr (.inl ⟨s, hs', hst, hdead, hsb.tail ⟨⟨htrace, hv⟩, hcs⟩⟩)
      · exact hrescue hb hst htrace hmem
    · exact .inl ⟨c, hs.root_of_owned hmem hb hc, .refl⟩

/-- What a reference leads to survives a sweep of which it loses nothing, with all that it owns. -/
theorem Held.survives (ha : Held ext h a) (hc : h'.Counted ext []) (hd : Swept log h h')
    (hlog : ∀ b ∈ log, Held ext h b → (h.objs b).fields = []) :
    h'.Live a ∧ (h'.objs a).owned = (h.objs a).owned := by
  have howned : ∀ b, Held ext h b → h'.Live b → (h'.objs b).owned = (h.objs b).owned := by
    intro b hb hlive
    have hrefs := hd.refs b hlive
    by_cases hin : b ∈ log
    · rw [if_pos hin] at hrefs
      have hfields := hlog b hin hb
      have hkept : (h.objs b).refs.filter (fun r => r.2 = .kept) =
          (h.objs b).refs.filter fun r => r.2 ≠ .stack := by
        refine List.filter_congr fun r hr => ?_
        unfold Obj.fields at hfields
        rw [List.map_eq_nil_iff, List.filter_eq_nil_iff] at hfields
        have hnot := hfields r hr
        obtain ⟨x, hold⟩ := r
        cases hold <;> simp_all
      unfold Obj.owned
      rw [hrefs]
      unfold Obj.cleared
      dsimp only
      rw [List.filter_filter, hkept.symm]
      refine congrArg _ (List.filter_congr fun r _ => ?_)
      obtain ⟨x, hold⟩ := r
      cases hold <;> rfl
    · rw [if_neg hin] at hrefs
      unfold Obj.owned
      rw [hrefs]
  have hlive : h'.Live a := by
    obtain ⟨r, hext, hpath⟩ := ha
    induction hpath with
    | refl =>
      have hstrong := hc.strong r
      unfold Live
      omega
    | tail hpath hc' ih =>
      have hb := howned _ ⟨r, hext, hpath⟩ ih
      rw [← hb] at hc'
      exact hc.live_of_mem hc'
  exact ⟨hlive, howned a ha hlive⟩

end Dolang.Gc.Heap
