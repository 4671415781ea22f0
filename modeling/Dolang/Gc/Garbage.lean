import Dolang.Gc.Collect

/-!
# What the collector finds

An object of the ring is alive when a reference from elsewhere leads to it along what objects of the
ring report (`Heap.Alive`). Of the others, what a strand leads to is rescued, up to further strands
(`Heap.Rescued`), and the rest is garbage. Trial deletion finds exactly the garbage, and no trial
count falls below zero (`Sound.marks`).
-/

namespace Dolang.Gc

open Dolang.Rust Relation

/-- What the stack of a strand holds, as its handle reports it. -/
def Obj.stack (o : Obj) : List Addr :=
  (o.refs.filter fun r => r.2 = .stack).map Prod.fst

/-- What an object may have. Strands are in the ring and have no fields, and only strands have
stacks. -/
structure Obj.Fit (o : Obj) : Prop where
  strand : o.vtbl.isStrand = true → o.vtbl.cyclic = true ∧ o.fields = []
  calm : o.vtbl.isStrand = false → o.stack = []

namespace Heap

variable (h : Heap) (a b : Addr)

/-- The references to an object from stacks, as strands report them. -/
def stackTo : ℕ :=
  ∑ b ∈ Finset.range h.top, (h.objs b).stack.count a

/-- Between collections, each count is the number of the references to its object. Those on stacks
are among the ones that `ext` counts. -/
structure Sound (ext : Addr → ℕ) (h : Heap) : Prop where
  counted : h.Counted ext []
  stacked : ∀ a, h.stackTo a ≤ ext a
  fit : ∀ a, (h.objs a).Fit
  idle : h.trash = []

/-- The references to an object that the objects of the ring report. -/
def inner : ℕ :=
  (h.cyclic.flatMap h.children).count a

/-- An object of the ring with a reference from elsewhere. -/
def Root : Prop :=
  a ∈ h.cyclic ∧ h.inner a < (h.objs a).strong

/-- An object reports another one that may be in a cycle. -/
def Edge : Prop :=
  b ∈ (h.objs a).trace ∧ (h.objs b).vtbl.cyclic = true

/-- An object that a reference from elsewhere leads to. -/
def Alive : Prop :=
  ∃ r, h.Root r ∧ ReflTransGen h.Edge r a

/-- An object that a strand leads to that is not alive, through objects other than strands. -/
def Rescued : Prop :=
  ∃ s ∈ h.cyclic, (h.objs s).vtbl.isStrand = true ∧ ¬h.Alive s ∧
    TransGen (fun b c => h.Edge b c ∧ (h.objs c).vtbl.isStrand = false) s a

/-- What a collection clears. -/
def Garbage : Prop :=
  a ∈ h.cyclic ∧ ¬h.Alive a ∧ ¬h.Rescued a

variable {h : Heap} {ext : Addr → ℕ} {a b : Addr}

theorem eligible_false : h.eligible false a = true ↔ (h.objs a).vtbl.cyclic = true := by
  unfold eligible
  rw [Bool.false_and, Bool.not_false, Bool.and_true]

theorem eligible_true : h.eligible true a = true ↔
    (h.objs a).vtbl.cyclic = true ∧ (h.objs a).vtbl.isStrand = false := by
  unfold eligible
  rw [Bool.true_and, Bool.and_eq_true, Bool.not_eq_true']

/-! ### Counts -/

/-- What an object reports is what it owns with what is on its stack. -/
theorem count_trace (o : Obj) (a : Addr) :
    o.trace.count a = o.owned.count a + o.stack.count a := by
  unfold Obj.trace Obj.owned Obj.stack
  induction o.refs with
  | nil => rfl
  | cons r refs ih =>
    by_cases hr : r.2 = .stack
    · rw [List.filter_cons_of_neg (by simp [hr]), List.filter_cons_of_pos (by simp [hr]),
        List.map_cons, List.map_cons, List.count_cons, List.count_cons, ih, Nat.add_assoc]
    · rw [List.filter_cons_of_pos (by simp [hr]), List.filter_cons_of_neg (by simp [hr]),
        List.map_cons, List.map_cons, List.count_cons, List.count_cons, ih]
      omega

theorem count_le_stackTo (hb : b < h.top) (a : Addr) : (h.objs b).stack.count a ≤ h.stackTo a :=
  Finset.single_le_sum (f := fun b => (h.objs b).stack.count a) (fun _ _ => Nat.zero_le _)
    (Finset.mem_range.mpr hb)

/-- An object that another one reports is alive. -/
theorem Sound.live_of_trace (hs : h.Sound ext) (ha : a ∈ (h.objs b).trace) : h.Live a := by
  have hb : h.Live b := by
    by_contra hdead
    have hrefs := hs.counted.dead b hdead
    rw [Obj.trace, hrefs] at ha
    cases ha
  have htop := hs.counted.lt_top hb
  have hpos := List.count_pos_iff.mpr ha
  have hsplit := count_trace (h.objs b) a
  have howned := count_le_ownedTo htop a
  have hstack := count_le_stackTo htop a
  have hext := hs.stacked a
  have hstrong := hs.counted.strong a
  unfold Live
  omega

theorem Sound.mem_cyclic (hs : h.Sound ext) (ha : a ∈ (h.objs b).trace)
    (hv : (h.objs a).vtbl.cyclic = true) : a ∈ h.cyclic :=
  (hs.counted.ring a).mpr ⟨hs.live_of_trace ha, hv⟩

/-- Objects do not report more references than there are. -/
theorem Sound.inner_le (hs : h.Sound ext) (a : Addr) : h.inner a ≤ (h.objs a).strong := by
  have hsum : h.inner a = ∑ b ∈ h.cyclic.toFinset, (h.objs b).trace.count a := by
    unfold inner
    rw [List.count_flatMap, List.sum_toFinset _ hs.counted.nodup]
    rfl
  have hsub : h.cyclic.toFinset ⊆ Finset.range h.top := by
    intro b hb
    have hlive := ((hs.counted.ring b).mp (List.mem_toFinset.mp hb)).1
    exact Finset.mem_range.mpr (hs.counted.lt_top hlive)
  have hall : ∑ b ∈ Finset.range h.top, (h.objs b).trace.count a = h.ownedTo a + h.stackTo a := by
    unfold ownedTo stackTo
    rw [← Finset.sum_add_distrib]
    exact Finset.sum_congr rfl fun b _ => count_trace (h.objs b) a
  have hstrong := hs.counted.strong a
  have hext := hs.stacked a
  rw [List.count_nil] at hstrong
  calc h.inner a = ∑ b ∈ h.cyclic.toFinset, (h.objs b).trace.count a := hsum
    _ ≤ ∑ b ∈ Finset.range h.top, (h.objs b).trace.count a := Finset.sum_le_sum_of_subset hsub
    _ = h.ownedTo a + h.stackTo a := hall
    _ ≤ (h.objs a).strong := by omega

/-! ### Trials -/

theorem foldl_start (h : Heap) (l : List Addr) (trial : Addr → ℕ) (a : Addr) :
    l.foldl (fun trial a => Function.update trial a (h.objs a).strong) trial a =
      if a ∈ l then (h.objs a).strong else trial a := by
  induction l generalizing trial with
  | nil => rfl
  | cons b l ih =>
    rw [List.foldl_cons, ih, Function.update_apply]
    by_cases hal : a ∈ l
    · rw [if_pos hal, if_pos (List.mem_cons_of_mem b hal)]
    · rw [if_neg hal]
      by_cases hab : a = b
      · rw [if_pos hab, if_pos (hab ▸ List.mem_cons_self), hab]
      · rw [if_neg hab, if_neg (fun hmem => (List.mem_cons.mp hmem).elim hab hal)]

/-- Each reference to an object that may be in a cycle is taken off once. -/
theorem foldlM_subtract (h : Heap) (l : List Addr) (trial : Addr → ℕ)
    (hle : ∀ c, (h.objs c).vtbl.cyclic = true → l.count c ≤ trial c) :
    ∃ trial', l.foldlM h.subtract trial = .ok trial' ∧ ∀ c, trial' c =
      if (h.objs c).vtbl.cyclic = true then trial c - l.count c else trial c := by
  induction l generalizing trial with
  | nil =>
    refine ⟨trial, rfl, fun c => ?_⟩
    rw [List.count_nil, Nat.sub_zero, ite_self]
  | cons b l ih =>
    rw [List.foldlM_cons]
    unfold subtract
    by_cases hb : (h.objs b).vtbl.cyclic = true
    · have hpos := hle b hb
      rw [List.count_cons_self] at hpos
      rw [if_pos hb, if_neg (by omega)]
      obtain ⟨trial', hrun, htrial⟩ := ih (Function.update trial b (trial b - 1)) fun c hc => by
        have hcount := hle c hc
        rw [List.count_cons] at hcount
        rw [Function.update_apply]
        split_ifs with hcb
        · rw [hcb] at hcount ⊢
          rw [if_pos (beq_self_eq_true b)] at hcount
          omega
        · rw [if_neg (by simpa using Ne.symm hcb)] at hcount
          exact hcount
      refine ⟨trial', hrun, fun c => ?_⟩
      rw [htrial, Function.update_apply, List.count_cons]
      by_cases hcb : c = b
      · subst hcb
        rw [if_pos hb, if_pos hb, if_pos rfl, if_pos (beq_self_eq_true c), Nat.sub_sub,
          Nat.add_comm 1]
      · have hbc : ¬(b == c) = true := by simpa using Ne.symm hcb
        rw [if_neg hcb, if_neg hbc, Nat.add_zero]
    · rw [if_neg hb]
      obtain ⟨trial', hrun, htrial⟩ := ih trial fun c hc =>
        Nat.le_trans List.count_le_count_cons (hle c hc)
      refine ⟨trial', hrun, fun c => ?_⟩
      rw [htrial, List.count_cons]
      by_cases hc : (h.objs c).vtbl.cyclic = true
      · rw [if_pos hc, if_pos hc, if_neg (by rintro hbc; exact hb (eq_of_beq hbc ▸ hc)),
          Nat.add_zero]
      · rw [if_neg hc, if_neg hc]

theorem foldlM_nested {σ α β : Type} (f : σ → β → Exec Empty σ) (g : α → List β) (l : List α)
    (s : σ) : l.foldlM (fun s a => (g a).foldlM f s) s = (l.flatMap g).foldlM f s := by
  induction l generalizing s with
  | nil => rfl
  | cons a l ih =>
    rw [List.foldlM_cons, List.flatMap_cons, List.foldlM_append]
    exact bind_congr fun s => ih s

/-- After both passes, what is left of a count comes from outside of the ring. -/
theorem Sound.trial (hs : h.Sound ext) {trial : Addr → ℕ} (hstart : h.startTrial = some trial) :
    ∃ trial', h.subtractAll trial = .ok trial' ∧ ∀ a, trial' a ≠ 0 ↔ h.Root a := by
  unfold startTrial at hstart
  split_ifs at hstart
  have htrial : ∀ c, trial c = if c ∈ h.cyclic then (h.objs c).strong else 0 := by
    intro c
    rw [← Option.some.inj hstart, foldl_start]
  have hle : ∀ c, (h.objs c).vtbl.cyclic = true → h.inner c ≤ trial c := by
    intro c hc
    rw [htrial]
    split_ifs with hmem
    · exact hs.inner_le c
    · -- An object that is not in the ring is reported by none.
      refine Nat.le_of_eq (List.count_eq_zero.mpr fun hin => hmem ?_)
      obtain ⟨b, -, hb⟩ := List.mem_flatMap.mp hin
      exact hs.mem_cyclic hb hc
  obtain ⟨trial', hrun, htrial'⟩ := foldlM_subtract h (h.cyclic.flatMap h.children) trial hle
  refine ⟨trial', (foldlM_nested _ _ _ _).trans hrun, fun a => ?_⟩
  rw [htrial', htrial]
  unfold Root
  by_cases hmem : a ∈ h.cyclic
  · have hv := ((hs.counted.ring a).mp hmem).2
    rw [if_pos hv, if_pos hmem]
    change (h.objs a).strong - h.inner a ≠ 0 ↔ _
    exact ⟨fun hne => ⟨hmem, by omega⟩, fun hlt => by omega⟩
  · rw [if_neg hmem]
    refine iff_of_false (fun hne => hne ?_) fun hroot => hmem hroot.1
    split_ifs
    · exact Nat.zero_sub _
    · rfl

/-! ### Marks -/

/-- The queues hold the objects of the ring that have not been found alive. -/
structure Fits (h : Heap) (m : Marks) : Prop where
  trash : ∀ a, a ∈ m.trash ↔ a ∈ h.cyclic ∧ m.trial a = 0 ∧ (h.objs a).vtbl.isStrand = false
  strands : ∀ a, a ∈ m.strands ↔ a ∈ h.cyclic ∧ m.trial a = 0 ∧ (h.objs a).vtbl.isStrand = true
  nodupTrash : m.trash.Nodup
  nodupStrands : m.strands.Nodup

theorem Fits.mark {m : Marks} (hm : Fits h m) (c : Addr) : Fits h (marker.mark m c) where
  trash a := by
    change a ∈ m.trash.erase c ↔ _ ∧ Function.update m.trial c 1 a = 0 ∧ _
    rw [hm.nodupTrash.mem_erase_iff, hm.trash, Function.update_apply]
    split_ifs with hac
    · exact iff_of_false (fun hin => hin.1 hac) fun hin => hin.2.1.elim
    · exact and_iff_right hac
  strands a := by
    change a ∈ m.strands.erase c ↔ _ ∧ Function.update m.trial c 1 a = 0 ∧ _
    rw [hm.nodupStrands.mem_erase_iff, hm.strands, Function.update_apply]
    split_ifs with hac
    · exact iff_of_false (fun hin => hin.1 hac) fun hin => hin.2.1.elim
    · exact and_iff_right hac
  nodupTrash := hm.nodupTrash.erase c
  nodupStrands := hm.nodupStrands.erase c

/-- The queues after some of the ring has been looked at. -/
theorem foldl_sort (h : Heap) (trial : Addr → ℕ) (l : List Addr) (ts ss al : List Addr) :
    l.foldl h.sort (⟨trial, ts, ss⟩, al) =
      (⟨trial,
        (l.filter fun a => trial a = 0 ∧ (h.objs a).vtbl.isStrand = false).reverse ++ ts,
        (l.filter fun a => trial a = 0 ∧ (h.objs a).vtbl.isStrand = true).reverse ++ ss⟩,
        (l.filter fun a => trial a ≠ 0).reverse ++ al) := by
  induction l generalizing ts ss al with
  | nil => rfl
  | cons a l ih =>
    rw [List.foldl_cons]
    by_cases ha : trial a = 0
    · cases hs : (h.objs a).vtbl.isStrand with
      | true =>
        have hsort : h.sort (⟨trial, ts, ss⟩, al) a = (⟨trial, ts, a :: ss⟩, al) := by
          unfold sort
          rw [if_pos ha, if_pos hs]
        rw [hsort, ih, List.filter_cons_of_neg (by simp [hs]),
          List.filter_cons_of_pos (by simp [ha, hs]), List.filter_cons_of_neg (by simp [ha]),
          List.reverse_cons, List.append_assoc]
        rfl
      | false =>
        have hsort : h.sort (⟨trial, ts, ss⟩, al) a = (⟨trial, a :: ts, ss⟩, al) := by
          unfold sort
          rw [if_pos ha, if_neg (Bool.eq_false_iff.mp hs)]
        rw [hsort, ih, List.filter_cons_of_pos (by simp [ha, hs]),
          List.filter_cons_of_neg (by simp [hs]), List.filter_cons_of_neg (by simp [ha]),
          List.reverse_cons, List.append_assoc]
        rfl
    · have hsort : h.sort (⟨trial, ts, ss⟩, al) a = (⟨trial, ts, ss⟩, a :: al) := by
        unfold sort
        rw [if_neg ha]
      rw [hsort, ih, List.filter_cons_of_neg (by simp [ha]),
        List.filter_cons_of_neg (by simp [ha]), List.filter_cons_of_pos (by simp [ha]),
        List.reverse_cons, List.append_assoc]
      rfl

theorem Sound.partition (hs : h.Sound ext) (trial : Addr → ℕ) :
    (h.partition trial).1.trial = trial ∧ Fits h (h.partition trial).1 ∧
      ∀ a, a ∈ (h.partition trial).2 ↔ a ∈ h.cyclic ∧ trial a ≠ 0 := by
  unfold Heap.partition
  rw [foldl_sort, List.append_nil, List.append_nil, List.append_nil]
  refine ⟨rfl, ⟨fun a => ?_, fun a => ?_, ?_, ?_⟩, fun a => ?_⟩
  · rw [List.mem_reverse, List.mem_filter, decide_eq_true_iff]
  · rw [List.mem_reverse, List.mem_filter, decide_eq_true_iff]
  · exact List.nodup_reverse.mpr (hs.counted.nodup.filter _)
  · exact List.nodup_reverse.mpr (hs.counted.nodup.filter _)
  · rw [List.mem_reverse, List.mem_filter, decide_eq_true_iff]

theorem marked_iff {m : Marks} : marker.marked m a = true ↔ m.trial a ≠ 0 :=
  bne_iff_ne

/-- What is looked at is in the ring. -/
theorem Sound.eligible (hs : h.Sound ext) (rescue : Bool) :
    ∀ a, ∀ c ∈ h.children a, h.eligible rescue c = true → c ∈ h.cyclic := by
  intro a c hc helig
  refine hs.mem_cyclic hc ?_
  unfold Heap.eligible at helig
  exact (Bool.and_eq_true_iff.mp helig).1

theorem left_le (m : Marks) : Marking.left marker h.cyclic m ≤ h.cyclic.length :=
  List.countP_le_length

/-- Pass 4 finds what is alive. -/
theorem Sound.propagate (hs : h.Sound ext) {m : Marks} {alive : List Addr} (hm : Fits h m)
    (hroot : ∀ a, m.trial a ≠ 0 ↔ h.Root a)
    (halive : ∀ a, a ∈ alive ↔ a ∈ h.cyclic ∧ m.trial a ≠ 0) :
    ∃ m', h.propagate false m alive = .ok m' ∧ Fits h m' ∧ ∀ a, m'.trial a ≠ 0 ↔ h.Alive a := by
  obtain ⟨m', hrun, hm', hmarks⟩ := Marking.run_marks (ε := Empty) (K := marker) (s := m)
    (Fits h) alive (h.cyclic.length + alive.length) (hs.eligible false)
    (fun m c hm _ _ _ => hm.mark c)
    (fun a ha => by
      rw [marked_iff] at ha
      exact .inl ((halive a).mpr ⟨((hroot a).mp ha).1, ha⟩))
    hm (Nat.add_le_add_right (left_le m) _)
  have hstep : Marking.Step h.children (h.eligible false) = h.Edge := by
    funext b c
    exact propext (and_congr_right fun _ => eligible_false)
  refine ⟨m', hrun, hm', fun a => ?_⟩
  rw [← marked_iff, hmarks, marked_iff, hroot, hstep]
  constructor
  · rintro (ha | ⟨q, hq, hpath⟩)
    · exact ⟨a, ha, .refl⟩
    · exact ⟨q, (hroot q).mp ((halive q).mp hq).2, hpath.to_reflTransGen⟩
  · rintro ⟨r, hr, hpath⟩
    obtain rfl | hpath := reflTransGen_iff_eq_or_transGen.mp hpath
    · exact .inl hr
    · exact .inr ⟨r, (halive r).mpr ⟨hr.1, (hroot r).mpr hr⟩, hpath⟩

/-- What an object that is alive reports is alive. -/
theorem Alive.edge (ha : h.Alive a) (hab : h.Edge a b) : h.Alive b := by
  obtain ⟨r, hr, hpath⟩ := ha
  exact ⟨r, hr, hpath.tail hab⟩

theorem Alive.path (ha : h.Alive a) (hab : TransGen h.Edge a b) : h.Alive b := by
  induction hab with
  | single hstep => exact ha.edge hstep
  | tail _ hstep ih => exact ih.edge hstep

/-- The rescue finds what strands lead to that are not alive. -/
theorem Sound.rescue (hs : h.Sound ext) {m : Marks} (hm : Fits h m)
    (halive : ∀ a, m.trial a ≠ 0 ↔ h.Alive a) :
    ∃ m', h.rescue m = .ok m' ∧ Fits h m' ∧
      ∀ a, m'.trial a ≠ 0 ↔ h.Alive a ∨ h.Rescued a := by
  have hall : ∀ c ∈ m.strands.flatMap h.children, h.eligible true c = true → c ∈ h.cyclic := by
    intro c hc helig
    obtain ⟨s, -, hcs⟩ := List.mem_flatMap.mp hc
    exact hs.eligible true s c hcs helig
  have hstep : Marking.Step h.children (h.eligible true) =
      fun b c => h.Edge b c ∧ (h.objs c).vtbl.isStrand = false := by
    funext b c
    refine propext ?_
    unfold Marking.Step Edge
    rw [eligible_true, and_assoc]
    exact Iff.rfl
  obtain ⟨hmark, hpush, -⟩ := Marking.foldl_spec (K := marker) m [] hall
  have hfits := Marking.foldl_invariant (Fits h) []
    (fun m c hm _ _ _ => hm.mark c) hall hm
  unfold Heap.rescue
  generalize hfold : (m.strands.flatMap h.children).foldl
    (Marking.step marker (h.eligible true)) (m, []) = r at hmark hpush hfits ⊢
  obtain ⟨m₁, alive⟩ := r
  dsimp only at hmark hpush hfits ⊢
  -- Strands that are not alive have reported the objects that are pushed.
  have hstrand : ∀ c, c ∈ m.strands.flatMap h.children ↔
      ∃ s ∈ h.cyclic, (h.objs s).vtbl.isStrand = true ∧ ¬h.Alive s ∧ c ∈ h.children s := by
    intro c
    rw [List.mem_flatMap]
    constructor
    · rintro ⟨s, hs', hc⟩
      obtain ⟨hmem, hzero, hst⟩ := (hm.strands s).mp hs'
      exact ⟨s, hmem, hst, fun hal => (halive s).mpr hal hzero, hc⟩
    · rintro ⟨s, hmem, hst, hdead, hc⟩
      exact ⟨s, (hm.strands s).mpr ⟨hmem, of_not_not fun hne => hdead ((halive s).mp hne), hst⟩, hc⟩
  obtain ⟨m', hrun, hm', hmarks⟩ := Marking.run_marks (ε := Empty) (K := marker) (s := m₁)
    (Fits h) alive (h.cyclic.length + alive.length) (hs.eligible true)
    (fun m c hm _ _ _ => hm.mark c)
    (fun a ha => by
      cases hma : marker.marked m a with
      | true =>
        refine .inr fun c hc helig => (hmark c).mpr (.inl ?_)
        rw [marked_iff, halive] at hma ⊢
        exact hma.edge ⟨hc, (eligible_true.mp helig).1⟩
      | false =>
        refine .inl ((hpush a).mpr (.inr ?_))
        obtain htrue | ⟨hc, helig⟩ := (hmark a).mp ha
        · rw [hma] at htrue
          cases htrue
        · exact ⟨hc, helig, hma⟩)
    hfits (Nat.add_le_add_right (left_le m₁) _)
  refine ⟨m', hrun, hm', fun a => ?_⟩
  rw [← marked_iff, hmarks, hmark, marked_iff, halive, hstep]
  have hone : ∀ c, c ∈ m.strands.flatMap h.children ∧ h.eligible true c = true → h.Rescued c := by
    rintro c ⟨hc, helig⟩
    obtain ⟨s, hmem, hst, hdead, hcs⟩ := (hstrand c).mp hc
    obtain ⟨hv, hns⟩ := eligible_true.mp helig
    exact ⟨s, hmem, hst, hdead, .single ⟨⟨hcs, hv⟩, hns⟩⟩
  constructor
  · rintro ((ha | ha) | ⟨q, hq, hpath⟩)
    · exact .inl ha
    · exact .inr (hone a ha)
    · obtain hq | ⟨hc, helig, -⟩ := (hpush q).mp hq
      · cases hq
      · obtain ⟨s, hmem, hst, hdead, hsq⟩ := hone q ⟨hc, helig⟩
        exact .inr ⟨s, hmem, hst, hdead, hsq.trans hpath⟩
  · rintro (ha | ⟨s, hmem, hst, hdead, hpath⟩)
    · exact .inl (.inl ha)
    · -- The first object of the path has been pushed, unless it was alive.
      obtain ⟨c, hsc, hpath⟩ := TransGen.head'_iff.mp hpath
      have hc : c ∈ m.strands.flatMap h.children ∧ h.eligible true c = true :=
        ⟨(hstrand c).mpr ⟨s, hmem, hst, hdead, hsc.1.1⟩, eligible_true.mpr ⟨hsc.1.2, hsc.2⟩⟩
      obtain rfl | hpath := reflTransGen_iff_eq_or_transGen.mp hpath
      · exact .inl (.inr hc)
      · cases hmc : marker.marked m c with
        | true =>
          rw [marked_iff, halive] at hmc
          exact .inl (.inl (hmc.path (hpath.lift id fun _ _ hstep => hstep.1)))
        | false => exact .inr ⟨c, (hpush c).mpr (.inr ⟨hc.1, hc.2, hmc⟩), hpath⟩

/-- Trial deletion finds exactly the garbage. No count falls below zero, and no loop runs on. -/
theorem Sound.marks (hs : h.Sound ext) {trial : Addr → ℕ} (hstart : h.startTrial = some trial) :
    ∃ trial' m₁ m, h.subtractAll trial = .ok trial' ∧
      h.propagate false (h.partition trial').1 (h.partition trial').2 = .ok m₁ ∧
      h.rescue m₁ = .ok m ∧ (m.trash ++ m.strands).Nodup ∧
      ∀ a, a ∈ m.trash ++ m.strands ↔ h.Garbage a := by
  obtain ⟨trial', hsub, hroot⟩ := hs.trial hstart
  obtain ⟨htrial, hfits, halive⟩ := hs.partition trial'
  obtain ⟨m₁, hprop, hfits₁, hmarks₁⟩ := hs.propagate hfits (by rwa [htrial]) (by rwa [htrial])
  obtain ⟨m, hresc, hfits', hmarks⟩ := hs.rescue hfits₁ hmarks₁
  refine ⟨trial', m₁, m, hsub, hprop, hresc, ?_, fun a => ?_⟩
  · refine List.nodup_append.mpr ⟨hfits'.nodupTrash, hfits'.nodupStrands, ?_⟩
    rintro a ha b hb rfl
    have hns := ((hfits'.trash a).mp ha).2.2
    rw [((hfits'.strands a).mp hb).2.2] at hns
    cases hns
  · rw [List.mem_append, hfits'.trash, hfits'.strands]
    have hzero : m.trial a = 0 ↔ ¬h.Alive a ∧ ¬h.Rescued a := by
      rw [← not_or, ← hmarks, not_not]
    unfold Garbage
    rw [hzero]
    cases (h.objs a).vtbl.isStrand <;> simp

end Heap

end Dolang.Gc
