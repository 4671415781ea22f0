import Dolang.Gc.Related

/-!
# Collections are invisible

Every step of a program is answered by a heap as by the graph in which nothing is released, and
leads to a heap and a graph that are related (`Rel.serve`). So it is for runs, with any number of
collections in between (`collection_invisible`).
-/

namespace Dolang.Gc

open Dolang.Rust Relation Heap

variable {m : Machine} {g : Graph} {n : ℕ} {a b x : Addr}

/-- A step is answered alike and keeps the relation. -/
def Follows (n : ℕ) (m : Machine) (g : Graph) (op : Op) : Prop :=
  (m.serve op).2 = (g.serve op).2 ∧ Rel (n + 1) (m.serve op).1 (g.serve op).1

/-! ### What objects own -/

theorem owned_append {o : Obj} {hold : Hold} (hne : hold ≠ .stack) :
    Obj.owned { o with refs := o.refs ++ [(a, hold)] } = o.owned ++ [a] := by
  unfold Obj.owned
  dsimp only
  rw [List.filter_append, List.map_append, List.filter_cons_of_pos (by simpa using hne)]
  rfl

theorem stack_append {o : Obj} {hold : Hold} (hne : hold ≠ .stack) :
    Obj.stack { o with refs := o.refs ++ [(a, hold)] } = o.stack := by
  unfold Obj.stack
  dsimp only
  rw [List.filter_append, List.map_append, List.filter_cons_of_neg (by simpa using hne)]
  exact List.append_nil _

theorem owned_append_stack {o : Obj} :
    Obj.owned { o with refs := o.refs ++ [(a, .stack)] } = o.owned := by
  unfold Obj.owned
  dsimp only
  rw [List.filter_append, List.map_append, List.filter_cons_of_neg (by simp)]
  exact List.append_nil _

theorem stack_append_stack {o : Obj} :
    Obj.stack { o with refs := o.refs ++ [(a, .stack)] } = o.stack ++ [a] := by
  unfold Obj.stack
  dsimp only
  rw [List.filter_append, List.map_append, List.filter_cons_of_pos (by simp)]
  rfl

theorem owned_erase_stack {o : Obj} :
    Obj.owned { o with refs := o.refs.erase (a, .stack) } = o.owned := by
  unfold Obj.owned
  dsimp only
  induction o.refs with
  | nil => rfl
  | cons r refs ih =>
    rw [List.erase_cons]
    split_ifs with hr
    · rw [List.filter_cons_of_neg]
      rw [eq_of_beq hr]
      simp
    · rw [List.filter_cons, List.filter_cons]
      split_ifs
      · rw [List.map_cons, List.map_cons, ih]
      · exact ih

theorem stack_erase_stack {o : Obj} :
    Obj.stack { o with refs := o.refs.erase (a, .stack) } = o.stack.erase a := by
  unfold Obj.stack
  dsimp only
  induction o.refs with
  | nil => rfl
  | cons r refs ih =>
    obtain ⟨x, hold⟩ := r
    rw [List.erase_cons]
    split_ifs with hr
    · obtain ⟨rfl, rfl⟩ := Prod.mk.inj (eq_of_beq hr)
      rw [List.filter_cons_of_pos (by simp), List.map_cons, List.erase_cons_head]
    · by_cases hs : hold = .stack
      · subst hs
        have hne : x ≠ a := fun hx => hr (by rw [hx, beq_self_eq_true])
        rw [List.filter_cons_of_pos (by simp), List.filter_cons_of_pos (by simp), List.map_cons,
          List.map_cons, List.erase_cons_tail (by simpa using hne), ih]
      · rw [List.filter_cons_of_neg (by simpa using hs),
          List.filter_cons_of_neg (by simpa using hs)]
        exact ih

theorem owned_takeRef (o : Obj) : (o.takeRef b).owned = o.owned.erase b := by
  unfold Obj.owned Obj.takeRef
  dsimp only
  induction o.refs with
  | nil => rfl
  | cons r refs ih =>
    obtain ⟨x, hold⟩ := r
    by_cases hs : hold = .stack
    · subst hs
      rw [List.eraseP_cons_of_neg (by simp), List.filter_cons_of_neg (by simp),
        List.filter_cons_of_neg (by simp)]
      exact ih
    · by_cases hx : x = b
      · subst hx
        rw [List.eraseP_cons_of_pos (by simpa using hs),
          List.filter_cons_of_pos (by simpa using hs), List.map_cons, List.erase_cons_head]
      · rw [List.eraseP_cons_of_neg (by simp [hx]), List.filter_cons_of_pos (by simpa using hs),
          List.filter_cons_of_pos (by simpa using hs), List.map_cons, List.map_cons,
          List.erase_cons_tail (by simpa using hx), ih]

theorem stack_takeRef (o : Obj) : (o.takeRef b).stack = o.stack := by
  unfold Obj.stack Obj.takeRef
  dsimp only
  induction o.refs with
  | nil => rfl
  | cons r refs ih =>
    rw [List.eraseP_cons]
    cases hr : decide (r.1 = b ∧ r.2 ≠ .stack) with
    | true =>
      have hs := (of_decide_eq_true hr).2
      rw [cond_true, List.filter_cons_of_neg (by simpa using hs)]
    | false =>
      rw [cond_false, List.filter_cons, List.filter_cons]
      split_ifs
      · rw [List.map_cons, List.map_cons, ih]
      · exact ih

/-! ### Steps -/

theorem count_erase_add {α : Type} [BEq α] [LawfulBEq α] {l : List α} {b : α} (hb : b ∈ l) (x : α) :
    (l.erase b).count x + [b].count x = l.count x := by
  rw [List.count_singleton]
  split_ifs with hx
  · rw [← eq_of_beq hx, List.count_erase_self]
    have hpos := List.count_pos_iff.mpr hb
    omega
  · rw [List.count_erase_of_ne (fun hxb => hx (beq_of_eq hxb.symm))]
    rfl

theorem Machine.held_of_root (hx : x ∈ m.handles ∨ x ∈ m.frames.map Prod.snd) :
    Held m.ext m.heap x := by
  refine Machine.held ?_
  unfold Machine.holds
  rw [Bool.or_eq_true, decide_eq_true_iff, decide_eq_true_iff]
  exact hx

theorem Rel.follows {op : Op} {m' : Machine} {g' : Graph} (h : Rel (n + 1) m' g') (answer : Answer)
    (hm : m.request op = .ok (m', answer)) (hg : g.serve op = (g', answer)) : Follows n m g op := by
  unfold Follows Machine.serve
  rw [hm, hg]
  exact ⟨rfl, h⟩

/-- Another reference to an object that the program gets at. -/
theorem Rel.retain (h : Rel n m g) (hn : n < usizeMax) (ha : Held m.ext m.heap a) :
    ∃ heap, m.heap.retain a = .ok heap ∧
      Rel (n + 1) { m with heap, handles := a :: m.handles }
        { g with handles := a :: g.handles } := by
  have hlive := ha.live h.ok.counted
  have hbound := h.ok.bound a
  have hsucc : saturatingAdd (m.heap.objs a).strong 1 = (m.heap.objs a).strong + 1 := by
    unfold saturatingAdd
    omega
  refine ⟨m.heap.set a { m.heap.objs a with strong := (m.heap.objs a).strong + 1 }, ?_, ?_⟩
  · unfold Heap.retain
    rw [if_neg (Nat.ne_of_gt hlive), hsucc]
  · rw [h.handles]
    refine h.frames ▸ h.set_same { m.heap.objs a with strong := (m.heap.objs a).strong + 1 }
      (a :: m.handles) m.frames hlive rfl rfl (Nat.succ_pos _) (Nat.succ_le_succ hbound)
      (fun x => ?_) h.ok.framed fun x hx => ?_
    · unfold Machine.ext
      rw [List.count_cons]
      split_ifs with hx hx' hx'
      · subst hx
        dsimp only
        omega
      · exact absurd (beq_of_eq hx.symm) hx'
      · exact absurd (eq_of_beq hx').symm hx
      · omega
    · obtain hx | hx := hx
      · obtain rfl | hx := List.mem_cons.mp hx
        · exact ha
        · exact Machine.held_of_root (.inl hx)
      · exact Machine.held_of_root (.inr hx)

theorem Rel.clone (h : Rel n m g) (hn : n < usizeMax) (a : Addr) : Follows n m g (.clone a) := by
  cases ha : m.holds a with
  | false =>
    refine h.mono.follows .refused ?_ ?_
    · simp only [Machine.request, ha, Bool.false_eq_true, if_false]
    · simp only [Graph.serve, h.holds, ha, Bool.false_eq_true, if_false]
  | true =>
    obtain ⟨heap, hrun, hrel⟩ := h.retain hn (Machine.held ha)
    refine hrel.follows .done ?_ ?_
    · simp only [Machine.request, ha, if_true, hrun, ok_bind]
      rfl
    · simp only [Graph.serve, h.holds, ha, if_true]

theorem Rel.load (h : Rel n m g) (hn : n < usizeMax) (a : Addr) (i : ℕ) :
    Follows n m g (.load a i) := by
  cases ha : m.holds a with
  | false =>
    refine h.mono.follows .refused ?_ ?_
    · simp only [Machine.request, ha, Bool.false_eq_true, if_false]
    · simp only [Graph.serve, h.holds, ha, Bool.false_eq_true, if_false]
  | true =>
    have howned := h.owned a (Machine.held ha)
    cases hi : (m.heap.objs a).owned[i]? with
    | none =>
      refine h.mono.follows (.object none) ?_ ?_
      · simp only [Machine.request, ha, if_true, hi]
      · simp only [Graph.serve, h.holds, ha, if_true, ← howned, hi]
    | some b =>
      have hb : Held m.ext m.heap b := (Machine.held ha).owned (List.mem_of_getElem? hi)
      obtain ⟨heap, hrun, hrel⟩ := h.retain hn hb
      refine hrel.follows (.object (some b)) ?_ ?_
      · simp only [Machine.request, ha, if_true, hi, hrun, ok_bind]
        rfl
      · simp only [Graph.serve, h.holds, ha, if_true, ← howned, hi]

theorem Rel.drop (h : Rel n m g) (hn : n < usizeMax) (a : Addr) : Follows n m g (.drop a) := by
  by_cases ha : a ∈ m.handles
  · -- The count that goes is that of the handle.
    have hext : ∀ x, m.ext x =
        Machine.ext { m with handles := m.handles.erase a } x + [a].count x := by
      intro x
      have hx := count_erase_add ha x
      unfold Machine.ext
      dsimp only
      omega
    have hc : m.heap.Counted (Machine.ext { m with handles := m.handles.erase a }) [a] := by
      have hc := h.ok.counted
      refine ⟨fun x => ?_, hc.dead, hc.fresh, hc.ring, hc.nodup, hc.trash, hc.distinct⟩
      have hstrong := hc.strong x
      have hx := hext x
      rw [List.count_nil] at hstrong
      omega
    obtain ⟨heap, hrun, hc', hd⟩ := hc.drain fun x => Nat.lt_of_le_of_lt (h.ok.bound x) hn
    have hswept : Swept [] m.heap heap :=
      ⟨hd.top, hd.vtbl, hd.borrow, hd.strong,
        fun x hx => (hd.refs x hx).trans (if_neg List.not_mem_nil).symm, hd.ring⟩
    have hrel : Rel n { m with heap, handles := m.handles.erase a }
        { g with handles := m.handles.erase a } := by
      refine h.swept hswept hc' ?_ (fun x => ?_) rfl (fun x _ hx => ?_) rfl
      · rw [hd.trash, h.ok.idle]
        rfl
      · exact (hext x).symm ▸ Nat.le_add_right _ _
      · unfold Obj.owned
        rw [hd.refs x hx]
    refine hrel.mono.follows .done ?_ ?_
    · simp only [Machine.request, if_pos ha, hrun, ok_bind]
      rfl
    · simp only [Graph.serve, h.handles, if_pos ha]
  · refine h.mono.follows .refused ?_ ?_
    · simp only [Machine.request, if_neg ha]
    · simp only [Graph.serve, h.handles, if_neg ha]

theorem Rel.collect (h : Rel n m g) (hn : n + 1 < usizeMax) : Follows n m g .collect := by
  have hmax : ∀ x, (m.heap.objs x).strong + 1 < usizeMax := by
    intro x
    have hx := h.ok.bound x
    omega
  obtain ⟨-, hrun⟩ | ⟨-, heap, log, hrun, hc⟩ := h.ok.sound.collected hmax
  · refine h.mono.follows .done ?_ rfl
    simp only [Machine.request, hrun, ok_bind]
    rfl
  · have hrel : Rel n { m with heap } g := by
      refine h.swept hc.swept hc.sound.counted hc.sound.idle (fun _ => Nat.le_refl _) rfl
        (fun x hx _ => (hc.held x hx).2) ?_
      rw [← h.handles]
    refine hrel.mono.follows .done ?_ rfl
    simp only [Machine.request, hrun, ok_bind]
    rfl

theorem Rel.setBorrow (h : Rel n m g) (a : Addr) (borrow : ℕ) :
    Follows n m g (.setBorrow a borrow) := by
  cases ha : m.holds a with
  | false =>
    refine h.mono.follows .refused ?_ ?_
    · simp only [Machine.request, ha, Bool.false_eq_true, if_false]
    · simp only [Graph.serve, h.holds, ha, Bool.false_eq_true, if_false]
  | true =>
    have hlive := (Machine.held ha).live h.ok.counted
    have hrel := h.set_same { m.heap.objs a with borrow } m.handles m.frames hlive rfl rfl hlive
      (Nat.le_succ_of_le (h.ok.bound a)) (fun x => ?_) h.ok.framed fun x hx =>
        Machine.held_of_root hx
    · rw [← h.handles, ← h.frames] at hrel
      refine hrel.follows .done ?_ ?_
      · simp only [Machine.request, ha, if_true, h.handles, h.frames]
      · simp only [Graph.serve, h.holds, ha, if_true]
    · unfold Machine.ext
      dsimp only
      split_ifs with hx
      · rw [hx]
      · rfl

/-- An object that takes a reference in or gives one out. -/
theorem Rel.set_owned (h : Rel n m g) (o : Obj) (handles : List Addr) (ha : m.holds a = true)
    (hv : o.vtbl = (m.heap.objs a).vtbl) (ho : o.strong = (m.heap.objs a).strong) (hfit : o.Fit)
    (hstack : o.stack = (m.heap.objs a).stack)
    (hcount : ∀ x, (m.heap.objs a).owned.count x + m.handles.count x =
      o.owned.count x + handles.count x)
    (hroot : ∀ x ∈ handles, Held m.ext m.heap x) (hpath : ∀ x ∈ o.owned, Held m.ext m.heap x) :
    Rel (n + 1) { m with heap := m.heap.set a o, handles }
      { g with owned := Function.update g.owned a o.owned, handles } := by
  have hlive := (Machine.held ha).live h.ok.counted
  have hrel := h.set o handles m.frames (Function.update g.owned a o.owned) hlive hv (ho ▸ hlive)
    (ho ▸ Nat.le_succ_of_le (h.ok.bound a)) hfit (fun x => ?_) (fun s x => ?_) ?_
    (fun c hc _ => hpath c hc) fun x hx => ?_
  · rw [← h.frames] at hrel ⊢
    exact hrel
  · have hx := hcount x
    unfold Machine.ext
    split_ifs with hxa
    · rw [ho, ← hxa]
      rw [← hxa] at hx
      omega
    · omega
  · split_ifs with hs
    · rw [hstack, ← hs]
      exact h.ok.framed s x
    · exact h.ok.framed s x
  · rintro x (hx | hx)
    · exact hroot x hx
    · exact Machine.held_of_root (.inr hx)
  · rw [Function.update_apply]
    split_ifs with hxa
    · rfl
    · exact h.owned x hx

theorem Rel.take (h : Rel n m g) (a b : Addr) : Follows n m g (.take a b) := by
  cases ha : m.holds a with
  | false =>
    refine h.mono.follows .refused ?_ ?_
    · simp only [Machine.request, ha, Bool.false_eq_true, if_false]
    · simp only [Graph.serve, h.holds, ha, Bool.false_eq_true, if_false]
  | true =>
    have howned := h.owned a (Machine.held ha)
    by_cases hb : b ∈ (m.heap.objs a).owned
    · have hheld := Machine.held ha
      have hfit := h.ok.fit a
      have hrel := h.set_owned ((m.heap.objs a).takeRef b) (b :: m.handles) ha rfl rfl ?_
        (stack_takeRef _) (fun x => ?_) ?_ fun x hx => ?_
      · refine hrel.follows (.object (some b)) ?_ ?_
        · simp only [Machine.request, ha, if_true, if_pos hb]
        · rw [owned_takeRef, howned, ← h.handles]
          simp only [Graph.serve, h.holds, ha, if_true, if_pos (howned ▸ hb)]
      · refine ⟨fun hst => ⟨(hfit.strand hst).1, ?_⟩, fun hst => ?_⟩
        · have hfields := (hfit.strand hst).2
          unfold Obj.fields Obj.takeRef at *
          rw [List.map_eq_nil_iff, List.filter_eq_nil_iff] at hfields ⊢
          exact fun r hr => hfields r (List.mem_of_mem_eraseP hr)
        · rw [stack_takeRef]
          exact hfit.calm hst
      · have hx := count_erase_add hb x
        rw [owned_takeRef, List.count_cons]
        rw [List.count_singleton] at hx
        omega
      · rintro x hx
        obtain rfl | hx := List.mem_cons.mp hx
        · exact hheld.owned hb
        · exact Machine.held_of_root (.inl hx)
      · rw [owned_takeRef] at hx
        exact hheld.owned (List.mem_of_mem_erase hx)
    · refine h.mono.follows (.object none) ?_ ?_
      · simp only [Machine.request, ha, if_true, if_neg hb]
      · rw [howned] at hb
        simp only [Graph.serve, h.holds, ha, if_true, if_neg hb]

theorem Rel.store (h : Rel n m g) (a b : Addr) (kept : Bool) : Follows n m g (.store a b kept) := by
  cases hgood : m.holds a && decide (b ∈ m.handles) && (kept || !(m.heap.objs a).vtbl.isStrand) with
  | false =>
    refine h.mono.follows .refused ?_ ?_
    · simp only [Machine.request, hgood, Bool.false_eq_true, if_false]
    · simp only [Graph.serve, h.holds, h.handles, h.vtbl, hgood, Bool.false_eq_true, if_false]
  | true =>
    have hall := hgood
    rw [Bool.and_eq_true, Bool.and_eq_true, decide_eq_true_iff] at hall
    obtain ⟨⟨ha, hb⟩, hkind⟩ := hall
    have hheld := Machine.held ha
    have hfit := h.ok.fit a
    have hne : (if kept then Hold.kept else .field) ≠ .stack := by
      cases kept <;> decide
    have hrel := h.set_owned
      { m.heap.objs a with refs := (m.heap.objs a).refs ++ [(b, if kept then .kept else .field)] }
      (m.handles.erase b) ha rfl rfl ?_ (stack_append hne) (fun x => ?_)
      (fun x hx => Machine.held_of_root (.inl (List.mem_of_mem_erase hx))) fun x hx => ?_
    · refine hrel.follows .done ?_ ?_
      · simp only [Machine.request, hgood, if_true]
      · rw [owned_append hne, h.owned a hheld, ← h.handles]
        simp only [Graph.serve, h.holds, h.vtbl, h.handles, hgood, if_true]
    · refine ⟨fun hst => ⟨(hfit.strand hst).1, ?_⟩, fun hst => ?_⟩
      · -- What a strand takes in is kept.
        have hkept : kept = true := by
          dsimp only at hst
          rwa [hst, Bool.not_true, Bool.or_false] at hkind
        have hfields := (hfit.strand hst).2
        unfold Obj.fields at hfields ⊢
        dsimp only
        rw [List.filter_append, List.map_append, hfields, hkept]
        rfl
      · rw [stack_append hne]
        exact hfit.calm hst
    · have hx := count_erase_add hb x
      rw [owned_append hne, List.count_append]
      omega
    · rw [owned_append hne] at hx
      obtain hx | hx := List.mem_append.mp hx
      · exact hheld.owned hx
      · rw [List.mem_singleton.mp hx]
        exact Machine.held_of_root (.inl hb)

/-- References that go to a stack or come from one. -/
theorem Rel.set_stack (h : Rel n m g) (o : Obj) (handles : List Addr) (frames : List (Addr × Addr))
    (hb : m.heap.Live b) (hv : o.vtbl = (m.heap.objs b).vtbl)
    (ho : o.strong = (m.heap.objs b).strong) (hfit : o.Fit)
    (howned : o.owned = (m.heap.objs b).owned)
    (hcount : ∀ x, m.ext x = handles.count x + (frames.map Prod.snd).count x)
    (hframed : ∀ s x, (if s = b then o else m.heap.objs s).stack.count x ≤ frames.count (s, x)) :
    Rel (n + 1) ⟨m.heap.set b o, handles, frames⟩ { g with handles, frames } := by
  refine h.set o handles frames g.owned hb hv (ho ▸ hb) (ho ▸ Nat.le_succ_of_le (h.ok.bound b)) hfit
    (fun x => ?_) hframed (fun x hx => ?_) (fun c hc hheld => hheld.owned (howned ▸ hc))
    fun x hx => ?_
  · have hx := hcount x
    rw [howned]
    split_ifs with hxb
    · rw [ho, hxb]
      rw [hxb] at hx
      omega
    · omega
  · refine held_of_ext ?_
    rw [hcount]
    obtain hx | hx := hx
    · exact Nat.add_pos_left (List.count_pos_iff.mpr hx) _
    · exact Nat.add_pos_right _ (List.count_pos_iff.mpr hx)
  · rw [← h.owned x hx]
    split_ifs with hxb
    · rw [howned, hxb]
    · rfl

theorem set_self (h : Heap) (a : Addr) : h.set a (h.objs a) = h := by
  unfold Heap.set
  rw [Function.update_eq_self]

theorem Rel.push (h : Rel n m g) (s a : Addr) (reported : Bool) :
    Follows n m g (.push s a reported) := by
  by_cases ha : a ∈ m.handles
  · have hcount : ∀ x, m.ext x = (m.handles.erase a).count x +
        (((s, a) :: m.frames).map Prod.snd).count x := by
      intro x
      have hx := count_erase_add ha x
      unfold Machine.ext
      rw [List.map_cons, List.count_cons]
      rw [List.count_singleton] at hx
      dsimp only
      omega
    have hframed : ∀ t x, (m.heap.objs t).stack.count x ≤ ((s, a) :: m.frames).count (t, x) := by
      intro t x
      rw [List.count_cons]
      exact Nat.le_add_right_of_le (h.ok.framed t x)
    cases hrep : reported && (m.heap.objs s).vtbl.isStrand && decide (m.heap.Live s) with
    | false =>
      have hlive := (Machine.held (Machine.holds_of_mem ha)).live h.ok.counted
      have hrel := h.set_stack (m.heap.objs a) (m.handles.erase a) ((s, a) :: m.frames) hlive rfl
        rfl (h.ok.fit a) rfl hcount fun t x => by
          split_ifs with ht
          · have hold := hframed t x
            rw [ht] at hold ⊢
            exact hold
          · exact hframed t x
      rw [set_self] at hrel
      refine hrel.follows .done ?_ ?_
      · simp only [Machine.request, if_pos ha, hrep, Bool.false_eq_true, if_false]
      · simp only [Graph.serve, h.handles, h.frames, if_pos ha]
    | true =>
      have hall := hrep
      rw [Bool.and_eq_true, Bool.and_eq_true, decide_eq_true_iff] at hall
      obtain ⟨⟨-, hst⟩, hlive⟩ := hall
      have hfit := h.ok.fit s
      have hrel := h.set_stack
        { m.heap.objs s with refs := (m.heap.objs s).refs ++ [(a, .stack)] } (m.handles.erase a)
        ((s, a) :: m.frames) hlive rfl rfl ?_ owned_append_stack hcount fun t x => ?_
      · refine hrel.follows .done ?_ ?_
        · simp only [Machine.request, if_pos ha, hrep, if_true]
        · simp only [Graph.serve, h.handles, h.frames, if_pos ha]
      · refine ⟨fun _ => ⟨(hfit.strand hst).1, ?_⟩, fun hns => ?_⟩
        · have hfields := (hfit.strand hst).2
          unfold Obj.fields at hfields ⊢
          dsimp only
          rw [List.filter_append, List.map_append, hfields]
          rfl
        · dsimp only at hns
          rw [hst] at hns
          cases hns
      · split_ifs with ht
        · have hold := h.ok.framed s x
          subst ht
          rw [stack_append_stack, List.count_append, List.count_singleton, List.count_cons]
          refine Nat.add_le_add hold ?_
          split_ifs with hx hx'
          · exact Nat.le_refl _
          · exact absurd (beq_of_eq (by rw [eq_of_beq hx])) hx'
          · exact Nat.zero_le _
          · exact Nat.le_refl _
        · exact hframed t x
  · refine h.mono.follows .refused ?_ ?_
    · simp only [Machine.request, if_neg ha]
    · simp only [Graph.serve, h.handles, if_neg ha]

theorem Rel.pop (h : Rel n m g) (s a : Addr) : Follows n m g (.pop s a) := by
  by_cases ha : (s, a) ∈ m.frames
  · have hcount : ∀ x, m.ext x = (a :: m.handles).count x +
        ((m.frames.erase (s, a)).map Prod.snd).count x := by
      intro x
      have hperm := (List.perm_cons_erase ha).map Prod.snd
      have hx := hperm.count_eq x
      unfold Machine.ext
      rw [hx, List.map_cons, List.count_cons, List.count_cons]
      dsimp only
      omega
    have hframed : ∀ t x,
        (if t = s then (m.heap.objs s).stack.erase a else (m.heap.objs t).stack).count x ≤
          (m.frames.erase (s, a)).count (t, x) := by
      intro t x
      have hold := h.ok.framed t x
      split_ifs with ht
      · subst ht
        by_cases hx : x = a
        · rw [hx, List.count_erase_self, List.count_erase_self]
          exact Nat.sub_le_sub_right (hx ▸ hold) 1
        · rw [List.count_erase_of_ne hx, List.count_erase_of_ne fun heq => hx (Prod.mk.inj heq).2]
          exact hold
      · rw [List.count_erase_of_ne fun heq => ht (Prod.mk.inj heq).1]
        exact hold
    have hrel : Rel (n + 1)
        ⟨m.heap.set s { m.heap.objs s with refs := (m.heap.objs s).refs.erase (a, .stack) },
          a :: m.handles, m.frames.erase (s, a)⟩
        { g with handles := a :: m.handles, frames := m.frames.erase (s, a) } := by
      by_cases hlive : m.heap.Live s
      · have hfit := h.ok.fit s
        refine h.set_stack _ _ _ hlive rfl rfl ?_ owned_erase_stack hcount fun t x => ?_
        · refine ⟨fun hst => ⟨(hfit.strand hst).1, ?_⟩, fun hst => ?_⟩
          · have hfields := (hfit.strand hst).2
            unfold Obj.fields at hfields ⊢
            dsimp only
            rw [List.map_eq_nil_iff, List.filter_eq_nil_iff] at hfields ⊢
            exact fun r hr => hfields r (List.mem_of_mem_erase hr)
          · rw [stack_erase_stack, hfit.calm hst]
            rfl
        · refine Nat.le_trans (Nat.le_of_eq ?_) (hframed t x)
          split_ifs
          · rw [stack_erase_stack]
          · rfl
      · -- A strand that has been released reports nothing.
        have hnil := h.ok.counted.dead s hlive
        have hself : { m.heap.objs s with refs := (m.heap.objs s).refs.erase (a, .stack) } =
            m.heap.objs s := by
          rw [hnil, List.erase_nil, ← hnil]
        have hheld : Held m.ext m.heap a :=
          Machine.held_of_root (.inr (List.mem_map_of_mem ha))
        have hlive' := hheld.live h.ok.counted
        rw [hself, set_self, ← set_self m.heap a]
        refine h.set_stack _ _ _ hlive' rfl rfl (h.ok.fit a) rfl hcount fun t x => ?_
        have hstack : (m.heap.objs s).stack = [] := by
          unfold Obj.stack
          rw [hnil]
          rfl
        refine Nat.le_trans (Nat.le_of_eq ?_) (hframed t x)
        split_ifs with ht ht' ht'
        · rw [← ht, ht', hstack]
          rfl
        · rw [ht]
        · rw [ht', hstack]
          rfl
        · rfl
    refine hrel.follows .done ?_ ?_
    · simp only [Machine.request, if_pos ha]
    · simp only [Graph.serve, h.handles, h.frames, if_pos ha]
  · refine h.mono.follows .refused ?_ ?_
    · simp only [Machine.request, if_neg ha]
    · simp only [Graph.serve, h.frames, if_neg ha]

/-- A new object has one reference and refers to nothing. -/
theorem Rel.new_object (h : Rel n m g) (vtbl : Vtbl)
    (hv : vtbl.isStrand = true → vtbl.cyclic = true) :
    Rel (n + 1) (m.alloc vtbl)
      { g with
        vtbl := Function.update g.vtbl g.top vtbl
        owned := Function.update g.owned g.top []
        top := g.top + 1
        handles := g.top :: g.handles } := by
  have hc := h.ok.counted
  generalize hm' : m.alloc vtbl = m'
  have hobj : ∀ x, m'.heap.objs x = if x = m.heap.top then ⟨vtbl, 1, 0, []⟩ else m.heap.objs x := by
    intro x
    rw [← hm']
    exact Function.update_apply ..
  have htop : m'.heap.top = m.heap.top + 1 := hm' ▸ rfl
  have hcyclic : m'.heap.cyclic =
      if vtbl.cyclic then m.heap.top :: m.heap.cyclic else m.heap.cyclic :=
    hm' ▸ rfl
  have htrash : m'.heap.trash = [] := by
    rw [← hm']
    exact h.ok.idle
  have hframes : m'.frames = m.frames := hm' ▸ rfl
  have hhandles : m'.handles = m.heap.top :: m.handles := hm' ▸ rfl
  have hext : ∀ x, m'.ext x = m.ext x + [m.heap.top].count x := by
    intro x
    unfold Machine.ext
    rw [hhandles, hframes, List.count_cons, List.count_singleton]
    omega
  have hdead : ¬m.heap.Live m.heap.top := hc.fresh _ (Nat.le_refl _)
  have hlive : ∀ x, m'.heap.Live x ↔ m.heap.Live x ∨ x = m.heap.top := by
    intro x
    unfold Live
    rw [hobj]
    split_ifs with hx
    · exact iff_of_true Nat.one_pos (.inr hx)
    · exact ⟨.inl, fun hl => hl.resolve_right hx⟩
  have howned : ∀ x, m'.heap.ownedTo x = m.heap.ownedTo x := by
    intro x
    unfold ownedTo
    rw [htop, Finset.sum_range_succ, hobj m.heap.top, if_pos rfl]
    have hsame : ∀ b ∈ Finset.range m.heap.top,
        (m'.heap.objs b).owned.count x = (m.heap.objs b).owned.count x := by
      intro b hb
      rw [hobj, if_neg (Nat.ne_of_lt (Finset.mem_range.mp hb))]
    exact Finset.sum_congr rfl hsame
  have hheld : ∀ x, Held m'.ext m'.heap x → x = m.heap.top ∨ Held m.ext m.heap x := by
    rintro x ⟨r, hr, hpath⟩
    induction hpath with
    | refl =>
      by_cases hx : r = m.heap.top
      · exact .inl hx
      · rw [hext, List.count_singleton, if_neg fun heq => hx (eq_of_beq heq).symm] at hr
        exact .inr (held_of_ext hr)
    | @tail b c _ hc ih =>
      rw [hobj] at hc
      obtain hb | hb := ih
      · rw [if_pos hb] at hc
        cases hc
      · split_ifs at hc
        · cases hc
        · exact .inr (hb.owned hc)
  refine ⟨⟨⟨fun x => ?_, fun x hx => ?_, fun x hx => ?_, fun x => ?_, ?_, ?_, ?_⟩, fun s x => ?_,
    fun x => ?_, htrash, fun x => ?_⟩, ?_, ?_, ?_, fun x => ?_, fun x hx => ?_⟩
  · have hstrong := hc.strong x
    rw [List.count_nil] at hstrong
    rw [hobj, howned, hext, List.count_nil, List.count_singleton]
    split_ifs with hx hx' hx'
    · have hzero : (m.heap.objs x).strong = 0 := Nat.eq_zero_of_not_pos (hx ▸ hdead)
      dsimp only
      omega
    · exact absurd (beq_of_eq hx.symm) hx'
    · exact absurd (eq_of_beq hx').symm hx
    · omega
  · rw [hlive, not_or] at hx
    rw [hobj, if_neg hx.2]
    exact hc.dead x hx.1
  · rw [htop] at hx
    rw [hlive, not_or]
    exact ⟨hc.fresh x (Nat.le_of_succ_le hx), Nat.ne_of_gt hx⟩
  · rw [hcyclic, hlive, hobj]
    have hring := hc.ring x
    split_ifs with hvc hx hx
    · exact iff_of_true (hx ▸ List.mem_cons_self) ⟨.inr hx, hvc⟩
    · rw [List.mem_cons, or_iff_right hx, or_iff_left hx, hring]
    · refine iff_of_false (fun hmem => hdead ?_) fun hboth => hvc hboth.2
      exact hx ▸ (hring.mp hmem).1
    · rw [or_iff_left hx, hring]
  · rw [hcyclic]
    split_ifs
    · exact List.nodup_cons.mpr ⟨fun hmem => hdead ((hc.ring _).mp hmem).1, hc.nodup⟩
    · exact hc.nodup
  · rw [htrash]
    exact fun x hx => absurd hx List.not_mem_nil
  · rw [htrash]
    exact .nil
  · rw [hobj, hframes]
    split_ifs
    · exact Nat.zero_le _
    · exact h.ok.framed s x
  · rw [hobj]
    split_ifs
    · exact ⟨fun hst => ⟨hv hst, rfl⟩, fun _ => rfl⟩
    · exact h.ok.fit x
  · rw [hobj]
    split_ifs
    · exact Nat.succ_le_succ (Nat.zero_le n)
    · exact Nat.le_succ_of_le (h.ok.bound x)
  · rw [hhandles, ← h.top, ← h.handles]
  · rw [hframes, ← h.frames]
  · rw [htop, ← h.top]
  · dsimp only
    rw [hobj, h.top, Function.update_apply, h.vtbl]
    split_ifs <;> rfl
  · dsimp only
    rw [hobj, h.top, Function.update_apply]
    split_ifs with hxt
    · rfl
    · exact h.owned x ((hheld x hx).resolve_left hxt)

theorem Rel.alloc (h : Rel n m g) (vtbl : Vtbl) : Follows n m g (.alloc vtbl) := by
  cases hv : vtbl.isStrand && !vtbl.cyclic with
  | true =>
    refine h.mono.follows .refused ?_ ?_
    · simp only [Machine.request, hv, if_true]
    · simp only [Graph.serve, hv, if_true]
  | false =>
    have hrel := h.new_object vtbl fun hst => by
      rw [hst, Bool.true_and, Bool.not_eq_false'] at hv
      exact hv
    refine hrel.follows (.object (some m.heap.top)) ?_ ?_
    · simp only [Machine.request, hv, Bool.false_eq_true, if_false]
    · simp only [Graph.serve, hv, Bool.false_eq_true, if_false, h.top]

/-- Every step is answered alike. -/
theorem Rel.serve (h : Rel n m g) (hn : n + 1 < usizeMax) (op : Op) : Follows n m g op := by
  cases op with
  | alloc vtbl => exact h.alloc vtbl
  | clone a => exact h.clone (Nat.lt_of_succ_lt hn) a
  | drop a => exact h.drop (Nat.lt_of_succ_lt hn) a
  | store a b kept => exact h.store a b kept
  | load a i => exact h.load (Nat.lt_of_succ_lt hn) a i
  | take a b => exact h.take a b
  | push s a reported => exact h.push s a reported
  | pop s a => exact h.pop s a
  | setBorrow a borrow => exact h.setBorrow a borrow
  | collect => exact h.collect hn

/-- Every run is answered alike. -/
theorem Rel.answers (h : Rel n m g) (ops : List Op) (hn : n + ops.length < usizeMax) :
    (Service.answers Machine.serve m ops).1 = (Service.answers Graph.serve g ops).1 ∧
      Rel (n + ops.length) (Service.answers Machine.serve m ops).2
        (Service.answers Graph.serve g ops).2 := by
  induction ops generalizing n m g with
  | nil => exact ⟨rfl, h⟩
  | cons op ops ih =>
    rw [List.length_cons] at hn
    obtain ⟨hanswer, hnext⟩ := h.serve (by omega) op
    obtain ⟨hrest, hlast⟩ := ih hnext (by omega)
    unfold Service.answers
    refine ⟨congrArg₂ List.cons hanswer hrest, ?_⟩
    rw [List.length_cons, Nat.add_comm ops.length, ← Nat.add_assoc]
    exact hlast

theorem Graph.answer_ne (g : Graph) (op : Op) : (g.serve op).2 ≠ .panicked := by
  unfold Graph.serve
  cases op with
  | load a i =>
    dsimp only
    split_ifs
    · cases (g.owned a)[i]? <;> exact fun h => by cases h
    · exact fun h => by cases h
  | collect => exact fun h => by cases h
  | _ =>
    dsimp only
    split_ifs <;> exact fun h => by cases h

theorem Graph.answers_ne (g : Graph) (ops : List Op) :
    Answer.panicked ∉ (Service.answers Graph.serve g ops).1 := by
  induction ops generalizing g with
  | nil => exact List.not_mem_nil
  | cons op ops ih =>
    unfold Service.answers
    exact List.not_mem_cons_of_ne_of_not_mem (g.answer_ne op).symm (ih _)

/-- Over every run that is no longer than counts can be, a program gets the answers that it would
get if nothing were ever released, whenever collections come, and no assertion fails. The counts are
right in the end, and what the program has a reference to, and what such references lead to, has not
been released. -/
theorem collection_invisible (ops : List Op) (hops : ops.length < usizeMax) :
    (Service.answers Machine.serve .new ops).1 = (Service.answers Graph.serve .new ops).1 ∧
      Answer.panicked ∉ (Service.answers Machine.serve .new ops).1 ∧
      Sound (Service.answers Machine.serve .new ops).2.ext
        (Service.answers Machine.serve .new ops).2.heap ∧
      ∀ a, Held (Service.answers Machine.serve .new ops).2.ext
          (Service.answers Machine.serve .new ops).2.heap a →
        (Service.answers Machine.serve .new ops).2.heap.Live a := by
  obtain ⟨hanswers, hrel⟩ := rel_new.answers ops (by omega)
  refine ⟨hanswers, ?_, hrel.ok.sound, fun a ha => ha.live hrel.ok.counted⟩
  rw [hanswers]
  exact Graph.answers_ne .new ops

/-- Two objects refer to each other but are not held. A third one is held. -/
def twoAndOne : List Op :=
  [.alloc ⟨true, false⟩, .alloc ⟨true, false⟩, .clone 0, .clone 1, .store 0 1 false,
    .store 1 0 false, .alloc ⟨true, false⟩, .clone 2, .drop 0, .drop 1, .drop 2]

/-- The two go with a collection. -/
theorem collection_invisible_two :
    Answer.panicked ∉ (Service.answers Machine.serve .new (twoAndOne ++ [.collect])).1 ∧
      (Service.answers Machine.serve .new (twoAndOne ++ [.collect])).2.heap.cyclic = [2] :=
  ⟨(collection_invisible (twoAndOne ++ [.collect]) (by decide)).2.1, by decide +kernel⟩

end Dolang.Gc
