import Mathlib.Algebra.BigOperators.Group.Finset.Piecewise
import Dolang.Gc.Mutator

/-!
# Heaps and graphs

A heap is related to a graph when its counts are right and the two agree on what the program holds
references to and on what these lead to (`Rel`). The relation is kept when one object changes along
with its counts (`Rel.set`) and when references are dropped or garbage is swept (`Rel.swept`).
-/

namespace Dolang.Gc

open Dolang.Rust Relation Heap

variable {h h' : Heap} {ext ext' : Addr → ℕ} {m : Machine} {g : Graph} {n : ℕ} {a b x : Addr}

/-! ### One object -/

/-- An object that changes along with its counts. -/
theorem Heap.Counted.set (hc : h.Counted ext []) (hb : h.Live b) {o : Obj}
    (hv : o.vtbl = (h.objs b).vtbl) (ho : 0 < o.strong)
    (hcount : ∀ x, (if x = b then o.strong else (h.objs x).strong) + (h.objs b).owned.count x =
      h.ownedTo x + o.owned.count x + ext' x) : (h.set b o).Counted ext' [] := by
  have hlive : ∀ x, (h.set b o).Live x ↔ h.Live x := by
    intro x
    unfold Live
    rw [objs_set]
    split_ifs with hx
    · rw [hx]
      exact iff_of_true ho hb
    · exact Iff.rfl
  refine ⟨fun x => ?_, fun x hx => ?_, fun x hx => ?_, fun x => ?_, hc.nodup, hc.trash, hc.distinct⟩
  · have hset := ownedTo_set (hc.lt_top hb) o x
    have hx := hcount x
    rw [objs_set, List.count_nil, Nat.add_zero]
    split_ifs at hx ⊢ <;> omega
  · have hxb : x ≠ b := fun hxb => hx ((hlive x).mpr (by rwa [hxb]))
    rw [objs_set, if_neg hxb]
    exact hc.dead x fun hl => hx ((hlive x).mpr hl)
  · exact fun hl => hc.fresh x hx ((hlive x).mp hl)
  · rw [hlive, objs_set]
    split_ifs with hx
    · rw [hv, ← hx]
      exact hc.ring x
    · exact hc.ring x

/-- An object that a reference leads to is alive. -/
theorem Heap.Held.live (ha : Held ext h a) (hc : h.Counted ext []) : h.Live a := by
  obtain ⟨r, hext, hpath⟩ := ha
  cases hpath with
  | refl =>
    have hstrong := hc.strong a
    unfold Live
    omega
  | tail _ hstep => exact hc.live_of_mem hstep

/-- No more objects are held when all that a reference has come to lead to were held before. -/
theorem Heap.Held.of_step (ha : Held ext' h' a) (hroot : ∀ r, 0 < ext' r → Held ext h r)
    (hstep : ∀ b c, Held ext h b → c ∈ (h'.objs b).owned → Held ext h c) : Held ext h a := by
  obtain ⟨r, hext, hpath⟩ := ha
  induction hpath with
  | refl => exact hroot r hext
  | tail _ hc ih => exact hstep _ _ ih hc

theorem Heap.Held.owned (hb : Held ext h b) (ha : a ∈ (h.objs b).owned) : Held ext h a := by
  obtain ⟨r, hext, hpath⟩ := hb
  exact ⟨r, hext, hpath.tail ha⟩

theorem Heap.held_of_ext (ha : 0 < ext a) : Held ext h a :=
  ⟨a, ha, .refl⟩

/-! ### The relation -/

/-- A heap whose counts are right after some number of steps. -/
structure Machine.Ok (n : ℕ) (m : Machine) : Prop where
  counted : m.heap.Counted m.ext []
  /-- What the handle of a strand reports is on its stack. -/
  framed : ∀ s a, (m.heap.objs s).stack.count a ≤ m.frames.count (s, a)
  fit : ∀ a, (m.heap.objs a).Fit
  idle : m.heap.trash = []
  bound : ∀ a, (m.heap.objs a).strong ≤ n

/-- A heap and a graph agree on what the program holds references to and on what they lead to. -/
structure Rel (n : ℕ) (m : Machine) (g : Graph) : Prop where
  ok : m.Ok n
  handles : g.handles = m.handles
  frames : g.frames = m.frames
  top : g.top = m.heap.top
  vtbl : ∀ a, g.vtbl a = (m.heap.objs a).vtbl
  owned : ∀ a, Held m.ext m.heap a → (m.heap.objs a).owned = g.owned a

/-- Each reference on a stack is on one stack. -/
theorem sum_frames (frames : List (Addr × Addr)) (a : Addr) (n : ℕ) :
    ∑ s ∈ Finset.range n, frames.count (s, a) ≤ (frames.map Prod.snd).count a := by
  induction frames with
  | nil =>
    refine Nat.le_of_eq (Finset.sum_eq_zero fun s _ => ?_)
    exact List.count_nil
  | cons f frames ih =>
    have hone : ∑ s ∈ Finset.range n, (if (f == (s, a)) = true then 1 else 0) ≤
        if (f.2 == a) = true then 1 else 0 := by
      obtain ⟨t, b⟩ := f
      split_ifs with hb
      · have hle : ∀ s ∈ Finset.range n, (if ((t, b) == (s, a)) = true then 1 else 0) ≤
            if s = t then 1 else 0 := by
          intro s _
          split_ifs with h1 h2
          · exact Nat.le_refl _
          · exact absurd (Prod.mk.inj (eq_of_beq h1)).1.symm h2
          · exact Nat.zero_le _
          · exact Nat.le_refl _
        refine Nat.le_trans (Finset.sum_le_sum hle) ?_
        rw [Finset.sum_ite_eq']
        split_ifs <;> decide
      · refine Nat.le_of_eq (Finset.sum_eq_zero fun s _ => if_neg fun heq => hb ?_)
        exact beq_of_eq (Prod.mk.inj (eq_of_beq heq)).2
    simp only [List.count_cons, List.map_cons, Finset.sum_add_distrib]
    omega

theorem Machine.Ok.sound (hm : m.Ok n) : m.heap.Sound m.ext where
  counted := hm.counted
  stacked a := by
    have hle : m.heap.stackTo a ≤ ∑ s ∈ Finset.range m.heap.top, m.frames.count (s, a) :=
      Finset.sum_le_sum fun s _ => hm.framed s a
    exact Nat.le_trans (Nat.le_trans hle (sum_frames _ _ _)) (Nat.le_add_left _ _)
  fit := hm.fit
  idle := hm.idle

theorem Machine.Ok.mono (hm : m.Ok n) : m.Ok (n + 1) :=
  ⟨hm.counted, hm.framed, hm.fit, hm.idle, fun a => Nat.le_succ_of_le (hm.bound a)⟩

theorem Rel.mono (h : Rel n m g) : Rel (n + 1) m g :=
  ⟨h.ok.mono, h.handles, h.frames, h.top, h.vtbl, h.owned⟩

theorem rel_new : Rel 0 .new .new where
  ok :=
    { counted := ⟨fun _ => rfl, fun _ _ => rfl, fun _ _ => Nat.lt_irrefl 0,
        fun _ => iff_of_false List.not_mem_nil fun h => Nat.lt_irrefl 0 h.1, .nil,
        fun _ ha => absurd ha List.not_mem_nil, .nil⟩
      framed := fun _ _ => Nat.le_refl 0
      fit := fun _ => ⟨fun h => (Bool.false_ne_true h).elim, fun _ => rfl⟩
      idle := rfl
      bound := fun _ => Nat.le_refl 0 }
  handles := rfl
  frames := rfl
  top := rfl
  vtbl _ := rfl
  owned _ _ := rfl

theorem Rel.holds (h : Rel n m g) (a : Addr) : g.holds a = m.holds a := by
  unfold Graph.holds Machine.holds
  rw [h.handles, h.frames]

/-- What the program has a reference to is counted. -/
theorem Machine.ext_pos (ha : m.holds a = true) : 0 < m.ext a := by
  unfold Machine.holds at ha
  unfold Machine.ext
  rw [Bool.or_eq_true, decide_eq_true_iff, decide_eq_true_iff] at ha
  obtain ha | ha := ha
  · exact Nat.add_pos_left (List.count_pos_iff.mpr ha) _
  · exact Nat.add_pos_right _ (List.count_pos_iff.mpr ha)

theorem Machine.held (ha : m.holds a = true) : Held m.ext m.heap a :=
  held_of_ext (Machine.ext_pos ha)

theorem Machine.holds_of_mem (ha : a ∈ m.handles) : m.holds a = true := by
  unfold Machine.holds
  rw [decide_eq_true ha, Bool.true_or]

/-- A heap that has come from a sound one without any change that the program sees. -/
theorem Rel.swept {m' : Machine} {g' : Graph} {log : List Addr} (h : Rel n m g)
    (hd : Swept log m.heap m'.heap) (hc : m'.heap.Counted m'.ext []) (hidle : m'.heap.trash = [])
    (hext : ∀ a, m'.ext a ≤ m.ext a) (hframes : m'.frames = m.frames)
    (hheld : ∀ a, Held m.ext m.heap a → m'.heap.Live a →
      (m'.heap.objs a).owned = (m.heap.objs a).owned)
    (hg : g' = { g with handles := m'.handles }) : Rel n m' g' where
  ok :=
    { counted := hc
      framed := fun s a => by
        rw [hframes]
        exact Nat.le_trans (hd.stack_le hc s a) (h.ok.framed s a)
      fit := fun a => hd.fit hc (h.ok.fit a)
      idle := hidle
      bound := fun a => Nat.le_trans (hd.strong a) (h.ok.bound a) }
  handles := by rw [hg]
  frames := by rw [hg, hframes, ← h.frames]
  top := by rw [hg, hd.top, ← h.top]
  vtbl a := by rw [hg, hd.vtbl, ← h.vtbl]
  owned a ha := by
    have hold : Held m.ext m.heap a := by
      refine ha.of_step (fun r hr => held_of_ext (Nat.lt_of_lt_of_le hr (hext r)))
        fun b c hb hc' => hb.owned ?_
      unfold Obj.owned at hc' ⊢
      obtain ⟨r, hr, rfl⟩ := List.mem_map.mp hc'
      obtain ⟨hr, hst⟩ := List.mem_filter.mp hr
      exact List.mem_map_of_mem (List.mem_filter.mpr ⟨hd.subset hc hr, hst⟩)
    rw [hheld a hold (ha.live hc), h.owned a hold, hg]

/-- One object changes. -/
theorem Rel.set (h : Rel n m g) (o : Obj) (handles : List Addr) (frames : List (Addr × Addr))
    (owned : Addr → List Addr) (hb : m.heap.Live b)
    (hv : o.vtbl = (m.heap.objs b).vtbl) (ho : 0 < o.strong) (hn : o.strong ≤ n + 1) (hfit : o.Fit)
    (hcount : ∀ x, (if x = b then o.strong else (m.heap.objs x).strong) +
        (m.heap.objs b).owned.count x + m.ext x =
      (m.heap.objs x).strong + o.owned.count x +
        (handles.count x + (frames.map Prod.snd).count x))
    (hframed : ∀ s x, (if s = b then o else m.heap.objs s).stack.count x ≤ frames.count (s, x))
    (hroot : ∀ x, x ∈ handles ∨ x ∈ frames.map Prod.snd → Held m.ext m.heap x)
    (hpath : ∀ c ∈ o.owned, Held m.ext m.heap b → Held m.ext m.heap c)
    (howned : ∀ x, Held m.ext m.heap x → (if x = b then o else m.heap.objs x).owned = owned x) :
    Rel (n + 1) ⟨m.heap.set b o, handles, frames⟩ { g with owned, handles, frames } where
  ok :=
    { counted := h.ok.counted.set hb hv ho fun x => by
        have hx := hcount x
        have hstrong := h.ok.counted.strong x
        rw [List.count_nil] at hstrong
        unfold Machine.ext at hx hstrong ⊢
        dsimp only
        omega
      framed := fun s x => by
        rw [objs_set]
        exact hframed s x
      fit := fun x => by
        rw [objs_set]
        split_ifs
        · exact hfit
        · exact h.ok.fit x
      idle := h.ok.idle
      bound := fun x => by
        rw [objs_set]
        split_ifs
        · exact hn
        · exact Nat.le_succ_of_le (h.ok.bound x) }
  handles := rfl
  frames := rfl
  top := h.top
  vtbl x := by
    rw [objs_set, h.vtbl]
    split_ifs with hx
    · rw [hv, hx]
    · rfl
  owned x hx := by
    rw [objs_set]
    refine howned x (hx.of_step (fun r hr => hroot r ?_) fun c d hc hd => ?_)
    · unfold Machine.ext at hr
      dsimp only at hr
      obtain hr | hr := Nat.add_pos_iff_pos_or_pos.mp hr
      · exact .inl (List.count_pos_iff.mp hr)
      · exact .inr (List.count_pos_iff.mp hr)
    · rw [objs_set] at hd
      split_ifs at hd with hcb
      · exact hpath d hd (hcb ▸ hc)
      · exact hc.owned hd

/-- One object keeps what it has. -/
theorem Rel.set_same (h : Rel n m g) (o : Obj) (handles : List Addr) (frames : List (Addr × Addr))
    (hb : m.heap.Live b) (hv : o.vtbl = (m.heap.objs b).vtbl) (hr : o.refs = (m.heap.objs b).refs)
    (ho : 0 < o.strong) (hn : o.strong ≤ n + 1)
    (hcount : ∀ x, (if x = b then o.strong else (m.heap.objs x).strong) + m.ext x =
      (m.heap.objs x).strong + (handles.count x + (frames.map Prod.snd).count x))
    (hframed : ∀ s x, (m.heap.objs s).stack.count x ≤ frames.count (s, x))
    (hroot : ∀ x, x ∈ handles ∨ x ∈ frames.map Prod.snd → Held m.ext m.heap x) :
    Rel (n + 1) ⟨m.heap.set b o, handles, frames⟩ { g with handles, frames } := by
  have howned : o.owned = (m.heap.objs b).owned := by
    unfold Obj.owned
    rw [hr]
  have hstack : o.stack = (m.heap.objs b).stack := by
    unfold Obj.stack
    rw [hr]
  have hfit : o.Fit := by
    have hold := h.ok.fit b
    refine ⟨fun hst => ?_, fun hst => ?_⟩
    · have hstrand := hold.strand (hv ▸ hst)
      unfold Obj.fields at hstrand ⊢
      rw [hv, hr]
      exact hstrand
    · rw [hstack]
      exact hold.calm (hv ▸ hst)
  refine h.set o handles frames g.owned hb hv ho hn hfit (fun x => ?_) (fun s x => ?_) hroot
    (fun c hc hheld => hheld.owned (howned ▸ hc)) fun x hx => ?_
  · have hx := hcount x
    rw [howned]
    omega
  · split_ifs with hs
    · rw [hstack, ← hs]
      exact hframed s x
    · exact hframed s x
  · rw [← h.owned x hx]
    split_ifs with hxb
    · rw [howned, hxb]
    · rfl

end Dolang.Gc
