import Mathlib.Order.Basic
import Mathlib.Tactic.Common

/-!
# Computations over a store that only grows

A computation over a store either fails or returns a value and the store it leaves. Some never take
anything back: the store they leave is above the one they found, and once a store holds what they
added, running them again returns the same value and changes nothing. A table that hands out a
number for each value it is given is such a store, and looking up or adding a value is such a
computation.

`Replays I P m m' Q` says this of `m`, of the stores that meet the invariant `I` and the
precondition `P`, with `m'` in place of the second run: so with `m'` the same computation under a
larger bound on its recursion, it also says that the bound does not matter. The rules put
computations together (`Replays.bind`, `Replays.mapM`, `Replays.foldlM`), and `Replays.agree` is what
it is for: two runs that can be put in order return the same.
-/

namespace Dolang.Growing

variable {σ α β : Type}

/-- A computation over a store, which can fail. -/
abbrev Comp (σ α : Type) := StateT σ Option α

/-- What the store tells, which it may not. -/
def read (f : σ → Option α) : Comp σ α := fun s =>
  (f s).map fun a => (a, s)

theorem bind_eq_some {m : Comp σ α} {f : α → Comp σ β} {s t : σ} {b : β} :
    (m >>= f) s = some (b, t) ↔ ∃ a u, m s = some (a, u) ∧ f a u = some (b, t) := by
  rw [show (m >>= f) s = (m s).bind fun p => f p.1 p.2 from rfl, Option.bind_eq_some_iff]
  constructor
  · rintro ⟨⟨a, u⟩, hm, hf⟩
    exact ⟨a, u, hm, hf⟩
  · rintro ⟨a, u, hm, hf⟩
    exact ⟨(a, u), hm, hf⟩

theorem pure_eq_some {a b : α} {s t : σ} : (pure a : Comp σ α) s = some (b, t) ↔ a = b ∧ s = t := by
  rw [show (pure a : Comp σ α) s = some (a, s) from rfl, Option.some.injEq, Prod.mk.injEq]

theorem read_eq_some {f : σ → Option α} {a : α} {s t : σ} :
    read f s = some (a, t) ↔ f s = some a ∧ s = t := by
  rw [read, Option.map_eq_some_iff]
  constructor
  · rintro ⟨b, hb, he⟩
    obtain ⟨rfl, rfl⟩ := Prod.mk.inj he
    exact ⟨hb, rfl⟩
  · rintro ⟨ha, rfl⟩
    exact ⟨a, ha, rfl⟩

/-- A computation that does not fail, of the stores that meet `I` and `P`. -/
def Returns (I P : σ → Prop) (m : Comp σ α) : Prop :=
  ∀ s, I s → P s → ∃ a t, m s = some (a, t)

namespace Returns

variable {I P : σ → Prop} {m : Comp σ α}

theorem pre {P' : σ → Prop} (h : Returns I P m) (hP : ∀ s, I s → P' s → P s) : Returns I P' m :=
  fun s hI hp => h s hI (hP s hI hp)

protected theorem pure (a : α) : Returns I P (Pure.pure a) :=
  fun s _ _ => ⟨a, s, rfl⟩

theorem read {f : σ → Option α} (h : ∀ s, I s → P s → ∃ a, f s = some a) :
    Returns I P (Growing.read f) := by
  intro s hI hp
  obtain ⟨a, ha⟩ := h s hI hp
  exact ⟨a, s, read_eq_some.mpr ⟨ha, rfl⟩⟩

theorem map {f : α → β} (h : Returns I P m) : Returns I P (f <$> m) := by
  intro s hI hp
  obtain ⟨a, t, ha⟩ := h s hI hp
  rw [map_eq_pure_bind]
  exact ⟨f a, t, bind_eq_some.mpr ⟨a, t, ha, rfl⟩⟩

end Returns

variable [Preorder σ]

/-- What `m` computes, `m'` computes too, and computes again once the store has grown, with nothing
left to add. The value meets `Q`. -/
def Replays (I P : σ → Prop) (m m' : Comp σ α) (Q : α → σ → Prop) : Prop :=
  ∀ s a t, I s → P s → m s = some (a, t) →
    I t ∧ s ≤ t ∧ Q a t ∧ m' s = some (a, t) ∧ ∀ u, I u → t ≤ u → m' u = some (a, u)

/-- A fact about a store stays true of the stores above it. -/
def Stays (I P : σ → Prop) : Prop :=
  ∀ s t, I s → I t → s ≤ t → P s → P t

variable {I P : σ → Prop}

theorem Stays.and {Q : σ → Prop} (hP : Stays I P) (hQ : Stays I Q) :
    Stays I fun s => P s ∧ Q s :=
  fun s t hs ht hle h => ⟨hP s t hs ht hle h.1, hQ s t hs ht hle h.2⟩

theorem stays_const (p : Prop) : Stays I fun _ => p :=
  fun _ _ _ _ _ h => h

namespace Replays

variable {Q : α → σ → Prop} {m m' : Comp σ α}

theorem weaken {P' : σ → Prop} {Q' : α → σ → Prop} (h : Replays I P m m' Q)
    (hP : ∀ s, I s → P' s → P s) (hQ : ∀ a s, I s → Q a s → Q' a s) : Replays I P' m m' Q' := by
  intro s a t hI hpre hm
  obtain ⟨hIt, hle, hq, hrest⟩ := h s a t hI (hP s hI hpre) hm
  exact ⟨hIt, hle, hQ a t hIt hq, hrest⟩

theorem post {Q' : α → σ → Prop} (h : Replays I P m m' Q) (hQ : ∀ a s, I s → Q a s → Q' a s) :
    Replays I P m m' Q' :=
  h.weaken (fun _ _ hp => hp) hQ

theorem pre {P' : σ → Prop} (h : Replays I P m m' Q) (hP : ∀ s, I s → P' s → P s) :
    Replays I P' m m' Q :=
  h.weaken hP fun _ _ _ hq => hq

/-- What was computed is found again. -/
theorem again (h : Replays I P m m' Q) :
    Replays I P m m' fun a s => Q a s ∧ ∀ u, I u → s ≤ u → m' u = some (a, u) := by
  intro s a t hI hpre hm
  obtain ⟨hIt, hle, hq, hm', hreplay⟩ := h s a t hI hpre hm
  exact ⟨hIt, hle, ⟨hq, hreplay⟩, hm', hreplay⟩

theorem and {Q' : α → σ → Prop} (h : Replays I P m m' Q) (h' : Replays I P m m' Q') :
    Replays I P m m' fun a s => Q a s ∧ Q' a s := by
  intro s a t hI hpre hm
  obtain ⟨hIt, hle, hq, hrest⟩ := h s a t hI hpre hm
  obtain ⟨-, -, hq', -⟩ := h' s a t hI hpre hm
  exact ⟨hIt, hle, ⟨hq, hq'⟩, hrest⟩

/-- A precondition that stays true is still there afterwards. -/
theorem frame {R : σ → Prop} (h : Replays I P m m' Q) (hR : Stays I R) :
    Replays I (fun s => P s ∧ R s) m m' fun a s => Q a s ∧ R s := by
  intro s a t hI hpre hm
  obtain ⟨hIt, hle, hq, hrest⟩ := h s a t hI hpre.1 hm
  exact ⟨hIt, hle, ⟨hq, hR s t hI hIt hle hpre.2⟩, hrest⟩

/-- A precondition that does not depend on the store is a hypothesis. -/
theorem assume {p : Prop} (h : p → Replays I P m m' Q) : Replays I (fun s => p ∧ P s) m m' Q :=
  fun s a t hI hpre hm => h hpre.1 s a t hI hpre.2 hm

theorem pure {a : α} (h : ∀ s, I s → P s → Q a s) :
    Replays I P (Pure.pure a) (Pure.pure a) Q := by
  intro s b t hI hpre hm
  obtain ⟨rfl, rfl⟩ := pure_eq_some.mp hm
  exact ⟨hI, le_rfl, h s hI hpre, rfl, fun u _ _ => rfl⟩

/-- What the store tells stays so. -/
theorem read {f : σ → Option α} (h : ∀ s t, I s → I t → s ≤ t → ∀ a, f s = some a → f t = some a) :
    Replays I P (Growing.read f) (Growing.read f) fun a s => f s = some a ∧ P s := by
  intro s a t hI hpre hm
  obtain ⟨ha, rfl⟩ := read_eq_some.mp hm
  refine ⟨hI, le_rfl, ⟨ha, hpre⟩, hm, fun u hIu hle => ?_⟩
  exact read_eq_some.mpr ⟨h s u hI hIu hle a ha, rfl⟩

/-- There is nothing to show of stores that do not exist. -/
theorem absurd (h : ∀ s, I s → ¬P s) : Replays I P m m' Q :=
  fun s _ _ hI hpre _ => (h s hI hpre).elim

theorem fail : Replays I P (failure : Comp σ α) m' Q :=
  fun _ _ _ _ _ hm => nomatch hm

theorem bind {R : β → σ → Prop} {f f' : α → Comp σ β} (h : Replays I P m m' Q)
    (hf : ∀ a, Replays I (Q a) (f a) (f' a) R) : Replays I P (m >>= f) (m' >>= f') R := by
  intro s b t hI hpre hm
  obtain ⟨a, u, hm, hfa⟩ := bind_eq_some.mp hm
  obtain ⟨hIu, hsu, hq, hm', hreplay⟩ := h s a u hI hpre hm
  obtain ⟨hIt, hut, hr, hfa', hreplay'⟩ := hf a u b t hIu hq hfa
  refine ⟨hIt, hsu.trans hut, hr, bind_eq_some.mpr ⟨a, u, hm', hfa'⟩, fun v hIv htv => ?_⟩
  exact bind_eq_some.mpr ⟨a, v, hreplay v hIv (hut.trans htv), hreplay' v hIv htv⟩

theorem map {f : α → β} {R : β → σ → Prop} (h : Replays I P m m' Q)
    (hf : ∀ a s, I s → Q a s → R (f a) s) : Replays I P (f <$> m) (f <$> m') R := by
  rw [map_eq_pure_bind, map_eq_pure_bind]
  exact h.bind fun a => pure (hf a)

/-- A guard that fails, fails. -/
theorem check {p : Prop} [Decidable p] :
    Replays I P (guard p : Comp σ Unit) (guard p) fun _ s => p ∧ P s := by
  unfold guard
  split_ifs with hp
  · exact pure fun _ _ hpre => ⟨hp, hpre⟩
  · exact fail

section Lists

variable {ι : Type} {f f' : ι → Comp σ α}

/-- Each item in turn, with a fact about its value that stays true. -/
theorem mapM {R : ι → α → σ → Prop} (hP : Stays I P) (hR : ∀ i a, Stays I (R i a)) (l : List ι)
    (h : ∀ i ∈ l, Replays I P (f i) (f' i) (R i)) :
    Replays I P (l.mapM f) (l.mapM f') fun as s => List.Forall₂ (fun i a => R i a s) l as := by
  induction l with
  | nil =>
    rw [List.mapM_nil, List.mapM_nil]
    exact pure fun _ _ _ => .nil
  | cons i l ih =>
    have hi := (h i List.mem_cons_self).frame hP
    have hl := ih fun j hj => h j (List.mem_cons_of_mem _ hj)
    rw [List.mapM_cons, List.mapM_cons]
    refine (hi.pre fun s _ hp => ⟨hp, hp⟩).bind fun a => ?_
    refine ((hl.frame (hR i a)).pre fun s _ hp => ⟨hp.2, hp.1⟩).bind fun as => ?_
    exact pure fun s _ hp => .cons hp.2 hp.1

/-- Each item in turn, with an invariant of the value carried along. -/
theorem foldlM {f f' : β → ι → Comp σ β} {R : β → σ → Prop} (l : List ι)
    (h : ∀ b, ∀ i ∈ l, Replays I (R b) (f b i) (f' b i) R) (b : β) :
    Replays I (R b) (l.foldlM f b) (l.foldlM f' b) R := by
  induction l generalizing b with
  | nil =>
    rw [List.foldlM_nil, List.foldlM_nil]
    exact pure fun _ _ hp => hp
  | cons i l ih =>
    rw [List.foldlM_cons, List.foldlM_cons]
    exact (h b i List.mem_cons_self).bind fun b' =>
      ih (fun c j hj => h c j (List.mem_cons_of_mem _ hj)) b'

end Lists

/-- Two runs, the second from a store above the one that the first left, return the same, and the
second changes nothing. -/
theorem agree {n : Comp σ α} (h : Replays I P m m' Q) (hn : Replays I P n m' Q) {s t u v : σ}
    {a b : α} (hs : I s) (hP : P s) (hm : m s = some (a, t)) (hu : I u) (hPu : P u) (htu : t ≤ u)
    (hnu : n u = some (b, v)) : a = b ∧ v = u := by
  obtain ⟨-, -, -, -, hreplay⟩ := h s a t hs hP hm
  obtain ⟨-, -, -, hb, -⟩ := hn u b v hu hPu hnu
  obtain ⟨rfl, rfl⟩ := Prod.mk.inj (Option.some.inj ((hreplay u hu htu).symm.trans hb))
  exact ⟨rfl, rfl⟩

end Replays

/-- `Replays` with nothing required of the store and nothing said of the value. -/
def Steady (I : σ → Prop) (m m' : Comp σ α) : Prop :=
  Replays I (fun _ => True) m m' fun _ _ => True

theorem Replays.steady {Q : α → σ → Prop} {m m' : Comp σ α} (h : Replays I (fun _ => True) m m' Q) :
    Steady I m m' :=
  h.post fun _ _ _ _ => trivial

namespace Steady

variable {m m' : Comp σ α}

theorem replays (h : Steady I m m') (P : σ → Prop) : Replays I P m m' fun _ _ => True :=
  h.pre fun _ _ _ => trivial

/-- What stays true of the store is still true after it. -/
theorem keeps {P : σ → Prop} (h : Steady I m m') (hP : Stays I P) :
    Replays I P m m' fun _ s => P s :=
  (Replays.frame h hP).weaken (fun _ _ hp => ⟨trivial, hp⟩) fun _ _ _ hp => hp.2

protected theorem pure (a : α) : Steady I (Pure.pure a) (Pure.pure a) :=
  Replays.pure fun _ _ _ => trivial

theorem fail : Steady I (failure : Comp σ α) m' :=
  Replays.fail

theorem bind {f f' : α → Comp σ β} (h : Steady I m m') (hf : ∀ a, Steady I (f a) (f' a)) :
    Steady I (m >>= f) (m' >>= f') :=
  Replays.bind h hf

theorem map {f : α → β} (h : Steady I m m') : Steady I (f <$> m) (f <$> m') :=
  Replays.map h fun _ _ _ _ => trivial

theorem ignore (h : Steady I m m') : Steady I (discard m) (discard m') :=
  h.map

theorem check {p : Prop} [Decidable p] : Steady I (guard p) (guard p) :=
  Replays.check.steady

theorem read {f : σ → Option α} (h : ∀ s t, I s → I t → s ≤ t → ∀ a, f s = some a → f t = some a) :
    Steady I (Growing.read f) (Growing.read f) :=
  (Replays.read h).steady

section Lists

variable {ι : Type}

theorem mapM {f f' : ι → Comp σ α} (h : ∀ i, Steady I (f i) (f' i)) (l : List ι) :
    Steady I (l.mapM f) (l.mapM f') :=
  (Replays.mapM (stays_const True) (fun _ _ => stays_const True) l fun i _ => h i).steady

theorem foldlM {f f' : β → ι → Comp σ β} (h : ∀ b i, Steady I (f b i) (f' b i)) (l : List ι) (b : β) :
    Steady I (l.foldlM f b) (l.foldlM f' b) :=
  Replays.foldlM (R := fun _ _ => True) l (fun b i _ => h b i) b

theorem forM {f f' : ι → Comp σ Unit} (h : ∀ i, Steady I (f i) (f' i)) (l : List ι) :
    Steady I (l.forM f) (l.forM f') := by
  induction l with
  | nil => exact .pure _
  | cons i l ih => exact (h i).bind fun _ => ih

theorem anyM {f f' : ι → Comp σ Bool} (h : ∀ i, Steady I (f i) (f' i)) (l : List ι) :
    Steady I (l.anyM f) (l.anyM f') := by
  induction l with
  | nil => exact .pure _
  | cons i l ih =>
    rw [List.anyM_cons, List.anyM_cons]
    refine (h i).bind fun b => ?_
    cases b with
    | true => exact .pure _
    | false => exact ih

end Lists

end Steady

namespace Returns

variable {Q : α → σ → Prop} {m m' : Comp σ α}

/-- What the first leaves lets the second return. -/
theorem bind {f : α → Comp σ β} (h : Returns I P m) (hm : Replays I P m m' Q)
    (hf : ∀ a, Returns I (Q a) (f a)) : Returns I P (m >>= f) := by
  intro s hI hp
  obtain ⟨a, t, ha⟩ := h s hI hp
  obtain ⟨hIt, -, hq, -⟩ := hm s a t hI hp ha
  obtain ⟨b, u, hb⟩ := hf a t hIt hq
  exact ⟨b, u, bind_eq_some.mpr ⟨a, t, ha, hb⟩⟩

theorem mapM {ι : Type} {f f' : ι → Comp σ α} (hP : Stays I P)
    (hf : ∀ i, Steady I (f i) (f' i)) (l : List ι) (h : ∀ i ∈ l, Returns I P (f i)) :
    Returns I P (l.mapM f) := by
  induction l with
  | nil => exact .pure _
  | cons i l ih =>
    have hl := ih fun j hj => h j (List.mem_cons_of_mem _ hj)
    rw [List.mapM_cons]
    refine (h i List.mem_cons_self).bind ((hf i).keeps hP) fun a => ?_
    exact hl.bind ((Steady.mapM hf l).replays _) fun _ => .pure _

end Returns

end Dolang.Growing
