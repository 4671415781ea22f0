import Mathlib.Logic.Relation
import Dolang.Lib.Worklist

/-!
# Marking what is reachable

A worklist loop that visits vertices of a graph and marks their successors. A successor that is
eligible and not marked yet is marked and put on the worklist. Whatever the marks are kept in, the
loop ends, and it has marked what it started with and what eligible steps lead to from the worklist
(`run_marks`). What each mark keeps is kept by the loop.
-/

namespace Dolang.Marking

open Dolang.Rust Relation

variable {α σ ε : Type}

/-- How marks are kept. -/
structure Marker (α σ : Type) where
  marked : σ → α → Bool
  mark : σ → α → σ
  marked_mark : ∀ s a b, marked (mark s a) b = true ↔ marked s b = true ∨ b = a

variable (K : Marker α σ) (children : α → List α) (eligible : α → Bool)

/-- Marks a successor unless it is marked. What is pushed is in front. -/
def step (s : σ × List α) (c : α) : σ × List α :=
  if eligible c && !K.marked s.1 c then (K.mark s.1 c, c :: s.2) else s

/-- Marks the successors of a vertex. -/
def visit (a : α) (s : σ) : Exec ε (σ × List α) :=
  .ok ((children a).foldl (step K eligible) (s, []))

/-- A step to an eligible successor. -/
def Step (a c : α) : Prop :=
  c ∈ children a ∧ eligible c = true

/-- The vertices that are left to mark. -/
def left (all : List α) (s : σ) : ℕ :=
  all.countP fun a => !K.marked s a

variable {K children eligible} {all cs : List α} {s : σ} {pushed : List α} {a c : α}

/-- A mark leaves one vertex less. -/
theorem left_mark (hc : c ∈ all) (hnew : K.marked s c = false) :
    left K all (K.mark s c) + 1 ≤ left K all s := by
  have hle : ∀ b, (!K.marked (K.mark s c) b) = true → (!K.marked s b) = true := by
    intro b hb
    rw [Bool.not_eq_true', ← Bool.not_eq_true] at hb ⊢
    exact fun hs => hb ((K.marked_mark s c b).mpr (.inl hs))
  have hself : (!K.marked (K.mark s c) c) = false := by
    rw [(K.marked_mark s c c).mpr (.inr rfl)]
    rfl
  unfold left
  induction all with
  | nil => exact absurd hc List.not_mem_nil
  | cons b all ih =>
    rw [List.countP_cons, List.countP_cons]
    obtain rfl | hc := List.mem_cons.mp hc
    · have hmono := List.countP_mono_left (l := all) fun b _ => hle b
      rw [hself, hnew]
      simp only [Bool.false_eq_true, if_false, Bool.not_false, if_true]
      omega
    · have hrest := ih hc
      have hb := hle b
      split_ifs with h1 h2
      · omega
      · exact absurd (hb h1) h2
      · omega
      · omega

/-- One successor. -/
theorem step_spec (s : σ) (pushed : List α) (hall : eligible c = true → c ∈ all) :
    (∀ b, K.marked (step K eligible (s, pushed) c).1 b = true ↔
        K.marked s b = true ∨ b = c ∧ eligible c = true) ∧
      (∀ b, b ∈ (step K eligible (s, pushed) c).2 ↔
        b ∈ pushed ∨ b = c ∧ eligible c = true ∧ K.marked s c = false) ∧
      left K all (step K eligible (s, pushed) c).1 + (step K eligible (s, pushed) c).2.length ≤
        left K all s + pushed.length := by
  unfold step
  dsimp only
  split_ifs with hnew
  · rw [Bool.and_eq_true, Bool.not_eq_true'] at hnew
    obtain ⟨helig, hnew⟩ := hnew
    have hleft := left_mark (hall helig) hnew
    refine ⟨fun b => ?_, fun b => ?_, ?_⟩
    · rw [K.marked_mark]
      exact ⟨Or.imp_right fun hb => ⟨hb, helig⟩, Or.imp_right And.left⟩
    · rw [List.mem_cons]
      exact ⟨fun hb => hb.symm.imp_right fun hb => ⟨hb, helig, hnew⟩,
        fun hb => (hb.imp_right And.left).symm⟩
    · dsimp only
      rw [List.length_cons]
      omega
  · have hold : eligible c = true → K.marked s c = true := by
      intro helig
      rw [helig, Bool.true_and, Bool.not_eq_true, Bool.not_eq_false'] at hnew
      exact hnew
    refine ⟨fun b => ⟨.inl, ?_⟩, fun b => ⟨.inl, ?_⟩, Nat.le_refl _⟩
    · rintro (hb | ⟨rfl, helig⟩)
      · exact hb
      · exact hold helig
    · rintro (hb | ⟨rfl, helig, hfalse⟩)
      · exact hb
      · rw [hold helig] at hfalse
        cases hfalse

/-- Some successors, one after the other. -/
theorem foldl_spec (s : σ) (pushed : List α)
    (hall : ∀ c ∈ cs, eligible c = true → c ∈ all) :
    (∀ b, K.marked (cs.foldl (step K eligible) (s, pushed)).1 b = true ↔
        K.marked s b = true ∨ b ∈ cs ∧ eligible b = true) ∧
      (∀ b, b ∈ (cs.foldl (step K eligible) (s, pushed)).2 ↔
        b ∈ pushed ∨ b ∈ cs ∧ eligible b = true ∧ K.marked s b = false) ∧
      left K all (cs.foldl (step K eligible) (s, pushed)).1 +
          (cs.foldl (step K eligible) (s, pushed)).2.length ≤ left K all s + pushed.length := by
  induction cs generalizing s pushed with
  | nil =>
    refine ⟨fun b => ⟨.inl, ?_⟩, fun b => ⟨.inl, ?_⟩, Nat.le_refl _⟩
    · rintro (hb | ⟨hb, -⟩)
      · exact hb
      · cases hb
    · rintro (hb | ⟨hb, -⟩)
      · exact hb
      · cases hb
  | cons c cs ih =>
    obtain ⟨hmark, hpush, hleft⟩ := step_spec s pushed (hall c List.mem_cons_self)
    rw [List.foldl_cons]
    obtain ⟨hmark', hpush', hleft'⟩ := ih
      (step K eligible (s, pushed) c).1 (step K eligible (s, pushed) c).2
      fun b hb => hall b (List.mem_cons_of_mem c hb)
    refine ⟨fun b => ?_, fun b => ?_, Nat.le_trans hleft' hleft⟩
    · rw [hmark', hmark, List.mem_cons]
      constructor
      · rintro ((hb | ⟨rfl, helig⟩) | ⟨hb, helig⟩)
        · exact .inl hb
        · exact .inr ⟨.inl rfl, helig⟩
        · exact .inr ⟨.inr hb, helig⟩
      · rintro (hb | ⟨rfl | hb, helig⟩)
        · exact .inl (.inl hb)
        · exact .inl (.inr ⟨rfl, helig⟩)
        · exact .inr ⟨hb, helig⟩
    · have hnew : K.marked (step K eligible (s, pushed) c).1 b = false ↔
          K.marked s b = false ∧ ¬(b = c ∧ eligible c = true) := by
        rw [← Bool.not_eq_true, hmark, not_or, Bool.not_eq_true]
      rw [hpush', hpush, List.mem_cons, hnew]
      constructor
      · rintro ((hb | ⟨rfl, helig, hs⟩) | ⟨hb, helig, hs, -⟩)
        · exact .inl hb
        · exact .inr ⟨.inl rfl, helig, hs⟩
        · exact .inr ⟨.inr hb, helig, hs⟩
      · rintro (hb | ⟨rfl | hb, helig, hs⟩)
        · exact .inl (.inl hb)
        · exact .inl (.inr ⟨rfl, helig, hs⟩)
        · by_cases hbc : b = c
          · subst hbc
            exact .inl (.inr ⟨rfl, helig, hs⟩)
          · exact .inr ⟨hb, helig, hs, fun h => hbc h.1⟩

/-- What one mark keeps is kept by many. -/
theorem foldl_invariant (Inv : σ → Prop) (pushed : List α)
    (hinv : ∀ s c, Inv s → c ∈ all → eligible c = true → K.marked s c = false → Inv (K.mark s c))
    (hall : ∀ c ∈ cs, eligible c = true → c ∈ all) (hs : Inv s) :
    Inv (cs.foldl (step K eligible) (s, pushed)).1 := by
  induction cs generalizing s pushed with
  | nil => exact hs
  | cons c cs ih =>
    have hnext : Inv (step K eligible (s, pushed) c).1 := by
      unfold step
      dsimp only
      split_ifs with hnew
      · rw [Bool.and_eq_true, Bool.not_eq_true'] at hnew
        exact hinv s c hs (hall c List.mem_cons_self hnew.1) hnew.1 hnew.2
      · exact hs
    rw [List.foldl_cons]
    exact ih (step K eligible (s, pushed) c).2 (fun b hb => hall b (List.mem_cons_of_mem c hb))
      hnext

/-- The loop ends, and it has marked what eligible steps lead to from the worklist. What is marked
at first has to be on the worklist or to have its eligible successors marked. -/
theorem run_marks (Inv : σ → Prop) (queue : List α) (fuel : ℕ)
    (hall : ∀ a, ∀ c ∈ children a, eligible c = true → c ∈ all)
    (hinv : ∀ s c, Inv s → c ∈ all → eligible c = true → K.marked s c = false → Inv (K.mark s c))
    (hclosed : ∀ a, K.marked s a = true → a ∈ queue ∨
      ∀ c ∈ children a, eligible c = true → K.marked s c = true)
    (hs : Inv s) (hfuel : left K all s + queue.length ≤ fuel) :
    ∃ s', Worklist.run (visit (ε := ε) K children eligible) fuel s queue = .ok s' ∧ Inv s' ∧
      ∀ a, K.marked s' a = true ↔
        K.marked s a = true ∨ ∃ q ∈ queue, TransGen (Step children eligible) q a := by
  -- What is marked is reachable, and what is on the worklist is what has not been visited yet.
  let Reached (a : α) : Prop :=
    K.marked s a = true ∨ ∃ q ∈ queue, TransGen (Step children eligible) q a
  let Good (t : σ) (rest : List α) : Prop :=
    Inv t ∧ (∀ a, K.marked s a = true → K.marked t a = true) ∧
      (∀ a, K.marked t a = true → Reached a) ∧
      (∀ a ∈ rest, a ∈ queue ∨ ∃ q ∈ queue, TransGen (Step children eligible) q a) ∧
      (∀ a, K.marked t a = true ∨ a ∈ queue →
        a ∈ rest ∨ ∀ c ∈ children a, eligible c = true → K.marked t c = true)
  have hstart : Good s queue :=
    ⟨hs, fun _ ha => ha, fun _ => .inl, fun _ => .inl,
      fun a ha => ha.elim (hclosed a) .inl⟩
  have hstep : ∀ a t rest, Good t (a :: rest) → ∃ t' pushed,
      visit (ε := ε) K children eligible a t = .ok (t', pushed) ∧ Good t' (pushed ++ rest) ∧
        left K all t' + pushed.length ≤ left K all t := by
    rintro a t rest ⟨ht, hmono, hsound, hrest, hdone⟩
    obtain ⟨hmark, hpush, hleft⟩ := foldl_spec (K := K) t [] (fun c hc => hall a c hc)
    have hnext := foldl_invariant Inv [] hinv (fun c hc => hall a c hc) ht
    refine ⟨_, _, rfl, ⟨hnext, fun b hb => (hmark b).mpr (.inl (hmono b hb)), fun b hb => ?_,
      fun b hb => ?_, fun b hb => ?_⟩, hleft⟩
    · obtain hb | ⟨hb, helig⟩ := (hmark b).mp hb
      · exact hsound b hb
      · obtain ha | ⟨q, hq, hpath⟩ := hrest a List.mem_cons_self
        · exact .inr ⟨a, ha, .single ⟨hb, helig⟩⟩
        · exact .inr ⟨q, hq, hpath.tail ⟨hb, helig⟩⟩
    · obtain hb | hb := List.mem_append.mp hb
      · obtain hb | ⟨hb, helig, -⟩ := (hpush b).mp hb
        · cases hb
        · obtain ha | ⟨q, hq, hpath⟩ := hrest a List.mem_cons_self
          · exact .inr ⟨a, ha, .single ⟨hb, helig⟩⟩
          · exact .inr ⟨q, hq, hpath.tail ⟨hb, helig⟩⟩
      · exact hrest b (List.mem_cons_of_mem a hb)
    · -- A vertex that is marked now has been pushed, and what was closed is so with more marks.
      have hold : K.marked t b = true ∨ b ∈ queue →
          b ∈ ((children a).foldl (step K eligible) (t, [])).2 ++ rest ∨
            ∀ c ∈ children b, eligible c = true →
              K.marked ((children a).foldl (step K eligible) (t, [])).1 c = true := by
        intro hb
        obtain hmem | hclosed := hdone b hb
        · obtain rfl | hmem := List.mem_cons.mp hmem
          · exact .inr fun c hc helig => (hmark c).mpr (.inr ⟨hc, helig⟩)
          · exact .inl (List.mem_append_right _ hmem)
        · exact .inr fun c hc helig => (hmark c).mpr (.inl (hclosed c hc helig))
      obtain hb | hb := hb
      · cases htb : K.marked t b with
        | true => exact hold (.inl htb)
        | false =>
          obtain hfalse | ⟨hc, helig⟩ := (hmark b).mp hb
          · rw [htb] at hfalse
            cases hfalse
          · exact .inl (List.mem_append_left _ ((hpush b).mpr (.inr ⟨hc, helig, htb⟩)))
      · exact hold (.inr hb)
  obtain ⟨s', hrun, hinv', hmono, hsound, -, hdone⟩ :=
    Worklist.run_ok Good (left K all) hstep hstart hfuel
  refine ⟨s', hrun, hinv', fun a => ⟨hsound a, ?_⟩⟩
  have hclosed' : ∀ b, K.marked s' b = true ∨ b ∈ queue →
      ∀ c ∈ children b, eligible c = true → K.marked s' c = true := by
    intro b hb
    obtain hmem | hclosed := hdone b hb
    · cases hmem
    · exact hclosed
  rintro (ha | ⟨q, hq, hpath⟩)
  · exact hmono a ha
  · induction hpath with
    | single hstep => exact hclosed' q (.inr hq) _ hstep.1 hstep.2
    | tail _ hstep ih => exact hclosed' _ (.inl ih) _ hstep.1 hstep.2

end Dolang.Marking
