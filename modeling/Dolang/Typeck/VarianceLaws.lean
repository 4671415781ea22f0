import Dolang.Lib.LeastSolution
import Dolang.Typeck.Variance
import Mathlib.Algebra.Order.BigOperators.Group.List
import Mathlib.Algebra.Order.Ring.Nat
import Mathlib.Order.BoundedOrder.Basic

/-!
# Variances are least solutions

`solve` ends with the least solution of its constraints above what is fixed, and from there with the
least one that reads an unused key as invariant. Reading it so is not monotone, but whatever the second
phase changes it makes invariant (`Raised`), and while that is so it reads as if the unused keys were
known beforehand (`assigned`). Solutions are unique, so nothing depends on the order of constraints, and
a part of a system that is closed can be solved first.
-/

namespace Dolang.Typeck

open Dolang.Rust Dolang.LeastSolution

namespace Use

instance : Max Use := ⟨join⟩

instance : SemilatticeSup Use :=
  SemilatticeSup.mk'
    (by intro a b; cases a <;> cases b <;> rfl)
    (by intro a b c; cases a <;> cases b <;> cases c <;> rfl)
    (by intro a; cases a <;> rfl)

theorem le_iff {a b : Use} : a ≤ b ↔ a.join b = b :=
  Iff.rfl

instance : OrderBot Use where
  bot := .none
  bot_le _ := rfl

instance : OrderTop Use where
  top := .both
  le_top a := by cases a <;> rfl

instance (a b : Use) : Decidable (a ≤ b) :=
  inferInstanceAs (Decidable (a.join b = b))

theorem none_le (a : Use) : Use.none ≤ a := rfl

theorem le_both (a : Use) : a ≤ Use.both := le_top

theorem eq_none_of_le {a : Use} (h : a ≤ Use.none) : a = Use.none :=
  le_bot_iff.mp h

theorem eq_both_of_le {a : Use} (h : Use.both ≤ a) : a = Use.both :=
  top_le_iff.mp h

/-- A use composes more where there is more. -/
theorem then_mono {a b c d : Use} (hab : a ≤ b) (hcd : c ≤ d) : a.then c ≤ b.then d := by
  revert hab hcd
  cases a <;> cases b <;> cases c <;> cases d <;> decide

/-- A variance that is recorded for a use is the use. -/
theorem of_variance {u : Use} (h : u ≠ .none) : of u.variance = u := by
  cases u
  · exact absurd rfl h
  all_goals rfl

/-- What is a use, or goes in both directions, composes with the same to the same. -/
theorem then_raised {a b c d : Use} (hab : a = b ∨ a = both) (hcd : c = d ∨ c = both) :
    a.then c = b.then d ∨ a.then c = both := by
  revert hab hcd
  cases a <;> cases b <;> cases c <;> cases d <;> decide

/-- How often a use has been raised. -/
def rank : Use → ℕ
  | .none => 0
  | .co | .contra => 1
  | .both => 2

theorem rank_le (a : Use) : a.rank ≤ 2 := by
  cases a <;> decide

theorem rank_mono {a b : Use} (h : a ≤ b) : a.rank ≤ b.rank := by
  revert h
  cases a <;> cases b <;> decide

theorem rank_lt {a b : Use} (h : a ≤ b) (hne : b ≠ a) : a.rank < b.rank := by
  revert h hne
  cases a <;> cases b <;> decide

end Use

namespace Variance

variable {K : Type}

/-! ## What sources give -/

/-- The use that a source gives, with some keys read as invariant. -/
def assigned (unused : K → Bool) (σ : K → Use) : Source K → Use
  | .path first keys => keys.foldl (fun u key => u.then (if unused key then .both else σ key)) first
  | .join key => σ key

theorem foldl_le {r s : K → Use} (keys : List K) (h : ∀ k ∈ keys, r k ≤ s k) {a b : Use}
    (hab : a ≤ b) :
    keys.foldl (fun u key => u.then (r key)) a ≤ keys.foldl (fun u key => u.then (s key)) b := by
  induction keys generalizing a b with
  | nil => exact hab
  | cons k keys ih =>
    rw [List.forall_mem_cons] at h
    exact ih h.2 (Use.then_mono hab h.1)

/-- A source gives more where the keys that it reads have more uses and read as more. -/
theorem assigned_le {unused unused' : K → Bool} {σ τ : K → Use} (source : Source K)
    (hle : ∀ k ∈ source.keys, σ k ≤ τ k)
    (hunused : ∀ k ∈ source.keys, unused k = true → unused' k = true ∨ τ k = .both) :
    assigned unused σ source ≤ assigned unused' τ source := by
  cases source with
  | join key => exact hle key (List.mem_singleton_self key)
  | path first keys =>
    refine foldl_le keys (fun k hk => ?_) le_rfl
    by_cases h : unused k = true
    · rw [if_pos h]
      obtain hk' | hk' := hunused k hk h
      · rw [if_pos hk']
      · rw [hk', ite_self]
    · rw [if_neg h]
      split_ifs
      · exact Use.le_both _
      · exact hle k hk

theorem assigned_mono (unused : K → Bool) (source : Source K) :
    Monotone fun σ => assigned unused σ source :=
  fun _ _ h => assigned_le source (fun k _ => h k) fun _ _ => .inl

theorem assigned_congr {unused unused' : K → Bool} {σ τ : K → Use} {source : Source K}
    (h : ∀ k ∈ source.keys, σ k = τ k) (hunused : ∀ k ∈ source.keys, unused k = unused' k) :
    assigned unused σ source = assigned unused' τ source :=
  le_antisymm (assigned_le source (fun k hk => (h k hk).le) fun k hk hk' => .inl (hunused k hk ▸ hk'))
    (assigned_le source (fun k hk => (h k hk).ge) fun k hk hk' => .inl (hunused k hk ▸ hk'))

/-- Where uses are those of another assignment, or go in both directions, so are those that sources
give. -/
theorem assigned_raised (unused : K → Bool) {σ τ : K → Use} (source : Source K)
    (h : ∀ k, τ k = σ k ∨ τ k = .both) :
    assigned unused τ source = assigned (fun _ => false) σ source ∨
      assigned unused τ source = .both := by
  cases source with
  | join key => exact h key
  | path first keys =>
    suffices ∀ a b : Use, a = b ∨ a = .both →
        keys.foldl (fun u key => u.then (if unused key then .both else τ key)) a =
          keys.foldl (fun u key => u.then (σ key)) b ∨
        keys.foldl (fun u key => u.then (if unused key then .both else τ key)) a = .both from
      this first first (.inl rfl)
    induction keys with
    | nil => exact fun _ _ hab => hab
    | cons k keys ih =>
      intro a b hab
      refine ih _ _ (Use.then_raised hab ?_)
      split_ifs
      · exact .inr rfl
      · exact h k

/-! ## The loop -/

variable [DecidableEq K] {constraints : List (K × Source K)}

theorem mem_dependents {key : K} {index : ℕ} : index ∈ dependents constraints key ↔
    ∃ c, constraints[index]? = some c ∧ key ∈ c.2.keys := by
  rw [dependents, List.mem_flatMap]
  constructor
  · rintro ⟨⟨c, i⟩, hc, hmem⟩
    obtain ⟨k, hk, rfl⟩ := List.mem_map.mp hmem
    obtain ⟨hread, heq⟩ := List.mem_filter.mp hk
    obtain rfl := of_decide_eq_true heq
    exact ⟨c, List.mem_zipIdx_iff_getElem?.mp hc, hread⟩
  · rintro ⟨c, hc, hk⟩
    exact ⟨(c, index), List.mem_zipIdx_iff_getElem?.mpr hc,
      List.mem_map.mpr ⟨key, List.mem_filter.mpr ⟨hk, decide_eq_true rfl⟩, rfl⟩⟩

/-- The number of keys that sources read. -/
def reads (constraints : List (K × Source K)) : ℕ :=
  (constraints.map fun c => c.2.keys.length).sum

theorem length_dependents_le (key : K) :
    (dependents constraints key).length ≤ reads constraints := by
  have hle : ∀ (l : List (K × Source K)) (i : ℕ), ((l.zipIdx i).flatMap fun p =>
      (p.1.2.keys.filter (· = key)).map fun _ => p.2).length ≤ reads l := by
    intro l
    induction l with
    | nil => exact fun _ => le_rfl
    | cons c l ih =>
      intro i
      rw [List.zipIdx_cons, List.flatMap_cons, List.length_append, List.length_map, reads,
        List.map_cons, List.sum_cons]
      exact Nat.add_le_add (List.length_filter_le _ _) (ih (i + 1))
  exact hle constraints 0

/-- How often the targets of constraints can still be raised, each time for all that read it. -/
def room (constraints : List (K × Source K)) (uses : K → Option Use) : ℕ :=
  (constraints.map fun c => 2 - (use uses c.1).rank).sum * reads constraints

omit [DecidableEq K] in
theorem room_le (uses : K → Option Use) :
    room constraints uses ≤ constraints.length * 2 * reads constraints := by
  refine Nat.mul_le_mul_right _ ?_
  have hle := List.sum_le_card_nsmul (constraints.map fun c => 2 - (use uses c.1).rank) 2 (by
    intro n hn
    obtain ⟨c, -, rfl⟩ := List.mem_map.mp hn
    exact Nat.sub_le _ _)
  rw [List.length_map] at hle
  exact hle

theorem use_update (uses : K → Option Use) (key : K) (u : Use) :
    use (Function.update uses key (some u)) = Function.update (use uses) key u := by
  funext k
  by_cases hk : k = key
  · subst hk
    simp [use]
  · simp [use, hk]

/-- A target that is raised leaves less room. -/
theorem room_update {uses : K → Option Use} {c : K × Source K} (hc : c ∈ constraints) {u : Use}
    (hle : use uses c.1 ≤ u) (hne : u ≠ use uses c.1) :
    room constraints (Function.update uses c.1 (some u)) + reads constraints ≤
      room constraints uses := by
  have hlt : (constraints.map fun d =>
      2 - (use (Function.update uses c.1 (some u)) d.1).rank).sum <
      (constraints.map fun d => 2 - (use uses d.1).rank).sum := by
    rw [use_update]
    refine List.sum_lt_sum _ _ (fun d _ => ?_) ⟨c, hc, ?_⟩
    · by_cases hd : d.1 = c.1
      · rw [hd, Function.update_self]
        exact Nat.sub_le_sub_left (Use.rank_mono hle) 2
      · rw [Function.update_of_ne hd]
    · rw [Function.update_self]
      have hrank := Use.rank_lt hle hne
      have hbound := Use.rank_le u
      omega
  rw [room, room, ← Nat.succ_mul]
  exact Nat.mul_le_mul_right _ hlt

/-- What is so during a run that starts from a map: the uses are below all solutions, and the
constraints that are not queued are met. `Kept` is what else is so. -/
structure Running (constraints : List (K × Source K)) (unused : K → Bool)
    (start : K → Option Use) (Kept : (K → Option Use) → Prop) (uses : K → Option Use)
    (queue : List ℕ) : Prop where
  above : use start ≤ use uses
  below : ∀ τ ∈ solutions (assigned unused) constraints (use start), use uses ≤ τ
  settled : ∀ i c, constraints[i]? = some c → i ∉ queue →
    assigned unused (use uses) c.2 ≤ use uses c.1 ∧ (uses c.1).isSome = true
  queued : ∀ i ∈ queue, i < constraints.length
  entries : ∀ k, (uses k).isSome = true → (start k).isSome = true ∨ ∃ c ∈ constraints, c.1 = k
  kept : ∀ k, (start k).isSome = true → (uses k).isSome = true
  also : Kept uses

/-- An iteration keeps what is so, and leaves less room for what it queues. -/
theorem visit_running {unused : K → Bool} {unusedInvariant : Bool} {start : K → Option Use}
    {Kept : (K → Option Use) → Prop}
    (hvalue : ∀ uses, Kept uses → ∀ source : Source K,
      value unusedInvariant uses source = assigned unused (use uses) source)
    (hkept : ∀ uses c, Kept uses → c ∈ constraints → Kept (Function.update uses c.1
      (some ((use uses c.1).join (assigned unused (use uses) c.2)))))
    {i : ℕ} {uses : K → Option Use} {queue : List ℕ}
    (h : Running constraints unused start Kept uses (i :: queue)) :
    ∃ uses' pushed, visit constraints unusedInvariant i uses = .ok (uses', pushed) ∧
      Running constraints unused start Kept uses' (pushed ++ queue) ∧
      room constraints uses' + pushed.length ≤ room constraints uses := by
  have hi := h.queued i List.mem_cons_self
  obtain ⟨c, hc⟩ : ∃ c, constraints[i]? = some c := ⟨_, List.getElem?_eq_getElem hi⟩
  have hmem := List.mem_of_getElem? hc
  have hkeeps := hkept uses c h.also hmem
  have hjoin : use uses c.1 ≤ (use uses c.1).join (assigned unused (use uses) c.2) :=
    le_sup_left (a := use uses c.1)
  have hvalue' : assigned unused (use uses) c.2 ≤
      (use uses c.1).join (assigned unused (use uses) c.2) := le_sup_right (a := use uses c.1)
  have hbelow : ∀ τ ∈ solutions (assigned unused) constraints (use start), Function.update
      (use uses) c.1 ((use uses c.1).join (assigned unused (use uses) c.2)) ≤ τ :=
    fun τ hτ => update_le (assigned_mono unused) hmem (h.below τ hτ) hτ.2
  refine ⟨_, _, by simp only [visit, hc, unwrap, ok_bind, hvalue uses h.also]; rfl, ?_, ?_⟩
  · generalize hraised : (use uses c.1).join (assigned unused (use uses) c.2) = u at *
    have hle : use uses ≤ Function.update (use uses) c.1 u :=
      le_update_iff.mpr ⟨hjoin, fun _ _ => le_rfl⟩
    exact {
      above := by
        rw [use_update]
        exact h.above.trans hle
      below := by
        rw [use_update]
        exact hbelow
      settled := by
        intro j d hd hj
        rw [List.mem_append, not_or] at hj
        rw [use_update]
        refine ⟨?_, ?_⟩
        · by_cases hsame : u = use uses c.1
          · -- Nothing is raised.
            rw [hsame, Function.update_eq_self]
            by_cases hij : j = i
            · subst hij
              obtain rfl := Option.some.inj (hc.symm.trans hd)
              rwa [hsame] at hvalue'
            · exact (h.settled j d hd fun hq => (List.mem_cons.mp hq).elim hij hj.2).1
          · rw [if_neg hsame] at hj
            have hread : c.1 ∉ d.2.keys := fun hk =>
              hj.1 (List.mem_reverse.mpr (mem_dependents.mpr ⟨d, hd, hk⟩))
            have hsource : assigned unused (Function.update (use uses) c.1 u) d.2 =
                assigned unused (use uses) d.2 := by
              refine assigned_congr (fun k hk => Function.update_of_ne ?_ _ _) fun _ _ => rfl
              rintro rfl
              exact hread hk
            rw [hsource]
            by_cases hij : j = i
            · subst hij
              obtain rfl := Option.some.inj (hc.symm.trans hd)
              rwa [Function.update_self]
            · exact (h.settled j d hd fun hq => (List.mem_cons.mp hq).elim hij hj.2).1.trans
                (hle d.1)
        · by_cases hk : d.1 = c.1
          · rw [hk, Function.update_self]
            rfl
          · rw [Function.update_of_ne hk]
            refine (h.settled j d hd fun hq => ?_).2
            obtain rfl | hq := List.mem_cons.mp hq
            · exact hk (congrArg Prod.fst (Option.some.inj (hd.symm.trans hc)))
            · exact hj.2 hq
      queued := by
        intro j hj
        obtain hj | hj := List.mem_append.mp hj
        · split_ifs at hj
          · cases hj
          · obtain ⟨d, hd, -⟩ := mem_dependents.mp (List.mem_reverse.mp hj)
            exact (List.getElem?_eq_some_iff.mp hd).1
        · exact h.queued j (List.mem_cons_of_mem _ hj)
      entries := by
        intro k hk
        by_cases heq : k = c.1
        · exact .inr ⟨c, hmem, heq.symm⟩
        · rw [Function.update_of_ne heq] at hk
          exact h.entries k hk
      kept := by
        intro k hk
        by_cases heq : k = c.1
        · rw [heq, Function.update_self]
          rfl
        · rw [Function.update_of_ne heq]
          exact h.kept k hk
      also := hkeeps }
  · split_ifs with hsame
    · rw [hsame]
      refine le_of_eq ?_
      rw [List.length_nil, Nat.add_zero, room, room, use_update, Function.update_eq_self]
    · have hroom := room_update hmem hjoin hsame
      have hlen : (dependents constraints c.1).length ≤ reads constraints :=
        length_dependents_le c.1
      rw [List.length_reverse]
      omega

/-- A run ends with the least solution above what it starts from, with an entry for each target. -/
theorem run_least (unused : K → Bool) (unusedInvariant : Bool) (start : K → Option Use)
    (Kept : (K → Option Use) → Prop)
    (hvalue : ∀ uses, Kept uses → ∀ source : Source K,
      value unusedInvariant uses source = assigned unused (use uses) source)
    (hkept : ∀ uses c, Kept uses → c ∈ constraints → Kept (Function.update uses c.1
      (some ((use uses c.1).join (assigned unused (use uses) c.2)))))
    (hstart : Kept start) {fuel : ℕ}
    (hfuel : constraints.length * 2 * reads constraints + constraints.length ≤ fuel) :
    ∃ uses, run constraints unusedInvariant fuel start = .ok uses ∧
      IsLeast (solutions (assigned unused) constraints (use start)) (use uses) ∧
      (∀ k, (uses k).isSome = true ↔ (start k).isSome = true ∨ ∃ c ∈ constraints, c.1 = k) ∧
      Kept uses := by
  have hroom : room constraints start ≤ constraints.length * 2 * reads constraints := room_le start
  have hbegin : Running constraints unused start Kept start (List.range constraints.length) := {
    above := le_rfl
    below := fun τ hτ => hτ.1
    settled := fun i c hc hi =>
      absurd (List.mem_range.mpr (List.getElem?_eq_some_iff.mp hc).1) hi
    queued := fun i hi => List.mem_range.mp hi
    entries := fun k hk => .inl hk
    kept := fun k hk => hk
    also := hstart }
  have henough : room constraints start + (List.range constraints.length).length ≤ fuel := by
    rw [List.length_range]
    omega
  obtain ⟨uses, hrun, hrunning⟩ := Worklist.run_ok (Running constraints unused start Kept)
    (room constraints) (fun i uses queue h => visit_running hvalue hkept h) hbegin henough
  refine ⟨uses, hrun, ⟨⟨hrunning.above, fun c hc => ?_⟩, hrunning.below⟩, fun k => ⟨?_, ?_⟩,
    hrunning.also⟩
  · obtain ⟨i, hi⟩ := List.getElem?_of_mem hc
    exact (hrunning.settled i c hi (List.not_mem_nil)).1
  · exact hrunning.entries k
  · rintro (hk | ⟨c, hc, rfl⟩)
    · exact hrunning.kept k hk
    · obtain ⟨i, hi⟩ := List.getElem?_of_mem hc
      exact (hrunning.settled i c hi (List.not_mem_nil)).2

/-! ## Both phases -/

/-- The least solution of the constraints above what is fixed. -/
def FirstPhase (constraints : List (K × Source K)) (fixed : K → Use) : (K → Use) → Prop :=
  IsLeast (solutions (assigned fun _ => false) constraints fixed)

/-- The least solution above the first one in which unused own keys are invariant, and paths through
unused keys are. -/
def SecondPhase (constraints : List (K × Source K)) (own : List K) (first : K → Use) :
    (K → Use) → Prop :=
  IsLeast {σ | first ≤ σ ∧ (∀ k ∈ own, first k = .none → σ k = .both) ∧
    Solves (assigned fun k => decide (first k = .none)) constraints σ}

/-- The first solution with its unused own keys invariant. -/
def owned (own : List K) (first : K → Use) (key : K) : Use :=
  if key ∈ own ∧ first key = .none then .both else first key

theorem secondPhase_iff {own : List K} {first σ : K → Use} :
    SecondPhase constraints own first σ ↔
      IsLeast (solutions (assigned fun k => decide (first k = .none)) constraints (owned own first))
        σ := by
  have hset : ∀ τ : K → Use, (first ≤ τ ∧ ∀ k ∈ own, first k = .none → τ k = .both) ↔
      owned own first ≤ τ := by
    intro τ
    constructor
    · rintro ⟨hle, hown⟩ k
      rw [owned]
      split_ifs with h
      · rw [hown k h.1 h.2]
      · exact hle k
    · intro hle
      refine ⟨fun k => ?_, fun k hk hnone => ?_⟩
      · refine le_trans ?_ (hle k)
        rw [owned]
        split_ifs
        · exact Use.le_both _
        · exact le_rfl
      · have hk' := hle k
        rw [owned, if_pos ⟨hk, hnone⟩] at hk'
        exact Use.eq_both_of_le hk'
  rw [SecondPhase, solutions]
  simp only [← hset, and_assoc]

theorem use_settleOwn (own : List K) (uses : K → Option Use) :
    use (settleOwn own uses) = owned own (use uses) := by
  rw [settleOwn]
  suffices ∀ (l done : List K) (cur : K → Option Use), use cur = owned done (use uses) →
      use (l.foldl (fun cur key => Function.update cur key
        (some (if use cur key = .none then .both else use cur key))) cur) =
        owned (done ++ l) (use uses) by
    refine this own [] uses ?_
    funext k
    rw [owned, if_neg fun h => List.not_mem_nil h.1]
  intro l
  induction l with
  | nil => exact fun done cur h => by rw [List.append_nil]; exact h
  | cons key l ih =>
    intro done cur h
    rw [List.foldl_cons, List.append_cons]
    refine ih (done ++ [key]) _ ?_
    rw [use_update]
    funext k
    by_cases hk : k = key
    · subst hk
      rw [Function.update_self, h]
      by_cases hnone : use uses k = .none
      · rw [owned, owned, hnone]
        simp
      · simp only [owned, hnone, and_false, if_false]
    · rw [Function.update_of_ne hk, h, owned, owned]
      simp [hk]

theorem isSome_settleOwn (own : List K) (uses : K → Option Use) (k : K) :
    (settleOwn own uses k).isSome = true ↔ k ∈ own ∨ (uses k).isSome = true := by
  rw [settleOwn]
  induction own generalizing uses with
  | nil => simp
  | cons key own ih =>
    rw [List.foldl_cons, ih, List.mem_cons]
    by_cases hk : k = key
    · subst hk
      simp
    · rw [Function.update_of_ne hk]
      simp [hk]

/-- What has been changed since the first phase goes in both directions. -/
def Raised (first : K → Use) (uses : K → Option Use) : Prop :=
  ∀ k, use uses k = first k ∨ use uses k = .both

omit [DecidableEq K] in
/-- A key reads as invariant if it was unused in the first phase. -/
theorem value_raised {first : K → Use} {uses : K → Option Use} (h : Raised first uses)
    (source : Source K) :
    value true uses source = assigned (fun k => decide (first k = .none)) (use uses) source := by
  have hread : ∀ k, read true uses k = if first k = .none then .both else use uses k := by
    intro k
    rw [read]
    obtain hk | hk := h k <;> rw [hk]
    · cases hfirst : first k <;> simp
    · split_ifs <;> rfl
  cases source with
  | join key => rfl
  | path first' keys =>
    simp only [value, assigned, hread, decide_eq_true_eq]

omit [DecidableEq K] in
theorem value_eq (uses : K → Option Use) (source : Source K) :
    value false uses source = assigned (fun _ => false) (use uses) source := by
  have hread : ∀ k, read false uses k = use uses k := by
    intro k
    rw [read]
    cases use uses k <;> rfl
  cases source with
  | join key => rfl
  | path first keys =>
    simp only [value, assigned, hread, Bool.false_eq_true, if_false]

/-- A number of iterations that is enough for each phase. -/
def enough (constraints : List (K × Source K)) : ℕ :=
  constraints.length * 2 * reads constraints + constraints.length

/-- `solve` ends with the solution of its second phase, with an entry for each key that is fixed, a
target or own. -/
theorem solve_spec (own : List K) (fixed : K → Option Use) {fuel : ℕ}
    (hfuel : enough constraints ≤ fuel) : ∃ first uses,
      run constraints false fuel fixed = .ok first ∧
      solve fuel constraints own fixed = .ok uses ∧
      FirstPhase constraints (use fixed) (use first) ∧
      SecondPhase constraints own (use first) (use uses) ∧
      ∀ k, (uses k).isSome = true ↔
        k ∈ own ∨ (fixed k).isSome = true ∨ ∃ c ∈ constraints, c.1 = k := by
  obtain ⟨first, hfirst, hleast, hentries, -⟩ := run_least (fun _ => false) false fixed
    (fun _ => True) (fun uses _ => value_eq uses) (fun _ _ _ _ => trivial) trivial hfuel
  have hstart : Raised (use first) (settleOwn own first) := by
    intro k
    rw [use_settleOwn, owned]
    split_ifs
    · exact .inr rfl
    · exact .inl rfl
  obtain ⟨uses, huses, hleast', hentries', -⟩ := run_least
    (fun k => decide (use first k = .none)) true (settleOwn own first) (Raised (use first))
    (fun uses h => value_raised h) (by
      intro uses c h hc k
      rw [use_update]
      by_cases hk : k = c.1
      · subst hk
        rw [Function.update_self]
        obtain hvalue | hvalue := assigned_raised
          (fun k => decide (use first k = .none)) c.2 h
        · -- The source gives what it gave in the first phase.
          have hle := hleast.1.2 c hc
          rw [hvalue]
          obtain hk | hk := h c.1 <;> rw [hk]
          · exact .inl (sup_eq_left.mpr hle)
          · exact .inr (sup_eq_left.mpr (Use.le_both _))
        · rw [hvalue]
          exact .inr (sup_eq_right.mpr (Use.le_both _))
      · rw [Function.update_of_ne hk]
        exact h k) hstart hfuel
  rw [use_settleOwn] at hleast'
  refine ⟨first, uses, hfirst, ?_, hleast, secondPhase_iff.mpr hleast', fun k => ?_⟩
  · rw [solve, hfirst, ok_bind, huses]
  · rw [hentries', isSome_settleOwn, hentries]
    tauto

/-! ## Order -/

omit [DecidableEq K] in
/-- Maps with the same entries and uses are the same. -/
theorem uses_ext {uses uses' : K → Option Use} (h : use uses = use uses')
    (hentries : ∀ k, (uses k).isSome = true ↔ (uses' k).isSome = true) : uses = uses' := by
  funext k
  have hk := congrFun h k
  have he := hentries k
  rw [use, use] at hk
  cases h : uses k <;> cases h' : uses' k <;> simp_all

/-- The solution depends on what the constraints and own keys are, not on their order or number. -/
theorem solve_congr {constraints' : List (K × Source K)} {own own' : List K} (fixed : K → Option Use)
    {fuel : ℕ} (hfuel : enough constraints ≤ fuel) (hfuel' : enough constraints' ≤ fuel)
    (hconstraints : ∀ c, c ∈ constraints ↔ c ∈ constraints') (hown : ∀ k, k ∈ own ↔ k ∈ own') :
    solve fuel constraints own fixed = solve fuel constraints' own' fixed := by
  obtain ⟨first, uses, -, hsolve, hfirst, huses, hentries⟩ := solve_spec own fixed hfuel
  obtain ⟨first', uses', -, hsolve', hfirst', huses', hentries'⟩ := solve_spec own' fixed hfuel'
  rw [FirstPhase, solutions_congr hconstraints] at hfirst
  rw [hfirst.unique hfirst'] at huses
  have hset : SecondPhase constraints own (use first') (use uses) ↔
      SecondPhase constraints' own' (use first') (use uses) := by
    simp only [SecondPhase, Solves, hconstraints, hown]
  rw [hsolve, hsolve', uses_ext ((hset.mp huses).unique huses') fun k => ?_]
  rw [hentries, hentries']
  simp only [hown, hconstraints]

/-! ## Parts -/

/-- What goes in both directions in an assignment, and another assignment elsewhere. -/
def patch (above below : K → Use) (k : K) : Use :=
  if above k = .both then .both else below k

section Patch

omit [DecidableEq K]

variable {above below : K → Use}

theorem le_patch (above below : K → Use) : below ≤ patch above below := by
  intro k
  rw [patch]
  split_ifs
  · exact Use.le_both _
  · exact le_rfl

theorem patch_of_both (below : K → Use) {k : K} (h : above k = .both) :
    patch above below k = .both :=
  if_pos h

theorem patch_le (h : below ≤ above) : patch above below ≤ above := by
  intro k
  rw [patch]
  split_ifs with hk
  · rw [hk]
  · exact h k

/-- What is below such an assignment has been changed only to both directions. -/
theorem eq_of_le_patch (h : below ≤ above) (hle : above ≤ patch above below) (k : K) :
    above k = below k ∨ above k = .both := by
  have hk := hle k
  rw [patch] at hk
  split_ifs at hk with hboth
  · exact .inr hboth
  · exact .inl (le_antisymm hk (h k))

/-- It meets constraints that both assignments meet. -/
theorem patch_solves {unused : K → Bool} (h : below ≤ above)
    (hbelow : Solves (assigned fun _ => false) constraints below)
    (habove : Solves (assigned unused) constraints above) :
    Solves (assigned unused) constraints (patch above below) := by
  intro c hc
  have hraised : ∀ k, patch above below k = below k ∨ patch above below k = .both := by
    intro k
    rw [patch]
    split_ifs
    · exact .inr rfl
    · exact .inl rfl
  obtain hvalue | hvalue := assigned_raised unused c.2 hraised
  · rw [hvalue]
    exact (hbelow c hc).trans (le_patch above below c.1)
  · have hboth := (assigned_mono unused c.2 (patch_le h)).trans (habove c hc)
    dsimp only at hboth
    rw [hvalue] at hboth ⊢
    rw [patch_of_both below (Use.eq_both_of_le hboth)]

end Patch

section Modular

variable {rest : List (K × Source K)} {own own' : List K} {part : K → Bool}

omit [DecidableEq K] in
/-- What has been changed in the second phase goes in both directions. -/
theorem SecondPhase.raised {fixed first final : K → Use} (hfirst : FirstPhase constraints fixed first)
    (h : SecondPhase constraints own first final) (k : K) :
    final k = first k ∨ final k = .both := by
  obtain ⟨⟨hle, hown, hsolves⟩, hleast⟩ := h
  refine eq_of_le_patch hle (hleast ⟨le_patch _ _, fun k hk hnone => ?_, ?_⟩) k
  · exact patch_of_both _ (hown k hk hnone)
  · exact patch_solves hle hfirst.1.2 hsolves

/-- A closed part of a system, and the rest of it. -/
structure Split (closed rest : List (K × Source K)) (own own' : List K) (part : K → Bool) : Prop where
  closed : ∀ c ∈ closed, part c.1 = true ∧ ∀ k ∈ c.2.keys, part k = true
  rest : ∀ c ∈ rest, part c.1 = false
  own : ∀ k ∈ own, part k = true
  own' : ∀ k ∈ own', part k = false

/-- What is fixed for the rest of a system: the solved uses of the part, and what was fixed. -/
def merge (part : K → Bool) (solved fixed : K → Use) (k : K) : Use :=
  if part k = true then solved k else fixed k

omit [DecidableEq K] in
theorem merge_of_part (solved fixed : K → Use) {k : K} (hk : part k = true) :
    merge part solved fixed k = solved k :=
  if_pos hk

omit [DecidableEq K] in
/-- The sources of the part do not see what is outside of it. -/
theorem Split.assigned_merge {closed : List (K × Source K)} (h : Split closed rest own own' part)
    {c : K × Source K} (hc : c ∈ closed) {unused : K → Bool} (unused' : K → Bool)
    (solved fixed : K → Use)
    (hunused : ∀ k, part k = true → unused k = unused' k) :
    assigned unused (merge part solved fixed) c.2 = assigned unused' solved c.2 :=
  assigned_congr (fun k hk => merge_of_part solved fixed ((h.closed c hc).2 k hk))
    fun k hk => hunused k ((h.closed c hc).2 k hk)

variable {closed : List (K × Source K)} {fixed first final firstWhole finalWhole : K → Use}

omit [DecidableEq K] in
theorem Split.first_eq (h : Split closed rest own own' part) (hfirst : FirstPhase closed fixed first)
    (hwhole : FirstPhase (closed ++ rest) fixed firstWhole) {k : K} (hk : part k = true) :
    firstWhole k = first k := by
  obtain ⟨⟨hbase, hsolves⟩, hleast⟩ := hfirst
  obtain ⟨⟨hbase', hsolves'⟩, hleast'⟩ := hwhole
  have hup : firstWhole ≤ merge part first fun _ => .both := by
    refine hleast' ⟨fun k => ?_, solves_append.mpr ⟨fun c hc => ?_, fun c hc => ?_⟩⟩
    · rw [merge]
      split_ifs
      · exact hbase k
      · exact Use.le_both _
    · rw [merge_of_part _ _ (h.closed c hc).1,
        h.assigned_merge hc (fun _ => false) _ _ fun _ _ => rfl]
      exact hsolves c hc
    · rw [merge, h.rest c hc]
      exact Use.le_both _
  have hle := hup k
  rw [merge, if_pos hk] at hle
  exact le_antisymm hle (hleast ⟨hbase', (solves_append.mp hsolves').1⟩ k)

omit [DecidableEq K] in
theorem Split.final_eq (h : Split closed rest own own' part) (hfirst : FirstPhase closed fixed first)
    (hfinal : SecondPhase closed own first final)
    (hwhole : FirstPhase (closed ++ rest) fixed firstWhole)
    (hfinal' : SecondPhase (closed ++ rest) (own ++ own') firstWhole finalWhole) {k : K}
    (hk : part k = true) : finalWhole k = final k := by
  have heq := fun k hk => h.first_eq (k := k) hfirst hwhole hk
  obtain ⟨⟨hbase, hown, hsolves⟩, hleast⟩ := hfinal
  obtain ⟨⟨hbase', hown', hsolves'⟩, hleast'⟩ := hfinal'
  have hup : finalWhole ≤ merge part final fun _ => .both := by
    refine hleast' ⟨fun k => ?_, fun k hk hnone => ?_,
      solves_append.mpr ⟨fun c hc => ?_, fun c hc => ?_⟩⟩
    · rw [merge]
      split_ifs with hpart
      · rw [heq k hpart]
        exact hbase k
      · exact Use.le_both _
    · rw [merge]
      split_ifs with hpart
      · obtain hk | hk := List.mem_append.mp hk
        · exact hown k hk (heq k hpart ▸ hnone)
        · rw [h.own' k hk] at hpart
          cases hpart
      · rfl
    · rw [merge_of_part _ _ (h.closed c hc).1,
        h.assigned_merge hc (fun k => decide (first k = .none)) _ _
          fun k hk => by rw [heq k hk]]
      exact hsolves c hc
    · rw [merge, h.rest c hc]
      exact Use.le_both _
  have hlow : final ≤ merge part finalWhole fun _ => .both := by
    refine hleast ⟨fun k => ?_, fun k hk hnone => ?_, fun c hc => ?_⟩
    · rw [merge]
      split_ifs with hpart
      · rw [← heq k hpart]
        exact hbase' k
      · exact Use.le_both _
    · rw [merge, if_pos (h.own k hk)]
      exact hown' k (List.mem_append_left _ hk) ((heq k (h.own k hk)).trans hnone)
    · rw [merge_of_part _ _ (h.closed c hc).1,
        h.assigned_merge hc (fun k => decide (firstWhole k = .none)) _ _
          fun k hk => by rw [heq k hk]]
      exact (solves_append.mp hsolves').1 c hc
  have hle := hup k
  have hge := hlow k
  rw [merge, if_pos hk] at hle hge
  exact le_antisymm hle hge

variable {firstRest finalRest : K → Use}

/-- The rest of a system, with the solved uses of a closed part fixed, is solved as it is with the part. -/
theorem Split.eq (h : Split closed rest own own' part) (hfirst : FirstPhase closed fixed first)
    (hfinal : SecondPhase closed own first final)
    (hwhole : FirstPhase (closed ++ rest) fixed firstWhole)
    (hfinal' : SecondPhase (closed ++ rest) (own ++ own') firstWhole finalWhole)
    (hrest : FirstPhase rest (merge part final fixed) firstRest)
    (hfinal'' : SecondPhase rest own' firstRest finalRest) : finalRest = finalWhole := by
  have hpart := fun k hk => h.final_eq (k := k) hfirst hfinal hwhole hfinal' hk
  have hraised := hfinal'.raised hwhole
  -- In the part, the solution of the rest is what is fixed.
  have htarget : ∀ k, part k = true → ∀ c ∈ rest, c.1 ≠ k := by
    rintro k hk c hc rfl
    rw [h.rest c hc] at hk
    cases hk
  have hfirstPart : ∀ k, part k = true → firstRest k = finalWhole k := by
    intro k hk
    rw [eq_of_not_target (assigned_mono _) hrest (htarget k hk), merge, if_pos hk, hpart k hk]
  have hfinalPart : ∀ k, part k = true → finalRest k = finalWhole k := by
    intro k hk
    have hown : k ∉ own' := fun hmem => by
      rw [h.own' k hmem] at hk
      cases hk
    rw [eq_of_not_target (assigned_mono _) (secondPhase_iff.mp hfinal'') (htarget k hk), owned,
      if_neg fun hk' => hown hk'.1, hfirstPart k hk]
  obtain ⟨⟨hbase, hown, hsolves⟩, hleast⟩ := hfinal'
  obtain ⟨⟨hbase', hown', hsolves'⟩, hleast'⟩ := hfinal''
  obtain ⟨hclosed, hrests⟩ := solves_append.mp hsolves
  -- The first phase of the rest is between both phases of the whole.
  have hmerge : merge part final fixed ≤ finalWhole := by
    intro k
    rw [merge]
    split_ifs with hk
    · exact (hpart k hk).ge
    · exact (hwhole.1.1 k).trans (hbase k)
  have hup : firstRest ≤ finalWhole := by
    refine hrest.2 ⟨hmerge, fun c hc => ?_⟩
    exact (assigned_le c.2 (fun _ _ => le_rfl) fun _ _ hk => Bool.noConfusion hk).trans (hrests c hc)
  have hlow : firstWhole ≤ firstRest := by
    refine hwhole.2 ⟨fun k => ?_, solves_append.mpr ⟨fun c hc => ?_, hrest.1.2⟩⟩
    · refine le_trans ?_ (hrest.1.1 k)
      rw [merge]
      split_ifs with hk
      · rw [← hpart k hk]
        exact (hwhole.1.1 k).trans (hbase k)
      · exact le_rfl
    · obtain ⟨htarget, hkeys⟩ := h.closed c hc
      rw [hfirstPart _ htarget]
      refine le_trans (assigned_le c.2 (fun k hk => (hfirstPart k (hkeys k hk)).le)
        fun _ _ hk => Bool.noConfusion hk) (hclosed c hc)
  -- What it has more than the first phase of the whole goes in both directions.
  have hfirstRaised : ∀ k, firstRest k = firstWhole k ∨ firstRest k = .both := by
    refine eq_of_le_patch hlow (hrest.2 ⟨fun k => ?_, ?_⟩)
    · rw [merge]
      split_ifs with hk
      · rw [← hpart k hk, patch, hfirstPart k hk]
        split_ifs with hboth
        · exact Use.le_both _
        · exact ((hraised k).resolve_right hboth).le
      · exact (hwhole.1.1 k).trans (le_patch _ _ k)
    · exact patch_solves hlow (solves_append.mp hwhole.1.2).2 hrest.1.2
  have hunused : ∀ k, firstRest k = .none → firstWhole k = .none := fun k hk =>
    Use.eq_none_of_le (hk ▸ hlow k)
  refine le_antisymm (hleast' ⟨hup, fun k hk hnone => ?_, fun c hc => ?_⟩)
    (hleast ⟨hlow.trans hbase', fun k hk hnone => ?_, solves_append.mpr ⟨fun c hc => ?_,
      fun c hc => ?_⟩⟩)
  · exact hown k (List.mem_append_right _ hk) (hunused k hnone)
  · refine (assigned_le c.2 (fun _ _ => le_rfl) fun k _ hk => .inl ?_).trans (hrests c hc)
    exact decide_eq_true (hunused k (of_decide_eq_true hk))
  · obtain hmem | hmem := List.mem_append.mp hk
    · rw [hfinalPart k (h.own k hmem)]
      exact hown k hk hnone
    · obtain heq | hboth := hfirstRaised k
      · exact hown' k hmem (heq.trans hnone)
      · exact Use.eq_both_of_le (hboth ▸ hbase' k)
  · obtain ⟨htarget, hkeys⟩ := h.closed c hc
    rw [hfinalPart _ htarget, assigned_congr (fun k hk => hfinalPart k (hkeys k hk)) fun _ _ => rfl]
    exact hclosed c hc
  · refine (assigned_le c.2 (fun _ _ => le_rfl) fun k _ hk => ?_).trans (hsolves' c hc)
    obtain heq | hboth := hfirstRaised k
    · exact .inl (decide_eq_true (heq.trans (of_decide_eq_true hk)))
    · exact .inr (Use.eq_both_of_le (hboth ▸ hbase' k))

end Modular

/-- The uses of a part as they are recorded for the rest, as variances and without unused keys. -/
def recorded (part : K → Bool) (solved fixed : K → Option Use) (k : K) : Option Use :=
  if part k = true then
    if use solved k = .none then none else some (.of (use solved k).variance)
  else fixed k

omit [DecidableEq K] in
theorem use_recorded (part : K → Bool) (solved fixed : K → Option Use) :
    use (recorded part solved fixed) = merge part (use solved) (use fixed) := by
  funext k
  rw [use, recorded, merge]
  split_ifs with hk hnone
  · exact hnone.symm
  · rw [Use.of_variance hnone, Option.getD_some]
  · rfl

/-- Variance solving terminates. Its first phase is the least solution, and its result the least one
above it in which unused own keys and paths through unused keys are invariant. The result is the same
for constraints and own keys in another order or repeated. If a part of a system has constraints about
its own keys only, then solving the rest with what is recorded of the part gives every key outside of it
the use that it has when all is solved at once. -/
theorem solve_unique (constraints : List (K × Source K)) (own : List K) (fixed : K → Option Use) :
    (∃ N, ∀ fuel, N ≤ fuel → ∃ first uses, run constraints false fuel fixed = .ok first ∧
      solve fuel constraints own fixed = .ok uses ∧
      FirstPhase constraints (use fixed) (use first) ∧
      SecondPhase constraints own (use first) (use uses)) ∧
    (∀ constraints' own', (∀ c, c ∈ constraints ↔ c ∈ constraints') → (∀ k, k ∈ own ↔ k ∈ own') →
      ∃ N, ∀ fuel, N ≤ fuel →
        solve fuel constraints own fixed = solve fuel constraints' own' fixed) ∧
    ∀ closed rest ownClosed ownRest part, Split closed rest ownClosed ownRest part →
      (∀ c, c ∈ constraints ↔ c ∈ closed ++ rest) → (∀ k, k ∈ own ↔ k ∈ ownClosed ++ ownRest) →
      ∃ N, ∀ fuel, N ≤ fuel → ∃ uses solved rests, solve fuel constraints own fixed = .ok uses ∧
        solve fuel closed ownClosed fixed = .ok solved ∧
        solve fuel rest ownRest (recorded part solved fixed) = .ok rests ∧
        ∀ k, part k = false → use rests k = use uses k := by
  refine ⟨⟨enough constraints, fun fuel hfuel => ?_⟩, fun constraints' own' hconstraints hown =>
    ⟨max (enough constraints) (enough constraints'), fun fuel hfuel =>
      solve_congr fixed (le_of_max_le_left hfuel) (le_of_max_le_right hfuel) hconstraints hown⟩,
    fun closed rest ownClosed ownRest part hsplit hconstraints hown =>
      ⟨enough constraints + enough (closed ++ rest) + enough closed + enough rest,
        fun fuel hfuel => ?_⟩⟩
  · obtain ⟨first, uses, hrun, hsolve, hfirst, huses, -⟩ := solve_spec own fixed hfuel
    exact ⟨first, uses, hrun, hsolve, hfirst, huses⟩
  · have hclosed : enough closed ≤ fuel := by omega
    have hwhole : enough (closed ++ rest) ≤ fuel := by omega
    have hrest : enough rest ≤ fuel := by omega
    obtain ⟨first, solved, -, hsolve, hfirst, hsolved, -⟩ := solve_spec ownClosed fixed hclosed
    obtain ⟨firstWhole, uses, -, hsolve', hwhole, huses, -⟩ :=
      solve_spec (ownClosed ++ ownRest) fixed hwhole
    obtain ⟨firstRest, rests, -, hsolve'', hrest, hrests, -⟩ :=
      solve_spec ownRest (recorded part solved fixed) hrest
    rw [use_recorded] at hrest
    refine ⟨uses, solved, rests, ?_, hsolve, hsolve'', fun k _ => ?_⟩
    · rw [solve_congr fixed (by omega) (by omega) hconstraints hown, hsolve']
    · rw [hsplit.eq hfirst hsolved hwhole huses hrest hrests]

end Variance

end Dolang.Typeck
