import Dolang.Compile.Graph
import Mathlib.Data.Finset.Card
import Mathlib.Data.Finset.Range
import Mathlib.Logic.Relation

/-!
# The order of the blocks

`topologicalSort`, from `dolang-compile/src/emit.rs`, lists the blocks that a function reaches, in
the order in which they are emitted. A block that tests a condition falls through to one of its
successors. Where both of them have been placed already, a new block is placed behind it that only
branches on (a trampoline). `topologicalSort_spec` says what the order is like.
-/

namespace Dolang.Compile

open Dolang.Rust Dolang.Bytecode

/-- The successors of a block. -/
def Term.targets : Term → List Nat
  | .ret | .nlBranch .. | .elseFallthrough _ => []
  | .branch target => [target]
  | .cond onTrue onFalse | .unpackIf _ onTrue onFalse => [onTrue, onFalse]

/-- The state of `topological_sort_rec`. -/
structure Sorting where
  graph : Graph
  seen : List Nat
  out : List Nat
  deriving DecidableEq, Repr

/-- Places a block. -/
def Sorting.place (s : Sorting) (id : Nat) : Sorting :=
  { s with seen := id :: s.seen, out := s.out ++ [id] }

/-- Places a block and goes on from it, unless it has been placed. -/
def visit (go : Nat → Sorting → Exec Empty Sorting) (id : Nat) (s : Sorting) :
    Exec Empty Sorting :=
  if id ∈ s.seen then .ok s else go id (s.place id)

/-- Places a block that branches to `fid`, as the block that `id` falls through to. -/
def Sorting.trampoline (s : Sorting) (id : Nat) (block : Block) (tid fid : Nat) :
    Exec Empty Sorting := do
  let (graph, trampoline) ← s.graph.allocBlock block.func block.scope
  let blocks := graph.blocks.set trampoline ⟨[], .branch fid, block.scope, block.func⟩
  let blocks := blocks.set id { block with term := .cond tid trampoline }
  return { s with graph := { graph with blocks } }.place trampoline

/-- `topological_sort_rec`. Each call has placed one more block, which bounds their depth. -/
def topologicalSortRec : Nat → Nat → Sorting → Exec Empty Sorting
  | 0, _, _ => .error .fuel
  | fuel + 1, id, s => do
    let block ← unwrap s.graph.blocks[id]?
    match block.term with
    | .ret | .nlBranch .. | .elseFallthrough _ => .ok s
    | .branch bid => visit (topologicalSortRec fuel) bid s
    | .cond tid fid =>
      if tid ∈ s.seen ∧ fid ∈ s.seen then s.trampoline id block tid fid
      else do
        let s ← visit (topologicalSortRec fuel) tid s
        visit (topologicalSortRec fuel) fid s
    | .unpackIf _ tid fid => do
      let s ← visit (topologicalSortRec fuel) tid s
      visit (topologicalSortRec fuel) fid s

/-- `topological_sort`. -/
def topologicalSort (g : Graph) (enter : Nat) : Exec Empty Sorting :=
  topologicalSortRec (g.blocks.length + 1) enter ⟨g, [enter], [enter]⟩

/-! ## What the order is like -/

/-- One block leads to another one. -/
def Edge (g : Graph) (x y : Nat) : Prop := ∃ b, g.blocks[x]? = some b ∧ y ∈ b.term.targets

/-- The identifiers in a graph are of blocks and scopes of it. -/
structure Closed (g : Graph) : Prop where
  targets : ∀ x y, Edge g x y → y < g.blocks.length
  scopes : ∀ (x : Nat) (b : Block), g.blocks[x]? = some b → b.scope < g.scopes.length

/-- The block that an unpack leads to when it succeeds is not the first one, and no other block
leads to it. -/
def UnpacksAlone (g : Graph) (enter : Nat) : Prop :=
  ∀ (x : Nat) (b : Block) (sig t f : Nat), g.blocks[x]? = some b → b.term = .unpackIf sig t f →
    t ≠ enter ∧ ∀ y, Edge g y t → y = x

/-- One block comes right behind another one. -/
def Adjacent (out : List Nat) (x y : Nat) : Prop :=
  ∃ i, out[i]? = some x ∧ out[i + 1]? = some y

/-- A block that tests something falls through to one of its successors, and one that unpacks to the
one on success. -/
def FallsThrough (out : List Nat) (x : Nat) : Term → Prop
  | .cond t f => Adjacent out x t ∨ Adjacent out x f
  | .unpackIf _ t _ => Adjacent out x t
  | _ => True

/-- What has become of a block of the order. -/
inductive Placed (g : Graph) (s : Sorting) (x : Nat) : Prop where
  /-- It is as it was. -/
  | plain (b : Block) : g.blocks[x]? = some b → s.graph.blocks[x]? = some b →
      (∀ y ∈ b.term.targets, y ∈ s.out) → FallsThrough s.out x b.term → Placed g s x
  /-- It falls through to a trampoline. -/
  | split (b : Block) (t f trampoline : Nat) : g.blocks[x]? = some b → b.term = .cond t f →
      s.graph.blocks[x]? = some { b with term := .cond t trampoline } → t ∈ s.out →
      trampoline ∈ s.out → g.blocks.length ≤ trampoline →
      s.graph.blocks[trampoline]? = some ⟨[], .branch f, b.scope, b.func⟩ →
      Adjacent s.out x trampoline → Placed g s x
  /-- It is a trampoline. -/
  | trampoline (f scope func : Nat) : g.blocks.length ≤ x →
      s.graph.blocks[x]? = some ⟨[], .branch f, scope, func⟩ → f ∈ s.out → f < g.blocks.length →
      Placed g s x

/-- What holds while the blocks in `pending` are being visited, besides what holds of the others. -/
structure Inv (g : Graph) (enter : Nat) (s : Sorting) (pending : List Nat) : Prop where
  nodup : s.out.Nodup
  seen : ∀ x, x ∈ s.seen ↔ x ∈ s.out
  scopes : s.graph.scopes = g.scopes
  length : g.blocks.length ≤ s.graph.blocks.length
  lt : ∀ x ∈ s.out, x < s.graph.blocks.length
  pending_nodup : pending.Nodup
  pending_mem : ∀ x ∈ pending, x ∈ s.out ∧ x < g.blocks.length
  /-- A block that is not done is as it was. -/
  same : ∀ x < g.blocks.length, x ∉ s.out ∨ x ∈ pending → s.graph.blocks[x]? = g.blocks[x]?
  done : ∀ x ∈ s.out, x ∉ pending → Placed g s x
  /-- A block has been placed because another one leads to it. -/
  origin : ∀ x ∈ s.out, x < g.blocks.length → x = enter ∨ ∃ y ∈ s.out, Edge g y x
  /-- The blocks of the graph that have been placed can be reached. -/
  reached : ∀ x ∈ s.out, x < g.blocks.length → Relation.ReflTransGen (Edge g) enter x

/-- Only blocks other than `id` have led to what has been placed. -/
def Unentered (g : Graph) (enter : Nat) (s : Sorting) (id : Nat) : Prop :=
  ∀ x ∈ s.out, x < g.blocks.length → x = enter ∨ ∃ y ∈ s.out, y ≠ id ∧ Edge g y x

/-- The order grows, and the blocks that were placed before stay, except for one. -/
structure Grows (s s' : Sorting) (except : Option Nat) : Prop where
  out : s.out <+: s'.out
  blocks : ∀ x ∈ s.out, some x ≠ except → s'.graph.blocks[x]? = s.graph.blocks[x]?

theorem Grows.refl (s : Sorting) (except : Option Nat) : Grows s s except :=
  ⟨List.prefix_refl _, fun _ _ _ => rfl⟩

theorem Grows.trans {a b c : Sorting} {except : Option Nat} (hab : Grows a b except)
    (hbc : Grows b c except) : Grows a c except :=
  ⟨hab.out.trans hbc.out, fun x hx hne =>
    (hbc.blocks x (hab.out.subset hx) hne).trans (hab.blocks x hx hne)⟩

theorem Adjacent.mono {out out' : List Nat} {x y : Nat} (h : Adjacent out x y)
    (hout : out <+: out') : Adjacent out' x y := by
  obtain ⟨i, hx, hy⟩ := h
  obtain ⟨rest, rfl⟩ := hout
  exact ⟨i, getElem?_grow hx, getElem?_grow hy⟩

theorem FallsThrough.mono {out out' : List Nat} {x : Nat} {t : Term} (h : FallsThrough out x t)
    (hout : out <+: out') : FallsThrough out' x t := by
  cases t with
  | cond onTrue onFalse => exact h.imp (·.mono hout) (·.mono hout)
  | unpackIf sig onMatch onFail => exact Adjacent.mono h hout
  | _ => trivial

/-- What has become of a block stays so. -/
theorem Placed.mono {g : Graph} {s s' : Sorting} {x : Nat} (h : Placed g s x)
    (hx : x ∈ s.out) (hout : s.out <+: s'.out)
    (hblocks : ∀ y ∈ s.out, y = x ∨ g.blocks.length ≤ y →
      s'.graph.blocks[y]? = s.graph.blocks[y]?) : Placed g s' x := by
  cases h with
  | plain b hb hb' htargets hfall =>
    refine .plain b hb ((hblocks x hx (.inl rfl)).trans hb') (fun y hy => ?_) (hfall.mono hout)
    exact hout.subset (htargets y hy)
  | split b t f tr hb hterm hb' ht htr hle htr' hadj =>
    exact .split b t f tr hb hterm ((hblocks x hx (.inl rfl)).trans hb') (hout.subset ht)
      (hout.subset htr) hle ((hblocks tr htr (.inr hle)).trans htr') (hadj.mono hout)
  | trampoline f scope func hle hb hf hlt =>
    exact .trampoline f scope func hle ((hblocks x hx (.inl rfl)).trans hb) (hout.subset hf) hlt

section

variable {g : Graph} {enter : Nat} {s : Sorting} {pending : List Nat} {id : Nat}

/-- A pending block that turns out as it should is done. -/
theorem Inv.finish (h : Inv g enter s (id :: pending)) (hid : Placed g s id) :
    Inv g enter s pending := by
  have hnodup := List.nodup_cons.mp h.pending_nodup
  refine { h with
    pending_nodup := hnodup.2
    pending_mem := fun x hx => h.pending_mem x (List.mem_cons_of_mem _ hx)
    same := fun x hlt hx => h.same x hlt (hx.imp_right (List.mem_cons_of_mem _))
    done := fun x hx hne => ?_ }
  by_cases heq : x = id
  · exact heq ▸ hid
  · exact h.done x hx (by simp [heq, hne])

/-- The visit of a pending block can place one of its successors. -/
theorem Inv.place (h : Inv g enter s (id :: pending)) (hg : Closed g) {c : Nat}
    (hedge : Edge g id c) (hc : c ∉ s.out) :
    Inv g enter (s.place c) (c :: id :: pending) ∧ Unentered g enter (s.place c) c := by
  have hlt := hg.targets id c hedge
  obtain ⟨hid, hidlt⟩ := h.pending_mem id List.mem_cons_self
  have hmem : ∀ x, x ∈ (s.place c).out ↔ x ∈ s.out ∨ x = c := by
    intro x
    simp [Sorting.place]
  constructor
  · constructor
    · simp only [Sorting.place, List.nodup_append, List.mem_singleton]
      refine ⟨h.nodup, List.nodup_singleton c, ?_⟩
      rintro x hx y rfl rfl
      exact hc hx
    · intro x
      rw [hmem]
      simp [Sorting.place, h.seen, or_comm]
    · exact h.scopes
    · exact h.length
    · intro x hx
      rcases (hmem x).mp hx with hx | rfl
      · exact h.lt x hx
      · exact Nat.lt_of_lt_of_le hlt h.length
    · refine List.nodup_cons.mpr ⟨fun hin => hc ?_, h.pending_nodup⟩
      exact (h.pending_mem c hin).1
    · intro x hx
      rcases List.mem_cons.mp hx with rfl | hx
      · exact ⟨(hmem x).mpr (.inr rfl), hlt⟩
      · exact ⟨(hmem x).mpr (.inl (h.pending_mem x hx).1), (h.pending_mem x hx).2⟩
    · intro x hxlt hx
      apply h.same x hxlt
      rcases hx with hx | hx
      · exact .inl fun hin => hx ((hmem x).mpr (.inl hin))
      · rcases List.mem_cons.mp hx with rfl | hx
        · exact .inl hc
        · exact .inr hx
    · intro x hx hne
      have hxout : x ∈ s.out := by
        rcases (hmem x).mp hx with hx | rfl
        · exact hx
        · exact absurd List.mem_cons_self hne
      exact (h.done x hxout (fun hin => hne (List.mem_cons_of_mem _ hin))).mono hxout
        (List.prefix_append _ _) (fun _ _ _ => rfl)
    · intro x hx hxlt
      rcases (hmem x).mp hx with hx | rfl
      · exact (h.origin x hx hxlt).imp_right fun ⟨y, hy, he⟩ => ⟨y, (hmem y).mpr (.inl hy), he⟩
      · exact .inr ⟨id, (hmem id).mpr (.inl hid), hedge⟩
    · intro x hx hxlt
      rcases (hmem x).mp hx with hx | rfl
      · exact h.reached x hx hxlt
      · exact (h.reached id hid hidlt).tail hedge
  · intro x hx hxlt
    rcases (hmem x).mp hx with hx | rfl
    · refine (h.origin x hx hxlt).imp_right fun ⟨y, hy, he⟩ => ⟨y, (hmem y).mpr (.inl hy), ?_, he⟩
      rintro rfl
      exact hc hy
    · refine .inr ⟨id, (hmem id).mpr (.inl hid), ?_, hedge⟩
      rintro rfl
      exact hc hid

/-- A block whose successors have been placed gets a trampoline. -/
theorem Inv.trampoline (h : Inv g enter s (id :: pending)) (hg : Closed g)
    (hlast : s.out.getLast? = some id) {b : Block} {t f : Nat} (hb : g.blocks[id]? = some b)
    (hterm : b.term = .cond t f) (ht : t ∈ s.out) (hf : f ∈ s.out) :
    ∃ s', s.trampoline id b t f = .ok s' ∧ Inv g enter s' pending ∧ Grows s s' (some id) := by
  obtain ⟨hid, hidlt⟩ := h.pending_mem id List.mem_cons_self
  have hscope : ∃ sc, s.graph.scopes[b.scope]? = some sc := by
    rw [h.scopes]
    exact ⟨_, List.getElem?_eq_getElem (hg.scopes id b hb)⟩
  obtain ⟨sc, hsc⟩ := hscope
  have hflt : f < g.blocks.length := hg.targets id f ⟨b, hb, by simp [hterm, Term.targets]⟩
  have hidlt' := h.lt id hid
  -- The blocks afterwards, looked up by identifier.
  generalize hblocks : (((s.graph.blocks ++ [(⟨[], .ret, b.scope, b.func⟩ : Block)]).set
    s.graph.blocks.length ⟨[], .branch f, b.scope, b.func⟩).set id
      { b with term := .cond t s.graph.blocks.length }) = blocks
  have hself : blocks[id]? = some { b with term := .cond t s.graph.blocks.length } := by
    rw [← hblocks, List.getElem?_set_self (by simp; omega)]
  have hnew : blocks[s.graph.blocks.length]? = some ⟨[], .branch f, b.scope, b.func⟩ := by
    rw [← hblocks, List.getElem?_set_ne (by omega), List.getElem?_set_self (by simp)]
  have hold : ∀ x < s.graph.blocks.length, x ≠ id → blocks[x]? = s.graph.blocks[x]? := by
    intro x hx hne
    rw [← hblocks, List.getElem?_set_ne (Ne.symm hne), List.getElem?_set_ne (by omega),
      List.getElem?_append_left hx]
  have hlen : blocks.length = s.graph.blocks.length + 1 := by
    rw [← hblocks]
    simp
  have hnot : s.graph.blocks.length ∉ s.out := fun hin => Nat.lt_irrefl _ (h.lt _ hin)
  refine ⟨⟨{ s.graph with blocks }, s.graph.blocks.length :: s.seen,
    s.out ++ [s.graph.blocks.length]⟩, ?_, ?_, ?_⟩
  · rw [← hblocks]
    simp [Sorting.trampoline, Graph.allocBlock, hsc, unwrap, Sorting.place, pure, Except.pure]
  · have hadj : Adjacent (s.out ++ [s.graph.blocks.length]) id s.graph.blocks.length := by
      obtain ⟨front, hfront⟩ := List.getLast?_eq_some_iff.mp hlast
      exact ⟨front.length, by simp [hfront], by simp [hfront]⟩
    have hnodup := List.nodup_cons.mp h.pending_nodup
    constructor
    · simp only [List.nodup_append, List.mem_singleton]
      refine ⟨h.nodup, List.nodup_singleton _, ?_⟩
      rintro x hx y rfl rfl
      exact hnot hx
    · intro x
      simp [h.seen, or_comm]
    · exact h.scopes
    · have := h.length
      simp only [hlen]
      omega
    · intro x hx
      simp only [hlen]
      rcases List.mem_append.mp hx with hx | hx
      · have := h.lt x hx
        omega
      · have := List.mem_singleton.mp hx
        omega
    · exact hnodup.2
    · intro x hx
      have := h.pending_mem x (List.mem_cons_of_mem _ hx)
      exact ⟨List.mem_append_left _ this.1, this.2⟩
    · intro x hxlt hx
      have hne : x ≠ id := by
        rintro rfl
        rcases hx with hx | hx
        · exact hx (List.mem_append_left _ hid)
        · exact hnodup.1 hx
      have := h.length
      rw [hold x (by omega) hne]
      apply h.same x hxlt
      exact hx.imp (fun hx hin => hx (List.mem_append_left _ hin)) (List.mem_cons_of_mem _)
    · intro x hx hne
      rcases List.mem_append.mp hx with hx | hx
      · by_cases heq : x = id
        · subst heq
          exact .split b t f s.graph.blocks.length hb hterm hself (List.mem_append_left _ ht)
            (by simp) h.length hnew hadj
        · refine (h.done x hx (by simp [heq, hne])).mono hx (List.prefix_append _ _) ?_
          intro y hy hcase
          apply hold y (h.lt y hy)
          rcases hcase with rfl | hle
          · exact heq
          · omega
      · obtain rfl := List.mem_singleton.mp hx
        exact .trampoline f b.scope b.func h.length hnew (List.mem_append_left _ hf) hflt
    · intro x hx hxlt
      have := h.length
      rcases List.mem_append.mp hx with hx | hx
      · refine (h.origin x hx hxlt).imp_right fun hreached => ?_
        obtain ⟨y, hy, he⟩ := hreached
        exact ⟨y, List.mem_append_left _ hy, he⟩
      · have := List.mem_singleton.mp hx
        omega
    · intro x hx hxlt
      have := h.length
      rcases List.mem_append.mp hx with hx | hx
      · exact h.reached x hx hxlt
      · have := List.mem_singleton.mp hx
        omega
  · refine ⟨List.prefix_append _ _, fun x hx hne => hold x (h.lt x hx) ?_⟩
    rintro rfl
    exact hne rfl

/-- A list of different numbers below a bound is no longer than the bound. -/
theorem length_le_of_nodup {l : List Nat} {n : Nat} (hnodup : l.Nodup) (hlt : ∀ x ∈ l, x < n) :
    l.length ≤ n := by
  have hsub : l.toFinset ⊆ Finset.range n := by
    intro x hx
    exact Finset.mem_range.mpr (hlt x (List.mem_toFinset.mp hx))
  calc l.length = l.toFinset.card := (List.toFinset_card_of_nodup hnodup).symm
    _ ≤ (Finset.range n).card := Finset.card_le_card hsub
    _ = n := Finset.card_range n

/-- What one call of `topological_sort_rec` does. -/
def RecOk (g : Graph) (enter fuel : Nat) : Prop :=
  ∀ (id : Nat) (s : Sorting) (pending : List Nat), Inv g enter s (id :: pending) →
    Unentered g enter s id → s.out.getLast? = some id → g.blocks.length < fuel + pending.length + 1 →
    ∃ s', topologicalSortRec fuel id s = .ok s' ∧ Inv g enter s' pending ∧ Grows s s' (some id)

/-- A successor of the block that is visited is placed after a visit, and right behind it when it was
not before and nothing else has been. -/
theorem visit_spec {fuel : Nat} (hrec : RecOk g enter fuel) (hg : Closed g)
    (h : Inv g enter s (id :: pending)) {c : Nat} (hedge : Edge g id c)
    (hfuel : g.blocks.length < fuel + (id :: pending).length + 1) :
    ∃ s', visit (topologicalSortRec fuel) c s = .ok s' ∧ Inv g enter s' (id :: pending) ∧
      Grows s s' none ∧ c ∈ s'.out ∧
      (c ∉ s.out → s.out.getLast? = some id → Adjacent s'.out id c) := by
  unfold visit
  by_cases hc : c ∈ s.seen
  · rw [if_pos hc]
    have hin := (h.seen c).mp hc
    exact ⟨s, rfl, h, .refl s none, hin, fun hnot => absurd hin hnot⟩
  · rw [if_neg hc]
    have hnot : c ∉ s.out := fun hin => hc ((h.seen c).mpr hin)
    obtain ⟨hinv, hun⟩ := h.place hg hedge hnot
    obtain ⟨s', hs', hinv', hgrows⟩ := hrec c (s.place c) (id :: pending) hinv hun
      (by simp [Sorting.place]) hfuel
    refine ⟨s', hs', hinv', ⟨?_, fun x hx _ => ?_⟩, ?_, fun _ hlast => ?_⟩
    · exact (List.prefix_append _ _).trans hgrows.out
    · refine hgrows.blocks x (List.mem_append_left _ hx) ?_
      rintro ⟨⟩
      exact hnot hx
    · exact hgrows.out.subset (by simp [Sorting.place])
    · obtain ⟨front, hfront⟩ := List.getLast?_eq_some_iff.mp hlast
      refine Adjacent.mono ?_ hgrows.out
      exact ⟨front.length, by simp [Sorting.place, hfront], by simp [Sorting.place, hfront]⟩

/-- Two visits one after the other. -/
theorem visit_visit_spec {fuel : Nat} (hrec : RecOk g enter fuel) (hg : Closed g)
    (h : Inv g enter s (id :: pending)) {t f : Nat} (ht : Edge g id t) (hf : Edge g id f)
    (hlast : s.out.getLast? = some id)
    (hfuel : g.blocks.length < fuel + (id :: pending).length + 1) :
    ∃ s', (do
        let s ← visit (topologicalSortRec fuel) t s
        visit (topologicalSortRec fuel) f s) = .ok s' ∧
      Inv g enter s' (id :: pending) ∧ Grows s s' none ∧ t ∈ s'.out ∧ f ∈ s'.out ∧
      (t ∉ s.out → Adjacent s'.out id t) ∧ (t ∈ s.out → f ∉ s.out → Adjacent s'.out id f) := by
  obtain ⟨s₁, hs₁, hinv₁, hgrows₁, ht₁, hadj₁⟩ := visit_spec hrec hg h ht hfuel
  obtain ⟨s₂, hs₂, hinv₂, hgrows₂, hf₂, hadj₂⟩ := visit_spec hrec hg hinv₁ hf hfuel
  refine ⟨s₂, ?_, hinv₂, hgrows₁.trans hgrows₂, hgrows₂.out.subset ht₁, hf₂, fun hnot => ?_,
    fun hin hnot => ?_⟩
  · rw [hs₁, ok_bind, hs₂]
  · exact (hadj₁ hnot hlast).mono hgrows₂.out
  · -- The first visit has done nothing.
    have hsame : s₁ = s := by
      unfold visit at hs₁
      rw [if_pos ((h.seen t).mpr hin)] at hs₁
      exact (Except.ok.inj hs₁).symm
    rw [hsame] at hadj₂
    exact hadj₂ hnot hlast

theorem Grows.weaken {s s' : Sorting} (h : Grows s s' none) (except : Option Nat) :
    Grows s s' except :=
  ⟨h.out, fun x hx _ => h.blocks x hx (by simp)⟩

/-- Every call of `topological_sort_rec` that has enough fuel places what it should. -/
theorem recOk (hg : Closed g) (halone : UnpacksAlone g enter) (fuel : Nat) : RecOk g enter fuel := by
  induction fuel with
  | zero =>
    intro id s pending h _ _ hfuel
    have := length_le_of_nodup h.pending_nodup fun x hx => (h.pending_mem x hx).2
    simp only [List.length_cons] at this
    omega
  | succ fuel ih =>
    intro id s pending h hun hlast hfuel
    obtain ⟨hid, hidlt⟩ := h.pending_mem id List.mem_cons_self
    obtain ⟨b, hb⟩ : ∃ b, g.blocks[id]? = some b := ⟨_, List.getElem?_eq_getElem hidlt⟩
    have hb' : s.graph.blocks[id]? = some b :=
      (h.same id hidlt (.inr List.mem_cons_self)).trans hb
    have hfuel' : g.blocks.length < fuel + (id :: pending).length + 1 := by
      simp only [List.length_cons]
      omega
    -- A block that is left as it is, once its successors have been placed.
    have hfinish : ∀ s', Inv g enter s' (id :: pending) → Grows s s' none →
        (∀ y ∈ b.term.targets, y ∈ s'.out) → FallsThrough s'.out id b.term →
        Inv g enter s' pending ∧ Grows s s' (some id) := by
      intro s' hinv hgrows htargets hfall
      refine ⟨hinv.finish (.plain b hb ?_ htargets hfall), hgrows.weaken _⟩
      exact (hinv.same id hidlt (.inr List.mem_cons_self)).trans hb
    have hedge : ∀ y ∈ b.term.targets, Edge g id y := fun y hy => ⟨b, hb, hy⟩
    simp only [topologicalSortRec, hb', unwrap, ok_bind]
    cases hterm : b.term with
    | ret | nlBranch depth indicator | elseFallthrough kind =>
      refine ⟨s, rfl, hfinish s h (.refl s none) ?_ ?_⟩
      · simp [hterm, Term.targets]
      · simp [hterm, FallsThrough]
    | branch c =>
      rw [hterm] at hedge
      obtain ⟨s', hs', hinv, hgrows, hc, -⟩ :=
        visit_spec ih hg h (hedge c (by simp [Term.targets])) hfuel'
      refine ⟨s', hs', hfinish s' hinv hgrows ?_ ?_⟩
      · simpa [hterm, Term.targets] using hc
      · simp [hterm, FallsThrough]
    | cond t f =>
      rw [hterm] at hedge
      simp only
      by_cases hboth : t ∈ s.seen ∧ f ∈ s.seen
      · rw [if_pos hboth]
        exact h.trampoline hg hlast hb hterm ((h.seen t).mp hboth.1) ((h.seen f).mp hboth.2)
      · rw [if_neg hboth]
        obtain ⟨s', hs', hinv, hgrows, ht, hf, hadjt, hadjf⟩ := visit_visit_spec ih hg h
          (hedge t (by simp [Term.targets])) (hedge f (by simp [Term.targets])) hlast hfuel'
        refine ⟨s', hs', hfinish s' hinv hgrows ?_ ?_⟩
        · simp [hterm, Term.targets, ht, hf]
        · rw [hterm, FallsThrough]
          by_cases htin : t ∈ s.out
          · refine .inr (hadjf htin fun hfin => hboth ?_)
            exact ⟨(h.seen t).mpr htin, (h.seen f).mpr hfin⟩
          · exact .inl (hadjt htin)
    | unpackIf sig t f =>
      rw [hterm] at hedge
      obtain ⟨s', hs', hinv, hgrows, ht, hf, hadjt, -⟩ := visit_visit_spec ih hg h
        (hedge t (by simp [Term.targets])) (hedge f (by simp [Term.targets])) hlast hfuel'
      refine ⟨s', hs', hfinish s' hinv hgrows ?_ ?_⟩
      · simp [hterm, Term.targets, ht, hf]
      · rw [hterm, FallsThrough]
        refine hadjt fun htin => ?_
        -- Nothing can have led to the block on success before.
        obtain ⟨hne, hpred⟩ := halone id b sig t f hb hterm
        have htlt := hg.targets id t (hedge t (by simp [Term.targets]))
        rcases hun t htin htlt with heq | ⟨y, -, hyne, hy⟩
        · exact hne heq
        · exact hyne (hpred y hy)

/-- The blocks of the order are those that can be reached, each once, and trampolines. -/
theorem topologicalSort_spec (hg : Closed g) (halone : UnpacksAlone g enter)
    (henter : enter < g.blocks.length) :
    ∃ s, topologicalSort g enter = .ok s ∧ s.out.Nodup ∧ s.out.head? = some enter ∧
      (∀ x ∈ s.out, Placed g s x) ∧
      ∀ x < g.blocks.length, x ∈ s.out ↔ Relation.ReflTransGen (Edge g) enter x := by
  have hinit : Inv g enter ⟨g, [enter], [enter]⟩ [enter] := by
    constructor <;> simp +contextual [henter]
    exact .refl
  have hun : Unentered g enter ⟨g, [enter], [enter]⟩ enter := by
    intro x hx _
    exact .inl (List.mem_singleton.mp hx)
  obtain ⟨s, hs, hinv, hgrows⟩ := recOk hg halone (g.blocks.length + 1) enter _ [] hinit hun rfl
    (Nat.lt_succ_of_lt (Nat.lt_succ_self _))
  have hplaced : ∀ x ∈ s.out, Placed g s x := fun x hx => hinv.done x hx (by simp)
  obtain ⟨rest, hrest⟩ := hgrows.out
  refine ⟨s, hs, hinv.nodup, by rw [← hrest]; rfl, hplaced, fun x hxlt => ⟨fun hx => ?_, ?_⟩⟩
  · exact hinv.reached x hx hxlt
  · intro hreach
    clear hxlt
    induction hreach with
    | refl =>
      rw [← hrest]
      simp
    | @tail y z _ hedge ih =>
      obtain ⟨b, hb, hz⟩ := hedge
      cases hplaced y ih with
      | plain b' hb' _ htargets _ =>
        rw [hb] at hb'
        cases hb'
        exact htargets z hz
      | split b' t f tr hb' hterm _ ht htr hle htr' _ =>
        rw [hb] at hb'
        cases hb'
        rw [hterm] at hz
        simp only [Term.targets, List.mem_cons, List.not_mem_nil, or_false] at hz
        rcases hz with rfl | rfl
        · exact ht
        · -- The trampoline has been placed after the block that it branches to.
          cases hplaced tr htr with
          | plain b'' hb'' _ _ _ =>
            have := (List.getElem?_eq_some_iff.mp hb'').1
            omega
          | split b'' t' f' tr' hb'' =>
            have := (List.getElem?_eq_some_iff.mp hb'').1
            omega
          | trampoline f' scope func _ hb'' hf' _ =>
            rw [htr'] at hb''
            cases hb''
            exact hf'
      | trampoline f scope func hle =>
        have := (List.getElem?_eq_some_iff.mp hb).1
        omega

end

end Dolang.Compile
