import Mathlib.Algebra.GroupWithZero.Nat
import Dolang.Typeck.LiveLaws

/-!
# Slot liveness is exact

What a block needs of a slot, from its accesses and what its edges and handler need (`Needs`), is both
when the slot is live at its entry (`live_entry_iff`) and what its visit computes (`transfer_spec`).
A visit keeps `Inv`: the bits on the way are live slots, and no block has one that it does not need.
Each change sets one more bit, so the sweeps end, and they end where every block has what it needs,
which by induction along a path is every live slot (`holds_of_live`). What they end with is then the
live slots, whatever the order of the visits (`live_exact`).
-/

namespace Dolang.Typeck.Live

open Rust Cfg Accesses

variable {ir : Ir} {vars : List (List VarId)} {slots : FuncId → VarId → Option ℕ}

/-- What a block needs of a slot, with the accesses that are left of it and where the slot is
needed: it reads the slot first, its handler needs it, or it does not write it and some edge reads
it first or leads to where it is needed. -/
def Needs (ir : Ir) (slots : FuncId → VarId → Option ℕ) (P : BlockId → Prop) (data : Block)
    (rest : List (Access ℕ)) (slot : ℕ) : Prop :=
  ReadsFirst slot rest ∨ (∃ handler, data.handler = some handler ∧ P handler) ∨
    (.write slot ∉ rest ∧ ∃ l target, ir.Edge data l target ∧
      (ReadsFirst slot (Ir.onSlots slots data.func l) ∨
        .write slot ∉ Ir.onSlots slots data.func l ∧ P target))

theorem Needs.mono {P Q : BlockId → Prop} (h : ∀ id, P id → Q id) {data : Block}
    {rest : List (Access ℕ)} {slot : ℕ} (hneeds : Needs ir slots P data rest slot) :
    Needs ir slots Q data rest slot := by
  obtain hread | ⟨handler, hhandler, hP⟩ | ⟨hwrite, l, target, hedge, hread | ⟨hl, hP⟩⟩ := hneeds
  · exact .inl hread
  · exact .inr (.inl ⟨handler, hhandler, h _ hP⟩)
  · exact .inr (.inr ⟨hwrite, l, target, hedge, .inl hread⟩)
  · exact .inr (.inr ⟨hwrite, l, target, hedge, .inr ⟨hl, h _ hP⟩⟩)

/-- One more access before the rest of a block. -/
theorem needs_cons {P : BlockId → Prop} {data : Block} {a : Access ℕ} {rest : List (Access ℕ)}
    {slot : ℕ} : Needs ir slots P data (a :: rest) slot ↔
      (∃ handler, data.handler = some handler ∧ P handler) ∨ a = .read slot ∨
        a ≠ .write slot ∧ Needs ir slots P data rest slot := by
  unfold Needs
  rw [readsFirst_cons, List.mem_cons, not_or, ne_comm (a := a)]
  constructor
  · rintro ((h | ⟨hne, h⟩) | h | ⟨⟨hne, hrest⟩, h⟩)
    · exact .inr (.inl h)
    · exact .inr (.inr ⟨hne, .inl h⟩)
    · exact .inl h
    · exact .inr (.inr ⟨hne, .inr (.inr ⟨hrest, h⟩)⟩)
  · rintro (h | h | ⟨hne, h | h | ⟨hrest, h⟩⟩)
    · exact .inr (.inl h)
    · exact .inl (.inl h)
    · exact .inl (.inr ⟨hne, h⟩)
    · exact .inr (.inl h)
    · exact .inr (.inr ⟨⟨hne, hrest⟩, h⟩)

/-- The accesses of a block's slots. -/
abbrev accesses (ir : Ir) (slots : FuncId → VarId → Option ℕ) (id : BlockId) (data : Block) :
    List (Access ℕ) :=
  Ir.onSlots slots data.func (ir.blockAccesses id data)

/-- A slot is live at a point if the rest of the block needs it, where a slot is needed that is live
at the entry. -/
theorem live_point_iff {id : BlockId} {data : Block} (hdata : ir.blocks[id]? = some data) {slot : ℕ}
    (rest : List (Access ℕ)) {i : ℕ} (hrest : (accesses ir slots id data).drop i = rest)
    (hi : i ≤ (accesses ir slots id data).length) :
    Accesses.Live (ir.PointStep slots) slot ⟨id, i⟩ ↔
      Needs ir slots (fun b => Accesses.Live (ir.PointStep slots) slot ⟨b, 0⟩) data rest slot := by
  induction rest generalizing i with
  | nil =>
    have hlength : i = (accesses ir slots id data).length :=
      Nat.le_antisymm hi (List.drop_eq_nil_iff.mp hrest)
    rw [live_iff]
    constructor
    · rintro ⟨l, m, hstep, hlive⟩
      obtain ⟨block, hblock, h⟩ := hstep.inv
      obtain rfl := Option.some.inj (hdata.symm.trans hblock)
      obtain ⟨a, ha, -⟩ | ⟨handler, hhandler, rfl, rfl⟩ | ⟨-, l, target, hedge, rfl, rfl⟩ := h
      · have hlt := (List.getElem?_eq_some_iff.mp ha).1
        exact absurd hlt (Nat.not_lt.mpr (Nat.le_of_eq hlength.symm))
      · exact .inr (.inl ⟨handler, hhandler, (hlive.resolve_left (not_readsFirst_nil slot)).2⟩)
      · exact .inr (.inr ⟨List.not_mem_nil, l, target, hedge, hlive⟩)
    · rintro (hread | ⟨handler, hhandler, hlive⟩ | ⟨-, l, target, hedge, hlive⟩)
      · exact absurd hread (not_readsFirst_nil slot)
      · exact ⟨_, _, .raise hdata hhandler, .inr ⟨List.not_mem_nil, hlive⟩⟩
      · exact ⟨_, _, hlength ▸ .edge hdata hedge, hlive⟩
  | cons a rest ih =>
    have hlt : i < (accesses ir slots id data).length := by
      refine Nat.lt_of_not_le fun hle => ?_
      rw [List.drop_eq_nil_iff.mpr hle] at hrest
      cases hrest
    rw [List.drop_eq_getElem_cons hlt] at hrest
    obtain ⟨ha, hrest⟩ := List.cons.inj hrest
    have hget : (accesses ir slots id data)[i]? = some a := ha ▸ List.getElem?_eq_getElem hlt
    rw [live_iff, needs_cons, ← ih hrest hlt]
    constructor
    · rintro ⟨l, m, hstep, hlive⟩
      obtain ⟨block, hblock, h⟩ := hstep.inv
      obtain rfl := Option.some.inj (hdata.symm.trans hblock)
      obtain ⟨a', ha', rfl, rfl⟩ | ⟨handler, hhandler, rfl, rfl⟩ | ⟨hend, -⟩ := h
      · obtain rfl := Option.some.inj (hget.symm.trans ha')
        rw [readsFirst_cons, List.mem_singleton] at hlive
        obtain (hread | ⟨-, hread⟩) | ⟨hne, hlive⟩ := hlive
        · exact .inr (.inl hread)
        · exact absurd hread (not_readsFirst_nil slot)
        · exact .inr (.inr ⟨Ne.symm hne, hlive⟩)
      · exact .inl ⟨handler, hhandler, (hlive.resolve_left (not_readsFirst_nil slot)).2⟩
      · exact absurd hlt (Nat.not_lt.mpr (Nat.le_of_eq hend.symm))
    · rintro (⟨handler, hhandler, hlive⟩ | rfl | ⟨hne, hlive⟩)
      · exact ⟨_, _, .raise hdata hhandler, .inr ⟨List.not_mem_nil, hlive⟩⟩
      · exact ⟨_, _, .access hdata hget, .inl (readsFirst_cons.mpr (.inl rfl))⟩
      · refine ⟨_, _, .access hdata hget, .inr ⟨?_, hlive⟩⟩
        exact fun hmem => hne (List.mem_singleton.mp hmem).symm

/-- A slot is live at the entry of a block if the block needs it. -/
theorem live_entry_iff {id : BlockId} {data : Block} (hdata : ir.blocks[id]? = some data)
    {slot : ℕ} : Accesses.Live (ir.PointStep slots) slot ⟨id, 0⟩ ↔
      Needs ir slots (fun b => Accesses.Live (ir.PointStep slots) slot ⟨b, 0⟩) data
        (accesses ir slots id data) slot :=
  live_point_iff hdata _ List.drop_zero (Nat.zero_le _)

/-- Where every block has the slots that it needs, it has the live ones. -/
theorem holds_of_live (h : ir.Valid vars slots) {slot : ℕ} {P : BlockId → Prop}
    (hsettled : ∀ id data, ir.blocks[id]? = some data →
      Needs ir slots P data (accesses ir slots id data) slot → P id) {id : BlockId} {data : Block}
    (hdata : ir.blocks[id]? = some data)
    (hlive : Accesses.Live (ir.PointStep slots) slot ⟨id, 0⟩) : P id := by
  -- The induction is along the path: at each of its points, the rest of the block needs the slot.
  have hpoint : ∀ p : Ir.Point, Accesses.Live (ir.PointStep slots) slot p →
      ∀ data, ir.blocks[p.block]? = some data →
        Needs ir slots P data ((accesses ir slots p.block data).drop p.done) slot := by
    intro p hp
    refine hp.rec_on_path (P := fun p => ∀ data, ir.blocks[p.block]? = some data →
      Needs ir slots P data ((accesses ir slots p.block data).drop p.done) slot) ?_ ?_
    · intro p l q hstep hread data hdata
      obtain ⟨block, hblock, hcase⟩ := hstep.inv
      obtain rfl := Option.some.inj (hdata.symm.trans hblock)
      obtain ⟨a, ha, rfl, rfl⟩ | ⟨-, -, rfl, -⟩ | ⟨hend, l, target, hedge, rfl, rfl⟩ := hcase
      · obtain ⟨hlt, ha⟩ := List.getElem?_eq_some_iff.mp ha
        rw [List.drop_eq_getElem_cons hlt, ha]
        obtain rfl | ⟨-, hread⟩ := readsFirst_cons.mp hread
        · exact needs_cons.mpr (.inr (.inl rfl))
        · exact absurd hread (not_readsFirst_nil slot)
      · exact absurd hread (not_readsFirst_nil slot)
      · rw [List.drop_eq_nil_iff.mpr (Nat.le_of_eq hend.symm)]
        exact .inr (.inr ⟨List.not_mem_nil, l, target, hedge, .inl hread⟩)
    · intro p l q hstep hwrite hneeds data hdata
      obtain ⟨block, hblock, hcase⟩ := hstep.inv
      obtain rfl := Option.some.inj (hdata.symm.trans hblock)
      have hvalid := h.blocks data (List.mem_of_getElem? hdata)
      have henter : ∀ target, ir.Within data.func target → q = ⟨target, 0⟩ → P target := by
        rintro target ⟨next, hnext, -⟩ rfl
        have hentry := hneeds next hnext
        rw [List.drop_zero] at hentry
        exact hsettled target next hnext hentry
      obtain ⟨a, ha, rfl, rfl⟩ | ⟨handler, hhandler, rfl, rfl⟩ |
        ⟨hend, l, target, hedge, rfl, rfl⟩ := hcase
      · obtain ⟨hlt, ha⟩ := List.getElem?_eq_some_iff.mp ha
        rw [List.drop_eq_getElem_cons hlt, ha]
        refine needs_cons.mpr (.inr (.inr ⟨fun heq => hwrite ?_, hneeds data hdata⟩))
        exact List.mem_singleton.mpr heq.symm
      · exact .inr (.inl ⟨handler, hhandler, henter handler (hvalid.handler handler hhandler) rfl⟩)
      · rw [List.drop_eq_nil_iff.mpr (Nat.le_of_eq hend.symm)]
        refine .inr (.inr ⟨List.not_mem_nil, l, target, hedge, .inr ⟨hwrite, henter target ?_ rfl⟩⟩)
        exact h.within_of_edge (List.mem_of_getElem? hdata) hedge
  have hneeds := hpoint _ hlive data hdata
  rw [List.drop_zero] at hneeds
  exact hsettled id data hdata hneeds

/-! ### The sweep -/

/-- A slot is among the live ones of a block. -/
def LiveAt (live : List BitBox) (id : BlockId) (slot : ℕ) : Prop :=
  ∃ bits, live[id]? = some bits ∧ bits.Has slot

/-- Each block has as many bits as its function has slots. -/
structure Sized (ir : Ir) (vars : List (List VarId)) (live : List BitBox) : Prop where
  length : live.length = ir.blocks.length
  width : ∀ (id : BlockId) (data : Block) (names : List VarId) (bits : BitBox),
    ir.blocks[id]? = some data → vars[data.func]? = some names →
    live[id]? = some bits → bits.length = names.length

/-- The pass over the blocks has gathered each. -/
structure GatheredAll (ir : Ir) (vars : List (List VarId)) (slots : FuncId → VarId → Option ℕ)
    (gathered : List Gathered) : Prop where
  length : gathered.length = ir.blocks.length
  each : ∀ (id : BlockId) (data : Block) (names : List VarId) (g : Gathered),
    ir.blocks[id]? = some data → vars[data.func]? = some names → gathered[id]? = some g →
      Gathered.Of ir slots id data names.length g

variable {gathered : List Gathered} {live : List BitBox} {data : Block} {names : List VarId}

theorem liveAt_iff {id : BlockId} {bits : BitBox} (h : live[id]? = some bits) {slot : ℕ} :
    LiveAt live id slot ↔ bits.Has slot := by
  constructor
  · rintro ⟨bits', hbits', hhas⟩
    exact Option.some.inj (hbits'.symm.trans h) ▸ hhas
  · exact fun hhas => ⟨bits, h, hhas⟩

/-- The bits of a block of the same function. -/
theorem Sized.within (h : Sized ir vars live) (hnames : vars[data.func]? = some names)
    {target : BlockId} (hwithin : ir.Within data.func target) :
    ∃ bits, live[target]? = some bits ∧ bits.length = names.length := by
  obtain ⟨next, hnext, hfunc⟩ := hwithin
  have hlt : target < live.length := h.length.symm ▸ (List.getElem?_eq_some_iff.mp hnext).1
  have hbits := List.getElem?_eq_getElem hlt
  exact ⟨_, hbits, h.width target next names _ hnext (hfunc.symm ▸ hnames) hbits⟩

/-- A join of what some targets give. -/
theorem join_spec {give : BlockId → Exec Empty BitBox} {width : ℕ} {G : BlockId → ℕ → Prop}
    {targets : List BlockId} (hgive : ∀ target ∈ targets, ∃ bits, give target = .ok bits ∧
      bits.length = width ∧ ∀ slot, bits.Has slot ↔ G target slot) {out : BitBox}
    (hout : out.length = width) : ∃ out', join give targets out = .ok out' ∧ out'.length = width ∧
      ∀ slot, out'.Has slot ↔ out.Has slot ∨ ∃ target ∈ targets, G target slot := by
  induction targets generalizing out with
  | nil => exact ⟨out, rfl, hout, fun slot => by simp⟩
  | cons target targets ih =>
    obtain ⟨bits, hbits, hlength, hhas⟩ := hgive target List.mem_cons_self
    obtain ⟨out₁, hunion, hlength₁, hhas₁⟩ :=
      BitBox.union_ok _ _ (Nat.le_of_eq (hlength.trans hout.symm))
    obtain ⟨out₂, hjoin, hlength₂, hhas₂⟩ :=
      ih (fun t ht => hgive t (List.mem_cons_of_mem _ ht)) (hlength₁.trans hout)
    refine ⟨out₂, by rw [join, hbits, ok_bind, hunion, ok_bind, hjoin], hlength₂, fun slot => ?_⟩
    rw [hhas₂, hhas₁, hhas, or_assoc]
    simp only [List.mem_cons, exists_eq_or_imp]

/-- A terminal without a pattern accesses nothing along its edges. -/
theorem edges_of_plain {terminal : Terminal} (h : matched terminal = none) :
    terminal.edges = terminal.successors.map ([], ·) := by
  cases terminal with
  | unpack => cases h
  | next => cases h
  | _ => rfl

/-- A terminal with a pattern has one other edge. -/
theorem edges_of_matched {terminal : Terminal} {pattern : Pattern} {target : BlockId}
    (h : matched terminal = some (pattern, target)) (hdistinct : terminal.Distinct) :
    ∃ other, target ≠ other ∧ terminal.successors = [target, other] ∧
      terminal.edges = [(pattern.accesses, target), ([], other)] := by
  cases terminal with
  | unpack p value onThen onElse =>
    obtain ⟨rfl, rfl⟩ := Prod.mk.inj (Option.some.inj h)
    exact ⟨onElse, hdistinct, rfl, rfl⟩
  | next iter p body exit =>
    obtain ⟨rfl, rfl⟩ := Prod.mk.inj (Option.some.inj h)
    exact ⟨exit, hdistinct, rfl, rfl⟩
  | _ => cases h

/-- What an edge with some accesses needs of a slot, where its target has the live slots. -/
def EdgeNeeds (slots : FuncId → VarId → Option ℕ) (live : List BitBox) (data : Block)
    (l : List (Access VarId)) (target : BlockId) (slot : ℕ) : Prop :=
  ReadsFirst slot (Ir.onSlots slots data.func l) ∨
    .write slot ∉ Ir.onSlots slots data.func l ∧ LiveAt live target slot

theorem edgeNeeds_nil {target : BlockId} {slot : ℕ} :
    EdgeNeeds slots live data [] target slot ↔ LiveAt live target slot := by
  unfold EdgeNeeds Ir.onSlots
  simp [not_readsFirst_nil]

/-- The bits of a successor, through the edge to it. -/
theorem through_spec (hsized : Sized ir vars live) (hnames : vars[data.func]? = some names)
    (hvalid : ir.BlockValid data) (hdistinct : data.terminal.Distinct) {id : BlockId}
    {own : Gathered}
    (hown : Gathered.Of ir slots id data names.length own) {target : BlockId}
    (htarget : target ∈ data.terminal.successors) :
    ∃ bits, through live own.edge target = .ok bits ∧ bits.length = names.length ∧
      ∀ slot, bits.Has slot ↔
        ∃ l, (l, target) ∈ data.terminal.edges ∧ EdgeNeeds slots live data l target slot := by
  obtain ⟨bits, hbits, hlength⟩ := hsized.within hnames (hvalid.successors target htarget)
  have hlive : ∀ slot, LiveAt live target slot ↔ bits.Has slot := fun slot => liveAt_iff hbits
  rw [through, hbits]
  cases hm : matched data.terminal with
  | none =>
    rw [hown.plain hm, edges_of_plain hm]
    refine ⟨bits, rfl, hlength, fun slot => ?_⟩
    constructor
    · intro hhas
      exact ⟨[], List.mem_map.mpr ⟨target, htarget, rfl⟩, edgeNeeds_nil.mpr ((hlive slot).mpr hhas)⟩
    · rintro ⟨l, hmem, hneeds⟩
      obtain ⟨target', -, heq⟩ := List.mem_map.mp hmem
      obtain ⟨rfl, -⟩ := Prod.mk.inj heq
      exact (hlive slot).mp (edgeNeeds_nil.mp hneeds)
  | some bound =>
    obtain ⟨pattern, bound⟩ := bound
    obtain ⟨t, hedge, ht⟩ := hown.bound pattern bound hm
    obtain ⟨other, hne, hsuccessors, hedges⟩ := edges_of_matched hm hdistinct
    rw [hedge, hedges]
    by_cases heq : bound = target
    · subst heq
      obtain ⟨cleared, hclear, hlength₁, hhas₁⟩ :=
        BitBox.clear_ok _ _ (Nat.le_of_eq (ht.defsLength.trans hlength.symm))
      obtain ⟨joined, hunion, hlength₂, hhas₂⟩ := BitBox.union_ok cleared _
        (Nat.le_of_eq (ht.usesLength.trans (hlength₁.trans hlength).symm))
      refine ⟨joined, ?_, hlength₂.trans (hlength₁.trans hlength), fun slot => ?_⟩
      · change (if bound = bound then _ else _) = _
        rw [if_pos rfl, hclear, ok_bind, hunion]
      · rw [hhas₂, hhas₁, ht.uses, ht.defs, ← hlive]
        constructor
        · rintro (⟨hl, hwrite⟩ | hread)
          · exact ⟨_, List.mem_cons_self, .inr ⟨hwrite, hl⟩⟩
          · exact ⟨_, List.mem_cons_self, .inl hread⟩
        · rintro ⟨l, hmem, hneeds⟩
          obtain heq | heq := List.mem_cons.mp hmem
          · obtain ⟨rfl, -⟩ := Prod.mk.inj heq
            exact hneeds.elim .inr fun h => .inl ⟨h.2, h.1⟩
          · exact absurd (Prod.mk.inj (List.mem_singleton.mp heq)).2 hne
    · -- The other target is reached without the pattern's accesses.
      have hother : target = other := by
        rw [hsuccessors, List.mem_cons, List.mem_singleton] at htarget
        exact htarget.resolve_left (Ne.symm heq)
      refine ⟨bits, ?_, hlength, fun slot => ?_⟩
      · change (if bound = target then _ else _) = _
        rw [if_neg heq]
        rfl
      · rw [← hlive]
        constructor
        · intro hl
          exact ⟨[], hother ▸ List.mem_cons_of_mem _ List.mem_cons_self, edgeNeeds_nil.mpr hl⟩
        · rintro ⟨l, hmem, hneeds⟩
          obtain hfirst | hmem := List.mem_cons.mp hmem
          · exact absurd (Prod.mk.inj hfirst).2.symm heq
          · obtain ⟨rfl, -⟩ := Prod.mk.inj (List.mem_singleton.mp hmem)
            exact edgeNeeds_nil.mp hneeds

/-- Where the `finally` bodies of a block's function and depth end continuing to. -/
theorem mem_ends (hgathered : GatheredAll ir vars slots gathered) (h : ir.Valid vars slots)
    {key : FuncId × ℕ} {target : BlockId} : target ∈ ends gathered key ↔
      ∃ leave ∈ ir.blocks, ∃ entry entered, leave.terminal = .leave entry (.goto target) ∧
        ir.blocks[entry]? = some entered ∧ key = (leave.func, entered.depth) := by
  rw [ends, List.mem_filterMap]
  constructor
  · rintro ⟨g, hg, hsome⟩
    obtain ⟨⟨k, target'⟩, hend, hif⟩ := Option.bind_eq_some_iff.mp hsome
    dsimp only at hif
    split_ifs at hif with hk
    obtain rfl := hk
    obtain rfl := Option.some.inj hif
    obtain ⟨id, hid⟩ := List.getElem?_of_mem hg
    have hlt : id < ir.blocks.length := hgathered.length ▸ (List.getElem?_eq_some_iff.mp hid).1
    have hmem := List.getElem_mem hlt
    obtain ⟨func, names, -, hnames, -⟩ := exists_names h hmem
    have hof := hgathered.each id _ names g (List.getElem?_eq_getElem hlt) hnames hid
    exact ⟨_, hmem, (hof.ends k target').mp hend⟩
  · rintro ⟨leave, hleave, hends⟩
    obtain ⟨id, hid⟩ := List.getElem?_of_mem hleave
    obtain ⟨func, names, -, hnames, -⟩ := exists_names h hleave
    have hlt : id < gathered.length :=
      hgathered.length.symm ▸ (List.getElem?_eq_some_iff.mp hid).1
    have hof := hgathered.each id leave names _ hid hnames (List.getElem?_eq_getElem hlt)
    refine ⟨_, List.getElem_mem hlt, ?_⟩
    rw [(hof.ends key target).mpr hends]
    exact if_pos rfl

/-- What a block's end joins: what its edges need. -/
theorem out_spec (hgathered : GatheredAll ir vars slots gathered) (h : ir.Valid vars slots)
    (hsized : Sized ir vars live) (hdata : data ∈ ir.blocks)
    (hnames : vars[data.func]? = some names)
    (hdistinct : data.terminal.Distinct) {id : BlockId} {own : Gathered}
    (hown : Gathered.Of ir slots id data names.length own) :
    ∃ bits, out gathered data own live (.zeros names.length) = .ok bits ∧
      bits.length = names.length ∧ ∀ slot, bits.Has slot ↔
        ∃ l target, ir.Edge data l target ∧ EdgeNeeds slots live data l target slot := by
  have hvalid := h.blocks data hdata
  obtain ⟨bits, hjoin, hlength, hhas⟩ := join_spec
    (fun target ht => through_spec hsized hnames hvalid hdistinct hown ht)
    (show (BitBox.zeros names.length).length = names.length from List.length_replicate)
  have hcontinues : ∀ slot, bits.Has slot ↔ ∃ l target, (l, target) ∈ data.terminal.edges ∧
      EdgeNeeds slots live data l target slot := by
    intro slot
    rw [hhas]
    constructor
    · rintro (hzero | ⟨target, -, l, hedge, hneeds⟩)
      · exact absurd hzero (BitBox.not_has_zeros _ _)
      · exact ⟨l, target, hedge, hneeds⟩
    · rintro ⟨l, target, hedge, hneeds⟩
      exact .inr ⟨target, Terminal.mem_successors hedge, l, hedge, hneeds⟩
  by_cases hend : data.terminal = .endFinally
  · -- A `finally` body has no other edges.
    have hgive : ∀ target ∈ ends gathered (data.func, data.depth), ∃ bits,
        (unwrap live[target]? : Exec Empty BitBox) = .ok bits ∧ bits.length = names.length ∧
          ∀ slot, bits.Has slot ↔ LiveAt live target slot := by
      intro target ht
      obtain ⟨leave, hleave, entry, entered, hterminal, -, hkey⟩ := (mem_ends hgathered h).mp ht
      have hwithin := (h.blocks leave hleave).leave entry target hterminal
      rw [← (Prod.mk.inj hkey).1] at hwithin
      obtain ⟨bits, hbits, hlength⟩ := hsized.within hnames hwithin
      exact ⟨bits, unwrap_eq_ok.mpr hbits, hlength, fun slot => (liveAt_iff hbits).symm⟩
    obtain ⟨bits', hjoin', hlength', hhas'⟩ := join_spec hgive hlength
    refine ⟨bits', ?_, hlength', fun slot => ?_⟩
    · rw [out, hjoin, ok_bind, hend]
      exact hjoin'
    · rw [hhas', hcontinues, hend]
      constructor
      · rintro (⟨l, target, hedge, -⟩ | ⟨target, ht, hlive⟩)
        · exact absurd hedge List.not_mem_nil
        · obtain ⟨leave, hleave, entry, entered, hterminal, hentered, hkey⟩ :=
            (mem_ends hgathered h).mp ht
          obtain ⟨hfunc, hdepth⟩ := Prod.mk.inj hkey
          exact ⟨[], target, .ends hend hleave hterminal hfunc.symm hentered hdepth.symm,
            edgeNeeds_nil.mpr hlive⟩
      · rintro ⟨l, target, hedge, hneeds⟩
        cases hedge with
        | continues hmem =>
          rw [hend] at hmem
          exact absurd hmem List.not_mem_nil
        | ends _ hleave hterminal hfunc hentry hdepth =>
          refine .inr ⟨target, (mem_ends hgathered h).mpr ?_, edgeNeeds_nil.mp hneeds⟩
          exact ⟨_, hleave, _, _, hterminal, hentry, by rw [hfunc, hdepth]⟩
  · refine ⟨bits, ?_, hlength, fun slot => ?_⟩
    · rw [out, hjoin, ok_bind]
      split
      · exact absurd ‹_› hend
      · rfl
    · rw [hcontinues]
      constructor
      · rintro ⟨l, target, hmem, hneeds⟩
        exact ⟨l, target, .continues hmem, hneeds⟩
      · rintro ⟨l, target, hedge, hneeds⟩
        cases hedge with
        | continues hmem => exact ⟨l, target, hmem, hneeds⟩
        | ends h => exact absurd h hend

/-- The live slots that a visit computes are those that the block needs. -/
theorem transfer_spec (hgathered : GatheredAll ir vars slots gathered) (h : ir.Valid vars slots)
    (hdistinct : ∀ block ∈ ir.blocks, block.terminal.Distinct) (hsized : Sized ir vars live)
    {id : BlockId} (hdata : ir.blocks[id]? = some data) (hnames : vars[data.func]? = some names) :
    ∃ bits, transfer ir vars gathered id live = .ok bits ∧ bits.length = names.length ∧
      ∀ slot, bits.Has slot ↔
        Needs ir slots (LiveAt live · slot) data (accesses ir slots id data) slot := by
  have hmem := List.mem_of_getElem? hdata
  have hlt : id < gathered.length :=
    hgathered.length.symm ▸ (List.getElem?_eq_some_iff.mp hdata).1
  have hget := List.getElem?_eq_getElem hlt
  have hown := hgathered.each id data names _ hdata hnames hget
  generalize gathered[id] = own at hget hown
  obtain ⟨bits, hout, hlength, hhas⟩ :=
    out_spec hgathered h hsized hmem hnames (hdistinct data hmem) hown
  obtain ⟨cleared, hclear, hlength₁, hhas₁⟩ := BitBox.clear_ok _ _
    (Nat.le_of_eq (hown.transfer.defsLength.trans hlength.symm))
  obtain ⟨joined, hunion, hlength₂, hhas₂⟩ := BitBox.union_ok cleared _
    (Nat.le_of_eq (hown.transfer.usesLength.trans (hlength₁.trans hlength).symm))
  have hjoined : ∀ slot, joined.Has slot ↔ ReadsFirst slot (accesses ir slots id data) ∨
      .write slot ∉ accesses ir slots id data ∧
        ∃ l target, ir.Edge data l target ∧ EdgeNeeds slots live data l target slot := by
    intro slot
    rw [hhas₂, hhas₁, hhas, hown.transfer.uses, hown.transfer.defs, or_comm, and_comm]
  simp only [transfer, hdata, hget, hnames, unwrap, ok_bind, hout, hclear, hunion]
  cases hhandler : data.handler with
  | none =>
    refine ⟨joined, rfl, hlength₂.trans (hlength₁.trans hlength), fun slot => ?_⟩
    rw [hjoined, Needs, hhandler]
    simp [EdgeNeeds]
  | some handler =>
    obtain ⟨raised, hraised, hlength₃⟩ :=
      hsized.within hnames ((h.blocks data hmem).handler handler hhandler)
    have hwidth := hlength₂.trans (hlength₁.trans hlength)
    obtain ⟨all, hall, hlength₄, hhas₄⟩ := BitBox.union_ok joined raised
      (Nat.le_of_eq (hlength₃.trans hwidth.symm))
    refine ⟨all, ?_, hlength₄.trans hwidth, fun slot => ?_⟩
    · dsimp only
      rw [hraised]
      exact hall
    · rw [hhas₄, hjoined, ← liveAt_iff hraised, or_assoc]
      refine or_congr_right (or_comm.trans (or_congr_left ?_))
      rw [hhandler]
      constructor
      · exact fun hlive => ⟨handler, rfl, hlive⟩
      · rintro ⟨handler', heq, hlive⟩
        exact Option.some.inj heq ▸ hlive

/-- The live slots on the way: each block has as many bits as slots, only live slots, and no slot
that it does not need. -/
structure Inv (ir : Ir) (vars : List (List VarId)) (slots : FuncId → VarId → Option ℕ)
    (live : List BitBox) : Prop where
  sized : Sized ir vars live
  sound : ∀ id slot, LiveAt live id slot → Accesses.Live (ir.PointStep slots) slot ⟨id, 0⟩
  needed : ∀ id data, ir.blocks[id]? = some data → ∀ slot, LiveAt live id slot →
    Needs ir slots (LiveAt live · slot) data (accesses ir slots id data) slot

/-- A block has the slots that it needs. -/
def Settled (ir : Ir) (slots : FuncId → VarId → Option ℕ) (id : BlockId) (live : List BitBox) :
    Prop :=
  ∀ data, ir.blocks[id]? = some data → ∀ slot,
    Needs ir slots (LiveAt live · slot) data (accesses ir slots id data) slot → LiveAt live id slot

/-- How many bits are not set. -/
def room (live : List BitBox) : ℕ := (live.map (·.count false)).sum

/-- A box with more ones has fewer zeros. -/
theorem count_lt {b b' : BitBox} (hlength : b.length = b'.length) (hle : ∀ i, b.Has i → b'.Has i)
    (hne : b' ≠ b) : b'.count false < b.count false := by
  induction b generalizing b' with
  | nil => exact absurd (List.eq_nil_of_length_eq_zero hlength.symm) hne
  | cons x b ih =>
    cases b' with
    | nil => cases hlength
    | cons y b' =>
      have htail : b' ≠ b → b'.count false < b.count false :=
        ih (Nat.succ.inj hlength) fun i => hle (i + 1)
      have hcount : b'.count false ≤ b.count false := by
        by_cases heq : b' = b
        · exact Nat.le_of_eq (heq ▸ rfl)
        · exact Nat.le_of_lt (htail heq)
      rw [List.count_cons, List.count_cons]
      cases x with
      | true =>
        obtain rfl : y = true := Option.some.inj (hle 0 rfl)
        exact Nat.add_lt_add_right (htail fun heq => hne (heq ▸ rfl)) _
      | false =>
        cases y with
        | true => exact Nat.lt_succ_of_le hcount
        | false => exact Nat.add_lt_add_right (htail fun heq => hne (heq ▸ rfl)) _

theorem room_set {id : BlockId} {bits out : BitBox} (h : live[id]? = some bits)
    (hlt : out.count false < bits.count false) : room (live.set id out) < room live := by
  induction live generalizing id with
  | nil => cases h
  | cons first live ih =>
    cases id with
    | zero =>
      obtain rfl := Option.some.inj h
      exact Nat.add_lt_add_right hlt _
    | succ id => exact Nat.add_lt_add_left (ih h) _

theorem liveAt_set_self {id : BlockId} {out : BitBox} (hlt : id < live.length) {slot : ℕ} :
    LiveAt (live.set id out) id slot ↔ out.Has slot :=
  liveAt_iff (List.getElem?_set_self hlt)

theorem liveAt_set_of_ne {id b : BlockId} {out : BitBox} (hne : b ≠ id) {slot : ℕ} :
    LiveAt (live.set id out) b slot ↔ LiveAt live b slot := by
  rw [LiveAt, LiveAt, List.getElem?_set_ne (Ne.symm hne)]

/-- A visit settles its block, or lowers the number of bits that are not set. -/
theorem visit_spec (hgathered : GatheredAll ir vars slots gathered) (h : ir.Valid vars slots)
    (hdistinct : ∀ block ∈ ir.blocks, block.terminal.Distinct) {order : List BlockId}
    (horder : ∀ id ∈ order, id < ir.blocks.length) :
    Sweeps.Visits (visit ir vars gathered) (Inv ir vars slots) (Settled ir slots) room order := by
  intro id hid live hinv
  have hlt := horder id hid
  have hdata := List.getElem?_eq_getElem hlt
  generalize ir.blocks[id] = data at hdata
  obtain ⟨func, names, -, hnames, -⟩ := exists_names h (List.mem_of_getElem? hdata)
  obtain ⟨out, htransfer, hlength, hhas⟩ :=
    transfer_spec hgathered h hdistinct hinv.sized hdata hnames
  have hltLive : id < live.length := hinv.sized.length.symm ▸ hlt
  have hbits := List.getElem?_eq_getElem hltLive
  generalize live[id] = bits at hbits
  have hwidth := hinv.sized.width id data names bits hdata hnames hbits
  rw [visit, htransfer, ok_bind, hbits]
  by_cases heq : out = bits
  · refine ⟨live, false, ?_, hinv, rfl, fun data' hdata' slot hneeds => ?_⟩
    · change (if out ≠ bits then _ else _) = _
      rw [if_neg (not_not.mpr heq)]
      rfl
    · obtain rfl := Option.some.inj (hdata.symm.trans hdata')
      exact (liveAt_iff hbits).mpr (heq ▸ (hhas slot).mpr hneeds)
  · have hold : ∀ slot, LiveAt live id slot → out.Has slot := fun slot hlive =>
      (hhas slot).mpr (hinv.needed id data hdata slot hlive)
    have hgrows : ∀ b slot, LiveAt live b slot → LiveAt (live.set id out) b slot := by
      intro b slot hlive
      by_cases hb : b = id
      · subst hb
        exact (liveAt_set_self hltLive).mpr (hold slot hlive)
      · exact (liveAt_set_of_ne hb).mpr hlive
    refine ⟨live.set id out, true, ?_, ?_, ?_⟩
    · change (if out ≠ bits then _ else _) = _
      rw [if_pos heq]
      rfl
    · constructor
      · refine ⟨List.length_set.trans hinv.sized.length,
          fun b data' names' bits' hb hnames' hbits' => ?_⟩
        by_cases hne : b = id
        · subst hne
          obtain rfl := Option.some.inj (hdata.symm.trans hb)
          obtain rfl := Option.some.inj (hnames.symm.trans hnames')
          rw [List.getElem?_set_self hltLive] at hbits'
          exact Option.some.inj hbits' ▸ hlength
        · rw [List.getElem?_set_ne (Ne.symm hne)] at hbits'
          exact hinv.sized.width b data' names' bits' hb hnames' hbits'
      · intro b slot hlive
        by_cases hne : b = id
        · subst hne
          refine (live_entry_iff hdata).mpr (((hhas slot).mp ?_).mono fun b => hinv.sound b slot)
          exact (liveAt_set_self hltLive).mp hlive
        · exact hinv.sound b slot ((liveAt_set_of_ne hne).mp hlive)
      · intro b data' hb slot hlive
        have hneeds : Needs ir slots (LiveAt live · slot) data' (accesses ir slots b data')
            slot := by
          by_cases hne : b = id
          · subst hne
            obtain rfl := Option.some.inj (hdata.symm.trans hb)
            exact (hhas slot).mp ((liveAt_set_self hltLive).mp hlive)
          · exact hinv.needed b data' hb slot ((liveAt_set_of_ne hne).mp hlive)
        exact hneeds.mono fun b => hgrows b slot
    · refine room_set hbits (count_lt (hwidth.trans hlength.symm) (fun slot hhas' => ?_) heq)
      exact hold slot ((liveAt_iff hbits).mpr hhas')

/-- The pass over the blocks of a valid graph. -/
theorem gatherAll_spec (h : ir.Valid vars slots) :
    ∃ gathered, gatherAll ir vars slots = .ok gathered ∧ GatheredAll ir vars slots gathered := by
  have hzip : ∀ (id : ℕ) (data : Block × ℕ), ir.blocks.zipIdx[id]? = some data →
      ir.blocks[id]? = some data.1 ∧ data.2 = id := by
    intro id data hdata
    rw [List.getElem?_zipIdx, Option.map_eq_some_iff] at hdata
    obtain ⟨block, hblock, rfl⟩ := hdata
    exact ⟨hblock, Nat.zero_add id⟩
  have hexists : ∃ gathered, gatherAll ir vars slots = .ok gathered := by
    refine exists_mapAll_eq_ok.mpr fun p hp => ?_
    obtain ⟨id, hid⟩ := List.getElem?_of_mem hp
    obtain ⟨hdata, hidx⟩ := hzip id p hid
    obtain ⟨func, names, -, hnames, -⟩ := exists_names h (List.mem_of_getElem? hdata)
    obtain ⟨g, hg, -⟩ := gather_spec h hdata hnames
    exact ⟨g, hidx ▸ hg⟩
  obtain ⟨gathered, hgathered⟩ := hexists
  obtain ⟨hlength, heach⟩ := mapAll_getElem? hgathered
  refine ⟨gathered, hgathered, hlength.trans List.length_zipIdx,
    fun id data names g hdata hnames hg => ?_⟩
  have hpair : ir.blocks.zipIdx[id]? = some (data, id) := by
    rw [List.getElem?_zipIdx, hdata, Option.map_some, Nat.zero_add]
  obtain ⟨g', hg', hof⟩ := gather_spec h hdata hnames
  obtain rfl := Except.ok.inj (hg'.symm.trans (heach id _ g hpair hg))
  exact hof

/-- The sweeps start without live slots. -/
theorem start_spec (h : ir.Valid vars slots) :
    ∃ live, start ir vars = .ok live ∧ Inv ir vars slots live := by
  have hexists : ∃ live, start ir vars = .ok live := by
    refine exists_mapAll_eq_ok.mpr fun data hdata => ?_
    obtain ⟨func, names, -, hnames, -⟩ := exists_names h hdata
    exact ⟨.zeros names.length, by rw [hnames]; rfl⟩
  obtain ⟨live, hlive⟩ := hexists
  obtain ⟨hlength, heach⟩ := mapAll_getElem? hlive
  have hzeros : ∀ (id : BlockId) (data : Block) (names : List VarId) (bits : BitBox),
      ir.blocks[id]? = some data → vars[data.func]? = some names → live[id]? = some bits →
        bits = BitBox.zeros names.length := by
    intro id data names bits hdata hnames hbits
    have hrun := heach id data bits hdata hbits
    rw [hnames] at hrun
    exact (Except.ok.inj hrun).symm
  have hnone : ∀ id slot, ¬ LiveAt live id slot := by
    rintro id slot ⟨bits, hbits, hhas⟩
    have hlt : id < ir.blocks.length := hlength ▸ (List.getElem?_eq_some_iff.mp hbits).1
    obtain ⟨func, names, -, hnames, -⟩ := exists_names h (List.getElem_mem hlt)
    rw [hzeros id _ names bits (List.getElem?_eq_getElem hlt) hnames hbits] at hhas
    exact BitBox.not_has_zeros _ _ hhas
  refine ⟨live, hlive, ⟨hlength, fun id data names bits hdata hnames hbits => ?_⟩,
    fun id slot hl => absurd hl (hnone id slot), fun id data _ slot hl => absurd hl (hnone id slot)⟩
  rw [hzeros id data names bits hdata hnames hbits]
  exact List.length_replicate

theorem mem_order (rank : BlockId → ℕ) {id : BlockId} :
    id ∈ order ir rank ↔ id < ir.blocks.length := by
  rw [order, List.mem_mergeSort, List.mem_range]

/-- What the sweeps end with is exact: a slot is live at the entry of a block if some path from
there reads it first. -/
theorem settled_iff {live : List BitBox} (h : ir.Valid vars slots) (hinv : Inv ir vars slots live)
    (hsettled : ∀ id, id < ir.blocks.length → Settled ir slots id live) {id : BlockId}
    {bits : BitBox}
    (hbits : live[id]? = some bits) (slot : ℕ) :
    bits[slot]? = some true ↔ Accesses.Live (ir.PointStep slots) slot ⟨id, 0⟩ := by
  have hlt : id < ir.blocks.length :=
    hinv.sized.length ▸ (List.getElem?_eq_some_iff.mp hbits).1
  rw [← BitBox.Has, ← liveAt_iff hbits]
  constructor
  · exact hinv.sound id slot
  · intro hlive
    refine holds_of_live h (P := (LiveAt live · slot)) (fun b data hdata hneeds => ?_)
      (List.getElem?_eq_getElem hlt) hlive
    exact hsettled b (List.getElem?_eq_some_iff.mp hdata).1 data hdata slot hneeds

/-- The sweeps end, with a bit for each slot of a block's function, and do so with the same live
slots whatever the ranking of the blocks. A slot is live at the entry of a block exactly when it is
read before it is written on some path from there. -/
theorem live_exact (h : ir.Valid vars slots)
    (hdistinct : ∀ block ∈ ir.blocks, block.terminal.Distinct) :
    ∃ result N, (∀ rank fuel, N ≤ fuel → Live.live ir vars slots rank fuel = .ok result) ∧
      Sized ir vars result ∧ ∀ id bits, result[id]? = some bits → ∀ slot,
        bits[slot]? = some true ↔ ∃ path q, Path (ir.PointStep slots) ⟨id, 0⟩ path q ∧
          ReadsFirst slot path := by
  obtain ⟨gathered, hgather, hgathered⟩ := gatherAll_spec h
  obtain ⟨first, hstart, hfirst⟩ := start_spec h
  have hrun : ∀ rank fuel, room first + 1 ≤ fuel → ∃ result,
      Live.live ir vars slots rank fuel = .ok result ∧ Inv ir vars slots result ∧
        ∀ id, id < ir.blocks.length → Settled ir slots id result := by
    intro rank fuel hfuel
    obtain ⟨result, hresult, hinv, hsettled⟩ := Sweeps.untilStable_ok
      (visit_spec hgathered h hdistinct fun id hid => (mem_order rank).mp hid) hfirst hfuel
    refine ⟨result, ?_, hinv, fun id hid => hsettled id ((mem_order rank).mpr hid)⟩
    rw [Live.live, hgather, ok_bind, hstart, ok_bind, hresult]
  obtain ⟨result, hresult, hinv, hsettled⟩ := hrun (fun _ => 0) (room first + 1) (Nat.le_refl _)
  refine ⟨result, room first + 1, fun rank fuel hfuel => ?_, hinv.sized,
    fun id bits hbits => settled_iff h hinv hsettled hbits⟩
  obtain ⟨other, hother, hinv', hsettled'⟩ := hrun rank fuel hfuel
  rw [hother]
  have hlength : other.length = result.length :=
    hinv'.sized.length.trans hinv.sized.length.symm
  refine congrArg Except.ok (List.ext_getElem hlength fun id hid hid' => ?_)
  have hlt : id < ir.blocks.length := hinv.sized.length ▸ hid'
  have hdata := List.getElem?_eq_getElem hlt
  obtain ⟨func, names, -, hnames, -⟩ := exists_names h (List.getElem_mem hlt)
  have hbits := List.getElem?_eq_getElem hid'
  have hbits' := List.getElem?_eq_getElem hid
  have hwidth := (hinv'.sized.width id _ names _ hdata hnames hbits').trans
    (hinv.sized.width id _ names _ hdata hnames hbits).symm
  exact BitBox.ext_has hwidth fun slot =>
    (settled_iff h hinv' hsettled' hbits' slot).trans (settled_iff h hinv hsettled hbits slot).symm

/-- A block that reads a variable and matches a pattern for it, a block that loops back, and the
exit. -/
def loop : Ir where
  funcs := [{
    kind := .module, entry := 0, exit := 2, result := 1, params := .bind 0, escapes := [],
    fields := [], supers := [] }]
  blocks := [
    { func := 0, steps := [.eval (.var 1)], terminal := .unpack (.bind 0) (.var 1) 1 2,
      handler := none, depth := 0 },
    { func := 0, steps := [.eval (.var 0)], terminal := .branch 0, handler := some 2, depth := 0 },
    { func := 0, steps := [], terminal := .return, handler := none, depth := 0 }]

/-- The variables are slots in their order. -/
def loopSlots (_ : FuncId) (var : VarId) : Option ℕ := if var < 2 then some var else none

theorem loop_within {id : BlockId} (h : id ∈ [0, 1, 2]) : loop.Within 0 id := by
  simp only [List.mem_cons, List.not_mem_nil, or_false] at h
  obtain rfl | rfl | rfl := h
  all_goals exact ⟨_, rfl, rfl⟩

theorem loop_valid : loop.Valid [[0, 1]] loopSlots := by
  constructor
  · intro block hblock
    simp only [loop, List.mem_cons, List.not_mem_nil, or_false] at hblock
    obtain rfl | rfl | rfl := hblock
    · refine ⟨Nat.one_pos, by simp [Ir.StepValid], fun target h => ?_, by simp, by simp⟩
      exact loop_within (List.mem_cons_of_mem 0 h)
    · refine ⟨Nat.one_pos, by simp [Ir.StepValid], fun target h => ?_, fun target h => ?_, by simp⟩
      · obtain rfl := List.mem_singleton.mp h
        exact loop_within List.mem_cons_self
      · obtain rfl := Option.some.inj h
        exact loop_within (by simp)
    · exact ⟨Nat.one_pos, by simp, by simp [Terminal.successors], by simp, by simp⟩
  · simp [loop]
  · rfl
  · intro func names hnames var slot hslot
    obtain ⟨hvar, heq⟩ := Option.ite_none_right_eq_some.mp hslot
    obtain rfl := Option.some.inj heq
    cases func with
    | zero => exact Option.some.inj hnames ▸ hvar
    | succ func => cases hnames

/-- The loop's slots are exact. -/
theorem live_exact_loop : ∃ result N,
    (∀ rank fuel, N ≤ fuel → Live.live loop [[0, 1]] loopSlots rank fuel = .ok result) ∧
      Sized loop [[0, 1]] result ∧ ∀ id bits, result[id]? = some bits → ∀ slot,
        bits[slot]? = some true ↔ ∃ path q, Path (loop.PointStep loopSlots) ⟨id, 0⟩ path q ∧
          ReadsFirst slot path :=
  live_exact loop_valid (by simp [loop, Terminal.Distinct])

end Dolang.Typeck.Live
