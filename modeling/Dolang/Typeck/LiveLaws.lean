import Dolang.Typeck.LivePaths

/-!
# What is gathered of a block

Bit boxes hold sets: `union` and `clear` keep the length and add or remove the ones of another box
(`union_ok`, `clear_ok`), and boxes of one length with the same ones are equal (`ext_has`). A transfer
is that of a list of accesses if it uses what the list reads first and defines what it writes
(`Transfer.Of`). A function adds some accesses if it takes the transfer of any list to that of the
list with these after it (`Adds`); the functions of `Collect` add what their steps, patterns and
terminals access, and `gather_spec` says so for a whole block.
-/

namespace Dolang.Typeck

open Rust Cfg Accesses

namespace BitBox

/-- The bit is a one. -/
def Has (b : BitBox) (i : ℕ) : Prop := b[i]? = some true

variable {b : BitBox} {i : ℕ}

theorem not_has_zeros (width i : ℕ) : ¬ (zeros width).Has i := by
  intro h
  obtain ⟨hi, h⟩ := List.getElem?_eq_some_iff.mp h
  exact Bool.false_ne_true ((List.getElem_replicate hi).symm.trans h)

theorem Has.lt (h : b.Has i) : i < b.length := (List.getElem?_eq_some_iff.mp h).1

theorem mem_iterOnes : i ∈ b.iterOnes ↔ b.Has i := by
  rw [iterOnes, List.mem_map, Has]
  constructor
  · rintro ⟨⟨bit, j⟩, hmem, rfl⟩
    obtain ⟨hzip, hbit⟩ := List.mem_filter.mp hmem
    rw [List.mem_zipIdx_iff_getElem?] at hzip
    rw [hzip, show bit = true from hbit]
  · intro h
    exact ⟨(true, i), List.mem_filter.mpr ⟨List.mem_zipIdx_iff_getElem?.mpr h, rfl⟩, rfl⟩

theorem set_eq (h : i < b.length) (value : Bool) : b.set i value = .ok (List.set b i value) :=
  if_pos h

theorem has_set {j : ℕ} (h : i < b.length) {value : Bool} :
    BitBox.Has (List.set b i value) j ↔ j = i ∧ value = true ∨ j ≠ i ∧ b.Has j := by
  rw [Has, Has]
  by_cases heq : j = i
  · subst heq
    rw [List.getElem?_set_self h, Option.some.injEq]
    tauto
  · rw [List.getElem?_set_ne (Ne.symm heq)]
    tauto

/-- Setting some bits gives them the value and leaves the others. -/
theorem setAll_ok (b : BitBox) (value : Bool) {slots : List ℕ} (h : ∀ i ∈ slots, i < b.length) :
    ∃ b', b.setAll value slots = .ok b' ∧ b'.length = b.length ∧
      ∀ i, b'.Has i ↔ i ∈ slots ∧ value = true ∨ i ∉ slots ∧ b.Has i := by
  induction slots generalizing b with
  | nil => exact ⟨b, rfl, rfl, fun i => by simp⟩
  | cons slot slots ih =>
    have hslot := h slot List.mem_cons_self
    have hlength : (List.set b slot value).length = b.length := List.length_set
    obtain ⟨b', hall, hlength', hhas⟩ := ih (List.set b slot value) fun i hi =>
      hlength ▸ h i (List.mem_cons_of_mem _ hi)
    refine ⟨b', by rw [setAll, set_eq hslot, ok_bind, hall], hlength'.trans hlength, fun i => ?_⟩
    rw [hhas, has_set hslot, List.mem_cons]
    tauto

theorem union_ok (into source : BitBox) (h : source.length ≤ into.length) :
    ∃ b', into.union source = .ok b' ∧ b'.length = into.length ∧
      ∀ i, b'.Has i ↔ into.Has i ∨ source.Has i := by
  obtain ⟨b', hall, hlength, hhas⟩ := setAll_ok into true
    fun i (hi : i ∈ source.iterOnes) => Nat.lt_of_lt_of_le (mem_iterOnes.mp hi).lt h
  refine ⟨b', hall, hlength, fun i => ?_⟩
  rw [hhas, mem_iterOnes]
  tauto

theorem clear_ok (into source : BitBox) (h : source.length ≤ into.length) :
    ∃ b', into.clear source = .ok b' ∧ b'.length = into.length ∧
      ∀ i, b'.Has i ↔ into.Has i ∧ ¬ source.Has i := by
  obtain ⟨b', hall, hlength, hhas⟩ := setAll_ok into false
    fun i (hi : i ∈ source.iterOnes) => Nat.lt_of_lt_of_le (mem_iterOnes.mp hi).lt h
  refine ⟨b', hall, hlength, fun i => ?_⟩
  rw [hhas, mem_iterOnes]
  simp [and_comm]

/-- Boxes of the same length with the same ones are equal. -/
theorem ext_has {b b' : BitBox} (hlength : b.length = b'.length)
    (h : ∀ i, b.Has i ↔ b'.Has i) : b = b' := by
  refine List.ext_getElem hlength fun i hi hi' => ?_
  have hiff := h i
  rw [Has, Has, List.getElem?_eq_getElem hi, List.getElem?_eq_getElem hi', Option.some.injEq,
    Option.some.injEq] at hiff
  exact Bool.eq_iff_iff.mpr hiff

end BitBox

namespace Live

/-- A transfer is that of some accesses of a function's slots. -/
structure Transfer.Of (width : ℕ) (l : List (Access ℕ)) (t : Transfer) : Prop where
  usesLength : t.uses.length = width
  defsLength : t.defs.length = width
  uses : ∀ slot, t.uses.Has slot ↔ ReadsFirst slot l
  defs : ∀ slot, t.defs.Has slot ↔ .write slot ∈ l

theorem Transfer.Of.empty (width : ℕ) :
    Transfer.Of width [] { uses := .zeros width, defs := .zeros width } where
  usesLength := List.length_replicate
  defsLength := List.length_replicate
  uses slot := iff_of_false (BitBox.not_has_zeros _ _) (not_readsFirst_nil slot)
  defs _ := iff_of_false (BitBox.not_has_zeros _ _) List.not_mem_nil

/-- A part of the collection adds some accesses. -/
def Adds (width : ℕ) (l : List (Access ℕ)) (f : Transfer → Exec Empty Transfer) : Prop :=
  ∀ before t, Transfer.Of width before t → ∃ t', f t = .ok t' ∧ Transfer.Of width (before ++ l) t'

theorem Adds.nothing (width : ℕ) : Adds width [] (fun t => .ok t) := by
  intro before t h
  exact ⟨t, rfl, (List.append_nil before).symm ▸ h⟩

theorem Adds.seq {width : ℕ} {l r : List (Access ℕ)} {f g : Transfer → Exec Empty Transfer}
    (hf : Adds width l f) (hg : Adds width r g) : Adds width (l ++ r) (fun t => do g (← f t)) := by
  intro before t ht
  obtain ⟨t₁, hrun, ht₁⟩ := hf before t ht
  obtain ⟨t₂, hrun', ht₂⟩ := hg (before ++ l) t₁ ht₁
  refine ⟨t₂, ?_, List.append_assoc before l r ▸ ht₂⟩
  dsimp only
  rw [hrun, ok_bind, hrun']

theorem Adds.each {α : Type} {width : ℕ} {l : α → List (Access ℕ)}
    {f : α → Transfer → Exec Empty Transfer} {as : List α} (h : ∀ a ∈ as, Adds width (l a) (f a)) :
    Adds width (as.flatMap l) (Collect.each f as) := by
  induction as with
  | nil => exact .nothing width
  | cons a as ih =>
    exact (h a List.mem_cons_self).seq (ih fun b hb => h b (List.mem_cons_of_mem _ hb))

variable {c : Collect} {width : ℕ}

/-- The slots of a function are within its width. -/
def Collect.Fits (c : Collect) (width : ℕ) : Prop :=
  ∀ var slot, c.slot var = some slot → slot < width

/-- The accesses of the function's slots. -/
abbrev Collect.on (c : Collect) (l : List (Access VarId)) : List (Access ℕ) :=
  Ir.onSlots c.slots c.func l

theorem onSlots_append (l r : List (Access VarId)) : c.on (l ++ r) = c.on l ++ c.on r :=
  List.filterMap_append

theorem onSlots_flatMap {α : Type} (f : α → List (Access VarId)) (as : List α) :
    c.on (as.flatMap f) = as.flatMap fun a => c.on (f a) := by
  induction as with
  | nil => rfl
  | cons a as ih => rw [List.flatMap_cons, List.flatMap_cons, onSlots_append, ih]

/-- The access of one variable, if it has a slot. -/
theorem on_read (var : VarId) : c.on [.read var] = ((c.slot var).map Access.read).toList := by
  unfold Collect.on Ir.onSlots Collect.slot
  rw [List.filterMap_cons, List.filterMap_nil]
  dsimp only
  cases c.slots c.func var <;> rfl

theorem on_write (var : VarId) : c.on [.write var] = ((c.slot var).map Access.write).toList := by
  unfold Collect.on Ir.onSlots Collect.slot
  rw [List.filterMap_cons, List.filterMap_nil]
  dsimp only
  cases c.slots c.func var <;> rfl

theorem adds_read (hc : c.Fits width) (var : VarId) :
    Adds width (c.on [.read var]) (c.read var) := by
  rw [on_read]
  unfold Collect.read
  cases hslot : c.slot var with
  | none => exact .nothing width
  | some slot =>
    intro before t ht
    have hlt := hc var slot hslot
    have hdefs : slot < t.defs.length := ht.defsLength.symm ▸ hlt
    have hget : t.defs.get slot = .ok t.defs[slot] := by
      rw [BitBox.get, List.getElem?_eq_getElem hdefs]
      rfl
    have hwritten := ht.defs slot
    rw [BitBox.Has, List.getElem?_eq_getElem hdefs, Option.some.injEq] at hwritten
    dsimp only [Option.map_some, Option.toList_some]
    rw [hget, ok_bind]
    cases hdef : t.defs[slot] with
    | true =>
      -- The slot has been written, so the read is not the first access.
      refine ⟨t, rfl, ht.usesLength, ht.defsLength, fun s => ?_, fun s => ?_⟩
      · rw [ht.uses, readsFirst_concat_read]
        refine ⟨.inl, fun h => h.resolve_right fun hread => hread.1 ?_⟩
        exact hread.2 ▸ hwritten.mp hdef
      · rw [ht.defs]
        simp
    | false =>
      have hnot : .write slot ∉ before := fun hmem => by
        rw [hwritten.mpr hmem] at hdef
        cases hdef
      have hslot : slot < t.uses.length := ht.usesLength.symm ▸ hlt
      refine ⟨{ t with uses := List.set t.uses slot true }, ?_, ?_, ht.defsLength, fun s => ?_,
        fun s => ?_⟩
      · rw [BitBox.set_eq hslot]
        rfl
      · exact List.length_set.trans ht.usesLength
      · rw [readsFirst_concat_read, ← ht.uses, BitBox.has_set hslot]
        constructor
        · rintro (⟨rfl, -⟩ | ⟨-, hread⟩)
          · exact .inr ⟨hnot, rfl⟩
          · exact .inl hread
        · rintro (hread | ⟨-, rfl⟩)
          · by_cases heq : s = slot
            · exact .inl ⟨heq, rfl⟩
            · exact .inr ⟨heq, hread⟩
          · exact .inl ⟨rfl, rfl⟩
      · rw [ht.defs]
        simp

theorem adds_write (hc : c.Fits width) (var : VarId) :
    Adds width (c.on [.write var]) (c.write var) := by
  rw [on_write]
  unfold Collect.write
  cases hslot : c.slot var with
  | none => exact .nothing width
  | some slot =>
    intro before t ht
    have hlt : slot < t.defs.length := ht.defsLength.symm ▸ hc var slot hslot
    refine ⟨{ t with defs := List.set t.defs slot true }, ?_, ht.usesLength, ?_, fun s => ?_,
      fun s => ?_⟩
    · dsimp only
      rw [BitBox.set_eq hlt]
      rfl
    · exact List.length_set.trans ht.defsLength
    · exact (ht.uses s).trans readsFirst_concat_write.symm
    · rw [BitBox.has_set hlt, ht.defs]
      simp only [Option.map_some, Option.toList_some, List.mem_append, List.mem_singleton,
        Access.write.injEq]
      tauto

theorem adds_reads (hc : c.Fits width) (vars : List VarId) :
    Adds width (c.on (vars.map .read)) (Collect.each c.read vars) := by
  rw [List.map_eq_flatMap, onSlots_flatMap]
  exact .each fun var _ => adds_read hc var

theorem adds_writes (hc : c.Fits width) (vars : List VarId) :
    Adds width (c.on (vars.map .write)) (Collect.each c.write vars) := by
  rw [List.map_eq_flatMap, onSlots_flatMap]
  exact .each fun var _ => adds_write hc var

theorem adds_expr (hc : c.Fits width) (e : Expr) : Adds width (c.on e.accesses) (c.expr e) := by
  unfold Expr.accesses
  rw [onSlots_flatMap]
  refine .each fun e _ => ?_
  cases e with
  | var v => exact adds_read hc v
  | copy v => exact adds_read hc v
  | _ => exact .nothing width

theorem adds_pattern (hc : c.Fits width) (p : Pattern) :
    Adds width (c.on p.accesses) (c.pattern p) := by
  unfold Pattern.accesses
  rw [onSlots_append, onSlots_flatMap]
  exact (Adds.each fun e _ => adds_expr hc e).seq (adds_writes hc p.vars)

theorem adds_step (hc : c.Fits width) {func : Func} (hfunc : c.ir.funcs[c.func]? = some func)
    {step : Step} (hstep : c.ir.StepValid step) :
    Adds width (c.on (c.ir.stepAccesses func step)) (c.step step) := by
  cases step with
  | let_ pattern value =>
    rw [Ir.stepAccesses, onSlots_append]
    exact (adds_expr hc value).seq (adds_pattern hc pattern)
  | assign target =>
    cases target with
    | var v value =>
      rw [Ir.stepAccesses, Target.accesses, onSlots_append]
      exact (adds_expr hc value).seq (adds_write hc v)
    | field object value =>
      rw [Ir.stepAccesses, Target.accesses, onSlots_append]
      obtain ⟨e, rfl⟩ := hstep
      exact (adds_expr hc object).seq (adds_expr hc e)
    | index object key value =>
      rw [Ir.stepAccesses, Target.accesses, List.append_assoc, onSlots_append, onSlots_append]
      obtain ⟨⟨e, rfl⟩, e', rfl⟩ := hstep
      exact (adds_expr hc object).seq ((adds_expr hc e).seq (adds_expr hc e'))
    | «import» value => exact adds_expr hc value
  | default var value =>
    have hpair : c.on [.read var, .write var] = c.on [.read var] ++ c.on [.write var] :=
      onSlots_append [.read var] [.write var]
    rw [Ir.stepAccesses, onSlots_append, hpair]
    exact (adds_expr hc value).seq ((adds_read hc var).seq (adds_write hc var))
  | eval value => exact adds_expr hc value
  | push value => exact adds_expr hc value
  | dup => exact .nothing width
  | pop => exact .nothing width
  | assume assume =>
    obtain ⟨var, against⟩ := assume
    rw [Ir.stepAccesses, onSlots_append]
    cases against with
    | «class» e => exact (adds_expr hc e).seq (adds_read hc var)
    | value e => exact (adds_expr hc e).seq (adds_read hc var)
    | _ => exact (Adds.nothing width).seq (adds_read hc var)
  | capture funcs =>
    rw [Ir.stepAccesses, List.map_flatMap, onSlots_flatMap]
    refine .each fun f hf => ?_
    have hread := List.getElem?_eq_getElem (hstep f hf)
    rw [Ir.captured, hread]
    exact adds_reads hc _
  | cache vars => exact adds_writes hc vars
  | escape supers =>
    intro before t ht
    have hsupers : (func.supers.filter fun _ => supers) = if supers then func.supers else [] := by
      cases supers <;> simp
    rw [Collect.step, hfunc]
    change ∃ t', Collect.each c.read (func.fields ++ func.supers.filter fun _ => supers) t = _ ∧ _
    rw [hsupers]
    exact adds_reads hc _ before t ht

theorem adds_terminal (hc : c.Fits width) (terminal : Terminal) :
    Adds width (c.on terminal.accesses) (c.terminal terminal) := by
  cases terminal with
  | ite value => exact adds_expr hc value
  | unpack pattern value => exact adds_expr hc value
  | throw value => exact adds_expr hc value
  | returnFrom value => exact adds_expr hc value
  | «catch» clauses =>
    rw [Terminal.accesses, onSlots_flatMap]
    exact .each fun clause _ => adds_expr hc clause.1
  | next iter => exact adds_reads hc iter.toList
  | _ => exact .nothing width

/-! ### The pass over the blocks -/

variable {ir : Ir} {vars : List (List VarId)} {slots : FuncId → VarId → Option ℕ}

/-- The pattern of a terminal, and where it goes on if the pattern matches. -/
def matched : Terminal → Option (Pattern × BlockId)
  | .unpack pattern _ onThen _ => some (pattern, onThen)
  | .next _ pattern body _ => some (pattern, body)
  | _ => none

/-- What a block adds is what it accesses, what its pattern does on the edge it matches on, and
where a `finally` ends continuing to. -/
structure Gathered.Of (ir : Ir) (slots : FuncId → VarId → Option ℕ) (id : BlockId) (data : Block)
    (width : ℕ) (g : Gathered) : Prop where
  transfer : Transfer.Of width (Ir.onSlots slots data.func (ir.blockAccesses id data)) g.transfer
  plain : matched data.terminal = none → g.edge = none
  bound : ∀ pattern target, matched data.terminal = some (pattern, target) →
    ∃ t, g.edge = some (target, t) ∧
      Transfer.Of width (Ir.onSlots slots data.func pattern.accesses) t
  ends : ∀ key target, g.end = some (key, target) ↔ ∃ entry entered,
    data.terminal = .leave entry (.goto target) ∧ ir.blocks[entry]? = some entered ∧
      key = (data.func, entered.depth)

/-- The function of a block of a valid graph, with the slots of its variables. -/
theorem exists_names (h : ir.Valid vars slots) {data : Block} (hdata : data ∈ ir.blocks) :
    ∃ func names, ir.funcs[data.func]? = some func ∧ vars[data.func]? = some names ∧
      Collect.Fits { ir, slots, func := data.func } names.length := by
  have hlt := (h.blocks data hdata).func
  have hnames := List.getElem?_eq_getElem (h.length.symm ▸ hlt)
  exact ⟨_, _, List.getElem?_eq_getElem hlt, hnames, h.slots data.func _ hnames⟩

theorem adds_params (h : ir.Valid vars slots) {data : Block} {func : Func}
    (hfunc : ir.funcs[data.func]? = some func) {width : ℕ}
    (hc : Collect.Fits { ir, slots, func := data.func } width) (id : BlockId) :
    Adds width (Ir.onSlots slots data.func
      (if id = func.entry ∧ func.kind = .decl then func.params.vars.map .write else []))
      (params { ir, slots, func := data.func } func id) := by
  unfold params
  by_cases hentry : id = func.entry ∧ func.kind = .decl
  · obtain ⟨items, hitems⟩ := h.params func (List.mem_of_getElem? hfunc) hentry.2
    simp only [if_pos hentry, hitems]
    exact adds_writes hc _
  · simp only [if_neg hentry]
    exact .nothing width

theorem adds_result {data : Block} {func : Func} {width : ℕ}
    (hc : Collect.Fits { ir, slots, func := data.func } width) (id : BlockId) :
    Adds width (Ir.onSlots slots data.func (if id = func.exit then [.read func.result] else []))
      (result { ir, slots, func := data.func } func id) := by
  unfold result
  by_cases hexit : id = func.exit
  · simp only [if_pos hexit]
    exact adds_read hc func.result
  · simp only [if_neg hexit]
    exact .nothing width

/-- What a block accesses is what its parts do. -/
theorem adds_block (h : ir.Valid vars slots) {data : Block} {func : Func} (hdata : data ∈ ir.blocks)
    (hfunc : ir.funcs[data.func]? = some func) {width : ℕ} {c : Collect}
    (hcollect : c = { ir, slots, func := data.func }) (hc : c.Fits width) (id : BlockId) :
    Adds width (c.on (ir.blockAccesses id data)) (own c func data id) := by
  subst hcollect
  have hsteps := Adds.each fun step (hstep : step ∈ data.steps) =>
    adds_step hc hfunc ((h.blocks data hdata).steps step hstep)
  rw [Ir.blockAccesses, hfunc]
  dsimp only
  rw [onSlots_append, onSlots_append, onSlots_append, onSlots_flatMap, List.append_assoc,
    List.append_assoc]
  exact (adds_params h hfunc hc id).seq
    ((adds_result hc id).seq (hsteps.seq (adds_terminal hc data.terminal)))

theorem bound_spec (hc : c.Fits width) (terminal : Terminal) :
    ∃ edge, bound c { uses := .zeros width, defs := .zeros width } terminal = .ok edge ∧
      (matched terminal = none → edge = none) ∧
      ∀ pattern target, matched terminal = some (pattern, target) →
        ∃ t, edge = some (target, t) ∧ Transfer.Of width (c.on pattern.accesses) t := by
  have hpattern : ∀ pattern : Pattern, ∃ t,
      c.pattern pattern { uses := .zeros width, defs := .zeros width } = .ok t ∧
        Transfer.Of width (c.on pattern.accesses) t := fun pattern =>
    adds_pattern hc pattern [] _ (.empty width)
  cases terminal with
  | unpack pattern value onThen onElse =>
    obtain ⟨t, hrun, ht⟩ := hpattern pattern
    refine ⟨some (onThen, t), by rw [bound, hrun]; rfl, fun hnone => (by cases hnone),
      fun p target heq => ?_⟩
    obtain ⟨rfl, rfl⟩ := Prod.mk.inj (Option.some.inj heq)
    exact ⟨t, rfl, ht⟩
  | next iter pattern body exit =>
    obtain ⟨t, hrun, ht⟩ := hpattern pattern
    refine ⟨some (body, t), by rw [bound, hrun]; rfl, fun hnone => (by cases hnone),
      fun p target heq => ?_⟩
    obtain ⟨rfl, rfl⟩ := Prod.mk.inj (Option.some.inj heq)
    exact ⟨t, rfl, ht⟩
  | _ => exact ⟨none, rfl, fun _ => rfl, fun p target heq => by cases heq⟩

theorem tagged_spec (h : ir.Valid vars slots) {data : Block} (hdata : data ∈ ir.blocks) :
    ∃ «end», tagged ir data.func data.terminal = .ok «end» ∧
      ∀ key target, «end» = some (key, target) ↔ ∃ entry entered,
        data.terminal = .leave entry (.goto target) ∧ ir.blocks[entry]? = some entered ∧
          key = (data.func, entered.depth) := by
  have hvalid := (h.blocks data hdata).successors
  cases hterm : data.terminal with
  | leave entry tag =>
    cases tag with
    | goto target =>
      rw [hterm] at hvalid
      obtain ⟨entered, hentered, -⟩ := hvalid entry List.mem_cons_self
      refine ⟨some ((data.func, entered.depth), target), by rw [tagged, hentered]; rfl, ?_⟩
      intro key target'
      constructor
      · intro heq
        obtain ⟨rfl, rfl⟩ := Prod.mk.inj (Option.some.inj heq)
        exact ⟨entry, entered, rfl, hentered, rfl⟩
      · rintro ⟨entry', entered', heq, hentered', rfl⟩
        obtain ⟨rfl, htag⟩ := Terminal.leave.inj heq
        obtain rfl := Tag.goto.inj htag
        obtain rfl := Option.some.inj (hentered.symm.trans hentered')
        rfl
    | rethrow => exact ⟨none, rfl, fun key target => by simp⟩
  | _ => exact ⟨none, rfl, fun key target => by simp⟩

/-- The pass over a block of a valid graph. -/
theorem gather_spec (h : ir.Valid vars slots) {id : BlockId} {data : Block}
    (hdata : ir.blocks[id]? = some data) {names : List VarId}
    (hnames : vars[data.func]? = some names) :
    ∃ g, gather ir vars slots data id = .ok g ∧ Gathered.Of ir slots id data names.length g := by
  have hmem := List.mem_of_getElem? hdata
  obtain ⟨func, names', hfunc, hnames', hc⟩ := exists_names h hmem
  obtain rfl := Option.some.inj (hnames.symm.trans hnames')
  obtain ⟨transfer, hblock, htransfer⟩ := adds_block h hmem hfunc rfl hc id [] _ (.empty _)
  obtain ⟨edge, hbound, hplain, hmatched⟩ := bound_spec hc data.terminal
  obtain ⟨«end», htagged, hends⟩ := tagged_spec h hmem
  refine ⟨{ transfer, edge, «end» }, ?_, htransfer, hplain, hmatched, hends⟩
  unfold gather
  rw [hfunc, hnames]
  dsimp only [unwrap, ok_bind]
  rw [hblock, ok_bind, hbound, ok_bind, htagged]
  rfl

end Live

end Dolang.Typeck
