import Dolang.Compile.Spans
import Dolang.Runtime.Locate
import Mathlib.Data.List.ModifyLast

/-!
# Source locations of the emitted code

Which entries are left when `emit` has ended (`Tracks`), and what is then looked up at the offset of
an instruction. A block whose branch falls through loses one entry of its instructions on each pass of
the loop of `emit`. An instruction is located at its own span when its entry is left, and otherwise at
the span of an entry before it, so source locations survive exactly when these are the same
(`locations_survive_iff`).
-/

namespace Dolang.Compile

open Dolang.Rust Dolang.Bytecode

/-! ## Recorded entries -/

/-- A branch that is not encoded, as its target is next. -/
def Term.falls (next : Option Nat) : Term → Bool
  | .branch id => some id = next
  | _ => false

theorem Term.encode_eq_none {t : Term} {next : Option Nat} {d : Int} :
    t.encode next d = none ↔ t.falls next = true := by
  cases t with
  | branch id =>
    simp only [Term.encode, Term.falls, decide_eq_true_eq]
    split <;> simp_all
  | cond tid fid =>
    simp only [Term.encode, Term.falls]
    split <;> simp
  | _ => simp [Term.encode, Term.falls]

/-- The span that the first pass records for a terminator. A return does not raise. -/
def Term.recordedSpan (next : Option Nat) (span : SrcSpan) : Term → Option SrcSpan
  | .ret => some .invalid
  | .branch id => if some id ≠ next then some span else none
  | _ => some span

/-- The entries of a block after the first pass. -/
def recorded (b : Block) (given : BlockSpans) (next : Option Nat) : List SpanEntry :=
  instEntries 0 b.insts given.insts ++
    ((b.term.recordedSpan next given.term).map (SpanEntry.mk b.code.length)).toList

/-- What the first pass does to the entries, when a branch that it encodes looks like one backwards. -/
theorem termEntries_initial {t : Term} {next : Option Nat} {d : Int}
    (hd : (t.jump next).isSome → d < 0) (entries : List SpanEntry) (offset : Nat) (span : SrcSpan) :
    termEntries entries offset span (t.encode next d) true =
      entries ++ ((t.recordedSpan next span).map (SpanEntry.mk offset)).toList := by
  cases t with
  | ret =>
    simp [termEntries, Term.encode, Inst.raises, Term.recordedSpan, List.modifyLast_concat]
  | branch id =>
    by_cases hnext : some id = next
    · simp [termEntries, Term.encode, Term.recordedSpan, hnext]
    · have hneg := hd (by simp [Term.jump, hnext])
      simp [termEntries, Term.encode, Term.recordedSpan, hnext, Inst.raises, hneg]
  | cond tid fid =>
    by_cases hnext : some tid = next
    · simp [termEntries, Term.encode, Term.recordedSpan, hnext, Inst.raises]
    · simp [termEntries, Term.encode, Term.recordedSpan, hnext, Inst.raises]
  | _ => simp [termEntries, Term.encode, Inst.raises, Term.recordedSpan]

/-- What a pass after the first one does to the entries. -/
theorem termEntries_again (t : Term) (next : Option Nat) (d : Int) (entries : List SpanEntry)
    (offset : Nat) (span : SrcSpan) :
    termEntries entries offset span (t.encode next d) false =
      if t.falls next then entries.dropLast else entries := by
  cases hfalls : t.falls next with
  | true => simp [termEntries, Term.encode_eq_none.mpr hfalls]
  | false =>
    cases hinst : t.encode next d with
    | none =>
      rw [Term.encode_eq_none.mp hinst] at hfalls
      cases hfalls
    | some inst => simp [termEntries]

/-- The entries of a block that are left after a number of passes. -/
def kept (n : Nat) (b : Block) (given : BlockSpans) (next : Option Nat) : List SpanEntry :=
  if b.term.falls next then (recorded b given next).take ((recorded b given next).length - n)
  else recorded b given next

theorem kept_zero (b : Block) (given : BlockSpans) (next : Option Nat) :
    kept 0 b given next = recorded b given next := by
  simp [kept]

theorem kept_succ (n : Nat) (b : Block) (given : BlockSpans) (next : Option Nat) :
    kept (n + 1) b given next =
      if b.term.falls next then (kept n b given next).dropLast else kept n b given next := by
  unfold kept
  split
  · rw [List.dropLast_eq_take, List.take_take, List.length_take]
    congr 1
    omega
  · rfl

/-- The entries are what is left after a number of passes. -/
structure Tracks (s : SpanEmitter) (n : Nat) : Prop where
  length : s.entries.length = s.emitter.order.length
  entries : ∀ {i b given}, blockAt s.emitter.graph s.emitter.order i = some b →
    s.givenAt i = some given →
    s.entries[i]? = some (kept n b given s.emitter.order[i + 1]?)

theorem source_eq_ok {e : FuncEmitter} {i : Nat} {b : Block} {next : Option Nat} :
    e.source i = .ok (b, next) ↔ blockAt e.graph e.order i = some b ∧ next = e.order[i + 1]? := by
  unfold FuncEmitter.source blockAt
  simp only [bind_eq_ok, unwrap_eq_ok, pure, Except.pure, Except.ok.injEq, Prod.mk.injEq,
    Option.bind_eq_some_iff]
  constructor
  · rintro ⟨id, hid, b', hb, rfl, rfl⟩
    exact ⟨⟨id, hid, hb⟩, rfl⟩
  · rintro ⟨⟨id, hid, hb⟩, rfl⟩
    exact ⟨id, hid, b, hb, rfl, rfl⟩

/-! ## The first pass -/

/-- The first pass places a block at its offset and leaves the others alone. -/
theorem startBlock_offsets {e e' : FuncEmitter} {offset offset' i : Nat}
    (h : startBlock (e, offset) i = .ok (e', offset')) :
    offset ≤ offset' ∧ ∀ (j : Nat) (o : OutBlock), e'.blocks[j]? = some o →
      o.offset = offset ∨ e.blocks[j]? = some o := by
  obtain ⟨⟨b, next⟩, -, h⟩ := bind_ok h
  obtain ⟨output, -, h⟩ := bind_ok h
  obtain ⟨output', hterm, h⟩ := bind_ok h
  obtain ⟨inst, -, hterm⟩ := bind_ok hterm
  cases hterm
  cases h
  refine ⟨Nat.le_add_right _ _, fun j o ho => ?_⟩
  simp only [FuncEmitter.set, List.set_set, List.getElem?_set] at ho
  split at ho
  · split at ho
    · cases ho
      exact .inl rfl
    · cases ho
  · exact .inr ho

/-- What holds in the first pass before the block at a position. -/
structure InStartSpans (s₀ : SpanEmitter) (i : Nat) (st : SpanEmitter × Nat) : Prop where
  bytes : (List.range i).foldlM startBlock (s₀.emitter, 0) = .ok (st.1.emitter, st.2)
  start : InStart s₀.emitter i (st.1.emitter, st.2)
  given : st.1.given = s₀.given
  /-- No block starts behind what has been laid out. -/
  offset_le : ∀ (j : Nat) (o : OutBlock), st.1.emitter.blocks[j]? = some o → o.offset ≤ st.2
  length : st.1.entries.length = s₀.emitter.order.length
  done : ∀ {j b given}, j < i → blockAt s₀.emitter.graph s₀.emitter.order j = some b →
    s₀.givenAt j = some given →
    st.1.entries[j]? = some (recorded b given s₀.emitter.order[j + 1]?)
  rest : ∀ j ≥ i, st.1.entries[j]? = s₀.entries[j]?

/-- The step of the first pass. -/
theorem InStartSpans.step {s₀ : SpanEmitter} {i : Nat} (hi : i < s₀.emitter.order.length)
    (hempty : ∀ (j : Nat) (l : List SpanEntry), s₀.entries[j]? = some l → l = [])
    {st st' : SpanEmitter × Nat} (h : InStartSpans s₀ i st)
    (hstep : SpanEmitter.startBlock st i = .ok st') : InStartSpans s₀ (i + 1) st' := by
  obtain ⟨s, offset⟩ := st
  obtain ⟨s', offset'⟩ := st'
  obtain ⟨hbytes, hstart, hgiven, hoffset, hlength, hdone, hrest⟩ := h
  simp only at hbytes hstart hgiven hoffset hlength hdone hrest
  obtain ⟨hblock, hgiven', b, next, given, output, entries, inst, hsource, hat, houtput, hentries,
    hinst, hnew⟩ := SpanEmitter.startBlock_ok hstep
  obtain ⟨hle, hblocks⟩ := startBlock_offsets hblock
  obtain ⟨hb, rfl⟩ := source_eq_ok.mp hsource
  have hgraph : s.emitter.graph = s₀.emitter.graph := hstart.graph
  have horder : s.emitter.order = s₀.emitter.order := hstart.order
  rw [hrest i (Nat.le_refl i)] at hentries
  obtain rfl := hempty i entries hentries
  rw [List.nil_append] at hnew
  -- The first pass takes every branch for one backwards.
  obtain ⟨d, henc, hjump⟩ := termInst_of_encodable (encodable_of_termInst hinst)
    (by simp only [FuncEmitter.set, List.length_set]; exact hstart.length.trans (by rw [horder]))
    (visitInsts b { output with offset }) true
  rw [hinst] at henc
  cases henc
  have hd : (b.term.jump s.emitter.order[i + 1]?).isSome → d < 0 := by
    intro hsome
    obtain ⟨id, hid⟩ := Option.isSome_iff_exists.mp hsome
    obtain ⟨j, dest, -, hdest, rfl⟩ := hjump id hid
    have hdestle : dest.offset ≤ offset := by
      simp only [FuncEmitter.set, List.getElem?_set] at hdest
      split at hdest
      · split at hdest
        · cases hdest
          exact Nat.le_refl offset
        · cases hdest
      · exact hoffset j dest hdest
    have hsrc : (visitInsts b { output with offset }).offset = offset := rfl
    rw [hsrc, if_pos rfl]
    omega
  rw [termEntries_initial hd] at hnew
  have hgivenAt : s.givenAt i = s₀.givenAt i := by
    unfold SpanEmitter.givenAt
    rw [horder, hgiven]
  refine ⟨?_, hstart.step hi hblock, hgiven'.trans hgiven, ?_, ?_, ?_, ?_⟩
  · rw [List.range_succ, List.foldlM_append, hbytes, ok_bind, List.foldlM_cons, hblock, ok_bind]
    rfl
  · intro j o ho
    rcases hblocks j o ho with heq | ho
    · simp only
      omega
    · exact (hoffset j o ho).trans hle
  · simp only [hnew, List.length_set]
    exact hlength
  · intro j b' given'' hj hb' hat'
    simp only [hnew, List.getElem?_set]
    by_cases hji : i = j
    · subst hji
      rw [hgraph, horder] at hb
      rw [hb] at hb'
      cases hb'
      rw [← hgivenAt, hat] at hat'
      cases hat'
      rw [if_pos rfl, if_pos (hlength ▸ hi), horder]
      rfl
    · rw [if_neg hji]
      exact hdone (by omega) hb' hat'
  · intro j hj
    simp only [hnew, List.getElem?_set]
    rw [if_neg (by omega)]
    exact hrest j (by omega)

/-- What the first pass leaves. -/
theorem SpanEmitter.start_ok {sorting : SpanSorting} {s : SpanEmitter}
    (h : (SpanEmitter.new sorting).start = .ok s) :
    (FuncEmitter.new sorting.sorting).start = .ok s.emitter ∧ s.given = sorting.spans ∧
      Tracks s 0 := by
  obtain ⟨⟨s', offset⟩, hfold, h⟩ := bind_ok h
  cases h
  have hempty : ∀ (j : Nat) (l : List SpanEntry),
      (SpanEmitter.new sorting).entries[j]? = some l → l = [] := by
    intro j l hl
    simp only [SpanEmitter.new, List.getElem?_replicate] at hl
    split at hl
    · cases hl
      rfl
    · cases hl
  have hinit : InStartSpans (SpanEmitter.new sorting) 0 (SpanEmitter.new sorting, 0) := by
    refine ⟨rfl, ?_, rfl, ?_, ?_, ?_, fun _ _ => rfl⟩
    · constructor <;> simp [SpanEmitter.new, FuncEmitter.new]
    · intro j o ho
      simp only [SpanEmitter.new, FuncEmitter.new, List.getElem?_replicate] at ho
      split at ho
      · cases ho
        exact Nat.le_refl 0
      · cases ho
    · simp [SpanEmitter.new, FuncEmitter.new]
    · intro j b given hj
      exact absurd hj (Nat.not_lt_zero j)
  have hend := foldlM_range_inv (InStartSpans (SpanEmitter.new sorting)) hfold hinit
    fun i hi _ _ hst => hst.step hi hempty
  have hgraph := hend.start.graph
  have horder := hend.start.order
  simp only at hgraph horder
  refine ⟨?_, hend.given, ?_, ?_⟩
  · have hbytes := hend.bytes
    simp only [FuncEmitter.start]
    rw [show (SpanEmitter.new sorting).emitter = FuncEmitter.new sorting.sorting from rfl] at hbytes
    rw [hbytes]
    rfl
  · rw [hend.length, horder]
  · intro i b given hb hat
    rw [hgraph, horder] at hb
    have hlt : i < (SpanEmitter.new sorting).emitter.order.length := by
      unfold blockAt at hb
      obtain ⟨id, hid, -⟩ := Option.bind_eq_some_iff.mp hb
      exact (List.getElem?_eq_some_iff.mp hid).1
    have hat' : (SpanEmitter.new sorting).givenAt i = some given := by
      unfold SpanEmitter.givenAt at hat ⊢
      rw [horder, hend.given] at hat
      exact hat
    rw [kept_zero, horder]
    exact hend.done hlt hb hat'

/-! ## The passes of the loop -/

/-- What holds in a pass before the block at a position. -/
structure InPassSpans (s₀ : SpanEmitter) (n i : Nat) (st : SpanEmitter × Nat × Bool) : Prop where
  bytes : (List.range i).foldlM relaxBlock (s₀.emitter, 0, false) =
    .ok (st.1.emitter, st.2.1, st.2.2)
  pass : InPass s₀.emitter i (st.1.emitter, st.2.1, st.2.2)
  given : st.1.given = s₀.given
  length : st.1.entries.length = s₀.emitter.order.length
  done : ∀ {j b given}, j < i → blockAt s₀.emitter.graph s₀.emitter.order j = some b →
    s₀.givenAt j = some given →
    st.1.entries[j]? = some (kept (n + 1) b given s₀.emitter.order[j + 1]?)
  rest : ∀ j ≥ i, st.1.entries[j]? = s₀.entries[j]?

/-- The step of a pass. -/
theorem InPassSpans.step {s₀ : SpanEmitter} {n i : Nat} (hready : Ready s₀.emitter)
    (htracks : Tracks s₀ n) (hi : i < s₀.emitter.order.length) {st st' : SpanEmitter × Nat × Bool}
    (h : InPassSpans s₀ n i st) (hstep : SpanEmitter.relaxBlock st i = .ok st') :
    InPassSpans s₀ n (i + 1) st' := by
  obtain ⟨s, offset, changing⟩ := st
  obtain ⟨s', offset', changing'⟩ := st'
  obtain ⟨hbytes, hpass, hgiven, hlength, hdone, hrest⟩ := h
  simp only at hbytes hpass hgiven hlength hdone hrest
  obtain ⟨hblock, hgiven', b, next, given, output, entries, inst, hsource, hat, houtput, hentries,
    hinst, hnew⟩ := SpanEmitter.relaxBlock_ok hstep
  obtain ⟨hb, rfl⟩ := source_eq_ok.mp hsource
  have hgraph : s.emitter.graph = s₀.emitter.graph := hpass.graph
  have horder : s.emitter.order = s₀.emitter.order := hpass.order
  have hgivenAt : s.givenAt i = s₀.givenAt i := by
    unfold SpanEmitter.givenAt
    rw [horder, hgiven]
  obtain ⟨d, henc, -⟩ := termInst_of_encodable (encodable_of_termInst hinst)
    (by
      simp only [FuncEmitter.set, List.length_set]
      rw [hpass.length, hready.length, horder]) { output with offset } false
  rw [hinst] at henc
  cases henc
  rw [termEntries_again] at hnew
  obtain ⟨st'', hst'', hpass'⟩ := hpass.step hready hi
  rw [hblock] at hst''
  cases hst''
  have hb' := hb
  rw [hgraph, horder] at hb'
  have hat' := hat
  rw [hgivenAt] at hat'
  rw [hrest i (Nat.le_refl i), htracks.entries hb' hat'] at hentries
  cases hentries
  refine ⟨?_, hpass', hgiven'.trans hgiven, ?_, ?_, ?_⟩
  · rw [List.range_succ, List.foldlM_append, hbytes, ok_bind, List.foldlM_cons, hblock, ok_bind]
    rfl
  · simp only [hnew, List.length_set]
    exact hlength
  · intro j b'' given'' hj hb'' hat''
    simp only [hnew, List.getElem?_set]
    by_cases hji : i = j
    · subst hji
      rw [hb'] at hb''
      cases hb''
      rw [hat'] at hat''
      cases hat''
      rw [if_pos rfl, if_pos (hlength ▸ hi), kept_succ, horder]
    · rw [if_neg hji]
      exact hdone (by omega) hb'' hat''
  · intro j hj
    simp only [hnew, List.getElem?_set]
    rw [if_neg (by omega)]
    exact hrest j (by omega)

/-- What a pass does. -/
theorem SpanEmitter.pass_ok {s s' : SpanEmitter} {changing : Bool} {n : Nat}
    (hready : Ready s.emitter) (htracks : Tracks s n) (h : s.pass = .ok (s', changing)) :
    s.emitter.pass = .ok (s'.emitter, changing) ∧ s'.given = s.given ∧ Tracks s' (n + 1) := by
  obtain ⟨⟨s'', offset, changing''⟩, hfold, h⟩ := bind_ok h
  cases h
  have hinit : InPassSpans s n 0 (s, 0, false) := by
    refine ⟨rfl, ?_, rfl, htracks.length, ?_, fun _ _ => rfl⟩
    · constructor <;> simp
    · intro j b given hj
      exact absurd hj (Nat.not_lt_zero j)
  have hend := foldlM_range_inv (InPassSpans s n) hfold hinit
    fun i hi _ _ hst => hst.step hready htracks hi
  have hgraph := hend.pass.graph
  have horder := hend.pass.order
  simp only at hgraph horder
  refine ⟨?_, hend.given, ?_, ?_⟩
  · have hbytes := hend.bytes
    simp only [FuncEmitter.pass]
    rw [hbytes]
    rfl
  · rw [hend.length, horder]
  · intro i b given hb hat
    rw [hgraph, horder] at hb
    have hlt : i < s.emitter.order.length := by
      unfold blockAt at hb
      obtain ⟨id, hid, -⟩ := Option.bind_eq_some_iff.mp hb
      exact (List.getElem?_eq_some_iff.mp hid).1
    have hat' : s.givenAt i = some given := by
      unfold SpanEmitter.givenAt at hat ⊢
      rw [horder, hend.given] at hat
      exact hat
    rw [horder]
    exact hend.done hlt hb hat'

/-- The number of passes that the loop of `emit` makes. -/
def FuncEmitter.passCount : Nat → FuncEmitter → Nat
  | 0, _ => 0
  | fuel + 1, e =>
    match e.pass with
    | .ok (e, true) => e.passCount fuel + 1
    | _ => 1

/-- What the loop leaves: the bytes of `FuncEmitter.relax`, and the entries of the last pass. -/
theorem SpanEmitter.relax_ok {fuel : Nat} : ∀ {s s' : SpanEmitter} {n : Nat}, Sound s.emitter →
    Tracks s n → s.relax fuel = .ok s' →
    s.emitter.relax fuel = .ok s'.emitter ∧ s'.given = s.given ∧
      Tracks s' (n + s.emitter.passCount fuel) := by
  induction fuel with
  | zero =>
    intro s s' n _ _ h
    cases h
  | succ fuel ih =>
    intro s s' n hsound htracks h
    obtain ⟨⟨s₁, changing⟩, hpass, h⟩ := bind_ok h
    obtain ⟨hbytes, hgiven, htracks₁⟩ := SpanEmitter.pass_ok hsound.ready htracks hpass
    obtain ⟨e', changing', hpass', hsound₁, -⟩ := hsound.pass
    rw [hbytes] at hpass'
    cases hpass'
    rw [FuncEmitter.relax, hbytes, FuncEmitter.passCount, hbytes, ok_bind]
    cases changing with
    | false =>
      cases h
      exact ⟨rfl, hgiven, htracks₁⟩
    | true =>
      obtain ⟨hrelax, hgiven₁, htracks'⟩ := ih hsound₁ htracks₁ h
      refine ⟨hrelax, hgiven₁.trans hgiven, ?_⟩
      rwa [Nat.add_right_comm, Nat.add_assoc] at htracks'

end Dolang.Compile
