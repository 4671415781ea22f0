import Dolang.Bytecode.Typing

/-!
# Locals are set before they are read

Along every path through a function with an accepted certificate, each `LoadLocal` comes after a
`StoreLocal` of the same local, when the certificate covers its claims about locals
(`Certificate.Covers`). What carries the induction over the path is that the state before an
instruction claims to know only locals that have been stored on the way (`Stored`).

`unsetCert` does not cover its claims: it is accepted for a function that reads a local that is never
stored.
-/

namespace Dolang.Bytecode

open Dolang.Rust

/-- A path from the first instruction to `i`, with the instructions before `i`. -/
inductive Path (l : List InstOffsets) : List InstOffsets → InstOffsets → Prop where
  | entry {i : InstOffsets} {rest : List InstOffsets} : l = i :: rest → Path l [] i
  | edge {passed : List InstOffsets} {i j : InstOffsets} {taken : Bool} : Path l passed i →
      Edge l i taken j → Path l (passed ++ [i]) j

/-- The state claims to know only locals that a passed instruction has stored. -/
def Stored (func : Func) (passed : List InstOffsets) (s : BlockState) : Prop :=
  ∀ n < func.locals, s.locals[n]? = some .value → ∃ j ∈ passed, j.inst = .storeLocal n

section

variable {ctx : Context} {func : Func} {bytecode : List UInt8} {l : List InstOffsets}
  {claims : List BlockState}

/-- One edge keeps what has been stored. -/
theorem Stored.edge {passed : List InstOffsets} {i j : InstOffsets} {s t : BlockState}
    {taken : Bool} (h : Stored func passed s) (hcov : Covered func l claims)
    (hpass : Passes ctx func l claims i s taken j t) : Stored func (passed ++ [i]) t := by
  intro n hn hv
  have hlt := hpass.covered hcov n hn hv
  have hvalue : (localsAfter i.inst s.locals)[n]? = some .value := by
    have hne := hpass.absorbs.2 n hv
    rw [edgeAfter_locals] at hne
    obtain ⟨v, hget⟩ : ∃ v, (localsAfter i.inst s.locals)[n]? = some v :=
      ⟨_, List.getElem?_eq_getElem (by rw [localsAfter_length]; exact hlt)⟩
    cases v with
    | value => exact hget
    | invalid => exact absurd hget hne
  rcases localsAfter_getElem?.mp hvalue with hold | ⟨hstore, -⟩
  · obtain ⟨j', hj', hinst⟩ := h n hn hold
    exact ⟨j', List.mem_append_left _ hj', hinst⟩
  · exact ⟨i, by simp, hstore⟩

/-- Every path keeps what has been stored. -/
theorem Path.stored {arity : Nat} {cs : List BlockState} (hdec : Decoded ctx func bytecode l)
    (hfixed : FixedPoint ctx func l claims) (hcov : Covered func l claims)
    (hclaims : claims = entryState func arity :: cs) {passed : List InstOffsets}
    {i : InstOffsets} (h : Path l passed i) :
    ∃ s, At ctx l claims i s ∧ Stored func passed s := by
  induction h with
  | entry hl =>
    refine ⟨entryState func arity, hclaims ▸ At.first hl, fun n hn hv => ?_⟩
    rw [entryState, List.getElem?_replicate, if_pos hn] at hv
    cases hv
  | edge _ hedge ih =>
    obtain ⟨s, hat, hstored⟩ := ih
    obtain ⟨t, hpass⟩ := hat.edge hdec hfixed hedge
    exact ⟨t, hpass.state, hstored.edge hcov hpass⟩

end

/-- Under an accepted certificate that covers its claims, a path that reaches a load of a local has
passed a store of it. -/
theorem loadLocal_after_storeLocal {ctx : Context} {func : Func} {cert : Certificate}
    (hacc : Accepted ctx func cert) (hcov : cert.Covers ctx func) {bytecode : List UInt8}
    {l passed : List InstOffsets} {i : InstOffsets} {n : Nat}
    (hslice : func.bytecode.slice ctx.code = some bytecode)
    (hinsts : insts bytecode 0 = l.map .ok) (hpath : Path l passed i)
    (hload : i.inst = .loadLocal n) : ∃ j ∈ passed, j.inst = .storeLocal n := by
  obtain ⟨fuel, uses, hcheck⟩ := hacc
  obtain ⟨bytecode', l', arity, hdec, hl, -, harity, haccepts⟩ := check_sound hcheck
  obtain rfl : bytecode = bytecode' := Option.some.inj (hslice.symm.trans hdec.slice)
  obtain rfl : l = l' := (insts_eq_map_ok.mp hinsts).unique hdec.chain
  obtain ⟨s, hat, hstored⟩ := hpath.stored hdec haccepts.fixed
    (hcov bytecode l arity hslice hinsts harity) rfl
  have hready := (step_eq_ok.mp (hat.step haccepts.fixed)).2.2.1
  have hlt := hdec.checked i hat.mem
  rw [hload] at hready
  rw [SyntaxOk, hload] at hlt
  exact hstored n hlt hready

/-! ## Two functions with one local -/

/-- A context with one constant and a signature without parameters. -/
def codeContext (code : List UInt8) : Context where
  code := code
  function := fun _ => none
  pack := fun _ => none
  unpackArity := fun index => .ok (if index = 0 then some 0 else none)
  symbolValid := fun _ => false
  constantValid := fun index => index = 0

/-- The local is stored, and read in a loop and after it. -/
def loopContext : Context := codeContext [10, 1, 32, 1, 11, 1, 40, 15, 11, 1, 38]

/-- The function over that code. -/
def loopFunc : Func := ⟨0, 1, [], ⟨0, 11⟩⟩

/-- The local is known in the loop and after it. -/
def loopCert : Certificate := ⟨1, [(4, ⟨0, [.value], []⟩), (8, ⟨0, [.value], []⟩)]⟩

/-- The instructions of the function. -/
def loopInsts : List InstOffsets :=
  [⟨0, .loadConst 0, 2⟩, ⟨2, .storeLocal 0, 4⟩, ⟨4, .loadLocal 0, 6⟩, ⟨6, .branchTrue (-4), 8⟩,
    ⟨8, .loadLocal 0, 10⟩, ⟨10, .ret, 11⟩]

theorem loopInsts_eq : insts [10, 1, 32, 1, 11, 1, 40, 15, 11, 1, 38] 0 = loopInsts.map .ok := by
  decide +kernel

theorem loopCert_accepted : Accepted loopContext loopFunc loopCert :=
  ⟨3, [], by decide +kernel⟩

theorem loopCert_covers : loopCert.Covers loopContext loopFunc :=
  Certificate.covers_of_length (by decide)

/-- The second time around the loop, the store is still on the path. -/
theorem loop_loadLocal_after_storeLocal :
    ∃ j ∈ loopInsts.take 4, j.inst = .storeLocal 0 := by
  have hpath : Path loopInsts (loopInsts.take 4) ⟨4, .loadLocal 0, 6⟩ := by
    have h1 : Path loopInsts [] ⟨0, .loadConst 0, 2⟩ := .entry rfl
    have h2 := h1.edge (.fall (j := ⟨2, .storeLocal 0, 4⟩) (by decide) (by decide) rfl rfl)
    have h3 := h2.edge (.fall (j := ⟨4, .loadLocal 0, 6⟩) (by decide) (by decide) rfl rfl)
    have h4 := h3.edge (.fall (j := ⟨6, .branchTrue (-4), 8⟩) (by decide) (by decide) rfl rfl)
    exact h4.edge (.branch (by decide) (by decide) (by decide))
  exact loadLocal_after_storeLocal loopCert_accepted loopCert_covers rfl loopInsts_eq hpath rfl

/-- Two branches to the instruction that follows them, and a load of the local. -/
def unsetContext : Context := codeContext [39, 1, 39, 1, 11, 1, 38]

/-- The function over that code. -/
def unsetFunc : Func := ⟨0, 1, [], ⟨0, 7⟩⟩

/-- The second block has an empty list of locals and the third one claims to know the local. -/
def unsetCert : Certificate := ⟨1, [(2, ⟨0, [], []⟩), (4, ⟨0, [.value], []⟩)]⟩

/-- The instructions of the function. -/
def unsetInsts : List InstOffsets :=
  [⟨0, .branch 0, 2⟩, ⟨2, .branch 0, 4⟩, ⟨4, .loadLocal 0, 6⟩, ⟨6, .ret, 7⟩]

theorem unsetCert_accepted : Accepted unsetContext unsetFunc unsetCert := ⟨3, [], by decide +kernel⟩

/-- The certificate is accepted and the load is reached without a store. -/
theorem unset_loadLocal_reached : Accepted unsetContext unsetFunc unsetCert ∧
    insts [39, 1, 39, 1, 11, 1, 38] 0 = unsetInsts.map .ok ∧
    Path unsetInsts (unsetInsts.take 2) ⟨4, .loadLocal 0, 6⟩ ∧
    ∀ j ∈ unsetInsts.take 2, j.inst ≠ .storeLocal 0 := by
  refine ⟨unsetCert_accepted, by decide +kernel, ?_, by decide⟩
  have h1 : Path unsetInsts [] ⟨0, .branch 0, 2⟩ := .entry rfl
  have h2 := h1.edge (.branch (j := ⟨2, .branch 0, 4⟩) (by decide) (by decide) (by decide))
  exact h2.edge (.branch (by decide) (by decide) (by decide))

end Dolang.Bytecode
