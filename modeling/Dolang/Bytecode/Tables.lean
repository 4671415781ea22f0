import Dolang.Bytecode.File

/-!
# What the table checks establish

Each check of `verify` as a statement about the table it is for, and as a computation that does not
panic. Together they make `TablesOk`, which holds of every file that `verify` accepts
(`tablesOk_of_verify`).
-/

namespace Dolang.Bytecode

open Dolang.Rust Dolang.Utf8

/-! ## Strings and byte strings -/

/-- The span is a byte string of the table, within the limit on lengths. -/
def IsBin (s : Span) (tab : List UInt8) : Prop :=
  s.start ≤ s.stop ∧ s.stop ≤ tab.length ∧ s.stop - s.start < Limit.stringLength

/-- The span is a well-formed string of the table. -/
def IsStr (s : Span) (tab : List UInt8) : Prop :=
  IsBin s tab ∧ ∃ bytes, s.slice tab = some bytes ∧ isUtf8 bytes = true

theorem invalidBin_eq_false {s : Span} {tab : List UInt8} :
    invalidBin s tab = false ↔ IsBin s tab := by
  simp only [invalidBin, IsBin, Bool.or_eq_false_iff, decide_eq_false_iff_not]
  omega

theorem IsBin.slice {s : Span} {tab : List UInt8} (h : IsBin s tab) :
    ∃ bytes, s.slice tab = some bytes := by
  unfold Span.slice
  rw [if_pos ⟨h.1, h.2.1⟩]
  exact ⟨_, rfl⟩

theorem invalidStr_eq (s : Span) (tab : List UInt8) :
    ∃ invalid, invalidStr s tab = .ok invalid ∧ (invalid = false ↔ IsStr s tab) := by
  unfold invalidStr
  cases hbin : invalidBin s tab with
  | true =>
    refine ⟨true, rfl, ?_⟩
    simp only [Bool.true_eq_false, false_iff]
    intro h
    rw [invalidBin_eq_false.mpr h.1] at hbin
    cases hbin
  | false =>
    have h := invalidBin_eq_false.mp hbin
    obtain ⟨bytes, hbytes⟩ := h.slice
    refine ⟨!isUtf8 bytes, by simp [hbytes, unwrap, pure, Except.pure], ?_⟩
    simp only [Bool.not_eq_false', IsStr, hbytes, Option.some.injEq, exists_eq_left', h, true_and]

theorem checkStr_eq_ok {e : FileError} {s : Span} {tab : List UInt8} :
    checkStr e s tab = .ok () ↔ IsStr s tab := by
  obtain ⟨invalid, hinvalid, hiff⟩ := invalidStr_eq s tab
  unfold checkStr
  rw [hinvalid, ok_bind, ← hiff]
  cases invalid <;> simp [fail, pure, Except.pure]

theorem checkStr_returns (e : FileError) (s : Span) (tab : List UInt8) :
    Returns (checkStr e s tab) := by
  obtain ⟨invalid, hinvalid, -⟩ := invalidStr_eq s tab
  unfold checkStr
  rw [hinvalid, ok_bind]
  cases invalid <;> simp

/-! ## Entries -/

/-- The references of a key are in range. -/
def KeyOk (symtabLen consttabLen : Nat) (key : UnpackKey) : Prop :=
  (match key.kind with
    | .sym sym => sym < symtabLen
    | .const c => c < consttabLen) ∧
  ∀ default, key.default = some default → default < consttabLen

theorem verifyUnpackKey_eq_ok {symtabLen consttabLen i j : Nat} {key : UnpackKey} :
    verifyUnpackKey symtabLen consttabLen i j key = .ok () ↔ KeyOk symtabLen consttabLen key := by
  obtain ⟨kind, default⟩ := key
  unfold verifyUnpackKey KeyOk
  cases kind <;> cases default <;>
    simp only [fail_bind, ite_fail_eq_ok, ge_iff_le, not_le, pure, Except.pure,
      Option.some.injEq, forall_eq', reduceCtorEq, false_implies, implies_true, and_true]

theorem verifyUnpackKey_returns (symtabLen consttabLen i j : Nat) (key : UnpackKey) :
    Returns (verifyUnpackKey symtabLen consttabLen i j key) := by
  obtain ⟨kind, default⟩ := key
  unfold verifyUnpackKey
  cases kind <;> cases default <;>
    simp [returns_ite_fail]

/-- The references of a constant are in range. -/
def ConstOk (main : List UInt8) (symtabLen : Nat) : Const → Prop
  | .str s | .verbatimInt _ s | .verbatimF64 _ s => IsStr s main
  | .bin b => IsBin b main
  | .sym idx => idx < symtabLen
  | _ => True

theorem verifyConst_eq_ok {main : List UInt8} {symtabLen i : Nat} {c : Const} :
    verifyConst main symtabLen i c = .ok () ↔ ConstOk main symtabLen c := by
  cases c <;>
    simp only [verifyConst, ConstOk, checkStr_eq_ok, ite_fail_eq_ok, Bool.not_eq_true,
      invalidBin_eq_false, ge_iff_le, not_le, and_true]

theorem verifyConst_returns (main : List UInt8) (symtabLen i : Nat) (c : Const) :
    Returns (verifyConst main symtabLen i c) := by
  cases c <;> simp [verifyConst, checkStr_returns, returns_ite_fail]

/-- The reference of an argument is in range. -/
def ArgOk (symtabLen : Nat) : Arg → Prop
  | .key idx => idx < symtabLen
  | _ => True

theorem verifyArg_eq_ok {symtabLen i j : Nat} {arg : Arg} :
    verifyArg symtabLen i j arg = .ok () ↔ ArgOk symtabLen arg := by
  cases arg <;> simp only [verifyArg, ArgOk, ite_fail_eq_ok, ge_iff_le, not_le, and_true]

theorem verifyArg_returns (symtabLen i j : Nat) (arg : Arg) :
    Returns (verifyArg symtabLen i j arg) := by
  cases arg <;> simp [verifyArg, returns_ite_fail]

/-- What `verify_functab` has checked of a function. -/
structure FuncOk (unpacktab : List UnpackSig) (main : List UInt8) (e : FuncEntry) : Prop where
  sig : ∃ sig, unpacktab[e.func.sig]? = some sig ∧ ∀ key ∈ sig.keys, ∀ c, key.kind ≠ .const c
  bytecode : e.func.bytecode.start < e.func.bytecode.stop ∧ e.func.bytecode.stop ≤ main.length
  size : e.func.bytecode.len ≤ Limit.funcSize
  slots : saturatingAdd e.cert.maxOperandDepth e.func.locals ≤ Limit.funcFrameSlots

theorem funcOk_of_verifyFunc {unpacktab : List UnpackSig} {main : List UInt8} {i : Nat}
    {e : FuncEntry} (h : verifyFunc unpacktab main i e = .ok ()) : FuncOk unpacktab main e := by
  unfold verifyFunc at h
  simp only [fail_bind, ite_fail_eq_ok, bind_unit_eq_ok, unwrap_bind_eq_ok, not_lt, not_or,
    ge_iff_le, not_le, gt_iff_lt] at h
  obtain ⟨-, sig, hsig, hkeys, hspan, hne, hsize, -, hslots, -⟩ := h
  refine ⟨⟨sig, hsig, ?_⟩, ?_, hsize, hslots⟩
  · intro key hkey c hc
    obtain ⟨j, hj⟩ := List.mem_iff_getElem?.mp hkey
    have hok := forEach_eq_ok.mp hkeys j key hj
    rw [hc] at hok
    cases hok
  · unfold Span.len at hne
    omega

theorem verifyFunc_returns (unpacktab : List UnpackSig) (main : List UInt8) (i : Nat)
    (e : FuncEntry) : Returns (verifyFunc unpacktab main i e) := by
  unfold verifyFunc
  simp only [fail_bind, returns_ite_fail, ge_iff_le, not_le]
  intro hlt
  rw [returns_unwrap_bind]
  refine ⟨_, List.getElem?_eq_getElem hlt, Returns.bind (Returns.forEach ?_) fun _ _ => ?_⟩
  · intro j key _
    cases key.kind <;> simp
  · simp only [returns_ite_fail, Returns.pure, implies_true]

/-- A source map all of whose entries decode. -/
def SourceMapOk (entries : List SourceSpan) : Prop :=
  ∀ r ∈ spans none entries, ∃ p, r = .ok p

theorem sourcemap_ok {bytecodeLen i : Nat} :
    ∀ {entries : List (Except SourceMapFault (Nat × SourcePos))} {j : Nat}
      {last : Option SourcePos}, verifySourcemap bytecodeLen i j last entries = .ok () →
      ∀ r ∈ entries, ∃ p, r = .ok p := by
  intro entries
  induction entries with
  | nil => simp
  | cons r entries ih =>
    intro j last h q hq
    cases r with
    | error fault => cases h
    | ok p =>
      obtain ⟨offset, span⟩ := p
      simp only [verifySourcemap, fail_bind, ite_fail_eq_ok] at h
      rcases List.mem_cons.mp hq with rfl | hq
      · exact ⟨_, rfl⟩
      · exact ih h.2.2 q hq

theorem verifySourcemap_returns (bytecodeLen i : Nat) :
    ∀ (entries : List (Except SourceMapFault (Nat × SourcePos))) (j : Nat)
      (last : Option SourcePos), Returns (verifySourcemap bytecodeLen i j last entries) := by
  intro entries
  induction entries with
  | nil => exact fun _ _ => Returns.ok ()
  | cons r entries ih =>
    intro j last
    cases r with
    | error fault => exact Returns.fail _
    | ok p =>
      obtain ⟨offset, span⟩ := p
      simp only [verifySourcemap, fail_bind, returns_ite_fail]
      exact fun _ _ => ih _ _

/-- What `verify_funcdebugtab` has checked of a function. -/
structure DebugOk (debug : List UInt8) (c : FuncDebug) : Prop where
  name : IsStr c.name debug
  file : IsStr c.file debug
  definition : c.definition.span ≠ none
  sourcemap : SourceMapOk c.sourcemap

theorem debugOk_of_verifyFuncDebug {functab : List FuncEntry} {debug : List UInt8} {i : Nat}
    {c : FuncDebug} (h : verifyFuncDebug functab debug i c = .ok ()) : DebugOk debug c := by
  unfold verifyFuncDebug at h
  simp only [fail_bind, ite_fail_eq_ok, bind_unit_eq_ok, unwrap_bind_eq_ok, checkStr_eq_ok] at h
  obtain ⟨hname, hfile, -, -, hdef, entry, -, hmap⟩ := h
  exact ⟨hname, hfile, hdef, sourcemap_ok hmap⟩

theorem verifyFuncDebug_returns {functab : List FuncEntry} (debug : List UInt8) {i : Nat}
    (c : FuncDebug) (hi : i < functab.length) : Returns (verifyFuncDebug functab debug i c) := by
  unfold verifyFuncDebug
  refine Returns.bind (checkStr_returns _ _ _) fun _ _ => ?_
  refine Returns.bind (checkStr_returns _ _ _) fun _ _ => ?_
  simp only [fail_bind, returns_ite_fail]
  intro _ _ _
  rw [returns_unwrap_bind]
  exact ⟨_, List.getElem?_eq_getElem hi, verifySourcemap_returns _ _ _ _ _⟩

/-! ## Tables -/

/-- What `verify` has checked of the tables of a file. -/
structure TablesOk (index : Index) (main debug : List UInt8) : Prop where
  debug_utf8 : isUtf8 debug = true
  moduleName : ∀ name, index.moduleName = some name → IsStr name debug
  symtab : ∀ s ∈ index.symtab, IsStr s.name main
  entries : ∀ u ∈ index.unpacktab, u.entries ≤ Limit.unpackEntries
  keys : ∀ u ∈ index.unpacktab, ∀ key ∈ u.keys,
    KeyOk index.symtab.length index.consttab.length key
  consttab : ∀ c ∈ index.consttab, ConstOk main index.symtab.length c
  packtab : ∀ p ∈ index.packtab, p.length ≤ Limit.packEntries ∧
    ∀ arg ∈ p, ArgOk index.symtab.length arg
  functab_ne : index.functab ≠ []
  functab : ∀ e ∈ index.functab, FuncOk index.unpacktab main e
  funcdebugtab_length : index.funcdebugtab = [] ∨
    index.funcdebugtab.length = index.functab.length
  funcdebugtab : ∀ c ∈ index.funcdebugtab, DebugOk debug c

/-- A loop that succeeded, over the elements of its list. -/
theorem forEach_mem {α : Type} {f : Nat → α → Exec FileError Unit} {l : List α}
    (h : forEach f 0 l = .ok ()) {a : α} (ha : a ∈ l) : ∃ i, f i a = .ok () := by
  obtain ⟨i, hi⟩ := List.mem_iff_getElem?.mp ha
  exact ⟨_, forEach_eq_ok.mp h i a hi⟩

theorem verifySymtab_eq_ok {symtab : List SymEntry} {main : List UInt8} {n : Nat}
    (h : verifySymtab symtab main = .ok n) :
    n = symtab.length ∧ ∀ s ∈ symtab, IsStr s.name main := by
  unfold verifySymtab at h
  simp only [fail_bind, ite_fail_eq_ok, bind_unit_eq_ok, pure, Except.pure, Except.ok.injEq] at h
  refine ⟨h.2.2.symm, fun s hs => ?_⟩
  obtain ⟨i, hi⟩ := forEach_mem h.2.1 hs
  exact checkStr_eq_ok.mp hi

theorem verifyUnpacktab_eq_ok {unpacktab : List UnpackSig} {symtabLen consttabLen n : Nat}
    (h : verifyUnpacktab unpacktab symtabLen consttabLen = .ok n) :
    ∀ u ∈ unpacktab, u.entries ≤ Limit.unpackEntries ∧
      ∀ key ∈ u.keys, KeyOk symtabLen consttabLen key := by
  unfold verifyUnpacktab at h
  simp only [fail_bind, ite_fail_eq_ok, bind_unit_eq_ok] at h
  intro u hu
  obtain ⟨i, hi⟩ := forEach_mem h.2.1 hu
  obtain ⟨hle, hkeys⟩ := ite_fail_eq_ok.mp hi
  refine ⟨by omega, fun key hkey => ?_⟩
  obtain ⟨j, hj⟩ := forEach_mem hkeys hkey
  exact verifyUnpackKey_eq_ok.mp hj

theorem verifyConsttab_eq_ok {consttab : List Const} {main : List UInt8} {symtabLen : Nat}
    (h : verifyConsttab consttab main symtabLen = .ok ()) :
    ∀ c ∈ consttab, ConstOk main symtabLen c := by
  unfold verifyConsttab at h
  simp only [fail_bind, ite_fail_eq_ok] at h
  intro c hc
  obtain ⟨i, hi⟩ := forEach_mem h.2 hc
  exact verifyConst_eq_ok.mp hi

theorem verifyPacktab_eq_ok {packtab : List (List Arg)} {symtabLen : Nat}
    (h : verifyPacktab packtab symtabLen = .ok ()) :
    ∀ p ∈ packtab, p.length ≤ Limit.packEntries ∧ ∀ arg ∈ p, ArgOk symtabLen arg := by
  unfold verifyPacktab at h
  simp only [fail_bind, ite_fail_eq_ok] at h
  intro p hp
  obtain ⟨i, hi⟩ := forEach_mem h.2 hp
  obtain ⟨hle, hargs⟩ := ite_fail_eq_ok.mp hi
  refine ⟨by omega, fun arg harg => ?_⟩
  obtain ⟨j, hj⟩ := forEach_mem hargs harg
  exact verifyArg_eq_ok.mp hj

theorem verifyFunctab_eq_ok {functab : List FuncEntry} {unpacktab : List UnpackSig}
    {main : List UInt8} (h : verifyFunctab functab unpacktab main = .ok ()) :
    functab ≠ [] ∧ ∀ e ∈ functab, FuncOk unpacktab main e := by
  unfold verifyFunctab at h
  simp only [fail_bind, ite_fail_eq_ok] at h
  refine ⟨h.1, fun e he => ?_⟩
  obtain ⟨i, hi⟩ := forEach_mem h.2.2 he
  exact funcOk_of_verifyFunc hi

theorem verifyFuncdebugtab_eq_ok {funcdebugtab : List FuncDebug} {functab : List FuncEntry}
    {debug : List UInt8} (h : verifyFuncdebugtab funcdebugtab functab debug = .ok ()) :
    (funcdebugtab = [] ∨ funcdebugtab.length = functab.length) ∧
      ∀ c ∈ funcdebugtab, DebugOk debug c := by
  unfold verifyFuncdebugtab at h
  simp only [fail_bind, ite_fail_eq_ok] at h
  refine ⟨by tauto, fun c hc => ?_⟩
  obtain ⟨i, hi⟩ := forEach_mem h.2 hc
  exact debugOk_of_verifyFuncDebug hi

theorem verifyDebug_eq_ok {debug : List UInt8} (h : verifyDebug debug = .ok ()) :
    isUtf8 debug = true := by
  unfold verifyDebug at h
  rw [ite_fail_eq_ok] at h
  obtain ⟨-, h⟩ := h
  split at h
  · assumption
  · cases h

theorem verifyModuleName_eq_ok {moduleName : Option Span} {debug : List UInt8}
    (h : verifyModuleName moduleName debug = .ok ()) :
    ∀ name, moduleName = some name → IsStr name debug := by
  rintro name rfl
  exact checkStr_eq_ok.mp h

/-- Checks that have succeeded. -/
theorem tablesOk_of_checks {index : Index} {main debug : List UInt8} {n m : Nat}
    (hdebug : verifyDebug debug = .ok ())
    (hname : verifyModuleName index.moduleName debug = .ok ())
    (hsym : verifySymtab index.symtab main = .ok n)
    (hunpack : verifyUnpacktab index.unpacktab n index.consttab.length = .ok m)
    (hconst : verifyConsttab index.consttab main n = .ok ())
    (hpack : verifyPacktab index.packtab n = .ok ())
    (hfunc : verifyFunctab index.functab index.unpacktab main = .ok ())
    (hfuncdebug : verifyFuncdebugtab index.funcdebugtab index.functab debug = .ok ()) :
    TablesOk index main debug := by
  obtain ⟨rfl, hsymtab⟩ := verifySymtab_eq_ok hsym
  have hunpacktab := verifyUnpacktab_eq_ok hunpack
  obtain ⟨hne, hfunctab⟩ := verifyFunctab_eq_ok hfunc
  obtain ⟨hlen, hdebugs⟩ := verifyFuncdebugtab_eq_ok hfuncdebug
  exact
    { debug_utf8 := verifyDebug_eq_ok hdebug
      moduleName := verifyModuleName_eq_ok hname
      symtab := hsymtab
      entries := fun u hu => (hunpacktab u hu).1
      keys := fun u hu => (hunpacktab u hu).2
      consttab := verifyConsttab_eq_ok hconst
      packtab := verifyPacktab_eq_ok hpack
      functab_ne := hne
      functab := hfunctab
      funcdebugtab_length := hlen
      funcdebugtab := hdebugs }

/-- A file that `verify` accepts has well-formed tables and verified functions. -/
theorem tablesOk_of_verify {content content' : Content} {buffer : List UInt8} {fuel : Nat}
    (h : verify content buffer fuel = .ok content') :
    content' = content ∧ ∃ main debug, content.main.slice buffer = some main ∧
      content.debug.slice buffer = some debug ∧ TablesOk content.index main debug ∧
      Verifier.check (fileContext content.index main)
        (content.index.functab.map fun e => (e.func, e.cert)) fuel = .ok () := by
  unfold verify at h
  simp only [bind_eq_ok, unwrap_eq_ok, mapErr_eq_ok, pure, Except.pure, Except.ok.injEq] at h
  obtain ⟨main, hmain, debug, hdebug, ⟨⟩, -, ⟨⟩, hutf8, ⟨⟩, hname, n, hsym, _, hunpack, ⟨⟩, hconst,
    ⟨⟩, hpack, ⟨⟩, hfunc, ⟨⟩, hfuncdebug, ⟨⟩, hcheck, rfl⟩ := h
  exact ⟨rfl, main, debug, hmain, hdebug,
    tablesOk_of_checks hutf8 hname hsym hunpack hconst hpack hfunc hfuncdebug, hcheck⟩

/-! ## The checks return -/

theorem verifyMain_returns (main : List UInt8) : Returns (verifyMain main) := by
  unfold verifyMain
  split <;> simp

theorem verifyDebug_returns (debug : List UInt8) : Returns (verifyDebug debug) := by
  unfold verifyDebug
  split
  · exact Returns.fail _
  · split <;> simp

theorem verifyModuleName_returns (moduleName : Option Span) (debug : List UInt8) :
    Returns (verifyModuleName moduleName debug) := by
  unfold verifyModuleName
  split
  · exact checkStr_returns _ _ _
  · exact Returns.ok _

theorem verifySymtab_returns (symtab : List SymEntry) (main : List UInt8) :
    Returns (verifySymtab symtab main) := by
  unfold verifySymtab
  simp only [fail_bind, returns_ite_fail]
  exact fun _ => Returns.bind (Returns.forEach fun i s _ => checkStr_returns _ _ _)
    fun _ _ => Returns.pure _

theorem verifyUnpacktab_returns (unpacktab : List UnpackSig) (symtabLen consttabLen : Nat) :
    Returns (verifyUnpacktab unpacktab symtabLen consttabLen) := by
  unfold verifyUnpacktab
  simp only [fail_bind, returns_ite_fail]
  refine fun _ => Returns.bind (Returns.forEach fun i u _ => ?_) fun _ _ => Returns.pure _
  rw [returns_ite_fail]
  exact fun _ => Returns.forEach fun j key _ => verifyUnpackKey_returns _ _ _ _ _

theorem verifyConsttab_returns (consttab : List Const) (main : List UInt8) (symtabLen : Nat) :
    Returns (verifyConsttab consttab main symtabLen) := by
  unfold verifyConsttab
  simp only [fail_bind, returns_ite_fail]
  exact fun _ => Returns.forEach fun i c _ => verifyConst_returns _ _ _ _

theorem verifyPacktab_returns (packtab : List (List Arg)) (symtabLen : Nat) :
    Returns (verifyPacktab packtab symtabLen) := by
  unfold verifyPacktab
  simp only [fail_bind, returns_ite_fail]
  refine fun _ => Returns.forEach fun i p _ => ?_
  rw [returns_ite_fail]
  exact fun _ => Returns.forEach fun j arg _ => verifyArg_returns _ _ _ _

theorem verifyFunctab_returns (functab : List FuncEntry) (unpacktab : List UnpackSig)
    (main : List UInt8) : Returns (verifyFunctab functab unpacktab main) := by
  unfold verifyFunctab
  simp only [fail_bind, returns_ite_fail]
  exact fun _ _ => Returns.forEach fun i e _ => verifyFunc_returns _ _ _ _

theorem verifyFuncdebugtab_returns (funcdebugtab : List FuncDebug) (functab : List FuncEntry)
    (debug : List UInt8) : Returns (verifyFuncdebugtab funcdebugtab functab debug) := by
  unfold verifyFuncdebugtab
  simp only [fail_bind, returns_ite_fail, not_and, not_not]
  refine fun hlen => Returns.forEach fun i c hc => verifyFuncDebug_returns _ _ ?_
  -- The table is not empty, so it has an entry for each function.
  have hlt := (List.getElem?_eq_some_iff.mp hc).1
  rw [← hlen (List.ne_nil_of_length_pos (by omega)), Nat.zero_add]
  exact hlt

/-- A file that `deserialize` accepts. -/
theorem verify_of_deserialize {pc : Postcard} {buffer : List UInt8} {fuel : Nat}
    {content : Content} (h : deserialize pc buffer fuel = .ok content) :
    verify content buffer fuel = .ok content := by
  unfold deserialize at h
  obtain ⟨content', -, hverify⟩ := bind_ok h
  obtain ⟨rfl, -⟩ := tablesOk_of_verify hverify
  exact hverify

end Dolang.Bytecode
