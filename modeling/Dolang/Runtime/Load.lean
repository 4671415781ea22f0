import Dolang.Bytecode.Deserialize

/-!
# Loading a program

`Vm::load_bytecode` of `dolang-runtime/src/vm.rs` turns the tables of a verified file into those of
a running program. It indexes them without checks of its own, so a reference that leads nowhere is a
panic. `load_iff` says exactly which accepted files load and have debug strings that can be sliced:
those whose optional positional defaults are in the constant table, which no check covers, and whose
empty debug strings are not inside a character, which the check of a slice on its own cannot see.
-/

namespace Dolang.Runtime

open Dolang.Rust Dolang.Utf8 Dolang.Bytecode

/-! ## Runtime tables -/

/-- A symbol object: its name, and an identity of its own when it is private. -/
structure SymObj where
  name : List UInt8
  unique : Option Nat
  deriving DecidableEq, Repr

/-- A constant as a runtime value. -/
inductive ConstValue where
  | nil
  | int (v : Int)
  | verbatimInt (v : Int) (s : List UInt8)
  | f64 (bits : UInt64)
  | verbatimF64 (bits : UInt64) (s : List UInt8)
  | bool (b : Bool)
  | str (s : List UInt8)
  | sym (s : SymObj)
  | bin (s : List UInt8)
  deriving DecidableEq, Repr

/-- `sig::Arg`. -/
inductive SigArg where
  | pos
  | key (s : SymObj)
  | expand
  deriving DecidableEq, Repr

/-- `sig::Pack`. -/
inductive Pack where
  | fixed (syms : List (Option SymObj))
  | var (args : List SigArg)
  deriving DecidableEq, Repr

/-- `sig::Pack::len`. -/
def Pack.len : Pack → Nat
  | .fixed syms => syms.length
  | .var args => args.length

/-- `sig::UnpackKeyKind`. -/
inductive KeyKind where
  | sym (s : SymObj)
  | const (v : ConstValue)
  deriving DecidableEq, Repr

/-- `sig::UnpackKey`. -/
structure Key where
  kind : KeyKind
  default : Option ConstValue
  deriving DecidableEq, Repr

/-- `sig::Unpack`, without the index of its symbol keys. -/
structure Unpack where
  required : Nat
  optional : List ConstValue
  keys : List Key
  variadic : Variadic
  deriving DecidableEq, Repr

/-- `sig::Unpack::len`. -/
def Unpack.len (u : Unpack) : Nat :=
  u.required + u.optional.length + u.keys.length + u.variadic.captures

/-- A function's debug information with its source map decoded. -/
structure LoadedDebug where
  name : Span
  file : Span
  definition : SourcePos
  sourcemap : List (Nat × SourcePos)
  deriving DecidableEq, Repr

/-- `ProgramAnnex`. A function comes with the number of slots of its frame. -/
structure Program where
  bytecode : List UInt8
  funcs : List (Func × Nat)
  symtab : List SymObj
  consttab : List ConstValue
  packtab : List Pack
  unpacktab : List Unpack
  debugbintab : Span
  funcdebugs : List LoadedDebug
  moduleName : Option Span
  deriving DecidableEq, Repr

/-! ## Loading -/

/-- `std::str::from_utf8(..).expect(..)`. -/
def expectUtf8 (bytes : List UInt8) : Exec Empty (List UInt8) :=
  if isUtf8 bytes then .ok bytes else abort

/-- An entry of the function table. -/
def loadFunc (mainStart : Nat) (e : FuncEntry) : Exec Empty (Func × Nat) := do
  let start ← strictAdd mainStart e.func.bytecode.start
  let stop ← strictAdd mainStart e.func.bytecode.stop
  let slots ← strictAdd e.cert.maxOperandDepth e.func.locals
  return ({ e.func with bytecode := ⟨start, stop⟩ }, slots)

/-- An entry of the symbol table with its index. -/
def loadSym (main : List UInt8) (s : Nat × SymEntry) : Exec Empty SymObj := do
  let bytes ← unwrap (s.2.name.slice main)
  let name ← expectUtf8 bytes
  return ⟨name, if s.2.isPrivate then some s.1 else none⟩

/-- An entry of the constant table. -/
def loadConst (main : List UInt8) (symroots : List SymObj) : Const → Exec Empty ConstValue
  | .nil => .ok .nil
  | .int v => .ok (.int v)
  | .verbatimInt v s => do
    let bytes ← unwrap (s.slice main)
    return .verbatimInt v (← expectUtf8 bytes)
  | .f64 bits => .ok (.f64 bits)
  | .verbatimF64 bits s => do
    let bytes ← unwrap (s.slice main)
    return .verbatimF64 bits (← expectUtf8 bytes)
  | .bool b => .ok (.bool b)
  | .str s => do
    let bytes ← unwrap (s.slice main)
    return .str bytes
  | .bin s => do
    let bytes ← unwrap (s.slice main)
    return .bin bytes
  | .sym idx => do
    let s ← unwrap symroots[idx]?
    return .sym s

/-- An argument of a pack that expands others. -/
def loadArg (symroots : List SymObj) : Arg → Exec Empty SigArg
  | .value => .ok .pos
  | .pack => .ok .expand
  | .key id => do
    let s ← unwrap symroots[id]?
    return .key s

/-- An argument of a pack that expands none. -/
def loadFixedArg (symroots : List SymObj) : Arg → Exec Empty (Option SymObj)
  | .value => .ok none
  | .pack => abort
  | .key id => do
    let s ← unwrap symroots[id]?
    return some s

/-- An entry of the pack table. -/
def loadPack (symroots : List SymObj) (s : List Arg) : Exec Empty Pack :=
  if s.any (· == .pack) then do
    let args ← mapAll (loadArg symroots) s
    return .var args
  else do
    let syms ← mapAll (loadFixedArg symroots) s
    return .fixed syms

/-- The kind of a key. -/
def loadKeyKind (symroots : List SymObj) (consttab : List ConstValue) :
    UnpackKeyKind → Exec Empty KeyKind
  | .sym idx => do
    let s ← unwrap symroots[idx]?
    return .sym s
  | .const idx => do
    let v ← unwrap consttab[idx]?
    return .const v

/-- The default of a key. -/
def loadDefault (consttab : List ConstValue) : Option Nat → Exec Empty (Option ConstValue)
  | some d => do
    let v ← unwrap consttab[d]?
    return some v
  | none => return none

/-- A key of an unpack. -/
def loadKey (symroots : List SymObj) (consttab : List ConstValue) (key : UnpackKey) :
    Exec Empty Key := do
  let kind ← loadKeyKind symroots consttab key.kind
  let default ← loadDefault consttab key.default
  return ⟨kind, default⟩

/-- An entry of the unpack table. -/
def loadUnpack (symroots : List SymObj) (consttab : List ConstValue) (u : UnpackSig) :
    Exec Empty Unpack := do
  let optional ← mapAll (fun d => unwrap consttab[d]?) u.optional
  let keys ← mapAll (loadKey symroots consttab) u.keys
  return ⟨u.required, optional, keys, u.variadic⟩

/-- An entry of the debug table. -/
def loadDebug (debug : FuncDebug) : Exec Empty LoadedDebug := do
  let sourcemap ← mapAll
    (fun r => match r with
      | .ok p => .ok p
      | .error (_ : SourceMapFault) => abort) (spans none debug.sourcemap)
  let definition ← unwrap debug.definition.span
  return ⟨debug.name, debug.file, definition, sourcemap⟩

/-- `Vm::load_bytecode`. -/
def loadBytecode (content : Content) (buffer : List UInt8) : Exec Empty Program := do
  let main ← unwrap (content.main.slice buffer)
  let index := content.index
  let funcs ← mapAll (loadFunc content.main.start) index.functab
  let symroots ← mapAll (loadSym main) ((List.range index.symtab.length).zip index.symtab)
  let consttab ← mapAll (loadConst main symroots) index.consttab
  let packtab ← mapAll (loadPack symroots) index.packtab
  let unpacktab ← mapAll (loadUnpack symroots consttab) index.unpacktab
  let funcdebugs ← mapAll loadDebug index.funcdebugtab
  return ⟨buffer, funcs, symroots, consttab, packtab, unpacktab, content.debug, funcdebugs,
    index.moduleName⟩

/-- A slice of the debug string table, `&program.debug_strtab()[span]`. -/
def debugStr (debug : List UInt8) (s : Span) : Exec Empty (List UInt8) :=
  if s.start ≤ s.stop ∧ s.stop ≤ debug.length ∧ isCharBoundary debug s.start ∧
      isCharBoundary debug s.stop then
    unwrap (s.slice debug)
  else abort

/-- The spans of a file in its debug region. -/
def debugSpans (index : Index) : List Span :=
  index.moduleName.toList ++ index.funcdebugtab.flatMap fun c => [c.name, c.file]

/-! ## Where loading succeeds -/

theorem expectUtf8_eq_ok {bytes s : List UInt8} :
    expectUtf8 bytes = .ok s ↔ isUtf8 bytes = true ∧ s = bytes := by
  unfold expectUtf8
  split
  · rename_i h
    simp only [Except.ok.injEq, h, true_and]
    exact eq_comm
  · rename_i h
    simp [abort, h]

section

variable {main : List UInt8} {symroots : List SymObj} {consttab : List ConstValue}

/-- An index that is in range. -/
theorem exists_unwrap {α : Type} {l : List α} {i : Nat} :
    (∃ a, (unwrap l[i]? : Exec Empty α) = .ok a) ↔ i < l.length := by
  simp only [unwrap_eq_ok]
  constructor
  · rintro ⟨a, ha⟩
    exact (List.getElem?_eq_some_iff.mp ha).1
  · exact fun h => ⟨_, List.getElem?_eq_getElem h⟩

theorem exists_loadSym {s : Nat × SymEntry} (h : IsStr s.2.name main) :
    ∃ o, loadSym main s = .ok o := by
  obtain ⟨-, bytes, hslice, hutf8⟩ := h
  refine ⟨⟨bytes, if s.2.isPrivate then some s.1 else none⟩, ?_⟩
  simp [loadSym, hslice, unwrap, expectUtf8, hutf8, pure, Except.pure]

theorem exists_loadConst {c : Const} (h : ConstOk main symroots.length c) :
    ∃ v, loadConst main symroots c = .ok v := by
  cases c <;> simp only [ConstOk] at h
  case verbatimInt v s | verbatimF64 v s | str s =>
    obtain ⟨-, bytes, hslice, hutf8⟩ := h
    simp [loadConst, hslice, unwrap, expectUtf8, hutf8, pure, Except.pure]
  case bin s =>
    obtain ⟨bytes, hslice⟩ := h.slice
    simp [loadConst, hslice, unwrap, pure, Except.pure]
  case sym idx =>
    simp [loadConst, List.getElem?_eq_getElem h, unwrap, pure, Except.pure]
  all_goals exact ⟨_, rfl⟩

theorem exists_loadPack {s : List Arg} (h : ∀ arg ∈ s, ArgOk symroots.length arg) :
    ∃ p, loadPack symroots s = .ok p := by
  unfold loadPack
  split
  · have hargs : ∃ args, mapAll (loadArg symroots) s = .ok args := by
      refine exists_mapAll_eq_ok.mpr fun arg harg => ?_
      have hok := h arg harg
      cases arg with
      | key id => simp [loadArg, List.getElem?_eq_getElem hok, unwrap, pure, Except.pure]
      | value => exact ⟨_, rfl⟩
      | pack => exact ⟨_, rfl⟩
    obtain ⟨args, hargs⟩ := hargs
    exact ⟨.var args, by rw [hargs]; rfl⟩
  · rename_i hany
    have hsyms : ∃ syms, mapAll (loadFixedArg symroots) s = .ok syms := by
      refine exists_mapAll_eq_ok.mpr fun arg harg => ?_
      have hok := h arg harg
      cases arg with
      | key id => simp [loadFixedArg, List.getElem?_eq_getElem hok, unwrap, pure, Except.pure]
      | value => exact ⟨_, rfl⟩
      | pack => exact absurd (List.any_eq_true.mpr ⟨_, harg, rfl⟩) hany
    obtain ⟨syms, hsyms⟩ := hsyms
    exact ⟨.fixed syms, by rw [hsyms]; rfl⟩

theorem exists_loadKey {key : UnpackKey} (h : KeyOk symroots.length consttab.length key) :
    ∃ k, loadKey symroots consttab key = .ok k := by
  obtain ⟨kind, default⟩ := key
  obtain ⟨hkind, hdefault⟩ := h
  have hk : ∃ k, loadKeyKind symroots consttab kind = .ok k := by
    cases kind <;>
      simp only at hkind <;>
      simp [loadKeyKind, List.getElem?_eq_getElem hkind, unwrap, pure, Except.pure]
  have hd : ∃ d, loadDefault consttab default = .ok d := by
    cases default with
    | none => exact ⟨_, rfl⟩
    | some d =>
      have hlt := hdefault d rfl
      simp [loadDefault, List.getElem?_eq_getElem hlt, unwrap, pure, Except.pure]
  obtain ⟨k, hk⟩ := hk
  obtain ⟨d, hd⟩ := hd
  exact ⟨⟨k, d⟩, by simp only [loadKey, hk, hd, ok_bind]; rfl⟩

/-- An unpack loads when its optional defaults are constants. -/
theorem exists_loadUnpack {u : UnpackSig}
    (h : ∀ key ∈ u.keys, KeyOk symroots.length consttab.length key) :
    (∃ v, loadUnpack symroots consttab u = .ok v) ↔ ∀ d ∈ u.optional, d < consttab.length := by
  have hkeys : ∃ keys, mapAll (loadKey symroots consttab) u.keys = .ok keys :=
    exists_mapAll_eq_ok.mpr fun key hkey => exists_loadKey (h key hkey)
  obtain ⟨keys, hkeys⟩ := hkeys
  have hopt : (∃ o, mapAll (fun d => (unwrap consttab[d]? : Exec Empty _)) u.optional = .ok o) ↔
      ∀ d ∈ u.optional, d < consttab.length := by
    rw [exists_mapAll_eq_ok]
    exact forall₂_congr fun d _ => exists_unwrap
  rw [← hopt]
  unfold loadUnpack
  simp only [bind_eq_ok, hkeys, Except.ok.injEq, exists_eq_left', pure, Except.pure]
  constructor
  · rintro ⟨-, o, ho, -⟩
    exact ⟨o, ho⟩
  · rintro ⟨o, ho⟩
    exact ⟨_, o, ho, rfl⟩

end

theorem exists_loadDebug {debug : List UInt8} {c : FuncDebug} (h : DebugOk debug c) :
    ∃ d, loadDebug c = .ok d := by
  have hmap : ∃ m, mapAll (fun r => (match r with
      | .ok p => .ok p
      | .error (_ : SourceMapFault) => abort : Exec Empty (Nat × SourcePos)))
      (spans none c.sourcemap) = .ok m := by
    refine exists_mapAll_eq_ok.mpr fun r hr => ?_
    obtain ⟨p, rfl⟩ := h.sourcemap r hr
    exact ⟨p, rfl⟩
  obtain ⟨m, hmap⟩ := hmap
  obtain ⟨pos, hpos⟩ := Option.ne_none_iff_exists'.mp h.definition
  exact ⟨⟨c.name, c.file, pos, m⟩, by unfold loadDebug; rw [hmap, hpos]; rfl⟩

theorem exists_loadFunc {unpacktab : List UnpackSig} {main : List UInt8} {e : FuncEntry}
    {mainStart : Nat} (h : FuncOk unpacktab main e) (hstart : mainStart + main.length ≤ usizeMax) :
    ∃ f, loadFunc mainStart e = .ok f := by
  obtain ⟨hlt, hstop⟩ := h.bytecode
  have hslots := h.slots
  have hlimit : Limit.funcFrameSlots < usizeMax := by decide
  unfold saturatingAdd at hslots
  unfold loadFunc strictAdd
  rw [if_pos (by omega), if_pos (by omega), if_pos (by omega)]
  exact ⟨_, rfl⟩

/-! ## References -/

/-- Every reference of a file's tables resolves. -/
structure Closed (index : Index) (main debug : List UInt8) : Prop where
  /-- Symbols in the pack table. -/
  packtab : ∀ p ∈ index.packtab, ∀ arg ∈ p, ArgOk index.symtab.length arg
  /-- Symbols and constants in the keys of the unpack table and their defaults. -/
  keys : ∀ u ∈ index.unpacktab, ∀ key ∈ u.keys,
    KeyOk index.symtab.length index.consttab.length key
  /-- Constants that are optional positional defaults. -/
  optional : ∀ u ∈ index.unpacktab, ∀ d ∈ u.optional, d < index.consttab.length
  /-- Symbols and spans in the constant table. -/
  consttab : ∀ c ∈ index.consttab, ConstOk main index.symtab.length c
  /-- Names of symbols. -/
  symtab : ∀ s ∈ index.symtab, IsStr s.name main
  /-- Signatures of functions. -/
  sigs : ∀ e ∈ index.functab, e.func.sig < index.unpacktab.length
  /-- Code of functions. -/
  code : ∀ e ∈ index.functab, ∃ bytes, e.func.bytecode.slice main = some bytes
  /-- Debug strings. -/
  debug : ∀ s ∈ debugSpans index, ∃ bytes, debugStr debug s = .ok bytes

/-- Optional positional defaults are in the constant table. -/
def OptionalsInRange (index : Index) : Prop :=
  ∀ u ∈ index.unpacktab, ∀ d ∈ u.optional, d < index.consttab.length

/-- No empty debug string lies inside a character. -/
def EmptySpansAligned (index : Index) (debug : List UInt8) : Prop :=
  ∀ s ∈ debugSpans index, s.start = s.stop → isCharBoundary debug s.start = true

/-- A debug string that was checked can be sliced, unless it is empty and inside a character. -/
theorem exists_debugStr {debug : List UInt8} {s : Span} (hutf8 : isUtf8 debug = true)
    (h : IsStr s debug) :
    (∃ bytes, debugStr debug s = .ok bytes) ↔
      (s.start = s.stop → isCharBoundary debug s.start = true) := by
  obtain ⟨⟨hle, hstop, -⟩, bytes, hslice, hbytes⟩ := h
  have hiff : (∃ bytes, debugStr debug s = .ok bytes) ↔
      isCharBoundary debug s.start = true ∧ isCharBoundary debug s.stop = true := by
    unfold debugStr
    simp only [hle, hstop, true_and]
    split
    · rename_i hb
      simp [hslice, unwrap, hb]
    · rename_i hb
      simp only [abort, reduceCtorEq, exists_false, false_iff]
      exact hb
  rw [hiff]
  by_cases heq : s.start = s.stop
  · simp [heq]
  · -- A string that is not empty starts and ends between characters.
    unfold Span.slice at hslice
    rw [if_pos ⟨hle, hstop⟩] at hslice
    cases hslice
    have htake : debug.take s.start = (debug.take s.stop).take s.start := by
      rw [List.take_take, Nat.min_eq_left hle]
    have hsplit : debug.take s.start ++ ((debug.take s.stop).drop s.start ++ debug.drop s.stop) =
        debug := by
      rw [htake, ← List.append_assoc, List.take_append_drop, List.take_append_drop]
    have hstart : (debug.take s.start).length = s.start := by
      rw [List.length_take]
      omega
    have hlen : ((debug.take s.stop).drop s.start).length = s.stop - s.start := by
      rw [List.length_drop, List.length_take]
      omega
    have hne : (debug.take s.stop).drop s.start ≠ [] := by
      rw [← List.length_pos_iff, hlen]
      omega
    have hbound := isCharBoundary_of_slice (by rw [hsplit]; exact hutf8) hbytes hne
    rw [hsplit, hstart, hlen, Nat.add_sub_cancel' hle] at hbound
    simp only [heq, false_implies, iff_true]
    exact hbound

/-- A buffer that is decoded is within the limit on file sizes. -/
theorem deserialize_size {pc : Postcard} {buffer : List UInt8} {fuel : Nat} {content : Content}
    (h : deserialize pc buffer fuel = .ok content) : buffer.length ≤ Limit.bytecodeFileSize := by
  unfold deserialize at h
  obtain ⟨content', hraw, -⟩ := bind_ok h
  unfold deserializeRaw at hraw
  simp only [fail_bind, ite_fail_eq_ok] at hraw
  omega

/-- The tables of an accepted file load exactly when the optional defaults are in range. -/
theorem exists_loadBytecode {content : Content} {buffer main debug : List UInt8}
    (hmain : content.main.slice buffer = some main) (hsize : buffer.length ≤ usizeMax)
    (h : TablesOk content.index main debug) :
    (∃ program, loadBytecode content buffer = .ok program) ↔ OptionalsInRange content.index := by
  have hstart : content.main.start + main.length ≤ usizeMax := by
    unfold Span.slice at hmain
    split at hmain
    · cases hmain
      rw [List.length_drop, List.length_take]
      omega
    · cases hmain
  obtain ⟨funcs, hfuncs⟩ : ∃ f, mapAll (loadFunc content.main.start) content.index.functab =
      .ok f := exists_mapAll_eq_ok.mpr fun e he => exists_loadFunc (h.functab e he) hstart
  obtain ⟨symroots, hsyms⟩ : ∃ r, mapAll (loadSym main)
      ((List.range content.index.symtab.length).zip content.index.symtab) = .ok r :=
    exists_mapAll_eq_ok.mpr fun s hs => exists_loadSym (h.symtab s.2 (List.of_mem_zip hs).2)
  have hsymlen : symroots.length = content.index.symtab.length := by
    have hlen := (mapAll_eq_ok.mp hsyms).length_eq
    simpa using hlen.symm
  obtain ⟨consttab, hconsts⟩ : ∃ c, mapAll (loadConst main symroots) content.index.consttab =
      .ok c :=
    exists_mapAll_eq_ok.mpr fun c hc => exists_loadConst (hsymlen ▸ h.consttab c hc)
  have hconstlen : consttab.length = content.index.consttab.length :=
    (mapAll_eq_ok.mp hconsts).length_eq.symm
  obtain ⟨packtab, hpacks⟩ : ∃ p, mapAll (loadPack symroots) content.index.packtab = .ok p :=
    exists_mapAll_eq_ok.mpr fun p hp => exists_loadPack (hsymlen ▸ (h.packtab p hp).2)
  obtain ⟨funcdebugs, hdebugs⟩ : ∃ d, mapAll loadDebug content.index.funcdebugtab = .ok d :=
    exists_mapAll_eq_ok.mpr fun c hc => exists_loadDebug (h.funcdebugtab c hc)
  -- What is left is the unpack table.
  have hunpacks : (∃ u, mapAll (loadUnpack symroots consttab) content.index.unpacktab = .ok u) ↔
      OptionalsInRange content.index := by
    rw [exists_mapAll_eq_ok]
    refine forall₂_congr fun u hu => ?_
    rw [exists_loadUnpack (by rw [hsymlen, hconstlen]; exact h.keys u hu), hconstlen]
  rw [← hunpacks]
  unfold loadBytecode
  simp only [hmain, unwrap, ok_bind, hfuncs, hsyms, hconsts, hpacks, bind_eq_ok, hdebugs,
    Except.ok.injEq, pure, Except.pure]
  constructor
  · rintro ⟨-, u, hu, -⟩
    exact ⟨u, hu⟩
  · rintro ⟨u, hu⟩
    exact ⟨_, u, hu, rfl⟩

/-- The references of an accepted file resolve and its tables load exactly when its optional
positional defaults are constants and no empty debug string is inside a character. -/
theorem load_iff {pc : Postcard} {buffer : List UInt8} {fuel : Nat} {content : Content}
    (h : deserialize pc buffer fuel = .ok content) :
    ∃ main debug, content.main.slice buffer = some main ∧
      content.debug.slice buffer = some debug ∧
      ((Closed content.index main debug ∧ ∃ program, loadBytecode content buffer = .ok program) ↔
        OptionalsInRange content.index ∧ EmptySpansAligned content.index debug) := by
  have hsize := deserialize_size h
  obtain ⟨-, main, debug, hmain, hdebug, htables, -⟩ := tablesOk_of_verify (verify_of_deserialize h)
  have hloads := exists_loadBytecode hmain
    (hsize.trans (by decide : Limit.bytecodeFileSize ≤ usizeMax)) htables
  have hstrs : ∀ s ∈ debugSpans content.index, IsStr s debug := by
    intro s hs
    rcases List.mem_append.mp hs with hs | hs
    · exact htables.moduleName s (Option.mem_toList.mp hs)
    · obtain ⟨c, hc, hs⟩ := List.mem_flatMap.mp hs
      have hok := htables.funcdebugtab c hc
      rcases List.mem_cons.mp hs with rfl | hs
      · exact hok.name
      · obtain rfl : s = c.file := by simpa using hs
        exact hok.file
  have hdebugs : (∀ s ∈ debugSpans content.index, ∃ bytes, debugStr debug s = .ok bytes) ↔
      EmptySpansAligned content.index debug :=
    forall₂_congr fun s hs => exists_debugStr htables.debug_utf8 (hstrs s hs)
  refine ⟨main, debug, hmain, hdebug, ?_⟩
  constructor
  · rintro ⟨hclosed, hload⟩
    exact ⟨hloads.mp hload, hdebugs.mp hclosed.debug⟩
  · rintro ⟨hopt, haligned⟩
    refine ⟨⟨fun p hp => (htables.packtab p hp).2, htables.keys, hopt, htables.consttab,
      htables.symtab, fun e he => ?_, fun e he => ?_, hdebugs.mpr haligned⟩, hloads.mpr hopt⟩
    · obtain ⟨sig, hsig, -⟩ := (htables.functab e he).sig
      exact (List.getElem?_eq_some_iff.mp hsig).1
    · obtain ⟨hlt, hstop⟩ := (htables.functab e he).bytecode
      exact ⟨_, if_pos ⟨hlt.le, hstop⟩⟩

/-- The file with the looping function is accepted and loads. -/
theorem loopFile_load_iff :
    deserialize (filePostcard loopIndexBytes (oneFuncIndex loopFunc loopCert)) loopFile 10 =
      .ok ⟨⟨11, 22⟩, ⟨22, 22⟩, oneFuncIndex loopFunc loopCert⟩ ∧
    ∃ program, loadBytecode ⟨⟨11, 22⟩, ⟨22, 22⟩, oneFuncIndex loopFunc loopCert⟩ loopFile =
      .ok program := by
  have hread : deserialize (filePostcard loopIndexBytes (oneFuncIndex loopFunc loopCert))
      loopFile 10 = .ok ⟨⟨11, 22⟩, ⟨22, 22⟩, oneFuncIndex loopFunc loopCert⟩ := by decide +kernel
  obtain ⟨main, debug, -, -, hiff⟩ := load_iff hread
  refine ⟨hread, (hiff.mpr ⟨?_, ?_⟩).2⟩
  · intro u hu d hd
    obtain rfl : u = ⟨0, [], [], .split .none .none⟩ := by simpa [oneFuncIndex] using hu
    cases hd
  · intro s hs
    cases hs

/-- A file whose second unpack has a default that is no constant. -/
def strayIndex : Index :=
  { oneFuncIndex ⟨0, 0, [], ⟨0, 3⟩⟩ ⟨1, []⟩ with
    unpacktab := [⟨0, [], [], .split .none .none⟩, ⟨0, [5], [], .split .none .none⟩] }

/-- Its encoded index. -/
def strayIndexBytes : List UInt8 :=
  [0, 1, 0, 0, 2, 0, 0, 0, 2, 0, 0, 0, 1, 5, 0, 2, 0, 0, 1, 0, 0, 0, 0, 3, 1, 0, 0, 0]

/-- The file is accepted, and loading it panics. -/
theorem strayFile_panics :
    deserialize (filePostcard strayIndexBytes strayIndex) (serialize strayIndexBytes [10, 1, 38] [])
      10 = .ok ⟨⟨11, 14⟩, ⟨14, 14⟩, strayIndex⟩ ∧
    loadBytecode ⟨⟨11, 14⟩, ⟨14, 14⟩, strayIndex⟩ (serialize strayIndexBytes [10, 1, 38] []) =
      .error .panic := by
  decide +kernel

end Dolang.Runtime
