import Dolang.Bytecode.Verify
import Dolang.Lib.Bytes
import Dolang.Lib.Utf8

/-!
# Bytecode files

`dolang-bytecode/src/file.rs`: the tables of a bytecode file, reading it from a byte buffer
(`deserialize`) and the checks of its tables (`verify`).

Three values are decoded by the `postcard` crate: the header, the trailer and the index. The model
takes the decoders as a parameter (`Postcard`). What the reader needs of them is that a decoder that
returns the bytes it has not used does not return more than it was given (`Postcard.Lawful`).
-/

namespace Dolang.Bytecode

open Dolang.Rust Dolang.Utf8 Dolang.Bytes

/-! ## Limits -/

namespace Limit

def funcSize : Nat := 256 * 1024
def certEntries : Nat := 2^16
def funcTabEntries : Nat := 2^20
/-- Total frame slots, locals and operands, of a function. -/
def funcFrameSlots : Nat := 2^16
def sourceMapEntries : Nat := funcSize
def symbolTabEntries : Nat := 2^20
def constTabEntries : Nat := 2^20
def packTabEntries : Nat := 2^20
def unpackTabEntries : Nat := 2^20
def packEntries : Nat := 2^12
def unpackEntries : Nat := 2^12
def stringLength : Nat := 1024 * 1024
def binTabSize : Nat := 100 * 1024 * 1024
def debugBinTabSize : Nat := 100 * 1024 * 1024
def bytecodeFileSize : Nat := 100 * 1024 * 1024

end Limit

/-! ## Source spans -/

/-- `span::Span`: a position in the source and a length. It is packed into 64 bits, each field with
a largest value. -/
structure SourcePos where
  line : Nat
  column : Nat
  len : Nat
  deriving DecidableEq, Repr

def maxLine : Nat := 2^24 - 1
def maxColumn : Nat := 2^20 - 1
def maxLen : Nat := 2^20 - 1

/-- `span::Span::new`, which clamps each field. -/
def SourcePos.new (line column len : Nat) : SourcePos :=
  ⟨min line maxLine, min column maxColumn, min len maxLen⟩

/-- `SpanFields`: a span written out field by field. -/
structure SpanFields where
  line : Nat
  column : Nat
  len : Nat
  deriving DecidableEq, Repr

/-- `SpanFields::span`. -/
def SpanFields.span (f : SpanFields) : Option SourcePos :=
  if f.line ≤ maxLine ∧ f.column ≤ maxColumn ∧ f.len ≤ maxLen then
    some (SourcePos.new f.line f.column f.len)
  else none

/-- `SourceSpan`: an entry of a source map, relative to the entry before it. -/
structure SourceSpan where
  offsetDelta : Nat
  lineDelta : Int
  column : Int
  len : Nat
  deriving DecidableEq, Repr

/-- `SourceMapFault`. -/
inductive SourceMapFault where
  | offset
  | line
  | column
  | len
  deriving DecidableEq, Repr

/-- `u32::checked_add_signed`. -/
def u32AddSigned (a : Nat) (d : Int) : Option Nat :=
  if 0 ≤ (a : Int) + d ∧ (a : Int) + d < 2^32 then some ((a : Int) + d).toNat else none

/-- One entry of a source map: its offset, line and column, after those of the entry before it. -/
def SourceSpan.decode (state : Option (Nat × Nat × Nat)) (entry : SourceSpan) :
    Except SourceMapFault (Nat × Nat × Nat) := do
  let (offset, line, column) ← match state with
    | some (offset, line, column) =>
      match (checkedAdd offset entry.offsetDelta).bind (checkedAdd · 1) with
      | some offset => .ok (offset, line, column)
      | none => .error .offset
    | none => .ok (entry.offsetDelta, 0, 0)
  let newLine ← match (u32AddSigned line entry.lineDelta).filter (· ≤ maxLine) with
    | some l => .ok l
    | none => .error .line
  let newColumn := if entry.lineDelta = 0 then u32AddSigned column entry.column
    else if 0 ≤ entry.column then some entry.column.toNat else none
  let newColumn ← match newColumn.filter (· ≤ maxColumn) with
    | some c => .ok c
    | none => .error .column
  if entry.len > maxLen then .error .len else .ok (offset, newLine, newColumn)

/-- `FuncDebug::spans`: the offset and span of each entry, up to the first entry out of range. -/
def spans : Option (Nat × Nat × Nat) → List SourceSpan →
    List (Except SourceMapFault (Nat × SourcePos))
  | _, [] => []
  | state, entry :: entries =>
    match entry.decode state with
    | .error fault => [.error fault]
    | .ok (offset, line, column) =>
      .ok (offset, SourcePos.new line column entry.len) ::
        spans (some (offset, line, column)) entries

/-! ## Tables -/

/-- `Const`. A floating-point number is its bits. -/
inductive Const where
  | nil
  | int (v : Int)
  | verbatimInt (v : Int) (s : Span)
  | f64 (bits : UInt64)
  | verbatimF64 (bits : UInt64) (s : Span)
  | bool (b : Bool)
  | str (s : Span)
  | sym (index : Nat)
  | bin (s : Span)
  deriving DecidableEq, Repr

/-- `SymEntry`. -/
structure SymEntry where
  name : Span
  isPrivate : Bool
  deriving DecidableEq, Repr

/-- `UnpackKeyKind`: an index in the symbol or in the constant table. -/
inductive UnpackKeyKind where
  | sym (index : Nat)
  | const (index : Nat)
  deriving DecidableEq, Repr

/-- `UnpackKey`, with the constant that is the default of an optional key. -/
structure UnpackKey where
  kind : UnpackKeyKind
  default : Option Nat
  deriving DecidableEq, Repr

/-- `Rest`: what happens to leftover items of one kind. -/
inductive Rest where
  | none
  | discard
  | capture
  deriving DecidableEq, Repr

/-- `Variadic`. -/
inductive Variadic where
  | discard
  | capture
  | split (pos key : Rest)
  deriving DecidableEq, Repr

/-- `Variadic::captures`: the number of slots that the rests capture into. -/
def Variadic.captures : Variadic → Nat
  | .discard => 0
  | .capture => 1
  | .split pos key => (if pos = .capture then 1 else 0) + (if key = .capture then 1 else 0)

/-- `UnpackSig`. -/
structure UnpackSig where
  required : Nat
  /-- Constants that are the defaults of the optional positional arguments. -/
  optional : List Nat
  keys : List UnpackKey
  variadic : Variadic
  deriving DecidableEq, Repr

/-- `FuncEntry`. -/
structure FuncEntry where
  func : Func
  cert : Certificate
  deriving DecidableEq, Repr

/-- `FuncDebug`, with spans in the debug region. -/
structure FuncDebug where
  name : Span
  file : Span
  definition : SpanFields
  sourcemap : List SourceSpan
  deriving DecidableEq, Repr

/-- `Index`. -/
structure Index where
  symtab : List SymEntry
  consttab : List Const
  packtab : List (List Arg)
  unpacktab : List UnpackSig
  functab : List FuncEntry
  funcdebugtab : List FuncDebug
  moduleName : Option Span
  deriving DecidableEq, Repr

/-- `Content`: two regions of a buffer and the index. -/
structure Content where
  main : Span
  debug : Span
  index : Index
  deriving DecidableEq, Repr

/-- The errors of a file. -/
inductive FileError where
  | fileSizeLimit
  | invalidHeader
  | invalidTrailer
  | indexTrailingJunk
  | binTabLimit
  | debugBinTabLimit
  | invalidUtf8InDebugBinTab
  | symTabLimit
  | constTabLimit
  | packTabLimit
  | unpackTabLimit
  | packLimit (i : Nat)
  | stackSlotLimit (i : Nat)
  | codeLimit (i : Nat)
  | certLimit (i : Nat)
  | emptyCode (i : Nat)
  | funcTabLimit
  | funcTabEmpty
  | funcDebugTabWrongSize
  | sourceMapEmpty (i : Nat)
  | sourceMapLimit (i : Nat)
  | sourceMapOffsetBounds (i j : Nat)
  | sourceMapLineBounds (i j : Nat)
  | sourceMapColumnBounds (i j : Nat)
  | sourceMapLenBounds (i j : Nat)
  | sourceMapUnchanged (i j : Nat)
  | definitionBounds (i : Nat)
  | invalidStrInSymTab (i : Nat)
  | invalidStrInConstTab (i : Nat)
  | invalidBinInConstTab (i : Nat)
  | invalidSymInConstTab (i : Nat)
  | invalidSymInPackTab (i j : Nat)
  | invalidSymInUnpackTab (i j : Nat)
  | unpackLimit (i : Nat)
  | invalidConstInUnpackTab (i j : Nat)
  | constKeyInFunctionParam (i j : Nat)
  | invalidUnpackInFuncTab (i : Nat)
  | invalidStrInFuncDebugTab (i : Nat)
  | invalidFileInFuncDebugTab (i : Nat)
  | invalidCodeInFuncTab (i : Nat)
  | invalidModuleName
  | verify (e : VerifyError)
  /-- An error of `postcard`. -/
  | malformed
  deriving DecidableEq, Repr

/-! ## Reading a file -/

/-- `Header`. -/
structure Header where
  magic : List UInt8
  version : List UInt8
  deriving DecidableEq, Repr

/-- The header of every file. -/
def header : Header := ⟨[0xFF, 0x64, 0x6F, 0x62, 0x79, 0x74, 0x65, 0x63], [0, 0, 9]⟩

/-- `Region`: a region of the file, in absolute byte offsets. -/
structure Region where
  offset : Nat
  len : Nat
  deriving DecidableEq, Repr

/-- `Trailer`: the regions, at the end of the file. -/
structure Trailer where
  main : Region
  debug : Region
  index : Region
  deriving DecidableEq, Repr

def trailerSize : Nat := 48

/-- The decoders of `postcard`: `take_from_bytes` of a header and of an index, which also return
the bytes that are left, and `from_bytes` of a trailer. -/
structure Postcard where
  takeHeader : List UInt8 → Option (Header × List UInt8)
  trailer : List UInt8 → Option Trailer
  takeIndex : List UInt8 → Option (Index × List UInt8)

/-- What is left of a buffer is no longer than the buffer. -/
structure Postcard.Lawful (pc : Postcard) : Prop where
  header_rest : ∀ {bytes h rest}, pc.takeHeader bytes = some (h, rest) →
    rest.length ≤ bytes.length

/-- The closure `region` of `deserialize_raw`. -/
def Region.span (headerEnd trailerStart : Nat) (r : Region) : Option Span :=
  match checkedAdd r.offset r.len with
  | none => none
  | some stop =>
    if r.offset ≥ headerEnd ∧ stop ≤ trailerStart then some ⟨r.offset, stop⟩ else none

/-- `deserialize_raw`. -/
def deserializeRaw (pc : Postcard) (buffer : List UInt8) : Exec FileError Content := do
  if buffer.length > Limit.bytecodeFileSize then fail .fileSizeLimit
  let (h, rest) ← okOr .malformed (pc.takeHeader buffer)
  if h ≠ header then fail .invalidHeader
  let headerEnd ← unwrap (checkedSub buffer.length rest.length)
  let before ← okOr .invalidTrailer (checkedSub rest.length trailerSize)
  let trailerStart := before + headerEnd
  let bytes ← unwrap (Span.slice ⟨trailerStart, buffer.length⟩ buffer)
  let trailer ← okOr .malformed (pc.trailer bytes)
  let main ← okOr .invalidTrailer (trailer.main.span headerEnd trailerStart)
  let debug ← okOr .invalidTrailer (trailer.debug.span headerEnd trailerStart)
  let index ← okOr .invalidTrailer (trailer.index.span headerEnd trailerStart)
  let bytes ← unwrap (index.slice buffer)
  let (index, rest) ← okOr .malformed (pc.takeIndex bytes)
  if rest ≠ [] then fail .indexTrailingJunk
  return ⟨main, debug, index⟩

/-- `serialize`, for an index that `postcard` has encoded: the header, the regions and the
trailer. -/
def serialize (index main debug : List UInt8) : List UInt8 :=
  let start := header.magic.length + header.version.length
  let region (offset len : Nat) := leBytes offset 8 ++ leBytes len 8
  header.magic ++ header.version ++ main ++ debug ++ index ++
    region start main.length ++ region (start + main.length) debug.length ++
    region (start + main.length + debug.length) index.length

/-- The decoders on files with one given index. The header and the trailer have a fixed layout. -/
def filePostcard (bytes : List UInt8) (index : Index) : Postcard where
  takeHeader := fun buffer =>
    if 11 ≤ buffer.length then
      some (⟨buffer.take 8, (buffer.drop 8).take 3⟩, buffer.drop 11)
    else none
  trailer := fun buffer =>
    let word (i : Nat) := ofLe ((buffer.drop (8 * i)).take 8)
    if trailerSize ≤ buffer.length then
      some ⟨⟨word 0, word 1⟩, ⟨word 2, word 3⟩, ⟨word 4, word 5⟩⟩
    else none
  takeIndex := fun buffer => if buffer = bytes then some (index, []) else none

theorem filePostcard_lawful (bytes : List UInt8) (index : Index) :
    (filePostcard bytes index).Lawful := by
  refine ⟨fun {buffer h rest} hheader => ?_⟩
  unfold filePostcard at hheader
  simp only at hheader
  split at hheader
  · cases hheader
    simp
  · cases hheader

/-! ## Checking the tables -/

/-- The arity of an unpack, `FileContext::unpack_arity`. -/
def UnpackSig.arity (s : UnpackSig) : Exec Empty Nat := do
  let n ← strictAdd s.required s.optional.length
  let n ← strictAdd n s.keys.length
  strictAdd n s.variadic.captures

/-- `FileContext`: the tables of a file as a verification context. -/
def fileContext (index : Index) (code : List UInt8) : Context where
  code := code
  function := fun i => index.functab[i]?.map (·.func)
  pack := fun i => index.packtab[i]?
  unpackArity := fun i =>
    match index.unpacktab[i]? with
    | none => .ok none
    | some s => some <$> s.arity
  symbolValid := fun i => index.symtab[i]?.isSome
  constantValid := fun i => index.consttab[i]?.isSome

/-- `invalid_bin`. -/
def invalidBin (s : Span) (tab : List UInt8) : Bool :=
  s.start > s.stop || s.stop > tab.length || s.stop - s.start ≥ Limit.stringLength

/-- `invalid_str`. -/
def invalidStr (s : Span) (tab : List UInt8) : Exec FileError Bool :=
  if invalidBin s tab then .ok true
  else do
    let bytes ← unwrap (s.slice tab)
    return !isUtf8 bytes

/-- A check that a span is a string. -/
def checkStr (e : FileError) (s : Span) (tab : List UInt8) : Exec FileError Unit := do
  if ← invalidStr s tab then fail e

/-- `verify_main`. -/
def verifyMain (main : List UInt8) : Exec FileError Unit :=
  if main.length > Limit.binTabSize then fail .binTabLimit else .ok ()

/-- `verify_debug`. -/
def verifyDebug (debug : List UInt8) : Exec FileError Unit :=
  if debug.length > Limit.debugBinTabSize then fail .debugBinTabLimit
  else if isUtf8 debug then .ok () else fail .invalidUtf8InDebugBinTab

/-- `verify_module_name`. -/
def verifyModuleName (moduleName : Option Span) (debug : List UInt8) : Exec FileError Unit :=
  match moduleName with
  | some name => checkStr .invalidModuleName name debug
  | none => .ok ()

/-- `verify_symtab`. -/
def verifySymtab (symtab : List SymEntry) (main : List UInt8) : Exec FileError Nat := do
  if symtab.length > Limit.symbolTabEntries then fail .symTabLimit
  forEach (fun i s => checkStr (.invalidStrInSymTab i) s.name main) 0 symtab
  return symtab.length

/-- The check of one key in `verify_unpacktab`. -/
def verifyUnpackKey (symtabLen consttabLen i j : Nat) (key : UnpackKey) : Exec FileError Unit := do
  match key.kind with
  | .sym sym => if sym ≥ symtabLen then fail (.invalidSymInUnpackTab i j)
  | .const c => if c ≥ consttabLen then fail (.invalidConstInUnpackTab i j)
  match key.default with
  | some default => if default ≥ consttabLen then fail (.invalidConstInUnpackTab i j)
  | none => return

/-- The number of entries of an unpack as `verify_unpacktab` adds it up. -/
def UnpackSig.entries (u : UnpackSig) : Nat :=
  saturatingAdd (saturatingAdd (saturatingAdd u.required u.optional.length) u.keys.length)
    u.variadic.captures

/-- `verify_unpacktab`. -/
def verifyUnpacktab (unpacktab : List UnpackSig) (symtabLen consttabLen : Nat) :
    Exec FileError Nat := do
  if unpacktab.length > Limit.unpackTabEntries then fail .unpackTabLimit
  forEach (fun i u => do
    if u.entries > Limit.unpackEntries then fail (.unpackLimit i)
    forEach (fun j key => verifyUnpackKey symtabLen consttabLen i j key) 0 u.keys) 0 unpacktab
  return unpacktab.length

/-- The check of one constant in `verify_consttab`. -/
def verifyConst (main : List UInt8) (symtabLen i : Nat) : Const → Exec FileError Unit
  | .str s | .verbatimInt _ s | .verbatimF64 _ s => checkStr (.invalidStrInConstTab i) s main
  | .bin b => if invalidBin b main then fail (.invalidBinInConstTab i) else .ok ()
  | .sym idx => if idx ≥ symtabLen then fail (.invalidSymInConstTab i) else .ok ()
  | _ => .ok ()

/-- `verify_consttab`. -/
def verifyConsttab (consttab : List Const) (main : List UInt8) (symtabLen : Nat) :
    Exec FileError Unit := do
  if consttab.length > Limit.constTabEntries then fail .constTabLimit
  forEach (fun i c => verifyConst main symtabLen i c) 0 consttab

/-- The check of one argument in `verify_packtab`. -/
def verifyArg (symtabLen i j : Nat) : Arg → Exec FileError Unit
  | .key idx => if idx ≥ symtabLen then fail (.invalidSymInPackTab i j) else .ok ()
  | _ => .ok ()

/-- `verify_packtab`. -/
def verifyPacktab (packtab : List (List Arg)) (symtabLen : Nat) : Exec FileError Unit := do
  if packtab.length > Limit.packTabEntries then fail .packTabLimit
  forEach (fun i p => do
    if p.length > Limit.packEntries then fail (.packLimit i)
    forEach (fun j arg => verifyArg symtabLen i j arg) 0 p) 0 packtab

/-- The check of one function in `verify_functab`. -/
def verifyFunc (unpacktab : List UnpackSig) (main : List UInt8) (i : Nat) (entry : FuncEntry) :
    Exec FileError Unit := do
  let func := entry.func
  if func.sig ≥ unpacktab.length then fail (.invalidUnpackInFuncTab i)
  let sig ← unwrap unpacktab[func.sig]?
  forEach (fun j key =>
    match key.kind with
    | .const _ => fail (.constKeyInFunctionParam func.sig j)
    | .sym _ => .ok ()) 0 sig.keys
  if func.bytecode.start > func.bytecode.stop ∨ func.bytecode.stop > main.length then
    fail (.invalidCodeInFuncTab i)
  if func.bytecode.len = 0 then fail (.emptyCode i)
  if func.bytecode.len > Limit.funcSize then fail (.codeLimit i)
  if entry.cert.blocks.length > Limit.certEntries then fail (.certLimit i)
  if saturatingAdd entry.cert.maxOperandDepth func.locals > Limit.funcFrameSlots then
    fail (.stackSlotLimit i)

/-- `verify_functab`. -/
def verifyFunctab (functab : List FuncEntry) (unpacktab : List UnpackSig) (main : List UInt8) :
    Exec FileError Unit := do
  if functab = [] then fail .funcTabEmpty
  if functab.length > Limit.funcTabEntries then fail .funcTabLimit
  forEach (verifyFunc unpacktab main) 0 functab

/-- The error of a fault in a source map. -/
def SourceMapFault.error (i j : Nat) : SourceMapFault → FileError
  | .offset => .sourceMapOffsetBounds i j
  | .line => .sourceMapLineBounds i j
  | .column => .sourceMapColumnBounds i j
  | .len => .sourceMapLenBounds i j

/-- The loop of `verify_funcdebugtab` over a source map, from entry `j` on, with the last span. -/
def verifySourcemap (bytecodeLen i : Nat) :
    Nat → Option SourcePos → List (Except SourceMapFault (Nat × SourcePos)) → Exec FileError Unit
  | _, _, [] => .ok ()
  | j, _, .error fault :: _ => fail (fault.error i j)
  | j, last, .ok (offset, span) :: entries => do
    if (j = 0 ∧ offset ≠ 0) ∨ offset ≥ bytecodeLen then fail (.sourceMapOffsetBounds i j)
    if last = some span then fail (.sourceMapUnchanged i j)
    verifySourcemap bytecodeLen i (j + 1) (some span) entries

/-- The check of one function in `verify_funcdebugtab`. -/
def verifyFuncDebug (functab : List FuncEntry) (debug : List UInt8) (i : Nat) (c : FuncDebug) :
    Exec FileError Unit := do
  checkStr (.invalidStrInFuncDebugTab i) c.name debug
  checkStr (.invalidFileInFuncDebugTab i) c.file debug
  if c.sourcemap = [] then fail (.sourceMapEmpty i)
  if c.sourcemap.length > Limit.sourceMapEntries then fail (.sourceMapLimit i)
  if c.definition.span = none then fail (.definitionBounds i)
  let entry ← unwrap functab[i]?
  verifySourcemap entry.func.bytecode.len i 0 none (spans none c.sourcemap)

/-- `verify_funcdebugtab`. -/
def verifyFuncdebugtab (funcdebugtab : List FuncDebug) (functab : List FuncEntry)
    (debug : List UInt8) : Exec FileError Unit := do
  if funcdebugtab ≠ [] ∧ funcdebugtab.length ≠ functab.length then fail .funcDebugTabWrongSize
  forEach (verifyFuncDebug functab debug) 0 funcdebugtab

/-- `verify`. -/
def verify (content : Content) (buffer : List UInt8) (fuel : Nat) : Exec FileError Content := do
  let main ← unwrap (content.main.slice buffer)
  let debug ← unwrap (content.debug.slice buffer)
  let index := content.index
  verifyMain main
  verifyDebug debug
  verifyModuleName index.moduleName debug
  let symtabLen ← verifySymtab index.symtab main
  let _ ← verifyUnpacktab index.unpacktab symtabLen index.consttab.length
  verifyConsttab index.consttab main symtabLen
  verifyPacktab index.packtab symtabLen
  verifyFunctab index.functab index.unpacktab main
  verifyFuncdebugtab index.funcdebugtab index.functab debug
  mapErr .verify (Verifier.check (fileContext index main)
    (index.functab.map fun e => (e.func, e.cert)) fuel)
  return content

/-- `deserialize`. -/
def deserialize (pc : Postcard) (buffer : List UInt8) (fuel : Nat) : Exec FileError Content := do
  let content ← deserializeRaw pc buffer
  verify content buffer fuel

end Dolang.Bytecode
