import Dolang.Bytecode.Tables
import Dolang.Bytecode.Paths
import Dolang.Bytecode.Total

/-!
# Reading a file returns

`deserialize` ends with a file or an error and does not panic, for every buffer whose certificates
fit their functions (`Content.Fits`). The checks of the tables come before what relies on them: the
limits on unpacks keep the arities and operand depths small, and the function table has a signature
and code for each function before its code is verified.

`shortFile` is a file with a certificate that does not fit. Reading it panics.
-/

namespace Dolang.Bytecode

open Dolang.Rust Dolang.Utf8

/-! ## The tables as a context -/

/-- The arity of an unpack within the limit is the number of its entries. -/
theorem arity_of_entries {u : UnpackSig} (h : u.entries ≤ Limit.unpackEntries) :
    u.arity = .ok u.entries := by
  have hmax : Limit.unpackEntries < usizeMax := by decide
  unfold UnpackSig.entries saturatingAdd at h ⊢
  unfold UnpackSig.arity strictAdd
  rw [if_pos (by omega), ok_bind, if_pos (by omega), ok_bind, if_pos (by omega)]
  congr 1
  omega

section

variable {index : Index} {main debug : List UInt8} (h : TablesOk index main debug)
include h

/-- The arities of the unpack table are those of its entries. -/
theorem TablesOk.unpackArity (u : Nat) :
    ∃ o, (fileContext index main).unpackArity u = .ok o ∧
      ∀ n, o = some n → n ≤ Limit.unpackEntries := by
  unfold fileContext
  cases hu : index.unpacktab[u]? with
  | none => exact ⟨none, by simp [hu], by simp⟩
  | some s =>
    have hle := h.entries s (List.mem_of_getElem? hu)
    refine ⟨some s.entries, ?_, fun n hn => by cases hn; exact hle⟩
    simp only [hu, arity_of_entries hle]
    rfl

theorem TablesOk.unpackLen_le (u : Nat) :
    (fileContext index main).unpackLen u ≤ Limit.unpackEntries := by
  obtain ⟨o, ho, hle⟩ := h.unpackArity u
  unfold Context.unpackLen
  rw [ho]
  cases o with
  | none => exact Nat.zero_le _
  | some n => exact hle n rfl

/-- No instruction adds more operands than an unpack may have entries. -/
theorem TablesOk.growth_le (i : InstOffsets) :
    growth (fileContext index main) i ≤ Limit.unpackEntries := by
  obtain ⟨before, inst, after⟩ := i
  have hlimit : Limit.unpackEntries = 4096 := rfl
  cases inst <;> simp only [growth, pushes] <;> try omega
  case unpack u => exact h.unpackLen_le u
  case unpackBranch u _ =>
    have := h.unpackLen_le u
    omega

end

/-- A chain has no more instructions than the code has bytes. -/
theorem Chain.length_le {code : List UInt8} {l : List InstOffsets} {pos : Nat}
    (h : Chain code pos l) (hpos : pos ≤ code.length) : pos + l.length ≤ code.length := by
  induction l generalizing pos with
  | nil => simpa using hpos
  | cons i l ih =>
    obtain ⟨rfl, hnext, h⟩ := h
    have hbounds := next_bounds hnext
    have hle := ih h (by omega)
    simp only [List.length_cons]
    omega

theorem growthSum_le {ctx : Context} {l : List InstOffsets} {n : Nat}
    (h : ∀ i ∈ l, growth ctx i ≤ n) : growthSum ctx l ≤ l.length * n := by
  induction l with
  | nil => simp [growthSum]
  | cons i l ih =>
    have hi := h i (by simp)
    have hl := ih fun j hj => h j (by simp [hj])
    simp only [growthSum, List.map_cons, List.sum_cons, List.length_cons, Nat.succ_mul] at hl ⊢
    omega

/-- The limits on the size of a function and on the entries of an unpack bound the operands of a
function of checked tables. -/
theorem TablesOk.room {index : Index} {main debug : List UInt8} (h : TablesOk index main debug)
    {e : FuncEntry} (he : e ∈ index.functab) {bytecode : List UInt8} {l : List InstOffsets}
    {arity : Nat} (hslice : e.func.bytecode.slice main = some bytecode)
    (hinsts : insts bytecode 0 = l.map .ok)
    (harity : (fileContext index main).unpackArity e.func.sig = .ok (some arity)) :
    arity + 2 * growthSum (fileContext index main) l < usizeMax := by
  have hfunc := h.functab e he
  obtain ⟨o, ho, harityle⟩ := h.unpackArity e.func.sig
  rw [harity] at ho
  cases ho
  have hlength : bytecode.length ≤ e.func.bytecode.len := by
    unfold Span.slice at hslice
    split at hslice
    · cases hslice
      simp only [List.length_drop, List.length_take, Span.len]
      omega
    · cases hslice
  have hcount := (insts_eq_map_ok.mp hinsts).length_le (Nat.zero_le _)
  have hgrowth := growthSum_le (l := l) fun i _ => h.growth_le i
  have hsize := hfunc.size
  have hprod : l.length * Limit.unpackEntries ≤ Limit.funcSize * Limit.unpackEntries :=
    Nat.mul_le_mul_right _ (by omega)
  have hunpack := harityle arity rfl
  have hlimit : Limit.unpackEntries + 2 * (Limit.funcSize * Limit.unpackEntries) < usizeMax := by
    decide
  omega

/-- The operands of a function of checked tables stay below the mark of the neutral state. -/
theorem TablesOk.depthBound {index : Index} {main debug : List UInt8}
    (h : TablesOk index main debug) {e : FuncEntry} (he : e ∈ index.functab) :
    DepthBound (fileContext index main) e.func := by
  intro bytecode l arity hslice hinsts harity
  have hroom := h.room he hslice hinsts harity
  omega

/-- A function of checked tables is ready for verification. -/
theorem TablesOk.funcReady {index : Index} {main debug : List UInt8}
    (h : TablesOk index main debug) {e : FuncEntry} (he : e ∈ index.functab) :
    FuncReady (fileContext index main) e.func := by
  have hfunc := h.functab e he
  obtain ⟨hlt, hstop⟩ := hfunc.bytecode
  have hslice : e.func.bytecode.slice main =
      some ((main.take e.func.bytecode.stop).drop e.func.bytecode.start) := by
    unfold Span.slice
    rw [if_pos ⟨hlt.le, hstop⟩]
  have hlength : ((main.take e.func.bytecode.stop).drop e.func.bytecode.start).length =
      e.func.bytecode.len := by
    simp only [List.length_drop, List.length_take, Span.len]
    omega
  refine ⟨⟨_, hslice, ?_⟩, ?_, ?_, ?_⟩
  · rw [← List.length_pos_iff, hlength, Span.len]
    omega
  · intro u
    obtain ⟨o, ho, -⟩ := h.unpackArity u
    rw [ho]
    exact Returns.ok _
  · obtain ⟨sig, hsig, -⟩ := hfunc.sig
    have hle := h.entries sig (List.mem_of_getElem? hsig)
    refine ⟨sig.entries, ?_⟩
    simp only [fileContext, hsig, arity_of_entries hle]
    rfl
  · exact fun bytecode l arity hbytes hinsts harity => (h.room he hbytes hinsts harity).le

/-! ## The use relation -/

/-- The number of functions that are not marked as used. -/
def unusedCount (used : List Used) : Nat := used.countP (!·.used)

/-- Every function in the use relation is one of the list. -/
def UsesOk (used : List Used) : Prop := ∀ u ∈ used, ∀ f ∈ u.uses, f < used.length

theorem usesOk_set {used : List Used} {i : Nat} {u : Used} (h : UsesOk used)
    (hi : used[i]? = some u) : UsesOk (used.set i { u with used := true }) := by
  intro v hv f hf
  rw [List.length_set]
  rcases List.mem_or_eq_of_mem_set hv with hv | rfl
  · exact h v hv f hf
  · exact h u (List.mem_of_getElem? hi) f hf

theorem unusedCount_set {used : List Used} {i : Nat} {u : Used} (hi : used[i]? = some u) :
    unusedCount (used.set i { u with used := true }) + (if u.used then 0 else 1) =
      unusedCount used := by
  have hset := Worklist.countP_set_of_not (p := fun u : Used => !u.used) hi
    (b := { u with used := true }) rfl
  unfold unusedCount
  rw [← hset]
  cases u.used <;> rfl

/-- Marking the functions that one function uses. -/
theorem markUses_spec {uses : List Nat} :
    ∀ {used : List Used}, UsesOk used → (∀ f ∈ uses, f < used.length) →
      ∃ used' pushed, markUses uses used = .ok (used', pushed) ∧ UsesOk used' ∧
        used'.length = used.length ∧ (∀ f ∈ pushed, f < used.length) ∧
        unusedCount used' + pushed.length = unusedCount used := by
  induction uses with
  | nil => exact fun hok _ => ⟨_, [], rfl, hok, rfl, by simp, by simp⟩
  | cons f uses ih =>
    intro used hok hlt
    obtain ⟨u, hf⟩ : ∃ u, used[f]? = some u := ⟨_, List.getElem?_eq_getElem (hlt f (by simp))⟩
    rw [markUses, hf]
    simp only [unwrap, ok_bind]
    by_cases hused : u.used = true
    · rw [if_pos hused]
      exact ih hok fun g hg => hlt g (by simp [hg])
    · rw [if_neg hused]
      have hlen : (used.set f { u with used := true }).length = used.length :=
        List.length_set
      obtain ⟨used', pushed, hmark, hok', hlen', hpushed, hcount⟩ := ih (usesOk_set hok hf)
        fun g hg => by rw [hlen]; exact hlt g (by simp [hg])
      have hset := unusedCount_set hf
      rw [if_neg hused] at hset
      refine ⟨used', pushed ++ [f], by rw [hmark]; rfl, hok', hlen'.trans hlen, ?_, ?_⟩
      · intro g hg
        rcases List.mem_append.mp hg with hg | hg
        · exact hlen ▸ hpushed g hg
        · obtain rfl : g = f := by simpa using hg
          exact hlt g (by simp)
      · simp only [List.length_append, List.length_singleton]
        omega

/-- `verify_used` returns. -/
theorem verifyUsed_returns {used : List Used} {fuel : Nat} (hok : UsesOk used)
    (hne : used ≠ []) (hfuel : used.length + 1 ≤ fuel) : Returns (verifyUsed used fuel) := by
  obtain ⟨u, us, rfl⟩ := List.exists_cons_of_ne_nil hne
  unfold verifyUsed
  simp only [List.head?_cons, unwrap, ok_bind]
  have hset : (u :: us)[0]? = some u := rfl
  refine Returns.bind (Worklist.run_returns
    (fun used queue => UsesOk used ∧ ∀ i ∈ queue, i < used.length)
    unusedCount ?_ ?_ ⟨usesOk_set hok hset, by simp⟩ ?_) fun used _ => ?_
  · rintro i used queue ⟨hok, hqueue⟩
    have hi := List.getElem?_eq_getElem (hqueue i (by simp))
    unfold visitUsed
    rw [returns_unwrap_bind]
    refine ⟨_, hi, ?_⟩
    obtain ⟨used', pushed, hmark, -⟩ := markUses_spec hok (hok _ (List.mem_of_getElem? hi))
    rw [hmark]
    exact Returns.ok _
  · rintro i used queue used' pushed ⟨hok, hqueue⟩ hvisit
    have hi := List.getElem?_eq_getElem (hqueue i (by simp))
    unfold visitUsed at hvisit
    rw [hi] at hvisit
    simp only [unwrap, ok_bind] at hvisit
    obtain ⟨used'', pushed', hmark, hok', hlen, hpushed, hcount⟩ :=
      markUses_spec hok (hok _ (List.mem_of_getElem? hi))
    rw [hmark] at hvisit
    cases hvisit
    refine ⟨⟨hok', fun j hj => ?_⟩, hcount.le⟩
    rw [hlen]
    rcases List.mem_append.mp hj with hj | hj
    · exact hpushed j hj
    · exact hqueue j (by simp [hj])
  · refine le_trans (Nat.add_le_add_right (List.countP_le_length) 1) ?_
    rw [List.length_set]
    exact hfuel
  · split <;> simp

/-! ## Verifying all functions -/

/-- The certificates of a file fit their functions. -/
def Content.Fits (buffer : List UInt8) (content : Content) : Prop :=
  ∀ main, content.main.slice buffer = some main → ∀ e ∈ content.index.functab,
    e.cert.Fits (fileContext content.index main) e.func

/-- Checked functions use functions of the table. -/
theorem checkFuncs_ok {ctx : Context} {fuel : Nat} :
    ∀ {funcs : List (Func × Certificate)} {i : Nat} {used : List Used},
      checkFuncs ctx fuel i funcs = .ok used → used.length = funcs.length ∧
        ∀ u ∈ used, ∀ f ∈ u.uses, (ctx.function f).isSome := by
  intro funcs
  induction funcs with
  | nil =>
    intro i used h
    cases h
    simp
  | cons p funcs ih =>
    obtain ⟨func, cert⟩ := p
    intro i used h
    simp only [checkFuncs, bind_eq_ok, mapErr_eq_ok, pure, Except.pure, Except.ok.injEq] at h
    obtain ⟨uses, hcheck, used', hrest, rfl⟩ := h
    obtain ⟨hlen, huses⟩ := ih hrest
    refine ⟨by simp [hlen], fun u hu f hf => ?_⟩
    rcases List.mem_cons.mp hu with rfl | hu
    · obtain ⟨bytecode, l, arity, hdec, -, rfl, -⟩ := check_sound hcheck
      obtain ⟨j, hj, hmem⟩ := List.mem_flatMap.mp hf
      have hok := hdec.checked j hj
      unfold SyntaxOk at hok
      unfold Inst.uses at hmem
      split at hmem
      · rename_i hinst
        simp only [hinst] at hok
        obtain rfl : f = _ := by simpa using hmem
        exact hok
      · rename_i hinst
        simp only [hinst] at hok
        obtain rfl : f = _ := by simpa using hmem
        exact hok
      · cases hmem
    · exact huses u hu f hf

theorem checkFuncs_returns {ctx : Context} {fuel : Nat} {funcs : List (Func × Certificate)}
    (h : ∀ p ∈ funcs, FuncReady ctx p.1 ∧ p.2.Fits ctx p.1 ∧ p.2.blocks.length + 1 ≤ fuel) :
    ∀ i : Nat, Returns (checkFuncs ctx fuel i funcs) := by
  induction funcs with
  | nil => exact fun _ => Returns.ok _
  | cons p funcs ih =>
    obtain ⟨func, cert⟩ := p
    intro i
    obtain ⟨hready, hfits, hfuel⟩ := h (func, cert) (by simp)
    refine Returns.bind (Returns.mapErr _ (check_returns hready hfits hfuel)) fun uses _ => ?_
    exact Returns.bind (ih (fun q hq => h q (by simp [hq])) _) fun _ _ => Returns.pure _

/-- A number of loop iterations that suffices for a file. -/
def Content.fuel (content : Content) : Nat :=
  content.index.functab.length + 1 +
    (content.index.functab.map fun e => e.cert.blocks.length).sum

/-- Verifying the functions of checked tables returns. -/
theorem Verifier.check_returns {content : Content} {buffer main debug : List UInt8} {fuel : Nat}
    (h : TablesOk content.index main debug) (hmain : content.main.slice buffer = some main)
    (hfits : content.Fits buffer) (hfuel : content.fuel ≤ fuel) :
    Returns (Verifier.check (fileContext content.index main)
      (content.index.functab.map fun e => (e.func, e.cert)) fuel) := by
  unfold Verifier.check
  unfold Content.fuel at hfuel
  refine Returns.bind (checkFuncs_returns ?_ 0) fun used hused => ?_
  · intro p hp
    obtain ⟨e, he, rfl⟩ := List.mem_map.mp hp
    refine ⟨h.funcReady he, hfits main hmain e he, ?_⟩
    have hle := List.single_le_sum (l := content.index.functab.map fun e => e.cert.blocks.length)
      (fun _ _ => Nat.zero_le _) _ (List.mem_map_of_mem he)
    simp only at hle ⊢
    omega
  · obtain ⟨hlen, huses⟩ := checkFuncs_ok hused
    rw [List.length_map] at hlen
    refine verifyUsed_returns ?_ ?_ (by omega)
    · intro u hu f hf
      have hsome := huses u hu f hf
      rw [hlen]
      simp only [fileContext, Option.isSome_map] at hsome
      obtain ⟨e, he⟩ := Option.isSome_iff_exists.mp hsome
      exact (List.getElem?_eq_some_iff.mp he).1
    · rintro rfl
      exact h.functab_ne (List.length_eq_zero_iff.mp hlen.symm)

/-- Verifying a file returns. -/
theorem verify_returns {content : Content} {buffer : List UInt8} {fuel : Nat}
    (hmain : (content.main.slice buffer).isSome) (hdebug : (content.debug.slice buffer).isSome)
    (hfits : content.Fits buffer) (hfuel : content.fuel ≤ fuel) :
    Returns (verify content buffer fuel) := by
  obtain ⟨main, hmain⟩ := Option.isSome_iff_exists.mp hmain
  obtain ⟨debug, hdebug⟩ := Option.isSome_iff_exists.mp hdebug
  unfold verify
  simp only [hmain, hdebug, unwrap, ok_bind]
  refine Returns.bind (verifyMain_returns _) fun _ _ => ?_
  refine Returns.bind (verifyDebug_returns _) fun _ hutf8 => ?_
  refine Returns.bind (verifyModuleName_returns _ _) fun _ hname => ?_
  refine Returns.bind (verifySymtab_returns _ _) fun n hsym => ?_
  refine Returns.bind (verifyUnpacktab_returns _ _ _) fun _ hunpack => ?_
  refine Returns.bind (verifyConsttab_returns _ _ _) fun _ hconst => ?_
  refine Returns.bind (verifyPacktab_returns _ _) fun _ hpack => ?_
  refine Returns.bind (verifyFunctab_returns _ _ _) fun _ hfunc => ?_
  refine Returns.bind (verifyFuncdebugtab_returns _ _ _) fun _ hfuncdebug => ?_
  have htables := tablesOk_of_checks hutf8 hname hsym hunpack hconst hpack hfunc hfuncdebug
  refine Returns.bind (Returns.mapErr _ ?_) fun _ _ => Returns.pure _
  exact Verifier.check_returns htables hmain hfits hfuel

/-! ## Reading a file -/

/-- A region of a buffer that `deserialize_raw` accepts lies in the buffer. -/
theorem Region.span_slice {r : Region} {headerEnd trailerStart : Nat} {s : Span}
    {buffer : List UInt8} (h : r.span headerEnd trailerStart = some s)
    (hle : trailerStart ≤ buffer.length) : ∃ bytes, s.slice buffer = some bytes := by
  unfold Region.span checkedAdd at h
  split at h
  · cases h
  · rename_i stop hstop
    split at hstop
    · cases hstop
      split at h
      · cases h
        refine ⟨_, if_pos ⟨?_, ?_⟩⟩
        · simp
        · simp only
          omega
      · cases h
    · cases hstop

/-- `deserialize_raw` returns. -/
theorem deserializeRaw_returns {pc : Postcard} (hpc : pc.Lawful) (buffer : List UInt8) :
    Returns (deserializeRaw pc buffer) := by
  unfold deserializeRaw
  simp only [fail_bind, returns_ite_fail, returns_okOr_bind]
  rintro - ⟨h, rest⟩ hheader -
  have hrest := hpc.header_rest hheader
  have hend : checkedSub buffer.length rest.length = some (buffer.length - rest.length) :=
    if_pos hrest
  simp only [hend, unwrap, ok_bind, returns_okOr_bind, checkedSub_eq_some]
  rintro before ⟨hsize, rfl⟩
  have hle : rest.length - trailerSize + (buffer.length - rest.length) ≤ buffer.length := by
    omega
  have hslice : ∃ bytes, Span.slice ⟨rest.length - trailerSize + (buffer.length - rest.length),
      buffer.length⟩ buffer = some bytes := ⟨_, if_pos ⟨hle, le_refl _⟩⟩
  obtain ⟨bytes, hslice⟩ := hslice
  rw [hslice]
  simp only [ok_bind, returns_okOr_bind]
  intro trailer _ main _ debug _ index hindex
  obtain ⟨bytes, hbytes⟩ := Region.span_slice hindex hle
  rw [hbytes]
  simp only [ok_bind, returns_okOr_bind, returns_ite_fail, Returns.pure, implies_true]

/-- The regions of a decoded file lie in the buffer. -/
theorem deserializeRaw_regions {pc : Postcard} {buffer : List UInt8} {content : Content}
    (h : deserializeRaw pc buffer = .ok content) :
    (content.main.slice buffer).isSome ∧ (content.debug.slice buffer).isSome := by
  unfold deserializeRaw at h
  simp only [fail_bind, ite_fail_eq_ok, bind_eq_ok, okOr_eq_ok, unwrap_eq_ok, checkedSub_eq_some,
    pure, Except.pure, Except.ok.injEq] at h
  obtain ⟨-, ⟨header, rest⟩, -, -, headerEnd, ⟨hrest, rfl⟩, before, ⟨hsize, rfl⟩, bytes, -, trailer,
    -, main, hmain, debug, hdebug, index, -, bytes', -, ⟨index', rest'⟩, -, -, rfl⟩ := h
  have hle : rest.length - trailerSize + (buffer.length - rest.length) ≤ buffer.length := by
    simp only at hrest
    omega
  obtain ⟨b1, h1⟩ := Region.span_slice hmain hle
  obtain ⟨b2, h2⟩ := Region.span_slice hdebug hle
  simp [h1, h2]

/-- A file with one function over given code, the constant `nil` and a signature without
parameters. -/
def oneFuncIndex (func : Func) (cert : Certificate) : Index where
  symtab := []
  consttab := [.nil]
  packtab := []
  unpacktab := [⟨0, [], [], .split .none .none⟩]
  functab := [⟨func, cert⟩]
  funcdebugtab := []
  moduleName := none

/-- The encoded index of the file with the looping function. -/
def loopIndexBytes : List UInt8 :=
  [0, 1, 0, 0, 1, 0, 0, 0, 2, 0, 0, 1, 0, 1, 0, 0, 11, 1, 2, 4, 0, 1, 1, 0, 8, 0, 1, 1, 0, 0, 0]

/-- The file with the looping function. -/
def loopFile : List UInt8 :=
  serialize loopIndexBytes [10, 1, 32, 1, 11, 1, 40, 15, 11, 1, 38] []

/-- A function that reads its local in its second block. -/
def shortFunc : Func := ⟨0, 1, [], ⟨0, 5⟩⟩

/-- The second block has an empty list of locals. -/
def shortCert : Certificate := ⟨1, [(2, ⟨0, [], []⟩)]⟩

/-- The encoded index of the file with that function. -/
def shortIndexBytes : List UInt8 :=
  [0, 1, 0, 0, 1, 0, 0, 0, 2, 0, 0, 1, 0, 1, 0, 0, 5, 1, 1, 2, 0, 0, 0, 0, 0]

/-- The file with that function. -/
def shortFile : List UInt8 := serialize shortIndexBytes [39, 1, 11, 1, 38] []

end Dolang.Bytecode
