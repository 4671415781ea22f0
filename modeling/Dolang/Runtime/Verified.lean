import Dolang.Runtime.Interp

/-!
# Verified programs

What the interpreter relies on, as one statement about a loaded program: its tables have what the
code refers to, and every function has a certificate whose states are a fixed point
(`VerifiedFunc`, `VerifiedProgram`). `verified_of_load` derives it from the checks of `deserialize`
and the way `loadBytecode` builds the tables.
-/

namespace Dolang.Runtime

open Dolang.Rust Dolang.Bytecode

/-- A function of a loaded program, with the verified function that it was made from. -/
structure VerifiedFunc (program : Program) (ctx : Context) (entry : Func × Nat) (func : Func)
    (cert : Certificate) (code : List UInt8) (l : List InstOffsets) (u : Unpack) : Prop where
  locals : entry.1.locals = func.locals
  upvars : entry.1.upvars = func.upvars
  /-- A frame has slots for the locals and the deepest operand stack. -/
  slots : entry.2 = func.locals + cert.maxOperandDepth
  slice : entry.1.bytecode.slice program.bytecode = some code
  decoded : Decoded ctx func code l
  ne_nil : l ≠ []
  accepts : Bytecode.Accepts ctx func l u.len cert
  sig : program.unpacktab[entry.1.sig]? = some u
  /-- No parameter is a constant key. -/
  keys : ∀ key ∈ u.keys, ∀ c, key.kind ≠ .const c

/-- The tables of a loaded program agree with those its functions were verified against. -/
structure VerifiedProgram (program : Program) (ctx : Context) : Prop where
  consttab : ∀ i : Nat, ctx.constantValid i = true → i < program.consttab.length
  symtab : ∀ i : Nat, ctx.symbolValid i = true → i < program.symtab.length
  packtab : ∀ (i : Nat) (args : List Arg), ctx.pack i = some args →
    ∃ p, program.packtab[i]? = some p ∧ p.len = args.length
  unpacktab : ∀ (i n : Nat), ctx.unpackArity i = .ok (some n) →
    ∃ u, program.unpacktab[i]? = some u ∧ u.len = n
  function : ∀ (i : Nat) (func : Func), ctx.function i = some func →
    ∃ entry, program.funcs[i]? = some entry ∧ entry.1.upvars = func.upvars
  funcs : ∀ (i : Nat) (entry : Func × Nat), program.funcs[i]? = some entry →
    ∃ func cert code l u, VerifiedFunc program ctx entry func cert code l u

/-! ## Loaded tables -/

/-- The elements of a list that was built one by one. -/
theorem mapAll_getElem? {ε α β : Type} {f : α → Exec ε β} {l : List α} {bs : List β}
    (h : mapAll f l = .ok bs) {i : Nat} {a : α} (ha : l[i]? = some a) :
    ∃ b, bs[i]? = some b ∧ f a = .ok b := by
  have hrel := mapAll_eq_ok.mp h
  obtain ⟨hlt, rfl⟩ := List.getElem?_eq_some_iff.mp ha
  have hlt' : i < bs.length := hrel.length_eq ▸ hlt
  exact ⟨bs[i], List.getElem?_eq_getElem hlt', hrel.get hlt hlt'⟩

theorem mapAll_getElem?_right {ε α β : Type} {f : α → Exec ε β} {l : List α} {bs : List β}
    (h : mapAll f l = .ok bs) {i : Nat} {b : β} (hb : bs[i]? = some b) :
    ∃ a, l[i]? = some a ∧ f a = .ok b := by
  have hrel := mapAll_eq_ok.mp h
  obtain ⟨hlt, rfl⟩ := List.getElem?_eq_some_iff.mp hb
  have hlt' : i < l.length := hrel.length_eq ▸ hlt
  exact ⟨l[i], List.getElem?_eq_getElem hlt', hrel.get hlt' hlt⟩

section

variable {symroots : List SymObj} {consttab : List ConstValue}

/-- A loaded pack has as many arguments. -/
theorem loadPack_len {s : List Arg} {p : Pack} (h : loadPack symroots s = .ok p) :
    p.len = s.length := by
  unfold loadPack at h
  split at h
  · obtain ⟨args, hargs, hp⟩ := bind_ok h
    cases hp
    exact (mapAll_eq_ok.mp hargs).length_eq.symm
  · obtain ⟨syms, hsyms, hp⟩ := bind_ok h
    cases hp
    exact (mapAll_eq_ok.mp hsyms).length_eq.symm

/-- A loaded unpack has as many entries, and constant keys only where the file has them. -/
theorem loadUnpack_spec {s : UnpackSig} {u : Unpack} (h : loadUnpack symroots consttab s = .ok u) :
    u.len = s.required + s.optional.length + s.keys.length + s.variadic.captures ∧
      ((∀ key ∈ s.keys, ∀ c, key.kind ≠ .const c) → ∀ key ∈ u.keys, ∀ c, key.kind ≠ .const c) := by
  unfold loadUnpack at h
  obtain ⟨optional, hopt, h⟩ := bind_ok h
  obtain ⟨keys, hkeys, h⟩ := bind_ok h
  cases h
  have hoptlen := (mapAll_eq_ok.mp hopt).length_eq
  have hkeyslen := (mapAll_eq_ok.mp hkeys).length_eq
  refine ⟨by simp only [Unpack.len]; omega, fun hconst key hkey c hc => ?_⟩
  obtain ⟨i, hi⟩ := List.mem_iff_getElem?.mp hkey
  obtain ⟨key', hkey', hload⟩ := mapAll_getElem?_right hkeys hi
  -- A constant key is loaded from a constant key.
  unfold loadKey at hload
  obtain ⟨kind, hkind, hload⟩ := bind_ok hload
  obtain ⟨default, -, hload⟩ := bind_ok hload
  cases hload
  simp only at hc
  subst hc
  have hnot := hconst key' (List.mem_of_getElem? hkey')
  cases hk : key'.kind with
  | const idx => exact hnot idx hk
  | sym idx =>
    rw [hk] at hkind
    unfold loadKeyKind at hkind
    obtain ⟨s, -, hs⟩ := bind_ok hkind
    cases hs

end

/-- A span that is moved to where its region starts slices the same bytes. -/
theorem slice_shift {s main : Span} {buffer region bytes : List UInt8}
    (hmain : main.slice buffer = some region) (hs : s.slice region = some bytes) :
    Span.slice ⟨main.start + s.start, main.start + s.stop⟩ buffer = some bytes := by
  unfold Span.slice at hmain hs ⊢
  split at hmain
  · rename_i hle
    cases hmain
    split at hs
    · rename_i hle'
      cases hs
      rw [List.length_drop, List.length_take] at hle'
      rw [if_pos ⟨by simp only; omega, by simp only; omega⟩]
      congr 1
      -- Both are the bytes from `main.start + s.start` to `main.start + s.stop`.
      simp only [List.take_drop, List.drop_drop, List.take_take]
      congr 2
      omega
    · cases hs
  · cases hmain

/-- A checked function that is loaded. -/
theorem loadFunc_spec {mainStart : Nat} {e : FuncEntry} {entry : Func × Nat}
    (h : loadFunc mainStart e = .ok entry) :
    entry = ({ e.func with bytecode :=
      ⟨mainStart + e.func.bytecode.start, mainStart + e.func.bytecode.stop⟩ },
      e.cert.maxOperandDepth + e.func.locals) := by
  unfold loadFunc at h
  simp only [bind_eq_ok, strictAdd_eq_ok, pure, Except.pure, Except.ok.injEq] at h
  obtain ⟨_, ⟨-, rfl⟩, _, ⟨-, rfl⟩, _, ⟨-, rfl⟩, rfl⟩ := h
  rfl

/-- Every function of an accepted file has been checked. -/
theorem checkFuncs_check {ctx : Context} {fuel : Nat} :
    ∀ {funcs : List (Func × Certificate)} {i : Nat} {used : List Used},
      checkFuncs ctx fuel i funcs = .ok used → ∀ p ∈ funcs,
        ∃ uses, FuncVerifier.check ctx p.1 p.2 fuel = .ok uses := by
  intro funcs
  induction funcs with
  | nil =>
    intro i used _ p hp
    cases hp
  | cons q funcs ih =>
    intro i used h p hp
    simp only [checkFuncs, bind_eq_ok, mapErr_eq_ok] at h
    obtain ⟨uses, hcheck, used', hrest, -⟩ := h
    rcases List.mem_cons.mp hp with rfl | hp
    · exact ⟨uses, hcheck⟩
    · exact ih hrest p hp

/-- The arity of an unpack that the checks have accepted. -/
theorem arity_eq_of_table {index : Index} {main debug : List UInt8} {k n : Nat} {s : UnpackSig}
    (h : TablesOk index main debug) (hs : index.unpacktab[k]? = some s)
    (hn : (fileContext index main).unpackArity k = .ok (some n)) :
    n = s.required + s.optional.length + s.keys.length + s.variadic.captures := by
  have hle := h.entries s (List.mem_of_getElem? hs)
  have hmax : Limit.unpackEntries < usizeMax := by decide
  have harity : (fileContext index main).unpackArity k = .ok (some s.entries) := by
    simp only [fileContext, hs, arity_of_entries hle]
    rfl
  rw [hn] at harity
  cases harity
  unfold UnpackSig.entries saturatingAdd at hle ⊢
  omega

/-- A program that is loaded from an accepted file is verified. -/
theorem verified_of_load {pc : Postcard} {buffer : List UInt8} {fuel : Nat} {content : Content}
    {program : Program} (h : deserialize pc buffer fuel = .ok content)
    (hload : loadBytecode content buffer = .ok program) :
    ∃ main, VerifiedProgram program (fileContext content.index main) := by
  obtain ⟨-, main, debug, hmain, -, htables, hcheck⟩ := tablesOk_of_verify (verify_of_deserialize h)
  unfold Verifier.check at hcheck
  obtain ⟨used, hused, -⟩ := bind_ok hcheck
  unfold loadBytecode at hload
  simp only [hmain, unwrap, ok_bind, bind_eq_ok, pure, Except.pure, Except.ok.injEq] at hload
  obtain ⟨funcs, hfuncs, symroots, hsyms, consttab, hconsts, packtab, hpacks, unpacktab, hunpacks,
    funcdebugs, -, rfl⟩ := hload
  refine ⟨main, ?_⟩
  have hunpack : ∀ (i n : Nat), (fileContext content.index main).unpackArity i = .ok (some n) →
      ∃ s u, content.index.unpacktab[i]? = some s ∧ unpacktab[i]? = some u ∧
        loadUnpack symroots consttab s = .ok u ∧ u.len = n := by
    intro i n hn
    cases hs : content.index.unpacktab[i]? with
    | none => simp [fileContext, hs] at hn
    | some s =>
      obtain ⟨u, hu, hload⟩ := mapAll_getElem? hunpacks hs
      refine ⟨s, u, rfl, hu, hload, ?_⟩
      rw [(loadUnpack_spec hload).1, arity_eq_of_table htables hs hn]
  constructor
  case consttab =>
    intro i hi
    have hlen := (mapAll_eq_ok.mp hconsts).length_eq
    have hlt : i < content.index.consttab.length := by
      simpa [fileContext] using hi
    exact hlen ▸ hlt
  case symtab =>
    intro i hi
    have hlen := (mapAll_eq_ok.mp hsyms).length_eq
    have hlt : i < content.index.symtab.length := by
      simpa [fileContext] using hi
    simp only [List.length_zip, List.length_range, Nat.min_self] at hlen
    exact hlen ▸ hlt
  case packtab =>
    intro i args hargs
    obtain ⟨p, hp, hload⟩ := mapAll_getElem? hpacks hargs
    exact ⟨p, hp, loadPack_len hload⟩
  case unpacktab =>
    intro i n hn
    obtain ⟨s, u, -, hu, -, hlen⟩ := hunpack i n hn
    exact ⟨u, hu, hlen⟩
  case function =>
    intro i func hfunc
    obtain ⟨e, he, rfl⟩ := Option.map_eq_some_iff.mp hfunc
    obtain ⟨entry, hentry, hload⟩ := mapAll_getElem? hfuncs he
    refine ⟨entry, hentry, ?_⟩
    rw [loadFunc_spec hload]
  case funcs =>
    intro i entry hentry
    obtain ⟨e, he, hload⟩ := mapAll_getElem?_right hfuncs hentry
    have hmem := List.mem_of_getElem? he
    obtain rfl := loadFunc_spec hload
    obtain ⟨uses, hcheck⟩ := checkFuncs_check hused (e.func, e.cert)
      (List.mem_map.mpr ⟨e, hmem, rfl⟩)
    obtain ⟨code, l, arity, hdec, hne, -, harity, haccepts⟩ := check_sound hcheck
    obtain ⟨s, u, hs, hu, hload, rfl⟩ := hunpack _ _ harity
    obtain ⟨sig, hsig, hkeys⟩ := (htables.functab e hmem).sig
    rw [hs] at hsig
    cases hsig
    exact ⟨e.func, e.cert, code, l, u, rfl, rfl, Nat.add_comm _ _, slice_shift hmain hdec.slice, hdec,
      hne, haccepts, hu, (loadUnpack_spec hload).2 hkeys⟩

end Dolang.Runtime
