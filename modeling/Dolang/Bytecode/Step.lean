import Dolang.Bytecode.Verify

/-!
# What an instruction does to a block state

`step` written out as one statement. An instruction takes `pops` operands and leaves `pushes`, it
needs a certain depth and certain upvar records (`Ready`), it reads or sets at most one local
(`LocalsReady`, `localsAfter`), and it changes at most the innermost upvar record (`upvarsAfter`).
`step_eq_ok` says that `step` succeeds exactly when its needs are met, and with which state. The
operands and upvars of the result do not depend on the locals, which is what makes the operand
depths of a function's blocks unique. `step_returns` says when `step` does not panic.
-/

namespace Dolang.Bytecode

open Dolang.Rust

/-! ## The operations on states -/

theorem BlockState.pop_eq_ok {b b' : BlockState} :
    b.pop = .ok b' ↔ 1 ≤ b.operands ∧ b' = { b with operands := b.operands - 1 } := by
  unfold BlockState.pop
  simp only [bind_eq_ok, okOr_eq_ok, checkedSub_eq_some, pure, Except.pure, Except.ok.injEq]
  constructor
  · rintro ⟨_, ⟨h, rfl⟩, rfl⟩
    exact ⟨h, rfl⟩
  · rintro ⟨h, rfl⟩
    exact ⟨_, ⟨h, rfl⟩, rfl⟩

theorem BlockState.push_eq_ok {b b' : BlockState} :
    b.push = .ok b' ↔ b.operands + 1 ≤ usizeMax ∧ b' = { b with operands := b.operands + 1 } := by
  unfold BlockState.push
  simp only [bind_eq_ok, strictAdd_eq_ok, pure, Except.pure, Except.ok.injEq]
  constructor
  · rintro ⟨_, ⟨h, rfl⟩, rfl⟩
    exact ⟨h, rfl⟩
  · rintro ⟨h, rfl⟩
    exact ⟨_, ⟨h, rfl⟩, rfl⟩

theorem BlockState.popN_eq_ok {n : Nat} {b b' : BlockState} :
    b.popN n = .ok b' ↔ n ≤ b.operands ∧ b' = { b with operands := b.operands - n } := by
  induction n generalizing b with
  | zero =>
    simp only [BlockState.popN, Except.ok.injEq, Nat.zero_le, true_and, Nat.sub_zero]
    exact eq_comm
  | succ n ih =>
    simp only [BlockState.popN, bind_eq_ok, pop_eq_ok]
    constructor
    · rintro ⟨_, ⟨h1, rfl⟩, h2⟩
      obtain ⟨h3, rfl⟩ := ih.mp h2
      simp only at h3
      exact ⟨by omega, by simp only [Nat.sub_sub, Nat.add_comm]⟩
    · rintro ⟨h, rfl⟩
      refine ⟨_, ⟨by omega, rfl⟩, ih.mpr ⟨by simp only; omega, ?_⟩⟩
      simp only [Nat.sub_sub, Nat.add_comm]

theorem BlockState.pushN_eq_ok {n : Nat} {b b' : BlockState} :
    b.pushN n = .ok b' ↔
      (0 < n → b.operands + n ≤ usizeMax) ∧ b' = { b with operands := b.operands + n } := by
  induction n generalizing b with
  | zero =>
    simp only [BlockState.pushN, Except.ok.injEq, Nat.add_zero, Nat.lt_irrefl, false_implies,
      true_and]
    exact eq_comm
  | succ n ih =>
    simp only [BlockState.pushN, bind_eq_ok, push_eq_ok]
    constructor
    · rintro ⟨_, ⟨h1, rfl⟩, h2⟩
      obtain ⟨h3, rfl⟩ := ih.mp h2
      simp only at h3
      refine ⟨fun _ => ?_, by simp only [Nat.add_right_comm, Nat.add_assoc]⟩
      rcases Nat.eq_zero_or_pos n with rfl | hn
      · simpa using h1
      · have := h3 hn
        omega
    · rintro ⟨h, rfl⟩
      have hle := h (by omega)
      refine ⟨_, ⟨by omega, rfl⟩, ih.mpr ⟨fun _ => by simp only; omega, ?_⟩⟩
      simp only [Nat.add_right_comm, Nat.add_assoc]

section

variable {α : Type} {b : BlockState} {f : BlockState → Exec InstError α} {r : α}

theorem BlockState.pop_bind_eq_ok :
    (b.pop >>= f) = .ok r ↔ 1 ≤ b.operands ∧ f { b with operands := b.operands - 1 } = .ok r := by
  simp only [bind_eq_ok, BlockState.pop_eq_ok, and_assoc, exists_and_left, exists_eq_left]

theorem BlockState.push_bind_eq_ok :
    (b.push >>= f) = .ok r ↔
      b.operands + 1 ≤ usizeMax ∧ f { b with operands := b.operands + 1 } = .ok r := by
  simp only [bind_eq_ok, BlockState.push_eq_ok, and_assoc, exists_and_left, exists_eq_left]

theorem BlockState.popN_bind_eq_ok {n : Nat} :
    (b.popN n >>= f) = .ok r ↔ n ≤ b.operands ∧ f { b with operands := b.operands - n } = .ok r := by
  simp only [bind_eq_ok, BlockState.popN_eq_ok, and_assoc, exists_and_left, exists_eq_left]

/-- A pop ends in an error or goes on. -/
theorem BlockState.returns_pop_bind :
    Returns (b.pop >>= f) ↔ (1 ≤ b.operands → Returns (f { b with operands := b.operands - 1 })) := by
  by_cases h : 1 ≤ b.operands
  · rw [BlockState.pop_eq_ok.mpr ⟨h, rfl⟩]
    simp [h]
  · have hfail : b.pop = fail .operandUnderflow := by
      unfold BlockState.pop checkedSub
      rw [if_neg h]
      rfl
    simp [hfail, h]

/-- A push panics when the depth is the largest `usize`. -/
theorem BlockState.returns_push_bind :
    Returns (b.push >>= f) ↔
      b.operands + 1 ≤ usizeMax ∧ Returns (f { b with operands := b.operands + 1 }) := by
  by_cases h : b.operands + 1 ≤ usizeMax
  · rw [BlockState.push_eq_ok.mpr ⟨h, rfl⟩]
    simp [h]
  · have hfail : b.push = .error .panic := by
      unfold BlockState.push strictAdd
      rw [if_neg h]
      rfl
    simp [hfail, h, Returns]

theorem BlockState.returns_popN_bind {n : Nat} :
    Returns (b.popN n >>= f) ↔
      (n ≤ b.operands → Returns (f { b with operands := b.operands - n })) := by
  induction n generalizing b with
  | zero => simp [BlockState.popN]
  | succ n ih =>
    simp only [BlockState.popN, bind_assoc, BlockState.returns_pop_bind, ih]
    constructor
    · intro h hle
      have hsub : b.operands - (n + 1) = b.operands - 1 - n := by omega
      rw [hsub]
      exact h (by omega) (by omega)
    · intro h h1 h2
      have hsub : b.operands - 1 - n = b.operands - (n + 1) := by omega
      rw [hsub]
      exact h (by omega)

end

/-- A pop ends in an error or succeeds. -/
theorem BlockState.returns_pop (b : BlockState) : Returns b.pop := by
  have h := BlockState.returns_pop_bind (b := b) (f := pure)
  rw [bind_pure] at h
  simpa using h

theorem BlockState.returns_push {b : BlockState} :
    Returns b.push ↔ b.operands + 1 ≤ usizeMax := by
  have h := BlockState.returns_push_bind (b := b) (f := pure)
  rw [bind_pure] at h
  simpa using h

/-- Pushes that fit succeed. -/
theorem BlockState.returns_pushN {b : BlockState} {n : Nat} (h : b.operands + n ≤ usizeMax) :
    Returns (b.pushN n) := by
  rw [BlockState.pushN_eq_ok.mpr ⟨fun _ => h, rfl⟩]
  exact Returns.ok _

/-! ## The effect of an instruction -/

/-- The number of arguments of a pack. -/
def Context.packLen (ctx : Context) (index : Nat) : Nat :=
  match ctx.pack index with
  | some args => args.length
  | none => 0

/-- The number of values that an unpack leaves. -/
def Context.unpackLen (ctx : Context) (index : Nat) : Nat :=
  match ctx.unpackArity index with
  | .ok (some n) => n
  | _ => 0

/-- The operands an instruction takes. -/
def pops (ctx : Context) : Inst → Nat
  | .neg | .not | .bitNot | .dup | .pop | .branchTrue _ | .branchFalse _ | .storeLocal _
  | .storeUpvar _ _ | .get _ | .ret | .next | .unpack _ | .unpackBranch _ _ => 1
  | .add | .div | .ediv | .mod | .mul | .bitAnd | .bitOr | .bitXor | .shl | .shr | .eq | .ne
  | .gt | .lt | .gte | .lte | .sub | .set _ | .index => 2
  | .assign => 3
  | .call sig | .methodCall _ sig => ctx.packLen sig + 1
  | .builtin _ sig => ctx.packLen sig
  | _ => 0

/-- The operands an instruction leaves, on every edge. -/
def pushes (ctx : Context) : Inst → Nat
  | .neg | .not | .bitNot | .add | .div | .ediv | .mod | .mul | .bitAnd | .bitOr | .bitXor | .shl
  | .shr | .eq | .ne | .gt | .lt | .gte | .lte | .sub | .pick _ | .loadLocal _ | .call _
  | .methodCall _ _ | .builtin _ _ | .loadConst _ | .loadUpvar _ _ | .get _ | .index | .close _
  | .reify _ => 1
  | .dup | .next | .nlGuard _ => 2
  | .unpack index => ctx.unpackLen index
  | _ => 0

/-- The operand depth an instruction needs. -/
def needs (ctx : Context) (inst : Inst) : Nat :=
  match inst with
  | .pick n => n + 1
  | .swap i j => max i j + 1
  | inst => pops ctx inst

/-- The tables and upvar records an instruction needs. -/
def Ready (ctx : Context) (func : Func) (inst : Inst) (operands : Nat) (upvars : List Nat) :
    Prop :=
  match inst with
  | .call sig | .methodCall _ sig | .builtin _ sig => ∃ args, ctx.pack sig = some args
  | .loadUpvar index depth | .storeUpvar index depth =>
    depth < upvars.length ∧ ∃ c, upvars[upvars.length - 1 - depth]? = some c ∧ index < c
  | .pushUpvars count => upvarSum (upvars ++ [count]) ≤ upvarTotal
  | .popUpvars => upvars.length ≠ func.upvars.length
  | .close f => ∃ callee, ctx.function f = some callee ∧ callee.upvars = upvars
  | .ret => operands = 1 ∧ upvars.length = func.upvars.length
  | .reify p => upvars.length ≠ func.upvars.length ∧
      ∃ args, upvars.getLast? = some args.length ∧ ctx.pack p = some args
  | .unpack u => ∃ n, ctx.unpackArity u = .ok (some n)
  | .nlGuard f => ∃ callee, ctx.function f = some callee ∧ callee.upvars = upvars ++ [0]
  | .nlBranch depth _ => depth < upvars.length
  | _ => True

/-- The locals an instruction needs. -/
def LocalsReady (inst : Inst) (locals : List LocalState) : Prop :=
  match inst with
  | .loadLocal index => locals[index]? = some .value
  | .storeLocal index => index < locals.length
  | _ => True

/-- The locals after an instruction. -/
def localsAfter (inst : Inst) (locals : List LocalState) : List LocalState :=
  match inst with
  | .storeLocal index => locals.set index .value
  | _ => locals

/-- The upvar records after an instruction. -/
def upvarsAfter (inst : Inst) (upvars : List Nat) : List Nat :=
  match inst with
  | .pushUpvars count => upvars ++ [count]
  | .popUpvars | .reify _ => upvars.dropLast
  | _ => upvars

/-- The operand depth after an instruction. -/
def operandsAfter (ctx : Context) (inst : Inst) (operands : Nat) : Nat :=
  operands - pops ctx inst + pushes ctx inst

/-- The state after an instruction. -/
def stateAfter (ctx : Context) (inst : Inst) (b : BlockState) : BlockState :=
  ⟨operandsAfter ctx inst b.operands, localsAfter inst b.locals, upvarsAfter inst b.upvars⟩

/-- The operand depth suffices for an instruction and its result is a `usize`. -/
def DepthReady (ctx : Context) (inst : Inst) (operands : Nat) : Prop :=
  needs ctx inst ≤ operands ∧ (0 < pushes ctx inst → operandsAfter ctx inst operands ≤ usizeMax)

theorem arity_eq_ok {ε : Type} {ctx : Context} {index : Nat} {o : Option Nat} :
    (ctx.arity index : Exec ε (Option Nat)) = .ok o ↔ ctx.unpackArity index = .ok o := by
  simp [Context.arity]

theorem arityUnwrap_eq_ok {ε : Type} {ctx : Context} {index n : Nat} :
    (ctx.arityUnwrap index : Exec ε Nat) = .ok n ↔ ctx.unpackArity index = .ok (some n) := by
  simp [Context.arityUnwrap, bind_eq_ok, arity_eq_ok]

theorem unpackLen_eq {ctx : Context} {index n : Nat} (h : ctx.unpackArity index = .ok (some n)) :
    ctx.unpackLen index = n := by
  simp [Context.unpackLen, h]

theorem packLen_eq {ctx : Context} {index : Nat} {args : List Arg}
    (h : ctx.pack index = some args) : ctx.packLen index = args.length := by
  simp [Context.packLen, h]

/-- `step` succeeds exactly when the needs of the instruction are met, with the state after it. -/
theorem step_eq_ok {ctx : Context} {func : Func} {b b' : BlockState} {inst : Inst} :
    step ctx func b inst = .ok b' ↔
      DepthReady ctx inst b.operands ∧ Ready ctx func inst b.operands b.upvars ∧
        LocalsReady inst b.locals ∧ b' = stateAfter ctx inst b := by
  have hok : ∀ c : BlockState, (Except.ok c : Exec InstError BlockState) = .ok b' ↔ b' = c :=
    fun c => ⟨fun h => by cases h; rfl, fun h => by rw [h]⟩
  obtain ⟨operands, locals, upvars⟩ := b
  -- One group of cases for each way `step` is written.
  cases inst <;>
    simp only [step, DepthReady, Ready, LocalsReady, stateAfter, needs, pops, pushes,
      operandsAfter, localsAfter, upvarsAfter, true_and]
  case call sig | methodCall _ sig =>
    simp only [unwrap_bind_eq_ok, BlockState.popN_bind_eq_ok, BlockState.pop_bind_eq_ok,
      BlockState.push_eq_ok, Context.packLen]
    constructor
    · rintro ⟨args, hargs, h⟩
      simp only [hargs, Option.some.injEq, exists_eq', true_and]
      exact ⟨⟨by omega, fun _ => by omega⟩, by simpa only [Nat.sub_sub] using h.2.2.2⟩
    · rintro ⟨⟨h1, h2⟩, ⟨args, hargs⟩, h⟩
      simp only [hargs] at h1 h2 h
      refine ⟨args, hargs, by omega, by omega, ?_⟩
      simp only [Nat.sub_sub]
      exact ⟨h2 (by omega), h⟩
  case builtin _ sig =>
    simp only [unwrap_bind_eq_ok, BlockState.popN_bind_eq_ok, BlockState.push_eq_ok,
      Context.packLen]
    grind
  case pick | swap =>
    simp only [ite_fail_eq_ok, BlockState.push_eq_ok, hok]
    grind
  case loadLocal =>
    simp only [unwrap_bind_eq_ok, ite_fail_eq_ok, BlockState.push_eq_ok]
    constructor
    · rintro ⟨a, h1, h2, h3⟩
      cases a <;> simp_all
    · grind
  case storeLocal =>
    simp only [BlockState.pop_bind_eq_ok]
    split <;> simp_all [abort, pure, Except.pure]
  case loadUpvar | storeUpvar =>
    simp only [fail_bind, ite_fail_eq_ok, unwrap_bind_eq_ok, BlockState.push_eq_ok,
      BlockState.pop_eq_ok]
    grind
  case pushUpvars | popUpvars | nlBranch =>
    simp only [ite_fail_eq_ok, hok]
    grind
  case close | nlGuard =>
    simp only [fail_bind, ite_fail_eq_ok, okOr_bind_eq_ok, BlockState.push_eq_ok,
      BlockState.push_bind_eq_ok]
    grind
  case ret =>
    simp only [fail_bind, ite_fail_eq_ok, BlockState.pop_bind_eq_ok, hok, pure, Except.pure]
    grind
  case reify =>
    simp only [fail_bind, ite_fail_eq_ok, unwrap_bind_eq_ok, BlockState.push_eq_ok]
    grind
  case unpack =>
    simp only [bind_eq_ok, arityUnwrap_eq_ok, BlockState.pop_eq_ok, BlockState.pushN_eq_ok,
      Context.unpackLen]
    grind
  all_goals
    simp only [BlockState.pop_bind_eq_ok, BlockState.push_bind_eq_ok, BlockState.pop_eq_ok,
      BlockState.push_eq_ok, hok, Nat.sub_sub, Nat.add_assoc, Nat.sub_zero, Nat.add_zero]
    grind

/-- What `step` relies on: the tables that an earlier pass has looked up, locals inside the state's
list, an upvar record to pop, and room for the pushes. -/
def StepSafe (ctx : Context) (func : Func) (inst : Inst) (b : BlockState) : Prop :=
  b.operands + pushes ctx inst ≤ usizeMax ∧
  match inst with
  | .call sig | .methodCall _ sig | .builtin _ sig => (ctx.pack sig).isSome
  | .loadLocal index | .storeLocal index => index < b.locals.length
  | .reify p => (ctx.pack p).isSome ∧ func.upvars.length ≤ b.upvars.length
  | .unpack u => ∃ n, ctx.unpackArity u = .ok (some n)
  | _ => True

/-- `step` does not panic where it can rely on the earlier passes. -/
theorem step_returns {ctx : Context} {func : Func} {b : BlockState} {inst : Inst}
    (h : StepSafe ctx func inst b) : Returns (step ctx func b inst) := by
  obtain ⟨operands, locals, upvars⟩ := b
  cases inst <;> simp only [StepSafe, pushes, and_true] at h <;> simp only [step]
  case call sig | methodCall _ sig | builtin _ sig =>
    obtain ⟨h, hargs⟩ := h
    obtain ⟨args, hargs⟩ := Option.isSome_iff_exists.mp hargs
    simp only [returns_unwrap_bind, hargs, Option.some.injEq, exists_eq_left',
      BlockState.returns_popN_bind, BlockState.returns_pop_bind, BlockState.returns_push]
    omega
  case loadLocal index =>
    obtain ⟨h, hlt⟩ := h
    simp only [returns_unwrap_bind, List.getElem?_eq_getElem hlt, Option.some.injEq,
      exists_eq_left', returns_ite_fail, BlockState.returns_push]
    omega
  case storeLocal index =>
    simp only [BlockState.returns_pop_bind, if_pos h.2]
    simp
  case pick | swap | pushUpvars | popUpvars | nlBranch =>
    simp only [returns_ite_fail, BlockState.returns_push, Returns.ok, implies_true]
    try omega
  case loadUpvar index depth | storeUpvar index depth =>
    simp only [fail_bind, returns_ite_fail, returns_unwrap_bind, BlockState.returns_push,
      BlockState.returns_pop, implies_true, and_true]
    intro hdepth
    have hlt : upvars.length - 1 - depth < upvars.length := by omega
    rw [List.getElem?_eq_getElem hlt]
    grind
  case close | nlGuard =>
    simp only [fail_bind, returns_ite_fail, returns_okOr_bind, BlockState.returns_push,
      BlockState.returns_push_bind]
    intros
    omega
  case ret =>
    simp only [fail_bind, returns_ite_fail, BlockState.returns_pop_bind, Returns.pure,
      implies_true]
  case reify p =>
    obtain ⟨h, hargs, hlen⟩ := h
    obtain ⟨args, hargs⟩ := Option.isSome_iff_exists.mp hargs
    simp only [fail_bind, returns_ite_fail, returns_unwrap_bind, BlockState.returns_push]
    intro hne
    have hnil : upvars ≠ [] := by
      rintro rfl
      exact hne (Nat.le_antisymm (Nat.zero_le _) hlen)
    exact ⟨_, List.getLast?_eq_getLast_of_ne_nil hnil, args, hargs, fun _ => h⟩
  case unpack u =>
    obtain ⟨h, n, hn⟩ := h
    rw [unpackLen_eq hn] at h
    rw [arityUnwrap_eq_ok.mpr hn]
    simp only [ok_bind, BlockState.returns_pop_bind]
    intro h1
    exact BlockState.returns_pushN (by simp only; omega)
  all_goals
    simp only [BlockState.returns_pop_bind, BlockState.returns_push_bind, BlockState.returns_pop,
      BlockState.returns_push, Returns.ok, implies_true]
    try omega

end Dolang.Bytecode
