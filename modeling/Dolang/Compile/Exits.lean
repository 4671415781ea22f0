import Dolang.Compile.Passes

/-!
# The end of the passes

A branch to a later block is encoded from the place of that block in the pass before, but from its
own place in the current one. The two can contradict each other forever: `relax_exits_iff` says when
the passes end, and for `oscillating` they do not.
-/

namespace Dolang.Compile

open Dolang.Rust Dolang.Bytecode

/-! ## When the passes end -/

/-- A pass that moves no block leaves every displacement but the last as it was. -/
theorem agree_of_still {e : FuncEmitter} (hlength : e.blocks.length = e.order.length)
    (hstarted : ∀ i < e.order.length, ∃ b o, Started e i b o) {k : Nat}
    (hstill : ∀ i < e.order.length, (e.layouts (k + 1)).start i = (e.layouts k).start i) :
    Relax.Agree (program e.graph e.order) (e.layouts (k + 1)) (e.layouts k) := by
  have hsound := sound_of_started hlength hstarted
  have hrun := hsound.run
  refine ⟨hstill, fun i hi => ?_⟩
  have hi : i + 1 < e.order.length := hi
  have hnext := (hrun k).start_succ i (show i < e.order.length by omega)
  rw [hstill i (by omega), hstill (i + 1) hi] at hnext
  cases k with
  | succ k =>
    have hthis := (hrun k).start_succ i (show i < e.order.length by omega)
    omega
  | zero =>
    -- The first pass places blocks as if there were no terminators, so this one has none.
    obtain ⟨b, o, hs⟩ := hstarted i (by omega)
    obtain ⟨b', o', hs'⟩ := hstarted (i + 1) hi
    have hplace : e.layout.start (i + 1) = e.layout.start i + b.code.length := by
      simp only [FuncEmitter.layout, hs.block, hs'.block, Option.map_some, Option.getD_some,
        hs.offset, hs'.offset, List.take_add_one, Option.toList_some, List.map_append,
        List.map_cons, List.map_nil, List.sum_append, List.sum_cons, List.sum_nil, hs.termOffset,
        Nat.add_zero]
    have hbase := program_base hs.shape
    have hzero : (e.layouts 1).width i = 0 := by
      have hnext : e.layout.start (i + 1) = e.layout.start i +
          (program e.graph e.order).base i + (e.layouts 1).width i := hnext
      omega
    have htarget : ((program e.graph e.order).target i).isSome = false := by
      by_contra hsome
      obtain ⟨t, ht⟩ := Option.isSome_iff_exists.mp ((Bool.not_eq_false _).mp hsome)
      rw [(hrun 0).width i (show i < e.order.length by omega), ht] at hzero
      have hpos := (encodedLen_bounds (zag (Relax.displacement (program e.graph e.order)
        (e.layouts 0) (e.layouts 1) i t))).1
      have hzero : encodedLen (zag (Relax.displacement (program e.graph e.order)
        (e.layouts 0) (e.layouts 1) i t)) = 0 := hzero
      omega
    obtain ⟨d, hlen⟩ := hs.length
    rw [htarget, if_neg (by decide), Nat.add_zero] at hlen
    rw [hzero]
    simp only [FuncEmitter.layouts, FuncEmitter.passes, FuncEmitter.layout, hs.block, Option.map_some,
      Option.getD_some, hlen, Nat.sub_self]

/-- The loop of `emit` ends exactly when the branches to later blocks settle. They do when each of
them needs the same number of bytes whatever the lengths of the others. -/
theorem relax_exits_iff {g : Graph} {enter : Nat} {e : FuncEmitter}
    (h : beginEmit g enter = .ok e) :
    ((∃ fuel e', e.relax fuel = .ok e') ↔
      Relax.ForwardSettles (program e.graph e.order) e.layouts) ∧
    (Relax.FixedForward (program e.graph e.order) → ∃ fuel e', e.relax fuel = .ok e') := by
  obtain ⟨s, -, h⟩ := bind_ok h
  obtain ⟨-, -, hlength, hstarted⟩ := FuncEmitter.start_spec h
  have hsound := sound_of_started hlength hstarted
  have htarget : ∀ i t, (program e.graph e.order).target i = some t →
      t < (program e.graph e.order).size := fun i t => program_target_lt
  have hexits : Relax.ForwardSettles (program e.graph e.order) e.layouts →
      ∃ fuel e', e.relax fuel = .ok e' := by
    intro hforward
    obtain ⟨N, hN⟩ := hsound.run.settles hforward
    obtain ⟨hsoundN, hgraph, horder⟩ := hsound.passes N
    obtain ⟨e', changing, hpass, -, -, -, -, hchanging, -⟩ := hsoundN.pass
    have hstill : changing = false := by
      rw [hchanging, horder]
      intro i hi
      have := hN N (Nat.le_refl N) i (Nat.le_of_lt hi)
      rw [FuncEmitter.layouts, FuncEmitter.layouts, passes_succ_of_pass hpass] at this
      exact this
    exact relax_of_still hsound (hstill ▸ hpass)
  refine ⟨⟨?_, hexits⟩, fun hfixed => hexits (hsound.run.forward_of_fixed htarget hfixed)⟩
  rintro ⟨fuel, e', hrelax⟩
  obtain ⟨k, hk⟩ := relax_eq_ok hrelax
  obtain ⟨hsoundk, hgraph, horder⟩ := hsound.passes k
  obtain ⟨e'', changing, hpass, -, -, -, -, hchanging, -⟩ := hsoundk.pass
  rw [hk] at hpass
  cases hpass
  apply hsound.run.forward_of_still htarget (k := k)
  apply agree_of_still hlength hstarted
  intro i hi
  have := hchanging.mp rfl i (by rw [horder]; exact hi)
  rw [FuncEmitter.layouts, FuncEmitter.layouts, passes_succ_of_pass hk]
  exact this

/-- Two tests in a row. Each of their branches is one byte longer when the other is, but the second
one is measured from its own new place to the old place of its target. -/
def oscillating : Graph where
  funcs := [⟨0, 3, 0, 1, [0]⟩]
  scopes := [⟨none, 0, [⟨false, true, false, false⟩], 0, 0, false, some 0⟩]
  blocks := [
    ⟨[.loadLocal 0], .cond 1 3, 0, 0⟩,
    ⟨[.loadLocal 0], .cond 2 4, 0, 0⟩,
    ⟨(List.replicate 17 [.loadConst 0, .pop]).flatten ++
      (List.replicate 2 [.loadConst 200, .pop]).flatten, .branch 3, 0, 0⟩,
    ⟨[.loadConst 200, .neg], .ret, 0, 0⟩,
    ⟨[.loadConst 0], .ret, 0, 0⟩]

/-- The emitter of `oscillating` after its first pass. -/
def oscillatingEmitter : FuncEmitter :=
  match beginEmit oscillating 0 with
  | .ok e => e
  | .error _ => ⟨oscillating, [], []⟩

/-- The passes over `oscillating` take turns between two layouts, and never end. -/
theorem oscillating_never_exits :
    beginEmit oscillating 0 = .ok oscillatingEmitter ∧
      ¬ ∃ fuel e', oscillatingEmitter.relax fuel = .ok e' := by
  refine ⟨by decide +kernel, ?_⟩
  rintro ⟨fuel, e', h⟩
  -- The passes from one layout to the other one and back, each of which moves a block.
  have hthere : (oscillatingEmitter.passes 3).pass = .ok (oscillatingEmitter.passes 4, true) := by
    decide +kernel
  have hback : (oscillatingEmitter.passes 4).pass = .ok (oscillatingEmitter.passes 3, true) := by
    decide +kernel
  have hfirst : ∀ k < 3, (oscillatingEmitter.passes k).pass =
      .ok (oscillatingEmitter.passes (k + 1), true) := by
    decide +kernel
  have hturn : ∀ k, oscillatingEmitter.passes (k + 3) = oscillatingEmitter.passes 3 ∨
      oscillatingEmitter.passes (k + 3) = oscillatingEmitter.passes 4 := by
    intro k
    induction k with
    | zero => exact .inl rfl
    | succ k ih =>
      rcases ih with hk | hk
      · rw [← hk] at hthere
        exact .inr (passes_succ_of_pass hthere)
      · rw [← hk] at hback
        exact .inl (passes_succ_of_pass hback)
  obtain ⟨k, hk⟩ := relax_eq_ok h
  rcases Nat.lt_or_ge k 3 with hlt | hge
  · rw [hfirst k hlt] at hk
    cases hk
  · obtain ⟨k, rfl⟩ := Nat.exists_eq_add_of_le' hge
    rcases hturn k with heq | heq
    · rw [heq, hthere] at hk
      cases hk
    · rw [heq, hback] at hk
      cases hk

/-- A test whose branches are far from where they would change their lengths. -/
def settled : Graph where
  funcs := [⟨0, 2, 0, 1, [0]⟩]
  scopes := [⟨none, 0, [⟨false, true, false, false⟩], 0, 0, false, some 0⟩]
  blocks := [⟨[.loadLocal 0], .cond 1 2, 0, 0⟩, ⟨[.loadConst 0, .pop], .branch 2, 0, 0⟩,
    ⟨[.loadConst 0], .ret, 0, 0⟩]

/-- The emitter of `settled` after its first pass. -/
def settledEmitter : FuncEmitter :=
  match beginEmit settled 0 with
  | .ok e => e
  | .error _ => ⟨settled, [], []⟩

/-- The passes over `settled` end. -/
theorem settled_exits : beginEmit settled 0 = .ok settledEmitter ∧
    ∃ fuel e', settledEmitter.relax fuel = .ok e' := by
  have hbegin : beginEmit settled 0 = .ok settledEmitter := by decide +kernel
  refine ⟨hbegin, (relax_exits_iff hbegin).2 ?_⟩
  intro i t ht hlt v v' w w' _
  have htlt : t < 3 := program_target_lt ht
  -- The only branch forwards is that of the test, over the three bytes of the second block.
  have hbases : (program settledEmitter.graph settledEmitter.order).base 1 = 3 ∧
      (program settledEmitter.graph settledEmitter.order).target 0 = some 2 ∧
      (program settledEmitter.graph settledEmitter.order).target 1 = none := by
    decide +kernel
  obtain ⟨hbase, hzero, hone⟩ := hbases
  obtain rfl | rfl : i = 0 ∨ i = 1 := by omega
  · rw [hzero] at ht
    cases ht
    simp only [Relax.starts, Finset.sum_range_succ, Finset.sum_range_zero, hzero, hone, hbase,
      Option.isSome_some, Option.isSome_none, if_true, Bool.false_eq_true, if_false]
    congr 1
    omega
  · rw [hone] at ht
    cases ht

end Dolang.Compile
