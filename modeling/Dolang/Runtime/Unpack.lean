import Dolang.Runtime.Binding

/-!
# Unpacking the arguments of a call

What `unpackUnchecked` does after the loop over the arguments: it puts defaults into the positional
and the keyed slots that are still empty, and the leftovers into the rests. `unpackUnchecked_spec`
says what the slots then hold, and `unpack_binds_iff` for which calls that is what the call binds.

The loop over the positional defaults takes those that are needed, but puts the first of them behind
the required slots and not behind the last argument. So a call with some but not all of the optional
arguments loses the first of them and leaves the last slot without a value.
-/

namespace Dolang.Runtime

open Dolang.Rust Dolang.Bytecode

/-! ### Defaults and rests -/

section Slots

variable {u : Unpack} {offset n : Nat} {find : SymObj → Option Nat} {items left : List Item}
variable {st : Unpacking} {slots : List Value} {value : Value}

/-- The loop over the defaults writes them one after the other. -/
theorem setDefaults (base k : Nat) (defaults : List ConstValue) (slots : List Value)
    (hlen : base + k + defaults.length ≤ slots.length) :
    ∃ slots', (defaults.zipIdx k).foldlM
        (fun slots d => setSlot slots (base + d.2) (.const d.1)) slots = .ok slots' ∧
      slots'.length = slots.length ∧
      ∀ m, slots'[m]? =
        if base + k ≤ m ∧ m < base + k + defaults.length then defaults[m - (base + k)]?.map .const
        else slots[m]? := by
  induction defaults generalizing k slots with
  | nil =>
    refine ⟨slots, rfl, rfl, fun m => ?_⟩
    rw [List.length_nil, if_neg (by omega)]
  | cons d defaults ih =>
    rw [List.length_cons] at hlen
    have hset : base + (k + 1) + defaults.length ≤ (slots.set (base + k) (.const d)).length := by
      rw [List.length_set]
      omega
    obtain ⟨slots', hslots', hlen', hget⟩ := ih _ _ hset
    refine ⟨slots', ?_, by rw [hlen', List.length_set], fun m => ?_⟩
    · rw [List.zipIdx_cons, List.foldlM_cons, setSlot_of_lt (by omega), ok_bind, hslots']
    · rw [hget, List.length_cons]
      by_cases hm : m = base + k
      · subst hm
        rw [if_neg (by omega), if_pos (by omega), Nat.sub_self, List.getElem?_set_self (by omega)]
        rfl
      · rw [List.getElem?_set_ne (Ne.symm hm)]
        by_cases hin : base + (k + 1) ≤ m ∧ m < base + (k + 1) + defaults.length
        · have hsub : m - (base + k) = m - (base + (k + 1)) + 1 := by omega
          rw [if_pos hin, if_pos (by omega), hsub, List.getElem?_cons_succ]
        · rw [if_neg hin, if_neg (by omega)]

/-- What a key's slot holds in the end, by what it held after the loop over the arguments. -/
def Key.filled (key : Key) (value : Value) : Option Value :=
  if value.isUninit then key.default.map .const else some value

/-- The body of the loop over the keys. -/
def fillKey (base : Nat) (slots : List Value) (k : Key × Nat) : Exec Thrown (List Value) := do
  let value ← getSlot slots (base + k.2)
  if value.isUninit then
    match k.1.default, k.1.kind with
    | some d, _ => setSlot slots (base + k.2) (.const d)
    | none, .sym sym => fail (.missingKey sym)
    | none, .const _ => abort
  else return slots

theorem fillKey_spec {base k : Nat} (key : Key) (hvalue : slots[base + k]? = some value) :
    match key.filled value with
    | some value' => fillKey base slots (key, k) = .ok (slots.set (base + k) value')
    | none => ∃ e, fillKey base slots (key, k) = .error e := by
  have hlt := (List.getElem?_eq_some_iff.mp hvalue).1
  unfold Key.filled fillKey
  dsimp only
  rw [getSlot_of_some hvalue, ok_bind]
  by_cases hinit : value.isUninit
  · rw [if_pos hinit, if_pos hinit]
    cases hdefault : key.default with
    | none => cases key.kind <;> exact ⟨_, rfl⟩
    | some d => exact setSlot_of_lt hlt
  · rw [if_neg hinit, if_neg hinit]
    have hsame : slots.set (base + k) value = slots := by
      obtain ⟨-, rfl⟩ := List.getElem?_eq_some_iff.mp hvalue
      exact List.set_getElem_self hlt
    dsimp only
    rw [hsame]
    rfl

/-- The loop over the keys fills the slot of each, or fails at a key that has neither an argument nor
a default. -/
theorem fillKeys_spec {base k : Nat} {keys : List Key}
    (hlen : base + k + keys.length ≤ slots.length) :
    (∃ slots', (keys.zipIdx k).foldlM (fillKey base) slots = .ok slots' ∧
      slots'.length = slots.length ∧
      (∀ m, m < base + k ∨ base + k + keys.length ≤ m → slots'[m]? = slots[m]?) ∧
      ∀ i key, keys[i]? = some key → ∀ value, slots[base + k + i]? = some value →
        (key.filled value).isSome ∧ slots'[base + k + i]? = key.filled value) ∨
    (∃ e, (keys.zipIdx k).foldlM (fillKey base) slots = .error e) ∧
      ∃ i key value, keys[i]? = some key ∧ slots[base + k + i]? = some value ∧
        key.filled value = none := by
  induction keys generalizing k slots with
  | nil => exact .inl ⟨slots, rfl, rfl, fun _ _ => rfl, nofun⟩
  | cons key keys ih =>
    rw [List.length_cons] at hlen
    have hvalue : slots[base + k]? = some slots[base + k] := List.getElem?_eq_getElem (by omega)
    have hstep := fillKey_spec key hvalue
    rw [List.zipIdx_cons, List.foldlM_cons]
    cases hfilled : key.filled slots[base + k] with
    | none =>
      rw [hfilled] at hstep
      obtain ⟨e, he⟩ := hstep
      refine .inr ⟨⟨e, ?_⟩, 0, key, _, rfl, hvalue, hfilled⟩
      rw [he]
      rfl
    | some value' =>
      rw [hfilled] at hstep
      dsimp only at hstep
      rw [hstep, ok_bind]
      have hset : ∀ m, m ≠ base + k → (slots.set (base + k) value')[m]? = slots[m]? :=
        fun m hm => List.getElem?_set_ne (Ne.symm hm)
      have hlen' : base + (k + 1) + keys.length ≤ (slots.set (base + k) value').length := by
        rw [List.length_set]
        omega
      obtain ⟨slots', hslots', hlen', hsame, hkeys⟩ | ⟨he, i, key', value, hkey, hat, hnone⟩ :=
        ih hlen'
      · refine .inl ⟨slots', hslots', by rw [hlen', List.length_set], fun m hm => ?_, ?_⟩
        · rw [List.length_cons] at hm
          rw [hsame m (by omega), hset m (by omega)]
        · intro i key' hkey value hat
          cases i with
          | zero =>
            obtain rfl := Option.some.inj hkey
            obtain rfl := Option.some.inj (hvalue.symm.trans hat)
            rw [hfilled, Nat.add_zero, hsame _ (by omega), List.getElem?_set_self (by omega)]
            exact ⟨rfl, rfl⟩
          | succ i =>
            have hindex : base + k + (i + 1) = base + (k + 1) + i := by omega
            rw [hindex] at hat ⊢
            exact hkeys i key' hkey value (by rw [hset _ (by omega), hat])
      · have hindex : base + k + (i + 1) = base + (k + 1) + i := by omega
        rw [hset _ (by omega)] at hat
        exact .inr ⟨he, i + 1, key', value, hkey, by rw [hindex, hat], hnone⟩

theorem unpackMissing_eq :
    unpackMissing u offset slots = u.keys.zipIdx.foldlM (fillKey (offset + u.total)) slots := rfl

/-- The entries of a keyed rest. -/
theorem map_keyeds (items : List Item) :
    (keyeds items).map (fun e => (some e.1, e.2)) = items.filter (·.1.isSome) := by
  induction items with
  | nil => rfl
  | cons item items ih =>
    obtain ⟨_ | sym, value⟩ := item
    · exact ih
    · show (some sym, value) :: (keyeds items).map _ = (some sym, value) :: items.filter _
      rw [ih]

/-- Each rest gets what it takes of the leftovers, and no other slot is touched. -/
theorem unpackRests_spec (hn : offset + u.len ≤ slots.length) (h : RestsFilled u left st) :
    ∃ slots', unpackRests u offset st slots = .ok slots' ∧ slots'.length = slots.length ∧
      (∀ m < offset + u.total + u.keys.length, slots'[m]? = slots[m]?) ∧
      ∀ i value, (u.restValues left)[i]? = some value →
        slots'[offset + u.total + u.keys.length + i]? = some value := by
  have hbase : offset + (u.required + u.optional.length) + u.keys.length =
      offset + u.total + u.keys.length := rfl
  generalize hrest : offset + u.total + u.keys.length = base at hbase ⊢
  have hroom : base + u.variadic.captures ≤ slots.length := by
    unfold Unpack.len Unpack.total at *
    omega
  unfold unpackRests Unpack.restValues
  rw [hbase]
  cases hv : u.variadic with
  | discard =>
    obtain ⟨h, h', h''⟩ := (restsFilled_discard hv).mp h
    rw [h, h', h'']
    exact ⟨slots, rfl, rfl, fun _ _ => rfl, nofun⟩
  | capture =>
    obtain ⟨h, h', h''⟩ := (restsFilled_capture hv).mp h
    rw [hv] at hroom
    have hlt : base < slots.length := hroom
    rw [h, h', h'']
    dsimp only
    rw [setSlot_of_lt hlt]
    refine ⟨_, rfl, List.length_set .., fun m hm => List.getElem?_set_ne (by omega), ?_⟩
    intro i value hi
    obtain ⟨rfl, rfl⟩ : i = 0 ∧ Value.record left = value := by
      cases i with
      | zero => exact ⟨rfl, Option.some.inj hi⟩
      | succ i => cases hi
    exact List.getElem?_set_self hlt
  | split a b =>
    obtain ⟨h, h', h''⟩ := (restsFilled_split hv).mp h
    rw [hv, Variadic.captures] at hroom
    rw [h, h', h'']
    dsimp only
    rw [← map_keyeds, ok_bind]
    by_cases ha : a = .capture
    · rw [if_pos ha] at hroom ⊢
      dsimp only
      rw [if_pos ha, setSlot_of_lt (by omega), ok_bind]
      by_cases hb : b = .capture
      · rw [if_pos hb] at hroom ⊢
        have hlt : base + 1 < (slots.set base (.tuple (positionals left))).length := by
          rw [List.length_set]
          omega
        rw [if_pos hb]
        show ∃ slots', setSlot _ (base + 1) _ = _ ∧ _
        rw [setSlot_of_lt hlt]
        refine ⟨_, rfl, by rw [List.length_set, List.length_set], fun m hm => ?_, fun i value hi => ?_⟩
        · rw [List.getElem?_set_ne (by omega), List.getElem?_set_ne (by omega)]
        · match i, hi with
          | 0, hi =>
            obtain rfl := Option.some.inj hi
            rw [List.getElem?_set_ne (by omega), Nat.add_zero, List.getElem?_set_self (by omega)]
          | 1, hi =>
            obtain rfl := Option.some.inj hi
            exact List.getElem?_set_self hlt
      · rw [if_neg hb] at ⊢
        rw [if_neg hb]
        refine ⟨_, rfl, List.length_set .., fun m hm => List.getElem?_set_ne (by omega), ?_⟩
        intro i value hi
        match i, hi with
        | 0, hi =>
          obtain rfl := Option.some.inj hi
          exact List.getElem?_set_self (by omega)
    · rw [if_neg ha] at hroom ⊢
      rw [if_neg ha]
      by_cases hb : b = .capture
      · rw [if_pos hb] at hroom ⊢
        rw [if_pos hb]
        show ∃ slots', setSlot slots base _ = _ ∧ _
        rw [setSlot_of_lt (by omega)]
        refine ⟨_, rfl, List.length_set .., fun m hm => List.getElem?_set_ne (by omega), ?_⟩
        intro i value hi
        match i, hi with
        | 0, hi =>
          obtain rfl := Option.some.inj hi
          exact List.getElem?_set_self (by omega)
      · rw [if_neg hb, if_neg hb]
        exact ⟨slots, rfl, rfl, fun _ _ => rfl, nofun⟩

end Slots

/-! ### A call -/

/-- `unpack_unchecked` with what it leaves in the frame also when it fails: the argument slots are
reset before the error is returned, or the panic resumed. -/
def CallFrame.unpack (program : Program) (f : CallFrame) (args : List CallArg) :
    Exec Thrown (Option (Fault Thrown) × CallFrame) := do
  let (func, slotMax) ← unwrap program.funcs[f.func]?
  let u ← unwrap program.unpacktab[func.sig]?
  let offset := func.locals
  if slotMax < func.locals + u.len ∨ f.slots.length < offset + u.len then abort
  match f.unpackUnchecked program args with
  | .ok f' => return (none, f')
  | .error fault =>
    let reset := f.slots.mapIdx fun i v => if offset ≤ i ∧ i < offset + u.len then .nil else v
    return (some fault, { f with slots := reset })

/-- No key of the signature is given an argument that goes to another key of the same name, unless
the argument is its default. -/
def Unshadowed (u : Unpack) (find : SymObj → Option Nat) (items : List Item) : Prop :=
  ∀ i (key : Key) value, u.keys[i]? = some key → key.given items = some value →
    key.taken find i items = none → key.default.map .const = some value

/-- The slots that an unpack leaves. The defaults are behind the required slots, as many as are
needed. -/
structure Unpacked (u : Unpack) (offset : Nat) (find : SymObj → Option Nat) (items : List Item)
    (slots : List Value) : Prop where
  positional : ∀ j < u.total, slots[offset + j]? =
    if u.required ≤ j ∧ j < u.required + (u.total - (positionals items).length) then
      u.optional[j - u.required + ((positionals items).length - u.required)]?.map .const
    else some ((positionals items)[j]?.getD .uninit)
  keys : ∀ i key, u.keys[i]? = some key →
    slots[offset + u.total + i]? = (key.taken find i items).or (key.default.map .const)
  rests : ∀ i value, (u.restValues (u.leftover items))[i]? = some value →
    slots[offset + u.total + u.keys.length + i]? = some value

/-- When an unpack succeeds: no leftover is refused, and each key is found or has a default. -/
structure Unpacks (u : Unpack) (find : SymObj → Option Nat) (items : List Item) : Prop where
  required : u.required ≤ (positionals items).length
  keys : ∀ i (key : Key), u.keys[i]? = some key →
    ((key.taken find i items).or (key.default.map .const)).isSome
  leftover : ∀ item ∈ u.leftover items, u.restOf item ≠ .none

section Call

variable {program : Program} {f : CallFrame} {func : Func} {slotMax : Nat} {u : Unpack}
variable {find : SymObj → Option Nat} {items : List Item}

theorem Key.taken_init (hinit : ∀ item ∈ items, item.2.isUninit = false) {key : Key} {i : Nat}
    {value : Value} (h : key.taken find i items = some value) : value.isUninit = false := by
  unfold Key.taken at h
  split at h
  · split at h
    · exact named_init hinit h
    · cases h
  · cases h

theorem Key.filled_taken (hinit : ∀ item ∈ items, item.2.isUninit = false) (key : Key) (i : Nat) :
    key.filled ((key.taken find i items).getD .uninit) =
      (key.taken find i items).or (key.default.map .const) := by
  cases htaken : key.taken find i items with
  | none => rfl
  | some value =>
    rw [Option.getD_some, Key.filled, Key.taken_init hinit htaken]
    rfl

/-- The argument slots are empty before the loop. -/
theorem filled_nil {slots : List Value} (hmax : func.locals + u.len ≤ slots.length) :
    Filled u func.locals slots.length find [] {
      pos := 0
      slots := slots.mapIdx fun i v =>
        if func.locals ≤ i ∧ i < func.locals + u.len then .uninit else v
      rest := if u.variadic = .capture then some [] else none
      posRest := if u.variadic.positional = .capture ∧ u.variadic ≠ .capture then some [] else none
      keyRest := if u.variadic.keyed = .capture ∧ u.variadic ≠ .capture then some [] else none } := by
  have hclear : ∀ i < u.len, (slots.mapIdx fun i v =>
      if func.locals ≤ i ∧ i < func.locals + u.len then Value.uninit else v)[func.locals + i]? =
        some .uninit := by
    intro i hi
    rw [List.getElem?_mapIdx, List.getElem?_eq_getElem (by omega), Option.map_some,
      if_pos ⟨by omega, by omega⟩]
  refine ⟨⟨List.length_mapIdx, (Nat.min_zero _).symm, fun j hj => ?_, fun i key hkey => ?_⟩, ?_⟩
  · rw [hclear j (by unfold Unpack.len Unpack.total at *; omega)]
    rfl
  · have hlt := (List.getElem?_eq_some_iff.mp hkey).1
    rw [Nat.add_assoc, hclear _ (by unfold Unpack.len Unpack.total; omega)]
    unfold Key.taken
    cases key.kind with
    | const c => rfl
    | sym sym =>
      dsimp only
      split <;> rfl
  · exact ⟨rfl, rfl, rfl⟩

/-- The loop over the defaults. -/
theorem unpackOptional_spec {offset n : Nat} {pos : Nat} {slots : List Value}
    (hn : offset + u.len ≤ n) (hrequired : u.required ≤ pos)
    (h : SlotsFilled u offset n find items pos slots) :
    ∃ slots', unpackOptional u offset pos slots = .ok slots' ∧ slots'.length = n ∧
      (∀ j < u.total, slots'[offset + j]? =
        if u.required ≤ j ∧ j < u.required + (u.total - (positionals items).length) then
          u.optional[j - u.required + ((positionals items).length - u.required)]?.map .const
        else some ((positionals items)[j]?.getD .uninit)) ∧
      ∀ i key, u.keys[i]? = some key →
        slots'[offset + u.total + i]? = some ((key.taken find i items).getD .uninit) := by
  have hlen := h.length
  have hpos := h.pos
  have htotal : offset + u.total ≤ n := by
    unfold Unpack.len Unpack.total at *
    omega
  have hoptional : u.optional.length = u.total - u.required := (Nat.add_sub_cancel_left ..).symm
  have hcount : (u.optional.drop (pos - u.required)).length = u.total - pos := by
    rw [List.length_drop]
    omega
  obtain ⟨slots', hslots', hlen', hget⟩ := setDefaults (offset + u.required) 0
    (u.optional.drop (pos - u.required)) slots (by omega)
  refine ⟨slots', ?_, by omega, fun j hj => ?_, fun i key hkey => ?_⟩
  · rw [unpackOptional, if_pos (by omega), hslots']
  · rw [hget, hcount, h.positional j hj]
    by_cases hin : u.required ≤ j ∧ j < u.required + (u.total - (positionals items).length)
    · have hindex : pos - u.required + (offset + j - (offset + u.required + 0)) =
          j - u.required + ((positionals items).length - u.required) := by omega
      rw [if_pos (by omega), if_pos hin, List.getElem?_drop, hindex]
    · rw [if_neg (by omega), if_neg hin]
  · rw [hget, if_neg (by omega), h.keyed i key hkey]

/-- What an unpack makes of its arguments. -/
theorem unpackUnchecked_spec (hfunc : program.funcs[f.func]? = some (func, slotMax))
    (hu : program.unpacktab[func.sig]? = some u) (hslots : f.slots.length = slotMax)
    (hmax : func.locals + u.len ≤ slotMax) (hfind : u.Finds find)
    (hinit : ∀ item ∈ items, item.2.isUninit = false) :
    (∃ slots, f.unpackUnchecked program (items.map (.of find)) =
        .ok { f with slots, sp := func.locals + u.len } ∧
      Unpacks u find items ∧ Unpacked u func.locals find items slots) ∨
    (∃ e, f.unpackUnchecked program (items.map (.of find)) = .error e) ∧
      ¬Unpacks u find items := by
  subst hslots
  unfold CallFrame.unpackUnchecked
  simp only [hfunc, hu, unwrap, ok_bind]
  rw [if_neg (by omega)]
  obtain ⟨st, hst, hfilled, haccepts⟩ | ⟨⟨e, he⟩, bad, hbad, hrest⟩ :=
    unpackArgs_spec hmax hfind hinit (filled_nil hmax)
  · rw [hst, ok_bind]
    have hpos := hfilled.slots.pos
    by_cases hrequired : st.pos < u.required
    · rw [if_pos hrequired]
      refine .inr ⟨⟨_, rfl⟩, fun h => ?_⟩
      have hcount := h.required
      have htotal : u.required ≤ u.total := Nat.le_add_right ..
      omega
    rw [if_neg hrequired]
    obtain ⟨slots, hoptional, hlen, hpositional, hkeys⟩ :=
      unpackOptional_spec hmax (Nat.not_lt.mp hrequired) hfilled.slots
    have hbase : func.locals + u.total + 0 + u.keys.length ≤ slots.length := by
      unfold Unpack.len Unpack.total at *
      omega
    show (∃ slots, (unpackOptional u func.locals st.pos st.slots >>= _) = _ ∧ _) ∨
      (∃ e, (unpackOptional u func.locals st.pos st.slots >>= _) = _) ∧ _
    rw [hoptional, ok_bind, unpackMissing_eq]
    obtain ⟨slots', hslots', hlen', hsame, hfill⟩ | ⟨⟨e, he⟩, i, key, value, hkey, hvalue, hnone⟩ :=
      fillKeys_spec hbase
    · rw [hslots', ok_bind]
      have hroom : func.locals + u.len ≤ slots'.length := by omega
      obtain ⟨slots'', hslots'', hlen'', hbelow, hrests⟩ := unpackRests_spec hroom hfilled.rests
      rw [hslots'', ok_bind]
      have hfilled' : ∀ i key, u.keys[i]? = some key →
          ((key.taken find i items).or (key.default.map .const)).isSome ∧
            slots'[func.locals + u.total + i]? =
              (key.taken find i items).or (key.default.map .const) := by
        intro i key hkey
        have hfill := hfill i key hkey _ (hkeys i key hkey)
        rwa [Key.filled_taken hinit] at hfill
      refine .inl ⟨slots'', rfl, ⟨?_, fun i key hkey => (hfilled' i key hkey).1, haccepts⟩,
        fun j hj => ?_, fun i key hkey => ?_, hrests⟩
      · rw [hpos] at hrequired
        omega
      · rw [hbelow _ (by omega), hsame _ (by omega), hpositional j hj]
      · have hlt := (List.getElem?_eq_some_iff.mp hkey).1
        rw [hbelow _ (by omega), (hfilled' i key hkey).2]
    · refine .inr ⟨⟨e, ?_⟩, fun h => ?_⟩
      · rw [he]
        rfl
      · obtain rfl := Option.some.inj ((hkeys i key hkey).symm.trans hvalue)
        have hsome := h.keys i key hkey
        rw [Key.filled_taken hinit] at hnone
        rw [hnone] at hsome
        cases hsome
  · refine .inr ⟨⟨e, ?_⟩, fun h => h.leftover bad hbad hrest⟩
    rw [he]
    rfl

/-! #### Against what a call binds -/

theorem Key.given_of_taken {key : Key} {i : Nat} {value : Value}
    (h : key.taken find i items = some value) : key.given items = some value := by
  unfold Key.taken at h
  unfold Key.given
  cases hkind : key.kind with
  | const c =>
    rw [hkind] at h
    cases h
  | sym sym =>
    rw [hkind] at h
    dsimp only at h ⊢
    split at h
    · exact h
    · cases h

theorem positionals_init (hinit : ∀ item ∈ items, item.2.isUninit = false) {j : Nat} {value : Value}
    (h : (positionals items)[j]? = some value) : value.isUninit = false := by
  obtain ⟨item, hmem, hitem⟩ := List.mem_filterMap.mp (List.mem_of_getElem? h)
  split at hitem
  · rw [← Option.some.inj hitem]
    exact hinit item hmem
  · cases hitem

theorem Unpack.restValues_length (u : Unpack) (left : List Item) :
    (u.restValues left).length = u.variadic.captures := by
  unfold Unpack.restValues Variadic.captures
  cases u.variadic with
  | discard => rfl
  | capture => rfl
  | split a b =>
    rw [List.length_append]
    congr 1 <;> split <;> rfl

theorem Unpack.restValues_init (u : Unpack) {left : List Item} {value : Value}
    (h : value ∈ u.restValues left) : value.isUninit = false := by
  unfold Unpack.restValues at h
  cases hv : u.variadic with
  | discard =>
    rw [hv] at h
    cases h
  | capture =>
    rw [hv] at h
    rw [List.mem_singleton.mp h]
    rfl
  | split a b =>
    rw [hv] at h
    obtain h | h := List.mem_append.mp h <;> split at h
    · rw [List.mem_singleton.mp h]
      rfl
    · cases h
    · rw [List.mem_singleton.mp h]
      rfl
    · cases h

/-- A call that the signature accepts is unpacked, unless a key is shadowed. -/
theorem Accepts.unpacks (h : Accepts u items) (hshadow : Unshadowed u find items) :
    Unpacks u find items := by
  refine ⟨h.required, fun i key hkey => ?_, h.leftover⟩
  cases htaken : key.taken find i items with
  | some value => rfl
  | none =>
    rw [Option.none_or, Option.isSome_map]
    cases hgiven : key.given items with
    | some value =>
      have hdefault := hshadow i key value hkey hgiven htaken
      rw [← Option.isSome_map, hdefault]
      rfl
    | none =>
      rw [← Option.ne_none_iff_isSome]
      intro hdefault
      have hsome := h.keys key (List.mem_of_getElem? hkey) hdefault
      rw [hgiven] at hsome
      cases hsome

theorem Unpacks.accepts (h : Unpacks u find items) : Accepts u items := by
  refine ⟨h.required, fun key hmem hdefault => ?_, h.leftover⟩
  obtain ⟨i, hkey⟩ := List.getElem?_of_mem hmem
  have hsome := h.keys i key hkey
  rw [hdefault, Option.map_none, Option.or_none] at hsome
  obtain ⟨value, hvalue⟩ := Option.isSome_iff_exists.mp hsome
  rw [Key.given_of_taken hvalue]
  rfl

/-- The slots of a call hold what it binds if no optional slot has an argument, or each has one. -/
theorem Unpacked.bound {offset : Nat} {slots : List Value}
    (hinit : ∀ item ∈ items, item.2.isUninit = false)
    (hoptional : (positionals items).length ≤ u.required ∨ u.total ≤ (positionals items).length)
    (hshadow : Unshadowed u find items) (h : Unpacks u find items)
    (hslots : Unpacked u offset find items slots) : Bound u offset items slots := by
  have hrequired := h.required
  have hgiven : ∀ j < u.total, ∀ value, (positionals items)[j]? = some value →
      slots[offset + j]? = some value := by
    intro j hj value hvalue
    have hlt := (List.getElem?_eq_some_iff.mp hvalue).1
    rw [hslots.positional j hj, if_neg (by omega), hvalue]
    rfl
  have hdefault : ∀ j < u.total, (positionals items)[j]? = none →
      slots[offset + j]? = u.optional[j - u.required]?.map .const := by
    intro j hj hnone
    have hle := List.getElem?_eq_none_iff.mp hnone
    have hindex : j - u.required + ((positionals items).length - u.required) = j - u.required := by
      omega
    rw [hslots.positional j hj, if_pos (by omega), hindex]
  have hkeys : ∀ i key, u.keys[i]? = some key →
      slots[offset + u.total + i]? = (key.given items).or (key.default.map .const) := by
    intro i key hkey
    rw [hslots.keys i key hkey]
    cases htaken : key.taken find i items with
    | some value => rw [Key.given_of_taken htaken, Option.some_or]
    | none =>
      cases hgiven : key.given items with
      | none => rfl
      | some value => exact hshadow i key value hkey hgiven htaken
  refine ⟨hgiven, hdefault, hkeys, hslots.rests, fun i hi value hvalue => ?_⟩
  by_cases htotal : i < u.total
  · cases harg : (positionals items)[i]? with
    | some value' =>
      rw [hgiven i htotal value' harg] at hvalue
      rw [← Option.some.inj hvalue]
      exact positionals_init hinit harg
    | none =>
      rw [hdefault i htotal harg] at hvalue
      obtain ⟨d, -, rfl⟩ := Option.map_eq_some_iff.mp hvalue
      rfl
  by_cases hkey : i < u.total + u.keys.length
  · have hat : u.keys[i - u.total]? = some u.keys[i - u.total] :=
      List.getElem?_eq_getElem (by omega)
    have hindex : offset + u.total + (i - u.total) = offset + i := by omega
    have hslot := hslots.keys _ _ hat
    rw [hindex, hvalue] at hslot
    obtain htaken | ⟨-, hd⟩ := Option.or_eq_some_iff.mp hslot.symm
    · exact Key.taken_init hinit htaken
    · obtain ⟨d, -, rfl⟩ := Option.map_eq_some_iff.mp hd
      rfl
  · have hlength := u.restValues_length (u.leftover items)
    have hat : (u.restValues (u.leftover items))[i - u.total - u.keys.length]? = some _ :=
      List.getElem?_eq_getElem (by unfold Unpack.len Unpack.total at *; omega)
    have hindex : offset + u.total + u.keys.length + (i - u.total - u.keys.length) = offset + i := by
      omega
    have hslot := hslots.rests _ _ hat
    rw [hindex, hvalue] at hslot
    rw [Option.some.inj hslot]
    exact u.restValues_init (List.getElem_mem _)

theorem unpack_eq (hfunc : program.funcs[f.func]? = some (func, slotMax))
    (hu : program.unpacktab[func.sig]? = some u) (hslots : f.slots.length = slotMax)
    (hmax : func.locals + u.len ≤ slotMax) (args : List CallArg) :
    f.unpack program args =
      match f.unpackUnchecked program args with
      | .ok f' => .ok (none, f')
      | .error fault => .ok (some fault, { f with slots := f.slots.mapIdx fun i v =>
          if func.locals ≤ i ∧ i < func.locals + u.len then .nil else v }) := by
  subst hslots
  unfold CallFrame.unpack
  simp only [hfunc, hu, unwrap, ok_bind]
  rw [if_neg (by omega)]
  rfl

/-- A call comes out right exactly if none of the optional parameters has an argument or all have, and
no key is shadowed, unless the arguments are refused. -/
theorem unpack_binds_iff (hfunc : program.funcs[f.func]? = some (func, slotMax))
    (hu : program.unpacktab[func.sig]? = some u) (hslots : f.slots.length = slotMax)
    (hmax : func.locals + u.len ≤ slotMax) (hfind : u.Finds find)
    (hinit : ∀ item ∈ items, item.2.isUninit = false) :
    (∃ fault f', f.unpack program (items.map (.of find)) = .ok (fault, f') ∧
      Meets u func.locals items fault f'.slots) ↔
    (Accepts u items →
      ((positionals items).length ≤ u.required ∨ u.total ≤ (positionals items).length) ∧
        Unshadowed u find items) := by
  have heq := unpack_eq hfunc hu hslots hmax (items.map (.of find))
  obtain ⟨slots, hok, hunpacks, hunpacked⟩ | ⟨⟨e, herror⟩, hunpacks⟩ :=
    unpackUnchecked_spec hfunc hu hslots hmax hfind hinit
  · rw [hok] at heq
    dsimp only at heq
    constructor
    · rintro ⟨fault, f', hrun, hmeets⟩ haccepts
      obtain ⟨rfl, rfl⟩ := Prod.mk.inj (Except.ok.inj (heq.symm.trans hrun))
      have hbound := hmeets.bound rfl
      constructor
      · -- Otherwise the last optional slot has neither an argument nor a default.
        by_contra hnot
        have hnone : (positionals items)[u.total - 1]? = none := List.getElem?_eq_none (by omega)
        have hlast := hunpacked.positional (u.total - 1) (by omega)
        rw [if_neg (by omega), hnone] at hlast
        have hlen : u.total - 1 < u.len := by
          unfold Unpack.len Unpack.total at *
          omega
        exact Bool.noConfusion (hbound.init _ hlen _ hlast)
      · intro i key value hkey hgiven htaken
        have hslot := (hunpacked.keys i key hkey).symm.trans (hbound.keys i key hkey)
        rwa [htaken, hgiven] at hslot
    · intro hcond
      obtain ⟨hoptional, hshadow⟩ := hcond hunpacks.accepts
      refine ⟨_, _, heq, ⟨fun _ => hunpacks.accepts, fun _ => rfl⟩, fun _ => ?_, fun h => absurd rfl h⟩
      exact hunpacked.bound hinit hoptional hshadow hunpacks
  · rw [herror] at heq
    dsimp only at heq
    constructor
    · rintro ⟨fault, f', hrun, hmeets⟩ haccepts
      obtain ⟨rfl, rfl⟩ := Prod.mk.inj (Except.ok.inj (heq.symm.trans hrun))
      cases hmeets.succeeds.mpr haccepts
    · intro hcond
      refine ⟨_, _, heq, ⟨nofun, fun haccepts => ?_⟩, nofun, fun _ i hi => ?_⟩
      · exact absurd (haccepts.unpacks (hcond haccepts).2) hunpacks
      · rw [List.getElem?_mapIdx, List.getElem?_eq_getElem (by omega), Option.map_some,
          if_pos ⟨by omega, by omega⟩]

end Call

/-- A program with one function, which has no locals. -/
def callee (u : Unpack) : Program where
  bytecode := []
  funcs := [({ sig := 0, locals := 0, upvars := [], bytecode := ⟨0, 0⟩ }, u.len)]
  symtab := []
  consttab := []
  packtab := []
  unpacktab := [u]
  debugbintab := ⟨0, 0⟩
  funcdebugs := []
  moduleName := none

/-- A frame of the function before its arguments are unpacked. -/
def calleeFrame (u : Unpack) : CallFrame where
  func := 0
  base := 0
  upvars := none
  pc := 0
  sp := 0
  slots := List.replicate u.len .nil
  status := .running

/-- A required argument, an optional one that is not given, a key, and a rest for the other key. -/
theorem unpack_binds_iff_keyed :
    let a : SymObj := ⟨[97], none⟩
    let b : SymObj := ⟨[98], none⟩
    let u : Unpack := ⟨1, [.int 1], [⟨.sym a, none⟩], .split .none .capture⟩
    let find : SymObj → Option Nat := fun sym => if sym = a then some 0 else none
    let items : List Item := [(some b, .const (.int 7)), (none, .const (.int 5)),
      (some a, .const (.int 6))]
    ∃ fault f', (calleeFrame u).unpack (callee u) (items.map (.of find)) = .ok (fault, f') ∧
      Meets u 0 items fault f'.slots := by
  intro a b u find items
  have hfind : u.Finds find := by
    constructor
    · intro sym i h
      by_cases hs : sym = a
      · rw [show find sym = some 0 from if_pos hs] at h
        obtain rfl := Option.some.inj h
        exact ⟨_, rfl, by rw [hs]⟩
      · rw [show find sym = none from if_neg hs] at h
        cases h
    · intro sym h hmem
      rw [show find sym = some 0 from if_pos (List.mem_singleton.mp hmem)] at h
      cases h
  have hinit : ∀ item ∈ items, item.2.isUninit = false := by
    intro item hmem
    simp only [items, List.mem_cons, List.not_mem_nil, or_false] at hmem
    obtain rfl | rfl | rfl := hmem <;> rfl
  have hfunc : (callee u).funcs[(calleeFrame u).func]? = some (_, u.len) := rfl
  refine (unpack_binds_iff hfunc rfl rfl (Nat.le_refl 4) hfind hinit).mpr
    fun _ => ⟨.inl (Nat.le_refl 1), ?_⟩
  intro i key value hkey hgiven htaken
  match i, hkey with
  | 0, hkey =>
    obtain rfl := Option.some.inj hkey
    cases htaken.symm.trans hgiven

/-- A call with the first of two optional arguments: its slot gets the second's default, and the
second's slot nothing. -/
theorem unpack_partial_optional :
    let u : Unpack := ⟨0, [.int 1, .int 2], [], .split .none .none⟩
    let items : List Item := [(none, .const (.int 7))]
    let args := items.map (.of fun _ => none)
    (∃ f', (calleeFrame u).unpack (callee u) args = .ok (none, f') ∧
      f'.slots = [.const (.int 2), .uninit]) ∧
    ¬∃ fault f', (calleeFrame u).unpack (callee u) args = .ok (fault, f') ∧
      Meets u 0 items fault f'.slots := by
  intro u items args
  have hrun : (calleeFrame u).unpack (callee u) args =
      .ok (none, { calleeFrame u with slots := [.const (.int 2), .uninit], sp := 2 }) := rfl
  refine ⟨⟨_, hrun, rfl⟩, ?_⟩
  rintro ⟨fault, f', h, hmeets⟩
  obtain ⟨rfl, rfl⟩ := Prod.mk.inj (Except.ok.inj (hrun.symm.trans h))
  have hfirst := (hmeets.bound rfl).given 0 (Nat.zero_lt_two) _ rfl
  cases hfirst

end Dolang.Runtime
