import Dolang.Runtime.Frame

/-!
# What a call binds

What the arguments of a call are to a signature: its positional slots take the first positional
arguments, each key takes the first argument of its name, and what is left over goes to the rests in
the order of the call. `Meets` says it of the slots that `unpackUnchecked` leaves.

The loop over the arguments keeps to this: `unpackArgs_spec` says what the slots and the lists for the
rests hold after it, by what they hold after a part of the arguments.
-/

namespace Dolang.Runtime

open Dolang.Rust Dolang.Bytecode

/-! ### Arguments and what is left of them -/

/-- An argument, or an entry of a record: a value, under a name or at its position. -/
abbrev Item := Option SymObj × Value

/-- The values of the positional items. -/
def positionals (items : List Item) : List Value :=
  items.filterMap fun item => if item.1 = none then some item.2 else none

/-- The value of the first item of a name. -/
def named (sym : SymObj) (items : List Item) : Option Value :=
  items.findSome? fun item => if item.1 = some sym then some item.2 else none

/-- What is left of the items when `count` positions and the names in `syms` take what they can. -/
def leftover (count : Nat) (syms : List SymObj) : List Item → List Item
  | [] => []
  | (none, value) :: items =>
    match count with
    | 0 => (none, value) :: leftover 0 syms items
    | count + 1 => leftover count syms items
  | (some sym, value) :: items =>
    if sym ∈ syms then leftover count (syms.filter (· ≠ sym)) items
    else (some sym, value) :: leftover count syms items

/-- An item is left over after the items before it. -/
def Left (count : Nat) (syms : List SymObj) (before : List Item) : Item → Prop
  | (none, _) => count ≤ (positionals before).length
  | (some sym, _) => sym ∈ syms → (named sym before).isSome

instance (count : Nat) (syms : List SymObj) (before : List Item) :
    (item : Item) → Decidable (Left count syms before item)
  | (none, _) => inferInstanceAs (Decidable (_ ≤ _))
  | (some _, _) => inferInstanceAs (Decidable (_ → _))

theorem positionals_append (items items' : List Item) :
    positionals (items ++ items') = positionals items ++ positionals items' :=
  List.filterMap_append

theorem named_append (sym : SymObj) (items items' : List Item) :
    named sym (items ++ items') = (named sym items).or (named sym items') :=
  List.findSome?_append

theorem named_keyed (sym sym' : SymObj) (value : Value) (items : List Item) :
    named sym ((some sym', value) :: items) = if sym' = sym then some value else named sym items := by
  rw [named, List.findSome?_cons]
  by_cases h : sym' = sym
  · rw [if_pos h, if_pos (congrArg some h)]
  · rw [if_neg h, if_neg fun he => h (Option.some.inj he)]
    rfl

theorem positionals_concat_positional (value : Value) (items : List Item) :
    positionals (items ++ [(none, value)]) = positionals items ++ [value] :=
  positionals_append ..

theorem positionals_concat_keyed (sym : SymObj) (value : Value) (items : List Item) :
    positionals (items ++ [(some sym, value)]) = positionals items := by
  rw [positionals_append]
  exact List.append_nil _

theorem named_concat_positional (sym : SymObj) (value : Value) (items : List Item) :
    named sym (items ++ [(none, value)]) = named sym items := by
  rw [named_append]
  exact Option.or_none

theorem named_concat_keyed (sym sym' : SymObj) (value : Value) (items : List Item) :
    named sym (items ++ [(some sym', value)]) =
      (named sym items).or (if sym' = sym then some value else none) := by
  rw [named_append, named_keyed]
  rfl

section Left

variable {count : Nat} {syms : List SymObj} {items : List Item} {item : Item} {value : Value}

theorem left_zero_positional : Left 0 syms ((none, value) :: items) item ↔ Left 0 syms items item := by
  obtain ⟨_ | sym, v⟩ := item
  · exact ⟨fun _ => Nat.zero_le _, fun _ => Nat.zero_le _⟩
  · exact Iff.rfl

theorem left_succ_positional :
    Left (count + 1) syms ((none, value) :: items) item ↔ Left count syms items item := by
  obtain ⟨_ | sym, v⟩ := item
  · exact Nat.add_le_add_iff_right
  · exact Iff.rfl

/-- A name that is taken is not to be had again. -/
theorem left_keyed_of_mem {sym : SymObj} :
    Left count syms ((some sym, value) :: items) item ↔
      Left count (syms.filter (· ≠ sym)) items item := by
  obtain ⟨_ | sym', v⟩ := item
  · exact Iff.rfl
  · simp only [Left, named_keyed, List.mem_filter, decide_eq_true_eq, ne_eq]
    by_cases he : sym = sym'
    · simp [he]
    · rw [if_neg he]
      exact imp_congr_left (and_iff_left (Ne.symm he)).symm

theorem left_keyed_of_not_mem {sym : SymObj} (h : sym ∉ syms) :
    Left count syms ((some sym, value) :: items) item ↔ Left count syms items item := by
  obtain ⟨_ | sym', v⟩ := item
  · exact Iff.rfl
  · refine imp_congr_right fun hmem => ?_
    have hne : sym ≠ sym' := fun he => h (he ▸ hmem)
    rw [named_keyed, if_neg hne]

end Left

/-- The last item is left over or not. -/
theorem leftover_concat (count : Nat) (syms : List SymObj) (items : List Item) (item : Item) :
    leftover count syms (items ++ [item]) =
      leftover count syms items ++ if Left count syms items item then [item] else [] := by
  induction items generalizing count syms with
  | nil =>
    obtain ⟨_ | sym, value⟩ := item
    · cases count with
      | zero => rfl
      | succ count => rfl
    · by_cases h : sym ∈ syms <;> simp [leftover, Left, named, h]
  | cons first items ih =>
    obtain ⟨_ | sym, value⟩ := first
    · cases count with
      | zero => simp only [List.cons_append, leftover, ih, left_zero_positional]
      | succ count => simp only [List.cons_append, leftover, ih, left_succ_positional]
    · by_cases h : sym ∈ syms
      · simp only [List.cons_append, leftover, if_pos h, ih, left_keyed_of_mem]
      · simp only [List.cons_append, leftover, if_neg h, ih, left_keyed_of_not_mem h]

/-! ### Binding -/

/-- The names of a signature's keys. -/
def Unpack.syms (u : Unpack) : List SymObj :=
  u.keys.filterMap fun key =>
    match key.kind with
    | .sym sym => some sym
    | .const _ => none

/-- The number of positional slots. -/
def Unpack.total (u : Unpack) : Nat :=
  u.required + u.optional.length

/-- What is left of a call's arguments. -/
def Unpack.leftover (u : Unpack) (items : List Item) : List Item :=
  Runtime.leftover u.total u.syms items

/-- The rest that takes a leftover. -/
def Unpack.restOf (u : Unpack) (item : Item) : Rest :=
  match item.1 with
  | none => u.variadic.positional
  | some _ => u.variadic.keyed

/-- The argument for a key. -/
def Key.given (key : Key) (items : List Item) : Option Value :=
  match key.kind with
  | .sym sym => named sym items
  | .const _ => none

/-- What a signature asks of a call: all required arguments, and none that it does not take. -/
structure Accepts (u : Unpack) (items : List Item) : Prop where
  required : u.required ≤ (positionals items).length
  keys : ∀ key ∈ u.keys, key.default = none → (key.given items).isSome
  leftover : ∀ item ∈ u.leftover items, u.restOf item ≠ .none

/-- What the rests hold. -/
def Unpack.restValues (u : Unpack) (left : List Item) : List Value :=
  match u.variadic with
  | .discard => []
  | .capture => [.record left]
  | .split pos key =>
    (if pos = .capture then [.tuple (positionals left)] else []) ++
      if key = .capture then [.record (left.filter (·.1.isSome))] else []

/-- The slots hold what a call binds. -/
structure Bound (u : Unpack) (offset : Nat) (items : List Item) (slots : List Value) : Prop where
  given : ∀ j < u.total, ∀ value, (positionals items)[j]? = some value →
    slots[offset + j]? = some value
  default : ∀ j < u.total, (positionals items)[j]? = none →
    slots[offset + j]? = u.optional[j - u.required]?.map .const
  keys : ∀ i key, u.keys[i]? = some key →
    slots[offset + u.total + i]? = (key.given items).or (key.default.map .const)
  rests : ∀ i value, (u.restValues (u.leftover items))[i]? = some value →
    slots[offset + u.total + u.keys.length + i]? = some value
  init : ∀ i < u.len, ∀ value, slots[offset + i]? = some value → value.isUninit = false

/-- A call succeeds exactly if the signature accepts its arguments. Its slots then hold what it binds,
and nothing if it does not succeed. -/
structure Meets (u : Unpack) (offset : Nat) (items : List Item) (fault : Option (Fault Thrown))
    (slots : List Value) : Prop where
  succeeds : fault = none ↔ Accepts u items
  bound : fault = none → Bound u offset items slots
  reset : fault ≠ none → ∀ i < u.len, slots[offset + i]? = some .nil

/-! ### The loop over the arguments -/

/-- The arguments of a call, with what the binary search finds for each. -/
def CallArg.of (find : SymObj → Option Nat) : Item → CallArg
  | (none, value) => .pos value
  | (some sym, value) => .key sym (find sym) value

/-- What a binary search among the keys that are symbols may find. -/
structure Unpack.Finds (u : Unpack) (find : SymObj → Option Nat) : Prop where
  found : ∀ {sym i}, find sym = some i → ∃ key, u.keys[i]? = some key ∧ key.kind = .sym sym
  missing : ∀ {sym}, find sym = none → sym ∉ u.syms

/-- The argument that a key's slot takes. A key whose symbol another key has too may not be found. -/
def Key.taken (key : Key) (find : SymObj → Option Nat) (i : Nat) (items : List Item) :
    Option Value :=
  match key.kind with
  | .sym sym => if find sym = some i then named sym items else none
  | .const _ => none

/-- The items that have names. -/
def keyeds (items : List Item) : List (SymObj × Value) :=
  items.filterMap fun item => item.1.map (·, item.2)

theorem keyeds_append (items items' : List Item) :
    keyeds (items ++ items') = keyeds items ++ keyeds items' :=
  List.filterMap_append

/-- The positional and the keyed slots after some arguments. -/
structure SlotsFilled (u : Unpack) (offset n : Nat) (find : SymObj → Option Nat)
    (items : List Item) (pos : Nat) (slots : List Value) : Prop where
  length : slots.length = n
  pos : pos = min u.total (positionals items).length
  positional : ∀ j < u.total, slots[offset + j]? = some ((positionals items)[j]?.getD .uninit)
  keyed : ∀ i key, u.keys[i]? = some key →
    slots[offset + u.total + i]? = some ((key.taken find i items).getD .uninit)

/-- The lists for the rests after some leftovers. -/
structure RestsFilled (u : Unpack) (left : List Item) (st : Unpacking) : Prop where
  rest : st.rest = if u.variadic = .capture then some left else none
  posRest : st.posRest =
    if u.variadic.positional = .capture ∧ u.variadic ≠ .capture then some (positionals left) else none
  keyRest : st.keyRest =
    if u.variadic.keyed = .capture ∧ u.variadic ≠ .capture then some (keyeds left) else none

section Loop

variable {u : Unpack} {offset n : Nat} {find : SymObj → Option Nat} {items left : List Item}
variable {st : Unpacking} {pos : Nat} {slots : List Value} {sym : SymObj} {value : Value}

theorem Unpack.Finds.mem (hfind : u.Finds find) {i : Nat} (h : find sym = some i) : sym ∈ u.syms := by
  obtain ⟨key, hkey, hkind⟩ := hfind.found h
  refine List.mem_filterMap.mpr ⟨key, List.mem_of_getElem? hkey, ?_⟩
  rw [hkind]

theorem Key.taken_concat_positional (key : Key) (i : Nat) :
    key.taken find i (items ++ [(none, value)]) = key.taken find i items := by
  unfold Key.taken
  simp only [named_concat_positional]

/-- A key takes an argument only if it is found and has none. -/
theorem Key.taken_concat_keyed (hfind : u.Finds find) {key : Key} {i : Nat}
    (h : sym ∈ u.syms → find sym = some i → (named sym items).isSome) :
    key.taken find i (items ++ [(some sym, value)]) = key.taken find i items := by
  unfold Key.taken
  cases key.kind with
  | const c => rfl
  | sym sym' =>
    dsimp only
    by_cases hi : find sym' = some i
    · rw [if_pos hi, if_pos hi, named_concat_keyed]
      by_cases he : sym = sym'
      · subst he
        obtain ⟨w, hw⟩ := Option.isSome_iff_exists.mp (h (hfind.mem hi) hi)
        rw [hw]
        rfl
      · rw [if_neg he, Option.or_none]
    · rw [if_neg hi, if_neg hi]

/-- An argument that is left over fills no slot. -/
theorem SlotsFilled.skip (hfind : u.Finds find) {item : Item} (hleft : Left u.total u.syms items item)
    (h : SlotsFilled u offset n find items pos slots) :
    SlotsFilled u offset n find (items ++ [item]) pos slots := by
  obtain ⟨_ | sym, value⟩ := item
  · -- All positions are taken.
    have hlen : u.total ≤ (positionals items).length := hleft
    refine ⟨h.length, ?_, fun j hj => ?_, fun i key hkey => ?_⟩
    · rw [h.pos, positionals_concat_positional, List.length_append]
      omega
    · rw [h.positional j hj, positionals_concat_positional, List.getElem?_append_left (by omega)]
    · rw [h.keyed i key hkey, Key.taken_concat_positional]
  · refine ⟨h.length, ?_, fun j hj => ?_, fun i key hkey => ?_⟩
    · rw [h.pos, positionals_concat_keyed]
    · rw [h.positional j hj, positionals_concat_keyed]
    · rw [h.keyed i key hkey, Key.taken_concat_keyed hfind fun hmem _ => hleft hmem]

/-- The next positional slot takes a positional argument. -/
theorem SlotsFilled.positional_set (hn : offset + u.len ≤ n)
    (h : SlotsFilled u offset n find items pos slots) (hpos : pos < u.total) :
    SlotsFilled u offset n find (items ++ [(none, value)]) (pos + 1)
      (slots.set (offset + pos) value) := by
  have hlen := h.length
  have hcount : pos = (positionals items).length := by
    have := h.pos
    omega
  have htotal : offset + u.total ≤ n := by
    unfold Unpack.len Unpack.total at *
    omega
  refine ⟨by rw [List.length_set, hlen], ?_, fun j hj => ?_, fun i key hkey => ?_⟩
  · rw [positionals_concat_positional, List.length_append, List.length_singleton]
    omega
  · rw [positionals_concat_positional]
    by_cases hj' : j = pos
    · subst hj'
      rw [List.getElem?_set_self (by omega), hcount, List.getElem?_concat_length]
      rfl
    · rw [List.getElem?_set_ne (by omega), h.positional j hj]
      by_cases hlt : j < pos
      · rw [List.getElem?_append_left (by omega)]
      · rw [List.getElem?_eq_none (by omega), List.getElem?_eq_none (by simp; omega)]
  · rw [List.getElem?_set_ne (by omega), h.keyed i key hkey, Key.taken_concat_positional]

/-- A keyed slot takes the first argument of its name. -/
theorem SlotsFilled.keyed_set (hn : offset + u.len ≤ n) (hfind : u.Finds find)
    (h : SlotsFilled u offset n find items pos slots) {i : Nat} (hi : find sym = some i)
    (hnone : named sym items = none) :
    SlotsFilled u offset n find (items ++ [(some sym, value)]) pos
      (slots.set (offset + u.total + i) value) := by
  obtain ⟨key, hkey, hkind⟩ := hfind.found hi
  have hlen := h.length
  have hbound : offset + u.total + i < n := by
    have hlt := (List.getElem?_eq_some_iff.mp hkey).1
    unfold Unpack.len Unpack.total at *
    omega
  refine ⟨by rw [List.length_set, hlen], ?_, fun j hj => ?_, fun i' key' hkey' => ?_⟩
  · rw [positionals_concat_keyed, h.pos]
  · rw [List.getElem?_set_ne (by omega), positionals_concat_keyed, h.positional j hj]
  · by_cases hi' : i' = i
    · subst hi'
      obtain rfl := Option.some.inj (hkey.symm.trans hkey')
      rw [List.getElem?_set_self (by omega), Key.taken, hkind]
      dsimp only
      rw [if_pos hi, named_concat_keyed, hnone, if_pos rfl]
      rfl
    · have hne : find sym ≠ some i' := fun hi'' => hi' (Option.some.inj (hi''.symm.trans hi))
      rw [List.getElem?_set_ne (by omega), h.keyed i' key' hkey',
        Key.taken_concat_keyed hfind fun _ hi'' => absurd hi'' hne]

/-! #### Leftovers -/

theorem restsFilled_discard (hv : u.variadic = .discard) :
    RestsFilled u left st ↔ st.rest = none ∧ st.posRest = none ∧ st.keyRest = none := by
  constructor
  · rintro ⟨h, h', h''⟩
    rw [hv] at h h' h''
    exact ⟨h, h', h''⟩
  · rintro ⟨h, h', h''⟩
    constructor <;> rw [hv] <;> assumption

theorem restsFilled_capture (hv : u.variadic = .capture) :
    RestsFilled u left st ↔ st.rest = some left ∧ st.posRest = none ∧ st.keyRest = none := by
  constructor
  · rintro ⟨h, h', h''⟩
    rw [hv] at h h' h''
    exact ⟨h, h', h''⟩
  · rintro ⟨h, h', h''⟩
    constructor <;> rw [hv] <;> assumption

theorem restsFilled_split {a b : Rest} (hv : u.variadic = .split a b) :
    RestsFilled u left st ↔ st.rest = none ∧
      st.posRest = (if a = .capture then some (positionals left) else none) ∧
        st.keyRest = if b = .capture then some (keyeds left) else none := by
  have hand : ∀ p : Prop, (p ∧ Variadic.split a b ≠ .capture) = p := fun p => by simp
  constructor
  · rintro ⟨h, h', h''⟩
    simp only [hv, hand] at h h' h''
    exact ⟨h, h', h''⟩
  · rintro ⟨h, h', h''⟩
    constructor <;> simp only [hv, hand] <;> assumption

/-- A positional argument that is left over is refused if no rest takes it. -/
theorem unpackPos_refused (hpos : st.pos = u.required + u.optional.length)
    (h : u.variadic.positional = .none) :
    unpackPos u offset st value = fail (.unexpectedPositional st.pos) := by
  have hcapture : u.variadic ≠ .capture := by
    intro hv
    rw [hv] at h
    cases h
  rw [unpackPos, if_pos hpos, if_neg hcapture, h]

/-- It goes to the rest that takes it otherwise. -/
theorem unpackPos_left (value : Value) (hpos : st.pos = u.required + u.optional.length)
    (hrest : u.variadic.positional ≠ .none) (h : RestsFilled u left st) :
    ∃ st', unpackPos u offset st value = .ok st' ∧ st'.pos = st.pos ∧ st'.slots = st.slots ∧
      RestsFilled u (left ++ [(none, value)]) st' := by
  rw [unpackPos, if_pos hpos]
  cases hv : u.variadic with
  | discard =>
    rw [restsFilled_discard hv] at h
    exact ⟨st, rfl, rfl, rfl, (restsFilled_discard hv).mpr h⟩
  | capture =>
    rw [restsFilled_capture hv] at h
    rw [if_pos rfl, h.1]
    exact ⟨_, rfl, rfl, rfl, (restsFilled_capture hv).mpr ⟨rfl, h.2⟩⟩
  | split a b =>
    have hkeyeds : keyeds (left ++ [(none, value)]) = keyeds left := by
      rw [keyeds_append]
      exact List.append_nil _
    rw [restsFilled_split hv] at h
    obtain ⟨hcollect, hposRest, hkeyRest⟩ := h
    rw [if_neg (by simp)]
    rw [hv] at hrest
    cases a with
    | none => exact absurd rfl hrest
    | discard =>
      refine ⟨st, rfl, rfl, rfl, (restsFilled_split hv).mpr ⟨hcollect, hposRest, ?_⟩⟩
      rw [hkeyeds, hkeyRest]
    | capture =>
      rw [if_pos rfl] at hposRest
      rw [hposRest]
      refine ⟨_, rfl, rfl, rfl, (restsFilled_split hv).mpr ⟨hcollect, ?_, ?_⟩⟩
      · rw [if_pos rfl, positionals_concat_positional]
      · rw [hkeyeds, hkeyRest]

theorem unpackExtraKey_refused (h : u.variadic.keyed = .none) :
    unpackExtraKey u st sym value = fail (.unexpectedKey sym) := by
  have hcapture : u.variadic ≠ .capture := by
    intro hv
    rw [hv] at h
    cases h
  rw [unpackExtraKey, if_neg hcapture, h]

theorem unpackExtraKey_left (sym : SymObj) (value : Value) (hrest : u.variadic.keyed ≠ .none)
    (h : RestsFilled u left st) :
    ∃ st', unpackExtraKey u st sym value = .ok st' ∧ st'.pos = st.pos ∧ st'.slots = st.slots ∧
      RestsFilled u (left ++ [(some sym, value)]) st' := by
  rw [unpackExtraKey]
  cases hv : u.variadic with
  | discard =>
    rw [restsFilled_discard hv] at h
    exact ⟨st, rfl, rfl, rfl, (restsFilled_discard hv).mpr h⟩
  | capture =>
    rw [restsFilled_capture hv] at h
    rw [if_pos rfl, h.1]
    exact ⟨_, rfl, rfl, rfl, (restsFilled_capture hv).mpr ⟨rfl, h.2⟩⟩
  | split a b =>
    rw [restsFilled_split hv] at h
    obtain ⟨hcollect, hposRest, hkeyRest⟩ := h
    rw [if_neg (by simp)]
    rw [hv] at hrest
    cases b with
    | none => exact absurd rfl hrest
    | discard =>
      refine ⟨st, rfl, rfl, rfl, (restsFilled_split hv).mpr ⟨hcollect, ?_, hkeyRest⟩⟩
      rw [positionals_concat_keyed, hposRest]
    | capture =>
      rw [if_pos rfl] at hkeyRest
      rw [hkeyRest]
      refine ⟨_, rfl, rfl, rfl, (restsFilled_split hv).mpr ⟨hcollect, ?_, ?_⟩⟩
      · rw [positionals_concat_keyed, hposRest]
      · rw [if_pos rfl, keyeds_append]
        rfl

/-! #### The loop -/

theorem named_init (hinit : ∀ item ∈ items, item.2.isUninit = false) (h : named sym items = some value) :
    value.isUninit = false := by
  obtain ⟨item, hmem, hitem⟩ := List.exists_of_findSome?_eq_some h
  split at hitem
  · rw [← Option.some.inj hitem]
    exact hinit item hmem
  · cases hitem

theorem setSlot_of_lt {i : Nat} (h : i < slots.length) : setSlot slots i value = .ok (slots.set i value) :=
  if_pos h

theorem getSlot_of_some {i : Nat} (h : slots[i]? = some value) : getSlot slots i = .ok value := by
  rw [getSlot, h]
  rfl

/-- The state of the loop after some arguments. -/
structure Filled (u : Unpack) (offset n : Nat) (find : SymObj → Option Nat) (items : List Item)
    (st : Unpacking) : Prop where
  slots : SlotsFilled u offset n find items st.pos st.slots
  rests : RestsFilled u (u.leftover items) st

/-- An argument that is not left over gets its slot. -/
theorem unpackArg_bound (hn : offset + u.len ≤ n) (hfind : u.Finds find) {item : Item}
    (hleft : ¬Left u.total u.syms items item) (h : Filled u offset n find items st) :
    ∃ st', unpackArg u offset st (.of find item) = .ok st' ∧
      Filled u offset n find (items ++ [item]) st' := by
  obtain ⟨hslots, hrests⟩ := h
  have hconcat : u.leftover (items ++ [item]) = u.leftover items := by
    have hconcat := leftover_concat u.total u.syms items item
    rwa [if_neg hleft, List.append_nil] at hconcat
  have hlen := hslots.length
  rw [← hconcat] at hrests
  obtain ⟨_ | sym, value⟩ := item
  · have hlt : (positionals items).length < u.total := Nat.not_le.mp hleft
    have hpos : st.pos < u.total := by
      rw [hslots.pos]
      exact Nat.lt_of_le_of_lt (Nat.min_le_right ..) hlt
    have hslot : offset + st.pos < st.slots.length := by
      unfold Unpack.len Unpack.total at *
      omega
    refine ⟨{ st with slots := st.slots.set (offset + st.pos) value, pos := st.pos + 1 }, ?_,
      hslots.positional_set hn hpos, ⟨hrests.rest, hrests.posRest, hrests.keyRest⟩⟩
    show unpackPos u offset st value = _
    have hne : st.pos ≠ u.required + u.optional.length := Nat.ne_of_lt hpos
    rw [unpackPos, if_neg hne, setSlot_of_lt hslot]
    rfl
  · obtain ⟨hmem, hnone⟩ : sym ∈ u.syms ∧ named sym items = none := by
      simpa [Left] using hleft
    cases hi : find sym with
    | none => exact absurd hmem (hfind.missing hi)
    | some i =>
      obtain ⟨key, hkey, hkind⟩ := hfind.found hi
      have hslot : offset + (i + u.required + u.optional.length) = offset + u.total + i := by
        unfold Unpack.total
        omega
      have hdest : st.slots[offset + u.total + i]? = some .uninit := by
        rw [hslots.keyed i key hkey, Key.taken, hkind]
        dsimp only
        rw [if_pos hi, hnone]
        rfl
      refine ⟨{ st with slots := st.slots.set (offset + u.total + i) value }, ?_,
        hslots.keyed_set hn hfind hi hnone, ⟨hrests.rest, hrests.posRest, hrests.keyRest⟩⟩
      show unpackKeyed u offset st sym (find sym) value = _
      rw [hi, unpackKeyed, Unpack.symOffset, Option.map_some]
      dsimp only
      rw [hslot, getSlot_of_some hdest, ok_bind, Value.isUninit, if_pos rfl,
        setSlot_of_lt (List.getElem?_eq_some_iff.mp hdest).1]
      rfl

/-- An argument that is left over goes to a rest. -/
theorem unpackArg_left (hfind : u.Finds find) (hinit : ∀ item ∈ items, item.2.isUninit = false)
    {item : Item} (hleft : Left u.total u.syms items item) (h : Filled u offset n find items st) :
    if u.restOf item = .none then ∃ e, unpackArg u offset st (.of find item) = .error e
    else ∃ st', unpackArg u offset st (.of find item) = .ok st' ∧
      Filled u offset n find (items ++ [item]) st' := by
  obtain ⟨hslots, hrests⟩ := h
  have hconcat : u.leftover (items ++ [item]) = u.leftover items ++ [item] := by
    have hconcat := leftover_concat u.total u.syms items item
    rwa [if_pos hleft] at hconcat
  have hskip := hslots.skip hfind hleft
  obtain ⟨_ | sym, value⟩ := item
  · have hpos : st.pos = u.total := by
      rw [hslots.pos]
      exact Nat.min_eq_left hleft
    by_cases hrest : u.variadic.positional = .none
    · exact (if_pos hrest).mpr ⟨_, unpackPos_refused hpos hrest⟩
    · obtain ⟨st', hst', hpos', hslots', hrests'⟩ := unpackPos_left value hpos hrest hrests
      refine (if_neg hrest).mpr ⟨st', hst', ?_, ?_⟩
      · rwa [hpos', hslots']
      · rwa [hconcat]
  · have hextra : unpackArg u offset st (.of find (some sym, value)) = unpackExtraKey u st sym value ∨
        (u.variadic.keyed = .none ∧
          unpackArg u offset st (.of find (some sym, value)) = fail (.duplicateKey sym)) := by
      show unpackKeyed u offset st sym (find sym) value = _ ∨
        (_ ∧ unpackKeyed u offset st sym (find sym) value = _)
      cases hi : find sym with
      | none => exact .inl rfl
      | some i =>
        obtain ⟨key, hkey, hkind⟩ := hfind.found hi
        obtain ⟨w, hw⟩ := Option.isSome_iff_exists.mp (hleft (hfind.mem hi))
        have hslot : offset + (i + u.required + u.optional.length) = offset + u.total + i := by
          unfold Unpack.total
          omega
        have hdest : st.slots[offset + u.total + i]? = some w := by
          rw [hslots.keyed i key hkey, Key.taken, hkind]
          dsimp only
          rw [if_pos hi, hw]
          rfl
        rw [unpackKeyed, Unpack.symOffset, Option.map_some]
        dsimp only
        rw [hslot, getSlot_of_some hdest, ok_bind, named_init hinit hw, if_neg (by simp)]
        by_cases hrest : u.variadic.keyed = .none
        · exact .inr ⟨hrest, if_pos hrest⟩
        · exact .inl (if_neg hrest)
    by_cases hrest : u.variadic.keyed = .none
    · refine (if_pos hrest).mpr ?_
      obtain hextra | ⟨-, hextra⟩ := hextra
      · exact ⟨_, hextra.trans (unpackExtraKey_refused hrest)⟩
      · exact ⟨_, hextra⟩
    · obtain ⟨st', hst', hpos', hslots', hrests'⟩ :=
        unpackExtraKey_left sym value hrest hrests
      refine (if_neg hrest).mpr ⟨st', ?_, ?_, ?_⟩
      · obtain hextra | ⟨hnone, -⟩ := hextra
        · exact hextra.trans hst'
        · exact absurd hnone hrest
      · rwa [hpos', hslots']
      · rwa [hconcat]

/-- The loop ends in a state that has all arguments, or fails because of a leftover that no rest
takes. -/
theorem unpackArgs_spec (hn : offset + u.len ≤ n) (hfind : u.Finds find)
    (hinit : ∀ item ∈ items, item.2.isUninit = false) (h : Filled u offset n find [] st) :
    (∃ st', (items.map (.of find)).foldlM (unpackArg u offset) st = .ok st' ∧
      Filled u offset n find items st' ∧ ∀ item ∈ u.leftover items, u.restOf item ≠ .none) ∨
    (∃ e, (items.map (.of find)).foldlM (unpackArg u offset) st = .error e) ∧
      ∃ item ∈ u.leftover items, u.restOf item = .none := by
  induction items using List.reverseRecOn with
  | nil => exact .inl ⟨st, rfl, h, nofun⟩
  | append_singleton items item ih =>
    have hinit' : ∀ item ∈ items, item.2.isUninit = false :=
      fun item hmem => hinit item (List.mem_append_left _ hmem)
    have hconcat : u.leftover (items ++ [item]) = _ := leftover_concat ..
    rw [List.map_append, List.foldlM_append, hconcat]
    obtain ⟨st', hst', hfilled, haccepts⟩ | ⟨⟨e, he⟩, bad, hbad, hrest⟩ := ih hinit'
    · rw [hst', ok_bind, List.map_singleton, List.foldlM_cons]
      by_cases hleft : Left u.total u.syms items item
      · rw [if_pos hleft]
        have hstep := unpackArg_left hfind hinit' hleft hfilled
        by_cases hrest : u.restOf item = .none
        · obtain ⟨e, he⟩ := (if_pos hrest).mp hstep
          refine .inr ⟨⟨e, ?_⟩, item, List.mem_concat_self, hrest⟩
          rw [he]
          rfl
        · obtain ⟨st'', hst'', hfilled''⟩ := (if_neg hrest).mp hstep
          refine .inl ⟨st'', ?_, hfilled'', fun item' hmem => ?_⟩
          · rw [hst'']
            rfl
          · obtain hmem | hmem := List.mem_append.mp hmem
            · exact haccepts item' hmem
            · rwa [List.mem_singleton.mp hmem]
      · obtain ⟨st'', hst'', hfilled''⟩ := unpackArg_bound hn hfind hleft hfilled
        rw [if_neg hleft, List.append_nil]
        refine .inl ⟨st'', ?_, hfilled'', haccepts⟩
        rw [hst'']
        rfl
    · refine .inr ⟨⟨e, ?_⟩, bad, List.mem_append_left _ hbad, hrest⟩
      rw [he]
      rfl

end Loop

end Dolang.Runtime
