import Dolang.Lib.System
import Dolang.Runtime.Args

/-!
# Unpacking the arguments of a native call

`Args::unpack` of `dolang-runtime/src/arg.rs`. Parameters take the first positional arguments and the
first argument of each name, and an unpack with a rest returns what it leaves over.

The rest starts at the first position from the headroom on that the mask has not. That position may
be in front of the index, where `next` has consumed arguments without telling the mask, and behind
arguments that were prepended in the headroom. `Unpackable` says when it is the right one, and
`unpack_loses_nothing` that nothing is lost and nothing given twice in a run whose unpacks are so.
-/

namespace Dolang.Runtime

open Dolang.Rust

/-! ### Parameters -/

/-- The parameters of `Args::unpack`. -/
structure Params where
  /-- The number of required positional parameters, `N`. -/
  n : Nat
  /-- The number of optional positional parameters, `NO`. -/
  no : Nat
  kparam : List SymObj
  koparam : List SymObj
  /-- The rest takes positional arguments, `POS`. -/
  pos : Bool
  /-- The rest takes keyed arguments, `KEY`. -/
  key : Bool

namespace Params

variable (p : Params)

/-- The number of positional parameters. -/
def count : Nat := p.n + p.no

/-- The names of the keyed parameters. -/
def names : List SymObj := p.kparam ++ p.koparam

/-- There is a rest. -/
def var : Bool := p.pos || p.key

/-- What the parameters leave over. -/
def leftover (items : List Item) : List Item :=
  Runtime.leftover p.count p.names items

/-- The rest takes a leftover. -/
def takes (item : Item) : Bool :=
  if item.1.isNone then p.pos else p.key

/-- The argument of a name, for the first parameter that has it. -/
def keyed (items : List Item) (i : Nat) (sym : SymObj) : Option Value :=
  if p.names.idxOf sym = i then named sym items else none

/-- The argument of a required parameter. -/
def requiredAt (items : List Item) (i : Nat) : Option Value :=
  if i < p.n then (positionals items)[i]?
  else p.kparam[i - p.n]?.bind fun sym => p.keyed items (i - p.n) sym

/-- The argument of an optional parameter. -/
def optionalAt (items : List Item) (i : Nat) : Option Value :=
  if i < p.no then (positionals items)[p.n + i]?
  else p.koparam[i - p.no]?.bind fun sym => p.keyed items (p.kparam.length + (i - p.no)) sym

/-- The arguments of the required parameters. -/
def required (items : List Item) : List (Option Value) :=
  (List.range (p.n + p.kparam.length)).map (p.requiredAt items)

/-- The arguments of the optional parameters. -/
def optional (items : List Item) : List (Option Value) :=
  (List.range (p.no + p.koparam.length)).map (p.optionalAt items)

/-- What the parameters ask of arguments: all that are required, and none that they do not take. -/
structure Accept (items : List Item) : Prop where
  required : ∀ value ∈ p.required items, value.isSome
  leftover : ∀ item ∈ p.leftover items, p.takes item

end Params

/-! ### The operation -/

/-- What the loop of `unpack` has bound. A required parameter is seen when it has an argument. -/
structure Unbound where
  i : Nat
  required : List (Option Value)
  optional : List (Option Value)
  restStart : Nat

/-- The search for the parameter of a key, which says whether it found one. -/
def unpackKeyParam (p : Params) (st : Unbound) (sym : SymObj) (value : Value) :
    Exec Thrown (Bool × Unbound) :=
  if sym ∈ p.kparam then
    let i := p.kparam.idxOf sym
    if (st.required.getD (i + p.n) none).isSome then
      if p.key then .ok (false, st) else fail (.duplicateKey sym)
    else .ok (true, { st with required := st.required.set (i + p.n) (some value) })
  else if sym ∈ p.koparam then
    let i := p.koparam.idxOf sym
    if (st.optional.getD (i + p.no) none).isSome then
      if p.key then .ok (false, st) else fail (.duplicateKey sym)
    else .ok (true, { st with optional := st.optional.set (i + p.no) (some value) })
  else .ok (false, st)

/-- The body of the loop, for the argument at `index`. It says whether a parameter takes it. -/
def unpackParam (p : Params) (index : Nat) (st : Unbound) :
    Item → Exec Thrown (Bool × Unbound)
  | (none, value) =>
    if st.i < p.n then
      .ok (true, { st with
        required := st.required.set st.i (some value), restStart := index + 1, i := st.i + 1 })
    else if st.i < p.n + p.no then
      .ok (true, { st with
        optional := st.optional.set (st.i - p.n) (some value), restStart := index + 1, i := st.i + 1 })
    else if p.pos then .ok (false, { st with i := st.i + 1 })
    else fail (.unexpectedPositional st.i)
  | (some sym, value) => do
    let (found, st) ← unpackKeyParam p st sym value
    if !p.key && !found then fail (.unexpectedKey sym) else return (found, st)

namespace Args

/-- Masks the argument at the index, if it is bound. -/
def mark (a : Args) (bound : Bool) : Args :=
  if bound then { a with mask := a.mask.set a.index true } else a

/-- Moves on to the next argument. -/
def advance (a : Args) : Args :=
  if a.mask = [] then { a with index := a.index + 1 }
  else
    let next := (a.mask.drop (a.index + 1)).findIdx? (!·)
    { a with index := (next.map (· + a.index + 1)).getD a.content.len }

@[simp]
theorem content_mark (a : Args) (bound : Bool) : (a.mark bound).content = a.content := by
  cases bound <;> rfl

@[simp]
theorem index_mark (a : Args) (bound : Bool) : (a.mark bound).index = a.index := by
  cases bound <;> rfl

@[simp]
theorem content_advance (a : Args) : a.advance.content = a.content := by
  rw [advance]
  split <;> rfl

theorem lt_advance {a : Args} (h : a.index < a.content.len) : a.index < a.advance.index := by
  rw [advance]
  split
  · exact Nat.lt_succ_self _
  · dsimp only
    cases (a.mask.drop (a.index + 1)).findIdx? (!·) with
    | none => exact h
    | some i => exact Nat.lt_succ_of_le (Nat.le_add_left ..)

/-- The loop of `unpack`. It ends at the length, which the index does not pass. -/
def unpackLoop (p : Params) (masked : Bool) (a : Args) (st : Unbound) : Exec Thrown (Args × Unbound) :=
  if _h : a.index < a.content.len then do
    let item ← unwrap (a.content.get a.index a.headroom)
    let r ← unpackParam p a.index st item
    unpackLoop p masked (a.mark (masked && r.1)).advance r.2
  else .ok (a, st)
termination_by a.content.len - a.index
decreasing_by
  have hlt := lt_advance (a := a.mark (masked && r.1)) (by rw [index_mark, content_mark]; exact _h)
  rw [index_mark] at hlt
  rw [content_advance, content_mark]
  omega

/-- The rest starts at the first position from the headroom on that is not masked. -/
def restart (a : Args) : Args :=
  let first := (a.mask.drop a.headroom).findIdx? (!·)
  { a with index := (first.map (· + a.headroom)).getD a.content.len }

/-- Makes the mask, if there is none. -/
def allocate (a : Args) : Args :=
  if a.mask = [] then
    { a with mask := List.replicate a.index true ++ List.replicate (a.content.len - a.index) false }
  else a

/-- The unpack masks what it binds. -/
def masks (a : Args) (p : Params) : Bool :=
  p.var && (p.key || 0 < p.kparam.length + p.koparam.length || !a.mask.isEmpty)

/-- The error for a required parameter without an argument. -/
def missing {α : Type} (p : Params) (i : Nat) : Exec Thrown α :=
  if i < p.n then fail (.missingPositional i)
  else do
    let sym ← unwrap p.kparam[i - p.n]?
    fail (.missingKey sym)

/-- `Args::unpack`. -/
def unpack (a : Args) (p : Params) :
    Exec Thrown (List Value × List (Option Value) × Option Args) := do
  let masked := a.masks p
  let (a', st) ← unpackLoop p masked (if masked then a.allocate else a) {
    i := 0
    required := List.replicate (p.n + p.kparam.length) none
    optional := List.replicate (p.no + p.koparam.length) none
    restStart := a.index }
  match st.required.findIdx? (·.isNone) with
  | some i => missing p i
  | none =>
    let rest :=
      if masked then some a'.restart
      else if p.var then some { a' with index := st.restStart }
      else none
    return (st.required.reduceOption, st.optional, rest)

end Args

/-! ### What the parameters take -/

theorem getElem?_map_range {α : Type} (f : Nat → α) (m i : Nat) :
    ((List.range m).map f)[i]? = if i < m then some (f i) else none := by
  rw [List.getElem?_map]
  by_cases h : i < m
  · rw [if_pos h, List.getElem?_range h, Option.map_some]
  · rw [if_neg h, List.getElem?_eq_none (by rw [List.length_range]; omega), Option.map_none]

theorem set_map_range {α : Type} {f g : Nat → α} {m j : Nat} {a : α} (hj : g j = a)
    (h : ∀ i, i ≠ j → g i = f i) : ((List.range m).map f).set j a = (List.range m).map g := by
  refine List.ext_getElem? fun i => ?_
  rw [List.getElem?_set, getElem?_map_range, getElem?_map_range, List.length_map, List.length_range]
  by_cases hi : j = i
  · subst hi
    rw [if_pos rfl, hj]
  · rw [if_neg hi, h i (Ne.symm hi)]

namespace Params

variable {p : Params} {before : List Item} {sym : SymObj} {value : Value} {i : Nat}

theorem idxOf_of_mem (h : sym ∈ p.kparam) : p.names.idxOf sym = p.kparam.idxOf sym :=
  List.idxOf_append_of_mem h

theorem idxOf_of_not_mem (h : sym ∉ p.kparam) :
    p.names.idxOf sym = p.kparam.length + p.koparam.idxOf sym :=
  List.idxOf_append_of_notMem h

theorem keyed_concat_positional :
    p.keyed (before ++ [(none, value)]) i sym = p.keyed before i sym := by
  rw [keyed, keyed, named_concat_positional]

/-- A name's parameter keeps its argument, and a name has no other parameter. -/
theorem keyed_concat_same {sym' : SymObj}
    (h : sym = sym' → p.names.idxOf sym = i → (named sym before).isSome) :
    p.keyed (before ++ [(some sym', value)]) i sym = p.keyed before i sym := by
  rw [keyed, keyed]
  by_cases hi : p.names.idxOf sym = i
  · rw [if_pos hi, if_pos hi, named_concat_keyed]
    by_cases he : sym' = sym
    · obtain ⟨w, hw⟩ := Option.isSome_iff_exists.mp (h he.symm hi)
      rw [hw]
      rfl
    · rw [if_neg he, Option.or_none]
  · rw [if_neg hi, if_neg hi]

theorem requiredAt_concat_positional :
    p.requiredAt (before ++ [(none, value)]) i =
      if i < p.n ∧ i = (positionals before).length then some value else p.requiredAt before i := by
  unfold requiredAt
  by_cases hn : i < p.n
  · rw [if_pos hn, if_pos hn, positionals_concat_positional]
    by_cases hi : i = (positionals before).length
    · rw [if_pos ⟨hn, hi⟩, hi, List.getElem?_concat_length]
    · rw [if_neg (fun h => hi h.2)]
      by_cases hlt : i < (positionals before).length
      · rw [List.getElem?_append_left hlt]
      · rw [List.getElem?_eq_none (by rw [List.length_append, List.length_singleton]; omega),
          List.getElem?_eq_none (by omega)]
  · rw [if_neg hn, if_neg hn, if_neg (fun h => hn h.1)]
    simp only [keyed_concat_positional]

theorem optionalAt_concat_positional :
    p.optionalAt (before ++ [(none, value)]) i =
      if i < p.no ∧ p.n + i = (positionals before).length then some value
      else p.optionalAt before i := by
  unfold optionalAt
  by_cases hn : i < p.no
  · rw [if_pos hn, if_pos hn, positionals_concat_positional]
    by_cases hi : p.n + i = (positionals before).length
    · rw [if_pos ⟨hn, hi⟩, hi, List.getElem?_concat_length]
    · rw [if_neg (fun h => hi h.2)]
      by_cases hlt : p.n + i < (positionals before).length
      · rw [List.getElem?_append_left hlt]
      · rw [List.getElem?_eq_none (by rw [List.length_append, List.length_singleton]; omega),
          List.getElem?_eq_none (by omega)]
  · rw [if_neg hn, if_neg hn, if_neg (fun h => hn h.1)]
    simp only [keyed_concat_positional]

theorem requiredAt_concat_keyed :
    p.requiredAt (before ++ [(some sym, value)]) i =
      if sym ∈ p.kparam ∧ i = p.kparam.idxOf sym + p.n ∧ named sym before = none then some value
      else p.requiredAt before i := by
  unfold requiredAt
  by_cases hn : i < p.n
  · rw [if_pos hn, if_pos hn, positionals_concat_keyed, if_neg (by omega)]
  · rw [if_neg hn, if_neg hn]
    by_cases hnew : sym ∈ p.kparam ∧ i = p.kparam.idxOf sym + p.n ∧ named sym before = none
    · obtain ⟨hmem, rfl, hnone⟩ := hnew
      have hlt := List.idxOf_lt_length_of_mem hmem
      have hat : p.kparam[p.kparam.idxOf sym]? = some sym := by
        rw [List.getElem?_eq_getElem hlt, List.getElem_idxOf]
      rw [if_pos ⟨hmem, rfl, hnone⟩, Nat.add_sub_cancel, hat, Option.bind_some, keyed,
        if_pos (idxOf_of_mem hmem), named_concat_keyed, hnone, if_pos rfl]
      rfl
    · rw [if_neg hnew]
      cases hat : p.kparam[i - p.n]? with
      | none => rfl
      | some sym' =>
        have hmem := List.mem_of_getElem? hat
        refine keyed_concat_same ?_
        rintro rfl hi
        rw [idxOf_of_mem hmem] at hi
        rw [← Option.ne_none_iff_isSome]
        exact fun hnone => hnew ⟨hmem, by omega, hnone⟩

theorem optionalAt_concat_keyed :
    p.optionalAt (before ++ [(some sym, value)]) i =
      if sym ∉ p.kparam ∧ sym ∈ p.koparam ∧ i = p.koparam.idxOf sym + p.no ∧ named sym before = none
      then some value else p.optionalAt before i := by
  unfold optionalAt
  by_cases hn : i < p.no
  · rw [if_pos hn, if_pos hn, positionals_concat_keyed, if_neg (by omega)]
  · rw [if_neg hn, if_neg hn]
    by_cases hnew : sym ∉ p.kparam ∧ sym ∈ p.koparam ∧ i = p.koparam.idxOf sym + p.no ∧
        named sym before = none
    · obtain ⟨hnot, hmem, rfl, hnone⟩ := hnew
      have hlt := List.idxOf_lt_length_of_mem hmem
      have hat : p.koparam[p.koparam.idxOf sym]? = some sym := by
        rw [List.getElem?_eq_getElem hlt, List.getElem_idxOf]
      rw [if_pos ⟨hnot, hmem, rfl, hnone⟩, Nat.add_sub_cancel, hat, Option.bind_some, keyed,
        if_pos (idxOf_of_not_mem hnot), named_concat_keyed, hnone, if_pos rfl]
      rfl
    · rw [if_neg hnew]
      cases hat : p.koparam[i - p.no]? with
      | none => rfl
      | some sym' =>
        have hmem := List.mem_of_getElem? hat
        refine keyed_concat_same ?_
        rintro rfl hi
        have hnot : sym' ∉ p.kparam := by
          intro hk
          have hlt := List.idxOf_lt_length_of_mem hk
          rw [idxOf_of_mem hk] at hi
          omega
        rw [idxOf_of_not_mem hnot] at hi
        rw [← Option.ne_none_iff_isSome]
        exact fun hnone => hnew ⟨hnot, hmem, by omega, hnone⟩

/-- The slot of a required key. -/
theorem required_getD (items : List Item) (h : sym ∈ p.kparam) :
    (p.required items).getD (p.kparam.idxOf sym + p.n) none = named sym items := by
  have hlt := List.idxOf_lt_length_of_mem h
  rw [List.getD_eq_getElem?_getD, required, getElem?_map_range, if_pos (by omega), Option.getD_some,
    requiredAt, if_neg (by omega), Nat.add_sub_cancel, List.getElem?_eq_getElem hlt,
    List.getElem_idxOf, Option.bind_some, keyed, if_pos (idxOf_of_mem h)]

/-- The slot of an optional key. -/
theorem optional_getD (items : List Item) (h : sym ∉ p.kparam) (h' : sym ∈ p.koparam) :
    (p.optional items).getD (p.koparam.idxOf sym + p.no) none = named sym items := by
  have hlt := List.idxOf_lt_length_of_mem h'
  rw [List.getD_eq_getElem?_getD, optional, getElem?_map_range, if_pos (by omega), Option.getD_some,
    optionalAt, if_neg (by omega), Nat.add_sub_cancel, List.getElem?_eq_getElem hlt,
    List.getElem_idxOf, Option.bind_some, keyed, if_pos (idxOf_of_not_mem h)]

end Params

/-! ### The loop -/

/-- What the loop has bound after some arguments. -/
structure Taken (p : Params) (before : List Item) (st : Unbound) : Prop where
  i : st.i = (positionals before).length
  required : st.required = p.required before
  optional : st.optional = p.optional before

section Loop

variable {p : Params} {before : List Item} {sym : SymObj} {value : Value} {st : Unbound}

/-- A key that is left over is a further one of its name, or one that no parameter has. -/
theorem unpackKeyParam_left (h : Taken p before st)
    (hleft : Left p.count p.names before (some sym, value)) :
    unpackKeyParam p st sym value = .ok (false, st) ∨
      (p.key = false ∧ unpackKeyParam p st sym value = fail (.duplicateKey sym)) := by
  rw [unpackKeyParam]
  dsimp only
  by_cases hk : sym ∈ p.kparam
  · have hsome := hleft (List.mem_append_left _ hk)
    rw [if_pos hk, h.required, p.required_getD before hk, if_pos hsome]
    cases hkey : p.key with
    | false => exact .inr ⟨rfl, rfl⟩
    | true => exact .inl rfl
  · rw [if_neg hk]
    by_cases hk' : sym ∈ p.koparam
    · have hsome := hleft (List.mem_append_right _ hk')
      rw [if_pos hk', h.optional, p.optional_getD before hk hk', if_pos hsome]
      cases hkey : p.key with
      | false => exact .inr ⟨rfl, rfl⟩
      | true => exact .inl rfl
    · rw [if_neg hk']
      exact .inl rfl

theorem unpackKeyParam_bound (h : Taken p before st)
    (hleft : ¬Left p.count p.names before (some sym, value)) :
    ∃ st', unpackKeyParam p st sym value = .ok (true, st') ∧
      Taken p (before ++ [(some sym, value)]) st' ∧ st'.restStart = st.restStart := by
  obtain ⟨hmem, hnone⟩ : sym ∈ p.names ∧ named sym before = none := by
    simpa [Left] using hleft
  obtain ⟨hi, hrequired, hoptional⟩ := h
  have hpos := hi.trans (congrArg List.length (positionals_concat_keyed sym value before).symm)
  rw [unpackKeyParam]
  dsimp only
  by_cases hk : sym ∈ p.kparam
  · have hset : (p.required before).set (p.kparam.idxOf sym + p.n) (some value) =
        p.required (before ++ [(some sym, value)]) := by
      refine set_map_range ?_ fun i hne => ?_
      · rw [p.requiredAt_concat_keyed, if_pos ⟨hk, rfl, hnone⟩]
      · rw [p.requiredAt_concat_keyed, if_neg fun h => hne h.2.1]
    have hsame : p.optional before = p.optional (before ++ [(some sym, value)]) :=
      List.map_congr_left fun i _ => by rw [p.optionalAt_concat_keyed, if_neg fun h => h.1 hk]
    rw [if_pos hk, hrequired, p.required_getD before hk, hnone, hset]
    exact ⟨_, rfl, ⟨hpos, rfl, hoptional.trans hsame⟩, rfl⟩
  · have hk' : sym ∈ p.koparam := (List.mem_append.mp hmem).resolve_left hk
    have hset : (p.optional before).set (p.koparam.idxOf sym + p.no) (some value) =
        p.optional (before ++ [(some sym, value)]) := by
      refine set_map_range ?_ fun i hne => ?_
      · rw [p.optionalAt_concat_keyed, if_pos ⟨hk, hk', rfl, hnone⟩]
      · rw [p.optionalAt_concat_keyed, if_neg fun h => hne h.2.2.1]
    have hsame : p.required before = p.required (before ++ [(some sym, value)]) :=
      List.map_congr_left fun i _ => by rw [p.requiredAt_concat_keyed, if_neg fun h => hk h.1]
    rw [if_neg hk, if_pos hk', hoptional, p.optional_getD before hk hk', hnone, hset]
    exact ⟨_, rfl, ⟨hpos, hrequired.trans hsame, rfl⟩, rfl⟩

/-- A parameter takes an argument that is not left over. -/
theorem unpackParam_bound (index : Nat) (h : Taken p before st) {item : Item}
    (hleft : ¬Left p.count p.names before item) :
    ∃ st', unpackParam p index st item = .ok (true, st') ∧ Taken p (before ++ [item]) st' ∧
      (item.1 = none → st'.restStart = index + 1) := by
  obtain ⟨_ | sym, value⟩ := item
  · obtain ⟨hi, hrequired, hoptional⟩ := h
    have hlt : (positionals before).length < p.n + p.no := Nat.not_le.mp hleft
    have hpos : st.i + 1 = (positionals (before ++ [(none, value)])).length := by
      rw [positionals_concat_positional, List.length_append, hi]
      rfl
    rw [unpackParam]
    by_cases hn : st.i < p.n
    · have hset : (p.required before).set st.i (some value) =
          p.required (before ++ [(none, value)]) := by
        refine set_map_range ?_ fun i hne => ?_
        · rw [p.requiredAt_concat_positional, if_pos ⟨hn, hi⟩]
        · rw [p.requiredAt_concat_positional, if_neg fun h => hne (h.2.trans hi.symm)]
      have hsame : p.optional before = p.optional (before ++ [(none, value)]) :=
        List.map_congr_left fun i _ => by rw [p.optionalAt_concat_positional, if_neg (by omega)]
      rw [if_pos hn, hrequired, hset]
      exact ⟨_, rfl, ⟨hpos, rfl, hoptional.trans hsame⟩, fun _ => rfl⟩
    · have hset : (p.optional before).set (st.i - p.n) (some value) =
          p.optional (before ++ [(none, value)]) := by
        refine set_map_range ?_ fun i hne => ?_
        · rw [p.optionalAt_concat_positional, if_pos (by omega)]
        · rw [p.optionalAt_concat_positional, if_neg (by omega)]
      have hsame : p.required before = p.required (before ++ [(none, value)]) :=
        List.map_congr_left fun i _ => by rw [p.requiredAt_concat_positional, if_neg (by omega)]
      rw [if_neg hn, if_pos (by omega), hoptional, hset]
      exact ⟨_, rfl, ⟨hpos, hrequired.trans hsame, rfl⟩, fun _ => rfl⟩
  · obtain ⟨st', hst', htaken, -⟩ := unpackKeyParam_bound h hleft
    rw [unpackParam, hst', ok_bind]
    refine ⟨st', ?_, htaken, nofun⟩
    dsimp only
    rw [Bool.not_true, Bool.and_false, if_neg Bool.false_ne_true]
    rfl

/-- The rest takes what is left over, or the unpack fails. -/
theorem unpackParam_left (index : Nat) (h : Taken p before st) {item : Item}
    (hleft : Left p.count p.names before item) :
    if p.takes item then
      ∃ st', unpackParam p index st item = .ok (false, st') ∧ Taken p (before ++ [item]) st' ∧
        st'.restStart = st.restStart
    else ∃ e, unpackParam p index st item = .error e := by
  obtain ⟨_ | sym, value⟩ := item
  · obtain ⟨hi, hrequired, hoptional⟩ := h
    have hle : p.n + p.no ≤ (positionals before).length := hleft
    have hpos : st.i + 1 = (positionals (before ++ [(none, value)])).length := by
      rw [positionals_concat_positional, List.length_append, hi]
      rfl
    have hsame : p.required before = p.required (before ++ [(none, value)]) :=
      List.map_congr_left fun i _ => by rw [p.requiredAt_concat_positional, if_neg (by omega)]
    have hsame' : p.optional before = p.optional (before ++ [(none, value)]) :=
      List.map_congr_left fun i _ => by rw [p.optionalAt_concat_positional, if_neg (by omega)]
    have hstep : unpackParam p index st (none, value) =
        if p.pos then .ok (false, { st with i := st.i + 1 }) else fail (.unexpectedPositional st.i) := by
      rw [unpackParam, if_neg (by omega), if_neg (by omega)]
    have htakes : p.takes (none, value) = p.pos := rfl
    rw [hstep, htakes]
    cases p.pos with
    | true => exact ⟨_, rfl, ⟨hpos, hrequired.trans hsame, hoptional.trans hsame'⟩, rfl⟩
    | false => exact ⟨_, rfl⟩
  · have hpos := h.i.trans (congrArg List.length (positionals_concat_keyed sym value before).symm)
    have hsome : sym ∈ p.names → named sym before = none → False := by
      intro hmem hnone
      have hsome := hleft hmem
      rw [hnone] at hsome
      cases hsome
    have hsame : p.required before = p.required (before ++ [(some sym, value)]) := by
      refine List.map_congr_left fun i _ => ?_
      rw [p.requiredAt_concat_keyed, if_neg]
      exact fun h => hsome (List.mem_append_left _ h.1) h.2.2
    have hsame' : p.optional before = p.optional (before ++ [(some sym, value)]) := by
      refine List.map_congr_left fun i _ => ?_
      rw [p.optionalAt_concat_keyed, if_neg]
      exact fun h => hsome (List.mem_append_right _ h.2.1) h.2.2.2
    have htakes : p.takes (some sym, value) = p.key := rfl
    rw [unpackParam, htakes]
    obtain hst' | ⟨hkey, hfail⟩ := unpackKeyParam_left h hleft
    · rw [hst', ok_bind]
      dsimp only
      cases p.key with
      | true => exact ⟨st, rfl, ⟨hpos, h.required.trans hsame, h.optional.trans hsame'⟩, rfl⟩
      | false => exact ⟨_, rfl⟩
    · rw [hfail, hkey]
      exact ⟨_, rfl⟩

end Loop

/-! ### Leftovers -/

section Leftovers

variable {count : Nat} {syms : List SymObj} {items : List Item}

/-- What is left over of positional arguments. -/
theorem leftover_positional (h : ∀ item ∈ items, item.1 = none) :
    leftover count syms items = items.drop count := by
  induction items generalizing count with
  | nil => rw [List.drop_nil, leftover]
  | cons item items ih =>
    have ih : ∀ c, leftover c syms items = items.drop c :=
      fun c => ih fun item' hmem => h item' (List.mem_cons_of_mem _ hmem)
    obtain ⟨key, value⟩ := item
    obtain rfl : key = none := h _ List.mem_cons_self
    cases count with
    | zero => rw [leftover, ih 0, List.drop_zero, List.drop_zero]
    | succ count => rw [leftover, ih count, List.drop_succ_cons]

theorem leftover_subset_append (count : Nat) (syms : List SymObj) (items items' : List Item) :
    ∀ item ∈ leftover count syms items, item ∈ leftover count syms (items ++ items') := by
  induction items' using List.reverseRecOn with
  | nil =>
    rw [List.append_nil]
    exact fun _ h => h
  | append_singleton items' last ih =>
    rw [← List.append_assoc, leftover_concat]
    exact fun item h => List.mem_append_left _ (ih item h)

theorem positionals_length_of_positional (h : ∀ item ∈ items, item.1 = none) :
    (positionals items).length = items.length := by
  induction items with
  | nil => rfl
  | cons item items ih =>
    obtain ⟨key, value⟩ := item
    obtain rfl : key = none := h _ List.mem_cons_self
    show (value :: positionals items).length = _
    rw [List.length_cons, ih fun item' hmem => h item' (List.mem_cons_of_mem _ hmem)]
    rfl

end Leftovers

namespace Args

section Positions

variable {a : Args} {lo hi : Nat}

/-- The first position from `k` on that the mask does not have. -/
theorem first_free (mask : List Bool) {k : Nat} (hk : k ≤ mask.length) :
    ∃ r, (((mask.drop k).findIdx? (!·)).map (· + k)).getD mask.length = r ∧ k ≤ r ∧
      r ≤ mask.length ∧ (∀ j, k ≤ j → j < r → mask.getD j false = true) ∧
      (r < mask.length → mask.getD r false = false) := by
  refine ⟨_, rfl, ?_⟩
  have hget : ∀ i, (mask.drop k)[i]? = mask[k + i]? := fun i => List.getElem?_drop
  cases hfind : (mask.drop k).findIdx? (!·) with
  | none =>
    have hall := List.findIdx?_eq_none_iff.mp hfind
    refine ⟨hk, Nat.le_refl _, fun j hj hlt => ?_, fun h => absurd h (Nat.lt_irrefl _)⟩
    have hlt : j < mask.length := hlt
    have hmem : mask[j] ∈ mask.drop k := by
      refine List.mem_of_getElem? (i := j - k) ?_
      rw [hget, Nat.add_sub_cancel' hj, List.getElem?_eq_getElem hlt]
    have htrue := hall _ hmem
    rw [List.getD_eq_getElem?_getD, List.getElem?_eq_getElem hlt, Option.getD_some]
    simpa using htrue
  | some i =>
    obtain ⟨hi, hfalse, hbefore⟩ := List.findIdx?_eq_some_iff_getElem.mp hfind
    rw [List.length_drop] at hi
    rw [Option.map_some, Option.getD_some]
    refine ⟨Nat.le_add_left .., by omega, fun j hj hlt => ?_, fun hr => ?_⟩
    · have htrue := hbefore (j - k) (by omega)
      rw [List.getElem_drop] at htrue
      rw [List.getD_eq_getElem?_getD, List.getElem?_eq_getElem (by omega), Option.getD_some]
      simpa [Nat.add_sub_cancel' hj] using htrue
    · rw [List.getElem_drop] at hfalse
      rw [List.getD_eq_getElem?_getD, List.getElem?_eq_getElem hr, Option.getD_some]
      simpa [Nat.add_comm] using hfalse

/-- Without a mask every position holds an argument. -/
theorem items_length (h : a.Valid) (hmask : a.mask = []) (hhi : hi ≤ a.content.len) :
    (a.items lo hi).length = hi - lo := by
  obtain hle | hlt := Nat.le_total hi lo
  · rw [items_of_le hle, Nat.sub_eq_zero_of_le hle]
    rfl
  · obtain ⟨n, rfl⟩ := Nat.exists_eq_add_of_le hlt
    induction n generalizing lo with
    | zero => rw [Nat.add_zero, items_of_le (Nat.le_refl _), Nat.sub_self, List.length_nil]
    | succ n ih =>
      obtain ⟨item, hitem⟩ := h.content.get_lt (by omega : lo < a.content.len)
      have hmasked : a.masked lo = false := by
        rw [masked, hmask]
        rfl
      have hnext : lo + (n + 1) = lo + 1 + n := by omega
      rw [items_cons a (by omega), hmasked, hitem, hnext, List.length_append, ih (by omega) (by omega)]
      rw [if_neg Bool.false_ne_true, Option.toList_some, List.length_singleton]
      omega

theorem items_drop (h : a.Valid) (hmask : a.mask = []) {k : Nat} (hk : lo + k ≤ hi)
    (hhi : hi ≤ a.content.len) : a.items (lo + k) hi = (a.items lo hi).drop k := by
  have hlen : (a.items lo (lo + k)).length = lo + k - lo :=
    items_length h hmask (Nat.le_trans hk hhi)
  rw [Nat.add_sub_cancel_left] at hlen
  rw [← items_append a (Nat.le_add_right lo k) hk, List.drop_left' hlen]

end Positions

/-! ### The rest -/

/-- What an unpack needs to give the right rest. -/
structure Unpackable (a : Args) (p : Params) : Prop where
  /-- It does not start at an argument that is consumed. -/
  start : a.index < a.content.len → a.masked a.index = false
  /-- If there is a mask, it has all that is consumed. -/
  behind : a.masks p → a.mask ≠ [] → ∀ j, a.headroom ≤ j → j < a.index → a.masked j = true
  /-- The parameters take what was prepended. -/
  prepended : a.masks p → (a.items a.index a.headroom).length ≤ p.count

/-- The state of the loop that started at `a₀`. -/
structure Looping (p : Params) (masked : Bool) (a₀ a : Args) (st : Unbound) : Prop where
  valid : a.Valid
  content : a.content = a₀.content
  headroom : a.headroom = a₀.headroom
  index_le : a₀.index ≤ a.index
  free : a.index < a.content.len → a.masked a.index = false
  mask : if masked then a.mask.length = a.content.len else a.mask = a₀.mask
  ahead : ∀ j, a.index ≤ j → a.masked j = a₀.masked j
  behind : ∀ j < a₀.index, a.masked j = a₀.masked j
  taken : Taken p (a₀.items a₀.index a.index) st
  kept : masked → ∀ hi ≤ a.index, a.items a₀.index hi = p.leftover (a₀.items a₀.index hi)
  start : masked = false → p.var → (∀ item ∈ a₀.items a₀.index a.index, item.1 = none) ∧
    st.restStart = a₀.index + min p.count (a.index - a₀.index)
  accepted : ∀ item ∈ p.leftover (a₀.items a₀.index a.index), p.takes item

section Loop

variable {p : Params} {masked : Bool} {a₀ a : Args} {st : Unbound}

/-- Moving on skips only what is consumed. -/
theorem advance_spec (h : a.Valid) (hlt : a.index < a.content.len) :
    a.advance.Valid ∧ a.advance.mask = a.mask ∧ a.advance.headroom = a.headroom ∧
      a.index < a.advance.index ∧ (∀ j, a.index < j → j < a.advance.index → a.masked j = true) ∧
      (a.advance.index < a.content.len → a.masked a.advance.index = false) := by
  by_cases hmask : a.mask = []
  · have hadvance : a.advance = { a with index := a.index + 1 } := by rw [advance, if_pos hmask]
    have hmasked : ∀ j, a.masked j = false := by
      intro j
      rw [Args.masked, hmask]
      rfl
    rw [hadvance]
    exact ⟨⟨h.content, h.mask, hlt⟩, rfl, rfl, Nat.lt_succ_self _, fun j hj hj' => by
      dsimp only at hj'
      omega, fun _ => hmasked _⟩
  · have hlen := h.mask.resolve_left hmask
    have hk : a.index + 1 ≤ a.mask.length := by omega
    obtain ⟨r, hr, hle, hr', hbefore, hfree⟩ := first_free a.mask hk
    have hadvance : a.advance = { a with index := r } := by
      rw [advance, if_neg hmask, ← hr, hlen]
      rfl
    rw [hadvance]
    exact ⟨⟨h.content, h.mask, by rwa [hlen] at hr'⟩, rfl, rfl, hle, hbefore,
      fun hlt => hfree (by rwa [hlen])⟩

theorem masked_mark (h : a.mask.length = a.content.len) (hlt : a.index < a.content.len)
    (bound : Bool) (j : Nat) :
    (a.mark bound).masked j = if j = a.index then bound || a.masked j else a.masked j := by
  cases bound with
  | false => rw [Bool.false_or, ite_self]; rfl
  | true =>
    show (a.mask.set a.index true).getD j false = _
    rw [List.getD_eq_getElem?_getD, List.getElem?_set, Args.masked, List.getD_eq_getElem?_getD]
    by_cases hj : a.index = j
    · rw [if_pos hj, if_pos hj.symm, if_pos (by omega), Bool.true_or]
      rfl
    · rw [if_neg hj, if_neg (Ne.symm hj)]

theorem unpackLoop_of_param (hlt : a.index < a.content.len) {item : Item}
    (hitem : a.content.get a.index a.headroom = some item) {r : Bool × Unbound}
    (hparam : unpackParam p a.index st item = .ok r) :
    unpackLoop p masked a st = unpackLoop p masked (a.mark (masked && r.1)).advance r.2 := by
  rw [unpackLoop, dif_pos hlt, hitem]
  show (unpackParam p a.index st item >>= _) = _
  rw [hparam]
  rfl

theorem unpackLoop_of_end (hend : ¬a.index < a.content.len) :
    unpackLoop p masked a st = .ok (a, st) := by
  rw [unpackLoop, dif_neg hend]

/-- The arguments up to the next one. -/
theorem Looping.items_advance (h : Looping p masked a₀ a st) (hlt : a.index < a.content.len)
    {item : Item} (hitem : a.content.get a.index a.headroom = some item) {hi : Nat}
    (hhi : a.index < hi) (hskip : ∀ j, a.index < j → j < hi → a.masked j = true) :
    a₀.items a₀.index hi = a₀.items a₀.index a.index ++ [item] := by
  have hfree : a₀.masked a.index = false := by rw [← h.ahead _ (Nat.le_refl _), h.free hlt]
  have hget : a₀.content.get a.index a₀.headroom = some item := by
    rw [← h.content, ← h.headroom, hitem]
  have hrest : a₀.items (a.index + 1) hi = [] := items_eq_nil fun j hj hj' => by
    rw [← h.ahead j (by omega), hskip j hj hj']
  rw [← items_append a₀ h.index_le (Nat.le_of_lt hhi), items_cons a₀ hhi, hfree, hget, hrest]
  rfl

/-- The loop's step, when the argument is bound or the rest takes it. -/
theorem Looping.step (h : Looping p masked a₀ a st) (hlt : a.index < a.content.len)
    (hmask : masked = false → p.var → a₀.mask = [])
    {item : Item} (hitem : a.content.get a.index a.headroom = some item) {bound : Bool}
    (hbound : bound = decide ¬Left p.count p.names (a₀.items a₀.index a.index) item)
    (htakes : bound = false → p.takes item) {st' : Unbound}
    (htaken : Taken p (a₀.items a₀.index a.index ++ [item]) st')
    (hstart : masked = false → p.var → item.1 = none ∧
      st'.restStart = if bound then a.index + 1 else st.restStart) :
    Looping p masked a₀ (a.mark (masked && bound)).advance st' := by
  generalize hb : a.mark (masked && bound) = b
  have hcontent : b.content = a.content := by rw [← hb, content_mark]
  have hindex : b.index = a.index := by rw [← hb, index_mark]
  have hheadroom : b.headroom = a.headroom := by
    rw [← hb]
    cases masked && bound <;> rfl
  have hmasked : ∀ j, b.masked j = if j = a.index then masked && bound || a.masked j else a.masked j := by
    intro j
    rw [← hb]
    cases masked with
    | true => exact masked_mark ((if_pos rfl).mp h.mask) hlt _ j
    | false => rw [Bool.false_and, Bool.false_or, ite_self]; rfl
  have hmask' : if masked then b.mask.length = b.content.len else b.mask = a₀.mask := by
    have hmask := h.mask
    rw [hcontent, ← hb]
    cases masked with
    | true =>
      cases bound with
      | true => exact (List.length_set ..).trans hmask
      | false => exact hmask
    | false => exact hmask
  have hvalid : b.Valid := by
    refine ⟨by rw [hcontent, hheadroom]; exact h.valid.content, ?_, by rw [hindex, hcontent]; exact h.valid.index⟩
    cases masked with
    | true => exact .inr hmask'
    | false =>
      rw [← hb]
      exact h.valid.mask
  obtain ⟨hvalid', hkeeps, hheadroom', hlt', hskip, hfree⟩ :=
    advance_spec hvalid (by rwa [hindex, hcontent])
  have hcontent' := content_advance b
  have hone : masked = false → p.var → b.advance.index = a.index + 1 := by
    rintro rfl hvar
    have hmask' : b.mask = a₀.mask := hmask'
    rw [advance, if_pos (hmask'.trans (hmask rfl hvar)), ← hindex]
  generalize b.advance = a' at hvalid' hkeeps hheadroom' hlt' hskip hfree hcontent' hone ⊢
  rw [hindex] at hlt' hskip
  have hmasked' : ∀ j, a'.masked j = b.masked j := fun j => by rw [Args.masked, hkeeps]; rfl
  -- What is skipped was consumed before.
  have hpast : ∀ j, a.index < j → j < a'.index → a.masked j = true := by
    intro j hj hj'
    have hskip := hskip j hj hj'
    rwa [hmasked, if_neg (by omega)] at hskip
  have hitems : ∀ hi, a.index < hi → hi ≤ a'.index →
      a₀.items a₀.index hi = a₀.items a₀.index a.index ++ [item] := fun hi hhi hhi' =>
    h.items_advance hlt hitem hhi fun j hj hj' => hpast j hj (by omega)
  have hleftover : p.leftover (a₀.items a₀.index a.index ++ [item]) =
      p.leftover (a₀.items a₀.index a.index) ++ if bound then [] else [item] := by
    rw [Params.leftover, leftover_concat, hbound]
    by_cases hleft : Left p.count p.names (a₀.items a₀.index a.index) item
    · simp [hleft, Params.leftover]
    · simp [hleft, Params.leftover]
  have hall := hitems a'.index hlt' (Nat.le_refl _)
  refine ⟨hvalid', hcontent'.trans (hcontent.trans h.content), hheadroom'.trans (hheadroom.trans h.headroom),
    Nat.le_trans h.index_le (Nat.le_of_lt hlt'), ?_, ?_, ?_, ?_, by rwa [hall], ?_, ?_, ?_⟩
  · intro hend
    rw [hmasked']
    exact hfree (by rwa [hcontent'] at hend)
  · rw [hkeeps, hcontent']
    exact hmask'
  · intro j hj
    rw [hmasked', hmasked, if_neg (by omega), h.ahead j (by omega)]
  · intro j hj
    have hle := h.index_le
    rw [hmasked', hmasked, if_neg (by omega), h.behind j hj]
  · rintro rfl hi hhi
    have hsame : ∀ hi ≤ a.index, a'.items a₀.index hi = a.items a₀.index hi := by
      intro hi hhi
      refine items_congr (fun j _ hj => ?_) fun j _ _ => ?_
      · rw [hmasked', hmasked, if_neg (by omega)]
      · rw [hcontent', hcontent, hheadroom', hheadroom]
    by_cases hle : hi ≤ a.index
    · rw [hsame hi hle, h.kept rfl hi hle]
    · have hhi' : a.index < hi := Nat.not_le.mp hle
      have hnext : a'.items a.index hi = if bound then [] else [item] := by
        have hat : a'.content.get a.index a'.headroom = some item := by
          rw [hcontent', hcontent, hheadroom', hheadroom, hitem]
        have hrest : a'.items (a.index + 1) hi = [] := items_eq_nil fun j hj hj' => by
          rw [hmasked', hskip j (by omega) (by omega)]
        rw [items_cons a' hhi', hmasked', hmasked, if_pos rfl, h.free hlt, Bool.true_and,
          Bool.or_false, hat, hrest, List.append_nil, Option.toList_some]
      rw [← items_append a' h.index_le (Nat.le_of_lt hhi'), hsame _ (Nat.le_refl _),
        h.kept rfl _ (Nat.le_refl _), hnext, hitems hi hhi' hhi, hleftover]
  · rintro rfl hvar
    obtain ⟨hpositional, hrestStart⟩ := h.start rfl hvar
    obtain ⟨hnone, hnew⟩ := hstart rfl hvar
    have hvalid₀ : a₀.Valid := by
      refine ⟨?_, .inl (hmask rfl hvar), ?_⟩
      · rw [← h.content, ← h.headroom]
        exact h.valid.content
      · rw [← h.content]
        exact Nat.le_trans h.index_le h.valid.index
    have hcount := positionals_length_of_positional hpositional
    rw [items_length hvalid₀ (hmask rfl hvar) (by rw [← h.content]; exact h.valid.index)] at hcount
    have hle := h.index_le
    constructor
    · rw [hall]
      intro item' hmem
      obtain hmem | hmem := List.mem_append.mp hmem
      · exact hpositional item' hmem
      · rw [List.mem_singleton.mp hmem, hnone]
    · obtain ⟨key, value⟩ := item
      obtain rfl : key = none := hnone
      rw [hnew, hone rfl hvar, hrestStart]
      simp only [Left, hcount, not_le] at hbound
      rw [hbound]
      by_cases hlt : a.index - a₀.index < p.count
      · rw [decide_eq_true hlt, if_pos rfl]
        omega
      · rw [decide_eq_false hlt, if_neg Bool.false_ne_true]
        omega
  · rw [hall, hleftover]
    intro item' hmem
    obtain hmem | hmem := List.mem_append.mp hmem
    · exact h.accepted item' hmem
    · cases bound with
      | true => cases hmem
      | false =>
        obtain rfl := List.mem_singleton.mp hmem
        exact htakes rfl

/-- The loop ends with every argument bound or left over, or fails because of a leftover that the rest
does not take. -/
theorem unpackLoop_spec
    (hmask : masked = false → p.var → a₀.mask = [] ∧ p.key = false ∧ p.names = [])
    (h : Looping p masked a₀ a st) :
    (∃ a' st', unpackLoop p masked a st = .ok (a', st') ∧ Looping p masked a₀ a' st' ∧
      a'.index = a₀.content.len) ∨
    (∃ e, unpackLoop p masked a st = .error e) ∧ ∃ item ∈ p.leftover a₀.remaining, p.takes item = false := by
  induction hn : a.content.len - a.index using Nat.strongRecOn generalizing a st with
  | ind n ih =>
    by_cases hlt : a.index < a.content.len
    · obtain ⟨item, hitem⟩ := h.valid.content.get_lt hlt
      have hnone : masked = false → p.var → p.takes item ∨
          ¬Left p.count p.names (a₀.items a₀.index a.index) item → item.1 = none := by
        intro hm hvar hitem
        obtain ⟨-, hkey, hnames⟩ := hmask hm hvar
        obtain ⟨_ | sym, value⟩ := item
        · rfl
        · obtain htakes | hleft := hitem
          · exact absurd htakes (by rw [Params.takes]; simp [hkey])
          · exact absurd (fun hmem => by rw [hnames] at hmem; cases hmem) hleft
      have hloop : ∀ bound {st'}, Looping p masked a₀ (a.mark (masked && bound)).advance st' →
          (∃ a' st'', unpackLoop p masked (a.mark (masked && bound)).advance st' = .ok (a', st'') ∧
            Looping p masked a₀ a' st'' ∧ a'.index = a₀.content.len) ∨
          (∃ e, unpackLoop p masked (a.mark (masked && bound)).advance st' = .error e) ∧
            ∃ item ∈ p.leftover a₀.remaining, p.takes item = false := by
        intro bound st' hstep
        have hnext := lt_advance (a := a.mark (masked && bound)) (by rwa [index_mark, content_mark])
        rw [index_mark] at hnext
        refine ih _ ?_ hstep rfl
        rw [content_advance, content_mark]
        omega
      by_cases hleft : Left p.count p.names (a₀.items a₀.index a.index) item
      · have hparam := unpackParam_left a.index h.taken hleft
        by_cases htakes : p.takes item
        · obtain ⟨st', hst', htaken, hrest⟩ := (if_pos htakes).mp hparam
          rw [unpackLoop_of_param hlt hitem hst']
          have hbound : false = decide ¬Left p.count p.names (a₀.items a₀.index a.index) item :=
            (decide_eq_false (not_not.mpr hleft)).symm
          exact hloop false (h.step hlt (fun hm hv => (hmask hm hv).1) hitem hbound
            (fun _ => htakes) htaken fun hm hv => ⟨hnone hm hv (.inl htakes), hrest⟩)
        · obtain ⟨e, he⟩ := (if_neg htakes).mp hparam
          refine .inr ⟨⟨e, ?_⟩, item, ?_, Bool.eq_false_iff.mpr htakes⟩
          · rw [unpackLoop, dif_pos hlt, hitem]
            show (unpackParam p a.index st item >>= _) = _
            rw [he]
            rfl
          have hnext := h.items_advance hlt hitem (Nat.lt_succ_self a.index) fun j _ _ => by omega
          have hmem : item ∈ p.leftover (a₀.items a₀.index (a.index + 1)) := by
            rw [hnext, Params.leftover, leftover_concat, if_pos hleft]
            exact List.mem_concat_self
          rw [remaining, ← items_append a₀ (Nat.le_succ_of_le h.index_le)
            (by rw [← h.content]; exact hlt)]
          exact leftover_subset_append p.count p.names _ _ item hmem
      · obtain ⟨st', hst', htaken, hrest⟩ := unpackParam_bound a.index h.taken hleft
        rw [unpackLoop_of_param hlt hitem hst']
        have hbound : true = decide ¬Left p.count p.names (a₀.items a₀.index a.index) item :=
          (decide_eq_true hleft).symm
        refine hloop true (h.step hlt (fun hm hv => (hmask hm hv).1) hitem hbound
          (fun h => Bool.noConfusion h) htaken fun hm hv => ?_)
        have hnone := hnone hm hv (.inr hleft)
        exact ⟨hnone, hrest hnone⟩
    · have hend : a.index = a₀.content.len := by
        rw [← h.content]
        exact Nat.le_antisymm h.valid.index (Nat.not_lt.mp hlt)
      exact .inl ⟨a, st, unpackLoop_of_end hlt, h, hend⟩

end Loop

/-! #### Before the loop -/

section Start

variable {p : Params} {a : Args}

theorem masked_allocate (h : a.mask = []) (j : Nat) : a.allocate.masked j = decide (j < a.index) := by
  rw [allocate, if_pos h, Args.masked, List.getD_eq_getElem?_getD]
  by_cases hj : j < a.index
  · rw [List.getElem?_append_left (by rwa [List.length_replicate]), List.getElem?_replicate, if_pos hj,
      decide_eq_true hj]
    rfl
  · rw [List.getElem?_append_right (by rw [List.length_replicate]; omega), List.length_replicate,
      List.getElem?_replicate, decide_eq_false hj]
    split <;> rfl

theorem allocate_of_mask (h : a.mask ≠ []) : a.allocate = a := by
  rw [allocate, if_neg h]

/-- The mask that is made has what the index says. -/
theorem items_allocate (hi : Nat) : a.allocate.items a.index hi = a.items a.index hi := by
  by_cases hmask : a.mask = []
  · refine items_congr (fun j hj _ => ?_) fun j _ _ => ?_
    · rw [masked_allocate hmask, Args.masked, hmask, decide_eq_false (Nat.not_lt.mpr hj)]
      rfl
    · rw [allocate, if_pos hmask]
  · rw [allocate_of_mask hmask]

theorem valid_allocate (h : a.Valid) :
    a.allocate.Valid ∧ a.allocate.content = a.content ∧ a.allocate.headroom = a.headroom ∧
      a.allocate.index = a.index ∧ a.allocate.mask.length = a.content.len := by
  have hle := h.index
  by_cases hmask : a.mask = []
  · have hlen : a.allocate.mask.length = a.content.len := by
      rw [allocate, if_pos hmask, List.length_append, List.length_replicate, List.length_replicate]
      exact Nat.add_sub_cancel' hle
    rw [allocate, if_pos hmask] at hlen ⊢
    exact ⟨⟨h.content, .inr hlen, hle⟩, rfl, rfl, rfl, hlen⟩
  · rw [allocate_of_mask hmask]
    exact ⟨h, rfl, rfl, rfl, h.mask.resolve_left hmask⟩

/-- No parameter has an argument before the loop. -/
theorem taken_nil (p : Params) (restStart : Nat) :
    Taken p [] {
      i := 0
      required := List.replicate (p.n + p.kparam.length) none
      optional := List.replicate (p.no + p.koparam.length) none
      restStart } := by
  have hkeyed : ∀ i sym, p.keyed [] i sym = none := fun i sym => by
    rw [Params.keyed]
    split <;> rfl
  have hrequired : p.required [] = List.replicate (p.n + p.kparam.length) none := by
    refine List.eq_replicate_iff.mpr ⟨by rw [Params.required, List.length_map, List.length_range], ?_⟩
    intro value hmem
    obtain ⟨i, -, rfl⟩ := List.mem_map.mp hmem
    rw [Params.requiredAt]
    split
    · rfl
    · cases p.kparam[i - p.n]? with
      | none => rfl
      | some sym => exact hkeyed _ sym
  have hoptional : p.optional [] = List.replicate (p.no + p.koparam.length) none := by
    refine List.eq_replicate_iff.mpr ⟨by rw [Params.optional, List.length_map, List.length_range], ?_⟩
    intro value hmem
    obtain ⟨i, -, rfl⟩ := List.mem_map.mp hmem
    rw [Params.optionalAt]
    split
    · rfl
    · cases p.koparam[i - p.no]? with
      | none => rfl
      | some sym => exact hkeyed _ sym
  exact ⟨rfl, hrequired.symm, hoptional.symm⟩

theorem looping_start (h : a.Valid) (hu : a.Unpackable p) {a₀ : Args}
    (ha₀ : a₀ = if a.masks p then a.allocate else a) :
    Looping p (a.masks p) a₀ a₀ {
      i := 0
      required := List.replicate (p.n + p.kparam.length) none
      optional := List.replicate (p.no + p.koparam.length) none
      restStart := a.index } := by
  obtain ⟨hvalid, hcontent, hheadroom, hindex, hlen⟩ := valid_allocate h
  have hnil : ∀ hi ≤ a₀.index, a₀.items a₀.index hi = [] := fun hi hhi => items_of_le hhi
  have hnil' := hnil a₀.index (Nat.le_refl _)
  have hfree : a.index < a.content.len → a.allocate.masked a.index = false := by
    intro hlt
    by_cases hmask : a.mask = []
    · rw [masked_allocate hmask, decide_eq_false (Nat.lt_irrefl _)]
    · rw [allocate_of_mask hmask, hu.start hlt]
  have hstart : a₀.Valid ∧ a₀.index = a.index ∧ (a₀.index < a₀.content.len → a₀.masked a₀.index = false) ∧
      if a.masks p then a₀.mask.length = a₀.content.len else a₀.mask = a₀.mask := by
    subst ha₀
    by_cases hmasks : a.masks p
    · rw [if_pos hmasks, if_pos hmasks, hindex, hcontent]
      exact ⟨hvalid, rfl, hfree, hlen⟩
    · rw [if_neg hmasks, if_neg hmasks]
      exact ⟨h, rfl, hu.start, rfl⟩
  obtain ⟨hvalid₀, hindex₀, hfree₀, hmask₀⟩ := hstart
  refine ⟨hvalid₀, rfl, rfl, Nat.le_refl _, hfree₀, hmask₀, fun _ _ => rfl, fun _ _ => rfl, ?_, ?_, ?_, ?_⟩
  · rw [hnil']
    exact taken_nil p a.index
  · intro _ hi hhi
    rw [hnil hi hhi]
    rfl
  · intro _ _
    rw [hnil', hindex₀, Nat.sub_self, Nat.min_zero]
    exact ⟨nofun, rfl⟩
  · rw [hnil']
    exact nofun

end Start

/-! #### After the loop -/

section Finish

variable {p : Params} {a₀ a : Args} {st : Unbound}

/-- What was prepended in the headroom is positional. -/
theorem items_headroom (h : a.Valid) (lo : Nat) : ∀ item ∈ a.items lo a.headroom, item.1 = none := by
  intro item hmem
  obtain ⟨j, hj, hitem⟩ := List.mem_filterMap.mp hmem
  have hj := List.mem_range'_1.mp hj
  split at hitem
  · cases hitem
  · exact h.content.get_headroom (by omega) hitem

/-- A rest with a mask has what the parameters leave over. -/
theorem Looping.restart (h : Looping p true a₀ a st) (hend : a.index = a₀.content.len)
    (hbehind : ∀ j, a₀.headroom ≤ j → j < a₀.index → a₀.masked j = true)
    (hprepended : (a₀.items a₀.index a₀.headroom).length ≤ p.count) (h₀ : a₀.Valid) :
    a.restart.Valid ∧ a.restart.remaining = p.leftover a₀.remaining := by
  have hlen : a.mask.length = a.content.len := (if_pos rfl).mp h.mask
  have hroom := h.valid.content.headroom_le
  have hkept := h.kept rfl
  obtain ⟨r, hr, hle, hr', hbefore, -⟩ := first_free a.mask (hroom.trans (Nat.le_of_eq hlen.symm))
  have hrestart : a.restart = { a with index := r } := by
    rw [Args.restart, ← hr, hlen]
  have hskip : a.items a.headroom r = [] := items_eq_nil hbefore
  rw [hlen] at hr'
  have hremaining : a.restart.remaining = a.items a.headroom a.content.len := by
    rw [hrestart, ← items_append a hle hr', hskip]
    rfl
  refine ⟨by rw [hrestart]; exact ⟨h.valid.content, h.valid.mask, hr'⟩, ?_⟩
  have hall : a.items a₀.index a₀.content.len = p.leftover a₀.remaining := by
    have hall := hkept a.index (Nat.le_refl _)
    rwa [hend] at hall
  rw [← h.content] at hall
  rw [hremaining, ← hall]
  obtain hfront | hback := Nat.le_total a₀.index a.headroom
  · -- The parameters have taken all that was prepended.
    have hnil : a.items a₀.index a.headroom = [] := by
      have hfront := hkept a.headroom (by rw [hend, ← h.content]; exact hroom)
      rw [hfront, h.headroom, Params.leftover, leftover_positional (items_headroom h₀ _)]
      exact List.drop_eq_nil_of_le hprepended
    rw [← items_append a hfront hroom, hnil, List.nil_append]
  · have hnil : a.items a.headroom a₀.index = [] := items_eq_nil fun j hj hj' => by
      rw [h.behind j hj', hbehind j (by rwa [← h.headroom]) hj']
    have hindex : a₀.index ≤ a.content.len := by
      rw [h.content]
      exact h₀.index
    rw [← items_append a hback hindex, hnil, List.nil_append]

/-- A rest without a mask starts behind the last argument that is bound. -/
theorem Looping.rest (h : Looping p false a₀ a st) (hend : a.index = a₀.content.len)
    (hvar : p.var) (hmask : a₀.mask = []) (h₀ : a₀.Valid) :
    Valid { a with index := st.restStart } ∧
      remaining { a with index := st.restStart } = p.leftover a₀.remaining := by
  obtain ⟨hpositional, hstart⟩ := h.start rfl hvar
  have hmask' : a.mask = a₀.mask := h.mask
  have hle := h₀.index
  have hlt : st.restStart ≤ a₀.content.len := by omega
  refine ⟨⟨h.valid.content, h.valid.mask, by rw [h.content]; exact hlt⟩, ?_⟩
  have hsame : remaining { a with index := st.restStart } = a₀.items st.restStart a₀.content.len := by
    show a.items st.restStart a.content.len = _
    rw [h.content]
    refine items_congr (fun j _ _ => by rw [Args.masked, hmask']; rfl) fun j _ _ => ?_
    rw [h.content, h.headroom]
  rw [hend] at hpositional hstart
  have hlength : (a₀.items a₀.index a₀.content.len).length = a₀.content.len - a₀.index :=
    items_length h₀ hmask (Nat.le_refl a₀.content.len)
  rw [hsame, Params.leftover, remaining, leftover_positional hpositional, hstart,
    items_drop h₀ hmask (by omega) (Nat.le_refl _)]
  obtain hcount | hcount := Nat.le_total p.count (a₀.content.len - a₀.index)
  · rw [Nat.min_eq_left hcount]
  · rw [Nat.min_eq_right hcount, List.drop_eq_nil_of_le (by omega), List.drop_eq_nil_of_le]
    exact hlength.trans_le hcount

theorem map_some_reduceOption {α : Type} {l : List (Option α)} (h : ∀ o ∈ l, o.isSome) :
    l.reduceOption.map some = l := by
  induction l with
  | nil => rfl
  | cons o l ih =>
    obtain ⟨a, rfl⟩ := Option.isSome_iff_exists.mp (h o List.mem_cons_self)
    have ih := ih fun o hmem => h o (List.mem_cons_of_mem _ hmem)
    show some a :: l.reduceOption.map some = _
    rw [ih]

/-- `unpack` binds the first arguments for its parameters and gives what they leave over, or fails
because the parameters do not accept the arguments. -/
theorem unpack_spec (h : a.Valid) (hu : a.Unpackable p) :
    (∃ required optional rest, a.unpack p = .ok (required, optional, rest) ∧
      p.Accept a.remaining ∧ required.map some = p.required a.remaining ∧
      optional = p.optional a.remaining ∧ rest.isSome = p.var ∧
      ∀ a' ∈ rest, a'.Valid ∧ a'.remaining = p.leftover a.remaining) ∨
    (∃ e, a.unpack p = .error e) ∧ ¬p.Accept a.remaining := by
  obtain ⟨hvalid, hcontent, hheadroom, hindex, hlen⟩ := valid_allocate h
  generalize ha₀ : (if a.masks p then a.allocate else a) = a₀
  have hstart := looping_start h hu ha₀.symm
  have hremaining : a₀.remaining = a.remaining ∧ a₀.Valid := by
    rw [← ha₀]
    split
    · refine ⟨?_, hvalid⟩
      rw [remaining, hindex, hcontent, items_allocate]
      rfl
    · exact ⟨rfl, h⟩
  obtain ⟨hremaining, hvalid₀⟩ := hremaining
  have hmask : a.masks p = false → p.var → a₀.mask = [] ∧ p.key = false ∧ p.names = [] := by
    intro hmasks hvar
    rw [← ha₀, if_neg (Bool.eq_false_iff.mp hmasks)]
    rw [masks, hvar, Bool.true_and, Bool.or_eq_false_iff, Bool.or_eq_false_iff,
      decide_eq_false_iff_not] at hmasks
    obtain ⟨⟨hkey, hcount⟩, hempty⟩ := hmasks
    refine ⟨by simpa using hempty, hkey, List.eq_nil_of_length_eq_zero ?_⟩
    rw [Params.names, List.length_append]
    omega
  rw [unpack]
  dsimp only
  rw [ha₀, ← hremaining]
  obtain ⟨a', st', hloop, hfinal, hend⟩ | ⟨⟨e, he⟩, bad, hbad, htakes⟩ := unpackLoop_spec hmask hstart
  · have htaken := hfinal.taken
    have hitems : a₀.items a₀.index a'.index = a₀.remaining := by rw [hend]; rfl
    rw [hitems] at htaken
    rw [hloop, ok_bind]
    dsimp only
    cases hfind : st'.required.findIdx? (·.isNone) with
    | some i =>
      refine .inr ⟨?_, fun haccept => ?_⟩
      · dsimp only
        rw [missing]
        split
        · exact ⟨_, rfl⟩
        · cases p.kparam[i - p.n]? <;> exact ⟨_, rfl⟩
      · obtain ⟨hi, hnone, -⟩ := List.findIdx?_eq_some_iff_getElem.mp hfind
        have hmem : st'.required[i] ∈ p.required a₀.remaining := by
          rw [← htaken.required]
          exact List.getElem_mem hi
        have hsome := haccept.required _ hmem
        rw [Option.isNone_iff_eq_none.mp hnone] at hsome
        cases hsome
    | none =>
      have hall : ∀ value ∈ st'.required, value.isSome := fun value hmem => by
        have hnot := List.findIdx?_eq_none_iff.mp hfind value hmem
        simpa using hnot
      refine .inl ⟨_, _, _, rfl, ⟨?_, ?_⟩, ?_, htaken.optional, ?_⟩
      · rwa [← htaken.required]
      · have haccepted := hfinal.accepted
        rwa [hitems] at haccepted
      · rw [map_some_reduceOption hall, htaken.required]
      · cases hmasks : a.masks p with
        | true =>
          rw [hmasks, if_pos rfl] at ha₀
          rw [hmasks] at hfinal
          have hvar : p.var = true := by
            rw [masks, Bool.and_eq_true] at hmasks
            exact hmasks.1
          have hbehind : ∀ j, a₀.headroom ≤ j → j < a₀.index → a₀.masked j = true := by
            rw [← ha₀, hheadroom, hindex]
            intro j hj hj'
            by_cases hmask : a.mask = []
            · rw [masked_allocate hmask, decide_eq_true hj']
            · rw [allocate_of_mask hmask, hu.behind hmasks hmask j hj hj']
          have hprepended : (a₀.items a₀.index a₀.headroom).length ≤ p.count := by
            rw [← ha₀, hheadroom, hindex, items_allocate]
            exact hu.prepended hmasks
          refine ⟨hvar.symm, fun rest hrest => ?_⟩
          obtain rfl := Option.some.inj hrest
          exact hfinal.restart hend hbehind hprepended hvalid₀
        | false =>
          rw [if_neg Bool.false_ne_true]
          rw [hmasks] at hfinal
          cases hvar : p.var with
          | true =>
            refine ⟨rfl, fun rest hrest => ?_⟩
            obtain rfl := Option.some.inj hrest
            exact hfinal.rest hend hvar (hmask hmasks hvar).1 hvalid₀
          | false => exact ⟨rfl, fun _ hrest => by cases hrest⟩
  · rw [he]
    refine .inr ⟨⟨e, rfl⟩, fun haccept => ?_⟩
    rw [haccept.leftover bad hbad] at htakes
    cases htakes

end Finish

end Args

/-! ### Runs -/

/-- What a native function does with its arguments. -/
inductive ArgsAction where
  | next
  | prependSelf (value : Value)
  | unpack (p : Params)

/-- The arguments of a call with what is not consumed of them, as a list of its own. An unpack goes on
with the rest that it gives. -/
def argsRuns : System (Args × List Item) ArgsAction where
  start s := ∃ content headroom, ArgContent.Valid content headroom ∧ s.1 = Args.new content headroom ∧
    s.2 = s.1.remaining
  next s action t :=
    match action with
    | .next => t = (s.1.next.2, s.2.tail)
    | .prependSelf value => s.1.prependSelf value = some t.1 ∧ t.2 = (none, value) :: s.2
    | .unpack p => ∃ required optional, s.1.unpack p = .ok (required, optional, some t.1) ∧
        t.2 = p.leftover s.2

/-- An action that does what it does to the list. -/
def ArgsAction.Good (s : Args × List Item) : ArgsAction → Prop
  | .next => True
  | .prependSelf _ => s.1.Prependable
  | .unpack p => s.1.Unpackable p

/-- What is left is the list. -/
theorem run_remaining {s : Args × List Item} (h : argsRuns.Run ArgsAction.Good s) :
    s.1.Valid ∧ s.1.remaining = s.2 := by
  refine h.invariant (I := fun s => s.1.Valid ∧ s.1.remaining = s.2) ?_ ?_
  · rintro ⟨a, items⟩ ⟨content, headroom, hcontent, ha, hitems⟩
    dsimp only at ha hitems ⊢
    subst ha
    exact ⟨Args.valid_new hcontent, hitems.symm⟩
  · rintro ⟨a, items⟩ action ⟨a', items'⟩ ⟨hvalid, hremaining⟩ hgood hnext
    dsimp only at hvalid hremaining
    subst hremaining
    cases action with
    | next =>
      obtain ⟨-, htail, hvalid'⟩ := Args.next_eq hvalid
      obtain ⟨rfl, rfl⟩ := Prod.mk.inj hnext
      exact ⟨hvalid', htail⟩
    | prependSelf value =>
      obtain ⟨hprepend, rfl⟩ := hnext
      obtain ⟨hcons, hvalid'⟩ := Args.remaining_prependSelf hvalid hgood hprepend
      exact ⟨hvalid', hcons⟩
    | unpack p =>
      obtain ⟨required, optional, hunpack, rfl⟩ := hnext
      obtain ⟨_, _, _, hok, -, -, -, -, hrest⟩ | ⟨⟨e, he⟩, -⟩ := Args.unpack_spec hvalid hgood
      · obtain ⟨-, -, rfl⟩ : _ ∧ _ ∧ some a' = _ := by
          simpa using hunpack.symm.trans hok
        exact hrest a' rfl
      · rw [he] at hunpack
        cases hunpack

/-- In a run whose actions are good, the iterator gives what is not consumed, each argument once and in
the order of the call. An unpack from there binds the first of them, and its rest gives the others, or
it fails because its parameters do not accept them. -/
theorem unpack_loses_nothing {s : Args × List Item} (h : argsRuns.Run ArgsAction.Good s) :
    s.1.drain s.2.length = s.2 ∧ s.1.sizeHint = s.2.length ∧
    ∀ p, s.1.Unpackable p →
      (p.Accept s.2 → ∃ required optional rest, s.1.unpack p = .ok (required, optional, rest) ∧
        required.map some = p.required s.2 ∧ optional = p.optional s.2 ∧ rest.isSome = p.var ∧
        ∀ a ∈ rest, a.drain (p.leftover s.2).length = p.leftover s.2) ∧
      (¬p.Accept s.2 → ∃ e, s.1.unpack p = .error e) := by
  obtain ⟨hvalid, hremaining⟩ := run_remaining h
  rw [← hremaining]
  refine ⟨Args.drain_eq hvalid (Nat.le_refl _), Args.sizeHint_eq hvalid, fun p hp => ?_⟩
  obtain ⟨required, optional, rest, hok, haccept, hrequired, hoptional, hvar, hrest⟩ |
    ⟨herror, haccept⟩ := Args.unpack_spec hvalid hp
  · refine ⟨fun _ => ⟨required, optional, rest, hok, hrequired, hoptional, hvar, fun a ha => ?_⟩,
      fun hnot => absurd haccept hnot⟩
    obtain ⟨hvalid', hleftover⟩ := hrest a ha
    rw [← hleftover]
    exact Args.drain_eq hvalid' (Nat.le_refl _)
  · exact ⟨fun h => absurd h haccept, fun _ => herror⟩

/-- A call with a positional argument and a keyed one, after the first is consumed. -/
theorem unpack_loses_nothing_next :
    let k : SymObj := ⟨[107], none⟩
    let a := Args.new (.borrowed [none, some k] [.nil, .const (.int 5), .const (.int 6)]) 1
    a.next.2.drain 1 = [(some k, .const (.int 6))] ∧ a.next.2.sizeHint = 1 := by
  intro k a
  have hvalid : ArgContent.Valid
      (.borrowed [none, some k] [.nil, .const (.int 5), .const (.int 6)]) 1 := rfl
  have hstart : argsRuns.Run ArgsAction.Good
      (a, [(none, .const (.int 5)), (some k, .const (.int 6))]) :=
    .start ⟨_, _, hvalid, rfl, rfl⟩
  have hnext : argsRuns.Run ArgsAction.Good (a.next.2, [(some k, .const (.int 6))]) :=
    hstart.step (a := .next) trivial rfl
  exact ⟨(unpack_loses_nothing hnext).1, (unpack_loses_nothing hnext).2.1⟩

/-- An argument that `next` consumed of a rest with a mask is in the rest of the next unpack. -/
theorem rest_gives_consumed :
    let p : Params := ⟨0, 0, [], [], true, true⟩
    ∃ s rest, argsRuns.Reachable s ∧ s.2 = [(none, .const (.int 3))] ∧
      s.1.unpack p = .ok ([], [], some rest) ∧ rest.next.1 = some (none, .const (.int 2)) := by
  intro p
  let k : SymObj := ⟨[107], none⟩
  let content : ArgContent :=
    .borrowed [some k, none, none] [.nil, .const (.int 1), .const (.int 2), .const (.int 3)]
  let mask := [true, true, false, false]
  have hvalid : content.Valid 1 := rfl
  have hstart : argsRuns.Reachable (Args.new content 1,
      [(some k, .const (.int 1)), (none, .const (.int 2)), (none, .const (.int 3))]) :=
    .start ⟨_, _, hvalid, rfl, rfl⟩
  have hlt {m : List Bool} {i : ℕ} (hi : i < 4) : Args.index ⟨content, m, i, 1⟩ < content.len := hi
  have hend : ¬Args.index ⟨content, mask, 4, 1⟩ < content.len := Nat.lt_irrefl 4
  -- The first unpack takes the key, and makes the mask.
  have hkey : (Args.new content 1).unpack ⟨0, 0, [k], [], true, true⟩ =
      .ok ([.const (.int 1)], [], some ⟨content, mask, 2, 1⟩) := by
    let q : Params := ⟨0, 0, [k], [], true, true⟩
    have h1 : Args.unpackLoop q true ⟨content, [true, false, false, false], 1, 1⟩ ⟨0, [none], [], 1⟩ =
        Args.unpackLoop q true ⟨content, mask, 2, 1⟩ ⟨0, [some (.const (.int 1))], [], 1⟩ :=
      Args.unpackLoop_of_param (hlt (i := 1) (by decide)) rfl
        (r := (true, ⟨0, [some (.const (.int 1))], [], 1⟩)) rfl
    have h2 : Args.unpackLoop q true ⟨content, mask, 2, 1⟩ ⟨0, [some (.const (.int 1))], [], 1⟩ =
        Args.unpackLoop q true ⟨content, mask, 3, 1⟩ ⟨1, [some (.const (.int 1))], [], 1⟩ :=
      Args.unpackLoop_of_param (hlt (i := 2) (by decide)) rfl
        (r := (false, ⟨1, [some (.const (.int 1))], [], 1⟩)) rfl
    have h3 : Args.unpackLoop q true ⟨content, mask, 3, 1⟩ ⟨1, [some (.const (.int 1))], [], 1⟩ =
        Args.unpackLoop q true ⟨content, mask, 4, 1⟩ ⟨2, [some (.const (.int 1))], [], 1⟩ :=
      Args.unpackLoop_of_param (hlt (i := 3) (by decide)) rfl
        (r := (false, ⟨2, [some (.const (.int 1))], [], 1⟩)) rfl
    have hloop := h1.trans (h2.trans (h3.trans (Args.unpackLoop_of_end hend)))
    rw [Args.unpack]
    show (Args.unpackLoop q true _ _ >>= _) = _
    exact (congrArg (· >>= _) hloop).trans rfl
  have hnext : (⟨content, mask, 2, 1⟩ : Args).next =
      (some (none, .const (.int 2)), ⟨content, mask, 3, 1⟩) := by
    rw [Args.next]
    rfl
  -- The second leaves everything over, and its rest starts before the index.
  have hrest : (⟨content, mask, 3, 1⟩ : Args).unpack p = .ok ([], [], some ⟨content, mask, 2, 1⟩) := by
    have h1 : Args.unpackLoop p true ⟨content, mask, 3, 1⟩ ⟨0, [], [], 3⟩ =
        Args.unpackLoop p true ⟨content, mask, 4, 1⟩ ⟨1, [], [], 3⟩ :=
      Args.unpackLoop_of_param (hlt (i := 3) (by decide)) rfl
        (r := (false, ⟨1, [], [], 3⟩)) rfl
    have hloop := h1.trans (Args.unpackLoop_of_end hend)
    rw [Args.unpack]
    show (Args.unpackLoop p true _ _ >>= _) = _
    exact (congrArg (· >>= _) hloop).trans rfl
  have hbound : argsRuns.Reachable (⟨content, mask, 2, 1⟩,
      [(none, .const (.int 2)), (none, .const (.int 3))]) :=
    hstart.step (a := .unpack ⟨0, 0, [k], [], true, true⟩) trivial ⟨_, _, hkey, rfl⟩
  have hconsumed : argsRuns.Reachable (⟨content, mask, 3, 1⟩, [(none, .const (.int 3))]) :=
    hbound.step (a := .next) trivial (Prod.ext (congrArg Prod.snd hnext).symm rfl)
  exact ⟨_, _, hconsumed, rfl, hrest, by rw [hnext]⟩

end Dolang.Runtime
