import Dolang.Runtime.Binding

/-!
# The arguments of a native call

`Args` of `dolang-runtime/src/arg.rs`: an iterator over the arguments of a call that keeps track of
what is consumed in two ways, by an index and by a mask that only some of the operations make. In
front of the arguments there are free positions, the headroom, that `prependSelf` can fill.

`items` is what is not consumed between two positions, and `remaining` what `next` has still to give.
`next` and `prependSelf` are those of a list (`next_eq`, `remaining_prependSelf`).
-/

namespace Dolang.Runtime

open Dolang.Rust

/-! ### Arguments -/

/-- Where the arguments of a call are: in a frame's slots, or in a list of their own. -/
inductive ArgContent where
  | borrowed (sig : List (Option SymObj)) (slots : List Value)
  | owned (items : List Item)

namespace ArgContent

def len : ArgContent → Nat
  | .borrowed _ slots => slots.length
  | .owned items => items.length

/-- `ArgContent::write_unchecked`. -/
def write (content : ArgContent) (index : Nat) (value : Value) : ArgContent :=
  match content with
  | .borrowed sig slots => .borrowed sig (slots.set index value)
  | .owned items => .owned (items.modify index fun item => (item.1, value))

/-- `ArgContent::get_unchecked`. Below the headroom there are no keys. -/
def get (content : ArgContent) (index headroom : Nat) : Option Item :=
  match content with
  | .borrowed sig slots => do
    let value ← slots[index]?
    if index < headroom then return (none, value)
    else
      let key ← sig[index - headroom]?
      return (key, value)
  | .owned items => items[index]?

/-- What the constructors of `Args` are promised. -/
def Valid (content : ArgContent) (headroom : Nat) : Prop :=
  match content with
  | .borrowed sig slots => slots.length = sig.length + headroom
  | .owned items => headroom ≤ items.length ∧ ∀ j < headroom, ∀ item, items[j]? = some item → item.1 = none

end ArgContent

/-- `Args`. -/
structure Args where
  content : ArgContent
  /-- The positions that are consumed, or nothing as long as the index tells. -/
  mask : List Bool
  index : Nat
  headroom : Nat

namespace Args

/-- `Args::new` and `Args::new_owned`. -/
def new (content : ArgContent) (headroom : Nat) : Args where
  content
  mask := []
  index := headroom
  headroom

/-- The mask says that a position is consumed. -/
def masked (a : Args) (j : Nat) : Bool :=
  a.mask.getD j false

/-- `Args::next`. -/
def next (a : Args) : Option Item × Args :=
  if a.index < a.content.len then
    if a.masked a.index then next { a with index := a.index + 1 }
    else (a.content.get a.index a.headroom, { a with index := a.index + 1 })
  else (none, a)
termination_by a.content.len - a.index

/-- `Args::size_hint`. -/
def sizeHint (a : Args) : Nat :=
  a.content.len - a.index - (a.mask.drop a.index).count true

/-- `Args::prepend_self`, which needs a position before the index. -/
def prependSelf (a : Args) (value : Value) : Option Args :=
  if 0 < a.index then
    some { a with
      index := a.index - 1
      content := a.content.write (a.index - 1) value
      mask := a.mask.set (a.index - 1) false }
  else none

/-- What holds of the arguments of a call all along. -/
structure Valid (a : Args) : Prop where
  content : a.content.Valid a.headroom
  mask : a.mask = [] ∨ a.mask.length = a.content.len
  index : a.index ≤ a.content.len

/-! ### What is not consumed -/

/-- What is not consumed from a position up to another. -/
def items (a : Args) (lo hi : Nat) : List Item :=
  (List.range' lo (hi - lo)).filterMap fun j =>
    if a.masked j then none else a.content.get j a.headroom

/-- What `next` has still to give. -/
def remaining (a : Args) : List Item :=
  a.items a.index a.content.len

section Items

variable {a b : Args} {lo mid hi : Nat} {value : Value}

theorem items_of_le (h : hi ≤ lo) : a.items lo hi = [] := by
  rw [items, Nat.sub_eq_zero_of_le h]
  rfl

theorem items_append (a : Args) (hlo : lo ≤ mid) (hhi : mid ≤ hi) :
    a.items lo mid ++ a.items mid hi = a.items lo hi := by
  have hrange : List.range' lo (mid - lo) ++ List.range' (lo + (mid - lo)) (hi - mid) = _ :=
    List.range'_append_1
  have hmid : lo + (mid - lo) = mid := by omega
  have hlen : mid - lo + (hi - mid) = hi - lo := by omega
  rw [hmid, hlen] at hrange
  rw [items, items, items, ← List.filterMap_append, hrange]

/-- The first position, and then the others. -/
theorem items_cons (a : Args) (h : lo < hi) :
    a.items lo hi =
      (if a.masked lo then [] else (a.content.get lo a.headroom).toList) ++ a.items (lo + 1) hi := by
  have hlen : hi - lo = (hi - (lo + 1)) + 1 := by omega
  rw [items, items, hlen, List.range'_succ, List.filterMap_cons]
  by_cases hm : a.masked lo
  · rw [if_pos hm, if_pos hm]
    rfl
  · rw [if_neg hm, if_neg hm]
    cases a.content.get lo a.headroom <;> rfl

theorem items_eq_nil (h : ∀ j, lo ≤ j → j < hi → a.masked j = true) : a.items lo hi = [] := by
  refine List.filterMap_eq_nil_iff.mpr fun j hj => if_pos ?_
  have hj := List.mem_range'_1.mp hj
  exact h j hj.1 (by omega)

theorem items_congr (hmasked : ∀ j, lo ≤ j → j < hi → a.masked j = b.masked j)
    (hget : ∀ j, lo ≤ j → j < hi → a.content.get j a.headroom = b.content.get j b.headroom) :
    a.items lo hi = b.items lo hi := by
  refine List.filterMap_congr fun j hj => ?_
  have hj := List.mem_range'_1.mp hj
  rw [hmasked j hj.1 (by omega), hget j hj.1 (by omega)]

end Items

end Args

/-! ### One argument after the other -/

namespace ArgContent

variable {content : ArgContent} {headroom j : Nat} {value : Value}

theorem Valid.headroom_le (h : content.Valid headroom) : headroom ≤ content.len := by
  cases content with
  | borrowed sig slots =>
    have h : slots.length = sig.length + headroom := h
    show headroom ≤ slots.length
    omega
  | owned items => exact h.1

theorem Valid.get_lt (h : content.Valid headroom) (hj : j < content.len) :
    ∃ item, content.get j headroom = some item := by
  cases content with
  | borrowed sig slots =>
    have hlen : slots.length = sig.length + headroom := h
    have hj : j < slots.length := hj
    rw [get, List.getElem?_eq_getElem hj]
    by_cases hroom : j < headroom
    · exact ⟨_, if_pos hroom⟩
    · rw [List.getElem?_eq_getElem (by omega : j - headroom < sig.length)]
      exact ⟨_, if_neg hroom⟩
  | owned items => exact ⟨_, List.getElem?_eq_getElem hj⟩

/-- Below the headroom there are positional arguments only. -/
theorem Valid.get_headroom (h : content.Valid headroom) (hj : j < headroom) {item : Item}
    (hget : content.get j headroom = some item) : item.1 = none := by
  cases content with
  | borrowed sig slots =>
    rw [get] at hget
    cases hslot : slots[j]? with
    | none =>
      rw [hslot] at hget
      cases hget
    | some value =>
      rw [hslot, Option.bind_eq_bind, Option.bind_some, if_pos hj] at hget
      rw [← Option.some.inj hget]
  | owned items => exact h.2 j hj item hget

@[simp]
theorem len_write (content : ArgContent) (index : Nat) (value : Value) :
    (content.write index value).len = content.len := by
  cases content with
  | borrowed sig slots => exact List.length_set ..
  | owned items => exact List.length_modify ..

theorem get_write_ne {index : Nat} (h : index ≠ j) :
    (content.write index value).get j headroom = content.get j headroom := by
  cases content with
  | borrowed sig slots => rw [write, get, get, List.getElem?_set_ne h]
  | owned items => rw [write, get, get, List.getElem?_modify_ne _ _ h]

/-- What is written has the key that was there. -/
theorem get_write (value : Value) {item : Item} (h : content.get j headroom = some item) :
    (content.write j value).get j headroom = some (item.1, value) := by
  cases content with
  | borrowed sig slots =>
    rw [get] at h
    cases hslot : slots[j]? with
    | none =>
      rw [hslot] at h
      cases h
    | some old =>
      have hlt := (List.getElem?_eq_some_iff.mp hslot).1
      rw [write, get, List.getElem?_set_self hlt]
      rw [hslot, Option.bind_eq_bind, Option.bind_some] at h
      rw [Option.bind_eq_bind, Option.bind_some]
      by_cases hroom : j < headroom
      · rw [if_pos hroom] at h ⊢
        rw [← Option.some.inj h]
        rfl
      · rw [if_neg hroom] at h ⊢
        cases hkey : sig[j - headroom]? with
        | none =>
          rw [hkey] at h
          cases h
        | some key =>
          rw [hkey] at h
          rw [← Option.some.inj h]
          rfl
  | owned items =>
    have h : items[j]? = some item := h
    rw [write, get, List.getElem?_modify_eq, h]
    rfl

theorem Valid.write (h : content.Valid headroom) (index : Nat) (value : Value) :
    (content.write index value).Valid headroom := by
  cases content with
  | borrowed sig slots => exact (List.length_set ..).trans h
  | owned items =>
    refine ⟨Nat.le_trans h.1 (Nat.le_of_eq (List.length_modify ..).symm), fun j hj item hitem => ?_⟩
    by_cases hindex : index = j
    · subst hindex
      rw [List.getElem?_modify_eq] at hitem
      obtain ⟨old, hold, rfl⟩ := Option.map_eq_some_iff.mp hitem
      exact h.2 index hj old hold
    · rw [List.getElem?_modify_ne _ _ hindex] at hitem
      exact h.2 j hj item hitem

end ArgContent

namespace Args

variable {a : Args} {value : Value}

theorem valid_new {content : ArgContent} {headroom : Nat} (h : content.Valid headroom) :
    (new content headroom).Valid where
  content := h
  mask := .inl rfl
  index := h.headroom_le

/-- `next` gives the first argument that is left. -/
theorem next_eq (h : a.Valid) :
    a.next.1 = a.remaining.head? ∧ a.next.2.remaining = a.remaining.tail ∧ a.next.2.Valid := by
  induction a using next.induct with
  | case1 a hlt hmasked ih =>
    have hcons := a.items_cons hlt
    rw [if_pos hmasked, List.nil_append] at hcons
    have ih := ih ⟨h.content, h.mask, hlt⟩
    rw [next, if_pos hlt, if_pos hmasked, remaining, hcons]
    exact ih
  | case2 a hlt hmasked =>
    obtain ⟨item, hitem⟩ := h.content.get_lt hlt
    have hcons := a.items_cons hlt
    rw [if_neg hmasked, hitem] at hcons
    rw [next, if_pos hlt, if_neg hmasked, remaining, hcons, hitem]
    exact ⟨rfl, rfl, h.content, h.mask, hlt⟩
  | case3 a hlt =>
    have hnil : a.remaining = [] := items_of_le (Nat.not_lt.mp hlt)
    rw [next, if_neg hlt]
    exact ⟨by rw [hnil]; rfl, by rw [hnil]; rfl, h⟩

/-- What `next` gives as long as it gives something. -/
def drain (a : Args) : Nat → List Item
  | 0 => []
  | fuel + 1 =>
    match a.next with
    | (some item, a') => item :: a'.drain fuel
    | (none, _) => []

/-- An iterator gives what is left, and then nothing. -/
theorem drain_eq (h : a.Valid) {fuel : Nat} (hfuel : a.remaining.length ≤ fuel) :
    a.drain fuel = a.remaining := by
  induction fuel generalizing a with
  | zero => exact (List.eq_nil_of_length_eq_zero (Nat.le_zero.mp hfuel)).symm
  | succ fuel ih =>
    obtain ⟨hhead, htail, hvalid⟩ := next_eq h
    rw [drain]
    generalize hnext : a.next = r at hhead htail hvalid ⊢
    obtain ⟨item, a'⟩ := r
    dsimp only at hhead htail hvalid ⊢
    cases hremaining : a.remaining with
    | nil =>
      rw [hremaining] at hhead
      rw [hhead]
      rfl
    | cons first rest =>
      rw [hremaining] at hhead htail hfuel
      rw [hhead]
      have hfuel' : a'.remaining.length ≤ fuel := by
        rw [htail]
        exact Nat.le_of_succ_le_succ hfuel
      show first :: a'.drain fuel = _
      rw [ih hvalid hfuel', htail]
      rfl

theorem count_items (h : a.Valid) {n lo : Nat} (hlo : lo + n = a.content.len) :
    (a.items lo a.content.len).length + (a.mask.drop lo).count true = n := by
  induction n generalizing lo with
  | zero =>
    have hdrop : a.mask.drop lo = [] := by
      obtain hm | hm := h.mask
      · rw [hm, List.drop_nil]
      · exact List.drop_eq_nil_of_le (by omega)
    rw [items_of_le (by omega), hdrop]
    rfl
  | succ n ih =>
    have hlt : lo < a.content.len := by omega
    have ih := ih (by omega : lo + 1 + n = a.content.len)
    obtain ⟨item, hitem⟩ := h.content.get_lt hlt
    rw [items_cons a hlt, List.length_append, hitem]
    obtain hm | hm := h.mask
    · have hmasked : a.masked lo = false := by
        rw [masked, hm]
        rfl
      rw [hm, List.drop_nil] at ih ⊢
      rw [hmasked, if_neg Bool.false_ne_true, Option.toList_some, List.length_singleton]
      omega
    · have hmasked : a.masked lo = a.mask[lo] := by
        rw [masked, List.getD_eq_getElem?_getD, List.getElem?_eq_getElem (by omega), Option.getD_some]
      rw [List.drop_eq_getElem_cons (by omega), List.count_cons, ← hmasked]
      cases a.masked lo with
      | false =>
        rw [if_neg Bool.false_ne_true, Option.toList_some, List.length_singleton, if_neg (by decide)]
        omega
      | true =>
        rw [if_pos rfl, List.length_nil, if_pos (by decide)]
        omega

/-- `size_hint` is the number of arguments that are left. -/
theorem sizeHint_eq (h : a.Valid) : a.sizeHint = a.remaining.length := by
  have hindex := h.index
  have hcount := count_items h (Nat.add_sub_cancel' hindex)
  rw [sizeHint, remaining]
  omega

/-! #### Prepending -/

/-- The position before the index holds a positional argument, if it was not free. -/
def Prependable (a : Args) : Prop :=
  ∀ item, a.content.get (a.index - 1) a.headroom = some item → item.1 = none

/-- `prependSelf` puts a positional argument in front of those that are left. -/
theorem remaining_prependSelf (h : a.Valid) (hp : a.Prependable) {a' : Args}
    (hprepend : a.prependSelf value = some a') :
    a'.remaining = (none, value) :: a.remaining ∧ a'.Valid := by
  rw [prependSelf] at hprepend
  split at hprepend
  · rename_i hindex
    obtain rfl := Option.some.inj hprepend
    have hle := h.index
    obtain ⟨item, hitem⟩ := h.content.get_lt (by omega : a.index - 1 < a.content.len)
    have hget := ArgContent.get_write value hitem
    rw [hp item hitem] at hget
    have hmasked : ∀ j, (a.mask.set (a.index - 1) false).getD j false =
        if j = a.index - 1 then false else a.masked j := by
      intro j
      rw [masked, List.getD_eq_getElem?_getD, List.getD_eq_getElem?_getD, List.getElem?_set]
      by_cases hj : a.index - 1 = j
      · rw [if_pos hj, if_pos hj.symm]
        split <;> rfl
      · rw [if_neg hj, if_neg (Ne.symm hj)]
    generalize ha' : { a with
      index := a.index - 1
      content := a.content.write (a.index - 1) value
      mask := a.mask.set (a.index - 1) false : Args } = a'
    have hlen : a'.content.len = a.content.len := by
      rw [← ha']
      exact ArgContent.len_write ..
    have hindex' : a'.index = a.index - 1 := by rw [← ha']
    have hrest : a'.items a.index a.content.len = a.remaining := by
      rw [← ha']
      exact items_congr (fun j hj _ => (hmasked j).trans (if_neg (by omega)))
        fun j hj _ => ArgContent.get_write_ne (by omega)
    have hfirst : a'.masked (a.index - 1) = false := by
      rw [← ha']
      exact (hmasked _).trans (if_pos rfl)
    have hvalue : a'.content.get (a.index - 1) a'.headroom = some (none, value) := by
      rw [← ha']
      exact hget
    refine ⟨?_, ?_, ?_, ?_⟩
    · rw [remaining, hlen, hindex', items_cons a' (by omega), hfirst, hvalue,
        Nat.sub_add_cancel hindex, hrest]
      rfl
    · rw [← ha']
      exact h.content.write ..
    · rw [hlen, ← ha', List.length_set]
      exact h.mask.imp_left fun hm => by rw [hm]; rfl
    · rw [hlen, hindex']
      exact Nat.le_trans (Nat.sub_le ..) hle
  · cases hprepend

end Args

end Dolang.Runtime
