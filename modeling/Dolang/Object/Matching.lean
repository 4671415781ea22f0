import Dolang.Object.DictUnpack
import Dolang.Object.Lookup

/-!
# What an unpacking matches

In a dictionary whose keys compare lawfully, what `unpack_matched` does is told by the instances of
keys: it takes the first instances of the integer keys up to the end of the run
(`Dict.runLength`), and of the key of each key item the instance that its skip table tells
(`Dict.keySlots`).
-/

namespace Dolang.Object

variable {V E : Type}

/-- What a pair of a dictionary fills a slot with. -/
def filled (x : Place × Row V) : Filled V where
  place := some x.1
  value := x.2.value

namespace Dict

variable {d : Dict V} {P : Probing (Entry V) E Entry.hash} {els : Elements V E} {K : V → Prop}
  {key : V}

/-- The lookup of an instance of a key. -/
theorem Lawful.get_eq (h : d.Lawful els K) (hels : els.Lawful K) (hkey : K key) (i : ℕ) :
    d.get P els key i = .ok ((d.instances els key)[i]?.map fun x => (x.1, x.2.value)) := by
  rw [get, h.place_eq hels hkey, h.wellFormed.placesOf_eq els key, List.getElem?_map]
  cases hx : (d.instances els key)[i]? with
  | none => rfl
  | some x =>
    have hmem := (List.mem_filter.mp (List.mem_of_getElem? hx)).1
    change Except.ok ((row d.table x.1).map _) = _
    rw [row_of_mem_listing hmem]
    rfl

/-! ## The run of integer keys -/

/-- The first pair with an integer key. -/
def firstOf (els : Elements V E) (d : Dict V) (i : ℕ) : Option (Place × Row V) :=
  (d.instances els (els.ofInt i))[0]?

/-- The number of integer keys from 0 on without a gap. -/
def runLength (els : Elements V E) (d : Dict V) : ℕ :=
  (List.range (d.places.length + 1)).findIdx fun i => (d.firstOf els i).isNone

/-- Below the end of the run there are integer keys. -/
theorem exists_firstOf {i : ℕ} (hi : i < d.runLength els) : ∃ x, d.firstOf els i = some x := by
  have hsome := List.not_of_lt_findIdx hi
  rw [List.getElem_range] at hsome
  exact Option.isSome_iff_exists.mp (by simpa using hsome)

/-- A pair with an integer key. -/
theorem mem_of_firstOf {i : ℕ} {x : Place × Row V} (h : d.firstOf els i = some x) :
    x ∈ d.listing ∧ els.same (els.ofInt i) x.2.key = true :=
  List.mem_filter.mp (List.mem_of_getElem? h)

/-- The integer that the first pair with an integer key has. -/
theorem Lawful.asInt_firstOf (h : d.Lawful els K) (hels : els.Lawful K) {i : ℕ}
    (hi : (i : ℤ) ≤ i64Max) {x : Place × Row V} (hx : d.firstOf els i = some x) :
    els.asInt x.2.key = some (i : ℤ) := by
  obtain ⟨hmem, hsame⟩ := mem_of_firstOf hx
  obtain ⟨hK, hint⟩ := hels.ofInt (Int.natCast_nonneg i) hi
  rw [← hels.asInt_eq hK (h.key_of_mem hmem) hsame, hint]

/-- The run ends, for each of its integer keys has a pair of its own. -/
theorem Lawful.runLength_le (h : d.Lawful els K) (hels : els.Lawful K)
    (hsmall : (d.places.length : ℤ) ≤ i64Max) : d.runLength els ≤ d.places.length := by
  by_contra hlt
  have hall : ∀ i ∈ List.range (d.places.length + 1), ∃ x, d.firstOf els i = some x :=
    fun i hi => exists_firstOf (by have hi := List.mem_range.mp hi; omega)
  have hnodup : ((List.range (d.places.length + 1)).map (d.firstOf els)).Nodup := by
    refine (List.nodup_map_iff_inj_on List.nodup_range).mpr fun i hi j hj hij => ?_
    obtain ⟨x, hx⟩ := hall i hi
    rw [List.mem_range] at hi hj
    have hxi := h.asInt_firstOf hels (by omega) hx
    have hxj := h.asInt_firstOf hels (by omega) (hij ▸ hx)
    exact Int.ofNat.inj (Option.some.inj (hxi.symm.trans hxj))
  have hsub : (List.range (d.places.length + 1)).map (d.firstOf els) ⊆ d.listing.map some := by
    intro y hy
    obtain ⟨i, hi, rfl⟩ := List.mem_map.mp hy
    obtain ⟨x, hx⟩ := hall i hi
    rw [hx]
    exact List.mem_map_of_mem (mem_of_firstOf hx).1
  have hle := (List.subperm_of_subset hnodup hsub).length_le
  have hlen : d.listing.length = d.places.length := by
    rw [← h.wellFormed.listing_fst, List.length_map]
  rw [List.length_map, List.length_range, List.length_map, hlen] at hle
  omega

/-- At the end of the run there is no integer key. -/
theorem Lawful.firstOf_runLength (h : d.Lawful els K) (hels : els.Lawful K)
    (hsmall : (d.places.length : ℤ) ≤ i64Max) : d.firstOf els (d.runLength els) = none := by
  have hlt : d.runLength els < (List.range (d.places.length + 1)).length := by
    rw [List.length_range]
    exact Nat.lt_succ_of_le (h.runLength_le hels hsmall)
  have hnone : (d.firstOf els (List.range (d.places.length + 1))[d.runLength els]).isNone :=
    List.findIdx_getElem (w := hlt)
  rw [List.getElem_range] at hnone
  exact Option.isNone_iff_eq_none.mp hnone

/-- The lookup of an integer key. -/
theorem Lawful.getInt_eq (h : d.Lawful els K) (hels : els.Lawful K) {i : ℕ}
    (hi : (i : ℤ) ≤ i64Max) :
    d.getInt P els i = .ok ((d.firstOf els i).map fun x => (x.1, x.2.value)) :=
  h.get_eq hels (hels.ofInt (Int.natCast_nonneg i) hi).1 0

/-- The first pairs of a part of the run. -/
def firsts (els : Elements V E) (d : Dict V) (i n : ℕ) : List (Place × Row V) :=
  (List.range' i n).filterMap (d.firstOf els)

theorem firsts_succ {i n : ℕ} {x : Place × Row V} (hx : d.firstOf els i = some x) :
    d.firsts els i (n + 1) = x :: d.firsts els (i + 1) n := by
  rw [firsts, List.range'_succ, List.filterMap_cons_some hx]
  rfl

theorem length_firsts {i n : ℕ} (hn : i + n ≤ d.runLength els) : (d.firsts els i n).length = n := by
  induction n generalizing i with
  | zero => rfl
  | succ n ih =>
    have hi : i < d.runLength els := by omega
    obtain ⟨x, hx⟩ := exists_firstOf hi
    rw [firsts_succ hx, List.length_cons, ih (by omega)]

section Run

variable (h : d.Lawful els K) (hels : els.Lawful K) (hsmall : (d.places.length : ℤ) ≤ i64Max)

include h hels hsmall

/-- The positional slots take the run, as far as it goes. -/
theorem Lawful.takePositional_eq {a taken : ℕ} (n : ℕ) (ha : a + taken ≤ d.runLength els) :
    d.takePositional P els a n taken = .ok
      ((d.firsts els (a + taken) (min n (d.runLength els - (a + taken)))).map filled) := by
  have hle := h.runLength_le hels hsmall
  induction n generalizing taken with
  | zero =>
    rw [Nat.zero_min]
    rfl
  | succ n ih =>
    have hoffset : offset els (a : ℤ) taken = .ok ((a + taken : ℕ) : ℤ) := by
      rw [offset, if_pos (by omega)]
      norm_cast
    rw [takePositional, hoffset]
    change (raising (d.getInt P els ((a + taken : ℕ) : ℤ)) >>= _) = _
    rw [h.getInt_eq hels (by omega)]
    rcases Nat.lt_or_eq_of_le ha with hlt | heq
    · obtain ⟨x, hx⟩ := exists_firstOf hlt
      have hmin : min (n + 1) (d.runLength els - (a + taken)) =
          min n (d.runLength els - (a + (taken + 1))) + 1 := by omega
      rw [hx, hmin, firsts_succ hx, List.map_cons, Nat.add_assoc]
      change (d.takePositional P els a n (taken + 1) >>= _) = _
      rw [ih (by omega)]
      rfl
    · rw [heq, h.firstOf_runLength hels hsmall, Nat.sub_self, Nat.min_zero]
      rfl

/-- The end of the run is found. -/
theorem Lawful.runEnd_eq {i : ℕ} (hi : i ≤ d.runLength els) {left : ℕ}
    (hleft : (left : ℤ) = i64Max - i) :
    d.runEnd P els left i = .ok (d.runLength els : ℤ) := by
  have hle := h.runLength_le hels hsmall
  induction left generalizing i with
  | zero =>
    obtain rfl : i = d.runLength els := by omega
    rw [runEnd, h.getInt_eq hels (by omega), h.firstOf_runLength hels hsmall]
    rfl
  | succ left ih =>
    rw [runEnd, h.getInt_eq hels (by omega)]
    rcases Nat.lt_or_eq_of_le hi with hlt | rfl
    · obtain ⟨x, hx⟩ := exists_firstOf hlt
      rw [hx]
      exact ih (i := i + 1) (by omega) (by omega)
    · rw [h.firstOf_runLength hels hsmall]
      rfl

end Run

end Dict

/-! ## Skip tables -/

namespace Skip

variable {els : Elements V E} {K : V → Prop} {skip : Skip V} {value : V}

/-- How many instances of a key a skip table counts. -/
def tally (els : Elements V E) : Skip V → V → ℕ
  | [], _ => 0
  | seen :: skip, key => if els.same key seen.value then seen.count else tally els skip key

/-- The keys of a skip table compare lawfully. -/
def Lawful (els : Elements V E) (K : V → Prop) (skip : Skip V) : Prop :=
  ∀ seen ∈ skip, K seen.value ∧ els.hash seen.value = .ok seen.hash

/-- Equal keys have the same count. -/
theorem Lawful.tally_congr (h : Lawful els K skip) (hels : els.Lawful K) {a b : V} (ha : K a)
    (hb : K b) (hab : els.same a b = true) : skip.tally els a = skip.tally els b := by
  induction skip with
  | nil => rfl
  | cons seen skip ih =>
    obtain ⟨hseen, -⟩ := h seen List.mem_cons_self
    have hiff : els.same a seen.value = els.same b seen.value := by
      rw [Bool.eq_iff_iff]
      exact ⟨hels.trans hb ha hseen (hels.symm ha hb hab), hels.trans ha hb hseen hab⟩
    rw [tally, tally, hiff, ih fun s hs => h s (List.mem_cons_of_mem _ hs)]

/-- One more instance of a key. -/
def bump (els : Elements V E) (c : V → ℕ) (value key : V) : ℕ :=
  c key + if els.same key value then 1 else 0

/-- An instance is counted for the keys that are equal. -/
theorem Lawful.add (h : Lawful els K skip) (hels : els.Lawful K) (hvalue : K value) {hv : Hash}
    (hhash : els.hash value = .ok hv) :
    ∃ skip', Skip.add els skip value hv = .ok (skip.tally els value, skip') ∧ Lawful els K skip' ∧
      ∀ key, K key → skip'.tally els key = bump els (skip.tally els) value key := by
  induction skip with
  | nil =>
    refine ⟨_, rfl, fun seen hseen => ?_, fun key _ => ?_⟩
    · obtain rfl := List.mem_singleton.mp hseen
      exact ⟨hvalue, hhash⟩
    · simp [tally, bump]
  | cons seen skip ih =>
    obtain ⟨hKseen, hseen⟩ := h seen List.mem_cons_self
    have htail : Lawful els K skip := fun s hs => h s (List.mem_cons_of_mem _ hs)
    cases hsame : els.same value seen.value with
    | true =>
      have hhv : seen.hash = hv := by
        have hsymm := hels.hash_eq hvalue hKseen hsame
        rw [hhash, hseen] at hsymm
        exact (Except.ok.inj hsymm).symm
      refine ⟨{ seen with count := seen.count + 1 } :: skip, ?_, fun s hs => ?_, fun key hkey => ?_⟩
      · rw [Skip.add, if_pos hhv, hels.total hvalue hKseen, hsame, tally, if_pos hsame]
      · obtain rfl | hs := List.mem_cons.mp hs
        · exact ⟨hKseen, hseen⟩
        · exact htail s hs
      · have hiff : els.same key seen.value = els.same key value := by
          rw [Bool.eq_iff_iff]
          exact ⟨fun hk => hels.trans hkey hKseen hvalue hk (hels.symm hvalue hKseen hsame),
            fun hk => hels.trans hkey hvalue hKseen hk hsame⟩
        rw [tally, bump, tally, hiff]
        split_ifs <;> rfl
    | false =>
      obtain ⟨skip', hadd, hlawful, htally⟩ := ih htail
      refine ⟨seen :: skip', ?_, fun s hs => ?_, fun key hkey => ?_⟩
      · rw [Skip.add, tally, hsame, if_neg Bool.false_ne_true, hadd, hels.total hvalue hKseen, hsame]
        split_ifs <;> rfl
      · obtain rfl | hs := List.mem_cons.mp hs
        · exact ⟨hKseen, hseen⟩
        · exact hlawful s hs
      · rw [tally, bump, tally]
        split_ifs with hk hkv hkv
        · have htrue := hels.trans hvalue hkey hKseen (hels.symm hkey hvalue hkv) hk
          rw [hsame] at htrue
          cases htrue
        · rfl
        · rw [htally key hkey, bump, if_pos hkv]
        · rw [htally key hkey, bump, if_neg hkv]

end Skip

namespace Dict

variable {d : Dict V} {P : Probing (Entry V) E Entry.hash} {els : Elements V E} {K : V → Prop}
  {skip : Skip V}

/-! ## Key items -/

/-- What fills the slot of a key item when a number of instances of its key have been consumed. -/
def keySlot (els : Elements V E) (d : Dict V) (item : KeyItem V) (seen : ℕ) :
    Option (Filled V) :=
  if (seen : ℤ) ≤ i64Max then
    ((d.instances els (item.kind.key els))[seen]?.map filled).or
      (item.default.map fun value => { place := none, value })
  else none

/-- What fills the key slots when `c` tells how many instances of a key have been consumed. -/
def keySlots (els : Elements V E) (d : Dict V) : (V → ℕ) → List (KeyItem V) →
    Option (List (Filled V))
  | _, [] => some []
  | c, item :: items =>
    (d.keySlot els item (c (item.kind.key els))).bind fun slot =>
      (keySlots els d (Skip.bump els c (item.kind.key els)) items).map (slot :: ·)

/-- How many key items ask for a key. -/
def named (els : Elements V E) (items : List (KeyItem V)) (key : V) : ℕ :=
  items.countP fun item => els.same key (item.kind.key els)

theorem named_cons (item : KeyItem V) (items : List (KeyItem V)) (c : V → ℕ) (key : V) :
    c key + named els (item :: items) key =
      Skip.bump els c (item.kind.key els) key + named els items key := by
  rw [named, List.countP_cons, Skip.bump, named]
  omega

/-- A key item is looked up from the instance that the skip table says. -/
theorem Lawful.takeKey_step (hels : els.Lawful K) {item : KeyItem V} (hitem : K (item.kind.key els))
    (hskip : skip.Lawful els K) : ∃ skip', skip'.Lawful els K ∧
      (∀ key, K key →
        skip'.tally els key = Skip.bump els (skip.tally els) (item.kind.key els) key) ∧
      d.takeKey P els item skip = (raising
        (if ((skip.tally els (item.kind.key els) : ℕ) : ℤ) ≤ i64Max then
          d.get P els (item.kind.key els) (skip.tally els (item.kind.key els))
        else .error els.overflow) >>= fun found =>
          match found, item.default with
          | some x, _ => return ({ place := some x.1, value := x.2 }, skip')
          | none, some value => return ({ place := none, value }, skip')
          | none, none => .error (.missingKey item.kind)) := by
  obtain ⟨hv, hhash⟩ := hels.hash hitem
  obtain ⟨skip', hadd, hskip', htally⟩ := hskip.add hels hitem hhash
  refine ⟨skip', hskip', htally, ?_⟩
  rw [takeKey, hhash]
  change (raising (skip.add els (item.kind.key els) hv) >>= _) = _
  rw [hadd]
  rfl

/-- The slot of a key item whose key compares lawfully. -/
theorem Lawful.takeKey_eq (h : d.Lawful els K) (hels : els.Lawful K) {item : KeyItem V}
    (hitem : K (item.kind.key els)) (hskip : skip.Lawful els K) :
    (d.keySlot els item (skip.tally els (item.kind.key els)) = none ∧
        ∃ e, d.takeKey P els item skip = .error e) ∨
      ∃ slot skip', d.keySlot els item (skip.tally els (item.kind.key els)) = some slot ∧
        d.takeKey P els item skip = .ok (slot, skip') ∧ skip'.Lawful els K ∧
        ∀ key, K key →
          skip'.tally els key = Skip.bump els (skip.tally els) (item.kind.key els) key := by
  obtain ⟨skip', hskip', htally, hstep⟩ := Lawful.takeKey_step (P := P) (d := d) hels hitem hskip
  rw [hstep, keySlot, h.get_eq hels hitem]
  split_ifs with hle
  · cases (d.instances els (item.kind.key els))[skip.tally els (item.kind.key els)]? with
    | some x => exact .inr ⟨_, skip', rfl, rfl, hskip', htally⟩
    | none =>
      cases item.default with
      | some value => exact .inr ⟨_, skip', rfl, rfl, hskip', htally⟩
      | none => exact .inl ⟨rfl, _, rfl⟩
  · exact .inl ⟨rfl, _, rfl⟩

/-- Only what the counts say of the keys of the items matters. -/
theorem keySlots_congr {items : List (KeyItem V)} (hitems : ∀ item ∈ items, K (item.kind.key els))
    {c c' : V → ℕ} (hc : ∀ key, K key → c key = c' key) :
    d.keySlots els c items = d.keySlots els c' items := by
  induction items generalizing c c' with
  | nil => rfl
  | cons item items ih =>
    have hbump : ∀ key, K key → Skip.bump els c (item.kind.key els) key =
        Skip.bump els c' (item.kind.key els) key := by
      intro key hkey
      rw [Skip.bump, Skip.bump, hc key hkey]
    rw [keySlots, keySlots, hc _ (hitems item List.mem_cons_self),
      ih (fun i hi => hitems i (List.mem_cons_of_mem _ hi)) hbump]

/-- The key slots, where the keys of the items compare lawfully. -/
theorem Lawful.takeKeys_eq (h : d.Lawful els K) (hels : els.Lawful K) {items : List (KeyItem V)}
    (hitems : ∀ item ∈ items, K (item.kind.key els)) (hskip : skip.Lawful els K) :
    (d.keySlots els (skip.tally els) items = none ∧ ∃ e, d.takeKeys P els items skip = .error e) ∨
      ∃ slots skip', d.keySlots els (skip.tally els) items = some slots ∧
        d.takeKeys P els items skip = .ok (slots, skip') ∧ skip'.Lawful els K ∧
        ∀ key, K key → skip'.tally els key = skip.tally els key + named els items key := by
  induction items generalizing skip with
  | nil => exact .inr ⟨[], skip, rfl, rfl, hskip, fun _ _ => rfl⟩
  | cons item items ih =>
    have hKitem := hitems item List.mem_cons_self
    have htail : ∀ i ∈ items, K (i.kind.key els) := fun i hi => hitems i (List.mem_cons_of_mem _ hi)
    rw [keySlots, takeKeys]
    obtain ⟨hnone, e, herror⟩ | ⟨slot, skip', hslot, hok, hskip', htally⟩ :=
      h.takeKey_eq (P := P) hels hKitem hskip
    · rw [hnone, herror]
      exact .inl ⟨rfl, e, rfl⟩
    · rw [hslot, hok, Option.bind_some,
        ← keySlots_congr (c := skip'.tally els) htail htally]
      change _ ∧ (∃ e, (d.takeKeys P els items skip' >>= _) = _) ∨ ∃ slots skip'', _ ∧
        (d.takeKeys P els items skip' >>= _) = _ ∧ _
      obtain ⟨hnone, e, herror⟩ | ⟨slots, skip'', hslots, hok', hskip'', htally'⟩ := ih htail hskip'
      · rw [hnone, herror]
        exact .inl ⟨rfl, e, rfl⟩
      · rw [hslots, hok']
        refine .inr ⟨slot :: slots, skip'', rfl, rfl, hskip'', fun key hkey => ?_⟩
        rw [htally' key hkey, htally key hkey, named_cons]

/-! ## Leftovers -/

/-- An entry has as many values as its key has instances. -/
theorem Lawful.len_eq (h : d.Lawful els K) (hels : els.Lawful K) {b : Bucket} {e : Entry V}
    (he : d.table.read b = some e) : e.value.len = (d.instances els e.key).length := by
  have hplaces := h.placesOf_of_read hels (h.keys he).1 he (hels.refl (h.keys he).1)
  rw [h.wellFormed.placesOf_eq] at hplaces
  rw [← List.length_map Prod.fst, hplaces, List.length_map, List.length_range]

/-- Whether a pair is one that an unpacking leaves behind: it is not the first instance of an
integer key that was consumed positionally, and `c` does not count all instances of its key. -/
def Left (els : Elements V E) (d : Dict V) (c : V → ℕ) (limit : ℤ) (x : Place × Row V) : Prop :=
  ¬(positional els x.2.key limit = true ∧ x.1.2 = 0) ∧ c x.2.key < (d.instances els x.2.key).length

/-- The walk of `leftover_key` finds a pair that is left. -/
theorem Lawful.leftoverWalk_eq (h : d.Lawful els K) (hels : els.Lawful K) (limit : ℤ)
    {slots : List (Option Place)} (hslots : ∀ p, some p ∈ slots → p ∈ d.places)
    (hskip : skip.Lawful els K) :
    (leftoverWalk els d limit slots skip = .ok none ∧
        ∀ x ∈ d.listing, some x.1 ∈ slots → ¬Left els d (skip.tally els) limit x) ∨
      ∃ key x, leftoverWalk els d limit slots skip = .ok (some key) ∧ x ∈ d.listing ∧
        Left els d (skip.tally els) limit x := by
  induction slots generalizing skip with
  | nil => exact .inl ⟨rfl, fun x _ hx => absurd hx List.not_mem_nil⟩
  | cons slot slots ih =>
    have htail : ∀ p, some p ∈ slots → p ∈ d.places :=
      fun p hp => hslots p (List.mem_cons_of_mem _ hp)
    cases slot with
    | none =>
      obtain ⟨hnone, hall⟩ | hsome := ih htail hskip
      · refine .inl ⟨hnone, fun x hx hmem => hall x hx ?_⟩
        simpa using hmem
      · exact .inr hsome
    | some p =>
      obtain ⟨e, he, -⟩ := h.wellFormed.mem_places.mp (hslots p List.mem_cons_self)
      obtain ⟨r, hr⟩ := h.wellFormed.live p (List.reduceOption_mem_iff.mp (hslots p List.mem_cons_self))
      have hmem : (p, r) ∈ d.listing :=
        List.mem_filterMap.mpr ⟨p, hslots p List.mem_cons_self, by rw [hr]; rfl⟩
      obtain ⟨e', he', hkey, -⟩ := entry_of_row hr
      obtain rfl := Option.some.inj (he.symm.trans he')
      obtain ⟨hKe, hhe⟩ := h.keys he
      -- A pair at this place is this pair.
      have hthis : ∀ x ∈ d.listing, x.1 = p → x = (p, r) := by
        intro x hx hxp
        have hrow := row_of_mem_listing hx
        rw [hxp, hr] at hrow
        exact Prod.ext hxp (Option.some.inj hrow).symm
      rw [leftoverWalk, he]
      dsimp only
      by_cases hpos : (positional els e.key limit && p.2 == 0) = true
      · rw [if_pos hpos]
        have hdone : ¬Left els d (skip.tally els) limit (p, r) := by
          refine fun hleft => hleft.1 ?_
          rw [← hkey]
          simpa using hpos
        obtain ⟨hnone, hall⟩ | hsome := ih htail hskip
        · refine .inl ⟨hnone, fun x hx hxmem => ?_⟩
          obtain hxp | hxmem := List.mem_cons.mp hxmem
          · rwa [hthis x hx (Option.some.inj hxp)]
          · exact hall x hx hxmem
        · exact .inr hsome
      · rw [if_neg hpos]
        obtain ⟨skip', hadd, hskip', htally⟩ := hskip.add hels hKe hhe
        rw [hadd]
        change ((if e.value.len ≤ skip.tally els e.key then leftoverWalk els d limit slots skip' else
          pure (some e.key)) = _ ∧ _) ∨ ∃ key x, (if e.value.len ≤ skip.tally els e.key then
          leftoverWalk els d limit slots skip' else pure (some e.key)) = _ ∧ _
        rw [h.len_eq hels he]
        split_ifs with hle
        · -- One more instance of a key that has no pair left changes nothing.
          have hsame : ∀ x ∈ d.listing, Left els d (skip'.tally els) limit x ↔
              Left els d (skip.tally els) limit x := by
            intro x hx
            have hKx := h.key_of_mem hx
            rw [Left, Left, htally _ hKx, Skip.bump]
            split_ifs with hxe
            · rw [hskip.tally_congr hels hKx hKe hxe, h.instances_congr hels hKx hKe hxe]
              omega
            · rw [Nat.add_zero]
          have hdone : ¬Left els d (skip.tally els) limit (p, r) := by
            rintro ⟨-, hlt⟩
            rw [← hkey] at hlt
            omega
          obtain ⟨hnone, hall⟩ | ⟨key, x, hkeyx, hx, hleft⟩ := ih htail hskip'
          · refine .inl ⟨hnone, fun x hx hxmem => ?_⟩
            obtain hxp | hxmem := List.mem_cons.mp hxmem
            · rwa [hthis x hx (Option.some.inj hxp)]
            · exact fun hleft => hall x hx hxmem ((hsame x hx).mpr hleft)
          · exact .inr ⟨key, x, hkeyx, hx, (hsame x hx).mp hleft⟩
        · refine .inr ⟨e.key, (p, r), rfl, hmem, fun hfirst => hpos ?_, ?_⟩
          · rw [← hkey] at hfirst
            simpa using hfirst
          · rw [← hkey]
            omega

/-- `leftover_key` finds a pair that is left, if there is one. -/
theorem Lawful.leftoverKey_eq (h : d.Lawful els K) (hels : els.Lawful K) (limit : ℤ)
    (hskip : skip.Lawful els K) :
    (d.leftoverKey els limit skip = .ok none ∧
        ∀ x ∈ d.listing, ¬Left els d (skip.tally els) limit x) ∨
      (∃ key, d.leftoverKey els limit skip = .ok (some key)) ∧
        ∃ x ∈ d.listing, Left els d (skip.tally els) limit x := by
  obtain ⟨hnone, hall⟩ | ⟨key, x, hsome, hx, hleft⟩ :=
    h.leftoverWalk_eq hels limit (fun p hp => List.reduceOption_mem_iff.mpr hp) hskip
  · refine .inl ⟨hnone, fun x hx => hall x hx ?_⟩
    obtain ⟨p, hp, hpx⟩ := List.mem_filterMap.mp hx
    obtain ⟨r, -, rfl⟩ := Option.map_eq_some_iff.mp hpx
    exact List.reduceOption_mem_iff.mp hp
  · exact .inr ⟨⟨key, hsome⟩, x, hx, hleft⟩

/-! ## The whole -/

/-- How many positional slots are filled when the next integer key is `next`. -/
def taken (els : Elements V E) (d : Dict V) (sig : Sig V) (next : Option ℕ) : ℕ :=
  next.elim 0 fun a => min sig.posCount (d.runLength els - a)

/-- What fills the positional slots. -/
def posSlots (els : Elements V E) (d : Dict V) (sig : Sig V) (next : Option ℕ) :
    List (Filled V) :=
  (next.elim [] fun a => (d.firsts els a (d.taken els sig next)).map filled) ++
    (sig.optional.drop (d.taken els sig next - sig.required)).map fun value =>
      { place := none, value }

/-- How far a matching gets. -/
def matched (els : Elements V E) (d : Dict V) (sig : Sig V) (next : Option ℕ) (floor : ℤ) :
    Matched where
  start := next.map fun a => ((a + d.taken els sig next : ℕ) : ℤ)
  stop := next.map fun _ => (d.runLength els : ℤ)
  floor := floor

/-- What makes the check for leftovers fail. -/
def LeavesOver (els : Elements V E) (d : Dict V) (sig : Sig V) (m : Matched) (c : V → ℕ) : Prop :=
  (sig.posRest = .none ∧ sig.keyRest = .none ∧ m.start ≠ m.stop) ∨
    ∃ floor, leftoverFloor sig m = some floor ∧ ∃ x ∈ d.listing, Left els d c floor x

theorem Lawful.checkLeftover_eq (h : d.Lawful els K) (hels : els.Lawful K) (sig : Sig V)
    (m : Matched) (hskip : skip.Lawful els K) :
    (LeavesOver els d sig m (skip.tally els) ∧ ∃ e, d.checkLeftover els sig m skip = .error e) ∨
      ¬LeavesOver els d sig m (skip.tally els) ∧ d.checkLeftover els sig m skip = .ok () := by
  unfold checkLeftover LeavesOver
  by_cases hrun : sig.posRest = .none ∧ sig.keyRest = .none ∧ m.start ≠ m.stop
  · rw [if_pos hrun]
    exact .inl ⟨.inl hrun, _, rfl⟩
  · rw [if_neg hrun]
    cases hfloor : leftoverFloor sig m with
    | none => exact .inr ⟨by simp [hrun], rfl⟩
    | some floor =>
      obtain ⟨hnone, hall⟩ | ⟨⟨key, hsome⟩, hleft⟩ := h.leftoverKey_eq hels floor hskip
      · refine .inr ⟨?_, by simp only [hnone]⟩
        rintro (hrun' | ⟨floor', hfloor', x, hx, hleft⟩)
        · exact hrun hrun'
        · obtain rfl := Option.some.inj hfloor'
          exact hall x hx hleft
      · exact .inl ⟨.inr ⟨floor, rfl, hleft⟩, _, by simp only [hsome]; rfl⟩

/-- What makes a matching fail. -/
def Refuses (els : Elements V E) (d : Dict V) (sig : Sig V) (next : Option ℕ) (floor : ℤ)
    (c : V → ℕ) : Prop :=
  d.taken els sig next < sig.required ∨ d.keySlots els c sig.keys = none ∨
    LeavesOver els d sig (d.matched els sig next floor) fun key => c key + named els sig.keys key

section Matched

variable (h : d.Lawful els K) (hels : els.Lawful K) (hsmall : (d.places.length : ℤ) ≤ i64Max)

include h hels hsmall

theorem Lawful.fillPositional_eq (sig : Sig V) {next : Option ℕ}
    (hnext : ∀ a ∈ next, a ≤ d.runLength els) :
    d.fillPositional P els sig (next.map Nat.cast) =
      if d.taken els sig next < sig.required then
        .error (.missingPositional (d.taken els sig next))
      else .ok (d.posSlots els sig next, d.taken els sig next) := by
  have hslots : d.takeRun P els sig (next.map Nat.cast) =
      .ok (next.elim [] fun a => (d.firsts els a (d.taken els sig next)).map filled) := by
    cases next with
    | none => rfl
    | some a => exact h.takePositional_eq hels hsmall sig.posCount (hnext a rfl)
  have hlen : (next.elim [] fun a => (d.firsts els a (d.taken els sig next)).map filled).length =
      d.taken els sig next := by
    cases next with
    | none => rfl
    | some a =>
      have ha := hnext a rfl
      rw [Option.elim_some, List.length_map, length_firsts]
      rw [taken, Option.elim_some]
      omega
  unfold fillPositional
  rw [hslots]
  change (if List.length _ < _ then _ else _) = _
  rw [hlen]
  rfl

theorem Lawful.runFrom_eq (sig : Sig V) {next : Option ℕ}
    (hnext : ∀ a ∈ next, a ≤ d.runLength els) :
    d.runFrom P els (next.map Nat.cast) (d.taken els sig next) = (.ok (next.map fun a =>
      (((a + d.taken els sig next : ℕ) : ℤ), (d.runLength els : ℤ))) : Except (Refusal V E) _) := by
  cases next with
  | none => rfl
  | some a =>
    have ha := hnext a rfl
    have hle := h.runLength_le hels hsmall
    have hstart : a + d.taken els sig (some a) ≤ d.runLength els := by
      rw [taken, Option.elim_some]
      omega
    have hoffset : offset els (a : ℤ) (d.taken els sig (some a)) =
        .ok ((a + d.taken els sig (some a) : ℕ) : ℤ) := by
      rw [offset, if_pos (by omega)]
      norm_cast
    rw [Option.map_some, runFrom, hoffset]
    change (raising (d.runEnd P els _ ((a + d.taken els sig (some a) : ℕ) : ℤ)) >>= _) = _
    rw [h.runEnd_eq hels hsmall hstart (by omega)]
    rfl

/-- What `unpack_matched` does. -/
theorem Lawful.unpackMatched_eq {sig : Sig V} (hsig : ∀ item ∈ sig.keys, K (item.kind.key els))
    {next : Option ℕ} (hnext : ∀ a ∈ next, a ≤ d.runLength els) (floor : ℤ)
    (hskip : skip.Lawful els K) :
    (Refuses els d sig next floor (skip.tally els) ∧
        ∃ e, d.unpackMatched P els sig (next.map Nat.cast) floor skip = .error e) ∨
      ¬Refuses els d sig next floor (skip.tally els) ∧ ∃ keys skip',
        d.keySlots els (skip.tally els) sig.keys = some keys ∧
        d.unpackMatched P els sig (next.map Nat.cast) floor skip =
          .ok (d.posSlots els sig next ++ keys, d.matched els sig next floor, skip') ∧
        skip'.Lawful els K ∧
        ∀ key, K key → skip'.tally els key = skip.tally els key + named els sig.keys key := by
  unfold unpackMatched Refuses
  rw [h.fillPositional_eq hels hsmall sig hnext]
  split_ifs with htaken
  · exact .inl ⟨.inl htaken, _, rfl⟩
  · change _ ∧ (∃ e, (d.runFrom P els _ (d.taken els sig next) >>= _) = _) ∨ _ ∧ ∃ keys skip', _ ∧
      (d.runFrom P els _ (d.taken els sig next) >>= _) = _ ∧ _
    rw [h.runFrom_eq hels hsmall sig hnext]
    change _ ∧ (∃ e, (d.takeKeys P els sig.keys skip >>= _) = _) ∨ _ ∧ ∃ keys skip', _ ∧
      (d.takeKeys P els sig.keys skip >>= _) = _ ∧ _
    obtain ⟨hnone, e, herror⟩ | ⟨keys, skip', hkeys, hok, hskip', htally⟩ :=
      h.takeKeys_eq (P := P) hels hsig hskip
    · rw [herror]
      exact .inl ⟨.inr (.inl hnone), e, rfl⟩
    · have hleft : LeavesOver els d sig (d.matched els sig next floor) (skip'.tally els) ↔
          LeavesOver els d sig (d.matched els sig next floor) fun key =>
            skip.tally els key + named els sig.keys key := by
        unfold LeavesOver
        refine or_congr_right (exists_congr fun floor => and_congr_right fun _ =>
          exists_congr fun x => and_congr_right fun hx => ?_)
        rw [Left, Left, htally _ (h.key_of_mem hx)]
      rw [hok]
      change _ ∧ (∃ e, (d.checkLeftover els sig ⟨_, _, floor⟩ skip' >>= _) = _) ∨ _ ∧
        ∃ keys skip'', _ ∧ (d.checkLeftover els sig ⟨_, _, floor⟩ skip' >>= _) = _ ∧ _
      rw [Option.map_map, Option.map_map]
      change _ ∧ (∃ e, (d.checkLeftover els sig (d.matched els sig next floor) skip' >>= _) = _) ∨
        _ ∧ ∃ keys skip'', _ ∧
          (d.checkLeftover els sig (d.matched els sig next floor) skip' >>= _) = _ ∧ _
      obtain ⟨hover, e, herror⟩ | ⟨hnot, hok'⟩ :=
        h.checkLeftover_eq hels sig (d.matched els sig next floor) hskip'
      · rw [herror]
        exact .inl ⟨.inr (.inr (hleft.mp hover)), e, rfl⟩
      · rw [hok']
        refine .inr ⟨?_, keys, skip', hkeys, rfl, hskip', htally⟩
        rintro (htaken' | hnone | hover)
        · exact htaken htaken'
        · rw [hkeys] at hnone
          cases hnone
        · exact hnot (hleft.mpr hover)

end Matched

end Dict

end Dolang.Object
