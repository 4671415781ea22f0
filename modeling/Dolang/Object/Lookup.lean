import Dolang.Object.Unpack

/-!
# Where the pairs of a key are

In a dictionary whose keys compare lawfully, the lookup of an instance of a key finds the place that
has this number among the pairs with the key, in the order of the index (`Dict.Lawful.place_eq`).
-/

namespace Dolang.Object

open Holes

variable {V E : Type}

/-- Whether two elements are equal. -/
def Elements.same (els : Elements V E) (a b : V) : Bool :=
  match els.eq a b with
  | .ok same => same
  | .error _ => false

/-- Elements of a kind `K` compare lawfully, and the integers of 64 bits are among them. -/
structure Elements.Lawful (els : Elements V E) (K : V → Prop) : Prop where
  total : ∀ {a b}, K a → K b → els.eq a b = .ok (els.same a b)
  refl : ∀ {a}, K a → els.same a a = true
  symm : ∀ {a b}, K a → K b → els.same a b = true → els.same b a = true
  trans : ∀ {a b c}, K a → K b → K c → els.same a b = true → els.same b c = true →
    els.same a c = true
  hash : ∀ {a}, K a → ∃ hv, els.hash a = .ok hv
  hash_eq : ∀ {a b}, K a → K b → els.same a b = true → els.hash a = els.hash b
  asInt_eq : ∀ {a b}, K a → K b → els.same a b = true → els.asInt a = els.asInt b
  ofInt : ∀ {i}, 0 ≤ i → i ≤ i64Max → K (els.ofInt i) ∧ els.asInt (els.ofInt i) = some i
  asInt_same : ∀ {a b i}, K a → K b → els.asInt a = some i → els.asInt b = some i →
    els.same a b = true

namespace Dict

/-- A dictionary whose keys are distinct and compare lawfully. -/
structure Lawful (els : Elements V E) (K : V → Prop) (d : Dict V) : Prop
    extends Valid els.eq d where
  keys : ∀ {b e}, d.table.read b = some e → K e.key ∧ els.hash e.key = .ok e.hash

/-- The key at a place. -/
def keyAt (d : Dict V) (p : Place) : Option V :=
  (d.table.read p.1).map Entry.key

/-- The places of the pairs, in the order of the index. -/
abbrev places (d : Dict V) : List Place :=
  d.index.reduceOption

/-- The places of the pairs with a key. -/
def placesOf (els : Elements V E) (d : Dict V) (key : V) : List Place :=
  d.places.filter fun p => (d.keyAt p).any (els.same key)

/-- A place comes before another one in the index. -/
def Before (t : RawTable (Entry V)) (p q : Place) : Prop :=
  ∃ v w i j, item t p = some (v, i) ∧ item t q = some (w, j) ∧ i < j

theorem Before.not_symm {t : RawTable (Entry V)} {p q : Place} (h : Before t p q) :
    ¬Before t q p := by
  obtain ⟨v, w, i, j, hp, hq, hij⟩ := h
  rintro ⟨w', v', j', i', hq', hp', hji⟩
  obtain ⟨-, rfl⟩ := Prod.mk.inj (Option.some.inj (hp.symm.trans hp'))
  obtain ⟨-, rfl⟩ := Prod.mk.inj (Option.some.inj (hq.symm.trans hq'))
  omega

variable {d : Dict V}

/-- The places are in the order of their slots. -/
theorem WellFormed.before (h : d.WellFormed) : d.places.Pairwise (Before d.table) := by
  refine List.pairwise_iff_getElem.mpr fun i j hi hj hij => ?_
  obtain ⟨i', hi', hranki⟩ := exists_of_getElem?_reduceOption (List.getElem?_eq_getElem hi)
  obtain ⟨j', hj', hrankj⟩ := exists_of_getElem?_reduceOption (List.getElem?_eq_getElem hj)
  obtain ⟨v, hv⟩ := (h.slot i' _).mp hi'
  obtain ⟨w, hw⟩ := (h.slot j' _).mp hj'
  refine ⟨v, w, i', j', hv, hw, Nat.lt_of_not_le fun hle => ?_⟩
  have hrank := rank_mono (l := d.index) hle
  omega

/-- A place is in the index when there is a pair. -/
theorem WellFormed.mem_places (h : d.WellFormed) {p : Place} :
    p ∈ d.places ↔ ∃ e, d.table.read p.1 = some e ∧ p.2 < e.value.len := by
  simp only [EntryValue.len_eq]
  constructor
  · intro hp
    obtain ⟨k, hk⟩ := List.mem_iff_getElem?.mp hp
    obtain ⟨i, hi, -⟩ := exists_of_getElem?_reduceOption hk
    obtain ⟨e, v, he, hx⟩ := h.item_of_slot hi
    exact ⟨e, he, (List.getElem?_eq_some_iff.mp hx).1⟩
  · rintro ⟨e, he, hlt⟩
    exact List.mem_of_getElem?
      (getElem?_reduceOption (h.slot_of_item he (List.getElem?_eq_getElem hlt)))

/-- The places in a bucket, in the order of the index. -/
theorem WellFormed.places_bucket (h : d.WellFormed) {b : Bucket} {e : Entry V}
    (he : d.table.read b = some e) :
    (d.places.filter fun p => p.1 = b) = (List.range e.value.len).map (b, ·) := by
  have hperm : (d.places.filter fun p => p.1 = b).Perm ((List.range e.value.len).map (b, ·)) := by
    refine (List.perm_ext_iff_of_nodup (h.nodup.filter _) ?_).mpr fun p => ?_
    · exact List.nodup_range.map fun i j hij => congrArg Prod.snd hij
    · rw [List.mem_filter, h.mem_places, List.mem_map]
      constructor
      · rintro ⟨⟨e', he', hlt⟩, hb⟩
        obtain rfl := of_decide_eq_true hb
        obtain rfl := Option.some.inj (he.symm.trans he')
        exact ⟨p.2, List.mem_range.mpr hlt, rfl⟩
      · rintro ⟨i, hi, rfl⟩
        exact ⟨⟨e, he, List.mem_range.mp hi⟩, decide_eq_true rfl⟩
  refine hperm.eq_of_pairwise (fun p q _ _ hpq hqp => absurd hqp hpq.not_symm)
    (h.before.filter _) ?_
  refine List.pairwise_map.mpr (List.pairwise_iff_getElem.mpr fun i j hi hj hij => ?_)
  have hsorted := h.sorted b e he
  rw [List.length_range, EntryValue.len_eq] at hi hj
  rw [List.getElem_range, List.getElem_range]
  refine ⟨(e.value.items[i]).1, (e.value.items[j]).1, (e.value.items[i]).2, (e.value.items[j]).2,
    item_eq_some.mpr ⟨e, he, List.getElem?_eq_getElem hi⟩,
    item_eq_some.mpr ⟨e, he, List.getElem?_eq_getElem hj⟩, ?_⟩
  have hlt := List.pairwise_iff_getElem.mp hsorted i j (by simpa using hi) (by simpa using hj) hij
  simpa using hlt

section Lawful

variable {P : Probing (Entry V) E Entry.hash} {els : Elements V E} {K : V → Prop} {key : V}

/-- Whether an element is equal to the key at a place. -/
theorem keyAt_of_read {b : Bucket} {e : Entry V} (he : d.table.read b = some e) (i : ℕ) :
    d.keyAt (b, i) = some e.key := by
  rw [keyAt, he, Option.map_some]

/-- Two entries with keys that are equal to one key are the same. -/
theorem Lawful.bucket_unique (h : d.Lawful els K) (hels : els.Lawful K) (hkey : K key)
    {b c : Bucket} {e f : Entry V} (hb : d.table.read b = some e) (hc : d.table.read c = some f)
    (he : els.same key e.key = true) (hf : els.same key f.key = true) : b = c := by
  obtain ⟨hKe, hhe⟩ := h.keys hb
  obtain ⟨hKf, hhf⟩ := h.keys hc
  have hef : els.same e.key f.key = true :=
    hels.trans hKe hkey hKf (hels.symm hkey hKe he) hf
  have hhash := hels.hash_eq hKe hKf hef
  rw [hhe, hhf] at hhash
  refine h.distinct b c (e.hash, e.key) (f.hash, f.key) (keyed_eq_some.mpr ⟨e, hb, rfl⟩)
    (keyed_eq_some.mpr ⟨f, hc, rfl⟩) (Except.ok.inj hhash) ?_
  rw [hels.total hKe hKf, hef]

/-- The places of a key that an entry has are those in its bucket. -/
theorem Lawful.placesOf_of_read (h : d.Lawful els K) (hels : els.Lawful K) (hkey : K key)
    {b : Bucket} {e : Entry V} (hb : d.table.read b = some e) (he : els.same key e.key = true) :
    d.placesOf els key = (List.range e.value.len).map (b, ·) := by
  rw [← h.wellFormed.places_bucket hb]
  refine List.filter_congr fun p hp => ?_
  obtain ⟨f, hf, -⟩ := h.wellFormed.mem_places.mp hp
  rw [keyAt, hf, Option.map_some, Option.any_some, Bool.eq_iff_iff, decide_eq_true_iff]
  constructor
  · exact fun hsame => h.bucket_unique hels hkey hf hb hsame he
  · intro hpb
    rw [hpb, hb] at hf
    rwa [← Option.some.inj hf]

/-- A key that no entry has has no places. -/
theorem Lawful.placesOf_of_absent (h : d.Lawful els K)
    (hnone : ∀ b e, d.table.read b = some e → els.same key e.key = false) :
    d.placesOf els key = [] := by
  refine List.filter_eq_nil_iff.mpr fun p hp => ?_
  obtain ⟨e, he, -⟩ := h.wellFormed.mem_places.mp hp
  rw [keyAt, he, Option.map_some, Option.any_some, hnone _ _ he]
  exact Bool.false_ne_true

/-- The lookup of a key finds its entry. -/
theorem Lawful.find_eq (h : d.Lawful els K) (hels : els.Lawful K) (hkey : K key) {hv : Hash}
    (hhash : els.hash key = .ok hv) :
    (d.find P els.eq hv key = .ok none ∧
        ∀ b e, d.table.read b = some e → els.same key e.key = false) ∨
      ∃ b e, d.find P els.eq hv key = .ok (some b) ∧ d.table.read b = some e ∧
        els.same key e.key = true := by
  cases hf : d.find P els.eq hv key with
  | error x =>
    obtain ⟨b, e, he, heq⟩ := P.raised hf
    rw [hels.total hkey (h.keys he).1] at heq
    cases heq
  | ok found =>
    cases found with
    | none =>
      refine .inl ⟨rfl, fun b e he => Bool.eq_false_iff.mpr fun hsame => ?_⟩
      obtain ⟨hKe, hhe⟩ := h.keys he
      have hhash' := hels.hash_eq hkey hKe hsame
      rw [hhash, hhe] at hhash'
      have hfalse := P.absent hf b e he (Except.ok.inj hhash').symm
      rw [hels.total hkey hKe, hsame] at hfalse
      cases hfalse
    | some b =>
      obtain ⟨e, he, heq⟩ := P.found hf
      rw [hels.total hkey (h.keys he).1] at heq
      exact .inr ⟨b, e, rfl, he, Except.ok.inj heq⟩

/-- The lookup of an instance of a key finds the place with that number. -/
theorem Lawful.place_eq (h : d.Lawful els K) (hels : els.Lawful K) (hkey : K key) (i : ℕ) :
    d.place P els key i = .ok (d.placesOf els key)[i]? := by
  obtain ⟨hv, hhash⟩ := hels.hash hkey
  unfold place
  obtain ⟨hf, hnone⟩ | ⟨b, e, hf, hb, he⟩ := h.find_eq (P := P) hels hkey hhash
  · rw [hhash, h.placesOf_of_absent hnone]
    change (d.find P els.eq hv key >>= _) = _
    rw [hf]
    rfl
  · rw [hhash, h.placesOf_of_read hels hkey hb he]
    change (d.find P els.eq hv key >>= _) = _
    rw [hf]
    change Except.ok ((d.table.read b).bind _) = _
    rw [hb, Option.bind_some, List.getElem?_map]
    split_ifs with hlt
    · rw [List.getElem?_range hlt]
      rfl
    · rw [List.getElem?_eq_none (by simpa using hlt)]
      rfl

end Lawful

/-! ## Pairs with their places -/

/-- The pairs with their places, in the order of the index. -/
def listing (d : Dict V) : List (Place × Row V) :=
  d.places.filterMap fun p => (row d.table p).map (p, ·)

/-- The pairs with a key, with their places. -/
def instances (els : Elements V E) (d : Dict V) (key : V) : List (Place × Row V) :=
  d.listing.filter fun x => els.same key x.2.key

theorem rows_eq_listing (d : Dict V) : d.rows = d.listing.map Prod.snd := by
  rw [rows, listing, List.map_filterMap]
  refine List.filterMap_congr fun p _ => ?_
  rw [Option.map_map]
  exact Option.map_id'.symm

/-- A pair of the listing is at its place. -/
theorem row_of_mem_listing {x : Place × Row V} (hx : x ∈ d.listing) :
    row d.table x.1 = some x.2 := by
  obtain ⟨p, -, hp⟩ := List.mem_filterMap.mp hx
  obtain ⟨r, hr, rfl⟩ := Option.map_eq_some_iff.mp hp
  exact hr

/-- In a well-formed dictionary there is a pair at each place. -/
theorem WellFormed.listing_fst (h : d.WellFormed) : d.listing.map Prod.fst = d.places := by
  rw [listing, List.map_filterMap]
  refine (List.filterMap_congr fun p hp => ?_).trans List.filterMap_some
  obtain ⟨x, hx⟩ := h.live p (List.reduceOption_mem_iff.mp hp)
  rw [hx]
  rfl

theorem WellFormed.nodup_listing (h : d.WellFormed) : d.listing.Nodup :=
  .of_map Prod.fst (h.listing_fst ▸ h.nodup)

/-- The entry of a pair. -/
theorem entry_of_row {p : Place} {x : Row V} (h : row d.table p = some x) :
    ∃ e, d.table.read p.1 = some e ∧ e.key = x.key ∧ e.hash = x.hash ∧ p.2 < e.value.len := by
  obtain ⟨e, he, hx⟩ := Option.bind_eq_some_iff.mp h
  rw [EntryValue.get_some, Option.map_map, Option.map_eq_some_iff] at hx
  obtain ⟨y, hy, rfl⟩ := hx
  exact ⟨e, he, rfl, rfl, EntryValue.len_eq e.value ▸ (List.getElem?_eq_some_iff.mp hy).1⟩

theorem WellFormed.placesOf_eq (h : d.WellFormed) (els : Elements V E) (key : V) :
    d.placesOf els key = (d.instances els key).map Prod.fst := by
  rw [placesOf, ← h.listing_fst, List.filter_map]
  refine congrArg _ (List.filter_congr fun x hx => ?_)
  obtain ⟨e, he, hkey, -⟩ := entry_of_row (row_of_mem_listing hx)
  rw [Function.comp_apply, keyAt, he, Option.map_some, Option.any_some, hkey]

/-- The keys of the pairs compare lawfully. -/
theorem Lawful.key_of_mem {els : Elements V E} {K : V → Prop} (h : d.Lawful els K)
    {x : Place × Row V} (hx : x ∈ d.listing) : K x.2.key := by
  obtain ⟨e, he, hkey, -⟩ := entry_of_row (row_of_mem_listing hx)
  exact hkey ▸ (h.keys he).1

/-- Equal keys have the same pairs. -/
theorem Lawful.instances_congr {els : Elements V E} {K : V → Prop} (h : d.Lawful els K)
    (hels : els.Lawful K) {a b : V} (ha : K a) (hb : K b) (hab : els.same a b = true) :
    d.instances els a = d.instances els b := by
  refine List.filter_congr fun x hx => ?_
  have hKx := h.key_of_mem hx
  rw [Bool.eq_iff_iff]
  exact ⟨hels.trans hb ha hKx (hels.symm ha hb hab), hels.trans ha hb hKx hab⟩

end Dict

end Dolang.Object
