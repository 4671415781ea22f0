import Dolang.Object.DictView
import Dolang.Object.Matching

/-!
# Pairs that are allotted to slots

What the slots of an unpacking get when each asks for a key and gets the first pair with the key
that no slot before it got (`allot`). A view does this with a mask, which is told by the number of
pairs that have been consumed of each key (`maskOf`).
-/

namespace Dolang.Object

variable {V E : Type}

/-- The values of a key, in the order of the pairs. -/
def valuesOf (els : Elements V E) (pairs : List (V × V)) (key : V) : List V :=
  (pairs.filter fun p => els.same key p.1).map Prod.snd

/-- How many slots ask for a key. -/
def asked (els : Elements V E) (wants : List (V × Option V)) (key : V) : ℕ :=
  wants.countP fun w => els.same key w.1

/-- What slots get, each of which asks for a key and has perhaps a default, when `c` tells how many
pairs have been consumed of each key. -/
def allot (els : Elements V E) (pairs : List (V × V)) :
    (V → ℕ) → List (V × Option V) → Option (List V)
  | _, [] => some []
  | c, w :: wants =>
    ((valuesOf els pairs w.1)[c w.1]?.or w.2).bind fun value =>
      (allot els pairs (Skip.bump els c w.1) wants).map (value :: ·)

namespace DictView

/-- One pair of a key less. -/
def spend (els : Elements V E) (c : V → ℕ) (key a : V) : ℕ :=
  c a - if els.same a key then 1 else 0

/-- The mask in which the first `c key` pairs of each key have been consumed. -/
def maskOf (els : Elements V E) : (V → ℕ) → List (V × V) → List Bool
  | _, [] => []
  | c, p :: pairs => decide (0 < c p.1) :: maskOf els (spend els c p.1) pairs

/-- One more pair of the keys in a class. -/
def bumpAll (q : V → Bool) (c : V → ℕ) (a : V) : ℕ :=
  c a + if q a then 1 else 0

/-- The place of the first pair of a class that has not been consumed. -/
def firstFree (q : V → Bool) (pairs : List (V × V)) (consumed : List Bool) : Option ℕ :=
  (pairs.zip consumed).findIdx? fun p => !p.2 && q p.1.1

/-- A class of equal keys. -/
def IsClass (els : Elements V E) (K : V → Prop) (q : V → Bool) : Prop :=
  ∀ a b, K a → K b → q b = true → (q a = true ↔ els.same a b = true)

variable {els : Elements V E} {K : V → Prop} {pairs : List (V × V)} {c c' : V → ℕ} {q : V → Bool}

@[simp]
theorem length_maskOf : (maskOf els c pairs).length = pairs.length := by
  induction pairs generalizing c with
  | nil => rfl
  | cons p pairs ih => rw [maskOf, List.length_cons, List.length_cons, ih]

/-- Only what is said of the keys of the pairs matters. -/
theorem maskOf_congr (hkeys : ∀ p ∈ pairs, K p.1) (h : ∀ a, K a → c a = c' a) :
    maskOf els c pairs = maskOf els c' pairs := by
  induction pairs generalizing c c' with
  | nil => rfl
  | cons p pairs ih =>
    rw [maskOf, maskOf, h p.1 (hkeys p List.mem_cons_self)]
    refine congrArg _ (ih (fun p' hp' => hkeys p' (List.mem_cons_of_mem _ hp')) fun a ha => ?_)
    rw [spend, spend, h a ha]

/-- At first nothing has been consumed. -/
theorem maskOf_zero : maskOf els (fun _ => 0) pairs = List.replicate pairs.length false := by
  induction pairs with
  | nil => rfl
  | cons p pairs ih =>
    have hspend : spend els (fun _ => 0) p.1 = fun _ => 0 := by
      funext a
      exact Nat.zero_sub _
    rw [maskOf, hspend, ih]
    rfl

theorem spend_bumpAll {key a : V} (h : els.same a key = true → q a = true → 0 < c a) :
    spend els (bumpAll q c) key a = bumpAll q (spend els c key) a := by
  simp only [spend, bumpAll]
  by_cases hsame : els.same a key = true
  · by_cases hq : q a = true
    · have hpos := h hsame hq
      rw [if_pos hsame, if_pos hq]
      omega
    · rw [if_neg hq, Nat.add_zero, Nat.add_zero]
  · rw [if_neg hsame, Nat.sub_zero, Nat.sub_zero]

/-- The first pair of a class that has not been consumed is the one after those that have, and the
mask counts it when it is marked. -/
theorem firstFree_maskOf (hels : els.Lawful K) (hkeys : ∀ p ∈ pairs, K p.1) (hq : IsClass els K q) {n : ℕ}
    (hn : ∀ a, K a → q a = true → c a = n) :
    (firstFree q pairs (maskOf els c pairs) = none ∧
        (pairs.filter fun p => q p.1)[n]? = none ∧
        maskOf els (bumpAll q c) pairs = maskOf els c pairs) ∨
      ∃ i p, firstFree q pairs (maskOf els c pairs) = some i ∧ pairs[i]? = some p ∧
        (pairs.filter fun p => q p.1)[n]? = some p ∧
        maskOf els (bumpAll q c) pairs = (maskOf els c pairs).set i true := by
  induction pairs generalizing c n with
  | nil => exact .inl ⟨rfl, rfl, rfl⟩
  | cons p pairs ih =>
    have hp := hkeys p List.mem_cons_self
    have htail : ∀ p' ∈ pairs, K p'.1 := fun p' hp' => hkeys p' (List.mem_cons_of_mem _ hp')
    have hsame : ∀ a, K a → q a = true → els.same a p.1 = true → q p.1 = true := by
      exact fun a ha hqa hsame => (hq p.1 a hp ha hqa).mpr (hels.symm ha hp hsame)
    unfold firstFree at ih ⊢
    rw [maskOf, maskOf, List.zip_cons_cons, List.findIdx?_cons, bumpAll]
    cases hqp : q p.1 with
    | false =>
      -- This pair is not of the class.
      have hcomm : maskOf els (spend els (bumpAll q c) p.1) pairs =
          maskOf els (bumpAll q (spend els c p.1)) pairs := by
        refine maskOf_congr htail fun a ha => spend_bumpAll fun hs hqa => ?_
        rw [hsame a ha hqa hs] at hqp
        cases hqp
      have hn' : ∀ a, K a → q a = true → spend els c p.1 a = n := by
        intro a ha hqa
        rw [spend, if_neg, Nat.sub_zero, hn a ha hqa]
        intro hs
        rw [hsame a ha hqa hs] at hqp
        cases hqp
      rw [hcomm, List.filter_cons_of_neg (by rw [hqp]; exact Bool.false_ne_true)]
      simp only [Bool.and_false, Bool.false_eq_true, if_false, Nat.add_zero]
      obtain ⟨hnone, hget, hmask⟩ | ⟨i, p', hsome, hi, hget, hmask⟩ := ih htail hn'
      · rw [hnone, hmask]
        exact .inl ⟨rfl, hget, rfl⟩
      · rw [hsome, hmask]
        exact .inr ⟨i + 1, p', rfl, hi, hget, rfl⟩
    | true =>
      have hcp := hn p.1 hp hqp
      rw [List.filter_cons_of_pos (by rw [hqp])]
      simp only [Bool.and_true, if_true]
      cases n with
      | zero =>
        -- It is the one.
        have hcomm : maskOf els (spend els (bumpAll q c) p.1) pairs =
            maskOf els (spend els c p.1) pairs := by
          refine maskOf_congr htail fun a ha => ?_
          unfold spend bumpAll
          have hiff := hq a p.1 ha hp hqp
          split_ifs with hqa hs hs
          · rw [hn a ha hqa]
          · exact absurd (hiff.mp hqa) hs
          · exact absurd (hiff.mpr hs) hqa
          · rfl
        rw [hcomm, hcp]
        exact .inr ⟨0, p, rfl, rfl, rfl, rfl⟩
      | succ n =>
        -- It has been consumed.
        have hcomm : maskOf els (spend els (bumpAll q c) p.1) pairs =
            maskOf els (bumpAll q (spend els c p.1)) pairs := by
          refine maskOf_congr htail fun a ha => spend_bumpAll fun _ hqa => ?_
          rw [hn a ha hqa]
          exact Nat.succ_pos n
        have hn' : ∀ a, K a → q a = true → spend els c p.1 a = n := by
          intro a ha hqa
          rw [spend, if_pos ((hq a p.1 ha hp hqp).mp hqa), hn a ha hqa, Nat.add_sub_cancel]
        rw [hcomm, hcp]
        simp only [Nat.succ_pos, decide_true, Bool.not_true, Bool.false_eq_true, if_false]
        obtain ⟨hnone, hget, hmask⟩ | ⟨i, p', hsome, hi, hget, hmask⟩ := ih htail hn'
        · rw [hnone, hmask]
          exact .inl ⟨rfl, hget, rfl⟩
        · rw [hsome, hmask]
          exact .inr ⟨i + 1, p', rfl, hi, hget, rfl⟩

/-- `find_pair` finds the first pair with the key that has not been consumed. -/
theorem findPair_eq (hels : els.Lawful K) (hkeys : ∀ p ∈ pairs, K p.1) {key : V} (hkey : K key)
    {consumed : List Bool} (hlen : consumed.length = pairs.length) :
    findPair els pairs consumed key =
      .ok ((firstFree (els.same · key) pairs consumed).bind fun i =>
        pairs[i]?.map fun p => (i, p.2)) := by
  unfold firstFree
  induction pairs generalizing consumed with
  | nil =>
    cases consumed with
    | nil => rfl
    | cons mark consumed => cases hlen
  | cons p pairs ih =>
    cases consumed with
    | nil => cases hlen
    | cons mark consumed =>
      have htail := ih (fun p' hp' => hkeys p' (List.mem_cons_of_mem _ hp')) (Nat.succ.inj hlen)
      have hnext : ∀ o : Option ℕ, ((o.bind fun i => pairs[i]?.map fun p' => (i, p'.2)).map
          fun r => (r.1 + 1, r.2)) =
          (o.map (· + 1)).bind fun i => (p :: pairs)[i]?.map fun p' => (i, p'.2) := by
        intro o
        cases o with
        | none => rfl
        | some i =>
          rw [Option.bind_some, Option.map_some, Option.bind_some, Option.map_map,
            List.getElem?_cons_succ]
          rfl
      rw [findPair, List.zip_cons_cons, List.findIdx?_cons]
      cases mark with
      | true =>
        rw [if_pos rfl, htail]
        exact congrArg Except.ok (hnext _)
      | false =>
        rw [if_neg Bool.false_ne_true, hels.total (hkeys p List.mem_cons_self) hkey]
        cases hs : els.same p.1 key with
        | true =>
          rw [if_pos (by simp [hs])]
          rfl
        | false =>
          rw [if_neg (by simp [hs])]
          dsimp only
          rw [htail]
          exact congrArg Except.ok (hnext _)

/-- The values of a key are those of the pairs in its class. -/
theorem valuesOf_eq (hels : els.Lawful K) (hkeys : ∀ p ∈ pairs, K p.1) {key : V} (hkey : K key) :
    valuesOf els pairs key = (pairs.filter fun p => els.same p.1 key).map Prod.snd := by
  refine congrArg _ (List.filter_congr fun p hp => ?_)
  rw [Bool.eq_iff_iff]
  exact ⟨hels.symm hkey (hkeys p hp), hels.symm (hkeys p hp) hkey⟩

theorem isClass_same (hels : els.Lawful K) {key : V} (hkey : K key) :
    IsClass els K (els.same · key) := by
  intro a b ha hb hbk
  exact ⟨fun hak => hels.trans ha hkey hb hak (hels.symm hb hkey hbk),
    fun hab => hels.trans ha hb hkey hab hbk⟩

/-- Counts that are the same for equal keys. -/
def Respects (els : Elements V E) (K : V → Prop) (c : V → ℕ) : Prop :=
  ∀ a b, K a → K b → els.same a b = true → c a = c b

theorem Respects.bump (hels : els.Lawful K) (h : Respects els K c) {key : V} (hkey : K key) :
    Respects els K (Skip.bump els c key) := by
  intro a b ha hb hab
  have hiff : els.same a key = els.same b key := by
    rw [Bool.eq_iff_iff]
    exact ⟨hels.trans hb ha hkey (hels.symm ha hb hab), hels.trans ha hb hkey hab⟩
  rw [Skip.bump, Skip.bump, h a b ha hb hab, hiff]

/-- What a slot asks for, without what is wrong when it is missing. -/
def Wanted.ask (w : Wanted V E) : V × Option V :=
  (w.key, w.default)

theorem asked_cons (w : V × Option V) (wants : List (V × Option V)) (c : V → ℕ) (key : V) :
    c key + asked els (w :: wants) key = Skip.bump els c w.1 key + asked els wants key := by
  rw [asked, List.countP_cons, Skip.bump, asked]
  omega

/-- The slots get what is allotted to them. -/
theorem fill_eq (hels : els.Lawful K) (hkeys : ∀ p ∈ pairs, K p.1) {wants : List (Wanted V E)}
    (hwants : ∀ w ∈ wants, K w.key) (hc : Respects els K c) :
    (allot els pairs c (wants.map Wanted.ask) = none ∧
        ∃ e, fill els pairs wants (maskOf els c pairs) = .error e) ∨
      ∃ values, allot els pairs c (wants.map Wanted.ask) = some values ∧
        fill els pairs wants (maskOf els c pairs) =
          .ok (values, maskOf els (fun k => c k + asked els (wants.map Wanted.ask) k) pairs) := by
  induction wants generalizing c with
  | nil => exact .inr ⟨[], rfl, rfl⟩
  | cons w wants ih =>
    have hw := hwants w List.mem_cons_self
    have hmask : maskOf els (fun k => c k + asked els ((w :: wants).map Wanted.ask) k) pairs =
        maskOf els (fun k => Skip.bump els c w.key k + asked els (wants.map Wanted.ask) k)
          pairs := by
      refine maskOf_congr (K := K) hkeys fun a _ => ?_
      rw [List.map_cons, asked_cons]
      rfl
    have htail := ih (fun w' hw' => hwants w' (List.mem_cons_of_mem _ hw')) (hc.bump hels hw)
    -- When this slot is filled, the others are.
    have hgo : ∀ value : V,
        allot els pairs c ((w :: wants).map Wanted.ask) =
          (allot els pairs (Skip.bump els c w.key) (wants.map Wanted.ask)).map (value :: ·) →
        fill els pairs (w :: wants) (maskOf els c pairs) =
          (fill els pairs wants (maskOf els (Skip.bump els c w.key) pairs)).map
            (fun r => (value :: r.1, r.2)) →
        (allot els pairs c ((w :: wants).map Wanted.ask) = none ∧
          ∃ e, fill els pairs (w :: wants) (maskOf els c pairs) = .error e) ∨
        ∃ values, allot els pairs c ((w :: wants).map Wanted.ask) = some values ∧
          fill els pairs (w :: wants) (maskOf els c pairs) = .ok (values,
            maskOf els (fun k => c k + asked els ((w :: wants).map Wanted.ask) k) pairs) := by
      intro value hallot hfill
      rw [hallot, hfill, hmask]
      obtain ⟨hnone, e, herror⟩ | ⟨values, hsome, hok⟩ := htail
      · rw [hnone, herror]
        exact .inl ⟨rfl, e, rfl⟩
      · rw [hsome, hok]
        exact .inr ⟨value :: values, rfl, rfl⟩
    obtain ⟨hnone, hget, hsat⟩ | ⟨i, p, hsome, hi, hget, hset⟩ :=
      firstFree_maskOf hels hkeys (isClass_same hels hw) fun a ha hsame => hc a w.key ha hw hsame
    · have hvalue : (valuesOf els pairs w.key)[c w.key]? = none := by
        rw [valuesOf_eq hels hkeys hw, List.getElem?_map, hget]
        rfl
      have hfind : findPair els pairs (maskOf els c pairs) w.key = .ok none := by
        rw [findPair_eq hels hkeys hw length_maskOf, hnone]
        rfl
      cases hdefault : w.default with
      | none =>
        refine .inl ⟨?_, w.missing, ?_⟩
        · rw [List.map_cons, allot]
          change ((valuesOf els pairs w.key)[c w.key]?.or w.default).bind _ = none
          rw [hvalue, hdefault]
          rfl
        · rw [fill, hfind]
          dsimp only
          rw [hdefault]
      | some value =>
        refine hgo value ?_ ?_
        · rw [List.map_cons, allot]
          change ((valuesOf els pairs w.key)[c w.key]?.or w.default).bind _ = _
          rw [hvalue, hdefault]
          rfl
        · rw [fill, hfind]
          dsimp only
          rw [hdefault, ← hsat]
          rfl
    · have hvalue : (valuesOf els pairs w.key)[c w.key]? = some p.2 := by
        rw [valuesOf_eq hels hkeys hw, List.getElem?_map, hget]
        rfl
      have hfind : findPair els pairs (maskOf els c pairs) w.key = .ok (some (i, p.2)) := by
        rw [findPair_eq hels hkeys hw length_maskOf, hsome, Option.bind_some, hi]
        rfl
      refine hgo p.2 ?_ ?_
      · rw [List.map_cons, allot]
        change ((valuesOf els pairs w.key)[c w.key]?.or w.default).bind _ = _
        rw [hvalue]
        rfl
      · rw [fill, hfind]
        dsimp only
        rw [← hset]
        rfl

/-! ## Leftovers -/

/-- Only what is said of the class matters for its first pair that has not been consumed. -/
theorem firstFree_congr (hels : els.Lawful K) (hkeys : ∀ p ∈ pairs, K p.1) (hq : IsClass els K q)
    {n : ℕ} (hn : ∀ a, K a → q a = true → c a = n) (hn' : ∀ a, K a → q a = true → c' a = n) :
    firstFree q pairs (maskOf els c pairs) = firstFree q pairs (maskOf els c' pairs) := by
  unfold firstFree
  induction pairs generalizing c c' n with
  | nil => rfl
  | cons p pairs ih =>
    have hp := hkeys p List.mem_cons_self
    have hspend : ∀ c : V → ℕ, (∀ a, K a → q a = true → c a = n) → ∀ a, K a → q a = true →
        spend els c p.1 a = n - if q p.1 then 1 else 0 := by
      intro c hc a ha hqa
      have hiff := hq p.1 a hp ha hqa
      have hsame : els.same a p.1 = q p.1 := by
        rw [Bool.eq_iff_iff, hiff]
        exact ⟨hels.symm ha hp, hels.symm hp ha⟩
      rw [spend, hc a ha hqa, hsame]
    rw [maskOf, maskOf, List.zip_cons_cons, List.zip_cons_cons, List.findIdx?_cons,
      List.findIdx?_cons, ih (fun p' hp' => hkeys p' (List.mem_cons_of_mem _ hp')) (hspend c hn)
        (hspend c' hn')]
    cases hqp : q p.1 with
    | true => rw [hn p.1 hp hqp, hn' p.1 hp hqp]
    | false => simp

/-- The keys that are one integer. -/
theorem isClass_asInt (hels : els.Lawful K) (i : ℤ) :
    IsClass els K fun a => decide (els.asInt a = some i) := by
  intro a b ha hb hbi
  have hbi := of_decide_eq_true hbi
  rw [decide_eq_true_iff]
  exact ⟨fun hai => hels.asInt_same ha hb hai hbi, fun hab => (hels.asInt_eq ha hb hab).trans hbi⟩

/-- A class has a pair that has not been consumed when one of its keys does. -/
theorem firstFree_isSome_iff (hels : els.Lawful K) (hkeys : ∀ p ∈ pairs, K p.1)
    (hq : IsClass els K q) (hc : Respects els K c) :
    (firstFree q pairs (maskOf els c pairs)).isSome = true ↔
      ∃ p ∈ pairs, q p.1 = true ∧ c p.1 < (valuesOf els pairs p.1).length := by
  by_cases hany : ∃ p ∈ pairs, q p.1 = true
  · obtain ⟨p, hp, hqp⟩ := hany
    have hKp := hkeys p hp
    have hcq : ∀ a, K a → q a = true → c a = c p.1 := fun a ha hqa =>
      hc a p.1 ha hKp ((hq a p.1 ha hKp hqp).mp hqa)
    have hfilter : ∀ p' ∈ pairs, q p'.1 = true →
        (valuesOf els pairs p'.1).length = (pairs.filter fun x => q x.1).length := by
      intro p' hp' hqp'
      rw [valuesOf, List.length_map]
      refine congrArg _ (List.filter_congr fun x hx => ?_)
      rw [Bool.eq_iff_iff, hq x.1 p'.1 (hkeys x hx) (hkeys p' hp') hqp']
      exact ⟨hels.symm (hkeys p' hp') (hkeys x hx), hels.symm (hkeys x hx) (hkeys p' hp')⟩
    obtain ⟨hnone, hget, -⟩ | ⟨i, p', hsome, hi, hget, -⟩ := firstFree_maskOf hels hkeys hq hcq
    · rw [hnone]
      refine ⟨fun h => absurd h Bool.false_ne_true, fun ⟨p', hp', hqp', hlt⟩ => ?_⟩
      rw [hfilter p' hp' hqp', hcq p'.1 (hkeys p' hp') hqp'] at hlt
      exact absurd hlt (Nat.not_lt.mpr (List.getElem?_eq_none_iff.mp hget))
    · rw [hsome]
      refine ⟨fun _ => ⟨p, hp, hqp, ?_⟩, fun _ => rfl⟩
      rw [hfilter p hp hqp]
      exact (List.getElem?_eq_some_iff.mp hget).1
  · have hnone : firstFree q pairs (maskOf els c pairs) = none := by
      rw [firstFree, List.findIdx?_eq_none_iff]
      rintro ⟨p, mark⟩ hx
      have hp := (List.of_mem_zip hx).1
      have hqp : q p.1 = false := Bool.eq_false_iff.mpr fun hqp => hany ⟨p, hp, hqp⟩
      simp [hqp]
    rw [hnone]
    exact ⟨fun h => absurd h Bool.false_ne_true, fun ⟨p, hp, hqp, _⟩ => absurd ⟨p, hp, hqp⟩ hany⟩

/-- A pair has not been consumed when its key still has one. -/
theorem exists_unmarked_iff (hels : els.Lawful K) (hkeys : ∀ p ∈ pairs, K p.1)
    (hc : Respects els K c) :
    ((pairs.zip (maskOf els c pairs)).find? fun p => !p.2).isSome = true ↔
      ∃ p ∈ pairs, c p.1 < (valuesOf els pairs p.1).length := by
  rw [List.find?_isSome]
  constructor
  · rintro ⟨⟨p, mark⟩, hx, hmark⟩
    have hp := (List.of_mem_zip hx).1
    have hKp := hkeys p hp
    have hsome : (firstFree (els.same · p.1) pairs (maskOf els c pairs)).isSome = true := by
      rw [firstFree, List.findIdx?_isSome, List.any_eq_true]
      exact ⟨(p, mark), hx, by simp only [hmark, hels.refl hKp, Bool.and_self]⟩
    obtain ⟨p', hp', hsame, hlt⟩ :=
      (firstFree_isSome_iff hels hkeys (isClass_same hels hKp) hc).mp hsome
    exact ⟨p', hp', hlt⟩
  · rintro ⟨p, hp, hlt⟩
    have hKp := hkeys p hp
    have hsome := (firstFree_isSome_iff hels hkeys (isClass_same hels hKp) hc).mpr
      ⟨p, hp, hels.refl hKp, hlt⟩
    rw [firstFree, List.findIdx?_isSome, List.any_eq_true] at hsome
    obtain ⟨x, hx, hfree⟩ := hsome
    exact ⟨x, hx, (Bool.and_eq_true_iff.mp hfree).1⟩

/-- Whether an integer key has a pair that has not been consumed. -/
def Free (els : Elements V E) (pairs : List (V × V)) (c : V → ℕ) (i : ℤ) : Prop :=
  ∃ p ∈ pairs, els.asInt p.1 = some i ∧ c p.1 < (valuesOf els pairs p.1).length

/-- Whether a key is one of `n` integers from `start` on. -/
def among (els : Elements V E) (start : ℤ) (n : ℕ) (a : V) : Bool :=
  (els.asInt a).any fun i => decide (start ≤ i ∧ i < start + n)

theorem among_iff {start : ℤ} {n : ℕ} {a : V} :
    among els start n a = true ↔ ∃ i, els.asInt a = some i ∧ start ≤ i ∧ i < start + n := by
  rw [among, Option.any_eq_true]
  simp only [decide_eq_true_iff]

theorem findInt_isSome_iff (hels : els.Lawful K) (hkeys : ∀ p ∈ pairs, K p.1)
    (hc : Respects els K c) (i : ℤ) :
    (findInt els pairs (maskOf els c pairs) i).isSome = true ↔ Free els pairs c i := by
  refine (firstFree_isSome_iff hels hkeys (isClass_asInt hels i) hc).trans ?_
  exact exists_congr fun p => and_congr_right fun _ => and_congr_left fun _ => decide_eq_true_iff

/-- The run takes one pair of each of its integers, and stops where there is none left. -/
theorem runFrom_spec (hels : els.Lawful K) (hkeys : ∀ p ∈ pairs, K p.1) (hc : Respects els K c)
    (fuel : ℕ) (start : ℤ) :
    (∀ j < (runFrom els pairs (maskOf els c pairs) fuel start).length,
        Free els pairs c (start + (j : ℕ))) ∧
      ((runFrom els pairs (maskOf els c pairs) fuel start).length < fuel →
        ¬Free els pairs c (start + (runFrom els pairs (maskOf els c pairs) fuel start).length)) ∧
      (runFrom els pairs (maskOf els c pairs) fuel start).length ≤ fuel ∧
      ∀ c', (∀ a i, K a → els.asInt a = some i → start ≤ i → c' a = c a) →
        (runFrom els pairs (maskOf els c pairs) fuel start).foldl
            (fun consumed i => consumed.set i true) (maskOf els c' pairs) =
          maskOf els (bumpAll (among els start
            (runFrom els pairs (maskOf els c pairs) fuel start).length) c') pairs := by
  induction fuel generalizing start with
  | zero =>
    refine ⟨nofun, nofun, Nat.le_refl _, fun c' _ => maskOf_congr (K := K) hkeys fun a _ => ?_⟩
    rw [bumpAll, if_neg, Nat.add_zero]
    rw [among_iff]
    rintro ⟨i, -, hle, hlt⟩
    simp only [runFrom, List.length_nil, Nat.cast_zero] at hlt
    omega
  | succ fuel ih =>
    have hiff := findInt_isSome_iff hels hkeys hc start
    rw [runFrom]
    cases hfind : findInt els pairs (maskOf els c pairs) start with
    | none =>
      rw [hfind] at hiff
      refine ⟨nofun, fun _ hfree => ?_, Nat.zero_le _, fun c' _ => ?_⟩
      · rw [List.length_nil, Nat.cast_zero, Int.add_zero] at hfree
        exact absurd (hiff.mpr hfree) Bool.false_ne_true
      · refine maskOf_congr (K := K) hkeys fun a _ => ?_
        rw [bumpAll, if_neg, Nat.add_zero]
        rw [among_iff]
        rintro ⟨i, -, hle, hlt⟩
        simp only [List.length_nil, Nat.cast_zero] at hlt
        omega
    | some i =>
      rw [hfind] at hiff
      have hfree := hiff.mp rfl
      obtain ⟨hall, hstop, hle, hfold⟩ := ih (start + 1)
      dsimp only
      generalize runFrom els pairs (maskOf els c pairs) fuel (start + 1) = run at *
      refine ⟨fun j hj => ?_, fun hlt hend => ?_, Nat.succ_le_succ hle, fun c' hc' => ?_⟩
      · cases j with
        | zero => simpa using hfree
        | succ j =>
          have hj' := hall j (Nat.lt_of_succ_lt_succ hj)
          have heq : start + 1 + (j : ℤ) = start + ((j + 1 : ℕ) : ℤ) := by push_cast; omega
          rwa [heq] at hj'
      · refine hstop (Nat.lt_of_succ_lt_succ hlt) ?_
        have heq : start + ((i :: run).length : ℤ) = start + 1 + (run.length : ℤ) := by
          rw [List.length_cons]
          push_cast
          omega
        rwa [heq] at hend
      · -- The first pair of the run is the same under both counts.
        obtain ⟨p, hp, hint, -⟩ := hfree
        have hKp := hkeys p hp
        have hclass : ∀ a, K a → decide (els.asInt a = some start) = true → c a = c p.1 :=
          fun a ha hqa => hc a p.1 ha hKp (hels.asInt_same ha hKp (of_decide_eq_true hqa) hint)
        have hclass' : ∀ a, K a → decide (els.asInt a = some start) = true → c' a = c p.1 :=
          fun a ha hqa => (hc' a start ha (of_decide_eq_true hqa) (Int.le_refl _)).trans
            (hclass a ha hqa)
        have hcongr := firstFree_congr hels hkeys (isClass_asInt hels start) hclass hclass'
        have hfirst : firstFree (fun a => decide (els.asInt a = some start)) pairs
            (maskOf els c' pairs) = some i := hcongr.symm.trans hfind
        obtain ⟨hnone, -, -⟩ | ⟨i', p', hsome, -, -, hset⟩ :=
          firstFree_maskOf hels hkeys (isClass_asInt hels start) hclass'
        · rw [hfirst] at hnone
          cases hnone
        · obtain rfl := Option.some.inj (hfirst.symm.trans hsome)
          have hagree : ∀ a j, K a → els.asInt a = some j → start + 1 ≤ j →
              bumpAll (fun a => decide (els.asInt a = some start)) c' a = c a := by
            intro a j ha haj hj
            have hne : ¬els.asInt a = some start := by
              rw [haj]
              intro heq
              have := Option.some.inj heq
              omega
            rw [bumpAll, decide_eq_false hne, if_neg Bool.false_ne_true, Nat.add_zero]
            exact hc' a j ha haj (by omega)
          rw [List.foldl_cons, ← hset, hfold _ hagree]
          refine maskOf_congr (K := K) hkeys fun a _ => ?_
          rw [bumpAll, bumpAll, bumpAll, Nat.add_assoc]
          refine congrArg _ ?_
          cases ha : els.asInt a with
          | none => simp [among, ha]
          | some j =>
            simp only [among, ha, Option.any_some, decide_eq_true_eq, Option.some.injEq,
              List.length_cons]
            push_cast
            split_ifs <;> omega

/-- Whether a key belongs to the run of integer keys from `start` on, of which each has a pair that
has not been consumed. -/
def InRun (els : Elements V E) (pairs : List (V × V)) (c : V → ℕ) (start : ℤ) (key : V) : Prop :=
  ∃ n : ℕ, els.asInt key = some (start + n) ∧ ∀ j : ℕ, j ≤ n → Free els pairs c (start + j)

/-- The run is not cut short: each of its integers has a pair of its own. -/
theorem not_free_end (hels : els.Lawful K) (hkeys : ∀ p ∈ pairs, K p.1) (hc : Respects els K c)
    (start : ℤ) :
    ¬Free els pairs c
      (start + (runFrom els pairs (maskOf els c pairs) pairs.length start).length) := by
  obtain ⟨hall, hstop, hle, -⟩ := runFrom_spec hels hkeys hc pairs.length start
  generalize runFrom els pairs (maskOf els c pairs) pairs.length start = run at *
  rcases Nat.lt_or_eq_of_le hle with hlt | heq
  · exact hstop hlt
  · intro hend
    have hfree : ∀ j ∈ List.range (run.length + 1), Free els pairs c (start + (j : ℕ)) := by
      intro j hj
      rcases Nat.lt_or_eq_of_le (Nat.le_of_lt_succ (List.mem_range.mp hj)) with hlt | rfl
      · exact hall j hlt
      · exact hend
    have hnodup : ((List.range (run.length + 1)).map fun j : ℕ => some (start + (j : ℤ))).Nodup := by
      refine (List.nodup_map_iff_inj_on List.nodup_range).mpr fun i _ j _ hij => ?_
      have hij := Option.some.inj hij
      omega
    have hsub : ((List.range (run.length + 1)).map fun j : ℕ => some (start + (j : ℤ))) ⊆
        pairs.map fun p => els.asInt p.1 := by
      intro y hy
      obtain ⟨j, hj, rfl⟩ := List.mem_map.mp hy
      obtain ⟨p, hp, hint, -⟩ := hfree j hj
      exact List.mem_map.mpr ⟨p, hp, hint⟩
    have hcard := (List.subperm_of_subset hnodup hsub).length_le
    rw [List.length_map, List.length_range, List.length_map] at hcard
    omega

/-- What the run takes. -/
theorem among_run_iff (hels : els.Lawful K) (hkeys : ∀ p ∈ pairs, K p.1) (hc : Respects els K c)
    (start : ℤ) (key : V) :
    among els start (runFrom els pairs (maskOf els c pairs) pairs.length start).length key = true ↔
      InRun els pairs c start key := by
  obtain ⟨hall, -, -, -⟩ := runFrom_spec hels hkeys hc pairs.length start
  have hend := not_free_end hels hkeys hc start
  generalize runFrom els pairs (maskOf els c pairs) pairs.length start = run at *
  rw [among_iff]
  constructor
  · rintro ⟨i, hi, hle, hlt⟩
    refine ⟨(i - start).toNat, ?_, fun j hj => hall j (by omega)⟩
    rw [hi]
    exact congrArg some (by omega)
  · rintro ⟨n, hn, hfree⟩
    refine ⟨_, hn, by omega, ?_⟩
    by_contra hge
    exact hend (hfree run.length (by omega))

/-- What makes the leftovers of a view be refused, when `c` tells how many pairs have been consumed
of each key. -/
def LeavesOver (els : Elements V E) (sig : Sig V) (pairs : List (V × V)) (c : V → ℕ) : Prop :=
  match sig.variadic with
  | .split .none .none => ∃ p ∈ pairs, c p.1 < (valuesOf els pairs p.1).length
  | .split _ .none => ∃ p ∈ pairs, c p.1 < (valuesOf els pairs p.1).length ∧
      (InRun els pairs c sig.posCount p.1 → c p.1 + 1 < (valuesOf els pairs p.1).length)
  | _ => False

/-- The integers of a range are a class for each of them, so counting them respects equality. -/
theorem Respects.bumpAll_among (hels : els.Lawful K) (hc : Respects els K c) (start : ℤ) (n : ℕ) :
    Respects els K (bumpAll (among els start n) c) := by
  intro a b ha hb hab
  rw [bumpAll, bumpAll, hc a b ha hb hab, among, among, hels.asInt_eq ha hb hab]

/-- `settle_leftovers`. -/
theorem settleLeftovers_eq (hels : els.Lawful K) (hkeys : ∀ p ∈ pairs, K p.1)
    (hc : Respects els K c) (sig : Sig V) :
    (LeavesOver els sig pairs c ∧
        ∃ e, (settleLeftovers els sig pairs (maskOf els c pairs) : Except (Refusal V E) _) =
          .error e) ∨
      ¬LeavesOver els sig pairs c ∧
        ∃ r, (settleLeftovers els sig pairs (maskOf els c pairs) : Except (Refusal V E) _) =
          .ok r := by
  obtain ⟨hall, -, -, hfold⟩ := runFrom_spec hels hkeys hc pairs.length sig.posCount
  have hmask := hfold c fun _ _ _ _ _ => rfl
  have hrun := among_run_iff hels hkeys hc sig.posCount
  unfold settleLeftovers LeavesOver Sig.posRest Sig.keyRest
  generalize runFrom els pairs (maskOf els c pairs) pairs.length sig.posCount = run at *
  cases sig.variadic with
  | discard => exact .inr ⟨not_false, _, rfl⟩
  | capture => exact .inr ⟨not_false, _, rfl⟩
  | split pos key =>
    have hsplit : ¬(Bytecode.Variadic.split pos key = .discard ∨
        Bytecode.Variadic.split pos key = .capture) := by simp
    rw [if_neg hsplit]
    cases key with
    | discard => cases pos <;> exact .inr ⟨not_false, by simp [Bytecode.Variadic.keyed]⟩
    | capture => cases pos <;> exact .inr ⟨not_false, by simp [Bytecode.Variadic.keyed]⟩
    | none =>
      cases pos with
      | none =>
        by_cases hempty : run = []
        · -- There are no positional leftovers.
          have hiff := exists_unmarked_iff hels hkeys hc
          simp only [hempty, Bytecode.Variadic.positional, Bytecode.Variadic.keyed, ne_eq,
            not_true_eq_false, and_false, if_false, if_true, List.foldl_nil]
          rw [← hiff]
          cases (pairs.zip (maskOf els c pairs)).find? fun p => !p.2 with
          | none => exact .inr ⟨Bool.false_ne_true, _, rfl⟩
          | some p => exact .inl ⟨rfl, _, rfl⟩
        · obtain ⟨p, hp, -, hlt⟩ := hall 0 (List.length_pos_iff.mpr hempty)
          rw [if_pos ⟨rfl, rfl, hempty⟩]
          exact .inl ⟨⟨p, hp, hlt⟩, _, rfl⟩
      | discard | capture =>
        -- The rest takes the run.
        have htakes : ∀ p : V × V, bumpAll (among els sig.posCount run.length) c p.1 <
            (valuesOf els pairs p.1).length ↔ c p.1 < (valuesOf els pairs p.1).length ∧
              (InRun els pairs c sig.posCount p.1 →
                c p.1 + 1 < (valuesOf els pairs p.1).length) := by
          intro p
          rw [bumpAll, ← hrun p.1]
          split_ifs with hp
          · simp only [hp, true_implies]
            omega
          · simp [hp]
        have hiff := exists_unmarked_iff hels hkeys (hc.bumpAll_among hels sig.posCount run.length)
        simp only [htakes] at hiff
        simp only [hmask, Bytecode.Variadic.positional, Bytecode.Variadic.keyed, reduceCtorEq,
          false_and, if_false]
        rw [← hiff]
        cases (pairs.zip (maskOf els (bumpAll (among els sig.posCount run.length) c) pairs)).find?
            fun p => !p.2 with
        | none => exact .inr ⟨Bool.false_ne_true, _, rfl⟩
        | some p => exact .inl ⟨rfl, _, rfl⟩

end DictView

end Dolang.Object
