import Dolang.Rpc.Retire

/-!
# The books of the receiver

What the pool of the receiver says that a trailer owes is what of it has arrived and has not been
returned: bytes that are not retired yet, and bytes that are retired but held back. A trailer whose
consumer has gone owes nothing (`Link.Books`). So it is for every order of arrivals, reads and releases
as long as no message is opened twice.
-/

namespace Dolang.Rpc

namespace RecvShared

variable {s s' : RecvShared} {w w' : SessionWindow} {unread owing : ℕ}

/-- No more data comes. -/
def Ended (s : RecvShared) : Prop :=
  s.state = .eof ∨ s.state = .failed

/-- The books of a trailer whose consumer is there. `unread` bytes are on the wire yet, and the consumer
owes `owing` that it has read. -/
structure Wanted (s : RecvShared) (w : SessionWindow) (unread owing : ℕ) : Prop where
  state : s.state ≠ .discard
  retired_le : s.retired ≤ s.received
  owed : w.owed s.id = s.pending + (s.received - s.retired)
  auto : s.autoRelease = true → s.stage.length + unread + owing ≤ s.received - s.retired

/-- The books of a trailer whose consumer is gone. -/
structure Refused (s : RecvShared) (w : SessionWindow) : Prop where
  pending : s.pending = 0
  owed : w.owed s.id = 0
  state : s.state = .discard ∨ s.Ended

/-- What returns bytes that have arrived keeps the books. -/
theorem Wanted.returns (h : s.Wanted w unread owing) {len n : ℕ} {r : RecvShared × SessionWindow × List Sink}
    (hr : s.Returns w len n r) (hlen : len ≤ s.received - s.retired) {unread' owing' : ℕ}
    (hauto : s.autoRelease = true →
      s.stage.length + unread' + owing' + len ≤ s.received - s.retired) :
    r.1.Wanted r.2.1 unread' owing' := by
  have hret := h.retired_le
  have howed := h.owed
  have hpending := hr.pending
  refine ⟨hr.state ▸ h.state, ?_, ?_, fun ha => ?_⟩
  · rw [hr.retired, hr.received]
    omega
  · rw [hr.id, hr.owed, if_pos rfl, hr.retired, hr.received]
    omega
  · rw [hr.autoRelease] at ha
    have hle := hauto ha
    rw [hr.stage, hr.retired, hr.received]
    omega

/-- The state does not enter the books, but that the trailer is wanted. -/
theorem Wanted.congr (h : s.Wanted w unread owing) (hstate : s'.state ≠ .discard) (hid : s'.id = s.id)
    (hreceived : s'.received = s.received) (hretired : s'.retired = s.retired)
    (hpending : s'.pending = s.pending) (howed : w'.owed s.id = w.owed s.id) {unread' owing' : ℕ}
    (hauto : s'.autoRelease = true → s'.stage.length + unread' + owing' ≤ s.received - s.retired) :
    s'.Wanted w' unread' owing' := by
  refine ⟨hstate, ?_, ?_, fun ha => ?_⟩
  · rw [hretired, hreceived]
    exact h.retired_le
  · rw [hid, howed, h.owed, hpending, hreceived, hretired]
  · rw [hreceived, hretired]
    exact hauto ha

end RecvShared

namespace Link

variable {l l' : Link} {W i : ℕ} {s s' : RecvShared}

/-- The bytes of trailer `i` that are being read from the wire. -/
def unread (l : Link) (i : ℕ) : ℕ :=
  match l.reading with
  | some q => if q.trailer = i then q.bytes.length else 0
  | none => 0

/-- The pool of the receiver has `W` bytes together, and each trailer owes what its books say. -/
structure Books (W : ℕ) (l : Link) : Prop where
  capacity : l.reassembler.sessionCredit.capacity = W
  distinct : (l.reassembler.trailers.map RecvShared.id).Nodup
  absent : ∀ id, id ∉ l.reassembler.trailers.map RecvShared.id →
    l.reassembler.sessionCredit.owed id = 0
  fresh : ∀ i, l.reassembler.trailers.length ≤ i → l.consumers i = {}
  wanted : ∀ i s, l.reassembler.trailers[i]? = some s → (l.consumers i).dropped = false →
    s.Wanted l.reassembler.sessionCredit (l.unread i) (l.consumers i).owing
  dropped : ∀ i s, l.reassembler.trailers[i]? = some s → (l.consumers i).dropped = true →
    s.Refused l.reassembler.sessionCredit
  reading : ∀ q, l.reading = some q →
    ∃ s, l.reassembler.trailers[q.trailer]? = some s ∧ ¬s.Ended
  streams : ∀ id e, l.reassembler.incomplete.lookup id = some e → e.trailerPhase = true →
    ∃ i s, e.trailer = some i ∧ l.reassembler.trailers[i]? = some s ∧ s.id = id ∧ ¬s.Ended
  starting : ∀ id e, l.reassembler.incomplete.lookup id = some e → e.trailerPhase = false →
    id ∉ l.reassembler.trailers.map RecvShared.id

theorem books_new (kind : Kind) (a b : Limits) :
    (new kind a b).Books (negotiate b a).trailerSessionWindow where
  capacity := rfl
  distinct := .nil
  absent _ _ := rfl
  fresh _ _ := rfl
  wanted _ _ h := by cases h
  dropped _ _ h := by cases h
  reading _ h := by cases h
  streams _ _ h := by cases h
  starting _ _ h := by cases h

/-- What does not concern the receiver keeps its books. -/
theorem Books.congr (h : l.Books W)
    (hcredit : l'.reassembler.sessionCredit = l.reassembler.sessionCredit)
    (htrailers : l'.reassembler.trailers = l.reassembler.trailers)
    (hentries : l'.reassembler.incomplete = l.reassembler.incomplete)
    (hreading : l'.reading = l.reading) (hconsumers : l'.consumers = l.consumers) : l'.Books W := by
  have hunread : l'.unread = l.unread := by
    funext i
    unfold unread
    rw [hreading]
  refine ⟨?_, ?_, ?_, ?_, ?_, ?_, ?_, ?_, ?_⟩
  · rw [hcredit]; exact h.capacity
  · rw [htrailers]; exact h.distinct
  · rw [htrailers, hcredit]; exact h.absent
  · rw [htrailers, hconsumers]; exact h.fresh
  · rw [htrailers, hconsumers, hcredit, hunread]; exact h.wanted
  · rw [htrailers, hconsumers, hcredit]; exact h.dropped
  · rw [hreading, htrailers]; exact h.reading
  · rw [hentries, htrailers]; exact h.streams
  · rw [hentries, htrailers]; exact h.starting

/-- Trailers have ids of their own. -/
theorem Books.id_inj (h : l.Books W) {j : ℕ} {t : RecvShared}
    (hs : l.reassembler.trailers[i]? = some s) (ht : l.reassembler.trailers[j]? = some t)
    (hid : t.id = s.id) : j = i := by
  have hmap := h.distinct
  rw [List.nodup_iff_getElem?_ne_getElem?] at hmap
  by_contra hne
  have hsi : (l.reassembler.trailers.map RecvShared.id)[i]? = some s.id := by
    rw [List.getElem?_map, hs]
    rfl
  have htj : (l.reassembler.trailers.map RecvShared.id)[j]? = some s.id := by
    rw [List.getElem?_map, ht, ← hid]
    rfl
  have hi := (List.getElem?_eq_some_iff.mp hsi).1
  have hj := (List.getElem?_eq_some_iff.mp htj).1
  obtain hlt | hlt := Nat.lt_or_gt_of_ne hne
  · exact hmap j i hlt hi (htj.trans hsi.symm)
  · exact hmap i j hlt hj (hsi.trans htj.symm)

/-- The books of one trailer change. When it has ended, its message goes as well. -/
theorem Books.set (h : l.Books W) (hs : l.reassembler.trailers[i]? = some s)
    (hentries : ∀ id e, l'.reassembler.incomplete.lookup id = some e →
      l.reassembler.incomplete.lookup id = some e)
    (htrailers : l'.reassembler.trailers = l.reassembler.trailers.set i s') (hid : s'.id = s.id)
    (howed : ∀ id, id ≠ s.id →
      l'.reassembler.sessionCredit.owed id = l.reassembler.sessionCredit.owed id)
    (hcap : l'.reassembler.sessionCredit.capacity = l.reassembler.sessionCredit.capacity)
    (hconsumers : ∀ j, j ≠ i → l'.consumers j = l.consumers j)
    (hread : ∀ q', l'.reading = some q' → q'.trailer = i ∧ ¬s'.Ended ∨
      ∃ q, l.reading = some q ∧ q.trailer = q'.trailer ∧ q'.bytes.length ≤ q.bytes.length)
    (hend : s'.Ended → s.Ended ∨
      l'.reassembler.incomplete.lookup s.id = none ∧ l'.reading = none)
    (hwanted : (l'.consumers i).dropped = false →
      s'.Wanted l'.reassembler.sessionCredit (l'.unread i) (l'.consumers i).owing)
    (hdropped : (l'.consumers i).dropped = true → s'.Refused l'.reassembler.sessionCredit) :
    l'.Books W := by
  have hi := (List.getElem?_eq_some_iff.mp hs).1
  have hids : l'.reassembler.trailers.map RecvShared.id =
      l.reassembler.trailers.map RecvShared.id := by
    rw [htrailers, List.map_set, hid]
    have hsi : s.id = (l.reassembler.trailers.map RecvShared.id).get ⟨i, by simpa using hi⟩ := by
      rw [List.get_eq_getElem, List.getElem_map]
      exact congrArg _ (List.getElem?_eq_some_iff.mp hs).2.symm
    rw [hsi]
    exact List.set_getElem_self _
  have hmem : s.id ∈ l.reassembler.trailers.map RecvShared.id :=
    List.mem_map_of_mem (List.mem_of_getElem? hs)
  have hget : ∀ j t, l'.reassembler.trailers[j]? = some t →
      (j = i ∧ t = s') ∨ (j ≠ i ∧ l.reassembler.trailers[j]? = some t) := by
    intro j t ht
    rw [htrailers] at ht
    by_cases hj : j = i
    · subst hj
      rw [List.getElem?_set_self hi] at ht
      exact .inl ⟨rfl, (Option.some.inj ht).symm⟩
    · rw [List.getElem?_set_ne (Ne.symm hj)] at ht
      exact .inr ⟨hj, ht⟩
  have hput : ∀ j t, l.reassembler.trailers[j]? = some t →
      l'.reassembler.trailers[j]? = some (if j = i then s' else t) := by
    intro j t ht
    rw [htrailers]
    by_cases hj : j = i
    · subst hj
      rw [if_pos rfl, List.getElem?_set_self hi]
    · rw [if_neg hj, List.getElem?_set_ne (Ne.symm hj), ht]
  have hunread : ∀ j, j ≠ i → l'.unread j ≤ l.unread j := by
    intro j hj
    unfold unread
    cases hq : l'.reading with
    | none => exact Nat.zero_le _
    | some q' =>
      dsimp only
      obtain ⟨hqi, -⟩ | ⟨q, hq', htr, hlen⟩ := hread q' hq
      · rw [hqi, if_neg (Ne.symm hj)]
        exact Nat.zero_le _
      · rw [hq']
        dsimp only
        rw [htr]
        split_ifs
        · exact hlen
        · exact Nat.le_refl _
  refine ⟨hcap.trans h.capacity, hids ▸ h.distinct, fun id hnot => ?_, fun j hj => ?_,
    fun j t ht hd => ?_, fun j t ht hd => ?_, fun q' hq => ?_, fun id e he hp => ?_,
    fun id e he hp => ?_⟩
  · rw [hids] at hnot
    rw [howed id fun hid => hnot (hid ▸ hmem)]
    exact h.absent id hnot
  · rw [htrailers, List.length_set] at hj
    rw [hconsumers j (Nat.ne_of_gt (Nat.lt_of_lt_of_le hi hj))]
    exact h.fresh j hj
  · obtain ⟨rfl, rfl⟩ | ⟨hj, ht⟩ := hget j t ht
    · exact hwanted hd
    · rw [hconsumers j hj] at hd ⊢
      have hold := h.wanted j t ht hd
      refine hold.congr hold.state rfl rfl rfl rfl ?_ fun ha => ?_
      · exact howed t.id fun hid => hj (h.id_inj hs ht hid)
      · have hle := hold.auto ha
        have hun := hunread j hj
        omega
  · obtain ⟨rfl, rfl⟩ | ⟨hj, ht⟩ := hget j t ht
    · exact hdropped hd
    · rw [hconsumers j hj] at hd
      have hold := h.dropped j t ht hd
      refine ⟨hold.pending, ?_, hold.state⟩
      rw [howed t.id fun hid => hj (h.id_inj hs ht hid)]
      exact hold.owed
  · obtain ⟨hqi, hne⟩ | ⟨q, hq', htr, -⟩ := hread q' hq
    · refine ⟨s', ?_, hne⟩
      rw [hqi, hput i s hs, if_pos rfl]
    · obtain ⟨t, ht, hne⟩ := h.reading q hq'
      rw [htr] at ht
      refine ⟨_, hput _ t ht, ?_⟩
      split_ifs with hj
      · intro hend'
        obtain hold | ⟨-, hnone⟩ := hend hend'
        · rw [hj, hs] at ht
          exact hne (Option.some.inj ht ▸ hold)
        · rw [hnone] at hq
          cases hq
      · exact hne
  · obtain ⟨j, t, hj, ht, hidt, hne⟩ := h.streams id e (hentries id e he) hp
    refine ⟨j, _, hj, hput j t ht, ?_, ?_⟩
    · split_ifs with hji
      · rw [hji, hs] at ht
        rw [hid, Option.some.inj ht, hidt]
      · exact hidt
    · split_ifs with hji
      · intro hend'
        rw [hji, hs] at ht
        obtain rfl := Option.some.inj ht
        obtain hold | ⟨hnone, -⟩ := hend hend'
        · exact hne hold
        · rw [hidt, he] at hnone
          cases hnone
      · exact hne
  · rw [hids]
    exact h.starting id e (hentries id e he) hp

end Link

end Dolang.Rpc
