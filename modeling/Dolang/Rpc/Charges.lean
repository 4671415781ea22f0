import Dolang.Rpc.Receive

/-!
# Payload memory

The payload quota is meant to bound the payload bytes that an endpoint holds whatever its peer
sends: those that the reassembler buffers, and those of the calls whose owner has not released them.
Debts are kept by message id and settled whole, though, and every message has a charge of its own.
A `Cancel` names the call that it cancels, so dropping its charge settles the debt of that call while
the call still holds its payload (`cancel_settles_call`). An `ABORT` in the trailer of a call and a
`Discard` do the same.

`Untouched` is the condition that leaves these out: a fragment that is charged or settled does not
name a call whose charge is held. Under it the debts are exactly the bytes held (`Covers`), so that
these never exceed the quota (`payload_bounded`).
-/

namespace Dolang.Rpc

/-- The payload bytes of message `id` that the reassembler buffers. -/
def Reassembler.buffered (r : Reassembler) (id : MsgId) : ℕ :=
  (r.incomplete.lookup id).elim 0 fun e => e.postcard.length

/-- All payload bytes that the reassembler buffers. -/
def Reassembler.bufferedTotal (r : Reassembler) : ℕ :=
  r.incomplete.total fun e => e.postcard.length

/-- The payload bytes held under charges for message `id`. -/
def heldBytes (held : List Charge) (id : MsgId) : ℕ :=
  ((held.filter (·.id = id)).map Charge.len).sum

/-- All payload bytes held under charges. -/
def heldTotal (held : List Charge) : ℕ :=
  (held.map Charge.len).sum

/-- The fragment is charged to a message or settles one: it is not a count, and not trailer data. -/
def Reassembler.charges (r : Reassembler) (h : FragmentHeader) : Bool :=
  !h.kind.isCount && (h.flags.abort || !r.inTrailer h)

/-- A fragment that is charged or settled does not name a call whose charge is held. -/
def Receiver.Untouched (c : Receiver) (h : FragmentHeader) : Prop :=
  c.reassembler.charges h = true → ∀ charge ∈ c.held, charge.id ≠ h.id

/-- The debts are the bytes that are buffered or held, and a message is not both. -/
structure Covers (r : Reassembler) (held : List Charge) : Prop where
  owed : ∀ id, r.payloadCredit.owed id = r.buffered id + heldBytes held id
  total : r.payloadCredit.outstanding = r.bufferedTotal + heldTotal held
  capacity : r.payloadCredit.capacity = r.limits.maxOutstandingPayload
  distinct : (held.map Charge.id).Nodup
  apart : ∀ charge ∈ held, r.buffered charge.id = 0
  /-- A payload that has ended is not buffered any more. -/
  ended : ∀ id e, r.incomplete.lookup id = some e → e.trailerPhase = true → e.postcard = []

section Held

variable {held : List Charge} {id : MsgId} {charge : Charge}

@[simp] theorem heldBytes_nil : heldBytes [] id = 0 := rfl

@[simp] theorem heldTotal_nil : heldTotal [] = 0 := rfl

theorem heldBytes_cons :
    heldBytes (charge :: held) id = (if charge.id = id then charge.len else 0) + heldBytes held id := by
  unfold heldBytes
  rw [List.filter_cons]
  split_ifs <;> simp_all

@[simp] theorem heldTotal_cons : heldTotal (charge :: held) = charge.len + heldTotal held := by
  simp [heldTotal]

theorem heldBytes_eq_zero (h : ∀ charge ∈ held, charge.id ≠ id) : heldBytes held id = 0 := by
  have : held.filter (·.id = id) = [] := by simpa using h
  simp [heldBytes, this]

theorem heldBytes_perm {held' : List Charge} (h : held.Perm held') :
    heldBytes held id = heldBytes held' id :=
  ((h.filter _).map _).sum_eq

theorem heldTotal_perm {held' : List Charge} (h : held.Perm held') :
    heldTotal held = heldTotal held' :=
  (h.map _).sum_eq

end Held

namespace Covers

variable {r : Reassembler} {held : List Charge} {id : MsgId}

/-- Covering does not depend on the order of the charges. -/
theorem perm {held' : List Charge} (h : Covers r held) (hp : held.Perm held') : Covers r held' where
  owed id := by rw [h.owed id, heldBytes_perm hp]
  total := by rw [h.total, heldTotal_perm hp]
  capacity := h.capacity
  distinct := (hp.map _).nodup_iff.1 h.distinct
  apart charge hc := h.apart charge (hp.mem_iff.2 hc)
  ended := h.ended

theorem notMem {charge : Charge} (h : Covers r (charge :: held)) :
    ∀ c ∈ held, c.id ≠ charge.id := by
  intro c hc he
  have hd := h.distinct
  rw [List.map_cons, List.nodup_cons] at hd
  exact hd.1 (List.mem_map.2 ⟨c, hc, he⟩)

/-- Settling the debt of a charge releases it. -/
theorem settle {charge : Charge} (h : Covers r (charge :: held)) :
    Covers { r with payloadCredit := (r.payloadCredit.settle charge.id).1 } held := by
  have h0 : heldBytes held charge.id = 0 := heldBytes_eq_zero h.notMem
  have hb : r.buffered charge.id = 0 := h.apart charge List.mem_cons_self
  have ho : r.payloadCredit.owed charge.id = charge.len := by
    rw [h.owed, hb, heldBytes_cons, if_pos rfl, h0]
    omega
  constructor
  · intro id
    show (r.payloadCredit.settle charge.id).1.owed id = r.buffered id + heldBytes held id
    rw [SessionWindow.owed_settle]
    split_ifs with hid
    · subst hid
      rw [hb, h0]
    · rw [h.owed, heldBytes_cons, if_neg (Ne.symm hid)]
      omega
  · have := SessionWindow.outstanding_settle r.payloadCredit charge.id
    have ht := h.total
    rw [heldTotal_cons] at ht
    show (r.payloadCredit.settle charge.id).1.outstanding = r.bufferedTotal + heldTotal held
    omega
  · show (r.payloadCredit.settle charge.id).1.capacity = r.limits.maxOutstandingPayload
    rw [SessionWindow.capacity_settle, h.capacity]
  · exact (List.nodup_cons.1 h.distinct).2
  · intro c hc
    exact h.apart c (List.mem_cons_of_mem _ hc)
  · exact h.ended

/-- A change of the trailers and of their pool does not concern the quota. -/
theorem congr {r' : Reassembler} (h : Covers r held) (hi : r'.incomplete = r.incomplete)
    (hc : r'.payloadCredit = r.payloadCredit) (hl : r'.limits = r.limits) : Covers r' held := by
  have hb : ∀ id, r'.buffered id = r.buffered id := by
    intro id
    simp only [Reassembler.buffered, hi]
  constructor
  · intro id
    rw [hc, hb, h.owed]
  · rw [hc, h.total, Reassembler.bufferedTotal, Reassembler.bufferedTotal, hi]
  · rw [hc, hl, h.capacity]
  · exact h.distinct
  · intro c hm
    rw [hb, h.apart c hm]
  · rw [hi]
    exact h.ended

theorem buffered_of_lookup {e : Incomplete} (hl : r.incomplete.lookup id = some e) :
    r.buffered id = e.postcard.length := by
  rw [Reassembler.buffered, hl, Option.elim_some]

theorem buffered_of_notMem (hn : id ∉ r.incomplete) : r.buffered id = 0 := by
  rw [Reassembler.buffered, AList.lookup_eq_none.2 hn, Option.elim_none]

/-- What is buffered after the entry of a message was replaced. -/
theorem buffered_insert (id' : MsgId) (e : Incomplete) (r' : Reassembler)
    (hr : r'.incomplete = r.incomplete.insert id e) :
    r'.buffered id' = if id' = id then e.postcard.length else r.buffered id' := by
  simp only [Reassembler.buffered, hr, Table.lookup_insert_if]
  split_ifs <;> rfl

/-- What is buffered after the entry of a message was removed. -/
theorem buffered_erase (id' : MsgId) (r' : Reassembler)
    (hr : r'.incomplete = r.incomplete.erase id) :
    r'.buffered id' = if id' = id then 0 else r.buffered id' := by
  simp only [Reassembler.buffered, hr, Table.lookup_erase_if]
  split_ifs <;> rfl

/-- Replaces the entry of a message that no charge is held for. The debts after it are given by what
becomes of its own bytes: `n` of them are buffered or handed out with the message. -/
theorem insert {r' : Reassembler} {e : Incomplete} {charge : List Charge} (h : Covers r held)
    (hid : ∀ c ∈ held, c.id ≠ id) (hr : r'.incomplete = r.incomplete.insert id e)
    (hl : r'.limits = r.limits)
    (howed : ∀ id', r'.payloadCredit.owed id' =
      if id' = id then e.postcard.length + heldTotal charge else r.payloadCredit.owed id')
    (hcap : r'.payloadCredit.capacity = r.payloadCredit.capacity)
    (hout : r'.payloadCredit.outstanding + r.buffered id =
      r.payloadCredit.outstanding + e.postcard.length + heldTotal charge)
    (hcharge : charge = [] ∨ e.postcard = [] ∧ ∃ n, charge = [⟨id, n⟩])
    (hend : e.trailerPhase = true → e.postcard = []) : Covers r' (charge ++ held) := by
  have hb : ∀ id', r'.buffered id' = if id' = id then e.postcard.length else r.buffered id' :=
    fun id' => buffered_insert id' e r' hr
  have h0 : heldBytes held id = 0 := heldBytes_eq_zero hid
  have htot : r'.bufferedTotal + r.buffered id = e.postcard.length + r.bufferedTotal := by
    rw [Reassembler.bufferedTotal, hr]
    exact Table.total_insert _ _ _ _
  -- The bytes of the charge are those of message `id`.
  have hheld : ∀ id', heldBytes (charge ++ held) id' =
      (if id' = id then heldTotal charge else 0) + heldBytes held id' := by
    intro id'
    obtain rfl | ⟨-, n, rfl⟩ := hcharge
    · simp
    · rw [List.singleton_append, heldBytes_cons]
      simp [eq_comm]
  have hsum : heldTotal (charge ++ held) = heldTotal charge + heldTotal held := by
    simp [heldTotal]
  have ht := h.total
  constructor
  · intro id'
    rw [howed, hb, hheld]
    split_ifs with hid'
    · subst hid'
      omega
    · rw [h.owed]
      omega
  · rw [hsum]
    omega
  · rw [hcap, h.capacity, hl]
  · obtain rfl | ⟨-, n, rfl⟩ := hcharge
    · exact h.distinct
    · rw [List.singleton_append, List.map_cons, List.nodup_cons]
      refine ⟨?_, h.distinct⟩
      simp only [List.mem_map, not_exists, not_and]
      exact hid
  · intro c hc
    rw [hb]
    obtain rfl | ⟨he, n, rfl⟩ := hcharge
    · rw [if_neg (hid c hc)]
      exact h.apart c hc
    · rw [List.singleton_append, List.mem_cons] at hc
      obtain rfl | hc := hc
      · rw [if_pos rfl, he, List.length_nil]
      · rw [if_neg (hid c hc)]
        exact h.apart c hc
  · intro id' e' hl' hp
    rw [hr, Table.lookup_insert_if] at hl'
    split_ifs at hl' with hid'
    · obtain rfl := Option.some.inj hl'
      exact hend hp
    · exact h.ended id' e' hl' hp

/-- Removes the entry of a message that no charge is held for. -/
theorem erase {r' : Reassembler} {charge : List Charge} (h : Covers r held)
    (hid : ∀ c ∈ held, c.id ≠ id) (hr : r'.incomplete = r.incomplete.erase id)
    (hl : r'.limits = r.limits)
    (howed : ∀ id', r'.payloadCredit.owed id' =
      if id' = id then heldTotal charge else r.payloadCredit.owed id')
    (hcap : r'.payloadCredit.capacity = r.payloadCredit.capacity)
    (hout : r'.payloadCredit.outstanding + r.buffered id =
      r.payloadCredit.outstanding + heldTotal charge)
    (hcharge : charge = [] ∨ ∃ n, charge = [⟨id, n⟩]) : Covers r' (charge ++ held) := by
  -- Erasing is inserting an entry without bytes and forgetting it.
  have hi : Covers { r' with incomplete := r.incomplete.insert id { kind := .request } }
      (charge ++ held) :=
    h.insert hid rfl hl (by simpa using howed) hcap (by simpa using hout)
      (hcharge.imp_right fun h => ⟨rfl, h⟩) (fun _ => rfl)
  have hb : ∀ id', r'.buffered id' =
      Reassembler.buffered { r' with incomplete := r.incomplete.insert id { kind := .request } } id' := by
    intro id'
    rw [buffered_erase id' r' hr]
    exact (buffered_insert (r := r) id' { kind := .request }
      { r' with incomplete := r.incomplete.insert id { kind := .request } } rfl).symm
  refine ⟨fun id' => ?_, ?_, hi.capacity, hi.distinct, fun c hc => ?_, fun id' e' hl' => ?_⟩
  · rw [hb]
    exact hi.owed id'
  · have ht := hi.total
    have he := Table.total_erase (fun e : Incomplete => e.postcard.length) r.incomplete id
    have hn := Table.total_insert (fun e : Incomplete => e.postcard.length) r.incomplete id
      { kind := .request }
    simp only [Reassembler.bufferedTotal, hr] at ht ⊢
    simp only [List.length_nil] at hn
    omega
  · rw [hb]
    exact hi.apart c hc
  · rw [hr, Table.lookup_erase_if] at hl'
    split_ifs at hl'
    exact h.ended id' e' hl'

end Covers

/-- The charge that an event hands out. -/
def Event.charge : Event → List Charge
  | .message m => [⟨m.id, m.payload.length⟩]
  | .ack _ (some m) => [⟨m.id, m.payload.length⟩]
  | _ => []

namespace Reassembler

variable {r : Reassembler} {f : Fragment} {a : Accepted} {held : List Charge}

@[simp] theorem charge_deliver (h : FragmentHeader) (m : Message) :
    (deliver h m).charge = [⟨m.id, m.payload.length⟩] := by
  unfold deliver
  split_ifs <;> rfl

@[simp] theorem charge_progress (h : FragmentHeader) : (progress h).charge = [] := by
  unfold progress
  split_ifs <;> rfl

@[simp] theorem charge_countEvent (h : FragmentHeader) (n : ℕ) : (countEvent h n).charge = [] := by
  unfold countEvent
  split <;> rfl

theorem releaseCharge_fst (w : SessionWindow) (id : MsgId) :
    (releaseCharge w id).1 = (w.settle id).1 :=
  rfl

theorem acceptTrailer_eq {h : FragmentHeader} {entry : Incomplete}
    (ha : r.acceptTrailer h entry = .ok a) :
    a.reassembler.incomplete = r.incomplete ∧ a.reassembler.payloadCredit = r.payloadCredit ∧
      a.reassembler.payloadPhase = r.payloadPhase ∧ a.reassembler.limits = r.limits ∧
      a.event.charge = [] := by
  obtain ⟨-, rfl⟩ | ⟨i, s, s', w, -, -, -, rfl⟩ := acceptTrailer_cases ha
  · exact ⟨rfl, rfl, rfl, rfl, rfl⟩
  · exact ⟨rfl, rfl, rfl, rfl, rfl⟩

theorem commitEntry_eq (h : FragmentHeader) (entry : Incomplete) :
    (r.commitEntry h entry).reassembler.incomplete = r.incomplete.erase h.id ∧
      (r.commitEntry h entry).reassembler.payloadCredit = r.payloadCredit ∧
      (r.commitEntry h entry).reassembler.payloadPhase = r.payloadPhase ∧
      (r.commitEntry h entry).reassembler.limits = r.limits ∧
      (r.commitEntry h entry).event = .none := by
  obtain ⟨-, he⟩ | ⟨i, s, -, -, he⟩ := commitEntry_cases r h entry
  · rw [he]
    exact ⟨rfl, rfl, rfl, rfl, rfl⟩
  · rw [he]
    exact ⟨rfl, rfl, rfl, rfl, rfl⟩

/-- The bytes of a payload fragment are charged to its message, and with the last of them the
message is handed out. -/
theorem covers_advanceEntry {w : SessionWindow} {entry : Incomplete} {p : ℕ} (h : Covers r held)
    (hid : ∀ c ∈ held, c.id ≠ f.header.id)
    (hb : r.buffered f.header.id = entry.postcard.length) (hp : entry.trailerPhase = false)
    (hw : r.payloadCredit.acceptBytes f.header.id f.header.payloadLen = some w) :
    Covers (advanceEntry { r with payloadPhase := p, payloadCredit := w } f.header
        (extendEntry entry f)).reassembler
      ((advanceEntry { r with payloadPhase := p, payloadCredit := w } f.header
        (extendEntry entry f)).event.charge ++ held) := by
  have hlen : (extendEntry entry f).postcard.length = entry.postcard.length + f.header.payloadLen := by
    simp [extendEntry, f.length_eq]
  have ho : ∀ id', w.owed id' = if id' = f.header.id
      then (extendEntry entry f).postcard.length else r.payloadCredit.owed id' := by
    intro id'
    rw [SessionWindow.owed_acceptBytes hw, h.owed f.header.id, hb, heldBytes_eq_zero hid, hlen]
    rfl
  have hout := SessionWindow.outstanding_acceptBytes hw
  have hcap := SessionWindow.capacity_acceptBytes hw
  unfold advanceEntry
  split_ifs with ht hlast
  · rw [charge_deliver]
    refine h.insert hid rfl rfl (fun id' => ?_) hcap ?_ (.inr ⟨rfl, _, rfl⟩) fun _ => rfl
    · show w.owed id' = _
      rw [ho]
      simp
    · show w.outstanding + _ = _
      simp only [heldTotal_cons, heldTotal_nil, List.length_nil]
      omega
  · rw [charge_deliver]
    refine h.erase hid rfl rfl (fun id' => ?_) hcap ?_ (.inr ⟨_, rfl⟩)
    · show w.owed id' = _
      rw [ho]
      simp
    · show w.outstanding + _ = _
      simp only [heldTotal_cons, heldTotal_nil]
      omega
  · rw [charge_progress]
    refine h.insert hid rfl rfl (fun id' => ?_) hcap ?_ (.inl rfl) fun hp' => ?_
    · show w.owed id' = _
      rw [ho]
      simp
    · show w.outstanding + _ = _
      simp only [heldTotal_nil]
      omega
    · exact absurd hp' (by simp [extendEntry, hp])

/-- An accepted fragment keeps the debts exact, when it does not name a call whose charge is held. -/
theorem covers_accept (h : Covers r held) (ha : r.accept f = .ok a)
    (hu : r.charges f.header = true → ∀ c ∈ held, c.id ≠ f.header.id) :
    Covers a.reassembler (a.event.charge ++ held) := by
  obtain ⟨-, n, -, rfl⟩ | ⟨hk, ha⟩ := accept_cases ha
  · rw [charge_countEvent]
    exact h
  have hfree : (f.header.flags.abort || !r.inTrailer f.header) = true →
      ∀ c ∈ held, c.id ≠ f.header.id := by
    intro ht
    apply hu
    simp only [charges, hk, ht, Bool.not_false, Bool.and_self]
  cases ha with
  | @abort entry hab hl hk' =>
    have hid := hfree (by simp [hab])
    refine h.erase hid rfl rfl (fun id' => ?_) (SessionWindow.capacity_settle ..) ?_ (.inl rfl)
    · exact SessionWindow.owed_settle
    · have ho := h.owed f.header.id
      have hs := SessionWindow.outstanding_settle r.payloadCredit f.header.id
      rw [heldBytes_eq_zero hid] at ho
      show (r.payloadCredit.settle f.header.id).1.outstanding + r.buffered f.header.id =
        r.payloadCredit.outstanding
      omega
  | @commit entry hab hf hlast ht hl hk' hp h0 =>
    obtain ⟨hi, hc, -, hlim, he⟩ := commitEntry_eq (r := r) f.header entry
    have hb : r.buffered f.header.id = 0 := by
      rw [Covers.buffered_of_lookup hl, h.ended _ _ hl hp, List.length_nil]
    have hbuf : ∀ id', (r.commitEntry f.header entry).reassembler.buffered id' = r.buffered id' := by
      intro id'
      rw [Covers.buffered_erase id' _ hi]
      split_ifs with hid'
      · rw [hid', hb]
      · rfl
    rw [he]
    show Covers _ held
    refine ⟨fun id' => ?_, ?_, ?_, h.distinct, fun c hc' => ?_, fun id' e' hl' => ?_⟩
    · rw [hc, hbuf, h.owed]
    · have ht' := Table.total_erase (fun e : Incomplete => e.postcard.length) r.incomplete f.header.id
      rw [hl, Option.elim_some, h.ended _ _ hl hp, List.length_nil] at ht'
      rw [hc, h.total, Reassembler.bufferedTotal, Reassembler.bufferedTotal, hi, ← ht']
      rfl
    · rw [hc, hlim, h.capacity]
    · rw [hbuf, h.apart c hc']
    · rw [hi, Table.lookup_erase_if] at hl'
      split_ifs at hl'
      exact h.ended id' e' hl'
  | @whole w hab hf hlast ht hn hsize hw =>
    have hid := hfree (by simp [inTrailer, hf])
    have hb := Covers.buffered_of_notMem hn
    have ho := h.owed f.header.id
    rw [heldBytes_eq_zero hid, hb] at ho
    have hout := SessionWindow.outstanding_acceptBytes hw
    rw [charge_deliver]
    -- The message is as if its entry were removed.
    have herase : r.incomplete.erase f.header.id = r.incomplete :=
      AList.ext (List.kerase_of_notMem_keys hn)
    refine h.erase hid (by rw [herase]) rfl (fun id' => ?_)
      (SessionWindow.capacity_acceptBytes hw) ?_ (.inr ⟨_, rfl⟩)
    · show w.owed id' = _
      rw [SessionWindow.owed_acceptBytes hw, ho]
      simp [wholeMessage, f.length_eq]
    · show w.outstanding + _ = _
      simp only [heldTotal_cons, heldTotal_nil, wholeMessage, f.length_eq]
      omega
  | @trailerData entry a hab hf hlast ht hl hk' hp hsize ha =>
    obtain ⟨hi, hc, -, hlim, he⟩ := acceptTrailer_eq ha
    rw [he]
    exact h.congr hi hc hlim
  | @opened w hab hf hlast hn hroom hsize hw =>
    have hid := hfree (by simp [inTrailer, hf])
    exact covers_advanceEntry h hid (Covers.buffered_of_notMem hn) rfl hw
  | @continued entry w hab hf hlt hl hk' hp hb hsize hw =>
    have hid := hfree (by simp [inTrailer, hl, hp])
    exact covers_advanceEntry h hid (Covers.buffered_of_lookup hl) hp hw

end Reassembler

namespace Receiver

variable {c : Receiver} {limits : Limits}

/-- The debts of a receiver are the bytes that it holds, under the limits of its session. -/
structure Exact (limits : Limits) (c : Receiver) : Prop where
  covers : Covers c.reassembler c.held
  limits_eq : c.reassembler.limits = limits

/-- The debts of a receiver are the bytes that it holds, and those of a message that it has not
dispatched yet. -/
structure Pending (limits : Limits) (charge : List Charge) (c : Receiver) : Prop where
  covers : Covers c.reassembler (charge ++ c.held)
  limits_eq : c.reassembler.limits = limits

/-- The bytes that a receiver holds are covered by its debts, and within its quota. -/
def Bounded (limits : Limits) (c : Receiver) : Prop :=
  (∀ id, c.reassembler.buffered id + heldBytes c.held id ≤ c.reassembler.payloadCredit.owed id) ∧
    c.reassembler.bufferedTotal + heldTotal c.held ≤ limits.maxOutstandingPayload

theorem Exact.bounded (h : c.Exact limits) : c.Bounded limits := by
  refine ⟨fun id => (h.covers.owed id).ge, ?_⟩
  have hc := h.covers.capacity
  have ht := h.covers.total
  rw [h.limits_eq] at hc
  unfold SessionWindow.capacity at hc
  omega

theorem exact_new (limits : Limits) : (new limits).Exact limits where
  covers := {
    owed := fun _ => rfl
    total := rfl
    capacity := rfl
    distinct := List.nodup_nil
    apart := fun _ h => absurd h List.not_mem_nil
    ended := fun _ _ h => nomatch h }
  limits_eq := rfl

theorem Pending.dropCharge {charge : Charge} (h : c.Pending limits [charge]) :
    (c.dropCharge charge.id).Exact limits :=
  ⟨h.covers.settle, h.limits_eq⟩

theorem Pending.hold {m : Message} (h : c.Pending limits [⟨m.id, m.payload.length⟩]) :
    (c.hold m).Exact limits :=
  ⟨h.covers, h.limits_eq⟩

theorem Pending.exact (h : c.Pending limits []) : c.Exact limits :=
  ⟨h.covers, h.limits_eq⟩

theorem Pending.send {charge : List Charge} (h : c.Pending limits charge) (o : Outgoing) :
    (c.send o).Pending limits charge :=
  ⟨h.covers, h.limits_eq⟩

theorem Pending.trailerOp {charge : List Charge} (h : c.Pending limits charge) (i : ℕ)
    (op : TrailerOp) : (c.trailerOp i op).Pending limits charge := by
  unfold Receiver.trailerOp
  cases hi : c.reassembler.trailers[i]? with
  | none => exact h
  | some s => exact ⟨h.covers.congr rfl rfl rfl, h.limits_eq⟩

theorem Pending.dropTrailer {charge : List Charge} (h : c.Pending limits charge) (m : Message) :
    (c.dropTrailer m).Pending limits charge := by
  unfold Receiver.dropTrailer
  cases m.trailer with
  | none => exact h
  | some i => exact h.trailerOp i .discard

/-- An accepted fragment hands out the charge of its message. -/
theorem Exact.accepted {f : Fragment} {a : Reassembler.Accepted} (h : c.Exact limits)
    (ha : c.reassembler.accept f = .ok a) (hu : c.Untouched f.header) :
    (c.accepted a).Pending limits a.event.charge :=
  ⟨Reassembler.covers_accept h.covers ha hu, (Reassembler.accept_limits ha).trans h.limits_eq⟩

/-- Its owner releases a charge. -/
theorem Exact.release (h : c.Exact limits) (i : ℕ) : (c.release i).Exact limits := by
  unfold Receiver.release
  cases hi : c.held[i]? with
  | none => exact h
  | some charge =>
    obtain ⟨hlt, rfl⟩ := List.getElem?_eq_some_iff.1 hi
    have hp := (List.getElem_cons_eraseIdx_perm hlt).symm
    exact Pending.dropCharge ⟨h.covers.perm hp, h.limits_eq⟩

theorem Exact.trailerOp (h : c.Exact limits) (i : ℕ) (op : TrailerOp) :
    (c.trailerOp i op).Exact limits := by
  have hp : c.Pending limits [] := ⟨h.covers, h.limits_eq⟩
  exact (hp.trailerOp i op).exact

end Receiver

namespace Server

variable {s t : Server} {limits : Limits}

/-- A fragment of the action does not name a call whose charge is held. -/
def Action.Untouched (s : Server) : Action → Prop
  | .recv f _ => s.toReceiver.Untouched f.header
  | _ => True

theorem cancel_pending {charge : List Charge} (h : s.toReceiver.Pending limits charge) (id : MsgId) :
    (s.cancel id).toReceiver.Pending limits charge := by
  unfold cancel
  split
  · exact h.send _
  · split_ifs
    · exact h
    · exact h

/-- A message that is dispatched has its charge held with its call, or dropped. -/
theorem dispatch_exact {m : Message} {decodes : Bool}
    (h : s.toReceiver.Pending limits [⟨m.id, m.payload.length⟩])
    (hd : s.dispatch m decodes = .ok t) : t.toReceiver.Exact limits := by
  unfold dispatch at hd
  split at hd
  · cases hdr : s.draining with
    | true =>
      simp only [hdr, if_true] at hd
      obtain rfl := Except.ok.inj hd
      exact ((h.send _).dropTrailer m).dropCharge
    | false =>
      simp only [hdr, Bool.false_eq_true, if_false, checkCallAdmission_bind_eq_ok] at hd
      obtain ⟨-, hd⟩ := hd
      split_ifs at hd
      obtain rfl := Except.ok.inj hd
      exact h.hold
  · obtain rfl := Except.ok.inj hd
    exact (cancel_pending h m.id).dropCharge
  · obtain rfl := Except.ok.inj hd
    exact (h.send _).dropCharge
  · simp at hd
  · simp at hd

theorem handle_exact {event : Event} {decodes : Bool}
    (h : s.toReceiver.Pending limits event.charge) (hd : s.handle event decodes = .ok t) :
    t.toReceiver.Exact limits := by
  unfold handle at hd
  split at hd
  · obtain rfl := Except.ok.inj hd
    exact h.exact
  · obtain rfl := Except.ok.inj hd
    exact h.exact
  · obtain rfl := Except.ok.inj hd
    exact h.exact
  · obtain rfl := Except.ok.inj hd
    exact h.exact
  · obtain rfl := Except.ok.inj hd
    exact h.exact
  · simp only [checkCallAdmission_bind_eq_ok] at hd
    obtain rfl := Except.ok.inj hd.2
    exact h.exact
  · split_ifs at hd
    · obtain rfl := Except.ok.inj hd
      exact h.exact
    · simp at hd
  · exact dispatch_exact h hd
  · obtain rfl := Except.ok.inj hd
    exact (h.send _).exact
  · rename_i id m
    have h' := h.send (.ack id)
    exact dispatch_exact (s := { s with toReceiver := s.send (.ack id) }) h' hd

/-- What happens at a server keeps its debts exact, under the condition. -/
theorem next_exact {a : Action} (h : s.toReceiver.Exact limits) (hg : a.Untouched s)
    (hn : s.next a t) : t.toReceiver.Exact limits := by
  cases a with
  | recv f decodes =>
    obtain ⟨-, a, ha, hn⟩ := recv_eq_ok.1 hn
    have hp := h.accepted ha hg
    exact handle_exact (s := { s with toReceiver := s.accepted a }) hp hn
  | respond id => obtain ⟨-, rfl⟩ := hn; exact ⟨h.covers, h.limits_eq⟩
  | abandon id => obtain ⟨-, rfl⟩ := hn; exact ⟨h.covers, h.limits_eq⟩
  | setGuard id signal => obtain ⟨c, -, rfl⟩ := hn; exact ⟨h.covers, h.limits_eq⟩
  | release i => obtain rfl := hn; exact h.release i
  | shutdown => obtain rfl := hn; exact ⟨h.covers, h.limits_eq⟩
  | trailerOp i op => obtain rfl := hn; exact h.trailerOp i op

end Server

namespace Client

variable {s t : Client} {limits : Limits}

/-- A fragment of the action does not name a call whose charge is held. -/
def Action.Untouched (s : Client) : Action → Prop
  | .recv f _ => s.toReceiver.Untouched f.header
  | _ => True

theorem dispatch_exact {m : Message} {decodes : Bool}
    (h : s.toReceiver.Pending limits [⟨m.id, m.payload.length⟩])
    (hd : s.dispatch m decodes = .ok t) : t.toReceiver.Exact limits := by
  unfold dispatch at hd
  split at hd
  · split_ifs at hd
    obtain rfl := Except.ok.inj hd
    exact Receiver.Pending.hold (h.send _)
  · obtain rfl := Except.ok.inj hd
    exact Receiver.Pending.dropCharge (h.send _)
  · simp at hd
  · obtain rfl := Except.ok.inj hd
    exact (h.send _).dropCharge
  · simp at hd

theorem handle_exact {event : Event} {decodes : Bool}
    (h : s.toReceiver.Pending limits event.charge) (hd : s.handle event decodes = .ok t) :
    t.toReceiver.Exact limits := by
  unfold handle at hd
  split at hd
  case h_7 =>
    obtain rfl := Except.ok.inj hd
    split_ifs
    · exact h.exact
    · exact (h.send _).exact
  case h_8 => exact dispatch_exact h hd
  case h_9 =>
    obtain rfl := Except.ok.inj hd
    exact (h.send _).exact
  case h_10 id m =>
    have h' := h.send (.ack id)
    exact dispatch_exact (s := { s with toReceiver := s.send (.ack id) }) h' hd
  all_goals
    obtain rfl := Except.ok.inj hd
    exact h.exact

/-- What happens at a client keeps its debts exact, under the condition. -/
theorem next_exact {a : Action} (h : s.toReceiver.Exact limits) (hg : a.Untouched s)
    (hn : s.next a t) : t.toReceiver.Exact limits := by
  cases a with
  | recv f decodes =>
    obtain ⟨a, ha, hn⟩ := recv_eq_ok hn
    have hp := h.accepted ha hg
    exact handle_exact (s := { s with toReceiver := s.accepted a }) hp hn
  | call id => obtain ⟨-, rfl⟩ := hn; exact ⟨h.covers, h.limits_eq⟩
  | cancelled id => obtain rfl := hn; exact ⟨h.covers, h.limits_eq⟩
  | release i => obtain rfl := hn; exact h.release i
  | trailerOp i op => obtain rfl := hn; exact h.trailerOp i op

end Client

/-- Payload memory is bounded by the quota, whatever the peer sends and whatever the application
does, in every run in which no fragment that is charged or settled names a call whose charge is
held. -/
theorem payload_bounded (limits : Limits) :
    (∀ s, (Server.system limits).Run (fun s a => a.Untouched s) s → s.toReceiver.Bounded limits) ∧
      ∀ s, (Client.system limits).Run (fun s a => a.Untouched s) s →
        s.toReceiver.Bounded limits := by
  constructor
  · intro s h
    apply Receiver.Exact.bounded
    refine h.invariant (I := fun s => s.toReceiver.Exact limits) ?_ ?_
    · rintro s rfl
      exact Receiver.exact_new limits
    · intro s a t
      exact Server.next_exact
  · intro s h
    apply Receiver.Exact.bounded
    refine h.invariant (I := fun s => s.toReceiver.Exact limits) ?_ ?_
    · rintro s rfl
      exact Receiver.exact_new limits
    · intro s a t
      exact Client.next_exact

/-- A request of three bytes in one fragment. -/
def smallRequest : Fragment where
  header := ⟨{ first := true, last := true }, .request, 1, 3⟩
  payload := [1, 2, 3]
  length_eq := rfl

/-- A `Cancel` that names the same call. -/
def smallCancel : Fragment where
  header := ⟨{ first := true, last := true }, .cancel, 1, 0⟩
  payload := []
  length_eq := List.length_nil

/-- A server that has dispatched a request holds its payload within the quota. -/
theorem payload_bounded_request :
    ∃ s, (Server.system {}).Run (fun s a => a.Untouched s) s ∧ s.held = [⟨1, 3⟩] ∧
      s.toReceiver.Bounded {} := by
  have hr : (Server.system {}).Run (fun s a => a.Untouched s) _ :=
    .step (a := .recv smallRequest true) (.start rfl)
      (fun _ _ h => absurd h List.not_mem_nil) (t := _) rfl
  exact ⟨_, hr, rfl, (payload_bounded {}).1 _ hr⟩

/-- The cancellation of a call settles the debt of its payload, which the call still holds. -/
theorem cancel_settles_call :
    ∃ s, (Server.system {}).Reachable s ∧ ¬s.toReceiver.Bounded {} := by
  have hr : (Server.system {}).Reachable _ :=
    .step (a := .recv smallCancel true)
      (.step (a := .recv smallRequest true) (.start rfl) trivial rfl) trivial (t := _) rfl
  refine ⟨_, hr, fun hb => ?_⟩
  have h := hb.1 1
  revert h
  decide

end Dolang.Rpc
