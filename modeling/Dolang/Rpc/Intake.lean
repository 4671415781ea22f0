import Dolang.Rpc.Charges
import Dolang.Rpc.Quota

/-!
# The reassembler on arbitrary input

An `Intake` is a reassembler with an arbitrary peer. Any fragment can arrive at any time, and the
messages that come out belong to an arbitrary application, which releases or drops their charges and
works on their trailers when it likes. `log` records the fragments that were accepted, the latest
first, with what came out.

Whatever arrives, the counter of payloads in progress is exact and within `max_concurrent_calls`,
every buffer is within `max_payload_size`, a trailer always has its stream, and a message is handed out
once (`Steady`, `Handed`); so no `expect` and no subtraction of `accept` can fail (`Panics`).

The sum of the buffers is bounded by the payload quota as long as debts cover them. A charge settles
all that its message id owes, also what belongs to a later message with the same id that is still
arriving (`drop_settles_arriving`). In a run in which that does not happen the sum is within the quota
too.
-/

namespace Dolang.Rpc

/-- A reassembler, the charges it has handed out, and what it has accepted. -/
structure Intake where
  reassembler : Reassembler
  held : List Charge
  log : List (Fragment × Event)

namespace Intake

/-- An intake that has seen nothing. -/
def new (limits : Limits) : Intake where
  reassembler := .new limits
  held := []
  log := []

/-- A fragment was accepted. -/
def accepted (s : Intake) (f : Fragment) (a : Reassembler.Accepted) : Intake where
  reassembler := a.reassembler
  held := a.event.charge ++ s.held
  log := (f, a.event) :: s.log

/-- A charge for message `id` is released. -/
def settle (s : Intake) (id : MsgId) (held : List Charge) : Intake :=
  { s with
    reassembler := { s.reassembler with
      payloadCredit := (releaseCharge s.reassembler.payloadCredit id).1 }
    held }

/-- An operation on the trailer at `i`. -/
def trailerOp (s : Intake) (i : ℕ) (shared : RecvShared) (op : TrailerOp) : Intake :=
  { s with reassembler := { s.reassembler with
      trailers := s.reassembler.trailers.set i (op.apply shared s.reassembler.sessionCredit).1
      sessionCredit := (op.apply shared s.reassembler.sessionCredit).2.1 } }

/-- What happens at an intake. -/
inductive Action where
  | accept (f : Fragment)
  /-- The charge at `i` is released, and stays with its owner. -/
  | release (i : ℕ)
  | drop (i : ℕ)
  | trailerOp (i : ℕ) (op : TrailerOp)

/-- What an action does. -/
def next (s : Intake) : Action → Intake → Prop
  | .accept f, t => ∃ a, s.reassembler.accept f = .ok a ∧ t = s.accepted f a
  | .release i, t => ∃ charge, s.held[i]? = some charge ∧ t = s.settle charge.id s.held
  | .drop i, t => ∃ charge, s.held[i]? = some charge ∧ t = s.settle charge.id (s.held.eraseIdx i)
  | .trailerOp i op, t => ∃ shared, s.reassembler.trailers[i]? = some shared ∧
    t = s.trailerOp i shared op

/-- A reassembler with an arbitrary peer and an arbitrary application. -/
def system (limits : Limits) : System Intake Action where
  start s := s = new limits
  next := next

/-- A charge that is released or dropped is not for a message id under which another payload is
arriving. -/
def Action.Apart (s : Intake) : Action → Prop
  | .release i | .drop i => ∀ charge, s.held[i]? = some charge →
    s.reassembler.buffered charge.id = 0
  | _ => True

end Intake

/-- An entry counts as a payload in progress until its trailer begins. -/
def Incomplete.weight (e : Incomplete) : ℕ :=
  if e.trailerPhase then 0 else 1

namespace Reassembler

/-- The number of entries that are not in the trailer phase. -/
def inPayload (r : Reassembler) : ℕ :=
  r.incomplete.total Incomplete.weight

/-- `accept` would panic on a fragment: `payload_phase -= 1` underflows, at an `ABORT` or at the end
of a payload, or an entry in the trailer phase has no stream where `LAST` or data `expect` one. The
other `expect` and `unwrap`s look up the id that was found before. -/
def Panics (r : Reassembler) (f : Fragment) : Prop :=
  ∃ e, r.incomplete.lookup f.header.id = some e ∧
    if e.trailerPhase then e.trailer.bind (r.trailers[·]?) = none else r.payloadPhase = 0

/-- What holds of a reassembler whatever its peer sends. -/
structure Steady (limits : Limits) (r : Reassembler) : Prop where
  limits_eq : r.limits = limits
  phase : r.payloadPhase = r.inPayload
  calls : r.payloadPhase ≤ limits.maxConcurrentCalls
  size : ∀ id e, r.incomplete.lookup id = some e → e.postcard.length ≤ limits.maxPayloadSize
  streams : ∀ id e, r.incomplete.lookup id = some e → e.trailerPhase = true →
    e.dispatched = true ∧ ∃ i shared, e.trailer = some i ∧ r.trailers[i]? = some shared

end Reassembler

/-- A fragment ends message `id`. -/
def Fragment.ends (f : Fragment) (id : MsgId) : Bool :=
  f.header.id == id && !f.header.kind.isCount && (f.header.flags.last || f.header.flags.abort)

/-- Between two messages with the same id, the first of them included, a fragment ends that id. -/
def Handed (log : List (Fragment × Event)) : Prop :=
  ∀ newer f e mid f' e' older, log = newer ++ (f, e) :: (mid ++ (f', e') :: older) →
    ∀ m ∈ Link.messageOf e, ∀ m' ∈ Link.messageOf e', m.id = m'.id →
      ∃ p ∈ mid ++ [(f', e')], p.1.ends m.id = true

/-! ### Entries -/

namespace Reassembler

variable {r r' : Reassembler} {limits : Limits} {f : Fragment} {a : Accepted} {id : MsgId}
  {e : Incomplete}

theorem steady_new (limits : Limits) : (new limits).Steady limits where
  limits_eq := rfl
  phase := rfl
  calls := Nat.zero_le _
  size := fun _ _ h => nomatch h
  streams := fun _ _ h => nomatch h

theorem Steady.not_panics (h : r.Steady limits) (f : Fragment) : ¬r.Panics f := by
  rintro ⟨e, hl, hp⟩
  split_ifs at hp with ht
  · obtain ⟨-, i, shared, he, hs⟩ := h.streams _ e hl ht
    simp [he, hs] at hp
  · have hw : e.weight = 1 := if_neg ht
    have hle := Table.le_total Incomplete.weight hl
    rw [h.phase, inPayload] at hp
    omega

/-- Entries and streams stay. -/
theorem Steady.keep (h : r.Steady limits) (hlim : r'.limits = r.limits)
    (hi : r'.incomplete = r.incomplete) (hp : r'.payloadPhase = r.payloadPhase)
    (ht : r.trailers.length ≤ r'.trailers.length) : r'.Steady limits where
  limits_eq := hlim.trans h.limits_eq
  phase := by rw [hp, inPayload, hi, h.phase, inPayload]
  calls := by rw [hp]; exact h.calls
  size := by rw [hi]; exact h.size
  streams := by
    intro id e hl hte
    rw [hi] at hl
    obtain ⟨hd, i, shared, he, hs⟩ := h.streams id e hl hte
    have hlt := (List.getElem?_eq_some_iff.1 hs).1
    exact ⟨hd, i, r'.trailers[i], he, List.getElem?_eq_getElem (by omega)⟩

/-- An entry goes. -/
theorem Steady.erase (h : r.Steady limits) (hl : r.incomplete.lookup id = some e)
    (hlim : r'.limits = r.limits) (hi : r'.incomplete = r.incomplete.erase id)
    (hp : r'.payloadPhase = r.payloadPhase - e.weight)
    (ht : r.trailers.length ≤ r'.trailers.length) : r'.Steady limits := by
  have hw := Table.total_erase Incomplete.weight r.incomplete id
  rw [hl, Option.elim_some] at hw
  have hphase := h.phase
  unfold inPayload at hphase
  have hrest : ∀ id' e', r'.incomplete.lookup id' = some e' → r.incomplete.lookup id' = some e' := by
    intro id' e' he
    rw [hi, Table.lookup_erase_if] at he
    split_ifs at he
    exact he
  refine ⟨hlim.trans h.limits_eq, ?_, ?_, fun id' e' he => h.size id' e' (hrest id' e' he), ?_⟩
  · rw [hp, inPayload, hi]
    omega
  · have := h.calls
    omega
  · intro id' e' he hte
    obtain ⟨hd, i, shared, het, hs⟩ := h.streams id' e' (hrest id' e' he) hte
    have hlt := (List.getElem?_eq_some_iff.1 hs).1
    exact ⟨hd, i, r'.trailers[i], het, List.getElem?_eq_getElem (by omega)⟩

/-- An entry comes, or changes. -/
theorem Steady.insert (h : r.Steady limits) {e : Incomplete} (hlim : r'.limits = r.limits)
    (hi : r'.incomplete = r.incomplete.insert id e)
    (hp : r'.payloadPhase + (r.incomplete.lookup id).elim 0 Incomplete.weight =
      r.payloadPhase + e.weight)
    (hc : r'.payloadPhase ≤ limits.maxConcurrentCalls)
    (ht : r.trailers.length ≤ r'.trailers.length)
    (hsize : e.postcard.length ≤ limits.maxPayloadSize)
    (hstream : e.trailerPhase = true → e.dispatched = true ∧
      ∃ i shared, e.trailer = some i ∧ r'.trailers[i]? = some shared) : r'.Steady limits := by
  have hw := Table.total_insert Incomplete.weight r.incomplete id e
  have hphase := h.phase
  unfold inPayload at hphase
  refine ⟨hlim.trans h.limits_eq, ?_, hc, ?_, ?_⟩
  · rw [inPayload, hi]
    omega
  · intro id' e' he
    rw [hi, Table.lookup_insert_if] at he
    split_ifs at he
    · obtain rfl := Option.some.inj he
      exact hsize
    · exact h.size id' e' he
  · intro id' e' he hte
    rw [hi, Table.lookup_insert_if] at he
    split_ifs at he
    · obtain rfl := Option.some.inj he
      exact hstream hte
    · obtain ⟨hd, i, shared, het, hs⟩ := h.streams id' e' he hte
      have hlt := (List.getElem?_eq_some_iff.1 hs).1
      exact ⟨hd, i, r'.trailers[i], het, List.getElem?_eq_getElem (by omega)⟩

/-- A payload fragment that continues the payload of `e`, which is counted in `n`. -/
theorem Steady.advanceEntry (h : r.Steady limits) {n : ℕ} {w : SessionWindow}
    (hp : e.trailerPhase = false)
    (hn : n + (r.incomplete.lookup f.header.id).elim 0 Incomplete.weight = r.payloadPhase + 1)
    (hmem : f.header.flags.last = true → f.header.flags.trailer = false →
      ∃ old, r.incomplete.lookup f.header.id = some old ∧ old.trailerPhase = false)
    (hc : n ≤ limits.maxConcurrentCalls) (hsize : e.postcard.length ≤ limits.maxPayloadSize) :
    (advanceEntry { r with payloadPhase := n, payloadCredit := w } f.header
      e).reassembler.Steady limits := by
  have hold : (r.incomplete.lookup f.header.id).elim 0 Incomplete.weight ≤ r.payloadPhase := by
    rw [h.phase]
    exact Table.elim_le_total ..
  unfold Reassembler.advanceEntry
  split_ifs with ht hlast
  · refine h.insert rfl rfl ?_ ?_ ?_ (Nat.zero_le _) fun _ => ?_
    · show n - 1 + _ = r.payloadPhase + 0
      omega
    · show n - 1 ≤ _
      omega
    · simp
    · refine ⟨rfl, r.trailers.length, RecvShared.new r.limits f.header.id, rfl, ?_⟩
      simp
  · obtain ⟨old, hl, ho⟩ := hmem hlast (by simpa using ht)
    have hw : old.weight = 1 := by simp [Incomplete.weight, ho]
    rw [hl, Option.elim_some, hw] at hn
    refine h.erase hl rfl rfl ?_ le_rfl
    show n - 1 = r.payloadPhase - old.weight
    omega
  · have hw : e.weight = 1 := by simp [Incomplete.weight, hp]
    refine h.insert rfl rfl ?_ hc le_rfl hsize fun hte => absurd hte (by simp [hp])
    show n + _ = r.payloadPhase + e.weight
    omega

theorem length_trailers_accept (ha : Accepts r f a) :
    r.trailers.length ≤ a.reassembler.trailers.length := by
  cases ha with
  | @abort entry =>
    simp only [abortEntry]
    split <;> simp
  | @commit entry =>
    obtain ⟨-, he⟩ | ⟨i, s, -, -, he⟩ := commitEntry_cases r f.header entry <;> simp [he]
  | whole => exact le_rfl
  | trailerData _ _ _ _ _ _ _ _ h =>
    obtain ⟨-, rfl⟩ | ⟨i, s, s', w, -, -, -, rfl⟩ := acceptTrailer_cases h <;> simp
  | opened => unfold Reassembler.advanceEntry; split_ifs <;> simp
  | continued => unfold Reassembler.advanceEntry; split_ifs <;> simp

/-- Whatever a fragment is, an accepted one keeps the entries in order. -/
theorem Steady.accept (h : r.Steady limits) (ha : r.accept f = .ok a) :
    a.reassembler.Steady limits := by
  obtain ⟨-, n, -, rfl⟩ | ⟨-, ha'⟩ := accept_cases ha
  · exact h
  have hlim := accept_limits ha
  have hlen := length_trailers_accept ha'
  cases ha' with
  | @abort entry hab hl hk =>
    refine h.erase hl hlim rfl ?_ hlen
    show (if entry.trailerPhase then r.payloadPhase else r.payloadPhase - 1) =
      r.payloadPhase - entry.weight
    unfold Incomplete.weight
    split_ifs <;> rfl
  | @commit entry hab hf hlast ht hl hk hp h0 =>
    have hw : entry.weight = 0 := by simp [Incomplete.weight, hp]
    obtain ⟨-, he⟩ | ⟨i, s, -, -, he⟩ := commitEntry_cases r f.header entry
    · refine h.erase hl hlim (by rw [he]) ?_ hlen
      rw [he, hw]
      rfl
    · refine h.erase hl hlim (by rw [he]) ?_ hlen
      rw [he, hw]
      rfl
  | whole => exact h.keep rfl rfl rfl le_rfl
  | trailerData _ _ _ _ _ _ _ _ ht =>
    obtain ⟨-, rfl⟩ | ⟨i, s, s', w, -, -, -, rfl⟩ := acceptTrailer_cases ht
    · exact h
    · exact h.keep rfl rfl rfl (by simp)
  | @opened w hab hf hlast hn hroom hsize hw =>
    have hl : r.incomplete.lookup f.header.id = none := AList.lookup_eq_none.2 hn
    refine h.advanceEntry rfl ?_ ?_ ?_ ?_
    · rw [hl]
      rfl
    · intro hlast'
      exact nomatch hlast'.symm.trans hlast
    · rw [h.limits_eq] at hroom
      exact hroom
    · simpa [extendEntry, f.length_eq, h.limits_eq] using hsize
  | @continued entry w hab hf hlt hl hk hp hb hsize hw =>
    refine h.advanceEntry (n := r.payloadPhase) hp ?_ ?_ h.calls ?_
    · rw [hl, Option.elim_some, Incomplete.weight, hp]
      rfl
    · exact fun _ _ => ⟨entry, hl, hp⟩
    · simpa [extendEntry, f.length_eq, h.limits_eq] using hsize

/-! ### Debts -/

/-- The debts cover what is buffered. -/
structure Covered (limits : Limits) (r : Reassembler) : Prop where
  owed : ∀ id, r.buffered id ≤ r.payloadCredit.owed id
  capacity : r.payloadCredit.capacity = limits.maxOutstandingPayload

theorem covered_new (limits : Limits) : (new limits).Covered limits where
  owed := fun _ => Nat.zero_le _
  capacity := rfl

/-- Debts that cover the buffers bound their sum by the quota. -/
theorem Covered.bufferedTotal_le (h : r.Covered limits) :
    r.bufferedTotal ≤ limits.maxOutstandingPayload := by
  have hle : r.bufferedTotal ≤ r.payloadCredit.outstanding := by
    refine Table.total_le_total _ _ fun id => ?_
    rw [SessionWindow.elim_lookup]
    exact h.owed id
  have hc := h.capacity
  rw [SessionWindow.capacity] at hc
  omega

/-- The bytes of a payload fragment are charged where they are buffered. -/
theorem buffered_advanceEntry {w : SessionWindow} {n : ℕ} {b : ℕ}
    (hb : e.postcard.length = b) (hw : w.owed f.header.id = r.payloadCredit.owed f.header.id +
      f.header.payloadLen) (hle : b ≤ r.payloadCredit.owed f.header.id) :
    (advanceEntry { r with payloadPhase := n, payloadCredit := w } f.header
      (extendEntry e f)).reassembler.buffered f.header.id ≤ w.owed f.header.id := by
  unfold Reassembler.advanceEntry
  split_ifs
  · rw [Covers.buffered_insert (r := r) _ _ _ rfl, if_pos rfl]
    exact Nat.zero_le _
  · rw [Covers.buffered_erase (r := r) _ _ rfl, if_pos rfl]
    exact Nat.zero_le _
  · rw [Covers.buffered_insert (r := r) _ _ _ rfl, if_pos rfl]
    simp only [extendEntry, List.length_append, f.length_eq]
    omega

theorem buffered_advanceEntry_ne {w : SessionWindow} {n : ℕ} (hne : id ≠ f.header.id) :
    (advanceEntry { r with payloadPhase := n, payloadCredit := w } f.header e).reassembler.buffered id =
      r.buffered id := by
  unfold Reassembler.advanceEntry
  split_ifs
  · rw [Covers.buffered_insert (r := r) _ _ _ rfl, if_neg hne]
  · rw [Covers.buffered_erase (r := r) _ _ rfl, if_neg hne]
  · rw [Covers.buffered_insert (r := r) _ _ _ rfl, if_neg hne]

/-- What an accepted fragment does to the buffer of another message. -/
theorem buffered_accept (h : r.accept f = .ok a) (hne : id ≠ f.header.id) :
    a.reassembler.buffered id = r.buffered id := by
  obtain ⟨-, n, -, rfl⟩ | ⟨-, h⟩ := accept_cases h
  · rfl
  cases h with
  | abort => rw [Covers.buffered_erase (r := r) _ _ rfl, if_neg hne]
  | @commit entry =>
    rw [Covers.buffered_erase (r := r) _ _ (commitEntry_eq f.header entry).1, if_neg hne]
  | whole => rfl
  | trailerData _ _ _ _ _ _ _ _ h => rw [buffered, (acceptTrailer_eq h).1]; rfl
  | opened => exact buffered_advanceEntry_ne hne
  | continued => exact buffered_advanceEntry_ne (n := r.payloadPhase) hne

theorem Covered.accept (h : r.Covered limits) (ha : r.accept f = .ok a) :
    a.reassembler.Covered limits := by
  refine ⟨fun id => ?_, (capacity_accept ha).trans h.capacity⟩
  by_cases hne : id = f.header.id
  · subst hne
    have h0 := h.owed f.header.id
    obtain ⟨-, n, -, rfl⟩ | ⟨-, ha⟩ := accept_cases ha
    · exact h0
    cases ha with
    | abort =>
      rw [Covers.buffered_erase (r := r) _ _ rfl, if_pos rfl]
      exact Nat.zero_le _
    | @commit entry =>
      rw [Covers.buffered_erase (r := r) _ _ (commitEntry_eq f.header entry).1, if_pos rfl]
      exact Nat.zero_le _
    | @whole w hab hf hlast ht hn hsize hw =>
      have ho := SessionWindow.owed_accepted hw
      show r.buffered f.header.id ≤ w.owed f.header.id
      omega
    | trailerData _ _ _ _ _ _ _ _ h =>
      rw [buffered, (acceptTrailer_eq h).1, (acceptTrailer_eq h).2.1]
      exact h0
    | @opened w hab hf hlast hn hroom hsize hw =>
      have ho := SessionWindow.owed_accepted hw
      rw [(payloadCredit_advanceEntry ..).1]
      exact buffered_advanceEntry rfl ho (Nat.zero_le _)
    | @continued entry w hab hf hlt hl hk hp hb hsize hw =>
      have ho := SessionWindow.owed_accepted hw
      rw [(payloadCredit_advanceEntry ..).1]
      refine buffered_advanceEntry (n := r.payloadPhase) rfl ho ?_
      rwa [Covers.buffered_of_lookup hl] at h0
  · rw [buffered_accept ha hne, owed_accept ha hne]
    exact h.owed id

/-- Settling the debt of a message that is not arriving uncovers nothing. -/
theorem Covered.settle (h : r.Covered limits) (hb : r.buffered id = 0) :
    Covered limits { r with payloadCredit := (releaseCharge r.payloadCredit id).1 } := by
  refine ⟨fun id' => ?_, (SessionWindow.capacity_settle ..).trans h.capacity⟩
  show r.buffered id' ≤ (r.payloadCredit.settle id).1.owed id'
  rw [SessionWindow.owed_settle]
  split_ifs with hid
  · rw [hid, hb]
  · exact h.owed id'

/-! ### Messages -/

@[simp] theorem messageOf_deliver (h : FragmentHeader) (m : Message) :
    Link.messageOf (deliver h m) = [m] := by
  unfold deliver
  split_ifs <;> rfl

@[simp] theorem messageOf_progress (h : FragmentHeader) : Link.messageOf (progress h) = [] := by
  unfold progress
  split_ifs <;> rfl

@[simp] theorem messageOf_countEvent (h : FragmentHeader) (n : ℕ) :
    Link.messageOf (countEvent h n) = [] := by
  unfold countEvent
  split <;> rfl

theorem messageOf_advanceEntry {m : Message}
    (hm : m ∈ Link.messageOf (r.advanceEntry f.header e).event) :
    m.id = f.header.id ∧ (f.header.flags.trailer = true ∨ f.header.flags.last = true) := by
  unfold Reassembler.advanceEntry at hm
  split_ifs at hm with ht hlast
  · rw [messageOf_deliver, List.mem_singleton] at hm
    exact ⟨by rw [hm], .inl ht⟩
  · rw [messageOf_deliver, List.mem_singleton] at hm
    exact ⟨by rw [hm], .inr hlast⟩
  · simp at hm

/-- A message comes out when its id is not in the trailer phase, with a fragment that ends it or
begins its trailer. -/
theorem messageOf_accept {m : Message} (h : r.accept f = .ok a) (hm : m ∈ Link.messageOf a.event) :
    m.id = f.header.id ∧ r.phase f.header.id ≠ .trailer ∧
      (f.ends f.header.id = true ∨ a.reassembler.phase f.header.id = .trailer) := by
  have hphase := phase_accept h f.header.id
  rw [if_pos rfl] at hphase
  obtain ⟨-, n, -, rfl⟩ | ⟨hk, h⟩ := accept_cases h
  · simp at hm
  have hends : f.header.flags.last = true → f.ends f.header.id = true := by
    intro hl
    simp [Fragment.ends, hk, hl]
  cases h with
  | abort => simp [Link.messageOf, abortEntry] at hm
  | @commit entry => simp [(commitEntry_eq f.header entry).2.2.2.2, Link.messageOf] at hm
  | whole hab hf hlast ht hn =>
    rw [messageOf_deliver, List.mem_singleton] at hm
    rw [hm, phase_of_notMem hn]
    exact ⟨rfl, by decide, .inl (hends hlast)⟩
  | trailerData _ _ _ _ _ _ _ _ h =>
    obtain ⟨-, rfl⟩ | ⟨i, s, s', w, -, -, -, rfl⟩ := acceptTrailer_cases h <;>
      simp [Link.messageOf] at hm
  | opened hab hf hlast hn =>
    obtain ⟨hid, ht | hl⟩ := messageOf_advanceEntry hm
    · refine ⟨hid, by rw [phase_of_notMem hn]; decide, .inr ?_⟩
      rw [hphase, Phase.after]
      simp [hk, hab, hlast, ht]
    · cases hl.symm.trans hlast
  | continued hab hf hlt hl hk' hp =>
    have hne : r.phase f.header.id ≠ .trailer := by
      rw [phase_of_lookup hl, hp]
      decide
    obtain ⟨hid, ht | hlast⟩ := messageOf_advanceEntry hm
    · refine ⟨hid, hne, .inr ?_⟩
      have hlast : f.header.flags.last = false := by simpa [ht] using hlt
      rw [hphase, Phase.after]
      simp [hk, hab, hlast, ht, hf]
    · exact ⟨hid, hne, .inl (hends hlast)⟩

/-- A trailer goes on until a fragment ends its message. -/
theorem phase_trailer_accept (h : r.accept f = .ok a) (hp : r.phase id = .trailer)
    (he : f.ends id = false) : a.reassembler.phase id = .trailer := by
  rw [phase_accept h, hp]
  split_ifs with hid
  · subst hid
    unfold Fragment.ends at he
    rw [Phase.after]
    obtain ⟨hk, -⟩ | ⟨hk, h⟩ := accept_cases h
    · rw [if_pos hk]
    · simp only [hk, beq_self_eq_true, Bool.not_false, Bool.and_self, Bool.true_and,
        Bool.or_eq_false_iff] at he
      -- Its id is taken, so the fragment is not a first one.
      have hf : f.header.flags.first = false := by
        cases h with
        | abort hab => cases hab.symm.trans he.2
        | commit _ hf | trailerData _ hf | continued _ hf => exact hf
        | whole _ _ _ _ hn | opened _ _ _ hn =>
          rw [phase_of_notMem hn] at hp
          cases hp
      simp [hk, he.1, he.2, hf]
  · rfl

end Reassembler

/-- A message with id `id` came out, and nothing has ended it since. -/
def Pends (log : List (Fragment × Event)) (id : MsgId) : Prop :=
  ∃ mid f e older, log = mid ++ (f, e) :: older ∧ (∃ m ∈ Link.messageOf e, m.id = id) ∧
    ∀ p ∈ mid ++ [(f, e)], p.1.ends id = false

namespace Intake

variable {s t : Intake} {limits : Limits} {f : Fragment} {a : Reassembler.Accepted}

/-- A message that came out and has not ended is in the trailer phase, so it does not come out
again. -/
structure Logged (s : Intake) : Prop where
  pends : ∀ id, Pends s.log id → s.reassembler.phase id = .trailer
  handed : Handed s.log

theorem logged_new (limits : Limits) : (new limits).Logged where
  pends := by
    rintro id ⟨mid, f, e, older, h, -⟩
    simp [new] at h
  handed := by
    intro newer f e mid f' e' older h
    simp [new] at h

theorem Logged.accepted (h : s.Logged) (ha : s.reassembler.accept f = .ok a) :
    (s.accepted f a).Logged where
  pends := by
    rintro id ⟨mid, f', e', older, hlog, ⟨m, hm, rfl⟩, hmid⟩
    cases mid with
    | nil =>
      -- It came out just now.
      obtain ⟨he, -⟩ := List.cons.inj hlog
      obtain ⟨rfl, rfl⟩ := Prod.mk.inj he
      obtain ⟨hid, -, hor⟩ := Reassembler.messageOf_accept ha hm
      have hno := hmid _ List.mem_cons_self
      rw [hid] at hno ⊢
      exact hor.resolve_left (by simp [hno])
    | cons p mid =>
      obtain ⟨rfl, hrest⟩ := List.cons.inj hlog
      have hp := h.pends m.id ⟨mid, f', e', older, hrest, ⟨m, hm, rfl⟩,
        fun p hp => hmid p (List.mem_cons_of_mem _ hp)⟩
      exact Reassembler.phase_trailer_accept ha hp (hmid _ List.mem_cons_self)
  handed := by
    intro newer f₂ e₂ mid f₁ e₁ older hlog m₂ hm₂ m₁ hm₁ hid
    cases newer with
    | nil =>
      obtain ⟨he, hrest⟩ := List.cons.inj hlog
      obtain ⟨rfl, rfl⟩ := Prod.mk.inj he
      obtain ⟨hid₂, hne, -⟩ := Reassembler.messageOf_accept ha hm₂
      by_contra hno
      push Not at hno
      have hp := h.pends m₂.id ⟨mid, f₁, e₁, older, hrest, ⟨m₁, hm₁, hid.symm⟩, fun p hp => by
        simpa using hno p hp⟩
      rw [hid₂] at hp
      exact hne hp
    | cons p newer =>
      obtain ⟨-, hlog⟩ := List.cons.inj hlog
      exact h.handed newer f₂ e₂ mid f₁ e₁ older hlog m₂ hm₂ m₁ hm₁ hid

/-- What holds whatever happens. -/
structure Sound (limits : Limits) (s : Intake) : Prop where
  steady : s.reassembler.Steady limits
  logged : s.Logged

theorem Sound.next {a : Action} (h : s.Sound limits) (hn : s.next a t) : t.Sound limits := by
  cases a with
  | accept f =>
    obtain ⟨a, ha, rfl⟩ := hn
    exact ⟨h.steady.accept ha, h.logged.accepted ha⟩
  | release i | drop i =>
    obtain ⟨charge, -, rfl⟩ := hn
    exact ⟨h.steady.keep rfl rfl rfl le_rfl, h.logged.pends, h.logged.handed⟩
  | trailerOp i op =>
    obtain ⟨shared, -, rfl⟩ := hn
    exact ⟨h.steady.keep rfl rfl rfl (by simp [trailerOp]), h.logged.pends, h.logged.handed⟩

theorem covered_next {a : Action} (h : s.reassembler.Covered limits) (hg : a.Apart s)
    (hn : s.next a t) : t.reassembler.Covered limits := by
  cases a with
  | accept f =>
    obtain ⟨a, ha, rfl⟩ := hn
    exact h.accept ha
  | release i | drop i =>
    obtain ⟨charge, hc, rfl⟩ := hn
    exact h.settle (hg charge hc)
  | trailerOp i op =>
    obtain ⟨shared, -, rfl⟩ := hn
    exact ⟨h.owed, h.capacity⟩

/-- What the reassembler promises of a state that it reaches. -/
structure Holds (limits : Limits) (s : Intake) : Prop where
  /-- No fragment makes it panic. -/
  panics : ∀ f, ¬s.reassembler.Panics f
  phase : s.reassembler.payloadPhase = s.reassembler.inPayload
  calls : s.reassembler.payloadPhase ≤ limits.maxConcurrentCalls
  size : ∀ id e, s.reassembler.incomplete.lookup id = some e →
    e.postcard.length ≤ limits.maxPayloadSize
  streams : ∀ id e, s.reassembler.incomplete.lookup id = some e → e.trailerPhase = true →
    e.dispatched = true ∧ ∃ i shared, e.trailer = some i ∧ s.reassembler.trailers[i]? = some shared
  handed : Handed s.log

theorem Sound.holds (h : s.Sound limits) : s.Holds limits where
  panics := h.steady.not_panics
  phase := h.steady.phase
  calls := h.steady.calls
  size := h.steady.size
  streams := h.steady.streams
  handed := h.logged.handed

end Intake

/-- The reassembler holds its limits on arbitrary input. The sum of its buffers is within the quota in
every run in which no charge is released while another payload arrives under its id. -/
theorem intake_holds (limits : Limits) :
    (∀ s, (Intake.system limits).Reachable s → s.Holds limits) ∧
      ∀ s, (Intake.system limits).Run (fun s a => a.Apart s) s →
        s.Holds limits ∧ s.reassembler.bufferedTotal ≤ limits.maxOutstandingPayload := by
  have hall : ∀ s, (Intake.system limits).Reachable s → s.Holds limits := by
    intro s h
    apply Intake.Sound.holds
    refine h.invariant (I := fun s => s.Sound limits) ?_ ?_
    · rintro s rfl
      exact ⟨Reassembler.steady_new limits, Intake.logged_new limits⟩
    · intro s a t hs _ hn
      exact hs.next hn
  refine ⟨hall, fun s h => ⟨hall s h.reachable, ?_⟩⟩
  apply Reassembler.Covered.bufferedTotal_le
  refine h.invariant (I := fun s => s.reassembler.Covered limits) ?_ ?_
  · rintro s rfl
    exact Reassembler.covered_new limits
  · intro s a t
    exact Intake.covered_next

/-- The limits of a session with a quota of four bytes. -/
def tightLimits : Limits :=
  { maxPayloadSize := 4, maxOutstandingPayload := 4 }

/-- The beginning of a request with `bytes`. -/
def opening (id : MsgId) (bytes : List UInt8) : Fragment where
  header := ⟨{ first := true }, .request, id, bytes.length⟩
  payload := bytes
  length_eq := length_payload bytes

/-- A request in one fragment comes out, and its charge is dropped. -/
theorem intake_holds_request :
    ∃ s, (Intake.system {}).Run (fun s a => a.Apart s) s ∧ s.log.length = 1 ∧ s.held = [] ∧
      s.reassembler.bufferedTotal ≤ Limits.maxOutstandingPayload {} := by
  have h1 : (Intake.system {}).Run (fun s a => a.Apart s) _ :=
    .step (a := .accept smallRequest) (.start rfl) trivial (t := _) ⟨_, rfl, rfl⟩
  have hr : (Intake.system {}).Run (fun s a => a.Apart s) _ :=
    .step (a := .drop 0) h1 (by
      intro charge hc
      obtain rfl := Option.some.inj hc
      decide) (t := _) ⟨_, rfl, rfl⟩
  exact ⟨_, hr, rfl, rfl, ((intake_holds {}).2 _ hr).2⟩

/-- The charge of a request settles the debt of a second one with the same id, which is still
arriving. Its bytes are not counted any more, so that a third one exceeds the quota. -/
theorem drop_settles_arriving :
    ∃ s, (Intake.system tightLimits).Reachable s ∧
      ¬s.reassembler.bufferedTotal ≤ tightLimits.maxOutstandingPayload := by
  have h1 : (Intake.system tightLimits).Reachable _ :=
    .step (a := .accept smallRequest) (.start rfl) trivial (t := _) ⟨_, rfl, rfl⟩
  have h2 : (Intake.system tightLimits).Reachable _ :=
    .step (a := .accept (opening 1 [7])) h1 trivial (t := _) ⟨_, rfl, rfl⟩
  have h3 : (Intake.system tightLimits).Reachable _ :=
    .step (a := .drop 0) h2 trivial (t := _) ⟨_, rfl, rfl⟩
  have h4 : (Intake.system tightLimits).Reachable _ :=
    .step (a := .accept (opening 2 [1, 2, 3, 4])) h3 trivial (t := _) ⟨_, rfl, rfl⟩
  exact ⟨_, h4, by decide⟩

end Dolang.Rpc
