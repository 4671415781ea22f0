import Dolang.Rpc.Link

/-!
# Framing

Where a message stands is known at both ends: to the sender from how far it has sent it, to the
receiver from its table of incomplete messages. The two differ by what is in between, the fragments
on the wire and the control items, which go out before anything else. `Phase.after` is what a
fragment does to the phase of its message, and `Framed` says that the phase at the receiver, moved
on by everything in between, is the phase at the sender.

This holds in every run. It does not say that the receiver accepts what comes: a control item with
the id of an open message would be refused.
-/

namespace Dolang.Rpc

/-- Where a message stands. -/
inductive Phase where
  | absent
  | payload
  | trailer
  deriving DecidableEq, Repr

namespace Phase

/-- What a fragment does to the phase of its message. -/
def after (p : Phase) (h : FragmentHeader) : Phase :=
  if h.kind.isCount then p
  else if h.flags.abort then .absent
  else if h.flags.first && h.flags.last then p
  else if h.flags.last then .absent
  else if h.flags.trailer then .trailer
  else if h.flags.first then .payload
  else p

/-- The phase of message `id` after some fragments. -/
def follow (id : MsgId) (p : Phase) (fs : List Fragment) : Phase :=
  fs.foldl (fun p f => if f.header.id = id then p.after f.header else p) p

@[simp] theorem follow_nil (id : MsgId) (p : Phase) : follow id p [] = p := rfl

theorem follow_cons (id : MsgId) (p : Phase) (f : Fragment) (fs : List Fragment) :
    follow id p (f :: fs) = follow id (if f.header.id = id then p.after f.header else p) fs :=
  rfl

theorem follow_append (id : MsgId) (p : Phase) (fs gs : List Fragment) :
    follow id p (fs ++ gs) = follow id (follow id p fs) gs :=
  List.foldl_append

theorem follow_of_ne {id : MsgId} {p : Phase} {fs : List Fragment}
    (h : ∀ f ∈ fs, f.header.id ≠ id) : follow id p fs = p := by
  induction fs with
  | nil => rfl
  | cons f fs ih =>
    rw [follow_cons, if_neg (h f List.mem_cons_self)]
    exact ih fun g hg => h g (List.mem_cons_of_mem _ hg)

end Phase

/-- The phase of a message by how far it was sent. -/
def ActiveSend.phase (send : ActiveSend) : Phase :=
  if !send.started then .absent else if send.ledger then .payload else .trailer

/-- The phase of message `id` at the receiver. -/
def Reassembler.phase (r : Reassembler) (id : MsgId) : Phase :=
  match r.incomplete.lookup id with
  | none => .absent
  | some e => if e.trailerPhase then .trailer else .payload

/-! ### The sender -/

/-- How far a message was sent makes sense. -/
structure ActiveSend.Sound (send : ActiveSend) : Prop where
  offset_le : send.offset ≤ send.payload.length
  handles_le : send.handleOffset ≤ send.handles
  charged : send.charged = send.payload.length
  fresh : send.started = false → send.offset = 0 ∧ send.handleOffset = 0 ∧ send.ledger = true
  ended : send.ledger = false → send.offset = send.payload.length ∧ send.handleOffset = send.handles
  going : send.ledger = true → send.started = true →
    send.offset < send.payload.length ∨ send.handleOffset < send.handles

/-- Nothing of a message was sent. -/
structure ActiveSend.Idle (send : ActiveSend) : Prop where
  started : send.started = false
  offset : send.offset = 0
  handleOffset : send.handleOffset = 0
  ledger : send.ledger = true

/-- A message is a later state of another one. -/
structure ActiveSend.From (send' send : ActiveSend) : Prop where
  id : send'.id = send.id
  kind : send'.kind = send.kind
  trailer : send'.trailer = send.trailer ∨ send'.trailer = none

theorem ActiveSend.From.refl (send : ActiveSend) : send.From send :=
  ⟨rfl, rfl, .inl rfl⟩

namespace Sender

/-- All messages that a sender has. -/
def queued (s : Sender) : List ActiveSend :=
  s.sends ++ s.waiting

/-- The message that a producer belongs to. -/
def key (p : Producer) : Kind × MsgId :=
  (p.shared.kind, p.shared.id)

/-- The messages and the trailers of a sender fit together. -/
structure Sound (kind : Kind) (used : List MsgId) (s : Sender) : Prop where
  distinct : (s.queued.map ActiveSend.id).Nodup
  ids : ∀ send ∈ s.queued, send.id ∈ used
  kinds : ∀ send ∈ s.queued, send.kind = kind
  sound : ∀ send ∈ s.sends, send.Sound
  idle : ∀ send ∈ s.waiting, send.Idle
  streams : ∀ send ∈ s.queued, ∀ i, send.trailer = some i →
    (s.producers.map key)[i]? = some (kind, send.id)
  producers_kind : ∀ k ∈ s.producers.map key, k.1 = kind
  producers_distinct : (s.producers.map key).Nodup
  /-- Nothing goes out of turn while a lease is out, and only trailers have one. -/
  leased : ∀ lease, s.lease = some lease → s.control = [] ∧ lease.send.started = true ∧
    lease.send.ledger = false ∧ lease.send.trailer.isSome = true
  /-- A producer that may write to the transport has the lease. -/
  granted : ∀ i p, s.producers[i]? = some p → p.shared.state = .granted →
    ∃ lease, s.lease = some lease ∧ lease.send.trailer = some i ∧ lease.ready = none

variable {kind : Kind} {used : List MsgId} {s s' : Sender} {send : ActiveSend}

theorem sound_new (kind : Kind) (limits : Limits) : (new limits).Sound kind [] where
  distinct := List.nodup_nil
  ids := fun _ h => nomatch h
  kinds := fun _ h => nomatch h
  sound := fun _ h => nomatch h
  idle := fun _ h => nomatch h
  streams := fun _ h => nomatch h
  producers_kind := fun _ h => nomatch h
  producers_distinct := List.nodup_nil
  leased := fun _ h => nomatch h
  granted := fun _ _ h => nomatch h

/-- A sender whose messages are later states of those before, and whose producers belong to the same
messages, is sound. -/
theorem Sound.of_from (h : s.Sound kind used)
    (hcount : ∀ id, (s'.queued.map ActiveSend.id).count id ≤ (s.queued.map ActiveSend.id).count id)
    (hfrom : ∀ send' ∈ s'.queued, ∃ send ∈ s.queued, send'.From send)
    (hsound : ∀ send ∈ s'.sends, send.Sound) (hidle : ∀ send ∈ s'.waiting, send.Idle)
    (hkey : s'.producers.map key = s.producers.map key)
    (hleased : ∀ lease, s'.lease = some lease → s'.control = [] ∧ lease.send.started = true ∧
      lease.send.ledger = false ∧ lease.send.trailer.isSome = true)
    (hgranted : ∀ i p, s'.producers[i]? = some p → p.shared.state = .granted →
      ∃ lease, s'.lease = some lease ∧ lease.send.trailer = some i ∧ lease.ready = none) :
    s'.Sound kind used where
  distinct := List.nodup_iff_count_le_one.2 fun id =>
    (hcount id).trans (List.nodup_iff_count_le_one.1 h.distinct id)
  ids := by
    intro send' hs
    obtain ⟨send, hm, hf⟩ := hfrom send' hs
    rw [hf.id]
    exact h.ids send hm
  kinds := by
    intro send' hs
    obtain ⟨send, hm, hf⟩ := hfrom send' hs
    rw [hf.kind]
    exact h.kinds send hm
  sound := hsound
  idle := hidle
  streams := by
    intro send' hs i hi
    obtain ⟨send, hm, hf⟩ := hfrom send' hs
    rw [hkey, hf.id]
    obtain ht | ht := hf.trailer
    · exact h.streams send hm i (ht ▸ hi)
    · rw [ht] at hi
      exact nomatch hi
  producers_kind := by
    rw [hkey]
    exact h.producers_kind
  producers_distinct := by
    rw [hkey]
    exact h.producers_distinct
  leased := hleased
  granted := hgranted

/-- Changing a producer and not the message that it belongs to. -/
theorem map_key_set {ps : List Producer} {i : ℕ} {p p' : Producer} (hp : ps[i]? = some p)
    (hk : key p' = key p) : (ps.set i p').map key = ps.map key := by
  rw [List.map_set, hk, ← List.map_set]
  obtain ⟨hi, rfl⟩ := List.getElem?_eq_some_iff.1 hp
  rw [List.set_getElem_self]

theorem map_key_modify {ps : List Producer} {i : ℕ} {f : Producer → Producer}
    (hk : ∀ p, key (f p) = key p) : (ps.modify i f).map key = ps.map key := by
  apply List.ext_getElem?
  intro j
  rw [List.getElem?_map, List.getElem?_map, List.getElem?_modify]
  cases ps[j]? with
  | none => rfl
  | some p =>
    by_cases hij : i = j
    · simp [hij, hk]
    · simp [hij]

/-- Budgets, pools and slots do not matter. -/
theorem Sound.congr (h : s.Sound kind used) (hactive : s'.active = s.active)
    (hwaiting : s'.waiting = s.waiting) (hcontrol : s'.control = s.control)
    (hproducers : s'.producers = s.producers) (hlease : s'.lease = s.lease) :
    s'.Sound kind used := by
  have hsends : s'.sends = s.sends := by rw [sends, sends, hactive, hlease]
  have hqueued : s'.queued = s.queued := by rw [queued, queued, hsends, hwaiting]
  constructor
  · rw [hqueued]; exact h.distinct
  · rw [hqueued]; exact h.ids
  · rw [hqueued]; exact h.kinds
  · rw [hsends]; exact h.sound
  · rw [hwaiting]; exact h.idle
  · rw [hqueued, hproducers]; exact h.streams
  · rw [hproducers]; exact h.producers_kind
  · rw [hproducers]; exact h.producers_distinct
  · rw [hlease, hcontrol]; exact h.leased
  · rw [hproducers, hlease]; exact h.granted

/-- Control items come and go while no lease is out. -/
theorem Sound.control (h : s.Sound kind used) (hl : s.lease = none) (items : List ControlSend) :
    Sound kind used { s with control := items } :=
  { h with leased := fun _ hs => nomatch hl.symm.trans hs }

theorem sound_of_idle (hi : send.Idle) :
    ActiveSend.Sound { send with charged := send.payload.length } where
  offset_le := by simp [hi.offset]
  handles_le := by simp [hi.handleOffset]
  charged := rfl
  fresh := fun _ => ⟨hi.offset, hi.handleOffset, hi.ledger⟩
  ended := fun h => nomatch h.symm.trans hi.ledger
  going := fun _ h => nomatch h.symm.trans hi.started

theorem Sound.start {waiting : List ActiveSend} {budget : PayloadBudget}
    (h : Sound kind used { s with waiting := send :: waiting }) :
    Sound kind used { s.start send budget with waiting } := by
  refine h.of_from ?_ ?_ ?_ ?_ ?_ h.leased ?_
  · intro id
    simp only [queued, sends, Sender.start, List.map_append, List.map_cons, List.map_nil,
      List.count_append, List.count_cons, List.count_nil]
    omega
  · intro send' hs
    simp only [queued, sends, Sender.start, List.mem_append, List.mem_singleton] at hs ⊢
    obtain ((hs | rfl) | hs) | hs := hs
    · exact ⟨send', .inl (.inl hs), .refl _⟩
    · exact ⟨send, .inr List.mem_cons_self, rfl, rfl, .inl rfl⟩
    · exact ⟨send', .inl (.inr hs), .refl _⟩
    · exact ⟨send', .inr (List.mem_cons_of_mem _ hs), .refl _⟩
  · intro send' hs
    simp only [sends, Sender.start, List.mem_append, List.mem_singleton] at hs
    obtain (hs | rfl) | hs := hs
    · exact h.sound send' (List.mem_append_left _ hs)
    · exact sound_of_idle (h.idle send List.mem_cons_self)
    · exact h.sound send' (List.mem_append_right _ hs)
  · intro send' hs
    exact h.idle send' (List.mem_cons_of_mem _ hs)
  · simp only [Sender.start]
    split
    · exact map_key_modify fun p => rfl
    · rfl
  · intro i p hp hg
    simp only [Sender.start] at hp
    split at hp
    · rename_i j hj
      rw [List.getElem?_modify] at hp
      obtain ⟨q, hq, rfl⟩ := Option.map_eq_some_iff.1 hp
      refine h.granted i q hq ?_
      split_ifs at hg
      · exact hg
      · exact hg
    · exact h.granted i p hp hg

theorem Sound.promoteWaiting (h : s.Sound kind used) : s.promoteWaiting.Sound kind used :=
  promoteWaiting_invariant (fun _ _ _ _ h _ => h.start) h

/-- A new message joins the queue. -/
theorem Sound.enqueue (h : s.Sound kind used) (send : ActiveSend) (hi : send.Idle) (hk : send.kind = kind)
    (hid : send.id ∉ used) (ht : ∀ i, send.trailer = some i →
      (s.producers.map key)[i]? = some (kind, send.id)) :
    Sound kind (send.id :: used) { s with waiting := s.waiting ++ [send] } where
  distinct := by
    have hn : send.id ∉ s.queued.map ActiveSend.id := by
      intro hm
      obtain ⟨send', hs, he⟩ := List.mem_map.1 hm
      exact hid (he ▸ h.ids send' hs)
    show ((s.sends ++ (s.waiting ++ [send])).map ActiveSend.id).Nodup
    rw [← List.append_assoc, List.map_append, List.nodup_append]
    refine ⟨h.distinct, List.nodup_singleton _, ?_⟩
    intro a ha b hb hab
    rw [List.map_singleton, List.mem_singleton] at hb
    exact hn (hb ▸ hab ▸ ha)
  ids := by
    intro send' hs
    simp only [queued, List.mem_append, List.mem_singleton] at hs
    obtain hs | hs | rfl := hs
    · exact List.mem_cons_of_mem _ (h.ids send' (List.mem_append_left _ hs))
    · exact List.mem_cons_of_mem _ (h.ids send' (List.mem_append_right _ hs))
    · exact List.mem_cons_self
  kinds := by
    intro send' hs
    simp only [queued, List.mem_append, List.mem_singleton] at hs
    obtain hs | hs | rfl := hs
    · exact h.kinds send' (List.mem_append_left _ hs)
    · exact h.kinds send' (List.mem_append_right _ hs)
    · exact hk
  sound := h.sound
  idle := by
    intro send' hs
    simp only [List.mem_append, List.mem_singleton] at hs
    obtain hs | rfl := hs
    · exact h.idle send' hs
    · exact hi
  streams := by
    intro send' hs
    simp only [queued, List.mem_append, List.mem_singleton] at hs
    obtain hs | hs | rfl := hs
    · exact h.streams send' (List.mem_append_left _ hs)
    · exact h.streams send' (List.mem_append_right _ hs)
    · exact ht
  producers_kind := h.producers_kind
  producers_distinct := h.producers_distinct
  leased := h.leased
  granted := h.granted

/-- A sound sender stays sound when producers change and keep the messages that they belong to, and
none of them is granted the transport. -/
theorem Sound.producers {ps : List Producer} (h : s.Sound kind used)
    (hkey : ps.map key = s.producers.map key)
    (hg : ∀ (i : ℕ) (p : Producer), ps[i]? = some p → p.shared.state = .granted →
      ∃ q, s.producers[i]? = some q ∧ q.shared.state = .granted) :
    Sound kind used { s with producers := ps } := by
  refine h.of_from (fun _ => le_rfl) (fun send' hs => ⟨send', hs, .refl _⟩) h.sound h.idle hkey
    h.leased ?_
  intro i p hp hs
  obtain ⟨q, hq, hs⟩ := hg i p hp hs
  exact h.granted i q hq hs

/-- Replacing one producer. -/
theorem Sound.setProducer {i : ℕ} {p : Producer} (h : s.Sound kind used)
    (hp : s.producers[i]? = some p) (p' : Producer) (hk : key p' = key p)
    (hg : p'.shared.state = .granted → p.shared.state = .granted) :
    Sound kind used { s with producers := s.producers.set i p' } := by
  refine h.producers (map_key_set hp hk) ?_
  intro j q hq hs
  by_cases hij : i = j
  · subst hij
    have hlt := (List.getElem?_eq_some_iff.1 hp).1
    rw [List.getElem?_set_self hlt] at hq
    obtain rfl := Option.some.inj hq
    exact ⟨p, hp, hg hs⟩
  · rw [List.getElem?_set_ne hij] at hq
    exact ⟨q, hq, hs⟩

theorem Sound.discardTrailer (h : s.Sound kind used) (trailer : Option ℕ) :
    (s.discardTrailer trailer).Sound kind used := by
  unfold Sender.discardTrailer
  split
  · exact h
  · rename_i i p hp
    obtain ⟨j, rfl, hj⟩ := Option.bind_eq_some_iff.1 hp
    obtain ⟨q, hq, he⟩ := Option.map_eq_some_iff.1 hj
    obtain ⟨rfl, rfl⟩ := Prod.mk.inj he
    refine (h.setProducer hq { q with shared := (q.shared.discard s.window).1 } rfl ?_).congr
      rfl rfl rfl rfl rfl
    intro hs
    simp only [SendShared.discard, SendShared.setAborted] at hs
    split at hs <;> simp at hs

@[simp] theorem discardTrailer_active (s : Sender) (t : Option ℕ) :
    (s.discardTrailer t).active = s.active := by
  unfold Sender.discardTrailer
  split <;> rfl

@[simp] theorem discardTrailer_waiting (s : Sender) (t : Option ℕ) :
    (s.discardTrailer t).waiting = s.waiting := by
  unfold Sender.discardTrailer
  split <;> rfl

@[simp] theorem discardTrailer_control (s : Sender) (t : Option ℕ) :
    (s.discardTrailer t).control = s.control := by
  unfold Sender.discardTrailer
  split <;> rfl

@[simp] theorem discardTrailer_lease (s : Sender) (t : Option ℕ) :
    (s.discardTrailer t).lease = s.lease := by
  unfold Sender.discardTrailer
  split <;> rfl

@[simp] theorem discardTrailer_budget (s : Sender) (t : Option ℕ) :
    (s.discardTrailer t).payloadBudget = s.payloadBudget := by
  unfold Sender.discardTrailer
  split <;> rfl

@[simp] theorem discardTrailer_fragmented (s : Sender) (t : Option ℕ) :
    (s.discardTrailer t).activeFragmented = s.activeFragmented := by
  unfold Sender.discardTrailer
  split <;> rfl

/-- Messages leave a sender. -/
theorem Sound.sublist {active waiting : List ActiveSend} (h : s.Sound kind used)
    (ha : active.Sublist s.active) (hw : waiting.Sublist s.waiting) :
    Sound kind used { s with active, waiting } := by
  have hsub : (Sender.queued { s with active, waiting }).Sublist s.queued :=
    ((ha.append (List.Sublist.refl _)).append hw)
  refine h.of_from (fun id => (hsub.map _).count_le id)
    (fun send' hs => ⟨send', hsub.subset hs, .refl _⟩) ?_ ?_ rfl h.leased h.granted
  · intro send hs
    exact h.sound send ((ha.append (List.Sublist.refl _)).subset hs)
  · intro send hs
    exact h.idle send (hw.subset hs)

theorem Sound.discardActiveTrailer (h : s.Sound kind used) (id : MsgId) :
    (s.discardActiveTrailer id).Sound kind used := by
  unfold Sender.discardActiveTrailer
  split
  · rename_i send hf
    split_ifs with ht
    · have hd := h.discardTrailer send.trailer
      -- Every message of the new queue is one of the old queue, or has lost its trailer.
      have hmem : ∀ send' ∈ s.active.modify (s.active.findIdx (·.id = id)) fun send =>
          { send with trailer := none }, ∃ x ∈ s.active, send'.From x ∧ (x.Sound → send'.Sound) := by
        intro send' hs
        obtain ⟨i, hi⟩ := List.mem_iff_getElem?.1 hs
        rw [List.getElem?_modify] at hi
        obtain ⟨x, hx, rfl⟩ := Option.map_eq_some_iff.1 hi
        refine ⟨x, List.mem_of_getElem? hx, ?_⟩
        split_ifs
        · exact ⟨⟨rfl, rfl, .inr rfl⟩,
            fun h => ⟨h.offset_le, h.handles_le, h.charged, h.fresh, h.ended, h.going⟩⟩
        · exact ⟨.refl _, fun h => h⟩
      have hids : (s.active.modify (s.active.findIdx (·.id = id)) fun send =>
          { send with trailer := none }).map ActiveSend.id = s.active.map ActiveSend.id := by
        apply List.ext_getElem?
        intro j
        rw [List.getElem?_map, List.getElem?_map, List.getElem?_modify]
        cases s.active[j]? with
        | none => rfl
        | some x =>
          show some (ActiveSend.id (if _ then _ else x)) = some x.id
          split_ifs <;> rfl
      refine hd.of_from ?_ ?_ ?_ ?_ rfl hd.leased hd.granted
      · intro i
        simp only [queued, sends, List.map_append, hids, discardTrailer_active,
          discardTrailer_waiting, discardTrailer_lease, le_refl]
      · intro send' hs
        simp only [queued, sends, List.mem_append, discardTrailer_active, discardTrailer_waiting,
          discardTrailer_lease] at hs ⊢
        obtain (hs | hs) | hs := hs
        · obtain ⟨x, hx, hf, -⟩ := hmem send' hs
          exact ⟨x, .inl (.inl hx), hf⟩
        · exact ⟨send', .inl (.inr hs), .refl _⟩
        · exact ⟨send', .inr hs, .refl _⟩
      · intro send' hs
        simp only [sends, List.mem_append, discardTrailer_lease] at hs
        obtain hs | hs := hs
        · obtain ⟨x, hx, -, hf⟩ := hmem send' hs
          exact hf (h.sound x (List.mem_append_left _ hx))
        · exact h.sound send' (List.mem_append_right _ hs)
      · exact hd.idle
    · exact h
  · exact h

/-! ### One step of `advance` -/

/-- What advancing a message does. -/
inductive Drives (s : Sender) (send : ActiveSend) (head : ℕ) : Advanced → Prop
  | payload (hl : send.ledger = true) : Drives s send head (s.sendPayload send head)
  | commit (hl : send.ledger = false)
      (ht : ∀ i, send.trailer = some i → ∃ p, s.producers[i]? = some p ∧ p.shared.state = .finish) :
      Drives s send head (s.commit send)
  | abort {i : ℕ} {p : Producer} (hl : send.ledger = false) (ht : send.trailer = some i)
      (hp : s.producers[i]? = some p) (hs : p.shared.state = .abort) :
      Drives s send head (s.abortSend send)
  | grant {i : ℕ} {p : Producer} (hl : send.ledger = false) (ht : send.trailer = some i)
      (hp : s.producers[i]? = some p) (hs : p.shared.pollAction = some .fragment) :
      Drives s send head (s.grantLease send i)

theorem pollAction_finish {p : SendShared} (h : p.pollAction = some .finish) : p.state = .finish := by
  unfold SendShared.pollAction at h
  cases hs : p.state <;> simp_all

theorem pollAction_abort {p : SendShared} (h : p.pollAction = some .abort) : p.state = .abort := by
  unfold SendShared.pollAction at h
  cases hs : p.state <;> simp_all

/-- A message moves by its payload until that has ended, and then by its trailer. -/
theorem drives_drive (h : send.Sound) (hw : s.streamWaiting send = false) (head : ℕ) :
    Drives s send head (s.drive send head) := by
  unfold drive
  cases hl : send.ledger with
  | true =>
    rw [if_pos]
    · exact .payload hl
    · by_cases hst : send.started = true
      · have hg := h.going hl hst
        simp [hst, hg]
      · simp [hst]
  | false =>
    obtain ⟨ho, hh⟩ := h.ended hl
    have hst : send.started = true := by
      by_contra hst
      exact absurd ((h.fresh (by simpa using hst)).2.2) (by simp [hl])
    rw [if_neg (by simp [ho, hh, hst])]
    cases ht : send.trailer with
    | none => exact .commit hl fun i hi => nomatch ht.symm.trans hi
    | some i =>
      simp only [streamWaiting, ho, beq_self_eq_true, Bool.true_and, ht] at hw
      cases hp : s.producers[i]? with
      | none => simp [hp] at hw
      | some p =>
        simp only [hp, Option.bind_some] at hw ⊢
        cases ha : p.shared.pollAction with
        | none => simp [ha] at hw
        | some action =>
          cases action with
          | finish =>
            refine .commit hl fun j hj => ?_
            obtain rfl := Option.some.inj (ht.symm.trans hj)
            exact ⟨p, hp, pollAction_finish ha⟩
          | abort => exact .abort hl ht hp (pollAction_abort ha)
          | fragment => exact .grant hl ht hp ha

/-- `advance` sends the first control item, or advances a message. -/
theorem advance_cases (h : s.Sound kind used) {head : ℕ} {a : Advanced}
    (ha : s.advance head = some a) :
    s.lease = none ∧
      ((∃ item items, s.control = item :: items ∧
          a = { sender := { s with control := items }, sent := [item.fragment] }) ∨
        (s.control = [] ∧ ∃ send front back, s.active = front ++ send :: back ∧
          Drives { s with active := back ++ front } send head a)) := by
  unfold advance at ha
  split at ha
  · simp at ha
  · rename_i hl hc
    exact ⟨hl, .inl ⟨_, _, hc, (Option.some.inj ha).symm⟩⟩
  · rename_i hl hc
    obtain ⟨⟨send, active⟩, hp, rfl⟩ := Option.map_eq_some_iff.1 ha
    obtain ⟨hw, front, back, hq, rfl⟩ := pick_eq_some hp
    have hs : send.Sound := by
      apply h.sound
      rw [sends, hq]
      simp
    have hw : Sender.streamWaiting { s with active := back ++ front } send = false := hw
    exact ⟨hl, .inr ⟨hc, send, front, back, hq, drives_drive hs hw head⟩⟩

/-- A message is replaced by a later state of it. -/
theorem Sound.replace {rest : List ActiveSend} (h : s.Sound kind used) (send' : ActiveSend)
    (hs : s.sends.Perm (send :: rest)) (hs' : s'.sends.Perm (send' :: rest))
    (hf : send'.From send) (hsound : send'.Sound) (hw : s'.waiting = s.waiting)
    (hkey : s'.producers.map key = s.producers.map key)
    (hleased : ∀ lease, s'.lease = some lease → s'.control = [] ∧ lease.send.started = true ∧
      lease.send.ledger = false ∧ lease.send.trailer.isSome = true)
    (hgranted : ∀ i p, s'.producers[i]? = some p → p.shared.state = .granted →
      ∃ lease, s'.lease = some lease ∧ lease.send.trailer = some i ∧ lease.ready = none) :
    s'.Sound kind used := by
  refine h.of_from ?_ ?_ ?_ ?_ hkey hleased hgranted
  · intro id
    have h1 := (hs.map ActiveSend.id).count_eq id
    have h2 := (hs'.map ActiveSend.id).count_eq id
    simp only [List.map_cons, List.count_cons, hf.id] at h1 h2
    simp only [queued, List.map_append, List.count_append, hw]
    omega
  · intro x hx
    obtain hx | hx := List.mem_append.1 hx
    · obtain rfl | hx := List.mem_cons.1 (hs'.mem_iff.1 hx)
      · exact ⟨send, List.mem_append_left _ (hs.mem_iff.2 List.mem_cons_self), hf⟩
      · exact ⟨x, List.mem_append_left _ (hs.mem_iff.2 (List.mem_cons_of_mem _ hx)), .refl _⟩
    · exact ⟨x, List.mem_append_right _ (hw ▸ hx), .refl _⟩
  · intro x hx
    obtain rfl | hx := List.mem_cons.1 (hs'.mem_iff.1 hx)
    · exact hsound
    · exact h.sound x (hs.mem_iff.2 (List.mem_cons_of_mem _ hx))
  · rw [hw]
    exact h.idle

/-- A message leaves the sender. -/
theorem Sound.remove {rest : List ActiveSend} (h : s.Sound kind used)
    (hs : s.sends.Perm (send :: rest)) (hs' : s'.sends.Perm rest) (hw : s'.waiting = s.waiting)
    (hkey : s'.producers.map key = s.producers.map key)
    (hleased : ∀ lease, s'.lease = some lease → s'.control = [] ∧ lease.send.started = true ∧
      lease.send.ledger = false ∧ lease.send.trailer.isSome = true)
    (hgranted : ∀ i p, s'.producers[i]? = some p → p.shared.state = .granted →
      ∃ lease, s'.lease = some lease ∧ lease.send.trailer = some i ∧ lease.ready = none) :
    s'.Sound kind used := by
  refine h.of_from ?_ ?_ ?_ ?_ hkey hleased hgranted
  · intro id
    have h1 := (hs.map ActiveSend.id).count_eq id
    have h2 := (hs'.map ActiveSend.id).count_eq id
    simp only [List.map_cons, List.count_cons] at h1 h2
    simp only [queued, List.map_append, List.count_append, hw]
    omega
  · intro x hx
    obtain hx | hx := List.mem_append.1 hx
    · exact ⟨x, List.mem_append_left _ (hs.mem_iff.2 (List.mem_cons_of_mem _ (hs'.mem_iff.1 hx))),
        .refl _⟩
    · exact ⟨x, List.mem_append_right _ (hw ▸ hx), .refl _⟩
  · intro x hx
    exact h.sound x (hs.mem_iff.2 (List.mem_cons_of_mem _ (hs'.mem_iff.1 hx)))
  · rw [hw]
    exact h.idle

/-- A message after its next payload fragment. -/
theorem sound_afterPayload (h : send.Sound) (hl : send.ledger = true) :
    (s.afterPayload send).Sound where
  offset_le := Nat.min_le_right ..
  handles_le := by
    have := h.handles_le
    simp only [afterPayload, attached]
    omega
  charged := h.charged
  fresh := fun h => nomatch h
  ended := by
    intro hd
    simp only [afterPayload, hl, Bool.true_and, Bool.not_eq_false', payloadDone, Bool.and_eq_true,
      beq_iff_eq] at hd ⊢
    exact hd
  going := by
    intro hd _
    have h1 := h.offset_le
    have h2 := h.handles_le
    simp only [afterPayload, hl, Bool.true_and, Bool.not_eq_true', payloadDone, Bool.and_eq_false_iff,
      beq_eq_false_iff_ne] at hd ⊢
    simp only [payloadEnd, attached] at hd ⊢
    omega

theorem Sound.release (h : s.Sound kind used) : (s.release send).Sound kind used :=
  release_invariant (fun _ _ _ _ h _ => h.start) (h.congr rfl rfl rfl rfl rfl)

theorem sends_of_active {front back : List ActiveSend} (hq : s.active = front ++ send :: back) :
    s.sends.Perm (send :: (Sender.sends { s with active := back ++ front })) := by
  rw [sends, sends, hq]
  have h1 : (front ++ send :: back).Perm (send :: (back ++ front)) := by
    have h2 : (front ++ send :: back).Perm (send :: (front ++ back)) := List.perm_middle
    exact h2.trans (List.Perm.cons _ List.perm_append_comm)
  exact h1.append_right _

/-- No producer is granted the transport while no lease is out. -/
theorem Sound.not_granted (h : s.Sound kind used) (hl : s.lease = none) {i : ℕ} {p : Producer}
    (hp : s.producers[i]? = some p) : p.shared.state ≠ .granted := by
  intro hs
  obtain ⟨lease, he, -⟩ := h.granted i p hp hs
  exact nomatch hl.symm.trans he

theorem Sound.drives {front back : List ActiveSend} {head : ℕ} {a : Advanced}
    (h : s.Sound kind used) (hl : s.lease = none) (hc : s.control = [])
    (hq : s.active = front ++ send :: back)
    (ha : Drives { s with active := back ++ front } send head a) : a.sender.Sound kind used := by
  have hs := sends_of_active hq
  have hsend : send.Sound := h.sound send (hs.mem_iff.2 List.mem_cons_self)
  have hleased : ∀ lease, s.lease = some lease → ∀ P : Prop, P :=
    fun _ he => nomatch hl.symm.trans he
  have hgone : Sound kind used { s with active := back ++ front } :=
    h.remove hs (List.Perm.refl _) rfl rfl h.leased h.granted
  cases ha with
  | payload hled =>
    unfold sendPayload
    split_ifs with hd
    · exact hgone.release
    · refine h.replace (Sender.afterPayload { s with active := back ++ front } send) hs ?_
        ⟨rfl, rfl, .inl rfl⟩ (sound_afterPayload hsend hled) rfl rfl
        (fun lease he => hleased lease he _) h.granted
      simp only [sends, hl, Option.map_none, Option.toList_none, List.append_nil]
      exact List.perm_append_singleton ..
  | commit hled ht => exact hgone.release
  | abort hled ht hp hst => exact Sound.release (hgone.control hl _)
  | @grant i p hled ht hp hst =>
    have hstarted : send.started = true := by
      by_contra hst
      exact absurd ((hsend.fresh (by simpa using hst)).2.2) (by simp [hled])
    refine h.replace send hs ?_ (.refl _) hsend rfl (map_key_modify fun p => rfl) ?_ ?_
    · show ((back ++ front) ++ [send]).Perm (send :: ((back ++ front) ++ _))
      rw [hl, Option.map_none, Option.toList_none, List.append_nil]
      exact List.perm_append_singleton ..
    · intro lease he
      obtain rfl := Option.some.inj he
      exact ⟨hc, hstarted, hled, by rw [ht]; rfl⟩
    · intro j q hq' hg
      refine ⟨{ send }, rfl, ?_, rfl⟩
      rw [ht]
      -- Only the producer that the lease is for can be granted.
      by_contra hij
      simp only [grantLease, modifyShared, List.getElem?_modify] at hq'
      obtain ⟨x, hx, rfl⟩ := Option.map_eq_some_iff.1 hq'
      rw [if_neg (fun e => hij (by rw [e]))] at hg
      exact h.not_granted hl hx hg

theorem Sound.advance {head : ℕ} {a : Advanced} (h : s.Sound kind used)
    (ha : s.advance head = some a) : a.sender.Sound kind used := by
  obtain ⟨hl, ⟨item, items, -, rfl⟩ | ⟨hc, send, front, back, hq, hd⟩⟩ := advance_cases h ha
  · exact h.control hl items
  · exact h.drives hl hc hq hd

/-- What one turn under a lease does. -/
theorem turn_cases {a : Advanced} (ha : s.turn = some a) :
    ∃ lease i p, s.lease = some lease ∧ lease.ready = none ∧ lease.send.trailer = some i ∧
      s.producers[i]? = some p ∧ ∃ yielded ready,
        a = {
          sender := { s with
            producers := s.producers.set i { p with shared := (p.shared.waitFragment lease.yielded).1 }
            lease := some { lease with yielded, ready } }
          sent := (p.shared.waitFragment lease.yielded).2.1.map
            (trailerFragment (p.shared.waitFragment lease.yielded).1) } ∧
        ((p.shared.waitFragment lease.yielded).1.state = .granted → ready = none) ∧
        (∀ action, ready = some action →
          (p.shared.waitFragment lease.yielded).2.2 = .ready action) := by
  unfold turn at ha
  split at ha
  · simp at ha
  · rename_i lease hl
    split at ha
    · rename_i hr hp
      obtain ⟨j, ht, hj⟩ := Option.bind_eq_some_iff.1 hp
      obtain ⟨q, hq, he⟩ := Option.map_eq_some_iff.1 hj
      obtain ⟨rfl, rfl⟩ := Prod.mk.inj he
      refine ⟨lease, j, q, hl, hr, ht, hq, _, _, (Option.some.inj ha).symm, ?_, ?_⟩
      · unfold SendShared.waitFragment
        cases q.shared.state <;> (simp; try (split_ifs <;> simp))
      · intro action hact
        split at hact
        · rename_i outcome b hb
          rw [Option.some.inj hact] at hb
          exact hb
        · simp at hact
    · simp at ha

theorem key_waitFragment (p : Producer) (yielded : Bool) :
    key { p with shared := (p.shared.waitFragment yielded).1 } = key p := by
  unfold SendShared.waitFragment key
  cases p.shared.state <;> (simp; try (split_ifs <;> simp))

theorem state_waitFragment {p : SendShared} {yielded : Bool}
    (h : (p.waitFragment yielded).1.state = .granted) : p.state = .granted := by
  unfold SendShared.waitFragment at h
  cases hs : p.state <;> first | rfl | simp [hs] at h

theorem Sound.turn {a : Advanced} (h : s.Sound kind used) (ha : s.turn = some a) :
    a.sender.Sound kind used := by
  obtain ⟨lease, i, p, hl, hr, ht, hp, yielded, ready, rfl, hg, -⟩ := turn_cases ha
  have hset := h.setProducer hp { p with shared := (p.shared.waitFragment lease.yielded).1 }
    (key_waitFragment p _) state_waitFragment
  refine hset.of_from ?_ ?_ ?_ hset.idle rfl ?_ ?_
  · intro id
    simp [queued, sends, hl]
  · intro x hx
    refine ⟨x, ?_, .refl _⟩
    simpa [queued, sends, hl] using hx
  · intro x hx
    apply hset.sound
    simpa [sends, hl] using hx
  · intro lease' he
    obtain rfl := Option.some.inj he
    exact h.leased lease hl
  · intro j q hq hs
    obtain ⟨lease', he, htj, -⟩ := hset.granted j q hq hs
    obtain rfl := Option.some.inj (hl.symm.trans he)
    refine ⟨_, rfl, htj, ?_⟩
    obtain rfl := Option.some.inj (ht.symm.trans htj)
    have hlt := (List.getElem?_eq_some_iff.1 hp).1
    simp only [List.getElem?_set_self hlt] at hq
    obtain rfl := Option.some.inj hq
    exact hg hs

/-- What giving a lease back does. -/
theorem completeLease_cases {a : Advanced} (ha : s.completeLease = some a) :
    ∃ lease i, s.lease = some lease ∧ lease.send.trailer = some i ∧
      ((lease.ready = some .fragment ∧
          a = { sender := { s.modifyShared i SendShared.complete with
            lease := none, active := s.active ++ [lease.send] } }) ∨
        (lease.ready = some .finish ∧
          a = commit { s.modifyShared i SendShared.complete with lease := none } lease.send) ∨
        (lease.ready = some .abort ∧
          a = abortSend { s.modifyShared i SendShared.complete with lease := none } lease.send)) := by
  unfold completeLease at ha
  split at ha
  · simp at ha
  · rename_i lease hl
    split at ha
    · rename_i action i hr ht
      refine ⟨lease, i, hl, ht, ?_⟩
      obtain rfl := Option.some.inj ha
      cases action with
      | fragment => exact .inl ⟨hr, rfl⟩
      | finish => exact .inr (.inl ⟨hr, rfl⟩)
      | abort => exact .inr (.inr ⟨hr, rfl⟩)
    · simp at ha

/-- The lease is back, and its message is out of the queue. -/
theorem Sound.returned {lease : Lease} {i : ℕ} {action : SendAction} (h : s.Sound kind used)
    (hl : s.lease = some lease) (hr : lease.ready = some action) :
    Sound kind used { s.modifyShared i SendShared.complete with lease := none } := by
  have hsends : s.sends.Perm (lease.send :: s.active) := by
    rw [sends, hl]
    exact List.perm_append_singleton ..
  refine h.remove hsends ?_ rfl (map_key_modify fun p => rfl) (fun _ he => nomatch he) ?_
  · rw [sends, modifyShared, Option.map_none, Option.toList_none, List.append_nil]
  · intro j q hq hs
    exfalso
    simp only [modifyShared, List.getElem?_modify] at hq
    obtain ⟨x, hx, rfl⟩ := Option.map_eq_some_iff.1 hq
    have hx' : x.shared.state = .granted := by
      split_ifs at hs
      · unfold SendShared.complete at hs
        cases hst : x.shared.state <;> simp_all
      · exact hs
    obtain ⟨lease', he, -, hn⟩ := h.granted j x hx hx'
    obtain rfl := Option.some.inj (hl.symm.trans he)
    exact nomatch hr.symm.trans hn

theorem Sound.completeLease {a : Advanced} (h : s.Sound kind used) (ha : s.completeLease = some a) :
    a.sender.Sound kind used := by
  obtain ⟨lease, i, hl, ht, ⟨hr, rfl⟩ | ⟨hr, rfl⟩ | ⟨hr, rfl⟩⟩ := completeLease_cases ha
  · have hret := h.returned (i := i) hl hr
    have hsends : s.sends.Perm (lease.send :: s.active) := by
      rw [sends, hl]
      exact List.perm_append_singleton ..
    refine h.replace lease.send hsends ?_ (.refl _) (h.sound _ ?_) rfl (map_key_modify fun p => rfl)
      (fun _ he => nomatch he) hret.granted
    · show ((s.active ++ [lease.send]) ++ []).Perm _
      rw [List.append_nil]
      exact List.perm_append_singleton ..
    · rw [sends, hl]
      exact List.mem_append_right _ List.mem_cons_self
  · exact (h.returned hl hr).release
  · exact Sound.release ((h.returned hl hr).control rfl _)

end Sender

/-! ### The receiver -/

namespace Reassembler

variable {r : Reassembler} {f : Fragment} {a : Accepted}

theorem phase_of_lookup {e : Incomplete} {id : MsgId} (h : r.incomplete.lookup id = some e) :
    r.phase id = if e.trailerPhase then .trailer else .payload := by
  rw [phase, h]

theorem phase_of_notMem {id : MsgId} (h : id ∉ r.incomplete) : r.phase id = .absent := by
  rw [phase, AList.lookup_eq_none.2 h]

theorem phase_of_insert {r' : Reassembler} {e : Incomplete} {id : MsgId}
    (h : r'.incomplete = r.incomplete.insert id e) (id' : MsgId) :
    r'.phase id' = if id = id' then if e.trailerPhase then .trailer else .payload
      else r.phase id' := by
  rw [phase, phase, h, Table.lookup_insert_if]
  by_cases hid : id' = id
  · simp [hid]
  · simp [hid, Ne.symm hid]

theorem phase_of_erase {r' : Reassembler} {id : MsgId}
    (h : r'.incomplete = r.incomplete.erase id) (id' : MsgId) :
    r'.phase id' = if id = id' then .absent else r.phase id' := by
  rw [phase, phase, h, Table.lookup_erase_if]
  by_cases hid : id' = id
  · simp [hid]
  · simp [hid, Ne.symm hid]

theorem phase_of_eq {r' : Reassembler} (h : r'.incomplete = r.incomplete) (id : MsgId) :
    r'.phase id = r.phase id := by
  rw [phase, phase, h]

/-- What a payload fragment does to the phase of its message. -/
theorem phase_advanceEntry {w : SessionWindow} {p : ℕ} {entry : Incomplete}
    (hk : f.header.kind.isCount = false) (hab : f.header.flags.abort = false)
    (hlt : ¬(f.header.flags.last = true ∧ f.header.flags.trailer = true))
    (hfl : ¬(f.header.flags.first = true ∧ f.header.flags.last = true))
    (hp : entry.trailerPhase = false)
    (hfirst : f.header.flags.first = true ∨ r.phase f.header.id = .payload) (id : MsgId) :
    (advanceEntry { r with payloadPhase := p, payloadCredit := w } f.header entry).reassembler.phase
        id = if f.header.id = id then (r.phase id).after f.header else r.phase id := by
  have hfl : (f.header.flags.first && f.header.flags.last) = false := by
    simpa only [Bool.and_eq_false_iff, not_and_or, Bool.not_eq_true] using hfl
  unfold advanceEntry Phase.after
  simp only [hk, hab, hfl, Bool.false_eq_true, if_false]
  cases ht : f.header.flags.trailer with
  | true =>
    have hlast : f.header.flags.last = false := by simpa [ht] using hlt
    simp only [hlast, Bool.false_eq_true, if_false, if_true]
    refine (phase_of_insert (r := r) rfl id).trans ?_
    simp
  | false =>
    cases hlast : f.header.flags.last with
    | true =>
      simp only [Bool.false_eq_true, if_false, if_true]
      exact phase_of_erase rfl id
    | false =>
      simp only [Bool.false_eq_true, if_false]
      refine (phase_of_insert (r := r) rfl id).trans ?_
      simp only [hp, Bool.false_eq_true, if_false]
      split_ifs with hid hf
      · rfl
      · subst hid
        exact (hfirst.resolve_left hf).symm
      · rfl

/-- What an accepted fragment does to the phases of messages. -/
theorem phase_accept (h : r.accept f = .ok a) (id : MsgId) :
    a.reassembler.phase id =
      if f.header.id = id then (r.phase id).after f.header else r.phase id := by
  obtain ⟨hk, n, -, rfl⟩ | ⟨hk, h⟩ := accept_cases h
  · simp [Phase.after, hk]
  cases h with
  | abort hab hl hk' =>
    rw [phase_of_erase (r := r) rfl id]
    simp [Phase.after, hk, hab]
  | @commit entry hab hf hlast ht hl hk' hp h0 =>
    have he : (r.commitEntry f.header entry).reassembler.incomplete =
        r.incomplete.erase f.header.id := by
      obtain ⟨-, he⟩ | ⟨i, s, -, -, he⟩ := commitEntry_cases r f.header entry
      · rw [he]
      · rw [he]
    rw [phase_of_erase he id]
    simp [Phase.after, hk, hab, hf, hlast]
  | whole hab hf hlast ht hn hsize hw =>
    refine (phase_of_eq (r := r) rfl id).trans ?_
    simp [Phase.after, hk, hab, hf, hlast]
  | trailerData hab hf hlast ht hl hk' hp hsize ha =>
    have he : a.reassembler.incomplete = r.incomplete := by
      obtain ⟨-, rfl⟩ | ⟨i, s, s', w, -, -, -, rfl⟩ := acceptTrailer_cases ha
      · rfl
      · rfl
    rw [phase_of_eq he id]
    simp [Phase.after, hk, hab, hf, hlast, ht]
  | opened hab hf hlast hn hroom hsize hw =>
    refine phase_advanceEntry hk hab ?_ ?_ rfl (.inl hf) id
    · simp [hlast]
    · simp [hlast]
  | @continued entry w hab hf hlt hl hk' hp hb hsize hw =>
    have hp' : (extendEntry entry f).trailerPhase = false := hp
    refine phase_advanceEntry hk hab hlt (by simp [hf]) hp' (.inr ?_) id
    rw [phase_of_lookup hl, hp]
    rfl

end Reassembler

/-! ### What the sender emits -/

namespace Sender

variable {kind : Kind} {used : List MsgId} {s s' s'' : Sender} {send : ActiveSend}
  {fs gs : List Fragment}

/-- Message `id` stands at `p` for the sender. -/
def Stands (s : Sender) (id : MsgId) (p : Phase) : Prop :=
  (∃ send ∈ s.sends, send.id = id ∧ p = send.phase) ∨ ((∀ send ∈ s.sends, send.id ≠ id) ∧ p = .absent)

/-- A step of the sender moves each message on as the fragments do that it emits. -/
def Emits (s : Sender) (fs : List Fragment) (s' : Sender) : Prop :=
  ∀ id p, s.Stands id p → s'.Stands id (Phase.follow id p fs)

theorem Emits.trans (h : s.Emits fs s') (h' : s'.Emits gs s'') : s.Emits (fs ++ gs) s'' := by
  intro id p hp
  rw [Phase.follow_append]
  exact h' id _ (h id p hp)

theorem Stands.perm {id : MsgId} {p : Phase} (h : s.Stands id p) (hp : s.sends.Perm s'.sends) :
    s'.Stands id p := by
  obtain ⟨send, hm, hid⟩ | ⟨hn, rfl⟩ := h
  · exact .inl ⟨send, hp.mem_iff.1 hm, hid⟩
  · exact .inr ⟨fun send hm => hn send (hp.mem_iff.2 hm), rfl⟩

/-- A step that keeps the messages, and emits nothing that matters to them. -/
theorem emits_keep (hs : s.sends.Perm s'.sends) (hfs : ∀ id p, Phase.follow id p fs = p) :
    s.Emits fs s' := by
  intro id p hp
  rw [hfs]
  exact hp.perm hs

/-- A step that replaces a message by a later state of it. -/
theorem Sound.emits_replace {rest : List ActiveSend} (h : s.Sound kind used) (send' : ActiveSend)
    (hs : s.sends.Perm (send :: rest)) (hs' : s'.sends.Perm (send' :: rest))
    (hid : send'.id = send.id) (hfs : ∀ f ∈ fs, f.header.id = send.id)
    (hphase : Phase.follow send.id send.phase fs = send'.phase) : s.Emits fs s' := by
  intro id p hp
  by_cases he : send.id = id
  · subst he
    refine .inl ⟨send', hs'.mem_iff.2 List.mem_cons_self, hid, ?_⟩
    obtain ⟨x, hx, hxid, rfl⟩ | ⟨hn, -⟩ := hp
    · obtain rfl | hx := List.mem_cons.1 (hs.mem_iff.1 hx)
      · exact hphase
      · -- Ids are distinct, so the message with this id is the one that is replaced.
        exfalso
        have hd := ((hs.append_right s.waiting).map ActiveSend.id).nodup_iff.1 h.distinct
        rw [List.cons_append, List.map_cons, List.nodup_cons] at hd
        exact hd.1 (List.mem_map.2 ⟨x, List.mem_append_left _ hx, hxid⟩)
    · exact absurd rfl (hn send (hs.mem_iff.2 List.mem_cons_self))
  · rw [Phase.follow_of_ne fun f hf => by rw [hfs f hf]; exact he]
    obtain ⟨x, hx, hxid, rfl⟩ | ⟨hn, rfl⟩ := hp
    · obtain rfl | hx := List.mem_cons.1 (hs.mem_iff.1 hx)
      · exact absurd hxid he
      · exact .inl ⟨x, hs'.mem_iff.2 (List.mem_cons_of_mem _ hx), hxid, rfl⟩
    · refine .inr ⟨fun x hx => ?_, rfl⟩
      obtain rfl | hx := List.mem_cons.1 (hs'.mem_iff.1 hx)
      · rw [hid]
        exact he
      · exact hn x (hs.mem_iff.2 (List.mem_cons_of_mem _ hx))

/-- A step after which a message is gone. -/
theorem Sound.emits_remove {rest : List ActiveSend} (h : s.Sound kind used)
    (hs : s.sends.Perm (send :: rest)) (hs' : s'.sends.Perm rest)
    (hfs : ∀ f ∈ fs, f.header.id = send.id)
    (hphase : Phase.follow send.id send.phase fs = .absent) : s.Emits fs s' := by
  have hd := ((hs.append_right s.waiting).map ActiveSend.id).nodup_iff.1 h.distinct
  rw [List.cons_append, List.map_cons, List.nodup_cons] at hd
  have hrest : ∀ x ∈ rest, x.id ≠ send.id :=
    fun x hx he => hd.1 (List.mem_map.2 ⟨x, List.mem_append_left _ hx, he⟩)
  intro id p hp
  by_cases he : send.id = id
  · subst he
    refine .inr ⟨fun x hx => hrest x (hs'.mem_iff.1 hx), ?_⟩
    obtain ⟨x, hx, hxid, rfl⟩ | ⟨hn, -⟩ := hp
    · obtain rfl | hx := List.mem_cons.1 (hs.mem_iff.1 hx)
      · exact hphase
      · exact absurd hxid (hrest x hx)
    · exact absurd rfl (hn send (hs.mem_iff.2 List.mem_cons_self))
  · rw [Phase.follow_of_ne fun f hf => by rw [hfs f hf]; exact he]
    obtain ⟨x, hx, hxid, rfl⟩ | ⟨hn, rfl⟩ := hp
    · obtain rfl | hx := List.mem_cons.1 (hs.mem_iff.1 hx)
      · exact absurd hxid he
      · exact .inl ⟨x, hs'.mem_iff.2 hx, hxid, rfl⟩
    · exact .inr ⟨fun x hx => hn x (hs.mem_iff.2 (List.mem_cons_of_mem _ (hs'.mem_iff.1 hx))), rfl⟩

/-- A message that starts is absent until its first fragment. -/
theorem emits_start {waiting : List ActiveSend} (budget : PayloadBudget)
    (h : Sound kind used { s with waiting := send :: waiting }) :
    Emits { s with waiting := send :: waiting } [] { s.start send budget with waiting } := by
  have hidle := h.idle send List.mem_cons_self
  have hd := h.distinct
  simp only [queued, List.map_append, List.map_cons] at hd
  have hnew : ∀ x ∈ s.sends, x.id ≠ send.id := by
    intro x hx he
    rw [List.nodup_append] at hd
    exact hd.2.2 x.id (List.mem_map_of_mem hx) send.id List.mem_cons_self he
  have hsends : (Sender.sends { s.start send budget with waiting }).Perm
      ({ send with charged := send.payload.length } :: s.sends) := by
    simp only [sends, Sender.start, List.append_assoc]
    exact List.perm_middle
  intro id p hp
  rw [Phase.follow_nil]
  obtain ⟨x, hx, hxid, rfl⟩ | ⟨hn, rfl⟩ := hp
  · exact .inl ⟨x, hsends.mem_iff.2 (List.mem_cons_of_mem _ hx), hxid, rfl⟩
  · by_cases he : send.id = id
    · refine .inl ⟨_, hsends.mem_iff.2 List.mem_cons_self, he, ?_⟩
      simp [ActiveSend.phase, hidle.started]
    · refine .inr ⟨fun x hx => ?_, rfl⟩
      obtain rfl | hx := List.mem_cons.1 (hsends.mem_iff.1 hx)
      · exact he
      · exact hn x hx

/-- Waiting messages start. -/
theorem Sound.emits_promoteWaiting (h : s'.Sound kind used) (he : s.Emits fs s') :
    s.Emits fs s'.promoteWaiting := by
  refine (promoteWaiting_invariant (s := s') (I := fun t => t.Sound kind used ∧ s.Emits fs t) ?_
    ⟨h, he⟩).2
  rintro t send waiting budget ⟨ht, hte⟩ -
  refine ⟨ht.start, ?_⟩
  have hs := hte.trans (emits_start budget ht)
  rwa [List.append_nil] at hs

theorem Sound.emits_release (h : s'.Sound kind used) (he : s.Emits fs s') :
    s.Emits fs (s'.release send) := by
  unfold Sender.release
  split_ifs
  · refine Sound.emits_promoteWaiting (h.congr rfl rfl rfl rfl rfl) ?_
    exact he
  · exact he

@[simp] theorem promoteWaiting_control (s : Sender) : s.promoteWaiting.control = s.control :=
  promoteWaiting_invariant (I := fun t => t.control = s.control) (fun _ _ _ _ h _ => h) rfl

@[simp] theorem promoteWaiting_lease (s : Sender) : s.promoteWaiting.lease = s.lease :=
  promoteWaiting_invariant (I := fun t => t.lease = s.lease) (fun _ _ _ _ h _ => h) rfl

@[simp] theorem release_control (s : Sender) (send : ActiveSend) :
    (s.release send).control = s.control := by
  unfold Sender.release
  split_ifs
  · exact promoteWaiting_control _
  · rfl

@[simp] theorem release_lease (s : Sender) (send : ActiveSend) :
    (s.release send).lease = s.lease := by
  unfold Sender.release
  split_ifs
  · exact promoteWaiting_lease _
  · rfl

/-- The phase of a message moves on with its next payload fragment. -/
theorem after_payloadFragment (hk : send.kind.isCount = false) (hl : send.ledger = true) (head : ℕ) :
    send.phase.after (s.payloadFragment send head).header =
      if s.payloadDone send && send.trailer.isNone then .absent else (s.afterPayload send).phase := by
  unfold Phase.after ActiveSend.phase
  simp only [payloadFragment, afterPayload, hk, hl]
  cases send.started <;> cases s.payloadDone send <;> cases send.trailer <;> rfl

theorem phase_of_ledger (h : send.Sound) (hl : send.ledger = false) : send.phase = .trailer := by
  have hst : send.started = true := by
    by_contra hst
    exact absurd ((h.fresh (by simpa using hst)).2.2) (by simp [hl])
  simp [ActiveSend.phase, hst, hl]

/-- A `LAST` fragment on its own ends its message. -/
theorem follow_commit (hk : send.kind.isCount = false) (p : Phase) :
    Phase.follow send.id p [ControlSend.bare { last := true } send.kind send.id] = .absent := by
  simp [Phase.follow_cons, Phase.after, ControlSend.bare, hk]

/-- So does an `ABORT`. -/
theorem follow_abort (hk : send.kind.isCount = false) (p : Phase) :
    Phase.follow send.id p [(ControlSend.abort send.kind send.id).fragment] = .absent := by
  simp [Phase.follow_cons, Phase.after, ControlSend.fragment, ControlSend.bare, hk]

theorem mem_singleton_id {f : Fragment} {id : MsgId} (h : f.header.id = id) :
    ∀ g ∈ [f], g.header.id = id := by
  intro g hg
  rw [List.mem_singleton.1 hg, h]

/-- Advancing a message emits its fragments and, for an abort, a control item. -/
theorem Sound.emits_drives {front back : List ActiveSend} {head : ℕ} {a : Advanced}
    (h : s.Sound kind used) (hk : kind.isCount = false) (hl : s.lease = none) (hc : s.control = [])
    (hq : s.active = front ++ send :: back)
    (ha : Drives { s with active := back ++ front } send head a) :
    s.Emits (a.sent ++ a.sender.control.map ControlSend.fragment) a.sender := by
  have hs := sends_of_active hq
  have hmem : send ∈ s.sends := hs.mem_iff.2 List.mem_cons_self
  have hsend : send.Sound := h.sound send hmem
  have hkind : send.kind = kind := h.kinds send (List.mem_append_left _ hmem)
  have hgone : Sound kind used { s with active := back ++ front } :=
    h.remove hs (List.Perm.refl _) rfl rfl h.leased h.granted
  cases ha with
  | payload hled =>
    have hafter := after_payloadFragment (s := { s with active := back ++ front })
      (hkind ▸ hk) hled head
    have hfollow : Phase.follow send.id send.phase
        [Sender.payloadFragment { s with active := back ++ front } send head] =
        send.phase.after (Sender.payloadFragment { s with active := back ++ front } send head).header := by
      rw [Phase.follow_cons, Phase.follow_nil]
      exact if_pos rfl
    have hctl : (Sender.sendPayload { s with active := back ++ front } send head).sender.control =
        [] := by
      unfold sendPayload
      split_ifs
      · exact (release_control ..).trans hc
      · exact hc
    rw [hctl, List.map_nil, List.append_nil]
    unfold sendPayload
    split_ifs with hd
    · rw [if_pos hd] at hafter
      refine Sound.emits_release hgone (h.emits_remove hs (List.Perm.refl _) ?_ ?_)
      · simp [payloadFragment]
      · rw [hfollow, hafter]
    · rw [if_neg hd] at hafter
      refine h.emits_replace (Sender.afterPayload { s with active := back ++ front } send) hs ?_ rfl
        ?_ ?_
      · simp only [sends, hl, Option.map_none, Option.toList_none, List.append_nil]
        exact List.perm_append_singleton ..
      · simp [payloadFragment]
      · rw [hfollow, hafter]
  | commit hled ht =>
    have hctl : (Sender.commit { s with active := back ++ front } send).sender.control = [] :=
      (release_control ..).trans hc
    rw [hctl, List.map_nil, List.append_nil]
    exact Sound.emits_release hgone (h.emits_remove hs (List.Perm.refl _) (mem_singleton_id rfl)
      (follow_commit (hkind ▸ hk) _))
  | abort hled ht hp hst =>
    have hctl : (Sender.abortSend { s with active := back ++ front } send).sender.control =
        [.abort send.kind send.id] :=
      (release_control ..).trans (by rw [hc, List.nil_append])
    rw [hctl]
    exact Sound.emits_release (hgone.control hl _) (h.emits_remove hs (List.Perm.refl _)
      (mem_singleton_id rfl) (follow_abort (hkind ▸ hk) _))
  | @grant i p hled ht hp hst =>
    have hctl : (Sender.grantLease { s with active := back ++ front } send i).sender.control = [] :=
      hc
    rw [hctl, List.map_nil, List.append_nil]
    refine h.emits_replace send hs ?_ rfl (fun _ hf => nomatch hf) rfl
    simp only [sends, grantLease, modifyShared, hl, Option.map_none, Option.map_some,
      Option.toList_none, Option.toList_some, List.append_nil]
    exact List.perm_append_singleton ..

/-- Fragments of trailer data do not move a message on. -/
theorem follow_trailerFragment {shared : SendShared} (bs : List (List UInt8)) (id : MsgId)
    (p : Phase) : Phase.follow id p (bs.map (trailerFragment shared)) = p := by
  induction bs with
  | nil => rfl
  | cons b bs ih =>
    rw [List.map_cons, Phase.follow_cons]
    have : p.after (trailerFragment shared b).header = p := by
      simp [Phase.after, trailerFragment]
    rw [this, ite_self]
    exact ih

theorem emits_turn {a : Advanced} (ha : s.turn = some a) :
    s.Emits a.sent a.sender ∧ a.sender.control = s.control := by
  obtain ⟨lease, i, p, hl, -, -, -, yielded, ready, rfl, -, -⟩ := turn_cases ha
  refine ⟨emits_keep ?_ (follow_trailerFragment _), rfl⟩
  simp [sends, hl]

/-- Giving a lease back puts its message back, or ends it. -/
theorem Sound.emits_completeLease {a : Advanced} (h : s.Sound kind used)
    (hk : kind.isCount = false) (ha : s.completeLease = some a) :
    s.Emits (a.sent ++ a.sender.control.map ControlSend.fragment) a.sender := by
  obtain ⟨lease, i, hl, ht, hcase⟩ := completeLease_cases ha
  obtain ⟨hc, hst, hled, -⟩ := h.leased lease hl
  have hs : s.sends.Perm (lease.send :: s.active) := by
    rw [sends, hl]
    exact List.perm_append_singleton ..
  have hmem : lease.send ∈ s.sends := hs.mem_iff.2 List.mem_cons_self
  have hkind : lease.send.kind = kind := h.kinds _ (List.mem_append_left _ hmem)
  have hs' : (Sender.sends { s.modifyShared i SendShared.complete with lease := none }).Perm
      s.active := by
    simp [sends, modifyShared]
  obtain ⟨hr, rfl⟩ | ⟨hr, rfl⟩ | ⟨hr, rfl⟩ := hcase
  · have hctl : (s.modifyShared i SendShared.complete).control = [] := hc
    rw [hctl, List.map_nil, List.append_nil]
    refine h.emits_replace lease.send hs ?_ rfl (fun _ hf => nomatch hf) rfl
    simp only [sends, Option.map_none, Option.toList_none, List.append_nil]
    exact List.perm_append_singleton ..
  · have hctl : (Sender.commit { s.modifyShared i SendShared.complete with lease := none }
        lease.send).sender.control = [] :=
      (release_control ..).trans hc
    rw [hctl, List.map_nil, List.append_nil]
    exact Sound.emits_release (h.returned hl hr) (h.emits_remove hs hs' (mem_singleton_id rfl)
      (follow_commit (hkind ▸ hk) _))
  · have hctl : (Sender.abortSend { s.modifyShared i SendShared.complete with lease := none }
        lease.send).sender.control = [.abort lease.send.kind lease.send.id] :=
      (release_control ..).trans (by rw [modifyShared, hc, List.nil_append])
    rw [hctl]
    exact Sound.emits_release ((h.returned hl hr).control rfl _) (h.emits_remove hs hs'
      (mem_singleton_id rfl) (follow_abort (hkind ▸ hk) _))

end Sender

namespace Sender

variable {kind : Kind} {used : List MsgId} {s s' : Sender}

@[simp] theorem discardActiveTrailer_control (s : Sender) (id : MsgId) :
    (s.discardActiveTrailer id).control = s.control := by
  unfold discardActiveTrailer
  split
  · split_ifs
    · exact discardTrailer_control ..
    · rfl
  · rfl

/-- No message moves on when a trailer is not wanted any more. -/
theorem sends_discardActiveTrailer (s : Sender) (id : MsgId) :
    (s.discardActiveTrailer id).sends.map (fun send => (send.id, send.phase)) =
      s.sends.map fun send => (send.id, send.phase) := by
  unfold discardActiveTrailer
  split
  · split_ifs
    · simp only [sends, List.map_append, discardTrailer_lease]
      congr 1
      apply List.ext_getElem?
      intro j
      rw [List.getElem?_map, List.getElem?_map, List.getElem?_modify]
      cases s.active[j]? with
      | none => rfl
      | some x =>
        show some ((fun send : ActiveSend => (send.id, send.phase)) (if _ then _ else x)) = _
        split_ifs <;> rfl
    · rfl
  · rfl

theorem Stands.of_map_eq {id : MsgId} {p : Phase} (h : s.Stands id p)
    (he : s.sends.map (fun send => (send.id, send.phase)) =
      s'.sends.map fun send => (send.id, send.phase)) : s'.Stands id p := by
  obtain ⟨send, hm, hid, rfl⟩ | ⟨hn, rfl⟩ := h
  · have hx : (id, send.phase) ∈ s.sends.map fun send => (send.id, send.phase) :=
      List.mem_map.2 ⟨send, hm, by rw [hid]⟩
    rw [he] at hx
    obtain ⟨x, hx, hxe⟩ := List.mem_map.1 hx
    obtain ⟨hxid, hxp⟩ := Prod.mk.inj hxe
    exact .inl ⟨x, hx, hxid, hxp.symm⟩
  · refine .inr ⟨fun x hx hid => ?_, rfl⟩
    have hx : (x.id, x.phase) ∈ s'.sends.map fun send => (send.id, send.phase) :=
      List.mem_map_of_mem hx
    rw [← he] at hx
    obtain ⟨y, hy, hye⟩ := List.mem_map.1 hx
    exact hn y hy ((Prod.mk.inj hye).1.trans hid)

/-- What cancelling a message that is being sent leaves. -/
def cancelled (s : Sender) (send : ActiveSend) (active : List ActiveSend) : Sender :=
  let s := Sender.discardTrailer { s with active } send.trailer
  promoteWaiting { s with
    payloadBudget := s.payloadBudget.credit (send.charged - send.offset)
    activeFragmented := s.activeFragmented - if send.multiFragment then 1 else 0 }

/-- Cancelling a message takes it out of the queue that it is in, if any. -/
theorem tryCancelActive_cases (s : Sender) (id : MsgId) :
    (∃ send front back, send.id = id ∧ s.waiting = front ++ send :: back ∧ s.tryCancelActive id =
        (discardTrailer { s with waiting := front ++ back } send.trailer, .discarded false false)) ∨
      (∃ send front back, send.id = id ∧ s.active = front ++ send :: back ∧ s.tryCancelActive id =
        (s.cancelled send (front ++ back), .discarded send.started !send.ledger)) ∨
      s.tryCancelActive id = (s, .notActive) := by
  unfold tryCancelActive
  split
  · rename_i send waiting hw
    obtain ⟨hid, front, back, hq, rfl⟩ := takeSend_eq_some hw
    exact .inl ⟨send, front, back, hid, hq, rfl⟩
  · split
    · rename_i send active ha
      obtain ⟨hid, front, back, hq, rfl⟩ := takeSend_eq_some ha
      exact .inr (.inl ⟨send, front, back, hid, hq, rfl⟩)
    · exact .inr (.inr rfl)

theorem Sound.cancelled {send : ActiveSend} {front back : List ActiveSend} (h : s.Sound kind used)
    (hq : s.active = front ++ send :: back) :
    (s.cancelled send (front ++ back)).Sound kind used := by
  have hs : Sound kind used { s with active := front ++ back } := by
    refine h.sublist ?_ (List.Sublist.refl _)
    rw [hq]
    exact (List.Sublist.refl _).append (List.sublist_cons_self ..)
  apply Sound.promoteWaiting
  exact (hs.discardTrailer send.trailer).congr rfl rfl rfl rfl rfl

/-- A cancelled message is gone, with an `ABORT` when a fragment of it was sent. -/
theorem Sound.emits_cancelled {send : ActiveSend} {front back : List ActiveSend}
    (h : s.Sound kind used) (hk : kind.isCount = false) (hq : s.active = front ++ send :: back) :
    s.Emits (if send.started then [(ControlSend.abort kind send.id).fragment] else [])
      (s.cancelled send (front ++ back)) := by
  have hperm : s.sends.Perm (send :: (front ++ back ++ (s.lease.map Lease.send).toList)) := by
    rw [sends, hq, ← List.cons_append]
    exact List.perm_middle.append_right _
  have hmem : send ∈ s.sends := hperm.mem_iff.2 List.mem_cons_self
  have hkind : send.kind = kind := h.kinds send (List.mem_append_left _ hmem)
  have hs : Sound kind used { s with active := front ++ back } := by
    refine h.sublist ?_ (List.Sublist.refl _)
    rw [hq]
    exact (List.Sublist.refl _).append (List.sublist_cons_self ..)
  refine Sound.emits_promoteWaiting
    ((hs.discardTrailer send.trailer).congr rfl rfl rfl rfl rfl) ?_
  refine h.emits_remove hperm ?_ ?_ ?_
  · simp [sends]
  · split_ifs
    · exact mem_singleton_id rfl
    · exact fun _ hf => nomatch hf
  · subst hkind
    split_ifs with hst
    · exact follow_abort hk _
    · simp [ActiveSend.phase, hst]

end Sender

/-! ### The link -/

namespace Link

variable {l l' : Link}

/-- What is between the two ends: the wire, and the control items, which go out first. -/
def pipeline (l : Link) : List Fragment :=
  l.wire ++ l.sender.control.map ControlSend.fragment

/-- The phase that message `id` will have at the receiver when all that is in between has arrived. -/
def view (l : Link) (id : MsgId) : Phase :=
  Phase.follow id (l.reassembler.phase id) l.pipeline

/-- The two ends agree on where each message stands, up to what is in between. -/
structure Framed (l : Link) : Prop where
  kind_eq : l.kind = .request ∨ l.kind = .response
  sound : l.sender.Sound l.kind l.used
  stands : ∀ id, l.sender.Stands id (l.view id)

theorem Framed.isCount (h : l.Framed) : l.kind.isCount = false := by
  obtain hk | hk := h.kind_eq <;> rw [hk] <;> rfl

theorem framed_new {kind : Kind} (hk : kind = .request ∨ kind = .response) (a b : Limits) :
    (new kind a b).Framed where
  kind_eq := hk
  sound := Sender.sound_new kind _
  stands := fun _ => .inr ⟨fun _ h => (nomatch h), rfl⟩

/-- The sender moves and the receiver does not. -/
theorem Framed.emits (h : l.Framed) (fs : List Fragment) (hk : l'.kind = l.kind) (hs : l'.sender.Sound l.kind l'.used)
    (hr : l'.reassembler.incomplete = l.reassembler.incomplete)
    (hp : l'.pipeline = l.pipeline ++ fs) (he : l.sender.Emits fs l'.sender) : l'.Framed where
  kind_eq := hk ▸ h.kind_eq
  sound := hk ▸ hs
  stands := by
    intro id
    rw [view, hp, Reassembler.phase_of_eq hr, Phase.follow_append]
    exact he id _ (h.stands id)

/-- Neither the messages of the sender nor what is in between change. -/
theorem Framed.congr (h : l.Framed) (hk : l'.kind = l.kind) (hs : l'.sender.Sound l.kind l'.used)
    (hr : l'.reassembler.incomplete = l.reassembler.incomplete) (hp : l'.pipeline = l.pipeline)
    (he : l.sender.sends.Perm l'.sender.sends) : l'.Framed := by
  refine h.emits [] hk hs hr ?_ (Sender.emits_keep he fun _ _ => rfl)
  rw [hp, List.append_nil]

/-- What the receiver does with a trailer, and what happens on the way back, is of no concern. -/
theorem Framed.receiver (h : l.Framed) (hk : l'.kind = l.kind) (hu : l'.used = l.used)
    (hsender : l'.sender = l.sender) (hr : l'.reassembler.incomplete = l.reassembler.incomplete)
    (hw : l'.wire = l.wire) : l'.Framed := by
  refine h.congr hk ?_ hr ?_ ?_
  · rw [hsender, hu]
    exact h.sound
  · rw [pipeline, pipeline, hsender, hw]
  · rw [hsender]

theorem Framed.openTrailer (h : l.Framed) {id : MsgId} (hp : ∀ p ∈ l.sender.producers, p.shared.id ≠ id) :
    (l.openTrailer id).Framed := by
  refine h.congr rfl ?_ rfl rfl (List.Perm.refl _)
  have hs := h.sound
  have hkey : (l.openTrailer id).sender.producers.map Sender.key =
      l.sender.producers.map Sender.key ++ [(l.kind, id)] := by
    simp [Link.openTrailer, Sender.key, SendShared.new]
  exact {
    distinct := hs.distinct
    ids := hs.ids
    kinds := hs.kinds
    sound := hs.sound
    idle := hs.idle
    streams := by
      intro send hm i hi
      rw [hkey]
      have := hs.streams send hm i hi
      rw [List.getElem?_append_left (List.getElem?_eq_some_iff.1 this).1]
      exact this
    producers_kind := by
      intro k hk
      rw [hkey, List.mem_append, List.mem_singleton] at hk
      obtain hk | rfl := hk
      · exact hs.producers_kind k hk
      · rfl
    producers_distinct := by
      rw [hkey, List.nodup_append]
      refine ⟨hs.producers_distinct, List.nodup_singleton _, ?_⟩
      intro a ha b hb hab
      obtain ⟨p, hm, rfl⟩ := List.mem_map.1 ha
      rw [List.mem_singleton.1 hb] at hab
      exact hp p hm (Prod.mk.inj hab).2
    leased := hs.leased
    granted := by
      intro i p hi hg
      simp only [Link.openTrailer] at hi
      rw [List.getElem?_append] at hi
      split_ifs at hi with hlt
      · exact hs.granted i p hi hg
      · rw [List.getElem?_singleton] at hi
        split_ifs at hi
        obtain rfl := Option.some.inj hi
        simp [SendShared.new] at hg }

/-- An admissible message joins the queue. -/
theorem Framed.enqueue (h : l.Framed) {id : MsgId} {handles : ℕ} {trailer : Option ℕ}
    (ha : l.Admissible id handles trailer) (payload : List UInt8) :
    Sender.Sound l.kind (id :: l.used) { l.sender with
      waiting := l.sender.waiting ++ [l.sender.newSend l.kind id payload handles trailer] } := by
  refine h.sound.enqueue (l.sender.newSend l.kind id payload handles trailer)
    ⟨rfl, rfl, rfl, rfl⟩ rfl ha.id_new ?_
  intro i hi
  obtain ⟨p, hp, hid⟩ := ha.streamed i hi
  rw [List.getElem?_map, hp]
  have hk := h.sound.producers_kind (Sender.key p) (List.mem_map_of_mem (List.mem_of_getElem? hp))
  simp only [Sender.key] at hk
  simp [Sender.key, hk, hid, Sender.newSend]

theorem Framed.admitMessage (h : l.Framed) {id : MsgId} {payload : List UInt8} {handles : ℕ}
    {trailer : Option ℕ} (ha : l.Admissible id handles trailer) :
    (l.admitMessage id payload handles trailer).Framed := by
  have hq := h.enqueue ha payload
  -- The message joins the queue, and then starts if it can.
  have hI := Sender.admitMessage_invariant (s := l.sender)
    (I := fun t => t.Sound l.kind (id :: l.used) ∧ l.sender.Emits [] t ∧
      t.control = l.sender.control) l.kind id payload handles trailer
    (by
      rintro t send waiting budget ⟨ht, hte, htc⟩ -
      exact ⟨ht.start, hte.trans (Sender.emits_start budget ht), htc⟩)
    ⟨hq, Sender.emits_keep (List.Perm.refl _) fun _ _ => rfl, rfl⟩
  refine h.emits [] rfl hI.1 rfl ?_ hI.2.1
  rw [List.append_nil, pipeline, pipeline]
  show l.wire ++ (l.sender.admitMessage _ _ _ _ _).control.map _ = _
  rw [hI.2.2]

/-- Adding to a queued `PayloadCredit` moves no message on. -/
theorem follow_mergePayloadCredit {count : ℕ} {items items' : List ControlSend}
    (h : Sender.mergePayloadCredit count items = some items') (id : MsgId) (p : Phase) :
    Phase.follow id p (items'.map ControlSend.fragment) =
      Phase.follow id p (items.map ControlSend.fragment) := by
  induction items generalizing items' p with
  | nil => simp [Sender.mergePayloadCredit] at h
  | cons item items ih =>
    cases item with
    | payloadCredit n =>
      obtain rfl := Option.some.inj h
      rfl
    | empty _ _ | abort _ _ | release _ _ | credit _ _ =>
      obtain ⟨rest, hr, rfl⟩ := Option.map_eq_some_iff.1 h
      rw [List.map_cons, List.map_cons, Phase.follow_cons, Phase.follow_cons]
      exact ih hr _

/-- A control item moves no message on. -/
theorem after_control {item : ControlSend} (h : item.Admissible) (p : Phase) :
    p.after item.fragment.header = p := by
  cases item with
  | empty kind id =>
    obtain rfl | rfl | rfl := h <;> rfl
  | abort => exact h.elim
  | release | credit | payloadCredit => rfl

theorem Framed.control (h : l.Framed) {item : ControlSend} (hl : l.sender.lease = none)
    (hi : item.Admissible) : (l.control item).Framed := by
  have happ : ∀ l' : Link, l' = { l with sender := { l.sender with
      control := l.sender.control ++ [item] } } → l'.Framed := by
    rintro l' rfl
    refine h.emits [item.fragment] rfl (h.sound.control hl _) rfl ?_
      (Sender.emits_keep (List.Perm.refl _) ?_)
    · simp [pipeline]
    · intro id p
      rw [Phase.follow_cons, after_control hi, ite_self, Phase.follow_nil]
  cases item with
  | empty kind id => exact happ _ rfl
  | abort => exact hi.elim
  | release id count => exact happ _ rfl
  | credit id count => exact happ _ rfl
  | payloadCredit count =>
    cases hm : Sender.mergePayloadCredit count l.sender.control with
    | none =>
      apply happ
      simp [Link.control, Sender.admitPayloadCredit, hm]
    | some items =>
      have hc : l.control (.payloadCredit count) =
          { l with sender := { l.sender with control := items } } := by
        simp [Link.control, Sender.admitPayloadCredit, hm]
      rw [hc]
      refine ⟨h.kind_eq, h.sound.control hl _, fun id => ?_⟩
      have hv : view { l with sender := { l.sender with control := items } } id = l.view id := by
        simp only [view, pipeline, Phase.follow_append, follow_mergePayloadCredit hm]
      rw [hv]
      exact (h.stands id).perm (List.Perm.refl _)

/-- A link after message `send`, which was being sent, is cancelled. -/
def cancelledActive (l : Link) (send : ActiveSend) (active : List ActiveSend) : Link :=
  { l with
    sender := if send.started then (l.sender.cancelled send active).admitAbort l.kind send.id
      else l.sender.cancelled send active
    history := { l.history with
      cancelled := if send.ledger then send.id :: l.history.cancelled else l.history.cancelled } }

/-- A link after message `send`, which was waiting, is cancelled. -/
def cancelledWaiting (l : Link) (send : ActiveSend) (waiting : List ActiveSend) : Link :=
  { l with
    sender := Sender.discardTrailer { l.sender with waiting } send.trailer
    history := { l.history with cancelled := send.id :: l.history.cancelled } }

/-- A cancellation finds its message waiting, being sent, or nowhere. -/
theorem cancel_cases (l : Link) (id : MsgId) :
    (∃ send front back, send.id = id ∧ l.sender.waiting = front ++ send :: back ∧
        l.cancel id = l.cancelledWaiting send (front ++ back)) ∨
      (∃ send front back, send.id = id ∧ l.sender.active = front ++ send :: back ∧
        l.cancel id = l.cancelledActive send (front ++ back)) ∨
      l.cancel id = l := by
  unfold Link.cancel
  obtain ⟨send, front, back, rfl, hq, he⟩ | ⟨send, front, back, rfl, hq, he⟩ | he :=
    l.sender.tryCancelActive_cases id
  · rw [he]
    exact .inl ⟨send, front, back, rfl, hq, rfl⟩
  · rw [he]
    refine .inr (.inl ⟨send, front, back, rfl, hq, ?_⟩)
    unfold cancelledActive
    cases send.ledger <;> rfl
  · rw [he]
    exact .inr (.inr rfl)

theorem Framed.cancel (h : l.Framed) (hl : l.sender.lease = none) (id : MsgId) :
    (l.cancel id).Framed := by
  obtain ⟨send, front, back, rfl, hq, he⟩ | ⟨send, front, back, rfl, hq, he⟩ | he := l.cancel_cases id
  · rw [he]
    refine h.congr rfl ?_ rfl ?_ ?_
    · apply Sender.Sound.discardTrailer
      refine h.sound.sublist (List.Sublist.refl _) ?_
      rw [hq]
      exact (List.Sublist.refl _).append (List.sublist_cons_self ..)
    · simp [pipeline, cancelledWaiting]
    · simp [Sender.sends, cancelledWaiting]
  · rw [he]
    have hs := h.sound.cancelled hq
    have hc : (l.sender.cancelled send (front ++ back)).control = l.sender.control := by
      simp [Sender.cancelled]
    have hlease : (l.sender.cancelled send (front ++ back)).lease = none := by
      simp [Sender.cancelled, hl]
    have hem := h.sound.emits_cancelled h.isCount hq
    cases hst : send.started with
    | true =>
      rw [hst, if_pos rfl] at hem
      refine h.emits [(ControlSend.abort l.kind send.id).fragment] rfl ?_ rfl ?_ ?_
      · simp only [cancelledActive, hst, if_true]
        exact hs.control hlease _
      · simp [pipeline, cancelledActive, hst, Sender.admitAbort, hc]
      · simp only [cancelledActive, hst, if_true]
        exact fun id p hp => (hem id p hp).perm (List.Perm.refl _)
    | false =>
      rw [hst, if_neg Bool.false_ne_true] at hem
      refine h.emits [] rfl ?_ rfl ?_ ?_
      · simp only [cancelledActive, hst, Bool.false_eq_true, if_false]
        exact hs
      · simp [pipeline, cancelledActive, hst, hc]
      · simp only [cancelledActive, hst, Bool.false_eq_true, if_false]
        exact hem
  · rw [he]
    exact h

theorem Framed.notice (h : l.Framed) (id : MsgId) (notices : List MsgId) :
    (l.notice id notices).Framed := by
  have hs : Sender.Sound l.kind l.used { l.sender with window := (l.sender.window.settle id).1 } :=
    h.sound.congr rfl rfl rfl rfl rfl
  refine ⟨h.kind_eq, hs.discardActiveTrailer id, fun id' => ?_⟩
  have hv : (l.notice id notices).view id' = l.view id' := by
    show Phase.follow _ _ (_ ++ (Sender.discardActiveTrailer _ id).control.map _) = _
    rw [Sender.discardActiveTrailer_control]
    rfl
  rw [hv]
  apply Sender.Stands.of_map_eq _ (Sender.sends_discardActiveTrailer _ id).symm
  exact (h.stands id').perm (List.Perm.refl _)

/-- The scheduler writes fragments. -/
theorem Framed.sent (h : l.Framed) {a : Sender.Advanced} (fs : List Fragment)
    (hs : a.sender.Sound l.kind l.used)
    (hp : a.sent ++ a.sender.control.map ControlSend.fragment =
      l.sender.control.map ControlSend.fragment ++ fs)
    (he : l.sender.Emits fs a.sender) : (l.sent a).Framed := by
  refine h.emits fs rfl hs rfl ?_ he
  show l.wire ++ a.sent ++ a.sender.control.map _ = l.wire ++ _ ++ fs
  rw [List.append_assoc, hp, List.append_assoc]

theorem Framed.advance (h : l.Framed) {head : ℕ} {a : Sender.Advanced}
    (ha : l.sender.advance head = some a) : (l.sent a).Framed := by
  have hs := h.sound.advance ha
  obtain ⟨hl, ⟨item, items, hc, rfl⟩ | ⟨hc, send, front, back, hq, hd⟩⟩ :=
    Sender.advance_cases h.sound ha
  · refine h.sent [] hs ?_ (Sender.emits_keep (List.Perm.refl _) fun _ _ => rfl)
    rw [hc, List.map_cons, List.append_nil]
    rfl
  · refine h.sent _ hs ?_ (h.sound.emits_drives h.isCount hl hc hq hd)
    rw [hc]
    rfl

theorem Framed.turn (h : l.Framed) {a : Sender.Advanced} (ha : l.sender.turn = some a) :
    (l.sent a).Framed := by
  obtain ⟨he, hc⟩ := Sender.emits_turn ha
  obtain ⟨lease, -, -, hl, -⟩ := Sender.turn_cases ha
  refine h.sent a.sent (h.sound.turn ha) ?_ he
  rw [hc, (h.sound.leased lease hl).1]
  simp

theorem Framed.completeLease (h : l.Framed) {a : Sender.Advanced}
    (ha : l.sender.completeLease = some a) : (l.sent a).Framed := by
  obtain ⟨lease, -, hl, -⟩ := Sender.completeLease_cases ha
  refine h.sent _ (h.sound.completeLease ha) ?_ (h.sound.emits_completeLease h.isCount ha)
  rw [(h.sound.leased lease hl).1]
  rfl

/-- A producer changes, and writes to the transport only under a lease. -/
theorem Framed.setProducer (h : l.Framed) {i : ℕ} {p : Producer} (w : SessionWindow)
    (hp : l.sender.producers[i]? = some p) (p' : Producer) (hk : Sender.key p' = Sender.key p)
    (hg : p'.shared.state = .granted → p.shared.state = .granted) (bs : List (List UInt8))
    (hbs : bs ≠ [] → p.shared.state = .granted) :
    Framed { l with
      sender := { l.sender with producers := l.sender.producers.set i p', window := w }
      wire := l.wire ++ bs.map (Sender.trailerFragment p'.shared) } := by
  refine h.emits (bs.map (Sender.trailerFragment p'.shared)) rfl
    ((h.sound.setProducer hp p' hk hg).congr rfl rfl rfl rfl rfl) rfl ?_
    (Sender.emits_keep (List.Perm.refl _) (Sender.follow_trailerFragment bs))
  by_cases hn : bs = []
  · subst hn
    simp [pipeline]
  · obtain ⟨lease, hl, -⟩ := h.sound.granted i p hp (hbs hn)
    have hc := (h.sound.leased lease hl).1
    simp [pipeline, hc]

theorem Framed.accept (h : l.Framed) {f : Fragment} {wire : List Fragment}
    {a : Reassembler.Accepted} (hw : l.wire = f :: wire) (ha : l.reassembler.accept f = .ok a) :
    (l.accepted f wire a).Framed := by
  refine ⟨h.kind_eq, h.sound, fun id => ?_⟩
  have hv : (l.accepted f wire a).view id = l.view id := by
    simp only [view, pipeline, accepted, hw, List.cons_append, Phase.follow_cons,
      Reassembler.phase_accept ha id]
  rw [hv]
  exact h.stands id

/-- Whatever happens, the two ends agree on where each message stands. -/
theorem Framed.next (h : l.Framed) {a : Action} (hn : l.next a l') : l'.Framed := by
  cases a with
  | openTrailer id => obtain ⟨-, hp, rfl⟩ := hn; exact h.openTrailer hp
  | admitMessage id payload handles trailer => obtain ⟨-, ha, rfl⟩ := hn; exact h.admitMessage ha
  | control item => obtain ⟨hl, hi, rfl⟩ := hn; exact h.control hl hi
  | cancel id => obtain ⟨hl, rfl⟩ := hn; exact h.cancel hl id
  | promote =>
    obtain ⟨-, rfl⟩ := hn
    refine h.emits [] rfl h.sound.promoteWaiting rfl ?_ ?_
    · simp [pipeline]
    · exact h.sound.emits_promoteWaiting (Sender.emits_keep (List.Perm.refl _) fun _ _ => rfl)
  | notice => obtain ⟨-, id, notices, -, rfl⟩ := hn; exact h.notice id notices
  | advance head => obtain ⟨a, ha, rfl⟩ := hn; exact h.advance ha
  | turn => obtain ⟨a, ha, rfl⟩ := hn; exact h.turn ha
  | completeLease => obtain ⟨a, ha, rfl⟩ := hn; exact h.completeLease ha
  | write i buf ready =>
    obtain ⟨p, hp, -, rfl⟩ := hn
    obtain ⟨hk, hid, hg, hs⟩ := (p.shared.pollWrite_writes l.sender.window buf ready).spec
    have hkey : Sender.key { p with
        shared := (p.shared.pollWrite l.sender.window buf ready).shared } = Sender.key p := by
      simp only [Sender.key, hk, hid]
    exact (h.setProducer _ hp _ hkey hg _ hs).receiver rfl rfl rfl rfl rfl
  | finish i handle =>
    obtain ⟨p, hp, -, rfl⟩ := hn
    have hf := h.setProducer l.sender.window hp { shared := p.shared.finish, handle } rfl (by
      intro hs
      simp only [SendShared.finish] at hs
      split at hs <;> simp at hs) [] (fun hb => absurd rfl hb)
    rwa [List.map_nil, List.append_nil] at hf
  | abandon i =>
    obtain ⟨p, hp, -, rfl⟩ := hn
    have hf := h.setProducer (p.shared.abandon l.sender.window).2 hp
      { shared := (p.shared.abandon l.sender.window).1, handle := false } rfl (by
      intro hs
      simp only [SendShared.abandon, SendShared.setAborted] at hs
      split at hs <;> simp at hs) [] (fun hb => absurd rfl hb)
    rwa [List.map_nil, List.append_nil] at hf
  | accept => obtain ⟨-, f, wire, a, hw, ha, rfl⟩ := hn; exact h.accept hw ha
  | grant => obtain ⟨r, s, -, -, -, rfl⟩ := hn; exact h.receiver rfl rfl rfl rfl rfl
  | takeOver => obtain ⟨r, s, -, -, -, rfl⟩ := hn; exact h.receiver rfl rfl rfl rfl rfl
  | drain k => obtain ⟨r, s, -, -, -, -, rfl⟩ := hn; exact h.receiver rfl rfl rfl rfl rfl
  | completeRead => obtain ⟨r, s, -, -, -, -, rfl⟩ := hn; exact h.receiver rfl rfl rfl rfl rfl
  | read i n k => obtain ⟨-, -, s, -, rfl⟩ := hn; exact h.receiver rfl rfl rfl rfl rfl
  | retire i => obtain ⟨-, s, -, rfl⟩ := hn; exact h.receiver rfl rfl rfl rfl rfl
  | setManual i => obtain ⟨-, s, -, -, rfl⟩ := hn; exact h.receiver rfl rfl rfl rfl rfl
  | release i n => obtain ⟨-, s, -, -, -, rfl⟩ := hn; exact h.receiver rfl rfl rfl rfl rfl
  | dropConsumer i => obtain ⟨-, s, -, rfl⟩ := hn; exact h.receiver rfl rfl rfl rfl rfl
  | dropCharge i => obtain ⟨id, -, rfl⟩ := hn; exact h.receiver rfl rfl rfl rfl rfl
  | releaseCharge i => obtain ⟨id, -, rfl⟩ := hn; exact h.receiver rfl rfl rfl rfl rfl
  | sink => obtain ⟨s, out, -, rfl⟩ := hn; exact h.receiver rfl rfl rfl rfl rfl
  | transmit => obtain ⟨c, queue, -, rfl⟩ := hn; exact h.receiver rfl rfl rfl rfl rfl
  | deliver =>
    obtain ⟨c, back, -, rfl⟩ := hn
    cases c with
    | credit id n =>
      exact h.congr rfl (h.sound.congr rfl rfl rfl rfl rfl) rfl rfl (List.Perm.refl _)
    | payloadCredit n =>
      exact h.congr rfl (h.sound.congr rfl rfl rfl rfl rfl) rfl rfl (List.Perm.refl _)
    | empty | abort | release => exact h.receiver rfl rfl rfl rfl rfl

end Link

end Dolang.Rpc
