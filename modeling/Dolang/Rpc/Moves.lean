import Dolang.Rpc.Quota

/-!
# Moves

An action of a link is one core step and then moves of the scheduler: a waiting message starts, a
control item or a fragment goes out, a message ends, a lease is granted. `Move` lists these moves with
all that decides them, `core` is what is left of each action, and `next_moves` puts an action
together again. What the core steps and the moves preserve, every action does.
-/

namespace Dolang.Rpc

/-! ### Producers and their lease -/

namespace SendShared

/-- What a producer holds fits its state. -/
structure Staged (p : SendShared) : Prop where
  buffer : p.buffer ≠ [] → p.state = .fragment ∨ p.state = .fragmentDemand ∨
    p.state = .fragmentFinish ∨ p.state = .abort
  reserved : p.reserved ≠ 0 → p.state = .demand ∨ p.state = .granted ∨ p.state = .staging ∨
    p.state = .finish ∨ p.state = .abort

/-- A producer is where `wait_fragment` has found it, or has ended since. -/
structure Ready (p : SendShared) (action : SendAction) : Prop where
  buffer : p.buffer = []
  fragment : action = .fragment → p.state = .fragment ∨ p.state = .fragmentDemand ∨
    p.state = .fragmentFinish ∨ p.state = .abort
  finish : action = .finish → p.state = .finish
  abort : action = .abort → p.state = .abort

/-- What the producer does on its own keeps to both. -/
structure Keeps (p q : SendShared) : Prop where
  kind : q.kind = p.kind
  id : q.id = p.id
  staged : p.Staged → q.Staged
  ready : ∀ action, p.Ready action → q.Ready action

variable {p q : SendShared} {w : SessionWindow} {buf : List UInt8} {r : Write}

theorem staged_new (kind : Kind) (id : MsgId) (limits : Limits) : (new kind id limits).Staged where
  buffer := fun h => absurd rfl h
  reserved := fun h => absurd rfl h

/-- The states in which a write does something are not those that a lease has ended with. -/
theorem Ready.not_writing {action : SendAction} (h : p.Ready action) :
    p.state ≠ .idle ∧ p.state ≠ .granted ∧ p.state ≠ .staging := by
  cases action with
  | fragment => obtain hs | hs | hs | hs := h.fragment rfl <;> simp [hs]
  | finish => simp [h.finish rfl]
  | abort => simp [h.abort rfl]

theorem Writes.keeps (h : Writes p w buf r) : p.Keeps r.shared := by
  refine ⟨h.spec.1, h.spec.2.1, fun hst => ?_, fun action ha => ?_⟩
  · cases h with
    | idle => exact hst
    | more hs =>
      refine ⟨fun _ => .inr (.inl rfl), fun hr => ?_⟩
      obtain hs' | hs' | hs' | hs' | hs' := hst.reserved hr <;> simp [hs'] at hs
    | stage hs =>
      refine ⟨fun _ => .inl rfl, fun hr => ?_⟩
      obtain hs' | hs' | hs' | hs' | hs' := hst.reserved hr <;> simp [hs'] at hs
    | demand hs =>
      refine ⟨fun hb => ?_, fun _ => .inl rfl⟩
      obtain hs' | hs' | hs' | hs' := hst.buffer hb <;> simp [hs'] at hs
    | staging => exact ⟨fun _ => .inl rfl, fun hr => absurd rfl hr⟩
    | direct => exact ⟨fun hb => absurd rfl hb, fun hr => absurd rfl hr⟩
    | blocked hs => exact ⟨fun hb => absurd rfl hb, fun _ => .inr (.inl hs)⟩
  · obtain ⟨h1, h2, h3⟩ := ha.not_writing
    cases h with
    | idle => exact ha
    | more hs =>
      refine ⟨ha.buffer, fun _ => .inr (.inl rfl), fun he => ?_, fun he => ?_⟩
      · have := ha.finish he
        simp [this] at hs
      · have := ha.abort he
        simp [this] at hs
    | stage hs | demand hs => exact absurd hs h1
    | staging hs => exact absurd hs h3
    | direct hs | blocked hs => exact absurd hs h2

theorem keeps_finish (p : SendShared) : p.Keeps p.finish := by
  refine ⟨rfl, rfl, fun h => ⟨fun hb => ?_, fun hr => ?_⟩, fun action h => ⟨h.buffer, fun he => ?_,
    fun he => ?_, fun he => ?_⟩⟩
  · obtain hs | hs | hs | hs := h.buffer hb <;> simp [finish, hs]
  · obtain hs | hs | hs | hs | hs := h.reserved hr <;> simp [finish, hs]
  · obtain hs | hs | hs | hs := h.fragment he <;> simp [finish, hs]
  · simp [finish, h.finish he]
  · simp [finish, h.abort he]

theorem keeps_setAborted (p : SendShared) (w : SessionWindow) : p.Keeps (p.setAborted w).1 := by
  refine ⟨rfl, rfl, fun h => ⟨fun hb => ?_, fun hr => ?_⟩, fun action h => ⟨h.buffer, fun he => ?_,
    fun he => ?_, fun he => ?_⟩⟩
  · obtain hs | hs | hs | hs := h.buffer hb <;> simp [setAborted, hs]
  · obtain hs | hs | hs | hs | hs := h.reserved hr <;> simp [setAborted, hs]
  · obtain hs | hs | hs | hs := h.fragment he <;> simp [setAborted, hs]
  · simp [setAborted, h.finish he]
  · simp [setAborted, h.abort he]

theorem keeps_start (p : SendShared) : p.Keeps p.start :=
  ⟨rfl, rfl, fun h => ⟨h.buffer, h.reserved⟩,
    fun _ h => ⟨h.buffer, h.fragment, h.finish, h.abort⟩⟩

/-- A turn of `wait_fragment` flushes what is staged. -/
theorem waitFragment_spec (p : SendShared) (yielded : Bool) :
    (p.waitFragment yielded).1 = { p with
      buffer := [], state := (p.waitFragment yielded).1.state } ∧
      (p.waitFragment yielded).2.1 = (if p.buffer = [] then [] else [p.buffer]) ∧
      ((p.waitFragment yielded).1.state = p.state ∨
        (p.state = .granted ∧ (p.waitFragment yielded).1.state = .staging)) := by
  unfold waitFragment
  cases hs : p.state with
  | granted => cases yielded <;> simp
  | _ => simp

theorem Staged.waitFragment (h : p.Staged) (yielded : Bool) : (p.waitFragment yielded).1.Staged := by
  obtain ⟨he, -, hs⟩ := p.waitFragment_spec yielded
  refine ⟨fun hb => ?_, fun hr => ?_⟩
  · rw [he] at hb
    exact absurd rfl hb
  · have hr : p.reserved ≠ 0 := by
      rw [he] at hr
      exact hr
    obtain hs | ⟨-, hs⟩ := hs
    · rw [hs]
      exact h.reserved hr
    · exact .inr (.inr (.inl hs))

/-- What a turn yields is what the producer wants. -/
theorem ready_waitFragment {yielded : Bool} {action : SendAction}
    (h : (p.waitFragment yielded).2.2 = .ready action) : (p.waitFragment yielded).1.Ready action := by
  unfold waitFragment at h ⊢
  cases hs : p.state with
  | granted =>
    simp only [hs] at h
    split_ifs at h
  | fragment | fragmentDemand | fragmentFinish | finish | abort =>
    simp only [hs] at h ⊢
    obtain rfl := Turn.ready.inj h
    exact ⟨rfl, by simp, by simp, by simp⟩
  | idle | demand | staging => simp [hs] at h

end SendShared

namespace Sender

/-- What the producers of a sender hold fits their states, and the lease. -/
structure Staged (s : Sender) : Prop where
  staged : ∀ (i : ℕ) (p : Producer), s.producers[i]? = some p → p.shared.Staged
  ready : ∀ (lease : Lease) (i : ℕ) (p : Producer) (action : SendAction), s.lease = some lease → lease.send.trailer = some i →
    s.producers[i]? = some p → lease.ready = some action → p.shared.Ready action

variable {s s' : Sender} {send : ActiveSend}

/-- One producer changes, and keeps to what it holds. -/
theorem Staged.set (h : s.Staged) {i : ℕ} {p q : Producer} (hp : s.producers[i]? = some p)
    (hk : p.shared.Keeps q.shared) (hs : s'.producers = s.producers.set i q)
    (hl : s'.lease = s.lease) : s'.Staged := by
  have hget : ∀ (j : ℕ) (x : Producer), s'.producers[j]? = some x →
      ∃ y, s.producers[j]? = some y ∧ y.shared.Keeps x.shared := by
    intro j x hx
    rw [hs] at hx
    by_cases hij : i = j
    · subst hij
      rw [List.getElem?_set_self (List.getElem?_eq_some_iff.1 hp).1] at hx
      obtain rfl := Option.some.inj hx
      exact ⟨p, hp, hk⟩
    · rw [List.getElem?_set_ne hij] at hx
      exact ⟨x, hx, rfl, rfl, fun h => h, fun _ h => h⟩
  refine ⟨fun j x hx => ?_, fun lease j x action he ht hx hr => ?_⟩
  · obtain ⟨y, hy, hk⟩ := hget j x hx
    exact hk.staged (h.staged j y hy)
  · obtain ⟨y, hy, hk⟩ := hget j x hx
    exact hk.ready action (h.ready lease j y action (hl ▸ he) ht hy hr)

/-- Messages come and go. -/
theorem Staged.congr (h : s.Staged) (hp : s'.producers = s.producers) (hl : s'.lease = s.lease) :
    s'.Staged :=
  ⟨hp ▸ h.staged, hp ▸ hl ▸ h.ready⟩

theorem getElem?_modify_some {ps : List Producer} {i j : ℕ} {f : Producer → Producer} {x : Producer}
    (h : (ps.modify i f)[j]? = some x) : ∃ y, ps[j]? = some y ∧ (x = y ∨ (i = j ∧ x = f y)) := by
  rw [List.getElem?_modify] at h
  obtain ⟨y, hy, rfl⟩ := Option.map_eq_some_iff.1 h
  refine ⟨y, hy, ?_⟩
  split_ifs with hij
  · exact .inr ⟨hij, rfl⟩
  · exact .inl rfl

theorem Staged.start (h : s.Staged) (send : ActiveSend) (budget : PayloadBudget) :
    (s.start send budget).Staged := by
  have hget : ∀ (j : ℕ) (x : Producer), (s.start send budget).producers[j]? = some x →
      ∃ y, s.producers[j]? = some y ∧ y.shared.Keeps x.shared := by
    intro j x hx
    unfold Sender.start at hx
    cases ht : send.trailer with
    | none =>
      simp only [ht] at hx
      exact ⟨x, hx, rfl, rfl, fun h => h, fun _ h => h⟩
    | some i =>
      simp only [ht] at hx
      obtain ⟨y, hy, rfl | ⟨-, rfl⟩⟩ := getElem?_modify_some hx
      · exact ⟨x, hy, rfl, rfl, fun h => h, fun _ h => h⟩
      · exact ⟨y, hy, SendShared.keeps_start _⟩
  refine ⟨fun j x hx => ?_, fun lease j x action he ht hx hr => ?_⟩
  · obtain ⟨y, hy, hk⟩ := hget j x hx
    exact hk.staged (h.staged j y hy)
  · obtain ⟨y, hy, hk⟩ := hget j x hx
    exact hk.ready action (h.ready lease j y action he ht hy hr)

theorem Staged.discardTrailer (h : s.Staged) (t : Option ℕ) : (s.discardTrailer t).Staged := by
  unfold Sender.discardTrailer
  split
  · exact h
  · rename_i i p hp
    obtain ⟨j, rfl, hj⟩ := Option.bind_eq_some_iff.1 hp
    obtain ⟨q, hq, he⟩ := Option.map_eq_some_iff.1 hj
    obtain ⟨rfl, rfl⟩ := Prod.mk.inj he
    exact h.set hq (SendShared.keeps_setAborted q.shared s.window) rfl rfl

end Sender

/-! ### Moves -/

namespace Sender

/-- The slot of message `send` is free again. -/
def vacate (s : Sender) (send : ActiveSend) : Sender :=
  { s with activeFragmented := s.activeFragmented - if send.multiFragment then 1 else 0 }

/-- A message leaves the active queue, and its slot is free. -/
def leave (s : Sender) (send : ActiveSend) (active : List ActiveSend) : Sender :=
  vacate { s with active } send

/-- A message that was being sent is given up: its trailer is cut short, and what was not written of
it is returned. -/
def giveUp (s : Sender) (send : ActiveSend) (active : List ActiveSend) : Sender :=
  let s := Sender.discardTrailer { s with active } send.trailer
  vacate { s with payloadBudget := s.payloadBudget.credit (send.charged - send.offset) } send

end Sender

namespace Link

/-- A move of the scheduler. -/
inductive Move (l : Link) : Link → Prop
  | start {send : ActiveSend} {waiting : List ActiveSend} {budget : PayloadBudget}
      (hw : l.sender.waiting = send :: waiting) (hc : l.sender.tryCharge send = some budget) :
      Move l { l with sender := { l.sender.start send budget with waiting } }
  | control {item : ControlSend} {items : List ControlSend} (hl : l.sender.lease = none)
      (hc : l.sender.control = item :: items) :
      Move l (l.sent { sender := { l.sender with control := items }, sent := [item.fragment] })
  | payload {send : ActiveSend} {front back : List ActiveSend} (head : ℕ) (hl : l.sender.lease = none)
      (hc : l.sender.control = []) (hq : l.sender.active = front ++ send :: back)
      (hled : send.ledger = true)
      (hd : (l.sender.payloadDone send && send.trailer.isNone) = false) :
      Move l (l.sent {
        sender := { l.sender with active := back ++ front ++ [l.sender.afterPayload send] }
        sent := [l.sender.payloadFragment send head] })
  | whole {send : ActiveSend} {front back : List ActiveSend} (head : ℕ) (hl : l.sender.lease = none)
      (hc : l.sender.control = []) (hq : l.sender.active = front ++ send :: back)
      (hled : send.ledger = true)
      (hd : (l.sender.payloadDone send && send.trailer.isNone) = true) :
      Move l (l.sent {
        sender := l.sender.leave send (back ++ front)
        sent := [l.sender.payloadFragment send head] })
  | commit {send : ActiveSend} {front back : List ActiveSend} (hl : l.sender.lease = none)
      (hc : l.sender.control = []) (hq : l.sender.active = front ++ send :: back)
      (hled : send.ledger = false)
      (ht : ∀ i, send.trailer = some i →
        ∃ p, l.sender.producers[i]? = some p ∧ p.shared.state = .finish) :
      Move l (l.sent {
        sender := l.sender.leave send (back ++ front)
        sent := [ControlSend.bare { last := true } send.kind send.id] })
  | abort {send : ActiveSend} {front back : List ActiveSend} {i : ℕ} {p : Producer} (hl : l.sender.lease = none)
      (hc : l.sender.control = []) (hq : l.sender.active = front ++ send :: back)
      (hled : send.ledger = false) (ht : send.trailer = some i)
      (hp : l.sender.producers[i]? = some p) (hs : p.shared.state = .abort) :
      Move l { l with sender := { l.sender.leave send (back ++ front) with
        control := [.abort send.kind send.id] } }
  | grant {send : ActiveSend} {front back : List ActiveSend} {i : ℕ} {p : Producer} (hl : l.sender.lease = none)
      (hc : l.sender.control = []) (hq : l.sender.active = front ++ send :: back)
      (hled : send.ledger = false) (ht : send.trailer = some i)
      (hp : l.sender.producers[i]? = some p) (hs : p.shared.pollAction = some .fragment) :
      Move l { l with sender :=
        (Sender.grantLease { l.sender with active := back ++ front } send i).sender }

/-- A message joins the queue. -/
def enqueue (l : Link) (id : MsgId) (payload : List UInt8) (handles : ℕ) (trailer : Option ℕ) :
    Link :=
  let send := l.sender.newSend l.kind id payload handles trailer
  { l with
    sender := { l.sender with waiting := l.sender.waiting ++ [send] }
    history := { l.history with admitted := send :: l.history.admitted } }

/-- Message `send`, which was being sent, is cancelled. -/
def dropActive (l : Link) (send : ActiveSend) (active : List ActiveSend) : Link :=
  { l with
    sender := if send.started then (l.sender.giveUp send active).admitAbort l.kind send.id
      else l.sender.giveUp send active
    history := { l.history with
      cancelled := if send.ledger then send.id :: l.history.cancelled else l.history.cancelled } }

/-- The lease comes back, and its message with it. -/
def leaseBack (l : Link) (lease : Lease) (i : ℕ) : Link :=
  { l with sender := { l.sender.modifyShared i SendShared.complete with
      lease := none, active := l.sender.active ++ [lease.send] } }

/-- An action without the moves of the scheduler. -/
def core (l : Link) : Action → Link → Prop
  | .admitMessage id payload handles trailer, l' => l.sender.lease = none ∧
    l.Admissible id handles trailer ∧ l' = l.enqueue id payload handles trailer
  | .cancel id, l' => l.sender.lease = none ∧
    ((∃ send front back, send.id = id ∧ l.sender.waiting = front ++ send :: back ∧
        l' = l.cancelledWaiting send (front ++ back)) ∨
      (∃ send front back, send.id = id ∧ l.sender.active = front ++ send :: back ∧
        l' = l.dropActive send (front ++ back)) ∨
      l' = l)
  | .promote, l' | .advance _, l' => l' = l
  | .completeLease, l' => ∃ lease i action, l.sender.lease = some lease ∧
    lease.send.trailer = some i ∧ lease.ready = some action ∧ l' = l.leaseBack lease i
  | a, l' => l.next a l'

variable {l l' m : Link} {send : ActiveSend}

/-- Some moves of the scheduler. -/
abbrev Moves : Link → Link → Prop :=
  Relation.ReflTransGen Move

/-- Waiting messages start as long as they fit. -/
theorem moves_promoteWaiting (h : l.Moves m) :
    l.Moves { m with sender := m.sender.promoteWaiting } := by
  refine Sender.promoteWaiting_invariant (s := m.sender)
    (I := fun t => l.Moves { m with sender := t }) ?_ h
  intro t send waiting budget ht hc
  refine ht.tail ?_
  exact Move.start (l := { m with sender := { t with waiting := send :: waiting } }) rfl hc

/-- A message gives its slot back, and waiting messages start. -/
theorem moves_release {s : Sender} (h : l.Moves { m with sender := s.vacate send }) :
    l.Moves { m with sender := s.release send } := by
  refine Sender.release_invariant (s := s)
    (I := fun t => l.Moves { m with sender := t }) ?_ h
  intro t send waiting budget ht hc
  refine ht.tail ?_
  exact Move.start (l := { m with sender := { t with waiting := send :: waiting } }) rfl hc

theorem moves_admit (id : MsgId) (payload : List UInt8) (handles : ℕ) (trailer : Option ℕ) :
    (l.enqueue id payload handles trailer).Moves (l.admitMessage id payload handles trailer) := by
  refine Sender.admitMessage_invariant (s := l.sender)
    (I := fun t => (l.enqueue id payload handles trailer).Moves
      { l.enqueue id payload handles trailer with sender := t }) l.kind id payload handles trailer
    ?_ Relation.ReflTransGen.refl
  intro t send waiting budget ht hc
  refine ht.tail ?_
  exact Move.start (l := { l.enqueue id payload handles trailer with
    sender := { t with waiting := send :: waiting } }) rfl hc

theorem moves_cancelledActive (send : ActiveSend) (active : List ActiveSend) :
    (l.dropActive send active).Moves (l.cancelledActive send active) := by
  unfold dropActive cancelledActive
  cases hst : send.started with
  | true =>
    simp only [if_true]
    -- The promotion does not look at the control queue.
    refine Sender.promoteWaiting_invariant (s := l.sender.giveUp send active)
      (I := fun t => Moves _ { l with
        sender := t.admitAbort l.kind send.id
        history := { l.history with
          cancelled := if send.ledger then send.id :: l.history.cancelled
            else l.history.cancelled } }) ?_ Relation.ReflTransGen.refl
    intro t send' waiting budget ht hc
    refine ht.tail ?_
    exact Move.start (l := { l with
      sender := Sender.admitAbort { t with waiting := send' :: waiting } l.kind send.id
      history := _ }) rfl hc
  | false =>
    simp only [Bool.false_eq_true, if_false]
    exact moves_promoteWaiting Relation.ReflTransGen.refl

/-- A message ends with `fs`, gives its slot back, and waiting messages start. -/
theorem moves_leave {active : List ActiveSend} {fs : List Fragment}
    (h : l.Moves (m.sent { sender := m.sender.leave send active, sent := fs })) :
    l.Moves (m.sent { sender := Sender.release { m.sender with active } send, sent := fs }) :=
  moves_release (m := m.sent { sender := m.sender, sent := fs }) h

theorem moves_abort {active : List ActiveSend}
    (h : l.Moves { m with sender := { m.sender.leave send active with
      control := [.abort send.kind send.id] } }) (hc : m.sender.control = []) :
    l.Moves (m.sent (Sender.abortSend { m.sender with active } send)) := by
  have hm : m.sent (Sender.abortSend { m.sender with active } send) = { m with
      sender := Sender.release { m.sender with active, control := [.abort send.kind send.id] } send } := by
    simp only [Link.sent, Sender.abortSend, List.append_nil, hc, List.nil_append]
  rw [hm]
  exact moves_release h

theorem moves_advance (h : l.Framed) {head : ℕ} {a : Sender.Advanced}
    (ha : l.sender.advance head = some a) : l.Moves (l.sent a) := by
  obtain ⟨hl, ⟨item, items, hc, rfl⟩ | ⟨hc, send, front, back, hq, hd⟩⟩ :=
    Sender.advance_cases h.sound ha
  · exact .single (.control hl hc)
  · cases hd with
    | payload hled =>
      unfold Sender.sendPayload
      split_ifs with hdone
      · exact moves_leave (.single (.whole head hl hc hq hled hdone))
      · exact .single (.payload head hl hc hq hled (Bool.eq_false_iff.2 hdone))
    | commit hled ht => exact moves_leave (.single (.commit hl hc hq hled ht))
    | abort hled ht hp hs => exact moves_abort (.single (.abort hl hc hq hled ht hp hs)) hc
    | @grant i p hled ht hp hs =>
      have hm : l.sent (Sender.grantLease { l.sender with active := back ++ front } send i) =
          { l with sender :=
            (Sender.grantLease { l.sender with active := back ++ front } send i).sender } := by
        simp [Link.sent, Sender.grantLease]
      rw [hm]
      exact .single (.grant hl hc hq hled ht hp hs)

theorem state_complete {p : SendShared} :
    (p.state = .finish → p.complete.state = .finish) ∧ (p.state = .abort → p.complete.state = .abort) := by
  constructor <;> (intro h; simp [SendShared.complete, h])

/-- Giving a lease back puts its message back, which ends then if its producer has. -/
theorem moves_completeLease (h : l.Framed) (hs : l.sender.Staged) {a : Sender.Advanced}
    (ha : l.sender.completeLease = some a) :
    ∃ m, l.core .completeLease m ∧ m.Moves (l.sent a) := by
  obtain ⟨lease, i, hl, ht, hcase⟩ := Sender.completeLease_cases ha
  obtain ⟨hc, -, hled, -⟩ := h.sound.leased lease hl
  have hmem : lease.send ∈ l.sender.queued := by
    simp [Sender.queued, Sender.sends, hl]
  obtain ⟨p, hp⟩ : ∃ p, l.sender.producers[i]? = some p := by
    have hk := h.sound.streams lease.send hmem i ht
    rw [List.getElem?_map] at hk
    obtain ⟨p, hp, -⟩ := Option.map_eq_some_iff.1 hk
    exact ⟨p, hp⟩
  have hp' : (l.leaseBack lease i).sender.producers[i]? =
      some { p with shared := p.shared.complete } := by
    simp [leaseBack, Sender.modifyShared, hp]
  have hq : (l.leaseBack lease i).sender.active = l.sender.active ++ lease.send :: [] := rfl
  obtain ⟨hr, rfl⟩ | ⟨hr, rfl⟩ | ⟨hr, rfl⟩ := hcase
  · refine ⟨l.leaseBack lease i, ⟨lease, i, _, hl, ht, hr, rfl⟩, ?_⟩
    have hm : l.sent { sender := { l.sender.modifyShared i SendShared.complete with
        lease := none, active := l.sender.active ++ [lease.send] } } = l.leaseBack lease i := by
      simp [Link.sent, leaseBack]
    rw [hm]
  · refine ⟨l.leaseBack lease i, ⟨lease, i, _, hl, ht, hr, rfl⟩, ?_⟩
    have hfin := (hs.ready lease i p _ hl ht hp hr).finish rfl
    have hmove := Move.commit (l := l.leaseBack lease i) rfl hc hq hled (fun j hj => by
      obtain rfl := Option.some.inj (ht.symm.trans hj)
      exact ⟨_, hp', state_complete.1 hfin⟩)
    have := moves_leave (m := l.leaseBack lease i) (.single hmove)
    exact this
  · refine ⟨l.leaseBack lease i, ⟨lease, i, _, hl, ht, hr, rfl⟩, ?_⟩
    have hab := (hs.ready lease i p _ hl ht hp hr).abort rfl
    have hmove := Move.abort (l := l.leaseBack lease i) rfl hc hq hled ht hp' (state_complete.2 hab)
    have := moves_abort (m := l.leaseBack lease i) (.single hmove) hc
    exact this

/-- An action is a core step and then some moves. -/
theorem next_moves (h : l.Framed) (hs : l.sender.Staged) {a : Action} (hn : l.next a l') :
    ∃ m, l.core a m ∧ m.Moves l' := by
  cases a with
  | admitMessage id payload handles trailer =>
    obtain ⟨hl, ha, rfl⟩ := hn
    exact ⟨_, ⟨hl, ha, rfl⟩, moves_admit ..⟩
  | cancel id =>
    obtain ⟨hl, rfl⟩ := hn
    obtain ⟨send, front, back, hid, hq, he⟩ | ⟨send, front, back, hid, hq, he⟩ | he :=
      l.cancel_cases id
    · rw [he]
      exact ⟨_, ⟨hl, .inl ⟨send, front, back, hid, hq, rfl⟩⟩, .refl⟩
    · rw [he]
      exact ⟨_, ⟨hl, .inr (.inl ⟨send, front, back, hid, hq, rfl⟩)⟩, moves_cancelledActive ..⟩
    · rw [he]
      exact ⟨_, ⟨hl, .inr (.inr rfl)⟩, .refl⟩
  | promote =>
    obtain ⟨-, rfl⟩ := hn
    exact ⟨l, rfl, moves_promoteWaiting Relation.ReflTransGen.refl⟩
  | advance head =>
    obtain ⟨a, ha, rfl⟩ := hn
    exact ⟨l, rfl, moves_advance h ha⟩
  | completeLease =>
    obtain ⟨a, ha, rfl⟩ := hn
    exact moves_completeLease h hs ha
  | _ => exact ⟨l', hn, .refl⟩

end Link

end Dolang.Rpc
