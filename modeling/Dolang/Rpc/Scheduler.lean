import Dolang.Rpc.Trailer

/-!
# The send scheduler

The `Scheduler` of `fragment.rs`, with the pool of trailer credit and the sending ends of the
trailers that it works on. `active` holds the messages that are being sent, `waiting` those that wait
for a slot or for payload quota, and `control` what goes out ahead of either.

`advance` writes one fragment. For trailer data it grants a lease to the producer instead, and
`turn` and `completeLease` are then the rest of it; nothing else touches the scheduler until the
lease is back. The records behind the `Arc`s of trailers stand in the list `producers`, each with
whether its `TrailerSend` is still there, and an `Arc` is an index into it.
-/

namespace Dolang.Rpc

/-- A message that is being sent or waits to be sent. -/
structure ActiveSend where
  id : MsgId
  kind : Kind
  payload : List UInt8
  offset : ℕ := 0
  handles : ℕ := 0
  handleOffset : ℕ := 0
  trailer : Option ℕ := none
  started : Bool := false
  multiFragment : Bool
  /-- The references that the payload holds are still in its ledger. -/
  ledger : Bool := true
  charged : ℕ := 0
  deriving DecidableEq, Repr

/-- What goes out ahead of messages. -/
inductive ControlSend where
  | empty (kind : Kind) (id : MsgId)
  | abort (kind : Kind) (id : MsgId)
  | release (id count : ℕ)
  | credit (id : MsgId) (count : ℕ)
  | payloadCredit (count : ℕ)
  deriving DecidableEq, Repr

namespace ControlSend

/-- A fragment without payload. -/
def bare (flags : Flags) (kind : Kind) (id : MsgId) : Fragment where
  header := ⟨flags, kind, id, 0⟩
  payload := []
  length_eq := List.length_nil

/-- A fragment that carries a count, as four bytes. -/
def counted (kind : Kind) (id count : ℕ) : Fragment where
  header := ⟨{ first := true, last := true }, kind, id, 4⟩
  payload := Bytes.leBytes count 4
  length_eq := Bytes.leBytes_length count 4

/-- The fragment of a control item, `Scheduler::send_control`. -/
def fragment : ControlSend → Fragment
  | .empty kind id => bare { first := true, last := true } kind id
  | .abort kind id => bare { abort := true } kind id
  | .release id count => counted .release id count
  | .credit id count => counted .credit id count
  | .payloadCredit count => counted .payloadCredit 0 count

end ControlSend

/-- The sending end of a trailer, and whether its `TrailerSend` is still there. -/
structure Producer where
  shared : SendShared
  handle : Bool := true
  deriving DecidableEq, Repr

/-- A lease of the transport to a producer. `ready` is what `wait_fragment` has returned. -/
structure Lease where
  send : ActiveSend
  yielded : Bool := false
  ready : Option SendAction := none
  deriving DecidableEq, Repr

/-- The scheduler of an endpoint. -/
structure Scheduler where
  active : List ActiveSend
  waiting : List ActiveSend
  control : List ControlSend
  payloadBudget : PayloadBudget
  activeFragmented : ℕ
  maxActiveFragmented : ℕ
  maxFragmentSize : ℕ
  maxHandlesPerFragment : ℕ

/-- The sending half of an endpoint. -/
structure Sender extends Scheduler where
  window : SessionWindow
  producers : List Producer
  lease : Option Lease

namespace Sender

/-- A sender that has sent nothing. -/
def new (limits : Limits) : Sender where
  active := []
  waiting := []
  control := []
  payloadBudget := ⟨limits.maxOutstandingPayload⟩
  activeFragmented := 0
  maxActiveFragmented := max limits.maxConcurrentCalls 1
  maxFragmentSize := max (limits.maxFragmentSize - headerLen) 1
  maxHandlesPerFragment := limits.maxHandlesPerFragment
  window := .new limits.trailerSessionWindow
  producers := []
  lease := none

/-- Changes the sending end of a trailer. -/
def modifyShared (s : Sender) (i : ℕ) (f : SendShared → SendShared) : Sender :=
  { s with producers := s.producers.modify i fun p => { p with shared := f p.shared } }

/-- `SendShared::discard` for the trailer of a message, if it has one. -/
def discardTrailer (s : Sender) (trailer : Option ℕ) : Sender :=
  match trailer.bind fun i => (s.producers[i]?).map (i, ·) with
  | none => s
  | some (i, p) =>
    let (shared, window) := p.shared.discard s.window
    { s with producers := s.producers.set i { p with shared }, window }

/-- Takes the quota that a message needs to start, if a slot is free too. -/
def tryCharge (s : Sender) (send : ActiveSend) : Option PayloadBudget :=
  if send.multiFragment && decide (s.maxActiveFragmented ≤ s.activeFragmented) then none
  else s.payloadBudget.tryDebit send.payload.length

/-- Starts a message that `tryCharge` has paid for. -/
def start (s : Sender) (send : ActiveSend) (payloadBudget : PayloadBudget) : Sender :=
  { s with
    payloadBudget
    active := s.active ++ [{ send with charged := send.payload.length }]
    activeFragmented := s.activeFragmented + if send.multiFragment then 1 else 0
    producers := match send.trailer with
      | some i => s.producers.modify i fun p => { p with shared := p.shared.start }
      | none => s.producers }

/-- Starts the messages of a queue in order, as long as they fit. -/
def promote (s : Sender) : List ActiveSend → Sender
  | [] => { s with waiting := [] }
  | send :: waiting =>
    match s.tryCharge send with
    | none => { s with waiting := send :: waiting }
    | some budget => promote (s.start send budget) waiting

/-- Starts as many waiting messages as now fit. -/
def promoteWaiting (s : Sender) : Sender :=
  s.promote s.waiting

/-- A message that is about to be admitted. -/
def newSend (s : Sender) (kind : Kind) (id : MsgId) (payload : List UInt8) (handles : ℕ)
    (trailer : Option ℕ) : ActiveSend where
  id
  kind
  payload
  handles
  trailer
  multiFragment := !(trailer.isNone && decide (payload.length ≤ s.maxFragmentSize) &&
    decide (handles ≤ s.maxHandlesPerFragment))

/-- Queues a message, or starts it when nothing waits and it fits. -/
def admitMessage (s : Sender) (kind : Kind) (id : MsgId) (payload : List UInt8) (handles : ℕ)
    (trailer : Option ℕ) : Sender :=
  let send := s.newSend kind id payload handles trailer
  if s.waiting = [] then
    match s.tryCharge send with
    | some budget => s.start send budget
    | none => { s with waiting := s.waiting ++ [send] }
  else { s with waiting := s.waiting ++ [send] }

/-- Queues a message without payload, such as a `Cancel`. -/
def admitEmpty (s : Sender) (kind : Kind) (id : MsgId) : Sender :=
  { s with control := s.control ++ [.empty kind id] }

/-- Queues an `ABORT`. -/
def admitAbort (s : Sender) (kind : Kind) (id : MsgId) : Sender :=
  { s with control := s.control ++ [.abort kind id] }

/-- Queues a `Release`. -/
def admitRelease (s : Sender) (id count : ℕ) : Sender :=
  { s with control := s.control ++ [.release id count] }

/-- Queues a `Credit`. -/
def admitCredit (s : Sender) (id : MsgId) (count : ℕ) : Sender :=
  { s with control := s.control ++ [.credit id count] }

/-- Adds to the first `PayloadCredit` of a queue, `none` when there is none. -/
def mergePayloadCredit (count : ℕ) : List ControlSend → Option (List ControlSend)
  | [] => none
  | .payloadCredit pending :: control => some (.payloadCredit (min (pending + count) u32Max) :: control)
  | item :: control => (mergePayloadCredit count control).map (item :: ·)

/-- Queues a `PayloadCredit`, or adds it to one that is queued. -/
def admitPayloadCredit (s : Sender) (count : ℕ) : Sender :=
  { s with control := (mergePayloadCredit count s.control).getD (s.control ++ [.payloadCredit count]) }

/-- What cancelling a message has found. -/
inductive AbortOutcome where
  | notActive
  | discarded (started dispatched : Bool)
  deriving DecidableEq, Repr

/-- Splits a queue at the first message with id `id`. -/
def takeSend (id : MsgId) (queue : List ActiveSend) : Option (ActiveSend × List ActiveSend) :=
  (queue.find? (·.id = id)).map fun send => (send, queue.eraseP (·.id = id))

/-- Gives the slot of a message back and starts whatever now fits. -/
def freeFragmentedSlot (s : Sender) : Sender :=
  promoteWaiting { s with activeFragmented := s.activeFragmented - 1 }

/-- Cancels a message that is not sent yet, or not as a whole. -/
def tryCancelActive (s : Sender) (id : MsgId) : Sender × AbortOutcome :=
  match takeSend id s.waiting with
  | some (send, waiting) =>
    (discardTrailer { s with waiting } send.trailer, .discarded false false)
  | none =>
    match takeSend id s.active with
    | some (send, active) =>
      let s := discardTrailer { s with active } send.trailer
      (promoteWaiting { s with
          payloadBudget := s.payloadBudget.credit (send.charged - send.offset)
          activeFragmented := s.activeFragmented - if send.multiFragment then 1 else 0 },
        .discarded send.started !send.ledger)
    | none => (s, .notActive)

/-- A notice of the peer that it does not want the trailer of message `id`: the trailer is cut short,
and the message ends as if it had been completed. -/
def discardActiveTrailer (s : Sender) (id : MsgId) : Sender :=
  match s.active.find? (·.id = id) with
  | some send =>
    if send.trailer.isSome then
      { s.discardTrailer send.trailer with
        active := s.active.modify (s.active.findIdx (·.id = id)) fun send =>
          { send with trailer := none } }
    else s
  | none => s

/-- What one step of `advance` yields: the state after it, the fragments on the wire, and the message
whose producer is gone. -/
structure Advanced where
  sender : Sender
  sent : List Fragment := []
  aborted : Option MsgId := none

/-- A message has nothing to send until its producer moves. -/
def streamWaiting (s : Sender) (send : ActiveSend) : Bool :=
  send.offset == send.payload.length &&
    match send.trailer with
    | none => false
    | some i => ((s.producers[i]?).bind fun p => p.shared.pollAction).isNone

/-- Turns a queue until its front can move, and takes that. -/
def pick (waits : ActiveSend → Bool) (queue : List ActiveSend) :
    Option (ActiveSend × List ActiveSend) :=
  match queue.span waits with
  | (_, []) => none
  | (front, send :: back) => some (send, back ++ front)

/-- The slot of a message that is done. -/
def release (s : Sender) (send : ActiveSend) : Sender :=
  if send.multiFragment then s.freeFragmentedSlot else s

/-- The end of the payload bytes that the next fragment of a message takes. -/
def payloadEnd (s : Sender) (send : ActiveSend) : ℕ :=
  min (send.offset + s.maxFragmentSize) send.payload.length

/-- The number of descriptors that the next fragment of a message takes. -/
def attached (s : Sender) (send : ActiveSend) : ℕ :=
  min (send.handleOffset + s.maxHandlesPerFragment) send.handles - send.handleOffset

/-- The payload and the descriptors of a message end with its next fragment. -/
def payloadDone (s : Sender) (send : ActiveSend) : Bool :=
  s.payloadEnd send == send.payload.length && send.handleOffset + s.attached send == send.handles

/-- The next payload fragment of a message. `head` of its descriptors, if it has as many, arrive with
its header. -/
def payloadFragment (s : Sender) (send : ActiveSend) (head : ℕ) : Fragment where
  header := {
    flags := {
      first := !send.started
      last := s.payloadDone send && send.trailer.isNone
      trailer := s.payloadDone send && send.trailer.isSome }
    kind := send.kind
    id := send.id
    payloadLen := s.payloadEnd send - send.offset }
  payload := (send.payload.drop send.offset).take (s.payloadEnd send - send.offset)
  headFds := min head (s.attached send)
  bodyFds := s.attached send - min head (s.attached send)
  length_eq := by
    simp only [List.length_take, List.length_drop, payloadEnd]
    omega

/-- A message after its next payload fragment. -/
def afterPayload (s : Sender) (send : ActiveSend) : ActiveSend :=
  { send with
    offset := s.payloadEnd send
    handleOffset := send.handleOffset + s.attached send
    started := true
    ledger := send.ledger && !s.payloadDone send }

/-- Sends a payload fragment. -/
def sendPayload (s : Sender) (send : ActiveSend) (head : ℕ) : Advanced where
  sender :=
    if s.payloadDone send && send.trailer.isNone then s.release send
    else { s with active := s.active ++ [s.afterPayload send] }
  sent := [s.payloadFragment send head]

/-- Closes a message whose trailer has ended. -/
def commit (s : Sender) (send : ActiveSend) : Advanced where
  sender := s.release send
  sent := [ControlSend.bare { last := true } send.kind send.id]

/-- Gives a message up whose producer is gone. -/
def abortSend (s : Sender) (send : ActiveSend) : Advanced where
  sender := release { s with control := s.control ++ [.abort send.kind send.id] } send
  aborted := some send.id

/-- Grants a lease to the producer of a trailer. -/
def grantLease (s : Sender) (send : ActiveSend) (i : ℕ) : Advanced where
  sender := { s.modifyShared i fun p => p.grant s.maxFragmentSize with lease := some { send } }

/-- Advances a message that can move, and that is out of the queue. -/
def drive (s : Sender) (send : ActiveSend) (head : ℕ) : Advanced :=
  if decide (send.offset < send.payload.length) || decide (send.handleOffset < send.handles) ||
      !send.started then
    s.sendPayload send head
  else
    match send.trailer with
    | none => s.commit send
    | some i =>
      match (s.producers[i]?).bind fun p => p.shared.pollAction with
      | some .finish => s.commit send
      | some .abort => s.abortSend send
      | some .fragment => s.grantLease send i
      | none => { sender := { s with active := s.active ++ [send] } }

/-- Sends one fragment, or grants a lease. `none` when nothing can move, or a lease is out. -/
def advance (s : Sender) (head : ℕ) : Option Advanced :=
  match s.lease, s.control with
  | some _, _ => none
  | none, item :: control => some { sender := { s with control }, sent := [item.fragment] }
  | none, [] => (pick s.streamWaiting s.active).map fun (send, active) =>
      drive { s with active } send head

/-- A fragment of trailer data. -/
def trailerFragment (shared : SendShared) (bytes : List UInt8) : Fragment where
  header := ⟨{}, shared.kind, shared.id, bytes.length⟩
  payload := bytes
  length_eq := length_payload bytes

/-- One turn of `wait_fragment` under a lease. -/
def turn (s : Sender) : Option Advanced :=
  match s.lease with
  | none => none
  | some lease =>
    match lease.ready, lease.send.trailer.bind fun i => (s.producers[i]?).map (i, ·) with
    | none, some (i, p) =>
      let (shared, sent, outcome) := p.shared.waitFragment lease.yielded
      some {
        sender := { s with
          producers := s.producers.set i { p with shared }
          lease := some { lease with
            yielded := lease.yielded || outcome == .yield
            ready := match outcome with
              | .ready action => some action
              | _ => none } }
        sent := sent.map (trailerFragment shared) }
    | _, _ => none

/-- The lease comes back, and the message goes on as the producer has decided. -/
def completeLease (s : Sender) : Option Advanced :=
  match s.lease with
  | none => none
  | some lease =>
    match lease.ready, lease.send.trailer with
    | some action, some i =>
      let s := { s.modifyShared i SendShared.complete with lease := none }
      some (match action with
        | .fragment => { sender := { s with active := s.active ++ [lease.send] } }
        | .finish => s.commit lease.send
        | .abort => s.abortSend lease.send)
    | _, _ => none

/-! ### What the operations do -/

variable {s s' : Sender} {send : ActiveSend} {a : Advanced}

/-- The messages that are being sent, the one whose producer has a lease included. -/
def sends (s : Sender) : List ActiveSend :=
  s.active ++ (s.lease.map Lease.send).toList

/-- What holds of a sender and is kept when the first waiting message starts holds after a queue was
promoted. -/
theorem promote_invariant {I : Sender → Prop}
    (hstart : ∀ (s : Sender) send waiting budget, I { s with waiting := send :: waiting } →
      s.tryCharge send = some budget → I { s.start send budget with waiting }) :
    ∀ (queue : List ActiveSend) (s : Sender), I { s with waiting := queue } → I (s.promote queue) := by
  intro queue
  induction queue with
  | nil => exact fun s h => h
  | cons send queue ih =>
    intro s h
    unfold promote
    split
    · exact h
    · rename_i budget hc
      exact ih _ (hstart s send queue budget h hc)

theorem promoteWaiting_invariant {I : Sender → Prop}
    (hstart : ∀ (s : Sender) send waiting budget, I { s with waiting := send :: waiting } →
      s.tryCharge send = some budget → I { s.start send budget with waiting }) (h : I s) :
    I s.promoteWaiting :=
  promote_invariant hstart s.waiting s h

/-- A message that is admitted joins the queue; with nothing before it, it starts if it fits. -/
theorem admitMessage_eq (s : Sender) (kind : Kind) (id : MsgId) (payload : List UInt8)
    (handles : ℕ) (trailer : Option ℕ) :
    s.admitMessage kind id payload handles trailer =
      if s.waiting = [] then s.promote [s.newSend kind id payload handles trailer]
      else { s with waiting := s.waiting ++ [s.newSend kind id payload handles trailer] } := by
  unfold admitMessage
  split_ifs with hw
  · simp only [promote, hw, List.nil_append]
    cases s.tryCharge (s.newSend kind id payload handles trailer) with
    | none => rfl
    | some budget =>
      show _ = { s.start _ budget with waiting := [] }
      rw [← hw]
      rfl
  · rfl

/-- Admitting a message is adding it to the queue and starting the first of the queue. -/
theorem admitMessage_invariant {I : Sender → Prop} (kind : Kind) (id : MsgId) (payload : List UInt8)
    (handles : ℕ) (trailer : Option ℕ)
    (hstart : ∀ (s : Sender) send waiting budget, I { s with waiting := send :: waiting } →
      s.tryCharge send = some budget → I { s.start send budget with waiting })
    (h : I { s with waiting := s.waiting ++ [s.newSend kind id payload handles trailer] }) :
    I (s.admitMessage kind id payload handles trailer) := by
  rw [admitMessage_eq]
  split_ifs with hw
  · rw [hw] at h
    exact promote_invariant hstart _ s h
  · exact h

/-- A message gives its slot back, and then waiting messages start. -/
theorem release_invariant {I : Sender → Prop}
    (hstart : ∀ (s : Sender) send waiting budget, I { s with waiting := send :: waiting } →
      s.tryCharge send = some budget → I { s.start send budget with waiting })
    (h : I { s with activeFragmented := s.activeFragmented - if send.multiFragment then 1 else 0 }) :
    I (s.release send) := by
  unfold release
  split_ifs with hm
  · rw [if_pos hm] at h
    exact promoteWaiting_invariant hstart h
  · rw [if_neg hm] at h
    exact h

theorem tryCharge_eq_some {budget : PayloadBudget} (h : s.tryCharge send = some budget) :
    (send.multiFragment = true → s.activeFragmented < s.maxActiveFragmented) ∧
      budget.available + send.payload.length = s.payloadBudget.available := by
  unfold tryCharge at h
  split_ifs at h with hm
  refine ⟨fun hf => ?_, PayloadBudget.tryDebit_eq_some h⟩
  simpa [hf] using hm

/-- The message that is taken out of a queue, and the rest of the queue. -/
theorem takeSend_eq_some {id : MsgId} {queue rest : List ActiveSend}
    (h : takeSend id queue = some (send, rest)) :
    send.id = id ∧ ∃ front back, queue = front ++ send :: back ∧ rest = front ++ back := by
  unfold takeSend at h
  obtain ⟨x, hf, hx⟩ := Option.map_eq_some_iff.1 h
  obtain ⟨rfl, rfl⟩ := Prod.mk.inj hx
  obtain ⟨hid, front, back, rfl, hfront⟩ := List.find?_eq_some_iff_append.1 hf
  refine ⟨of_decide_eq_true hid, front, back, rfl, ?_⟩
  rw [List.eraseP_append_right _ (fun b hb => by simpa using hfront b hb), List.eraseP_cons, hid]
  rfl

/-- The front of a turned queue, and the rest of the queue. -/
theorem pick_eq_some {waits : ActiveSend → Bool} {queue rest : List ActiveSend}
    (h : pick waits queue = some (send, rest)) :
    waits send = false ∧ ∃ front back, queue = front ++ send :: back ∧ rest = back ++ front := by
  unfold pick at h
  rw [List.span_eq_takeWhile_dropWhile] at h
  split at h
  · simp at h
  · rename_i front x back heq
    obtain ⟨hf, hb⟩ := Prod.mk.inj heq
    obtain ⟨rfl, rfl⟩ := Prod.mk.inj (Option.some.inj h)
    have happ := List.takeWhile_append_dropWhile (p := waits) (l := queue)
    rw [hf, hb] at happ
    refine ⟨?_, front, back, happ.symm, rfl⟩
    have hd := List.head?_dropWhile_not waits queue
    rw [hb] at hd
    simpa using hd

end Sender

end Dolang.Rpc
