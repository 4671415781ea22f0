import Dolang.Lib.System
import Dolang.Rpc.Reassemble
import Dolang.Rpc.Scheduler

/-!
# One direction of a session

Two honest endpoints, seen in one direction: the sending half of one, the receiving half of the
other, the fragments in flight between them, and the way on which credit comes back. The receiver's
credit passes its outgoing channel (`out`), the control queue of its scheduler (`queue`) and the
wire (`back`); a `Discard` then waits in the sender's channel (`notices`).

The drivers decide which scheduler operations happen, and the application what is written, read,
released and dropped; here any order of them is possible. All messages of a direction are requests,
or all are responses. Ids are not used again, so an id stands for one message. `History` records the
messages that were admitted, those that came out on the other side, and those that were cancelled
before their payload had ended; also all that was put on the wire, and for each trailer what its
producer has written and what has arrived.
-/

namespace Dolang.Rpc

/-- The control items that the drivers admit: messages without payload, and counts that are not
zero. Aborts come from cancellations only. -/
def ControlSend.Admissible : ControlSend → Prop
  | .empty kind _ => kind = .cancel ∨ kind = .error ∨ kind = .discard
  | .abort _ _ => False
  | .release _ count | .credit _ count | .payloadCredit count => 0 < count ∧ count ≤ u32Max

/-- The consumer of a trailer. `owing` bytes were read and are not retired yet. -/
structure Consumer where
  dropped : Bool := false
  owing : ℕ := 0
  deriving DecidableEq, Repr

/-- A trailer fragment that is being read: the trailer, and the bytes that are still on the wire. -/
structure Reading where
  trailer : ℕ
  bytes : List UInt8
  granted : Bool := false
  deriving DecidableEq, Repr

/-- What became of the messages of a direction. -/
structure History where
  admitted : List ActiveSend := []
  delivered : List Message := []
  cancelled : List MsgId := []
  sent : List Fragment := []
  written : MsgId → List UInt8 := fun _ => []
  arrived : MsgId → List UInt8 := fun _ => []

/-- One direction of a session. -/
structure Link where
  kind : Kind
  limits : Limits
  sender : Sender
  wire : List Fragment
  reassembler : Reassembler
  /-- The payload charges that the receiving side holds, by the id they name. -/
  held : List MsgId
  reading : Option Reading
  consumers : ℕ → Consumer
  out : List Sink
  queue : List ControlSend
  back : List ControlSend
  notices : List MsgId
  history : History

namespace Link

/-- A link whose ends have limits `a` and `b`, after the handshake. -/
def new (kind : Kind) (a b : Limits) : Link where
  kind
  limits := negotiate a b
  sender := .new (negotiate a b)
  wire := []
  reassembler := .new (negotiate b a)
  held := []
  reading := none
  consumers := fun _ => {}
  out := []
  queue := []
  back := []
  notices := []
  history := {}

/-! ### The sending side -/

/-- The ids of the messages that were admitted. -/
def used (l : Link) : List MsgId :=
  l.history.admitted.map ActiveSend.id

/-- A new trailer, for a message that is not admitted yet. -/
def openTrailer (l : Link) (id : MsgId) : Link :=
  { l with sender := { l.sender with
      producers := l.sender.producers ++ [{ shared := .new l.kind id l.limits }] } }

/-- The drivers may admit a message: it has a new id, its descriptors were encoded within the limit,
and its trailer, if any, is the one that was opened for it. A session without concurrent calls
admits none. -/
structure Admissible (l : Link) (id : MsgId) (handles : ℕ) (trailer : Option ℕ) : Prop where
  id_new : id ∉ l.used
  handles_le : handles ≤ l.limits.maxHandles
  calls : 0 < l.limits.maxConcurrentCalls
  plain : trailer = none → ∀ p ∈ l.sender.producers, p.shared.id ≠ id
  streamed : ∀ i, trailer = some i → ∃ p, l.sender.producers[i]? = some p ∧ p.shared.id = id

/-- A message is admitted. -/
def admitMessage (l : Link) (id : MsgId) (payload : List UInt8) (handles : ℕ) (trailer : Option ℕ) :
    Link :=
  { l with
    sender := l.sender.admitMessage l.kind id payload handles trailer
    history := { l.history with
      admitted := l.sender.newSend l.kind id payload handles trailer :: l.history.admitted } }

/-- A control item of this endpoint. -/
def control (l : Link) : ControlSend → Link
  | .empty kind id => { l with sender := l.sender.admitEmpty kind id }
  | .abort kind id => { l with sender := l.sender.admitAbort kind id }
  | .release id count => { l with sender := l.sender.admitRelease id count }
  | .credit id count => { l with sender := l.sender.admitCredit id count }
  | .payloadCredit count => { l with sender := l.sender.admitPayloadCredit count }

/-- A cancellation of message `id`: with a fragment of it on the wire, the peer is told. -/
def cancel (l : Link) (id : MsgId) : Link :=
  match l.sender.tryCancelActive id with
  | (_, .notActive) => l
  | (sender, .discarded started dispatched) =>
    { l with
      sender := if started then sender.admitAbort l.kind id else sender
      history := { l.history with
        cancelled := if dispatched then l.history.cancelled else id :: l.history.cancelled } }

/-- A `Discard` of the peer is applied: it will return no credit for the trailer any more. -/
def notice (l : Link) (id : MsgId) (notices : List MsgId) : Link :=
  let sender := { l.sender with window := (l.sender.window.settle id).1 }
  { l with sender := sender.discardActiveTrailer id, notices }

/-- The sender has moved. -/
def sent (l : Link) (a : Sender.Advanced) : Link :=
  { l with
    sender := a.sender
    wire := l.wire ++ a.sent
    history := { l.history with sent := l.history.sent ++ a.sent } }

/-- The bytes that a write takes. -/
def taken (buf : List UInt8) (w : SendShared.Write) : List UInt8 :=
  match w.result with
  | some (some n) => buf.take n
  | _ => []

/-- A write of the producer of trailer `i`. -/
def write (l : Link) (i : ℕ) (p : Producer) (buf : List UInt8) (w : SendShared.Write) : Link :=
  { l with
    sender := { l.sender with
      producers := l.sender.producers.set i { p with shared := w.shared }
      window := w.window }
    wire := l.wire ++ w.sent.map (Sender.trailerFragment w.shared)
    history := { l.history with
      sent := l.history.sent ++ w.sent.map (Sender.trailerFragment w.shared)
      written := Function.update l.history.written p.shared.id
        (l.history.written p.shared.id ++ taken buf w) } }

/-- The producer of trailer `i` has written all it has. Its handle is gone when it was `finish`, and
stays when it was `poll_close`. -/
def finish (l : Link) (i : ℕ) (p : Producer) (handle : Bool) : Link :=
  { l with sender := { l.sender with
      producers := l.sender.producers.set i { shared := p.shared.finish, handle } } }

/-- The producer of trailer `i` drops its handle. -/
def abandon (l : Link) (i : ℕ) (p : Producer) : Link :=
  let (shared, window) := p.shared.abandon l.sender.window
  { l with sender := { l.sender with
      producers := l.sender.producers.set i { shared, handle := false }
      window } }

/-! ### The receiving side -/

/-- The charge that an event hands out. -/
def chargeOf : Event → List MsgId
  | .message m | .ack _ (some m) => [m.id]
  | _ => []

/-- The message that an event hands out. -/
def messageOf : Event → List Message
  | .message m | .ack _ (some m) => [m]
  | _ => []

/-- The trailer fragment that an event announces. -/
def readingOf (f : Fragment) : Event → Option Reading
  | .trailer shared _ => some { trailer := shared, bytes := f.payload }
  | _ => none

/-- What has arrived for each trailer, after a fragment. -/
def arrivedOf (arrived : MsgId → List UInt8) (f : Fragment) (a : Reassembler.Accepted) :
    MsgId → List UInt8 :=
  match (readingOf f a.event).bind fun r => a.reassembler.trailers[r.trailer]? with
  | some s => Function.update arrived s.id (arrived s.id ++ f.payload)
  | none => arrived

/-- The front fragment of the wire was accepted. -/
def accepted (l : Link) (f : Fragment) (wire : List Fragment) (a : Reassembler.Accepted) : Link :=
  { l with
    wire
    reassembler := a.reassembler
    held := chargeOf a.event ++ l.held
    reading := readingOf f a.event
    out := l.out ++ a.out
    history := { l.history with
      delivered := messageOf a.event ++ l.history.delivered
      arrived := arrivedOf l.history.arrived f a } }

/-- Changes the receiving end of trailer `i`. -/
def setTrailer (l : Link) (i : ℕ) (r : RecvShared × SessionWindow × List Sink) : Link :=
  { l with
    reassembler := { l.reassembler with
      trailers := l.reassembler.trailers.set i r.1
      sessionCredit := r.2.1 }
    out := l.out ++ r.2.2 }

/-- Changes the receiving end of trailer `i`, with no effect on credit. -/
def setShared (l : Link) (i : ℕ) (s : RecvShared) : Link :=
  l.setTrailer i (s, l.reassembler.sessionCredit, [])

/-- Changes what is known of the consumer of trailer `i`. -/
def setConsumer (l : Link) (i : ℕ) (c : Consumer) : Link :=
  { l with consumers := Function.update l.consumers i c }

/-- A read goes to the transport itself. -/
def direct (s : RecvShared) : Bool :=
  s.stage.isEmpty && (s.state = .reading || s.state = .unclaimed)

/-- The bytes that the transport yields to a read of at most `n` bytes, when `k` are there. -/
def yielded (l : Link) (i : ℕ) (s : RecvShared) (n k : ℕ) : List UInt8 :=
  match l.reading with
  | some r => if r.trailer = i ∧ direct s then (r.bytes.take n).take k else []
  | none => []

/-- A read of the consumer of trailer `i`. -/
def read (l : Link) (i : ℕ) (s : RecvShared) (n k : ℕ) : Link :=
  let bytes := l.yielded i s n k
  let r := s.pollRead l.reassembler.sessionCredit n bytes
  { (l.setTrailer i (r.shared, r.window, r.out)).setConsumer i { owing := r.bytes.length } with
    reading := l.reading.map fun q => { q with bytes := q.bytes.drop bytes.length } }

/-- The consumer of trailer `i` has read bytes, and retires them unless it does so itself. -/
def retire (l : Link) (i : ℕ) (s : RecvShared) : Link :=
  (l.setTrailer i (s.retireAndEmit l.reassembler.sessionCredit (l.consumers i).owing)).setConsumer i {}

/-- The consumer of trailer `i` drops its handle. -/
def dropConsumer (l : Link) (i : ℕ) (s : RecvShared) : Link :=
  (l.setTrailer i (s.discard l.reassembler.sessionCredit)).setConsumer i { dropped := true }

/-- The driver takes `k` bytes of the fragment off the wire. -/
def drain (l : Link) (r : Reading) (s : RecvShared) (k : ℕ) : Link :=
  { l.setShared r.trailer (s.drain (r.bytes.take k)) with
    reading := some { r with bytes := r.bytes.drop k } }

/-- A payload charge for message `id` is released. It may go or stay. -/
def dropCharge (l : Link) (id : MsgId) (held : List MsgId) : Link :=
  let (payloadCredit, out) := releaseCharge l.reassembler.payloadCredit id
  { l with
    reassembler := { l.reassembler with payloadCredit }
    held
    out := l.out ++ out }

/-! ### The way back -/

/-- Admits what the receiver wants to tell to the control queue of its scheduler. -/
def admitSink (queue : List ControlSend) : Sink → List ControlSend
  | .credit id count => queue ++ [.credit id count]
  | .discard id => queue ++ [.empty .discard id]
  | .payloadCredit count =>
    (Sender.mergePayloadCredit count queue).getD (queue ++ [.payloadCredit count])

/-- What arrives at the sender. -/
def deliver (l : Link) : ControlSend → Link
  | .credit id count => { l with sender := { l.sender with window := l.sender.window.refund id count } }
  | .payloadCredit count =>
    { l with sender := { l.sender with payloadBudget := l.sender.payloadBudget.credit count } }
  | .empty _ id => { l with notices := l.notices ++ [id] }
  | .abort _ _ | .release _ _ => l

/-- What happens on a link. -/
inductive Action where
  | openTrailer (id : MsgId)
  | admitMessage (id : MsgId) (payload : List UInt8) (handles : ℕ) (trailer : Option ℕ)
  | control (item : ControlSend)
  | cancel (id : MsgId)
  | promote
  | notice
  | advance (head : ℕ)
  | turn
  | completeLease
  | write (i : ℕ) (buf : List UInt8) (ready : Bool)
  | finish (i : ℕ) (handle : Bool)
  | abandon (i : ℕ)
  | accept
  | grant
  | takeOver
  | drain (k : ℕ)
  | completeRead
  | read (i n k : ℕ)
  | retire (i : ℕ)
  | setManual (i : ℕ)
  | release (i n : ℕ)
  | dropConsumer (i : ℕ)
  | dropCharge (i : ℕ)
  | releaseCharge (i : ℕ)
  | sink
  | transmit
  | deliver

/-- What an action does. The send driver does nothing else while a lease is out, and the receive
driver nothing else while it reads a trailer fragment; a consumer retires what it has read before it
does anything else. -/
def next (l : Link) : Action → Link → Prop
  | .openTrailer id, l' => id ∉ l.used ∧ (∀ p ∈ l.sender.producers, p.shared.id ≠ id) ∧
    l' = l.openTrailer id
  | .admitMessage id payload handles trailer, l' => l.sender.lease = none ∧
    l.Admissible id handles trailer ∧ l' = l.admitMessage id payload handles trailer
  | .control item, l' => l.sender.lease = none ∧ item.Admissible ∧ l' = l.control item
  | .cancel id, l' => l.sender.lease = none ∧ l' = l.cancel id
  | .promote, l' => l.sender.lease = none ∧ l' = { l with sender := l.sender.promoteWaiting }
  | .notice, l' => l.sender.lease = none ∧
    ∃ id notices, l.notices = id :: notices ∧ l' = l.notice id notices
  | .advance head, l' => ∃ a, l.sender.advance head = some a ∧ l' = l.sent a
  | .turn, l' => ∃ a, l.sender.turn = some a ∧ l' = l.sent a
  | .completeLease, l' => ∃ a, l.sender.completeLease = some a ∧ l' = l.sent a
  | .write i buf ready, l' => ∃ p, l.sender.producers[i]? = some p ∧ p.handle = true ∧
    l' = l.write i p buf (p.shared.pollWrite l.sender.window buf ready)
  | .finish i handle, l' => ∃ p, l.sender.producers[i]? = some p ∧ p.handle = true ∧
    l' = l.finish i p handle
  | .abandon i, l' => ∃ p, l.sender.producers[i]? = some p ∧ p.handle = true ∧ l' = l.abandon i p
  | .accept, l' => l.reading = none ∧ ∃ f wire a, l.wire = f :: wire ∧
    l.reassembler.accept f = .ok a ∧ l' = l.accepted f wire a
  | .grant, l' => ∃ r s, l.reading = some r ∧ r.granted = false ∧
    l.reassembler.trailers[r.trailer]? = some s ∧
    l' = { l.setShared r.trailer (s.grant r.bytes.length) with
      reading := some { r with granted := true } }
  | .takeOver, l' => ∃ r s, l.reading = some r ∧ r.granted = true ∧
    l.reassembler.trailers[r.trailer]? = some s ∧ l' = l.setShared r.trailer s.takeOver
  | .drain k, l' => ∃ r s, l.reading = some r ∧ r.granted = true ∧
    l.reassembler.trailers[r.trailer]? = some s ∧ (s.state = .draining ∨ s.state = .discard) ∧
    l' = l.drain r s k
  | .completeRead, l' => ∃ r s, l.reading = some r ∧ r.granted = true ∧
    l.reassembler.trailers[r.trailer]? = some s ∧ s.fragmentDone = true ∧
    l' = { l.setShared r.trailer s.complete with reading := none }
  | .read i n k, l' => 0 < n ∧ l.consumers i = {} ∧
    ∃ s, l.reassembler.trailers[i]? = some s ∧ l' = l.read i s n k
  | .retire i, l' => (l.consumers i).dropped = false ∧
    ∃ s, l.reassembler.trailers[i]? = some s ∧ l' = l.retire i s
  | .setManual i, l' => l.consumers i = {} ∧ ∃ s, l.reassembler.trailers[i]? = some s ∧
    s.retired = 0 ∧ l' = l.setShared i { s with autoRelease := false }
  | .release i n, l' => l.consumers i = {} ∧ ∃ s, l.reassembler.trailers[i]? = some s ∧
    s.autoRelease = false ∧ s.retired + n ≤ s.received ∧
    l' = l.setTrailer i (s.release l.reassembler.sessionCredit n)
  | .dropConsumer i, l' => l.consumers i = {} ∧
    ∃ s, l.reassembler.trailers[i]? = some s ∧ l' = l.dropConsumer i s
  | .dropCharge i, l' => ∃ id, l.held[i]? = some id ∧ l' = l.dropCharge id (l.held.eraseIdx i)
  | .releaseCharge i, l' => ∃ id, l.held[i]? = some id ∧ l' = l.dropCharge id l.held
  | .sink, l' => ∃ s out, l.out = s :: out ∧ l' = { l with out, queue := admitSink l.queue s }
  | .transmit, l' => ∃ c queue, l.queue = c :: queue ∧ l' = { l with queue, back := l.back ++ [c] }
  | .deliver, l' => ∃ c back, l.back = c :: back ∧ l' = deliver { l with back } c

/-- One direction of a session between ends with limits `a` and `b`. -/
def system (kind : Kind) (a b : Limits) : System Link Action where
  start l := l = new kind a b
  next := next

end Link

end Dolang.Rpc
