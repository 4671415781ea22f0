import Dolang.Lib.System
import Dolang.Rpc.Reassemble

/-!
# The receive drivers

What the two endpoints do about the fragments that they receive: `RecvDriver::run` of `server.rs` and
`RecvDriver::run` and `dispatch` of `client.rs`. The peer is arbitrary: any fragment can arrive at any
time. So is the application: a handler may answer or be dropped at any time, and whoever holds the
payload charge of a call may release it at any time.

`held` lists the charges that were handed out with a request or a response and that their owner has
not released or dropped, with the number of payload bytes they stand for. The charge of any other
message is dropped by the driver itself when it is done with the message.
-/

namespace Dolang.Rpc

/-- A payload charge that was handed out with a call. -/
structure Charge where
  id : MsgId
  len : ℕ
  deriving DecidableEq, Repr

/-- What a receive driver, or something on its side, queues for the send driver. -/
inductive Outgoing where
  | response (id : MsgId)
  | error (id : MsgId)
  | cancel (id : MsgId)
  | peerDiscarded (id : MsgId)
  | ack (id : MsgId)
  | terminal
  | sink (sink : Sink)
  deriving DecidableEq, Repr

/-- What consumers and the driver do to the receiving end of a trailer. -/
inductive TrailerOp where
  | grant (len : ℕ)
  | takeOver
  | drain (bytes : List UInt8)
  | complete
  | read (n : ℕ) (bytes : List UInt8)
  | retireAndEmit (n : ℕ)
  | release (n : ℕ)
  | discard
  deriving DecidableEq, Repr

/-- The effect of an operation on the receiving end of a trailer. -/
def TrailerOp.apply (s : RecvShared) (w : SessionWindow) :
    TrailerOp → RecvShared × SessionWindow × List Sink
  | .grant len => (s.grant len, w, [])
  | .takeOver => (s.takeOver, w, [])
  | .drain bytes => (s.drain bytes, w, [])
  | .complete => (s.complete, w, [])
  | .read n bytes => let r := s.pollRead w n bytes; (r.shared, r.window, r.out)
  | .retireAndEmit n => s.retireAndEmit w n
  | .release n => s.release w n
  | .discard => s.discard w

/-- What the two endpoints have in common. -/
structure Receiver where
  reassembler : Reassembler
  held : List Charge
  out : List Outgoing

namespace Receiver

/-- A receiver that has seen nothing. -/
def new (limits : Limits) : Receiver where
  reassembler := .new limits
  held := []
  out := []

/-- Queues an item for the send driver. -/
def send (c : Receiver) (o : Outgoing) : Receiver :=
  { c with out := c.out ++ [o] }

/-- Drops a charge for message `id`. -/
def dropCharge (c : Receiver) (id : MsgId) : Receiver :=
  let (payloadCredit, out) := releaseCharge c.reassembler.payloadCredit id
  { c with
    reassembler := { c.reassembler with payloadCredit }
    out := c.out ++ out.map .sink }

/-- Hands the charge of a message out with it. -/
def hold (c : Receiver) (m : Message) : Receiver :=
  { c with held := ⟨m.id, m.payload.length⟩ :: c.held }

/-- The owner of the charge at `i` releases or drops it. -/
def release (c : Receiver) (i : ℕ) : Receiver :=
  match c.held[i]? with
  | none => c
  | some charge => ({ c with held := c.held.eraseIdx i } : Receiver).dropCharge charge.id

/-- An operation on the trailer at `i`. -/
def trailerOp (c : Receiver) (i : ℕ) (op : TrailerOp) : Receiver :=
  match c.reassembler.trailers[i]? with
  | none => c
  | some s =>
    let (s, sessionCredit, out) := op.apply s c.reassembler.sessionCredit
    { c with
      reassembler := { c.reassembler with
        trailers := c.reassembler.trailers.set i s
        sessionCredit }
      out := c.out ++ out.map .sink }

/-- Drops the trailer of a message. -/
def dropTrailer (c : Receiver) (m : Message) : Receiver :=
  match m.trailer with
  | none => c
  | some i => c.trailerOp i .discard

/-- The state after a fragment was accepted. -/
def accepted (c : Receiver) (a : Reassembler.Accepted) : Receiver :=
  { c with reassembler := a.reassembler, out := c.out ++ a.out.map .sink }

end Receiver

/-- How a running handler is told of a cancellation. -/
structure Cancellation where
  /-- A cancellation guard is active. -/
  signal : Bool := false
  /-- The handler's task is aborted. -/
  abort : Bool := false
  deriving DecidableEq, Repr

/-- The receiving half of a server. -/
structure Server extends Receiver where
  outstanding : Table MsgId Cancellation
  /-- A handler has asked to shut down: no new request is taken on. -/
  draining : Bool

namespace Server

open Reassembler (check fail Accepted)

/-- A server that has seen nothing. -/
def new (limits : Limits) : Server where
  toReceiver := .new limits
  outstanding := ∅
  draining := false

/-- Refuses a fragment that a client has no business sending. -/
def checkHeader (h : FragmentHeader) : Except Error Unit :=
  check (h.kind != .response) "server received a Response fragment"

/-- Applies `max_concurrent_calls` to a call that is arriving or starting to arrive. -/
def checkCallAdmission (s : Server) (id : MsgId) (incomplete : ℕ) : Except Error Unit := do
  check (!decide (id ∈ s.outstanding)) s!"duplicate active request id {id}"
  check (decide (s.outstanding.size + incomplete ≤ s.reassembler.limits.maxConcurrentCalls))
    "too many concurrent calls"

theorem checkCallAdmission_bind_eq_ok {s : Server} {id : MsgId} {n : ℕ} {α : Type}
    {k : Unit → Except Error α} {a : α} :
    (s.checkCallAdmission id n >>= k) = .ok a ↔
      (id ∉ s.outstanding ∧ s.outstanding.size + n ≤ s.reassembler.limits.maxConcurrentCalls) ∧
        k () = .ok a := by
  simp only [checkCallAdmission, bind_assoc, Reassembler.check_bind_eq_ok, decide_eq_true_eq,
    Bool.not_eq_true', decide_eq_false_iff_not, and_assoc]

/-- A cancellation of call `id`: the guard of its handler is told, or its task is aborted, or there
is no such handler and the send driver has to look for the response. -/
def cancel (s : Server) (id : MsgId) : Server :=
  match s.outstanding.lookup id with
  | none => { s with toReceiver := s.send (.cancel id) }
  | some c =>
    if c.signal then { s with outstanding := s.outstanding.insert id { c with signal := false } }
    else { s with outstanding := s.outstanding.insert id { c with abort := true } }

/-- Refuses a request while draining. -/
def refuse (s : Server) (m : Message) : Server :=
  { s with toReceiver := ((s.send (.error m.id)).dropTrailer m).dropCharge m.id }

/-- Starts the handler of a request. -/
def start (s : Server) (m : Message) : Server :=
  { s with toReceiver := s.hold m, outstanding := s.outstanding.insert m.id {} }

/-- Applies a message. `decodes` is whether its payload decodes. -/
def dispatch (s : Server) (m : Message) (decodes : Bool) : Except Error Server :=
  match m.kind with
  | .request =>
    if s.draining then .ok (s.refuse m)
    else do
      s.checkCallAdmission m.id (s.reassembler.payloadIncomplete + 1)
      if decodes then .ok (s.start m) else .error .deserialize
  | .cancel => .ok { s.cancel m.id with toReceiver := (s.cancel m.id).dropCharge m.id }
  | .discard => .ok { s with toReceiver := (s.send (.peerDiscarded m.id)).dropCharge m.id }
  | .ack => fail s!"Ack for response {m.id} with no active escrow"
  | kind => fail s!"unexpected {kind.name} frame"

/-- Applies an event of the reassembler. -/
def handle (s : Server) (event : Event) (decodes : Bool) : Except Error Server :=
  match event with
  | .none | .trailer .. | .release .. | .credit .. | .payloadCredit .. => .ok s
  | .payloadIncomplete id => do
    s.checkCallAdmission id s.reassembler.payloadIncomplete
    return s
  | .aborted kind _ _ =>
    if kind = .request then .ok s else fail s!"unexpected aborted {kind.name} message"
  | .message m => s.dispatch m decodes
  | .ack id none => .ok { s with toReceiver := s.send (.ack id) }
  | .ack id (some m) => dispatch { s with toReceiver := s.send (.ack id) } m decodes

/-- Takes one fragment. -/
def recv (s : Server) (f : Fragment) (decodes : Bool) : Except Error Server := do
  checkHeader f.header
  let a ← s.reassembler.accept f
  handle { s with toReceiver := s.accepted a } a.event decodes

theorem recv_eq_ok {s t : Server} {f : Fragment} {decodes : Bool} :
    s.recv f decodes = .ok t ↔ f.header.kind ≠ .response ∧ ∃ a, s.reassembler.accept f = .ok a ∧
      handle { s with toReceiver := s.accepted a } a.event decodes = .ok t := by
  unfold recv checkHeader
  rw [Reassembler.check_bind_eq_ok, Reassembler.bind_eq_ok, bne_iff_ne]

/-- What happens at a server. -/
inductive Action where
  | recv (f : Fragment) (decodes : Bool)
  /-- The handler of call `id` answers, `CallContext::respond`. -/
  | respond (id : MsgId)
  /-- The context of call `id` is dropped without an answer. -/
  | abandon (id : MsgId)
  /-- A cancellation guard of the handler of call `id` starts or ends. -/
  | setGuard (id : MsgId) (signal : Bool)
  | release (i : ℕ)
  | shutdown
  | trailerOp (i : ℕ) (op : TrailerOp)

/-- What an action does. -/
def next (s : Server) : Action → Server → Prop
  | .recv f decodes, t => s.recv f decodes = .ok t
  | .respond id, t => id ∈ s.outstanding ∧
    t = { s with toReceiver := s.send (.response id), outstanding := s.outstanding.erase id }
  | .abandon id, t => id ∈ s.outstanding ∧
    t = { s with toReceiver := s.send (.error id), outstanding := s.outstanding.erase id }
  | .setGuard id signal, t => ∃ c, s.outstanding.lookup id = some c ∧
    t = { s with outstanding := s.outstanding.insert id { c with signal } }
  | .release i, t => t = { s with toReceiver := s.toReceiver.release i }
  | .shutdown, t => t = { s with draining := true }
  | .trailerOp i op, t => t = { s with toReceiver := s.toReceiver.trailerOp i op }

/-- A server with an arbitrary peer and arbitrary handlers. -/
def system (limits : Limits) : System Server Action where
  start s := s = new limits
  next := next

end Server

/-- The receiving half of a client. -/
structure Client extends Receiver where
  activeCalls : Table MsgId Unit

namespace Client

open Reassembler (check fail Accepted)

/-- A client that has seen nothing. -/
def new (limits : Limits) : Client where
  toReceiver := .new limits
  activeCalls := ∅

/-- Refuses a fragment that a server has no business sending. -/
def checkHeader (s : Client) (h : FragmentHeader) : Except Error Unit := do
  check (h.kind != .request) "client received a Request fragment"
  check (!(h.kind == .response && h.flags.first && !decide (h.id ∈ s.activeCalls)))
    s!"Response for message {h.id} with no call outstanding"

/-- The terminal message of call `id` has settled it. -/
def finishCall (s : Client) (id : MsgId) : Client :=
  { s with activeCalls := s.activeCalls.erase id, toReceiver := s.send .terminal }

/-- Applies a message. `decodes` is whether its payload decodes. -/
def dispatch (s : Client) (m : Message) (decodes : Bool) : Except Error Client :=
  match m.kind with
  | .response =>
    if decodes then .ok { s.finishCall m.id with toReceiver := (s.finishCall m.id).hold m }
    else .error .deserialize
  | .error => .ok { s.finishCall m.id with toReceiver := (s.finishCall m.id).dropCharge m.id }
  | .ack => fail s!"Ack for request {m.id} with no active escrow"
  | .discard => .ok { s with toReceiver := (s.send (.peerDiscarded m.id)).dropCharge m.id }
  | kind => fail s!"unexpected {kind.name} frame"

/-- Applies an event of the reassembler. -/
def handle (s : Client) (event : Event) (decodes : Bool) : Except Error Client :=
  match event with
  | .none | .payloadIncomplete _ | .trailer .. | .release .. | .credit .. | .payloadCredit .. => .ok s
  | .aborted _ id dispatched => .ok (if dispatched then s else s.finishCall id)
  | .message m => s.dispatch m decodes
  | .ack id none => .ok { s with toReceiver := s.send (.ack id) }
  | .ack id (some m) => dispatch { s with toReceiver := s.send (.ack id) } m decodes

/-- Takes one fragment. -/
def recv (s : Client) (f : Fragment) (decodes : Bool) : Except Error Client := do
  s.checkHeader f.header
  let a ← s.reassembler.accept f
  handle { s with toReceiver := s.accepted a } a.event decodes

theorem recv_eq_ok {s t : Client} {f : Fragment} {decodes : Bool} (h : s.recv f decodes = .ok t) :
    ∃ a, s.reassembler.accept f = .ok a ∧
      handle { s with toReceiver := s.accepted a } a.event decodes = .ok t := by
  unfold recv checkHeader at h
  rw [bind_assoc, Reassembler.check_bind_eq_ok, Reassembler.check_bind_eq_ok,
    Reassembler.bind_eq_ok] at h
  exact h.2.2

/-- What happens at a client. -/
inductive Action where
  | recv (f : Fragment) (decodes : Bool)
  /-- A request is admitted to the scheduler. -/
  | call (id : MsgId)
  /-- A call whose request never reached the server is cancelled. -/
  | cancelled (id : MsgId)
  | release (i : ℕ)
  | trailerOp (i : ℕ) (op : TrailerOp)

/-- What an action does. -/
def next (s : Client) : Action → Client → Prop
  | .recv f decodes, t => s.recv f decodes = .ok t
  | .call id, t => s.activeCalls.size < s.reassembler.limits.maxConcurrentCalls ∧
    t = { s with activeCalls := s.activeCalls.insert id () }
  | .cancelled id, t => t = { s with activeCalls := s.activeCalls.erase id }
  | .release i, t => t = { s with toReceiver := s.toReceiver.release i }
  | .trailerOp i op, t => t = { s with toReceiver := s.toReceiver.trailerOp i op }

/-- A client with an arbitrary peer and arbitrary callers. -/
def system (limits : Limits) : System Client Action where
  start s := s = new limits
  next := next

end Client

end Dolang.Rpc
