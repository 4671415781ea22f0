import Dolang.Rpc.Wire

/-!
# Trailers

The two ends of a trailer of `trailer.rs`, each as the record behind its mutex and one function for
each critical section. `SendShared` stands between the producer of a trailer and the scheduler,
`RecvShared` between the receive driver and the consumer. The pool that a record points to is passed
along, and what a section hands to the outgoing channel is returned.

Wakers are left out: they decide when a section runs next, not what it does. A fragment is taken to
reach the wire as a whole when its first byte does, since nothing else is written before its last
byte. A transport that fails ends the session and is left out too.
-/

namespace Dolang.Rpc

/-- What the scheduler has to do next for a trailer. -/
inductive SendAction where
  | fragment
  | finish
  | abort
  deriving DecidableEq, Repr

/-- The states of a trailer's producer. -/
inductive SendState where
  /-- Nothing is staged and nothing is asked for. -/
  | idle
  /-- The producer holds credit for a fragment and asks for a grant. -/
  | demand
  /-- The grant is there, and the producer may write to the transport itself. -/
  | granted
  /-- The producer did not come back in time: its next write is staged. -/
  | staging
  /-- A fragment is staged. -/
  | fragment
  /-- A fragment is staged and the producer has more. -/
  | fragmentDemand
  | finish
  | fragmentFinish
  | abort
  deriving DecidableEq, Repr

/-- The sending end of a trailer. `buffer` is the payload of the staged fragment. -/
structure SendShared where
  kind : Kind
  id : MsgId
  token : Bool
  maxFragmentSize : ℕ
  copyThreshold : ℕ
  reserved : ℕ
  buffer : List UInt8
  state : SendState
  started : Bool
  deriving DecidableEq, Repr

namespace SendShared

/-- The sending end of the trailer of message `id`. -/
def new (kind : Kind) (id : MsgId) (limits : Limits) : SendShared where
  kind
  id
  token := false
  maxFragmentSize := limits.maxFragmentSize
  copyThreshold := limits.trailerSendCopyThreshold
  reserved := 0
  buffer := []
  state := .idle
  started := false

/-- The message of the trailer is in the active set of the scheduler. -/
def start (s : SendShared) : SendShared :=
  { s with started := true }

/-- What the scheduler has to do, `none` while it has to wait. -/
def pollAction (s : SendShared) : Option SendAction :=
  match s.state with
  | .demand | .fragment | .fragmentDemand | .fragmentFinish => some .fragment
  | .finish => some .finish
  | .abort => some .abort
  | .idle | .granted | .staging => none

/-- Installs a frame token. With nothing staged, it answers a demand. -/
def grant (s : SendShared) (maxFragmentSize : ℕ) : SendShared :=
  { s with
    state := if s.buffer = [] then .granted else s.state
    token := true
    maxFragmentSize }

/-- What one turn of `wait_fragment` yields. -/
inductive Turn where
  | ready (action : SendAction)
  /-- The producer gets one turn to use the grant. -/
  | yield
  | pending
  deriving DecidableEq, Repr

/-- One turn of `wait_fragment`: the fragment that it flushes, if one is staged, and what it yields
then. -/
def waitFragment (s : SendShared) (yielded : Bool) : SendShared × List (List UInt8) × Turn :=
  let sent := if s.buffer = [] then [] else [s.buffer]
  let s := { s with buffer := [] }
  match s.state with
  | .fragment | .fragmentDemand | .fragmentFinish => (s, sent, .ready .fragment)
  | .finish => (s, sent, .ready .finish)
  | .abort => (s, sent, .ready .abort)
  | .granted => if yielded then ({ s with state := .staging }, sent, .pending) else (s, sent, .yield)
  | .idle | .demand | .staging => (s, sent, .pending)

/-- Gives the frame token back, `SendLease::complete`. -/
def complete (s : SendShared) : SendShared :=
  { s with
    token := false
    buffer := []
    state := match s.state with
      | .fragment | .fragmentDemand => .idle
      | .fragmentFinish => .finish
      | state => state }

/-- The producer has written all it has. -/
def finish (s : SendShared) : SendShared :=
  { s with
    state := match s.state with
      | .fragment | .fragmentDemand | .fragmentFinish => .fragmentFinish
      | .abort => .abort
      | _ => .finish }

/-- Cuts a trailer short and settles what it owes. -/
def setAborted (s : SendShared) (w : SessionWindow) : SendShared × SessionWindow :=
  let state := match s.state with
    | .finish => .finish
    | .fragmentFinish => .fragmentFinish
    | _ => .abort
  ({ s with state }, (w.settle s.id).1)

/-- The producer dropped its handle without finishing. -/
def abandon (s : SendShared) (w : SessionWindow) : SendShared × SessionWindow :=
  s.setAborted w

/-- The message is cancelled, or the peer does not want the trailer. -/
def discard (s : SendShared) (w : SessionWindow) : SendShared × SessionWindow :=
  s.setAborted w

/-- Gives back a reservation whose fragment was never committed. -/
def unreserve (s : SendShared) (w : SessionWindow) (len : ℕ) : SessionWindow :=
  if len = 0 then w else w.refund s.id len

/-- What a write yields: the record and the pool after it, the fragment that it put on the wire, and
the number of bytes that it took. -/
structure Write where
  shared : SendShared
  window : SessionWindow
  sent : List (List UInt8) := []
  /-- `none` when the write is pending, `some none` when it fails. -/
  result : Option (Option ℕ) := none

/-- How many bytes the next fragment takes of a write under the limit in force. -/
def fragmentLen (s : SendShared) (buf : List UInt8) : ℕ :=
  min buf.length (max s.maxFragmentSize 1)

/-- A write while nothing is staged: reserves credit, and stages a small fragment or demands a grant
for a large one. -/
def writeIdle (s : SendShared) (w : SessionWindow) (buf : List UInt8) : Write :=
  if ¬s.started then { shared := s, window := w }
  else
    let (w, len) := w.debitUpTo s.id (s.fragmentLen buf)
    if len = 0 then { shared := s, window := w }
    else if len ≤ s.copyThreshold then
      { shared := { s with buffer := buf.take len, state := .fragment }, window := w,
        result := some (some len) }
    else { shared := { s with reserved := len, state := .demand }, window := w }

/-- A write after the turn for a direct one has passed: it is staged. -/
def writeStaging (s : SendShared) (w : SessionWindow) (buf : List UInt8) : Write :=
  let len := min (s.fragmentLen buf) s.reserved
  { shared := { s with reserved := 0, buffer := buf.take len, state := .fragment }
    window := s.unreserve w (s.reserved - len)
    result := some (some len) }

/-- A write under a grant: it goes to the transport, unless that is not ready. -/
def writeGranted (s : SendShared) (w : SessionWindow) (buf : List UInt8) (ready : Bool) : Write :=
  let len := min (s.fragmentLen buf) s.reserved
  let w := s.unreserve w (s.reserved - len)
  if ready then
    { shared := { s with reserved := 0, buffer := [], state := .fragment }, window := w
      sent := [buf.take len], result := some (some len) }
  else { shared := { s with reserved := len, buffer := [] }, window := w }

/-- `TrailerSend::poll_write`. `ready` is whether the transport takes a direct write. -/
def pollWrite (s : SendShared) (w : SessionWindow) (buf : List UInt8) (ready : Bool) : Write :=
  if buf = [] then { shared := s, window := w, result := some (some 0) }
  else match s.state with
    | .finish | .fragmentFinish | .abort => { shared := s, window := w, result := some none }
    | .fragment | .fragmentDemand => { shared := { s with state := .fragmentDemand }, window := w }
    | .idle => s.writeIdle w buf
    | .demand => { shared := s, window := w }
    | .staging => s.writeStaging w buf
    | .granted => s.writeGranted w buf ready

/-- What a write can do. `len` is what it takes of the bytes that it is given. -/
inductive Writes (s : SendShared) (w : SessionWindow) (buf : List UInt8) : Write → Prop
  /-- Nothing: it fails, or waits for the scheduler or for credit. -/
  | idle (result : Option (Option ℕ)) : Writes s w buf { shared := s, window := w, result }
  | more (hs : s.state = .fragment ∨ s.state = .fragmentDemand) :
      Writes s w buf { shared := { s with state := .fragmentDemand }, window := w }
  | stage {len : ℕ} (hs : s.state = .idle) (hstart : s.started = true) (hne : buf ≠ [])
      (hlen : len = min (s.fragmentLen buf) w.available) (hpos : len ≠ 0) :
      Writes s w buf {
        shared := { s with buffer := buf.take len, state := .fragment }
        window := (w.debitUpTo s.id (s.fragmentLen buf)).1, result := some (some len) }
  | demand {len : ℕ} (hs : s.state = .idle) (hstart : s.started = true)
      (hlen : len = min (s.fragmentLen buf) w.available) (hpos : len ≠ 0) :
      Writes s w buf {
        shared := { s with reserved := len, state := .demand }
        window := (w.debitUpTo s.id (s.fragmentLen buf)).1 }
  | staging {len : ℕ} (hs : s.state = .staging) (hne : buf ≠ [])
      (hlen : len = min (s.fragmentLen buf) s.reserved) :
      Writes s w buf {
        shared := { s with reserved := 0, buffer := buf.take len, state := .fragment }
        window := s.unreserve w (s.reserved - len), result := some (some len) }
  | direct {len : ℕ} (hs : s.state = .granted) (hne : buf ≠ [])
      (hlen : len = min (s.fragmentLen buf) s.reserved) :
      Writes s w buf {
        shared := { s with reserved := 0, buffer := [], state := .fragment }
        window := s.unreserve w (s.reserved - len)
        sent := [buf.take len], result := some (some len) }
  | blocked {len : ℕ} (hs : s.state = .granted)
      (hlen : len = min (s.fragmentLen buf) s.reserved) :
      Writes s w buf {
        shared := { s with reserved := len, buffer := [] }
        window := s.unreserve w (s.reserved - len) }

theorem pollWrite_writes (s : SendShared) (w : SessionWindow) (buf : List UInt8) (ready : Bool) :
    Writes s w buf (s.pollWrite w buf ready) := by
  unfold pollWrite
  split_ifs with hne
  · exact .idle _
  · cases hs : s.state with
    | idle =>
      simp only [writeIdle]
      split_ifs with hst h0
      · -- Nothing is granted, so the pool is as before.
        have hw : (w.debitUpTo s.id (s.fragmentLen buf)).1 = w := by
          rw [SessionWindow.debitUpTo_snd] at h0
          simp [SessionWindow.debitUpTo, h0]
        rw [hw]
        exact .idle _
      · exact .stage hs hst hne rfl h0
      · exact .demand hs hst rfl h0
      · exact .idle _
    | granted =>
      simp only [writeGranted]
      split_ifs
      · exact .direct hs hne rfl
      · exact .blocked hs rfl
    | staging => exact .staging hs hne rfl
    | demand | finish | fragmentFinish | abort => exact .idle _
    | fragment => exact .more (.inl hs)
    | fragmentDemand => exact .more (.inr hs)

/-- A write stays with its message, and goes to the transport only under a grant. -/
theorem Writes.spec {s : SendShared} {w : SessionWindow} {buf : List UInt8} {r : Write}
    (h : Writes s w buf r) :
    r.shared.kind = s.kind ∧ r.shared.id = s.id ∧
      (r.shared.state = .granted → s.state = .granted) ∧ (r.sent ≠ [] → s.state = .granted) := by
  cases h <;> simp_all

end SendShared

/-- The states of a trailer's receiving end. -/
inductive RecvState where
  | idle
  /-- The consumer waits for the next fragment. -/
  | demand
  /-- A fragment is granted and the consumer waits for the transport. -/
  | reading
  /-- A fragment is granted and the consumer has not asked for it. -/
  | unclaimed
  /-- The driver takes the rest of the fragment off the wire. -/
  | draining
  | fragment
  /-- The fragment is complete and the consumer waits for the next one. -/
  | fragmentDemand
  | eof
  | discard
  | failed
  deriving DecidableEq, Repr

/-- The receiving end of a trailer. -/
structure RecvShared where
  remaining : ℕ
  stage : List UInt8
  copyThreshold : ℕ
  demandCopyThreshold : ℕ
  state : RecvState
  creditInterval : ℕ
  received : ℕ
  retired : ℕ
  pending : ℕ
  autoRelease : Bool
  id : MsgId
  deriving DecidableEq, Repr

namespace RecvShared

/-- The receiving end of the trailer of message `id`. -/
def new (limits : Limits) (id : MsgId) : RecvShared where
  remaining := 0
  stage := []
  copyThreshold := limits.trailerRecvCopyThreshold
  demandCopyThreshold := limits.trailerRecvDemandCopyThreshold
  state := .idle
  creditInterval := limits.trailerCreditInterval
  received := 0
  retired := 0
  pending := 0
  autoRelease := true
  id

/-- Takes `len` bytes that arrive, `none` when the peer overran the credit it was granted. -/
def acceptBytes (s : RecvShared) (w : SessionWindow) (len : ℕ) :
    Option (RecvShared × SessionWindow) :=
  if s.state = .discard then some (s, w)
  else (w.acceptBytes s.id len).map fun w => ({ s with received := s.received + len }, w)

/-- The consumer is parked with nothing left to read. -/
def isStalled (s : RecvShared) : Bool :=
  (s.state = .demand || s.state = .fragmentDemand) && s.stage.isEmpty

/-- Credit held back could be what the peer is missing. -/
def mustFlush (s : RecvShared) (w : SessionWindow) : Bool :=
  s.state = .eof || w.isExhausted || s.isStalled

/-- Returns the credit that has accumulated. -/
def flush (s : RecvShared) (w : SessionWindow) : RecvShared × SessionWindow × List Sink :=
  if s.state = .discard ∨ s.pending = 0 then (s, w, [])
  else
    let count := min s.pending u32Max
    ({ s with pending := s.pending - count }, w.refund s.id count, [.credit s.id count])

/-- Records `len` bytes as retired, and returns credit when enough has accumulated or the peer may
be waiting for it. -/
def retire (s : RecvShared) (w : SessionWindow) (len : ℕ) : RecvShared × SessionWindow × List Sink :=
  if s.state = .discard then (s, w, [])
  else
    let s := { s with pending := s.pending + len, retired := s.retired + len }
    if s.pending * 2 < s.creditInterval ∧ ¬s.mustFlush w then (s, w, []) else s.flush w

/-- `retire` for a consumer whose reads retire what they deliver. -/
def retireAndEmit (s : RecvShared) (w : SessionWindow) (len : ℕ) :
    RecvShared × SessionWindow × List Sink :=
  if s.autoRelease then s.retire w len else (s, w, [])

/-- Installs a fragment of `remaining` bytes. -/
def grant (s : RecvShared) (remaining : ℕ) : RecvShared :=
  let demanded := s.state = .demand
  let copyThreshold := if demanded then s.demandCopyThreshold else s.copyThreshold
  let state :=
    if s.state = .discard then .discard
    else if remaining = 0 then if demanded then .fragmentDemand else .fragment
    else if remaining ≤ copyThreshold then .draining
    else .unclaimed
  { s with state, remaining }

/-- The fragment is off the wire, so that `wait_fragment` returns. -/
def fragmentDone (s : RecvShared) : Bool :=
  s.state = .fragment || s.state = .fragmentDemand || (s.state = .discard && s.remaining == 0)

/-- The driver takes over a fragment that the consumer did not ask for. -/
def takeOver (s : RecvShared) : RecvShared :=
  if s.state = .unclaimed then { s with state := .draining } else s

/-- The driver takes `bytes` of the fragment off the wire. -/
def drain (s : RecvShared) (bytes : List UInt8) : RecvShared :=
  match s.state with
  | .draining =>
    let remaining := s.remaining - bytes.length
    { s with
      stage := s.stage ++ bytes
      remaining
      state := if remaining = 0 then .fragment else .draining }
  | .discard => { s with remaining := s.remaining - bytes.length }
  | _ => s

/-- Gives the fragment back, `RecvLease::complete`. -/
def complete (s : RecvShared) : RecvShared :=
  { s with
    remaining := 0
    state := match s.state with
      | .fragment => .idle
      | .fragmentDemand => .demand
      | state => state }

/-- The trailer has ended: nothing holds credit back any more. -/
def finish (s : RecvShared) (w : SessionWindow) : RecvShared × SessionWindow × List Sink :=
  RecvShared.retire { s with state := .eof } w 0

/-- The trailer was aborted. -/
def fail (s : RecvShared) : RecvShared :=
  { s with state := .failed }

/-- The consumer drops its handle. A trailer that has ended needs no notice. -/
def discard (s : RecvShared) (w : SessionWindow) : RecvShared × SessionWindow × List Sink :=
  if s.state = .discard then (s, w, [])
  else
    let ended := s.state = .eof
    let state := if s.state = .eof ∨ s.state = .failed then s.state else .discard
    ({ s with state, pending := 0, retired := s.received }, (w.settle s.id).1,
      if ended then [] else [.discard s.id])

/-- The consumer releases `n` bytes itself, `TrailerRecv::release`. -/
def release (s : RecvShared) (w : SessionWindow) (n : ℕ) : RecvShared × SessionWindow × List Sink :=
  if n = 0 then (s, w, []) else s.retire w n

/-- What a read yields: the record, the pool and the credit after it, and the bytes delivered. -/
structure Read where
  shared : RecvShared
  window : SessionWindow
  out : List Sink := []
  bytes : List UInt8 := []

/-- `TrailerRecv::poll_read` into a buffer of `n` bytes, up to the point where it retires what it
delivers. `bytes` is what the transport yields on a direct read, empty when that is not ready. -/
def pollRead (s : RecvShared) (w : SessionWindow) (n : ℕ) (bytes : List UInt8) : Read :=
  if s.stage ≠ [] then
    { shared := { s with stage := s.stage.drop n }, window := w, bytes := s.stage.take n }
  else match s.state with
    | .failed | .eof | .demand | .fragmentDemand | .draining | .discard => { shared := s, window := w }
    | .idle =>
      let (s, w, out) := RecvShared.flush { s with state := .demand } w
      { shared := s, window := w, out }
    | .fragment =>
      let (s, w, out) := RecvShared.flush { s with state := .fragmentDemand } w
      { shared := s, window := w, out }
    | .reading | .unclaimed =>
      if bytes = [] then { shared := { s with state := .reading }, window := w }
      else
        let remaining := s.remaining - bytes.length
        { shared := { s with remaining, state := if remaining = 0 then .fragment else .draining }
          window := w, bytes }

end RecvShared

end Dolang.Rpc
