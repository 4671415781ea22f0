import Dolang.Lib.System
import Dolang.Rpc.Header
import Dolang.Rpc.Trailer

/-!
# The bytes of a trailer at the sender

One trailer at its sending end, byte by byte: the producer, which writes with buffers of any size,
and the driver, which grants the transport and flushes what is staged. A step is one critical section
of `SendShared`. In each the transport takes as many bytes as it likes, so that a fragment may go out
partly from the writer's buffer and partly from the staging buffer, cut anywhere.

`accepted` is what each write took. Between leases the wire carries whole fragments, one for each of
them, but for the last one when it is still staged (`Inv.carried`).
-/

namespace Dolang.Rpc.Sending

/-- The states of a trailer's producer. -/
inductive State where
  | idle
  | demand
  | granted
  | staging
  | fragment
  | fragmentDemand
  | finish
  | fragmentFinish
  | abort
  /-- The transport failed. -/
  | failed
  deriving DecidableEq, Repr

/-- The trailer is finished, aborted or failed. -/
def State.ended : State → Bool
  | .finish | .fragmentFinish | .abort | .failed => true
  | _ => false

/-- A fragment is staged. -/
def State.staged : State → Bool
  | .fragment | .fragmentDemand | .fragmentFinish => true
  | _ => false

/-- The sending end of a trailer. `buffer` is what is left of a fragment, header and all. -/
structure Shared where
  kind : Kind
  id : MsgId
  token : Bool
  maxFragmentSize : ℕ
  copyThreshold : ℕ
  reserved : ℕ
  buffer : List UInt8
  state : State
  started : Bool
  deriving DecidableEq, Repr

/-- What the transport does with bytes that it is handed. -/
inductive Outcome where
  | pending
  | fails
  | takes (n : ℕ)
  deriving DecidableEq, Repr

/-- What a turn of `wait_fragment` yields. -/
inductive Turn where
  | ready (action : SendAction)
  /-- The producer gets one turn to use the grant. -/
  | yield
  | pending
  | error
  deriving DecidableEq, Repr

/-- What a write yields: the record and the pool after it, the bytes that it put on the wire, and
the number of bytes that it took. -/
structure Write where
  shared : Shared
  window : SessionWindow
  sent : List UInt8 := []
  /-- `none` when the write is pending, `some none` when it fails. -/
  result : Option (Option ℕ) := none

namespace Shared

def new (kind : Kind) (id : MsgId) (limits : Limits) : Shared where
  kind
  id
  token := false
  maxFragmentSize := limits.maxFragmentSize
  copyThreshold := limits.trailerSendCopyThreshold
  reserved := 0
  buffer := []
  state := .idle
  started := false

/-- What the scheduler has to do, `none` while it has to wait. -/
def pollAction (s : Shared) : Option SendAction :=
  match s.state with
  | .demand | .fragment | .fragmentDemand | .fragmentFinish => some .fragment
  | .finish => some .finish
  | .abort => some .abort
  | .idle | .granted | .staging | .failed => none

/-- Installs a frame token. With nothing staged, the producer may write to it. -/
def grant (s : Shared) (maxFragmentSize : ℕ) : Shared :=
  { s with
    state := if s.buffer = [] then .granted else s.state
    token := true
    maxFragmentSize }

/-- Flushes what is staged. The transport takes `n` bytes, and then fails or is not ready. -/
def flush (s : Shared) (n : ℕ) (fails : Bool) : Shared × List UInt8 × Outcome :=
  if s.token = false then (s, [], .fails)
  else
    ({ s with buffer := s.buffer.drop n }, s.buffer.take n,
      if s.buffer.drop n = [] then .takes n else if fails then .fails else .pending)

/-- One turn of `wait_fragment`, with what it puts on the wire. -/
def waitFragment (s : Shared) (yielded : Bool) (n : ℕ) (fails : Bool) :
    Shared × List UInt8 × Turn :=
  if s.state = .failed then (s, [], .error)
  else
    let (s, sent, flushed) := if s.buffer = [] then (s, [], .takes 0) else s.flush n fails
    match flushed with
    | .pending => (s, sent, .pending)
    | .fails => ({ s with state := .failed }, sent, .error)
    | .takes _ =>
      match s.state with
      | .fragment | .fragmentDemand | .fragmentFinish => (s, sent, .ready .fragment)
      | .finish => (s, sent, .ready .finish)
      | .abort => (s, sent, .ready .abort)
      | .granted =>
        if yielded then ({ s with state := .staging }, sent, .pending) else (s, sent, .yield)
      | .idle | .demand | .staging | .failed => (s, sent, .pending)

/-- The fragment is off, `SendLease::complete`. -/
def complete (s : Shared) : Shared :=
  { s with
    token := false
    buffer := []
    state := match s.state with
      | .fragment | .fragmentDemand => .idle
      | .fragmentFinish => .finish
      | state => state }

/-- The lease is dropped before its fragment is complete, `SendLease::drop`. -/
def revoke (s : Shared) : Shared :=
  { s with
    token := false
    buffer := []
    state := if s.state = .failed then .failed else .abort }

/-- The producer has written all it has. -/
def finish (s : Shared) : Shared :=
  { s with
    state := match s.state with
      | .fragment | .fragmentDemand | .fragmentFinish => .fragmentFinish
      | .abort => .abort
      | .failed => .failed
      | _ => .finish }

/-- Cuts a trailer short and settles what it owes. -/
def setAborted (s : Shared) (w : SessionWindow) : Shared × SessionWindow :=
  ({ s with
    state := match s.state with
      | .finish | .fragmentFinish | .failed => s.state
      | _ => .abort }, (w.settle s.id).1)

/-- The bytes of a fragment's header. -/
def header (s : Shared) (len : ℕ) : List UInt8 :=
  (dataHeader s.kind s.id len).encode

/-- Gives back a reservation whose fragment was never committed. -/
def unreserve (s : Shared) (w : SessionWindow) (len : ℕ) : SessionWindow :=
  if len = 0 then w else w.refund s.id len

/-- How many bytes the next fragment takes of a write under the limit in force. -/
def fragmentLen (s : Shared) (buf : List UInt8) : ℕ :=
  min buf.length (max s.maxFragmentSize 1)

/-- A write while nothing is staged. -/
def writeIdle (s : Shared) (w : SessionWindow) (buf : List UInt8) : Write :=
  if ¬s.started then { shared := s, window := w }
  else
    let (w, len) := w.debitUpTo s.id (s.fragmentLen buf)
    if len = 0 then { shared := s, window := w }
    else if len ≤ s.copyThreshold then
      { shared := { s with
          buffer := s.buffer ++ s.header len ++ buf.take len, state := .fragment }
        window := w, result := some (some len) }
    else { shared := { s with reserved := len, state := .demand }, window := w }

/-- A write after the turn for a direct one has passed. -/
def writeStaging (s : Shared) (w : SessionWindow) (buf : List UInt8) : Write :=
  let len := min (s.fragmentLen buf) s.reserved
  { shared := { s with
      reserved := 0, buffer := s.buffer ++ s.header len ++ buf.take len, state := .fragment }
    window := s.unreserve w (s.reserved - len)
    result := some (some len) }

/-- A write that the transport refuses. -/
def writeFailed (s : Shared) (w : SessionWindow) (len : ℕ) : Write :=
  { shared := { s with reserved := 0, buffer := [], state := .failed }
    window := s.unreserve w len
    result := some none }

/-- A write under a grant: header and payload go to the transport together, and what it does not
take is staged. -/
def writeGranted (s : Shared) (w : SessionWindow) (buf : List UInt8) (outcome : Outcome) : Write :=
  let len := min (s.fragmentLen buf) s.reserved
  let w := s.unreserve w (s.reserved - len)
  let head := s.buffer ++ s.header len
  match outcome with
  | .pending => { shared := { s with reserved := len, buffer := [] }, window := w }
  | .fails | .takes 0 => s.writeFailed w len
  | .takes n =>
    { shared := { s with
        reserved := 0
        buffer := if n < head.length then head.drop n ++ buf.take len
          else (buf.take len).drop (n - head.length)
        state := .fragment }
      window := w
      sent := (head ++ buf.take len).take n
      result := some (some len) }

/-- `TrailerSend::poll_write`. -/
def pollWrite (s : Shared) (w : SessionWindow) (buf : List UInt8) (outcome : Outcome) : Write :=
  if buf = [] then { shared := s, window := w, result := some (some 0) }
  else match s.state with
    | .finish | .fragmentFinish | .abort | .failed =>
      { shared := s, window := w, result := some none }
    | .fragment | .fragmentDemand => { shared := { s with state := .fragmentDemand }, window := w }
    | .idle => s.writeIdle w buf
    | .demand => { shared := s, window := w }
    | .staging => s.writeStaging w buf
    | .granted => s.writeGranted w buf outcome

end Shared

/-- Where the driver is with a trailer. -/
inductive Driver where
  /-- Between two turns. -/
  | away
  /-- It was told of a fragment and is about to grant the transport. -/
  | polled
  /-- It holds a lease, and has let the producer have its turn or not. -/
  | leased (yielded : Bool)
  /-- It is about to complete its lease. -/
  | ready (action : SendAction)
  /-- It saw the trailer finish. -/
  | finished
  /-- It saw the trailer aborted, or was told to drop it. -/
  | aborted
  /-- It dropped its lease: the connection is lost. -/
  | lost
  deriving DecidableEq, Repr

end Dolang.Rpc.Sending

namespace Dolang.Rpc

open Sending

/-- A trailer at its sending end. -/
structure Sending where
  shared : Shared
  window : SessionWindow
  driver : Driver
  /-- The producer has its handle. -/
  handle : Bool
  wire : List UInt8
  accepted : List (List UInt8)

namespace Sending

def new (shared : Shared) (window : SessionWindow) : Sending where
  shared
  window
  driver := .away
  handle := true
  wire := []
  accepted := []

/-- The chunk that a write took. -/
def taken (buf : List UInt8) : Option (Option ℕ) → List (List UInt8)
  | some (some (n + 1)) => [buf.take (n + 1)]
  | _ => []

/-- The producer writes. -/
def write (d : Sending) (buf : List UInt8) (outcome : Outcome) : Sending :=
  let r := d.shared.pollWrite d.window buf outcome
  { d with
    shared := r.shared
    window := r.window
    wire := d.wire ++ r.sent
    accepted := d.accepted ++ taken buf r.result }

/-- The driver asks what to do. -/
def poll (d : Sending) : Sending :=
  { d with
    driver := match d.shared.pollAction with
      | some .fragment => .polled
      | some .finish => .finished
      | some .abort => .aborted
      | none => .away }

/-- The driver waits for its fragment, for one turn. -/
def turn (d : Sending) (yielded : Bool) (n : ℕ) (fails : Bool) : Sending :=
  let (shared, sent, turn) := d.shared.waitFragment yielded n fails
  { d with
    shared
    wire := d.wire ++ sent
    driver := match turn with
      | .ready action => .ready action
      | .yield => .leased true
      | .pending | .error => .leased yielded }

/-- Where the driver goes after a lease. -/
def after : SendAction → Driver
  | .fragment => .away
  | .finish => .finished
  | .abort => .aborted

/-- What happens to a trailer. -/
inductive Action where
  | write (buf : List UInt8) (outcome : Outcome)
  /-- The producer finishes, and gives up its handle. -/
  | finish
  /-- The producer finishes and keeps its handle, `poll_close`. -/
  | close
  /-- The producer drops its handle. -/
  | drop
  /-- The message is admitted. -/
  | start
  | poll
  | grant (maxFragmentSize : ℕ)
  | turn (n : ℕ) (fails : Bool)
  | complete
  | revoke
  /-- The peer does not want the trailer, or the message is cancelled. -/
  | discard
  /-- Other trailers use the pool. -/
  | pool (window : SessionWindow)

/-- What an action does. The transport takes no more than it is handed. -/
def next (d : Sending) : Action → Sending → Prop
  | .write buf outcome, d' => d.handle = true ∧
    (∀ n, outcome = .takes n →
      n ≤ headerLen + min (d.shared.fragmentLen buf) d.shared.reserved) ∧ d' = d.write buf outcome
  | .finish, d' => d.handle = true ∧ d' = { d with shared := d.shared.finish, handle := false }
  | .close, d' => d.handle = true ∧ d' = { d with shared := d.shared.finish }
  | .drop, d' => d.handle = true ∧ d' = { d with
      shared := (d.shared.setAborted d.window).1, window := (d.shared.setAborted d.window).2
      handle := false }
  | .start, d' => d' = { d with shared := { d.shared with started := true } }
  | .poll, d' => d.driver = .away ∧ d' = d.poll
  | .grant maxFragmentSize, d' => d.driver = .polled ∧ maxFragmentSize ≤ u32Max ∧
    d' = { d with shared := d.shared.grant maxFragmentSize, driver := .leased false }
  | .turn n fails, d' => ∃ yielded, d.driver = .leased yielded ∧ d' = d.turn yielded n fails
  | .complete, d' => ∃ action, d.driver = .ready action ∧
    d' = { d with shared := d.shared.complete, driver := after action }
  | .revoke, d' => (∃ yielded, d.driver = .leased yielded) ∧
    d' = { d with shared := d.shared.revoke, driver := .lost }
  | .discard, d' => d.driver = .away ∧ d' = { d with
      shared := (d.shared.setAborted d.window).1, window := (d.shared.setAborted d.window).2
      driver := .aborted }
  | .pool window, d' => d' = { d with window }

/-- A trailer of message `id`. The limits are those of a session, so that lengths fit a header. -/
def system (kind : Kind) (id : MsgId) (limits : Limits) : System Sending Action where
  start d := id < 2 ^ 64 ∧ limits.maxFragmentSize ≤ u32Max ∧
    ∃ window, d = new (.new kind id limits) window
  next := next

/-- No decision of the producer comes between a poll that found a demand and its grant. -/
def Timely (d : Sending) : Action → Prop
  | .finish | .close | .drop => ¬(d.driver = .polled ∧ d.shared.state = .demand)
  | _ => True

end Sending

/-! ### The sections of the producer and of the driver -/

namespace Sending

namespace Shared

/-- What a write can do. -/
inductive Writes (s : Shared) (w : SessionWindow) (buf : List UInt8) : Write → Prop
  /-- Nothing: it fails, or waits for the scheduler or for credit. -/
  | idle (result : Option (Option ℕ)) (h : ∀ n, result = some (some n) → n = 0) :
      Writes s w buf { shared := s, window := w, result }
  | more (hs : s.state = .fragment ∨ s.state = .fragmentDemand) :
      Writes s w buf { shared := { s with state := .fragmentDemand }, window := w }
  | stage {w' : SessionWindow} {len r : ℕ} (hs : s.state = .idle ∨ s.state = .staging)
      (hpos : 0 < len) (hlen : len ≤ s.fragmentLen buf) (hr : r = s.reserved ∨ r = 0) :
      Writes s w buf {
        shared := { s with
          reserved := r, buffer := s.buffer ++ s.header len ++ buf.take len, state := .fragment }
        window := w', result := some (some len) }
  | demand {w' : SessionWindow} {len : ℕ} (hs : s.state = .idle) (hpos : 0 < len) :
      Writes s w buf { shared := { s with reserved := len, state := .demand }, window := w' }
  | direct {w' : SessionWindow} {len n : ℕ} (hs : s.state = .granted) (hpos : 0 < len)
      (hlen : len ≤ s.fragmentLen buf) :
      Writes s w buf {
        shared := { s with
          reserved := 0
          buffer := (s.buffer ++ s.header len ++ buf.take len).drop n
          state := .fragment }
        window := w'
        sent := (s.buffer ++ s.header len ++ buf.take len).take n
        result := some (some len) }
  | blocked {w' : SessionWindow} {len : ℕ} (hs : s.state = .granted) (hpos : 0 < len) :
      Writes s w buf { shared := { s with reserved := len, buffer := [] }, window := w' }
  | failed {w' : SessionWindow} (hs : s.state = .granted) :
      Writes s w buf {
        shared := { s with reserved := 0, buffer := [], state := .failed }
        window := w', result := some none }

theorem fragmentLen_pos (s : Shared) {buf : List UInt8} (h : buf ≠ []) : 0 < s.fragmentLen buf := by
  have := List.length_pos_iff.mpr h
  unfold fragmentLen
  omega

/-- What is left of the header and the payload of a fragment, of which `n` bytes are gone. -/
theorem drop_head_append (head payload : List UInt8) (n : ℕ) :
    (if n < head.length then head.drop n ++ payload else payload.drop (n - head.length)) =
      (head ++ payload).drop n := by
  split_ifs with h
  · rw [List.drop_append_of_le_length h.le]
  · have hnil : head.drop n = [] := List.drop_eq_nil_of_le (by omega)
    rw [List.drop_append, hnil, List.nil_append]

theorem pollWrite_writes {s : Shared} (w : SessionWindow) (buf : List UInt8) (outcome : Outcome)
    (hr : s.state = .granted ∨ s.state = .staging → 0 < s.reserved) :
    Writes s w buf (s.pollWrite w buf outcome) := by
  unfold pollWrite
  split_ifs with hne
  · exact .idle _ fun n hn => by cases hn; rfl
  have hpos := s.fragmentLen_pos hne
  cases hs : s.state with
  | idle =>
    simp only [writeIdle]
    have hlen : (w.debitUpTo s.id (s.fragmentLen buf)).2 ≤ s.fragmentLen buf := by
      rw [SessionWindow.debitUpTo_snd]
      exact Nat.min_le_left _ _
    split_ifs with hst h0
    · have hw : (w.debitUpTo s.id (s.fragmentLen buf)).1 = w := by
        rw [SessionWindow.debitUpTo_snd] at h0
        simp [SessionWindow.debitUpTo, h0]
      rw [hw]
      exact .idle _ fun n hn => by cases hn
    · exact .stage (.inl hs) (Nat.pos_of_ne_zero h0) hlen (.inl rfl)
    · exact .demand hs (Nat.pos_of_ne_zero h0)
    · exact .idle _ fun n hn => by cases hn
  | staging =>
    have hres := hr (.inr hs)
    exact .stage (.inr hs) (by omega) (Nat.min_le_left _ _) (.inr rfl)
  | granted =>
    have hres := hr (.inl hs)
    simp only [writeGranted]
    split
    · exact .blocked hs (by omega)
    · exact .failed hs
    · exact .failed hs
    · rw [drop_head_append]
      exact .direct hs (by omega) (Nat.min_le_left _ _)
  | demand => exact .idle _ fun n hn => by cases hn
  | finish | fragmentFinish | abort | failed => exact .idle _ fun n hn => by cases hn
  | fragment => exact .more (.inl hs)
  | fragmentDemand => exact .more (.inr hs)

/-- What a turn of the driver can do, under a lease. -/
inductive Turns (s : Shared) : Shared × List UInt8 × Turn → Prop
  | failed (hs : s.state = .failed) : Turns s (s, [], .error)
  | pending (n : ℕ) (hne : s.buffer ≠ []) :
      Turns s ({ s with buffer := s.buffer.drop n }, s.buffer.take n, .pending)
  | error (n : ℕ) : Turns s
      ({ s with buffer := s.buffer.drop n, state := .failed }, s.buffer.take n, .error)
  | ready {action : SendAction}
      (hs : s.state.staged = true ∧ action = .fragment ∨ s.state = .finish ∧ action = .finish ∨
        s.state = .abort ∧ action = .abort) :
      Turns s ({ s with buffer := [] }, s.buffer, .ready action)
  | yield (hs : s.state = .granted) : Turns s ({ s with buffer := [] }, s.buffer, .yield)
  | staging (hs : s.state = .granted) :
      Turns s ({ s with buffer := [], state := .staging }, s.buffer, .pending)
  | wait (hs : s.state = .idle ∨ s.state = .demand ∨ s.state = .staging) :
      Turns s ({ s with buffer := [] }, s.buffer, .pending)

/-- The decision of a turn, once what was staged is off. -/
theorem decide_turns (s : Shared) (yielded : Bool) (hs : s.state ≠ .failed) :
    Turns s (match s.state with
      | .fragment | .fragmentDemand | .fragmentFinish =>
        ({ s with buffer := [] }, s.buffer, .ready .fragment)
      | .finish => ({ s with buffer := [] }, s.buffer, .ready .finish)
      | .abort => ({ s with buffer := [] }, s.buffer, .ready .abort)
      | .granted =>
        if yielded then ({ s with buffer := [], state := .staging }, s.buffer, .pending)
        else ({ s with buffer := [] }, s.buffer, .yield)
      | .idle | .demand | .staging | .failed => ({ s with buffer := [] }, s.buffer, .pending)) := by
  obtain ⟨kind, id, token, maxFragmentSize, copyThreshold, reserved, buffer, state, started⟩ := s
  cases state with
  | fragment | fragmentDemand | fragmentFinish => exact .ready (.inl ⟨rfl, rfl⟩)
  | finish => exact .ready (.inr (.inl ⟨rfl, rfl⟩))
  | abort => exact .ready (.inr (.inr ⟨rfl, rfl⟩))
  | granted =>
    cases yielded with
    | true => exact .staging rfl
    | false => exact .yield rfl
  | idle => exact .wait (.inl rfl)
  | demand => exact .wait (.inr (.inl rfl))
  | staging => exact .wait (.inr (.inr rfl))
  | failed => exact absurd rfl hs

theorem waitFragment_turns {s : Shared} (yielded : Bool) (n : ℕ) (fails : Bool)
    (ht : s.token = true) : Turns s (s.waitFragment yielded n fails) := by
  unfold waitFragment
  by_cases hfailed : s.state = .failed
  · rw [if_pos hfailed]
    exact .failed hfailed
  rw [if_neg hfailed]
  by_cases hempty : s.buffer = []
  · have h := s.decide_turns yielded hfailed
    obtain ⟨kind, id, token, maxFragmentSize, copyThreshold, reserved, buffer, state, started⟩ := s
    obtain rfl : buffer = [] := hempty
    exact h
  · rw [if_neg hempty]
    unfold flush
    rw [if_neg (by simp [ht])]
    dsimp only
    by_cases hdrop : s.buffer.drop n = []
    · have htake : s.buffer.take n = s.buffer := by
        have happ := List.take_append_drop n s.buffer
        rwa [hdrop, List.append_nil] at happ
      rw [if_pos hdrop, hdrop, htake]
      exact s.decide_turns yielded hfailed
    · rw [if_neg hdrop]
      cases fails with
      | true => exact .error n
      | false => exact .pending n hempty

end Shared

/-! ### What is on the wire -/

/-- What is accepted, as the fragments that carry it. -/
def frames (d : Sending) : List UInt8 :=
  d.accepted.flatMap (frame d.shared.kind d.shared.id)

/-- The last fragment is staged, and none of it is on the wire. -/
def Held (d : Sending) : Prop :=
  ∃ front chunk, d.accepted = front ++ [chunk] ∧
    d.shared.buffer = frame d.shared.kind d.shared.id chunk

/-- The states that go with the place of the driver. -/
def Fits (d : Sending) : Prop :=
  match d.driver with
  | .away =>
    (d.shared.state = .idle ∨ d.shared.state = .demand ∨ d.shared.state = .finish) ∧
        d.shared.buffer = [] ∨
      d.shared.state.staged = true ∧ d.Held ∨
      d.shared.state = .abort ∧ (d.shared.buffer = [] ∨ d.Held)
  | .polled =>
    d.shared.state = .demand ∧ d.shared.buffer = [] ∨
      (d.shared.state.staged = true ∨ d.shared.state = .abort) ∧ d.Held
  | .leased _ =>
    d.shared.token = true ∧
      ((d.shared.state = .granted ∨ d.shared.state = .staging ∨ d.shared.state = .finish) ∧
          d.shared.buffer = [] ∨
        d.shared.state.staged = true ∨ d.shared.state = .abort ∨ d.shared.state = .failed)
  | .ready .fragment =>
    (d.shared.state.staged = true ∨ d.shared.state = .abort) ∧ d.shared.buffer = []
  | .ready .finish | .finished => d.shared.state = .finish ∧ d.shared.buffer = []
  | .ready .abort => d.shared.state = .abort ∧ d.shared.buffer = []
  | .aborted => d.shared.state.ended = true ∧ (d.shared.buffer = [] ∨ d.Held)
  | .lost => d.shared.state.ended = true

structure Inv (d : Sending) : Prop where
  fits : d.Fits
  reserved : d.shared.state = .demand ∨ d.shared.state = .granted ∨ d.shared.state = .staging →
    0 < d.shared.reserved
  fitsId : d.shared.id < 2 ^ 64
  size : d.shared.maxFragmentSize ≤ u32Max
  chunks : ∀ chunk ∈ d.accepted, chunk ≠ [] ∧ chunk.length ≤ u32Max
  carried : d.wire ++ d.shared.buffer = d.frames ∨ d.driver = .lost ∧ d.wire <+: d.frames

variable {d d' : Sending}

theorem inv_new {kind : Kind} {id : MsgId} {limits : Limits} (hid : id < 2 ^ 64)
    (h : limits.maxFragmentSize ≤ u32Max) (window : SessionWindow) :
    (new (.new kind id limits) window).Inv where
  fits := .inl ⟨.inl rfl, rfl⟩
  reserved := by rintro (h | h | h) <;> cases h
  fitsId := hid
  size := h
  chunks := fun _ h => absurd h List.not_mem_nil
  carried := .inl rfl

theorem Held.ne_nil (h : d.Held) : d.shared.buffer ≠ [] := by
  obtain ⟨_, chunk, -, hb⟩ := h
  exact hb ▸ frame_ne_nil _ _ chunk

/-- A change of state that leaves the bytes alone. -/
theorem Inv.restate (h : d.Inv) (hfits : d'.Fits) (hd : d.driver = .lost → d'.driver = .lost)
    (hw : d'.wire = d.wire) (ha : d'.accepted = d.accepted) (hk : d'.shared.kind = d.shared.kind)
    (hid : d'.shared.id = d.shared.id) (hb : d'.shared.buffer = d.shared.buffer)
    (hm : d'.shared.maxFragmentSize = d.shared.maxFragmentSize)
    (hr : d'.shared.state = .demand ∨ d'.shared.state = .granted ∨ d'.shared.state = .staging →
      0 < d'.shared.reserved) : d'.Inv := by
  have hframes : d'.frames = d.frames := by simp only [frames, hk, hid, ha]
  refine ⟨hfits, hr, hid ▸ h.fitsId, hm ▸ h.size, ha ▸ h.chunks, ?_⟩
  rw [hframes, hb, hw]
  exact h.carried.imp id fun hl => ⟨hd hl.1, hl.2⟩

theorem Fits.finish (h : d.Fits) (ht : ¬(d.driver = .polled ∧ d.shared.state = .demand)) :
    Fits { d with shared := d.shared.finish } := by
  unfold Fits at h ⊢
  simp only [Held, Shared.finish] at h ⊢
  cases hd : d.driver with
  | ready action =>
    cases action <;> cases hs : d.shared.state <;> simp_all [State.staged]
  | away | polled | leased | finished | aborted | lost =>
    cases hs : d.shared.state <;> simp_all [State.staged, State.ended]

theorem Fits.setAborted (h : d.Fits) (ht : ¬(d.driver = .polled ∧ d.shared.state = .demand))
    (w : SessionWindow) : Fits { d with shared := (d.shared.setAborted w).1 } := by
  unfold Fits at h ⊢
  simp only [Held, Shared.setAborted] at h ⊢
  cases hd : d.driver with
  | ready action =>
    cases action <;> cases hs : d.shared.state <;> simp_all [State.staged]
  | away | polled | leased | finished | aborted | lost =>
    cases hs : d.shared.state <;> simp_all [State.staged, State.ended]

/-- With an idle producer the driver is between two turns. -/
theorem Fits.away (h : d.Fits) (hs : d.shared.state = .idle) :
    d.driver = .away ∧ d.shared.buffer = [] := by
  unfold Fits at h
  cases hd : d.driver with
  | ready action => cases action <;> simp_all [State.staged]
  | away | polled | leased | finished | aborted | lost => simp_all [State.staged, State.ended]

/-- A producer that may write to the transport does so under a lease. -/
theorem Fits.leased (h : d.Fits) (hs : d.shared.state = .granted ∨ d.shared.state = .staging) :
    (∃ yielded, d.driver = .leased yielded) ∧ d.shared.token = true ∧ d.shared.buffer = [] := by
  unfold Fits at h
  cases hd : d.driver with
  | ready action => cases action <;> obtain hs | hs := hs <;> simp_all [State.staged]
  | away | polled | leased | finished | aborted | lost =>
    obtain hs | hs := hs <;> simp_all [State.staged, State.ended]

/-- The producer has more, while a fragment of it is staged. -/
theorem Fits.more (h : d.Fits)
    (hs : d.shared.state = .fragment ∨ d.shared.state = .fragmentDemand) :
    Fits { d with shared := { d.shared with state := .fragmentDemand } } := by
  unfold Fits at h ⊢
  simp only [Held] at h ⊢
  cases hd : d.driver with
  | ready action => cases action <;> obtain hs | hs := hs <;> simp_all [State.staged]
  | away | polled | leased | finished | aborted | lost =>
    obtain hs | hs := hs <;> simp_all [State.staged, State.ended]

/-- What a fragment carries is what was accepted with it. -/
theorem header_append (s : Shared) {len : ℕ} {buf : List UInt8} (h : len ≤ buf.length) :
    s.header len ++ buf.take len = frame s.kind s.id (buf.take len) := by
  unfold Shared.header frame
  rw [List.length_take_of_le h]

theorem fragmentLen_le (s : Shared) (buf : List UInt8) : s.fragmentLen buf ≤ buf.length :=
  Nat.min_le_left _ _

/-- A chunk of a write that is taken. -/
theorem chunk_bounds (h : d.Inv) {len : ℕ} {buf : List UInt8} (hpos : 0 < len)
    (hlen : len ≤ d.shared.fragmentLen buf) :
    buf.take len ≠ [] ∧ (buf.take len).length ≤ u32Max := by
  have hle := hlen.trans (fragmentLen_le d.shared buf)
  have hsize := h.size
  have hlength := List.length_take_of_le hle
  refine ⟨List.ne_nil_of_length_pos (by omega), ?_⟩
  have hmax : 1 ≤ u32Max := by decide
  unfold Shared.fragmentLen at hlen
  omega

theorem chunks_append (h : d.Inv) {chunk : List UInt8} (hc : chunk ≠ [] ∧ chunk.length ≤ u32Max) :
    ∀ c ∈ d.accepted ++ [chunk], c ≠ [] ∧ c.length ≤ u32Max := by
  intro c hmem
  obtain hmem | hmem := List.mem_append.mp hmem
  · exact h.chunks c hmem
  · obtain rfl := List.mem_singleton.mp hmem
    exact hc

/-- While the driver has not given up, nothing is missing between the wire and the buffer. -/
theorem Inv.whole (h : d.Inv) (hd : d.driver ≠ .lost) : d.wire ++ d.shared.buffer = d.frames := by
  obtain hc | ⟨hlost, -⟩ := h.carried
  · exact hc
  · exact absurd hlost hd

/-- A write takes a chunk: its fragment is on the wire or staged, cut anywhere. -/
theorem Inv.take (h : d.Inv) {len n : ℕ} {buf : List UInt8} {shared : Shared}
    (w : SessionWindow) (hpos : 0 < len) (hlen : len ≤ d.shared.fragmentLen buf)
    (hd : d.driver ≠ .lost) (hempty : d.shared.buffer = []) (hk : shared.kind = d.shared.kind)
    (hid : shared.id = d.shared.id) (hm : shared.maxFragmentSize = d.shared.maxFragmentSize)
    (hs : shared.state = .fragment)
    (hb : shared.buffer = (d.shared.header len ++ buf.take len).drop n)
    (hfits : Fits { d with
      shared, window := w, wire := d.wire ++ (d.shared.header len ++ buf.take len).take n
      accepted := d.accepted ++ [buf.take len] }) :
    Inv { d with
      shared, window := w, wire := d.wire ++ (d.shared.header len ++ buf.take len).take n
      accepted := d.accepted ++ [buf.take len] } := by
  refine ⟨hfits, ?_, hid ▸ h.fitsId, hm ▸ h.size, chunks_append h (chunk_bounds h hpos hlen), .inl ?_⟩
  · rintro (hs' | hs' | hs') <;> exact absurd (hs.symm.trans hs') (by decide)
  · have hwire := h.whole hd
    rw [hempty, List.append_nil] at hwire
    show d.wire ++ (d.shared.header len ++ buf.take len).take n ++ shared.buffer = _
    rw [hb, List.append_assoc, List.take_append_drop, hwire,
      header_append d.shared (hlen.trans (fragmentLen_le d.shared buf))]
    simp [frames, hk, hid]

theorem Inv.write (h : d.Inv) (buf : List UInt8) (outcome : Outcome) :
    (d.write buf outcome).Inv := by
  have hwrites := Shared.pollWrite_writes d.window buf outcome
    fun hs => h.reserved (.inr hs)
  unfold Sending.write
  generalize d.shared.pollWrite d.window buf outcome = r at hwrites
  cases hwrites with
  | idle result hresult =>
    have hacc : taken buf result = [] := by
      obtain _ | _ | n := result
      · rfl
      · rfl
      · obtain rfl := hresult n rfl
        rfl
    simp only [hacc, List.append_nil]
    exact h
  | more hs =>
    simp only [taken, List.append_nil]
    exact h.restate (h.fits.more hs) id rfl rfl rfl rfl rfl rfl
      (by rintro (hs' | hs' | hs') <;> cases hs')
  | @stage w' len r hs hpos hlen hr =>
    obtain ⟨m, rfl⟩ : ∃ m, len = m + 1 := ⟨len - 1, by omega⟩
    have hplace : d.shared.buffer = [] ∧ d.driver ≠ .lost := by
      obtain hs | hs := hs
      · obtain ⟨hd, hb⟩ := h.fits.away hs
        exact ⟨hb, by simp [hd]⟩
      · obtain ⟨⟨y, hd⟩, -, hb⟩ := h.fits.leased (.inr hs)
        exact ⟨hb, by simp [hd]⟩
    have htake := @Inv.take d h (m + 1) 0 buf { d.shared with
      reserved := r, buffer := d.shared.buffer ++ d.shared.header (m + 1) ++ buf.take (m + 1)
      state := .fragment } w' hpos hlen hplace.2 hplace.1 rfl rfl rfl rfl (by simp [hplace.1])
    simp only [taken]
    rw [List.take_zero] at htake
    apply htake
    unfold Fits
    obtain hs | hs := hs
    · obtain ⟨hd, hb⟩ := h.fits.away hs
      simp only [hd]
      refine .inr (.inl ⟨rfl, d.accepted, buf.take (m + 1), rfl, ?_⟩)
      show d.shared.buffer ++ d.shared.header (m + 1) ++ buf.take (m + 1) = _
      rw [hb, List.nil_append, header_append _ (hlen.trans (fragmentLen_le d.shared buf))]
    · obtain ⟨⟨y, hd⟩, ht, -⟩ := h.fits.leased (.inr hs)
      simp only [hd]
      exact ⟨ht, .inr (.inl rfl)⟩
  | @demand w' len hs hpos =>
    obtain ⟨hd, hb⟩ := h.fits.away hs
    simp only [taken, List.append_nil]
    refine h.restate ?_ id rfl rfl rfl rfl rfl rfl fun _ => hpos
    unfold Fits
    simp only [hd]
    exact .inl ⟨.inr (.inl trivial), hb⟩
  | @direct w' len n hs hpos hlen =>
    obtain ⟨m, rfl⟩ : ∃ m, len = m + 1 := ⟨len - 1, by omega⟩
    obtain ⟨⟨y, hd⟩, ht, hb⟩ := h.fits.leased (.inl hs)
    simp only [taken, hb, List.nil_append]
    refine h.take w' hpos hlen (by simp [hd]) hb rfl rfl rfl rfl rfl ?_
    unfold Fits
    simp only [hd]
    exact ⟨ht, .inr (.inl rfl)⟩
  | @blocked w' len hs hpos =>
    obtain ⟨⟨y, hd⟩, ht, hb⟩ := h.fits.leased (.inl hs)
    simp only [taken, List.append_nil]
    refine h.restate ?_ id rfl rfl rfl rfl hb.symm rfl fun _ => hpos
    unfold Fits
    simp only [hd]
    exact ⟨ht, .inl ⟨.inl hs, trivial⟩⟩
  | @failed w' hs =>
    obtain ⟨⟨y, hd⟩, ht, hb⟩ := h.fits.leased (.inl hs)
    simp only [taken, List.append_nil]
    refine h.restate ?_ id rfl rfl rfl rfl hb.symm rfl
      (by rintro (hs' | hs' | hs') <;> cases hs')
    unfold Fits
    simp only [hd]
    exact ⟨ht, .inr (.inr (.inr trivial))⟩

theorem Inv.finish (h : d.Inv) (ht : ¬(d.driver = .polled ∧ d.shared.state = .demand))
    (handle : Bool) : Inv { d with shared := d.shared.finish, handle } := by
  refine h.restate (h.fits.finish ht) id rfl rfl rfl rfl rfl rfl ?_
  unfold Shared.finish
  cases hs : d.shared.state <;> simp

theorem Inv.setAborted (h : d.Inv) (ht : ¬(d.driver = .polled ∧ d.shared.state = .demand))
    (w : SessionWindow) (handle : Bool) :
    Inv { d with shared := (d.shared.setAborted d.window).1, window := w, handle } := by
  refine h.restate (h.fits.setAborted ht d.window) id rfl rfl rfl rfl rfl rfl ?_
  unfold Shared.setAborted
  cases hs : d.shared.state <;> simp

/-- A trailer that was cut short between two turns is over for the driver. -/
theorem Inv.discard (h : d.Inv) (hd : d.driver = .away) (w : SessionWindow) :
    Inv { d with
      shared := (d.shared.setAborted d.window).1, window := w, driver := .aborted } := by
  refine h.restate ?_ (by simp [hd]) rfl rfl rfl rfl rfl rfl ?_
  · have hf := h.fits
    unfold Fits at hf ⊢
    simp only [hd, Held] at hf ⊢
    unfold Shared.setAborted
    cases hs : d.shared.state <;> simp_all [State.staged, State.ended]
  · unfold Shared.setAborted
    cases hs : d.shared.state <;> simp

theorem Inv.poll (h : d.Inv) (hd : d.driver = .away) : d.poll.Inv := by
  refine h.restate ?_ (by simp [hd]) rfl rfl rfl rfl rfl rfl h.reserved
  have hf := h.fits
  unfold Fits at hf ⊢
  simp only [hd, Held] at hf
  simp only [Sending.poll, Held, Shared.pollAction]
  cases hs : d.shared.state <;> simp_all [State.staged, State.ended]

/-- The grant answers a demand, or goes to a fragment that is staged. -/
theorem Inv.grant (h : d.Inv) (hd : d.driver = .polled) {maxFragmentSize : ℕ}
    (hm : maxFragmentSize ≤ u32Max) :
    Inv { d with shared := d.shared.grant maxFragmentSize, driver := .leased false } := by
  have hf := h.fits
  unfold Fits at hf
  simp only [hd] at hf
  refine ⟨?_, ?_, h.fitsId, hm, h.chunks, .inl (h.whole (by simp [hd]))⟩
  · refine ⟨rfl, ?_⟩
    obtain ⟨hs, hb⟩ | ⟨hs, hheld⟩ := hf
    · exact .inl ⟨.inl (if_pos hb), hb⟩
    · have hstate : (d.shared.grant maxFragmentSize).state = d.shared.state := if_neg hheld.ne_nil
      show _ ∨ (d.shared.grant maxFragmentSize).state.staged = true ∨
        (d.shared.grant maxFragmentSize).state = .abort ∨ _
      rw [hstate]
      exact .inr (hs.imp_right .inl)
  · intro hs
    obtain ⟨hdemand, -⟩ | ⟨hstaged, hheld⟩ := hf
    · exact h.reserved (.inl hdemand)
    · have hstate : (d.shared.grant maxFragmentSize).state = d.shared.state := if_neg hheld.ne_nil
      exact h.reserved (hstate ▸ hs)

/-- The driver moves bytes from the buffer to the wire. -/
theorem Inv.move (h : d.Inv) (hd : d.driver ≠ .lost) {shared : Shared} {sent : List UInt8}
    {driver : Driver} (hb : sent ++ shared.buffer = d.shared.buffer)
    (hfits : Fits { d with shared, wire := d.wire ++ sent, driver })
    (hk : shared.kind = d.shared.kind) (hid : shared.id = d.shared.id)
    (hm : shared.maxFragmentSize = d.shared.maxFragmentSize)
    (hr : shared.state = .demand ∨ shared.state = .granted ∨ shared.state = .staging →
      0 < shared.reserved) : Inv { d with shared, wire := d.wire ++ sent, driver } := by
  refine ⟨hfits, hr, hid ▸ h.fitsId, hm ▸ h.size, h.chunks, .inl ?_⟩
  have hframes : frames { d with shared, wire := d.wire ++ sent, driver } = d.frames := by
    simp only [frames, hk, hid]
  rw [hframes, ← h.whole hd]
  show d.wire ++ sent ++ shared.buffer = _
  rw [List.append_assoc, hb]

theorem Inv.turn (h : d.Inv) {yielded : Bool} (hd : d.driver = .leased yielded) (n : ℕ)
    (fails : Bool) : (d.turn yielded n fails).Inv := by
  have hf := h.fits
  unfold Fits at hf
  simp only [hd] at hf
  obtain ⟨ht, hf⟩ := hf
  have hlost : d.driver ≠ .lost := by simp [hd]
  have hturns := Shared.waitFragment_turns yielded n fails ht
  unfold Sending.turn
  generalize d.shared.waitFragment yielded n fails = r at hturns
  cases hturns with
  | failed hs =>
    refine h.move hlost rfl ?_ rfl rfl rfl h.reserved
    exact ⟨ht, .inr (.inr (.inr hs))⟩
  | pending n hne =>
    refine h.move hlost (List.take_append_drop _ _) ?_ rfl rfl rfl h.reserved
    refine ⟨ht, ?_⟩
    obtain ⟨-, hb⟩ | hf := hf
    · exact absurd hb hne
    · exact .inr hf
  | error n =>
    refine h.move hlost (List.take_append_drop _ _) ?_ rfl rfl rfl
      (by rintro (hs | hs | hs) <;> cases hs)
    exact ⟨ht, .inr (.inr (.inr rfl))⟩
  | @ready action hs =>
    refine h.move hlost (List.append_nil _) ?_ rfl rfl rfl h.reserved
    obtain ⟨hs, rfl⟩ | ⟨hs, rfl⟩ | ⟨hs, rfl⟩ := hs
    · exact ⟨.inl hs, rfl⟩
    · exact ⟨hs, rfl⟩
    · exact ⟨hs, rfl⟩
  | yield hs =>
    refine h.move hlost (List.append_nil _) ?_ rfl rfl rfl h.reserved
    exact ⟨ht, .inl ⟨.inl hs, rfl⟩⟩
  | staging hs =>
    refine h.move hlost (List.append_nil _) ?_ rfl rfl rfl fun _ => h.reserved (.inr (.inl hs))
    exact ⟨ht, .inl ⟨.inr (.inl rfl), rfl⟩⟩
  | wait hs =>
    refine h.move hlost (List.append_nil _) ?_ rfl rfl rfl h.reserved
    refine ⟨ht, ?_⟩
    obtain ⟨hf, -⟩ | hf := hf
    · exact .inl ⟨hf, rfl⟩
    · exact .inr hf

theorem Inv.complete (h : d.Inv) {action : SendAction} (hd : d.driver = .ready action) :
    Inv { d with shared := d.shared.complete, driver := after action } := by
  have hf := h.fits
  unfold Fits at hf
  have hb : d.shared.buffer = [] := by cases action <;> simp only [hd] at hf <;> exact hf.2
  refine h.restate ?_ (by simp [hd]) rfl rfl rfl rfl hb.symm rfl ?_
  · unfold Fits
    cases action <;> cases hs : d.shared.state <;>
      simp_all [Shared.complete, after, State.staged, State.ended]
  · have hr := h.reserved
    cases hs : d.shared.state <;> simp_all [Shared.complete]

/-- A lease that is dropped takes the rest of its fragment along. -/
theorem Inv.revoke (h : d.Inv) : Inv { d with shared := d.shared.revoke, driver := .lost } := by
  have hwire : d.wire <+: d.frames := by
    obtain hc | ⟨-, hc⟩ := h.carried
    · exact hc ▸ List.prefix_append _ _
    · exact hc
  have hended : d.shared.revoke.state.ended = true := by
    show (if d.shared.state = .failed then State.failed else .abort).ended = true
    split_ifs <;> rfl
  refine ⟨hended, fun hs => ?_, h.fitsId, h.size, h.chunks, .inr ⟨rfl, hwire⟩⟩
  obtain hs | hs | hs := hs <;> rw [show d.shared.revoke.state = _ from hs] at hended <;>
    cases hended

/-- What one step does. -/
theorem Inv.next (h : d.Inv) {a : Action} (ha : d.Timely a) (hn : d.next a d') : d'.Inv := by
  cases a with
  | write buf outcome =>
    obtain ⟨-, -, rfl⟩ := hn
    exact h.write buf outcome
  | finish =>
    obtain ⟨-, rfl⟩ := hn
    exact h.finish ha false
  | close =>
    obtain ⟨-, rfl⟩ := hn
    exact h.finish ha d.handle
  | drop =>
    obtain ⟨-, rfl⟩ := hn
    exact h.setAborted ha _ false
  | start =>
    obtain rfl := hn
    exact h.restate h.fits id rfl rfl rfl rfl rfl rfl h.reserved
  | poll =>
    obtain ⟨hd, rfl⟩ := hn
    exact h.poll hd
  | grant maxFragmentSize =>
    obtain ⟨hd, hm, rfl⟩ := hn
    exact h.grant hd hm
  | turn n fails =>
    obtain ⟨yielded, hd, rfl⟩ := hn
    exact h.turn hd n fails
  | complete =>
    obtain ⟨action, hd, rfl⟩ := hn
    exact h.complete hd
  | revoke =>
    obtain ⟨-, rfl⟩ := hn
    exact h.revoke
  | discard =>
    obtain ⟨hd, rfl⟩ := hn
    exact h.discard hd _
  | pool window =>
    obtain rfl := hn
    exact h.restate h.fits id rfl rfl rfl rfl rfl rfl h.reserved

theorem Inv.run {kind : Kind} {id : MsgId} {limits : Limits}
    (h : (system kind id limits).Run Timely d) : d.Inv := by
  refine h.invariant ?_ ?_
  · rintro d ⟨hid, hm, window, rfl⟩
    exact inv_new hid hm window
  · intro d a d' hd ha hn
    exact hd.next ha hn

/-! ### Decisions -/

/-- A decision of the producer stands. -/
theorem Inv.ended_next (h : d.Inv) {a : Action} (hn : d.next a d')
    (he : d.shared.state.ended = true) : d'.shared.state.ended = true := by
  cases a with
  | write buf outcome =>
    obtain ⟨-, -, rfl⟩ := hn
    have hwrites := Shared.pollWrite_writes d.window buf outcome fun hs => h.reserved (.inr hs)
    show (d.shared.pollWrite d.window buf outcome).shared.state.ended = true
    generalize d.shared.pollWrite d.window buf outcome = r at hwrites
    cases hwrites with
    | idle => exact he
    | more hs => obtain hs | hs := hs <;> simp [hs, State.ended] at he
    | stage hs => obtain hs | hs := hs <;> simp [hs, State.ended] at he
    | demand hs | direct hs | blocked hs | failed hs => simp [hs, State.ended] at he
  | finish | close =>
    obtain ⟨-, rfl⟩ := hn
    show d.shared.finish.state.ended = true
    unfold Shared.finish
    cases hs : d.shared.state <;> rfl
  | drop | discard =>
    obtain ⟨-, rfl⟩ := hn
    show (d.shared.setAborted d.window).1.state.ended = true
    unfold Shared.setAborted
    cases hs : d.shared.state <;> simp [State.ended]
  | start | pool =>
    obtain rfl := hn
    exact he
  | poll =>
    obtain ⟨-, rfl⟩ := hn
    exact he
  | grant maxFragmentSize =>
    obtain ⟨hd, -, rfl⟩ := hn
    have hf := h.fits
    unfold Fits at hf
    simp only [hd] at hf
    obtain ⟨hs, -⟩ | ⟨-, hheld⟩ := hf
    · simp [hs, State.ended] at he
    · show (d.shared.grant maxFragmentSize).state.ended = true
      rw [show (d.shared.grant maxFragmentSize).state = d.shared.state from if_neg hheld.ne_nil]
      exact he
  | turn n fails =>
    obtain ⟨yielded, hd, rfl⟩ := hn
    have hf := h.fits
    unfold Fits at hf
    simp only [hd] at hf
    have hturns := Shared.waitFragment_turns yielded n fails hf.1
    show (d.shared.waitFragment yielded n fails).1.state.ended = true
    generalize d.shared.waitFragment yielded n fails = r at hturns
    cases hturns with
    | failed | pending | ready | wait | yield => exact he
    | error => rfl
    | staging hs => simp [hs, State.ended] at he
  | complete =>
    obtain ⟨action, -, rfl⟩ := hn
    show d.shared.complete.state.ended = true
    unfold Shared.complete
    cases hs : d.shared.state <;> simp_all [State.ended]
  | revoke =>
    obtain ⟨-, rfl⟩ := hn
    show (if d.shared.state = .failed then State.failed else .abort).ended = true
    split_ifs <;> rfl

/-- What the driver does by itself, while the transport takes what it is handed. -/
inductive Drives : Sending → Sending → Prop
  | poll {d : Sending} (hd : d.driver = .away) : Drives d d.poll
  | grant {d : Sending} (hd : d.driver = .polled) :
      Drives d { d with
        shared := d.shared.grant d.shared.maxFragmentSize, driver := .leased false }
  | turn {d : Sending} {yielded : Bool} (hd : d.driver = .leased yielded) :
      Drives d (d.turn yielded d.shared.buffer.length false)
  | complete {d : Sending} {action : SendAction} (hd : d.driver = .ready action) :
      Drives d { d with shared := d.shared.complete, driver := after action }

/-- The driver's own steps are steps of the trailer. -/
theorem Drives.next (h : d.Drives d') (hinv : d.Inv) : ∃ a, d.Timely a ∧ d.next a d' := by
  cases h with
  | poll hd => exact ⟨.poll, trivial, hd, rfl⟩
  | grant hd => exact ⟨.grant d.shared.maxFragmentSize, trivial, hd, hinv.size, rfl⟩
  | turn hd => exact ⟨.turn d.shared.buffer.length false, trivial, _, hd, rfl⟩
  | complete hd => exact ⟨.complete, trivial, _, hd, rfl⟩

/-- How many steps of the driver are left, once a decision is taken. -/
def rank (d : Sending) : ℕ :=
  match d.driver with
  | .away => if d.shared.state = .fragmentFinish then 5 else 1
  | .polled => 4
  | .leased _ => 3
  | .ready _ => 2
  | .finished | .aborted | .lost => 0

/-- A turn that flushes all that is staged reports the decision. -/
theorem waitFragment_ended {s : Shared} (yielded : Bool) (ht : s.token = true)
    (he : s.state.ended = true) (hs : s.state ≠ .failed) :
    ∃ action, (s.waitFragment yielded s.buffer.length false).2.2 = .ready action ∧
      (s.waitFragment yielded s.buffer.length false).1.state = s.state := by
  unfold Shared.waitFragment Shared.flush
  by_cases hb : s.buffer = []
  · cases h : s.state <;> simp_all [State.ended]
  · cases h : s.state <;> simp_all [State.ended]

/-- The decisions, while the transport works. -/
theorem ended_cases {state : State} (he : state.ended = true) (hs : state ≠ .failed) :
    state = .finish ∨ state = .fragmentFinish ∨ state = .abort := by
  cases state <;> simp_all [State.ended]

/-- After a decision, a step of the driver brings it nearer to its end. -/
theorem Inv.drives (h : d.Inv) (he : d.shared.state.ended = true) (hs : d.shared.state ≠ .failed)
    (hlost : d.driver ≠ .lost) (hopen : d.driver ≠ .finished ∧ d.driver ≠ .aborted) :
    ∃ d', d.Drives d' ∧ d'.shared.state ≠ .failed ∧ d'.driver ≠ .lost ∧ d'.rank < d.rank := by
  have hf := h.fits
  unfold Fits at hf
  cases hd : d.driver with
  | away =>
    refine ⟨_, .poll hd, hs, ?_, ?_⟩
    · simp only [Sending.poll]
      cases d.shared.pollAction with
      | none => simp
      | some action => cases action <;> simp
    · simp only [rank, hd, Sending.poll, Shared.pollAction]
      obtain hst | hst | hst := ended_cases he hs <;> simp [hst]
  | polled =>
    refine ⟨_, .grant hd, ?_, by simp, by simp [rank, hd]⟩
    simp only [hd] at hf
    obtain ⟨hdemand, -⟩ | ⟨-, hheld⟩ := hf
    · simp [hdemand, State.ended] at he
    · show (d.shared.grant _).state ≠ .failed
      rw [show (d.shared.grant d.shared.maxFragmentSize).state = d.shared.state from
        if_neg hheld.ne_nil]
      exact hs
  | leased yielded =>
    simp only [hd] at hf
    obtain ⟨action, hready, hstate⟩ := waitFragment_ended yielded hf.1 he hs
    refine ⟨_, .turn hd, ?_, ?_, ?_⟩
    · show (d.shared.waitFragment yielded d.shared.buffer.length false).1.state ≠ .failed
      rw [hstate]
      exact hs
    · simp [Sending.turn, hready]
    · simp [rank, hd, Sending.turn, hready]
  | ready action =>
    refine ⟨_, .complete hd, ?_, ?_, ?_⟩
    · simp only [Shared.complete]
      cases hst : d.shared.state <;> simp_all
    · cases action <;> simp [after]
    · simp only [rank, hd, Shared.complete]
      cases action <;> obtain hst | hst | hst := ended_cases he hs <;> simp [hst, after]
  | finished => exact absurd hd hopen.1
  | aborted => exact absurd hd hopen.2
  | lost => exact absurd hd hlost

/-- After a decision the driver comes to its end by its own steps: it never waits for the producer. -/
theorem Inv.drives_to_end (h : d.Inv) (he : d.shared.state.ended = true)
    (hs : d.shared.state ≠ .failed) (hlost : d.driver ≠ .lost) :
    ∃ d', Relation.ReflTransGen Drives d d' ∧ (d'.driver = .finished ∨ d'.driver = .aborted) := by
  induction hrank : d.rank using Nat.strong_induction_on generalizing d with
  | _ n ih =>
    by_cases hopen : d.driver ≠ .finished ∧ d.driver ≠ .aborted
    · obtain ⟨d', hdrives, hs', hlost', hlt⟩ := h.drives he hs hlost hopen
      obtain ⟨a, ha, hn⟩ := hdrives.next h
      obtain ⟨d'', hrest, hend⟩ :=
        ih d'.rank (hrank ▸ hlt) (h.next ha hn) (h.ended_next hn he) hs' hlost' rfl
      exact ⟨d'', .head hdrives hrest, hend⟩
    · rw [not_and_or, not_not, not_not] at hopen
      exact ⟨d, .refl, hopen⟩

/-- What a trailer keeps to. -/
structure Reliable (d : Sending) : Prop where
  /-- A decision stands. -/
  ended : ∀ a d', d.next a d' → d.shared.state.ended = true → d'.shared.state.ended = true
  /-- After a decision the driver comes to see it. -/
  seen : d.shared.state.ended = true → d.shared.state ≠ .failed → d.driver ≠ .lost →
    ∃ d', Relation.ReflTransGen Drives d d' ∧ (d'.driver = .finished ∨ d'.driver = .aborted)
  /-- A producer that may write holds credit. -/
  reserved : d.shared.state = .granted ∨ d.shared.state = .staging → 0 < d.shared.reserved
  /-- The wire carries what was accepted, and nothing else. -/
  wire : d.wire <+: d.frames
  /-- Between leases it carries all of it, but for a last fragment that is staged. -/
  whole : d.driver = .away ∨ d.driver = .polled ∨ d.driver = .aborted →
    d.wire = d.frames ∨ ∃ front chunk, d.accepted = front ++ [chunk] ∧
      d.wire = front.flatMap (frame d.shared.kind d.shared.id)
  /-- A trailer that is finished is on the wire as a whole. -/
  finished : d.driver = .finished → d.wire = d.frames
  /-- Every chunk is read back from its fragment. -/
  chunks : ∀ chunk ∈ d.accepted, chunk ≠ [] ∧ ∀ rest,
    readFragment (frame d.shared.kind d.shared.id chunk ++ rest) =
      some (.ok (dataHeader d.shared.kind d.shared.id chunk.length, chunk, rest))

theorem Inv.wire_prefix (h : d.Inv) : d.wire <+: d.frames := by
  obtain hc | ⟨-, hc⟩ := h.carried
  · exact hc ▸ List.prefix_append _ _
  · exact hc

/-- A fragment that is staged as a whole is what the wire lacks. -/
theorem Held.wire (h : d.Held) (hw : d.wire ++ d.shared.buffer = d.frames) :
    ∃ front chunk, d.accepted = front ++ [chunk] ∧
      d.wire = front.flatMap (frame d.shared.kind d.shared.id) := by
  obtain ⟨front, chunk, hacc, hb⟩ := h
  refine ⟨front, chunk, hacc, ?_⟩
  rw [frames, hacc, hb, List.flatMap_append, List.flatMap_singleton] at hw
  exact List.append_cancel_right hw

theorem Inv.between (h : d.Inv)
    (hd : d.driver = .away ∨ d.driver = .polled ∨ d.driver = .aborted) :
    d.wire = d.frames ∨ ∃ front chunk, d.accepted = front ++ [chunk] ∧
      d.wire = front.flatMap (frame d.shared.kind d.shared.id) := by
  have hw := h.whole (by obtain hd | hd | hd := hd <;> simp [hd])
  have hempty : d.shared.buffer = [] ∨ d.Held := by
    have hf := h.fits
    unfold Fits at hf
    obtain hd | hd | hd := hd <;> simp only [hd] at hf <;> tauto
  obtain hb | hheld := hempty
  · rw [hb, List.append_nil] at hw
    exact .inl hw
  · exact .inr (hheld.wire hw)

/-- The producer of a trailer loses no decision and no byte, whatever order the sections come in, as
long as no decision comes between a poll that found a demand and the grant that answers it. -/
theorem reliable_of_timely {kind : Kind} {id : MsgId} {limits : Limits}
    (h : (system kind id limits).Run Timely d) : d.Reliable := by
  have hd := Inv.run h
  refine ⟨fun a d' hn => hd.ended_next hn, hd.drives_to_end, fun hs => hd.reserved (.inr hs),
    hd.wire_prefix, hd.between, fun hf => ?_, fun chunk hc => ?_⟩
  · have hw := hd.whole (by simp [hf])
    have hfits := hd.fits
    unfold Fits at hfits
    simp only [hf] at hfits
    rwa [hfits.2, List.append_nil] at hw
  · obtain ⟨hne, hlen⟩ := hd.chunks chunk hc
    have hmax : u32Max < 2 ^ 32 := by decide
    exact ⟨hne, readFragment_frame hd.fitsId (hlen.trans_lt hmax)⟩

/-- A session without a threshold for copies: every write waits for its grant. -/
def eager : Limits := { trailerSendCopyThreshold := 0 }

/-- Two bytes go out in two pieces, cut within the header, and the trailer is finished. -/
theorem reliable_two :
    ∃ d, (system .request 5 eager).Run Timely d ∧ d.driver = .finished ∧
      d.accepted = [[1, 2]] ∧ d.wire = frame .request 5 [1, 2] := by
  let d0 := new (.new .request 5 eager) (.new 16)
  let d1 : Sending := { d0 with shared := { d0.shared with started := true } }
  let d2 := d1.write [1, 2] .pending
  let d3 := d2.poll
  let d4 : Sending := { d3 with shared := d3.shared.grant 100, driver := .leased false }
  let d5 := d4.write [1, 2] (.takes 7)
  let d6 : Sending := { d5 with shared := d5.shared.finish, handle := false }
  let d7 := d6.turn false 100 false
  let d8 : Sending := { d7 with shared := d7.shared.complete, driver := after .fragment }
  have h0 : (system .request 5 eager).Run Timely d0 := .start ⟨by decide, by decide, _, rfl⟩
  have h1 := h0.step (a := Action.start) (t := d1) trivial rfl
  have h2 := h1.step (a := Action.write [1, 2] .pending) (t := d2) trivial
    ⟨rfl, by simp, rfl⟩
  have h3 := h2.step (a := Action.poll) (t := d3) trivial ⟨rfl, rfl⟩
  have h4 := h3.step (a := Action.grant 100) (t := d4) trivial ⟨rfl, by decide, rfl⟩
  have h5 := h4.step (a := Action.write [1, 2] (.takes 7)) (t := d5) trivial
    ⟨rfl, fun n hn => by cases hn; decide, rfl⟩
  have h6 := h5.step (a := Action.finish) (t := d6) (fun h => by cases h.1) ⟨rfl, rfl⟩
  have h7 := h6.step (a := Action.turn 100 false) (t := d7) trivial ⟨false, rfl, rfl⟩
  have h8 := h7.step (a := Action.complete) (t := d8) trivial ⟨.fragment, rfl, rfl⟩
  have h9 := h8.step (a := Action.poll) (t := d8.poll) trivial ⟨rfl, rfl⟩
  exact ⟨_, h9, rfl, rfl, (reliable_of_timely h9).finished rfl⟩

/-- A fragment that is staged when the producer drops its handle never goes out. And a producer that
finishes between the poll and the grant is forgotten: the driver then waits for a write. -/
theorem staged_lost :
    (∃ d, (system .request 5 {}).Reachable d ∧ d.driver = .aborted ∧ d.accepted = [[1, 2]] ∧
      d.wire = []) ∧
    ∃ d d' a, (system .request 5 eager).Reachable d ∧ d.next a d' ∧ d.shared.state = .finish ∧
      d'.shared.state = .granted := by
  constructor
  · let d0 := new (.new .request 5 {}) (.new 16)
    let d1 : Sending := { d0 with shared := { d0.shared with started := true } }
    let d2 := d1.write [1, 2] .pending
    let d3 : Sending := { d2 with
      shared := (d2.shared.setAborted d2.window).1, window := (d2.shared.setAborted d2.window).2
      handle := false }
    have h0 : (system .request 5 {}).Reachable d0 := .start ⟨by decide, by decide, _, rfl⟩
    have h1 := h0.step (a := Action.start) (t := d1) trivial rfl
    have h2 := h1.step (a := Action.write [1, 2] .pending) (t := d2) trivial
      ⟨rfl, by simp, rfl⟩
    have h3 := h2.step (a := Action.drop) (t := d3) trivial ⟨rfl, rfl⟩
    have h4 := h3.step (a := Action.poll) (t := d3.poll) trivial ⟨rfl, rfl⟩
    exact ⟨_, h4, rfl, rfl, rfl⟩
  · let d0 := new (.new .request 5 eager) (.new 16)
    let d1 : Sending := { d0 with shared := { d0.shared with started := true } }
    let d2 := d1.write [1, 2] .pending
    let d3 := d2.poll
    let d4 : Sending := { d3 with shared := d3.shared.finish, handle := false }
    have h0 : (system .request 5 eager).Reachable d0 := .start ⟨by decide, by decide, _, rfl⟩
    have h1 := h0.step (a := Action.start) (t := d1) trivial rfl
    have h2 := h1.step (a := Action.write [1, 2] .pending) (t := d2) trivial
      ⟨rfl, by simp, rfl⟩
    have h3 := h2.step (a := Action.poll) (t := d3) trivial ⟨rfl, rfl⟩
    have h4 := h3.step (a := Action.finish) (t := d4) trivial ⟨rfl, rfl⟩
    exact ⟨d4, _, .grant 100, h4, ⟨rfl, by decide, rfl⟩, rfl, rfl⟩

end Sending

end Dolang.Rpc
