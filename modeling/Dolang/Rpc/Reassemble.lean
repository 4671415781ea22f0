import Dolang.Rpc.Trailer

/-!
# Reassembly

The `Reassembler` of `fragment.rs`. `accept` takes one fragment and says what the endpoint has to do
about it. The records behind the `Arc`s of trailers stand in the list `trailers`, and an `Arc` is an
index into it; a trailer stays there when its message has left `incomplete`, as its consumer still
holds it.

`accept` is cut along the branches of the source: the control kinds, an abort, the checks that
the message is there and in the right phase, the end of a trailer, a message in one fragment, trailer
data and payload data. `accept_cases` lists what an accepted fragment can do, with all the checks it
passed.
-/

namespace Dolang.Rpc

/-- A message handed to the endpoint. Its charge is the debt under its id. -/
structure Message where
  kind : Kind
  id : MsgId
  payload : List UInt8
  handles : ℕ
  trailer : Option ℕ
  deriving DecidableEq, Repr

/-- What an endpoint has to do about a fragment. -/
inductive Event where
  | none
  | payloadIncomplete (id : MsgId)
  | aborted (kind : Kind) (id : MsgId) (dispatched : Bool)
  | message (message : Message)
  | ack (id : MsgId) (message : Option Message)
  | trailer (shared len : ℕ)
  | payloadCredit (count : ℕ)
  | release (id : ℕ) (count : ℕ)
  | credit (id : MsgId) (count : ℕ)
  deriving DecidableEq, Repr

/-- A message whose fragments are still arriving. -/
structure Incomplete where
  kind : Kind
  postcard : List UInt8 := []
  handles : ℕ := 0
  trailer : Option ℕ := none
  dispatched : Bool := false
  trailerPhase : Bool := false
  wantAckBoundary : Bool := false
  deriving DecidableEq, Repr

/-- The receiving half of an endpoint. -/
structure Reassembler where
  limits : Limits
  incomplete : Table MsgId Incomplete
  payloadPhase : ℕ
  sessionCredit : SessionWindow
  payloadCredit : SessionWindow
  trailers : List RecvShared

namespace Reassembler

/-- What accepting a fragment yields: the state after it, the event, and what goes to the outgoing
channel. -/
structure Accepted where
  reassembler : Reassembler
  event : Event
  out : List Sink := []

/-- A reassembler that has seen nothing. -/
def new (limits : Limits) : Reassembler where
  limits
  incomplete := ∅
  payloadPhase := 0
  sessionCredit := .new limits.trailerSessionWindow
  payloadCredit := .new limits.maxOutstandingPayload
  trailers := []

/-- Messages whose payload is still arriving. -/
def payloadIncomplete (r : Reassembler) : ℕ :=
  r.payloadPhase

/-- Fails with a message. -/
def fail {α : Type} (message : String) : Except Error α :=
  .error (.protocol message)

/-- Fails with `message` unless `ok`. -/
def check (ok : Bool) (message : String) : Except Error Unit :=
  if ok then .ok () else fail message

/-- A check passes what comes after it, or fails. -/
@[simp] theorem check_bind_eq_ok {α : Type} {ok : Bool} {message : String}
    {k : Unit → Except Error α} {a : α} :
    (check ok message >>= k) = .ok a ↔ ok = true ∧ k () = .ok a := by
  cases ok <;> simp [check, fail, bind, Except.bind]

theorem bind_eq_ok {α β : Type} {x : Except Error α} {k : α → Except Error β} {b : β} :
    (x >>= k) = .ok b ↔ ∃ a, x = .ok a ∧ k a = .ok b := by
  cases x <;> simp [bind, Except.bind]

@[simp] theorem fail_eq_ok {α : Type} {message : String} {a : α} :
    (fail message : Except Error α) = .ok a ↔ False := by
  simp [fail]

/-- The shape of a control fragment with `len` bytes. -/
def isControl (f : Fragment) (len : ℕ) : Bool :=
  let g := f.header.flags
  g.first && g.last && !g.abort && !g.trailer && !g.wantAck && f.header.payloadLen == len &&
    f.headFds == 0

/-- A control fragment that carries a count: `Release`, `Credit` and `PayloadCredit`. -/
def acceptCount (r : Reassembler) (f : Fragment) (invalid zero : String) (event : ℕ → Event) :
    Except Error Accepted := do
  check (isControl f 4) invalid
  let count := Bytes.ofLe (f.payload.take 4)
  check (count != 0) zero
  return { reassembler := r, event := event count }

/-- What an `ABORT` does to the message of `entry`. Whatever it holds of the quota is settled here. -/
def abortEntry (r : Reassembler) (h : FragmentHeader) (entry : Incomplete) : Accepted :=
  let (payloadCredit, out) := releaseCharge r.payloadCredit h.id
  { reassembler := { r with
      incomplete := r.incomplete.erase h.id
      payloadPhase := if entry.trailerPhase then r.payloadPhase else r.payloadPhase - 1
      trailers := match entry.trailer with
        | some shared => r.trailers.modify shared RecvShared.fail
        | none => r.trailers
      payloadCredit }
    event := .aborted entry.kind h.id entry.dispatched
    out }

/-- An `ABORT` fragment of a message, after the handshake. -/
def acceptAbort (r : Reassembler) (f : Fragment) : Except Error Accepted := do
  let h := f.header
  check (f.headFds == 0) "ABORT fragment contains file descriptor attachments"
  check (!h.flags.first && !h.flags.last && !h.flags.trailer && h.payloadLen == 0)
    "invalid ABORT fragment"
  match r.incomplete.lookup h.id with
  | none => fail s!"ABORT for message {h.id} with no active fragments"
  | some entry =>
    check (entry.kind == h.kind)
      s!"{h.kind.name} ABORT for message {h.id}, which is not a {h.kind.name}"
    return r.abortEntry h entry

/-- A fragment after the first belongs to a trailer once the payload has ended. -/
def inTrailer (r : Reassembler) (h : FragmentHeader) : Bool :=
  !h.flags.first && (r.incomplete.lookup h.id).any (·.trailerPhase)

/-- What the end of its trailer does to the message of `entry`, whose payload has installed the
trailer's stream. -/
def commitEntry (r : Reassembler) (h : FragmentHeader) (entry : Incomplete) : Accepted :=
  let r' := { r with incomplete := r.incomplete.erase h.id }
  match entry.trailer.bind fun shared => (r.trailers[shared]?).map (shared, ·) with
  | none => { reassembler := r', event := .none }
  | some (shared, s) =>
    let (s, sessionCredit, out) := s.finish r.sessionCredit
    { reassembler := { r' with trailers := r.trailers.set shared s, sessionCredit }
      event := .none
      out }

/-- The end of a trailer. -/
def acceptCommit (r : Reassembler) (h : FragmentHeader) (entry : Incomplete) :
    Except Error Accepted := do
  check (h.payloadLen == 0) "trailer commit fragment must not carry a payload"
  return r.commitEntry h entry

/-- The descriptors of a fragment and of its message stay within their limits, and only a request
or a response carries any. -/
def checkHandles (r : Reassembler) (f : Fragment) (held : ℕ) : Except Error Unit := do
  let fds := f.headFds + f.bodyFds
  check (decide (fds ≤ r.limits.maxHandlesPerFragment))
    s!"fragment for message {f.header.id} exceeds the maximum native-handle count"
  check (decide (held + fds ≤ r.limits.maxHandlesPerMessage))
    s!"message {f.header.id} exceeds the maximum native-handle count"
  check (f.header.kind == .request || f.header.kind == .response || fds == 0)
    s!"{f.header.kind.name} fragment contains file descriptor attachments"

/-- A completed message, with an acknowledgement when its last fragment asks for one. -/
def deliver (h : FragmentHeader) (m : Message) : Event :=
  if h.flags.wantAck then .ack h.id (some m) else .message m

/-- Charges the payload of a fragment to its message. -/
def charge (r : Reassembler) (h : FragmentHeader) : Except Error SessionWindow :=
  match r.payloadCredit.acceptBytes h.id h.payloadLen with
  | none => fail s!"message {h.id} exceeded the session payload quota"
  | some w => .ok w

/-- A message in one fragment. -/
def wholeMessage (f : Fragment) : Message where
  kind := f.header.kind
  id := f.header.id
  payload := f.payload
  handles := f.headFds + f.bodyFds
  trailer := none

/-- A message in one fragment arrives. -/
def acceptWhole (r : Reassembler) (f : Fragment) : Except Error Accepted := do
  let payloadCredit ← r.charge f.header
  r.checkHandles f 0
  return {
    reassembler := { r with payloadCredit }
    event := deliver f.header (wholeMessage f) }

/-- Trailer data for the message of `entry`. -/
def acceptTrailer (r : Reassembler) (h : FragmentHeader) (entry : Incomplete) :
    Except Error Accepted :=
  match entry.trailer.bind fun shared => (r.trailers[shared]?).map (shared, ·) with
  | none => .ok { reassembler := r, event := .none }
  | some (shared, s) =>
    match s.acceptBytes r.sessionCredit h.payloadLen with
    | none => fail s!"message {h.id} exceeded the session trailer credit window"
    | some (s, sessionCredit) => .ok {
        reassembler := { r with trailers := r.trailers.set shared s, sessionCredit }
        event := .trailer shared h.payloadLen }

/-- What is announced of a payload that goes on. Only its first fragment announces it. -/
def progress (h : FragmentHeader) : Event :=
  if h.flags.wantAck then .ack h.id none
  else if h.flags.first then .payloadIncomplete h.id else .none

/-- What a payload fragment does to its entry and to the rest, once its bytes are in `entry`. -/
def advanceEntry (r : Reassembler) (h : FragmentHeader) (entry : Incomplete) : Accepted :=
  if h.flags.trailer then
    let shared := r.trailers.length
    { reassembler := { r with
        incomplete := r.incomplete.insert h.id { entry with
          postcard := [], handles := 0, trailer := some shared, dispatched := true,
          trailerPhase := true }
        payloadPhase := r.payloadPhase - 1
        trailers := r.trailers ++ [RecvShared.new r.limits h.id] }
      event := deliver h {
        kind := h.kind, id := h.id, payload := entry.postcard, handles := entry.handles
        trailer := some shared } }
  else if h.flags.last then
    { reassembler := { r with
        incomplete := r.incomplete.erase h.id
        payloadPhase := r.payloadPhase - 1 }
      event := deliver h {
        kind := h.kind, id := h.id, payload := entry.postcard, handles := entry.handles
        trailer := none } }
  else
    { reassembler := { r with incomplete := r.incomplete.insert h.id entry }
      event := progress h }

/-- An entry with the bytes and descriptors of a payload fragment added. -/
def extendEntry (entry : Incomplete) (f : Fragment) : Incomplete :=
  { entry with
    postcard := entry.postcard ++ f.payload
    handles := entry.handles + (f.headFds + f.bodyFds)
    wantAckBoundary := entry.wantAckBoundary || f.header.flags.wantAck }

/-- Payload data. -/
def acceptPayload (r : Reassembler) (f : Fragment) (entry : Incomplete) : Except Error Accepted := do
  let h := f.header
  check (decide (entry.postcard.length + h.payloadLen ≤ r.limits.maxPayloadSize))
    s!"message {h.id} exceeds the maximum payload size"
  let payloadCredit ← r.charge h
  r.checkHandles f entry.handles
  return advanceEntry { r with payloadCredit } h (extendEntry entry f)

/-- The largest payload that a fragment may have. -/
def fragmentLimit (r : Reassembler) (h : FragmentHeader) : ℕ :=
  if h.flags.first && h.flags.last then r.limits.maxPayloadSize else r.limits.maxFragmentSize

/-- A further fragment of the message of `entry`. -/
def acceptNext (r : Reassembler) (f : Fragment) (entry : Incomplete) : Except Error Accepted := do
  let h := f.header
  if entry.trailerPhase && h.flags.last then r.acceptCommit h entry
  else
    check (decide (h.payloadLen ≤ r.fragmentLimit h))
      s!"fragment of {h.payloadLen} bytes for message {h.id} exceeds the limit of {r.fragmentLimit h}"
    if entry.trailerPhase then r.acceptTrailer h entry else r.acceptPayload f entry

/-- The first fragment of a message. -/
def acceptFirst (r : Reassembler) (f : Fragment) : Except Error Accepted := do
  let h := f.header
  check (decide (h.payloadLen ≤ r.fragmentLimit h))
    s!"fragment of {h.payloadLen} bytes for message {h.id} exceeds the limit of {r.fragmentLimit h}"
  if h.flags.last then r.acceptWhole f
  else acceptPayload { r with payloadPhase := r.payloadPhase + 1 } f { kind := h.kind }

/-- A fragment of a message, after the control kinds and aborts. -/
def acceptData (r : Reassembler) (f : Fragment) : Except Error Accepted := do
  let h := f.header
  check (!(h.flags.last && h.flags.trailer))
    "TRAILER and LAST are mutually exclusive: a payload followed by a trailer has more fragments coming"
  check (!(r.inTrailer h && f.headFds != 0)) "trailer fragment contains file descriptor attachments"
  if h.flags.first then
    check (!decide (h.id ∈ r.incomplete)) s!"duplicate FIRST fragment for message {h.id}"
    check (h.flags.last || decide (r.payloadPhase < r.limits.maxConcurrentCalls))
      "too many incomplete messages"
    r.acceptFirst f
  else
    match r.incomplete.lookup h.id with
    | none => fail s!"fragment for message {h.id} without an active message"
    | some entry =>
      check (entry.kind == h.kind) s!"inconsistent message kind for message {h.id}"
      check (!(entry.trailerPhase && h.flags.trailer))
        s!"message {h.id} announced its payload boundary twice"
      check (!(entry.wantAckBoundary && !entry.trailerPhase))
        s!"message {h.id} cannot continue after a WANT_ACK boundary"
      r.acceptNext f entry

/-- A fragment by its kind, after the checks that all kinds share. -/
def acceptKind (r : Reassembler) (f : Fragment) : Except Error Accepted :=
  let h := f.header
  match h.kind with
  | .release =>
    r.acceptCount f "invalid Release fragment" "Release fragment must drop at least one reference"
      (.release h.id)
  | .credit =>
    r.acceptCount f "invalid Credit fragment" "Credit fragment must release at least one byte"
      (.credit h.id)
  | .payloadCredit => do
    check (isControl f 4) "invalid PayloadCredit fragment"
    check (h.id == 0) "PayloadCredit fragment must not name a message"
    r.acceptCount f "invalid PayloadCredit fragment"
      "PayloadCredit fragment must release at least one byte" .payloadCredit
  | kind => do
    check (!(h.flags.wantAck && (h.flags.abort || !(kind == .request || kind == .response))))
      "invalid WANT_ACK fragment"
    if h.flags.abort then
      if kind = .negotiate then .error (.auth "authentication not provided or not accepted")
      else r.acceptAbort f
    else r.acceptData f

/-- Takes one fragment. -/
def accept (r : Reassembler) (f : Fragment) : Except Error Accepted := do
  check (decide (f.headFds ≤ r.limits.maxHandlesPerFragment))
    s!"fragment for message {f.header.id} exceeds the maximum native-handle count"
  check (f.header.kind != .ack || isControl f 0) "invalid Ack fragment"
  r.acceptKind f

/-! ### What an accepted fragment does -/

@[simp] theorem charge_bind_eq_ok {r : Reassembler} {h : FragmentHeader} {α : Type}
    {k : SessionWindow → Except Error α} {a : α} :
    (r.charge h >>= k) = .ok a ↔
      ∃ w, r.payloadCredit.acceptBytes h.id h.payloadLen = some w ∧ k w = .ok a := by
  unfold charge
  cases r.payloadCredit.acceptBytes h.id h.payloadLen with
  | none => simp [fail, bind, Except.bind]
  | some w => simp [bind, Except.bind]

@[simp] theorem checkHandles_bind_eq_ok {r : Reassembler} {f : Fragment} {held : ℕ} {α : Type}
    {k : Unit → Except Error α} {a : α} :
    (r.checkHandles f held >>= k) = .ok a ↔
      (f.headFds + f.bodyFds ≤ r.limits.maxHandlesPerFragment ∧
        held + (f.headFds + f.bodyFds) ≤ r.limits.maxHandlesPerMessage ∧
        (f.header.kind = .request ∨ f.header.kind = .response ∨ f.headFds + f.bodyFds = 0)) ∧
        k () = .ok a := by
  simp only [checkHandles, bind_assoc, check_bind_eq_ok, decide_eq_true_eq, Bool.or_eq_true,
    beq_iff_eq, or_assoc, and_assoc]

/-- The event of a count of `n`. -/
def countEvent (h : FragmentHeader) (n : ℕ) : Event :=
  match h.kind with
  | .release => .release h.id n
  | .credit => .credit h.id n
  | _ => .payloadCredit n

/-- What an accepted fragment of a message does. Each case has the checks that the fragment
passed. -/
inductive Accepts (r : Reassembler) (f : Fragment) : Accepted → Prop
  | abort {entry : Incomplete} (ha : f.header.flags.abort = true)
      (hl : r.incomplete.lookup f.header.id = some entry) (hk : entry.kind = f.header.kind) :
      Accepts r f (r.abortEntry f.header entry)
  | commit {entry : Incomplete} (ha : f.header.flags.abort = false)
      (hf : f.header.flags.first = false) (hlast : f.header.flags.last = true)
      (ht : f.header.flags.trailer = false)
      (hl : r.incomplete.lookup f.header.id = some entry) (hk : entry.kind = f.header.kind)
      (hp : entry.trailerPhase = true) (h0 : f.header.payloadLen = 0) :
      Accepts r f (r.commitEntry f.header entry)
  | whole {w : SessionWindow} (ha : f.header.flags.abort = false)
      (hf : f.header.flags.first = true) (hlast : f.header.flags.last = true)
      (ht : f.header.flags.trailer = false)
      (hn : f.header.id ∉ r.incomplete)
      (hsize : f.header.payloadLen ≤ r.limits.maxPayloadSize)
      (hw : r.payloadCredit.acceptBytes f.header.id f.header.payloadLen = some w) :
      Accepts r f {
        reassembler := { r with payloadCredit := w }
        event := deliver f.header (wholeMessage f) }
  | trailerData {entry : Incomplete} {a : Accepted} (ha : f.header.flags.abort = false)
      (hf : f.header.flags.first = false) (hlast : f.header.flags.last = false)
      (ht : f.header.flags.trailer = false)
      (hl : r.incomplete.lookup f.header.id = some entry) (hk : entry.kind = f.header.kind)
      (hp : entry.trailerPhase = true) (hsize : f.header.payloadLen ≤ r.limits.maxFragmentSize)
      (h : r.acceptTrailer f.header entry = .ok a) : Accepts r f a
  | opened {w : SessionWindow} (ha : f.header.flags.abort = false)
      (hf : f.header.flags.first = true) (hlast : f.header.flags.last = false)
      (hn : f.header.id ∉ r.incomplete) (hroom : r.payloadPhase < r.limits.maxConcurrentCalls)
      (hsize : f.header.payloadLen ≤ r.limits.maxPayloadSize)
      (hw : r.payloadCredit.acceptBytes f.header.id f.header.payloadLen = some w) :
      Accepts r f (advanceEntry { r with payloadPhase := r.payloadPhase + 1, payloadCredit := w }
        f.header (extendEntry { kind := f.header.kind } f))
  | continued {entry : Incomplete} {w : SessionWindow} (ha : f.header.flags.abort = false)
      (hf : f.header.flags.first = false)
      (hlt : ¬(f.header.flags.last = true ∧ f.header.flags.trailer = true))
      (hl : r.incomplete.lookup f.header.id = some entry) (hk : entry.kind = f.header.kind)
      (hp : entry.trailerPhase = false) (hb : entry.wantAckBoundary = false)
      (hsize : entry.postcard.length + f.header.payloadLen ≤ r.limits.maxPayloadSize)
      (hw : r.payloadCredit.acceptBytes f.header.id f.header.payloadLen = some w) :
      Accepts r f (advanceEntry { r with payloadCredit := w } f.header (extendEntry entry f))

theorem acceptCount_cases {r : Reassembler} {f : Fragment} {invalid zero : String}
    {event : ℕ → Event} {a : Accepted} (h : r.acceptCount f invalid zero event = .ok a) :
    ∃ n, n ≠ 0 ∧ a = { reassembler := r, event := event n } := by
  simp only [acceptCount, check_bind_eq_ok, bne_iff_ne] at h
  obtain ⟨-, hn, h⟩ := h
  exact ⟨_, hn, (Except.ok.inj h).symm⟩

theorem acceptAbort_cases {r : Reassembler} {f : Fragment} {a : Accepted}
    (ha : f.header.flags.abort = true) (h : r.acceptAbort f = .ok a) : Accepts r f a := by
  simp only [acceptAbort, check_bind_eq_ok] at h
  obtain ⟨-, -, h⟩ := h
  cases hl : r.incomplete.lookup f.header.id with
  | none => simp [hl] at h
  | some entry =>
    simp only [hl, check_bind_eq_ok, beq_iff_eq] at h
    obtain ⟨hk, h⟩ := h
    obtain rfl := Except.ok.inj h
    exact .abort ha hl hk

theorem acceptFirst_cases {r : Reassembler} {f : Fragment} {a : Accepted}
    (ha : f.header.flags.abort = false) (hf : f.header.flags.first = true)
    (hlt : ¬(f.header.flags.last = true ∧ f.header.flags.trailer = true))
    (hn : f.header.id ∉ r.incomplete)
    (hroom : f.header.flags.last = true ∨ r.payloadPhase < r.limits.maxConcurrentCalls)
    (h : r.acceptFirst f = .ok a) : Accepts r f a := by
  simp only [acceptFirst, check_bind_eq_ok, decide_eq_true_eq] at h
  obtain ⟨hsize, h⟩ := h
  cases hlast : f.header.flags.last with
  | true =>
    simp only [hlast, if_true, acceptWhole, charge_bind_eq_ok, checkHandles_bind_eq_ok] at h
    simp only [fragmentLimit, hf, hlast, Bool.and_self, if_true] at hsize
    obtain ⟨w, hw, -, h⟩ := h
    obtain rfl := Except.ok.inj h
    have ht : f.header.flags.trailer = false := by simpa [hlast] using hlt
    exact .whole ha hf hlast ht hn hsize hw
  | false =>
    simp only [hlast, Bool.false_eq_true, if_false, acceptPayload, check_bind_eq_ok,
      charge_bind_eq_ok, checkHandles_bind_eq_ok, decide_eq_true_eq] at h
    obtain ⟨hmax, w, hw, -, h⟩ := h
    obtain rfl := Except.ok.inj h
    have hroom : r.payloadPhase < r.limits.maxConcurrentCalls := by simpa [hlast] using hroom
    exact .opened ha hf hlast hn hroom (by simpa using hmax) hw

theorem acceptNext_cases {r : Reassembler} {f : Fragment} {entry : Incomplete} {a : Accepted}
    (ha : f.header.flags.abort = false) (hf : f.header.flags.first = false)
    (hlt : ¬(f.header.flags.last = true ∧ f.header.flags.trailer = true))
    (hl : r.incomplete.lookup f.header.id = some entry) (hk : entry.kind = f.header.kind)
    (hpt : ¬(entry.trailerPhase = true ∧ f.header.flags.trailer = true))
    (hb : ¬(entry.wantAckBoundary = true ∧ entry.trailerPhase = false))
    (h : r.acceptNext f entry = .ok a) : Accepts r f a := by
  simp only [acceptNext] at h
  cases hp : entry.trailerPhase with
  | true =>
    have ht : f.header.flags.trailer = false := by simpa [hp] using hpt
    cases hlast : f.header.flags.last with
    | true =>
      simp only [hp, hlast, Bool.and_self, if_true, acceptCommit, check_bind_eq_ok,
        beq_iff_eq] at h
      obtain ⟨h0, h⟩ := h
      obtain rfl := Except.ok.inj h
      exact .commit ha hf hlast ht hl hk hp h0
    | false =>
      simp only [hp, hlast, Bool.and_false, Bool.false_eq_true, if_false, if_true,
        check_bind_eq_ok, decide_eq_true_eq] at h
      obtain ⟨hsize, h⟩ := h
      exact .trailerData ha hf hlast ht hl hk hp (by simpa [fragmentLimit, hf] using hsize) h
  | false =>
    simp only [hp, Bool.false_and, Bool.false_eq_true, if_false, acceptPayload, check_bind_eq_ok,
      charge_bind_eq_ok, checkHandles_bind_eq_ok, decide_eq_true_eq] at h
    obtain ⟨-, hmax, w, hw, -, h⟩ := h
    obtain rfl := Except.ok.inj h
    exact .continued ha hf hlt hl hk hp (by simpa [hp] using hb) hmax hw

theorem not_and_of_not_and {a b : Bool} (h : (!(a && b)) = true) : ¬(a = true ∧ b = true) := by
  rintro ⟨rfl, rfl⟩
  exact absurd h (by decide)

theorem acceptData_cases {r : Reassembler} {f : Fragment} {a : Accepted}
    (ha : f.header.flags.abort = false) (h : r.acceptData f = .ok a) : Accepts r f a := by
  simp only [acceptData, check_bind_eq_ok] at h
  obtain ⟨hlt, -, h⟩ := h
  have hlt := not_and_of_not_and hlt
  cases hf : f.header.flags.first with
  | true =>
    simp only [hf, if_true, check_bind_eq_ok] at h
    obtain ⟨hn, hroom, h⟩ := h
    exact acceptFirst_cases ha hf hlt (by simpa using hn) (by simpa using hroom) h
  | false =>
    simp only [hf, Bool.false_eq_true, if_false] at h
    cases hl : r.incomplete.lookup f.header.id with
    | none => simp [hl] at h
    | some entry =>
      simp only [hl, check_bind_eq_ok, beq_iff_eq] at h
      obtain ⟨hk, hpt, hb, h⟩ := h
      have hb : ¬(entry.wantAckBoundary = true ∧ entry.trailerPhase = false) := by
        simpa only [Bool.not_eq_true'] using not_and_of_not_and hb
      exact acceptNext_cases ha hf hlt hl hk (not_and_of_not_and hpt) hb h

/-- An accepted fragment is a count, which does not concern the reassembler, or does one of the
things of `Accepts`. -/
theorem accept_cases {r : Reassembler} {f : Fragment} {a : Accepted} (h : r.accept f = .ok a) :
    (f.header.kind.isCount = true ∧
        ∃ n, n ≠ 0 ∧ a = { reassembler := r, event := countEvent f.header n }) ∨
      (f.header.kind.isCount = false ∧ Accepts r f a) := by
  simp only [accept, check_bind_eq_ok] at h
  obtain ⟨-, -, h⟩ := h
  unfold acceptKind at h
  cases hk : f.header.kind
  case release =>
    obtain ⟨n, hn, rfl⟩ := acceptCount_cases (by simpa only [hk] using h)
    exact .inl ⟨rfl, n, hn, by simp only [countEvent, hk]⟩
  case credit =>
    obtain ⟨n, hn, rfl⟩ := acceptCount_cases (by simpa only [hk] using h)
    exact .inl ⟨rfl, n, hn, by simp only [countEvent, hk]⟩
  case payloadCredit =>
    simp only [hk, check_bind_eq_ok] at h
    obtain ⟨n, hn, rfl⟩ := acceptCount_cases h.2.2
    exact .inl ⟨rfl, n, hn, by simp only [countEvent, hk]⟩
  all_goals
    refine .inr ⟨rfl, ?_⟩
    simp only [hk, check_bind_eq_ok] at h
    obtain ⟨-, h⟩ := h
    cases ha : f.header.flags.abort with
    | true =>
      simp only [ha, if_true] at h
      first
        | exact acceptAbort_cases ha h
        | simp at h
    | false =>
      simp only [ha, Bool.false_eq_true, if_false] at h
      exact acceptData_cases ha h

/-- What trailer data does. The payload of the message has installed its trailer, so the first case
does not come up. -/
theorem acceptTrailer_cases {r : Reassembler} {h : FragmentHeader} {entry : Incomplete}
    {a : Accepted} (ha : r.acceptTrailer h entry = .ok a) :
    ((∀ i, entry.trailer = some i → r.trailers[i]? = none) ∧ a = { reassembler := r, event := .none }) ∨
      ∃ i s s' w, entry.trailer = some i ∧ r.trailers[i]? = some s ∧
        s.acceptBytes r.sessionCredit h.payloadLen = some (s', w) ∧
        a = {
          reassembler := { r with trailers := r.trailers.set i s', sessionCredit := w }
          event := .trailer i h.payloadLen } := by
  unfold acceptTrailer at ha
  split at ha
  · rename_i hn
    refine .inl ⟨fun i hi => ?_, (Except.ok.inj ha).symm⟩
    simpa [hi] using hn
  · rename_i i s hs
    obtain ⟨j, ht, hj⟩ := Option.bind_eq_some_iff.1 hs
    obtain ⟨q, hq, he⟩ := Option.map_eq_some_iff.1 hj
    obtain ⟨rfl, rfl⟩ := Prod.mk.inj he
    split at ha
    · simp at ha
    · rename_i s' w hw
      exact .inr ⟨j, q, s', w, ht, hq, hw, (Except.ok.inj ha).symm⟩

/-- What the end of a trailer does. -/
theorem commitEntry_cases (r : Reassembler) (h : FragmentHeader) (entry : Incomplete) :
    ((∀ i, entry.trailer = some i → r.trailers[i]? = none) ∧ r.commitEntry h entry =
        { reassembler := { r with incomplete := r.incomplete.erase h.id }, event := .none }) ∨
      ∃ i s, entry.trailer = some i ∧ r.trailers[i]? = some s ∧ r.commitEntry h entry = {
        reassembler := { r with
          incomplete := r.incomplete.erase h.id
          trailers := r.trailers.set i (s.finish r.sessionCredit).1
          sessionCredit := (s.finish r.sessionCredit).2.1 }
        event := .none
        out := (s.finish r.sessionCredit).2.2 } := by
  unfold commitEntry
  split
  · rename_i hn
    refine .inl ⟨fun i hi => ?_, rfl⟩
    simpa [hi] using hn
  · rename_i i s hs
    obtain ⟨j, ht, hj⟩ := Option.bind_eq_some_iff.1 hs
    obtain ⟨q, hq, he⟩ := Option.map_eq_some_iff.1 hj
    obtain ⟨rfl, rfl⟩ := Prod.mk.inj he
    exact .inr ⟨j, q, ht, hq, rfl⟩

/-- The limits of a session do not change. -/
theorem accept_limits {r : Reassembler} {f : Fragment} {a : Accepted} (h : r.accept f = .ok a) :
    a.reassembler.limits = r.limits := by
  obtain ⟨-, n, -, rfl⟩ | ⟨-, h⟩ := accept_cases h
  · rfl
  cases h with
  | abort => rfl
  | @commit entry =>
    obtain ⟨-, he⟩ | ⟨i, s, -, -, he⟩ := commitEntry_cases r f.header entry
    · rw [he]
    · rw [he]
  | whole => rfl
  | trailerData _ _ _ _ _ _ _ _ h =>
    obtain ⟨-, rfl⟩ | ⟨i, s, s', w, -, -, -, rfl⟩ := acceptTrailer_cases h
    · rfl
    · rfl
  | opened => unfold advanceEntry; split_ifs <;> rfl
  | continued => unfold advanceEntry; split_ifs <;> rfl

/-! ### Overruns

A sender that keeps to its windows is never told that it has exceeded them. That another check does
not say so needs a look at the texts: no other message begins and ends with the same letters. -/

/-- A message has more payload on the way than the session allows. -/
def quotaExceeded (id : MsgId) : Error :=
  .protocol s!"message {id} exceeded the session payload quota"

/-- A message has more trailer bytes on the way than the session allows. -/
def windowExceeded (id : MsgId) : Error :=
  .protocol s!"message {id} exceeded the session trailer credit window"

theorem toString_string (s : String) : toString s = s := rfl

/-- The letters by which the messages of overruns are told from the others. -/
structure Overrun (message : String) : Prop where
  head : message.toList.head? = some 'm'
  last : message.toList.reverse.head? = some 'a' ∨ message.toList.reverse.head? = some 'w'

theorem Overrun.quota (id : MsgId) :
    Overrun s!"message {id} exceeded the session payload quota" where
  head := by simp [toString_string]
  last := by simp [toString_string]

theorem Overrun.window (id : MsgId) :
    Overrun s!"message {id} exceeded the session trailer credit window" where
  head := by simp [toString_string]
  last := by simp [toString_string]

variable {r : Reassembler} {f : Fragment} {α : Type}

/-- A check fails with its message, or what comes after it fails. -/
theorem check_bind_eq_error {ok : Bool} {message : String} {k : Unit → Except Error α} {e : Error}
    (h : (check ok message >>= k) = .error e) :
    e = .protocol message ∨ (ok = true ∧ k () = .error e) := by
  cases ok with
  | true => exact .inr ⟨rfl, h⟩
  | false => exact .inl (Except.error.inj h).symm

/-- An overrun is not found by a check whose message ends, or begins, with another letter. -/
theorem Overrun.check {ok : Bool} {message text : String} {k : Unit → Except Error α}
    (ho : Overrun message) (h : (check ok text >>= k) = .error (.protocol message))
    (ht : ¬Overrun text) : ok = true ∧ k () = .error (.protocol message) := by
  obtain he | h := check_bind_eq_error h
  · obtain rfl := Error.protocol.inj he
    exact absurd ho ht
  · exact h

theorem not_overrun_of_head {text : String} (h : text.toList.head? ≠ some 'm') : ¬Overrun text :=
  fun ho => h ho.head

theorem not_overrun_of_last {text : String}
    (h : text.toList.reverse.head? ≠ some 'a' ∧ text.toList.reverse.head? ≠ some 'w') :
    ¬Overrun text :=
  fun ho => ho.last.elim h.1 h.2

/-- The checks of descriptors have nothing to do with overruns. -/
theorem Overrun.checkHandles {message : String} {held : ℕ} {k : Unit → Except Error α}
    (ho : Overrun message)
    (h : (r.checkHandles f held >>= k) = .error (.protocol message)) :
    k () = .error (.protocol message) := by
  simp only [Reassembler.checkHandles, bind_assoc] at h
  obtain ⟨-, h⟩ := ho.check h (not_overrun_of_last (by simp [toString_string]))
  obtain ⟨-, h⟩ := ho.check h (not_overrun_of_last (by simp [toString_string]))
  exact (ho.check h (not_overrun_of_last (by simp [toString_string]))).2

theorem Overrun.acceptCount {message invalid zero : String} {event : ℕ → Event} (ho : Overrun message)
    (hi : ¬Overrun invalid) (hz : ¬Overrun zero) :
    r.acceptCount f invalid zero event ≠ .error (.protocol message) := by
  intro h
  obtain ⟨-, h⟩ := ho.check h hi
  obtain ⟨-, h⟩ := ho.check h hz
  cases h

theorem Overrun.acceptAbort {message : String} (ho : Overrun message) :
    r.acceptAbort f ≠ .error (.protocol message) := by
  intro h
  obtain ⟨-, h⟩ := ho.check h (not_overrun_of_last (by simp))
  obtain ⟨-, h⟩ := ho.check h (not_overrun_of_last (by simp))
  cases hl : r.incomplete.lookup f.header.id with
  | none =>
    rw [hl] at h
    obtain rfl := Error.protocol.inj (Except.error.inj h)
    exact not_overrun_of_last (by simp [toString_string]) ho
  | some entry =>
    rw [hl] at h
    obtain ⟨-, h⟩ := ho.check h
      (not_overrun_of_last (by cases f.header.kind <;> simp [toString_string, Kind.name]))
    cases h

/-- Charging a payload is where an overrun of payload is found. -/
theorem Overrun.charge {message : String} {k : SessionWindow → Except Error α}
    (h : (r.charge f.header >>= k) = .error (.protocol message))
    (hk : ∀ w, k w ≠ .error (.protocol message)) :
    r.charge f.header = .error (.protocol message) := by
  cases hc : r.charge f.header with
  | error e =>
    rw [hc] at h
    exact congrArg _ (Except.error.inj h)
  | ok w =>
    rw [hc] at h
    exact absurd h (hk w)

theorem Overrun.acceptPayload {message : String} {entry : Incomplete} (ho : Overrun message)
    (h : r.acceptPayload f entry = .error (.protocol message)) :
    r.charge f.header = .error (.protocol message) := by
  obtain ⟨-, h⟩ := ho.check h (not_overrun_of_last (by simp [toString_string]))
  refine Overrun.charge h fun w hw => ?_
  cases ho.checkHandles hw

theorem Overrun.acceptFirst {message : String} (ho : Overrun message)
    (h : r.acceptFirst f = .error (.protocol message)) :
    r.charge f.header = .error (.protocol message) := by
  obtain ⟨-, h⟩ := ho.check h (not_overrun_of_head (by simp [toString_string]))
  split_ifs at h
  · refine Overrun.charge h fun w hw => ?_
    cases ho.checkHandles hw
  · exact ho.acceptPayload (r := { r with payloadPhase := r.payloadPhase + 1 }) h

theorem Overrun.acceptNext {message : String} {entry : Incomplete} (ho : Overrun message)
    (h : r.acceptNext f entry = .error (.protocol message)) :
    (entry.trailerPhase = false ∧ r.charge f.header = .error (.protocol message)) ∨
      (entry.trailerPhase = true ∧ r.acceptTrailer f.header entry = .error (.protocol message)) := by
  simp only [Reassembler.acceptNext] at h
  by_cases hl : (entry.trailerPhase && f.header.flags.last) = true
  · rw [if_pos hl] at h
    obtain ⟨-, h⟩ := ho.check h (not_overrun_of_last (by simp))
    cases h
  · rw [if_neg hl] at h
    obtain ⟨-, h⟩ := ho.check h (not_overrun_of_head (by simp [toString_string]))
    split_ifs at h with hp
    · exact .inr ⟨hp, h⟩
    · exact .inl ⟨by simpa using hp, ho.acceptPayload h⟩

/-- An overrun is found where a payload is charged, or where trailer data is. -/
inductive Overruns (r : Reassembler) (f : Fragment) (message : String) : Prop
  | payload (hk : f.header.kind.isCount = false) (ha : f.header.flags.abort = false)
      (hp : f.header.flags.first = true ∨
        ∃ entry, r.incomplete.lookup f.header.id = some entry ∧ entry.trailerPhase = false)
      (h : r.charge f.header = .error (.protocol message))
  | trailer {entry : Incomplete} (hk : f.header.kind.isCount = false)
      (ha : f.header.flags.abort = false) (hf : f.header.flags.first = false)
      (hl : r.incomplete.lookup f.header.id = some entry) (hp : entry.trailerPhase = true)
      (h : r.acceptTrailer f.header entry = .error (.protocol message))

theorem Overrun.acceptData {message : String} (ho : Overrun message)
    (hk : f.header.kind.isCount = false) (ha : f.header.flags.abort = false)
    (h : r.acceptData f = .error (.protocol message)) : Overruns r f message := by
  obtain ⟨-, h⟩ := ho.check h (not_overrun_of_head (by simp))
  obtain ⟨-, h⟩ := ho.check h (not_overrun_of_head (by simp))
  split_ifs at h with hf
  · obtain ⟨-, h⟩ := ho.check h (not_overrun_of_head (by simp [toString_string]))
    obtain ⟨-, h⟩ := ho.check h (not_overrun_of_head (by simp))
    exact .payload hk ha (.inl hf) (ho.acceptFirst h)
  · cases hl : r.incomplete.lookup f.header.id with
    | none =>
      rw [hl] at h
      obtain rfl := Error.protocol.inj (Except.error.inj h)
      exact absurd ho (not_overrun_of_head (by simp [toString_string]))
    | some entry =>
      rw [hl] at h
      obtain ⟨-, h⟩ := ho.check h (not_overrun_of_head (by simp [toString_string]))
      obtain ⟨-, h⟩ := ho.check h (not_overrun_of_last (by simp [toString_string]))
      obtain ⟨-, h⟩ := ho.check h (not_overrun_of_last (by simp [toString_string]))
      obtain ⟨hp, h⟩ | ⟨hp, h⟩ := ho.acceptNext h
      · exact .payload hk ha (.inr ⟨entry, hl, hp⟩) h
      · exact .trailer hk ha (by simpa using hf) hl hp h

/-- Where an overrun is found. -/
theorem accept_overruns {message : String} (ho : Overrun message)
    (h : r.accept f = .error (.protocol message)) : Overruns r f message := by
  obtain ⟨-, h⟩ := ho.check h (not_overrun_of_last (by simp [toString_string]))
  obtain ⟨-, h⟩ := ho.check h (not_overrun_of_head (by simp))
  simp only [acceptKind] at h
  cases hk : f.header.kind
  case release =>
    rw [hk] at h
    exact absurd h (ho.acceptCount (not_overrun_of_head (by simp)) (not_overrun_of_head (by simp)))
  case credit =>
    rw [hk] at h
    exact absurd h (ho.acceptCount (not_overrun_of_head (by simp)) (not_overrun_of_head (by simp)))
  case payloadCredit =>
    rw [hk] at h
    obtain ⟨-, h⟩ := ho.check h (not_overrun_of_head (by simp))
    obtain ⟨-, h⟩ := ho.check h (not_overrun_of_head (by simp))
    exact absurd h (ho.acceptCount (not_overrun_of_head (by simp)) (not_overrun_of_head (by simp)))
  all_goals
    rw [hk] at h
    obtain ⟨-, h⟩ := ho.check h (not_overrun_of_head (by simp))
    cases ha : f.header.flags.abort with
    | true =>
      simp only [ha, if_true] at h
      first
        | exact absurd h ho.acceptAbort
        | simp at h
    | false =>
      simp only [ha, Bool.false_eq_true, if_false] at h
      exact ho.acceptData (by rw [hk]; rfl) ha h

end Reassembler

end Dolang.Rpc
