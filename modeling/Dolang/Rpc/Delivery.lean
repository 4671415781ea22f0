import Dolang.Lib.System
import Dolang.Rpc.Trailer

/-!
# The bytes of a trailer at the receiver

One trailer at its receiving end: the receive driver, which grants fragments and drains them, the
consumer, which polls for bytes with buffers of any size, and a transport that yields its bytes in
pieces of any size. A step is one critical section of `RecvShared`, or one read of the transport within
one. The transport holds more than the fragment that is granted, so that the limits on the reads are
what keeps to its boundary.

`payloads` is what the fragments that were granted carry, and `delivered` what the consumer has got.
What is between the two stands in the stage and in the rest of the fragment that is granted
(`Faithful`).
-/

namespace Dolang.Rpc

/-- What a poll of the consumer reports. -/
inductive ReadOutcome where
  | pending
  | data (bytes : List UInt8)
  | eof
  /-- The error that is recorded. -/
  | error
  /-- The transport fails on a direct read. -/
  | lost
  deriving DecidableEq, Repr

namespace RecvShared

/-- What `TrailerRecv::poll_read_uninit` reports for a buffer of `n` bytes. `bytes` is what the
transport yields on a direct read: nothing when it is not ready, and `none` when it fails. -/
def readOutcome (s : RecvShared) (n : ℕ) (bytes : Option (List UInt8)) : ReadOutcome :=
  if n = 0 then .data []
  else if s.stage ≠ [] then .data (s.stage.take n)
  else match s.state with
    | .failed => .error
    | .eof => .eof
    | .idle | .fragment | .demand | .fragmentDemand | .draining | .discard => .pending
    | .reading | .unclaimed =>
      match bytes with
      | none => .lost
      | some [] => .pending
      | some bytes => .data bytes

/-- The lease is dropped before its fragment is complete, `RecvLease::drop`. -/
def revoke (s : RecvShared) : RecvShared :=
  { s with remaining := 0, state := .failed }

end RecvShared

/-- Where the receive driver is with a trailer. -/
inductive RecvDriver where
  /-- It has no fragment of it. -/
  | away
  /-- It has granted a fragment of `len` bytes. -/
  | granted (len : ℕ)
  /-- It is done with it. -/
  | done
  deriving DecidableEq, Repr

/-- A trailer at its receiving end. -/
structure Delivery where
  shared : RecvShared
  window : SessionWindow
  /-- What the transport has still to yield. -/
  stream : List UInt8
  driver : RecvDriver
  payloads : List UInt8
  /-- The bytes of the granted fragment that were read off the transport, by whomever. -/
  taken : ℕ
  delivered : List UInt8

namespace Delivery

/-- A trailer of which nothing has arrived. -/
def new (shared : RecvShared) (window : SessionWindow) : Delivery where
  shared
  window
  stream := []
  driver := .away
  payloads := []
  taken := 0
  delivered := []

/-- A fragment of `len` bytes is granted, at the head of `stream`. -/
def grant (d : Delivery) (len : ℕ) (stream : List UInt8) : Delivery :=
  { d with
    shared := d.shared.grant len
    stream
    driver := .granted len
    payloads := d.payloads ++ stream.take len
    taken := 0 }

/-- The driver reads `k` bytes. -/
def drain (d : Delivery) (k : ℕ) : Delivery :=
  { d with
    shared := d.shared.drain (d.stream.take k)
    stream := d.stream.drop k
    taken := d.taken + k }

/-- The bytes that a poll gets from the transport, when it yields `k`. -/
def direct (d : Delivery) (n k : ℕ) : List UInt8 :=
  if d.shared.stage = [] ∧ (d.shared.state = .reading ∨ d.shared.state = .unclaimed) then
    d.stream.take (min k (min n d.shared.remaining))
  else []

/-- What a poll with a buffer of `n` bytes reports. The transport yields `k` bytes, or fails. -/
def outcome (d : Delivery) (n : ℕ) (k : Option ℕ) : ReadOutcome :=
  d.shared.readOutcome n (k.map (d.direct n))

/-- The bytes that a poll delivers. -/
def got : ReadOutcome → List UInt8
  | .data bytes => bytes
  | _ => []

/-- The consumer polls with a buffer of `n` bytes. An empty buffer and a transport that fails leave
everything as it is. -/
def read (d : Delivery) (n : ℕ) (k : Option ℕ) : Delivery :=
  if n = 0 ∨ d.outcome n k = .lost then d
  else
    let bytes := d.direct n (k.getD 0)
    let r := d.shared.pollRead d.window n bytes
    { d with
      shared := r.shared
      window := r.window
      stream := d.stream.drop bytes.length
      taken := d.taken + bytes.length
      delivered := d.delivered ++ got (d.outcome n k) }

/-- What happens to a trailer. -/
inductive Action where
  /-- The header of a fragment of `len` bytes is accepted. -/
  | accept (len : ℕ)
  | grant (len : ℕ) (stream : List UInt8)
  | takeOver
  | drain (k : ℕ)
  | complete
  /-- The driver gives up within a fragment: the connection is lost. -/
  | revoke
  /-- `LAST` arrives. -/
  | finish
  /-- `ABORT` arrives, or the connection is lost between fragments. -/
  | fail
  | read (n : ℕ) (k : Option ℕ)
  | retire (n : ℕ)
  | release (n : ℕ)
  | setManual
  /-- Other trailers use the pool. -/
  | pool (window : SessionWindow)
  | discard

/-- What an action does. A read of the driver is limited by what is left of the fragment. -/
def next (d : Delivery) : Action → Delivery → Prop
  | .accept len, d' => ∃ shared window, d.shared.acceptBytes d.window len = some (shared, window) ∧
    d' = { d with shared, window }
  | .grant len stream, d' => d.driver = .away ∧ d' = d.grant len stream
  | .takeOver, d' => (∃ len, d.driver = .granted len) ∧ d' = { d with shared := d.shared.takeOver }
  | .drain k, d' => (∃ len, d.driver = .granted len) ∧
    (d.shared.state = .draining ∨ d.shared.state = .discard) ∧ 0 < k ∧ k ≤ d.shared.remaining ∧
    k ≤ d.stream.length ∧ d' = d.drain k
  | .complete, d' => (∃ len, d.driver = .granted len) ∧ d.shared.fragmentDone = true ∧
    d' = { d with shared := d.shared.complete, driver := .away }
  | .revoke, d' => (∃ len, d.driver = .granted len) ∧
    d' = { d with shared := d.shared.revoke, driver := .done }
  | .finish, d' => d.driver = .away ∧
    d' = { d with
      shared := (d.shared.finish d.window).1, window := (d.shared.finish d.window).2.1
      driver := .done }
  | .fail, d' => d.driver = .away ∧ d' = { d with shared := d.shared.fail, driver := .done }
  | .read n k, d' => d' = d.read n k
  | .retire n, d' => d' = { d with
      shared := (d.shared.retireAndEmit d.window n).1
      window := (d.shared.retireAndEmit d.window n).2.1 }
  | .release n, d' => d' = { d with
      shared := (d.shared.release d.window n).1, window := (d.shared.release d.window n).2.1 }
  | .setManual, d' => d' = { d with shared := { d.shared with autoRelease := false } }
  | .pool window, d' => d' = { d with window }
  | .discard, d' => d' = { d with
      shared := (d.shared.discard d.window).1, window := (d.shared.discard d.window).2.1 }

/-- A trailer with limits `limits` for message `id`. -/
def system (limits : Limits) (id : MsgId) : System Delivery Action where
  start d := ∃ window, d = new (.new limits id) window
  next := next

/-- The consumer keeps its handle. -/
def Action.Kept : Action → Prop
  | .discard => False
  | _ => True

/-- The state of the consumer and the driver's place agree. -/
def Fits (d : Delivery) : Prop :=
  match d.driver with
  | .away => (d.shared.state = .idle ∨ d.shared.state = .demand) ∧ d.shared.remaining = 0
  | .granted len => d.taken + d.shared.remaining = len ∧
    ((d.shared.state = .reading ∨ d.shared.state = .unclaimed ∨ d.shared.state = .draining) ∧
        0 < d.shared.remaining ∨
      (d.shared.state = .fragment ∨ d.shared.state = .fragmentDemand) ∧ d.shared.remaining = 0)
  | .done => (d.shared.state = .eof ∨ d.shared.state = .failed) ∧ d.shared.remaining = 0

/-- No byte is lost, doubled or out of place. When the driver was revoked, the rest of a fragment
stays with the transport. -/
structure Faithful (d : Delivery) : Prop where
  fits : d.Fits
  delivered : d.delivered ++ d.shared.stage ++ d.stream.take d.shared.remaining <+: d.payloads
  whole : d.shared.state ≠ .failed →
    d.delivered ++ d.shared.stage ++ d.stream.take d.shared.remaining = d.payloads

end Delivery

/-! ### Credit -/

namespace RecvShared

/-- Two states of a trailer hold the same bytes. -/
structure Same (s s' : RecvShared) : Prop where
  stage : s'.stage = s.stage
  remaining : s'.remaining = s.remaining
  state : s'.state = s.state

theorem Same.trans {s s' s'' : RecvShared} (h : s.Same s') (h' : s'.Same s'') : s.Same s'' :=
  ⟨h'.stage.trans h.stage, h'.remaining.trans h.remaining, h'.state.trans h.state⟩

theorem same_flush (s : RecvShared) (w : SessionWindow) : s.Same (s.flush w).1 := by
  unfold flush
  split_ifs <;> exact ⟨rfl, rfl, rfl⟩

theorem same_acceptBytes {s s' : RecvShared} {w w' : SessionWindow} {n : ℕ}
    (h : s.acceptBytes w n = some (s', w')) : s.Same s' := by
  unfold acceptBytes at h
  split_ifs at h
  · cases h
    exact ⟨rfl, rfl, rfl⟩
  · obtain ⟨_, -, hw⟩ := Option.map_eq_some_iff.mp h
    cases hw
    exact ⟨rfl, rfl, rfl⟩

theorem same_retire (s : RecvShared) (w : SessionWindow) (n : ℕ) : s.Same (s.retire w n).1 := by
  simp only [retire]
  split_ifs
  · exact ⟨rfl, rfl, rfl⟩
  · exact ⟨rfl, rfl, rfl⟩
  · obtain ⟨h1, h2, h3⟩ :=
      same_flush { s with pending := s.pending + n, retired := s.retired + n } w
    exact ⟨h1, h2, h3⟩

theorem same_retireAndEmit (s : RecvShared) (w : SessionWindow) (n : ℕ) :
    s.Same (s.retireAndEmit w n).1 := by
  unfold retireAndEmit
  split_ifs
  · exact same_retire s w n
  · exact ⟨rfl, rfl, rfl⟩

theorem same_release (s : RecvShared) (w : SessionWindow) (n : ℕ) : s.Same (s.release w n).1 := by
  unfold release
  split_ifs
  · exact ⟨rfl, rfl, rfl⟩
  · exact same_retire s w n

end RecvShared

namespace Delivery

variable {d d' : Delivery}

theorem faithful_new (limits : Limits) (id : MsgId) (window : SessionWindow) :
    (new (.new limits id) window).Faithful where
  fits := ⟨.inl rfl, rfl⟩
  delivered := List.prefix_rfl
  whole := fun _ => rfl

/-- What is done to credit does not matter. -/
theorem Faithful.same (h : d.Faithful) (hs : d.shared.Same d'.shared) (hstream : d'.stream = d.stream)
    (hd : d'.driver = d.driver) (hp : d'.payloads = d.payloads) (ht : d'.taken = d.taken)
    (hv : d'.delivered = d.delivered) : d'.Faithful := by
  obtain ⟨h1, h2, h3⟩ := hs
  refine ⟨?_, ?_, ?_⟩
  · have hf := h.fits
    unfold Fits at hf ⊢
    rw [hd, h2, h3, ht]
    exact hf
  · rw [hv, h1, h2, hstream, hp]
    exact h.delivered
  · rw [hv, h1, h2, h3, hstream, hp]
    exact h.whole

theorem Faithful.grant (h : d.Faithful) (hd : d.driver = .away) (len : ℕ) (stream : List UInt8) :
    (d.grant len stream).Faithful := by
  have hf := h.fits
  unfold Fits at hf
  rw [hd] at hf
  obtain ⟨hs, hr⟩ := hf
  have hne : d.shared.state ≠ .failed := by obtain hs | hs := hs <;> simp [hs]
  have hnd : d.shared.state ≠ .discard := by obtain hs | hs := hs <;> simp [hs]
  have hw := h.whole hne
  rw [hr, List.take_zero, List.append_nil] at hw
  have hall : d.delivered ++ d.shared.stage ++ stream.take len = d.payloads ++ stream.take len := by
    rw [hw]
  refine ⟨?_, ?_, fun _ => hall⟩
  · show 0 + len = len ∧ _
    refine ⟨Nat.zero_add len, ?_⟩
    simp only [Delivery.grant, RecvShared.grant, if_neg hnd]
    by_cases h0 : len = 0
    · right
      simp only [h0, if_true, and_true]
      split_ifs
      · exact .inr rfl
      · exact .inl rfl
    · left
      simp only [if_neg h0]
      refine ⟨?_, by omega⟩
      split_ifs <;> simp
  · show d.delivered ++ d.shared.stage ++ stream.take len <+: d.payloads ++ stream.take len
    exact ⟨[], by rw [List.append_nil, hall]⟩

theorem Faithful.takeOver (h : d.Faithful) {len : ℕ} (hd : d.driver = .granted len) :
    Faithful { d with shared := d.shared.takeOver } := by
  unfold RecvShared.takeOver
  split_ifs with hs
  · have hf := h.fits
    have hw := h.whole (by simp [hs])
    unfold Fits at hf
    rw [hd] at hf
    obtain ⟨ht, ⟨-, hr⟩ | ⟨hs', -⟩⟩ := hf
    · refine ⟨?_, hw ▸ List.prefix_rfl, fun _ => hw⟩
      unfold Fits
      show match d.driver with | .away => _ | .granted len => _ | .done => _
      rw [hd]
      exact ⟨ht, .inl ⟨.inr (.inr rfl), hr⟩⟩
    · simp [hs] at hs'
  · exact h

/-- The rest of a fragment, after some of it was read. -/
theorem take_split (bytes : List UInt8) {k n : ℕ} (h : k ≤ n) :
    bytes.take n = bytes.take k ++ (bytes.drop k).take (n - k) := by
  conv_lhs => rw [← List.take_append_drop k bytes, List.take_append]
  rw [List.take_take, List.length_take]
  by_cases hk : k ≤ bytes.length
  · rw [Nat.min_eq_right h, Nat.min_eq_left hk]
  · rw [List.drop_eq_nil_of_le (by omega), List.take_nil, List.take_nil, Nat.min_eq_right h]

theorem Faithful.drain (h : d.Faithful) {len k : ℕ} (hd : d.driver = .granted len)
    (hs : d.shared.state = .draining ∨ d.shared.state = .discard) (hk : k ≤ d.shared.remaining)
    (hlen : k ≤ d.stream.length) : (d.drain k).Faithful := by
  have hf := h.fits
  unfold Fits at hf
  rw [hd] at hf
  obtain ⟨ht, hf⟩ := hf
  have hdr : d.shared.state = .draining := by
    obtain hs | hs := hs
    · exact hs
    · simp [hs] at hf
  have hw := h.whole (by simp [hdr])
  have htake : (d.stream.take k).length = k := by
    rw [List.length_take]
    omega
  have hshared : d.shared.drain (d.stream.take k) = { d.shared with
      stage := d.shared.stage ++ d.stream.take k
      remaining := d.shared.remaining - k
      state := if d.shared.remaining - k = 0 then .fragment else .draining } := by
    unfold RecvShared.drain
    rw [hdr]
    simp only [htake]
  have hall : d.delivered ++ (d.shared.stage ++ d.stream.take k) ++
      (d.stream.drop k).take (d.shared.remaining - k) = d.payloads := by
    rw [← hw, take_split d.stream hk]
    simp
  refine ⟨?_, ?_, fun _ => ?_⟩
  · unfold Fits
    simp only [Delivery.drain, hd, hshared]
    refine ⟨by omega, ?_⟩
    split_ifs with h0
    · exact .inr ⟨.inl rfl, h0⟩
    · exact .inl ⟨.inr (.inr rfl), by omega⟩
  · simp only [Delivery.drain, hshared]
    exact ⟨[], by rw [List.append_nil, hall]⟩
  · simp only [Delivery.drain, hshared]
    exact hall

theorem Faithful.complete (h : d.Faithful) {len : ℕ} (hd : d.driver = .granted len)
    (hdone : d.shared.fragmentDone = true) :
    Faithful { d with shared := d.shared.complete, driver := .away } := by
  have hf := h.fits
  unfold Fits at hf
  rw [hd] at hf
  obtain ⟨-, ⟨hs, -⟩ | ⟨hs, hr⟩⟩ := hf
  · obtain hs | hs | hs := hs <;> simp [RecvShared.fragmentDone, hs] at hdone
  · have hw := h.whole (by obtain hs | hs := hs <;> simp [hs])
    rw [hr, List.take_zero, List.append_nil] at hw
    have hall : d.delivered ++ d.shared.stage ++ d.stream.take 0 = d.payloads := by
      rw [List.take_zero, List.append_nil, hw]
    refine ⟨⟨?_, rfl⟩, hall ▸ List.prefix_rfl, fun _ => hall⟩
    obtain hs | hs := hs
    · exact .inl (by simp [RecvShared.complete, hs])
    · exact .inr (by simp [RecvShared.complete, hs])

theorem Faithful.revoke (h : d.Faithful) :
    Faithful { d with shared := d.shared.revoke, driver := .done } := by
  refine ⟨⟨.inr rfl, rfl⟩, ?_, fun hs => absurd rfl hs⟩
  show d.delivered ++ d.shared.stage ++ d.stream.take 0 <+: d.payloads
  rw [List.take_zero, List.append_nil]
  exact (List.prefix_append _ _).trans h.delivered

theorem Faithful.away (h : d.Faithful) (hd : d.driver = .away) :
    d.shared.remaining = 0 ∧ d.delivered ++ d.shared.stage = d.payloads := by
  have hf := h.fits
  unfold Fits at hf
  rw [hd] at hf
  obtain ⟨hs, hr⟩ := hf
  have hw := h.whole (by obtain hs | hs := hs <;> simp [hs])
  rw [hr, List.take_zero, List.append_nil] at hw
  exact ⟨hr, hw⟩

/-- The trailer ends between fragments, so that nothing is left with the transport. -/
theorem Faithful.close (h : d.Faithful) (hd : d.driver = .away) {shared : RecvShared}
    (w : SessionWindow) (hstage : shared.stage = d.shared.stage)
    (hr : shared.remaining = d.shared.remaining) (hs : shared.state = .eof ∨ shared.state = .failed) :
    Faithful { d with shared, window := w, driver := .done } := by
  obtain ⟨hr0, hw⟩ := h.away hd
  have hall : d.delivered ++ shared.stage ++ d.stream.take shared.remaining = d.payloads := by
    rw [hr, hr0, List.take_zero, List.append_nil, hstage, hw]
  exact ⟨⟨hs, hr.trans hr0⟩, hall ▸ List.prefix_rfl, fun _ => hall⟩

/-- A change of state that moves no byte. -/
theorem Faithful.wait (h : d.Faithful) {shared : RecvShared} (w : SessionWindow)
    (hstage : shared.stage = d.shared.stage) (hr : shared.remaining = d.shared.remaining)
    (hs : d.shared.state = .idle ∧ shared.state = .demand ∨
      d.shared.state = .fragment ∧ shared.state = .fragmentDemand ∨
      (d.shared.state = .reading ∨ d.shared.state = .unclaimed) ∧ shared.state = .reading) :
    Faithful { d with shared, window := w } := by
  have hw := h.whole (by obtain ⟨hs, -⟩ | ⟨hs, -⟩ | ⟨hs | hs, -⟩ := hs <;> simp [hs])
  have hall : d.delivered ++ shared.stage ++ d.stream.take shared.remaining = d.payloads := by
    rw [hstage, hr, hw]
  refine ⟨?_, hall ▸ List.prefix_rfl, fun _ => hall⟩
  have hf := h.fits
  unfold Fits at hf ⊢
  show match d.driver with | .away => _ | .granted len => _ | .done => _
  cases hd : d.driver with
  | away =>
    simp only [hd] at hf ⊢
    obtain ⟨hf, hz⟩ := hf
    refine ⟨?_, hr.trans hz⟩
    obtain ⟨hs, hs'⟩ | ⟨hs, -⟩ | ⟨hs | hs, -⟩ := hs
    · exact .inr hs'
    all_goals simp [hs] at hf
  | granted len =>
    simp only [hd, ← hr] at hf ⊢
    refine ⟨hf.1, ?_⟩
    have hf := hf.2
    obtain ⟨hs, -⟩ | ⟨hs, hs'⟩ | ⟨hs, hs'⟩ := hs
    · simp [hs] at hf
    · simp only [hs, hs'] at hf ⊢
      simpa using hf
    · obtain hs | hs := hs <;> simpa [hs, hs'] using hf
  | done =>
    simp only [hd] at hf
    obtain ⟨hs, -⟩ | ⟨hs, -⟩ | ⟨hs | hs, -⟩ := hs <;> simp [hs] at hf

/-- Staged bytes are delivered first, whatever the state. -/
theorem Faithful.unstage (h : d.Faithful) (n : ℕ) :
    Faithful { d with
      shared := { d.shared with stage := d.shared.stage.drop n }
      delivered := d.delivered ++ d.shared.stage.take n } := by
  have hsplit : d.delivered ++ d.shared.stage.take n ++ d.shared.stage.drop n =
      d.delivered ++ d.shared.stage := by
    rw [List.append_assoc, List.take_append_drop]
  refine ⟨h.fits, ?_, fun hs => ?_⟩
  · show d.delivered ++ d.shared.stage.take n ++ d.shared.stage.drop n ++ _ <+: _
    rw [hsplit]
    exact h.delivered
  · show d.delivered ++ d.shared.stage.take n ++ d.shared.stage.drop n ++ _ = _
    rw [hsplit]
    exact h.whole hs

/-- With nothing staged, `m` bytes of the fragment go to the consumer. -/
theorem Faithful.serve (h : d.Faithful) {m : ℕ} (hstage : d.shared.stage = [])
    (hs : d.shared.state = .reading ∨ d.shared.state = .unclaimed)
    (hm : m ≤ d.shared.remaining) :
    Faithful { d with
      shared := { d.shared with
        remaining := d.shared.remaining - m
        state := if d.shared.remaining - m = 0 then .fragment else .draining }
      stream := d.stream.drop m
      taken := d.taken + m
      delivered := d.delivered ++ d.stream.take m } := by
  have hw := h.whole (by obtain hs | hs := hs <;> simp [hs])
  have hall : d.delivered ++ d.stream.take m ++ d.shared.stage ++
      (d.stream.drop m).take (d.shared.remaining - m) = d.payloads := by
    rw [← hw, take_split d.stream hm, hstage]
    simp
  refine ⟨?_, hall ▸ List.prefix_rfl, fun _ => hall⟩
  have hf := h.fits
  unfold Fits at hf ⊢
  show match d.driver with | .away => _ | .granted len => _ | .done => _
  cases hd : d.driver with
  | away =>
    simp only [hd] at hf
    obtain hs | hs := hs <;> simp [hs] at hf
  | granted len =>
    simp only [hd] at hf ⊢
    refine ⟨by omega, ?_⟩
    split_ifs with h0
    · exact .inr ⟨.inl rfl, h0⟩
    · exact .inl ⟨.inr (.inr rfl), by omega⟩
  | done =>
    simp only [hd] at hf
    obtain hs | hs := hs <;> simp [hs] at hf

/-- A poll that goes to the transport. -/
theorem Faithful.readDirect (h : d.Faithful) {n : ℕ} {k : Option ℕ} (hn : n ≠ 0)
    (hlost : d.outcome n k ≠ .lost) (hstage : d.shared.stage = [])
    (hs : d.shared.state = .reading ∨ d.shared.state = .unclaimed) :
    Faithful { d with
      shared := (d.shared.pollRead d.window n (d.direct n (k.getD 0))).shared
      window := (d.shared.pollRead d.window n (d.direct n (k.getD 0))).window
      stream := d.stream.drop (d.direct n (k.getD 0)).length
      taken := d.taken + (d.direct n (k.getD 0)).length
      delivered := d.delivered ++ got (d.outcome n k) } := by
  cases k with
  | none => obtain hs | hs := hs <;> simp [outcome, RecvShared.readOutcome, hn, hstage, hs] at hlost
  | some k =>
    obtain ⟨m, hm, hbytes⟩ : ∃ m ≤ d.shared.remaining, d.direct n k = d.stream.take m :=
      ⟨min k (min n d.shared.remaining), by omega, by simp [direct, hstage, hs]⟩
    rw [Option.getD_some]
    by_cases h0 : d.direct n k = []
    · have hout : d.outcome n (some k) = .pending := by
        obtain hs | hs := hs <;> simp [outcome, RecvShared.readOutcome, hn, hstage, hs, h0]
      have hpoll : d.shared.pollRead d.window n [] =
          { shared := { d.shared with state := .reading }, window := d.window } := by
        obtain hs | hs := hs <;> simp [RecvShared.pollRead, hstage, hs]
      rw [h0, hout, hpoll]
      have hwait := @Faithful.wait d h { d.shared with state := .reading } d.window rfl rfl
        (.inr (.inr ⟨hs, rfl⟩))
      simpa [got] using hwait
    · have hout : d.outcome n (some k) = .data (d.direct n k) := by
        obtain hs | hs := hs <;> simp [outcome, RecvShared.readOutcome, hn, hstage, hs]
      have hpoll : d.shared.pollRead d.window n (d.direct n k) =
          { shared := { d.shared with
              remaining := d.shared.remaining - (d.direct n k).length
              state := if d.shared.remaining - (d.direct n k).length = 0 then .fragment
                else .draining }
            window := d.window, bytes := d.direct n k } := by
        obtain hs | hs := hs <;> simp [RecvShared.pollRead, hstage, hs, h0]
      have hlen : (d.direct n k).length ≤ m := by
        rw [hbytes, List.length_take]
        exact Nat.min_le_left _ _
      have htake : d.stream.take (d.direct n k).length = d.direct n k := by
        rw [hbytes, List.length_take, ← List.take_eq_take_min]
      have hserve := h.serve hstage hs (hlen.trans hm)
      rw [htake] at hserve
      rw [hout, hpoll]
      exact hserve

theorem Faithful.read (h : d.Faithful) (n : ℕ) (k : Option ℕ) : (d.read n k).Faithful := by
  unfold Delivery.read
  split_ifs with hn
  · exact h
  rw [not_or] at hn
  obtain ⟨hn, hlost⟩ := hn
  by_cases hstage : d.shared.stage = []
  · cases hs : d.shared.state with
    | failed | eof | demand | fragmentDemand | draining | discard =>
      simpa [outcome, direct, RecvShared.readOutcome, RecvShared.pollRead, hstage, hs, hn, got]
        using h
    | idle =>
      obtain ⟨h1, h2, h3⟩ := RecvShared.same_flush { d.shared with state := .demand } d.window
      have hwait := h.wait (RecvShared.flush { d.shared with state := .demand } d.window).2.1
        h1 h2 (.inl ⟨hs, h3⟩)
      simpa [outcome, direct, RecvShared.readOutcome, RecvShared.pollRead, hstage, hs, hn, got]
        using hwait
    | fragment =>
      obtain ⟨h1, h2, h3⟩ :=
        RecvShared.same_flush { d.shared with state := .fragmentDemand } d.window
      have hwait := h.wait (RecvShared.flush { d.shared with state := .fragmentDemand } d.window).2.1
        h1 h2 (.inr (.inl ⟨hs, h3⟩))
      simpa [outcome, direct, RecvShared.readOutcome, RecvShared.pollRead, hstage, hs, hn, got]
        using hwait
    | reading => exact h.readDirect hn hlost hstage (.inl hs)
    | unclaimed => exact h.readDirect hn hlost hstage (.inr hs)
  · have hd : ∀ k, d.direct n k = [] := fun k => by simp [direct, hstage]
    have hout : d.outcome n k = .data (d.shared.stage.take n) := by
      simp [outcome, RecvShared.readOutcome, hn, hstage]
    have := h.unstage n
    simpa [hd, hout, RecvShared.pollRead, hstage, got] using this

/-! ### Runs -/

/-- What one step does, the consumer keeping its handle. -/
theorem Faithful.next (h : d.Faithful) {a : Action} (ha : a.Kept) (hn : d.next a d') :
    d'.Faithful := by
  cases a with
  | accept len =>
    obtain ⟨shared, window, hacc, rfl⟩ := hn
    exact h.same (RecvShared.same_acceptBytes hacc) rfl rfl rfl rfl rfl
  | grant len stream =>
    obtain ⟨hd, rfl⟩ := hn
    exact h.grant hd len stream
  | takeOver =>
    obtain ⟨⟨len, hd⟩, rfl⟩ := hn
    exact h.takeOver hd
  | drain k =>
    obtain ⟨⟨len, hd⟩, hs, -, hk, hlen, rfl⟩ := hn
    exact h.drain hd hs hk hlen
  | complete =>
    obtain ⟨⟨len, hd⟩, hdone, rfl⟩ := hn
    exact h.complete hd hdone
  | revoke =>
    obtain ⟨-, rfl⟩ := hn
    exact h.revoke
  | finish =>
    obtain ⟨hd, rfl⟩ := hn
    obtain ⟨h1, h2, h3⟩ := RecvShared.same_retire { d.shared with state := .eof } d.window 0
    exact h.close hd _ h1 h2 (.inl h3)
  | fail =>
    obtain ⟨hd, rfl⟩ := hn
    exact h.close hd d.window rfl rfl (.inr rfl)
  | read n k =>
    obtain rfl := hn
    exact h.read n k
  | retire n =>
    obtain rfl := hn
    exact h.same (RecvShared.same_retireAndEmit d.shared d.window n) rfl rfl rfl rfl rfl
  | release n =>
    obtain rfl := hn
    exact h.same (RecvShared.same_release d.shared d.window n) rfl rfl rfl rfl rfl
  | setManual =>
    obtain rfl := hn
    exact h.same ⟨rfl, rfl, rfl⟩ rfl rfl rfl rfl rfl
  | pool window =>
    obtain rfl := hn
    exact h.same ⟨rfl, rfl, rfl⟩ rfl rfl rfl rfl rfl
  | discard => exact absurd ha id

theorem Faithful.run {limits : Limits} {id : MsgId}
    (h : (system limits id).Run (fun _ a => a.Kept) d) : d.Faithful := by
  refine h.invariant ?_ ?_
  · rintro d ⟨window, rfl⟩
    exact faithful_new limits id window
  · intro d a d' hd ha hn
    exact hd.next ha hn

/-- Nothing is staged any more when a poll reports the end or the error. -/
theorem stage_of_outcome {n : ℕ} {k : Option ℕ} (h : d.outcome n k = .eof ∨ d.outcome n k = .error) :
    d.shared.stage = [] := by
  by_contra hne
  have hout : d.outcome n k = .data (if n = 0 then [] else d.shared.stage.take n) := by
    unfold outcome RecvShared.readOutcome
    split_ifs <;> rfl
  rw [hout] at h
  simp at h

/-- A poll reports the end in one state only. -/
theorem state_of_outcome {n : ℕ} {k : Option ℕ} (h : d.outcome n k = .eof) :
    d.shared.state = .eof := by
  unfold outcome RecvShared.readOutcome at h
  split_ifs at h
  cases hs : d.shared.state with
  | eof => rfl
  | reading | unclaimed =>
    rw [hs] at h
    dsimp only at h
    split at h <;> simp at h
  | idle | demand | draining | fragment | fragmentDemand | discard | failed => simp [hs] at h

/-- In a fragment, the driver and the consumer together read no more than its length. -/
theorem Faithful.taken_le (h : d.Faithful) {len : ℕ} (hd : d.driver = .granted len) :
    d.taken ≤ len := by
  have hf := h.fits
  unfold Fits at hf
  rw [hd] at hf
  obtain ⟨ht, -⟩ := hf
  omega

/-- The stream has ended: the consumer has all of it. -/
theorem Faithful.eof (h : d.Faithful) (hs : d.shared.state = .eof) (hstage : d.shared.stage = []) :
    d.delivered = d.payloads := by
  have hw := h.whole (by simp [hs])
  have hr : d.shared.remaining = 0 := by
    have hf := h.fits
    unfold Fits at hf
    cases hd : d.driver with
    | away | done =>
      rw [hd] at hf
      exact hf.2
    | granted len =>
      rw [hd] at hf
      simp [hs] at hf
  rw [hstage, hr] at hw
  simpa using hw

/-- The consumer of a trailer that it does not discard gets every byte once and in order, in every
interleaving of its polls with the driver: what it has got is a prefix of what the fragments carry,
all of it when a poll reports the end. No fragment is read beyond its length, and neither the end nor
the error is reported while bytes are staged. -/
theorem delivered_in_order {limits : Limits} {id : MsgId}
    (h : (system limits id).Run (fun _ a => a.Kept) d) :
    d.delivered <+: d.payloads ∧ (∀ len, d.driver = .granted len → d.taken ≤ len) ∧
      ∀ n k, (d.outcome n k = .eof → d.delivered = d.payloads) ∧
        (d.outcome n k = .eof ∨ d.outcome n k = .error → d.shared.stage = []) := by
  have hd := Faithful.run h
  refine ⟨?_, fun len => hd.taken_le, fun n k => ⟨fun ho => ?_, stage_of_outcome⟩⟩
  · have hp := hd.delivered
    rw [List.append_assoc] at hp
    exact (List.prefix_append _ _).trans hp
  · exact hd.eof (state_of_outcome ho) (stage_of_outcome (.inl ho))

/-- A fragment of three bytes, two of them read by the consumer itself and one by the driver, in front
of a byte that is not the trailer's. -/
theorem delivered_in_order_three :
    ∃ d, (system { trailerRecvCopyThreshold := 0 } 7).Run (fun _ a => a.Kept) d ∧
      d.outcome 8 (some 8) = .eof ∧ d.delivered = [1, 2, 3] ∧ d.delivered = d.payloads := by
  let d0 := new (.new { trailerRecvCopyThreshold := 0 } 7) (.new 16)
  let d1 := d0.grant 3 [1, 2, 3, 9]
  let d2 := d1.read 2 (some 8)
  let d3 := d2.drain 1
  let d4 : Delivery := { d3 with shared := d3.shared.complete, driver := .away }
  let d5 : Delivery := { d4 with
    shared := (d4.shared.finish d4.window).1, window := (d4.shared.finish d4.window).2.1
    driver := .done }
  have h0 : (system { trailerRecvCopyThreshold := 0 } 7).Run (fun _ a => a.Kept) d0 :=
    .start ⟨_, rfl⟩
  have h1 := h0.step (a := Action.grant 3 [1, 2, 3, 9]) (t := d1) trivial ⟨rfl, rfl⟩
  have h2 := h1.step (a := Action.read 2 (some 8)) (t := d2) trivial rfl
  have h3 := h2.step (a := Action.drain 1) (t := d3) trivial
    ⟨⟨3, rfl⟩, .inl rfl, by decide, by decide, by decide, rfl⟩
  have h4 := h3.step (a := Action.complete) (t := d4) trivial ⟨⟨3, rfl⟩, rfl, rfl⟩
  have h5 := h4.step (a := Action.finish) (t := d5) trivial ⟨rfl, rfl⟩
  have h6 := h5.step (a := Action.read 8 (some 0)) (t := d5.read 8 (some 0)) trivial rfl
  have hend : (d5.read 8 (some 0)).outcome 8 (some 8) = .eof := rfl
  have hall := ((delivered_in_order h6).2.2 8 (some 8)).1 hend
  exact ⟨_, h6, hend, rfl, hall⟩

end Delivery

end Dolang.Rpc
