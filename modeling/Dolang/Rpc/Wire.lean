import Dolang.Lib.Bytes
import Dolang.Rpc.Window

/-!
# What goes over the wire

The kinds, flags and headers of fragments, and the limits that both ends agree on. This follows
`fragment.rs` and `lib.rs` on a Unix system other than macOS, where descriptors travel with the
fragment that carries them and no sender asks for an acknowledgement. A descriptor is only counted.

A fragment stands for the bytes of its header, its payload, and the descriptors attached to each.
`negotiate` is what the handshake makes of the limits of one end when it hears those of the other;
`negotiate_agree` says that the two ends then agree on every limit that both enforce.
-/

namespace Dolang.Rpc

/-- The kinds of fragments. -/
inductive Kind where
  | request
  | response
  | error
  | cancel
  | discard
  | negotiate
  | ack
  | release
  | credit
  | payloadCredit
  deriving DecidableEq, Repr

/-- The name of a kind in a message. -/
def Kind.name : Kind → String
  | .request => "Request"
  | .response => "Response"
  | .error => "Error"
  | .cancel => "Cancel"
  | .discard => "Discard"
  | .negotiate => "Negotiate"
  | .ack => "Ack"
  | .release => "Release"
  | .credit => "Credit"
  | .payloadCredit => "PayloadCredit"

/-- The kinds whose fragments carry a count and belong to no message. -/
def Kind.isCount : Kind → Bool
  | .release | .credit | .payloadCredit => true
  | _ => false

/-- The flags of a fragment. -/
structure Flags where
  first : Bool := false
  last : Bool := false
  abort : Bool := false
  trailer : Bool := false
  wantAck : Bool := false
  deriving DecidableEq, Repr

/-- The header of a fragment. -/
structure FragmentHeader where
  flags : Flags
  kind : Kind
  id : MsgId
  payloadLen : ℕ
  deriving DecidableEq, Repr

/-- A fragment. `headFds` descriptors arrive with its header, and `bodyFds` more with its payload. -/
structure Fragment where
  header : FragmentHeader
  payload : List UInt8
  headFds : ℕ := 0
  bodyFds : ℕ := 0
  /-- The payload is as long as the header says. -/
  length_eq : payload.length = header.payloadLen
  deriving DecidableEq, Repr

/-- A header may give the length of any payload. -/
theorem length_payload (payload : List UInt8) : payload.length = payload.length := rfl

/-- The length of an encoded header, `RawFragmentHeader::LEN`. -/
def headerLen : ℕ := 16

/-- The errors of a session that a fragment can cause. -/
inductive Error where
  | protocol (message : String)
  | auth (message : String)
  | deserialize
  deriving DecidableEq, Repr

/-- The limits of a session. -/
structure Limits where
  maxFragmentSize : ℕ := 512 * 1024
  maxPayloadSize : ℕ := 2 * 1024 * 1024
  maxHandlesPerFragment : ℕ := 8
  maxHandlesPerMessage : ℕ := 8
  trailerRecvCopyThreshold : ℕ := 64 * 1024
  trailerRecvDemandCopyThreshold : ℕ := 256 * 1024
  trailerSendCopyThreshold : ℕ := 64 * 1024
  maxConcurrentCalls : ℕ := 1024
  maxOutstandingPayload : ℕ := 16 * 1024 * 1024
  trailerCreditInterval : ℕ := 256 * 1024
  trailerSessionWindow : ℕ := 16 * 1024 * 1024
  deriving DecidableEq, Repr

/-- The greatest number of descriptors that one fragment carries, `MAX_FDS_PER_FRAGMENT`. -/
def maxFdsPerFragment : ℕ := 253

/-- Maximum handle attachments that one message may carry, `Shared::max_handles`. -/
def Limits.maxHandles (l : Limits) : ℕ :=
  if l.maxHandlesPerFragment = 0 then 0 else l.maxHandlesPerMessage

/-- The limits that an end advertises. -/
structure HandshakeV1 where
  maxFragmentSize : ℕ
  maxPayloadSize : ℕ
  maxHandlesPerFragment : ℕ
  maxHandlesPerMessage : ℕ
  maxConcurrentCalls : ℕ
  trailerSessionWindow : ℕ
  maxOutstandingPayload : ℕ

namespace HandshakeV1

/-- A limit as far as a `u32` holds it. -/
def clamp (v : ℕ) : ℕ :=
  min v u32Max

/-- What an end advertises for its limits. -/
def fromLimits (l : Limits) : HandshakeV1 where
  maxFragmentSize := clamp l.maxFragmentSize
  maxPayloadSize := clamp l.maxPayloadSize
  maxHandlesPerFragment := clamp (min l.maxHandlesPerFragment maxFdsPerFragment)
  maxHandlesPerMessage := clamp l.maxHandlesPerMessage
  maxConcurrentCalls := clamp l.maxConcurrentCalls
  trailerSessionWindow := clamp l.trailerSessionWindow
  maxOutstandingPayload := clamp l.maxOutstandingPayload

/-- Lowers the limits of an end to those that the peer advertised. -/
def clampLimits (h : HandshakeV1) (l : Limits) : Limits :=
  let maxOutstandingPayload := min l.maxOutstandingPayload h.maxOutstandingPayload
  { l with
    maxFragmentSize := min l.maxFragmentSize h.maxFragmentSize
    maxPayloadSize := min (min l.maxPayloadSize h.maxPayloadSize) maxOutstandingPayload
    maxHandlesPerFragment :=
      min (min l.maxHandlesPerFragment h.maxHandlesPerFragment) maxFdsPerFragment
    maxHandlesPerMessage := min l.maxHandlesPerMessage h.maxHandlesPerMessage
    maxConcurrentCalls := min l.maxConcurrentCalls h.maxConcurrentCalls
    trailerSessionWindow := max (min l.trailerSessionWindow h.trailerSessionWindow) 1
    maxOutstandingPayload }

end HandshakeV1

/-- The limits that an end advertises a quota for: one that carries a message of the greatest size. -/
def Limits.advertised (l : Limits) : Limits :=
  { l with maxOutstandingPayload := max l.maxOutstandingPayload l.maxPayloadSize }

/-- The limits that an end with limits `l` works under when its peer has limits `peer`. -/
def negotiate (l peer : Limits) : Limits :=
  (HandshakeV1.fromLimits peer.advertised).clampLimits l.advertised

/-- The limits that both ends of a session enforce are the same at both ends. -/
structure Limits.Agree (l l' : Limits) : Prop where
  maxFragmentSize : l.maxFragmentSize = l'.maxFragmentSize
  maxPayloadSize : l.maxPayloadSize = l'.maxPayloadSize
  maxHandlesPerFragment : l.maxHandlesPerFragment = l'.maxHandlesPerFragment
  maxHandlesPerMessage : l.maxHandlesPerMessage = l'.maxHandlesPerMessage
  maxConcurrentCalls : l.maxConcurrentCalls = l'.maxConcurrentCalls
  trailerSessionWindow : l.trailerSessionWindow = l'.trailerSessionWindow
  maxOutstandingPayload : l.maxOutstandingPayload = l'.maxOutstandingPayload

/-- Each end takes the smaller of its own limit and the one it heard, so both take the same one,
also when a limit does not fit a `u32`. -/
theorem min_clamp_comm (a b : ℕ) :
    min a (HandshakeV1.clamp b) = min b (HandshakeV1.clamp a) := by
  unfold HandshakeV1.clamp
  omega

/-- After the handshake the two ends agree on every limit that both enforce. -/
theorem negotiate_agree (a b : Limits) : (negotiate a b).Agree (negotiate b a) where
  maxFragmentSize := min_clamp_comm ..
  maxPayloadSize := by
    show min (min a.maxPayloadSize _) (min _ _) = min (min b.maxPayloadSize _) (min _ _)
    congr 1
    · exact min_clamp_comm ..
    · exact min_clamp_comm ..
  maxHandlesPerFragment := by
    show min (min a.maxHandlesPerFragment _) _ = min (min b.maxHandlesPerFragment _) _
    simp only [HandshakeV1.fromLimits, HandshakeV1.clamp, Limits.advertised]
    omega
  maxHandlesPerMessage := min_clamp_comm ..
  maxConcurrentCalls := min_clamp_comm ..
  trailerSessionWindow := by
    show max (min a.trailerSessionWindow _) 1 = max (min b.trailerSessionWindow _) 1
    congr 1
    exact min_clamp_comm ..
  maxOutstandingPayload := min_clamp_comm ..

/-- What the handshake leaves of the limits: a payload of the greatest size fits the quota, the
quota and the window fit a `u32`, and there is a window. -/
theorem negotiate_spec (a b : Limits) :
    (negotiate a b).maxPayloadSize ≤ (negotiate a b).maxOutstandingPayload ∧
      (negotiate a b).maxOutstandingPayload ≤ u32Max ∧
      0 < (negotiate a b).trailerSessionWindow ∧ (negotiate a b).trailerSessionWindow ≤ u32Max := by
  simp only [negotiate, HandshakeV1.clampLimits, HandshakeV1.fromLimits, HandshakeV1.clamp,
    Limits.advertised, u32Max]
  omega

end Dolang.Rpc
