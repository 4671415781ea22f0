import Dolang.Lib.Codec
import Dolang.Rpc.Wire
import Mathlib.Data.List.Sort

/-!
# The handshake

Each end sends one `Negotiate` message and reads the peer's. The message names the framing versions
that the end speaks, the limits that it advertises with its proof of the shared key, and the name and
versions of the application protocol. `negotiate` is what an end makes of the fragments that it reads;
that the message is serialized by `postcard` is a parameter.

`handshake_agrees` says of two ends that read what the other wrote that they select the same and work
under the same limits. Either end refuses a message of more than `negotiateMaxPayloadSize` bytes, so
that both succeed or both fail as long as the two messages are both within that bound or both beyond.
-/

namespace Dolang.Rpc

open Bytes

/-- The size of a fragment that every peer tolerates, `NEGOTIATE_FRAGMENT_SIZE`. -/
def negotiateFragmentSize : ℕ := 1024

/-- The size of a message that every peer tolerates, `NEGOTIATE_MAX_PAYLOAD_SIZE`. -/
def negotiateMaxPayloadSize : ℕ := 64 * 1024

/-- The framing version that this build speaks. -/
def protocolVersion : UInt8 := 1

variable {Digest : Type}

/-! ### Authentication -/

/-- What an end advertises, and what it requires of its peer. -/
structure Auth (Digest : Type) where
  send : Digest
  expect : Digest

/-- The digests of a shared key. -/
structure AuthKey (Digest : Type) where
  client : Digest
  server : Digest

namespace AuthKey

def asClient (key : AuthKey Digest) : Auth Digest where
  send := key.client
  expect := key.server

def asServer (key : AuthKey Digest) : Auth Digest where
  send := key.server
  expect := key.client

end AuthKey

/-- Checks what the peer advertised against the local key. -/
def verify [DecidableEq Digest] (auth : Option (Auth Digest)) (peer : Option Digest) :
    Except Error Unit :=
  match auth, peer with
  | none, none => .ok ()
  | some auth, some peer =>
      if auth.expect = peer then .ok () else .error (.auth "peer failed authentication")
  | some _, none => .error (.auth "peer did not authenticate but a key is configured")
  | none, some _ => .error (.auth "peer authenticated but no key is configured")

/-! ### Messages -/

/-- The limits that an end advertises, with its digest when a key is configured. -/
structure Handshake (Digest : Type) where
  limits : HandshakeV1
  key : Option Digest

structure NegotiatePayload where
  /-- A blob for each framing version, in the order of the versions. -/
  versionBlobs : List (List UInt8)
  appProtocol : String × List UInt16

/-- The serialization of the handshake. Errors are by their texts. -/
structure Postcard (Digest : Type) where
  encodeHandshake : Handshake Digest → List UInt8
  decodeHandshake : List UInt8 → Except String (Handshake Digest)
  encodePayload : NegotiatePayload → List UInt8
  decodePayload : List UInt8 → Except String NegotiatePayload

/-- The limits fit the fields that carry them. -/
structure HandshakeV1.Fits (h : HandshakeV1) : Prop where
  maxFragmentSize : h.maxFragmentSize ≤ u32Max
  maxPayloadSize : h.maxPayloadSize ≤ u32Max
  maxHandlesPerFragment : h.maxHandlesPerFragment ≤ u32Max
  maxHandlesPerMessage : h.maxHandlesPerMessage ≤ u32Max
  maxConcurrentCalls : h.maxConcurrentCalls ≤ u32Max
  trailerSessionWindow : h.trailerSessionWindow ≤ u32Max
  maxOutstandingPayload : h.maxOutstandingPayload ≤ u32Max

/-- What is serialized is read back. -/
structure Postcard.RoundTrips (pc : Postcard Digest) : Prop where
  handshake : ∀ h, h.limits.Fits → pc.decodeHandshake (pc.encodeHandshake h) = .ok h
  payload : ∀ p, pc.decodePayload (pc.encodePayload p) = .ok p

theorem HandshakeV1.fits_fromLimits (l : Limits) : (fromLimits l).Fits := by
  constructor <;> exact Nat.min_le_right ..

/-- One end of a connection. -/
structure Endpoint (Digest : Type) where
  limits : Limits
  name : String
  versions : List UInt16
  auth : Option (Auth Digest)

namespace Endpoint

/-- The versions that an end supports, in order. -/
def sortedVersions (e : Endpoint Digest) : List UInt16 :=
  e.versions.mergeSort fun a b => decide (a ≤ b)

/-- The payload of an end's message. -/
def payload (pc : Postcard Digest) (e : Endpoint Digest) : List UInt8 :=
  pc.encodePayload {
    versionBlobs := [pc.encodeHandshake {
      limits := HandshakeV1.fromLimits e.limits.advertised
      key := e.auth.map Auth.send }]
    appProtocol := (e.name, e.sortedVersions) }

end Endpoint

def negotiateFragment (id : MsgId) (first last : Bool) (payload : List UInt8) : Fragment where
  header := { flags := { first, last }, kind := .negotiate, id, payloadLen := payload.length }
  payload
  length_eq := length_payload payload

/-- The fragments of a message, or of what is left of it. -/
def writeNegotiateMessage (id : MsgId) (first : Bool) (payload : List UInt8) : List Fragment :=
  if payload.length ≤ negotiateFragmentSize then [negotiateFragment id first true payload]
  else
    negotiateFragment id first false (payload.take negotiateFragmentSize) ::
      writeNegotiateMessage id false (payload.drop negotiateFragmentSize)
termination_by payload.length
decreasing_by
  rw [List.length_drop]
  simp only [negotiateFragmentSize] at *
  omega

/-- The signal that no version is supported by both ends. -/
def negotiateAbort : Fragment where
  header := { flags := { first := true, abort := true }, kind := .negotiate, id := 0, payloadLen := 0 }
  payload := []
  length_eq := List.length_nil

/-- Why a handshake fails. -/
inductive Failure where
  /-- The peer closes the connection. -/
  | connectionClosed
  | failed (error : Error)
  deriving DecidableEq, Repr

/-- A failure, with the fragments that are sent on account of it. -/
structure Refusal where
  failure : Failure
  sent : List Fragment

/-- Fails without telling the peer. -/
def fails {α : Type} (error : Error) : Except Refusal α :=
  .error { failure := .failed error, sent := [] }

/-- Fails and signals it to the peer. -/
def refuses {α : Type} (error : Error) : Except Refusal α :=
  .error { failure := .failed error, sent := [negotiateAbort] }

/-- Reads a fragment, after what has been read of the message: its id, once there is one, and its
payload. -/
def readNegotiateFragment (id : Option MsgId) (payload : List UInt8) (fragment : Fragment) :
    Except Refusal (MsgId × List UInt8) :=
  let header := fragment.header
  if header.kind ≠ .negotiate then
    fails (.protocol ("expected a Negotiate frame, got " ++ header.kind.name))
  else if header.flags.wantAck then
    fails (.protocol "negotiate fragment cannot request an acknowledgement")
  else if header.flags.abort then
    if !header.flags.first || header.flags.last || header.flags.trailer || header.payloadLen != 0 then
      fails (.protocol "invalid negotiate ABORT fragment")
    else
      fails (.protocol "peer aborted RPC protocol negotiation (no mutually supported version)")
  else if negotiateFragmentSize < header.payloadLen then
    fails (.protocol "negotiate fragment exceeds the minimum tolerated size")
  else if negotiateMaxPayloadSize < payload.length + header.payloadLen then
    fails (.protocol "negotiate message exceeds the maximum tolerated total size")
  else
    match header.flags.first, id with
    | true, some _ => fails (.protocol "duplicate FIRST negotiate fragment")
    | false, none => fails (.protocol "negotiate fragment received before FIRST")
    | true, none => .ok (header.id, payload ++ fragment.payload)
    | false, some id => .ok (id, payload ++ fragment.payload)

/-- Reads what is left of a message, up to its last fragment. -/
def readNegotiateMessage (id : Option MsgId) (payload : List UInt8) :
    List Fragment → Except Refusal (MsgId × List UInt8)
  | [] => .error { failure := .connectionClosed, sent := [] }
  | fragment :: rest =>
    match readNegotiateFragment id payload fragment with
    | .error refusal => .error refusal
    | .ok (id, payload) =>
        if fragment.header.flags.last then .ok (id, payload)
        else readNegotiateMessage (some id) payload rest

/-! ### Negotiation -/

structure NegotiationResult where
  version : UInt8
  appProtocol : String × UInt16
  limits : Limits
  deriving DecidableEq, Repr

/-- An error of the serialization. -/
def postcardErr {α : Type} : Except String α → Except Refusal α
  | .ok a => .ok a
  | .error error => fails (.protocol ("negotiate: " ++ error))

/-- What an end makes of the message that it reads. -/
def negotiateWith [DecidableEq Digest] (pc : Postcard Digest) (e : Endpoint Digest) (id : MsgId)
    (payload : List UInt8) : Except Refusal NegotiationResult := do
  let peerVersions := (leBytes id 8).takeWhile (· ≠ 0)
  match [protocolVersion].reverse.find? fun version => decide (version ∈ peerVersions) with
  | none => refuses (.protocol "no mutually supported RPC protocol version")
  | some negotiated =>
    let peer ← postcardErr (pc.decodePayload payload)
    match peer.versionBlobs[peerVersions.idxOf negotiated]? with
    | none => fails (.protocol "missing handshake payload for negotiated version")
    | some blob =>
      let handshake ← postcardErr (pc.decodeHandshake blob)
      match verify e.auth handshake.key with
      | .error error => refuses error
      | .ok () =>
        let (peerName, peerAppVersions) := peer.appProtocol
        if e.name ≠ peerName then
          refuses (.protocol ("mismatched application protocol: local " ++ e.name.quote ++
            ", peer " ++ peerName.quote))
        else
          match e.sortedVersions.reverse.find? fun version => decide (version ∈ peerAppVersions) with
          | none =>
              refuses (.protocol
                ("no mutually supported version of application protocol " ++ e.name.quote))
          | some version =>
              return {
                version := negotiated
                appProtocol := (e.name, version)
                limits := handshake.limits.clampLimits e.limits.advertised }

namespace Endpoint

/-- The fragments that an end writes. -/
def written (pc : Postcard Digest) (e : Endpoint Digest) : List Fragment :=
  writeNegotiateMessage protocolVersion.toNat true (e.payload pc)

/-- What an end that reads `incoming` selects. -/
def negotiate [DecidableEq Digest] (pc : Postcard Digest) (e : Endpoint Digest)
    (incoming : List Fragment) : Except Refusal NegotiationResult := do
  let message ← readNegotiateMessage none [] incoming
  negotiateWith pc e message.1 message.2

end Endpoint

/-! ### Reading what the peer wrote -/

section Messages

/-- A fragment of a message is read if the message is not too large with it. -/
theorem read_fragment {id : MsgId} {first last : Bool} {message payload : List UInt8}
    (hfragment : payload.length ≤ negotiateFragmentSize)
    (hlen : message.length + payload.length ≤ negotiateMaxPayloadSize) :
    readNegotiateFragment (if first then none else some id) message
      (negotiateFragment id first last payload) = .ok (id, message ++ payload) := by
  unfold readNegotiateFragment negotiateFragment
  dsimp only
  rw [if_neg (by simp), if_neg (by simp), if_neg (by simp), if_neg (Nat.not_lt.mpr hfragment),
    if_neg (Nat.not_lt.mpr hlen)]
  cases first <;> rfl

theorem read_fragment_too_large (id : MsgId) (first last : Bool) {message payload : List UInt8}
    (hlen : negotiateMaxPayloadSize < message.length + payload.length) :
    ∃ refusal, readNegotiateFragment (if first then none else some id) message
      (negotiateFragment id first last payload) = .error refusal := by
  unfold readNegotiateFragment negotiateFragment
  dsimp only
  rw [if_neg (by simp), if_neg (by simp), if_neg (by simp), if_pos hlen]
  split_ifs <;> exact ⟨_, rfl⟩

/-- A message that is not too large is read as it was written. -/
theorem read_written (id : MsgId) (rest : List Fragment) (first : Bool) (message payload : List UInt8)
    (hlen : message.length + payload.length ≤ negotiateMaxPayloadSize) :
    readNegotiateMessage (if first then none else some id) message
      (writeNegotiateMessage id first payload ++ rest) = .ok (id, message ++ payload) := by
  induction first, payload using writeNegotiateMessage.induct generalizing message with
  | case1 first payload h =>
    rw [writeNegotiateMessage, if_pos h, List.singleton_append, readNegotiateMessage,
      read_fragment h hlen]
    rfl
  | case2 first payload h ih =>
    have hlength := congrArg List.length (List.take_append_drop negotiateFragmentSize payload)
    rw [List.length_append] at hlength
    have ih := ih (message ++ payload.take negotiateFragmentSize)
      (by rw [List.length_append]; omega)
    rw [List.append_assoc, List.take_append_drop] at ih
    rw [writeNegotiateMessage, if_neg h, List.cons_append, readNegotiateMessage,
      read_fragment (List.length_take_le ..) (by omega)]
    exact ih

/-- A message that is too large is refused. -/
theorem read_too_large (id : MsgId) (rest : List Fragment) (first : Bool) (message payload : List UInt8)
    (hlen : negotiateMaxPayloadSize < message.length + payload.length) :
    ∃ refusal, readNegotiateMessage (if first then none else some id) message
      (writeNegotiateMessage id first payload ++ rest) = .error refusal := by
  induction first, payload using writeNegotiateMessage.induct generalizing message with
  | case1 first payload h =>
    obtain ⟨refusal, hread⟩ := read_fragment_too_large id first true hlen
    rw [writeNegotiateMessage, if_pos h, List.singleton_append, readNegotiateMessage, hread]
    exact ⟨refusal, rfl⟩
  | case2 first payload h ih =>
    rw [writeNegotiateMessage, if_neg h, List.cons_append, readNegotiateMessage]
    by_cases hfits : message.length + (payload.take negotiateFragmentSize).length ≤
        negotiateMaxPayloadSize
    · have hlength := congrArg List.length (List.take_append_drop negotiateFragmentSize payload)
      rw [List.length_append] at hlength
      rw [read_fragment (List.length_take_le ..) hfits]
      exact ih (message ++ payload.take negotiateFragmentSize) (by rw [List.length_append]; omega)
    · obtain ⟨refusal, hread⟩ := read_fragment_too_large id first false (Nat.not_le.mp hfits)
      rw [hread]
      exact ⟨refusal, rfl⟩

end Messages

/-! ### The version -/

/-- The greatest of the versions that both lists have. -/
structure GreatestCommon (version : UInt16) (versions versions' : List UInt16) : Prop where
  left : version ∈ versions
  right : version ∈ versions'
  le : ∀ w ∈ versions, w ∈ versions' → w ≤ version

theorem GreatestCommon.symm {version : UInt16} {versions versions' : List UInt16}
    (h : GreatestCommon version versions versions') : GreatestCommon version versions' versions :=
  ⟨h.right, h.left, fun w hw hw' => h.le w hw' hw⟩

theorem GreatestCommon.unique {v w : UInt16} {versions versions' : List UInt16}
    (h : GreatestCommon v versions versions') (h' : GreatestCommon w versions versions') : v = w :=
  UInt16.le_antisymm (h'.le v h.left h.right) (h.le w h'.left h'.right)

namespace Endpoint

variable (a b : Endpoint Digest)

theorem mem_sortedVersions {version : UInt16} : version ∈ a.sortedVersions ↔ version ∈ a.versions :=
  List.mem_mergeSort

theorem pairwise_sortedVersions : a.sortedVersions.Pairwise (· ≤ ·) := by
  have hle : a.sortedVersions.Pairwise fun v w => decide (v ≤ w) = true := by
    refine List.pairwise_mergeSort (fun u v w huv hvw => ?_) (fun v w => ?_) a.versions
    · rw [decide_eq_true_eq] at huv hvw ⊢
      exact UInt16.le_trans huv hvw
    · rw [Bool.or_eq_true, decide_eq_true_eq, decide_eq_true_eq]
      exact UInt16.le_total v w
  exact hle.imp of_decide_eq_true

/-- The first of its versions, from the highest, that the peer has too. -/
def common : Option UInt16 :=
  a.sortedVersions.reverse.find? fun version => decide (version ∈ b.sortedVersions)

theorem common_eq_some {version : UInt16} :
    a.common b = some version ↔ GreatestCommon version a.versions b.versions := by
  have hfound : ∀ {version}, a.common b = some version →
      GreatestCommon version a.versions b.versions := by
    intro version h
    obtain ⟨hp, before, after, hsplit, hbefore⟩ := List.find?_eq_some_iff_append.mp h
    have hmem : version ∈ a.sortedVersions.reverse := by simp [hsplit]
    refine ⟨(a.mem_sortedVersions).mp (List.mem_reverse.mp hmem),
      (b.mem_sortedVersions).mp (of_decide_eq_true hp), fun w hw hw' => ?_⟩
    have hsorted := List.pairwise_reverse.mpr a.pairwise_sortedVersions
    rw [hsplit] at hsorted
    have hw : w ∈ before ++ version :: after := by
      rw [← hsplit, List.mem_reverse]
      exact (a.mem_sortedVersions).mpr hw
    obtain hw | hw := List.mem_append.mp hw
    · have hnot := hbefore w hw
      simp [b.mem_sortedVersions, hw'] at hnot
    · obtain rfl | hw := List.mem_cons.mp hw
      · exact UInt16.le_refl w
      · exact (List.pairwise_cons.mp (List.pairwise_append.mp hsorted).2.1).1 w hw
  refine ⟨hfound, fun h => ?_⟩
  cases hc : a.common b with
  | none =>
    have hnone := List.find?_eq_none.mp hc version
      (List.mem_reverse.mpr ((a.mem_sortedVersions).mpr h.left))
    simp [b.mem_sortedVersions, h.right] at hnone
  | some w => rw [(hfound hc).unique h]

/-! ### Both ends -/

variable [DecidableEq Digest] {pc : Postcard Digest} {a b}

/-- What an end makes of its peer's payload. -/
theorem negotiateWith_payload (hpc : pc.RoundTrips)
    (hauth : verify a.auth (b.auth.map Auth.send) = .ok ()) {result : NegotiationResult} :
    negotiateWith pc a protocolVersion.toNat (b.payload pc) = .ok result ↔
      a.name = b.name ∧ ∃ version, GreatestCommon version a.versions b.versions ∧
        result = { version := protocolVersion, appProtocol := (a.name, version),
                   limits := Rpc.negotiate a.limits b.limits } := by
  have hversions : (leBytes protocolVersion.toNat 8).takeWhile (· ≠ 0) = [1] := by decide
  have hfind : [protocolVersion].reverse.find? (fun version => decide (version ∈ [(1 : UInt8)])) =
      some 1 := by decide
  unfold negotiateWith
  simp only [hversions, hfind]
  rw [payload, hpc.payload]
  have hblob := hpc.handshake {
    limits := HandshakeV1.fromLimits b.limits.advertised
    key := b.auth.map Auth.send } (HandshakeV1.fits_fromLimits _)
  simp only [postcardErr, Except.bind, bind, List.getElem?_cons_zero, List.idxOf_cons_self, hblob,
    hauth]
  by_cases hname : a.name = b.name
  · rw [if_neg (not_not.mpr hname)]
    cases hcommon : a.common b with
    | none =>
      rw [common] at hcommon
      rw [hcommon]
      constructor
      · exact nofun
      · rintro ⟨-, version, hversion, -⟩
        rw [← common, (common_eq_some a b).mpr hversion] at hcommon
        cases hcommon
    | some version =>
      have hgreatest := (common_eq_some a b).mp hcommon
      rw [common] at hcommon
      rw [hcommon]
      constructor
      · intro h
        exact ⟨hname, version, hgreatest, (Except.ok.inj h).symm⟩
      · rintro ⟨-, version', hversion', rfl⟩
        rw [hversion'.unique hgreatest]
        rfl
  · rw [if_pos hname]
    exact ⟨nofun, fun h => absurd h.1 hname⟩

/-- What an end makes of what its peer wrote. -/
theorem negotiate_written (hpc : pc.RoundTrips)
    (hauth : verify a.auth (b.auth.map Auth.send) = .ok ()) (rest : List Fragment)
    {result : NegotiationResult} :
    a.negotiate pc (b.written pc ++ rest) = .ok result ↔
      (b.payload pc).length ≤ negotiateMaxPayloadSize ∧ a.name = b.name ∧
        ∃ version, GreatestCommon version a.versions b.versions ∧
          result = { version := protocolVersion, appProtocol := (a.name, version),
                     limits := Rpc.negotiate a.limits b.limits } := by
  unfold negotiate written
  by_cases hlen : (b.payload pc).length ≤ negotiateMaxPayloadSize
  · have hread := read_written protocolVersion.toNat rest true [] (b.payload pc)
      (by rwa [List.length_nil, Nat.zero_add])
    rw [if_pos rfl, List.nil_append] at hread
    rw [hread]
    exact (negotiateWith_payload hpc hauth).trans (and_iff_right hlen).symm
  · obtain ⟨refusal, hread⟩ := read_too_large protocolVersion.toNat rest true []
      (b.payload pc) (by rw [List.length_nil]; omega)
    rw [if_pos rfl] at hread
    rw [hread]
    exact ⟨nofun, fun h => absurd h.1 hlen⟩

/-- An end succeeds exactly if its peer's message is not too large and they have the name and a
version in common. -/
theorem negotiate_succeeds (hpc : pc.RoundTrips)
    (hauth : verify a.auth (b.auth.map Auth.send) = .ok ()) (rest : List Fragment) :
    (∃ result, a.negotiate pc (b.written pc ++ rest) = .ok result) ↔
      (b.payload pc).length ≤ negotiateMaxPayloadSize ∧ a.name = b.name ∧
        ∃ version, version ∈ a.versions ∧ version ∈ b.versions := by
  constructor
  · rintro ⟨result, h⟩
    obtain ⟨hlen, hname, version, hversion, -⟩ := (negotiate_written hpc hauth rest).mp h
    exact ⟨hlen, hname, version, hversion.left, hversion.right⟩
  · rintro ⟨hlen, hname, version, hleft, hright⟩
    cases hcommon : a.common b with
    | none =>
      have hnone := List.find?_eq_none.mp hcommon version
        (List.mem_reverse.mpr ((a.mem_sortedVersions).mpr hleft))
      simp [b.mem_sortedVersions, hright] at hnone
    | some greatest =>
      have hgreatest := (common_eq_some a b).mp hcommon
      exact ⟨_, (negotiate_written hpc hauth rest).mpr ⟨hlen, hname, greatest, hgreatest, rfl⟩⟩

end Endpoint

/-! ### A serialization -/

namespace Postcard

/-- A digest of `n` bytes. -/
abbrev Sized (n : ℕ) : Type :=
  { bytes : List UInt8 // bytes.length = n }

/-- The fields of a handshake, in the order in which they are written. -/
def handshake (n : ℕ) : Codec (Handshake (Sized n)) :=
  (Codec.nat.pair (Codec.nat.pair (Codec.nat.pair (Codec.nat.pair ((Codec.byte.array n).option.pair
    (Codec.nat.pair (Codec.nat.pair Codec.nat))))))).map
    (fun (fragment, payload, perFragment, perMessage, key, calls, window, outstanding) =>
      { limits := { maxFragmentSize := fragment, maxPayloadSize := payload,
                    maxHandlesPerFragment := perFragment, maxHandlesPerMessage := perMessage,
                    maxConcurrentCalls := calls, trailerSessionWindow := window,
                    maxOutstandingPayload := outstanding }
        key })
    (fun h => (h.limits.maxFragmentSize, h.limits.maxPayloadSize, h.limits.maxHandlesPerFragment,
      h.limits.maxHandlesPerMessage, h.key, h.limits.maxConcurrentCalls,
      h.limits.trailerSessionWindow, h.limits.maxOutstandingPayload))
    fun _ => rfl

/-- A string of characters that take one byte each. -/
def string : Codec String :=
  (Codec.nat.map Char.ofNat Char.toNat Char.ofNat_toNat).list.map String.ofList String.toList
    fun _ => String.ofList_toList

def u16 : Codec UInt16 :=
  Codec.nat.map UInt16.ofNat UInt16.toNat fun _ => UInt16.ofNat_toNat

def negotiatePayload : Codec NegotiatePayload :=
  (Codec.byte.list.list.pair (string.pair u16.list)).map (fun p => ⟨p.1, p.2⟩)
    (fun p => (p.versionBlobs, p.appProtocol)) fun _ => rfl

/-- The serialization of handshakes whose names are of characters that take one byte each. -/
def bytewise (n : ℕ) : Postcard (Sized n) where
  encodeHandshake := (handshake n).encode
  decodeHandshake bytes := ((handshake n).read bytes).elim (.error "unexpected end") .ok
  encodePayload := negotiatePayload.encode
  decodePayload bytes := (negotiatePayload.read bytes).elim (.error "unexpected end") .ok

theorem bytewise_roundTrips (n : ℕ) : (bytewise n).RoundTrips where
  handshake h _ := by
    show ((handshake n).read ((handshake n).encode h)).elim _ _ = _
    rw [Codec.read_encode]
    rfl
  payload p := by
    show (negotiatePayload.read (negotiatePayload.encode p)).elim _ _ = _
    rw [Codec.read_encode]
    rfl

section Lengths

variable {n : ℕ} (e : Endpoint (Sized n))

theorem payload_length :
    (e.payload (bytewise n)).length =
      ((Codec.byte.list.list).encode [(handshake n).encode {
          limits := HandshakeV1.fromLimits e.limits.advertised
          key := e.auth.map Auth.send }]).length + (string.encode e.name).length +
        (Codec.natBytes e.sortedVersions.length).length +
          (e.sortedVersions.flatMap u16.encode).length := by
  show (_ ++ (_ ++ (_ ++ e.sortedVersions.flatMap u16.encode)) : List UInt8).length = _
  rw [List.length_append, List.length_append, List.length_append, Nat.add_assoc, Nat.add_assoc]
  rfl

/-- Every version that an end supports takes a byte of its message at least. -/
theorem versions_le_payload : e.versions.length ≤ (e.payload (bytewise n)).length := by
  have hversions := Codec.length_le_flatMap (f := u16.encode) (fun v => Codec.natBytes_length v.toNat)
    e.sortedVersions
  have hlength : e.sortedVersions.length = e.versions.length := List.length_mergeSort e.versions
  rw [payload_length]
  omega

/-- The length of a handshake: five bytes for each limit at most. -/
theorem handshake_length_le {h : Handshake (Sized n)} (hfits : h.limits.Fits) :
    ((handshake n).encode h).length ≤ 36 + n := by
  have hfield : ∀ {v}, v ≤ u32Max → (Codec.natBytes v).length ≤ 5 := fun hv =>
    Codec.natBytes_length_le (Nat.lt_of_le_of_lt hv (by decide))
  have hkey : ((Codec.byte.array n).option.encode h.key).length ≤ 1 + n := by
    cases h.key with
    | none => exact Nat.le_add_right ..
    | some digest =>
      have hdigest := Codec.flatMap_length_le (f := Codec.byte.encode) (k := 1)
        (fun _ => Nat.le_refl 1) digest.1
      show (1 :: digest.1.flatMap Codec.byte.encode).length ≤ _
      rw [digest.2] at hdigest
      rw [List.length_cons]
      omega
  have hfragment := hfield hfits.maxFragmentSize
  have hpayload := hfield hfits.maxPayloadSize
  have hperFragment := hfield hfits.maxHandlesPerFragment
  have hperMessage := hfield hfits.maxHandlesPerMessage
  have hcalls := hfield hfits.maxConcurrentCalls
  have hwindow := hfield hfits.trailerSessionWindow
  have houtstanding := hfield hfits.maxOutstandingPayload
  show (Codec.natBytes _ ++ (Codec.natBytes _ ++ (Codec.natBytes _ ++ (Codec.natBytes _ ++
    (_ ++ (Codec.natBytes _ ++ (Codec.natBytes _ ++ Codec.natBytes _)))))) : List UInt8).length ≤ _
  simp only [List.length_append]
  omega

theorem blobs_length_le {h : Handshake (Sized n)} (hfits : h.limits.Fits) :
    (Codec.byte.list.list.encode [(handshake n).encode h]).length ≤ 2 * (36 + n) + 2 := by
  have hone := Codec.natBytes_length_le (k := 0) (n := 1) (by decide)
  have hcount := Codec.natBytes_length_le_succ ((handshake n).encode h).length
  have hbytes := Codec.flatMap_length_le (f := Codec.byte.encode) (k := 1) (fun _ => Nat.le_refl 1)
    ((handshake n).encode h)
  have hlength := handshake_length_le hfits
  show (Codec.natBytes 1 ++ ((Codec.natBytes _ ++ _) ++ []) : List UInt8).length ≤ _
  rw [List.append_nil, List.length_append, List.length_append]
  omega

/-- The length of a message, by the lengths of its parts. -/
theorem payload_le :
    (e.payload (bytewise n)).length ≤ 76 + 2 * n + 4 * e.name.length + 4 * e.versions.length := by
  have hversions := Codec.flatMap_length_le (f := u16.encode) (k := 3)
    (fun v => Codec.natBytes_length_le (Nat.lt_trans v.toNat_lt (by decide))) e.sortedVersions
  have hlength : e.sortedVersions.length = e.versions.length := List.length_mergeSort e.versions
  have hcount := Codec.natBytes_length_le_succ e.sortedVersions.length
  have hname : (string.encode e.name).length ≤ e.name.length + 1 + 3 * e.name.length := by
    have hchar : ∀ c : Char, (Codec.natBytes c.toNat).length ≤ 3 := by
      intro c
      refine Codec.natBytes_length_le ?_
      obtain h | ⟨-, h⟩ := c.valid
      · exact Nat.lt_trans h (by decide)
      · exact Nat.lt_trans h (by decide)
    have hchars := Codec.flatMap_length_le hchar e.name.toList
    have hlength := Codec.natBytes_length_le_succ e.name.toList.length
    rw [String.length_toList] at hchars hlength
    show (Codec.natBytes e.name.toList.length ++ _ : List UInt8).length ≤ _
    rw [List.length_append]
    exact Nat.add_le_add hlength hchars
  have hblob := blobs_length_le (h := {
    limits := HandshakeV1.fromLimits e.limits.advertised
    key := e.auth.map Auth.send }) (HandshakeV1.fits_fromLimits _)
  rw [payload_length]
  omega

end Lengths

end Postcard

/-- Both ends of a connection negotiate the same: each reads what the other wrote, whatever comes after
that. Either both succeed or both fail if their messages are both within the bound or both beyond. -/
theorem handshake_agrees [DecidableEq Digest] {pc : Postcard Digest} (hpc : pc.RoundTrips)
    (limits limits' : Limits) (name name' : String) (versions versions' : List UInt16)
    (key : Option (AuthKey Digest)) (rest rest' : List Fragment) :
    let client : Endpoint Digest := { limits, name, versions, auth := key.map AuthKey.asClient }
    let server : Endpoint Digest :=
      { limits := limits', name := name', versions := versions', auth := key.map AuthKey.asServer }
    let selects := client.negotiate pc (server.written pc ++ rest)
    let selects' := server.negotiate pc (client.written pc ++ rest')
    (((client.payload pc).length ≤ negotiateMaxPayloadSize ↔
        (server.payload pc).length ≤ negotiateMaxPayloadSize) →
      ((∃ result, selects = .ok result) ↔ ∃ result, selects' = .ok result)) ∧
    ∀ result result', selects = .ok result → selects' = .ok result' →
      result.version = result'.version ∧ result.appProtocol = result'.appProtocol ∧
        GreatestCommon result.appProtocol.2 versions versions' ∧
        result.limits.Agree result'.limits ∧
        result.limits.maxPayloadSize ≤ result.limits.maxOutstandingPayload ∧
        1 ≤ result.limits.trailerSessionWindow := by
  intro client server selects selects'
  have hclient : verify client.auth (server.auth.map Auth.send) = .ok () := by
    cases key with
    | none => rfl
    | some key => exact if_pos rfl
  have hserver : verify server.auth (client.auth.map Auth.send) = .ok () := by
    cases key with
    | none => rfl
    | some key => exact if_pos rfl
  constructor
  · intro hfits
    rw [Endpoint.negotiate_succeeds hpc hclient, Endpoint.negotiate_succeeds hpc hserver, hfits]
    simp only [client, server, eq_comm, and_comm]
  · intro result result' h h'
    obtain ⟨-, hname, version, hversion, rfl⟩ := (Endpoint.negotiate_written hpc hclient rest).mp h
    obtain ⟨-, -, version', hversion', rfl⟩ := (Endpoint.negotiate_written hpc hserver rest').mp h'
    obtain rfl := hversion.unique hversion'.symm
    obtain ⟨hpayload, -, hwindow, -⟩ := negotiate_spec limits limits'
    exact ⟨rfl, Prod.ext hname rfl, hversion, negotiate_agree limits limits', hpayload, hwindow⟩

/-- Two ends that share a key, one of which advertises no room for a payload. -/
theorem handshake_agrees_narrow :
    let key : Option (AuthKey (Postcard.Sized 1)) := some ⟨⟨[2], rfl⟩, ⟨[3], rfl⟩⟩
    let client : Endpoint (Postcard.Sized 1) :=
      { limits := {}, name := "shell", versions := [2, 1], auth := key.map AuthKey.asClient }
    let server : Endpoint (Postcard.Sized 1) :=
      { limits := { maxPayloadSize := 0 }, name := "shell", versions := [1, 3],
        auth := key.map AuthKey.asServer }
    let pc := Postcard.bytewise 1
    ∃ result result', client.negotiate pc (server.written pc) = .ok result ∧
      server.negotiate pc (client.written pc) = .ok result' ∧
      result.appProtocol = result'.appProtocol ∧ result.limits.Agree result'.limits := by
  intro key client server pc
  have hclient : (client.payload pc).length ≤ negotiateMaxPayloadSize :=
    Nat.le_trans (Postcard.payload_le client) (by decide)
  have hserver : (server.payload pc).length ≤ negotiateMaxPayloadSize :=
    Nat.le_trans (Postcard.payload_le server) (by decide)
  have hagrees := handshake_agrees (Postcard.bytewise_roundTrips 1) client.limits server.limits "shell"
    "shell" [2, 1] [1, 3] key [] []
  simp only [List.append_nil] at hagrees
  have hselects := (Endpoint.negotiate_succeeds (a := client) (b := server)
    (Postcard.bytewise_roundTrips 1) (if_pos rfl) []).mpr ⟨hserver, rfl, 1, by decide, by decide⟩
  rw [List.append_nil] at hselects
  obtain ⟨result, hresult⟩ := hselects
  obtain ⟨result', hresult'⟩ := (hagrees.1 ⟨fun _ => hserver, fun _ => hclient⟩).mp ⟨result, hresult⟩
  obtain ⟨-, happ, -, hlimits, -⟩ := hagrees.2 result result' hresult hresult'
  exact ⟨result, result', hresult, hresult', happ, hlimits⟩

/-- An end that supports so many versions that its message is too large succeeds with its peer, and
the peer fails. -/
theorem handshake_one_sided :
    let wide : Endpoint (Postcard.Sized 1) :=
      { limits := {}, name := "shell", versions := List.replicate 70000 1, auth := none }
    let narrow : Endpoint (Postcard.Sized 1) :=
      { limits := {}, name := "shell", versions := [1], auth := none }
    let pc := Postcard.bytewise 1
    (∃ result, wide.negotiate pc (narrow.written pc) = .ok result) ∧
      ¬∃ result, narrow.negotiate pc (wide.written pc) = .ok result := by
  intro wide narrow pc
  have hwide := Endpoint.negotiate_succeeds (a := wide) (b := narrow) (Postcard.bytewise_roundTrips 1)
    rfl []
  have hnarrow := Endpoint.negotiate_succeeds (a := narrow) (b := wide)
    (Postcard.bytewise_roundTrips 1) rfl []
  rw [List.append_nil] at hwide hnarrow
  constructor
  · refine hwide.mpr ⟨Nat.le_trans (Postcard.payload_le narrow) (by decide), rfl, 1, ?_,
      List.mem_singleton.mpr rfl⟩
    exact List.mem_replicate.mpr ⟨by decide, rfl⟩
  · intro h
    have hlong := Postcard.versions_le_payload wide
    have hlength : wide.versions.length = 70000 := List.length_replicate ..
    have hshort := (hnarrow.mp h).1
    simp only [negotiateMaxPayloadSize] at hshort
    omega

end Dolang.Rpc
