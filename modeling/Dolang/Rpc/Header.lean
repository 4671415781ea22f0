import Dolang.Rpc.Wire

/-!
# Encoded headers

The header of a fragment as bytes, `RawFragmentHeader` of `fragment.rs`: flags, kind, two reserved
bytes, the length of the payload and the id of the message. A fragment that is read back is the one
that was written (`readFragment_frame`).
-/

namespace Dolang.Rpc

open Bytes

/-- The number of a kind on the wire. -/
def Kind.code : Kind → UInt8
  | .request => 0
  | .response => 1
  | .error => 2
  | .cancel => 3
  | .discard => 4
  | .negotiate => 5
  | .ack => 6
  | .release => 7
  | .credit => 8
  | .payloadCredit => 9

/-- The kind of a number, `Kind::try_from`. -/
def Kind.tryFrom (value : UInt8) : Except Error Kind :=
  match value with
  | 0 => .ok .request
  | 1 => .ok .response
  | 2 => .ok .error
  | 3 => .ok .cancel
  | 4 => .ok .discard
  | 5 => .ok .negotiate
  | 6 => .ok .ack
  | 7 => .ok .release
  | 8 => .ok .credit
  | 9 => .ok .payloadCredit
  | _ => .error (.protocol s!"unknown frame kind {value}")

theorem Kind.tryFrom_code (kind : Kind) : Kind.tryFrom kind.code = .ok kind := by
  cases kind <;> rfl

namespace Flags

/-- The bits of a set of flags. -/
def bits (f : Flags) : UInt8 :=
  (if f.first then 1 else 0) + (if f.last then 2 else 0) + (if f.abort then 4 else 0) +
    (if f.trailer then 8 else 0) + if f.wantAck then 16 else 0

/-- The flags of a byte, `Flags::from_bits`. -/
def fromBits (bits : UInt8) : Except Error Flags :=
  if bits &&& 0xe0 ≠ 0 then
    .error (.protocol
      ("invalid fragment flags 0x" ++ String.ofList (Nat.toDigits 16 bits.toNat)))
  else .ok {
    first := bits &&& 1 == 1
    last := bits &&& 2 == 2
    abort := bits &&& 4 == 4
    trailer := bits &&& 8 == 8
    wantAck := bits &&& 16 == 16 }

theorem fromBits_bits (f : Flags) : fromBits f.bits = .ok f := by
  obtain ⟨a, b, c, d, e⟩ := f
  cases a <;> cases b <;> cases c <;> cases d <;> cases e <;> rfl

end Flags

namespace FragmentHeader

/-- The bytes of a header, `FragmentHeader::encode_into`. -/
def encode (h : FragmentHeader) : List UInt8 :=
  h.flags.bits :: h.kind.code :: 0 :: 0 :: leBytes h.payloadLen 4 ++ leBytes h.id 8

/-- Reads a header back, `RawFragmentHeader::decode`. The reserved bytes are not looked at. -/
def decode : List UInt8 → Option (Except Error FragmentHeader)
  | flags :: kind :: _ :: _ :: rest =>
    if rest.length = 12 then
      some do
        let flags ← Flags.fromBits flags
        let kind ← Kind.tryFrom kind
        return { flags, kind, id := ofLe (rest.drop 4), payloadLen := ofLe (rest.take 4) }
    else none
  | _ => none

/-- The numbers of a header fit their fields. -/
structure Fits (h : FragmentHeader) : Prop where
  id : h.id < 2 ^ 64
  payloadLen : h.payloadLen < 2 ^ 32

@[simp]
theorem length_encode (h : FragmentHeader) : h.encode.length = headerLen := by
  simp [encode, headerLen]

theorem decode_encode {h : FragmentHeader} (hfits : h.Fits) : decode h.encode = some (.ok h) := by
  have hlen : (leBytes h.payloadLen 4).length = 4 := leBytes_length ..
  have hid : ofLe (leBytes h.id 8) = h.id := by
    rw [ofLe_leBytes]
    exact Nat.mod_eq_of_lt hfits.id
  have hpayload : ofLe (leBytes h.payloadLen 4) = h.payloadLen := by
    rw [ofLe_leBytes]
    exact Nat.mod_eq_of_lt hfits.payloadLen
  simp only [encode, decode, List.cons_append]
  rw [if_pos (by simp), List.drop_left' hlen, List.take_left' hlen, hid, hpayload,
    Flags.fromBits_bits, Kind.tryFrom_code]
  rfl

end FragmentHeader

/-- The header of a fragment of a trailer. -/
def dataHeader (kind : Kind) (id : MsgId) (payloadLen : ℕ) : FragmentHeader where
  flags := {}
  kind
  id
  payloadLen

/-- The bytes of a fragment of a trailer. -/
def frame (kind : Kind) (id : MsgId) (payload : List UInt8) : List UInt8 :=
  (dataHeader kind id payload.length).encode ++ payload

/-- Reads one fragment off the wire: its header, its payload, and what comes after. -/
def readFragment (wire : List UInt8) :
    Option (Except Error (FragmentHeader × List UInt8 × List UInt8)) :=
  match FragmentHeader.decode (wire.take headerLen) with
  | none => none
  | some (.error e) => some (.error e)
  | some (.ok header) =>
    let rest := wire.drop headerLen
    if rest.length < header.payloadLen then none
    else some (.ok (header, rest.take header.payloadLen, rest.drop header.payloadLen))

@[simp]
theorem length_frame (kind : Kind) (id : MsgId) (payload : List UInt8) :
    (frame kind id payload).length = headerLen + payload.length := by
  simp [frame]

theorem frame_ne_nil (kind : Kind) (id : MsgId) (payload : List UInt8) :
    frame kind id payload ≠ [] := by
  apply List.ne_nil_of_length_pos
  rw [length_frame]
  exact Nat.lt_of_lt_of_le (by decide : 0 < headerLen) (Nat.le_add_right _ _)

/-- A fragment is read back as it was written. -/
theorem readFragment_frame {kind : Kind} {id : MsgId} {payload : List UInt8} (hid : id < 2 ^ 64)
    (hlen : payload.length < 2 ^ 32) (rest : List UInt8) :
    readFragment (frame kind id payload ++ rest) =
      some (.ok (dataHeader kind id payload.length, payload, rest)) := by
  unfold readFragment frame
  rw [List.append_assoc, List.take_left' (FragmentHeader.length_encode _),
    List.drop_left' (FragmentHeader.length_encode _), FragmentHeader.decode_encode ⟨hid, hlen⟩]
  simp [dataHeader]

end Dolang.Rpc
