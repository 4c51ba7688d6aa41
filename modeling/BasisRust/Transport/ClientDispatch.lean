import BasisRust.Transport.Packet

/-!
# Dispatch of the packets of a client

`handlePacket` is the dispatch of the dedicated receiver.  It parses the header and calls the
handler of the property; a merged datagram is walked over, and each entry is dispatched in its turn.

An action is a call of a handler, or a drop that the diagnostics count; an action for a reliable
packet keeps the bytes of the packet.  Handlers report no errors here.  What the handlers do is
modelled with the receive window and the reassembler.
-/

namespace BasisRust.Transport.Client

open Library

/-- `DropReason`, as far as the dispatch records it. -/
inductive DropReason where
  | empty
  | unknownProperty
  | shortHeader
  | invalidAckSize
  | invalidMerged
  deriving DecidableEq

structure ParsedPacket where
  property : PacketProperty
  connectionNumber : BitVec 2
  sequence : Option ℕ
  channelId : Option Byte
  payload : Bytes
  deriving DecidableEq

/-- The length of the header of a property. -/
def headerLength : PacketProperty → ℕ
  | .unreliable => 2
  | .channeled | .ack => 4
  | .ping => 3
  | .pong => 11
  | .connectAccept => 15
  | .disconnect => 9
  | _ => 1

/-- The two bytes behind the first one. -/
def sequenceOf (bytes : Bytes) : ℕ := leNat [bytes.getD 1 0, bytes.getD 2 0]

def channelIdOf (bytes : Bytes) : Byte := bytes.getD 3 0

/-- The fragment flag of the first byte. -/
def isFragmented (bytes : Bytes) : Bool := decide (bytes.headD 0 &&& 0x80#8 ≠ 0#8)

def parsePacket (bytes : Bytes) : Option ParsedPacket :=
  match bytes with
  | [] => none
  | first :: _ =>
    match PacketProperty.fromByte first with
    | none => none
    | some property =>
      if bytes.length < headerLength property then none
      else
        some
          { property
            connectionNumber := connectionNumberOf first
            sequence := match property with
              | .channeled | .ack | .ping | .pong => some (sequenceOf bytes)
              | _ => none
            channelId := match property with
              | .channeled | .ack => some (channelIdOf bytes)
              | _ => none
            payload := bytes.drop (headerLength property) }

/-- `record_unparsed_packet`. -/
def unparsedReason (bytes : Bytes) : DropReason :=
  match bytes with
  | [] => .empty
  | first :: _ => if PacketProperty.fromByte first = none then .unknownProperty else .shortHeader

/-- The size of a payload of an ACK that holds a whole window. -/
def ackPayloadSize : ℕ := (defaultWindowSize - 1) / 8 + 2

/-! ### One packet -/

inductive Act where
  | channeled (bytes : Bytes) (channelId : Byte) (sequence : ℕ) (payload : Bytes)
      (fragmented : Bool)
  | ack (bytes : Bytes) (channelId : Byte) (sequence : ℕ) (payload : Bytes)
  | unreliable (channel : Byte) (payload : Bytes)
  /-- connection control, pings and MTU probes -/
  | control (property : PacketProperty) (bytes : Bytes)
  | drop (reason : DropReason)
  deriving DecidableEq

/-- `handle_packet` of a packet that is no container. -/
def handleEntry (bytes : Bytes) : List Act :=
  match parsePacket bytes with
  | none => [.drop (unparsedReason bytes)]
  | some packet =>
    match packet.property with
    | .ack =>
      match packet.sequence, packet.channelId with
      | some sequence, some channelId => [.ack bytes channelId sequence packet.payload]
      | _, _ => []
    | .channeled =>
      match packet.channelId with
      | some channelId =>
        [.channeled bytes channelId (packet.sequence.getD 0) packet.payload (isFragmented bytes)]
      | none => []
    | .unreliable => [.unreliable (bytes.getD 1 0) (bytes.drop 2)]
    | property => [.control property bytes]

/-- A merged or compact-merged packet. -/
def isContainer (bytes : Bytes) : Bool :=
  match bytes.head?.bind PacketProperty.fromByte with
  | some .merged | some .compactMerged => true
  | _ => false

/-! ### Containers -/

/-- What a walk over a container did, and what it left unread. -/
structure Walked (α : Type) where
  acts : List α
  left : Bytes
  deriving DecidableEq

namespace Walked

variable {α : Type}

def stop (acts : List α) (left : Bytes) : Walked α := ⟨acts, left⟩

def after (acts : List α) (walk : Walked α) : Walked α := ⟨acts ++ walk.acts, walk.left⟩

@[simp] theorem after_acts (acts : List α) (walk : Walked α) :
    (after acts walk).acts = acts ++ walk.acts := rfl

end Walked

/-- The loop over a merged datagram. -/
def mergedFrom (bytes : Bytes) : Walked Act :=
  match bytes with
  | a :: b :: rest =>
    let size := leNat [a, b]
    if size = 0 ∨ rest.length < size then .stop [.drop .invalidMerged] bytes
    else
      let entry := rest.take size
      if isContainer entry then .stop [.drop .invalidMerged] bytes
      else if 2 ≤ entry.length ∧ entry.headD 0 &&& 0x1f#8 = 0#8 then
        .after [.unreliable (entry.getD 1 0) (entry.drop 2)] (mergedFrom (rest.drop size))
      else .after (handleEntry entry) (mergedFrom (rest.drop size))
  | [] => .stop [] []
  | [a] => .stop [.drop .invalidMerged] [a]
termination_by bytes.length
decreasing_by
  all_goals
    rw [List.length_drop, List.length_cons, List.length_cons]
    omega

/-- The length of a payload of the compact form, and what is behind the length field. -/
def payloadLength (tag : Byte) (bytes : Bytes) : Option (ℕ × Bytes) :=
  if tag &&& 0x80#8 ≠ 0#8 then
    match bytes with
    | a :: b :: rest => if leNat [a, b] ≤ 255 then none else some (leNat [a, b], rest)
    | _ => none
  else
    match bytes with
    | a :: rest => some (a.toNat, rest)
    | [] => none

theorem payloadLength_length {tag : Byte} {bytes rest : Bytes} {len : ℕ}
    (h : payloadLength tag bytes = some (len, rest)) : rest.length < bytes.length := by
  unfold payloadLength at h
  split at h
  · split at h
    · split at h
      · cases h
      · cases h
        simp only [List.length_cons]
        omega
    · cases h
  · split at h
    · cases h
      exact Nat.lt_succ_self _
    · cases h

/-- The loop over a compact datagram. -/
def compactFrom (bytes : Bytes) : Walked Act :=
  match bytes with
  | [] => .stop [] []
  | [tag] => .stop [.drop .invalidMerged] [tag]
  | tag :: len :: rest =>
    let isRaw := decide (tag &&& 0x40#8 ≠ 0#8)
    let channel := tag &&& 0x3f#8
    if isRaw = true ∧ channel ≠ 0#8 then .stop [.drop .invalidMerged] bytes
    else
      match _h : payloadLength tag (len :: rest) with
      | none => .stop [.drop .invalidMerged] bytes
      | some (payloadLen, behind) =>
        if behind.length < payloadLen then .stop [.drop .invalidMerged] bytes
        else
          let payload := behind.take payloadLen
          if isRaw then
            if payloadLen < 4 then .stop [.drop .invalidMerged] bytes
            else
              match payload.head?.bind PacketProperty.fromByte with
              | some .ack | some .channeled =>
                .after (handleEntry payload) (compactFrom (behind.drop payloadLen))
              | _ => .stop [.drop .invalidMerged] bytes
          else .after [.unreliable channel payload] (compactFrom (behind.drop payloadLen))
termination_by bytes.length
decreasing_by
  all_goals
    have hlt := payloadLength_length _h
    rw [List.length_drop, List.length_cons]
    omega

/-- `handle_packet`. -/
def handlePacket (bytes : Bytes) : Walked Act :=
  match parsePacket bytes with
  | none => .stop [.drop (unparsedReason bytes)] []
  | some packet =>
    match packet.property with
    | .merged => mergedFrom (bytes.drop 1)
    | .compactMerged => compactFrom (bytes.drop 1)
    | _ => .stop (handleEntry bytes) []

end BasisRust.Transport.Client
