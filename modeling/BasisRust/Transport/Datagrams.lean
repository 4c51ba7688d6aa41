import BasisRust.Library.Packing
import BasisRust.Transport.Ack
import BasisRust.Transport.MergedWalk
import BasisRust.Transport.SendQueue

/-!
# Packing packets into datagrams

The transport sends several packets to a peer in one datagram.  `buildMergedDatagrams` and
`buildCompactMergedDatagrams` pack packets that are built already, `MergedDatagramBuilder` packs
what a pass over a peer produces, and `unreliableDatagrams` is the hot path, which frames payloads
without building their packets first.  Each is the packer of `Framing` with its own framing: how an
entry looks, what is sent bare, and how a datagram with one entry is unwrapped.

The hot path hands its datagrams to the socket one by one, and stops at a socket error; the
datagrams here are those it would send without one.
-/

namespace BasisRust.Transport

open Library

def maxMergedPacketSize : ℕ := 1200
def litenetlibMtuSteps : List ℕ := [1024, 1164, 1392, 1404, 1424, 1432]

/-! ### What the callers pack -/

def buildPingPacket (connectionNumber : BitVec 2) (sequence : ℕ) : Bytes :=
  PacketProperty.ping.header connectionNumber :: leBytes 2 sequence

/-- The packets that reach a packer: unreliable and sequenced ones of `build_outbound_packet`, and
the reliable packets, acknowledgements and pings of the passes over the peers. -/
inductive BuiltPacket where
  | unreliable (channel : Byte) (payload : Bytes)
  | sequenced (channelId : Byte) (sequence : ℕ) (payload : Bytes)
  | reliable (channelId : Byte) (sequence : ℕ) (outgoing : OutgoingReliable)
  | ack (channelId : Byte) (windowStart : ℕ) (bits : Bytes)
  | ping (sequence : ℕ)

def BuiltPacket.bytes (connectionNumber : BitVec 2) : BuiltPacket → Bytes
  | unreliable channel payload =>
    PacketProperty.unreliable.header connectionNumber :: channel :: payload
  | sequenced channelId sequence payload =>
    PacketProperty.channeled.header connectionNumber :: leBytes 2 sequence ++ channelId :: payload
  | reliable channelId sequence outgoing =>
    reliablePacketBytes connectionNumber channelId sequence outgoing
  | ack channelId windowStart bits => buildAckPacket connectionNumber channelId windowStart bits
  | ping sequence => buildPingPacket connectionNumber sequence

/-- What `confirmed_mtu` can be: its initial value, or the size of a probe that was answered. -/
inductive ConfirmedMtu : ℕ → Prop
  | initial : ConfirmedMtu maxMergedPacketSize
  | probed {mtu : ℕ} (h : mtu ∈ litenetlibMtuSteps) : ConfirmedMtu (max mtu maxMergedPacketSize)

/-! ### The plain form -/

def mergedFrame (packet : Bytes) : Bytes := leBytes 2 packet.length ++ packet

/-- The packet of a datagram that holds one entry. -/
def unpackSingleMergedPacket (merged : Bytes) : Bytes :=
  match merged with
  | _ :: a :: b :: rest =>
    let size := leNat [a, b]
    if rest.length < size then merged else rest.take size
  | _ => merged

def mergedFraming (connectionNumber : BitVec 2) : Framing Bytes Byte where
  header := PacketProperty.merged.header connectionNumber
  limit := maxMergedPacketSize
  eligible _ := true
  framedLen packet := 2 + packet.length
  frame := mergedFrame
  bare := id
  single := unpackSingleMergedPacket
  closesOversized := true

def buildMergedDatagrams (connectionNumber : BitVec 2) (packets : List Bytes) : List Bytes :=
  if packets.length ≤ 1 then packets else (mergedFraming connectionNumber).pack packets

/-! ### The compact form -/

def compactLongLengthFlag : Byte := 0x80
def compactRawPacketFlag : Byte := 0x40
def compactChannelMask : Byte := 0x3f

def compactEntryHeaderLen (payloadLen : ℕ) : ℕ := if payloadLen ≤ 255 then 2 else 3

/-- What `push_compact_entry_header` appends. -/
def compactEntryHeader (channel : Byte) (payloadLen : ℕ) : Bytes :=
  if payloadLen ≤ 255 then [channel &&& compactChannelMask, BitVec.ofNat 8 payloadLen]
  else (channel &&& compactChannelMask ||| compactLongLengthFlag) :: leBytes 2 payloadLen

def compactUnreliableEntry (packet : Bytes) : Option (Byte × Bytes) :=
  match packet with
  | header :: channel :: payload =>
    if PacketProperty.fromByte header ≠ some .unreliable then none
    else if channel &&& ~~~compactChannelMask ≠ 0 then none
    else some (channel, payload)
  | _ => none

def compactRawEntry (packet : Bytes) : Option Bytes :=
  if packet.length < litenetlibChanneledHeaderSize ∨ packet.length > 65535 then none
  else
    match packet.head?.bind PacketProperty.fromByte with
    | some .channeled => some packet
    | some .ack => some packet
    | _ => none

/-- What `push_compact_raw_entry` appends. -/
def compactRawBytes (packet : Bytes) : Bytes :=
  (if packet.length ≤ 255 then [compactRawPacketFlag, BitVec.ofNat 8 packet.length]
  else (compactRawPacketFlag ||| compactLongLengthFlag) :: leBytes 2 packet.length) ++ packet

/-- A packet in the compact form. -/
inductive CompactFrame where
  | unreliable (channel : Byte) (payload : Bytes)
  | raw (packet : Bytes)
  deriving DecidableEq

namespace CompactFrame

def of (packet : Bytes) : Option CompactFrame :=
  ((compactUnreliableEntry packet).map fun e => .unreliable e.1 e.2).or
    ((compactRawEntry packet).map .raw)

def framedLen : CompactFrame → ℕ
  | unreliable _ payload => compactEntryHeaderLen payload.length + payload.length
  | raw packet => compactEntryHeaderLen packet.length + packet.length

def bytes : CompactFrame → Bytes
  | unreliable channel payload => compactEntryHeader channel payload.length ++ payload
  | raw packet => compactRawBytes packet

end CompactFrame

/-- The packet of a datagram that holds one entry. -/
def compactSingleEntry (compact : Bytes) : Option Bytes :=
  match compact with
  | first :: tag :: len :: rest =>
    let isRaw := isRawTag tag
    let channel := tag &&& compactChannelMask
    if PacketProperty.fromByte first ≠ some .compactMerged then none
    else if isRaw = true ∧ channel ≠ 0 then none
    else
      match compactPayload tag (len :: rest) with
      | some (payload, []) =>
        if isRaw then
          if payload.length < litenetlibChanneledHeaderSize then none
          else
            match payload.head?.bind PacketProperty.fromByte with
            | some .channeled => some payload
            | some .ack => some payload
            | _ => none
        else
          some (PacketProperty.unreliable.header (connectionNumberOf first) :: channel :: payload)
      | _ => none
  | _ => none

def unpackSingleCompactPacket (compact : Bytes) : Bytes := (compactSingleEntry compact).getD compact

def compactFraming (connectionNumber : BitVec 2) (mtu : ℕ) : Framing Bytes Byte where
  header := PacketProperty.compactMerged.header connectionNumber
  limit := mtu
  eligible packet := (CompactFrame.of packet).isSome
  framedLen packet := ((CompactFrame.of packet).map CompactFrame.framedLen).getD 0
  frame packet := ((CompactFrame.of packet).map CompactFrame.bytes).getD []
  bare := id
  single := unpackSingleCompactPacket
  closesOversized := true

def buildCompactMergedDatagrams (connectionNumber : BitVec 2) (mtu : ℕ) (packets : List Bytes) :
    List Bytes :=
  if packets.length ≤ 1 then packets else (compactFraming connectionNumber mtu).pack packets

def buildSendDatagrams (connectionNumber : BitVec 2) (compactSend : Bool) (packets : List Bytes) :
    List Bytes :=
  if packets.length ≤ 1 then packets
  else
    let allCompact := compactSend && packets.all fun packet =>
      (compactUnreliableEntry packet).isSome || (compactRawEntry packet).isSome
    if allCompact then buildCompactMergedDatagrams connectionNumber maxMergedPacketSize packets
    else buildMergedDatagrams connectionNumber packets

/-! ### The builder -/

/-- The packer of the dispatch loop, reused across peers. -/
structure MergedDatagramBuilder where
  connectionNumber : BitVec 2
  current : Bytes
  datagrams : List Bytes
  count : ℕ

namespace MergedDatagramBuilder

def reset (_b : MergedDatagramBuilder) (connectionNumber : BitVec 2) : MergedDatagramBuilder :=
  ⟨connectionNumber, [], [], 0⟩

def startDatagram (b : MergedDatagramBuilder) : MergedDatagramBuilder :=
  { b with current := [PacketProperty.merged.header b.connectionNumber], count := 0 }

def sealDatagram (b : MergedDatagramBuilder) : MergedDatagramBuilder :=
  if b.count = 0 then b
  else
    { b with
      datagrams := b.datagrams ++
        [if b.count = 1 then unpackSingleMergedPacket b.current else b.current]
      current := []
      count := 0 }

def push (b : MergedDatagramBuilder) (packet : Bytes) : MergedDatagramBuilder :=
  let framedLen := 2 + packet.length
  let b :=
    if 0 < b.count ∧ b.current.length + framedLen > maxMergedPacketSize then b.sealDatagram else b
  if framedLen + 1 > maxMergedPacketSize then
    let b := if 0 < b.count then b.sealDatagram else b
    { b with datagrams := b.datagrams ++ [packet] }
  else
    let b := if b.count = 0 ∧ b.current = [] then b.startDatagram else b
    { b with current := b.current ++ mergedFrame packet, count := b.count + 1 }

/-- The datagrams of one peer, whatever the builder was used for before. -/
def datagramsFor (b : MergedDatagramBuilder) (connectionNumber : BitVec 2) (packets : List Bytes) :
    List Bytes :=
  (packets.foldl push (b.reset connectionNumber)).sealDatagram.datagrams

end MergedDatagramBuilder

/-! ### The hot path -/

/-- A payload to be sent unreliably, with a byte of it replaced. -/
structure UnreliablePacket where
  channel : Byte
  payload : Bytes
  intervalPatch : Option (ℕ × Byte)
  deriving DecidableEq

def extendPayloadWithPatch (output payload : Bytes) (patch : Option (ℕ × Byte)) : Bytes :=
  match patch with
  | some (offset, value) =>
    if offset < payload.length then (output ++ payload).set (output.length + offset) value
    else output ++ payload
  | none => output ++ payload

namespace UnreliablePacket

/-- The packet on its own. -/
def bare (connectionNumber : BitVec 2) (packet : UnreliablePacket) : Bytes :=
  extendPayloadWithPatch [PacketProperty.unreliable.header connectionNumber, packet.channel]
    packet.payload packet.intervalPatch

def compactFraming (connectionNumber : BitVec 2) (mtu : ℕ) : Framing UnreliablePacket Byte where
  header := PacketProperty.compactMerged.header connectionNumber
  limit := mtu
  eligible packet := packet.channel &&& ~~~compactChannelMask == 0 &&
    decide (packet.payload.length ≤ 65535)
  framedLen packet := compactEntryHeaderLen packet.payload.length + packet.payload.length
  frame packet := extendPayloadWithPatch (compactEntryHeader packet.channel packet.payload.length)
    packet.payload packet.intervalPatch
  bare := bare connectionNumber
  single := unpackSingleCompactPacket
  closesOversized := false

/-- A datagram with one entry stays wrapped in the plain form. -/
def mergedFraming (connectionNumber : BitVec 2) (mtu : ℕ) : Framing UnreliablePacket Byte where
  header := PacketProperty.merged.header connectionNumber
  limit := mtu
  eligible _ := true
  framedLen packet := packet.payload.length + 2 + 2
  frame packet := leBytes 2 (packet.payload.length + 2) ++
    extendPayloadWithPatch [PacketProperty.unreliable.header connectionNumber, packet.channel]
      packet.payload packet.intervalPatch
  bare := bare connectionNumber
  single := id
  closesOversized := false

end UnreliablePacket

/-- The datagrams of `try_send_session_many_unreliable_packets`, on the sending side of a session
that is current. -/
def unreliableDatagrams (connectionNumber : BitVec 2) (compactMergeSend : Bool) (mtu : ℕ)
    (packets : List UnreliablePacket) : List Bytes :=
  match packets with
  | [] => []
  | [packet] => [packet.bare connectionNumber]
  | packets =>
    if compactMergeSend then (UnreliablePacket.compactFraming connectionNumber mtu).pack packets
    else (UnreliablePacket.mergedFraming connectionNumber mtu).pack packets

/-! ### The receiving side -/

/-- The packets a datagram is processed as. -/
def receivedPackets (connectionNumber : BitVec 2) (datagram : Bytes) : List Bytes :=
  match datagram.head?.bind PacketProperty.fromByte with
  | some .merged => nestedEntries connectionNumber .merged datagram
  | some .compactMerged => nestedEntries connectionNumber .compactMerged datagram
  | _ => [datagram]

end BasisRust.Transport
