import BasisRust.Transport.Link

/-!
# The receive window of the client

The client records reliable packets in a bitmap of its own: 128 bits for each channel id, bit
`sequence % 128`, with the oldest number of the window.  The window slides only when a packet
arrives from beyond it.  A channel that has something to acknowledge is marked, and the maintenance
loop renders the marked windows under the lock and sends them one after the other outside it.

The four tables of `ReliableReceiveState`, each indexed by the channel id, are one table of records
here.  `ReceiveWindow.base` is history: how often the window has been slid, which is the unwrapped
value of `window_start`.  `arrived` and `fresh` are history too: the packets that reached
`mark_new`, and those for which it answered that they are new.

`clientSystem` joins the client to the sender of a server peer by a network that may lose,
duplicate, delay and reorder, as in `linkSystem`.
-/

namespace BasisRust.Transport

open Library

/-! ### One channel -/

structure ReceiveWindow where
  received : BitVec 128
  windowStart : ℕ
  started : Bool
  ackDirty : Bool
  base : ℕ
  deriving DecidableEq

namespace ReceiveWindow

def initial : ReceiveWindow := ⟨0, 0, false, false, 0⟩

/-- One round of the slide loop. -/
def slideOne (w : ReceiveWindow) : ReceiveWindow :=
  { w with
    received := w.received &&& ~~~(1#128 <<< (w.windowStart % defaultWindowSize))
    windowStart := (w.windowStart + 1) % maxSequence
    base := w.base + 1 }

/-- Slide the window by `shift` numbers. -/
def slide : ℕ → ReceiveWindow → ReceiveWindow
  | 0, w => w
  | shift + 1, w => slide shift w.slideOne

/-- The duplicate check: set the bit of a sequence number, and say whether it was clear. -/
def markBit (w : ReceiveWindow) (sequence : ℕ) : Bool × ReceiveWindow :=
  let bit := 1#128 <<< (sequence % defaultWindowSize)
  if w.received &&& bit ≠ 0 then (false, w)
  else (true, { w with received := w.received ||| bit })

/-- Record a received sequence number, and say whether it is new. -/
def markNew (w : ReceiveWindow) (sequence : ℕ) : Bool × ReceiveWindow :=
  if sequence ≥ maxSequence then (false, w)
  else
    let relate := relativeSequence sequence w.windowStart
    if relate < 0 then (false, w)
    else if relate ≥ (defaultWindowSize * 2 : ℕ) then (false, w)
    else
      -- the acknowledgement is owed before the duplicate check
      let w := { w with started := true, ackDirty := true }
      let w := if relate ≥ defaultWindowSize then w.slide (relate.toNat - defaultWindowSize + 1)
        else w
      w.markBit sequence

/-- The bits of an acknowledgement, rendered from the first `n` bits of the window. -/
def renderBits (received : BitVec 128) : ℕ → Bytes
  | 0 => List.replicate ackBytes 0#8
  | offset + 1 =>
    if received &&& (1#128 <<< offset) ≠ 0 then setBitAt (renderBits received offset) offset
    else renderBits received offset

/-- The window as an acknowledgement, `none` while the channel has received nothing. -/
def ackWindow (w : ReceiveWindow) : Option (ℕ × Bytes) :=
  if w.started then some (w.windowStart, renderBits w.received defaultWindowSize) else none

end ReceiveWindow

/-! ### All channels -/

abbrev ReliableReceiveState := Byte → ReceiveWindow

/-- The channel ids in the order of the table. -/
def channelIds : List Byte := (List.range 256).map (BitVec.ofNat 8)

/-- The channels that owe an acknowledgement, and the table with their marks cleared. -/
def ReliableReceiveState.takeDirtyChannels (s : ReliableReceiveState) :
    List Byte × ReliableReceiveState :=
  (channelIds.filter fun c => (s c).ackDirty, fun c => { s c with ackDirty := false })

structure ClientReceiver where
  reliable : ReliableReceiveState
  ackPending : Bool
  arrived : Byte → List ℕ
  fresh : Byte → List ℕ

def ClientReceiver.init : ClientReceiver := ⟨fun _ => .initial, false, fun _ => [], fun _ => []⟩

/-- What handling a channeled packet, the `n`-th of its channel, does to the receive windows. -/
def handleChanneledPacket (s : ClientReceiver) (n : ℕ) (c : Byte) (sequence : ℕ) : ClientReceiver :=
  if mayFragment (DeliveryMethod.fromChannelId c) then
    let r := (s.reliable c).markNew sequence
    { reliable := Function.update s.reliable c r.2
      ackPending := true
      arrived := Function.update s.arrived c (n :: s.arrived c)
      fresh := Function.update s.fresh c (if r.1 then n :: s.fresh c else s.fresh c) }
  else s

/-- The receive path of one datagram that carries the `n`-th packet of its channel. -/
def receivePacket (s : ClientReceiver) (n : ℕ) (bytes : Bytes) : ClientReceiver :=
  if bytes.length < litenetlibChanneledHeaderSize then s
  else if bytes.head?.bind PacketProperty.fromByte = some .channeled then
    handleChanneledPacket s n (bytes.getD 3 0) (leNat (slice bytes 1 2))
  else s

/-! ### The client, the server's sender and the network -/

/-- An acknowledgement that has been rendered and not sent yet. -/
structure RenderedAck where
  channel : Byte
  bytes : Bytes
  base : ℕ

structure ClientLink where
  sender : SendState
  client : ClientReceiver
  data : List DataDatagram
  sending : List RenderedAck
  acks : List AckDatagram

def ClientLink.init (connectionNumber : BitVec 2) : ClientLink where
  sender := .init connectionNumber
  client := .init
  data := []
  sending := []
  acks := []

/-- The datagram has not been overtaken by too many newer packets. -/
def ClientLink.alive (l : ClientLink) (channel : Byte) (bornAt : ℕ) : Bool :=
  decide ((l.sender.sent channel).length < bornAt + maxDatagramAge)

/-- The acknowledgement of channel `c` as it is rendered now. -/
def renderAck (connectionNumber : BitVec 2) (s : ReliableReceiveState) (c : Byte) :
    Option RenderedAck :=
  (s c).ackWindow.map fun window =>
    ⟨c, buildAckPacket connectionNumber c window.1 window.2, (s c).base⟩

/-- Take the marked channels and render their windows; the datagrams go out afterwards. -/
def flushAcks (l : ClientLink) : ClientLink :=
  let taken := l.client.reliable.takeDirtyChannels
  { l with
    client := { l.client with reliable := taken.2, ackPending := false }
    sending := taken.1.filterMap (renderAck l.sender.connectionNumber taken.2) }

inductive ClientAction where
  | send (a : SendAction)
  | transmit (channel : Byte) (i : ℕ)
  | deliver (i : ℕ)
  | flushAcks
  | sendAck
  | sendFailed
  | deliverAck (i : ℕ)

def clientStep (l : ClientLink) : ClientAction → Option ClientLink
  | .send a =>
    if a.isLocal then (sendStep l.sender a).map fun s => { l with sender := s } else none
  | .transmit c i =>
    match (l.sender.pending c)[i]? with
    | none => none
    | some item => some { l with
        data := l.data ++ [⟨c, item.bytes, item.index, (l.sender.sent c).length⟩] }
  | .deliver i =>
    match l.data[i]? with
    | none => none
    | some d =>
      if l.alive d.channel d.bornAt then
        some { l with client := receivePacket l.client d.index d.bytes }
      else none
  | .flushAcks => if l.sending.isEmpty then some (flushAcks l) else none
  | .sendAck =>
    match l.sending with
    | [] => none
    | q :: rest => some { l with
        sending := rest
        acks := l.acks ++ [⟨q.channel, q.bytes, q.base, (l.sender.sent q.channel).length⟩] }
  -- an error of the socket ends the flush
  | .sendFailed => some { l with sending := [] }
  | .deliverAck i =>
    match l.acks[i]? with
    | none => none
    | some a =>
      if l.alive a.channel a.bornAt then some { l with sender := processAck l.sender a.bytes }
      else none

/-- The client, the sender of the server and the network between them. -/
def clientSystem (connectionNumber : BitVec 2) : System ClientLink ClientAction where
  init := fun l => l = .init connectionNumber
  step := clientStep

end BasisRust.Transport
