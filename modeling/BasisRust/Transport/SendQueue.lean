import BasisRust.Library.Bits
import BasisRust.Library.Queues
import BasisRust.Library.Run
import BasisRust.Transport.Packet

/-!
# The reliable send queue of a peer

A payload handed to the reliable side of a peer passes three places: the outgoing queue of its
channel, the list of packets a dispatch pass has taken out of the queues and not yet built, and the
in-flight queue of the channel, where it stays until an acknowledgement names it.

The queues, the sequence counters and the four atomic counters of `PeerState` are the fields of
`SendState`.  A dispatch pass drops the queue locks before it adjusts the counters and builds its
packets, so what it has taken and how far it has come is part of the state (`DispatchPhase`), and so
are the acknowledgements that have left the in-flight queue but not yet `pending_total`
(`released`). Every section the source runs under one lock is one step.

Three fields are history: `accepted` (the payloads admitted on each channel), `sent` (the packets
that were given a sequence number) and `acknowledged` (the packets an acknowledgement removed).
`PendingReliable.index` is the number of packets its channel had sent before.  No guard or result
reads them.
-/

namespace BasisRust.Transport

open Library

instance fintypeBitVec (w : ℕ) : Fintype (BitVec w) :=
  Fintype.ofEquiv (Fin (2 ^ w)) ⟨BitVec.ofFin, BitVec.toFin, fun _ => rfl, fun _ => rfl⟩

/-! ### Constants -/

def maxPendingReliablePerPeer : ℕ := 4096
def maxQueuedReliablePacketsPerPeer : ℕ := 8192
def maxQueuedReliableBytesPerPeer : ℕ := 8 * 1024 * 1024
def maxIncomingFragmentParts : ℕ := 128
def litenetlibInitialMtu : ℕ := 1024
def reliableFragmentPayloadSize : ℕ := litenetlibInitialMtu - litenetlibFragmentedHeaderSize
def maxReliableFragmentedMessageBytes : ℕ := maxIncomingFragmentParts * reliableFragmentPayloadSize

/-! ### Packets -/

structure ReliableFragment where
  id : ℕ
  part : ℕ
  total : ℕ
  deriving DecidableEq

structure OutgoingReliable where
  payload : Bytes
  fragment : Option ReliableFragment
  deriving DecidableEq

structure PendingReliable where
  sequence : ℕ
  bytes : Bytes
  index : ℕ
  deriving DecidableEq

/-- An admitted payload, with the fragment id it got if it was cut into parts. -/
structure Message where
  payload : Bytes
  fragmentId : Option ℕ
  deriving DecidableEq

def fragmentParts (payload : Bytes) : ℕ :=
  (payload.length + (reliableFragmentPayloadSize - 1)) / reliableFragmentPayloadSize

/-- `payload.chunks(RELIABLE_FRAGMENT_PAYLOAD_SIZE)`. -/
def chunks (payload : Bytes) : List Bytes :=
  (List.range (fragmentParts payload)).map fun i =>
    slice payload (i * reliableFragmentPayloadSize) reliableFragmentPayloadSize

/-- The parts of a fragmented payload, in order. -/
def fragmentPackets (payload : Bytes) (id total : ℕ) : List OutgoingReliable :=
  (chunks payload).zipIdx.map fun x => ⟨x.1, some ⟨id, x.2, total⟩⟩

/-- The packets a message travels in. -/
def Message.packets (m : Message) : List OutgoingReliable :=
  match m.fragmentId with
  | none => [⟨m.payload, none⟩]
  | some id => fragmentPackets m.payload id (fragmentParts m.payload)

/-! ### Peer state -/

/-- How far a dispatch pass has come with the packets it took from the queues. -/
inductive DispatchPhase where
  | idle
  | taken (newlyQueued : List (Byte × OutgoingReliable))
  | bytesReleased (newlyQueued : List (Byte × OutgoingReliable))
  | building (rest : List (Byte × OutgoingReliable))
  deriving DecidableEq

namespace DispatchPhase

/-- The packets that have left the outgoing queues and are not yet in flight. -/
def staged : DispatchPhase → List (Byte × OutgoingReliable)
  | idle => []
  | taken xs | bytesReleased xs | building xs => xs

/-- Bytes still counted as queued although they have left the queues. -/
def byteDebt : DispatchPhase → ℕ
  | taken xs => (xs.map fun x => x.2.payload.length).sum
  | _ => 0

/-- Packets still counted as queued although they have left the queues. -/
def packetDebt : DispatchPhase → ℕ
  | taken xs | bytesReleased xs => xs.length
  | _ => 0

/-- A pass that took nothing is over. -/
def afterMove (newlyQueued : List (Byte × OutgoingReliable)) : DispatchPhase :=
  if newlyQueued.isEmpty then .idle else .taken newlyQueued

/-- A pass that has built everything it took is over. -/
def afterBuild (rest : List (Byte × OutgoingReliable)) : DispatchPhase :=
  if rest.isEmpty then .idle else .building rest

section

variable (xs : List (Byte × OutgoingReliable))
include xs

@[simp] theorem afterMove_staged : (afterMove xs).staged = xs := by
  cases xs <;> rfl

@[simp] theorem afterMove_byteDebt :
    (afterMove xs).byteDebt = (xs.map fun x => x.2.payload.length).sum := by
  cases xs <;> rfl

@[simp] theorem afterMove_packetDebt : (afterMove xs).packetDebt = xs.length := by
  cases xs <;> rfl

@[simp] theorem afterBuild_staged : (afterBuild xs).staged = xs := by
  cases xs <;> rfl

@[simp] theorem afterBuild_byteDebt : (afterBuild xs).byteDebt = 0 := by
  cases xs <;> rfl

@[simp] theorem afterBuild_packetDebt : (afterBuild xs).packetDebt = 0 := by
  cases xs <;> rfl

end

end DispatchPhase

structure SendState where
  connectionNumber : BitVec 2
  outgoing : Byte → List OutgoingReliable
  pending : Byte → List PendingReliable
  nextSequence : Byte → ℕ
  queuedBytes : ℕ
  queuedPackets : ℕ
  pendingTotal : ℕ
  nextFragmentId : ℕ
  phase : DispatchPhase
  released : List ℕ
  closed : Bool
  accepted : Byte → List Message
  sent : Byte → List OutgoingReliable
  acknowledged : Byte → List ℕ

namespace SendState

/-- A peer that has just connected. -/
def init (connectionNumber : BitVec 2) : SendState where
  connectionNumber := connectionNumber
  outgoing := fun _ => []
  pending := fun _ => []
  nextSequence := fun _ => 0
  queuedBytes := 0
  queuedPackets := 0
  pendingTotal := 0
  nextFragmentId := 0
  phase := .idle
  released := []
  closed := false
  accepted := fun _ => []
  sent := fun _ => []
  acknowledged := fun _ => []

end SendState

/-- `AtomicUsize::fetch_add`. -/
@[irreducible] def fetchAdd (counter n : ℕ) : ℕ := (counter + n) % 2 ^ 64

/-- `AtomicUsize::fetch_sub`, which wraps below zero. -/
@[irreducible] def fetchSub (counter n : ℕ) : ℕ := (counter + 2 ^ 64 - n) % 2 ^ 64

theorem fetchAdd_of_lt {counter n : ℕ} (h : counter + n < 2 ^ 64) :
    fetchAdd counter n = counter + n := by
  rw [fetchAdd, Nat.mod_eq_of_lt h]

/-- Without underflow the subtraction is the true one. -/
theorem fetchSub_of_le {counter n : ℕ} (h : n ≤ counter) (hc : counter < 2 ^ 64) :
    fetchSub counter n = counter - n := by
  rw [fetchSub, show counter + 2 ^ 64 - n = (counter - n) + 2 ^ 64 from by omega,
    Nat.add_mod_right, Nat.mod_eq_of_lt (by omega)]

/-! ### Admission -/

def isReliableDelivery (delivery : DeliveryMethod) : Bool :=
  match delivery with
  | .reliableUnordered | .reliableOrdered | .reliableSequenced => true
  | _ => false

structure PlannedPayload where
  channelId : Byte
  payload : Bytes
  fragmented : Bool
  fragmentCount : ℕ
  deriving DecidableEq

/-- The two delivery methods whose oversized payloads are cut into parts. -/
def mayFragment (delivery : DeliveryMethod) : Bool :=
  match delivery with
  | .reliableOrdered | .reliableUnordered => true
  | _ => false

/-- Whether a payload does not fit one packet and may be cut. -/
def needsFragments (delivery : DeliveryMethod) (payload : Bytes) : Bool :=
  decide (payload.length + litenetlibChanneledHeaderSize > litenetlibInitialMtu) &&
    mayFragment delivery

/-- One round of the planning loop; `none` is its `return false`. -/
def planPayload (packet : Byte × DeliveryMethod × Bytes) : Option PlannedPayload :=
  let (channel, delivery, payload) := packet
  if !isReliableDelivery delivery || decide (payload.length > maxQueuedReliableBytesPerPeer) then
    none
  else
    let fragmented := needsFragments delivery payload
    let fragmentCount := if fragmented then fragmentParts payload else 1
    if fragmented && (decide (payload.length > maxReliableFragmentedMessageBytes) ||
        decide (fragmentCount > maxIncomingFragmentParts)) then
      none
    else some ⟨DeliveryMethod.channelId channel delivery, payload, fragmented, fragmentCount⟩

/-- One round of the publishing loop, on the queues and the fragment id counter. -/
def publish (queues : (Byte → List OutgoingReliable) × ℕ) (planned : PlannedPayload) :
    (Byte → List OutgoingReliable) × ℕ :=
  let (outgoing, nextFragmentId) := queues
  let queue := outgoing planned.channelId
  if !planned.fragmented then
    (Function.update outgoing planned.channelId (queue ++ [⟨planned.payload, none⟩]),
      nextFragmentId)
  else
    let fragmentId := (nextFragmentId + 1) % 65536
    (Function.update outgoing planned.channelId
      (queue ++ fragmentPackets planned.payload fragmentId planned.fragmentCount), fragmentId)

/-- The messages a batch stands for, each with its channel id, when the last fragment id was
`id`. -/
def batchMessages : ℕ → List (Byte × DeliveryMethod × Bytes) → List (Byte × Message)
  | _, [] => []
  | id, (channel, delivery, payload) :: packets =>
    let channelId := DeliveryMethod.channelId channel delivery
    if needsFragments delivery payload then
      (channelId, ⟨payload, some ((id + 1) % 65536)⟩) :: batchMessages ((id + 1) % 65536) packets
    else (channelId, ⟨payload, none⟩) :: batchMessages id packets

/-- Reserve both queue budgets for a whole batch, then publish it.  The sums do not saturate: a
batch that could reach `2 ^ 64` is far above the limits. -/
def enqueueReliableBatch (s : SendState) (packets : List (Byte × DeliveryMethod × Bytes)) :
    Bool × SendState :=
  if packets.isEmpty then (true, s)
  else
    match packets.mapM planPayload with
    | none => (false, s)
    | some plan =>
      let batchBytes := (plan.map fun p => p.payload.length).sum
      let batchPackets := (plan.map fun p => p.fragmentCount).sum
      if batchBytes > maxQueuedReliableBytesPerPeer then (false, s)
      else if s.queuedBytes + batchBytes > maxQueuedReliableBytesPerPeer ∨
          s.queuedPackets + batchPackets > maxQueuedReliablePacketsPerPeer then (false, s)
      else
        let queues := plan.foldl publish (s.outgoing, s.nextFragmentId)
        (true, { s with
          outgoing := queues.1
          nextFragmentId := queues.2
          queuedBytes := fetchAdd s.queuedBytes batchBytes
          queuedPackets := fetchAdd s.queuedPackets batchPackets
          accepted := fun c =>
            s.accepted c ++ onKey c (batchMessages s.nextFragmentId packets) })

/-! ### Dispatch -/

/-- How many new sequence numbers fit before the span from the oldest unacknowledged packet reaches
the window size. -/
def reliableWindowCapacity (nextSequence : ℕ) (oldestUnacked : Option ℕ) : ℕ :=
  let windowStart := oldestUnacked.getD nextSequence
  let span := relativeSequence nextSequence windowStart
  if 0 ≤ span ∧ span ≤ defaultWindowSize then defaultWindowSize - span.toNat else 0

/-- What a pass takes from one channel, and what it leaves there. -/
def dequeueReliableWindow (nextSequence : ℕ) (pending : List PendingReliable)
    (outgoing : List OutgoingReliable) (maxCount : ℕ) :
    List OutgoingReliable × List OutgoingReliable :=
  let capacity := reliableWindowCapacity nextSequence (pending.head?.map fun item => item.sequence)
  let count := min (min capacity outgoing.length) maxCount
  (outgoing.take count, outgoing.drop count)

/-- The loop of a pass over the channels, in the iteration order of the map. -/
def moveQueued (s : SendState) : List Byte → ℕ → (Byte → List OutgoingReliable) →
    List (Byte × OutgoingReliable) × (Byte → List OutgoingReliable)
  | [], _, outgoing => ([], outgoing)
  | channelId :: order, remaining, outgoing =>
    if remaining = 0 then ([], outgoing)
    else
      let (payloads, queue) := dequeueReliableWindow (s.nextSequence channelId)
        (s.pending channelId) (outgoing channelId) remaining
      let (newlyQueued, outgoing') := moveQueued s order (remaining - payloads.length)
        (Function.update outgoing channelId queue)
      (payloads.map (fun payload => (channelId, payload)) ++ newlyQueued, outgoing')

/-- The move step of a dispatch pass, under the locks of both queues. -/
def moveIntoWindow (s : SendState) (order : List Byte) : SendState :=
  let remaining := maxPendingReliablePerPeer - s.pendingTotal
  let moved := moveQueued s order remaining s.outgoing
  { s with
    outgoing := moved.2
    phase := .afterMove moved.1 }

def isSequencedId (channelId : Byte) : Bool :=
  decide (channelId.toNat % 4 = DeliveryMethod.reliableSequenced.offset)

/-- The sequence number the next packet of a channel gets.  The sequenced counter is advanced
before it is read, the others after. -/
def nextPacketSequence (s : SendState) (channelId : Byte) : ℕ :=
  if isSequencedId channelId then (s.nextSequence channelId + 1) % maxSequence
  else s.nextSequence channelId

/-- The header of a packet, its fragment fields if it has any, and its payload. -/
def reliablePacketBytes (connectionNumber : BitVec 2) (channelId : Byte) (sequence : ℕ)
    (outgoing : OutgoingReliable) : Bytes :=
  let header := PacketProperty.channeled.header connectionNumber
  match outgoing.fragment with
  | none => header :: leBytes 2 sequence ++ channelId :: outgoing.payload
  | some fragment =>
    (header ||| 0x80#8) :: leBytes 2 sequence ++ channelId ::
      (leBytes 2 fragment.id ++ leBytes 2 fragment.part ++ leBytes 2 fragment.total ++
        outgoing.payload)

/-- Number one packet and write its bytes. -/
def buildQueuedReliablePacket (s : SendState) (channelId : Byte) (outgoing : OutgoingReliable) :
    SendState × PendingReliable :=
  let sequence := nextPacketSequence s channelId
  ({ s with
      nextSequence := Function.update s.nextSequence channelId
        ((s.nextSequence channelId + 1) % maxSequence)
      sent := Function.update s.sent channelId (s.sent channelId ++ [outgoing]) },
    ⟨sequence, reliablePacketBytes s.connectionNumber channelId sequence outgoing,
      (s.sent channelId).length⟩)

/-- Put a built packet in flight, unless the peer already has the maximum in flight. -/
def recordPendingReliable (s : SendState) (channelId : Byte) (packet : PendingReliable) :
    Bool × SendState :=
  if s.pendingTotal ≥ maxPendingReliablePerPeer then (false, s)
  else
    (true, { s with
      pending := Function.update s.pending channelId (s.pending channelId ++ [packet])
      pendingTotal := fetchAdd s.pendingTotal 1 })

/-- One round of the building loop.  A refused packet stays gone. -/
def buildNext (s : SendState) (channelId : Byte) (outgoing : OutgoingReliable)
    (rest : List (Byte × OutgoingReliable)) : SendState :=
  let (built, packet) := buildQueuedReliablePacket s channelId outgoing
  let (_, recorded) := recordPendingReliable built channelId packet
  { recorded with phase := .afterBuild rest }

/-! ### Acknowledgements -/

/-- The size an acknowledgement of a channel must have. -/
def ackSize (channelId : Byte) : ℕ :=
  if isSequencedId channelId then litenetlibChanneledHeaderSize
  else litenetlibChanneledHeaderSize + (defaultWindowSize - 1) / 8 + 2

/-- The in-flight packets an acknowledgement releases. -/
def acknowledgedBy (windowStart : ℕ) (ackBits : Bytes) (item : PendingReliable) : Bool :=
  decide (relativeSequence item.sequence windowStart < defaultWindowSize) &&
    bitAt ackBits (item.sequence % defaultWindowSize)

/-- Release the packets of one channel for which `gone` holds, and remember how many they were. -/
def releasePending (s : SendState) (channelId : Byte) (gone kept : List PendingReliable) :
    SendState :=
  { s with
    pending := Function.update s.pending channelId kept
    acknowledged := Function.update s.acknowledged channelId
      (s.acknowledged channelId ++ gone.map fun item => item.index)
    released := if gone.isEmpty then s.released else gone.length :: s.released }

/-- Apply an incoming acknowledgement, up to the adjustment of `pending_total`. -/
def processAck (s : SendState) (bytes : Bytes) : SendState :=
  if bytes.length < litenetlibChanneledHeaderSize then s
  else
    let channelId := bytes.getD 3 0
    if bytes.length ≠ ackSize channelId then s
    else
      let ackWindowStart := leNat (slice bytes 1 2)
      let queue := s.pending channelId
      if ackWindowStart ≥ maxSequence then s
      else if isSequencedId channelId then
        match queue.findIdx? fun item => item.sequence = ackWindowStart with
        | none => s
        | some ackIndex =>
          releasePending s channelId (queue.take (ackIndex + 1)) (queue.drop (ackIndex + 1))
      else
        match queue with
        | [] => s
        | front :: _ =>
          let windowRel := relativeSequence front.sequence ackWindowStart
          if windowRel < 0 ∨ windowRel ≥ defaultWindowSize then s
          else
            let acknowledged := acknowledgedBy ackWindowStart (bytes.drop 4)
            releasePending s channelId (queue.filter acknowledged)
              (queue.filter fun item => !acknowledged item)

/-! ### The system -/

inductive SendAction where
  | enqueue (packets : List (Byte × DeliveryMethod × Bytes))
  | move (order : List Byte)
  | releaseBytes
  | releasePackets
  | build
  | ack (bytes : Bytes)
  | settle (released : ℕ)
  | close

/-- An order in which the map of outgoing queues can be walked. -/
def WalksQueues (s : SendState) (order : List Byte) : Prop :=
  order.Nodup ∧ ∀ c, s.outgoing c ≠ [] → c ∈ order

instance (s : SendState) (order : List Byte) : Decidable (WalksQueues s order) :=
  inferInstanceAs (Decidable (_ ∧ _))

/-- One step of the peer.  Closing the session takes the peer out of the maps; what still holds the
peer state may go on with it. -/
def sendStep (s : SendState) : SendAction → Option SendState
  | .enqueue packets => some (enqueueReliableBatch s packets).2
  | .move order =>
    if s.phase = .idle ∧ WalksQueues s order then some (moveIntoWindow s order) else none
  | .releaseBytes =>
    match s.phase with
    | .taken xs => some { s with
        queuedBytes := fetchSub s.queuedBytes (xs.map fun x => x.2.payload.length).sum
        phase := .bytesReleased xs }
    | _ => none
  | .releasePackets =>
    match s.phase with
    | .bytesReleased xs => some { s with
        queuedPackets := fetchSub s.queuedPackets xs.length
        phase := .building xs }
    | _ => none
  | .build =>
    match s.phase with
    | .building ((channelId, outgoing) :: rest) => some (buildNext s channelId outgoing rest)
    | _ => none
  | .ack bytes => some (processAck s bytes)
  | .settle released =>
    if released ∈ s.released then
      some { s with
        released := s.released.erase released
        pendingTotal := fetchSub s.pendingTotal released }
    else none
  | .close => some { s with closed := true }

/-- The send side of one peer. -/
def sendSystem (connectionNumber : BitVec 2) : System SendState SendAction where
  init := fun s => s = .init connectionNumber
  step := sendStep

end BasisRust.Transport
