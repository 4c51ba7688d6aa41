import BasisRust.Transport.FragmentInvariant

/-!
# Reassembly in the client

The client keeps the parts of the fragmented messages it is receiving in
`ReliableFragmentReassembler`, one assembly for each pair of channel id and fragment id.  Two limits
bound it: the number of assemblies and the bytes of all stored parts.  A refused fragment ends the
connection, because its packet has been acknowledged already.

The second half is what the sender of the server may put on one channel: the packets of a list of
cut payloads, with consecutive fragment ids (`FragmentStream`), and the orders in which their first
copies can come in (`FragmentStream.Legal`).  A packet is sent only when everything 128 places
before it has been acknowledged.  `FragmentStream.Fits` says of such an order that the two limits
are never reached; it reads nothing but the sizes of the payloads and the order.

Instants are nanoseconds.
-/

namespace BasisRust.Transport

open Library

/-! ### The reassembler -/

def maxReassemblies : ℕ := defaultWindowSize / 2
def maxReassemblyBytes : ℕ := defaultWindowSize * (litenetlibMaxMtu - 10)
def maxReassemblyParts : ℕ := 128
def fragmentExpiry : ℕ := 10 * 1000000000

structure FragmentAssembly where
  total : ℕ
  fragmentSize : Option ℕ
  parts : List (Option Bytes)
  received : ℕ
  bytes : ℕ
  updatedAt : ℕ
  deriving DecidableEq

structure ReliableFragmentReassembler where
  entries : List ((Byte × ℕ) × FragmentAssembly)
  bytes : ℕ
  lastError : Option String
  deriving DecidableEq

inductive FragmentResult where
  | pending
  | complete (bytes : Bytes)
  | duplicate
  | invalid
  deriving DecidableEq

namespace FragmentAssembly

/-- The assembly opened for a fragment, before the fragment is stored. -/
def opened (part total : ℕ) (data : Bytes) (now : ℕ) : FragmentAssembly where
  total := total
  fragmentSize := if part + 1 < total then some data.length else none
  parts := List.replicate total none
  received := 0
  bytes := 0
  updatedAt := now

/-- What is wrong with a fragment for an assembly that is open. -/
def conflict (entry : FragmentAssembly) (part total : ℕ) (data : Bytes) : Option String :=
  if entry.total ≠ total then some "conflicting total"
  else if part + 1 < total then
    if entry.fragmentSize.any fun size => decide (size ≠ data.length) then
      some "conflicting fragment sizes"
    else if entry.fragmentSize.isNone &&
        (entry.parts.getD (total - 1) none).any fun last => decide (last.length > data.length) then
      some "last fragment exceeds full size"
    else none
  else if entry.fragmentSize.any fun size => decide (data.length > size) then
    some "last fragment exceeds full size"
  else none

/-- Put a part into its place. -/
def put (entry : FragmentAssembly) (part total : ℕ) (data : Bytes) (now : ℕ) : FragmentAssembly :=
  { entry with
    fragmentSize := if part + 1 < total then some data.length else entry.fragmentSize
    parts := entry.parts.set part (some data)
    received := entry.received + 1
    bytes := entry.bytes + data.length
    updatedAt := now }

end FragmentAssembly

namespace ReliableFragmentReassembler

/-- `Default`. -/
def empty : ReliableFragmentReassembler := ⟨[], 0, none⟩

/-- The assembly of a key. -/
def get (r : ReliableFragmentReassembler) (key : Byte × ℕ) : Option FragmentAssembly :=
  assocGet key r.entries

def invalid (r : ReliableFragmentReassembler) (reason : String) :
    FragmentResult × ReliableFragmentReassembler :=
  (.invalid, { r with lastError := some reason })

def remove (r : ReliableFragmentReassembler) (key : Byte × ℕ) : ReliableFragmentReassembler :=
  match r.get key with
  | none => r
  | some entry => { r with entries := assocErase key r.entries, bytes := r.bytes - entry.bytes }

def insertEntry (r : ReliableFragmentReassembler) (key : Byte × ℕ) (entry : FragmentAssembly) :
    ReliableFragmentReassembler :=
  { r with entries := assocSet key entry r.entries }

/-- The keys of the assemblies that have got nothing for too long. -/
def expired (r : ReliableFragmentReassembler) (now : ℕ) : List (Byte × ℕ) :=
  (r.entries.filter fun x => decide (now - x.2.updatedAt > fragmentExpiry)).map Prod.fst

/-- The checks on the header and the data of a fragment. -/
def partOutOfBounds (part total : ℕ) (data : Bytes) : Bool :=
  !(decide (2 ≤ total) && decide (total ≤ maxReassemblyParts)) || decide (part ≥ total) ||
    data.isEmpty || decide (data.length > litenetlibMaxMtu - 10)

/-- Store a part in its assembly, which is `entry`, and take it out when it is complete. -/
def store (r : ReliableFragmentReassembler) (key : Byte × ℕ) (entry : FragmentAssembly)
    (part total : ℕ) (data : Bytes) (now : ℕ) : FragmentResult × ReliableFragmentReassembler :=
  if r.bytes + data.length > maxReassemblyBytes then (r.remove key).invalid "assembly byte limit"
  else
    let entry := entry.put part total data now
    let r := { r.insertEntry key entry with bytes := r.bytes + data.length }
    if entry.received ≠ entry.total then (.pending, r)
    else if entry.parts.all Option.isSome then
      (.complete ((entry.parts.map fun bytes => bytes.getD []).flatten), r.remove key)
    else r.invalid "missing completed part"

/-- What becomes of a fragment that is within the bounds. -/
def accept (r : ReliableFragmentReassembler) (key : Byte × ℕ) (part total : ℕ) (data : Bytes)
    (now : ℕ) : FragmentResult × ReliableFragmentReassembler :=
  match r.get key with
  | some entry =>
    match entry.conflict part total data with
    | some reason => (r.remove key).invalid reason
    | none =>
      match entry.parts.getD part none with
      | some existing =>
        if existing = data then (.duplicate, r)
        else (r.remove key).invalid "conflicting duplicate"
      | none => r.store key entry part total data now
  | none =>
    if r.entries.length ≥ maxReassemblies then r.invalid "assembly count limit"
    else
      let entry := FragmentAssembly.opened part total data now
      (r.insertEntry key entry).store key entry part total data now

def push (r : ReliableFragmentReassembler) (channelId : Byte) (payload : Bytes) (now : ℕ) :
    FragmentResult × ReliableFragmentReassembler :=
  let expired := r.expired now
  -- the fragment itself is dropped too
  if !expired.isEmpty then (expired.foldl remove r).invalid "expired assembly"
  else if payload.length ≤ 6 then r.invalid "short header"
  else
    let id := leNat (slice payload 0 2)
    let part := leNat (slice payload 2 2)
    let total := leNat (slice payload 4 2)
    let data := payload.drop 6
    if partOutOfBounds part total data then r.invalid "invalid part bounds"
    else r.accept (channelId, id) part total data now

/-- The key of a fragment that is long enough to have one. -/
def ownKey (channelId : Byte) (payload : Bytes) : Byte × ℕ := (channelId, leNat (slice payload 0 2))

/-- A call of `push`. -/
structure Push where
  channelId : Byte
  payload : Bytes
  now : ℕ

/-- The results of a list of calls, and the state after them. -/
def pushAll : ReliableFragmentReassembler → List Push →
    List FragmentResult × ReliableFragmentReassembler
  | r, [] => ([], r)
  | r, call :: calls =>
    let (result, r) := r.push call.channelId call.payload call.now
    let (results, r) := pushAll r calls
    (result :: results, r)

/-- The bytes of the parts that are held. -/
def heldBytes (r : ReliableFragmentReassembler) : ℕ :=
  assocSum (fun entry => IncomingFragmentAssembly.storedBytes entry.parts) r.entries

end ReliableFragmentReassembler

/-! ### The sizes of a stream -/

/-- A packet that comes in, named by its message and its part in it. -/
structure PartArrival where
  message : ℕ
  part : ℕ
  time : ℕ
  deriving DecidableEq

namespace PartArrival

def slot (a : PartArrival) : ℕ × ℕ := (a.message, a.part)

/-- When the newest part of a message came. -/
def lastTime (arrived : List PartArrival) (i : ℕ) : ℕ :=
  ((arrived.find? fun a => decide (a.message = i)).map PartArrival.time).getD 0

end PartArrival

/-- What a stream of cut payloads of these sizes looks like after some of its packets have come in;
the lists of what has arrived have the newest first. -/
structure StreamSizes where
  sizes : List ℕ
  deriving DecidableEq

namespace StreamSizes

variable (z : StreamSizes)

/-- The number of parts of a message. -/
def parts (i : ℕ) : ℕ :=
  (z.sizes.getD i 0 + (reliableFragmentPayloadSize - 1)) / reliableFragmentPayloadSize

/-- The bytes of a part. -/
def partBytes (i j : ℕ) : ℕ :=
  min reliableFragmentPayloadSize (z.sizes.getD i 0 - j * reliableFragmentPayloadSize)

/-- The place of a part in the stream. -/
def position (i j : ℕ) : ℕ := ((List.range i).map z.parts).sum + j

/-- The parts of a message that are there. -/
def arrivedParts (arrived : List PartArrival) (i : ℕ) : List ℕ :=
  (List.range (z.parts i)).filter fun j => decide ((i, j) ∈ arrived.map PartArrival.slot)

/-- All parts of the message are there. -/
def isComplete (arrived : List PartArrival) (i : ℕ) : Bool :=
  decide (z.parts i ≤ (z.arrivedParts arrived i).length)

/-- The messages that are there as a whole. -/
def completeMessages (arrived : List PartArrival) : List ℕ :=
  (List.range z.sizes.length).filter (z.isComplete arrived)

/-- The messages of which something is there and something is missing. -/
def openMessages (arrived : List PartArrival) : List ℕ :=
  (List.range z.sizes.length).filter fun i =>
    decide (0 < (z.arrivedParts arrived i).length) && !z.isComplete arrived i

/-- The bytes that are there of one message. -/
def arrivedBytes (arrived : List PartArrival) (i : ℕ) : ℕ :=
  ((z.arrivedParts arrived i).map (z.partBytes i)).sum

/-- The bytes that are there of the open messages. -/
def openBytes (arrived : List PartArrival) : ℕ :=
  ((z.openMessages arrived).map (z.arrivedBytes arrived)).sum

/-- **A first copy that the window allows**, in time for all open messages. -/
structure Next (arrived : List PartArrival) (a : PartArrival) : Prop where
  message : a.message < z.sizes.length
  part : a.part < z.parts a.message
  firstCopy : a.slot ∉ arrived.map PartArrival.slot
  window : ∀ i < z.sizes.length, ∀ j < z.parts i,
    z.position i j + defaultWindowSize ≤ z.position a.message a.part →
      (i, j) ∈ arrived.map PartArrival.slot
  inTime : ∀ i ∈ z.openMessages arrived, a.time - PartArrival.lastTime arrived i ≤ fragmentExpiry

/-- The limits leave room for one more packet. -/
structure Room (arrived : List PartArrival) (a : PartArrival) : Prop where
  count : a.message ∈ z.openMessages arrived ∨ (z.openMessages arrived).length < maxReassemblies
  bytes : z.openBytes arrived + z.partBytes a.message a.part ≤ maxReassemblyBytes

instance (arrived : List PartArrival) (a : PartArrival) : Decidable (z.Next arrived a) :=
  decidable_of_iff (a.message < z.sizes.length ∧ a.part < z.parts a.message ∧
      a.slot ∉ arrived.map PartArrival.slot ∧
      (∀ i < z.sizes.length, ∀ j < z.parts i,
        z.position i j + defaultWindowSize ≤ z.position a.message a.part →
          (i, j) ∈ arrived.map PartArrival.slot) ∧
      ∀ i ∈ z.openMessages arrived, a.time - PartArrival.lastTime arrived i ≤ fragmentExpiry)
    ⟨fun ⟨h₁, h₂, h₃, h₄, h₅⟩ => ⟨h₁, h₂, h₃, h₄, h₅⟩,
      fun h => ⟨h.message, h.part, h.firstCopy, h.window, h.inTime⟩⟩

instance (arrived : List PartArrival) (a : PartArrival) : Decidable (z.Room arrived a) :=
  decidable_of_iff ((a.message ∈ z.openMessages arrived ∨
      (z.openMessages arrived).length < maxReassemblies) ∧
      z.openBytes arrived + z.partBytes a.message a.part ≤ maxReassemblyBytes)
    ⟨fun ⟨h₁, h₂⟩ => ⟨h₁, h₂⟩, fun h => ⟨h.count, h.bytes⟩⟩

/-- Every arrival has a property that may depend on the earlier ones. -/
def EachArrival (P : List PartArrival → PartArrival → Prop) :
    List PartArrival → List PartArrival → Prop
  | _, [] => True
  | arrived, a :: arrivals => P arrived a ∧ EachArrival P (a :: arrived) arrivals

instance EachArrival.decidable (P : List PartArrival → PartArrival → Prop)
    [∀ l a, Decidable (P l a)] : ∀ arrived arrivals, Decidable (EachArrival P arrived arrivals)
  | _, [] => isTrue trivial
  | arrived, a :: arrivals =>
    have := EachArrival.decidable P (a :: arrived) arrivals
    inferInstanceAs (Decidable (P arrived a ∧ EachArrival P (a :: arrived) arrivals))

end StreamSizes

/-! ### The stream of one channel -/

/-- Payloads that the server sends one after the other on one channel, when the last fragment id was
`lastFragmentId` and the next sequence number is `nextSequence`. -/
structure FragmentStream where
  connectionNumber : BitVec 2
  channel : Byte
  delivery : DeliveryMethod
  lastFragmentId : ℕ
  nextSequence : ℕ
  payloads : List Bytes

namespace FragmentStream

variable (s : FragmentStream)

def channelId : Byte := DeliveryMethod.channelId s.channel s.delivery

def sizes : StreamSizes := ⟨s.payloads.map List.length⟩

def payload (i : ℕ) : Bytes := s.payloads.getD i []

def messages : List Message :=
  (batchMessages s.lastFragmentId
    (s.payloads.map fun payload => (s.channel, s.delivery, payload))).map Prod.snd

/-- The packets in the order of the queue. -/
def packets : List OutgoingReliable := s.messages.flatMap Message.packets

/-- What the client's parser hands on of the `n`-th packet: everything behind the channeled
header. -/
def packetPayload (n : ℕ) : Bytes :=
  (s.packets[n]?).elim [] fun outgoing =>
    (reliablePacketBytes s.connectionNumber s.channelId ((s.nextSequence + n) % maxSequence)
      outgoing).drop litenetlibChanneledHeaderSize

/-- The call of `push` for an arrival. -/
def call (a : PartArrival) : ReliableFragmentReassembler.Push :=
  ⟨s.channelId, s.packetPayload (s.sizes.position a.message a.part), a.time⟩

/-- What the client answers to the packets of a new connection. -/
def results (arrivals : List PartArrival) : List FragmentResult :=
  (ReliableFragmentReassembler.empty.pushAll (arrivals.map s.call)).1

/-- **An order in which the packets can come in**: every payload is cut, and every packet is a first
copy that the window allows. -/
structure Legal (arrivals : List PartArrival) : Prop where
  delivery : mayFragment s.delivery = true
  cut : ∀ payload ∈ s.payloads, CutPayload payload
  arrivals : StreamSizes.EachArrival s.sizes.Next [] arrivals

/-- The limits of the client are not reached. -/
def Fits (arrivals : List PartArrival) : Prop := StreamSizes.EachArrival s.sizes.Room [] arrivals

/-- The messages the client completes, with the bytes it hands on. -/
def completions : List PartArrival → List FragmentResult → List (ℕ × Bytes)
  | a :: arrivals, .complete bytes :: results => (a.message, bytes) :: completions arrivals results
  | _ :: arrivals, _ :: results => completions arrivals results
  | _, _ => []

/-- **What a legal stream should come to**: no packet is refused, and every message whose packets
are all there has been completed once, with the bytes of the sender. -/
structure Accepted (arrivals : List PartArrival) : Prop where
  valid : .invalid ∉ s.results arrivals
  once : (completions arrivals (s.results arrivals)).Perm
    ((s.sizes.completeMessages arrivals).map fun i => (i, s.payload i))

end FragmentStream
end BasisRust.Transport
