import BasisRust.Transport.Ack
import BasisRust.Transport.Fragment

/-!
# The reliable receive side of a peer

Admission of ordered and unordered reliable packets, with the reorder buffer, the fragment
assemblies and the acknowledgement windows of all channels.

What the code asks its surroundings during one attempt to hand over a payload is a `Turn`: the
reorder budgets, the realtime handler, the admission lease, the event queue, and whether the session
is still open at each point where the code looks.  A session that is found closed stays closed.  The
ordered cursor is held for a whole admission (a realtime callback releases the lock but gates every
other admission), so an admission is one step; the drain loop takes one turn for each round it
makes.

`cursor`, `handed`, `recorded` and the index `n` of a packet are history: the number of packets
committed on a channel, what was handed over on it and to whom, and which packets of the channel, in
the sender's numbering, have been stored or committed.
-/

namespace BasisRust.Transport

open Library

/-! ### State -/

def maxOrderedReorderAhead : ℕ := defaultWindowSize - 1

def maxOrderedDrainPerPeerPerPass : ℕ := 256

structure RetainedOrderedMessage where
  payload : Bytes
  fragment : Option ReliableFragment
  budgets : ℕ
  deriving DecidableEq

structure OrderedReceiveState where
  expected : ℕ
  committed : ℕ → Option ℕ
  future : List (ℕ × RetainedOrderedMessage)
  cursor : ℕ

namespace OrderedReceiveState

def initial : OrderedReceiveState := ⟨0, fun _ => none, [], 0⟩

def isCommitted (st : OrderedReceiveState) (sequence : ℕ) : Bool :=
  decide (st.committed (sequence % defaultWindowSize) = some sequence)

def commit (st : OrderedReceiveState) (sequence : ℕ) : OrderedReceiveState :=
  { st with
    committed := Function.update st.committed (sequence % defaultWindowSize) (some sequence)
    expected := (sequence + 1) % maxSequence
    cursor := st.cursor + 1 }

end OrderedReceiveState

structure UnorderedReceiveState where
  expected : ℕ
  received : ℕ → Option ℕ
  cursor : ℕ

namespace UnorderedReceiveState

def initial : UnorderedReceiveState := ⟨0, fun _ => none, 0⟩

def contains (st : UnorderedReceiveState) (sequence : ℕ) : Bool :=
  decide (st.received (sequence % defaultWindowSize) = some sequence)

/-- The loop of `commit`, for at most `fuel` rounds. -/
def advance : ℕ → UnorderedReceiveState → UnorderedReceiveState
  | 0, st => st
  | fuel + 1, st =>
    if st.contains st.expected then
      advance fuel { st with expected := (st.expected + 1) % maxSequence, cursor := st.cursor + 1 }
    else st

/-- `advance_stops` shows that 128 rounds are always enough. -/
def commit (st : UnorderedReceiveState) (sequence : ℕ) : UnorderedReceiveState :=
  advance defaultWindowSize { st with
    received := Function.update st.received (sequence % defaultWindowSize) (some sequence) }

end UnorderedReceiveState

/-- A payload that was handed over: the index of its last packet, and whether the event queue or the
realtime handler took it. -/
structure Handed where
  index : ℕ
  payload : Bytes
  queued : Bool
  deriving DecidableEq

structure RecvState where
  ordered : Byte → OrderedReceiveState
  unordered : Byte → UnorderedReceiveState
  acks : Byte → AckState
  incoming : IncomingFragmentState
  closed : Bool
  handed : Byte → List Handed
  recorded : Byte → List ℕ

/-- The answer of a bounded queue to `try_reserve`. -/
inductive QueueAnswer where
  | free
  | full
  | closed
  deriving DecidableEq

/-- What the surroundings answer during one attempt to hand over a payload. -/
structure Turn where
  /-- `try_reserve` of the reorder budget for the payload. -/
  reserve : Bool
  answers : ReserveAnswers
  /-- The realtime handler consumes the payload. -/
  realtime : Bool
  openAfterCallback : Bool
  /-- Ordered admission queues are installed. -/
  admission : Bool
  lease : Bool
  queue : QueueAnswer
  openAtDelivery : Bool
  openAtCommit : Bool
  openAtRetain : Bool
  /-- A lifecycle slot is free when a session has to be rejected. -/
  rejectSlot : Bool

/-- An attempt at which everything is granted. -/
def Turn.willing : Turn where
  reserve := true
  answers := ⟨true, fun _ => true⟩
  realtime := false
  openAfterCallback := true
  admission := true
  lease := true
  queue := .free
  openAtDelivery := true
  openAtCommit := true
  openAtRetain := true
  rejectSlot := true

inductive AdmitResult where
  | done
  | invalidFragment
  | eventChannelClosed
  deriving DecidableEq

namespace RecvState

def init : RecvState where
  ordered := fun _ => .initial
  unordered := fun _ => .initial
  acks := fun _ => .initial
  incoming := .empty
  closed := false
  handed := fun _ => []
  recorded := fun _ => []

def close (s : RecvState) : RecvState := { s with closed := true }

/-- `queue_ack` on one channel. -/
def ack (s : RecvState) (c : Byte) (sequence : ℕ) : RecvState :=
  { s with acks := Function.update s.acks c (queueAck (s.acks c) sequence) }

def record (s : RecvState) (c : Byte) (n : ℕ) : RecvState :=
  { s with recorded := Function.update s.recorded c (n :: s.recorded c) }

def hand (s : RecvState) (c : Byte) (h : Handed) : RecvState :=
  { s with handed := Function.update s.handed c (s.handed c ++ [h]) }

def commitOrdered (s : RecvState) (c : Byte) (sequence : ℕ) : RecvState :=
  { s with ordered := Function.update s.ordered c ((s.ordered c).commit sequence) }

def setFuture (s : RecvState) (c : Byte) (future : List (ℕ × RetainedOrderedMessage)) : RecvState :=
  { s with ordered := Function.update s.ordered c { s.ordered c with future := future } }

/-- Keep a message in the reorder buffer. -/
def retain (s : RecvState) (c : Byte) (sequence : ℕ) (m : RetainedOrderedMessage) : RecvState :=
  s.setFuture c (assocSet sequence m (s.ordered c).future)

def commitUnordered (s : RecvState) (c : Byte) (sequence : ℕ) : RecvState :=
  { s with unordered := Function.update s.unordered c ((s.unordered c).commit sequence) }

end RecvState

/-! ### Ordered channels -/

inductive Delivery where
  | delivered
  | blocked
  | channelClosed
  deriving DecidableEq

/-- Commit a payload and hand it to the realtime handler, which has it already, or to the queue. -/
def commitAndHand (s : RecvState) (c : Byte) (sequence : ℕ) (payload : Bytes) (turn : Turn) :
    Delivery × RecvState :=
  if turn.openAtCommit then
    (.delivered, ((s.commitOrdered c sequence).ack c sequence).hand c
      ⟨(s.ordered c).cursor, payload, !turn.realtime⟩)
  else (.blocked, s.close)

def deliverOrderedEventWithRealtime (s : RecvState) (c : Byte) (sequence : ℕ) (payload : Bytes)
    (turn : Turn) : Delivery × RecvState :=
  if turn.admission then
    if !turn.openAtDelivery then (.blocked, s.close)
    else if turn.realtime then commitAndHand s c sequence payload turn
    else if !turn.lease then (.blocked, s)
    else
      match turn.queue with
      | .full => (.blocked, s)
      | .closed => (.channelClosed, s)
      | .free => commitAndHand s c sequence payload turn
  else
    match turn.queue with
    | .closed => (.channelClosed, s)
    | .full =>
      if !turn.openAtDelivery then (.blocked, s.close)
      else if !turn.realtime then (.blocked, s)
      else commitAndHand s c sequence payload turn
    | .free =>
      if !turn.openAtDelivery then (.blocked, s.close)
      else commitAndHand s c sequence payload turn

/-- The parts of a fragmented message that wait in the reorder buffer. -/
def bufferedFragmentParts (st : OrderedReceiveState) (fragment : ReliableFragment) (i : ℕ) : Bool :=
  decide (i < fragment.total) && st.future.any fun x =>
    x.2.fragment.any fun b =>
      decide (b.id = fragment.id) && decide (b.total = fragment.total) && decide (b.part = i)

inductive DrainRound where
  | again
  | stop (result : AdmitResult)
  deriving DecidableEq

/-- The second half of a drain round: offer a complete message, and keep it if nobody takes it. -/
def drainDeliver (s : RecvState) (c : Byte) (sequence : ℕ) (payload : Bytes) (budgets : ℕ)
    (turn : Turn) : DrainRound × RecvState :=
  if !turn.openAfterCallback then (.stop .done, s.close)
  else
    match deliverOrderedEventWithRealtime s c sequence payload turn with
    | (.delivered, s') => (.again, s')
    | (.blocked, s') =>
      (.stop .done, if s'.closed || !turn.openAtRetain then s'.close
        else s'.retain c sequence ⟨payload, none, budgets⟩)
    | (.channelClosed, s') =>
      (.stop .eventChannelClosed, if s'.closed || !turn.openAtRetain then s'.close
        else s'.retain c sequence ⟨payload, none, budgets⟩)

/-- One round of the drain loop. -/
def drainRound (s : RecvState) (c : Byte) (turn : Turn) : DrainRound × RecvState :=
  let sequence := (s.ordered c).expected
  match assocGet sequence (s.ordered c).future with
  | none => (.stop .done, s)
  | some retained =>
    let s := s.setFuture c (assocErase sequence (s.ordered c).future)
    match retained.fragment with
    | none => drainDeliver s c sequence retained.payload retained.budgets turn
    | some fragment =>
      if retained.budgets = 0 then (.stop .done, s)
      else
        let inserted := s.incoming.insert c fragment retained.payload turn.answers
          (bufferedFragmentParts (s.ordered c) fragment)
        let s := { s with incoming := inserted.2 }
        match inserted.1 with
        | .ok none =>
          if turn.openAtCommit then (.again, s.commitOrdered c sequence)
          else (.stop .done, s.close)
        | .ok (some (payload, budgets)) => drainDeliver s c sequence payload budgets turn
        | .error .invalid =>
          (.stop .invalidFragment, s.retain c sequence ⟨retained.payload, some fragment, 1⟩)
        | .error _ => (.stop .done, s.retain c sequence ⟨retained.payload, some fragment, 1⟩)

def drainOrderedState (s : RecvState) (c : Byte) : List Turn → AdmitResult × RecvState
  | [] => (.done, s)
  | turn :: turns =>
    match drainRound s c turn with
    | (.again, s') => drainOrderedState s' c turns
    | (.stop result, s') => (result, s')

/-- The packet the cursor waits for, whole. -/
def admitExpected (s : RecvState) (c : Byte) (sequence n : ℕ) (payload : Bytes) (turn : Turn)
    (drains : List Turn) : AdmitResult × RecvState :=
  if !turn.openAfterCallback then (.done, s.close)
  else
    match deliverOrderedEventWithRealtime s c sequence payload turn with
    | (.delivered, s') => drainOrderedState (s'.record c n) c drains
    | (.blocked, s') => (.done, s')
    | (.channelClosed, s') => (.eventChannelClosed, s')

/-- The packet the cursor waits for, a part of a fragmented message. -/
def admitExpectedFragment (s : RecvState) (c : Byte) (sequence n : ℕ) (payload : Bytes)
    (fragment : ReliableFragment) (turn : Turn) (drains : List Turn) : AdmitResult × RecvState :=
  let token := s.incoming.takeCompletionBudget c fragment
  let s := { s with incoming := token.2 }
  if !(token.1 || turn.reserve) then (.done, s)
  else
    let inserted := s.incoming.insert c fragment payload turn.answers
      (bufferedFragmentParts (s.ordered c) fragment)
    let s := { s with incoming := inserted.2 }
    match inserted.1 with
    | .error .invalid => (.invalidFragment, s)
    | .error _ => (.done, s)
    | .ok none =>
      if turn.openAtCommit then
        drainOrderedState (((s.commitOrdered c sequence).ack c sequence).record c n) c drains
      else (.done, s.close)
    | .ok (some (payload, budgets)) =>
      if !turn.openAfterCallback then (.done, s.close)
      else
        match deliverOrderedEventWithRealtime s c sequence payload turn with
        | (.delivered, s') => drainOrderedState (s'.record c n) c drains
        | (_, s') =>
          (.done, if s'.closed || !turn.openAtRetain then s'.close
            else ((s'.retain c sequence ⟨payload, none, budgets⟩).ack c sequence).record c n)

/-- A packet ahead of the cursor. -/
def admitAhead (s : RecvState) (c : Byte) (sequence n : ℕ) (payload : Bytes)
    (fragment : Option ReliableFragment) (turn : Turn) : RecvState :=
  if (s.ordered c).future.length ≥ maxOrderedReorderAhead then s
  else if !turn.reserve then s
  else if turn.openAtCommit then
    ((s.retain c sequence ⟨payload, fragment, 1⟩).ack c sequence).record c n
  else s.close

def admitReliableOrdered (s : RecvState) (c : Byte) (sequence n : ℕ) (payload : Bytes)
    (fragment : Option ReliableFragment) (turn : Turn) (drains : List Turn) :
    AdmitResult × RecvState :=
  if s.closed then (.done, s)
  else if (s.ordered c).isCommitted sequence ||
      (assocGet sequence (s.ordered c).future).isSome then
    (.done, if turn.openAtCommit then s.ack c sequence else s.close)
  else
    let distance := relativeSequence sequence (s.ordered c).expected
    if distance = 0 then
      match fragment with
      | none => admitExpected s c sequence n payload turn drains
      | some fragment => admitExpectedFragment s c sequence n payload fragment turn drains
    else if 0 < distance ∧ distance ≤ maxOrderedReorderAhead then
      (.done, admitAhead s c sequence n payload fragment turn)
    else (.done, s)

/-! ### Unordered channels -/

/-- Commit and acknowledge a packet of an unordered channel. -/
def commitAndAck (s : RecvState) (c : Byte) (sequence n : ℕ) : RecvState :=
  ((s.commitUnordered c sequence).ack c sequence).record c n

def admitUnorderedFragment (s : RecvState) (c : Byte) (sequence n : ℕ) (payload : Bytes)
    (fragment : ReliableFragment) (turn : Turn) : AdmitResult × RecvState :=
  match turn.queue with
  | .full => (.done, s)
  | .closed => (.eventChannelClosed, s)
  | .free =>
    let token := s.incoming.takeCompletionBudget c fragment
    let s := { s with incoming := token.2 }
    if !(token.1 || turn.reserve) then (.done, s)
    else
      let inserted := s.incoming.insert c fragment payload turn.answers fun _ => false
      let s := { s with incoming := inserted.2 }
      match inserted.1 with
      | .error .invalid => (.invalidFragment, s)
      | .error _ => (.done, s)
      | .ok none => (.done, commitAndAck s c sequence n)
      | .ok (some (payload, _)) =>
        if !turn.openAfterCallback then (.done, s.close)
        else (.done, (commitAndAck s c sequence n).hand c ⟨n, payload, !turn.realtime⟩)

def admitUnorderedWhole (s : RecvState) (c : Byte) (sequence n : ℕ) (payload : Bytes)
    (turn : Turn) : AdmitResult × RecvState :=
  if turn.queue = .closed then (.eventChannelClosed, s)
  else if !turn.openAfterCallback then (.done, s.close)
  else if turn.queue = .full ∧ turn.realtime = false then (.done, s)
  else (.done, (commitAndAck s c sequence n).hand c ⟨n, payload, !turn.realtime⟩)

def admitReliableUnordered (s : RecvState) (c : Byte) (sequence n : ℕ) (payload : Bytes)
    (fragment : Option ReliableFragment) (turn : Turn) : AdmitResult × RecvState :=
  if s.closed then (.done, s)
  else if (s.unordered c).contains sequence then (.done, s.ack c sequence)
  else
    let distance := relativeSequence sequence (s.unordered c).expected
    if distance < 0 ∨ distance ≥ defaultWindowSize then (.done, s)
    else
      match fragment with
      | some fragment =>
        if distance ≠ 0 then (.done, s)
        else admitUnorderedFragment s c sequence n payload fragment turn
      | none => admitUnorderedWhole s c sequence n payload turn

/-! ### Datagrams -/

/-- The payload and the fragment fields of a channeled packet. -/
def parseChanneledPacket (bytes : Bytes) : Option (Bytes × Option ReliableFragment) :=
  if bytes.length < litenetlibChanneledHeaderSize then none
  else if (bytes.getD 0 0) &&& 0x80#8 ≠ 0#8 then
    if bytes.length < litenetlibFragmentedHeaderSize then none
    else
      some (bytes.drop litenetlibFragmentedHeaderSize,
        some ⟨leNat (slice bytes 4 2), leNat (slice bytes 6 2), leNat (slice bytes 8 2)⟩)
  else some (bytes.drop 4, none)

/-- End a session whose fragments are invalid, if the lifecycle queue has room. -/
def rejectFragmentSession (s : RecvState) (turn : Turn) : RecvState :=
  if turn.rejectSlot then s.close else s

/-- Process a channeled packet of an ordered or unordered reliable channel; `n` is the index of the
packet on its channel.  The other delivery methods do not touch this part of the peer. -/
def processChanneled (s : RecvState) (n : ℕ) (bytes : Bytes) (turn : Turn) (drains : List Turn) :
    RecvState :=
  match parseChanneledPacket bytes with
  | none => s
  | some (payload, fragment) =>
    let c := bytes.getD 3 0
    let sequence := leNat (slice bytes 1 2)
    let delivery := DeliveryMethod.fromChannelId c
    if fragment.any fun f => !mayFragment delivery || fragmentMalformed f payload then
      rejectFragmentSession s turn
    else if isReliableDelivery delivery && decide (sequence ≥ maxSequence) then s
    else
      match delivery with
      | .reliableOrdered =>
        match admitReliableOrdered s c sequence n payload fragment turn drains with
        | (.invalidFragment, s') => rejectFragmentSession s' turn
        | (_, s') => s'
      | .reliableUnordered =>
        match admitReliableUnordered s c sequence n payload fragment turn with
        | (.invalidFragment, s') => rejectFragmentSession s' turn
        | (_, s') => s'
      | _ => s

/-- One channel of a drain pass of the dispatch loop. -/
def drainOrderedChannel (s : RecvState) (c : Byte) (turns : List Turn) (reject : Turn) :
    RecvState :=
  if s.closed then s
  else
    match drainOrderedState s c turns with
    | (.invalidFragment, s') => rejectFragmentSession s' reject
    | (_, s') => s'

end BasisRust.Transport
