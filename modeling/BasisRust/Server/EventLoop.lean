import BasisRust.Library.Run
import BasisRust.Server.OrderedQueue

/-!
# The event loop and its ordered lanes

`event_loop_with_handler` as a transition system.  One iteration of the loop is one step: it takes
one event, one joined handler or one tick, and the queues, the generation map and the set of
handlers are only touched by the loop itself.  Connections and retirements of the transport and the
end of a handler, which gives its permit back, happen at any time between two iterations.

A reliable ordered message goes to the lane of its peer, its channel and the generation that
`ordered_lane_generation` has recorded for its session; the messages on the authentication channel
have a queue and permits of their own (`WorkerClass`).  After a shutdown the loop takes no new
events and only drains its queues.

`arrived`, `started` and `dropped` are history: the bodies of the messages of a session and channel
that reached the loop, that were given to a handler, and that a discard of the session removed.  No
guard and no result reads them.
-/

namespace BasisRust.Server

open Library

abbrev PeerId := BitVec 16

instance : LawfulBEq PeerId := inferInstance

/-- A connection: its peer id and the identity of its shared state object. -/
structure PeerSession where
  peer : PeerId
  state : ℕ
  deriving DecidableEq

def PeerSession.sameConnection (s t : PeerSession) : Bool := s.state == t.state

/-- A reliable ordered message. -/
structure OrderedEvent (α : Type) where
  session : PeerSession
  channel : Byte
  body : α
  deriving DecidableEq

/-- `channels::AUTH_IDENTITY`. -/
def authIdentity : Byte := 0

def maxPendingOrderedEvents : ℕ := 4096
def maxCriticalOrderedEvents : ℕ := 128

/-- The two ordered queues, each with its own permits. -/
inductive WorkerClass where
  | ordered
  | critical
  deriving DecidableEq

def classOf (channel : Byte) : WorkerClass := if channel = authIdentity then .critical else .ordered

/-- A spawned handler: of an event that needs no order, or of the head of a lane. -/
inductive Job (α : Type) where
  | ordinary
  | ordered (key : OrderedLaneKey) (event : OrderedEvent α)
  deriving DecidableEq

/-- A handler of the join set; `finished` once it has ended and given back its permit. -/
structure Task (α : Type) where
  job : Job α
  finished : Bool
  deriving DecidableEq

structure EventLoop (α : Type) where
  /-- The transport's map of live peers. -/
  peers : List (PeerId × ℕ)
  /-- The peer id of every connection so far, by the identity of its state object. -/
  opened : List PeerId
  queue : WorkerClass → OrderedHandlerQueue (OrderedEvent α)
  permits : WorkerClass → ℕ
  sessions : List ((PeerId × Byte) × (PeerSession × BitVec 64))
  nextGeneration : BitVec 64
  handlers : List (Task α)
  draining : Bool
  arrived : PeerSession → Byte → List α
  started : PeerSession → Byte → List α
  dropped : PeerSession → Byte → List α

namespace EventLoop

variable {α : Type}

/-- The loop as it starts, with `workers` permits for ordinary handlers. -/
def init (workers : ℕ) : EventLoop α where
  peers := []
  opened := []
  queue := fun _ => .empty
  permits := fun cls => match cls with | .ordered => workers | .critical => 2
  sessions := []
  nextGeneration := 1
  handlers := []
  draining := false
  arrived := fun _ _ => []
  started := fun _ _ => []
  dropped := fun _ _ => []

def isCurrentSession (st : EventLoop α) (s : PeerSession) : Bool :=
  assocGet s.peer st.peers = some s.state

/-- The session belongs to a connection that was accepted at some time. -/
def knownSession (st : EventLoop α) (s : PeerSession) : Bool := st.opened[s.state]? = some s.peer

/-! ### History -/

/-- The waiting messages of a session and channel, in the order of the lanes. -/
def eventsOf (q : OrderedHandlerQueue (OrderedEvent α)) (s : PeerSession) (channel : Byte) :
    List α :=
  (q.lanes.flatMap fun lane =>
    lane.2.events.filter fun e => e.session = s ∧ e.channel = channel).map OrderedEvent.body

/-- Append to the history of one session and channel. -/
def record (log : PeerSession → Byte → List α) (s : PeerSession) (channel : Byte)
    (bodies : List α) : PeerSession → Byte → List α :=
  fun t c => if t = s ∧ c = channel then log t c ++ bodies else log t c

/-! ### Sessions and generations -/

/-- `wrapping_add(1).max(1)`. -/
def followingGeneration (generation : BitVec 64) : BitVec 64 :=
  if generation + 1 = 0 then 1 else generation + 1

/-- The bodies that wait in one lane. -/
def bodiesAt (q : OrderedHandlerQueue (OrderedEvent α)) (key : OrderedLaneKey) : List α :=
  ((q.lane key).elim [] fun lane => lane.events).map OrderedEvent.body

/-- Retire the lane of an old session in both queues. -/
def retireLanes (st : EventLoop α) (key : OrderedLaneKey) (old : PeerSession) : EventLoop α :=
  { st with
    queue := fun cls => (st.queue cls).retireLane key
    dropped := record st.dropped old key.2.1
      (bodiesAt (st.queue .ordered) key ++ bodiesAt (st.queue .critical) key) }

/-- The end of `ordered_lane_generation`, when the session gets a new generation. -/
def freshGeneration (st : EventLoop α) (base : PeerId × Byte) (session : PeerSession) :
    EventLoop α :=
  { st with
    sessions := assocSet base (session, st.nextGeneration) st.sessions
    nextGeneration := followingGeneration st.nextGeneration }

def orderedLaneGeneration (st : EventLoop α) (base : PeerId × Byte) (session : PeerSession) :
    EventLoop α × BitVec 64 :=
  match assocGet base st.sessions with
  | some (oldSession, generation) =>
    if oldSession.sameConnection session then (st, generation)
    else
      ((st.retireLanes (base.1, base.2, generation) oldSession).freshGeneration base session,
        st.nextGeneration)
  | none => (st.freshGeneration base session, st.nextGeneration)

def discardOrderedSession (cls : WorkerClass) (session : PeerSession) (st : EventLoop α) :
    EventLoop α :=
  { st with
    queue := fun c =>
      if c = cls then (st.queue c).discardMatching fun e => e.session.sameConnection session
      else st.queue c
    sessions := st.sessions.filter fun x => !x.2.1.sameConnection session
    dropped := fun s channel =>
      if s = session then st.dropped s channel ++ eventsOf (st.queue cls) s channel
      else st.dropped s channel }

/-- Both queues, as at every call in the loop. -/
def discardSession (st : EventLoop α) (session : PeerSession) : EventLoop α :=
  (st.discardOrderedSession .ordered session).discardOrderedSession .critical session

/-- The closure of `sessions.retain` in `prune_ordered_sessions`, on the entry of one base.
`isCurrent` is what the transport answers for the session of that entry. -/
def pruneEntry (isCurrent : PeerId × Byte → Bool) (st : EventLoop α × Bool) (base : PeerId × Byte) :
    EventLoop α × Bool :=
  match assocGet base st.1.sessions with
  | none => st
  | some (session, generation) =>
    let key : OrderedLaneKey := (base.1, base.2, generation)
    let cleared : EventLoop α × Bool :=
      if isCurrent base then st
      else
        ({ st.1 with
            queue := fun cls => ((st.1.queue cls).discardLane key).1
            dropped := record st.1.dropped session base.2
              (bodiesAt (st.1.queue .ordered) key ++ bodiesAt (st.1.queue .critical) key) },
          st.2 || ((st.1.queue .ordered).discardLane key).2 ||
            ((st.1.queue .critical).discardLane key).2)
    if (cleared.1.queue .ordered).contains key || (cleared.1.queue .critical).contains key then
      cleared
    else ({ cleared.1 with sessions := assocErase base cleared.1.sessions }, cleared.2)

def pruneOrderedSessions (st : EventLoop α) (isCurrent : PeerId × Byte → Bool) : EventLoop α :=
  let (st', changed) := (st.sessions.map Prod.fst).foldl (pruneEntry isCurrent) (st, false)
  if changed then { st' with queue := fun cls => (st'.queue cls).compactReady } else st'

/-! ### Handlers -/

/-- Spawn the handler of an event that `start_next` has returned. -/
def spawnTask (st : EventLoop α) (cls : WorkerClass)
    (q : OrderedHandlerQueue (OrderedEvent α)) (key : OrderedLaneKey) (event : OrderedEvent α) :
    EventLoop α :=
  { st with
    queue := fun c => if c = cls then q else st.queue c
    permits := fun c => if c = cls then st.permits c - 1 else st.permits c
    handlers := st.handlers ++ [⟨.ordered key event, false⟩]
    started := record st.started event.session event.channel [event.body] }

/-- The loop of `spawn_ready_ordered_with`; each pass takes one of the `n` free permits. -/
def spawnReadyOrderedWith (cls : WorkerClass) : ℕ → EventLoop α → EventLoop α
  | 0, st => st
  | n + 1, st =>
    if 0 < (st.queue cls).pending then
      match (st.queue cls).startNext with
      | (q, none) => { st with queue := fun c => if c = cls then q else st.queue c }
      | (q, some (key, event)) => spawnReadyOrderedWith cls n (st.spawnTask cls q key event)
    else st

def spawnReadyOrdered (st : EventLoop α) (cls : WorkerClass) : EventLoop α :=
  spawnReadyOrderedWith cls (st.permits cls) st

/-- The class whose permit a handler holds. -/
def Job.permitClass : Job α → WorkerClass
  | .ordinary => .ordered
  | .ordered key _ => classOf key.2.1

/-- A handler ends and gives back its permit. -/
def finishTask (st : EventLoop α) (i : ℕ) (job : Job α) : EventLoop α :=
  { st with
    permits := fun c => if c = Job.permitClass job then st.permits c + 1 else st.permits c
    handlers := st.handlers.set i ⟨job, true⟩ }

/-- `complete` on the queue of the lane. -/
def completeLane (st : EventLoop α) (key : OrderedLaneKey) : EventLoop α :=
  { st with
    queue := fun c =>
      if c = classOf key.2.1 then (st.queue c).complete key else st.queue c }

/-- Drop the generation entry of a lane that is gone, unless the entry is of another generation. -/
def releaseEntry (st : EventLoop α) (key : OrderedLaneKey) : EventLoop α :=
  if !(st.queue (classOf key.2.1)).contains key &&
      (assocGet (laneBase key) st.sessions).any fun entry => entry.2 == key.2.2 then
    { st with sessions := assocErase (laneBase key) st.sessions }
  else st

/-- What the loop does with a joined handler, before it starts further ones. -/
def collectTask (st : EventLoop α) (i : ℕ) (job : Job α) : EventLoop α :=
  let joined := { st with handlers := st.handlers.eraseIdx i }
  match job with
  | .ordinary => joined
  | .ordered key _ =>
    if st.draining then joined.completeLane key else (joined.completeLane key).releaseEntry key

/-- Start what can be started in both queues. -/
def spawnBoth (st : EventLoop α) : EventLoop α :=
  (st.spawnReadyOrdered .ordered).spawnReadyOrdered .critical

/-! ### Iterations -/

/-- The channel an event is received from. -/
inductive Ingress where
  | regular
  | ordered
  | critical
  deriving DecidableEq

/-- The condition of the `select!` branch of an ingress. -/
def ingressOpen (st : EventLoop α) : Ingress → Bool
  | .regular => 0 < st.permits .ordered
  | .ordered => (st.queue .ordered).pending < maxPendingOrderedEvents
  | .critical => (st.queue .critical).pending < maxCriticalOrderedEvents

/-- A reliable ordered message is received. -/
def receiveMessage (st : EventLoop α) (event : OrderedEvent α) : EventLoop α :=
  if st.isCurrentSession event.session then
    let base := (event.session.peer, event.channel)
    let (st', generation) := st.orderedLaneGeneration base event.session
    let cls := classOf event.channel
    let queued :=
      { st' with
        queue := fun c =>
          if c = cls then (st'.queue c).enqueue (base.1, base.2, generation) event
          else st'.queue c
        arrived := record st'.arrived event.session event.channel [event.body] }
    queued.spawnReadyOrdered cls
  else
    let st' := st.discardSession event.session
    { st' with
      arrived := record st'.arrived event.session event.channel [event.body]
      dropped := record st'.dropped event.session event.channel [event.body] }

/-- Spawn the handler of an event that needs no order. -/
def spawnOrdinary (st : EventLoop α) : EventLoop α :=
  { st with
    permits := fun c => if c = .ordered then st.permits c - 1 else st.permits c
    handlers := st.handlers ++ [⟨.ordinary, false⟩] }

inductive Action (α : Type) where
  /-- The transport accepts a connection. -/
  | connect (peer : PeerId)
  /-- The transport removes a live peer. -/
  | retire (peer : PeerId)
  | message (source : Ingress) (event : OrderedEvent α)
  /-- `PeerDisconnected`, which the transport publishes after it has removed the peer. -/
  | disconnected (session : PeerSession)
  /-- Any other event that gets a handler. -/
  | ordinary
  | finish (i : ℕ)
  | join (i : ℕ)
  | tick (isCurrent : PeerId × Byte → Bool)
  | shutdown
  | drain (isCurrent : PeerId × Byte → Bool)

/-- An answer of the transport during a pass over the entries: a session it calls retired is
retired, one it calls current may be retired by the end of the pass. -/
def answersFor (st : EventLoop α) (isCurrent : PeerId × Byte → Bool) : Bool :=
  st.sessions.all fun x => isCurrent x.1 || !st.isCurrentSession x.2.1

def step (st : EventLoop α) : Action α → Option (EventLoop α)
  | .connect peer =>
    if (assocGet peer st.peers).isNone then
      some { st with
        peers := assocSet peer st.opened.length st.peers
        opened := st.opened ++ [peer] }
    else none
  | .retire peer => some { st with peers := assocErase peer st.peers }
  | .message source event =>
    if !st.draining && st.ingressOpen source && st.knownSession event.session then
      some (st.receiveMessage event)
    else none
  | .disconnected session =>
    if !st.draining && st.ingressOpen .regular && st.knownSession session &&
        !st.isCurrentSession session then
      some (st.discardSession session).spawnOrdinary
    else none
  | .ordinary =>
    if !st.draining && st.ingressOpen .regular then some st.spawnOrdinary else none
  | .finish i =>
    match st.handlers[i]? with
    | some ⟨job, false⟩ => some (st.finishTask i job)
    | _ => none
  | .join i =>
    match st.handlers[i]? with
    | some ⟨job, true⟩ =>
      let collected := st.collectTask i job
      some (if st.draining then collected else collected.spawnBoth)
    | _ => none
  | .tick isCurrent =>
    if !st.draining && st.answersFor isCurrent then some (st.pruneOrderedSessions isCurrent)
    else none
  | .shutdown => some { st with draining := true }
  | .drain isCurrent =>
    if st.draining && st.answersFor isCurrent then
      some (st.pruneOrderedSessions isCurrent).spawnBoth
    else none

end EventLoop

/-- The event loop of a server with `workers` permits for ordinary handlers. -/
def eventLoopSystem (α : Type) (workers : ℕ) : System (EventLoop α) (EventLoop.Action α) where
  init := fun st => st = .init workers
  step := EventLoop.step

end BasisRust.Server
