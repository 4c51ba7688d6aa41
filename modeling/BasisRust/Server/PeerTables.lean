import BasisRust.Library.AssocList
import BasisRust.Library.Run
import BasisRust.Server.EventLoop

/-!
# The tables that are keyed by a peer id

A peer id is given to a new session once the session that had it is gone and `recycle_peer_id` was
called.  Until then `handle_disconnect` goes through a dozen tables and takes out what belongs to
the id, one table after the other, while the handlers of other peers run.

A handler holds a lease of its own session while it runs.  Most tables are only written by the
handlers of the peer itself.  An admin command looks its target up among the authenticated peers
and then writes the announcing or the shouting set without a lease of the target, and the permission
sync does the same with the peers it has to try again.

What a table holds for an id plays no role here, except for the recipient lists.  `recycled` are the
ids that were recycled, in order, and the era of an id is how often it was; an entry is kept with
the era in which it was made.  Both are history.
-/

namespace BasisRust.Server

open Library

/-- The tables in the order in which `handle_disconnect` clears them. -/
inductive PeerTable where
  | queries
  | permissionRetries
  | announcing
  | shouting
  | netIds
  | voiceRecipients
  | voiceRecipientSessions
  | messageSubscriptions
  | uplinkDeltaStates
  | ownership
  | pip
  deriving DecidableEq

/-- The next thing a departure does.  Pruning has the lists that were there when it began and have
not been visited. -/
inductive TablePhase where
  | draining
  | clearing (table : PeerTable)
  | authenticated
  | pruning (keys : List PeerId)
  | recycling
  deriving DecidableEq

namespace PeerTable

def after : PeerTable → TablePhase
  | queries => .clearing permissionRetries
  | permissionRetries => .clearing announcing
  | announcing => .clearing shouting
  | shouting => .clearing netIds
  | netIds => .clearing voiceRecipients
  | voiceRecipients => .clearing voiceRecipientSessions
  | voiceRecipientSessions => .clearing messageSubscriptions
  | messageSubscriptions => .clearing uplinkDeltaStates
  | uplinkDeltaStates => .clearing ownership
  | ownership => .clearing pip
  | pip => .authenticated

def rank : PeerTable → ℕ
  | queries => 0
  | permissionRetries => 1
  | announcing => 2
  | shouting => 3
  | netIds => 4
  | voiceRecipients => 5
  | voiceRecipientSessions => 6
  | messageSubscriptions => 7
  | uplinkDeltaStates => 8
  | ownership => 9
  | pip => 10

/-- Written by the handlers of the peer itself. -/
def isOwn : PeerTable → Bool
  | queries | netIds | messageSubscriptions | uplinkDeltaStates | ownership | pip => true
  | permissionRetries | announcing | shouting | voiceRecipients | voiceRecipientSessions => false

/-- The two maps of recipient lists. -/
def isVoice : PeerTable → Bool
  | voiceRecipients | voiceRecipientSessions => true
  | _ => false

end PeerTable

/-- The sets an admin command puts a target into. -/
inductive TargetSet where
  | announcing
  | shouting
  deriving DecidableEq

def TargetSet.table : TargetSet → PeerTable
  | announcing => .announcing
  | shouting => .shouting

/-- The departure has been through the table. -/
def TablePhase.cleared : TablePhase → PeerTable → Bool
  | .draining, _ => false
  | .clearing next, table => table.rank < next.rank
  | .authenticated, _ | .pruning _, _ | .recycling, _ => true

/-- A running handler: the session whose message it handles, the recipients it holds leases of, and
the set it is about to put a target into or take one out of. -/
structure TableHandler where
  session : PeerSession
  accepting : Bool
  recipients : List PeerSession
  pending : Option (TargetSet × PeerId)
  deriving DecidableEq

structure TableState where
  sessions : List PeerSession
  authenticated : List (PeerId × PeerSession)
  handlers : List TableHandler
  departures : List (PeerSession × TablePhase)
  retrying : List PeerId
  marks : List ((PeerTable × PeerId) × ℕ)
  voiceRecipients : List (PeerId × List PeerId)
  voiceRecipientSessions : List (PeerId × List PeerSession)
  recycled : List PeerId
  nextState : ℕ
  deriving DecidableEq

namespace TableState

def empty : TableState := ⟨[], [], [], [], [], [], [], [], [], 0⟩

def era (s : TableState) (peer : PeerId) : ℕ := s.recycled.count peer

def isAuthenticated (s : TableState) (peer : PeerId) : Bool :=
  (assocGet peer s.authenticated).isSome

inductive Action where
  | connect (peer : PeerId)
  | accept (session : PeerSession)
  | finalizeAccept (i : ℕ)
  | handle (session : PeerSession)
  | write (i : ℕ) (table : PeerTable)
  | lookUpTarget (i : ℕ) (set : TargetSet) (target : PeerId)
  | setTarget (i : ℕ) (enabled : Bool)
  | leaseRecipient (i : ℕ) (id : PeerId)
  | installVoiceRecipients (i : ℕ)
  | finish (i : ℕ)
  | lookUpRetry (target : PeerId)
  | retry (target : PeerId)
  | takeRetries
  | retire (session : PeerSession)
  | depart (session : PeerSession)
  | prune (session : PeerSession) (key : PeerId)
  deriving DecidableEq

def mark (s : TableState) (table : PeerTable) (peer : PeerId) : TableState :=
  { s with marks := assocSet (table, peer) (s.era peer) s.marks }

def unmark (s : TableState) (table : PeerTable) (peer : PeerId) : TableState :=
  { s with marks := assocErase (table, peer) s.marks }

def setHandler (s : TableState) (i : ℕ) (h : TableHandler) : TableState :=
  { s with handlers := s.handlers.set i h }

def setPhase (s : TableState) (session : PeerSession) (phase : TablePhase) : TableState :=
  { s with departures := assocSet session phase s.departures }

/-- A handler has a lease of the session. -/
def leased (s : TableState) (session : PeerSession) : Bool :=
  s.handlers.any fun h => h.session = session || session ∈ h.recipients

/-- Take the id out of one table. -/
def clear (s : TableState) (peer : PeerId) : PeerTable → TableState
  | .voiceRecipients => { s with voiceRecipients := assocErase peer s.voiceRecipients }
  | .voiceRecipientSessions =>
    { s with voiceRecipientSessions := assocErase peer s.voiceRecipientSessions }
  | table => s.unmark table peer

/-- Publish the recipients of a peer in both maps. -/
def publish (s : TableState) (peer : PeerId) (recipients : List PeerSession) : TableState :=
  { s with
    voiceRecipientSessions := assocSet peer recipients s.voiceRecipientSessions
    voiceRecipients := assocSet peer (recipients.map PeerSession.peer) s.voiceRecipients }

/-- Visit one recipient list. -/
def pruneList (s : TableState) (peer key : PeerId) : TableState :=
  match assocGet key s.voiceRecipientSessions with
  | none => s
  | some recipients =>
    if recipients.any fun session => session.peer = peer then
      s.publish key (recipients.filter fun session => session.peer ≠ peer)
    else s

/-- One step of `handle_disconnect`; the visits of the pruning are steps of their own. -/
def handleDisconnect (s : TableState) (session : PeerSession) : TablePhase → Option TableState
  | .draining => if s.leased session then none else some (s.setPhase session (.clearing .queries))
  | .clearing table => some ((s.clear session.peer table).setPhase session table.after)
  | .authenticated =>
    let keys := s.voiceRecipientSessions.map Prod.fst
    some { s.setPhase session (if s.isAuthenticated session.peer then .pruning keys else .recycling)
      with authenticated := assocErase session.peer s.authenticated }
  | .pruning keys => if keys.isEmpty then some (s.setPhase session .recycling) else none
  | .recycling =>
    some { s with
      departures := assocErase session s.departures
      recycled := s.recycled ++ [session.peer] }

/-- The id belongs to no session, or its last one was recycled. -/
def isFree (s : TableState) (peer : PeerId) : Bool :=
  !(s.sessions.any fun session => session.peer = peer) &&
    !(s.departures.any fun x => x.1.peer = peer)

def step (s : TableState) : Action → Option TableState
  | .connect peer =>
    if s.isFree peer then
      some { s with
        sessions := ⟨peer, s.nextState⟩ :: s.sessions
        nextState := s.nextState + 1 }
    else none
  | .accept session =>
    if session ∈ s.sessions then
      some { s with handlers := s.handlers ++ [⟨session, true, [], none⟩] }
    else none
  | .finalizeAccept i =>
    match s.handlers[i]? with
    | none => none
    | some h =>
      if h.accepting && !s.isAuthenticated h.session.peer then
        some { s.setHandler i { h with accepting := false } with
          authenticated := assocSet h.session.peer h.session s.authenticated }
      else none
  | .handle session =>
    if session ∈ s.sessions && s.isAuthenticated session.peer then
      some { s with handlers := s.handlers ++ [⟨session, false, [], none⟩] }
    else none
  | .write i table =>
    match s.handlers[i]? with
    | none => none
    | some h => if table.isOwn && !h.accepting then some (s.mark table h.session.peer) else none
  | .lookUpTarget i set target =>
    match s.handlers[i]? with
    | none => none
    | some h =>
      if s.isAuthenticated target then
        some (s.setHandler i { h with pending := some (set, target) })
      else none
  | .setTarget i enabled =>
    match s.handlers[i]? with
    | none => none
    | some h =>
      match h.pending with
      | none => none
      | some (set, target) =>
        let s := s.setHandler i { h with pending := none }
        some (if enabled then s.mark set.table target else s.unmark set.table target)
  | .leaseRecipient i id =>
    match s.handlers[i]? with
    | none => none
    | some h =>
      match assocGet id s.authenticated with
      | none => none
      | some recipient =>
        if id ≠ h.session.peer && recipient ∈ s.sessions && !h.accepting then
          some (s.setHandler i { h with recipients := h.recipients ++ [recipient] })
        else none
  | .installVoiceRecipients i =>
    match s.handlers[i]? with
    | none => none
    | some h =>
      if h.accepting then none
      else some ((s.publish h.session.peer h.recipients).setHandler i { h with recipients := [] })
  | .finish i =>
    match s.handlers[i]? with
    | none => none
    | some h =>
      if h.pending.isNone && h.recipients.isEmpty then
        some { s with handlers := s.handlers.eraseIdx i }
      else none
  | .lookUpRetry target =>
    if s.isAuthenticated target then some { s with retrying := target :: s.retrying } else none
  | .retry target =>
    if target ∈ s.retrying then
      some { (s.mark .permissionRetries target) with retrying := s.retrying.erase target }
    else none
  | .takeRetries =>
    some { s with marks := s.marks.filter fun x => x.1.1 ≠ .permissionRetries }
  | .retire session =>
    if session ∈ s.sessions then
      some { s with
        sessions := s.sessions.erase session
        departures := assocSet session .draining s.departures }
    else none
  | .depart session => (assocGet session s.departures).bind (s.handleDisconnect session)
  | .prune session key =>
    match assocGet session s.departures with
    | some (.pruning keys) =>
      some ((s.pruneList session.peer key).setPhase session
        (.pruning (keys.filter fun k => k ≠ key)))
    | _ => none

def system : System TableState Action where
  init s := s = empty
  step := step

/-! ### The condition -/

/-- The id is on its way out and the departure has been through the table. -/
def isCleared (s : TableState) (peer : PeerId) (table : PeerTable) : Bool :=
  s.departures.any fun x => x.1.peer = peer && x.2.cleared table

/-- Nothing is put into a table for an id after its departure has been through the table. -/
def Prompt (s : TableState) : Action → Prop
  | .setTarget i enabled => enabled = true → ∀ h ∈ s.handlers[i]?, ∀ x ∈ h.pending,
      s.isCleared x.2 x.1.table = false
  | .retry target => s.isCleared target .permissionRetries = false
  | .prune session key =>
    (assocGet key s.voiceRecipientSessions).any (fun recipients =>
      recipients.any fun x => x.peer = session.peer) = true →
      s.isCleared key .voiceRecipients = false
  | _ => True

instance (s : TableState) : ∀ a, Decidable (Prompt s a)
  | .setTarget i enabled => inferInstanceAs (Decidable (enabled = true → ∀ h ∈ s.handlers[i]?,
      ∀ x ∈ h.pending, s.isCleared x.2 x.1.table = false))
  | .retry target => inferInstanceAs (Decidable (s.isCleared target .permissionRetries = false))
  | .prune session key => inferInstanceAs (Decidable (
      (assocGet key s.voiceRecipientSessions).any (fun recipients =>
        recipients.any fun x => x.peer = session.peer) = true →
      s.isCleared key .voiceRecipients = false))
  | .connect _ | .accept _ | .finalizeAccept _ | .handle _ | .write _ _ | .lookUpTarget _ _ _
  | .leaseRecipient _ _ | .installVoiceRecipients _ | .finish _ | .lookUpRetry _ | .takeRetries
  | .retire _ | .depart _ => .isTrue trivial

/-- No table has an entry for the id from before it was last recycled. -/
structure Clean (s : TableState) (peer : PeerId) : Prop where
  marks : ∀ table e, assocGet (table, peer) s.marks = some e → e = s.era peer
  recipients : assocGet peer s.voiceRecipients = none
  recipientSessions : assocGet peer s.voiceRecipientSessions = none
  recipient : ∀ key l, assocGet key s.voiceRecipients = some l → peer ∉ l
  recipientSession : ∀ key l, assocGet key s.voiceRecipientSessions = some l →
    ∀ x ∈ l, x.peer ≠ peer

end TableState

end BasisRust.Server
