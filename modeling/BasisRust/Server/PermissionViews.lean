import BasisRust.Library.AssocList
import BasisRust.Library.Run
import BasisRust.Permissions.Changes
import Mathlib.Data.Finset.Basic

/-!
# What peers are told of their permissions

A `META_DATA` message tells a peer the rules that it has.  `finalize_accept` queues one when it has
registered the peer, and `sync_permission_changes` queues one to everybody whose rules may have
changed, and to those to whom a message could not be queued before.  Both read the rules some time
before they queue them.

The model has the connections, with the `META_DATA` messages that were queued to them, and the one
task that synchronises.  Every read and every write of shared state is a step of its own; the
iteration over the map of the authenticated peers visits every entry that stays in the map, and may
or may not see one that comes.
-/

namespace BasisRust.Server.Views

open Library Permissions

/-- The permissions in a `META_DATA` message. -/
structure Rules where
  allowed : List Text
  denied : List Text
  deriving DecidableEq

/-- How far `finalize_accept` has come.  It has `sent` when the message is queued and what follows
is not yet done. -/
inductive Accept where
  | waiting
  | refused
  | registered
  | readAllowed (allowed : List Text)
  | readRules (rules : Rules)
  | sent
  | succeeded
  | failed
  deriving DecidableEq

namespace Accept

/-- The peer has been registered. -/
def isRegistered : Accept → Bool
  | .waiting | .refused => false
  | _ => true

/-- The task that accepts the peer is not done; it holds the lease of its session. -/
def inProgress : Accept → Bool
  | .registered | .readAllowed _ | .readRules _ | .sent => true
  | _ => false

end Accept

/-- From the connection to the reuse of its id.  The transport knows it while it is `online`, and it
is authenticated until `handle_disconnect` has come to that. -/
inductive Stage where
  | online
  | closed
  | cleaning
  | unauthenticated
  | recycled
  deriving DecidableEq

structure Connection where
  peer : ℕ
  uuid : Text
  accept : Accept
  stage : Stage
  queued : List Rules
  deriving DecidableEq

/-- How far `sync_permission_changes` has come. -/
inductive Sync where
  | idle
  | taken (changes : List (Option Text))
  | looking (changes : List (Option Text)) (left targets : Finset ℕ)
  | looked (targets : Finset ℕ)
  | sending (left : Finset ℕ)
  | metadata (peer : ℕ) (uuid : Text) (left : Finset ℕ)
  | allowed (peer : ℕ) (uuid : Text) (allowed : List Text) (left : Finset ℕ)
  | rules (peer : ℕ) (uuid : Text) (rules : Rules) (left : Finset ℕ)
  | failed (peer : ℕ) (left : Finset ℕ)
  | retry (peer : ℕ) (left : Finset ℕ)
  deriving DecidableEq

/-- `authenticated` has the connection of every authenticated peer. -/
structure State where
  manager : PermissionManager
  retries : Finset ℕ
  authenticated : List (ℕ × ℕ)
  connections : List Connection
  sync : Sync
  deriving DecidableEq

inductive Action where
  | edit (op : PermissionOp)
  | connect (peer : ℕ) (uuid : Text)
  | refuse (i : ℕ)
  | register (i : ℕ)
  | acceptAllowed (i : ℕ)
  | acceptDenied (i : ℕ)
  | acceptSend (i : ℕ)
  | acceptError (i : ℕ)
  | acceptEnd (i : ℕ) (ok : Bool)
  | close (i : ℕ)
  | dropRetry (i : ℕ)
  | unauthenticate (i : ℕ)
  | recycle (i : ℕ)
  | takeChanges
  | startSync
  | look (peer : ℕ)
  | endLook
  | takeRetries
  | pick (peer : ℕ)
  | syncAllowed
  | syncDenied
  | syncSend
  | syncError
  | check
  | retry
  | endSync
  deriving DecidableEq

section

variable (casing : Casing)

namespace State

/-- What the store says of a user now. -/
def rulesOf (s : State) (uuid : Text) : Rules :=
  ⟨allowedRules casing s.manager.store uuid, deniedRules casing s.manager.store uuid⟩

/-- The connection that the transport has under an id. -/
def onlineAt (s : State) (peer : ℕ) : Option ℕ :=
  s.connections.findIdx? fun c => decide (c.peer = peer ∧ c.stage = .online)

def change (s : State) (i : ℕ) (f : Connection → Connection) : State :=
  { s with connections := s.connections.modify i f }

def setAccept (s : State) (i : ℕ) (accept : Accept) : State := s.change i fun c => { c with accept }

def setStage (s : State) (i : ℕ) (stage : Stage) : State := s.change i fun c => { c with stage }

/-- `transport.send`, when it succeeds: a message to an id that the transport does not know is
dropped. -/
def send (s : State) (peer : ℕ) (rules : Rules) : State :=
  match s.onlineAt peer with
  | none => s
  | some i => s.change i fun c => { c with queued := c.queued ++ [rules] }

/-- The connection of an authenticated peer. -/
def connectionOf (s : State) (peer : ℕ) : Option Connection :=
  (assocGet peer s.authenticated).bind fun i => s.connections[i]?

/-! ### Connections -/

/-- An id is given to one connection until it is recycled. -/
def connect (s : State) (peer : ℕ) (uuid : Text) : Option State :=
  if s.connections.any fun c => c.peer = peer ∧ c.stage ≠ .recycled then none
  else some { s with connections := s.connections ++ [⟨peer, uuid, .waiting, .online, []⟩] }

def refuse (s : State) (i : ℕ) : Option State :=
  match s.connections[i]? with
  | some c => if c.accept = .waiting then some (s.setAccept i .refused) else none
  | none => none

/-- The lease of the session keeps `handle_disconnect` away, not a disconnection. -/
def register (s : State) (i : ℕ) : Option State :=
  match s.connections[i]? with
  | some c =>
    if c.accept = .waiting ∧ (c.stage = .online ∨ c.stage = .closed) then
      some { s.setAccept i .registered with authenticated := assocSet c.peer i s.authenticated }
    else none
  | none => none

def acceptAllowed (s : State) (i : ℕ) : Option State :=
  match s.connections[i]? with
  | some c =>
    if c.accept = .registered then some (s.setAccept i
      (.readAllowed (s.rulesOf casing c.uuid).allowed))
    else none
  | none => none

def acceptDenied (s : State) (i : ℕ) : Option State :=
  match s.connections[i]? with
  | some c =>
    match c.accept with
    | .readAllowed allowed =>
      some (s.setAccept i (.readRules ⟨allowed, (s.rulesOf casing c.uuid).denied⟩))
    | _ => none
  | none => none

def acceptSend (s : State) (i : ℕ) : Option State :=
  match s.connections[i]? with
  | some c =>
    match c.accept with
    | .readRules rules => some ((s.send c.peer rules).setAccept i .sent)
    | _ => none
  | none => none

def acceptError (s : State) (i : ℕ) : Option State :=
  match s.connections[i]? with
  | some c =>
    match c.accept with
    | .readRules _ => some (s.setAccept i .failed)
    | _ => none
  | none => none

/-- What `finalize_accept` does after the message succeeds or not. -/
def acceptEnd (s : State) (i : ℕ) (ok : Bool) : Option State :=
  match s.connections[i]? with
  | some c =>
    if c.accept = .sent then some (s.setAccept i (if ok then .succeeded else .failed)) else none
  | none => none

def close (s : State) (i : ℕ) : Option State :=
  match s.connections[i]? with
  | some c => if c.stage = .online then some (s.setStage i .closed) else none
  | none => none

/-- `handle_disconnect` begins when the leases have drained; `admin_runtime.remove_peer` drops the
retry. -/
def dropRetry (s : State) (i : ℕ) : Option State :=
  match s.connections[i]? with
  | some c =>
    if c.stage = .closed ∧ c.accept.inProgress = false then
      some { s.setStage i .cleaning with retries := s.retries.erase c.peer }
    else none
  | none => none

def unauthenticate (s : State) (i : ℕ) : Option State :=
  match s.connections[i]? with
  | some c =>
    if c.stage = .cleaning then
      some { s.setStage i .unauthenticated with authenticated := assocErase c.peer s.authenticated }
    else none
  | none => none

def recycle (s : State) (i : ℕ) : Option State :=
  match s.connections[i]? with
  | some c => if c.stage = .unauthenticated then some (s.setStage i .recycled) else none
  | none => none

/-! ### `sync_permission_changes` -/

def takeChanges (s : State) : Option State :=
  if s.sync = .idle then
    some { s with sync := .taken s.manager.takeChanges.1, manager := s.manager.takeChanges.2 }
  else none

def startSync (s : State) : Option State :=
  match s.sync with
  | .taken changes =>
    if changes = [] ∧ s.retries = ∅ then some { s with sync := .idle }
    else some { s with sync := .looking changes (s.authenticated.map Prod.fst).toFinset ∅ }
  | _ => none

/-- The iteration comes to the entry of a peer, if it is there. -/
def look (s : State) (peer : ℕ) : Option State :=
  match s.sync with
  | .looking changes left targets =>
    match s.connectionOf peer with
    | some c =>
      if covers casing changes c.uuid then
        some { s with sync := .looking changes (left.erase peer) (insert peer targets) }
      else some { s with sync := .looking changes (left.erase peer) targets }
    | none => some { s with sync := .looking changes (left.erase peer) targets }
  | _ => none

def endLook (s : State) : Option State :=
  match s.sync with
  | .looking _ left targets => if left = ∅ then some { s with sync := .looked targets } else none
  | _ => none

def takeRetries (s : State) : Option State :=
  match s.sync with
  | .looked targets => some { s with sync := .sending (targets ∪ s.retries), retries := ∅ }
  | _ => none

/-- `send_permission_metadata` reads the metadata of the next target. -/
def pick (s : State) (peer : ℕ) : Option State :=
  match s.sync with
  | .sending left =>
    if peer ∈ left then
      match s.connectionOf peer with
      | some c => some { s with sync := .metadata peer c.uuid (left.erase peer) }
      | none => some { s with sync := .sending (left.erase peer) }
    else none
  | _ => none

def syncAllowed (s : State) : Option State :=
  match s.sync with
  | .metadata peer uuid left =>
    some { s with sync := .allowed peer uuid (s.rulesOf casing uuid).allowed left }
  | _ => none

def syncDenied (s : State) : Option State :=
  match s.sync with
  | .allowed peer uuid allowed left =>
    some { s with sync := .rules peer uuid ⟨allowed, (s.rulesOf casing uuid).denied⟩ left }
  | _ => none

def syncSend (s : State) : Option State :=
  match s.sync with
  | .rules peer _ rules left => some { s.send peer rules with sync := .sending left }
  | _ => none

def syncError (s : State) : Option State :=
  match s.sync with
  | .rules peer _ _ left => some { s with sync := .failed peer left }
  | _ => none

/-- Whether the peer of the message that failed is still authenticated. -/
def check (s : State) : Option State :=
  match s.sync with
  | .failed peer left =>
    if (assocGet peer s.authenticated).isSome then some { s with sync := .retry peer left }
    else some { s with sync := .sending left }
  | _ => none

def retry (s : State) : Option State :=
  match s.sync with
  | .retry peer left => some { s with sync := .sending left, retries := insert peer s.retries }
  | _ => none

def endSync (s : State) : Option State :=
  if s.sync = .sending ∅ then some { s with sync := .idle } else none

/-- A server with an empty store and nobody connected. -/
def initial : State := ⟨⟨.empty, []⟩, ∅, [], [], .idle⟩

end State

variable (reader : XmlReader)

def step (s : State) : Action → Option State
  | .edit op => some { s with manager := s.manager.mutate casing reader op }
  | .connect peer uuid => s.connect peer uuid
  | .refuse i => s.refuse i
  | .register i => s.register i
  | .acceptAllowed i => s.acceptAllowed casing i
  | .acceptDenied i => s.acceptDenied casing i
  | .acceptSend i => s.acceptSend i
  | .acceptError i => s.acceptError i
  | .acceptEnd i ok => s.acceptEnd i ok
  | .close i => s.close i
  | .dropRetry i => s.dropRetry i
  | .unauthenticate i => s.unauthenticate i
  | .recycle i => s.recycle i
  | .takeChanges => s.takeChanges
  | .startSync => s.startSync
  | .look peer => s.look casing peer
  | .endLook => s.endLook
  | .takeRetries => s.takeRetries
  | .pick peer => s.pick peer
  | .syncAllowed => s.syncAllowed casing
  | .syncDenied => s.syncDenied casing
  | .syncSend => s.syncSend
  | .syncError => s.syncError
  | .check => s.check
  | .retry => s.retry
  | .endSync => s.endSync

/-- The runs of a server from its start. -/
def system : System State Action where
  init s := s = .initial
  step := step casing reader

/-! ### The runs that are told apart -/

/-- What a task that accepts a peer has read is what the store says now. -/
def Accept.isCurrent (now : Rules) : Accept → Bool
  | .readAllowed allowed => allowed = now.allowed
  | .readRules rules => rules = now
  | _ => true

/-- The synchronisation queues no message to a connection that got its id from the one the message
is for, and none to a connection whose `finalize_accept` is about to queue rules that no longer
hold. -/
def Timely (s : State) : Action → Bool
  | .syncSend =>
    match s.sync with
    | .rules peer uuid _ _ =>
      match (s.onlineAt peer).bind fun i => s.connections[i]? with
      | some c => c.uuid = uuid && c.accept.isCurrent (s.rulesOf casing c.uuid)
      | none => true
    | _ => true
  | _ => true

end

end BasisRust.Server.Views
