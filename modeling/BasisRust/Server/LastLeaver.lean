import BasisRust.Library.Run
import BasisRust.Server.Stores

/-!
# Admissions, messages and departures around the shared stores

`finalize_accept`, the handlers of messages that touch a shared store, and `handle_disconnect`, as
one transition system.  Every access to a store is a step of its own, and so is every message that
announces a network id; anything else may happen in between.

A handler holds a read lease of its session while it runs.  A departure first closes the session for
new leases and waits until no handler holds one; then it goes through its phases in the order of the
source.  The phases after `authenticated` are only entered when the peer was authenticated, and the
four resets only when it left nobody behind.  The id of a peer that was taken from the authenticated
ones is free for a new session: the flush of the leaves may give it back before the resets.

`announced` is history: the network ids a session was told.
-/

namespace BasisRust.Server

open Library

inductive Store where
  | netIds
  | ownership
  | contentShare
  | pip
  deriving DecidableEq

/-- The next thing a departure does. -/
inductive Phase where
  | draining
  | netIds
  | ownership
  | contentShare
  | pip
  | authenticated
  | emptyCheck
  | resetNetIds
  | resetOwnership
  | resetContentShare
  | resetPip
  | done
  deriving DecidableEq

/-- The departure has found the server empty and has still to reset the store. -/
def Phase.resets : Phase → Store → Bool
  | .resetNetIds, _ => true
  | .resetOwnership, store => store ≠ .netIds
  | .resetContentShare, store => store = .contentShare || store = .pip
  | .resetPip, store => store = .pip
  | _, _ => false

/-- The phases after the peer was taken from the authenticated ones. -/
def Phase.removed : Phase → Bool
  | .emptyCheck | .resetNetIds | .resetOwnership | .resetContentShare | .resetPip | .done => true
  | _ => false

/-- A running handler that has network ids to announce, to everybody or to its own session. -/
structure Handler where
  session : PeerSession
  announcing : List (String × BitVec 16)
  broadcast : Bool
  admission : Bool
  deriving DecidableEq

structure Stores (α β : Type) where
  netIds : NetIdState
  ownership : OwnershipState
  contentShare : ContentShareState α
  pip : PipState β
  deriving DecidableEq

structure ServerState (α β : Type) where
  sessions : List PeerSession
  authenticated : List (PeerId × PeerSession)
  handlers : List Handler
  departures : List (PeerSession × Phase)
  stores : Stores α β
  announced : List (PeerSession × String × BitVec 16)
  nextState : ℕ
  deriving DecidableEq

namespace ServerState

variable {α β : Type}

def empty (reserved : String) : ServerState α β :=
  ⟨[], [], [], [], ⟨.withReservedName reserved, ⟨[]⟩, ⟨[]⟩, ⟨[]⟩⟩, [], 0⟩

/-- The session is the authenticated one of its peer id. -/
def connected (st : ServerState α β) (s : PeerSession) : Prop :=
  assocGet s.peer st.authenticated = some s

instance (st : ServerState α β) (s : PeerSession) : Decidable (st.connected s) :=
  inferInstanceAs (Decidable (_ = _))

/-- A reset of the store is still to come from a departure that found the server empty. -/
def resetPending (st : ServerState α β) (store : Store) : Prop :=
  ∃ s phase, assocGet s st.departures = some phase ∧ phase.resets store = true

instance (st : ServerState α β) (store : Store) : Decidable (st.resetPending store) :=
  decidable_of_iff (∃ x ∈ st.departures, ∃ phase ∈ assocGet x.1 st.departures,
      phase.resets store = true) <| by
    constructor
    · rintro ⟨x, -, phase, hphase, hresets⟩
      exact ⟨x.1, phase, hphase, hresets⟩
    · rintro ⟨s, phase, hphase, hresets⟩
      exact ⟨(s, phase), mem_keys_of_assocGet hphase, phase, hphase, hresets⟩

inductive Action (α β : Type) where
  | connect (peer : PeerId)
  | finalizeAccept (s : PeerSession)
  | replayNetIds (i : ℕ)
  | tell (i k : ℕ) (target : PeerSession)
  | finish (i : ℕ)
  | netIdAssign (s : PeerSession) (name : String) (maxIds : ℕ)
  | getCurrentOwner (s : PeerSession) (object : String)
  | changeCurrentOwner (s : PeerSession) (object : String)
  | removeCurrentOwner (s : PeerSession) (object : String)
  | dropSphere (s : PeerSession) (sphere : String) (content : α) (maxSpheres : ℕ)
      (sharerProtected : Bool) (now : ℕ)
  | cleanupSphere (s : PeerSession) (sphere : String) (moderator locked : Bool)
  | expireSpheres (now : ℕ) (leaveTimeout deletionTimer : ℤ)
  | pipState (s : PeerSession) (isActive : Bool) (pose : β)
  | pipPosition (s : PeerSession) (pose : β)
  | retire (s : PeerSession)
  | depart (s : PeerSession) (leaveTimeout : ℤ) (now : ℕ)

/-- A message of the session is handled: it gets a lease, and its peer is authenticated. -/
def handles (st : ServerState α β) (s : PeerSession) : Bool :=
  s ∈ st.sessions && (assocGet s.peer st.authenticated).isSome

def setPhase (st : ServerState α β) (s : PeerSession) (phase : Phase) : ServerState α β :=
  { st with departures := assocSet s phase st.departures }

/-- One phase of `handle_disconnect`; `none` while a handler still holds a lease. -/
def handleDisconnect (st : ServerState α β) (s : PeerSession) (leaveTimeout : ℤ) (now : ℕ) :
    Phase → Option (ServerState α β)
  | .draining =>
    if st.handlers.any fun h => h.session = s then none else some (st.setPhase s .netIds)
  | .netIds =>
    some { st.setPhase s .ownership with
      stores := { st.stores with netIds := st.stores.netIds.removePeer s.peer } }
  | .ownership =>
    some { st.setPhase s .contentShare with
      stores := { st.stores with ownership := (st.stores.ownership.removePlayer s.peer).2 } }
  | .contentShare =>
    some { st.setPhase s .pip with
      stores := { st.stores with
        contentShare :=
          (st.stores.contentShare.removePlayerWithTimeout s.peer leaveTimeout now).2 } }
  | .pip =>
    some { st.setPhase s .authenticated with
      stores := { st.stores with pip := st.stores.pip.removePlayer s.peer } }
  | .authenticated =>
    let wasAuthenticated := (assocGet s.peer st.authenticated).isSome
    some { st.setPhase s (if wasAuthenticated then .emptyCheck else .done) with
      authenticated := assocErase s.peer st.authenticated }
  | .emptyCheck =>
    some (st.setPhase s (if st.authenticated.isEmpty then .resetNetIds else .done))
  | .resetNetIds =>
    some { st.setPhase s .resetOwnership with
      stores := { st.stores with netIds := st.stores.netIds.reset } }
  | .resetOwnership =>
    some { st.setPhase s .resetContentShare with
      stores := { st.stores with ownership := st.stores.ownership.reset } }
  | .resetContentShare =>
    some { st.setPhase s .resetPip with
      stores := { st.stores with contentShare := st.stores.contentShare.reset } }
  | .resetPip =>
    some { st.setPhase s .done with stores := { st.stores with pip := st.stores.pip.reset } }
  | .done => some { st with departures := assocErase s st.departures }

/-- A new handler announces the id it got. -/
def announceId (st : ServerState α β) (s : PeerSession) (name : String) :
    Option (BitVec 16 × Bool) → ServerState α β
  | none => st
  | some (id, existed) =>
    { st with handlers := st.handlers ++ [⟨s, [(name, id)], !existed, false⟩] }

def step (st : ServerState α β) : Action α β → Option (ServerState α β)
  | .connect peer =>
    if (st.sessions.any fun s => s.peer = peer) ||
        st.departures.any fun x => x.1.peer = peer && !x.2.removed then
      none
    else
      some { st with
        sessions := st.sessions ++ [⟨peer, st.nextState⟩]
        nextState := st.nextState + 1 }
  | .finalizeAccept s =>
    if s ∈ st.sessions && (assocGet s.peer st.authenticated).isNone then
      some { st with
        authenticated := assocSet s.peer s st.authenticated
        handlers := st.handlers ++ [⟨s, [], false, true⟩] }
    else none
  | .replayNetIds i =>
    match st.handlers[i]? with
    | none => none
    | some h =>
      if h.admission then
        some { st with
          handlers := st.handlers.set i
            { h with announcing := st.stores.netIds.all, admission := false } }
      else none
  | .tell i k target =>
    match st.handlers[i]? with
    | none => none
    | some h =>
      match h.announcing[k]? with
      | none => none
      | some x =>
        if (if h.broadcast then decide (st.connected target) else decide (target = h.session)) then
          some { st with announced := st.announced ++ [(target, x)] }
        else none
  | .finish i => if i < st.handlers.length then some { st with handlers := st.handlers.eraseIdx i }
    else none
  | .netIdAssign s name maxIds =>
    if !st.handles s then none
    else if name.isEmpty then some st
    else
      let r := st.stores.netIds.addOrFindForPeer name s maxIds
      some (announceId { st with stores := { st.stores with netIds := r.2 } } s name r.1)
  | .getCurrentOwner s object =>
    if !st.handles s then none
    else some { st with stores := { st.stores with
      ownership := (st.stores.ownership.requestNewOrExisting object s).2 } }
  | .changeCurrentOwner s object =>
    if !st.handles s then none
    else some { st with stores := { st.stores with
      ownership := (st.stores.ownership.switchOwnership object s).2 } }
  | .removeCurrentOwner s object =>
    if !st.handles s then none
    else some { st with stores := { st.stores with
      ownership := (st.stores.ownership.removeIfOwner object s.peer).2 } }
  | .dropSphere s sphere content maxSpheres sharerProtected now =>
    if !st.handles s then none
    else some { st with stores := { st.stores with
      contentShare := (st.stores.contentShare.addWithLimitAndProtection sphere s content maxSpheres
        sharerProtected now).2 } }
  | .cleanupSphere s sphere moderator locked =>
    if !st.handles s then none
    else some { st with stores := { st.stores with
      contentShare := (st.stores.contentShare.removeAuthorized sphere s.peer moderator locked).2 } }
  | .expireSpheres now leaveTimeout deletionTimer =>
    some { st with stores := { st.stores with
      contentShare := (st.stores.contentShare.expireDue now leaveTimeout deletionTimer).2 } }
  | .pipState s isActive pose =>
    if !st.handles s then none
    else some { st with stores := { st.stores with
      pip := st.stores.pip.stateChange s isActive pose } }
  | .pipPosition s pose =>
    if !st.handles s then none
    else some { st with stores := { st.stores with
      pip := st.stores.pip.positionUpdate s.peer pose } }
  | .retire s =>
    if s ∈ st.sessions then
      some { st with
        sessions := st.sessions.erase s
        departures := (s, .draining) :: st.departures }
    else none
  | .depart s leaveTimeout now =>
    match assocGet s st.departures with
    | none => none
    | some phase => st.handleDisconnect s leaveTimeout now phase

/-- A server with one reserved name, before anybody has connected. -/
def system (α β : Type) (reserved : String) : System (ServerState α β) (Action α β) where
  init st := st = empty reserved
  step := step

/-! ### The condition -/

/-- The step makes an entry of the store, or takes network ids from it to announce them. -/
def disturbs (st : ServerState α β) : Action α β → Store → Bool
  | .netIdAssign s name maxIds, .netIds =>
    !name.isEmpty && st.stores.netIds.reservedName ≠ some name &&
      (st.stores.netIds.addOrFindForPeer name s maxIds).1.isSome
  | .replayNetIds _, .netIds =>
    st.stores.netIds.all.any fun x => st.stores.netIds.reservedName ≠ some x.1
  | .getCurrentOwner _ object, .ownership => (assocGet object st.stores.ownership.byObject).isNone
  | .changeCurrentOwner _ _, .ownership => true
  | .dropSphere s sphere content maxSpheres sharerProtected now, .contentShare =>
    (st.stores.contentShare.addWithLimitAndProtection sphere s content maxSpheres sharerProtected
      now).1
  | .pipState _ isActive _, .pip => isActive
  | _, _ => false

/-- No step of a peer meets a store whose reset is still to come. -/
def Calm (st : ServerState α β) (a : Action α β) : Prop :=
  ∀ store, st.disturbs a store = true → ¬ st.resetPending store

instance (st : ServerState α β) (a : Action α β) : Decidable (Calm st a) :=
  decidable_of_iff (∀ store ∈ [Store.netIds, .ownership, .contentShare, .pip],
      st.disturbs a store = true → ¬ st.resetPending store) <| by
    constructor
    · intro h store
      exact h store (by cases store <;> decide)
    · intro h store _
      exact h store

end ServerState

end BasisRust.Server
