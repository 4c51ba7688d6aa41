import BasisRust.Library.AssocList
import BasisRust.Server.EventLoop

/-!
# The shared stores of a server

The network ids, loaded resources, ownerships, content spheres and PIP cameras of
`basis-server-resources`.  Each store is behind locks of its own that an operation holds throughout,
so an operation is one step.  The contents of a resource and of a sphere and the pose of a camera
are opaque.

`creator` is history: the session whose message made the entry.  No operation reads it.
-/

namespace BasisRust.Server

open Library

/-! ### Network ids -/

structure NetIdEntry where
  id : BitVec 16
  creator : Option PeerSession
  deriving DecidableEq

structure NetIdState where
  byName : List (String × NetIdEntry)
  nextId : ℕ
  perPeerAssigned : List (PeerId × ℕ)
  reservedName : Option String
  deriving DecidableEq

namespace NetIdState

def withReservedName (name : String) : NetIdState := ⟨[(name, ⟨0, none⟩)], 1, [], some name⟩

/-- The id of the name and whether it was there before. -/
def addOrFindForPeer (st : NetIdState) (name : String) (s : PeerSession) (maxPerPeer : ℕ) :
    Option (BitVec 16 × Bool) × NetIdState :=
  match assocGet name st.byName with
  | some entry => (some (entry.id, true), st)
  | none =>
    let assigned := (assocGet s.peer st.perPeerAssigned).getD 0
    if maxPerPeer ≤ assigned then (none, st)
    else if 65535 < st.nextId then (none, st)
    else
      let id := BitVec.ofNat 16 st.nextId
      (some (id, false),
        { st with
          nextId := st.nextId + 1
          byName := assocSet name ⟨id, some s⟩ st.byName
          perPeerAssigned := assocSet s.peer (assigned + 1) st.perPeerAssigned })

def removePeer (st : NetIdState) (peer : PeerId) : NetIdState :=
  { st with perPeerAssigned := assocErase peer st.perPeerAssigned }

def all (st : NetIdState) : List (String × BitVec 16) := st.byName.map fun x => (x.1, x.2.id)

def reset (st : NetIdState) : NetIdState :=
  match st.reservedName with
  | some name => { st with byName := [(name, ⟨0, none⟩)], perPeerAssigned := [], nextId := 1 }
  | none => { st with byName := [], perPeerAssigned := [], nextId := 0 }

end NetIdState

/-! ### Resources -/

structure LocalLoadResource (ρ : Type) where
  loadedNetId : String
  uuidOfCreator : String
  isAdminLocked : Bool
  loadStrategy : ℕ
  content : ρ
  deriving DecidableEq

structure PreloadSession where
  readyPeers : List PeerId
  failedPeers : List PeerId
  totalPeerCount : ℕ
  startedAt : ℕ
  deriving DecidableEq

structure ResourceState (ρ : Type) where
  resources : List (String × LocalLoadResource ρ)
  creatorCounts : List (String × ℕ)
  preloadSessions : List (String × PreloadSession)
  deriving DecidableEq

namespace ResourceState

variable {ρ : Type}

/-- A resource is new and within the limit of its creator, or it is refused. -/
def insertResource (st : ResourceState ρ) (message : LocalLoadResource ρ) (maxPerCreator : ℕ) :
    Option (ResourceState ρ) :=
  if message.loadedNetId.isEmpty then none
  else if (assocGet message.loadedNetId st.resources).isSome then none
  else
    let resources := assocSet message.loadedNetId message st.resources
    if message.uuidOfCreator.isEmpty then some { st with resources }
    else
      let count := (assocGet message.uuidOfCreator st.creatorCounts).getD 0
      if maxPerCreator ≤ count then none
      else
        some { st with
          resources
          creatorCounts := assocSet message.uuidOfCreator (count + 1) st.creatorCounts }

def loadResourceWithLimit (st : ResourceState ρ) (message : LocalLoadResource ρ)
    (maxPerCreator : ℕ) : Option (ResourceState ρ) :=
  st.insertResource message maxPerCreator

def startPreload (st : ResourceState ρ) (message : LocalLoadResource ρ) (peers : List PeerId)
    (maxPerCreator now : ℕ) : Option (ResourceState ρ) :=
  (st.insertResource message maxPerCreator).map fun st =>
    { st with
      preloadSessions := assocSet message.loadedNetId ⟨[], [], peers.length, now⟩
        st.preloadSessions }

def noteResourceRemoved (counts : List (String × ℕ)) (creator : String) : List (String × ℕ) :=
  if creator.isEmpty then counts
  else
    match assocGet creator counts with
    | none | some 0 => counts
    | some 1 => assocErase creator counts
    | some count => assocSet creator (count - 1) counts

def unloadResourceIf (st : ResourceState ρ) (id : String) (allowed : LocalLoadResource ρ → Bool) :
    Option (ResourceState ρ) :=
  match assocGet id st.resources with
  | none => none
  | some resource =>
    if allowed resource then
      some {
        resources := assocErase id st.resources
        preloadSessions := assocErase id st.preloadSessions
        creatorCounts := noteResourceRemoved st.creatorCounts resource.uuidOfCreator }
    else none

def allResources (st : ResourceState ρ) : List (LocalLoadResource ρ) := st.resources.map Prod.snd

end ResourceState

/-! ### Ownership -/

structure Ownership where
  owner : PeerId
  creator : PeerSession
  deriving DecidableEq

structure OwnershipState where
  byObject : List (String × Ownership)
  deriving DecidableEq

namespace OwnershipState

/-- The owner of an object; an object without one goes to the requester. -/
def requestNewOrExisting (st : OwnershipState) (object : String) (s : PeerSession) :
    PeerId × OwnershipState :=
  match assocGet object st.byObject with
  | some ownership => (ownership.owner, st)
  | none => (s.peer, ⟨assocSet object ⟨s.peer, s⟩ st.byObject⟩)

def switchOwnership (st : OwnershipState) (object : String) (s : PeerSession) :
    PeerId × OwnershipState :=
  (s.peer, ⟨assocSet object ⟨s.peer, s⟩ st.byObject⟩)

def removeIfOwner (st : OwnershipState) (object : String) (peer : PeerId) : Bool × OwnershipState :=
  if (assocGet object st.byObject).any fun ownership => ownership.owner = peer then
    (true, ⟨assocErase object st.byObject⟩)
  else (false, st)

def removePlayer (st : OwnershipState) (peer : PeerId) : List String × OwnershipState :=
  ((st.byObject.filter fun x => x.2.owner = peer).map Prod.fst,
    ⟨st.byObject.filter fun x => x.2.owner ≠ peer⟩)

/-- Every object with its owner. -/
def all (st : OwnershipState) : List (String × PeerId) := st.byObject.map fun x => (x.1, x.2.owner)

def reset (_ : OwnershipState) : OwnershipState := ⟨[]⟩

end OwnershipState

/-! ### Content spheres -/

structure SharedSphere (α : Type) where
  playerId : PeerId
  content : α
  sharerProtected : Bool
  droppedAt : ℕ
  leftAt : Option ℕ
  creator : PeerSession
  deriving DecidableEq

structure ContentShareState (α : Type) where
  spheres : List (String × SharedSphere α)
  deriving DecidableEq

namespace ContentShareState

variable {α : Type}

def addWithLimitAndProtection (st : ContentShareState α) (sphere : String) (s : PeerSession)
    (content : α) (maxPerPlayer : ℕ) (sharerProtected : Bool) (now : ℕ) :
    Bool × ContentShareState α :=
  if (assocGet sphere st.spheres).isSome ||
      maxPerPlayer ≤ (st.spheres.filter fun x =>
        x.2.playerId = s.peer && x.2.leftAt.isNone).length then
    (false, st)
  else (true, ⟨assocSet sphere ⟨s.peer, content, sharerProtected, now, none, s⟩ st.spheres⟩)

def removeAuthorized (st : ContentShareState α) (sphere : String) (peer : PeerId)
    (isModerator contentRemovalLocked : Bool) : Bool × ContentShareState α :=
  match assocGet sphere st.spheres with
  | none => (false, st)
  | some existing =>
    let isOwner := existing.leftAt.isNone && existing.playerId = peer
    if !isOwner && !isModerator && (existing.sharerProtected || contentRemovalLocked) then
      (false, st)
    else (true, ⟨assocErase sphere st.spheres⟩)

/-- The spheres of a player who leaves are removed, or wait for the timeout. -/
def removePlayerWithTimeout (st : ContentShareState α) (peer : PeerId) (leaveTimeoutSeconds : ℤ)
    (now : ℕ) : List String × ContentShareState α :=
  let mine (x : String × SharedSphere α) : Bool := x.2.playerId = peer && x.2.leftAt.isNone
  if 0 < leaveTimeoutSeconds then
    ([], ⟨st.spheres.map fun x => if mine x then (x.1, { x.2 with leftAt := some now }) else x⟩)
  else ((st.spheres.filter mine).map Prod.fst, ⟨st.spheres.filter fun x => !mine x⟩)

/-- Times are in seconds. -/
def expireDue (st : ContentShareState α) (now : ℕ) (leaveTimeoutSeconds deletionTimerSeconds : ℤ) :
    List (String × PeerId) × ContentShareState α :=
  let due (x : String × SharedSphere α) : Bool :=
    x.2.leftAt.any (fun left => leaveTimeoutSeconds.toNat ≤ now - left) ||
      (0 < deletionTimerSeconds && deletionTimerSeconds.toNat ≤ now - x.2.droppedAt)
  ((st.spheres.filter due).map fun x => (x.1, x.2.playerId), ⟨st.spheres.filter fun x => !due x⟩)

/-- The spheres as they are announced: with their player, their contents and their protection. -/
def all (st : ContentShareState α) : List (String × PeerId × α × Bool) :=
  st.spheres.map fun x => (x.1, x.2.playerId, x.2.content, x.2.sharerProtected)

def reset (_ : ContentShareState α) : ContentShareState α := ⟨[]⟩

end ContentShareState

/-! ### PIP cameras -/

structure PipCameraState (β : Type) where
  isActive : Bool
  pose : β
  hasNewData : Bool
  lastSentTimes : List (PeerId × ℕ)
  creator : PeerSession
  deriving DecidableEq

structure PipState (β : Type) where
  states : List (PeerId × PipCameraState β)
  deriving DecidableEq

namespace PipState

variable {β : Type}

def stateChange (st : PipState β) (s : PeerSession) (isActive : Bool) (pose : β) : PipState β :=
  if isActive then ⟨assocSet s.peer ⟨true, pose, true, [], s⟩ st.states⟩
  else
    match assocGet s.peer st.states with
    | none => st
    | some existing =>
      ⟨assocSet s.peer { existing with isActive := false, hasNewData := false, lastSentTimes := [] }
        st.states⟩

def positionUpdate (st : PipState β) (peer : PeerId) (pose : β) : PipState β :=
  match assocGet peer st.states with
  | none => st
  | some existing =>
    if !existing.isActive then st
    else ⟨assocSet peer { existing with pose := pose, hasNewData := true } st.states⟩

def removePlayer (st : PipState β) (peer : PeerId) : PipState β := ⟨assocErase peer st.states⟩

def allActive (st : PipState β) : List (PeerId × PipCameraState β) :=
  st.states.filter fun x => x.2.isActive

def reset (_ : PipState β) : PipState β := ⟨[]⟩

end PipState

end BasisRust.Server
