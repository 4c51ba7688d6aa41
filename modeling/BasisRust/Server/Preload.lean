import BasisRust.Library.Countdown
import BasisRust.Library.Run
import BasisRust.Server.Stores
import Mathlib.Logic.Function.Basic

/-!
# Preloads

A resource with load strategy 2 is registered at once and preloaded by the peers that were listed
for it; when they have all reported, the server tells everybody to spawn it.  A session of a preload
keeps who has reported and the number of the peers that were listed.

Every operation of `ResourceState` holds its locks throughout and is one step, except for the
sweeps: these list the resources they will remove under one lock and remove them under another.  The
handler of `LOAD_RESOURCE` lists the peers and starts the preload in two steps, and a departure
removes the peer from the authenticated ones before it calls `remove_preload_peer`; it waits until
no handler of its session is running.  Instants are in seconds.

`serial` numbers the resources in the order they were registered; `barriers` are the peers of every
preload, who of them has gone and who has reported; `spawned` is what the server told its peers to
spawn.  They are history, and no operation reads them.
-/

namespace BasisRust.Server

open Library

/-! ### Resources -/

structure ResourceBody (γ : Type) where
  mode : Byte
  persist : Bool
  rest : γ
  serial : ℕ
  deriving DecidableEq

/-- The mode of a scene. -/
def sceneMode : Byte := 1

structure UnloadResource where
  mode : Byte
  loadedNetId : String
  deriving DecidableEq

/-! ### Sessions -/

namespace PreloadSession

def isComplete (session : PreloadSession) : Bool :=
  session.totalPeerCount ≤ session.readyPeers.length + session.failedPeers.length

/-- The latest report of a peer replaces the earlier ones. -/
def report (session : PreloadSession) (peer : PeerId) (isReady : Bool) : PreloadSession :=
  let readyPeers := others peer session.readyPeers
  let failedPeers := others peer session.failedPeers
  if isReady then { session with readyPeers := peer :: readyPeers, failedPeers }
  else { session with readyPeers, failedPeers := peer :: failedPeers }

def withdraw (session : PreloadSession) (peer : PeerId) : PreloadSession :=
  { session with
    readyPeers := others peer session.readyPeers
    failedPeers := others peer session.failedPeers
    totalPeerCount := session.totalPeerCount - 1 }

/-- Nobody else is waited for after a departure. -/
def isOver (session : PreloadSession) : Bool := session.totalPeerCount = 0 || session.isComplete

/-- After five minutes. -/
def isTimedOut (session : PreloadSession) (now : ℕ) : Bool := 5 * 60 ≤ now - session.startedAt

end PreloadSession

namespace ResourceState

section
variable {ρ : Type}

/-- The id of the resource that is to be spawned, when the report completes its preload. -/
def markPreloadReady (st : ResourceState ρ) (peer : PeerId) (id : String) (isReady : Bool) :
    Option String × ResourceState ρ :=
  match assocGet id st.preloadSessions with
  | none => (none, st)
  | some session =>
    let session := session.report peer isReady
    if session.isComplete then
      (some id, { st with preloadSessions := assocErase id st.preloadSessions })
    else (none, { st with preloadSessions := assocSet id session st.preloadSessions })

def removePreloadPeer (st : ResourceState ρ) (peer : PeerId) : List String × ResourceState ρ :=
  let sessions := st.preloadSessions.map fun x => (x.1, x.2.withdraw peer)
  ((sessions.filter fun x => x.2.isOver).map Prod.fst,
    { st with preloadSessions := sessions.filter fun x => !x.2.isOver })

def timedOutPreloads (st : ResourceState ρ) (now : ℕ) : List String × ResourceState ρ :=
  ((st.preloadSessions.filter fun x => x.2.isTimedOut now).map Prod.fst,
    { st with preloadSessions := st.preloadSessions.filter fun x => !x.2.isTimedOut now })

end

end ResourceState

/-! ### Sweeps -/

/-- `all_scene_unloads`, `reset_non_persistent` and `remove_creator_non_persistent`. -/
inductive Sweep where
  | scenes
  | nonPersistent
  | creator (uuid : String)
  deriving DecidableEq

namespace Sweep

variable {γ : Type}

def takes : Sweep → LocalLoadResource (ResourceBody γ) → Bool
  | .scenes, resource => resource.content.mode = sceneMode
  | .nonPersistent, resource => !resource.content.persist
  | .creator uuid, resource => !resource.content.persist && resource.uuidOfCreator = uuid

/-- The sweep also closes the preload sessions of what it removes. -/
def closes : Sweep → Bool
  | .scenes | .nonPersistent => false
  | .creator _ => true

end Sweep

namespace ResourceState

variable {γ : Type}

/-- What a sweep lists under its first lock. -/
def listed (st : ResourceState (ResourceBody γ)) (sweep : Sweep) : List String :=
  if sweep = .creator "" then []
  else (st.resources.filter fun x => sweep.takes x.2).map Prod.fst

/-- Under its second lock a sweep removes what was listed and is still there. -/
def removeListed (closes : Bool) (st : ResourceState (ResourceBody γ)) :
    List String → List UnloadResource × ResourceState (ResourceBody γ)
  | [] => ([], st)
  | id :: ids =>
    match assocGet id st.resources with
    | none => removeListed closes st ids
    | some resource =>
      let (unloads, st') := removeListed closes
        { resources := assocErase id st.resources
          creatorCounts := noteResourceRemoved st.creatorCounts resource.uuidOfCreator
          preloadSessions :=
            if closes then assocErase id st.preloadSessions else st.preloadSessions } ids
      (⟨resource.content.mode, id⟩ :: unloads, st')

def allSceneUnloads (st : ResourceState (ResourceBody γ)) :
    List UnloadResource × ResourceState (ResourceBody γ) :=
  st.removeListed false (st.listed .scenes)

end ResourceState

/-! ### The system -/

/-- A `LOAD_RESOURCE` handler that has listed the peers of the preload. -/
structure Starting (γ : Type) where
  session : PeerSession
  resource : LocalLoadResource (ResourceBody γ)
  maxLoaded : ℕ
  peers : List PeerSession
  deriving DecidableEq

/-- The peers of a preload. -/
structure Barrier where
  serial : ℕ
  members : List PeerSession
  gone : List PeerSession
  reported : List PeerSession
  deriving DecidableEq

namespace Barrier

def remaining (b : Barrier) : List PeerSession := b.members.filter fun t => t ∉ b.gone

def report (b : Barrier) (t : PeerSession) : Barrier := { b with reported := t :: b.reported }

def withdraw (b : Barrier) (t : PeerSession) : Barrier := { b with gone := t :: b.gone }

end Barrier

/-- A `SpawnPreloadedMessage`: the resource that was preloaded, the one that is loaded under its id,
and the listed peers that are still connected and have not reported. -/
structure Spawned where
  id : String
  serial : ℕ
  loaded : Option ℕ
  awaited : List PeerSession
  timedOut : Bool
  deriving DecidableEq

structure PreloadState (γ : Type) where
  store : ResourceState (ResourceBody γ)
  connected : List PeerSession
  leaving : List PeerSession
  starting : List (Starting γ)
  sweeping : List (Sweep × List String)
  now : ℕ
  nextState : ℕ
  loads : ℕ
  barriers : String → Barrier
  spawned : List Spawned

namespace PreloadState

variable {γ : Type}

def empty : PreloadState γ := ⟨⟨[], [], []⟩, [], [], [], [], 0, 0, 0, fun _ => ⟨0, [], [], []⟩, []⟩

inductive Action (γ : Type) where
  | finalizeAccept (peer : PeerId)
  | listPeers (s : PeerSession) (resource : LocalLoadResource (ResourceBody γ)) (maxLoaded : ℕ)
  | startPreload (i : ℕ)
  | loadResource (s : PeerSession) (resource : LocalLoadResource (ResourceBody γ)) (maxLoaded : ℕ)
  | unloadResource (id requesterUuid : String) (isModerator removalLocked : Bool)
  | listResources (sweep : Sweep)
  | removeListed (i : ℕ)
  | preloadReady (s : PeerSession) (id : String) (isReady : Bool)
  | depart (s : PeerSession)
  | removePreloadPeer (s : PeerSession)
  | timedOutPreloads
  | elapse (seconds : ℕ)

/-- The resource with the number of its registration. -/
def stamped (st : PreloadState γ) (resource : LocalLoadResource (ResourceBody γ)) :
    LocalLoadResource (ResourceBody γ) :=
  { resource with content := { resource.content with serial := st.loads } }

/-- The number of the resource that is loaded under an id. -/
def loadedSerial (st : PreloadState γ) (id : String) : Option ℕ :=
  (assocGet id st.store.resources).map fun resource => resource.content.serial

/-- What is recorded when a resource is to be spawned. -/
def spawnOf (st : PreloadState γ) (timedOut : Bool) (id : String) : Spawned where
  id := id
  serial := (st.barriers id).serial
  loaded := st.loadedSerial id
  awaited := (st.barriers id).members.filter fun t =>
    t ∈ st.connected && t ∉ (st.barriers id).reported
  timedOut := timedOut

def spawn (st : PreloadState γ) (timedOut : Bool) (ids : List String) : PreloadState γ :=
  { st with spawned := st.spawned ++ ids.map (st.spawnOf timedOut) }

def step (st : PreloadState γ) : Action γ → Option (PreloadState γ)
  | .finalizeAccept peer =>
    if (st.connected ++ st.leaving).any fun t => t.peer = peer then none
    else
      some { st with
        connected := st.connected ++ [⟨peer, st.nextState⟩]
        nextState := st.nextState + 1 }
  | .listPeers s resource maxLoaded =>
    if s ∈ st.connected ∧ resource.loadStrategy = 2 then
      some { st with starting := st.starting ++ [⟨s, resource, maxLoaded, st.connected⟩] }
    else none
  | .startPreload i =>
    match st.starting[i]? with
    | none => none
    | some h =>
      match st.store.startPreload (st.stamped h.resource) (h.peers.map PeerSession.peer) h.maxLoaded
          st.now with
      | none => some { st with starting := st.starting.eraseIdx i }
      | some store =>
        some { st with
          store
          starting := st.starting.eraseIdx i
          loads := st.loads + 1
          barriers := Function.update st.barriers h.resource.loadedNetId
            ⟨st.loads, h.peers, [], []⟩ }
  | .loadResource s resource maxLoaded =>
    if s ∈ st.connected ∧ resource.loadStrategy ≠ 2 then
      match st.store.loadResourceWithLimit (st.stamped resource) maxLoaded with
      | none => some st
      | some store => some { st with store, loads := st.loads + 1 }
    else none
  | .unloadResource id requesterUuid isModerator removalLocked =>
    match st.store.unloadResourceIf id fun resource =>
        isModerator || !resource.isAdminLocked && (!removalLocked ||
          !requesterUuid.isEmpty && requesterUuid = resource.uuidOfCreator) with
    | none => some st
    | some store => some { st with store }
  | .listResources sweep =>
    some { st with sweeping := st.sweeping ++ [(sweep, st.store.listed sweep)] }
  | .removeListed i =>
    match st.sweeping[i]? with
    | none => none
    | some (sweep, ids) =>
      some { st with
        store := (st.store.removeListed sweep.closes ids).2
        sweeping := st.sweeping.eraseIdx i }
  | .preloadReady s id isReady =>
    if s ∈ st.connected then
      match assocGet id st.store.preloadSessions with
      | none => some st
      | some _ =>
        let r := st.store.markPreloadReady s.peer id isReady
        let st' : PreloadState γ := { st with
          store := r.2
          barriers := Function.update st.barriers id ((st.barriers id).report s) }
        some (st'.spawn false r.1.toList)
    else none
  | .depart s =>
    if s ∈ st.connected ∧ ∀ h ∈ st.starting, h.session ≠ s then
      some { st with connected := others s st.connected, leaving := s :: st.leaving }
    else none
  | .removePreloadPeer s =>
    if s ∈ st.leaving then
      let r := st.store.removePreloadPeer s.peer
      let st' : PreloadState γ := { st with
        store := r.2
        leaving := others s st.leaving
        barriers := fun id => (st.barriers id).withdraw s }
      some (st'.spawn false r.1)
    else none
  | .timedOutPreloads =>
    let r := st.store.timedOutPreloads st.now
    let st' : PreloadState γ := { st with store := r.2 }
    some (st'.spawn true r.1)
  | .elapse seconds => some { st with now := st.now + seconds }

/-- A server before anybody has connected. -/
def system (γ : Type) : System (PreloadState γ) (Action γ) where
  init st := st = empty
  step := step

/-! ### The property and its condition -/

/-- **The preload barrier.** What is preloaded is spawned once, while it is loaded, and, but for the
timeout, when no listed peer that is still connected has to report; and as long as it is not
spawned, a listed peer has to report or to leave. -/
structure Barred (st : PreloadState γ) : Prop where
  once : (st.spawned.map Spawned.serial).Nodup
  loaded : ∀ x ∈ st.spawned, x.loaded = some x.serial
  awaited : ∀ x ∈ st.spawned, x.timedOut = false → x.awaited = []
  awaits : ∀ x ∈ st.store.preloadSessions, ∃ t ∈ (st.barriers x.1).remaining,
    t ∉ (st.barriers x.1).reported

instance (st : PreloadState γ) : Decidable (Barred st) :=
  decidable_of_iff ((st.spawned.map Spawned.serial).Nodup ∧
      (∀ x ∈ st.spawned, x.loaded = some x.serial) ∧
      (∀ x ∈ st.spawned, x.timedOut = false → x.awaited = []) ∧
      ∀ x ∈ st.store.preloadSessions, ∃ t ∈ (st.barriers x.1).remaining,
        t ∉ (st.barriers x.1).reported)
    ⟨fun h => ⟨h.1, h.2.1, h.2.2.1, h.2.2.2⟩, fun h => ⟨h.once, h.loaded, h.awaited, h.awaits⟩⟩

/-- Only listed peers report for a preload or leave while it is going on, and no sweep that leaves
the preload sessions alone removes a resource that is being preloaded. -/
def Orderly (st : PreloadState γ) : Action γ → Prop
  | .preloadReady s id _ =>
    (assocGet id st.store.preloadSessions).isSome = true → s ∈ (st.barriers id).members
  | .removePreloadPeer s => ∀ x ∈ st.store.preloadSessions, s ∈ (st.barriers x.1).members
  | .removeListed i => ∀ x ∈ st.sweeping[i]?, x.1.closes = false →
      ∀ id ∈ x.2, assocGet id st.store.preloadSessions = none
  | _ => True

instance (st : PreloadState γ) : ∀ a, Decidable (Orderly st a)
  | .preloadReady s id _ => inferInstanceAs (Decidable
      ((assocGet id st.store.preloadSessions).isSome = true → s ∈ (st.barriers id).members))
  | .removePreloadPeer s => inferInstanceAs (Decidable
      (∀ x ∈ st.store.preloadSessions, s ∈ (st.barriers x.1).members))
  | .removeListed i => inferInstanceAs (Decidable (
      ∀ x ∈ st.sweeping[i]?, x.1.closes = false →
        ∀ id ∈ x.2, assocGet id st.store.preloadSessions = none))
  | .finalizeAccept _ | .listPeers _ _ _ | .startPreload _ | .loadResource _ _ _
  | .unloadResource _ _ _ _ | .listResources _ | .depart _ | .timedOutPreloads | .elapse _ =>
    .isTrue trivial

end PreloadState

end BasisRust.Server
