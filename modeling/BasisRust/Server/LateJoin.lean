import BasisRust.Library.Announce
import BasisRust.Library.Run
import BasisRust.Server.Stores
import Mathlib.Data.List.Sort

/-!
# What a late joiner is told

The registries of loaded resources, ownerships, content spheres and PIP cameras, the messages of
other peers that change them, and one newcomer, who is admitted by `finalize_accept` and then gets
the registries replayed by `replay_late_join_state`.

A message changes its registry in one step, under its lock, and its broadcast reaches the newcomer
in another.  A broadcast that began after the newcomer became an authenticated peer visits it; one
that began before may do so once the newcomer is there, or may have passed it by.  The replay takes
the registries one after the other: it reads all of one under its lock and then queues what it has
read one message at a time.  Every channel of the newcomer is a queue of its own.

`changes` are the items that were announced, in order, and `log` is what has reached the newcomer,
in order.  Both are history; the version of a notice is the number of announcements of its item so
far.  What is told of a PIP camera is whether it is active: its pose travels in sequenced messages.
-/

namespace BasisRust.Server

open Library

inductive RegistryChannel where
  | loadResource
  | unloadResource
  | getCurrentOwner
  | changeCurrentOwner
  | removeCurrentOwner
  | contentShare
  | cameraPipState
  deriving DecidableEq

/-- An entry of one of the registries. -/
inductive Item where
  | resource (id : String)
  | ownership (id : String)
  | sphere (id : String)
  | camera (peer : PeerId)
  deriving DecidableEq

/-- What a message says of an entry that is there. -/
inductive Told (α : Type) where
  | loaded
  | owner (peer : PeerId)
  | shared (peer : PeerId) (content : α) (sharerProtected : Bool)
  | active
  deriving DecidableEq

structure RegistryNotice (α : Type) where
  channel : RegistryChannel
  note : Note Item (Told α)
  deriving DecidableEq

structure Registries (ρ α β : Type) where
  resources : ResourceState ρ
  ownership : OwnershipState
  contentShare : ContentShareState α
  pip : PipState β
  deriving DecidableEq

namespace Registries

variable {ρ α β : Type}

/-- What the server holds of an item. -/
def value (r : Registries ρ α β) : Item → Option (Told α)
  | .resource id => (assocGet id r.resources.resources).map fun _ => .loaded
  | .ownership id => (assocGet id r.ownership.byObject).map fun x => .owner x.owner
  | .sphere id => (assocGet id r.contentShare.spheres).map fun x =>
      .shared x.playerId x.content x.sharerProtected
  | .camera peer => (assocGet peer r.pip.states).bind fun x =>
      if x.isActive then some .active else none

/-- No registry has two entries of one key, and every resource is under its own id. -/
structure WellFormed (r : Registries ρ α β) : Prop where
  resources : AssocNodup r.resources.resources
  ids : ∀ x ∈ r.resources.resources, x.2.loadedNetId = x.1
  ownership : AssocNodup r.ownership.byObject
  spheres : AssocNodup r.contentShare.spheres
  cameras : AssocNodup r.pip.states

end Registries

/-- A message of a peer with what the handler looks up about it: the permissions and locks that
apply, the limits of the configuration and the time. -/
inductive RegistryMessage (ρ α β : Type) where
  | loadResource (resource : LocalLoadResource ρ) (locked : Bool) (maxLoaded now : ℕ)
      (peers : List PeerId)
  | unloadResource (id requesterUuid : String) (isModerator removalLocked : Bool)
  | changeCurrentOwner (object : String)
  | removeCurrentOwner (object : String)
  | dropSphere (sphere : String) (content : α) (allowed : Bool) (maxSpheres : ℕ)
      (sharerProtected : Bool) (now : ℕ)
  | cleanupSphere (sphere : String) (allowed moderator locked : Bool)
  | pipState (isActive : Bool) (pose : β)

namespace Registries

variable {ρ α β : Type}

/-- The registries after a message and what is broadcast about it: the channel, the item and what
it holds now.  `none` when the handler returns without a broadcast. -/
def handle (r : Registries ρ α β) (session : PeerSession) :
    RegistryMessage ρ α β → Option (Registries ρ α β × RegistryChannel × Item × Option (Told α))
  | .loadResource resource locked maxLoaded now peers =>
    if locked then none
    else
      (if resource.loadStrategy = 2 then
        r.resources.startPreload resource peers maxLoaded now
      else r.resources.loadResourceWithLimit resource maxLoaded).map fun resources =>
        ({ r with resources }, .loadResource, .resource resource.loadedNetId, some .loaded)
  | .unloadResource id requesterUuid isModerator removalLocked =>
    (r.resources.unloadResourceIf id fun resource =>
      isModerator || !resource.isAdminLocked && (!removalLocked ||
        !requesterUuid.isEmpty && requesterUuid = resource.uuidOfCreator)).map fun resources =>
      ({ r with resources }, .unloadResource, .resource id, none)
  | .changeCurrentOwner object =>
    let (owner, ownership) := r.ownership.switchOwnership object session
    some ({ r with ownership }, .changeCurrentOwner, .ownership object, some (.owner owner))
  | .removeCurrentOwner object =>
    match r.ownership.removeIfOwner object session.peer with
    | (false, _) => none
    | (true, ownership) =>
      some ({ r with ownership }, .removeCurrentOwner, .ownership object, none)
  | .dropSphere sphere content allowed maxSpheres sharerProtected now =>
    if !allowed then none
    else
      match r.contentShare.addWithLimitAndProtection sphere session content maxSpheres
          sharerProtected now with
      | (false, _) => none
      | (true, contentShare) =>
        some ({ r with contentShare }, .contentShare, .sphere sphere,
          some (.shared session.peer content sharerProtected))
  | .cleanupSphere sphere allowed moderator locked =>
    if !allowed then none
    else
      match r.contentShare.removeAuthorized sphere session.peer moderator locked with
      | (false, _) => none
      | (true, contentShare) =>
        some ({ r with contentShare }, .contentShare, .sphere sphere, none)
  | .pipState isActive pose =>
    some ({ r with pip := r.pip.stateChange session isActive pose }, .cameraPipState,
      .camera session.peer, if isActive then some .active else none)

end Registries

/-- The registries in the order of the replay. -/
inductive ReplayedRegistry where
  | resources
  | ownership
  | contentShare
  | pip
  deriving DecidableEq

def Item.registry : Item → ReplayedRegistry
  | .resource _ => .resources
  | .ownership _ => .ownership
  | .sphere _ => .contentShare
  | .camera _ => .pip

/-- How far the admission of the newcomer is.  `replaying` has what was read and is still to be
queued, and the registries that are still to be read. -/
inductive Admission (α : Type) where
  | outside
  | replaying (remaining : List (RegistryNotice α)) (unread : List ReplayedRegistry)
  deriving DecidableEq

/-- A broadcast that has not come to the newcomer.  It is `due` when it began after the newcomer
became an authenticated peer. -/
structure Broadcast (α : Type) where
  notice : RegistryNotice α
  due : Bool
  deriving DecidableEq

structure JoinState (ρ α β : Type) where
  registries : Registries ρ α β
  admission : Admission α
  broadcasts : List (Broadcast α)
  queued : List (RegistryNotice α)
  changes : List Item
  log : List (RegistryNotice α)
  deriving DecidableEq

namespace JoinState

variable {ρ α β : Type}

def version (s : JoinState ρ α β) (item : Item) : ℕ := s.changes.count item

/-- What the newcomer holds to be there. -/
def view (s : JoinState ρ α β) (item : Item) : Option (Told α) :=
  viewOf (s.log.map RegistryNotice.note) item

def isOutside (s : JoinState ρ α β) : Bool :=
  match s.admission with
  | .outside => true
  | .replaying _ _ => false

def unread (s : JoinState ρ α β) : List ReplayedRegistry :=
  match s.admission with
  | .outside => [.resources, .ownership, .contentShare, .pip]
  | .replaying _ unread => unread

def remaining (s : JoinState ρ α β) : List (RegistryNotice α) :=
  match s.admission with
  | .outside => []
  | .replaying remaining _ => remaining

/-- What there is to read in one registry. -/
def entries (s : JoinState ρ α β) : ReplayedRegistry → List (RegistryNotice α)
  | .resources => s.registries.resources.allResources.map fun x =>
      ⟨.loadResource, .resource x.loadedNetId, some .loaded, s.version (.resource x.loadedNetId)⟩
  | .ownership => s.registries.ownership.all.map fun x =>
      ⟨.getCurrentOwner, .ownership x.1, some (.owner x.2), s.version (.ownership x.1)⟩
  | .contentShare => s.registries.contentShare.all.map fun x =>
      ⟨.contentShare, .sphere x.1, some (.shared x.2.1 x.2.2.1 x.2.2.2), s.version (.sphere x.1)⟩
  | .pip => s.registries.pip.allActive.map fun x =>
      ⟨.cameraPipState, .camera x.1, some .active, s.version (.camera x.1)⟩

/-- What the replay reads from one registry, in the order in which its map lists the items. -/
def snapshot (s : JoinState ρ α β) (order : Item → ℕ) (registry : ReplayedRegistry) :
    List (RegistryNotice α) :=
  (s.entries registry).insertionSort fun m n => order m.note.key ≤ order n.note.key

inductive Action (ρ α β : Type) where
  | message (session : PeerSession) (m : RegistryMessage ρ α β)
  | finalizeAccept
  | readRegistry (order : Item → ℕ)
  | queueReplayed
  | visit (i : ℕ)
  | passBy (i : ℕ)
  | deliver (channel : RegistryChannel)

/-- The registries have changed, and a broadcast about it begins. -/
def announce (s : JoinState ρ α β) (registries : Registries ρ α β) (channel : RegistryChannel)
    (item : Item) (value : Option (Told α)) : JoinState ρ α β :=
  { s with
    registries
    changes := s.changes ++ [item]
    broadcasts := s.broadcasts ++
      [⟨⟨channel, item, value, (s.changes ++ [item]).count item⟩, !s.isOutside⟩] }

def handleMessage (s : JoinState ρ α β) (session : PeerSession) (m : RegistryMessage ρ α β) :
    JoinState ρ α β :=
  match s.registries.handle session m with
  | none => s
  | some (registries, channel, item, value) => s.announce registries channel item value

def step (newcomer : PeerId) (s : JoinState ρ α β) : Action ρ α β → Option (JoinState ρ α β)
  | .message session m =>
    if session.peer = newcomer then none else some (s.handleMessage session m)
  | .finalizeAccept =>
    match s.admission with
    | .outside =>
      some { s with admission := .replaying [] [.resources, .ownership, .contentShare, .pip] }
    | .replaying _ _ => none
  | .readRegistry order =>
    match s.admission with
    | .replaying [] (registry :: unread) =>
      some { s with admission := .replaying (s.snapshot order registry) unread }
    | _ => none
  | .queueReplayed =>
    match s.admission with
    | .replaying (notice :: remaining) unread =>
      some { s with admission := .replaying remaining unread, queued := s.queued ++ [notice] }
    | _ => none
  | .visit i =>
    match s.broadcasts[i]? with
    | none => none
    | some b =>
      if s.isOutside then none
      else
        some { s with
          broadcasts := s.broadcasts.eraseIdx i
          queued := s.queued ++ [b.notice] }
  | .passBy i =>
    match s.broadcasts[i]? with
    | none => none
    | some b => if b.due then none else some { s with broadcasts := s.broadcasts.eraseIdx i }
  | .deliver channel =>
    match s.queued.find? fun m => m.channel = channel with
    | none => none
    | some m =>
      some { s with
        queued := s.queued.eraseP fun m => m.channel = channel
        log := s.log ++ [m] }

/-- A server with any contents, before the newcomer is admitted. -/
def system (ρ α β : Type) (newcomer : PeerId) : System (JoinState ρ α β) (Action ρ α β) where
  init s := s.registries.WellFormed ∧ s.admission = .outside ∧ s.broadcasts = [] ∧
    s.queued = [] ∧ s.changes = [] ∧ s.log = []
  step := step newcomer

/-- Everything has come to the newcomer: the replay is over and nothing is broadcast or queued. -/
def settled (s : JoinState ρ α β) : Prop :=
  s.admission = .replaying [] [] ∧ s.broadcasts = [] ∧ s.queued = []

/-! ### The condition -/

/-- The newcomer has been or will be told what the item holds now. -/
def hearsCurrent (s : JoinState ρ α β) (item : Item) : Prop :=
  (∃ m ∈ s.log ++ s.queued ++ s.remaining, m.note.key = item ∧ m.note.version = s.version item) ∨
  (∃ b ∈ s.broadcasts, b.due = true ∧ b.notice.note.key = item ∧
    b.notice.note.version = s.version item) ∨
  item.registry ∈ s.unread ∧ (s.registries.value item).isSome = true

/-- Nothing reaches the newcomer behind a message about a later change of the same item, and no
broadcast from before its admission tells it of an item that has changed meanwhile, unless it is
told of the change as well. -/
def Timely (s : JoinState ρ α β) : Action ρ α β → Prop
  | .visit i => ∀ b ∈ s.broadcasts[i]?, b.due = false →
      b.notice.note.version = s.version b.notice.note.key ∨ s.hearsCurrent b.notice.note.key
  | .deliver channel => ∀ m ∈ s.queued.find? fun m => m.channel = channel,
      ∀ x ∈ s.log, x.note.key = m.note.key → x.note.version ≤ m.note.version
  | _ => True

instance (s : JoinState ρ α β) (item : Item) : Decidable (s.hearsCurrent item) :=
  inferInstanceAs (Decidable (_ ∨ _ ∨ _))

instance (s : JoinState ρ α β) : ∀ a, Decidable (Timely s a)
  | .visit i => inferInstanceAs (Decidable (∀ b ∈ s.broadcasts[i]?, b.due = false →
      b.notice.note.version = s.version b.notice.note.key ∨ s.hearsCurrent b.notice.note.key))
  | .deliver channel => inferInstanceAs (Decidable (∀ m ∈ s.queued.find? fun m =>
      m.channel = channel, ∀ x ∈ s.log, x.note.key = m.note.key → x.note.version ≤ m.note.version))
  | .message _ _ | .finalizeAccept | .readRegistry _ | .queueReplayed | .passBy _ => .isTrue trivial

end JoinState

end BasisRust.Server
