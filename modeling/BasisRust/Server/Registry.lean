import BasisRust.Server.Preload

/-!
# The locks of the resource registry

`ResourceState` keeps the resources, the numbers of the resources of each creator and the preload
sessions behind one lock each.  An operation takes the write lock of the resources and, while it
holds it, the others one after the other; a sweep first lists the resources under the read lock and
lets it go.  A step of the system goes from one lock to the next.

`loads` and `removed` are history: the loads that were counted, with their limits, and what the
sweeps removed.
-/

namespace BasisRust.Server

open Library

/-! ### Resources that can be modified -/

structure StaticBody (δ : Type) where
  staticResource : Bool
  staticAdminLocked : Bool
  rest : δ
  deriving DecidableEq

/-- A `ResourceManagementMessage`. -/
abbrev Resource (δ : Type) : Type := LocalLoadResource (ResourceBody (StaticBody δ))

structure ModifyResource where
  loadedNetId : String
  mode : Byte
  staticResource : Bool
  staticAdminLocked : Bool
  deriving DecidableEq

variable {δ : Type}

def LocalLoadResource.modify (resource : Resource δ) (committed : ModifyResource) : Resource δ :=
  { resource with
    content := { resource.content with
      rest := { resource.content.rest with
        staticResource := committed.staticResource
        staticAdminLocked := committed.staticAdminLocked } } }

namespace ResourceState

/-- The committed message and the registry afterwards. -/
def modifyResourceIf (st : ResourceState (ResourceBody (StaticBody δ))) (message : ModifyResource)
    (allowed : Resource δ → Bool) :
    Option (ModifyResource × ResourceState (ResourceBody (StaticBody δ))) :=
  match assocGet message.loadedNetId st.resources with
  | none => none
  | some resource =>
    if !allowed resource then none
    else
      let committed : ModifyResource :=
        { mode := resource.content.mode
          loadedNetId := message.loadedNetId
          staticResource := message.staticResource || message.staticAdminLocked
          staticAdminLocked := message.staticAdminLocked }
      some (committed, { st with
        resources := assocSet message.loadedNetId (resource.modify committed) st.resources })

/-- The number of the resources of a creator. -/
def loadedBy (st : ResourceState (ResourceBody (StaticBody δ))) (creator : String) : ℕ :=
  assocSum (fun resource => if resource.uuidOfCreator = creator then 1 else 0) st.resources

/-- The number that is kept for a creator. -/
def countOf (st : ResourceState (ResourceBody (StaticBody δ))) (creator : String) : ℕ :=
  (assocGet creator st.creatorCounts).getD 0

end ResourceState

/-! ### Operations that hold the write lock -/

/-- The peers of a preload and its start. -/
abbrev PreloadStart : Type := List PeerId × ℕ

inductive Section (δ : Type) where
  /-- The id is free; the lock of the counts is next. -/
  | counting (resource : Resource δ) (maxPerCreator : ℕ) (preload : Option PreloadStart)
  /-- The resource is registered; the lock of the preload sessions is next. -/
  | opening (id : String) (preload : PreloadStart)
  /-- The resource is removed; the lock of the preload sessions is next. -/
  | closing (id creator : String) (sweep : Option (Sweep × List String))
  /-- The resource is removed; the lock of the counts is next. -/
  | uncounting (creator : String) (sweep : Option (Sweep × List String))
  /-- A sweep comes to its next resource. -/
  | removing (sweep : Sweep) (ids : List String)

namespace Section

/-- A sweep goes on, any other operation lets the lock go. -/
def resume : Option (Sweep × List String) → Option (Section δ)
  | none => none
  | some (sweep, ids) => some (.removing sweep ids)

/-- The counts of an anonymous creator are not touched. -/
def uncount (creator : String) (sweep : Option (Sweep × List String)) : Option (Section δ) :=
  if creator.isEmpty then resume sweep else some (.uncounting creator sweep)

/-- The registry when the sweep is done. -/
def finishSweep (st : ResourceState (ResourceBody (StaticBody δ))) :
    Option (Sweep × List String) → ResourceState (ResourceBody (StaticBody δ))
  | none => st
  | some (sweep, ids) => (st.removeListed sweep.closes ids).2

/-- A load or the start of a preload, if it is not refused. -/
def register (st : ResourceState (ResourceBody (StaticBody δ))) (resource : Resource δ)
    (maxPerCreator : ℕ) : Option PreloadStart → Option (ResourceState (ResourceBody (StaticBody δ)))
  | none => st.loadResourceWithLimit resource maxPerCreator
  | some (peers, now) => st.startPreload resource peers maxPerCreator now

def openPreload (st : ResourceState (ResourceBody (StaticBody δ))) (id : String) :
    PreloadStart → ResourceState (ResourceBody (StaticBody δ))
  | (peers, now) =>
    { st with preloadSessions := assocSet id ⟨[], [], peers.length, now⟩ st.preloadSessions }

/-- The registry when the operation that holds the lock is done. -/
def finish (st : ResourceState (ResourceBody (StaticBody δ))) :
    Option (Section δ) → ResourceState (ResourceBody (StaticBody δ))
  | none => st
  | some (.counting resource maxPerCreator preload) =>
    (register st resource maxPerCreator preload).getD st
  | some (.opening id preload) => openPreload st id preload
  | some (.closing id creator sweep) =>
    finishSweep { st with
      preloadSessions := assocErase id st.preloadSessions
      creatorCounts := ResourceState.noteResourceRemoved st.creatorCounts creator } sweep
  | some (.uncounting creator sweep) =>
    finishSweep { st with
      creatorCounts := ResourceState.noteResourceRemoved st.creatorCounts creator } sweep
  | some (.removing sweep ids) => finishSweep st (some (sweep, ids))

end Section

/-! ### The system -/

/-- A load that was counted: the resources of its creator with it, and its limit. -/
structure CountedLoad where
  loaded : ℕ
  maxPerCreator : ℕ
  deriving DecidableEq

structure Registry (δ : Type) where
  store : ResourceState (ResourceBody (StaticBody δ))
  holder : Option (Section δ)
  sweeping : List (Sweep × List String)
  loads : List CountedLoad
  removed : List (Sweep × Resource δ)

namespace Registry

def empty : Registry δ := ⟨⟨[], [], []⟩, none, [], [], []⟩

inductive Action (δ : Type) where
  | load (resource : Resource δ) (maxPerCreator : ℕ) (preload : Option PreloadStart)
  | unload (id : String) (allowed : Resource δ → Bool)
  | modify (message : ModifyResource) (allowed : Resource δ → Bool)
  | list (sweep : Sweep) (ids : List String)
  | removeListed (i : ℕ)
  | advance

/-- Put the resource into the map; a preload goes on to its session. -/
def insert (s : Registry δ) (resource : Resource δ) (preload : Option PreloadStart) : Registry δ :=
  { s with
    store := { s.store with
      resources := assocSet resource.loadedNetId resource s.store.resources }
    holder := preload.map (.opening resource.loadedNetId) }

/-- The operation that holds the lock goes to the next one. -/
def advance (s : Registry δ) : Section δ → Registry δ
  | .counting resource maxPerCreator preload =>
    let count := s.store.countOf resource.uuidOfCreator
    if maxPerCreator ≤ count then { s with holder := none }
    else
      let s' := Registry.insert { s with
        store := { s.store with
          creatorCounts :=
            assocSet resource.uuidOfCreator (count + 1) s.store.creatorCounts } } resource preload
      { s' with loads := s.loads ++ [⟨s'.store.loadedBy resource.uuidOfCreator, maxPerCreator⟩] }
  | .opening id preload =>
    { s with store := Section.openPreload s.store id preload, holder := none }
  | .closing id creator sweep =>
    { s with
      store := { s.store with preloadSessions := assocErase id s.store.preloadSessions }
      holder := Section.uncount creator sweep }
  | .uncounting creator sweep =>
    { s with
      store := { s.store with
        creatorCounts := ResourceState.noteResourceRemoved s.store.creatorCounts creator }
      holder := Section.resume sweep }
  | .removing _ [] => { s with holder := none }
  | .removing sweep (id :: ids) =>
    match assocGet id s.store.resources with
    | none => { s with holder := some (.removing sweep ids) }
    | some resource =>
      { s with
        store := { s.store with resources := assocErase id s.store.resources }
        holder :=
          if sweep.closes then some (.closing id resource.uuidOfCreator (some (sweep, ids)))
          else Section.uncount resource.uuidOfCreator (some (sweep, ids))
        removed := s.removed ++ [(sweep, resource)] }

def step (s : Registry δ) : Action δ → Option (Registry δ)
  | .load resource maxPerCreator preload =>
    if s.holder.isSome then none
    else if resource.loadedNetId.isEmpty then some s
    else if (assocGet resource.loadedNetId s.store.resources).isSome then some s
    else if resource.uuidOfCreator.isEmpty then some (s.insert resource preload)
    else some { s with holder := some (.counting resource maxPerCreator preload) }
  | .unload id allowed =>
    if s.holder.isSome then none
    else
      match assocGet id s.store.resources with
      | none => some s
      | some resource =>
        if !allowed resource then some s
        else
          some { s with
            store := { s.store with resources := assocErase id s.store.resources }
            holder := some (.closing id resource.uuidOfCreator none) }
  | .modify message allowed =>
    if s.holder.isSome then none
    else
      match s.store.modifyResourceIf message allowed with
      | none => some s
      | some (_, store) => some { s with store }
  | .list sweep ids =>
    -- a map may list its entries in any order
    if s.holder.isSome ∨ ¬ids.Perm (s.store.listed sweep) then none
    else some { s with sweeping := s.sweeping ++ [(sweep, ids)] }
  | .removeListed i =>
    if s.holder.isSome then none
    else
      match s.sweeping[i]? with
      | none => none
      | some (sweep, ids) =>
        some { s with
          sweeping := s.sweeping.eraseIdx i
          holder := some (.removing sweep ids) }
  | .advance => s.holder.map s.advance

def system (δ : Type) : System (Registry δ) (Action δ) where
  init s := s = empty
  step := step

/-- The registry when the operation that holds the lock is done. -/
def settled (s : Registry δ) : ResourceState (ResourceBody (StaticBody δ)) :=
  Section.finish s.store s.holder

/-! ### The condition of the sweeps -/

/-- No load registers, under an id that a sweep has listed and has still to remove, a resource that
the sweep does not take. -/
def Undisturbed (s : Registry δ) : Action δ → Prop
  | .load resource maxPerCreator _ =>
    assocGet resource.loadedNetId s.store.resources = none →
      resource.uuidOfCreator = "" ∨ s.store.countOf resource.uuidOfCreator < maxPerCreator →
      ∀ x ∈ s.sweeping, resource.loadedNetId ∈ x.2 → x.1.takes resource = true
  | _ => True

instance (s : Registry δ) : ∀ a, Decidable (Undisturbed s a)
  | .load resource maxPerCreator _ => inferInstanceAs (Decidable
      (assocGet resource.loadedNetId s.store.resources = none →
        resource.uuidOfCreator = "" ∨ s.store.countOf resource.uuidOfCreator < maxPerCreator →
        ∀ x ∈ s.sweeping, resource.loadedNetId ∈ x.2 → x.1.takes resource = true))
  | .unload _ _ | .modify _ _ | .list _ _ | .removeListed _ | .advance => .isTrue trivial

end Registry

end BasisRust.Server

