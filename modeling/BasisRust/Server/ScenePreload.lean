import BasisRust.Server.PreloadBarrier

/-!
# Scenes that have been preloaded

A resource is in the registry from the start of its preload.  When a report completes the preload of
a scene, the handler of `PRELOAD_READY` sweeps the scenes away before it lets the scene be spawned,
and it looks the scene up, but does not keep it from the sweep.
-/

namespace BasisRust.Server

open Library

/-! ### The handler -/

inductive PreloadNotice where
  | unloadResource (unload : UnloadResource)
  | spawnPreloaded (id : String)
  deriving DecidableEq

namespace ResourceState

variable {γ : Type} {st st' : ResourceState (ResourceBody γ)} {id : String}

/-- The handler of `PRELOAD_READY`: what is broadcast and the registry afterwards. -/
def handlePreloadReady (st : ResourceState (ResourceBody γ)) (peer : PeerId) (id : String)
    (isReady : Bool) : List PreloadNotice × ResourceState (ResourceBody γ) :=
  match st.markPreloadReady peer id isReady with
  | (none, st) => ([], st)
  | (some spawn, st) =>
    match st.allResources.find? fun resource =>
        resource.loadedNetId = spawn ∧ resource.content.mode = sceneMode with
    | some _ =>
      (st.allSceneUnloads.1.map .unloadResource ++ [.spawnPreloaded spawn], st.allSceneUnloads.2)
    | none => ([.spawnPreloaded spawn], st)

/-- A scene that is loaded. -/
def hasScene (st : ResourceState (ResourceBody γ)) (id : String) : Prop :=
  ∃ resource, assocGet id st.resources = some resource ∧ resource.content.mode = sceneMode

/-! ### Sweeps -/

theorem removeListed_get (closes : Bool) (st : ResourceState (ResourceBody γ)) (ids : List String)
    (id : String) : assocGet id (st.removeListed closes ids).2.resources =
      if id ∈ ids then none else assocGet id st.resources := by
  induction ids generalizing st with
  | nil => rfl
  | cons id₀ ids ih =>
    rw [removeListed]
    cases hresource : assocGet id₀ st.resources with
    | none =>
      dsimp only
      rw [ih]
      by_cases hid : id = id₀
      · rw [if_pos (List.mem_cons.mpr (.inl hid)), hid, hresource, ite_self]
      · simp [hid]
    | some resource =>
      dsimp only
      rw [ih]
      by_cases hid : id = id₀
      · rw [if_pos (List.mem_cons.mpr (.inl hid)), hid, assocGet_erase_self, ite_self]
      · rw [assocGet_erase_of_ne hid]
        simp [hid]

theorem mem_removeListed (closes : Bool) (st : ResourceState (ResourceBody γ)) (ids : List String)
    (unload : UnloadResource) : unload ∈ (st.removeListed closes ids).1 ↔
      unload.loadedNetId ∈ ids ∧
        (assocGet unload.loadedNetId st.resources).map (fun r => r.content.mode) =
          some unload.mode := by
  induction ids generalizing st with
  | nil => simp [removeListed]
  | cons id₀ ids ih =>
    rw [removeListed]
    cases hresource : assocGet id₀ st.resources with
    | none =>
      dsimp only
      rw [ih, List.mem_cons]
      constructor
      · intro h
        exact ⟨.inr h.1, h.2⟩
      · intro h
        refine ⟨h.1.resolve_left fun heq => ?_, h.2⟩
        have hmode := h.2
        rw [heq, hresource] at hmode
        cases hmode
    | some resource =>
      dsimp only
      rw [List.mem_cons, ih, List.mem_cons]
      by_cases hid : unload.loadedNetId = id₀
      · rw [hid, assocGet_erase_self, hresource]
        constructor
        · intro h
          rcases h with heq | ⟨-, hnone⟩
          · rw [heq]
            exact ⟨.inl rfl, rfl⟩
          · cases hnone
        · intro h
          left
          obtain ⟨mode, loadedNetId⟩ := unload
          have hmode := Option.some.inj h.2
          cases hid
          cases hmode
          rfl
      · rw [assocGet_erase_of_ne hid]
        constructor
        · intro h
          rcases h with heq | h
          · exact absurd (congrArg UnloadResource.loadedNetId heq) hid
          · exact ⟨.inr h.1, h.2⟩
        · intro h
          exact .inr ⟨h.1.resolve_left hid, h.2⟩

/-! ### Resources under their own ids -/

structure Keyed (st : ResourceState (ResourceBody γ)) : Prop where
  nodup : AssocNodup st.resources
  ids : ∀ x ∈ st.resources, x.2.loadedNetId = x.1

theorem Keyed.congr (h : Keyed st) (heq : st'.resources = st.resources) : Keyed st' where
  nodup := by rw [heq]; exact h.nodup
  ids := by rw [heq]; exact h.ids

theorem Keyed.erase (h : Keyed st) (heq : st'.resources = assocErase id st.resources) :
    Keyed st' where
  nodup := by rw [heq]; exact h.nodup.erase id
  ids x hx := h.ids x (mem_of_mem_assocErase (heq ▸ hx))

theorem Keyed.insert (h : Keyed st) {message : LocalLoadResource (ResourceBody γ)}
    (heq : st'.resources = assocSet message.loadedNetId message st.resources) : Keyed st' where
  nodup := by rw [heq]; exact h.nodup.put _ (some message)
  ids x hx := by
    rcases mem_assocSet (heq ▸ hx) with hx | hx
    · rw [hx]
    · exact h.ids x hx

theorem Keyed.removeListed (h : Keyed st) (closes : Bool) (ids : List String) :
    Keyed (st.removeListed closes ids).2 := by
  induction ids generalizing st with
  | nil => exact h
  | cons id ids ih =>
    rw [ResourceState.removeListed]
    cases assocGet id st.resources with
    | none => exact ih h
    | some resource => exact ih (h.erase rfl)

theorem Keyed.mem_scenes (h : Keyed st) : id ∈ st.listed .scenes ↔ st.hasScene id := by
  rw [listed, if_neg (by decide)]
  refine (h.nodup.mem_filter_keys fun resource => resource.content.mode = sceneMode).trans ?_
  simp only [hasScene, decide_eq_true_eq]

/-- A report changes no resource. -/
theorem markPreloadReady_resources (st : ResourceState (ResourceBody γ)) (peer : PeerId)
    (id : String) (isReady : Bool) :
    (st.markPreloadReady peer id isReady).2.resources = st.resources := by
  rw [markPreloadReady]
  cases assocGet id st.preloadSessions with
  | none => rfl
  | some session =>
    dsimp only
    split_ifs <;> rfl

/-- The handler finds the scene that it completes, if it is loaded. -/
theorem Keyed.find_scene (h : Keyed st) (id : String) :
    (st.allResources.find? fun resource =>
      resource.loadedNetId = id ∧ resource.content.mode = sceneMode).isSome = true ↔
      st.hasScene id := by
  rw [List.find?_isSome]
  constructor
  · intro hfound
    obtain ⟨resource, hmem, hscene⟩ := hfound
    obtain ⟨⟨key, resource⟩, hin, heq⟩ := List.mem_map.mp hmem
    cases heq
    obtain ⟨hid, hmode⟩ := of_decide_eq_true hscene
    have hkey : resource.loadedNetId = key := h.ids _ hin
    rw [← hkey, hid] at hin
    exact ⟨resource, h.nodup.get_of_mem hin, hmode⟩
  · intro hscene
    obtain ⟨resource, hget, hmode⟩ := hscene
    have hin := mem_keys_of_assocGet hget
    exact ⟨resource, List.mem_map.mpr ⟨_, hin, rfl⟩, decide_eq_true ⟨h.ids _ hin, hmode⟩⟩

/-- **A completed preload**: a scene that is loaded goes with all the others, and they are
unloaded. -/
theorem Keyed.handle_complete (h : Keyed st) {peer : PeerId} {isReady : Bool}
    (hcomplete : (st.markPreloadReady peer id isReady).1 = some id) :
    (st.hasScene id → (∀ id', ¬ (st.handlePreloadReady peer id isReady).2.hasScene id') ∧
      assocGet id (st.handlePreloadReady peer id isReady).2.resources = none ∧
      ∀ unload, .unloadResource unload ∈ (st.handlePreloadReady peer id isReady).1 ↔
        st.hasScene unload.loadedNetId ∧ unload.mode = sceneMode) ∧
    (¬ st.hasScene id → (st.handlePreloadReady peer id isReady).2.resources = st.resources) := by
  have hmark := st.markPreloadReady_resources peer id isReady
  rw [handlePreloadReady]
  generalize st.markPreloadReady peer id isReady = marked at hcomplete hmark
  obtain ⟨spawn, st₁⟩ := marked
  cases hcomplete
  have hkeyed : Keyed st₁ := h.congr hmark
  have hscenes : ∀ id', st₁.hasScene id' ↔ st.hasScene id' := by
    intro id'
    rw [hasScene, hmark]
    rfl
  have hfind := hkeyed.find_scene id
  rw [hscenes id] at hfind
  dsimp only
  cases hfound : st₁.allResources.find? fun resource =>
      resource.loadedNetId = id ∧ resource.content.mode = sceneMode with
  | none =>
    rw [hfound] at hfind
    exact ⟨fun hscene => absurd (hfind.mpr hscene) Bool.false_ne_true, fun _ => hmark⟩
  | some found =>
    rw [hfound] at hfind
    have hscene : st.hasScene id := hfind.mp rfl
    refine ⟨fun _ => ⟨fun id' hleft => ?_, ?_, fun unload => ?_⟩, fun hno => absurd hscene hno⟩
    · obtain ⟨resource, hget, hmode⟩ := hleft
      rw [allSceneUnloads, removeListed_get] at hget
      split_ifs at hget with hlisted
      exact hlisted (hkeyed.mem_scenes.mpr ⟨resource, hget, hmode⟩)
    · rw [allSceneUnloads, removeListed_get, if_pos]
      exact hkeyed.mem_scenes.mpr ((hscenes id).mpr hscene)
    · have hunload : PreloadNotice.unloadResource unload ∈
          st₁.allSceneUnloads.1.map .unloadResource ++ [.spawnPreloaded id] ↔
            unload ∈ st₁.allSceneUnloads.1 := by
        simp
      rw [hunload, allSceneUnloads, mem_removeListed, hkeyed.mem_scenes, hscenes]
      refine and_congr_right fun hlisted => ?_
      obtain ⟨resource, hget, hmode⟩ := (hscenes unload.loadedNetId).mpr hlisted
      rw [hget, Option.map_some, hmode, Option.some_inj]
      exact eq_comm

end ResourceState

namespace PreloadState

variable {γ : Type} {st st' : PreloadState γ} {id : String}

theorem keyed_step {a : Action γ} (h : ResourceState.Keyed st.store)
    (hs : st.step a = some st') : ResourceState.Keyed st'.store := by
  cases a with rw [PreloadState.step] at hs
  | finalizeAccept peer | listPeers s resource maxLoaded | depart s =>
    split_ifs at hs
    cases hs
    exact h
  | listResources sweep | elapse seconds | timedOutPreloads =>
    cases hs
    exact h.congr rfl
  | startPreload i =>
    split at hs
    · cases hs
    · split at hs
      · cases hs
        exact h
      · rename_i x _ _ store hstart
        cases hs
        rw [ResourceState.startPreload] at hstart
        obtain ⟨store', hinsert, hstore⟩ := Option.map_eq_some_iff.mp hstart
        cases hstore
        exact h.insert (ResourceState.insertResource_inserts hinsert).2.1
  | loadResource s resource maxLoaded =>
    split_ifs at hs
    split at hs
    · cases hs
      exact h
    · rename_i store hload
      cases hs
      exact h.insert (ResourceState.insertResource_inserts hload).2.1
  | unloadResource id requesterUuid isModerator removalLocked =>
    split at hs
    · cases hs
      exact h
    · rename_i store hunload
      cases hs
      unfold ResourceState.unloadResourceIf at hunload
      split at hunload
      · cases hunload
      split_ifs at hunload
      cases hunload
      exact h.erase rfl
  | removeListed i =>
    split at hs
    · cases hs
    · cases hs
      exact h.removeListed _ _
  | preloadReady s id isReady =>
    split_ifs at hs
    split at hs
    · cases hs
      exact h
    · cases hs
      exact h.congr (st.store.markPreloadReady_resources s.peer id isReady)
  | removePreloadPeer s =>
    split_ifs at hs
    cases hs
    exact h.congr rfl

theorem keyed_reachable (h : Reachable (system γ) (fun _ _ => True) st) :
    ResourceState.Keyed st.store := by
  refine h.invariant (fun st => ResourceState.Keyed st.store) (fun st hst => ?_)
    fun st a st' hkeyed _ hs => keyed_step hkeyed hs
  rw [show st = empty from hst]
  exact ⟨.nil, nofun⟩

/-! ### The completed scene -/

/-- **The completed scene becomes the loaded one**: it stays, the other scenes go, and they are the
ones that are unloaded. -/
structure BecomesScene (before after : ResourceState (ResourceBody γ)) (id : String)
    (notices : List PreloadNotice) : Prop where
  stays : ∃ resource, assocGet id before.resources = some resource ∧
    assocGet id after.resources = some resource
  alone : ∀ id', after.hasScene id' → id' = id
  unloads : ∀ id', (∃ mode, .unloadResource ⟨mode, id'⟩ ∈ notices) ↔ id' ≠ id ∧ before.hasScene id'

/-- **The completed scene never stays**: the sweep takes it as well, and its unloading is broadcast
with that of the others. -/
theorem scene_preload (h : Reachable (system γ) (fun _ _ => True) st) (peer : PeerId) (id : String)
    (isReady : Bool) (hcomplete : (st.store.markPreloadReady peer id isReady).1 = some id)
    (hscene : ∀ resource ∈ assocGet id st.store.resources, resource.content.mode = sceneMode) :
    ¬ BecomesScene st.store (st.store.handlePreloadReady peer id isReady).2 id
        (st.store.handlePreloadReady peer id isReady).1 ∧
      assocGet id (st.store.handlePreloadReady peer id isReady).2.resources = none ∧
      (st.store.hasScene id → ∀ unload : UnloadResource,
        .unloadResource unload ∈ (st.store.handlePreloadReady peer id isReady).1 ↔
          st.store.hasScene unload.loadedNetId ∧ unload.mode = sceneMode) := by
  obtain ⟨hthere, hmissing⟩ := (keyed_reachable h).handle_complete hcomplete
  have hgone : assocGet id (st.store.handlePreloadReady peer id isReady).2.resources = none := by
    by_cases hhas : st.store.hasScene id
    · exact (hthere hhas).2.1
    · rw [hmissing hhas]
      cases hresource : assocGet id st.store.resources with
      | none => rfl
      | some resource => exact absurd ⟨resource, hresource, hscene resource hresource⟩ hhas
  refine ⟨fun hbecomes => ?_, hgone, fun hhas => (hthere hhas).2.2⟩
  obtain ⟨resource, -, hstays⟩ := hbecomes.stays
  rw [hgone] at hstays
  cases hstays

/-- Two scenes are being preloaded by the only peer. -/
def scenesRun : List (Action Unit) :=
  [.finalizeAccept 0, .listPeers (peerSession 0) (plain "room" 1) 10, .startPreload 0,
    .listPeers (peerSession 0) (plain "hall" 1) 10, .startPreload 0]

theorem scene_preload_room : ∃ st : PreloadState Unit,
    Reachable (system Unit) (fun _ _ => True) st ∧
      assocGet "room" (st.store.handlePreloadReady 0 "room" true).2.resources = none := by
  have hrun : (runActions (system Unit) empty scenesRun).any (fun st =>
      (st.store.markPreloadReady 0 "room" true).1 = some "room" ∧
        ∀ resource ∈ assocGet "room" st.store.resources, resource.content.mode = sceneMode) =
      true := by decide +kernel
  obtain ⟨st, hst, hready⟩ := exists_reachable_of_free_run (.init rfl) hrun
  obtain ⟨hcomplete, hscene⟩ := of_decide_eq_true hready
  exact ⟨st, hst, (scene_preload hst 0 "room" true hcomplete hscene).2.1⟩

/-- The room is loaded when its preload is completed, and both scenes are unloaded. -/
theorem scene_preload_swept : ∃ st : PreloadState Unit,
    Reachable (system Unit) (fun _ _ => True) st ∧
      (st.store.markPreloadReady 0 "room" true).1 = some "room" ∧
      assocGet "room" st.store.resources = some (plain "room" 1) ∧
      (st.store.handlePreloadReady 0 "room" true).1 = [.unloadResource ⟨1, "hall"⟩,
        .unloadResource ⟨1, "room"⟩, .spawnPreloaded "room"] ∧
      ¬ BecomesScene st.store (st.store.handlePreloadReady 0 "room" true).2 "room"
        (st.store.handlePreloadReady 0 "room" true).1 := by
  have hrun : (runActions (system Unit) empty scenesRun).any (fun st =>
      (st.store.markPreloadReady 0 "room" true).1 = some "room" ∧
      assocGet "room" st.store.resources = some (plain "room" 1) ∧
      (st.store.handlePreloadReady 0 "room" true).1 = [.unloadResource ⟨1, "hall"⟩,
        .unloadResource ⟨1, "room"⟩, .spawnPreloaded "room"]) = true := by decide +kernel
  obtain ⟨st, hst, hready⟩ := exists_reachable_of_free_run (.init rfl) hrun
  obtain ⟨hcomplete, hloaded, hnotices⟩ := of_decide_eq_true hready
  refine ⟨st, hst, hcomplete, hloaded, hnotices, fun hbecomes => ?_⟩
  -- the room itself is among the scenes that are unloaded
  have hunloaded := (hbecomes.unloads "room").mp ⟨1, by rw [hnotices]; decide⟩
  exact hunloaded.1 rfl

end PreloadState

end BasisRust.Server
