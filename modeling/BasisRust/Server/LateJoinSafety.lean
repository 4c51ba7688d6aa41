import BasisRust.Server.LateJoin

/-!
# A late joiner sees the registries

What the newcomer has been told and is still owed keeps it informed about the registries: the
messages that are queued or being replayed, the broadcasts that are due, and what the replay will
read from the registries it has not come to.
-/

namespace BasisRust.Server

open Library

variable {ρ α β : Type}

/-! ### One message -/

namespace Registries

variable {r r' : Registries ρ α β} {session : PeerSession} {channel : RegistryChannel}
  {item : Item} {told : Option (Told α)}

/-- The message is about one item, which holds what the broadcast says. -/
structure Announces (r r' : Registries ρ α β) (item : Item) (told : Option (Told α)) : Prop where
  wellFormed : r'.WellFormed
  told : r'.value item = told
  others : ∀ item', item' ≠ item → r'.value item' = r.value item'

theorem insertResource_spec {st st' : ResourceState ρ} {message : LocalLoadResource ρ} {limit : ℕ}
    (h : st.insertResource message limit = some st') :
    st'.resources = assocSet message.loadedNetId message st.resources := by
  unfold ResourceState.insertResource at h
  split at h
  · cases h
  split at h
  · cases h
  dsimp only at h
  split at h
  · cases h
    rfl
  split at h
  · cases h
  · cases h
    rfl

section

variable (hr : r.WellFormed)
include hr

theorem Announces.resources {resources : ResourceState ρ} {id : String}
    {o : Option (LocalLoadResource ρ)} (hid : ∀ x ∈ o, x.loadedNetId = id)
    (h : resources.resources = assocPut id o r.resources.resources) :
    Announces r { r with resources } (.resource id) (o.map fun _ => .loaded) where
  wellFormed := by
    refine ⟨?_, ?_, hr.ownership, hr.spheres, hr.cameras⟩
    · show AssocNodup resources.resources
      rw [h]
      exact hr.resources.put id o
    · show ∀ x ∈ resources.resources, _
      rw [h]
      intro x hx
      cases o with
      | none => exact hr.ids x (mem_of_mem_assocErase hx)
      | some resource =>
        rcases mem_assocSet hx with rfl | hx
        · exact hid resource rfl
        · exact hr.ids x hx
  told := by
    show (assocGet id resources.resources).map _ = _
    rw [h, assocGet_put, if_pos rfl]
  others := by
    intro item' hne
    cases item' with
    | resource id' =>
      have hid' : id' ≠ id := fun heq => hne (heq ▸ rfl)
      show (assocGet id' resources.resources).map _ = (assocGet id' r.resources.resources).map _
      rw [h, assocGet_put, if_neg hid']
    | _ => rfl

theorem Announces.ownership {object : String} (o : Option Ownership) :
    Announces r { r with ownership := ⟨assocPut object o r.ownership.byObject⟩ }
      (.ownership object) (o.map fun x => .owner x.owner) where
  wellFormed := ⟨hr.resources, hr.ids, hr.ownership.put object o, hr.spheres, hr.cameras⟩
  told := by
    show (assocGet object (assocPut object o r.ownership.byObject)).map _ = _
    rw [assocGet_put, if_pos rfl]
  others := by
    intro item' hne
    cases item' with
    | ownership object' =>
      have hobject : object' ≠ object := fun heq => hne (heq ▸ rfl)
      show (assocGet object' (assocPut object o r.ownership.byObject)).map _ =
        (assocGet object' r.ownership.byObject).map _
      rw [assocGet_put, if_neg hobject]
    | _ => rfl

theorem Announces.contentShare {sphere : String} (o : Option (SharedSphere α)) :
    Announces r { r with contentShare := ⟨assocPut sphere o r.contentShare.spheres⟩ }
      (.sphere sphere) (o.map fun x => .shared x.playerId x.content x.sharerProtected) where
  wellFormed := ⟨hr.resources, hr.ids, hr.ownership, hr.spheres.put sphere o, hr.cameras⟩
  told := by
    show (assocGet sphere (assocPut sphere o r.contentShare.spheres)).map _ = _
    rw [assocGet_put, if_pos rfl]
  others := by
    intro item' hne
    cases item' with
    | sphere sphere' =>
      have hsphere : sphere' ≠ sphere := fun heq => hne (heq ▸ rfl)
      show (assocGet sphere' (assocPut sphere o r.contentShare.spheres)).map _ =
        (assocGet sphere' r.contentShare.spheres).map _
      rw [assocGet_put, if_neg hsphere]
    | _ => rfl

theorem Announces.pip {peer : PeerId} (x : PipCameraState β) :
    Announces r { r with pip := ⟨assocSet peer x r.pip.states⟩ } (.camera peer)
      (if x.isActive then some .active else none) where
  wellFormed := ⟨hr.resources, hr.ids, hr.ownership, hr.spheres, hr.cameras.put peer (some x)⟩
  told := by
    show (assocGet peer (assocSet peer x r.pip.states)).bind _ = _
    rw [assocGet_set_self]
    rfl
  others := by
    intro item' hne
    cases item' with
    | camera peer' =>
      have hpeer : peer' ≠ peer := fun heq => hne (heq ▸ rfl)
      show (assocGet peer' (assocSet peer x r.pip.states)).bind _ =
        (assocGet peer' r.pip.states).bind _
      rw [assocGet_set_of_ne hpeer]
    | _ => rfl

theorem Announces.stateChange (session : PeerSession) (isActive : Bool) (pose : β) :
    Announces r { r with pip := r.pip.stateChange session isActive pose } (.camera session.peer)
      (if isActive then some .active else none) := by
  unfold PipState.stateChange
  cases isActive with
  | true => exact Announces.pip hr ⟨true, pose, true, [], session⟩
  | false =>
    simp only [Bool.false_eq_true, if_false]
    cases hget : assocGet session.peer r.pip.states with
    | none =>
      -- there is no camera to close, and the broadcast says so
      refine ⟨hr, ?_, fun _ _ => rfl⟩
      show (assocGet session.peer r.pip.states).bind _ = none
      rw [hget]
      rfl
    | some existing =>
      exact Announces.pip hr
        { existing with isActive := false, hasNewData := false, lastSentTimes := [] }

/-- **A message changes one item and announces it.** -/
theorem handle_spec {m : RegistryMessage ρ α β}
    (h : r.handle session m = some (r', channel, item, told)) : Announces r r' item told := by
  cases m with
  | loadResource resource locked maxLoaded now peers =>
    simp only [handle] at h
    split at h
    · cases h
    obtain ⟨resources, hload, heq⟩ := Option.map_eq_some_iff.mp h
    cases heq
    refine Announces.resources hr (o := some resource) (fun x hx => ?_) ?_
    · cases hx
      rfl
    · split at hload
      · obtain ⟨st, hinsert, rfl⟩ := Option.map_eq_some_iff.mp hload
        show st.resources = _
        exact insertResource_spec hinsert
      · exact insertResource_spec hload
  | unloadResource id requesterUuid isModerator removalLocked =>
    obtain ⟨resources, hunload, heq⟩ := Option.map_eq_some_iff.mp h
    cases heq
    refine Announces.resources hr (o := none) nofun ?_
    unfold ResourceState.unloadResourceIf at hunload
    split at hunload
    · cases hunload
    split at hunload
    · cases hunload
      rfl
    · cases hunload
  | changeCurrentOwner object =>
    cases h
    exact Announces.ownership hr (some ⟨session.peer, session⟩)
  | removeCurrentOwner object =>
    simp only [handle, OwnershipState.removeIfOwner] at h
    split at h
    · cases h
    · rename_i hremove
      cases h
      split at hremove
      · cases hremove
        exact Announces.ownership hr none
      · cases hremove
  | dropSphere sphere content allowed maxSpheres sharerProtected now =>
    simp only [handle, ContentShareState.addWithLimitAndProtection] at h
    split at h
    · cases h
    split at h
    · cases h
    · rename_i hadd
      cases h
      split at hadd
      · cases hadd
      · cases hadd
        exact Announces.contentShare hr
          (some ⟨session.peer, content, sharerProtected, now, none, session⟩)
  | cleanupSphere sphere allowed moderator locked =>
    simp only [handle, ContentShareState.removeAuthorized] at h
    split at h
    · cases h
    split at h
    · cases h
    · rename_i hremove
      cases h
      split at hremove
      · cases hremove
      · split at hremove
        · cases hremove
        · cases hremove
          exact Announces.contentShare hr none
  | pipState isActive pose =>
    cases h
    exact Announces.stateChange hr session isActive pose

end

end Registries

/-! ### What the newcomer is owed -/

namespace JoinState

variable {s s' : JoinState ρ α β} {newcomer : PeerId} {a : Action ρ α β} {n : Note Item (Told α)}
  {i : ℕ} {b : Broadcast α} {unread : List ReplayedRegistry}

/-- The replay will read the item as the note says. -/
def willRead (s : JoinState ρ α β) (n : Note Item (Told α)) : Prop :=
  n.key.registry ∈ s.unread ∧ s.registries.value n.key ≠ none ∧
    n.value = s.registries.value n.key ∧ n.version = s.version n.key

def owes (s : JoinState ρ α β) (n : Note Item (Told α)) : Prop :=
  (∃ m ∈ s.queued, m.note = n) ∨ (∃ m ∈ s.remaining, m.note = n) ∨
    (∃ b ∈ s.broadcasts, b.due = true ∧ b.notice.note = n) ∨ s.willRead n

def heard (s : JoinState ρ α β) : List (Note Item (Told α)) := s.log.map RegistryNotice.note

structure JoinInv (s : JoinState ρ α β) : Prop where
  wellFormed : s.registries.WellFormed
  outside : s.isOutside = true → s.log = [] ∧ s.queued = [] ∧ ∀ b ∈ s.broadcasts, b.due = false
  sound : ∀ b ∈ s.broadcasts, b.notice.note.version < s.version b.notice.note.key ∨
    b.notice.note.version = s.version b.notice.note.key ∧
      b.notice.note.value = s.registries.value b.notice.note.key
  informed : Informed s.registries.value s.version s.heard s.owes
  complete : Complete s.registries.value s.version s.heard s.owes

/-- A newcomer that is still outside is owed what the replay will read, and nothing else. -/
theorem owes_outside (hout : s.isOutside = true) (hqueued : s.queued = [])
    (hdue : ∀ b ∈ s.broadcasts, b.due = false) (n : Note Item (Told α)) :
    s.owes n ↔ s.willRead n := by
  have hremaining : s.remaining = [] := by
    unfold isOutside at hout
    unfold remaining
    cases hadmission : s.admission with
    | outside => rfl
    | replaying remaining unread => simp [hadmission] at hout
  have hbroadcasts : ¬ ∃ b ∈ s.broadcasts, b.due = true ∧ b.notice.note = n := by
    rintro ⟨b, hb, htrue, -⟩
    rw [hdue b hb] at htrue
    cases htrue
  unfold owes
  simp only [hqueued, hremaining, hbroadcasts, List.not_mem_nil, false_and, exists_false, false_or]

theorem mem_unread_outside (hout : s.isOutside = true) (registry : ReplayedRegistry) :
    registry ∈ s.unread := by
  unfold isOutside at hout
  unfold unread
  cases hadmission : s.admission with
  | outside =>
    show registry ∈ [ReplayedRegistry.resources, .ownership, .contentShare, .pip]
    cases registry <;> decide
  | replaying remaining unread => simp [hadmission] at hout

/-- Outside, nothing has to be shown but that the registries are well formed. -/
theorem JoinInv.of_outside (hwf : s.registries.WellFormed) (hout : s.isOutside = true)
    (hlog : s.log = []) (hqueued : s.queued = []) (hdue : ∀ b ∈ s.broadcasts, b.due = false)
    (hsound : ∀ b ∈ s.broadcasts, b.notice.note.version < s.version b.notice.note.key ∨
      b.notice.note.version = s.version b.notice.note.key ∧
        b.notice.note.value = s.registries.value b.notice.note.key) : JoinInv s := by
  have howes := owes_outside hout hqueued hdue
  have hheard : s.heard = [] := by
    rw [heard, hlog]
    rfl
  refine ⟨hwf, fun _ => ⟨hlog, hqueued, hdue⟩, hsound, ?_, ?_⟩
  · rw [hheard]
    refine ⟨?_, ?_, .nil⟩
    · intro m hm
      rcases hm with hm | hm
      · cases hm
      · exact .inr ⟨((howes m).mp hm).2.2.2, ((howes m).mp hm).2.2.1⟩
    · intro m hm
      rcases hm with hm | hm
      · cases hm
      · exact ⟨m, .inr hm, rfl, ((howes m).mp hm).2.2.2⟩
  · intro item hitem
    refine ⟨⟨item, s.registries.value item, s.version item⟩, .inr ((howes _).mpr ?_), rfl, rfl⟩
    exact ⟨mem_unread_outside hout _, hitem, rfl, rfl⟩

/-! ### The steps -/

/-- A broadcast from before is as sound as it was. -/
theorem sound_change {registries : Registries ρ α β} {item : Item} {told : Option (Told α)}
    (hannounce : s.registries.Announces registries item told) (h : n.version < s.version n.key ∨
      n.version = s.version n.key ∧ n.value = s.registries.value n.key) :
    n.version < (s.changes ++ [item]).count n.key ∨
      n.version = (s.changes ++ [item]).count n.key ∧ n.value = registries.value n.key := by
  have hversion : s.version n.key = s.changes.count n.key := rfl
  rw [count_change, ← hversion]
  by_cases hkey : item = n.key
  · rw [if_pos hkey]
    omega
  · rw [if_neg hkey, hannounce.others n.key (Ne.symm hkey)]
    exact h

variable {registries : Registries ρ α β} {channel : RegistryChannel} {item : Item}
  {told : Option (Told α)}

theorem version_announce (k : Item) :
    (s.announce registries channel item told).version k = s.version k + if item = k then 1 else 0 :=
  count_change s.changes item k

/-- The note of the broadcast. -/
def announced (s : JoinState ρ α β) (item : Item) (told : Option (Told α)) : Note Item (Told α) :=
  ⟨item, told, (s.changes ++ [item]).count item⟩

/-- What is owed after a broadcast has begun that is due. -/
theorem owes_announce (hin : s.isOutside = false) (n : Note Item (Told α)) :
    (s.announce registries channel item told).owes n ↔
      (∃ m ∈ s.queued, m.note = n) ∨ (∃ m ∈ s.remaining, m.note = n) ∨
        ((∃ b ∈ s.broadcasts, b.due = true ∧ b.notice.note = n) ∨ n = s.announced item told) ∨
        (s.announce registries channel item told).willRead n := by
  have hbroadcast : (∃ b ∈ (s.announce registries channel item told).broadcasts,
      b.due = true ∧ b.notice.note = n) ↔
      (∃ b ∈ s.broadcasts, b.due = true ∧ b.notice.note = n) ∨ n = s.announced item told := by
    unfold announce
    simp only [List.mem_append, List.mem_singleton, or_and_right, exists_or, exists_eq_left, hin,
      Bool.not_false, true_and]
    exact or_congr Iff.rfl eq_comm
  unfold owes
  rw [hbroadcast]
  rfl

/-- Of the other items, the replay reads what it would have read before. -/
theorem willRead_announce (hannounce : s.registries.Announces registries item told)
    (hkey : n.key ≠ item) :
    (s.announce registries channel item told).willRead n ↔ s.willRead n := by
  unfold willRead
  rw [version_announce, if_neg (Ne.symm hkey), Nat.add_zero,
    show (s.announce registries channel item told).registries.value n.key =
      s.registries.value n.key from hannounce.others n.key hkey]
  rfl

/-- A note about the present state stays owed. -/
theorem owes_announce_of_current (hin : s.isOutside = false)
    (hannounce : s.registries.Announces registries item told) (hn : s.owes n)
    (hversion : n.version = (s.announce registries channel item told).version n.key) :
    (s.announce registries channel item told).owes n := by
  rw [owes_announce hin]
  rcases hn with hqueued | hremaining | hbroadcast | hread
  · exact .inl hqueued
  · exact .inr (.inl hremaining)
  · exact .inr (.inr (.inl (.inl hbroadcast)))
  · have hkey : n.key ≠ item := by
      intro heq
      rw [version_announce, if_pos heq.symm, hread.2.2.2] at hversion
      omega
    exact .inr (.inr (.inr ((willRead_announce hannounce hkey).mpr hread)))

theorem JoinInv.announce (hinv : JoinInv s) (hin : s.isOutside = false)
    (hannounce : s.registries.Announces registries item told) :
    JoinInv (s.announce registries channel item told) := by
  let s' := s.announce registries channel item told
  have howes : ∀ n, s'.owes n ↔ _ := owes_announce hin
  let new (n : Note Item (Told α)) : Prop :=
    n = s.announced item told ∨ s'.willRead n ∧ n.key = item
  have hnew : ∀ n, new n → n.version = s'.version n.key ∧ n.value = s'.registries.value n.key := by
    intro n hn
    rcases hn with rfl | ⟨hread, -⟩
    · exact ⟨rfl, hannounce.told.symm⟩
    · exact ⟨hread.2.2.2, hread.2.2.1⟩
  have hgrows : ∀ k, s'.version k = s.version k ∧
      s'.registries.value k = s.registries.value k ∨ s.version k < s'.version k := by
    intro k
    rw [show s'.version k = _ from version_announce k]
    by_cases hk : item = k
    · rw [if_pos hk]
      exact .inr (Nat.lt_succ_self _)
    · rw [if_neg hk]
      exact .inl ⟨rfl, hannounce.others k (Ne.symm hk)⟩
  have hinformed : Informed s'.registries.value s'.version s.heard fun n => s.owes n ∨ new n := by
    refine hinv.informed.changes new hgrows hnew ?_ (fun _ => Iff.rfl)
    intro k hk
    rw [show s'.version k = _ from version_announce k] at hk
    refine .inl ⟨s.announced item told, .inl rfl, ?_⟩
    by_contra hne
    rw [if_neg (show ¬item = k from hne)] at hk
    exact absurd hk (Nat.lt_irrefl _)
  have hkeep : ∀ n, s.owes n ∨ new n → n.version = s'.version n.key → s'.owes n := by
    intro n hn hversion
    rcases hn with hn | rfl | ⟨hread, -⟩
    · exact owes_announce_of_current hin hannounce hn hversion
    · exact (howes _).mpr (.inr (.inr (.inl (.inr rfl))))
    · exact (howes n).mpr (.inr (.inr (.inr hread)))
  refine ⟨hannounce.wellFormed, ?_, ?_, hinformed.forget ?_ hkeep, ?_⟩
  · intro hout
    rw [show s.isOutside = true from hout] at hin
    cases hin
  · intro b hb
    rcases List.mem_append.mp hb with hb | hb
    · exact sound_change hannounce (hinv.sound b hb)
    · rw [List.mem_singleton.mp hb]
      exact .inr ⟨rfl, hannounce.told.symm⟩
  · intro n hn
    rcases (howes n).mp hn with hqueued | hremaining | (hbroadcast | rfl) | hread
    · exact .inl (.inl hqueued)
    · exact .inl (.inr (.inl hremaining))
    · exact .inl (.inr (.inr (.inl hbroadcast)))
    · exact .inr (.inl rfl)
    · by_cases hkey : n.key = item
      · exact .inr (.inr ⟨hread, hkey⟩)
      · exact .inl (.inr (.inr (.inr ((willRead_announce hannounce hkey).mp hread))))
  · intro k hk
    by_cases hitem : item = k
    · subst hitem
      exact ⟨s.announced item told, .inr (hkeep _ (.inr (.inl rfl)) rfl), rfl, rfl⟩
    · have hsame : s'.version k = s.version k := by
        rw [show s'.version k = _ from version_announce k, if_neg hitem]
        rfl
      have hvalue : s.registries.value k ≠ none := by
        rw [← hannounce.others k (Ne.symm hitem)]
        exact hk
      obtain ⟨m, hm, hkey, hversion⟩ := hinv.complete k hvalue
      refine ⟨m, hm.imp_right fun howed => hkeep m (.inl howed) ?_, hkey, ?_⟩
      · rw [hversion, hkey, hsame]
      · rw [hversion]
        exact hsame.symm

theorem JoinInv.handleMessage (hinv : JoinInv s) (session : PeerSession)
    (m : RegistryMessage ρ α β) : JoinInv (s.handleMessage session m) := by
  unfold JoinState.handleMessage
  split
  · exact hinv
  rename_i registries channel item told hhandle
  have hannounce := Registries.handle_spec hinv.wellFormed hhandle
  cases hout : s.isOutside with
  | false => exact hinv.announce hout hannounce
  | true =>
    obtain ⟨hlog, hqueued, hdue⟩ := hinv.outside hout
    refine JoinInv.of_outside hannounce.wellFormed hout hlog hqueued ?_ ?_
    · intro b hb
      rcases List.mem_append.mp hb with hb | hb
      · exact hdue b hb
      · rw [List.mem_singleton.mp hb]
        show (!s.isOutside) = false
        rw [hout]
        rfl
    · intro b hb
      rcases List.mem_append.mp hb with hb | hb
      · exact sound_change hannounce (hinv.sound b hb)
      · rw [List.mem_singleton.mp hb]
        exact .inr ⟨rfl, hannounce.told.symm⟩

/-- What is owed may move between the replay, the broadcasts and the queues. -/
theorem JoinInv.move (hinv : JoinInv s) (hregistries : s'.registries = s.registries)
    (hchanges : s'.changes = s.changes) (hlog : s'.log = s.log) (houtside : s'.isOutside = true →
      s'.log = [] ∧ s'.queued = [] ∧ ∀ b ∈ s'.broadcasts, b.due = false)
    (hbroadcasts : ∀ b ∈ s'.broadcasts, b ∈ s.broadcasts) (howes : ∀ n, s'.owes n ↔ s.owes n) :
    JoinInv s' := by
  have hversion : s'.version = s.version := by
    funext k
    rw [version, hchanges]
    rfl
  have hheard : s'.heard = s.heard := by
    rw [heard, hlog]
    rfl
  have howed : s'.owes = s.owes := funext fun n => propext (howes n)
  refine ⟨hregistries ▸ hinv.wellFormed, houtside, ?_, ?_, ?_⟩
  · intro b hb
    rw [hversion, hregistries]
    exact hinv.sound b (hbroadcasts b hb)
  · rw [hversion, hregistries, hheard, howed]
    exact hinv.informed
  · rw [hversion, hregistries, hheard, howed]
    exact hinv.complete

/-- The replay reads every entry of a registry, as it is. -/
theorem mem_snapshot (hwf : s.registries.WellFormed) (order : Item → ℕ)
    (registry : ReplayedRegistry) (n : Note Item (Told α)) :
    (∃ m ∈ s.snapshot order registry, m.note = n) ↔
      n.key.registry = registry ∧ s.registries.value n.key ≠ none ∧
        n.value = s.registries.value n.key ∧ n.version = s.version n.key := by
  obtain ⟨key, value, version⟩ := n
  simp only [snapshot, (List.perm_insertionSort _ _).mem_iff]
  constructor
  · rintro ⟨m, hm, hnote⟩
    cases registry with
    | resources =>
      obtain ⟨x, hx, rfl⟩ := List.mem_map.mp hm
      obtain ⟨⟨id, resource⟩, hmem, rfl⟩ := List.mem_map.mp hx
      cases hnote
      have hid : resource.loadedNetId = id := hwf.ids _ hmem
      simp [Item.registry, Registries.value, hid, hwf.resources.get_of_mem hmem]
    | ownership =>
      obtain ⟨x, hx, rfl⟩ := List.mem_map.mp hm
      obtain ⟨⟨object, ownership⟩, hmem, rfl⟩ := List.mem_map.mp hx
      cases hnote
      simp [Item.registry, Registries.value, hwf.ownership.get_of_mem hmem]
    | contentShare =>
      obtain ⟨x, hx, rfl⟩ := List.mem_map.mp hm
      obtain ⟨⟨sphere, shared⟩, hmem, rfl⟩ := List.mem_map.mp hx
      cases hnote
      simp [Item.registry, Registries.value, hwf.spheres.get_of_mem hmem]
    | pip =>
      obtain ⟨⟨peer, camera⟩, hx, rfl⟩ := List.mem_map.mp hm
      obtain ⟨hmem, hactive⟩ := List.mem_filter.mp hx
      have hactive : camera.isActive = true := hactive
      cases hnote
      simp [Item.registry, Registries.value, hwf.cameras.get_of_mem hmem, hactive]
  · rintro ⟨rfl, hsome, hvalue, hversion⟩
    subst hvalue hversion
    cases key with
    | resource id =>
      cases hget : assocGet id s.registries.resources.resources with
      | none => simp [Registries.value, hget] at hsome
      | some resource =>
        have hmem := mem_keys_of_assocGet hget
        have hid : resource.loadedNetId = id := hwf.ids _ hmem
        refine ⟨_, List.mem_map_of_mem (List.mem_map_of_mem hmem), ?_⟩
        simp [Registries.value, hget, hid]
    | ownership object =>
      cases hget : assocGet object s.registries.ownership.byObject with
      | none => simp [Registries.value, hget] at hsome
      | some ownership =>
        refine ⟨_, List.mem_map_of_mem (List.mem_map_of_mem (mem_keys_of_assocGet hget)), ?_⟩
        simp [Registries.value, hget]
    | sphere sphere =>
      cases hget : assocGet sphere s.registries.contentShare.spheres with
      | none => simp [Registries.value, hget] at hsome
      | some shared =>
        refine ⟨_, List.mem_map_of_mem (List.mem_map_of_mem (mem_keys_of_assocGet hget)), ?_⟩
        simp [Registries.value, hget]
    | camera peer =>
      cases hget : assocGet peer s.registries.pip.states with
      | none => simp [Registries.value, hget] at hsome
      | some camera =>
        have hactive : camera.isActive = true := by
          by_contra hne
          simp [Registries.value, hget, hne] at hsome
        refine ⟨_, List.mem_map_of_mem (List.mem_filter.mpr ⟨mem_keys_of_assocGet hget, hactive⟩),
          ?_⟩
        simp [Registries.value, hget, hactive]

theorem JoinInv.finalizeAccept (hinv : JoinInv s) (hout : s.admission = .outside) :
    JoinInv
      { s with admission := .replaying [] [.resources, .ownership, .contentShare, .pip] } := by
  have houtside : s.isOutside = true := by
    rw [isOutside, hout]
  have hunread : s.unread = [.resources, .ownership, .contentShare, .pip] := by
    rw [unread, hout]
  have hremaining : s.remaining = [] := by
    rw [remaining, hout]
  refine hinv.move rfl rfl rfl nofun (fun b hb => hb) ?_
  intro n
  unfold owes willRead
  rw [hunread, hremaining]
  rfl

theorem JoinInv.readRegistry (hinv : JoinInv s) (order : Item → ℕ) {registry : ReplayedRegistry}
    (hadmission : s.admission = .replaying [] (registry :: unread)) :
    JoinInv { s with admission := .replaying (s.snapshot order registry) unread } := by
  have hunread : s.unread = registry :: unread := by
    rw [JoinState.unread, hadmission]
  have hremaining : s.remaining = [] := by
    rw [remaining, hadmission]
  refine hinv.move rfl rfl rfl nofun (fun b hb => hb) ?_
  intro n
  unfold owes
  apply or_congr Iff.rfl
  have hread : s.willRead n ↔ (∃ m ∈ s.snapshot order registry, m.note = n) ∨
      JoinState.willRead
        { s with admission := .replaying (s.snapshot order registry) unread } n := by
    rw [mem_snapshot hinv.wellFormed order]
    unfold willRead
    rw [hunread, List.mem_cons, or_and_right]
    rfl
  rw [hread, hremaining]
  simp only [List.not_mem_nil, false_and, exists_false, false_or]
  exact or_left_comm

theorem JoinInv.queueReplayed (hinv : JoinInv s) {notice : RegistryNotice α}
    {remaining : List (RegistryNotice α)}
    (hadmission : s.admission = .replaying (notice :: remaining) unread) : JoinInv { s with
      admission := .replaying remaining unread
      queued := s.queued ++ [notice] } := by
  have hunread : s.unread = unread := by
    rw [JoinState.unread, hadmission]
  have hremaining : s.remaining = notice :: remaining := by
    rw [JoinState.remaining, hadmission]
  refine hinv.move rfl rfl rfl nofun (fun b hb => hb) ?_
  intro n
  unfold owes willRead
  rw [hunread, hremaining]
  show (∃ m ∈ s.queued ++ [notice], m.note = n) ∨ (∃ m ∈ remaining, m.note = n) ∨ _ ↔ _
  simp only [List.mem_append, List.mem_cons, List.not_mem_nil, or_false, or_and_right, exists_or,
    exists_eq_left, or_assoc]
  rfl

theorem JoinInv.passBy (hinv : JoinInv s) (hb : s.broadcasts[i]? = some b) (hdue : b.due = false) :
    JoinInv { s with broadcasts := s.broadcasts.eraseIdx i } := by
  have hsub : ∀ x ∈ s.broadcasts.eraseIdx i, x ∈ s.broadcasts :=
    fun x hx => List.mem_of_mem_eraseIdx hx
  refine hinv.move rfl rfl rfl ?_ hsub ?_
  · intro hout
    obtain ⟨hlog, hqueued, hnone⟩ := hinv.outside hout
    exact ⟨hlog, hqueued, fun x hx => hnone x (hsub x hx)⟩
  · intro n
    have hsame : (∃ x ∈ s.broadcasts.eraseIdx i, x.due = true ∧ x.notice.note = n) ↔
        ∃ x ∈ s.broadcasts, x.due = true ∧ x.notice.note = n := by
      constructor
      · rintro ⟨x, hx, hn⟩
        exact ⟨x, hsub x hx, hn⟩
      · rintro ⟨x, hx, htrue, hn⟩
        rcases mem_eraseIdx_or_eq hb hx with hx | rfl
        · exact ⟨x, hx, htrue, hn⟩
        · rw [hdue] at htrue
          cases htrue
    unfold owes
    exact or_congr Iff.rfl (or_congr Iff.rfl (or_congr hsame Iff.rfl))

/-- After a visit the broadcast is queued. -/
theorem owes_visit (hb : s.broadcasts[i]? = some b) (n : Note Item (Told α)) :
    JoinState.owes { s with
      broadcasts := s.broadcasts.eraseIdx i
      queued := s.queued ++ [b.notice] } n ↔ s.owes n ∨ n = b.notice.note := by
  have hmem := List.mem_of_getElem? hb
  unfold owes
  simp only [List.mem_append, List.mem_singleton, or_and_right, exists_or, exists_eq_left]
  constructor
  · rintro ((hqueued | hn) | hremaining | ⟨x, hx, hn⟩ | hread)
    · exact .inl (.inl hqueued)
    · exact .inr hn.symm
    · exact .inl (.inr (.inl hremaining))
    · exact .inl (.inr (.inr (.inl ⟨x, List.mem_of_mem_eraseIdx hx, hn⟩)))
    · exact .inl (.inr (.inr (.inr hread)))
  · rintro ((hqueued | hremaining | ⟨x, hx, htrue, hn⟩ | hread) | hn)
    · exact .inl (.inl hqueued)
    · exact .inr (.inl hremaining)
    · rcases mem_eraseIdx_or_eq hb hx with hx | rfl
      · exact .inr (.inr (.inl ⟨x, hx, htrue, hn⟩))
      · exact .inl (.inr hn)
    · exact .inr (.inr (.inr hread))
    · exact .inl (.inr hn.symm)

/-- An item of which the newcomer hears as it is now has a note about it. -/
theorem exists_current_note (item : Item) (h : s.hearsCurrent item) :
    ∃ n, (n ∈ s.heard ∨ s.owes n) ∧ n.key = item ∧ n.version = s.version item := by
  rcases h with ⟨m, hm, hkey, hversion⟩ | ⟨b, hb, hdue, hkey, hversion⟩ | ⟨hunread, hsome⟩
  · rw [List.append_assoc, List.mem_append, List.mem_append] at hm
    refine ⟨m.note, ?_, hkey, hversion⟩
    rcases hm with hm | hm | hm
    · exact .inl (List.mem_map_of_mem hm)
    · exact .inr (.inl ⟨m, hm, rfl⟩)
    · exact .inr (.inr (.inl ⟨m, hm, rfl⟩))
  · exact ⟨b.notice.note, .inr (.inr (.inr (.inl ⟨b, hb, hdue, rfl⟩))), hkey, hversion⟩
  · refine ⟨⟨item, s.registries.value item, s.version item⟩, ?_, rfl, rfl⟩
    exact .inr (.inr (.inr (.inr ⟨hunread, Option.isSome_iff_ne_none.mp hsome, rfl, rfl⟩)))

theorem JoinInv.visit (hinv : JoinInv s) (hok : Timely s (.visit i))
    (hb : s.broadcasts[i]? = some b) (hin : s.isOutside = false) : JoinInv { s with
      broadcasts := s.broadcasts.eraseIdx i
      queued := s.queued ++ [b.notice] } := by
  have hsub : ∀ x ∈ s.broadcasts.eraseIdx i, x ∈ s.broadcasts :=
    fun x hx => List.mem_of_mem_eraseIdx hx
  have hmem := List.mem_of_getElem? hb
  have hnot : ∀ {P : Prop}, s.isOutside = true → P := by
    intro P hout
    rw [hin] at hout
    cases hout
  refine ⟨hinv.wellFormed, hnot, fun x hx => hinv.sound x (hsub x hx), ?_, ?_⟩
  · refine hinv.informed.hear (hinv.sound b hmem) ?_ (owes_visit hb)
    cases hdue : b.due with
    | true =>
      exact .inr (hinv.informed.covered _ (.inr (.inr (.inr (.inl ⟨b, hmem, hdue, rfl⟩)))))
    | false => exact (hok b hb hdue).imp_right (exists_current_note _)
  · intro item hitem
    obtain ⟨n, hn, hkey⟩ := hinv.complete item hitem
    exact ⟨n, hn.imp_right fun howed => (owes_visit hb n).mpr (.inl howed), hkey⟩

theorem JoinInv.deliver (hinv : JoinInv s) {channel : RegistryChannel} {m : RegistryNotice α}
    (hok : Timely s (.deliver channel))
    (hfind : s.queued.find? (fun m => m.channel = channel) = some m) :
    JoinInv { s with
      queued := s.queued.eraseP fun m => m.channel = channel
      log := s.log ++ [m] } := by
  obtain ⟨hchannel, before, after, hqueued, hbefore⟩ := List.find?_eq_some_iff_append.mp hfind
  have herase : (s.queued.eraseP fun m => decide (m.channel = channel)) = before ++ after := by
    rw [hqueued, List.eraseP_append_right _ (fun x hx => by simpa using hbefore x hx)]
    show before ++ (bif decide (m.channel = channel) then after else _) = _
    rw [hchannel]
    rfl
  have hmem : m ∈ s.queued := List.mem_of_find?_eq_some hfind
  have hsub : ∀ x ∈ before ++ after, x ∈ s.queued := by
    intro x hx
    rw [hqueued]
    rcases List.mem_append.mp hx with hx | hx
    · exact List.mem_append_left _ hx
    · exact List.mem_append_right _ (.tail _ hx)
  have hrest : ∀ x ∈ s.queued, x = m ∨ x ∈ before ++ after := by
    intro x hx
    rw [hqueued] at hx
    rcases List.mem_append.mp hx with hx | hx
    · exact .inr (List.mem_append_left _ hx)
    · exact (List.mem_cons.mp hx).imp_right (List.mem_append_right _)
  rw [herase]
  have hheard : (s.log ++ [m]).map RegistryNotice.note = s.heard ++ [m.note] := List.map_append
  have hout : s.isOutside = false := by
    by_contra hne
    have hempty := (hinv.outside (eq_true_of_ne_false hne)).2.1
    rw [hempty] at hmem
    cases hmem
  have hback : ∀ n, JoinState.owes { s with queued := before ++ after, log := s.log ++ [m] } n →
      s.owes n := fun n hn => hn.imp_left fun ⟨x, hx, hnote⟩ => ⟨x, hsub x hx, hnote⟩
  have hforth : ∀ n, s.owes n → n = m.note ∨
      JoinState.owes { s with queued := before ++ after, log := s.log ++ [m] } n := by
    intro n hn
    rcases hn with ⟨x, hx, rfl⟩ | hn
    · rcases hrest x hx with rfl | hx
      · exact .inl rfl
      · exact .inr (.inl ⟨x, hx, rfl⟩)
    · exact .inr (.inr hn)
  refine ⟨hinv.wellFormed, ?_, hinv.sound, ?_, ?_⟩
  · intro htrue
    rw [show s.isOutside = true from htrue] at hout
    cases hout
  · show Informed _ _ ((s.log ++ [m]).map RegistryNotice.note) _
    rw [hheard]
    refine hinv.informed.emit (.inl ⟨m, hmem, rfl⟩) hback hforth ?_
    intro n hn
    obtain ⟨x, hx, rfl⟩ := List.mem_map.mp hn
    exact hok m hfind x hx
  · intro item hitem
    obtain ⟨n, hn, hkey⟩ := hinv.complete item hitem
    refine ⟨n, ?_, hkey⟩
    show n ∈ (s.log ++ [m]).map RegistryNotice.note ∨ _
    rw [hheard]
    rcases hn with hn | hn
    · exact .inl (List.mem_append_left _ hn)
    · rcases hforth n hn with rfl | hn
      · exact .inl (List.mem_append_right _ (.head _))
      · exact .inr hn

/-! ### Every run -/

theorem JoinInv.step (hinv : JoinInv s) (hok : Timely s a) (hstep : s.step newcomer a = some s') :
    JoinInv s' := by
  cases a with simp only [JoinState.step] at hstep
  | message session m =>
    split at hstep
    · cases hstep
    · cases hstep
      exact hinv.handleMessage session m
  | finalizeAccept =>
    split at hstep
    · rename_i hadmission
      cases hstep
      exact hinv.finalizeAccept hadmission
    · cases hstep
  | readRegistry order =>
    split at hstep
    · rename_i registry unread hadmission
      cases hstep
      exact hinv.readRegistry order hadmission
    · cases hstep
  | queueReplayed =>
    split at hstep
    · rename_i notice remaining unread hadmission
      cases hstep
      exact hinv.queueReplayed hadmission
    · cases hstep
  | visit i =>
    split at hstep
    · cases hstep
    · rename_i b hb
      split at hstep
      · cases hstep
      · rename_i hin
        cases hstep
        exact hinv.visit hok hb (eq_false_of_ne_true hin)
  | passBy i =>
    split at hstep
    · cases hstep
    · rename_i b hb
      split at hstep
      · cases hstep
      · rename_i hdue
        cases hstep
        exact hinv.passBy hb (eq_false_of_ne_true hdue)
  | deliver channel =>
    split at hstep
    · cases hstep
    · rename_i m hfind
      cases hstep
      exact hinv.deliver hok hfind

theorem joinInv_of_reachable (h : Reachable (system ρ α β newcomer) Timely s) : JoinInv s := by
  apply Reachable.invariant JoinInv ?_ (fun _ _ _ => JoinInv.step) h
  intro s hs
  obtain ⟨hwf, hadmission, hbroadcasts, hqueued, -, hlog⟩ := hs
  refine JoinInv.of_outside hwf ?_ hlog hqueued ?_ ?_
  · rw [isOutside, hadmission]
  · simp [hbroadcasts]
  · simp [hbroadcasts]

/-- **A late joiner converges.**  In every run in which nothing reaches the newcomer behind a
message about a later change of the same item and no broadcast from before its admission tells it
of an outdated state it is not told the end of, once the replay is over and nothing is broadcast or
queued, the newcomer holds exactly what the registries hold. -/
theorem late_joiner_converges (h : Reachable (system ρ α β newcomer) Timely s)
    (hsettled : s.settled) (item : Item) : s.view item = s.registries.value item := by
  have hinv := joinInv_of_reachable h
  obtain ⟨hadmission, hbroadcasts, hqueued⟩ := hsettled
  refine hinv.informed.viewOf_eq hinv.complete ?_ item
  intro n hn
  have hremaining : s.remaining = [] := by
    rw [remaining, hadmission]
  have hunread : s.unread = [] := by
    rw [unread, hadmission]
  unfold owes willRead at hn
  simp [hqueued, hremaining, hbroadcasts, hunread] at hn

/-! ### Runs -/

/-- An empty server. -/
def emptyServer : JoinState Unit Unit Unit :=
  { registries := ⟨⟨[], [], []⟩, ⟨[]⟩, ⟨[]⟩, ⟨[]⟩⟩, admission := .outside, broadcasts := []
    queued := [], changes := [], log := [] }

def resident : PeerSession := ⟨1, 0⟩

def loads (id : String) : Action Unit Unit Unit :=
  .message resident (.loadResource ⟨id, "resident", false, 0, ()⟩ false 16 0 [])

def unloads (id : String) : Action Unit Unit Unit :=
  .message resident (.unloadResource id "resident" false false)

/-- The next registry is read, in the order in which it is kept. -/
def reads : Action Unit Unit Unit := .readRegistry fun _ => 0

theorem emptyServer_init (newcomer : PeerId) : (system Unit Unit Unit newcomer).init emptyServer :=
  ⟨⟨.nil, nofun, .nil, .nil, .nil⟩, rfl, rfl, rfl, rfl, rfl⟩

/-- A chair that was loaded before is replayed and unloaded later; a lamp is taken over
meanwhile. -/
def timelyRun : List (Action Unit Unit Unit) :=
  [loads "chair", .passBy 0, .finalizeAccept, .message resident (.changeCurrentOwner "lamp"),
    reads, .queueReplayed, .deliver .loadResource, .visit 0, reads, .queueReplayed,
    .deliver .getCurrentOwner, .deliver .changeCurrentOwner, reads, reads,
    unloads "chair", .visit 0, .deliver .unloadResource]

theorem late_joiner_converges_timely :
    ∃ s : JoinState Unit Unit Unit, Reachable (system Unit Unit Unit 9) Timely s ∧
      (s.settled ∧ s.log.length = 4 ∧
        s.registries.value (.ownership "lamp") = some (.owner 1)) ∧
      s.view (.ownership "lamp") = s.registries.value (.ownership "lamp") ∧
      s.view (.resource "chair") = s.registries.value (.resource "chair") := by
  have hrun : (runActions (system Unit Unit Unit 9) emptyServer timelyRun).any (fun s =>
      decide ((s.admission = .replaying [] [] ∧ s.broadcasts = [] ∧ s.queued = []) ∧
        s.log.length = 4 ∧ s.registries.value (.ownership "lamp") = some (.owner 1))) = true := by
    decide +kernel
  have hok : Admits (system Unit Unit Unit 9) Timely emptyServer timelyRun := by decide +kernel
  obtain ⟨s, hs, hP⟩ := exists_reachable_of_run Timely hok (.init (emptyServer_init 9)) hrun
  have hP := of_decide_eq_true hP
  exact ⟨s, hs, hP, late_joiner_converges hs hP.1 _, late_joiner_converges hs hP.1 _⟩

/-- The replay has read the chair; it is unloaded, and the newcomer hears of that first. -/
def resurrectingRun : List (Action Unit Unit Unit) :=
  [loads "chair", .passBy 0, .finalizeAccept, reads, unloads "chair", .visit 0,
    .deliver .unloadResource, .queueReplayed, .deliver .loadResource, reads, reads,
    reads]

/-- The chair is loaded and unloaded before the newcomer is admitted; the broadcast of the first
comes to the newcomer, that of the second has passed its place by then. -/
def strayRun : List (Action Unit Unit Unit) :=
  [loads "chair", unloads "chair", .passBy 1, .finalizeAccept, .visit 0, .deliver .loadResource,
    reads, reads, reads, reads]

/-- Nothing reaches the newcomer behind a message about a later change of the same item. -/
def InOrder (s : JoinState ρ α β) : Action ρ α β → Prop
  | .deliver channel => Timely s (.deliver channel)
  | _ => True

instance (s : JoinState ρ α β) : ∀ a, Decidable (InOrder s a)
  | .deliver channel => inferInstanceAs (Decidable (Timely s (.deliver channel)))
  | .message _ _ | .finalizeAccept | .readRegistry _ | .queueReplayed | .visit _ | .passBy _ =>
    .isTrue trivial

/-- The newcomer has been told everything and holds something of an item that is not so. -/
def misled (s : JoinState ρ α β) [DecidableEq α] (item : Item) : Bool :=
  (s.admission = .replaying [] [] ∧ s.broadcasts = [] ∧ s.queued = []) ∧
    s.view item ≠ s.registries.value item

/-- A replay can bring back what was unloaded; and it is not enough that nothing is overtaken. -/
theorem late_joiner_misled :
    (¬ ∀ s, Reachable (system Unit Unit Unit 9) (fun _ _ => True) s → s.settled →
      ∀ item, s.view item = s.registries.value item) ∧
    ¬ ∀ s, Reachable (system Unit Unit Unit 9) InOrder s → s.settled →
      ∀ item, s.view item = s.registries.value item := by
  constructor
  · have hrun : (runActions (system Unit Unit Unit 9) emptyServer resurrectingRun).any
        (fun s => s.misled (.resource "chair")) = true := by
      decide +kernel
    intro hall
    obtain ⟨s, hs, hP⟩ := exists_reachable_of_free_run (.init (emptyServer_init 9)) hrun
    obtain ⟨hsettled, hne⟩ := of_decide_eq_true hP
    exact hne (hall s hs hsettled _)
  · have hrun : (runActions (system Unit Unit Unit 9) emptyServer strayRun).any
        (fun s => s.misled (.resource "chair")) = true := by
      decide +kernel
    have hok : Admits (system Unit Unit Unit 9) InOrder emptyServer strayRun := by decide +kernel
    intro hall
    obtain ⟨s, hs, hP⟩ := exists_reachable_of_run InOrder hok (.init (emptyServer_init 9)) hrun
    obtain ⟨hsettled, hne⟩ := of_decide_eq_true hP
    exact hne (hall s hs hsettled _)

end JoinState

end BasisRust.Server
