import BasisRust.Server.Preload

/-!
# The preload barrier

A session of a preload counts its listed peers down (`Counted`): the reports it keeps are those of
listed peers that have not gone, and its number is that of these peers.  So it is complete when they
have all reported.  What a preload that is going on promises (`Opened`) is kept by every orderly
step, and so is what is recorded when it is spawned.
-/

namespace BasisRust.Server

open Library

/-! ### One session -/

variable {b : Barrier} {session : PreloadSession} {t : PeerSession}

structure Counted (b : Barrier) (session : PreloadSession) : Prop where
  members_nodup : (b.members.map PeerSession.peer).Nodup
  gone : ∀ t ∈ b.gone, t ∈ b.members
  countdown : Countdown (b.remaining.map PeerSession.peer) session.readyPeers session.failedPeers
    session.totalPeerCount
  reported : ∀ t ∈ b.remaining,
    t ∈ b.reported ↔ t.peer ∈ session.readyPeers ∨ t.peer ∈ session.failedPeers

namespace Barrier

theorem mem_remaining : t ∈ b.remaining ↔ t ∈ b.members ∧ t ∉ b.gone := by
  simp [remaining]

theorem remaining_withdraw (b : Barrier) (t : PeerSession) :
    (b.withdraw t).remaining = others t b.remaining := by
  rw [remaining, others, remaining, List.filter_filter]
  apply List.filter_congr
  intro u _
  show decide (u ∉ t :: b.gone) = _
  simp [List.mem_cons, not_or]

end Barrier

namespace Counted

/-- Peers of listed sessions are as different as the sessions. -/
theorem peer_inj (h : Counted b session) {u : PeerSession} (ht : t ∈ b.remaining)
    (hu : u ∈ b.remaining) (hpeer : u.peer = t.peer) : u = t :=
  List.inj_on_of_nodup_map h.members_nodup (Barrier.mem_remaining.mp hu).1
    (Barrier.mem_remaining.mp ht).1 hpeer

theorem start {peers : List PeerSession} (h : (peers.map PeerSession.peer).Nodup)
    (serial now : ℕ) : Counted ⟨serial, peers, [], []⟩
      ⟨[], [], (peers.map PeerSession.peer).length, now⟩ where
  members_nodup := h
  gone := nofun
  countdown := by
    have hall : Barrier.remaining ⟨serial, peers, [], []⟩ = peers := by
      simp [Barrier.remaining]
    rw [hall]
    exact .start h
  reported t _ := by simp

theorem mem_report (session : PreloadSession) (peer k : PeerId) (isReady : Bool) :
    k ∈ (session.report peer isReady).readyPeers ∨ k ∈ (session.report peer isReady).failedPeers ↔
      k = peer ∨ k ∈ session.readyPeers ∨ k ∈ session.failedPeers := by
  by_cases hk : k = peer
  · cases isReady <;> simp [PreloadSession.report, hk]
  · cases isReady <;> simp [PreloadSession.report, mem_others, hk]

section

variable (h : Counted b session)
include h

/-- **A listed peer reports**, for the first time or again. -/
theorem report (ht : t ∈ b.remaining) (isReady : Bool) :
    Counted (b.report t) (session.report t.peer isReady) where
  __ := h
  countdown := by
    have hpeer : t.peer ∈ b.remaining.map PeerSession.peer := List.mem_map_of_mem ht
    cases isReady with
    | true => exact h.countdown.yes hpeer
    | false => exact h.countdown.no hpeer
  reported u hu := by
    rw [mem_report, ← h.reported u hu]
    show u ∈ t :: b.reported ↔ _
    rw [List.mem_cons]
    constructor
    · intro hreported
      exact hreported.imp_left fun heq => congrArg PeerSession.peer heq
    · intro hreported
      exact hreported.imp_left fun hpeer => h.peer_inj ht hu hpeer

/-- **A listed peer has gone.** -/
theorem withdraw (ht : t ∈ b.remaining) : Counted (b.withdraw t) (session.withdraw t.peer) where
  members_nodup := h.members_nodup
  gone u hu := by
    rcases List.mem_cons.mp hu with heq | hu
    · rw [heq]
      exact (Barrier.mem_remaining.mp ht).1
    · exact h.gone u hu
  countdown := by
    have hpeers : (others t b.remaining).map PeerSession.peer =
        others t.peer (b.remaining.map PeerSession.peer) := by
      rw [others, others, List.filter_map]
      congr 1
      apply List.filter_congr
      intro u hu
      apply decide_eq_decide.mpr
      exact not_congr
        ⟨fun heq => congrArg PeerSession.peer heq, fun hpeer => h.peer_inj ht hu hpeer⟩
    rw [Barrier.remaining_withdraw, hpeers]
    exact h.countdown.withdraw (List.mem_map_of_mem ht)
  reported u hu := by
    rw [Barrier.remaining_withdraw, mem_others] at hu
    have hne : u.peer ≠ t.peer := fun hpeer => hu.2 (h.peer_inj ht hu.1 hpeer)
    show u ∈ b.reported ↔ u.peer ∈ others t.peer _ ∨ u.peer ∈ others t.peer _
    rw [h.reported u hu.1, mem_others, mem_others, and_iff_left hne, and_iff_left hne]

/-- **The session is complete** when every listed peer that has not gone has reported. -/
theorem complete_iff : session.isComplete = true ↔ ∀ t ∈ b.remaining, t ∈ b.reported := by
  have hcount := h.countdown.complete_iff
  rw [PreloadSession.isComplete, decide_eq_true_iff, hcount]
  constructor
  · intro hall t ht
    exact (h.reported t ht).mpr (hall t.peer (List.mem_map_of_mem ht))
  · intro hall k hk
    obtain ⟨t, ht, hpeer⟩ := List.mem_map.mp hk
    rw [← hpeer]
    exact (h.reported t ht).mp (hall t ht)

theorem incomplete (hincomplete : session.isComplete = false) :
    ∃ t ∈ b.remaining, t ∉ b.reported := by
  by_contra hnone
  push Not at hnone
  rw [h.complete_iff.mpr hnone] at hincomplete
  cases hincomplete

end

end Counted

/-! ### What is kept -/

namespace PreloadState

variable {γ : Type} {st st' : PreloadState γ} {id : String} {s : PeerSession}

/-- A preload that is going on. -/
structure Opened (st : PreloadState γ) (id : String) (session : PreloadSession) : Prop where
  counted : Counted (st.barriers id) session
  awaits : ∃ t ∈ (st.barriers id).remaining, t ∉ (st.barriers id).reported
  loaded : st.loadedSerial id = some (st.barriers id).serial
  unspawned : ∀ x ∈ st.spawned, x.serial ≠ (st.barriers id).serial
  known : ∀ t ∈ (st.barriers id).members, t.state < st.nextState
  gone : ∀ t ∈ (st.barriers id).gone, t ∉ st.connected ∧ t ∉ st.leaving

/-- Peer ids are those of one connection, and a handler that starts a preload is of a listed peer
that is still connected. -/
structure People (st : PreloadState γ) : Prop where
  peers_nodup : ((st.connected ++ st.leaving).map PeerSession.peer).Nodup
  known : ∀ t ∈ st.connected ++ st.leaving, t.state < st.nextState
  starting : ∀ h ∈ st.starting, h.session ∈ st.connected ∧ h.session ∈ h.peers ∧
    (h.peers.map PeerSession.peer).Nodup ∧ ∀ t ∈ h.peers, t.state < st.nextState

/-- Every loaded resource has a number of its own. -/
structure Registered (st : PreloadState γ) : Prop where
  sessions_nodup : AssocNodup st.store.preloadSessions
  numbered : ∀ id k, st.loadedSerial id = some k → k < st.loads
  single : ∀ id id' k, st.loadedSerial id = some k → st.loadedSerial id' = some k → id = id'
  spawned_lt : ∀ x ∈ st.spawned, x.serial < st.loads

structure Inv (st : PreloadState γ) : Prop where
  people : People st
  registered : Registered st
  opened : ∀ id session, assocGet id st.store.preloadSessions = some session → Opened st id session
  once : (st.spawned.map Spawned.serial).Nodup
  loaded : ∀ x ∈ st.spawned, x.loaded = some x.serial
  awaited : ∀ x ∈ st.spawned, x.timedOut = false → x.awaited = []

theorem Inv.barred (h : Inv st) : Barred st where
  __ := h
  awaits x hx := (h.opened x.1 x.2 (h.registered.sessions_nodup.get_of_mem hx)).awaits

theorem inv_empty : Inv (empty : PreloadState γ) where
  people := ⟨.nil, nofun, nofun⟩
  registered := ⟨.nil, fun _ _ h => (by cases h), fun _ _ _ h => (by cases h),
    nofun⟩
  opened := nofun
  once := .nil
  loaded := nofun
  awaited := nofun

/-- What a preload promises depends on its own barrier, its resource and who is there. -/
theorem Opened.frame {session : PreloadSession} (h : Opened st id session)
    (hbarrier : st'.barriers id = st.barriers id)
    (hloaded : st'.loadedSerial id = st.loadedSerial id) (hspawned : st'.spawned = st.spawned)
    (hnext : st.nextState ≤ st'.nextState)
    (hgone : ∀ t, t.state < st.nextState → t ∉ st.connected → t ∉ st.leaving →
      t ∉ st'.connected ∧ t ∉ st'.leaving) : Opened st' id session where
  counted := by rw [hbarrier]; exact h.counted
  awaits := by rw [hbarrier]; exact h.awaits
  loaded := by rw [hloaded, hbarrier]; exact h.loaded
  unspawned := by rw [hspawned, hbarrier]; exact h.unspawned
  known t ht := Nat.lt_of_lt_of_le (h.known t (hbarrier ▸ ht)) hnext
  gone t ht := by
    rw [hbarrier] at ht
    obtain ⟨hconnected, hleaving⟩ := h.gone t ht
    exact hgone t (h.known t (h.counted.gone t ht)) hconnected hleaving

/-! ### Spawning -/

/-- The preload of a resource has just been closed. -/
structure Closed (st : PreloadState γ) (timedOut : Bool) (id : String) : Prop where
  closed : assocGet id st.store.preloadSessions = none
  loaded : st.loadedSerial id = some (st.barriers id).serial
  unspawned : ∀ x ∈ st.spawned, x.serial ≠ (st.barriers id).serial
  awaited : timedOut = false → ∀ t ∈ (st.barriers id).members, t ∈ st.connected →
    t ∈ (st.barriers id).reported

/-- **What was just closed is spawned.** -/
theorem Inv.spawn (h : Inv st) (timedOut : Bool) {ids : List String} (hnodup : ids.Nodup)
    (hids : ∀ id ∈ ids, Closed st timedOut id) : Inv (st.spawn timedOut ids) := by
  have hsingle : ∀ id ∈ ids, ∀ id', st.loadedSerial id' = some (st.barriers id).serial →
      id' = id := by
    intro id hid id' hloaded
    exact h.registered.single id' id _ hloaded (hids id hid).loaded
  have hspawned : ∀ x ∈ st.spawned ++ ids.map (st.spawnOf timedOut),
      x ∈ st.spawned ∨ ∃ id ∈ ids, x = st.spawnOf timedOut id := by
    intro x hx
    rcases List.mem_append.mp hx with hx | hx
    · exact .inl hx
    · obtain ⟨id, hid, heq⟩ := List.mem_map.mp hx
      exact .inr ⟨id, hid, heq.symm⟩
  refine ⟨⟨h.people.peers_nodup, h.people.known, h.people.starting⟩,
    ⟨h.registered.sessions_nodup, h.registered.numbered, h.registered.single, fun x hx => ?_⟩,
    fun id session hsession => ?_, ?_, fun x hx => ?_, fun x hx htimedOut => ?_⟩
  · rcases hspawned x hx with hx | ⟨id, hid, heq⟩
    · exact h.registered.spawned_lt x hx
    · rw [heq]
      exact h.registered.numbered id _ (hids id hid).loaded
  · have hsession : assocGet id st.store.preloadSessions = some session := hsession
    have hopened := h.opened id session hsession
    refine ⟨hopened.counted, hopened.awaits, hopened.loaded, fun x hx => ?_, hopened.known,
      hopened.gone⟩
    rcases hspawned x hx with hx | ⟨id', hid', heq⟩
    · exact hopened.unspawned x hx
    · rw [heq]
      intro hserial
      have hloaded : st.loadedSerial id = some (st.barriers id').serial := by
        rw [hopened.loaded]
        exact congrArg some hserial.symm
      rw [hsingle id' hid' id hloaded, (hids id' hid').closed] at hsession
      cases hsession
  · show ((st.spawned ++ ids.map (st.spawnOf timedOut)).map Spawned.serial).Nodup
    rw [List.map_append, List.map_map]
    refine List.nodup_append.mpr ⟨h.once, hnodup.map_on fun id hid id' hid' heq => ?_, ?_⟩
    · refine (hsingle id hid id' ?_).symm
      rw [(hids id' hid').loaded]
      exact congrArg some heq.symm
    · intro k hk k' hk' heq
      obtain ⟨x, hx, hserial⟩ := List.mem_map.mp hk
      obtain ⟨id, hid, hserial'⟩ := List.mem_map.mp hk'
      refine (hids id hid).unspawned x hx ?_
      rw [hserial, heq, ← hserial']
      rfl
  · rcases hspawned x hx with hx | ⟨id, hid, heq⟩
    · exact h.loaded x hx
    · rw [heq]
      exact (hids id hid).loaded
  · rcases hspawned x hx with hx | ⟨id, hid, heq⟩
    · exact h.awaited x hx htimedOut
    · rw [heq] at htimedOut ⊢
      apply List.filter_eq_nil_iff.mpr
      intro t ht hawaited
      rw [Bool.and_eq_true, decide_eq_true_iff, decide_eq_true_iff] at hawaited
      exact hawaited.2 ((hids id hid).awaited htimedOut t ht hawaited.1)

/-! ### People -/

theorem Inv.finalizeAccept (h : Inv st) {peer : PeerId}
    (hs : st.step (.finalizeAccept peer) = some st') : Inv st' := by
  rw [step] at hs
  split_ifs at hs with hused
  cases hs
  have hnew : ∀ t ∈ st.connected ++ st.leaving, t.peer ≠ peer := by
    intro t ht heq
    exact hused (List.any_eq_true.mpr ⟨t, ht, decide_eq_true heq⟩)
  refine ⟨⟨?_, fun t ht => ?_, fun x hx => ?_⟩, ⟨h.registered.sessions_nodup,
    h.registered.numbered, h.registered.single, h.registered.spawned_lt⟩,
    fun id session hsession => ?_, h.once, h.loaded, h.awaited⟩
  · have hperm : ((⟨peer, st.nextState⟩ : PeerSession) :: (st.connected ++ st.leaving)).Perm
        (st.connected ++ [⟨peer, st.nextState⟩] ++ st.leaving) := by
      rw [List.append_assoc]
      exact List.perm_middle.symm
    refine (hperm.map _).nodup_iff.mp (List.nodup_cons.mpr ⟨fun hmem => ?_, h.people.peers_nodup⟩)
    obtain ⟨t, ht, heq⟩ := List.mem_map.mp hmem
    exact hnew t ht heq
  · show t.state < st.nextState + 1
    rcases List.mem_append.mp ht with ht | ht
    · rcases List.mem_append.mp ht with ht | ht
      · have hknown := h.people.known t (List.mem_append_left _ ht)
        omega
      · rw [List.mem_singleton.mp ht]
        exact Nat.lt_succ_self _
    · have hknown := h.people.known t (List.mem_append_right _ ht)
      omega
  · obtain ⟨hconnected, hlisted, hnodup, hknown⟩ := h.people.starting x hx
    exact ⟨List.mem_append_left _ hconnected, hlisted, hnodup, fun t ht =>
      Nat.lt_succ_of_lt (hknown t ht)⟩
  · refine (h.opened id session hsession).frame rfl rfl rfl (Nat.le_succ _) fun t ht hc hl => ?_
    refine ⟨fun hmem => ?_, hl⟩
    rcases List.mem_append.mp hmem with hmem | hmem
    · exact hc hmem
    · rw [List.mem_singleton.mp hmem] at ht
      exact absurd ht (Nat.lt_irrefl _)

theorem Inv.depart (h : Inv st) (hs : st.step (.depart s) = some st') : Inv st' := by
  rw [step] at hs
  split_ifs at hs with hthere
  cases hs
  obtain ⟨hconnected, hidle⟩ := hthere
  have hperm : (st.connected ++ st.leaving).Perm (others s st.connected ++ s :: st.leaving) := by
    have hnodup : st.connected.Nodup :=
      (List.nodup_append.mp (List.Nodup.of_map _ h.people.peers_nodup)).1
    have herase : others s st.connected = st.connected.erase s := by
      rw [hnodup.erase_eq_filter]
      exact List.filter_congr fun t _ => by by_cases ht : t = s <;> simp [ht]
    rw [herase]
    exact ((List.perm_cons_erase hconnected).append_right _).trans List.perm_middle.symm
  refine ⟨⟨(hperm.map _).nodup_iff.mp h.people.peers_nodup,
    fun t ht => h.people.known t (hperm.mem_iff.mpr ht), fun x hx => ?_⟩,
    ⟨h.registered.sessions_nodup, h.registered.numbered, h.registered.single,
      h.registered.spawned_lt⟩, fun id session hsession => ?_, h.once, h.loaded, h.awaited⟩
  · obtain ⟨hstarting, hrest⟩ := h.people.starting x hx
    exact ⟨mem_others.mpr ⟨hstarting, hidle x hx⟩, hrest⟩
  · refine (h.opened id session hsession).frame rfl rfl rfl (Nat.le_refl _) fun t _ hc hl => ?_
    refine ⟨fun hmem => hc (mem_of_mem_others hmem), fun hmem => ?_⟩
    rcases List.mem_cons.mp hmem with heq | hmem
    · exact hc (heq ▸ hconnected)
    · exact hl hmem

variable {resource : LocalLoadResource (ResourceBody γ)}

theorem Inv.listPeers (h : Inv st) {maxLoaded : ℕ}
    (hs : st.step (.listPeers s resource maxLoaded) = some st') : Inv st' := by
  rw [step] at hs
  split_ifs at hs with hthere
  cases hs
  refine ⟨⟨h.people.peers_nodup, h.people.known, fun x hx => ?_⟩, ⟨h.registered.sessions_nodup,
    h.registered.numbered, h.registered.single, h.registered.spawned_lt⟩,
    fun id session hsession => ?_, h.once, h.loaded, h.awaited⟩
  · rcases List.mem_append.mp hx with hx | hx
    · exact h.people.starting x hx
    · rw [List.mem_singleton.mp hx]
      have hnodup := h.people.peers_nodup
      rw [List.map_append] at hnodup
      exact ⟨hthere.1, hthere.1, (List.nodup_append.mp hnodup).1,
        fun t ht => h.people.known t (List.mem_append_left _ ht)⟩
  · exact (h.opened id session hsession).frame rfl rfl rfl (Nat.le_refl _) fun _ _ hc hl => ⟨hc, hl⟩

/-! ### Resources -/

theorem Inv.idle (h : Inv st) (sweeping : List (Sweep × List String)) (now : ℕ) :
    Inv { st with sweeping, now } where
  people := ⟨h.people.peers_nodup, h.people.known, h.people.starting⟩
  registered := ⟨h.registered.sessions_nodup, h.registered.numbered, h.registered.single,
    h.registered.spawned_lt⟩
  opened id session hsession := (h.opened id session hsession).frame rfl rfl rfl (Nat.le_refl _)
    fun _ _ hc hl => ⟨hc, hl⟩
  __ := h

/-- **A new resource** gets the next number. -/
theorem Inv.register (h : Inv st) {store : ResourceState (ResourceBody γ)}
    (hnew : assocGet id st.store.resources = none)
    (hresources : store.resources = assocSet id (st.stamped resource) st.store.resources)
    (hsessions : store.preloadSessions = st.store.preloadSessions) :
    Inv { st with store, loads := st.loads + 1 } ∧
      loadedSerial { st with store, loads := st.loads + 1 } id = some st.loads := by
  have hself : (assocGet id store.resources).map (fun r => r.content.serial) = some st.loads := by
    rw [hresources, assocGet_set_self]
    rfl
  have hothers : ∀ id', id' ≠ id → assocGet id' store.resources = assocGet id' st.store.resources :=
    fun id' hne => by rw [hresources, assocGet_set_of_ne hne]
  have hserial : ∀ id' k, (assocGet id' store.resources).map (fun r => r.content.serial) = some k →
      id' = id ∧ k = st.loads ∨ id' ≠ id ∧ st.loadedSerial id' = some k := by
    intro id' k hk
    by_cases heq : id' = id
    · rw [heq, hself] at hk
      exact .inl ⟨heq, (Option.some.inj hk).symm⟩
    · rw [hothers id' heq] at hk
      exact .inr ⟨heq, hk⟩
  refine ⟨⟨⟨h.people.peers_nodup, h.people.known, h.people.starting⟩, ⟨?_, fun id' k hk => ?_,
    fun id' id'' k hk hk' => ?_, fun x hx => ?_⟩, fun id' session hsession => ?_, h.once, h.loaded,
    h.awaited⟩, hself⟩
  · show AssocNodup store.preloadSessions
    rw [hsessions]
    exact h.registered.sessions_nodup
  · show k < st.loads + 1
    rcases hserial id' k hk with ⟨-, heq⟩ | ⟨-, hold⟩
    · omega
    · exact Nat.lt_succ_of_lt (h.registered.numbered id' k hold)
  · rcases hserial id' k hk with ⟨heq, hnext⟩ | ⟨-, hold⟩
    · rcases hserial id'' k hk' with ⟨heq', -⟩ | ⟨-, hold'⟩
      · rw [heq, heq']
      · exact absurd (h.registered.numbered id'' k hold') (by omega)
    · rcases hserial id'' k hk' with ⟨-, hnext⟩ | ⟨-, hold'⟩
      · exact absurd (h.registered.numbered id' k hold) (by omega)
      · exact h.registered.single id' id'' k hold hold'
  · exact Nat.lt_succ_of_lt (h.registered.spawned_lt x hx)
  · have hsession : assocGet id' st.store.preloadSessions = some session := hsessions ▸ hsession
    have hopened := h.opened id' session hsession
    -- what is preloaded is loaded, so it is not the new resource
    have hne : id' ≠ id := by
      intro heq
      have hloaded := hopened.loaded
      rw [loadedSerial, heq, hnew] at hloaded
      cases hloaded
    exact hopened.frame rfl (congrArg (Option.map _) (hothers id' hne)) rfl (Nat.le_refl _)
      fun _ _ hc hl => ⟨hc, hl⟩

/-- **Resources and preloads may go**, as long as the resource of a preload stays. -/
theorem Inv.shrink (h : Inv st) (store : ResourceState (ResourceBody γ))
    (hnodup : AssocNodup store.preloadSessions)
    (hresources : ∀ id r, assocGet id store.resources = some r →
      assocGet id st.store.resources = some r)
    (hsessions : ∀ id session, assocGet id store.preloadSessions = some session →
      assocGet id st.store.preloadSessions = some session ∧
        assocGet id store.resources = assocGet id st.store.resources) :
    Inv { st with store } := by
  have hserial : ∀ id k, (assocGet id store.resources).map (fun r => r.content.serial) = some k →
      st.loadedSerial id = some k := by
    intro id k hk
    obtain ⟨r, hr, heq⟩ := Option.map_eq_some_iff.mp hk
    rw [loadedSerial, hresources id r hr]
    exact congrArg some heq
  refine ⟨⟨h.people.peers_nodup, h.people.known, h.people.starting⟩,
    ⟨hnodup, fun id k hk => h.registered.numbered id k (hserial id k hk),
      fun id id' k hk hk' => h.registered.single id id' k (hserial id k hk) (hserial id' k hk'),
      h.registered.spawned_lt⟩, fun id session hsession => ?_, h.once, h.loaded, h.awaited⟩
  obtain ⟨hold, hsame⟩ := hsessions id session hsession
  exact (h.opened id session hold).frame rfl (congrArg (Option.map _) hsame) rfl (Nat.le_refl _)
    fun _ _ hc hl => ⟨hc, hl⟩

end PreloadState

namespace ResourceState

/-- A resource that is inserted is new. -/
theorem insertResource_inserts {ρ : Type} {st st' : ResourceState ρ}
    {message : LocalLoadResource ρ} {limit : ℕ} (h : st.insertResource message limit = some st') :
    assocGet message.loadedNetId st.resources = none ∧
      st'.resources = assocSet message.loadedNetId message st.resources ∧
      st'.preloadSessions = st.preloadSessions := by
  unfold insertResource at h
  split at h
  · cases h
  split at h
  · cases h
  rename_i hnew
  have hnone := Option.not_isSome_iff_eq_none.mp hnew
  dsimp only at h
  split at h
  · cases h
    exact ⟨hnone, rfl, rfl⟩
  split at h
  · cases h
  · cases h
    exact ⟨hnone, rfl, rfl⟩

variable {γ : Type}

/-- What a sweep leaves is what there was, and a preload that stays keeps its resource, unless the
sweep spares the preload sessions and has listed it. -/
theorem removeListed_keeps (closes : Bool) (st : ResourceState (ResourceBody γ))
    (ids : List String) :
    (∀ id r, assocGet id (st.removeListed closes ids).2.resources = some r →
      assocGet id st.resources = some r) ∧
    (AssocNodup st.preloadSessions → AssocNodup (st.removeListed closes ids).2.preloadSessions) ∧
    ∀ id session, assocGet id (st.removeListed closes ids).2.preloadSessions = some session →
      assocGet id st.preloadSessions = some session ∧
        (closes = true ∨ id ∉ ids →
          assocGet id (st.removeListed closes ids).2.resources = assocGet id st.resources) := by
  induction ids generalizing st with
  | nil => exact ⟨fun _ _ hr => hr, id, fun _ _ hsession => ⟨hsession, fun _ => rfl⟩⟩
  | cons id₀ ids ih =>
    rw [removeListed]
    cases hresource : assocGet id₀ st.resources with
    | none =>
      obtain ⟨hresources, hnodup, hsessions⟩ := ih st
      refine ⟨hresources, hnodup, fun id session hsession => ?_⟩
      obtain ⟨hold, hsame⟩ := hsessions id session hsession
      exact ⟨hold, fun hkept => hsame (hkept.imp_right fun hmem hin => hmem (.tail _ hin))⟩
    | some resource =>
      dsimp only
      obtain ⟨hresources, hnodup, hsessions⟩ := ih {
        resources := assocErase id₀ st.resources
        creatorCounts := noteResourceRemoved st.creatorCounts resource.uuidOfCreator
        preloadSessions := if closes then assocErase id₀ st.preloadSessions
          else st.preloadSessions }
      refine ⟨fun id r hr => assocGet_of_erase (hresources id r hr), fun hst => hnodup ?_,
        fun id session hsession => ?_⟩
      · cases closes
        · exact hst
        · exact hst.erase id₀
      · obtain ⟨hold, hsame⟩ := hsessions id session hsession
        have hst : assocGet id st.preloadSessions = some session := by
          cases closes
          · exact hold
          · exact assocGet_of_erase hold
        refine ⟨hst, fun hkept => ?_⟩
        have hne : id ≠ id₀ := by
          intro heq
          rcases hkept with hcloses | hmem
          · rw [hcloses, heq] at hold
            simp at hold
          · exact hmem (heq ▸ .head _)
        rw [hsame (hkept.imp_right fun hmem hin => hmem (.tail _ hin))]
        exact assocGet_erase_of_ne hne st.resources

end ResourceState

namespace PreloadState

variable {γ : Type} {st st' : PreloadState γ} {id : String} {s : PeerSession}

section

variable (h : Inv st)
include h

theorem Inv.loadResource {resource : LocalLoadResource (ResourceBody γ)} {maxLoaded : ℕ}
    (hs : st.step (.loadResource s resource maxLoaded) = some st') : Inv st' := by
  rw [step] at hs
  split_ifs at hs
  cases hload : st.store.loadResourceWithLimit (st.stamped resource) maxLoaded with
  | none =>
    rw [hload] at hs
    cases hs
    exact h
  | some store =>
    rw [hload] at hs
    cases hs
    obtain ⟨hnew, hresources, hsessions⟩ := ResourceState.insertResource_inserts hload
    exact (h.register hnew hresources hsessions).1

/-- The barrier of a preload that is over. -/
theorem Inv.mark (hclosed : assocGet id st.store.preloadSessions = none) (b : Barrier) :
    Inv { st with barriers := Function.update st.barriers id b } where
  people := ⟨h.people.peers_nodup, h.people.known, h.people.starting⟩
  registered := ⟨h.registered.sessions_nodup, h.registered.numbered, h.registered.single,
    h.registered.spawned_lt⟩
  opened id' session hsession := by
    have hold : assocGet id' st.store.preloadSessions = some session := hsession
    have hne : id' ≠ id := by
      intro heq
      rw [heq, hclosed] at hold
      cases hold
    exact (h.opened id' session hold).frame (Function.update_of_ne hne _ _) rfl rfl
      (Nat.le_refl _) fun _ _ hc hl => ⟨hc, hl⟩
  __ := h

/-- The session of a preload and its barrier, as a step leaves them. -/
theorem Inv.put {session : PreloadSession} {b : Barrier} (hcounted : Counted b session)
    (hawaits : ∃ t ∈ b.remaining, t ∉ b.reported) (hloaded : st.loadedSerial id = some b.serial)
    (hunspawned : ∀ x ∈ st.spawned, x.serial ≠ b.serial)
    (hknown : ∀ t ∈ b.members, t.state < st.nextState)
    (hgone : ∀ t ∈ b.gone, t ∉ st.connected ∧ t ∉ st.leaving) : Inv { st with
      store := { st.store with preloadSessions := assocSet id session st.store.preloadSessions }
      barriers := Function.update st.barriers id b } := by
  refine ⟨⟨h.people.peers_nodup, h.people.known, h.people.starting⟩,
    ⟨h.registered.sessions_nodup.put id (some session), h.registered.numbered,
      h.registered.single, h.registered.spawned_lt⟩, fun id' session' hsession => ?_, h.once,
    h.loaded, h.awaited⟩
  by_cases heq : id' = id
  · cases heq
    have hsession := (assocGet_set_self id _ _).symm.trans hsession
    cases hsession
    have hbarrier : Function.update st.barriers id b id = b := Function.update_self _ _ _
    constructor
    · show Counted (Function.update st.barriers id b id) session
      rw [hbarrier]
      exact hcounted
    · show ∃ t ∈ (Function.update st.barriers id b id).remaining,
        t ∉ (Function.update st.barriers id b id).reported
      rw [hbarrier]
      exact hawaits
    · show _ = some (Function.update st.barriers id b id).serial
      rw [hbarrier]
      exact hloaded
    · show ∀ x ∈ st.spawned, x.serial ≠ (Function.update st.barriers id b id).serial
      rw [hbarrier]
      exact hunspawned
    · show ∀ t ∈ (Function.update st.barriers id b id).members, _
      rw [hbarrier]
      exact hknown
    · show ∀ t ∈ (Function.update st.barriers id b id).gone, _
      rw [hbarrier]
      exact hgone
  · have hold : assocGet id' st.store.preloadSessions = some session' :=
      (assocGet_set_of_ne heq _ _).symm.trans hsession
    exact (h.opened id' session' hold).frame (Function.update_of_ne heq _ _) rfl rfl
      (Nat.le_refl _) fun _ _ hc hl => ⟨hc, hl⟩

theorem Inv.eraseStarting (i : ℕ) : Inv { st with starting := st.starting.eraseIdx i } where
  people := ⟨h.people.peers_nodup, h.people.known,
    fun x hx => h.people.starting x (List.mem_of_mem_eraseIdx hx)⟩
  registered := ⟨h.registered.sessions_nodup, h.registered.numbered, h.registered.single,
    h.registered.spawned_lt⟩
  opened id session hsession := (h.opened id session hsession).frame rfl rfl rfl (Nat.le_refl _)
    fun _ _ hc hl => ⟨hc, hl⟩
  __ := h

theorem Inv.startPreload {i : ℕ} (hs : st.step (.startPreload i) = some st') : Inv st' := by
  rw [step] at hs
  cases hi : st.starting[i]? with
  | none =>
    rw [hi] at hs
    cases hs
  | some x =>
    rw [hi] at hs
    have hx := h.people.starting x (List.mem_of_getElem? hi)
    cases hstart : st.store.startPreload (st.stamped x.resource) (x.peers.map PeerSession.peer)
        x.maxLoaded st.now with
    | none =>
      dsimp only at hs
      rw [hstart] at hs
      cases hs
      exact h.eraseStarting i
    | some store =>
      dsimp only at hs
      rw [hstart] at hs
      cases hs
      rw [ResourceState.startPreload] at hstart
      obtain ⟨store', hinsert, hstore⟩ := Option.map_eq_some_iff.mp hstart
      cases hstore
      obtain ⟨hnew, hresources, hsessions⟩ := ResourceState.insertResource_inserts hinsert
      obtain ⟨hregistered, hserial⟩ := h.register hnew hresources hsessions
      obtain ⟨-, hlisted, hnodup, hknown⟩ := hx
      have hput := hregistered.put (.start hnodup st.loads st.now)
        ⟨x.session, Barrier.mem_remaining.mpr ⟨hlisted, List.not_mem_nil⟩, List.not_mem_nil⟩
        hserial (fun y hy => Nat.ne_of_lt (h.registered.spawned_lt y hy)) hknown
        nofun
      exact hput.eraseStarting i

theorem Inv.unloadResource {requesterUuid : String} {isModerator removalLocked : Bool}
    (hs : st.step (.unloadResource id requesterUuid isModerator removalLocked) = some st') :
    Inv st' := by
  rw [step] at hs
  split at hs
  · cases hs
    exact h
  · rename_i store hunload
    cases hs
    unfold ResourceState.unloadResourceIf at hunload
    split at hunload
    · cases hunload
    split_ifs at hunload
    cases hunload
    refine h.shrink _ (h.registered.sessions_nodup.erase id) (fun id' r hr => assocGet_of_erase hr)
      fun id' session hsession => ?_
    have hne : id' ≠ id := by
      intro heq
      rw [heq] at hsession
      simp at hsession
    exact ⟨assocGet_of_erase hsession, assocGet_erase_of_ne hne st.store.resources⟩

theorem Inv.removeListed {i : ℕ} (hok : Orderly st (.removeListed i))
    (hs : st.step (.removeListed i) = some st') : Inv st' := by
  rw [step] at hs
  cases hi : st.sweeping[i]? with
  | none =>
    rw [hi] at hs
    cases hs
  | some x =>
    rw [hi] at hs
    cases hs
    obtain ⟨hresources, hnodup, hsessions⟩ := st.store.removeListed_keeps x.1.closes x.2
    refine (h.shrink _ (hnodup h.registered.sessions_nodup) hresources
      fun id session hsession => ?_).idle _ _
    obtain ⟨hold, hsame⟩ := hsessions id session hsession
    refine ⟨hold, hsame ?_⟩
    cases hcloses : x.1.closes with
    | true => exact .inl rfl
    | false =>
      right
      intro hlisted
      rw [hok x hi hcloses id hlisted] at hold
      cases hold

end

/-! ### Reports, departures and the timeout -/

/-- A preload that is closed may be spawned, when its listed peers that are connected have reported
or its time is over. -/
theorem Opened.closed {session : PreloadSession} (h : Opened st id session) {timedOut : Bool}
    (hclosed : assocGet id st'.store.preloadSessions = none)
    (hloaded : st'.loadedSerial id = st.loadedSerial id)
    (hserial : (st'.barriers id).serial = (st.barriers id).serial)
    (hspawned : st'.spawned = st.spawned)
    (hawaited : timedOut = false → ∀ t ∈ (st'.barriers id).members, t ∈ st'.connected →
      t ∈ (st'.barriers id).reported) : Closed st' timedOut id where
  closed := hclosed
  loaded := by rw [hloaded, hserial]; exact h.loaded
  unspawned := by rw [hspawned, hserial]; exact h.unspawned
  awaited := hawaited

theorem Inv.timedOutPreloads (h : Inv st) (hs : st.step .timedOutPreloads = some st') :
    Inv st' := by
  rw [step, ResourceState.timedOutPreloads] at hs
  cases hs
  have hnodup := h.registered.sessions_nodup
  have hget := hnodup.get_filter fun session => !session.isTimedOut st.now
  have hkept : Inv { st with store := { st.store with
      preloadSessions := st.store.preloadSessions.filter fun x => !x.2.isTimedOut st.now } } := by
    refine h.shrink _ (hnodup.filter _) (fun id r hr => hr) fun id session hsession => ⟨?_, rfl⟩
    rw [hget id] at hsession
    exact (Option.filter_eq_some_iff.mp hsession).1
  refine hkept.spawn true (hnodup.filter _) fun id hid => ?_
  obtain ⟨session, hsession, htimedOut⟩ := (hnodup.mem_filter_keys fun session =>
    session.isTimedOut st.now).mp hid
  refine (h.opened id session hsession).closed ?_ rfl rfl rfl nofun
  rw [hget id, hsession, Option.filter_some, htimedOut]
  rfl

theorem Inv.preloadReady (h : Inv st) {isReady : Bool}
    (hok : Orderly st (.preloadReady s id isReady))
    (hs : st.step (.preloadReady s id isReady) = some st') : Inv st' := by
  rw [step] at hs
  split_ifs at hs with hconnected
  cases hsession : assocGet id st.store.preloadSessions with
  | none =>
    rw [hsession] at hs
    cases hs
    exact h
  | some session =>
    rw [hsession] at hs
    cases hs
    have hopened := h.opened id session hsession
    have hremaining : s ∈ (st.barriers id).remaining := by
      have hmember : s ∈ (st.barriers id).members := hok (by rw [hsession]; rfl)
      exact Barrier.mem_remaining.mpr ⟨hmember, fun hgone => (hopened.gone s hgone).1 hconnected⟩
    have hcounted := hopened.counted.report hremaining isReady
    rw [ResourceState.markPreloadReady, hsession]
    dsimp only
    cases hcomplete : (session.report s.peer isReady).isComplete with
    | false =>
      rw [if_neg Bool.false_ne_true]
      have hput := h.put hcounted (hcounted.incomplete hcomplete) hopened.loaded hopened.unspawned
        hopened.known hopened.gone
      exact hput.spawn false .nil fun _ hid => absurd hid List.not_mem_nil
    | true =>
      rw [if_pos rfl]
      have hkept := (h.shrink { st.store with
          preloadSessions := assocErase id st.store.preloadSessions }
        (h.registered.sessions_nodup.erase id) (fun id r hr => hr)
        fun id session hsession => ⟨assocGet_of_erase hsession, rfl⟩).mark
          (assocGet_erase_self id _) ((st.barriers id).report s)
      refine hkept.spawn false (List.nodup_singleton id) fun id' hid => ?_
      cases List.mem_singleton.mp hid
      have hbarrier : Function.update st.barriers id ((st.barriers id).report s) id =
        (st.barriers id).report s := Function.update_self _ _ _
      refine hopened.closed (assocGet_erase_self id _) rfl ?_ rfl fun _ t ht hc => ?_
      · show (Function.update st.barriers id ((st.barriers id).report s) id).serial = _
        rw [hbarrier]
        rfl
      · have ht : t ∈ (Function.update st.barriers id ((st.barriers id).report s) id).members := ht
        show t ∈ (Function.update st.barriers id ((st.barriers id).report s) id).reported
        rw [hbarrier] at ht ⊢
        exact hcounted.complete_iff.mp hcomplete t
          (Barrier.mem_remaining.mpr ⟨ht, fun hgone => (hopened.gone t hgone).1 hc⟩)

theorem isOver_eq (session : PreloadSession) : session.isOver = session.isComplete := by
  rw [PreloadSession.isOver, PreloadSession.isComplete]
  by_cases hzero : session.totalPeerCount = 0 <;> simp [hzero]

/-- **A departure** takes the peer out of every preload that is going on. -/
theorem Inv.removePreloadPeer (h : Inv st) (hok : Orderly st (.removePreloadPeer s))
    (hs : st.step (.removePreloadPeer s) = some st') : Inv st' := by
  rw [step] at hs
  split_ifs at hs with hleaving
  rw [ResourceState.removePreloadPeer] at hs
  cases hs
  have hpeople := h.people.peers_nodup
  have hapart : s ∉ st.connected := fun hconnected =>
    (List.nodup_append.mp (List.Nodup.of_map _ hpeople)).2.2 s hconnected s hleaving rfl
  have hnodup := h.registered.sessions_nodup.map fun session => session.withdraw s.peer
  have hget := hnodup.get_filter fun session => !session.isOver
  -- every session that is going on counts the peer down
  have hcounted : ∀ id session', assocGet id (st.store.preloadSessions.map fun x =>
      (x.1, x.2.withdraw s.peer)) = some session' →
      ∃ session, Opened st id session ∧ Counted ((st.barriers id).withdraw s) session' := by
    intro id session' hsession'
    have hmapped :=
      assocGet_map st.store.preloadSessions (fun session => session.withdraw s.peer) id
    obtain ⟨session, hsession, heq⟩ := Option.map_eq_some_iff.mp (hmapped.symm.trans hsession')
    have hopened := h.opened id session hsession
    have hremaining : s ∈ (st.barriers id).remaining :=
      Barrier.mem_remaining.mpr ⟨hok _ (mem_keys_of_assocGet hsession),
        fun hgone => (hopened.gone s hgone).2 hleaving⟩
    rw [← heq]
    exact ⟨session, hopened, hopened.counted.withdraw hremaining⟩
  have hgone : ∀ id session, Opened st id session → ∀ t ∈ ((st.barriers id).withdraw s).gone,
      t ∉ st.connected ∧ t ∉ others s st.leaving := by
    intro id session hopened t ht
    rcases List.mem_cons.mp ht with heq | ht
    · rw [heq]
      exact ⟨hapart, fun hmem => (mem_others.mp hmem).2 rfl⟩
    · obtain ⟨hc, hl⟩ := hopened.gone t ht
      exact ⟨hc, fun hmem => hl (mem_of_mem_others hmem)⟩
  have hkept : Inv { st with
      store := { st.store with preloadSessions := (st.store.preloadSessions.map fun x =>
        (x.1, x.2.withdraw s.peer)).filter fun x => !x.2.isOver }
      leaving := others s st.leaving
      barriers := fun id => (st.barriers id).withdraw s } := by
    have hsub : (st.connected ++ others s st.leaving).Sublist (st.connected ++ st.leaving) :=
      List.filter_sublist.append_left _
    refine ⟨⟨hpeople.sublist (hsub.map _), fun t ht => h.people.known t (hsub.subset ht),
      h.people.starting⟩, ⟨hnodup.filter _, h.registered.numbered, h.registered.single,
      h.registered.spawned_lt⟩, fun id session' hsession' => ?_, h.once, h.loaded, h.awaited⟩
    have hsession' := (hget id).symm.trans hsession'
    obtain ⟨hmapped, hopen⟩ := Option.filter_eq_some_iff.mp hsession'
    obtain ⟨session, hopened, hcounted⟩ := hcounted id session' hmapped
    rw [isOver_eq, Bool.not_eq_true'] at hopen
    exact ⟨hcounted, hcounted.incomplete hopen, hopened.loaded, hopened.unspawned, hopened.known,
      hgone id session hopened⟩
  refine hkept.spawn false (hnodup.filter _) fun id hid => ?_
  obtain ⟨session', hmapped, hover⟩ := (hnodup.mem_filter_keys fun session => session.isOver).mp hid
  obtain ⟨session, hopened, hcounted⟩ := hcounted id session' hmapped
  refine hopened.closed ?_ rfl rfl rfl fun _ t ht hc => ?_
  · refine (hget id).trans ?_
    rw [hmapped, Option.filter_some, hover]
    rfl
  · rw [isOver_eq] at hover
    exact hcounted.complete_iff.mp hover t (Barrier.mem_remaining.mpr
      ⟨ht, fun hmem => (hgone id session hopened t hmem).1 hc⟩)

/-! ### Runs -/

theorem Inv.step {a : Action γ} (h : Inv st) (hok : Orderly st a) (hs : st.step a = some st') :
    Inv st' := by
  cases a with
  | finalizeAccept peer => exact h.finalizeAccept hs
  | listPeers s resource maxLoaded => exact h.listPeers hs
  | startPreload i => exact h.startPreload hs
  | loadResource s resource maxLoaded => exact h.loadResource hs
  | unloadResource id requesterUuid isModerator removalLocked => exact h.unloadResource hs
  | listResources | elapse =>
    cases hs
    exact h.idle _ _
  | removeListed i => exact h.removeListed hok hs
  | preloadReady s id isReady => exact h.preloadReady hok hs
  | depart s => exact h.depart hs
  | removePreloadPeer s => exact h.removePreloadPeer hok hs
  | timedOutPreloads => exact h.timedOutPreloads hs

/-- **The preload barrier** holds in every run in which only listed peers report or leave, and no
sweep removes a resource that is being preloaded. -/
theorem preload_barrier {st : PreloadState γ} (h : Reachable (system γ) Orderly st) :
    Barred st := by
  refine (h.invariant Inv (fun st hst => ?_) fun st a st' hinv hok hs => hinv.step hok hs).barred
  rw [show st = empty from hst]
  exact inv_empty

/-- A resource without contents. -/
def plain (id : String) (mode : Byte) : LocalLoadResource (ResourceBody Unit) :=
  ⟨id, "creator", false, 2, ⟨mode, false, (), 0⟩⟩

def peerSession (k : ℕ) : PeerSession := ⟨BitVec.ofNat 16 k, k⟩

/-- Two listed peers: one reports, and the other leaves. -/
def listedRun : List (Action Unit) :=
  [.finalizeAccept 0, .finalizeAccept 1, .listPeers (peerSession 0) (plain "room" 1) 10,
    .startPreload 0, .finalizeAccept 2, .preloadReady (peerSession 0) "room" true,
    .depart (peerSession 1), .removePreloadPeer (peerSession 1)]

theorem preload_barrier_listed : ∃ st : PreloadState Unit, Reachable (system Unit) Orderly st ∧
    st.spawned.map Spawned.id = ["room"] ∧ Barred st := by
  have hok : Admits (system Unit) Orderly empty listedRun := by decide +kernel
  have hrun : (runActions (system Unit) empty listedRun).any
      (fun st => st.spawned.map Spawned.id = ["room"]) = true := by decide +kernel
  obtain ⟨st, hst, hspawned⟩ := exists_reachable_of_run Orderly hok (.init rfl) hrun
  exact ⟨st, hst, of_decide_eq_true hspawned, preload_barrier hst⟩

/-- A late joiner's report takes the place of a listed peer's. -/
def lateJoinerRun : List (Action Unit) :=
  [.finalizeAccept 0, .finalizeAccept 1, .listPeers (peerSession 0) (plain "room" 1) 10,
    .startPreload 0, .finalizeAccept 2, .preloadReady (peerSession 0) "room" true,
    .preloadReady (peerSession 2) "room" true]

/-- The scene that is ready first sweeps away one that is still being preloaded. -/
def sweptRun : List (Action Unit) :=
  [.finalizeAccept 0, .finalizeAccept 1, .listPeers (peerSession 0) (plain "room" 1) 10,
    .startPreload 0, .listPeers (peerSession 1) (plain "hall" 1) 10, .startPreload 0,
    .preloadReady (peerSession 0) "room" true, .preloadReady (peerSession 1) "room" true,
    .listResources .scenes, .removeListed 0, .preloadReady (peerSession 0) "hall" true,
    .preloadReady (peerSession 1) "hall" true]

theorem preload_barrier_broken :
    (∃ st : PreloadState Unit, Reachable (system Unit) (fun _ _ => True) st ∧ ¬ Barred st ∧
      ∃ x ∈ st.spawned, x.timedOut = false ∧ x.awaited = [peerSession 1]) ∧
    ∃ st : PreloadState Unit, Reachable (system Unit) (fun _ _ => True) st ∧ ¬ Barred st ∧
      ∃ x ∈ st.spawned, x.id = "hall" ∧ x.loaded = none := by
  constructor
  · have hrun : (runActions (system Unit) empty lateJoinerRun).any (fun st => ¬ Barred st ∧
        ∃ x ∈ st.spawned, x.timedOut = false ∧ x.awaited = [peerSession 1]) = true := by
      decide +kernel
    obtain ⟨st, hst, hbroken⟩ := exists_reachable_of_free_run (.init rfl) hrun
    exact ⟨st, hst, of_decide_eq_true hbroken⟩
  · have hrun : (runActions (system Unit) empty sweptRun).any (fun st => ¬ Barred st ∧
        ∃ x ∈ st.spawned, x.id = "hall" ∧ x.loaded = none) = true := by
      decide +kernel
    obtain ⟨st, hst, hbroken⟩ := exists_reachable_of_free_run (.init rfl) hrun
    exact ⟨st, hst, of_decide_eq_true hbroken⟩

end PreloadState

end BasisRust.Server

