import BasisRust.Server.LastLeaverPeople
import BasisRust.Server.StoreEntries

/-!
# When the last leaver's reset is harmless

`handle_disconnect` checks that nobody is authenticated and then resets the four stores one by one,
but an admission may come in between.  In a run in which no peer meets a store whose reset is still
to come (`Calm`) the reset takes nothing from a connected peer, and every client knows each network
id under one name; without that condition neither holds.
-/

namespace BasisRust.Server

open Library

namespace ServerState

variable {α β : Type} {st st' : ServerState α β} {a : Action α β} {reserved : String}
  {s : PeerSession} {now : ℕ} {phase : Phase}

theorem announceId_stores (s : PeerSession) (name : String) (r : Option (BitVec 16 × Bool)) :
    (st.announceId s name r).stores = st.stores := by
  cases r <;> rfl

variable {leaveTimeout : ℤ}

/-- A departure makes nothing. -/
theorem handleDisconnect_grows (h : NetIdState.Named reserved st.stores.netIds)
    (hstep : st.handleDisconnect s leaveTimeout now phase = some st')
    (news : Entry → PeerSession → Prop) : Stores.Grows news st.stores st'.stores := by
  cases phase with
  | draining =>
    rw [handleDisconnect] at hstep
    split_ifs at hstep
    cases hstep
    exact .refl _
  | netIds =>
    cases hstep
    exact .netIds fun w hw => .inl hw
  | ownership =>
    cases hstep
    exact .ownership fun w hw => .inl (List.mem_filter.mp hw).1
  | contentShare =>
    cases hstep
    exact .removePlayerWithTimeout _ _ _
  | pip =>
    cases hstep
    exact .pip fun w hw => .inl ⟨w, mem_of_mem_assocErase hw, rfl, rfl⟩
  | resetNetIds =>
    cases hstep
    refine .netIds fun w hw => .inr fun c hc => ?_
    rw [h.reset_byName, List.mem_singleton] at hw
    subst hw
    cases hc
  | resetOwnership =>
    cases hstep
    exact .ownership fun w hw => by cases hw
  | resetContentShare =>
    cases hstep
    exact .contentShare fun w hw => by cases hw
  | resetPip =>
    cases hstep
    exact .pip fun w hw => by cases hw
  | _ =>
    cases hstep
    exact .refl _

/-- A step makes entries only for a session whose message it handles. -/
theorem step_grows (h : NetIdState.Named reserved st.stores.netIds) (hstep : st.step a = some st') :
    Stores.Grows (fun e c => st.handles c = true ∧ st.disturbs a e.store = true)
      st.stores st'.stores := by
  cases a with simp only [step] at hstep
  | connect peer =>
    split_ifs at hstep
    cases hstep
    exact .refl _
  | finalizeAccept s =>
    split_ifs at hstep
    cases hstep
    exact .refl _
  | replayNetIds i =>
    obtain ⟨x, -, rfl⟩ := replayNetIds_cases hstep
    exact .refl _
  | tell i k target =>
    obtain ⟨x, y, -, -, -, rfl⟩ := tell_cases hstep
    exact .refl _
  | finish i =>
    split_ifs at hstep
    cases hstep
    exact .refl _
  | netIdAssign s name maxIds =>
    split_ifs at hstep with hs hempty
    · cases hstep
      exact .refl _
    · cases hstep
      rw [announceId_stores]
      refine .addOrFindForPeer h name s maxIds fun hne hsome => ⟨by simpa using hs, ?_⟩
      simp [disturbs, Entry.store, h.keeps, hne, hsome, hempty]
  | getCurrentOwner s object =>
    split_ifs at hstep with hs
    cases hstep
    refine .requestNewOrExisting object s fun hnone => ⟨by simpa using hs, ?_⟩
    simpa [disturbs, Entry.store] using hnone
  | changeCurrentOwner s object =>
    split_ifs at hstep with hs
    cases hstep
    exact .switchOwnership object s ⟨by simpa using hs, rfl⟩
  | removeCurrentOwner s object =>
    split_ifs at hstep
    cases hstep
    exact .removeIfOwner _ _
  | dropSphere s sphere content maxSpheres sharerProtected now =>
    split_ifs at hstep with hs
    cases hstep
    exact .addWithLimitAndProtection _ _ _ _ _ _ fun hadded => ⟨by simpa using hs, hadded⟩
  | cleanupSphere s sphere moderator locked =>
    split_ifs at hstep
    cases hstep
    exact .removeAuthorized _ _ _ _
  | expireSpheres now leaveTimeout deletionTimer =>
    cases hstep
    exact .expireDue _ _ _
  | pipState s isActive pose =>
    split_ifs at hstep with hs
    cases hstep
    exact .stateChange s isActive pose fun hactive => ⟨by simpa using hs, hactive⟩
  | pipPosition s pose =>
    split_ifs at hstep
    cases hstep
    exact .positionUpdate _ _
  | retire s =>
    split_ifs at hstep
    cases hstep
    exact .refl _
  | depart s leaveTimeout now =>
    split at hstep
    · cases hstep
    · exact handleDisconnect_grows h hstep _

/-! ### The windows of the resets -/

/-- What a step does to sessions, connections and pending resets. -/
structure Turns (st st' : ServerState α β) : Prop where
  nextState : st.nextState ≤ st'.nextState
  sessions : ∀ s ∈ st'.sessions, s ∈ st.sessions ∨ st.nextState ≤ s.state
  connected : ∀ s, st'.connected s → st.connected s ∨
    (s ∈ st.sessions ∧ assocGet s.peer st.authenticated = none)
  kept : ∀ s ∈ st'.sessions, st.connected s → st'.connected s
  opened : ∀ store, st'.resetPending store → st.resetPending store ∨ ∀ s, ¬ st'.connected s

/-- The step leaves sessions, connections and departures alone. -/
theorem Turns.same (hnext : st'.nextState = st.nextState) (hsessions : st'.sessions = st.sessions)
    (hauth : st'.authenticated = st.authenticated) (hdepartures : st'.departures = st.departures) :
    Turns st st' where
  nextState := Nat.le_of_eq hnext.symm
  sessions s hs := .inl (hsessions ▸ hs)
  connected s hs := .inl (by rwa [ServerState.connected, hauth] at hs)
  kept s _ hs := by rwa [ServerState.connected, hauth]
  opened store := by
    rintro ⟨s, phase, hs, hresets⟩
    exact .inl ⟨s, phase, hdepartures ▸ hs, hresets⟩

/-- A departure goes on without opening a window. -/
theorem Turns.setPhase {phase' : Phase} {stores : Stores α β}
    (hs : assocGet s st.departures = some phase)
    (hresets : ∀ store, phase'.resets store = true → phase.resets store = true) :
    Turns st { st.setPhase s phase' with stores := stores } where
  nextState := Nat.le_refl _
  sessions _ := .inl
  connected _ := .inl
  kept _ _ := id
  opened store := by
    rintro ⟨s', ph, hs', hph⟩
    have hget : assocGet s' (assocSet s phase' st.departures) = some ph := hs'
    by_cases heq : s' = s
    · subst heq
      rw [assocGet_set_self] at hget
      cases hget
      exact .inl ⟨s', phase, hs, hresets store hph⟩
    · rw [assocGet_set_of_ne heq] at hget
      exact .inl ⟨s', ph, hget, hph⟩

theorem not_connected_of_empty (h : st.authenticated = []) (s : PeerSession) :
    ¬ st.connected s := by
  rw [ServerState.connected, h]
  simp

theorem Turns.handleDisconnect (h : People st) (hs : assocGet s st.departures = some phase)
    (hstep : st.handleDisconnect s leaveTimeout now phase = some st') : Turns st st' := by
  cases phase with
  | draining =>
    rw [ServerState.handleDisconnect] at hstep
    split_ifs at hstep
    cases hstep
    exact .setPhase hs fun store hr => by cases hr
  | authenticated =>
    cases hstep
    have hphase : ∀ store, (if (assocGet s.peer st.authenticated).isSome then Phase.emptyCheck
        else .done).resets store = true → Phase.authenticated.resets store = true := by
      intro store hr
      split_ifs at hr <;> cases hr
    have hbase : Turns st { st.setPhase s _ with stores := st.stores } := .setPhase hs hphase
    refine ⟨Nat.le_refl _, fun _ => .inl, fun c hc => .inl ((connected_erase c).mp hc).1,
      fun c hc hconnected => (connected_erase c).mpr ⟨hconnected, fun hpeer => ?_⟩,
      fun store hpending => ?_⟩
    · have heq : c = s := h.unique c s (.inl hc) (.inr ⟨_, hs, rfl⟩) hpeer
      have hnone := h.disjoint c hc
      rw [heq, hs] at hnone
      cases hnone
    · rcases hbase.opened store hpending with hold | hempty
      · exact .inl hold
      · exact .inr fun c hc => hempty c ((connected_erase c).mp hc).1
  | emptyCheck =>
    cases hstep
    cases hempty : st.authenticated with
    | nil =>
      -- the window opens while nobody is connected
      exact ⟨Nat.le_refl _, fun _ => .inl, fun _ => .inl, fun _ _ => id,
        fun _ _ => .inr (not_connected_of_empty hempty)⟩
    | cons x l => exact .setPhase hs fun store hr => by cases hr
  | done =>
    cases hstep
    refine ⟨Nat.le_refl _, fun _ => .inl, fun _ => .inl, fun _ _ => id, fun store => ?_⟩
    rintro ⟨s', ph, hs', hph⟩
    have hget : assocGet s' (assocErase s st.departures) = some ph := hs'
    by_cases heq : s' = s
    · subst heq
      rw [assocGet_erase_self] at hget
      cases hget
    · rw [assocGet_erase_of_ne heq] at hget
      exact .inl ⟨s', ph, hget, hph⟩
  | _ =>
    cases hstep
    exact .setPhase hs fun store hr => by cases store <;> first | rfl | cases hr

/-- **What every step does to sessions, connections and pending resets.** -/
theorem Turns.step (h : People st) (hstep : st.step a = some st') : Turns st st' := by
  cases a with simp only [ServerState.step] at hstep
  | connect peer =>
    split_ifs at hstep
    cases hstep
    refine ⟨Nat.le_succ _, fun s hs => ?_, fun _ => .inl, fun _ _ => id, fun _ => .inl⟩
    rcases List.mem_append.mp hs with hs | hs
    · exact .inl hs
    · rw [List.mem_singleton.mp hs]
      exact .inr (Nat.le_refl _)
  | finalizeAccept s =>
    split_ifs at hstep with hs
    cases hstep
    rw [Bool.and_eq_true, decide_eq_true_eq, Option.isNone_iff_eq_none] at hs
    refine ⟨Nat.le_refl _, fun _ => .inl, fun c hc => ?_,
      fun c _ hc => (connected_finalizeAccept hs.2 c).mpr (.inl hc), fun _ => .inl⟩
    rcases (connected_finalizeAccept hs.2 c).mp hc with hc | rfl
    · exact .inl hc
    · exact .inr hs
  | replayNetIds i =>
    obtain ⟨x, -, rfl⟩ := replayNetIds_cases hstep
    exact .same rfl rfl rfl rfl
  | tell i k target =>
    obtain ⟨x, y, -, -, -, rfl⟩ := tell_cases hstep
    exact .same rfl rfl rfl rfl
  | netIdAssign s name maxIds =>
    split_ifs at hstep
    · cases hstep
      exact .same rfl rfl rfl rfl
    · cases hstep
      cases (st.stores.netIds.addOrFindForPeer name s maxIds).1 <;> exact .same rfl rfl rfl rfl
  | retire s =>
    split_ifs at hstep with hs
    cases hstep
    refine ⟨Nat.le_refl _, fun c hc => .inl (List.mem_of_mem_erase hc), fun _ => .inl,
      fun _ _ => id, fun store => ?_⟩
    rintro ⟨s', ph, hs', hph⟩
    have hget : assocGet s' ((s, Phase.draining) :: st.departures) = some ph := hs'
    rw [assocGet] at hget
    split_ifs at hget
    · cases hget
      cases hph
    · exact .inl ⟨s', ph, hget, hph⟩
  | depart s leaveTimeout now =>
    split at hstep
    · cases hstep
    · next phase hs => exact .handleDisconnect h hs hstep
  | expireSpheres now leaveTimeout deletionTimer =>
    cases hstep
    exact .same rfl rfl rfl rfl
  | _ =>
    split_ifs at hstep
    cases hstep
    exact .same rfl rfl rfl rfl

/-! ### Owned -/

structure Owned (st : ServerState α β) : Prop where
  lt : ∀ e c, st.stores.made e c → c.state < st.nextState
  silent : ∀ e c, st.stores.made e c → c ∈ st.sessions → st.connected c
  pending : ∀ e c, st.stores.made e c → st.resetPending e.store → ¬ st.connected c
  belongs : st.stores.Belongs

theorem Owned.step (h : Owned st) (hpeople : People st) (hturns : Turns st st')
    (hgrows : Stores.Grows (fun e c => st.handles c = true ∧ st.disturbs a e.store = true)
      st.stores st'.stores) (hcalm : Calm st a) : Owned st' where
  lt e c hmade := by
    rcases hgrows.made e c hmade with hold | ⟨hc, -⟩
    · exact Nat.lt_of_lt_of_le (h.lt e c hold) hturns.nextState
    · have hlt := hpeople.lt c (.inl (hpeople.connected_of_handles hc).1)
      exact Nat.lt_of_lt_of_le hlt hturns.nextState
  silent e c hmade hc := by
    refine hturns.kept c hc ?_
    rcases hgrows.made e c hmade with hold | ⟨hc', -⟩
    · rcases hturns.sessions c hc with hc | hnew
      · exact h.silent e c hold hc
      · exact absurd (h.lt e c hold) (Nat.not_lt.mpr hnew)
    · exact (hpeople.connected_of_handles hc').2
  pending e c hmade hpending hconnected := by
    rcases hturns.opened e.store hpending with hold | hempty
    · rcases hgrows.made e c hmade with hmade | ⟨-, hdisturbs⟩
      · rcases hturns.connected c hconnected with hc | ⟨hc, hnone⟩
        · exact h.pending e c hmade hold hc
        · have hc' : assocGet c.peer st.authenticated = some c := h.silent e c hmade hc
          rw [hnone] at hc'
          cases hc'
      · exact hcalm _ hdisturbs hold
    · exact hempty c hconnected
  belongs := hgrows.belongs h.belongs

theorem Owned.empty (reserved : String) : Owned (empty reserved : ServerState α β) := by
  have hmade : ∀ e c, ¬ (ServerState.empty reserved : ServerState α β).stores.made e c := by
    intro e c hmade
    cases e with
    | netId name =>
      obtain ⟨x, hx, hc⟩ := hmade
      cases List.mem_singleton.mp hx
      cases hc
    | _ =>
      obtain ⟨x, hx, -⟩ := hmade
      cases hx
  refine ⟨fun e c h => absurd h (hmade e c), fun e c h => absurd h (hmade e c),
    fun e c h => absurd h (hmade e c), fun w hw => ?_, fun w hw => ?_, fun w hw => ?_⟩ <;> cases hw

/-! ### Names -/

/-- What a step does to the network ids and to what is said about them. -/
structure Speaks (reserved : String) (a : Action α β) (st st' : ServerState α β) : Prop where
  named : st'.stores.netIds.Named reserved
  all : ∀ x ∈ st.stores.netIds.all, (st.resetPending .netIds → x.1 = reserved) →
    x ∈ st'.stores.netIds.all
  announced : ∀ y ∈ st'.announced, y ∈ st.announced ∨
    (st.connected y.1 ∧ ∃ h ∈ st.handlers, y.2 ∈ h.announcing)
  announcing : ∀ h ∈ st'.handlers, ∀ x ∈ h.announcing,
    (∃ h' ∈ st.handlers, x ∈ h'.announcing) ∨
    (x ∈ st'.stores.netIds.all ∧ (x.1 ≠ reserved → st.disturbs a .netIds = true))

section

variable (h : st.stores.netIds.Named reserved)
include h

theorem Speaks.same (hnamed : st'.stores.netIds = st.stores.netIds)
    (hannounced : st'.announced = st.announced)
    (hhandlers : ∀ x ∈ st'.handlers, x ∈ st.handlers ∨ x.announcing = []) :
    Speaks reserved a st st' where
  named := hnamed ▸ h
  all x hx _ := hnamed ▸ hx
  announced y hy := .inl (hannounced ▸ hy)
  announcing h' hh' x hx := by
    rcases hhandlers h' hh' with hold | hnil
    · exact .inl ⟨h', hold, hx⟩
    · rw [hnil] at hx
      cases hx

theorem Speaks.netIdAssign (s : PeerSession) {name : String}
    (hempty : ¬ name.isEmpty = true) (maxIds : ℕ) :
    Speaks reserved (.netIdAssign s name maxIds) st
      (announceId { st with stores := { st.stores with
        netIds := (st.stores.netIds.addOrFindForPeer name s maxIds).2 } } s name
        (st.stores.netIds.addOrFindForPeer name s maxIds).1) := by
  have hnamed := h.addOrFindForPeer name s maxIds
  have hdisturbs : (st.stores.netIds.addOrFindForPeer name s maxIds).1.isSome = true →
      name ≠ reserved → st.disturbs (.netIdAssign s name maxIds) .netIds = true := by
    intro hsome hne
    simp [disturbs, h.keeps, Ne.symm hne, hsome, hempty]
  -- the handler that comes in announces what the store now says
  have hannounce : ∀ (netIds : NetIdState) (id : BitVec 16) (existed : Bool),
      netIds.Named reserved → (∀ x ∈ st.stores.netIds.all, x ∈ netIds.all) →
      (name, id) ∈ netIds.all →
      (st.stores.netIds.addOrFindForPeer name s maxIds).1.isSome = true →
      Speaks reserved (.netIdAssign s name maxIds) st
        (announceId { st with stores := { st.stores with netIds := netIds } } s name
          (some (id, existed))) := by
    intro netIds id existed hnamed hall hid hsome
    refine ⟨hnamed, fun x hx _ => hall x hx, fun _ => .inl, fun h' hh' x hx => ?_⟩
    rcases List.mem_append.mp hh' with hh' | hh'
    · exact .inl ⟨h', hh', hx⟩
    · rw [List.mem_singleton] at hh'
      subst hh'
      rw [List.mem_singleton] at hx
      subst hx
      exact .inr ⟨hid, hdisturbs hsome⟩
  rcases st.stores.netIds.addOrFindForPeer_cases name s maxIds with
    ⟨entry, hentry, heq⟩ | heq | ⟨assigned, hname, -, heq⟩
  · rw [heq] at hannounce ⊢
    refine hannounce _ _ _ h (fun _ => id) ?_ rfl
    exact List.mem_map.mpr ⟨_, mem_keys_of_assocGet hentry, rfl⟩
  · rw [heq]
    exact .same h rfl rfl fun _ => .inl
  · rw [heq] at hnamed hannounce ⊢
    refine hannounce _ _ _ hnamed (fun x hx => ?_) (List.mem_map.mpr ⟨_, .head _, rfl⟩)
      rfl
    obtain ⟨w, hw, rfl⟩ := List.mem_map.mp hx
    refine List.mem_map.mpr ⟨w, .tail _ (List.mem_filter.mpr ⟨hw, ?_⟩), rfl⟩
    rw [decide_eq_true_eq]
    rintro rfl
    obtain ⟨w', hw'⟩ := assocGet_isSome_of_mem (k := w.1) (x := w.2) hw
    rw [hname] at hw'
    cases hw'

/-- Only the reserved name stays. -/
theorem Speaks.reset (hpending : st.resetPending .netIds)
    {departures : List (PeerSession × Phase)} :
    Speaks reserved a st { st with
      departures := departures
      stores := { st.stores with netIds := st.stores.netIds.reset } } where
  named := h.reset
  all x hx hreserved := by
    obtain ⟨⟨name, entry⟩, hw, rfl⟩ := List.mem_map.mp hx
    have hname : name = reserved := hreserved hpending
    subst hname
    have hget := h.nodup.get_of_mem hw
    rw [h.zero] at hget
    cases hget
    refine List.mem_map.mpr ⟨_, ?_, rfl⟩
    rw [h.reset_byName]
    exact .head _
  announced _ := .inl
  announcing h' hh' _ hx := .inl ⟨h', hh', hx⟩

theorem Speaks.handleDisconnect {s : PeerSession}
    {phase : Phase} {now : ℕ} (hs : assocGet s st.departures = some phase)
    (hstep : st.handleDisconnect s leaveTimeout now phase = some st') :
    Speaks reserved a st st' := by
  cases phase with
  | draining =>
    rw [ServerState.handleDisconnect] at hstep
    split_ifs at hstep
    cases hstep
    exact .same h rfl rfl fun _ => .inl
  | netIds =>
    cases hstep
    exact ⟨h.removePeer _, fun _ hx _ => hx, fun _ => .inl, fun h' hh' _ hx => .inl ⟨h', hh', hx⟩⟩
  | resetNetIds =>
    cases hstep
    exact .reset h ⟨s, _, hs, rfl⟩
  | _ =>
    cases hstep
    exact .same h rfl rfl fun _ => .inl

/-- **What every step does to the network ids and to what is said about them.** -/
theorem Speaks.step (hpeople : People st)
    (hstep : st.step a = some st') : Speaks reserved a st st' := by
  cases a with simp only [ServerState.step] at hstep
  | finalizeAccept s =>
    split_ifs at hstep
    cases hstep
    refine .same h rfl rfl fun x hx => ?_
    rcases List.mem_append.mp hx with hx | hx
    · exact .inl hx
    · rw [List.mem_singleton.mp hx]
      exact .inr rfl
  | replayNetIds i =>
    obtain ⟨x, hx, rfl⟩ := replayNetIds_cases hstep
    refine ⟨h, fun _ hx _ => hx, fun _ => .inl, fun h' hh' y hy => ?_⟩
    rcases List.mem_or_eq_of_mem_set hh' with hold | rfl
    · exact .inl ⟨h', hold, hy⟩
    · refine .inr ⟨hy, fun hne => List.any_eq_true.mpr ⟨y, hy, ?_⟩⟩
      simpa [h.keeps] using Ne.symm hne
  | tell i k target =>
    obtain ⟨x, y, hx, hy, htarget, rfl⟩ := tell_cases hstep
    refine ⟨h, fun _ hx _ => hx, fun z hz => ?_, fun h' hh' _ hx => .inl ⟨h', hh', hx⟩⟩
    rcases List.mem_append.mp hz with hz | hz
    · exact .inl hz
    · rw [List.mem_singleton] at hz
      subst hz
      refine .inr ⟨?_, x, hx, hy⟩
      rcases htarget with hc | rfl
      · exact hc
      · exact (hpeople.leases x hx).1
  | finish i =>
    split_ifs at hstep
    cases hstep
    exact .same h rfl rfl fun _ hx => .inl (List.mem_of_mem_eraseIdx hx)
  | netIdAssign s name maxIds =>
    split_ifs at hstep with hs hempty
    · cases hstep
      exact .same h rfl rfl fun _ => .inl
    · cases hstep
      exact .netIdAssign h s hempty maxIds
  | depart s leaveTimeout now =>
    split at hstep
    · cases hstep
    · next phase hs => exact .handleDisconnect h hs hstep
  | expireSpheres now leaveTimeout deletionTimer =>
    cases hstep
    exact .same h rfl rfl fun _ => .inl
  | _ =>
    split_ifs at hstep
    cases hstep
    exact .same h rfl rfl fun _ => .inl

end

/-- What connected peers were told, and what handlers are about to tell, is what the store says;
it is only the reserved name while a reset is to come. -/
structure Names (reserved : String) (st : ServerState α β) : Prop where
  named : st.stores.netIds.Named reserved
  lt : ∀ y ∈ st.announced, y.1.state < st.nextState
  silent : ∀ y ∈ st.announced, y.1 ∈ st.sessions → st.connected y.1
  told : ∀ y ∈ st.announced, st.connected y.1 → y.2 ∈ st.stores.netIds.all ∧
    (st.resetPending .netIds → y.2.1 = reserved)
  telling : ∀ h ∈ st.handlers, ∀ x ∈ h.announcing, x ∈ st.stores.netIds.all ∧
    (st.resetPending .netIds → x.1 = reserved)

theorem Names.step (h : Names reserved st) (hpeople : People st) (hpeople' : People st')
    (hturns : Turns st st') (hspeaks : Speaks reserved a st st') (hcalm : Calm st a) :
    Names reserved st' where
  named := hspeaks.named
  lt y hy := by
    refine Nat.lt_of_lt_of_le ?_ hturns.nextState
    rcases hspeaks.announced y hy with hold | ⟨hc, -⟩
    · exact h.lt y hold
    · exact hpeople.lt _ (hpeople.auth _ _ hc).2.known
  silent y hy hs := by
    refine hturns.kept _ hs ?_
    rcases hspeaks.announced y hy with hold | ⟨hc, -⟩
    · rcases hturns.sessions _ hs with hs | hnew
      · exact h.silent y hold hs
      · exact absurd (h.lt y hold) (Nat.not_lt.mpr hnew)
    · exact hc
  told y hy hconnected := by
    have hsaid : y.2 ∈ st.stores.netIds.all ∧ (st.resetPending .netIds → y.2.1 = reserved) := by
      rcases hspeaks.announced y hy with hold | ⟨-, x, hx, hyx⟩
      · rcases hturns.connected _ hconnected with hc | ⟨hs, hnone⟩
        · exact h.told y hold hc
        · have hc : assocGet y.1.peer st.authenticated = some y.1 := h.silent y hold hs
          rw [hnone] at hc
          cases hc
      · exact h.telling x hx _ hyx
    refine ⟨hspeaks.all _ hsaid.1 hsaid.2, fun hpending => ?_⟩
    rcases hturns.opened _ hpending with hold | hempty
    · exact hsaid.2 hold
    · exact absurd hconnected (hempty _)
  telling x hx y hy := by
    rcases hspeaks.announcing x hx y hy with ⟨x', hx', hy'⟩ | ⟨hall, hdisturbs⟩
    · obtain ⟨hsaid, hquiet⟩ := h.telling x' hx' y hy'
      refine ⟨hspeaks.all _ hsaid hquiet, fun hpending => ?_⟩
      rcases hturns.opened _ hpending with hold | hempty
      · exact hquiet hold
      · exact absurd (hpeople'.leases x hx).1 (hempty _)
    · refine ⟨hall, fun hpending => ?_⟩
      rcases hturns.opened _ hpending with hold | hempty
      · by_contra hne
        exact hcalm _ (hdisturbs hne) hold
      · exact absurd (hpeople'.leases x hx).1 (hempty _)

theorem Names.empty (reserved : String) : Names reserved (empty reserved : ServerState α β) where
  named := NetIdState.named_withReservedName reserved
  lt := by rintro y hy; cases hy
  silent := by rintro y hy; cases hy
  told := by rintro y hy; cases hy
  telling := by rintro x hx; cases hx

/-! ### The resets -/

theorem invariant {st : ServerState α β} (h : Reachable (system α β reserved) Calm st) :
    People st ∧ Owned st ∧ Names reserved st := by
  induction h with
  | init h =>
    cases h
    exact ⟨.empty reserved, .empty reserved, .empty reserved⟩
  | step _ hcalm hstep ih =>
    obtain ⟨hpeople, howned, hnames⟩ := ih
    have hpeople' := hpeople.step hstep
    have hturns := Turns.step hpeople hstep
    exact ⟨hpeople', howned.step hpeople hturns (step_grows hnames.named hstep) hcalm,
      hnames.step hpeople hpeople' hturns (.step hnames.named hpeople hstep) hcalm⟩

/-- A departure takes nothing that another peer made who stays connected. -/
theorem handleDisconnect_keeps (hpeople : People st) (howned : Owned st) {c : PeerSession}
    {e : Entry} (hs : assocGet s st.departures = some phase)
    (hstep : st.handleDisconnect s leaveTimeout now phase = some st') (hmade : st.stores.made e c)
    (hc : st.connected c) (hne : c ≠ s) : st'.stores.made e c := by
  have hpeer : phase.removed = false → c.peer ≠ s.peer := fun hheld heq =>
    hne (hpeople.unique c s (hpeople.auth _ _ hc).2 (.inr ⟨phase, hs, hheld⟩) heq)
  have hreset : phase.resets e.store = true → st'.stores.made e c := fun hresets =>
    absurd hc (howned.pending e c hmade ⟨s, phase, hs, hresets⟩)
  cases phase with
  | draining =>
    rw [handleDisconnect] at hstep
    split_ifs at hstep
    cases hstep
    exact hmade
  | netIds =>
    cases hstep
    cases e <;> exact hmade
  | ownership =>
    cases hstep
    cases e with
    | ownership object =>
      obtain ⟨w, hw, rfl⟩ := hmade
      refine ⟨w, List.mem_filter.mpr ⟨hw, ?_⟩, rfl⟩
      rw [howned.belongs.ownership _ hw]
      exact decide_eq_true (hpeer rfl)
    | _ => exact hmade
  | contentShare =>
    cases hstep
    cases e with
    | sphere sphere =>
      obtain ⟨w, hw, rfl⟩ := hmade
      have hplayer : w.playerId ≠ s.peer := by
        rw [howned.belongs.sphere _ hw]
        exact hpeer rfl
      refine ⟨w, ?_, rfl⟩
      dsimp only [ContentShareState.removePlayerWithTimeout]
      by_cases htimeout : 0 < leaveTimeout
      · rw [if_pos htimeout]
        exact List.mem_map.mpr ⟨_, hw, by simp [hplayer]⟩
      · rw [if_neg htimeout]
        exact List.mem_filter.mpr ⟨hw, by simp [hplayer]⟩
    | _ => exact hmade
  | pip =>
    cases hstep
    cases e with
    | pip peer =>
      obtain ⟨w, hw, rfl⟩ := hmade
      refine ⟨w, List.mem_filter.mpr ⟨hw, ?_⟩, rfl⟩
      have hkey : peer = w.creator.peer := howned.belongs.pip _ hw
      rw [hkey]
      exact decide_eq_true (hpeer rfl)
    | _ => exact hmade
  | resetNetIds =>
    cases hstep
    cases e with
    | netId name => exact hreset rfl
    | _ => exact hmade
  | resetOwnership =>
    cases hstep
    cases e with
    | ownership object => exact hreset rfl
    | _ => exact hmade
  | resetContentShare =>
    cases hstep
    cases e with
    | sphere sphere => exact hreset rfl
    | _ => exact hmade
  | resetPip =>
    cases hstep
    cases e with
    | pip peer => exact hreset rfl
    | _ => exact hmade
  | _ =>
    cases hstep
    exact hmade

/-- **In a calm run the reset takes nothing from a connected peer.**  What a peer other than the
leaver made is still there after each step of a departure, if that peer is still connected; and no
connected peer was ever told one id under two names. -/
theorem last_leaver_reset_safe {α β : Type} {reserved : String} {st : ServerState α β}
    (h : Reachable (system α β reserved) Calm st) :
    (∀ s leaveTimeout now st', st.step (.depart s leaveTimeout now) = some st' →
      ∀ e c, st.stores.made e c → st'.connected c → c ≠ s → st'.stores.made e c) ∧
    ∀ s name name' id, st.connected s → (s, name, id) ∈ st.announced →
      (s, name', id) ∈ st.announced → name = name' := by
  obtain ⟨hpeople, howned, hnames⟩ := invariant h
  constructor
  · intro s leaveTimeout now st' hstep e c hmade hconnected hne
    have hc : st.connected c := by
      rcases (Turns.step hpeople hstep).connected c hconnected with hc | ⟨hc, -⟩
      · exact hc
      · exact howned.silent e c hmade hc
    simp only [step] at hstep
    split at hstep
    · cases hstep
    · next phase hs => exact handleDisconnect_keeps hpeople howned hs hstep hmade hc hne
  · intro s name name' id hs hname hname'
    obtain ⟨w, hw, hx⟩ := List.mem_map.mp (hnames.told _ hname hs).1
    obtain ⟨w', hw', hx'⟩ := List.mem_map.mp (hnames.told _ hname' hs).1
    rw [Prod.mk.injEq] at hx hx'
    rw [← hx.1, ← hx'.1]
    exact hnames.named.inj w hw w' hw' (hx.2.trans hx'.2.symm)

/-- The first peer leaves, and its departure goes on until the network ids are to be reset. -/
def lastLeaves : List (Action Unit Unit) :=
  let a : PeerSession := ⟨1, 0⟩
  [.connect 1, .finalizeAccept a, .replayNetIds 0, .finish 0, .retire a] ++
    List.replicate 7 (.depart a 0 0)

/-- Another peer comes in before the reset. -/
def nextJoins : List (Action Unit Unit) := [.connect 2, .finalizeAccept ⟨2, 1⟩]

/-- The session gets an id for the name and is told. -/
def assigns (s : PeerSession) (name : String) : List (Action Unit Unit) :=
  [.netIdAssign s name 8, .tell 1 0 s, .finish 1]

theorem last_leaver_reset_safe_joined :
    ∃ st : ServerState Unit Unit, Reachable (system Unit Unit "reserved") Calm st ∧
      st.connected ⟨2, 1⟩ ∧ st.stores.made (.netId "x") ⟨2, 1⟩ ∧
      (⟨2, 1⟩, "x", 1) ∈ st.announced ∧
      ∀ s leaveTimeout now st', st.step (.depart s leaveTimeout now) = some st' →
        ∀ e c, st.stores.made e c → st'.connected c → c ≠ s → st'.stores.made e c := by
  have hrun : (runActions (system Unit Unit "reserved") (empty "reserved")
      (lastLeaves ++ nextJoins ++ [.depart ⟨1, 0⟩ 0 0] ++ assigns ⟨2, 1⟩ "x")).any (fun st =>
        decide (st.connected ⟨2, 1⟩) &&
        decide (("x", ⟨1, some ⟨2, 1⟩⟩) ∈ st.stores.netIds.byName) &&
        decide ((⟨2, 1⟩, "x", 1) ∈ st.announced)) = true := by
    decide +kernel
  have hcalm : Admits (system Unit Unit "reserved") Calm (empty "reserved")
      (lastLeaves ++ nextJoins ++ [.depart ⟨1, 0⟩ 0 0] ++ assigns ⟨2, 1⟩ "x") := by
    decide +kernel
  obtain ⟨st, hreach, hst⟩ := exists_reachable_of_run Calm hcalm (.init rfl) hrun
  simp only [Bool.and_eq_true, decide_eq_true_eq] at hst
  exact ⟨st, hreach, hst.1.1, ⟨_, hst.1.2, rfl⟩, hst.2, (last_leaver_reset_safe hreach).1⟩

/-- **Without the condition the reset takes what a connected peer made.**  The second peer comes in
after the check and before the reset of the network ids; the name it makes is gone after the reset,
and another name then gets the same id. -/
theorem last_leaver_reset_unsafe :
    (∃ st st' : ServerState Unit Unit,
      Reachable (system Unit Unit "reserved") (fun _ _ => True) st ∧
      st.step (.depart ⟨1, 0⟩ 0 0) = some st' ∧ st'.connected ⟨2, 1⟩ ∧
      st.stores.made (.netId "x") ⟨2, 1⟩ ∧ ¬ st'.stores.made (.netId "x") ⟨2, 1⟩) ∧
    ∃ st : ServerState Unit Unit, Reachable (system Unit Unit "reserved") (fun _ _ => True) st ∧
      st.connected ⟨2, 1⟩ ∧ (⟨2, 1⟩, "x", 1) ∈ st.announced ∧ (⟨2, 1⟩, "y", 1) ∈ st.announced := by
  constructor
  · have hrun : (runActions (system Unit Unit "reserved") (empty "reserved")
        (lastLeaves ++ nextJoins ++ assigns ⟨2, 1⟩ "x")).any (fun st =>
          decide (("x", ⟨1, some ⟨2, 1⟩⟩) ∈ st.stores.netIds.byName) &&
          (st.step (.depart ⟨1, 0⟩ 0 0)).any fun st' =>
            decide (st'.connected ⟨2, 1⟩) &&
            decide (∀ w ∈ st'.stores.netIds.byName, w.1 ≠ "x")) = true := by
      decide +kernel
    obtain ⟨st, hreach, hst⟩ := exists_reachable_of_free_run (.init rfl) hrun
    rw [Bool.and_eq_true, decide_eq_true_eq] at hst
    obtain ⟨hmade, hany⟩ := hst
    obtain ⟨st', hstep, hst'⟩ := (Option.any_eq_true _ _).mp hany
    rw [Bool.and_eq_true, decide_eq_true_eq, decide_eq_true_eq] at hst'
    refine ⟨st, st', hreach, hstep, hst'.1, ⟨_, hmade, rfl⟩, ?_⟩
    rintro ⟨w, hw, -⟩
    exact hst'.2 _ hw rfl
  · have hrun : (runActions (system Unit Unit "reserved") (empty "reserved")
        (lastLeaves ++ nextJoins ++ assigns ⟨2, 1⟩ "x" ++ [.depart ⟨1, 0⟩ 0 0] ++
          assigns ⟨2, 1⟩ "y")).any (fun st =>
          decide (st.connected ⟨2, 1⟩) && decide ((⟨2, 1⟩, "x", 1) ∈ st.announced) &&
          decide ((⟨2, 1⟩, "y", 1) ∈ st.announced)) = true := by
      decide +kernel
    obtain ⟨st, hreach, hst⟩ := exists_reachable_of_free_run (.init rfl) hrun
    simp only [Bool.and_eq_true, decide_eq_true_eq] at hst
    exact ⟨st, hreach, hst.1.1, hst.1.2, hst.2⟩

end ServerState

end BasisRust.Server
