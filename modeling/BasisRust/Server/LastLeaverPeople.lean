import BasisRust.Server.LastLeaver
import Mathlib.Data.List.Nodup

/-!
# Who is on the server

A peer id belongs to one session at a time, from its connection until its departure has taken it
from the authenticated ones, and a handler runs only for a connected session.  `People` is the
invariant; `People.step` says that every step keeps it.
-/

namespace BasisRust.Server

open Library

namespace ServerState

variable {α β : Type} {st st' : ServerState α β} {a : Action α β} {phase phase' : Phase}
  {s' : PeerSession}

/-! ### Announcements -/

theorem tell_cases {i k : ℕ} {target : PeerSession}
    (hstep : st.step (.tell i k target) = some st') :
    ∃ h x, h ∈ st.handlers ∧ x ∈ h.announcing ∧ (st.connected target ∨ target = h.session) ∧
      st' = { st with announced := st.announced ++ [(target, x)] } := by
  rw [step] at hstep
  cases hh : st.handlers[i]? with
  | none =>
    rw [hh] at hstep
    cases hstep
  | some h =>
    simp only [hh] at hstep
    cases hx : h.announcing[k]? with
    | none =>
      rw [hx] at hstep
      cases hstep
    | some x =>
      simp only [hx, Option.ite_none_right_eq_some, Option.some.injEq] at hstep
      refine ⟨h, x, List.mem_of_getElem? hh, List.mem_of_getElem? hx, ?_, hstep.2.symm⟩
      by_cases hb : h.broadcast = true
      · exact .inl (by simpa [hb] using hstep.1)
      · exact .inr (by simpa [hb] using hstep.1)

theorem replayNetIds_cases {i : ℕ} (hstep : st.step (.replayNetIds i) = some st') :
    ∃ h ∈ st.handlers, st' = { st with
      handlers := st.handlers.set i
        { h with announcing := st.stores.netIds.all, admission := false } } := by
  rw [step] at hstep
  cases hh : st.handlers[i]? with
  | none =>
    rw [hh] at hstep
    cases hstep
  | some h =>
    simp only [hh, Option.ite_none_right_eq_some, Option.some.injEq] at hstep
    exact ⟨h, List.mem_of_getElem? hh, hstep.2.symm⟩

/-! ### People -/

/-- The session is connected, or its departure goes on. -/
def known (st : ServerState α β) (s : PeerSession) : Prop :=
  s ∈ st.sessions ∨ ∃ phase, assocGet s st.departures = some phase

/-- The session has its peer id for itself. -/
def present (st : ServerState α β) (s : PeerSession) : Prop :=
  s ∈ st.sessions ∨ ∃ phase, assocGet s st.departures = some phase ∧ phase.removed = false

theorem present.known {s : PeerSession} (h : st.present s) : st.known s :=
  h.imp_right fun ⟨phase, hphase, _⟩ => ⟨phase, hphase⟩

structure People (st : ServerState α β) : Prop where
  unique : ∀ s s', st.present s → st.present s' → s.peer = s'.peer → s = s'
  disjoint : ∀ s ∈ st.sessions, assocGet s st.departures = none
  nodup : st.sessions.Nodup
  lt : ∀ s, st.known s → s.state < st.nextState
  auth : ∀ p s, assocGet p st.authenticated = some s → s.peer = p ∧ st.present s
  leases : ∀ h ∈ st.handlers, st.connected h.session ∧
    (h.session ∈ st.sessions ∨ assocGet h.session st.departures = some .draining)

variable {s : PeerSession}

/-- The peer that a message is handled for is connected. -/
theorem People.connected_of_handles (h : People st) (hs : st.handles s = true) :
    s ∈ st.sessions ∧ st.connected s := by
  rw [handles, Bool.and_eq_true, decide_eq_true_eq] at hs
  obtain ⟨s', hs'⟩ := Option.isSome_iff_exists.mp hs.2
  obtain ⟨hpeer, hpresent⟩ := h.auth s.peer s' hs'
  have heq := h.unique s' s hpresent (.inl hs.1) hpeer
  subst heq
  exact ⟨hs.1, hs'⟩

/-- Only the handlers change, to handlers of the same sessions or of a given connected one. -/
theorem People.handlers (h : People st) {handlers : List Handler}
    (hhandlers : ∀ x ∈ handlers, (∃ y ∈ st.handlers, y.session = x.session) ∨
      (x.session ∈ st.sessions ∧ st.connected x.session)) {stores : Stores α β}
    {announced : List (PeerSession × String × BitVec 16)} :
    People { st with handlers := handlers, stores := stores, announced := announced } where
  __ := h
  leases x hx := by
    rcases hhandlers x hx with ⟨y, hy, heq⟩ | ⟨hin, hconnected⟩
    · rw [← heq]
      exact h.leases y hy
    · exact ⟨hconnected, .inl hin⟩

/-- Only the stores and the history change. -/
theorem People.stores (h : People st) {stores : Stores α β} : People { st with stores := stores } :=
  h.handlers fun x hx => .inl ⟨x, hx, rfl⟩

/-- A session whose departure has taken it from the authenticated ones is not connected. -/
theorem People.left (h : People st) (hs : assocGet s st.departures = some phase)
    (hremoved : phase.removed = true) : ¬ st.connected s := by
  intro hconnected
  rcases (h.auth _ _ hconnected).2 with hin | ⟨phase', hs', hheld⟩
  · cases (h.disjoint s hin).symm.trans hs
  · cases hs.symm.trans hs'
    exact Bool.noConfusion (hremoved.symm.trans hheld)

theorem known_setPhase (hs : assocGet s st.departures = some phase) (s' : PeerSession) :
    (st.setPhase s phase').known s' ↔ st.known s' := by
  rw [known, known, setPhase]
  by_cases heq : s' = s
  · subst heq
    simp [hs]
  · simp [assocGet_set_of_ne heq]

/-- A departure that goes on does not take an id. -/
theorem present_of_setPhase (hs : assocGet s st.departures = some phase)
    (hkept : phase.removed = true → phase'.removed = true) (h : (st.setPhase s phase').present s') :
    st.present s' := by
  refine h.imp_right ?_
  rintro ⟨ph, hph, hheld⟩
  by_cases heq : s' = s
  · subst heq
    cases (assocGet_set_self s' phase' st.departures).symm.trans hph
    refine ⟨phase, hs, Bool.eq_false_iff.mpr fun hremoved => ?_⟩
    exact Bool.noConfusion ((hkept hremoved).symm.trans hheld)
  · exact ⟨ph, (assocGet_set_of_ne heq phase' st.departures).symm.trans hph, hheld⟩

/-- The other sessions keep their ids. -/
theorem present_setPhase (phase' : Phase) (hne : s' ≠ s) (h : st.present s') :
    (st.setPhase s phase').present s' := by
  refine h.imp_right ?_
  rintro ⟨ph, hph, hheld⟩
  exact ⟨ph, (assocGet_set_of_ne hne phase' st.departures).trans hph, hheld⟩

theorem People.ne_of_departing (h : People st) (hs : assocGet s st.departures = some phase)
    (hin : s' ∈ st.sessions) : s' ≠ s := by
  rintro rfl
  cases (h.disjoint s' hin).symm.trans hs

/-- A departure goes on to a phase after the draining. -/
theorem People.setPhase (h : People st) (hs : assocGet s st.departures = some phase)
    (hdrained : ∀ x ∈ st.handlers, x.session ≠ s) (hphase : phase'.removed = phase.removed)
    {stores : Stores α β} : People { st.setPhase s phase' with stores := stores } := by
  have hpresent : ∀ s', (st.setPhase s phase').present s' → st.present s' :=
    fun s' => present_of_setPhase hs fun hremoved => hphase.trans hremoved
  refine ⟨fun s₁ s₂ h₁ h₂ => ?_, fun s' hs' => ?_, h.nodup, fun s' hs' => ?_, fun p s' hs' => ?_,
    fun x hx => ?_⟩
  · exact h.unique s₁ s₂ (hpresent s₁ h₁) (hpresent s₂ h₂)
  · exact (assocGet_set_of_ne (h.ne_of_departing hs hs') _ _).trans (h.disjoint s' hs')
  · exact h.lt s' ((known_setPhase hs s').mp hs')
  · obtain ⟨hp, hin⟩ := h.auth p s' hs'
    refine ⟨hp, ?_⟩
    by_cases heq : s' = s
    · subst heq
      have hheld : phase.removed = false := by
        refine Bool.eq_false_iff.mpr fun hremoved => h.left hs hremoved ?_
        rwa [connected, hp]
      exact .inr ⟨phase', assocGet_set_self s' phase' st.departures, hphase.trans hheld⟩
    · exact present_setPhase phase' heq hin
  · obtain ⟨hconnected, hlease⟩ := h.leases x hx
    refine ⟨hconnected, ?_⟩
    rcases hlease with hin | hdraining
    · exact .inl hin
    · exact .inr ((assocGet_set_of_ne (hdrained x hx) _ _).trans hdraining)

/-- No handler holds a lease of a session whose departure has drained. -/
theorem People.drained (h : People st) (hs : assocGet s st.departures = some phase)
    (hphase : phase ≠ .draining) : ∀ x ∈ st.handlers, x.session ≠ s := by
  rintro x hx rfl
  rcases (h.leases x hx).2 with hin | hdraining
  · rw [h.disjoint _ hin] at hs
    cases hs
  · rw [hs] at hdraining
    cases hdraining
    exact hphase rfl

theorem People.connect (h : People st) {peer : PeerId}
    (hsessions : ∀ s ∈ st.sessions, s.peer ≠ peer)
    (hdepartures : ∀ x ∈ st.departures, x.1.peer = peer → x.2.removed = true) :
    People { st with
      sessions := st.sessions ++ [⟨peer, st.nextState⟩], nextState := st.nextState + 1 } := by
  have hpeer : ∀ s, st.present s → s.peer ≠ peer := by
    rintro s (hs | ⟨phase, hs, hheld⟩) heq
    · exact hsessions s hs heq
    · exact Bool.noConfusion ((hdepartures _ (mem_keys_of_assocGet hs) heq).symm.trans hheld)
  have hnew : ¬ st.known ⟨peer, st.nextState⟩ := fun hs => lt_irrefl _ (h.lt _ hs)
  have hsplit : ∀ {s}, s ∈ st.sessions ++ [(⟨peer, st.nextState⟩ : PeerSession)] →
      s ∈ st.sessions ∨ s = ⟨peer, st.nextState⟩ := fun hs =>
    (List.mem_append.mp hs).imp_right List.mem_singleton.mp
  refine ⟨fun s₁ s₂ h₁ h₂ heq => ?_, fun s hs => ?_, ?_, fun s hs => ?_, fun p s hs => ?_,
    fun x hx => ?_⟩
  · have hpresent : ∀ {s}, present { st with
        sessions := st.sessions ++ [⟨peer, st.nextState⟩], nextState := st.nextState + 1 } s →
        st.present s ∨ s = ⟨peer, st.nextState⟩ := by
      rintro s (hs | hs)
      · exact (hsplit hs).imp_left .inl
      · exact .inl (.inr hs)
    rcases hpresent h₁ with h₁ | rfl
    · rcases hpresent h₂ with h₂ | rfl
      · exact h.unique s₁ s₂ h₁ h₂ heq
      · exact absurd heq (hpeer s₁ h₁)
    · rcases hpresent h₂ with h₂ | rfl
      · exact absurd heq.symm (hpeer s₂ h₂)
      · rfl
  · rcases hsplit hs with hs | rfl
    · exact h.disjoint s hs
    · by_contra hdeparting
      exact hnew (.inr (Option.ne_none_iff_exists'.mp hdeparting))
  · refine List.nodup_append.mpr ⟨h.nodup, by simp, fun x hx y hy heq => ?_⟩
    rw [List.mem_singleton] at hy
    subst heq hy
    exact hnew (.inl hx)
  · rcases hs with hs | hs
    · rcases hsplit hs with hs | rfl
      · exact Nat.lt_succ_of_lt (h.lt s (.inl hs))
      · exact Nat.lt_succ_self _
    · exact Nat.lt_succ_of_lt (h.lt s (.inr hs))
  · obtain ⟨hp, hin⟩ := h.auth p s hs
    exact ⟨hp, hin.imp_left (List.mem_append_left _)⟩
  · obtain ⟨hconnected, hlease⟩ := h.leases x hx
    exact ⟨hconnected, hlease.imp_left (List.mem_append_left _)⟩

theorem connected_finalizeAccept (hnone : assocGet s.peer st.authenticated = none)
    {handlers : List Handler} (c : PeerSession) :
    connected { st with
      authenticated := assocSet s.peer s st.authenticated, handlers := handlers } c ↔
      st.connected c ∨ c = s := by
  rw [connected, connected]
  by_cases hp : c.peer = s.peer
  · rw [hp, hnone]
    simp [eq_comm]
  · rw [assocGet_set_of_ne hp]
    constructor
    · exact .inl
    · rintro (hc | rfl)
      · exact hc
      · exact absurd rfl hp

theorem People.finalizeAccept (h : People st) (hs : s ∈ st.sessions)
    (hnone : assocGet s.peer st.authenticated = none) :
    People { st with
      authenticated := assocSet s.peer s st.authenticated
      handlers := st.handlers ++ [⟨s, [], false, true⟩] } := by
  refine ⟨h.unique, h.disjoint, h.nodup, h.lt, fun p s' hs' => ?_, fun x hx => ?_⟩
  · dsimp only at hs'
    by_cases hp : p = s.peer
    · subst hp
      rw [assocGet_set_self] at hs'
      cases hs'
      exact ⟨rfl, .inl hs⟩
    · rw [assocGet_set_of_ne hp] at hs'
      exact h.auth p s' hs'
  · rw [connected_finalizeAccept hnone]
    rcases List.mem_append.mp hx with hx | hx
    · exact ⟨.inl (h.leases x hx).1, (h.leases x hx).2⟩
    · rw [List.mem_singleton] at hx
      subst hx
      exact ⟨.inr rfl, .inl hs⟩

theorem People.retire (h : People st) (hs : s ∈ st.sessions) :
    People { st with
      sessions := st.sessions.erase s, departures := (s, .draining) :: st.departures } := by
  have hget : ∀ s', assocGet s' ((s, Phase.draining) :: st.departures) =
      if s' = s then some .draining else assocGet s' st.departures := by
    intro s'
    rw [assocGet]
    by_cases heq : s = s'
    · rw [if_pos heq, if_pos heq.symm]
    · rw [if_neg heq, if_neg (Ne.symm heq)]
  have hpresent : ∀ s', present { st with
      sessions := st.sessions.erase s, departures := (s, .draining) :: st.departures } s' ↔
      st.present s' := by
    intro s'
    rw [present, present, hget, h.nodup.mem_erase_iff]
    by_cases heq : s' = s
    · subst heq
      simp [hs, Phase.removed]
    · simp [heq]
  refine ⟨fun s₁ s₂ h₁ h₂ => ?_, fun s' hs' => ?_, h.nodup.erase s, fun s' hs' => ?_,
    fun p s' hs' => ?_, fun x hx => ?_⟩
  · exact h.unique s₁ s₂ ((hpresent s₁).mp h₁) ((hpresent s₂).mp h₂)
  · obtain ⟨hne, hin⟩ := h.nodup.mem_erase_iff.mp hs'
    rw [hget, if_neg hne]
    exact h.disjoint s' hin
  · refine h.lt s' ?_
    rcases hs' with hin | ⟨phase, hphase⟩
    · exact .inl (List.mem_of_mem_erase hin)
    · rw [hget] at hphase
      split_ifs at hphase with heq
      · exact .inl (heq ▸ hs)
      · exact .inr ⟨phase, hphase⟩
  · obtain ⟨hp, hin⟩ := h.auth p s' hs'
    exact ⟨hp, (hpresent s').mpr hin⟩
  · obtain ⟨hconnected, hlease⟩ := h.leases x hx
    refine ⟨hconnected, ?_⟩
    rw [hget, h.nodup.mem_erase_iff]
    by_cases heq : x.session = s
    · exact .inr (if_pos heq)
    · rw [if_neg heq]
      exact hlease.imp_left fun hin => ⟨heq, hin⟩

theorem connected_erase {p : PeerId} {departures : List (PeerSession × Phase)} (c : PeerSession) :
    connected { st with
      authenticated := assocErase p st.authenticated, departures := departures } c ↔
      st.connected c ∧ c.peer ≠ p := by
  rw [connected, connected]
  by_cases hp : c.peer = p
  · rw [hp]
    simp
  · simp [assocGet_erase_of_ne hp, hp]

/-- The peer of a departure is taken from the authenticated ones, and its id is free. -/
theorem People.deauthenticate (h : People st)
    (hs : assocGet s st.departures = some .authenticated) :
    People { st.setPhase s phase' with
      authenticated := assocErase s.peer st.authenticated } := by
  have hdrained := h.drained hs (by decide)
  have hpresent : ∀ s', (st.setPhase s phase').present s' → st.present s' :=
    fun s' => present_of_setPhase hs fun hremoved => by cases hremoved
  have hconnected : ∀ c, connected { st.setPhase s phase' with
      authenticated := assocErase s.peer st.authenticated } c ↔
      st.connected c ∧ c.peer ≠ s.peer := connected_erase
  refine ⟨fun s₁ s₂ h₁ h₂ => ?_, fun s' hs' => ?_, h.nodup, fun s' hs' => ?_, fun p s' hs' => ?_,
    fun x hx => ?_⟩
  · exact h.unique s₁ s₂ (hpresent s₁ h₁) (hpresent s₂ h₂)
  · exact (assocGet_set_of_ne (h.ne_of_departing hs hs') _ _).trans (h.disjoint s' hs')
  · exact h.lt s' ((known_setPhase hs s').mp hs')
  · have hp : p ≠ s.peer := by
      rintro rfl
      cases (assocGet_erase_self s.peer st.authenticated).symm.trans hs'
    have hold : assocGet p st.authenticated = some s' :=
      (assocGet_erase_of_ne hp st.authenticated).symm.trans hs'
    obtain ⟨hpeer, hin⟩ := h.auth p s' hold
    exact ⟨hpeer, present_setPhase phase' (fun heq => hp (hpeer.symm.trans (congrArg _ heq))) hin⟩
  · obtain ⟨hc, hlease⟩ := h.leases x hx
    have hpeer : x.session.peer ≠ s.peer := fun heq =>
      hdrained x hx (h.unique x.session s (h.auth _ _ hc).2 (.inr ⟨_, hs, rfl⟩) heq)
    refine ⟨(hconnected _).mpr ⟨hc, hpeer⟩, hlease.imp_right fun hdraining => ?_⟩
    exact (assocGet_set_of_ne (hdrained x hx) _ _).trans hdraining

/-- A departure is over. -/
theorem People.over (h : People st) (hs : assocGet s st.departures = some .done) :
    People { st with departures := assocErase s st.departures } := by
  have hdrained := h.drained hs (by decide)
  have hget : ∀ {s' ph}, assocGet s' (assocErase s st.departures) = some ph →
      assocGet s' st.departures = some ph := by
    intro s' ph hs'
    by_cases heq : s' = s
    · subst heq
      cases (assocGet_erase_self s' st.departures).symm.trans hs'
    · rwa [assocGet_erase_of_ne heq] at hs'
  have hpresent : ∀ s', present { st with departures := assocErase s st.departures } s' →
      st.present s' := fun s' h' => h'.imp_right fun ⟨ph, hph, hheld⟩ => ⟨ph, hget hph, hheld⟩
  refine ⟨fun s₁ s₂ h₁ h₂ => ?_, fun s' hs' => ?_, h.nodup, fun s' hs' => ?_, fun p s' hs' => ?_,
    fun x hx => ?_⟩
  · exact h.unique s₁ s₂ (hpresent s₁ h₁) (hpresent s₂ h₂)
  · exact (assocGet_erase_of_ne (h.ne_of_departing hs hs') _).trans (h.disjoint s' hs')
  · exact h.lt s' (hs'.imp_right fun ⟨ph, hph⟩ => ⟨ph, hget hph⟩)
  · obtain ⟨hpeer, hin⟩ := h.auth p s' hs'
    refine ⟨hpeer, hin.imp_right fun ⟨ph, hph, hheld⟩ => ⟨ph, ?_, hheld⟩⟩
    have hne : s' ≠ s := by
      rintro rfl
      cases hs.symm.trans hph
      cases hheld
    exact (assocGet_erase_of_ne hne _).trans hph
  · obtain ⟨hc, hlease⟩ := h.leases x hx
    refine ⟨hc, hlease.imp_right fun hdraining => ?_⟩
    exact (assocGet_erase_of_ne (hdrained x hx) _).trans hdraining

theorem People.handleDisconnect (h : People st) {leaveTimeout : ℤ} {now : ℕ}
    (hs : assocGet s st.departures = some phase)
    (hstep : st.handleDisconnect s leaveTimeout now phase = some st') : People st' := by
  cases phase with
  | draining =>
    rw [ServerState.handleDisconnect] at hstep
    split_ifs at hstep with hany
    cases hstep
    refine h.setPhase hs (fun x hx heq => ?_) ?_
    · exact hany (List.any_eq_true.mpr ⟨x, hx, by simp [heq]⟩)
    · rfl
  | authenticated =>
    cases hstep
    exact h.deauthenticate hs
  | emptyCheck =>
    cases hstep
    refine h.setPhase hs (h.drained hs (by decide)) ?_
    split_ifs <;> rfl
  | done =>
    cases hstep
    exact h.over hs
  | _ =>
    cases hstep
    refine h.setPhase hs (h.drained hs (by decide)) ?_
    rfl

theorem People.empty (reserved : String) : People (empty reserved : ServerState α β) where
  unique := by rintro s s' (hs | ⟨ph, hs, -⟩) <;> cases hs
  disjoint := by rintro s hs; cases hs
  nodup := List.nodup_nil
  lt := by rintro s (hs | ⟨ph, hs⟩) <;> cases hs
  auth := by rintro p s hs; cases hs
  leases := by rintro x hx; cases hx

theorem People.announceId (h : People st) (hs : st.handles s = true)
    (name : String) (stores : Stores α β) (r : Option (BitVec 16 × Bool)) :
    People (ServerState.announceId { st with stores := stores } s name r) := by
  cases r with
  | none => exact h.stores
  | some r =>
    refine h.handlers fun x hx => ?_
    rcases List.mem_append.mp hx with hx | hx
    · exact .inl ⟨x, hx, rfl⟩
    · rw [List.mem_singleton] at hx
      subst hx
      exact .inr (h.connected_of_handles hs)

theorem People.step (h : People st) (hstep : st.step a = some st') : People st' := by
  cases a with simp only [ServerState.step] at hstep
  | connect peer =>
    split_ifs at hstep with hany
    cases hstep
    rw [Bool.or_eq_true, not_or, List.any_eq_true, List.any_eq_true] at hany
    refine h.connect (fun s hs heq => hany.1 ⟨s, hs, decide_eq_true heq⟩) fun x hx heq => ?_
    by_contra hheld
    exact hany.2 ⟨x, hx, by simpa [heq] using hheld⟩
  | finalizeAccept s =>
    split_ifs at hstep with hs
    cases hstep
    rw [Bool.and_eq_true, decide_eq_true_eq, Option.isNone_iff_eq_none] at hs
    exact h.finalizeAccept hs.1 hs.2
  | replayNetIds i =>
    obtain ⟨x, hx, rfl⟩ := replayNetIds_cases hstep
    refine h.handlers fun y hy => .inl ?_
    rcases List.mem_or_eq_of_mem_set hy with hy | rfl
    · exact ⟨y, hy, rfl⟩
    · exact ⟨x, hx, rfl⟩
  | tell i k target =>
    obtain ⟨x, y, hx, hy, htarget, rfl⟩ := tell_cases hstep
    exact h.handlers fun y hy => .inl ⟨y, hy, rfl⟩
  | finish i =>
    split_ifs at hstep
    cases hstep
    exact h.handlers fun y hy => .inl ⟨y, List.mem_of_mem_eraseIdx hy, rfl⟩
  | netIdAssign s name maxIds =>
    split_ifs at hstep with hs hempty
    · cases hstep
      exact h
    · cases hstep
      exact h.announceId (by simpa using hs) name _ _
  | retire s =>
    split_ifs at hstep with hs
    cases hstep
    exact h.retire hs
  | depart s leaveTimeout now =>
    split at hstep
    · cases hstep
    · next phase hs => exact h.handleDisconnect hs hstep
  | expireSpheres now leaveTimeout deletionTimer =>
    cases hstep
    exact h.stores
  | _ =>
    split_ifs at hstep
    cases hstep
    exact h.stores

end ServerState

end BasisRust.Server

