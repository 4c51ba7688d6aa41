import BasisRust.Server.PeerTables

/-!
# A reused peer id inherits nothing

An id belongs to one session at a time (`People`), a departure leaves nothing in the tables it has
been through (`Marks`), and the recipient lists hold authenticated sessions, or sessions whose
departure has still to visit them (`Voices`).
-/

namespace BasisRust.Server

open Library

/-- The departure has not come to the authenticated peers. -/
def TablePhase.isEarly : TablePhase → Bool
  | .draining | .clearing _ | .authenticated => true
  | .pruning _ | .recycling => false

theorem PeerTable.cleared_after (table other : PeerTable) :
    table.after.cleared other = ((TablePhase.clearing table).cleared other || other = table) := by
  cases table <;> cases other <;> rfl

theorem PeerTable.isEarly_after (table : PeerTable) : table.after.isEarly = true := by
  cases table <;> rfl

namespace TableState

variable {s s' : TableState} {a : Action} {x y session : PeerSession} {peer key : PeerId}
  {table : PeerTable} {phase : TablePhase} {i : ℕ} {h h' : TableHandler} {ls : List PeerSession}

/-! ### Sessions -/

/-- The session is open, or its departure waits for the last lease. -/
def guarded (s : TableState) (x : PeerSession) : Prop :=
  x ∈ s.sessions ∨ assocGet x s.departures = some .draining

/-- The session has its id. -/
def present (s : TableState) (x : PeerSession) : Prop :=
  x ∈ s.sessions ∨ (assocGet x s.departures).isSome = true

theorem guarded.present (h : s.guarded x) : s.present x := by
  rcases h with h | h
  · exact .inl h
  · exact .inr (by rw [h]; rfl)

structure People (s : TableState) : Prop where
  nodup : s.sessions.Nodup
  apart : ∀ x ∈ s.sessions, assocGet x s.departures = none
  unique : ∀ x y, s.present x → s.present y → x.peer = y.peer → x = y
  handler : ∀ h ∈ s.handlers, s.guarded h.session ∧
    (h.accepting = false → assocGet h.session.peer s.authenticated = some h.session) ∧
    ∀ x ∈ h.recipients, s.guarded x ∧ assocGet x.peer s.authenticated = some x
  authenticated : ∀ peer x, assocGet peer s.authenticated = some x → x.peer = peer ∧
    (x ∈ s.sessions ∨ ∃ phase, assocGet x s.departures = some phase ∧ phase.isEarly = true)

section

variable (hp : People s)
include hp

/-- A session that is leased is not on its way through the tables. -/
theorem People.draining_of_guarded (hx : s.guarded x)
    (hy : assocGet y s.departures = some phase) (hpeer : x.peer = y.peer) : phase = .draining := by
  have heq : x = y := hp.unique x y hx.present (.inr (by rw [hy]; rfl)) hpeer
  subst heq
  rcases hx with hx | hx
  · rw [hp.apart x hx] at hy
    cases hy
  · rw [hx] at hy
    cases hy
    rfl

/-- Nothing but the running handlers has changed, and they are accounted for. -/
theorem People.handlers (handlers : List TableHandler)
    (hhandler : ∀ h ∈ handlers, s.guarded h.session ∧
      (h.accepting = false → assocGet h.session.peer s.authenticated = some h.session) ∧
      ∀ x ∈ h.recipients, s.guarded x ∧ assocGet x.peer s.authenticated = some x) :
    People { s with handlers } :=
  ⟨hp.nodup, hp.apart, hp.unique, hhandler, hp.authenticated⟩

theorem People.setHandler (hnew : s.guarded h.session ∧
      (h.accepting = false → assocGet h.session.peer s.authenticated = some h.session) ∧
      ∀ x ∈ h.recipients, s.guarded x ∧ assocGet x.peer s.authenticated = some x) :
    People (s.setHandler i h) := by
  refine hp.handlers _ ?_
  intro h' hh'
  rcases List.mem_or_eq_of_mem_set hh' with hmem | rfl
  · exact hp.handler h' hmem
  · exact hnew

/-- A departure goes on; it was drained before, or becomes so without a lease. -/
theorem People.setPhase {old : TablePhase} (hold : assocGet session s.departures = some old)
    (hdrained : old = .draining → s.leased session = false)
    (hearly : ∀ peer, assocGet peer s.authenticated = some session → phase.isEarly = true) :
    People (s.setPhase session phase) := by
  have hget : ∀ x, x ≠ session → assocGet x (s.setPhase session phase).departures =
      assocGet x s.departures := fun x hx => assocGet_set_of_ne hx _ _
  have hself : assocGet session (s.setPhase session phase).departures = some phase :=
    assocGet_set_self _ _ _
  have hpresent : ∀ x, (s.setPhase session phase).present x → s.present x := by
    intro x hx
    by_cases heq : x = session
    · subst heq
      exact .inr (by rw [hold]; rfl)
    · rcases hx with hx | hx
      · exact .inl hx
      · rw [hget x heq] at hx
        exact .inr hx
  have hguarded : ∀ h ∈ s.handlers, ∀ x, x = h.session ∨ x ∈ h.recipients → s.guarded x →
      (s.setPhase session phase).guarded x := by
    intro h hh x hx hg
    rcases hg with hg | hg
    · exact .inl hg
    · by_cases heq : x = session
      · subst heq
        rw [hold] at hg
        cases hg
        have hleased := hdrained rfl
        rw [leased, List.any_eq_false] at hleased
        refine absurd ?_ (hleased h hh)
        rcases hx with rfl | hx <;> simp [*]
      · exact .inr (by rw [hget x heq]; exact hg)
  refine ⟨hp.nodup, ?_, ?_, ?_, ?_⟩
  · intro x hx
    rw [hget x ?_]
    · exact hp.apart x hx
    · rintro rfl
      rw [hp.apart x hx] at hold
      cases hold
  · intro x y hx hy
    exact hp.unique x y (hpresent x hx) (hpresent y hy)
  · intro h hh
    obtain ⟨hg, hacts, hrecipients⟩ := hp.handler h hh
    refine ⟨hguarded h hh _ (.inl rfl) hg, hacts, ?_⟩
    intro x hx
    exact ⟨hguarded h hh x (.inr hx) (hrecipients x hx).1, (hrecipients x hx).2⟩
  · intro peer x hx
    obtain ⟨hpeer, hwhere⟩ := hp.authenticated peer x hx
    refine ⟨hpeer, hwhere.imp_right ?_⟩
    rintro ⟨old', hold', hisearly⟩
    by_cases heq : x = session
    · subst heq
      exact ⟨phase, hself, hearly peer hx⟩
    · exact ⟨old', by rw [hget x heq]; exact hold', hisearly⟩

/-- A departure that is past the authenticated peers is of nobody who is authenticated. -/
theorem People.not_authenticated (hphase : assocGet session s.departures = some phase)
    (hlate : phase.isEarly = false) : s.isAuthenticated session.peer = false := by
  unfold isAuthenticated
  cases hget : assocGet session.peer s.authenticated with
  | none => rfl
  | some x =>
    obtain ⟨hpeer, hwhere⟩ := hp.authenticated _ x hget
    have hx : s.present x := by
      rcases hwhere with hx | ⟨phase', hx, -⟩
      · exact .inl hx
      · exact .inr (by rw [hx]; rfl)
    have heq : x = session := hp.unique x session hx (.inr (by rw [hphase]; rfl)) hpeer
    subst heq
    rcases hwhere with hx | ⟨phase', hx, hearly⟩
    · rw [hp.apart x hx] at hphase
      cases hphase
    · rw [hphase] at hx
      cases hx
      rw [hlate] at hearly
      cases hearly

theorem People.setPhase_late {old : TablePhase}
    (hold : assocGet session s.departures = some old) (hlate : old.isEarly = false) :
    People (s.setPhase session phase) := by
  refine hp.setPhase hold ?_ ?_
  · rintro rfl
    cases hlate
  · intro peer hpeer
    have hnot := hp.not_authenticated hold hlate
    rw [isAuthenticated, (hp.authenticated peer session hpeer).1, hpeer] at hnot
    cases hnot

theorem People.connect (hfree : s.isFree peer = true) (n nextState : ℕ) :
    People { s with sessions := ⟨peer, n⟩ :: s.sessions, nextState } := by
  simp only [isFree, Bool.and_eq_true, Bool.not_eq_true', List.any_eq_false, decide_eq_true_eq]
    at hfree
  obtain ⟨hsessions, hdepartures⟩ := hfree
  have hnew : ∀ x, s.present x → x.peer ≠ peer := by
    intro x hx
    rcases hx with hx | hx
    · exact hsessions x hx
    · obtain ⟨phase, hphase⟩ := Option.isSome_iff_exists.mp hx
      exact hdepartures (x, phase) (mem_keys_of_assocGet hphase)
  have hcases : ∀ x, TableState.present
    { s with sessions := ⟨peer, n⟩ :: s.sessions, nextState } x →
      x = ⟨peer, n⟩ ∨ s.present x := by
    intro x hx
    rcases hx with hx | hx
    · exact (List.mem_cons.mp hx).imp_right .inl
    · exact .inr (.inr hx)
  refine ⟨?_, ?_, ?_, ?_, ?_⟩
  · exact List.nodup_cons.mpr ⟨fun hmem => hsessions _ hmem rfl, hp.nodup⟩
  · intro x hx
    rcases List.mem_cons.mp hx with rfl | hx
    · cases hget : assocGet (⟨peer, n⟩ : PeerSession) s.departures with
      | none => rfl
      | some phase => exact absurd rfl (hnew _ (.inr (by rw [hget]; rfl)))
    · exact hp.apart x hx
  · intro x y hx hy hpeer
    rcases hcases x hx with rfl | hx
    · rcases hcases y hy with rfl | hy
      · rfl
      · exact absurd hpeer.symm (hnew y hy)
    · rcases hcases y hy with rfl | hy
      · exact absurd hpeer (hnew x hx)
      · exact hp.unique x y hx hy hpeer
  · intro h hh
    obtain ⟨hg, hacts, hrecipients⟩ := hp.handler h hh
    refine ⟨hg.imp_left (List.mem_cons_of_mem _), hacts, ?_⟩
    intro x hx
    exact ⟨(hrecipients x hx).1.imp_left (List.mem_cons_of_mem _), (hrecipients x hx).2⟩
  · intro p x hx
    obtain ⟨hpeer, hwhere⟩ := hp.authenticated p x hx
    exact ⟨hpeer, hwhere.imp_left (List.mem_cons_of_mem _)⟩

theorem People.finalizeAccept (hh : h ∈ s.handlers)
    (hfresh : s.isAuthenticated h.session.peer = false) :
    People { s with authenticated := assocSet h.session.peer h.session s.authenticated } := by
  have hkeeps : ∀ p x, assocGet p s.authenticated = some x →
      assocGet p (assocSet h.session.peer h.session s.authenticated) = some x := by
    intro p x hx
    rw [assocGet_set_of_ne ?_, hx]
    rintro rfl
    rw [isAuthenticated, hx] at hfresh
    cases hfresh
  refine ⟨hp.nodup, hp.apart, hp.unique, ?_, ?_⟩
  · intro h' hh'
    obtain ⟨hg, hacts, hrecipients⟩ := hp.handler h' hh'
    refine ⟨hg, fun hnot => hkeeps _ _ (hacts hnot), ?_⟩
    intro x hx
    exact ⟨(hrecipients x hx).1, hkeeps _ _ (hrecipients x hx).2⟩
  · intro p x hx
    by_cases heq : p = h.session.peer
    · subst heq
      rw [assocGet_set_self] at hx
      cases hx
      refine ⟨rfl, ?_⟩
      rcases (hp.handler h hh).1 with hg | hg
      · exact .inl hg
      · exact .inr ⟨.draining, hg, rfl⟩
    · rw [assocGet_set_of_ne heq] at hx
      exact hp.authenticated p x hx

theorem People.retire (hopen : session ∈ s.sessions) :
    People { s with
      sessions := s.sessions.erase session
      departures := assocSet session .draining s.departures } := by
  have hget : ∀ x, x ≠ session → assocGet x (assocSet session .draining s.departures) =
      assocGet x s.departures := fun x hx => assocGet_set_of_ne hx _ _
  have hself : assocGet session (assocSet session .draining s.departures) = some .draining :=
    assocGet_set_self _ _ _
  have herase : ∀ x, x ∈ s.sessions.erase session ↔ x ≠ session ∧ x ∈ s.sessions :=
    fun x => hp.nodup.mem_erase_iff
  have hpresent : ∀ x, TableState.present { s with
      sessions := s.sessions.erase session
      departures := assocSet session .draining s.departures } x → s.present x := by
    intro x hx
    by_cases heq : x = session
    · exact .inl (heq ▸ hopen)
    · rcases hx with hx | hx
      · exact .inl ((herase x).mp hx).2
      · exact .inr (by rw [← hget x heq]; exact hx)
  have hguarded : ∀ x, s.guarded x → TableState.guarded { s with
      sessions := s.sessions.erase session
      departures := assocSet session .draining s.departures } x := by
    intro x hx
    by_cases heq : x = session
    · exact .inr (heq ▸ hself)
    · rcases hx with hx | hx
      · exact .inl ((herase x).mpr ⟨heq, hx⟩)
      · exact .inr ((hget x heq).trans hx)
  refine ⟨hp.nodup.erase _, ?_, ?_, ?_, ?_⟩
  · intro x hx
    obtain ⟨hne, hmem⟩ := (herase x).mp hx
    exact (hget x hne).trans (hp.apart x hmem)
  · intro x y hx hy
    exact hp.unique x y (hpresent x hx) (hpresent y hy)
  · intro h hh
    obtain ⟨hg, hacts, hrecipients⟩ := hp.handler h hh
    refine ⟨hguarded _ hg, hacts, ?_⟩
    intro x hx
    exact ⟨hguarded x (hrecipients x hx).1, (hrecipients x hx).2⟩
  · intro p x hx
    obtain ⟨hpeer, hwhere⟩ := hp.authenticated p x hx
    refine ⟨hpeer, ?_⟩
    by_cases heq : x = session
    · exact .inr ⟨.draining, heq ▸ hself, rfl⟩
    · rcases hwhere with hx | ⟨phase, hphase, hearly⟩
      · exact .inl ((herase x).mpr ⟨heq, hx⟩)
      · exact .inr ⟨phase, (hget x heq).trans hphase, hearly⟩

/-- Whoever is guarded has another id than a departure that was drained. -/
theorem People.ne_of_guarded (hx : s.guarded x)
    (hphase : assocGet session s.departures = some phase) (hdrained : phase ≠ .draining) :
    x.peer ≠ session.peer :=
  fun hpeer => hdrained (hp.draining_of_guarded hx hphase hpeer)

theorem People.deauthenticate
    (hphase : assocGet session s.departures = some phase) (hdrained : phase ≠ .draining) :
    People { s with authenticated := assocErase session.peer s.authenticated } := by
  refine ⟨hp.nodup, hp.apart, hp.unique, ?_, ?_⟩
  · intro h hh
    obtain ⟨hg, hacts, hrecipients⟩ := hp.handler h hh
    refine ⟨hg, ?_, ?_⟩
    · intro hnot
      exact (assocGet_erase_of_ne (hp.ne_of_guarded hg hphase hdrained) _).trans (hacts hnot)
    · intro x hx
      obtain ⟨hgx, hget⟩ := hrecipients x hx
      exact ⟨hgx, (assocGet_erase_of_ne (hp.ne_of_guarded hgx hphase hdrained) _).trans hget⟩
  · intro p x hx
    exact hp.authenticated p x (assocGet_of_erase hx)

theorem People.recycle (hphase : assocGet session s.departures = some .recycling)
    (recycled : List PeerId) :
    People { s with departures := assocErase session s.departures, recycled } := by
  have hget : ∀ x, x ≠ session → assocGet x (assocErase session s.departures) =
      assocGet x s.departures := fun x hx => assocGet_erase_of_ne hx _
  have hnone : assocGet session (assocErase session s.departures) = none := assocGet_erase_self _ _
  have hguarded : ∀ x, s.guarded x →
      TableState.guarded { s with departures := assocErase session s.departures, recycled } x := by
    intro x hx
    refine hx.imp_right fun hdraining => ?_
    refine (hget x ?_).trans hdraining
    rintro rfl
    rw [hphase] at hdraining
    cases hdraining
  have hpresent : ∀ x,
      TableState.present { s with departures := assocErase session s.departures, recycled } x →
        s.present x := by
    intro x hx
    refine hx.imp_right fun hx => ?_
    by_cases heq : x = session
    · subst heq
      rw [hnone] at hx
      cases hx
    · rw [← hget x heq]
      exact hx
  refine ⟨hp.nodup, ?_, ?_, ?_, ?_⟩
  · intro x hx
    refine (hget x ?_).trans (hp.apart x hx)
    rintro rfl
    rw [hp.apart x hx] at hphase
    cases hphase
  · intro x y hx hy
    exact hp.unique x y (hpresent x hx) (hpresent y hy)
  · intro h hh
    obtain ⟨hg, hacts, hrecipients⟩ := hp.handler h hh
    refine ⟨hguarded _ hg, hacts, ?_⟩
    intro x hx
    exact ⟨hguarded x (hrecipients x hx).1, (hrecipients x hx).2⟩
  · intro p x hx
    obtain ⟨hpeer, hwhere⟩ := hp.authenticated p x hx
    refine ⟨hpeer, hwhere.imp_right ?_⟩
    rintro ⟨old, hold, hearly⟩
    refine ⟨old, (hget x ?_).trans hold, hearly⟩
    rintro rfl
    rw [hphase] at hold
    cases hold
    cases hearly

end

/-! ### Entries -/

/-- No departure of the id has been through the table. -/
def uncleared (s : TableState) (peer : PeerId) (table : PeerTable) : Prop :=
  ∀ x phase, assocGet x s.departures = some phase → x.peer = peer → phase.cleared table = false

theorem uncleared_of_isCleared (h : s.isCleared peer table = false) : s.uncleared peer table := by
  intro x phase hphase hpeer
  rw [isCleared, List.any_eq_false] at h
  simpa [hpeer] using h (x, phase) (mem_keys_of_assocGet hphase)

theorem People.uncleared (hp : People s) (hx : s.guarded x) (table : PeerTable) :
    s.uncleared x.peer table := by
  intro y phase hphase hpeer
  rw [hp.draining_of_guarded hx hphase hpeer.symm]
  rfl

/-- A departure goes on through tables that the id is not asked about. -/
theorem uncleared.setPhase (h : s.uncleared peer table)
    (hphase : session.peer = peer → phase.cleared table = false) :
    (s.setPhase session phase).uncleared peer table := by
  intro x phase' hx hpeer
  by_cases heq : x = session
  · subst heq
    rw [show assocGet x (s.setPhase x phase).departures = _ from assocGet_set_self _ _ _] at hx
    cases hx
    exact hphase hpeer
  · rw [show assocGet x (s.setPhase session phase).departures = _ from
      assocGet_set_of_ne heq _ _] at hx
    exact h x phase' hx hpeer

structure Marks (s : TableState) : Prop where
  tagged : ∀ table peer e, assocGet (table, peer) s.marks = some e → e = s.era peer
  cleared : ∀ table peer e, assocGet (table, peer) s.marks = some e → s.uncleared peer table
  kinds : ∀ table peer e, assocGet (table, peer) s.marks = some e → table.isVoice = false

theorem Marks.mark (hm : Marks s) (h : s.uncleared peer table) (hkind : table.isVoice = false) :
    Marks (s.mark table peer) := by
  have hcases : ∀ t p e, assocGet (t, p) (s.mark table peer).marks = some e →
      (t = table ∧ p = peer ∧ e = s.era peer) ∨ assocGet (t, p) s.marks = some e := by
    intro t p e he
    by_cases heq : (t, p) = (table, peer)
    · rw [heq, show assocGet (table, peer) (s.mark table peer).marks = _ from
        assocGet_set_self _ _ _] at he
      cases heq
      exact .inl ⟨rfl, rfl, (Option.some.inj he).symm⟩
    · rw [show assocGet (t, p) (s.mark table peer).marks = _ from assocGet_set_of_ne heq _ _] at he
      exact .inr he
  refine ⟨?_, ?_, ?_⟩
  · intro t p e he
    rcases hcases t p e he with ⟨-, rfl, rfl⟩ | he
    · rfl
    · exact hm.tagged t p e he
  · intro t p e he
    rcases hcases t p e he with ⟨rfl, rfl, -⟩ | he
    · exact h
    · exact hm.cleared t p e he
  · intro t p e he
    rcases hcases t p e he with ⟨rfl, -, -⟩ | he
    · exact hkind
    · exact hm.kinds t p e he

theorem Marks.sub (hm : Marks s) (marks : List ((PeerTable × PeerId) × ℕ))
    (hsub : ∀ k e, assocGet k marks = some e → assocGet k s.marks = some e) :
    Marks { s with marks } :=
  ⟨fun t p e he => hm.tagged t p e (hsub _ e he), fun t p e he => hm.cleared t p e (hsub _ e he),
    fun t p e he => hm.kinds t p e (hsub _ e he)⟩

theorem Marks.setPhase (hm : Marks s)
    (hphase : ∀ table e, assocGet (table, session.peer) s.marks = some e →
      phase.cleared table = false) : Marks (s.setPhase session phase) := by
  refine ⟨hm.tagged, ?_, hm.kinds⟩
  intro t p e he
  refine (hm.cleared t p e he).setPhase ?_
  rintro rfl
  exact hphase t e he

theorem assocGet_erase_keys {k : PeerTable × PeerId} {e : ℕ}
    {marks : List ((PeerTable × PeerId) × ℕ)}
    (he : assocGet k (marks.filter fun x => x.1.1 ≠ .permissionRetries) = some e) :
    assocGet k marks = some e := by
  induction marks with
  | nil => cases he
  | cons x marks ih =>
    obtain ⟨j, v⟩ := x
    rw [List.filter_cons] at he
    by_cases hkeep : j.1 ≠ .permissionRetries
    · rw [if_pos (decide_eq_true hkeep), assocGet] at he
      rw [assocGet]
      by_cases hj : j = k
      · rwa [if_pos hj] at he ⊢
      · rw [if_neg hj] at he ⊢
        exact ih he
    · rw [if_neg (by simpa using hkeep)] at he
      rw [assocGet, if_neg ?_]
      · exact ih he
      · rintro rfl
        have hmem := (List.mem_filter.mp (mem_keys_of_assocGet he)).2
        exact hkeep (of_decide_eq_true hmem)

/-- The id has no entries left when it is recycled. -/
theorem Marks.recycle (hm : Marks s) (hphase : assocGet session s.departures = some .recycling) :
    Marks { s with
      departures := assocErase session s.departures
      recycled := s.recycled ++ [session.peer] } := by
  refine ⟨?_, ?_, hm.kinds⟩
  · intro t p e he
    have hne : p ≠ session.peer := by
      rintro rfl
      have := hm.cleared t session.peer e he session .recycling hphase rfl
      cases this
    show e = (s.recycled ++ [session.peer]).count p
    rw [List.count_append, List.count_singleton, if_neg (by simpa using Ne.symm hne), Nat.add_zero]
    exact hm.tagged t p e he
  · intro t p e he x phase hx
    exact hm.cleared t p e he x phase (assocGet_of_erase hx)

/-! ### Recipient lists -/

structure Voices (s : TableState) : Prop where
  alive : ∀ peer l, assocGet peer s.voiceRecipientSessions = some l →
    s.isAuthenticated peer = true ∧ s.uncleared peer .voiceRecipientSessions
  together : ∀ peer l, assocGet peer s.voiceRecipients = some l →
    (∃ ls, assocGet peer s.voiceRecipientSessions = some ls ∧ l = ls.map PeerSession.peer) ∧
      s.uncleared peer .voiceRecipients
  member : ∀ key ls, assocGet key s.voiceRecipientSessions = some ls → ∀ x ∈ ls,
    assocGet x.peer s.authenticated = some x ∨
      ∃ keys, assocGet x s.departures = some (.pruning keys) ∧ key ∈ keys

section

variable (hv : Voices s)
include hv

theorem Voices.finalizeAccept {authenticated : List (PeerId × PeerSession)}
    (hkeeps : ∀ p x, assocGet p s.authenticated = some x → assocGet p authenticated = some x) :
    Voices { s with authenticated } := by
  refine ⟨?_, hv.together, ?_⟩
  · intro p l hl
    obtain ⟨hauth, hun⟩ := hv.alive p l hl
    obtain ⟨x, hx⟩ := Option.isSome_iff_exists.mp hauth
    refine ⟨?_, hun⟩
    show (assocGet p authenticated).isSome = true
    rw [hkeeps p x hx]
    rfl
  · intro k ls hls x hx
    exact (hv.member k ls hls x hx).imp_left (hkeeps _ _)

/-- A departure goes on before it comes to the authenticated peers. -/
theorem Voices.setPhase (hold : ∀ keys, assocGet session s.departures ≠ some (.pruning keys))
    (hrecipients : phase.cleared .voiceRecipients = true →
      assocGet session.peer s.voiceRecipients = none)
    (hsessions : phase.cleared .voiceRecipientSessions = true →
      assocGet session.peer s.voiceRecipientSessions = none) :
    Voices (s.setPhase session phase) := by
  refine ⟨?_, ?_, ?_⟩
  · intro p l hl
    obtain ⟨hauth, hun⟩ := hv.alive p l hl
    refine ⟨hauth, hun.setPhase ?_⟩
    rintro rfl
    by_contra hne
    have hnone := hsessions (eq_true_of_ne_false hne)
    rw [show assocGet session.peer s.voiceRecipientSessions = some l from hl] at hnone
    cases hnone
  · intro p l hl
    obtain ⟨hls, hun⟩ := hv.together p l hl
    refine ⟨hls, hun.setPhase ?_⟩
    rintro rfl
    by_contra hne
    have hnone := hrecipients (eq_true_of_ne_false hne)
    rw [show assocGet session.peer s.voiceRecipients = some l from hl] at hnone
    cases hnone
  · intro k ls hls x hx
    refine (hv.member k ls hls x hx).imp_right ?_
    rintro ⟨keys, hkeys, hmem⟩
    refine ⟨keys, ?_, hmem⟩
    rw [show assocGet x (s.setPhase session phase).departures = _ from assocGet_set_of_ne ?_ _ _]
    · exact hkeys
    · rintro rfl
      exact hold keys hkeys

/-- What is absent once the departure has been through the table. -/
theorem Voices.recipients_none (hphase : assocGet session s.departures = some phase)
    (hcleared : phase.cleared .voiceRecipients = true) :
    assocGet session.peer s.voiceRecipients = none := by
  cases hget : assocGet session.peer s.voiceRecipients with
  | none => rfl
  | some l =>
    rw [(hv.together _ l hget).2 session phase hphase rfl] at hcleared
    cases hcleared

theorem Voices.sessions_none (hphase : assocGet session s.departures = some phase)
    (hcleared : phase.cleared .voiceRecipientSessions = true) :
    assocGet session.peer s.voiceRecipientSessions = none := by
  cases hget : assocGet session.peer s.voiceRecipientSessions with
  | none => rfl
  | some l =>
    rw [(hv.alive _ l hget).2 session phase hphase rfl] at hcleared
    cases hcleared

/-- A list of a peer that is there is replaced, by members that are there. -/
theorem Voices.publish {recipients : List PeerSession} (hauth : s.isAuthenticated peer = true)
    (hrecipients : s.uncleared peer .voiceRecipients)
    (hsessions : s.uncleared peer .voiceRecipientSessions)
    (hmember : ∀ x ∈ recipients, assocGet x.peer s.authenticated = some x ∨
      ∃ keys, assocGet x s.departures = some (.pruning keys) ∧ peer ∈ keys) :
    Voices (s.publish peer recipients) := by
  have hself : assocGet peer (s.publish peer recipients).voiceRecipientSessions = some recipients :=
    assocGet_set_self _ _ _
  have hother : ∀ p, p ≠ peer → assocGet p (s.publish peer recipients).voiceRecipientSessions =
      assocGet p s.voiceRecipientSessions := fun p hp => assocGet_set_of_ne hp _ _
  refine ⟨?_, ?_, ?_⟩
  · intro p l hl
    by_cases heq : p = peer
    · subst heq
      exact ⟨hauth, hsessions⟩
    · rw [hother p heq] at hl
      exact hv.alive p l hl
  · intro p l hl
    by_cases heq : p = peer
    · subst heq
      rw [show assocGet p (s.publish p recipients).voiceRecipients = _ from
        assocGet_set_self _ _ _] at hl
      exact ⟨⟨recipients, hself, (Option.some.inj hl).symm⟩, hrecipients⟩
    · rw [show assocGet p (s.publish peer recipients).voiceRecipients = _ from
        assocGet_set_of_ne heq _ _] at hl
      rw [hother p heq]
      exact hv.together p l hl
  · intro k ls hls x hx
    by_cases heq : k = peer
    · subst heq
      rw [hself] at hls
      cases hls
      exact hmember x hx
    · rw [hother k heq] at hls
      exact hv.member k ls hls x hx

theorem Voices.clearRecipients (peer : PeerId) :
    Voices { s with voiceRecipients := assocErase peer s.voiceRecipients } := by
  refine ⟨hv.alive, ?_, hv.member⟩
  intro p l hl
  exact hv.together p l (assocGet_of_erase hl)

theorem Voices.clearSessions (hnone : assocGet peer s.voiceRecipients = none) :
    Voices { s with voiceRecipientSessions := assocErase peer s.voiceRecipientSessions } := by
  have hsub : ∀ p l, assocGet p (assocErase peer s.voiceRecipientSessions) = some l →
      assocGet p s.voiceRecipientSessions = some l := fun p l hl => assocGet_of_erase hl
  refine ⟨fun p l hl => hv.alive p l (hsub p l hl), ?_, fun k ls hls =>
    hv.member k ls (hsub k ls hls)⟩
  intro p l hl
  obtain ⟨⟨ls, hls, rfl⟩, hun⟩ := hv.together p l hl
  refine ⟨⟨ls, ?_, rfl⟩, hun⟩
  refine (assocGet_erase_of_ne ?_ _).trans hls
  rintro rfl
  rw [hnone] at hl
  cases hl

end

/-- The members of the lists have the session of their id. -/
theorem Voices.member_eq (hp : People s) (hv : Voices s)
    (hphase : assocGet session s.departures = some phase)
    (hls : assocGet key s.voiceRecipientSessions = some ls) (hx : x ∈ ls)
    (hpeer : x.peer = session.peer) : x = session := by
  refine hp.unique x session ?_ (.inr (by rw [hphase]; rfl)) hpeer
  rcases hv.member key ls hls x hx with hauth | ⟨keys, hkeys, -⟩
  · rcases (hp.authenticated _ x hauth).2 with hx | ⟨phase', hx, -⟩
    · exact .inl hx
    · exact .inr (by rw [hx]; rfl)
  · exact .inr (by rw [hkeys]; rfl)

theorem Voices.deauthenticate (hp : People s) (hv : Voices s)
    (hphase : assocGet session s.departures = some .authenticated) :
    Voices { s.setPhase session (if s.isAuthenticated session.peer then
        .pruning (s.voiceRecipientSessions.map Prod.fst) else .recycling) with
      authenticated := assocErase session.peer s.authenticated } := by
  generalize hnext : (if s.isAuthenticated session.peer then
    TablePhase.pruning (s.voiceRecipientSessions.map Prod.fst) else .recycling) = next
  have hrecipients := hv.recipients_none hphase rfl
  have hsessions := hv.sessions_none hphase rfl
  have hset : Voices (s.setPhase session next) :=
    hv.setPhase (fun keys hkeys => by rw [hphase] at hkeys; cases hkeys) (fun _ => hrecipients)
      (fun _ => hsessions)
  refine ⟨?_, hset.together, ?_⟩
  · intro p l hl
    obtain ⟨hauth, hun⟩ := hset.alive p l hl
    refine ⟨?_, hun⟩
    show (assocGet p (assocErase session.peer s.authenticated)).isSome = true
    rw [assocGet_erase_of_ne ?_]
    · exact hauth
    · rintro rfl
      rw [show assocGet session.peer s.voiceRecipientSessions = some l from hl] at hsessions
      cases hsessions
  · intro k ls hls x hx
    by_cases hpeer : x.peer = session.peer
    · -- the leaver itself: it was authenticated, so its departure will visit the list
      have heq := hv.member_eq hp hphase hls hx hpeer
      subst heq
      have hauth : assocGet x.peer s.authenticated = some x := by
        rcases hv.member k ls hls x hx with hauth | ⟨keys, hkeys, -⟩
        · exact hauth
        · rw [hphase] at hkeys
          cases hkeys
      have hnext' : next = .pruning (s.voiceRecipientSessions.map Prod.fst) := by
        rw [← hnext, if_pos]
        rw [isAuthenticated, hauth]
        rfl
      refine .inr ⟨_, (assocGet_set_self _ _ _).trans (congrArg some hnext'), ?_⟩
      exact List.mem_map_of_mem (mem_keys_of_assocGet hls)
    · rcases hset.member k ls hls x hx with hauth | hkeys
      · exact .inl ((assocGet_erase_of_ne hpeer _).trans hauth)
      · exact .inr hkeys

/-- A departure that has cleared its tables moves on: the lists it has not visited are the only
ones with its session. -/
theorem Voices.setLatePhase (hv : Voices s) (hphase : assocGet session s.departures = some phase)
    (hcleared : ∀ table, phase.cleared table = true) {next : TablePhase}
    (hmember : ∀ key ls, assocGet key s.voiceRecipientSessions = some ls → session ∈ ls →
      ∃ keys, next = .pruning keys ∧ key ∈ keys) :
    Voices (s.setPhase session next) := by
  have hrecipients := hv.recipients_none hphase (hcleared _)
  have hsessions := hv.sessions_none hphase (hcleared _)
  refine ⟨?_, ?_, ?_⟩
  · intro p l hl
    obtain ⟨hauth, hun⟩ := hv.alive p l hl
    refine ⟨hauth, hun.setPhase ?_⟩
    rintro rfl
    rw [show assocGet session.peer s.voiceRecipientSessions = some l from hl] at hsessions
    cases hsessions
  · intro p l hl
    obtain ⟨hls, hun⟩ := hv.together p l hl
    refine ⟨hls, hun.setPhase ?_⟩
    rintro rfl
    rw [show assocGet session.peer s.voiceRecipients = some l from hl] at hrecipients
    cases hrecipients
  · intro k ls hls x hx
    by_cases heq : x = session
    · subst heq
      obtain ⟨keys, rfl, hmem⟩ := hmember k ls hls hx
      exact .inr ⟨keys, assocGet_set_self _ _ _, hmem⟩
    · refine (hv.member k ls hls x hx).imp_right ?_
      rintro ⟨keys, hkeys, hmem⟩
      exact ⟨keys, (assocGet_set_of_ne heq _ _).trans hkeys, hmem⟩

theorem Voices.pruneList (hv : Voices s) (peer key : PeerId)
    (hok : (assocGet key s.voiceRecipientSessions).any (fun recipients =>
      recipients.any fun x => x.peer = peer) = true → s.isCleared key .voiceRecipients = false) :
    Voices (s.pruneList peer key) ∧
      ∀ ls, assocGet key (s.pruneList peer key).voiceRecipientSessions = some ls →
        ∀ x ∈ ls, x.peer ≠ peer := by
  unfold TableState.pruneList
  cases hget : assocGet key s.voiceRecipientSessions with
  | none =>
    refine ⟨hv, ?_⟩
    intro ls hls
    rw [hget] at hls
    cases hls
  | some recipients =>
    dsimp only
    by_cases hany : (recipients.any fun session => session.peer = peer) = true
    · rw [if_pos hany]
      obtain ⟨hauth, hun⟩ := hv.alive key recipients hget
      refine ⟨hv.publish hauth ?_ hun ?_, ?_⟩
      · refine uncleared_of_isCleared (hok ?_)
        rw [hget]
        exact hany
      · intro x hx
        exact hv.member key recipients hget x (List.mem_filter.mp hx).1
      · intro ls hls x hx
        rw [show assocGet key (s.publish key _).voiceRecipientSessions = _ from
          assocGet_set_self _ _ _] at hls
        cases hls
        exact of_decide_eq_true (List.mem_filter.mp hx).2
    · rw [if_neg hany]
      refine ⟨hv, ?_⟩
      intro ls hls x hx hpeer
      rw [hget] at hls
      cases hls
      exact hany (List.any_eq_true.mpr ⟨x, hx, decide_eq_true hpeer⟩)

theorem pruneList_frame (s : TableState) (peer key : PeerId) :
    ∃ voiceRecipients voiceRecipientSessions,
      s.pruneList peer key = { s with voiceRecipients, voiceRecipientSessions } ∧
      ∀ k, k ≠ key → assocGet k voiceRecipientSessions = assocGet k s.voiceRecipientSessions := by
  unfold TableState.pruneList
  split
  · exact ⟨_, _, rfl, fun _ _ => rfl⟩
  · split
    · exact ⟨_, _, rfl, fun k hk => assocGet_set_of_ne hk _ _⟩
    · exact ⟨_, _, rfl, fun _ _ => rfl⟩

theorem Voices.recycle (hv : Voices s) (hphase : assocGet session s.departures = some .recycling)
    (recycled : List PeerId) :
    Voices { s with departures := assocErase session s.departures, recycled } := by
  have hback : ∀ x phase, assocGet x (assocErase session s.departures) = some phase →
      assocGet x s.departures = some phase := fun x phase hx => assocGet_of_erase hx
  refine ⟨?_, ?_, ?_⟩
  · intro p l hl
    obtain ⟨hauth, hun⟩ := hv.alive p l hl
    exact ⟨hauth, fun x phase hx => hun x phase (hback x phase hx)⟩
  · intro p l hl
    obtain ⟨hls, hun⟩ := hv.together p l hl
    exact ⟨hls, fun x phase hx => hun x phase (hback x phase hx)⟩
  · intro k ls hls x hx
    refine (hv.member k ls hls x hx).imp_right ?_
    rintro ⟨keys, hkeys, hmem⟩
    refine ⟨keys, (assocGet_erase_of_ne ?_ _).trans hkeys, hmem⟩
    rintro rfl
    rw [hphase] at hkeys
    cases hkeys

/-! ### Every step -/

structure TableInv (s : TableState) : Prop where
  people : People s
  marks : Marks s
  voices : Voices s

section

variable (hinv : TableInv s)
include hinv

/-- The tables do not depend on who is connected or running. -/
theorem TableInv.people_changed {sessions : List PeerSession}
    {handlers : List TableHandler} {retrying : List PeerId} {nextState : ℕ}
    (hp : People { s with sessions, handlers, retrying, nextState }) :
    TableInv { s with sessions, handlers, retrying, nextState } :=
  ⟨hp, ⟨hinv.marks.tagged, hinv.marks.cleared, hinv.marks.kinds⟩,
    ⟨hinv.voices.alive, hinv.voices.together, hinv.voices.member⟩⟩

theorem TableInv.mark (h : s.uncleared peer table)
    (hkind : table.isVoice = false) : TableInv (s.mark table peer) :=
  ⟨⟨hinv.people.nodup, hinv.people.apart, hinv.people.unique, hinv.people.handler,
      hinv.people.authenticated⟩, hinv.marks.mark h hkind,
    ⟨hinv.voices.alive, hinv.voices.together, hinv.voices.member⟩⟩

theorem TableInv.voices_changed {voiceRecipients : List (PeerId × List PeerId)}
    {voiceRecipientSessions : List (PeerId × List PeerSession)}
    (hv : Voices { s with voiceRecipients, voiceRecipientSessions }) :
    TableInv { s with voiceRecipients, voiceRecipientSessions } :=
  ⟨⟨hinv.people.nodup, hinv.people.apart, hinv.people.unique, hinv.people.handler,
      hinv.people.authenticated⟩, ⟨hinv.marks.tagged, hinv.marks.cleared, hinv.marks.kinds⟩, hv⟩

theorem TableInv.marks_sub (marks : List ((PeerTable × PeerId) × ℕ))
    (hsub : ∀ k e, assocGet k marks = some e → assocGet k s.marks = some e) :
    TableInv { s with marks } :=
  ⟨⟨hinv.people.nodup, hinv.people.apart, hinv.people.unique, hinv.people.handler,
      hinv.people.authenticated⟩, hinv.marks.sub marks hsub,
    ⟨hinv.voices.alive, hinv.voices.together, hinv.voices.member⟩⟩

theorem TableInv.unmark (table : PeerTable) (peer : PeerId) : TableInv (s.unmark table peer) :=
  hinv.marks_sub _ fun _ _ he => assocGet_of_erase he

theorem TableInv.retrying_changed (retrying : List PeerId) : TableInv { s with retrying } :=
  hinv.people_changed ⟨hinv.people.nodup, hinv.people.apart, hinv.people.unique,
    hinv.people.handler, hinv.people.authenticated⟩

theorem TableInv.setHandler (hnew : s.guarded h.session ∧
      (h.accepting = false → assocGet h.session.peer s.authenticated = some h.session) ∧
      ∀ x ∈ h.recipients, s.guarded x ∧ assocGet x.peer s.authenticated = some x) :
    TableInv (s.setHandler i h) :=
  hinv.people_changed (hinv.people.setHandler hnew)

theorem TableInv.newHandler {accepting : Bool} (hopen : session ∈ s.sessions)
    (hacts : accepting = false → assocGet session.peer s.authenticated = some session) :
    TableInv { s with handlers := s.handlers ++ [⟨session, accepting, [], none⟩] } := by
  refine hinv.people_changed (hinv.people.handlers _ ?_)
  intro h hh
  rcases List.mem_append.mp hh with hh | hh
  · exact hinv.people.handler h hh
  · rw [List.mem_singleton.mp hh]
    exact ⟨.inl hopen, hacts, nofun⟩

end

/-- The authenticated session of the id of an open session is that session. -/
theorem People.authenticated_of_open (hp : People s) (hopen : session ∈ s.sessions)
    (hauth : s.isAuthenticated session.peer = true) :
    assocGet session.peer s.authenticated = some session := by
  obtain ⟨x, hx⟩ := Option.isSome_iff_exists.mp hauth
  obtain ⟨hpeer, hwhere⟩ := hp.authenticated _ x hx
  have hpresent : s.present x := by
    rcases hwhere with hx | ⟨phase, hx, -⟩
    · exact .inl hx
    · exact .inr (by rw [hx]; rfl)
  rw [hx, hp.unique x session hpresent (.inl hopen) hpeer]

theorem TableInv.finalizeAccept (hinv : TableInv s) (hh : s.handlers[i]? = some h)
    (hfresh : s.isAuthenticated h.session.peer = false) :
    TableInv { s.setHandler i { h with accepting := false } with
      authenticated := assocSet h.session.peer h.session s.authenticated } := by
  have hmem := List.mem_of_getElem? hh
  have hkeeps : ∀ p x, assocGet p s.authenticated = some x →
      assocGet p (assocSet h.session.peer h.session s.authenticated) = some x := by
    intro p x hx
    rw [assocGet_set_of_ne ?_, hx]
    rintro rfl
    rw [isAuthenticated, hx] at hfresh
    cases hfresh
  have haccept : TableInv { s with
      authenticated := assocSet h.session.peer h.session s.authenticated } :=
    ⟨hinv.people.finalizeAccept hmem hfresh,
      ⟨hinv.marks.tagged, hinv.marks.cleared, hinv.marks.kinds⟩, hinv.voices.finalizeAccept hkeeps⟩
  refine haccept.setHandler (h := { h with accepting := false }) ?_
  obtain ⟨hg, -, hrecipients⟩ := haccept.people.handler h hmem
  exact ⟨hg, fun _ => assocGet_set_self _ _ _, hrecipients⟩

theorem TableInv.install (hinv : TableInv s) (hh : s.handlers[i]? = some h)
    (hacts : h.accepting = false) :
    TableInv
      ((s.publish h.session.peer h.recipients).setHandler i { h with recipients := [] }) := by
  have hmem := List.mem_of_getElem? hh
  obtain ⟨hg, hauth, hrecipients⟩ := hinv.people.handler h hmem
  have hpublish : TableInv (s.publish h.session.peer h.recipients) := by
    refine hinv.voices_changed
      (hinv.voices.publish ?_ (hinv.people.uncleared hg _) (hinv.people.uncleared hg _)
      ?_)
    · rw [isAuthenticated, hauth hacts]
      rfl
    · intro x hx
      exact .inl (hrecipients x hx).2
  refine hpublish.setHandler (h := { h with recipients := [] }) ?_
  exact ⟨hg, hauth, nofun⟩

theorem TableInv.retire (hinv : TableInv s) (hopen : session ∈ s.sessions) :
    TableInv { s with
      sessions := s.sessions.erase session
      departures := assocSet session .draining s.departures } := by
  have hold : assocGet session s.departures = none := hinv.people.apart session hopen
  have hmarks : Marks (s.setPhase session .draining) := hinv.marks.setPhase fun _ _ _ => rfl
  have hvoices : Voices (s.setPhase session .draining) := by
    refine hinv.voices.setPhase ?_ nofun nofun
    intro keys hkeys
    rw [hold] at hkeys
    cases hkeys
  exact ⟨hinv.people.retire hopen, ⟨hmarks.tagged, hmarks.cleared, hmarks.kinds⟩,
    ⟨hvoices.alive, hvoices.together, hvoices.member⟩⟩

/-! ### A departure -/

theorem TableInv.drained (hinv : TableInv s)
    (hphase : assocGet session s.departures = some .draining) (hleased : s.leased session = false) :
    TableInv (s.setPhase session (.clearing .queries)) := by
  have hrank : ∀ table, (TablePhase.clearing .queries).cleared table = false := by
    intro table
    cases table <;> rfl
  refine ⟨hinv.people.setPhase hphase (fun _ => hleased) (fun _ _ => rfl),
    hinv.marks.setPhase fun table _ _ => hrank table, hinv.voices.setPhase ?_ ?_ ?_⟩
  · intro keys hkeys
    rw [hphase] at hkeys
    cases hkeys
  · intro h
    rw [hrank] at h
    cases h
  · intro h
    rw [hrank] at h
    cases h

theorem clear_departures (s : TableState) (peer : PeerId) (table : PeerTable) :
    (s.clear peer table).departures = s.departures := by
  cases table <;> rfl

theorem TableInv.clear (hinv : TableInv s)
    (hphase : assocGet session s.departures = some (.clearing table)) :
    TableInv (s.clear session.peer table) := by
  have hunmark := hinv.unmark table session.peer
  cases table with
  | voiceRecipients => exact hinv.voices_changed (hinv.voices.clearRecipients session.peer)
  | voiceRecipientSessions =>
    exact hinv.voices_changed
      (hinv.voices.clearSessions (hinv.voices.recipients_none hphase rfl))
  | _ => exact hunmark

/-- What the table held for the id is gone. -/
theorem clear_marks (hm : Marks s) (peer : PeerId) (table : PeerTable) {e : ℕ} :
    assocGet (table, peer) (s.clear peer table).marks ≠ some e := by
  intro he
  by_cases hvoice : table.isVoice = true
  · have hsame : (s.clear peer table).marks = s.marks := by
      cases table <;> first | rfl | cases hvoice
    rw [hsame] at he
    rw [hm.kinds _ _ _ he] at hvoice
    cases hvoice
  · have hsame : (s.clear peer table).marks = assocErase (table, peer) s.marks := by
      cases table <;> first | rfl | exact absurd rfl hvoice
    rw [hsame, assocGet_erase_self] at he
    cases he

theorem TableInv.clearNext (hinv : TableInv s)
    (hphase : assocGet session s.departures = some (.clearing table)) :
    TableInv ((s.clear session.peer table).setPhase session table.after) := by
  have hclear := hinv.clear hphase
  have hphase' : assocGet session (s.clear session.peer table).departures =
      some (.clearing table) := by
    rw [clear_departures]
    exact hphase
  have hafter : ∀ other, table.after.cleared other = true →
      (TablePhase.clearing table).cleared other = true ∨ other = table := by
    intro other h
    rw [PeerTable.cleared_after, Bool.or_eq_true, decide_eq_true_eq] at h
    exact h
  refine ⟨hclear.people.setPhase hphase' nofun (fun _ _ => table.isEarly_after),
    hclear.marks.setPhase ?_, hclear.voices.setPhase ?_ ?_ ?_⟩
  · intro other e he
    by_contra hne
    rcases hafter other (eq_true_of_ne_false hne) with hcleared | rfl
    · rw [hclear.marks.cleared other _ e he session _ hphase' rfl] at hcleared
      cases hcleared
    · exact clear_marks hinv.marks _ _ he
  · intro keys hkeys
    rw [hphase'] at hkeys
    cases hkeys
  · intro h
    rcases hafter _ h with hcleared | rfl
    · exact hclear.voices.recipients_none hphase' hcleared
    · exact assocGet_erase_self _ _
  · intro h
    rcases hafter _ h with hcleared | rfl
    · exact hclear.voices.sessions_none hphase' hcleared
    · exact assocGet_erase_self _ _

theorem TableInv.deauthenticate (hinv : TableInv s)
    (hphase : assocGet session s.departures = some .authenticated) :
    TableInv { s.setPhase session (if s.isAuthenticated session.peer then
        .pruning (s.voiceRecipientSessions.map Prod.fst) else .recycling) with
      authenticated := assocErase session.peer s.authenticated } := by
  generalize hnext : (if s.isAuthenticated session.peer then
    TablePhase.pruning (s.voiceRecipientSessions.map Prod.fst) else .recycling) = next
  have hpeople : People { s with authenticated := assocErase session.peer s.authenticated } :=
    hinv.people.deauthenticate hphase nofun
  have hpeople' : People (TableState.setPhase
      { s with authenticated := assocErase session.peer s.authenticated } session next) := by
    refine hpeople.setPhase hphase nofun ?_
    intro peer hpeer
    have hown := (hpeople.authenticated peer session hpeer).1
    subst hown
    rw [assocGet_erase_self] at hpeer
    cases hpeer
  have hmarks : Marks (s.setPhase session next) := by
    refine hinv.marks.setPhase ?_
    intro table e he
    have hfalse := hinv.marks.cleared table _ e he session _ hphase rfl
    cases hfalse
  have hvoices := hinv.voices.deauthenticate hinv.people hphase
  rw [hnext] at hvoices
  exact ⟨hpeople', ⟨hmarks.tagged, hmarks.cleared, hmarks.kinds⟩, hvoices⟩

theorem TableInv.setLatePhase (hinv : TableInv s)
    (hphase : assocGet session s.departures = some phase) (hlate : phase.isEarly = false)
    (hcleared : ∀ table, phase.cleared table = true) {next : TablePhase}
    (hmember : ∀ key ls, assocGet key s.voiceRecipientSessions = some ls → session ∈ ls →
      ∃ keys, next = .pruning keys ∧ key ∈ keys) : TableInv (s.setPhase session next) := by
  refine ⟨hinv.people.setPhase_late hphase hlate, hinv.marks.setPhase ?_,
    hinv.voices.setLatePhase hphase hcleared hmember⟩
  intro table e he
  have hfalse := hinv.marks.cleared table _ e he session _ hphase rfl
  rw [hcleared] at hfalse
  cases hfalse

/-- The lists with the session of a pruning departure are those it has not visited. -/
theorem Voices.unvisited (hp : People s) (hv : Voices s) {keys : List PeerId}
    (hphase : assocGet session s.departures = some (.pruning keys))
    (hls : assocGet key s.voiceRecipientSessions = some ls) (hx : session ∈ ls) : key ∈ keys := by
  rcases hv.member key ls hls session hx with hauth | ⟨keys', hkeys, hmem⟩
  · have hnot := hp.not_authenticated hphase rfl
    rw [isAuthenticated, hauth] at hnot
    cases hnot
  · rw [hphase] at hkeys
    cases hkeys
    exact hmem

theorem TableInv.prune (hinv : TableInv s) {keys : List PeerId}
    (hphase : assocGet session s.departures = some (.pruning keys))
    (hok : Prompt s (.prune session key)) :
    TableInv ((s.pruneList session.peer key).setPhase session
      (.pruning (keys.filter fun k => k ≠ key))) := by
  obtain ⟨hvoices, hgone⟩ := hinv.voices.pruneList session.peer key hok
  obtain ⟨voiceRecipients, voiceRecipientSessions, heq, hother⟩ :=
    pruneList_frame s session.peer key
  rw [heq] at hvoices hgone ⊢
  refine (hinv.voices_changed hvoices).setLatePhase hphase rfl (fun _ => rfl) ?_
  intro k ls hls hx
  refine ⟨_, rfl, ?_⟩
  have hne : k ≠ key := by
    rintro rfl
    exact hgone ls hls session hx rfl
  refine List.mem_filter.mpr ⟨?_, decide_eq_true hne⟩
  rw [show assocGet k voiceRecipientSessions = _ from hother k hne] at hls
  exact hinv.voices.unvisited hinv.people hphase hls hx

theorem TableInv.handleDisconnect (hinv : TableInv s)
    (hphase : assocGet session s.departures = some phase)
    (hstep : s.handleDisconnect session phase = some s') : TableInv s' := by
  cases phase with
  | draining =>
    simp only [TableState.handleDisconnect] at hstep
    split at hstep
    · cases hstep
    · rename_i hleased
      cases hstep
      exact hinv.drained hphase (eq_false_of_ne_true hleased)
  | clearing table =>
    cases hstep
    exact hinv.clearNext hphase
  | authenticated =>
    cases hstep
    exact hinv.deauthenticate hphase
  | pruning keys =>
    simp only [TableState.handleDisconnect] at hstep
    split at hstep
    · rename_i hempty
      cases hstep
      refine hinv.setLatePhase hphase rfl (fun _ => rfl) ?_
      intro k ls hls hx
      have hmem := hinv.voices.unvisited hinv.people hphase hls hx
      rw [List.isEmpty_iff.mp hempty] at hmem
      cases hmem
    · cases hstep
  | recycling =>
    cases hstep
    have hmarks := hinv.marks.recycle hphase
    exact ⟨hinv.people.recycle hphase _, hmarks, hinv.voices.recycle hphase _⟩

theorem TableInv.step (hinv : TableInv s) (hok : Prompt s a) (hstep : s.step a = some s') :
    TableInv s' := by
  cases a with simp only [TableState.step] at hstep
  | connect peer =>
    split at hstep
    · rename_i hfree
      cases hstep
      exact hinv.people_changed (hinv.people.connect hfree _ _)
    · cases hstep
  | accept session =>
    split at hstep
    · rename_i hopen
      cases hstep
      exact hinv.newHandler hopen nofun
    · cases hstep
  | finalizeAccept i =>
    split at hstep
    · cases hstep
    · rename_i h hh
      split at hstep
      · rename_i hcond
        cases hstep
        rw [Bool.and_eq_true, Bool.not_eq_true'] at hcond
        exact hinv.finalizeAccept hh hcond.2
      · cases hstep
  | handle session =>
    split at hstep
    · rename_i hcond
      cases hstep
      rw [Bool.and_eq_true, decide_eq_true_eq] at hcond
      exact hinv.newHandler hcond.1 fun _ => hinv.people.authenticated_of_open hcond.1 hcond.2
    · cases hstep
  | write i table =>
    split at hstep
    · cases hstep
    · rename_i h hh
      split at hstep
      · rename_i hcond
        cases hstep
        rw [Bool.and_eq_true] at hcond
        have hg := (hinv.people.handler h (List.mem_of_getElem? hh)).1
        refine hinv.mark (hinv.people.uncleared hg table) ?_
        cases table <;> first | rfl | cases hcond.1
      · cases hstep
  | lookUpTarget i set target =>
    split at hstep
    · cases hstep
    · rename_i h hh
      split at hstep
      · cases hstep
        exact hinv.setHandler (hinv.people.handler h (List.mem_of_getElem? hh))
      · cases hstep
  | setTarget i enabled =>
    split at hstep
    · cases hstep
    · rename_i h hh
      split at hstep
      · cases hstep
      · rename_i set target hpending
        have hset : TableInv (s.setHandler i { h with pending := none }) :=
          hinv.setHandler (hinv.people.handler h (List.mem_of_getElem? hh))
        cases hstep
        cases enabled with
        | true =>
          refine hset.mark (uncleared_of_isCleared (hok rfl h hh (set, target) hpending)) ?_
          cases set <;> rfl
        | false => exact hset.unmark set.table target
  | leaseRecipient i id =>
    split at hstep
    · cases hstep
    · rename_i h hh
      split at hstep
      · cases hstep
      · rename_i recipient hrecipient
        split at hstep
        · rename_i hcond
          cases hstep
          simp only [Bool.and_eq_true, decide_eq_true_eq] at hcond
          obtain ⟨hg, hacts, hrecipients⟩ := hinv.people.handler h (List.mem_of_getElem? hh)
          refine hinv.setHandler ⟨hg, hacts, ?_⟩
          intro x hx
          rcases List.mem_append.mp hx with hx | hx
          · exact hrecipients x hx
          · rw [List.mem_singleton.mp hx]
            refine ⟨.inl hcond.1.2, ?_⟩
            rw [(hinv.people.authenticated id recipient hrecipient).1]
            exact hrecipient
        · cases hstep
  | installVoiceRecipients i =>
    split at hstep
    · cases hstep
    · rename_i h hh
      split at hstep
      · cases hstep
      · rename_i hacts
        cases hstep
        exact hinv.install hh (eq_false_of_ne_true hacts)
  | finish i =>
    split at hstep
    · cases hstep
    · split at hstep
      · cases hstep
        refine hinv.people_changed (hinv.people.handlers _ ?_)
        intro h hh
        exact hinv.people.handler h (List.mem_of_mem_eraseIdx hh)
      · cases hstep
  | lookUpRetry target =>
    split at hstep
    · cases hstep
      exact hinv.retrying_changed _
    · cases hstep
  | retry target =>
    split at hstep
    · cases hstep
      exact (hinv.mark (uncleared_of_isCleared hok) rfl).retrying_changed _
    · cases hstep
  | takeRetries =>
    cases hstep
    exact hinv.marks_sub _ fun k e he => assocGet_erase_keys he
  | retire session =>
    split at hstep
    · rename_i hopen
      cases hstep
      exact hinv.retire hopen
    · cases hstep
  | depart session =>
    obtain ⟨phase, hphase, hdisconnect⟩ := Option.bind_eq_some_iff.mp hstep
    exact hinv.handleDisconnect hphase hdisconnect
  | prune session key =>
    split at hstep
    · rename_i keys hphase
      cases hstep
      exact hinv.prune hphase hok
    · cases hstep

theorem TableInv.empty : TableInv empty := by
  have hnone : ∀ x : PeerSession, ¬ TableState.empty.present x := by
    intro x hx
    rcases hx with hx | hx
    · cases hx
    · cases hx
  exact ⟨⟨List.nodup_nil, fun x hx => (nomatch hx), fun x y hx => absurd hx (hnone x),
      fun h hh => (nomatch hh), fun p x hx => (nomatch hx)⟩,
    ⟨fun t p e he => (nomatch he), fun t p e he => (nomatch he), fun t p e he => (nomatch he)⟩,
    ⟨fun p l hl => (nomatch hl), fun p l hl => (nomatch hl), fun k ls hls => (nomatch hls)⟩⟩

theorem tableInv_of_reachable (hr : Reachable system Prompt s) : TableInv s := by
  refine hr.invariant TableInv ?_ ?_
  · intro s hs
    rw [show s = TableState.empty from hs]
    exact .empty
  · intro s a s' hinv hok hstep
    exact hinv.step hok hstep

/-! ### The next session of an id -/

/-- What the lists hold is of sessions that have their id. -/
theorem TableInv.present_of_member (hinv : TableInv s)
    (hls : assocGet key s.voiceRecipientSessions = some ls) (hx : x ∈ ls) : s.present x := by
  rcases hinv.voices.member key ls hls x hx with hauth | ⟨keys, hkeys, -⟩
  · rcases (hinv.people.authenticated _ x hauth).2 with hx | ⟨phase, hphase, -⟩
    · exact .inl hx
    · exact .inr (by rw [hphase]; rfl)
  · exact .inr (by rw [hkeys]; rfl)

/-- A session that has its id and is not authenticated finds nothing in the tables. -/
theorem TableInv.clean (hinv : TableInv s) (hg : s.guarded x)
    (hfresh : s.isAuthenticated x.peer = false) : s.Clean x.peer := by
  have hsessions : assocGet x.peer s.voiceRecipientSessions = none := by
    cases hget : assocGet x.peer s.voiceRecipientSessions with
    | none => rfl
    | some l =>
      rw [(hinv.voices.alive _ l hget).1] at hfresh
      cases hfresh
  have hmember : ∀ key l, assocGet key s.voiceRecipientSessions = some l →
      ∀ y ∈ l, y.peer ≠ x.peer := by
    intro key l hl y hy hpeer
    have heq : y = x := hinv.people.unique y x (hinv.present_of_member hl hy) hg.present hpeer
    subst heq
    rcases hinv.voices.member key l hl y hy with hauth | ⟨keys, hkeys, -⟩
    · rw [isAuthenticated, hauth] at hfresh
      cases hfresh
    · cases hinv.people.draining_of_guarded hg hkeys rfl
  refine ⟨?_, ?_, hsessions, ?_, hmember⟩
  · intro table e he
    exact hinv.marks.tagged table _ e he
  · cases hget : assocGet x.peer s.voiceRecipients with
    | none => rfl
    | some l =>
      obtain ⟨⟨ls, hls, -⟩, -⟩ := hinv.voices.together _ l hget
      rw [hsessions] at hls
      cases hls
  · intro key l hl hmem
    obtain ⟨⟨ls, hls, rfl⟩, -⟩ := hinv.voices.together key l hl
    obtain ⟨y, hy, hpeer⟩ := List.mem_map.mp hmem
    exact hmember key ls hls y hy hpeer

/-- **A reused id inherits nothing.**  In every run in which nothing is put into a table after the
departure of the id has been through it, a session that is inserted into the authenticated peers
finds no entry for its id that is older than the last recycling of the id. -/
theorem reused_id_inherits_nothing (hr : Reachable system Prompt s)
    (hh : s.handlers[i]? = some h) (hstep : s.step (.finalizeAccept i) = some s') :
    s.Clean h.session.peer := by
  have hinv := tableInv_of_reachable hr
  have hfresh : s.isAuthenticated h.session.peer = false := by
    simp only [TableState.step, hh] at hstep
    split at hstep
    · rename_i hcond
      rw [Bool.and_eq_true, Bool.not_eq_true'] at hcond
      exact hcond.2
    · cases hstep
  exact hinv.clean (hinv.people.handler h (List.mem_of_getElem? hh)).1 hfresh

/-- `n` steps of the departure of a session. -/
def departing (session : PeerSession) (n : ℕ) : List Action := List.replicate n (.depart session)

/-- A session with entries of its own, a recipient list and a place in another one leaves; its id is
given to a new session. -/
def orderlyReuse : List Action :=
  [.connect 1, .accept ⟨1, 0⟩, .finalizeAccept 0, .connect 2, .accept ⟨2, 1⟩, .finalizeAccept 1,
    .write 1 .netIds, .lookUpTarget 0 .announcing 2, .setTarget 0 true, .leaseRecipient 0 2,
    .installVoiceRecipients 0, .leaseRecipient 1 1, .installVoiceRecipients 1, .finish 1,
    .retire ⟨2, 1⟩] ++ departing ⟨2, 1⟩ 13 ++ [.prune ⟨2, 1⟩ 1] ++ departing ⟨2, 1⟩ 2 ++
    [.connect 2, .accept ⟨2, 2⟩]

theorem reused_id_inherits_nothing_orderly :
    ∃ s h s', Reachable system Prompt s ∧ s.recycled = [2] ∧ s.handlers[1]? = some h ∧
      h.session = ⟨2, 2⟩ ∧ s.step (.finalizeAccept 1) = some s' ∧ s.Clean 2 := by
  have hrun : (runActions system empty orderlyReuse).any (fun s =>
      decide (s.recycled = [2] ∧ s.handlers[1]? = some ⟨⟨2, 2⟩, true, [], none⟩ ∧
        (s.step (.finalizeAccept 1)).isSome = true)) = true := by
    decide +kernel
  have hok : Admits system Prompt empty orderlyReuse := by decide +kernel
  obtain ⟨s, hs, hP⟩ := exists_reachable_of_run Prompt hok (.init rfl) hrun
  obtain ⟨hrecycled, hh, hsome⟩ := of_decide_eq_true hP
  obtain ⟨s', hstep⟩ := Option.isSome_iff_exists.mp hsome
  exact ⟨s, _, s', hs, hrecycled, hh, rfl, hstep, reused_id_inherits_nothing hs hh hstep⟩

/-- An administrator makes peer 2 announce, after `remove_peer` and before it is taken out of the
authenticated peers. -/
def lateAnnounceRun : List Action :=
  [.connect 1, .accept ⟨1, 0⟩, .finalizeAccept 0, .connect 2, .accept ⟨2, 1⟩, .finalizeAccept 1,
    .finish 1, .retire ⟨2, 1⟩] ++ departing ⟨2, 1⟩ 4 ++
    [.lookUpTarget 0 .announcing 2, .setTarget 0 true] ++ departing ⟨2, 1⟩ 9 ++
    [.prune ⟨2, 1⟩ 1] ++ departing ⟨2, 1⟩ 2 ++ [.connect 2, .accept ⟨2, 2⟩]

/-- Peer 1 has peer 2 as a recipient and both leave.  The departure of 2 visits the list of 1
between the two removals of 1. -/
def rewrittenListRun : List Action :=
  [.connect 1, .accept ⟨1, 0⟩, .finalizeAccept 0, .connect 2, .accept ⟨2, 1⟩, .finalizeAccept 1,
    .leaseRecipient 0 2, .installVoiceRecipients 0, .finish 1, .finish 0, .retire ⟨1, 0⟩,
    .retire ⟨2, 1⟩] ++ departing ⟨2, 1⟩ 13 ++ departing ⟨1, 0⟩ 7 ++ [.prune ⟨2, 1⟩ 1] ++
    departing ⟨1, 0⟩ 8 ++ [.connect 1, .accept ⟨1, 2⟩]

/-- Neither the sets of the administrators nor the recipient lists are clean for the next session
of an id. -/
theorem reused_id_inherits :
    (¬ ∀ s i h s', Reachable system (fun _ _ => True) s → s.handlers[i]? = some h →
      s.step (.finalizeAccept i) = some s' →
      ∀ table e, assocGet (table, h.session.peer) s.marks = some e → e = s.era h.session.peer) ∧
    ¬ ∀ s i h s', Reachable system (fun _ _ => True) s → s.handlers[i]? = some h →
      s.step (.finalizeAccept i) = some s' → assocGet h.session.peer s.voiceRecipients = none := by
  constructor
  · have hrun : (runActions system empty lateAnnounceRun).any (fun s =>
        decide (s.handlers[1]? = some ⟨⟨2, 2⟩, true, [], none⟩ ∧
          (s.step (.finalizeAccept 1)).isSome = true ∧
          assocGet (.announcing, 2) s.marks = some 0 ∧ s.era 2 = 1)) = true := by
      decide +kernel
    obtain ⟨s, hs, hP⟩ := exists_reachable_of_free_run (.init rfl) hrun
    obtain ⟨hh, hsome, hmark, hera⟩ := of_decide_eq_true hP
    obtain ⟨s', hstep⟩ := Option.isSome_iff_exists.mp hsome
    intro hall
    have hcurrent : 0 = s.era 2 := hall s 1 _ s' hs hh hstep _ 0 hmark
    rw [hera] at hcurrent
    cases hcurrent
  · have hrun : (runActions system empty rewrittenListRun).any (fun s =>
        decide (s.handlers[0]? = some ⟨⟨1, 2⟩, true, [], none⟩ ∧
          (s.step (.finalizeAccept 0)).isSome = true ∧
          assocGet 1 s.voiceRecipients = some [])) = true := by
      decide +kernel
    obtain ⟨s, hs, hP⟩ := exists_reachable_of_free_run (.init rfl) hrun
    obtain ⟨hh, hsome, hlist⟩ := of_decide_eq_true hP
    obtain ⟨s', hstep⟩ := Option.isSome_iff_exists.mp hsome
    intro hall
    have hnone : assocGet 1 s.voiceRecipients = none := hall s 0 _ s' hs hh hstep
    rw [hlist] at hnone
    cases hnone

end TableState

end BasisRust.Server
