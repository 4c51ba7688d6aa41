import BasisRust.Server.PermissionViews

/-!
# Peers are told the permissions they have

A peer has been told the rules that the store gives it, or a message to it is still due: a change
that concerns it is noted, or it is among the retries, or the synchronisation is on its way to it.
-/

namespace BasisRust.Server.Views

open Library Permissions

variable {casing : Casing} {reader : XmlReader} {s s' : State} {j : ℕ} {rules : Rules} {a : Action}

/-! ### The connections after a step -/

variable {i : ℕ} {f : Connection → Connection} {c : Connection}

theorem getElem?_change (h : (s.change i f).connections[j]? = some c) :
    (i = j ∧ ∃ d, s.connections[j]? = some d ∧ c = f d) ∨ (i ≠ j ∧ s.connections[j]? = some c) := by
  rw [State.change, List.getElem?_modify] at h
  obtain ⟨d, hd, hc⟩ := Option.map_eq_some_iff.mp h
  by_cases hij : i = j
  · rw [if_pos hij] at hc
    exact .inl ⟨hij, d, hd, hc.symm⟩
  · rw [if_neg hij] at hc
    exact .inr ⟨hij, hc ▸ hd⟩

variable {peer : ℕ}

theorem onlineAt_some (h : s.onlineAt peer = some i) :
    ∃ c, s.connections[i]? = some c ∧ c.peer = peer ∧ c.stage = .online := by
  obtain ⟨hi, hc, -⟩ := List.findIdx?_eq_some_iff_getElem.mp h
  exact ⟨_, List.getElem?_eq_getElem hi, of_decide_eq_true hc⟩

theorem onlineAt_none (h : s.onlineAt peer = none)
    (hc : s.connections[i]? = some c) (honline : c.stage = .online) : c.peer ≠ peer := by
  intro hpeer
  have hnone := List.findIdx?_eq_none_iff.mp h c (List.mem_of_getElem? hc)
  rw [decide_eq_false_iff_not] at hnone
  exact hnone ⟨hpeer, honline⟩

/-! ### Ids -/

/-- The peer has not been taken out of the map of the authenticated peers. -/
def Stage.isLive : Stage → Bool
  | .online | .closed | .cleaning => true
  | .unauthenticated | .recycled => false

/-- A registered peer is in the map, and no two connections have an id at a time. -/
structure Placed (s : State) : Prop where
  owner : ∀ (i : ℕ) (c : Connection), s.connections[i]? = some c → c.accept.isRegistered = true →
    c.stage.isLive = true →
    assocGet c.peer s.authenticated = some i
  unique : ∀ (i j : ℕ) (c d : Connection), s.connections[i]? = some c → s.connections[j]? = some d →
    c.stage ≠ .recycled →
    d.stage ≠ .recycled → c.peer = d.peer → i = j

/-- A change of a connection that does not register it, nor bring it back. -/
structure Onward (c c' : Connection) : Prop where
  peer : c'.peer = c.peer
  uuid : c'.uuid = c.uuid
  registered : c'.accept.isRegistered = true → c.accept.isRegistered = true
  live : c'.stage.isLive = true → c.stage.isLive = true
  held : c'.stage ≠ .recycled → c.stage ≠ .recycled

theorem Placed.of_same (h : Placed s) (hconnections : s'.connections = s.connections)
    (hauthenticated : s'.authenticated = s.authenticated) : Placed s' := by
  constructor
  · rw [hconnections, hauthenticated]
    exact h.owner
  · rw [hconnections]
    exact h.unique

theorem Placed.unique_change (h : Placed s)
    (hpeer : ∀ c, s.connections[i]? = some c → (f c).peer = c.peer)
    (hheld : ∀ c, s.connections[i]? = some c → (f c).stage ≠ .recycled → c.stage ≠ .recycled) :
    ∀ (j k : ℕ) (c d : Connection), (s.change i f).connections[j]? = some c →
      (s.change i f).connections[k]? = some d →
      c.stage ≠ .recycled → d.stage ≠ .recycled → c.peer = d.peer → j = k := by
  have hback : ∀ (j : ℕ) (c : Connection), (s.change i f).connections[j]? = some c →
      ∃ c₀ : Connection, s.connections[j]? = some c₀ ∧ c.peer = c₀.peer ∧
        (c.stage ≠ .recycled → c₀.stage ≠ .recycled) := by
    intro j c hc
    rcases getElem?_change hc with ⟨rfl, d, hd, rfl⟩ | ⟨-, hd⟩
    · exact ⟨d, hd, hpeer d hd, hheld d hd⟩
    · exact ⟨c, hd, rfl, id⟩
  intro j k c d hc hd hcheld hdheld hsame
  obtain ⟨c₀, hc₀, hcpeer, hcback⟩ := hback j c hc
  obtain ⟨d₀, hd₀, hdpeer, hdback⟩ := hback k d hd
  exact h.unique j k c₀ d₀ hc₀ hd₀ (hcback hcheld) (hdback hdheld)
    (by rw [← hcpeer, ← hdpeer, hsame])

theorem Placed.change (h : Placed s)
    (hf : ∀ c, s.connections[i]? = some c → Onward c (f c)) : Placed (s.change i f) := by
  refine ⟨?_, h.unique_change (fun c hc => (hf c hc).peer) fun c hc => (hf c hc).held⟩
  intro j c hc hregistered hlive
  rcases getElem?_change hc with ⟨rfl, d, hd, rfl⟩ | ⟨-, hd⟩
  · have honward := hf d hd
    rw [honward.peer]
    exact h.owner i d hd (honward.registered hregistered) (honward.live hlive)
  · exact h.owner j c hd hregistered hlive

/-- The id of a connection that is held has no other owner. -/
theorem Placed.peer_ne (h : Placed s) {d : Connection} (hc : s.connections[i]? = some c)
    (hd : s.connections[j]? = some d) (hcheld : c.stage ≠ .recycled) (hdheld : d.stage ≠ .recycled)
    (hij : i ≠ j) : c.peer ≠ d.peer :=
  fun hsame => hij (h.unique i j c d hc hd hcheld hdheld hsame)

theorem Stage.held_of_live {stage : Stage} (h : stage.isLive = true) : stage ≠ .recycled := by
  rintro rfl
  cases h

variable {uuid : Text}

theorem Placed.connect (h : Placed s) (hs : s.connect peer uuid = some s') : Placed s' := by
  simp only [State.connect] at hs
  split at hs
  · cases hs
  · rename_i hfree
    cases hs
    have hother : ∀ c ∈ s.connections, c.stage ≠ .recycled → c.peer ≠ peer := by
      intro c hc hheld hpeer
      exact hfree (List.any_eq_true.mpr ⟨c, hc, decide_eq_true ⟨hpeer, hheld⟩⟩)
    constructor
    · intro i c hc hregistered hlive
      rcases getElem?_append_singleton hc with ⟨-, hc⟩ | ⟨-, rfl⟩
      · exact h.owner i c hc hregistered hlive
      · cases hregistered
    · intro i j c d hc hd hcheld hdheld hsame
      rcases getElem?_append_singleton hc with ⟨-, hc⟩ | ⟨hi, rfl⟩
      · rcases getElem?_append_singleton hd with ⟨-, hd⟩ | ⟨-, rfl⟩
        · exact h.unique i j c d hc hd hcheld hdheld hsame
        · exact absurd hsame (hother c (List.mem_of_getElem? hc) hcheld)
      · rcases getElem?_append_singleton hd with ⟨-, hd⟩ | ⟨hj, -⟩
        · exact absurd hsame.symm (hother d (List.mem_of_getElem? hd) hdheld)
        · rw [hi, hj]

/-- `register` is the step that puts a peer into the map. -/
theorem Placed.register (h : Placed s) (hs : s.register i = some s') : Placed s' := by
  simp only [State.register] at hs
  split at hs
  · rename_i c hc
    split at hs
    · rename_i hguard
      cases hs
      have hheld : c.stage ≠ .recycled := by
        rcases hguard.2 with hstage | hstage <;> rw [hstage] <;> exact nofun
      refine ⟨?_, h.unique_change (fun _ _ => rfl) fun _ _ => id⟩
      intro j d hd hregistered hlive
      rcases getElem?_change hd with ⟨rfl, d₀, hd₀, rfl⟩ | ⟨hij, hd⟩
      · rw [hc] at hd₀
        cases hd₀
        exact assocGet_set_self _ _ _
      · have hne := h.peer_ne hd hc (Stage.held_of_live hlive) hheld (Ne.symm hij)
        show assocGet d.peer (assocSet c.peer i s.authenticated) = some j
        rw [assocGet_set_of_ne hne]
        exact h.owner j d hd hregistered hlive
    · cases hs
  · cases hs

/-- `unauthenticate` takes the peer out of it. -/
theorem Placed.unauthenticate (h : Placed s) (hs : s.unauthenticate i = some s') : Placed s' := by
  simp only [State.unauthenticate] at hs
  split at hs
  · rename_i c hc
    split at hs
    · rename_i hstage
      cases hs
      refine ⟨?_, h.unique_change (fun _ _ => rfl) ?_⟩
      · intro j d hd hregistered hlive
        rcases getElem?_change hd with ⟨rfl, d₀, -, rfl⟩ | ⟨hij, hd⟩
        · cases hlive
        · have hne := h.peer_ne hd hc (Stage.held_of_live hlive) (by rw [hstage]; exact nofun)
            (Ne.symm hij)
          show assocGet d.peer (assocErase c.peer s.authenticated) = some j
          rw [assocGet_erase_of_ne hne]
          exact h.owner j d hd hregistered hlive
      · intro d hd _ hrecycled
        rw [hc] at hd
        cases hd
        rw [hstage] at hrecycled
        cases hrecycled
    · cases hs
  · cases hs

/-! ### Steps of one connection -/

/-- What the peer of the connection is told, or about to be told, is `now`. -/
def Connection.UpToDate (now : Rules) (c : Connection) : Prop :=
  match c.accept with
  | .readAllowed allowed => allowed = now.allowed
  | .readRules rules => rules = now
  | .sent | .succeeded => c.queued.getLast? = some now
  | _ => True

theorem Connection.UpToDate.of_not_registered {now : Rules}
    (h : c.accept.isRegistered = false) : c.UpToDate now := by
  unfold UpToDate
  cases haccept : c.accept <;> rw [haccept] at h <;> trivial

/-- `handle_disconnect` waits for the task that accepts the peer. -/
def Connection.Leased (c : Connection) : Prop :=
  c.accept.inProgress = true → c.stage = .online ∨ c.stage = .closed

/-- The accept of a connection may come to `accept`, which leaves it as up to date as it was. -/
structure AcceptStep (casing : Casing) (s : State) (i : ℕ) (c : Connection) (accept : Accept) :
    Prop where
  here : s.connections[i]? = some c
  registered : accept.isRegistered = true → c.accept.isRegistered = true
  inProgress : accept.inProgress = true → c.accept.inProgress = true
  current : c.UpToDate (s.rulesOf casing c.uuid) →
    { c with accept }.UpToDate (s.rulesOf casing c.uuid)

theorem refuse_step (h : s.refuse i = some s') :
    ∃ c accept, s' = s.setAccept i accept ∧ AcceptStep casing s i c accept := by
  simp only [State.refuse] at h
  split at h
  · rename_i c hc
    split at h
    · cases h
      exact ⟨c, .refused, rfl, hc, (nomatch ·), (nomatch ·), fun _ => trivial⟩
    · cases h
  · cases h

theorem acceptAllowed_step (h : s.acceptAllowed casing i = some s') :
    ∃ c accept, s' = s.setAccept i accept ∧ AcceptStep casing s i c accept := by
  simp only [State.acceptAllowed] at h
  split at h
  · rename_i c hc
    split at h
    · rename_i haccept
      cases h
      exact ⟨c, _, rfl, hc, fun _ => haccept ▸ rfl, fun _ => haccept ▸ rfl, fun _ => rfl⟩
    · cases h
  · cases h

theorem acceptDenied_step (h : s.acceptDenied casing i = some s') :
    ∃ c accept, s' = s.setAccept i accept ∧ AcceptStep casing s i c accept := by
  simp only [State.acceptDenied] at h
  split at h
  · rename_i c hc
    split at h
    · rename_i allowed haccept
      cases h
      refine ⟨c, _, rfl, hc, fun _ => haccept ▸ rfl, fun _ => haccept ▸ rfl, fun hcurrent => ?_⟩
      unfold Connection.UpToDate at hcurrent
      rw [haccept] at hcurrent
      show Rules.mk allowed _ = _
      rw [show allowed = (s.rulesOf casing c.uuid).allowed from hcurrent]
    · cases h
  · cases h

theorem acceptError_step (h : s.acceptError i = some s') :
    ∃ c accept, s' = s.setAccept i accept ∧ AcceptStep casing s i c accept := by
  simp only [State.acceptError] at h
  split at h
  · rename_i c hc
    split at h
    · rename_i haccept
      cases h
      exact ⟨c, .failed, rfl, hc, fun _ => haccept ▸ rfl, (nomatch ·), fun _ => trivial⟩
    · cases h
  · cases h

theorem acceptEnd_step {ok : Bool} (h : s.acceptEnd i ok = some s') :
    ∃ c accept, s' = s.setAccept i accept ∧ AcceptStep casing s i c accept := by
  simp only [State.acceptEnd] at h
  split at h
  · rename_i c hc
    split at h
    · rename_i haccept
      cases h
      refine ⟨c, _, rfl, hc, fun _ => haccept ▸ rfl, fun _ => haccept ▸ rfl, fun hcurrent => ?_⟩
      unfold Connection.UpToDate at hcurrent
      rw [haccept] at hcurrent
      cases ok with
      | true => exact hcurrent
      | false => trivial
    · cases h
  · cases h

/-- A connection may go one stage on, away from being online. -/
structure StageStep (s s' : State) (i : ℕ) (c : Connection) (stage : Stage) : Prop where
  here : s.connections[i]? = some c
  connections : s'.connections = (s.setStage i stage).connections
  manager : s'.manager = s.manager
  sync : s'.sync = s.sync
  offline : stage ≠ .online
  held : c.stage ≠ .recycled
  live : stage.isLive = true → c.stage.isLive = true
  leased : c.Leased → { c with stage }.Leased
  retries : ∀ p ∈ s.retries, p ≠ c.peer → p ∈ s'.retries
  authenticated : stage ≠ .unauthenticated → s'.authenticated = s.authenticated

theorem close_step (h : s.close i = some s') : ∃ c, StageStep s s' i c .closed := by
  simp only [State.close] at h
  split at h
  · rename_i c hc
    split at h
    · rename_i hstage
      cases h
      exact ⟨c, hc, rfl, rfl, rfl, (nomatch ·), by rw [hstage]; exact (nomatch ·),
        fun _ => by rw [hstage]; rfl, fun _ _ => .inr rfl, fun _ hp _ => hp, fun _ => rfl⟩
    · cases h
  · cases h

theorem dropRetry_step (h : s.dropRetry i = some s') : ∃ c, StageStep s s' i c .cleaning := by
  simp only [State.dropRetry] at h
  split at h
  · rename_i c hc
    split at h
    · rename_i hguard
      cases h
      refine ⟨c, hc, rfl, rfl, rfl, (nomatch ·), by rw [hguard.1]; exact (nomatch ·),
        fun _ => by rw [hguard.1]; rfl, fun _ hprogress => ?_, ?_, fun _ => rfl⟩
      · rw [show c.accept.inProgress = true from hprogress] at hguard
        cases hguard.2
      · exact fun p hp hne => Finset.mem_erase.mpr ⟨hne, hp⟩
    · cases h
  · cases h

/-- After that the task that accepts the peer is gone. -/
theorem Connection.Leased.gone (h : c.Leased) (honline : c.stage ≠ .online)
    (hclosed : c.stage ≠ .closed) : c.accept.inProgress ≠ true :=
  fun hprogress => (h hprogress).elim honline hclosed

theorem unauthenticate_step (h : s.unauthenticate i = some s') :
    ∃ c, StageStep s s' i c .unauthenticated := by
  simp only [State.unauthenticate] at h
  split at h
  · rename_i c hc
    split at h
    · rename_i hstage
      cases h
      refine ⟨c, hc, rfl, rfl, rfl, (nomatch ·), by rw [hstage]; exact (nomatch ·), (nomatch ·),
        fun hleased hprogress => ?_, fun _ hp _ => hp, fun hne => absurd rfl hne⟩
      exact absurd hprogress
        (hleased.gone (by rw [hstage]; exact (nomatch ·)) (by rw [hstage]; exact (nomatch ·)))
    · cases h
  · cases h

theorem recycle_step (h : s.recycle i = some s') : ∃ c, StageStep s s' i c .recycled := by
  simp only [State.recycle] at h
  split at h
  · rename_i c hc
    split at h
    · rename_i hstage
      cases h
      refine ⟨c, hc, rfl, rfl, rfl, (nomatch ·), by rw [hstage]; exact (nomatch ·), (nomatch ·),
        fun hleased hprogress => ?_, fun _ hp _ => hp, fun _ => rfl⟩
      exact absurd hprogress
        (hleased.gone (by rw [hstage]; exact (nomatch ·)) (by rw [hstage]; exact (nomatch ·)))
    · cases h
  · cases h

theorem AcceptStep.onward {accept : Accept} (h : AcceptStep casing s i c accept) :
    Onward c { c with accept } :=
  ⟨rfl, rfl, h.registered, id, id⟩

theorem StageStep.onward {stage : Stage} (h : StageStep s s' i c stage) :
    Onward c { c with stage } :=
  ⟨rfl, rfl, id, h.live, fun _ => h.held⟩

theorem AcceptStep.placed {accept : Accept} (h : AcceptStep casing s i c accept)
    (hplaced : Placed s) : Placed (s.setAccept i accept) := by
  refine hplaced.change fun d hd => ?_
  rw [h.here] at hd
  cases hd
  exact h.onward

theorem StageStep.placed {stage : Stage} (h : StageStep s s' i c stage)
    (hstage : stage ≠ .unauthenticated) (hplaced : Placed s) : Placed s' := by
  refine Placed.of_same (s := s.setStage i stage) (hplaced.change fun d hd => ?_) h.connections
    (h.authenticated hstage)
  rw [h.here] at hd
  cases hd
  exact h.onward

/-! ### Leases -/

def Leased (s : State) : Prop := ∀ (i : ℕ) (c : Connection), s.connections[i]? = some c → c.Leased

theorem Leased.of_same (h : Leased s) (hconnections : s'.connections = s.connections) :
    Leased s' := by
  unfold Leased
  rw [hconnections]
  exact h

theorem Leased.change (h : Leased s)
    (hf : ∀ c, s.connections[i]? = some c → c.Leased → (f c).Leased) : Leased (s.change i f) := by
  intro j c hc
  rcases getElem?_change hc with ⟨rfl, d, hd, rfl⟩ | ⟨-, hd⟩
  · exact hf d hd (h _ d hd)
  · exact h j c hd

theorem Leased.connect (h : Leased s) (hs : s.connect peer uuid = some s') : Leased s' := by
  simp only [State.connect] at hs
  split at hs
  · cases hs
  · cases hs
    intro i c hc
    rcases getElem?_append_singleton hc with ⟨-, hc⟩ | ⟨-, rfl⟩
    · exact h i c hc
    · exact (nomatch ·)

theorem Leased.register (h : Leased s) (hs : s.register i = some s') : Leased s' := by
  simp only [State.register] at hs
  split at hs
  · rename_i c hc
    split at hs
    · rename_i hguard
      cases hs
      refine Leased.of_same (s := s.setAccept i .registered) (h.change fun d hd _ _ => ?_) rfl
      rw [hc] at hd
      cases hd
      exact hguard.2
    · cases hs
  · cases hs

theorem AcceptStep.leased {accept : Accept} (h : AcceptStep casing s i c accept)
    (hleased : Leased s) : Leased (s.setAccept i accept) := by
  refine hleased.change fun d hd hlease hprogress => ?_
  rw [h.here] at hd
  cases hd
  exact hlease (h.inProgress hprogress)

theorem StageStep.leases {stage : Stage} (h : StageStep s s' i c stage) (hleased : Leased s) :
    Leased s' := by
  refine Leased.of_same (s := s.setStage i stage)
    (hleased.change fun d hd hlease => ?_) h.connections
  rw [h.here] at hd
  cases hd
  exact h.leased hlease

/-! ### What is due -/

/-- The synchronisation is on its way to a peer. -/
def Sync.Serves (casing : Casing) (peer : ℕ) (uuid : Text) : Sync → Prop
  | .idle => False
  | .taken changes => covers casing changes uuid = true
  | .looking changes left targets =>
    (covers casing changes uuid = true ∧ peer ∈ left) ∨ peer ∈ targets
  | .looked targets => peer ∈ targets
  | .sending left => peer ∈ left
  | .metadata p u left | .allowed p u _ left | .rules p u _ left =>
    peer ∈ left ∨ (p = peer ∧ u = uuid)
  | .failed p left | .retry p left => peer ∈ left ∨ p = peer

/-- Another message to the peer is due. -/
def Due (casing : Casing) (s : State) (peer : ℕ) (uuid : Text) : Prop :=
  covers casing s.manager.changes uuid = true ∨ peer ∈ s.retries ∨ s.sync.Serves casing peer uuid

def Told (casing : Casing) (s : State) : Prop :=
  ∀ (i : ℕ) (c : Connection), s.connections[i]? = some c → c.stage = .online →
    c.UpToDate (s.rulesOf casing c.uuid) ∨ Due casing s c.peer c.uuid

theorem Told.connect (h : Told casing s) (hs : s.connect peer uuid = some s') : Told casing s' := by
  simp only [State.connect] at hs
  split at hs
  · cases hs
  · cases hs
    intro i c hc honline
    rcases getElem?_append_singleton hc with ⟨-, hc⟩ | ⟨-, rfl⟩
    · exact h i c hc honline
    · exact .inl trivial

theorem AcceptStep.told {accept : Accept} (hs : AcceptStep casing s i c accept)
    (h : Told casing s) : Told casing (s.setAccept i accept) := by
  intro j d hd honline
  rcases getElem?_change hd with ⟨rfl, d₀, hd₀, rfl⟩ | ⟨-, hd⟩
  · rw [hs.here] at hd₀
    cases hd₀
    exact (h i c hs.here honline).imp_left hs.current
  · exact h j d hd honline

theorem Told.register (h : Told casing s) (hs : s.register i = some s') : Told casing s' := by
  simp only [State.register] at hs
  split at hs
  · split at hs
    · cases hs
      intro j d hd honline
      rcases getElem?_change hd with ⟨rfl, d₀, -, rfl⟩ | ⟨-, hd⟩
      · exact .inl trivial
      · exact h j d hd honline
    · cases hs
  · cases hs

theorem StageStep.told {stage : Stage} (hs : StageStep s s' i c stage)
    (hplaced : Placed s) (h : Told casing s) : Told casing s' := by
  intro j d hd honline
  rw [hs.connections] at hd
  rcases getElem?_change hd with ⟨rfl, d₀, -, rfl⟩ | ⟨hij, hd⟩
  · exact absurd honline hs.offline
  · have hne : d.peer ≠ c.peer :=
      hplaced.peer_ne hd hs.here (by rw [honline]; exact (nomatch ·)) hs.held (Ne.symm hij)
    unfold State.rulesOf Due
    rw [hs.manager, hs.sync]
    exact (h j d hd honline).imp_right (Or.imp_right (Or.imp_left fun hp => hs.retries _ hp hne))

/-- A step of the synchronisation that queues nothing leaves the peers to whom it is due in its
sight. -/
theorem Told.of_due (h : Told casing s) (hplaced : Placed s)
    (hconnections : s'.connections = s.connections) (hstore : s'.manager.store = s.manager.store)
    (hdue : ∀ (i : ℕ) (c : Connection), s.connections[i]? = some c → c.stage = .online →
      assocGet c.peer s.authenticated = some i → Due casing s c.peer c.uuid →
      Due casing s' c.peer c.uuid) : Told casing s' := by
  intro i c hc honline
  rw [hconnections] at hc
  unfold State.rulesOf
  rw [hstore]
  cases hregistered : c.accept.isRegistered with
  | false => exact .inl (.of_not_registered hregistered)
  | true =>
    have howner := hplaced.owner i c hc hregistered (by rw [honline]; rfl)
    exact (h i c hc honline).imp_right (hdue i c hc honline howner)

/-- The same for a step that changes only how far the synchronisation has come. -/
theorem Told.of_serves (h : Told casing s) (hplaced : Placed s) {old sync : Sync}
    (hsync : s.sync = old) (hserves : ∀ (i : ℕ) (c : Connection), s.connections[i]? = some c →
      assocGet c.peer s.authenticated = some i → old.Serves casing c.peer c.uuid →
      sync.Serves casing c.peer c.uuid) : Told casing { s with sync } :=
  h.of_due hplaced rfl rfl fun i c hc _ howner hdue =>
    hdue.imp_right (Or.imp_right (hsync ▸ hserves i c hc howner))

/-! ### The synchronisation -/

theorem connectionOf_owner (hc : s.connections[i]? = some c)
    (howner : assocGet c.peer s.authenticated = some i) : s.connectionOf c.peer = some c := by
  rw [State.connectionOf, howner]
  exact hc

section

variable (h : Told casing s) (hplaced : Placed s)
include h hplaced

theorem Told.takeChanges (hs : s.takeChanges = some s') : Told casing s' := by
  simp only [State.takeChanges] at hs
  split at hs
  · rename_i hidle
    cases hs
    refine h.of_due hplaced rfl rfl fun i c _ _ _ hdue => ?_
    rcases hdue with hcovers | hretry | hserves
    · exact .inr (.inr hcovers)
    · exact .inr (.inl hretry)
    · rw [hidle] at hserves
      exact hserves.elim
  · cases hs

theorem Told.startSync (hs : s.startSync = some s') : Told casing s' := by
  simp only [State.startSync] at hs
  split at hs
  · rename_i changes hsync
    split at hs
    · rename_i hnothing
      cases hs
      refine h.of_serves hplaced hsync fun i c _ _ hserves => ?_
      rw [hnothing.1] at hserves
      cases hserves
    · cases hs
      refine h.of_serves hplaced hsync fun i c _ howner hserves => ?_
      exact .inl
        ⟨hserves, List.mem_toFinset.mpr (List.mem_map_of_mem (mem_keys_of_assocGet howner))⟩
  · cases hs

theorem Told.look (hs : s.look casing peer = some s') : Told casing s' := by
  simp only [State.look] at hs
  split at hs
  · rename_i changes left targets hsync
    split at hs
    · rename_i d hd
      split at hs
      · cases hs
        refine h.of_serves hplaced hsync fun i c hc howner hserves => ?_
        by_cases hpeer : c.peer = peer
        · exact .inr (Finset.mem_insert.mpr (.inl hpeer))
        · exact hserves.imp (And.imp_right fun hleft => Finset.mem_erase.mpr ⟨hpeer, hleft⟩)
            Finset.mem_insert_of_mem
      · rename_i hnot
        cases hs
        refine h.of_serves hplaced hsync fun i c hc howner hserves => ?_
        refine hserves.imp_left fun hboth => ⟨hboth.1, Finset.mem_erase.mpr ⟨?_, hboth.2⟩⟩
        -- the entry of this peer was not matched
        rintro rfl
        rw [connectionOf_owner hc howner, Option.some.injEq] at hd
        exact hnot (hd ▸ hboth.1)
    · rename_i hnone
      cases hs
      refine h.of_serves hplaced hsync fun i c hc howner hserves => ?_
      refine hserves.imp_left fun hboth => ⟨hboth.1, Finset.mem_erase.mpr ⟨?_, hboth.2⟩⟩
      rintro rfl
      rw [connectionOf_owner hc howner] at hnone
      cases hnone
  · cases hs

theorem Told.endLook (hs : s.endLook = some s') : Told casing s' := by
  simp only [State.endLook] at hs
  split at hs
  · rename_i changes left targets hsync
    split at hs
    · rename_i hempty
      cases hs
      refine h.of_serves hplaced hsync fun i c _ _ hserves => ?_
      rw [hempty] at hserves
      exact hserves.resolve_left fun hboth => absurd hboth.2 (Finset.notMem_empty _)
    · cases hs
  · cases hs

theorem Told.takeRetries (hs : s.takeRetries = some s') : Told casing s' := by
  simp only [State.takeRetries] at hs
  split at hs
  · rename_i targets hsync
    cases hs
    refine h.of_due hplaced rfl rfl fun i c _ _ _ hdue => ?_
    refine hdue.imp_right fun hrest => .inr (Finset.mem_union.mpr ?_)
    rw [hsync] at hrest
    exact hrest.symm
  · cases hs

theorem Told.pick (hs : s.pick peer = some s') : Told casing s' := by
  simp only [State.pick] at hs
  split at hs
  · rename_i left hsync
    split at hs
    · split at hs
      · rename_i d hd
        cases hs
        refine h.of_serves hplaced hsync fun i c hc howner hserves => ?_
        by_cases hpeer : c.peer = peer
        · subst hpeer
          rw [connectionOf_owner hc howner, Option.some.injEq] at hd
          exact .inr ⟨rfl, by rw [hd]⟩
        · exact .inl (Finset.mem_erase.mpr ⟨hpeer, hserves⟩)
      · rename_i hnone
        cases hs
        refine h.of_serves hplaced hsync fun i c hc howner hserves => ?_
        refine Finset.mem_erase.mpr ⟨?_, hserves⟩
        rintro rfl
        rw [connectionOf_owner hc howner] at hnone
        cases hnone
    · cases hs
  · cases hs

theorem Told.syncAllowed (hs : s.syncAllowed casing = some s') : Told casing s' := by
  simp only [State.syncAllowed] at hs
  split at hs
  · rename_i p u left hsync
    cases hs
    exact h.of_serves hplaced hsync fun _ _ _ _ hserves => hserves
  · cases hs

theorem Told.syncDenied (hs : s.syncDenied casing = some s') : Told casing s' := by
  simp only [State.syncDenied] at hs
  split at hs
  · rename_i p u allowed left hsync
    cases hs
    exact h.of_serves hplaced hsync fun _ _ _ _ hserves => hserves
  · cases hs

theorem Told.syncError (hs : s.syncError = some s') : Told casing s' := by
  simp only [State.syncError] at hs
  split at hs
  · rename_i p u rules left hsync
    cases hs
    exact h.of_serves hplaced hsync fun _ _ _ _ hserves => hserves.imp_right And.left
  · cases hs

theorem Told.check (hs : s.check = some s') : Told casing s' := by
  simp only [State.check] at hs
  split at hs
  · rename_i p left hsync
    split at hs
    · cases hs
      exact h.of_serves hplaced hsync fun _ _ _ _ hserves => hserves
    · rename_i hmissing
      cases hs
      refine h.of_serves hplaced hsync fun i c _ howner hserves => ?_
      refine hserves.resolve_right ?_
      -- a peer that is online is still authenticated
      rintro rfl
      rw [howner] at hmissing
      exact hmissing rfl
  · cases hs

theorem Told.retry (hs : s.retry = some s') : Told casing s' := by
  simp only [State.retry] at hs
  split at hs
  · rename_i p left hsync
    cases hs
    refine h.of_due hplaced rfl rfl fun i c _ _ _ hdue => ?_
    rw [Due, hsync] at hdue
    rcases hdue with hcovers | hretry | hserves | hpeer
    · exact .inl hcovers
    · exact .inr (.inl (Finset.mem_insert_of_mem hretry))
    · exact .inr (.inr hserves)
    · exact .inr (.inl (Finset.mem_insert.mpr (.inl hpeer.symm)))
  · cases hs

theorem Told.endSync (hs : s.endSync = some s') : Told casing s' := by
  simp only [State.endSync] at hs
  split at hs
  · rename_i hsync
    cases hs
    refine h.of_serves hplaced hsync fun i c _ _ hserves => ?_
    exact absurd hserves (Finset.notMem_empty _)
  · cases hs

end

/-! ### Messages -/

/-- What a message that is sent to an id does to the connections. -/
theorem getElem?_send (h : (s.send peer rules).connections[j]? = some c) :
    (s.onlineAt peer = some j ∧ ∃ d, s.connections[j]? = some d ∧
      c = { d with queued := d.queued ++ [rules] }) ∨
      (s.onlineAt peer ≠ some j ∧ s.connections[j]? = some c) := by
  unfold State.send at h
  split at h
  · rename_i hnone
    exact .inr ⟨by rw [hnone]; exact (nomatch ·), h⟩
  · rename_i i hsome
    rcases getElem?_change h with ⟨rfl, d, hd, rfl⟩ | ⟨hij, hd⟩
    · exact .inl ⟨hsome, d, hd, rfl⟩
    · refine .inr ⟨fun hj => ?_, hd⟩
      rw [hsome, Option.some.injEq] at hj
      exact hij hj

@[simp] theorem send_manager (peer : ℕ) (rules : Rules) :
    (s.send peer rules).manager = s.manager := by
  unfold State.send
  split <;> rfl

@[simp] theorem send_retries (peer : ℕ) (rules : Rules) :
    (s.send peer rules).retries = s.retries := by
  unfold State.send
  split <;> rfl

@[simp] theorem send_sync (peer : ℕ) (rules : Rules) : (s.send peer rules).sync = s.sync := by
  unfold State.send
  split <;> rfl

@[simp] theorem rulesOf_send (peer : ℕ) (rules : Rules) (uuid : Text) :
    (s.send peer rules).rulesOf casing uuid = s.rulesOf casing uuid := by
  unfold State.rulesOf
  rw [send_manager]

theorem due_send {p : ℕ} : Due casing (s.send p rules) peer uuid ↔ Due casing s peer uuid := by
  unfold Due
  rw [send_manager, send_retries, send_sync]

theorem Placed.send (h : Placed s) (peer : ℕ) (rules : Rules) : Placed (s.send peer rules) := by
  unfold State.send
  split
  · exact h
  · exact h.change fun _ _ => ⟨rfl, rfl, id, id, id⟩

theorem Leased.send (h : Leased s) (peer : ℕ) (rules : Rules) : Leased (s.send peer rules) := by
  unfold State.send
  split
  · exact h
  · exact h.change fun _ _ => id

/-- The transport finds the connection that is online with an id. -/
theorem Placed.onlineAt (h : Placed s) (hc : s.connections[i]? = some c)
    (honline : c.stage = .online) : s.onlineAt c.peer = some i := by
  cases hat : s.onlineAt c.peer with
  | none => exact absurd rfl (onlineAt_none hat hc honline)
  | some j =>
    obtain ⟨d, hd, hpeer, hstage⟩ := onlineAt_some hat
    rw [h.unique j i d c hd hc (by rw [hstage]; exact (nomatch ·))
      (by rw [honline]; exact (nomatch ·)) hpeer]

/-- What `acceptSend` requires and does. -/
theorem acceptSend_step (h : s.acceptSend i = some s') :
    ∃ c rules, s.connections[i]? = some c ∧ c.accept = .readRules rules ∧
      s' = (s.send c.peer rules).setAccept i .sent := by
  simp only [State.acceptSend] at h
  split at h
  · rename_i c hc
    split at h
    · rename_i rules haccept
      cases h
      exact ⟨c, rules, hc, haccept, rfl⟩
    · cases h
  · cases h

theorem Placed.acceptSend (h : Placed s) (hs : s.acceptSend i = some s') : Placed s' := by
  obtain ⟨c, rules, hc, haccept, rfl⟩ := acceptSend_step hs
  refine (h.send c.peer rules).change fun d hd => ⟨rfl, rfl, fun _ => ?_, id, id⟩
  rcases getElem?_send hd with ⟨-, d₀, hd₀, rfl⟩ | ⟨-, hd⟩
  · rw [hc] at hd₀
    cases hd₀
    exact haccept ▸ rfl
  · rw [hc] at hd
    cases hd
    exact haccept ▸ rfl

theorem Leased.acceptSend (h : Leased s) (hs : s.acceptSend i = some s') : Leased s' := by
  obtain ⟨c, rules, hc, haccept, rfl⟩ := acceptSend_step hs
  have hleased := h i c hc (haccept ▸ rfl)
  refine (h.send c.peer rules).change fun d hd _ _ => ?_
  rcases getElem?_send hd with ⟨-, d₀, hd₀, rfl⟩ | ⟨-, hd⟩
  · rw [hc] at hd₀
    cases hd₀
    exact hleased
  · rw [hc] at hd
    cases hd
    exact hleased

/-- The message of `finalize_accept` goes to its own connection, or nowhere. -/
theorem Told.acceptSend (h : Told casing s) (hplaced : Placed s) (hleased : Leased s)
    (hs : s.acceptSend i = some s') : Told casing s' := by
  obtain ⟨c, rules, hc, haccept, rfl⟩ := acceptSend_step hs
  have hheld : c.stage ≠ .recycled := by
    rcases hleased i c hc (haccept ▸ rfl) with hstage | hstage <;> rw [hstage] <;> exact (nomatch ·)
  have hown : ∀ j, s.onlineAt c.peer = some j → j = i := by
    intro j hj
    obtain ⟨d, hd, hpeer, hstage⟩ := onlineAt_some hj
    exact hplaced.unique j i d c hd hc (by rw [hstage]; exact (nomatch ·)) hheld hpeer
  intro j d hd honline
  show d.UpToDate ((s.send c.peer rules).rulesOf casing d.uuid) ∨
    Due casing (s.send c.peer rules) d.peer d.uuid
  rw [rulesOf_send, due_send]
  rcases getElem?_change hd with ⟨rfl, d₀, hd₀, rfl⟩ | ⟨hij, hd⟩
  · rcases getElem?_send hd₀ with ⟨-, d₁, hd₁, rfl⟩ | ⟨hnot, hd₁⟩
    · -- the message has just been queued
      rw [hc] at hd₁
      cases hd₁
      refine (h i c hc honline).imp_left fun hcurrent => ?_
      unfold Connection.UpToDate at hcurrent
      rw [haccept] at hcurrent
      show (c.queued ++ [rules]).getLast? = _
      rw [List.getLast?_append, List.getLast?_singleton,
        show rules = s.rulesOf casing c.uuid from hcurrent]
      rfl
    · rw [hc] at hd₁
      cases hd₁
      exact absurd (hplaced.onlineAt hc honline) hnot
  · rcases getElem?_send hd with ⟨hat, -⟩ | ⟨-, hd⟩
    · exact absurd (hown j hat).symm hij
    · exact h j d hd honline

/-- What the synchronisation has read is what the store says, unless another change is noted. -/
def Fresh (casing : Casing) (s : State) : Prop :=
  match s.sync with
  | .allowed _ uuid allowed _ =>
    allowed = (s.rulesOf casing uuid).allowed ∨ covers casing s.manager.changes uuid = true
  | .rules _ uuid rules _ =>
    rules = s.rulesOf casing uuid ∨ covers casing s.manager.changes uuid = true
  | _ => True

theorem Fresh.of_same (h : Fresh casing s) (hmanager : s'.manager = s.manager)
    (hsync : s'.sync = s.sync) :
    Fresh casing s' := by
  unfold Fresh State.rulesOf
  rw [hmanager, hsync]
  exact h

theorem Fresh.syncDenied (h : Fresh casing s) (hs : s.syncDenied casing = some s') :
    Fresh casing s' := by
  simp only [State.syncDenied] at hs
  split at hs
  · rename_i hsync
    cases hs
    unfold Fresh at h
    rw [hsync] at h
    refine h.imp_left fun hallowed => ?_
    rw [hallowed]
    rfl
  · cases hs

/-- A message of the synchronisation that is timely. -/
theorem Told.syncSend (h : Told casing s) (hplaced : Placed s) (hfresh : Fresh casing s)
    (htimely : Timely casing s .syncSend = true) (hs : s.syncSend = some s') : Told casing s' := by
  simp only [State.syncSend] at hs
  split at hs
  · rename_i p u rules left hsync
    cases hs
    unfold Fresh at hfresh
    rw [hsync] at hfresh
    intro j d hd honline
    show d.UpToDate ((s.send p rules).rulesOf casing d.uuid) ∨
      covers casing (s.send p rules).manager.changes d.uuid = true ∨
        d.peer ∈ (s.send p rules).retries ∨ d.peer ∈ left
    rw [rulesOf_send, send_manager, send_retries]
    rcases getElem?_send hd with ⟨hat, d₀, hd₀, rfl⟩ | ⟨hnot, hd⟩
    · simp only [Timely, hsync, hat, Option.bind_some, hd₀, Bool.and_eq_true,
        decide_eq_true_eq] at htimely
      obtain ⟨rfl, hcurrent⟩ := htimely
      rcases hfresh with rfl | hcovers
      · left
        unfold Connection.UpToDate
        unfold Accept.isCurrent at hcurrent
        dsimp only
        cases haccept : d₀.accept with
        | readAllowed allowed | readRules rules =>
          rw [haccept] at hcurrent
          exact of_decide_eq_true hcurrent
        | sent | succeeded =>
          show (d₀.queued ++ [s.rulesOf casing d₀.uuid]).getLast? = _
          rw [List.getLast?_append, List.getLast?_singleton]
          rfl
        | waiting | refused | registered | failed => trivial
      · exact .inr (.inl hcovers)
    · refine (h j d hd honline).imp_right (Or.imp_right (Or.imp_right fun hserves => ?_))
      rw [hsync] at hserves
      -- the message was not for this peer
      refine hserves.resolve_right fun hpeer => hnot ?_
      rw [hpeer.1]
      exact hplaced.onlineAt hd honline
  · cases hs

/-! ### Changes of the store -/

/-- A store of the model's own operations. -/
def Proper (casing : Casing) (s : State) : Prop :=
  ProperStore casing (fun _ => True) s.manager.store

theorem Proper.edit (h : Proper casing s) (op : PermissionOp) :
    ProperStore casing (fun _ => True) (op.run casing reader s.manager.store) :=
  h.run allowed_true fun _ _ _ => trivial

/-- After a change the rules of a user are as before, or the change is noted. -/
theorem rulesOf_edit (reader : XmlReader) (h : Proper casing s) (op : PermissionOp) (uuid : Text) :
    covers casing (s.manager.mutate casing reader op).changes uuid = true ∨
      State.rulesOf casing { s with manager := s.manager.mutate casing reader op } uuid =
        s.rulesOf casing uuid := by
  refine (PermissionManager.mutate_covers op uuid h.caseFree (h.edit op).caseFree).imp_right
    fun hsame => ?_
  unfold State.rulesOf allowedRules deniedRules
  dsimp only
  rw [hsame]

theorem covers_mutate {m : PermissionManager} {op : PermissionOp}
    (h : covers casing m.changes uuid = true) :
    covers casing (m.mutate casing reader op).changes uuid = true := by
  unfold PermissionManager.mutate
  dsimp only
  split
  · exact covers_enqueue_of_covers h
  · exact h

theorem Told.edit (h : Told casing s) (hproper : Proper casing s) (op : PermissionOp) :
    Told casing { s with manager := s.manager.mutate casing reader op } := by
  intro i c hc honline
  rcases rulesOf_edit reader hproper op c.uuid with hcovers | hsame
  · exact .inr (.inl hcovers)
  · rw [hsame]
    exact (h i c hc honline).imp_right (Or.imp_left covers_mutate)

theorem Fresh.edit (h : Fresh casing s) (hproper : Proper casing s) (op : PermissionOp) :
    Fresh casing { s with manager := s.manager.mutate casing reader op } := by
  unfold Fresh at h ⊢
  cases hsync : s.sync with
  | allowed p uuid allowed left =>
    rw [hsync] at h
    rcases rulesOf_edit reader hproper op uuid with hcovers | hsame
    · exact .inr hcovers
    · exact h.imp (fun hread => hread.trans (congrArg Rules.allowed hsame.symm)) covers_mutate
  | rules p uuid rules left =>
    rw [hsync] at h
    rcases rulesOf_edit reader hproper op uuid with hcovers | hsame
    · exact .inr hcovers
    · exact h.imp (fun hread => hread.trans hsame.symm) covers_mutate
  | idle | taken _ | looking _ _ _ | looked _ | sending _ | metadata _ _ _ | failed _ _
  | retry _ _ => trivial

/-! ### Runs -/

structure Sound (casing : Casing) (s : State) : Prop where
  proper : Proper casing s
  placed : Placed s
  leased : Leased s
  fresh : Fresh casing s
  told : Told casing s

theorem Sound.initial : Sound casing .initial where
  proper := .empty
  placed := ⟨fun _ _ h => (nomatch h), fun _ _ _ _ h => (nomatch h)⟩
  leased := fun _ _ h => (nomatch h)
  fresh := trivial
  told := fun _ _ h => (nomatch h)

theorem Sound.accept (h : Sound casing s)
    (hs : ∃ c accept, s' = s.setAccept i accept ∧ AcceptStep casing s i c accept) :
    Sound casing s' := by
  obtain ⟨c, accept, rfl, hstep⟩ := hs
  exact ⟨h.proper, hstep.placed h.placed, hstep.leased h.leased, h.fresh, hstep.told h.told⟩

theorem Sound.stage (h : Sound casing s) {stage : Stage}
    (hs : StageStep s s' i c stage) (hplaced : Placed s') : Sound casing s' := by
  refine ⟨?_, hplaced, hs.leases h.leased, h.fresh.of_same hs.manager hs.sync,
    hs.told h.placed h.told⟩
  unfold Proper
  rw [hs.manager]
  exact h.proper

/-- A step of the synchronisation that queues nothing leaves the connections as they are. -/
theorem Sound.of_told (h : Sound casing s) (hstore : s'.manager.store = s.manager.store)
    (hconnections : s'.connections = s.connections)
    (hauthenticated : s'.authenticated = s.authenticated)
    (hfresh : Fresh casing s') (htold : Told casing s') : Sound casing s' where
  proper := by
    unfold Proper
    rw [hstore]
    exact h.proper
  placed := h.placed.of_same hconnections hauthenticated
  leased := h.leased.of_same hconnections
  fresh := hfresh
  told := htold

/-- The steps of the synchronisation other than a message. -/
def Action.isQuiet : Action → Bool
  | .takeChanges | .startSync | .look _ | .endLook | .takeRetries | .pick _ | .syncAllowed
  | .syncDenied
  | .syncError | .check | .retry | .endSync => true
  | _ => false

theorem quiet_frame (h : step casing reader s a = some s') (ha : a.isQuiet = true) :
    s'.manager.store = s.manager.store ∧ s'.connections = s.connections ∧
      s'.authenticated = s.authenticated ∧ (a ≠ .syncDenied → Fresh casing s') := by
  cases a <;> cases ha
  all_goals
    simp only [step, State.takeChanges, State.startSync, State.look, State.endLook,
      State.takeRetries,
      State.pick, State.syncAllowed, State.syncDenied, State.syncError, State.check, State.retry,
      State.endSync] at h
    repeat' split at h
  all_goals first
    | cases h
      first
        | exact ⟨rfl, rfl, rfl, fun _ => trivial⟩
        | exact ⟨rfl, rfl, rfl, fun _ => .inl rfl⟩
        | exact ⟨rfl, rfl, rfl, fun hne => absurd rfl hne⟩
    | cases h

section

variable (h : Sound casing s)
include h

theorem Sound.quiet (ha : a.isQuiet = true) (hs : step casing reader s a = some s')
    (hfresh : a = .syncDenied → Fresh casing s') (htold : Told casing s') : Sound casing s' := by
  obtain ⟨hstore, hconnections, hauthenticated, hother⟩ := quiet_frame hs ha
  refine h.of_told hstore hconnections hauthenticated ?_ htold
  by_cases hdenied : a = .syncDenied
  · exact hfresh hdenied
  · exact hother hdenied

theorem Sound.connect (hs : s.connect peer uuid = some s') : Sound casing s' := by
  have hplaced := h.placed.connect hs
  have hleased := h.leased.connect hs
  have htold := h.told.connect hs
  simp only [State.connect] at hs
  split at hs
  · cases hs
  · cases hs
    exact ⟨h.proper, hplaced, hleased, h.fresh, htold⟩

theorem Sound.register (hs : s.register i = some s') : Sound casing s' := by
  have hplaced := h.placed.register hs
  have hleased := h.leased.register hs
  have htold := h.told.register hs
  simp only [State.register] at hs
  split at hs
  · split at hs
    · cases hs
      exact ⟨h.proper, hplaced, hleased, h.fresh, htold⟩
    · cases hs
  · cases hs

theorem Sound.acceptSend (hs : s.acceptSend i = some s') : Sound casing s' := by
  have hplaced := h.placed.acceptSend hs
  have hleased := h.leased.acceptSend hs
  have htold := h.told.acceptSend h.placed h.leased hs
  obtain ⟨c, rules, -, -, rfl⟩ := acceptSend_step hs
  refine ⟨?_, hplaced, hleased, h.fresh.of_same (send_manager _ _) (send_sync _ _), htold⟩
  show ProperStore casing _ (s.send c.peer rules).manager.store
  rw [send_manager]
  exact h.proper

theorem Sound.syncSend (htimely : Timely casing s .syncSend = true) (hs : s.syncSend = some s') :
    Sound casing s' := by
  have htold := h.told.syncSend h.placed h.fresh htimely hs
  simp only [State.syncSend] at hs
  split at hs
  · rename_i p u rules left hsync
    cases hs
    refine ⟨?_, (h.placed.send p rules).of_same rfl rfl, (h.leased.send p rules).of_same rfl,
      trivial, htold⟩
    show ProperStore casing _ (s.send p rules).manager.store
    rw [send_manager]
    exact h.proper
  · cases hs

theorem Sound.step (htimely : Timely casing s a = true) (hs : step casing reader s a = some s') :
    Sound casing s' := by
  cases a with
  | edit op =>
    cases hs
    exact ⟨h.proper.edit op, h.placed.of_same rfl rfl, h.leased.of_same rfl,
      h.fresh.edit h.proper op, h.told.edit h.proper op⟩
  | connect peer uuid => exact h.connect hs
  | refuse i => exact h.accept (refuse_step hs)
  | register i => exact h.register hs
  | acceptAllowed i => exact h.accept (acceptAllowed_step hs)
  | acceptDenied i => exact h.accept (acceptDenied_step hs)
  | acceptSend i => exact h.acceptSend hs
  | acceptError i => exact h.accept (acceptError_step hs)
  | acceptEnd i ok => exact h.accept (acceptEnd_step hs)
  | close i =>
    obtain ⟨c, hstep⟩ := close_step hs
    exact h.stage hstep (hstep.placed (nomatch ·) h.placed)
  | dropRetry i =>
    obtain ⟨c, hstep⟩ := dropRetry_step hs
    exact h.stage hstep (hstep.placed (nomatch ·) h.placed)
  | unauthenticate i =>
    obtain ⟨c, hstep⟩ := unauthenticate_step hs
    exact h.stage hstep (h.placed.unauthenticate hs)
  | recycle i =>
    obtain ⟨c, hstep⟩ := recycle_step hs
    exact h.stage hstep (hstep.placed (nomatch ·) h.placed)
  | takeChanges => exact h.quiet rfl hs (nomatch ·) (h.told.takeChanges h.placed hs)
  | startSync => exact h.quiet rfl hs (nomatch ·) (h.told.startSync h.placed hs)
  | look peer => exact h.quiet rfl hs (nomatch ·) (h.told.look h.placed hs)
  | endLook => exact h.quiet rfl hs (nomatch ·) (h.told.endLook h.placed hs)
  | takeRetries => exact h.quiet rfl hs (nomatch ·) (h.told.takeRetries h.placed hs)
  | pick peer => exact h.quiet rfl hs (nomatch ·) (h.told.pick h.placed hs)
  | syncAllowed => exact h.quiet rfl hs (nomatch ·) (h.told.syncAllowed h.placed hs)
  | syncDenied =>
    exact h.quiet rfl hs (fun _ => h.fresh.syncDenied hs) (h.told.syncDenied h.placed hs)
  | syncSend => exact h.syncSend htimely hs
  | syncError => exact h.quiet rfl hs (nomatch ·) (h.told.syncError h.placed hs)
  | check => exact h.quiet rfl hs (nomatch ·) (h.told.check h.placed hs)
  | retry => exact h.quiet rfl hs (nomatch ·) (h.told.retry h.placed hs)
  | endSync => exact h.quiet rfl hs (nomatch ·) (h.told.endSync h.placed hs)

end

theorem reachable_sound
    (h : Reachable (system casing reader) (fun s a => Timely casing s a = true) s) :
    Sound casing s := by
  refine h.invariant (Sound casing) ?_ fun s a s' hsound hok hs => hsound.step hok hs
  rintro s rfl
  exact .initial

/-! ### The views -/

/-- No change and no retry is pending, and nobody synchronises or accepts. -/
def State.IsQuiet (s : State) : Prop :=
  s.manager.changes = [] ∧ s.retries = ∅ ∧ s.sync = .idle ∧
    ∀ c ∈ s.connections, c.accept.inProgress = false

instance (s : State) : Decidable s.IsQuiet := inferInstanceAs (Decidable (_ ∧ _ ∧ _ ∧ _))

/-- The rules are those that the store gives the user, in every order of its hash maps. -/
def Gives (casing : Casing) (store : PermissionStore) (uuid : Text) (rules : Rules) : Prop :=
  ∀ order : HashOrder, order.Of store → ∀ fuel, store.groups.len < fuel →
    ∃ decisions, effectiveDecisions casing store order fuel uuid = some decisions ∧
      ∀ node, (node ∈ rules.allowed ↔ decisions.get node = some true) ∧
        (node ∈ rules.denied ↔ decisions.get node = some false)

theorem gives_rulesOf (h : Proper casing s) (uuid : Text) :
    Gives casing s.manager.store uuid (s.rulesOf casing uuid) := by
  intro order horder fuel hfuel
  have hfree := h.caseFree
  refine ⟨_, effectiveDecisions_eq hfree.users hfree.groups horder hfuel uuid, fun node => ?_⟩
  have hmem : ∀ b, (node, b) ∈ (decisions casing s.manager.store uuid).entries ↔
      (decisions casing s.manager.store uuid).get node = some b := fun b => OrderedMap.mem_iff_get
  constructor
  · rw [← hmem]
    simp [State.rulesOf, allowedRules]
  · rw [← hmem]
    simp [State.rulesOf, deniedRules]

theorem Due.not_quiet (hquiet : s.IsQuiet) : ¬ Due casing s peer uuid := by
  obtain ⟨hchanges, hretries, hsync, -⟩ := hquiet
  unfold Due
  rw [hchanges, hretries, hsync]
  rintro (hcovers | hretry | hserves)
  · cases hcovers
  · exact Finset.notMem_empty _ hretry
  · exact hserves

/-- **Permission views converge.** In a run whose messages are queued in time, once nothing is
pending the last message that was queued to an authenticated peer that is online and was accepted
has the rules that the store gives it. -/
theorem permission_views_converge {casing : Casing} {reader : XmlReader} {s : State}
    (hreach : Reachable (system casing reader) (fun s a => Timely casing s a = true) s)
    (hquiet : s.IsQuiet) {peer : ℕ} {c : Connection} (hpeer : s.connectionOf peer = some c)
    (haccept : c.accept = .succeeded) (honline : c.stage = .online) :
    ∃ rules, c.queued.getLast? = some rules ∧ Gives casing s.manager.store c.uuid rules := by
  have hsound := reachable_sound hreach
  obtain ⟨i, -, hc⟩ := Option.bind_eq_some_iff.mp hpeer
  refine ⟨s.rulesOf casing c.uuid, ?_, gives_rulesOf hsound.proper c.uuid⟩
  have htold := (hsound.told i c hc honline).resolve_right (Due.not_quiet hquiet)
  unfold Connection.UpToDate at htold
  rw [haccept] at htold
  exact htold

/-! ### Runs that show it -/

/-- A connection of a user, up to the message of `finalize_accept`. -/
def join (i peer : ℕ) (uuid : Text) : List Action :=
  [.connect peer uuid, .register i, .acceptAllowed i, .acceptDenied i]

def queueAccept (i : ℕ) : List Action := [.acceptSend i, .acceptEnd i true]

def give (uuid : Text) : Action := .edit (.addUserNode uuid ['x'])

/-- A synchronisation that has read the metadata of a peer. -/
def target (peer : ℕ) : List Action :=
  [.takeChanges, .startSync, .look peer, .endLook, .takeRetries, .pick peer]

def deliver : List Action := [.syncAllowed, .syncDenied, .syncSend, .endSync]

/-- The first message of the synchronisation cannot be queued. -/
def retriedRun : List Action :=
  join 0 1 ['u'] ++ queueAccept 0 ++ [give ['u']] ++ target 1 ++
    [.syncAllowed, .syncDenied, .syncError, .check, .retry, .endSync] ++ target 1 ++ deliver

/-- Nothing is pending, and the peer was accepted. -/
def settledAt (peer : ℕ) (stage : Stage) (s : State) (p : Connection → Bool) : Bool :=
  decide s.IsQuiet && (s.connectionOf peer).any fun c =>
    decide (c.accept = .succeeded ∧ c.stage = stage) && p c

theorem settledAt_iff {stage : Stage} {p : Connection → Bool} :
    settledAt peer stage s p = true ↔
      s.IsQuiet ∧ ∃ c, s.connectionOf peer = some c ∧ (c.accept = .succeeded ∧ c.stage = stage) ∧
        p c = true := by
  unfold settledAt
  rw [Bool.and_eq_true, decide_eq_true_eq, Option.any_eq_true]
  simp only [Bool.and_eq_true, decide_eq_true_eq]

theorem permission_views_converge_retried :
    ∃ (s : State) (c : Connection) (rules : Rules), s.connectionOf 1 = some c ∧
      c.queued.length = 2 ∧ c.queued.getLast? = some rules ∧
      Gives asciiCasing s.manager.store c.uuid rules := by
  have hok : Admits (system asciiCasing markupReader)
      (fun s a => Timely asciiCasing s a = true) .initial retriedRun := by
    decide +kernel
  have hrun : (runActions (system asciiCasing markupReader) .initial retriedRun).any
      (fun s => settledAt 1 .online s fun c => decide (c.queued.length = 2)) = true := by
    decide +kernel
  obtain ⟨s, hreach, hsettled⟩ := exists_reachable_of_run _ hok (.init rfl) hrun
  obtain ⟨hquiet, c, hc, ⟨haccept, honline⟩, hlength⟩ := settledAt_iff.mp hsettled
  obtain ⟨rules, hlast, hgives⟩ := permission_views_converge hreach hquiet hc haccept honline
  exact ⟨s, c, rules, hc, of_decide_eq_true hlength, hlast, hgives⟩

/-- The last message to the peer says something else of a node than the store. -/
def isMisled (node : Text) (s : State) (c : Connection) : Bool :=
  c.queued.getLast?.any fun rules =>
    decide (node ∈ rules.allowed) != decide
      ((decisions asciiCasing s.manager.store c.uuid).get node = some true)

theorem Gives.mem_allowed {store : PermissionStore} {node : Text}
    (h : Gives casing store uuid rules) :
    node ∈ rules.allowed ↔ (decisions casing store uuid).get node = some true := by
  obtain ⟨d, hd, hnodes⟩ :=
    h _ (HashOrder.sorted_of store) (store.groups.len + 1) (Nat.lt_succ_self _)
  rw [decisions, hd]
  exact (hnodes node).1

theorem isMisled_spec {node : Text} (h : isMisled node s c = true) :
    ∃ rules, c.queued.getLast? = some rules ∧ ¬ Gives asciiCasing s.manager.store c.uuid rules := by
  obtain ⟨rules, hlast, hdiffer⟩ := (Option.any_eq_true _ _).mp h
  refine ⟨rules, hlast, fun hgives => ?_⟩
  rw [decide_eq_decide.mpr hgives.mem_allowed, bne_self_eq_false] at hdiffer
  cases hdiffer

/-- A quiet state of a run in which the last message to an authenticated peer has other rules. -/
def Misleads (ok : State → Action → Bool) (uuid : Text) (stage : Stage) : Prop :=
  ∃ (s : State) (c : Connection) (rules : Rules),
    Reachable (system asciiCasing markupReader) (fun s a => ok s a = true) s ∧ s.IsQuiet ∧
    s.connectionOf 1 = some c ∧ c.uuid = uuid ∧ c.accept = .succeeded ∧ c.stage = stage ∧
    c.queued.getLast? = some rules ∧ ¬ Gives asciiCasing s.manager.store c.uuid rules

theorem misleads_of_run {ok : State → Action → Bool} {stage : Stage} (as : List Action)
    (hok : Admits (system asciiCasing markupReader) (fun s a => ok s a = true) .initial as)
    (h : (runActions (system asciiCasing markupReader) .initial as).any
      (fun s => settledAt 1 stage s fun c => decide (c.uuid = uuid) && isMisled ['x'] s c) = true) :
    Misleads ok uuid stage := by
  obtain ⟨s, hreach, hsettled⟩ :=
    exists_reachable_of_run (fun s a => ok s a = true) hok (.init rfl) h
  obtain ⟨hquiet, c, hc, ⟨haccept, hstage⟩, hboth⟩ := settledAt_iff.mp hsettled
  obtain ⟨huuid, hmisled⟩ := Bool.and_eq_true_iff.mp hboth
  obtain ⟨rules, hlast, hnot⟩ := isMisled_spec hmisled
  exact ⟨s, c, rules, hreach, hquiet, hc, of_decide_eq_true huuid, haccept, hstage, hlast, hnot⟩

/-- Only one user is edited. -/
def EditsOnly (uuid : Text) (_ : State) : Action → Bool
  | .edit op => op.scope = some uuid
  | _ => true

/-- A peer whose connection is closed is not told a change while it is still authenticated; the
rules that `finalize_accept` has read replace newer ones; and a message that was read for one
connection goes to another that has got its id, whose own rules no change concerns. -/
theorem stale_views :
    Misleads (Timely asciiCasing) ['u'] .closed ∧ Misleads (EditsOnly ['u']) ['u'] .online ∧
      Misleads (EditsOnly ['a']) ['b'] .online := by
  refine ⟨?_, ?_, ?_⟩
  · exact misleads_of_run
      (join 0 1 ['u'] ++ queueAccept 0 ++ [.close 0, give ['u']] ++ target 1 ++ deliver)
      (by decide +kernel) (by decide +kernel)
  · exact misleads_of_run
      (join 0 1 ['u'] ++ [give ['u']] ++ target 1 ++ deliver ++ queueAccept 0)
      (by decide +kernel) (by decide +kernel)
  · exact misleads_of_run
      (join 0 1 ['a'] ++ queueAccept 0 ++ [give ['a']] ++ target 1 ++
        [.close 0, .dropRetry 0, .unauthenticate 0, .recycle 0] ++ join 1 1
          ['b'] ++ queueAccept 1 ++ deliver)
      (by decide +kernel) (by decide +kernel)

end BasisRust.Server.Views
