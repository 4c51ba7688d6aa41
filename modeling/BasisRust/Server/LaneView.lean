import BasisRust.Server.EventLoop

/-!
# Lanes, entries and running handlers as functions

The parts of the event loop that decide where an event is: the lane of every key, the generation
entry of every peer and channel, the running handlers, and which sessions are current.  `LaneView`
has them as functions, without the counters, the ready keys and the permits, and its operations are
what the operations of the loop do to them.
-/

namespace BasisRust.Server

open Library EventLoop OrderedHandlerQueue

@[ext]
structure LaneView (α : Type) where
  lane : OrderedLaneKey → Option (OrderedLane (OrderedEvent α))
  entry : PeerId × Byte → Option (PeerSession × BitVec 64)
  running : List (OrderedLaneKey × OrderedEvent α)
  current : PeerSession → Prop
  known : PeerSession → Prop
  arrived : PeerSession → Byte → List α
  started : PeerSession → Byte → List α
  dropped : PeerSession → Byte → List α

namespace LaneView

variable {α : Type} {c : Byte} {key : OrderedLaneKey} {t : PeerSession}

/-- The bodies that wait in the lane of a key. -/
def bodies (v : LaneView α) (key : OrderedLaneKey) : List α :=
  ((v.lane key).elim [] fun lane => lane.events).map OrderedEvent.body

/-- The bodies of a session and channel that wait in the lane of its entry. -/
def waiting (v : LaneView α) (s : PeerSession) (c : Byte) : List α :=
  match v.entry (s.peer, c) with
  | some (t, g) => if t = s then v.bodies (s.peer, c, g) else []
  | none => []

variable {v : LaneView α} {s : PeerSession} {g : BitVec 64} {v' : LaneView α} {e : OrderedEvent α}

theorem waiting_of_entry (h : v.entry (s.peer, c) = some (s, g)) :
    v.waiting s c = v.bodies (s.peer, c, g) := by
  simp [waiting, h]

theorem waiting_of_ne (h : ∀ g, v.entry (s.peer, c) ≠ some (s, g)) : v.waiting s c = [] := by
  rw [waiting]
  cases hv : v.entry (s.peer, c) with
  | none => rfl
  | some y =>
    obtain ⟨t, g⟩ := y
    exact if_neg fun ht : t = s => h g (ht ▸ hv)

/-- What waits for a session depends only on its entry and on the lane of that entry. -/
theorem waiting_congr (hentry : v'.entry (s.peer, c) = v.entry (s.peer, c))
    (hbodies : ∀ g, v.entry (s.peer, c) = some (s, g) →
      v'.bodies (s.peer, c, g) = v.bodies (s.peer, c, g)) : v'.waiting s c = v.waiting s c := by
  by_cases h : ∃ g, v.entry (s.peer, c) = some (s, g)
  · obtain ⟨g, hg⟩ := h
    rw [waiting_of_entry hg, waiting_of_entry (hentry.trans hg), hbodies g hg]
  · rw [waiting_of_ne fun g hg => h ⟨g, hg⟩, waiting_of_ne fun g hg => h ⟨g, hentry ▸ hg⟩]

/-! ### The invariant -/

/-- What holds of a running handler. -/
structure RunningInv (v : LaneView α) (x : OrderedLaneKey × OrderedEvent α) : Prop where
  base : laneBase x.1 = (x.2.session.peer, x.2.channel)
  known : v.known x.2.session
  lane : ∃ lane, v.lane x.1 = some lane ∧ lane.running = true
  current : v.current x.2.session → v.entry (laneBase x.1) = some (x.2.session, x.1.2.2)
  entry : ∀ g, v.entry (laneBase x.1) = some (x.2.session, g) → g = x.1.2.2

/-- The history of one session and channel. -/
structure LogInv (v : LaneView α) (s : PeerSession) (c : Byte) : Prop where
  arrived : v.arrived s c = v.started s c ++ v.waiting s c ++ v.dropped s c
  settled : v.dropped s c ≠ [] → v.waiting s c = []
  live : v.current s → v.dropped s c = []
  unknown : ¬ v.known s → v.arrived s c = []

structure Inv (v : LaneView α) : Prop where
  queued : ∀ key lane, v.lane key = some lane → ∀ e ∈ lane.events,
    laneBase key = (e.session.peer, e.channel) ∧ v.entry (laneBase key) = some (e.session, key.2.2)
  entries : ∀ base s g, v.entry base = some (s, g) → v.known s ∧ s.peer = base.1
  running : ∀ x ∈ v.running, v.RunningInv x
  registered : ∀ key lane, v.lane key = some lane → lane.running = true →
    key ∈ v.running.map Prod.fst
  distinct : (v.running.map Prod.fst).Nodup
  single : ∀ x ∈ v.running, ∀ y ∈ v.running, x.2.session = y.2.session →
    x.2.channel = y.2.channel → x.1 = y.1
  currentKnown : ∀ s, v.current s → v.known s
  currentUnique : ∀ s t, v.current s → v.current t → s.peer = t.peer → s = t
  identity : ∀ s t, v.known s → v.known t → s.state = t.state → s = t
  log : ∀ s c, v.LogInv s c

/-- A key is its base and its generation. -/
theorem key_ext {j k : OrderedLaneKey} (hbase : laneBase j = laneBase k) (hgen : j.2.2 = k.2.2) :
    j = k := by
  obtain ⟨p, c, g⟩ := j
  obtain ⟨p', c', g'⟩ := k
  simp only [laneBase, Prod.mk.injEq] at hbase hgen
  rw [hbase.1, hbase.2, hgen]

/-- A log that neither grows nor loses waiting bodies. -/
theorem LogInv.frame (h : v.LogInv s c) (harrived : v'.arrived s c = v.arrived s c)
    (hstarted : v'.started s c = v.started s c) (hwaiting : v'.waiting s c = v.waiting s c)
    (hdropped : v'.dropped s c = v.dropped s c) (hcurrent : v'.current s → v.current s)
    (hknown : v.known s → v'.known s) : v'.LogInv s c where
  arrived := by rw [harrived, hstarted, hwaiting, hdropped, h.arrived]
  settled := by
    rw [hdropped, hwaiting]
    exact h.settled
  live := by
    rw [hdropped]
    exact fun hc => h.live (hcurrent hc)
  unknown := by
    rw [harrived]
    exact fun hk => h.unknown fun hv => hk (hknown hv)

/-- The waiting events of a lane are of the session its entry names. -/
theorem Inv.session_eq (h : v.Inv) {lane : OrderedLane (OrderedEvent α)}
    (hlane : v.lane key = some lane) (hentry : v.entry (laneBase key) = some (s, g)) :
    ∀ e ∈ lane.events, e.session = s := by
  intro e he
  have hq := (h.queued key lane hlane e he).2
  rw [hentry] at hq
  cases hq
  rfl

/-! ### Connections -/

/-- The transport accepts a session that was never known before. -/
def connect (v : LaneView α) (s : PeerSession) : LaneView α :=
  { v with
    current := fun t => t = s ∨ v.current t
    known := fun t => t = s ∨ v.known t }

theorem Inv.connect (h : v.Inv) (hnew : ¬ v.known s)
    (hfree : ∀ t, v.current t → t.peer ≠ s.peer) (hid : ∀ t, v.known t → t.state ≠ s.state) :
    (v.connect s).Inv where
  __ := h
  entries := by
    intro base t g he
    exact ⟨.inr (h.entries base t g he).1, (h.entries base t g he).2⟩
  running := by
    intro x hx
    have hr := h.running x hx
    refine ⟨hr.base, .inr hr.known, hr.lane, ?_, hr.entry⟩
    rintro (heq | hc)
    · exact absurd hr.known (heq ▸ hnew)
    · exact hr.current hc
  currentKnown := by
    rintro t (rfl | hc)
    · exact .inl rfl
    · exact .inr (h.currentKnown t hc)
  currentUnique := by
    rintro t t' (rfl | ht) (rfl | ht') hpeer
    · rfl
    · exact absurd hpeer.symm (hfree t' ht')
    · exact absurd hpeer (hfree t ht)
    · exact h.currentUnique t t' ht ht' hpeer
  identity := by
    rintro t t' (rfl | ht) (rfl | ht') hstate
    · rfl
    · exact absurd hstate.symm (hid t' ht')
    · exact absurd hstate (hid t ht)
    · exact h.identity t t' ht ht' hstate
  log := by
    intro t c
    have hlog := h.log t c
    refine ⟨hlog.arrived, hlog.settled, ?_, fun hk => hlog.unknown fun hv => hk (.inr hv)⟩
    rintro (rfl | hc)
    · have hnil := hlog.arrived
      rw [hlog.unknown hnew] at hnil
      exact (List.append_eq_nil_iff.mp hnil.symm).2
    · exact hlog.live hc

/-- The transport forgets some of the current sessions. -/
def retire (v : LaneView α) (keep : PeerSession → Prop) : LaneView α :=
  { v with current := fun t => v.current t ∧ keep t }

theorem Inv.retire (h : v.Inv) (keep : PeerSession → Prop) : (v.retire keep).Inv where
  __ := h
  running := by
    intro x hx
    have hr := h.running x hx
    exact ⟨hr.base, hr.known, hr.lane, fun hc => hr.current hc.1, hr.entry⟩
  currentKnown := fun t hc => h.currentKnown t hc.1
  currentUnique := fun s t hs ht => h.currentUnique s t hs.1 ht.1
  log := fun s c => (h.log s c).frame rfl rfl rfl rfl And.left id

/-! ### Waiting events -/

/-- Append an event to a lane. -/
def enqueue (v : LaneView α) (key : OrderedLaneKey) (e : OrderedEvent α) : LaneView α :=
  { v with
    lane := fun k =>
      if k = key then
        some ⟨((v.lane key).getD ⟨[], false⟩).events ++ [e],
          ((v.lane key).getD ⟨[], false⟩).running⟩
      else v.lane k
    arrived := record v.arrived e.session e.channel [e.body] }

theorem enqueue_bodies (v : LaneView α) (key k : OrderedLaneKey) (e : OrderedEvent α) :
    (v.enqueue key e).bodies k = if k = key then v.bodies key ++ [e.body] else v.bodies k := by
  by_cases hk : k = key
  · subst hk
    cases hl : v.lane k <;> simp [bodies, enqueue, hl]
  · simp [bodies, enqueue, hk]

theorem record_self (log : PeerSession → Byte → List α) (s : PeerSession) (c : Byte)
    (xs : List α) : record log s c xs s c = log s c ++ xs :=
  if_pos ⟨rfl, rfl⟩

theorem record_of_ne (log : PeerSession → Byte → List α) {d : Byte} (xs : List α)
    (h : ¬ (t = s ∧ d = c)) : record log s c xs t d = log t d :=
  if_neg h

/-- The entry of a lane in terms of the session it is for. -/
theorem entry_of_base (hbase : laneBase key = (s.peer, c))
    (hentry : v.entry (laneBase key) = some (s, key.2.2)) : v.waiting s c = v.bodies key := by
  have hkey : (s.peer, c, key.2.2) = key := key_ext hbase.symm rfl
  rw [waiting_of_entry (hbase ▸ hentry), hkey]

/-- A change of one lane does not touch what waits for another session or channel. -/
theorem waiting_of_other {d : Byte} (hbase : laneBase key = (s.peer, c))
    (hentry : v.entry (laneBase key) = some (s, g)) (hentries : v'.entry = v.entry)
    (hbodies : ∀ k, k ≠ key → v'.bodies k = v.bodies k) (hother : ¬ (t = s ∧ d = c)) :
    v'.waiting t d = v.waiting t d := by
  refine waiting_congr (by rw [hentries]) fun g' hg' => hbodies _ ?_
  rintro rfl
  rw [show laneBase (t.peer, d, g') = (t.peer, d) from rfl] at hbase hentry
  rw [hg'] at hentry
  cases hentry
  exact hother ⟨rfl, (Prod.mk.inj hbase).2⟩

theorem Inv.enqueue (h : v.Inv) (hbase : laneBase key = (e.session.peer, e.channel))
    (hcur : v.current e.session) (hentry : v.entry (laneBase key) = some (e.session, key.2.2)) :
    (v.enqueue key e).Inv where
  queued := by
    intro k lane hk e' he'
    simp only [LaneView.enqueue] at hk
    split_ifs at hk with heq
    · subst heq
      cases hk
      rcases List.mem_append.mp he' with hold | hnew
      · cases hl : v.lane k with
        | none => simp [hl] at hold
        | some lane =>
          rw [hl] at hold
          exact h.queued k lane hl e' hold
      · rw [List.mem_singleton] at hnew
        subst hnew
        exact ⟨hbase, hentry⟩
    · exact h.queued k lane hk e' he'
  __ := h
  running := by
    intro x hx
    have hr := h.running x hx
    refine ⟨hr.base, hr.known, ?_, hr.current, hr.entry⟩
    obtain ⟨lane, hl, hrun⟩ := hr.lane
    by_cases hk : x.1 = key
    · refine ⟨_, if_pos hk, ?_⟩
      rw [hk] at hl
      simpa [hl] using hrun
    · exact ⟨lane, (if_neg hk).trans hl, hrun⟩
  registered := by
    intro k lane hk hrun
    simp only [LaneView.enqueue] at hk
    split_ifs at hk with heq
    · subst heq
      cases hk
      cases hl : v.lane k with
      | none => simp [hl] at hrun
      | some lane =>
        rw [hl] at hrun
        exact h.registered k lane hl hrun
    · exact h.registered k lane hk hrun
  log := by
    intro s c
    have hlog := h.log s c
    by_cases hs : s = e.session ∧ c = e.channel
    · -- The only log that grows is the one of the event's session and channel.
      obtain ⟨rfl, rfl⟩ := hs
      have hdrop := hlog.live hcur
      have hw : (v.enqueue key e).waiting e.session e.channel = v.bodies key ++ [e.body] := by
        rw [entry_of_base hbase (v := v.enqueue key e) hentry, enqueue_bodies, if_pos rfl]
      refine ⟨?_, fun hd => absurd hdrop hd, fun _ => hdrop, fun hk =>
        absurd (h.currentKnown _ hcur) hk⟩
      have hold := hlog.arrived
      rw [entry_of_base hbase hentry, hdrop] at hold
      change record v.arrived e.session e.channel [e.body] e.session e.channel =
        v.started e.session e.channel ++ _ ++ v.dropped e.session e.channel
      rw [record_self, hw, hold, hdrop]
      simp
    · refine hlog.frame (record_of_ne _ _ hs) rfl ?_ rfl id id
      refine waiting_of_other hbase hentry rfl (fun k hk => ?_) hs
      rw [enqueue_bodies, if_neg hk]

/-- A message of a session that is no longer current. -/
def reject (v : LaneView α) (s : PeerSession) (c : Byte) (body : α) : LaneView α :=
  { v with
    arrived := record v.arrived s c [body]
    dropped := record v.dropped s c [body] }

theorem Inv.reject (h : v.Inv) (body : α) (hknown : v.known s) (hcur : ¬ v.current s)
    (hwait : v.waiting s c = []) : (v.reject s c body).Inv where
  __ := h
  running := fun x hx =>
    let hr := h.running x hx
    ⟨hr.base, hr.known, hr.lane, hr.current, hr.entry⟩
  log := by
    intro t d
    have hlog := h.log t d
    by_cases ht : t = s ∧ d = c
    · obtain ⟨rfl, rfl⟩ := ht
      refine ⟨?_, fun _ => hwait, fun hc => absurd hc hcur, fun hk => absurd hknown hk⟩
      change record v.arrived t d [body] t d = v.started t d ++ v.waiting t d ++
        record v.dropped t d [body] t d
      rw [record_self, record_self, hlog.arrived]
      simp
    · exact hlog.frame (record_of_ne _ _ ht) rfl rfl (record_of_ne _ _ ht) id id

/-! ### Handlers -/

/-- Start the head of a lane. -/
def start (v : LaneView α) (key : OrderedLaneKey) (e : OrderedEvent α)
    (events : List (OrderedEvent α)) : LaneView α :=
  { v with
    lane := fun k => if k = key then some ⟨events, true⟩ else v.lane k
    running := v.running ++ [(key, e)]
    started := record v.started e.session e.channel [e.body] }

theorem start_bodies (v : LaneView α) (key k : OrderedLaneKey) (e : OrderedEvent α)
    (events : List (OrderedEvent α)) :
    (v.start key e events).bodies k =
      if k = key then events.map OrderedEvent.body else v.bodies k := by
  by_cases hk : k = key <;> simp [bodies, start, hk]

theorem Inv.start (h : v.Inv) {events : List (OrderedEvent α)}
    (hkey : v.lane key = some ⟨e :: events, false⟩) : (v.start key e events).Inv := by
  obtain ⟨hbase, hentry⟩ := h.queued key _ hkey e (.head _)
  -- The lane was not running, so no handler has its key.
  have hidle : ∀ x ∈ v.running, x.1 ≠ key := by
    rintro x hx rfl
    obtain ⟨lane, hl, hrun⟩ := (h.running x hx).lane
    rw [hkey] at hl
    cases hl
    exact absurd hrun (by simp)
  -- A handler of the same session and channel would have the key of the entry.
  have hsame : ∀ x ∈ v.running, x.2.session = e.session → x.2.channel = e.channel → False := by
    intro x hx hs hc
    have hr := h.running x hx
    have hb : laneBase x.1 = laneBase key := by rw [hr.base, hbase, hs, hc]
    exact hidle x hx (key_ext hb (hr.entry key.2.2 (by rw [hb, hentry, hs])).symm)
  refine
    { __ := h, queued := ?_, running := ?_, registered := ?_, distinct := ?_, single := ?_,
      log := ?_ }
  · intro k lane hk e' he'
    simp only [LaneView.start] at hk
    split_ifs at hk with heq
    · subst heq
      cases hk
      exact h.queued k _ hkey e' (.tail _ he')
    · exact h.queued k lane hk e' he'
  · intro x hx
    rcases List.mem_append.mp hx with hold | hnew
    · have hr := h.running x hold
      obtain ⟨lane, hl, hrun⟩ := hr.lane
      exact ⟨hr.base, hr.known, ⟨lane, (if_neg (hidle x hold)).trans hl, hrun⟩, hr.current,
        hr.entry⟩
    · rw [List.mem_singleton] at hnew
      subst hnew
      refine ⟨hbase, (h.entries _ _ _ hentry).1, ⟨⟨events, true⟩, if_pos rfl, rfl⟩,
        fun _ => hentry, fun g hg => ?_⟩
      rw [show (v.start key e events).entry = v.entry from rfl, hentry] at hg
      cases hg
      rfl
  · intro k lane hk hrun
    simp only [LaneView.start] at hk
    rw [LaneView.start, List.map_append]
    split_ifs at hk with heq
    · exact List.mem_append_right _ (by simp [heq])
    · exact List.mem_append_left _ (h.registered k lane hk hrun)
  · rw [LaneView.start, List.map_append]
    refine List.nodup_append.mpr ⟨h.distinct, by simp, ?_⟩
    intro k hk k' hk'
    obtain ⟨x, hx, rfl⟩ := List.mem_map.mp hk
    rw [List.map_singleton, List.mem_singleton] at hk'
    exact hk' ▸ hidle x hx
  · intro x hx y hy hs hc
    rcases List.mem_append.mp hx with hx | hx <;> rcases List.mem_append.mp hy with hy | hy
    · exact h.single x hx y hy hs hc
    · rw [List.mem_singleton] at hy
      subst hy
      exact (hsame x hx hs hc).elim
    · rw [List.mem_singleton] at hx
      subst hx
      exact (hsame y hy hs.symm hc.symm).elim
    · rw [List.mem_singleton] at hx hy
      rw [hx, hy]
  · intro s c
    have hlog := h.log s c
    by_cases hs : s = e.session ∧ c = e.channel
    · obtain ⟨rfl, rfl⟩ := hs
      have hb : v.bodies key = e.body :: events.map OrderedEvent.body := by simp [bodies, hkey]
      have hw : v.waiting e.session e.channel = e.body :: events.map OrderedEvent.body := by
        rw [entry_of_base hbase hentry, hb]
      have hw' : (v.start key e events).waiting e.session e.channel =
          events.map OrderedEvent.body := by
        rw [entry_of_base hbase (v := v.start key e events) hentry, start_bodies, if_pos rfl]
      refine ⟨?_, ?_, hlog.live, hlog.unknown⟩
      · change v.arrived e.session e.channel =
          record v.started e.session e.channel [e.body] e.session e.channel ++ _ ++
            v.dropped e.session e.channel
        rw [record_self, hw', hlog.arrived, hw]
        simp
      · intro hd
        have hnil := hlog.settled hd
        rw [hw] at hnil
        cases hnil
    · refine hlog.frame rfl (record_of_ne _ _ hs) ?_ rfl id id
      refine waiting_of_other hbase hentry rfl (fun k hk => ?_) hs
      rw [start_bodies, if_neg hk]

/-- A joined handler leaves its lane, which goes away if nothing waits in it. -/
def finish (v : LaneView α) (key : OrderedLaneKey)
    (rest : List (OrderedLaneKey × OrderedEvent α)) : LaneView α :=
  { v with
    lane := fun k =>
      if k = key then
        (v.lane key).bind fun lane =>
          if lane.events.isEmpty then none else some { lane with running := false }
      else v.lane k
    running := rest }

theorem finish_bodies (v : LaneView α) (key k : OrderedLaneKey)
    (rest : List (OrderedLaneKey × OrderedEvent α)) :
    (v.finish key rest).bodies k = v.bodies k := by
  by_cases hk : k = key
  · subst hk
    cases hl : v.lane k with
    | none => simp [bodies, finish, hl]
    | some lane =>
      obtain ⟨events, running⟩ := lane
      cases events <;> simp [bodies, finish, hl]
  · simp [bodies, finish, hk]

theorem Inv.finish (h : v.Inv) {rest : List (OrderedLaneKey × OrderedEvent α)}
    (hperm : ((key, e) :: rest).Perm v.running) : (v.finish key rest).Inv := by
  have hmem : ∀ x ∈ rest, x ∈ v.running := fun x hx => hperm.subset (.tail _ hx)
  have hnodup : (key :: rest.map Prod.fst).Nodup := (hperm.map Prod.fst).nodup_iff.mpr h.distinct
  have hne : ∀ x ∈ rest, x.1 ≠ key := by
    rintro x hx rfl
    exact (List.nodup_cons.mp hnodup).1 (List.mem_map_of_mem hx)
  refine
    { __ := h, queued := ?_, running := ?_, registered := ?_, distinct := ?_, single := ?_,
      log := ?_ }
  · intro k lane hk e' he'
    simp only [LaneView.finish] at hk
    split_ifs at hk with heq
    · subst heq
      cases hl : v.lane k with
      | none => simp [hl] at hk
      | some lane₀ =>
        rw [hl, Option.bind_some] at hk
        split_ifs at hk
        cases hk
        exact h.queued k lane₀ hl e' he'
    · exact h.queued k lane hk e' he'
  · intro x hx
    have hr := h.running x (hmem x hx)
    obtain ⟨lane, hl, hrun⟩ := hr.lane
    exact ⟨hr.base, hr.known, ⟨lane, (if_neg (hne x hx)).trans hl, hrun⟩, hr.current, hr.entry⟩
  · intro k lane hk hrun
    simp only [LaneView.finish] at hk
    split_ifs at hk with heq
    · cases hl : v.lane key with
      | none => simp [hl] at hk
      | some lane₀ =>
        rw [hl, Option.bind_some] at hk
        split_ifs at hk
        cases hk
        exact absurd hrun (by simp)
    · have hold := (hperm.map Prod.fst).symm.subset (h.registered k lane hk hrun)
      exact (List.mem_cons.mp hold).resolve_left heq
  · exact (List.nodup_cons.mp hnodup).2
  · exact fun x hx y hy => h.single x (hmem x hx) y (hmem y hy)
  · intro s c
    exact (h.log s c).frame rfl rfl
      (waiting_congr rfl fun g _ => finish_bodies v key _ rest) rfl id id

/-! ### Entries -/

/-- Replace or remove the entry of a base. -/
def setEntry (v : LaneView α) (base : PeerId × Byte) (o : Option (PeerSession × BitVec 64)) :
    LaneView α :=
  { v with entry := fun b => if b = base then o else v.entry b }

/-- The entry of a lane that is gone may be removed. -/
theorem Inv.dropEntry (h : v.Inv) (hentry : v.entry (laneBase key) = some (s, key.2.2))
    (hlane : v.lane key = none) : (v.setEntry (laneBase key) none).Inv := by
  have hgone : ∀ k, laneBase k = laneBase key → ∀ t, v.entry (laneBase k) = some (t, k.2.2) →
      v.lane k = none := by
    intro k hb t ht
    rw [hb, hentry] at ht
    have hgen := (Prod.mk.inj (Option.some.inj ht)).2
    rw [key_ext hb hgen.symm, hlane]
  refine { __ := h, queued := ?_, entries := ?_, running := ?_, log := ?_ }
  · intro k lane hk e he
    obtain ⟨hb, hent⟩ := h.queued k lane hk e he
    refine ⟨hb, (if_neg fun heq => ?_).trans hent⟩
    have hk' : v.lane k = some lane := hk
    rw [hgone k heq _ hent] at hk'
    cases hk'
  · intro b t g hb
    simp only [setEntry] at hb
    split_ifs at hb
    exact h.entries b t g hb
  · intro x hx
    have hr := h.running x hx
    refine ⟨hr.base, hr.known, hr.lane, fun hc => ?_, fun g hg => ?_⟩
    · refine (if_neg fun heq => ?_).trans (hr.current hc)
      obtain ⟨lane, hl, -⟩ := hr.lane
      rw [hgone x.1 heq _ (hr.current hc)] at hl
      cases hl
    · simp only [setEntry] at hg
      split_ifs at hg
      exact hr.entry g hg
  · intro t c
    refine (h.log t c).frame rfl rfl ?_ rfl id id
    by_cases hb : (t.peer, c) = laneBase key
    · rw [waiting_of_ne (v := v.setEntry (laneBase key) none) fun g hg => by
        simp [setEntry, hb] at hg]
      by_cases ht : ∃ g, v.entry (t.peer, c) = some (t, g)
      · obtain ⟨g, hg⟩ := ht
        have hl : v.lane (t.peer, c, g) = none := by
          refine hgone (t.peer, c, g) hb t ?_
          exact hg
        rw [waiting_of_entry hg, bodies, hl]
        rfl
      · rw [waiting_of_ne fun g hg => ht ⟨g, hg⟩]
    · exact waiting_congr (if_neg hb) fun _ _ => rfl

/-- A current session may take over a base whose entry is of another session, once nothing waits
for that one. -/
theorem Inv.newEntry (h : v.Inv) {base : PeerId × Byte}
    (g : BitVec 64) (hcur : v.current s) (hpeer : s.peer = base.1)
    (hold : ∀ t g', v.entry base = some (t, g') → t ≠ s ∧ v.bodies (base.1, base.2, g') = []) :
    (v.setEntry base (some (s, g))).Inv := by
  have hret : ∀ t g', v.entry base = some (t, g') → ¬ v.current t := by
    intro t g' ht hc
    refine (hold t g' ht).1 (h.currentUnique t s hc hcur ?_)
    rw [(h.entries base t g' ht).2, hpeer]
  refine { __ := h, queued := ?_, entries := ?_, running := ?_, log := ?_ }
  · intro k lane hk e he
    obtain ⟨hb, hent⟩ := h.queued k lane hk e he
    refine ⟨hb, (if_neg fun heq => ?_).trans hent⟩
    have hnil := (hold _ _ (heq ▸ hent)).2
    have hkey : (base.1, base.2, k.2.2) = k := key_ext heq.symm rfl
    have hk' : v.lane k = some lane := hk
    rw [hkey, bodies, hk', Option.elim_some, List.map_eq_nil_iff] at hnil
    rw [hnil] at he
    cases he
  · intro b t g' hb
    simp only [setEntry] at hb
    split_ifs at hb with heq
    · cases hb
      exact ⟨h.currentKnown s hcur, heq ▸ hpeer⟩
    · exact h.entries b t g' hb
  · intro x hx
    have hr := h.running x hx
    have hne : v.current x.2.session → laneBase x.1 ≠ base := by
      intro hc heq
      exact hret _ _ (heq ▸ hr.current hc) hc
    refine ⟨hr.base, hr.known, hr.lane, fun hc => ?_, fun g' hg' => ?_⟩
    · exact (if_neg (hne hc)).trans (hr.current hc)
    · simp only [setEntry] at hg'
      split_ifs at hg' with heq
      · cases hg'
        exact absurd heq (hne hcur)
      · exact hr.entry g' hg'
  · intro t c
    refine (h.log t c).frame rfl rfl ?_ rfl id id
    by_cases hb : (t.peer, c) = base
    · have hbefore : v.waiting t c = [] := by
        by_cases ht : ∃ g', v.entry (t.peer, c) = some (t, g')
        · obtain ⟨g', hg'⟩ := ht
          rw [waiting_of_entry hg']
          have hnil := (hold t g' (hb ▸ hg')).2
          rw [← hb] at hnil
          exact hnil
        · exact waiting_of_ne fun g' hg' => ht ⟨g', hg'⟩
      rw [hbefore]
      by_cases hts : t = s
      · -- The lane of the new generation may still exist, but nothing waits in it.
        subst hts
        rw [waiting_of_entry (v := v.setEntry base _) (if_pos hb)]
        change v.bodies (t.peer, c, g) = []
        cases hl : v.lane (t.peer, c, g) with
        | none => simp [bodies, hl]
        | some lane =>
          cases hevents : lane.events with
          | nil => simp [bodies, hl, hevents]
          | cons e events =>
            have hq := (h.queued _ lane hl e (by rw [hevents]; exact .head _)).2
            have hk : (base.1, base.2, g) = (t.peer, c, g) := by rw [← hb]
            have hnil := (hold _ _ (by rw [← hb]; exact hq)).2
            rw [hk, bodies, hl, Option.elim_some, hevents] at hnil
            cases hnil
      · refine waiting_of_ne fun g' hg' => ?_
        have hsome : (v.setEntry base (some (s, g))).entry (t.peer, c) = some (s, g) := if_pos hb
        rw [hsome] at hg'
        cases hg'
        exact hts rfl
    · exact waiting_congr (if_neg hb) fun _ _ => rfl

/-! ### Discards -/

/-- Clear the lane of a session. -/
def clear (v : LaneView α) (key : OrderedLaneKey) (s : PeerSession) : LaneView α :=
  { v with
    lane := fun k => if k = key then cleared (v.lane key) else v.lane k
    dropped := record v.dropped s key.2.1 (v.bodies key) }

theorem clear_bodies (v : LaneView α) (key k : OrderedLaneKey) (s : PeerSession) :
    (v.clear key s).bodies k = if k = key then [] else v.bodies k := by
  by_cases hk : k = key
  · subst hk
    cases hl : v.lane k with
    | none => simp [bodies, clear, hl, cleared]
    | some lane =>
      obtain ⟨events, running⟩ := lane
      cases running <;> simp [bodies, clear, hl, cleared]
  · simp [bodies, clear, hk]

theorem Inv.clear (h : v.Inv) (hentry : v.entry (laneBase key) = some (s, key.2.2))
    (hcur : ¬ v.current s) : (v.clear key s).Inv := by
  have hbase : laneBase key = (s.peer, key.2.1) := by
    rw [(h.entries _ _ _ hentry).2]
    rfl
  refine { __ := h, queued := ?_, running := ?_, registered := ?_, log := ?_ }
  · intro k lane hk e he
    simp only [LaneView.clear] at hk
    split_ifs at hk with heq
    · cases hl : v.lane key with
      | none => simp [hl, cleared] at hk
      | some lane₀ =>
        rw [hl, cleared, Option.bind_some] at hk
        split_ifs at hk
        cases hk
        cases he
    · exact h.queued k lane hk e he
  · intro x hx
    have hr := h.running x hx
    refine ⟨hr.base, hr.known, ?_, hr.current, hr.entry⟩
    obtain ⟨lane, hl, hrun⟩ := hr.lane
    by_cases hk : x.1 = key
    · refine ⟨{ lane with events := [] }, ?_, hrun⟩
      rw [hk] at hl
      simp [LaneView.clear, hk, hl, cleared, hrun]
    · exact ⟨lane, (if_neg hk).trans hl, hrun⟩
  · intro k lane hk hrun
    simp only [LaneView.clear] at hk
    split_ifs at hk with heq
    · cases hl : v.lane key with
      | none => simp [hl, cleared] at hk
      | some lane₀ =>
        rw [hl, cleared, Option.bind_some] at hk
        split_ifs at hk with hrun₀
        exact heq ▸ h.registered key lane₀ hl hrun₀
    · exact h.registered k lane hk hrun
  · intro t c
    have hlog := h.log t c
    by_cases ht : t = s ∧ c = key.2.1
    · obtain ⟨rfl, rfl⟩ := ht
      have hw := entry_of_base hbase hentry
      have hw' : (v.clear key t).waiting t key.2.1 = [] := by
        rw [entry_of_base hbase (v := v.clear key t) hentry, clear_bodies, if_pos rfl]
      refine ⟨?_, fun _ => hw', fun hc => absurd hc hcur, hlog.unknown⟩
      change v.arrived t key.2.1 = v.started t key.2.1 ++ _ ++
        record v.dropped t key.2.1 (v.bodies key) t key.2.1
      rw [record_self, hw', ← hw, hlog.arrived]
      by_cases hd : v.dropped t key.2.1 = []
      · simp [hd]
      · simp [hlog.settled hd]
    · refine hlog.frame rfl rfl ?_ (record_of_ne _ _ ht) id id
      refine waiting_of_other hbase hentry rfl (fun k hk => ?_) ht
      rw [clear_bodies, if_neg hk]

/-- Discard everything that waits for a session, and its entries. -/
def discard (v : LaneView α) (s : PeerSession) : LaneView α :=
  { v with
    lane := fun k => keep (fun e => e.session.sameConnection s) (v.lane k)
    entry := fun b => (v.entry b).filter fun x => !x.1.sameConnection s
    dropped := fun t c => if t = s then v.dropped t c ++ v.waiting t c else v.dropped t c }

theorem Inv.same_connection (h : v.Inv) (hs : v.known s) (ht : v.known t) :
    t.sameConnection s = true ↔ t = s := by
  refine ⟨fun hst => h.identity t s ht hs (by simpa [PeerSession.sameConnection] using hst), ?_⟩
  rintro rfl
  simp [PeerSession.sameConnection]

theorem keep_running {E : Type} {pred : E → Bool} {lane : OrderedLane E}
    (hrun : lane.running = true) :
    keep pred (some lane) = some ⟨lane.events.filter fun e => !pred e, true⟩ := by
  simp [keep, hrun]

theorem keep_some {E : Type} {pred : E → Bool} {o : Option (OrderedLane E)} {lane : OrderedLane E}
    (h : keep pred o = some lane) :
    ∃ lane₀, o = some lane₀ ∧ lane.running = lane₀.running ∧
      lane.events = lane₀.events.filter fun e => !pred e := by
  cases o with
  | none => cases h
  | some lane₀ =>
    simp only [keep, Option.bind_some] at h
    split_ifs at h
    cases h
    exact ⟨lane₀, rfl, rfl, rfl⟩

theorem discard_entry (v : LaneView α) {b : PeerId × Byte}
    (h : (v.discard s).entry b = some (t, g)) :
    v.entry b = some (t, g) ∧ t.sameConnection s = false := by
  obtain ⟨hv, hne⟩ := Option.filter_eq_some_iff.mp h
  exact ⟨hv, by simpa using hne⟩

theorem discard_entry_of_ne (h : v.Inv) {b : PeerId × Byte} (hs : v.known s)
    (hv : v.entry b = some (t, g)) (hne : t ≠ s) : (v.discard s).entry b = some (t, g) := by
  refine Option.filter_eq_some_iff.mpr ⟨hv, ?_⟩
  have hsame := mt (h.same_connection hs (h.entries b t g hv).1).mp hne
  simpa using hsame

/-- The bodies of a lane whose entry is of another session stay. -/
theorem discard_bodies (h : v.Inv) (hs : v.known s)
    (hentry : v.entry (laneBase key) = some (t, key.2.2)) (hne : t ≠ s) :
    (v.discard s).bodies key = v.bodies key := by
  cases hl : v.lane key with
  | none => simp [bodies, discard, hl, keep]
  | some lane =>
    have hfilter : (lane.events.filter fun e => !e.session.sameConnection s) = lane.events := by
      refine List.filter_eq_self.mpr fun e he => ?_
      have hsame := mt (h.same_connection hs (h.entries _ t _ hentry).1).mp hne
      rw [h.session_eq hl hentry e he]
      simpa using hsame
    simp only [bodies, discard, hl, keep, Option.bind_some, hfilter]
    split_ifs with hempty
    · simp only [Bool.and_eq_true, List.isEmpty_iff] at hempty
      simp [hempty.1]
    · rfl

theorem discard_waiting (s : PeerSession) (c : Byte) : (v.discard s).waiting s c = [] := by
  refine waiting_of_ne fun g hg => ?_
  have hsame := (discard_entry v hg).2
  simp [PeerSession.sameConnection] at hsame

theorem Inv.discard (h : v.Inv) (hs : v.known s) (hcur : ¬ v.current s) : (v.discard s).Inv := by
  refine { __ := h, queued := ?_, entries := ?_, running := ?_, registered := ?_, log := ?_ }
  · intro k lane hk e he
    obtain ⟨lane₀, hl, -, hevents⟩ := keep_some hk
    rw [hevents, List.mem_filter] at he
    obtain ⟨hb, hent⟩ := h.queued k lane₀ hl e he.1
    refine ⟨hb, Option.filter_eq_some_iff.mpr ⟨hent, by simpa using he.2⟩⟩
  · intro b t g hb
    exact h.entries b t g (discard_entry v hb).1
  · intro x hx
    have hr := h.running x hx
    refine ⟨hr.base, hr.known, ?_, fun hc => ?_, fun g hg => hr.entry g (discard_entry v hg).1⟩
    · obtain ⟨lane, hl, hrun⟩ := hr.lane
      exact ⟨_, (congrArg (keep _) hl).trans (keep_running hrun), rfl⟩
    · refine discard_entry_of_ne h hs (hr.current hc) ?_
      rintro rfl
      exact hcur hc
  · intro k lane hk hrun
    obtain ⟨lane₀, hl, hrun₀, -⟩ := keep_some hk
    exact h.registered k lane₀ hl (hrun₀ ▸ hrun)
  · intro t c
    have hlog := h.log t c
    by_cases ht : t = s
    · subst ht
      have hw := discard_waiting (v := v) t c
      have hd : (v.discard t).dropped t c = v.dropped t c ++ v.waiting t c := if_pos rfl
      refine ⟨?_, fun _ => hw, fun hc => absurd hc hcur, hlog.unknown⟩
      change v.arrived t c = v.started t c ++ _ ++ _
      rw [hw, hd, hlog.arrived]
      by_cases hd : v.dropped t c = []
      · simp [hd]
      · simp [hlog.settled hd]
    · refine hlog.frame rfl rfl ?_ (if_neg ht) id id
      by_cases he : ∃ g, v.entry (t.peer, c) = some (t, g)
      · obtain ⟨g, hg⟩ := he
        rw [waiting_of_entry hg, waiting_of_entry (discard_entry_of_ne h hs hg ht)]
        exact discard_bodies h hs hg ht
      · rw [waiting_of_ne fun g hg => he ⟨g, hg⟩, waiting_of_ne fun g hg =>
          he ⟨g, (discard_entry v hg).1⟩]

end LaneView

end BasisRust.Server

