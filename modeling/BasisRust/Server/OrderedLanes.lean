import BasisRust.Server.LaneView

/-!
# Ordered lanes: one at a time, in order, none stranded

The invariant of the event loop.  `LoopInv` says that both queues are sound, that a lane is in the
queue of its channel, that no base has two generation entries, and that the lanes, entries and
handlers satisfy the invariant of `LaneView`.
-/

namespace BasisRust.Server

open Library OrderedHandlerQueue

variable {α : Type}

/-- The lane a handler runs in, with its event. -/
def Task.ordered : Task α → Option (OrderedLaneKey × OrderedEvent α)
  | ⟨.ordinary, _⟩ => none
  | ⟨.ordered key event, _⟩ => some (key, event)

namespace EventLoop

def running (st : EventLoop α) : List (OrderedLaneKey × OrderedEvent α) :=
  st.handlers.filterMap Task.ordered

def view (st : EventLoop α) : LaneView α where
  lane := fun key => (st.queue (classOf key.2.1)).lane key
  entry := fun base => assocGet base st.sessions
  running := st.running
  current := fun s => st.isCurrentSession s = true
  known := fun s => st.knownSession s = true
  arrived := st.arrived
  started := st.started
  dropped := st.dropped

structure LoopInv (st : EventLoop α) : Prop where
  sound : ∀ cls, (st.queue cls).Sound
  routed : ∀ cls key lane, (st.queue cls).lane key = some lane → cls = classOf key.2.1
  entries : AssocNodup st.sessions
  lanes : st.view.Inv

theorem loopInv_init (workers : ℕ) : LoopInv (init workers : EventLoop α) where
  sound := fun _ => .empty
  routed := by
    intro cls key lane h
    cases h
  entries := .nil
  lanes := by
    constructor
    · intro key lane h
      cases h
    · intro base s g h
      cases h
    · intro x hx
      cases hx
    · intro key lane h
      cases h
    · exact List.nodup_nil
    · intro x hx
      cases hx
    · intro s h
      simp [view, isCurrentSession, init] at h
    · intro s t h
      simp [view, isCurrentSession, init] at h
    · intro s t h
      simp [view, knownSession, init] at h
    · intro s c
      exact ⟨rfl, fun _ => rfl, fun _ => rfl, fun _ => rfl⟩

variable {st : EventLoop α} {cls : WorkerClass} {key : OrderedLaneKey} {i : ℕ}
  {isCurrent : PeerId × Byte → Bool}

/-- A lane is in no queue but the one of its channel. -/
theorem LoopInv.lane_none (h : LoopInv st) (hcls : cls ≠ classOf key.2.1) :
    (st.queue cls).lane key = none := by
  cases hl : (st.queue cls).lane key with
  | none => rfl
  | some lane => exact absurd (h.routed cls key lane hl) hcls

/-- A lane of any queue is the lane of its key in the view. -/
theorem LoopInv.view_lane (h : LoopInv st) {lane : OrderedLane (OrderedEvent α)}
    (hlane : (st.queue cls).lane key = some lane) : st.view.lane key = some lane := by
  have hcls := h.routed cls key lane hlane
  change (st.queue (classOf key.2.1)).lane key = _
  rw [← hcls, hlane]

/-! ### Handlers -/

variable {e : OrderedEvent α}

section

variable (h : LoopInv st)
include h

theorem LoopInv.spawnTask {q : OrderedHandlerQueue (OrderedEvent α)} (hsound : q.Sound)
    (hstart : Started (st.queue cls) q (some (key, e))) : LoopInv (st.spawnTask cls q key e) := by
  cases hstart with
  | head hkey hlanes =>
    rename_i events
    have hcls := h.routed cls key _ hkey
    have hview : (st.spawnTask cls q key e).view = st.view.start key e events := by
      refine LaneView.ext (funext fun k => ?_) rfl ?_ rfl rfl rfl rfl rfl
      · change (if classOf k.2.1 = cls then q else st.queue (classOf k.2.1)).lane k = _
        by_cases hk : classOf k.2.1 = cls
        · rw [if_pos hk, hlanes k]
          change _ = if k = key then _ else (st.queue (classOf k.2.1)).lane k
          rw [hk]
        · rw [if_neg hk]
          change _ = if k = key then _ else (st.queue (classOf k.2.1)).lane k
          rw [if_neg]
          rintro rfl
          exact hk hcls.symm
      · simp [view, running, EventLoop.spawnTask, LaneView.start, Task.ordered]
    refine ⟨?_, ?_, h.entries, ?_⟩
    · intro c
      by_cases hc : c = cls
      · simpa [EventLoop.spawnTask, hc] using hsound
      · simpa [EventLoop.spawnTask, hc] using h.sound c
    · intro c k lane hk
      by_cases hc : c = cls
      · simp only [EventLoop.spawnTask, if_pos hc, hlanes k] at hk
        split_ifs at hk with heq
        · rw [hc, heq, hcls]
        · exact hc ▸ h.routed cls k lane hk
      · simp only [EventLoop.spawnTask, if_neg hc] at hk
        exact h.routed c k lane hk
    · rw [hview]
      exact h.lanes.start (h.view_lane hkey)

/-- Replacing a queue by one with the same lanes. -/
theorem LoopInv.setQueue {queue : WorkerClass → OrderedHandlerQueue (OrderedEvent α)}
    (hsound : ∀ cls, (queue cls).Sound)
    (hlanes : ∀ cls k, (queue cls).lane k = (st.queue cls).lane k) :
    LoopInv { st with queue := queue } where
  sound := hsound
  routed := by
    intro cls k lane hk
    exact h.routed cls k lane (hlanes cls k ▸ hk)
  entries := h.entries
  lanes := by
    have hview : ({ st with queue := queue } : EventLoop α).view = st.view :=
      LaneView.ext (funext fun k => hlanes _ k) rfl rfl rfl rfl rfl rfl rfl
    rw [hview]
    exact h.lanes

theorem LoopInv.spawnReadyOrderedWith (cls : WorkerClass) (n : ℕ) :
    LoopInv (spawnReadyOrderedWith cls n st) := by
  induction n generalizing st with
  | zero => exact h
  | succ n ih =>
    rw [EventLoop.spawnReadyOrderedWith]
    by_cases hpending : 0 < (st.queue cls).pending
    · rw [if_pos hpending]
      obtain ⟨hsound, hstart⟩ := startNext_spec (h.sound cls)
      generalize (st.queue cls).startNext = r at hsound hstart
      obtain ⟨q, o⟩ := r
      cases o with
      | none =>
        cases hstart with
        | nothing hlanes =>
          refine h.setQueue (fun c => ?_) (fun c k => ?_)
          · by_cases hc : c = cls
            · rw [if_pos hc]
              exact hsound
            · rw [if_neg hc]
              exact h.sound c
          · by_cases hc : c = cls
            · rw [if_pos hc, hc]
              exact hlanes k
            · rw [if_neg hc]
      | some x => exact ih (h.spawnTask hsound hstart)
    · rw [if_neg hpending]
      exact h

theorem LoopInv.spawnReadyOrdered (cls : WorkerClass) :
    LoopInv (st.spawnReadyOrdered cls) :=
  h.spawnReadyOrderedWith cls _

theorem LoopInv.spawnBoth : LoopInv st.spawnBoth :=
  (h.spawnReadyOrdered .ordered).spawnReadyOrdered .critical

/-- A change of the handlers, the permits and the counters that keeps the running events. -/
theorem LoopInv.setHandlers (permits : WorkerClass → ℕ) {handlers : List (Task α)} (draining : Bool)
    (hrunning : handlers.filterMap Task.ordered = st.running) :
    LoopInv { st with permits := permits, handlers := handlers, draining := draining } where
  __ := h
  lanes := by
    have hview : ({ st with permits := permits, handlers := handlers, draining := draining } :
        EventLoop α).view = st.view :=
      LaneView.ext rfl rfl hrunning rfl rfl rfl rfl rfl
    rw [hview]
    exact h.lanes

end

theorem filterMap_set_eq {β γ : Type} (f : β → Option γ) {l : List β} {x y : β}
    (hx : l[i]? = some x) (hf : f y = f x) : (l.set i y).filterMap f = l.filterMap f := by
  induction l generalizing i with
  | nil => rfl
  | cons z l ih =>
    cases i with
    | zero =>
      have hz : z = x := by simpa using hx
      simp [List.filterMap_cons, hf, hz]
    | succ i =>
      rw [List.set_cons_succ, List.filterMap_cons, List.filterMap_cons, ih (by simpa using hx)]

theorem filterMap_eraseIdx_eq {β γ : Type} (f : β → Option γ) {l : List β} {x : β}
    (hx : l[i]? = some x) (hf : f x = none) : (l.eraseIdx i).filterMap f = l.filterMap f := by
  induction l generalizing i with
  | nil => rfl
  | cons z l ih =>
    cases i with
    | zero =>
      have hz : z = x := by simpa using hx
      simp [hf, hz]
    | succ i =>
      rw [List.eraseIdx_cons_succ, List.filterMap_cons, List.filterMap_cons, ih (by simpa using hx)]

theorem LoopInv.finishTask (h : LoopInv st) {job : Job α}
    (hi : st.handlers[i]? = some ⟨job, false⟩) :
    LoopInv (st.finishTask i job) :=
  h.setHandlers _ st.draining (filterMap_set_eq Task.ordered hi (by cases job <;> rfl))

theorem LoopInv.spawnOrdinary (h : LoopInv st) : LoopInv st.spawnOrdinary :=
  h.setHandlers _ st.draining (by simp [running, Task.ordered])

theorem perm_of_eraseIdx {l : List (Task α)} {t : Task α} (hi : l[i]? = some t) :
    (t.ordered.toList ++ (l.eraseIdx i).filterMap Task.ordered).Perm
      (l.filterMap Task.ordered) := by
  obtain ⟨hlt, hget⟩ := List.getElem?_eq_some_iff.mp hi
  have hperm := (List.getElem_cons_eraseIdx_perm hlt).filterMap Task.ordered
  rw [hget, List.filterMap_cons] at hperm
  cases ho : t.ordered with
  | none | some => simpa [ho] using hperm

theorem LoopInv.completeLane (h : LoopInv st) {finished : Bool}
    (hi : st.handlers[i]? = some ⟨.ordered key e, finished⟩) :
    LoopInv (({ st with handlers := st.handlers.eraseIdx i } : EventLoop α).completeLane key) := by
  have hlane : ∀ c k,
      ((({ st with handlers := st.handlers.eraseIdx i } : EventLoop α).completeLane key).queue
        c).lane k = if k = key then
          ((st.queue c).lane key).bind fun lane =>
            if lane.events.isEmpty then none else some { lane with running := false }
        else (st.queue c).lane k := by
    intro c k
    change (if c = classOf key.2.1 then (st.queue c).complete key else st.queue c).lane k = _
    by_cases hc : c = classOf key.2.1
    · rw [if_pos hc, complete_lane]
    · rw [if_neg hc]
      split_ifs with hk
      · rw [hk, h.lane_none hc, Option.bind_none]
      · rfl
  refine ⟨?_, ?_, h.entries, ?_⟩
  · intro c
    change (if c = classOf key.2.1 then (st.queue c).complete key else st.queue c).Sound
    split_ifs
    · exact (h.sound c).complete key
    · exact h.sound c
  · intro c k lane hk
    rw [hlane] at hk
    split_ifs at hk with heq
    · obtain ⟨lane₀, hl, -⟩ := Option.bind_eq_some_iff.mp hk
      exact heq ▸ h.routed c key lane₀ hl
    · exact h.routed c k lane hk
  · have hview : (({ st with handlers := st.handlers.eraseIdx i } : EventLoop α).completeLane
        key).view = st.view.finish key ((st.handlers.eraseIdx i).filterMap Task.ordered) := by
      refine LaneView.ext (funext fun k => ?_) rfl rfl rfl rfl rfl rfl rfl
      refine (hlane _ k).trans ?_
      simp only [LaneView.finish, view]
      by_cases hk : k = key
      · subst hk
        rfl
      · rw [if_neg hk, if_neg hk]
    rw [hview]
    exact h.lanes.finish (e := e) (perm_of_eraseIdx hi)

theorem assocGet_erase_eq (base b : PeerId × Byte)
    (l : List ((PeerId × Byte) × (PeerSession × BitVec 64))) :
    assocGet b (assocErase base l) = if b = base then none else assocGet b l :=
  assocGet_put base b none l

variable {s : PeerSession}

section

variable (h : LoopInv st)
include h

/-- The entry of a lane that is in neither queue may be removed. -/
theorem LoopInv.dropEntry (key : OrderedLaneKey)
    (hentry : assocGet (laneBase key) st.sessions = some (s, key.2.2))
    (hlane : (st.queue (classOf key.2.1)).lane key = none) :
    LoopInv { st with sessions := assocErase (laneBase key) st.sessions } where
  __ := h
  entries := h.entries.erase _
  lanes := by
    have hview : ({ st with sessions := assocErase (laneBase key) st.sessions } :
        EventLoop α).view = st.view.setEntry (laneBase key) none :=
      LaneView.ext rfl (funext fun b => assocGet_erase_eq _ b _) rfl rfl rfl rfl rfl rfl
    rw [hview]
    exact h.lanes.dropEntry hentry hlane

theorem LoopInv.releaseEntry (key : OrderedLaneKey) : LoopInv (st.releaseEntry key) := by
  unfold EventLoop.releaseEntry
  split_ifs with hcond
  · simp only [Bool.and_eq_true, Bool.not_eq_true', contains] at hcond
    obtain ⟨hlane, hany⟩ := hcond
    cases hg : assocGet (laneBase key) st.sessions with
    | none => simp [hg] at hany
    | some x =>
      obtain ⟨s, g⟩ := x
      have hgen : g = key.2.2 := by simpa [hg] using hany
      exact h.dropEntry key (hg.trans (by rw [hgen])) (by simpa using hlane)
  · exact h

theorem LoopInv.collectTask {i : ℕ} {job : Job α}
    {finished : Bool} (hi : st.handlers[i]? = some ⟨job, finished⟩) :
    LoopInv (st.collectTask i job) := by
  cases job with
  | ordinary =>
    exact h.setHandlers st.permits st.draining (filterMap_eraseIdx_eq Task.ordered hi rfl)
  | ordered key e =>
    simp only [EventLoop.collectTask]
    split_ifs
    · exact h.completeLane hi
    · exact (h.completeLane hi).releaseEntry key

/-! ### Discards -/

/-- The waiting messages of a session are those in the lane of its entry. -/
theorem LoopInv.eventsOf_eq (cls : WorkerClass) (s : PeerSession) (c : Byte) :
    eventsOf (st.queue cls) s c = if cls = classOf c then st.view.waiting s c else [] := by
  -- A waiting event of the session is in the lane of the session's entry.
  have hplace : ∀ k lane, (k, lane) ∈ (st.queue cls).lanes → ∀ e ∈ lane.events, e.session = s →
      e.channel = c → st.view.entry (s.peer, c) = some (s, k.2.2) ∧ laneBase k = (s.peer, c) := by
    intro k lane hk e he hs hc
    have hlane : (st.queue cls).lane k = some lane := (h.sound cls).nodup.get_of_mem hk
    obtain ⟨hb, hent⟩ := h.lanes.queued k lane (h.view_lane hlane) e he
    rw [hs, hc] at hb
    rw [hb, hs] at hent
    exact ⟨hent, hb⟩
  have hnone (k : OrderedLaneKey) (lane : OrderedLane (OrderedEvent α))
      (hno : ∀ e ∈ lane.events, ¬ (e.session = s ∧ e.channel = c)) :
      (lane.events.filter fun e => decide (e.session = s ∧ e.channel = c)) = [] := by
    refine List.filter_eq_nil_iff.mpr fun e he => ?_
    simpa using hno e he
  by_cases hentry : ∃ g, st.view.entry (s.peer, c) = some (s, g)
  · obtain ⟨g, hg⟩ := hentry
    have honly : ∀ k lane, (k, lane) ∈ (st.queue cls).lanes → k ≠ (s.peer, c, g) →
        (lane.events.filter fun e => decide (e.session = s ∧ e.channel = c)) = [] := by
      intro k lane hk hne
      refine hnone k lane ?_
      rintro e he ⟨hs, hc⟩
      obtain ⟨hent, hb⟩ := hplace k lane hk e he hs hc
      rw [hg] at hent
      exact hne (LaneView.key_ext hb (Prod.mk.inj (Option.some.inj hent)).2.symm)
    rw [eventsOf, (h.sound cls).nodup.flatMap_of_only _ _ honly]
    by_cases hcls : cls = classOf c
    · rw [if_pos hcls, LaneView.waiting_of_entry hg, LaneView.bodies]
      change _ = List.map _ (((st.queue (classOf c)).lane (s.peer, c, g)).elim [] _)
      rw [← hcls, OrderedHandlerQueue.lane]
      cases hl : assocGet (s.peer, c, g) (st.queue cls).lanes with
      | none => rfl
      | some lane =>
        have hself : (lane.events.filter fun e => decide (e.session = s ∧ e.channel = c)) =
            lane.events := by
          refine List.filter_eq_self.mpr fun e he => ?_
          have hlane : st.view.lane (s.peer, c, g) = some lane := h.view_lane hl
          obtain ⟨hb, -⟩ := h.lanes.queued _ lane hlane e he
          have hs := h.lanes.session_eq hlane hg e he
          have hc : c = e.channel := (Prod.mk.inj hb).2
          simp [hs, hc]
        rw [Option.elim_some, Option.elim_some, hself]
    · rw [if_neg hcls]
      have hl : assocGet (s.peer, c, g) (st.queue cls).lanes = none := h.lane_none hcls
      rw [hl, Option.elim_none, List.map_nil]
  · have hempty : eventsOf (st.queue cls) s c = [] := by
      rw [eventsOf, List.map_eq_nil_iff]
      refine List.flatMap_eq_nil_iff.mpr fun x hx => hnone x.1 x.2 ?_
      rintro e he ⟨hs, hc⟩
      exact hentry ⟨_, (hplace x.1 x.2 hx e he hs hc).1⟩
    rw [hempty, LaneView.waiting_of_ne fun g hg => hentry ⟨g, hg⟩, ite_self]

theorem LoopInv.discardSession
    (hknown : st.knownSession s = true) (hcur : st.isCurrentSession s = false) :
    LoopInv (st.discardSession s) ∧ (st.discardSession s).view = st.view.discard s := by
  have hqueue : ∀ cls, (st.discardSession s).queue cls =
      (st.queue cls).discardMatching fun e => e.session.sameConnection s := by
    intro cls
    cases cls <;> rfl
  have hfilter : (st.discardSession s).sessions =
      st.sessions.filter fun x => !x.2.1.sameConnection s := by
    change (st.sessions.filter _).filter _ = _
    rw [List.filter_filter]
    simp only [Bool.and_self]
  have hdropped : ∀ t c, (st.discardSession s).dropped t c =
      if t = s then st.dropped t c ++ st.view.waiting t c else st.dropped t c := by
    intro t c
    by_cases ht : t = s
    · subst ht
      change (if t = t then (if t = t then _ else _) ++ _ else _) = _
      rw [if_pos rfl, if_pos rfl, if_pos rfl, List.append_assoc]
      congr 1
      change eventsOf (st.queue .ordered) t c ++ eventsOf (st.queue .critical) t c = _
      rw [h.eventsOf_eq, h.eventsOf_eq]
      cases hc : classOf c <;> simp
    · change (if t = s then _ else if t = s then _ else _) = _
      rw [if_neg ht, if_neg ht, if_neg ht]
  have hview : (st.discardSession s).view = st.view.discard s := by
    refine LaneView.ext (funext fun k => ?_) (funext fun b => ?_) rfl rfl rfl rfl rfl ?_
    · change ((st.discardSession s).queue _).lane k = _
      rw [hqueue, discardMatching_lane]
      rfl
    · change assocGet b (st.discardSession s).sessions = _
      rw [hfilter]
      exact h.entries.get_filter (fun x => !x.1.sameConnection s) b
    · exact funext fun t => funext fun c => hdropped t c
  refine ⟨⟨?_, ?_, ?_, ?_⟩, hview⟩
  · intro cls
    rw [hqueue]
    exact (h.sound cls).discardMatching _
  · intro cls k lane hk
    rw [hqueue, discardMatching_lane] at hk
    obtain ⟨lane₀, hl, -⟩ := LaneView.keep_some hk
    exact h.routed cls k lane₀ hl
  · rw [hfilter]
    exact h.entries.sublist (List.filter_sublist.map Prod.fst)
  · rw [hview]
    exact h.lanes.discard hknown (by simp [view, hcur])

theorem LoopInv.bodiesAt_eq (key : OrderedLaneKey) :
    bodiesAt (st.queue .ordered) key ++ bodiesAt (st.queue .critical) key = st.view.bodies key := by
  change _ = bodiesAt (st.queue (classOf key.2.1)) key
  cases hc : classOf key.2.1 with
  | ordered =>
    have hnone : (st.queue .critical).lane key = none := h.lane_none (by simp [hc])
    simp [bodiesAt, hnone]
  | critical =>
    have hnone : (st.queue .ordered).lane key = none := h.lane_none (by simp [hc])
    simp [bodiesAt, hnone]

/-- Clear the lane of a session that is no longer current, in both queues. -/
theorem LoopInv.clear (key : OrderedLaneKey)
    {queue : WorkerClass → OrderedHandlerQueue (OrderedEvent α)}
    (hentry : assocGet (laneBase key) st.sessions = some (s, key.2.2))
    (hcur : st.isCurrentSession s = false) (hsound : ∀ cls, (queue cls).Sound)
    (hlanes : ∀ cls k, (queue cls).lane k =
      if k = key then cleared ((st.queue cls).lane key) else (st.queue cls).lane k) :
    LoopInv { st with
      queue := queue
      dropped := record st.dropped s key.2.1
        (bodiesAt (st.queue .ordered) key ++ bodiesAt (st.queue .critical) key) } where
  sound := hsound
  routed := by
    intro cls k lane hk
    rw [hlanes] at hk
    split_ifs at hk with heq
    · obtain ⟨lane₀, hl, -⟩ := Option.bind_eq_some_iff.mp hk
      exact heq ▸ h.routed cls key lane₀ hl
    · exact h.routed cls k lane hk
  entries := h.entries
  lanes := by
    rw [h.bodiesAt_eq]
    have hview : ({ st with
        queue := queue
        dropped := record st.dropped s key.2.1 (st.view.bodies key) } : EventLoop α).view =
          st.view.clear key s := by
      refine LaneView.ext (funext fun k => ?_) rfl rfl rfl rfl rfl rfl rfl
      refine (hlanes _ k).trans ?_
      simp only [LaneView.clear, view]
      by_cases hk : k = key
      · subst hk
        rfl
      · rw [if_neg hk, if_neg hk]
    rw [hview]
    exact h.lanes.clear hentry (by simp [view, hcur])

/-! ### Generations -/

theorem LoopInv.freshGeneration {base : PeerId × Byte} (hcur : st.isCurrentSession s = true)
    (hpeer : s.peer = base.1) (hold : ∀ t g, assocGet base st.sessions = some (t, g) →
      t ≠ s ∧ st.view.bodies (base.1, base.2, g) = []) :
    LoopInv (st.freshGeneration base s) where
  __ := h
  entries := h.entries.put base (some _)
  lanes := by
    have hview : (st.freshGeneration base s).view =
        st.view.setEntry base (some (s, st.nextGeneration)) :=
      LaneView.ext rfl (funext fun b => assocGet_put base b (some _) _) rfl rfl rfl rfl rfl rfl
    rw [hview]
    exact h.lanes.newEntry _ hcur hpeer hold

/-- After `ordered_lane_generation` the entry of the base is the session and its generation. -/
theorem LoopInv.orderedLaneGeneration (base : PeerId × Byte) (hcur : st.isCurrentSession s = true)
    (hpeer : s.peer = base.1) :
    LoopInv (st.orderedLaneGeneration base s).1 ∧
      assocGet base (st.orderedLaneGeneration base s).1.sessions =
        some (s, (st.orderedLaneGeneration base s).2) ∧
      (st.orderedLaneGeneration base s).1.peers = st.peers := by
  unfold EventLoop.orderedLaneGeneration
  cases hentry : assocGet base st.sessions with
  | none =>
    refine ⟨h.freshGeneration hcur hpeer ?_, assocGet_set_self _ _ _, rfl⟩
    rw [hentry]
    rintro _ _ ⟨⟩
  | some x =>
    obtain ⟨old, g⟩ := x
    have hknown := (h.lanes.entries base old g hentry)
    have hsame := h.lanes.same_connection (h.lanes.currentKnown s hcur) hknown.1
    by_cases hold : old.sameConnection s = true
    · simp only [if_pos hold]
      exact ⟨h, hentry.trans (by rw [hsame.mp hold]), trivial⟩
    · simp only [if_neg hold]
      have hne : old ≠ s := fun heq => hold (hsame.mpr heq)
      -- The peer id is the new session's now, so the old session is retired.
      have hret : st.isCurrentSession old = false := by
        refine Bool.eq_false_iff.mpr fun hc => hne (h.lanes.currentUnique old s hc hcur ?_)
        rw [hknown.2, hpeer]
      have hclear : LoopInv (st.retireLanes (base.1, base.2, g) old) :=
        h.clear (base.1, base.2, g) hentry hret (fun cls => (h.sound cls).retireLane _)
          (fun cls k => retireLane_lane _ _ k)
      refine ⟨hclear.freshGeneration hcur hpeer ?_, assocGet_set_self _ _ _, rfl⟩
      intro t g' ht
      change assocGet base st.sessions = _ at ht
      rw [hentry] at ht
      cases ht
      refine ⟨hne, ?_⟩
      have hl : (st.retireLanes (base.1, base.2, g) old).view.lane (base.1, base.2, g) =
          cleared (st.view.lane (base.1, base.2, g)) := by
        change ((st.queue _).retireLane _).lane _ = _
        rw [retireLane_lane, if_pos rfl]
        rfl
      rw [LaneView.bodies, hl]
      cases st.view.lane (base.1, base.2, g) with
      | none => rfl
      | some lane =>
        obtain ⟨events, running⟩ := lane
        cases running <;> rfl

/-! ### Messages -/

theorem LoopInv.enqueue (key : OrderedLaneKey) (hbase : laneBase key = (e.session.peer, e.channel))
    (hcur : st.isCurrentSession e.session = true)
    (hentry : assocGet (laneBase key) st.sessions = some (e.session, key.2.2)) :
    LoopInv { st with
      queue := fun c => if c = classOf e.channel then (st.queue c).enqueue key e else st.queue c
      arrived := record st.arrived e.session e.channel [e.body] } := by
  have hcls : classOf key.2.1 = classOf e.channel := by
    rw [show key.2.1 = e.channel from (Prod.mk.inj hbase).2]
  refine ⟨?_, ?_, h.entries, ?_⟩
  · intro c
    by_cases hc : c = classOf e.channel
    · simpa only [if_pos hc] using (h.sound c).enqueue key e
    · simpa only [if_neg hc] using h.sound c
  · intro c k lane hk
    by_cases hc : c = classOf e.channel
    · simp only [if_pos hc, enqueue_lane] at hk
      split_ifs at hk with heq
      · rw [heq, hc, hcls]
      · exact h.routed c k lane hk
    · simp only [if_neg hc] at hk
      exact h.routed c k lane hk
  · have hview : ({ st with
        queue := fun c => if c = classOf e.channel then (st.queue c).enqueue key e else st.queue c
        arrived := record st.arrived e.session e.channel [e.body] } : EventLoop α).view =
          st.view.enqueue key e := by
      refine LaneView.ext (funext fun k => ?_) rfl rfl rfl rfl rfl rfl rfl
      simp only [view, LaneView.enqueue]
      by_cases hk : k = key
      · subst hk
        rw [if_pos hcls, enqueue_lane, if_pos rfl]
      · rw [if_neg hk]
        split_ifs
        · rw [enqueue_lane, if_neg hk]
        · rfl
    rw [hview]
    exact h.lanes.enqueue hbase hcur hentry

theorem LoopInv.receiveMessage
    (hknown : st.knownSession e.session = true) : LoopInv (st.receiveMessage e) := by
  unfold EventLoop.receiveMessage
  by_cases hcur : st.isCurrentSession e.session = true
  · rw [if_pos hcur]
    obtain ⟨hinv, hentry, hpeers⟩ := h.orderedLaneGeneration (e.session.peer, e.channel) hcur rfl
    dsimp only
    generalize st.orderedLaneGeneration (e.session.peer, e.channel) e.session = r
      at hinv hentry hpeers ⊢
    obtain ⟨st', generation⟩ := r
    refine LoopInv.spawnReadyOrdered ?_ _
    refine hinv.enqueue (e.session.peer, e.channel, generation) rfl ?_ hentry
    have hcur' : st'.isCurrentSession e.session = st.isCurrentSession e.session := by
      rw [isCurrentSession, isCurrentSession, show st'.peers = st.peers from hpeers]
    rw [← hcur, ← hcur']
  · rw [if_neg hcur]
    have hret : st.isCurrentSession e.session = false := by simpa using hcur
    obtain ⟨hinv, hview⟩ := h.discardSession hknown hret
    refine ⟨hinv.sound, hinv.routed, hinv.entries, ?_⟩
    refine hinv.lanes.reject e.body hknown hcur ?_
    rw [hview]
    exact LaneView.discard_waiting _ _

end

/-! ### Pruning -/

/-- The transport calls no session of an entry retired that is current. -/
def Answers (st : EventLoop α) (isCurrent : PeerId × Byte → Bool) : Prop :=
  ∀ base s g, assocGet base st.sessions = some (s, g) → isCurrent base = false →
    st.isCurrentSession s = false

theorem LoopInv.answers (ha : st.answersFor isCurrent = true) : st.Answers isCurrent := by
  intro base s g hg hb
  have hall := List.all_eq_true.mp ha _ (mem_keys_of_assocGet hg)
  simpa [hb] using hall

theorem LoopInv.pruneEntry {st : EventLoop α × Bool} (h : LoopInv st.1)
    (ha : st.1.Answers isCurrent) (base : PeerId × Byte) :
    LoopInv (pruneEntry isCurrent st base).1 ∧
      (EventLoop.pruneEntry isCurrent st base).1.Answers isCurrent := by
  unfold EventLoop.pruneEntry
  cases hentry : assocGet base st.1.sessions with
  | none => exact ⟨h, ha⟩
  | some x =>
    obtain ⟨s, g⟩ := x
    dsimp only
    -- First the lane is cleared, if the session is retired.
    have hclear : ∀ r : EventLoop α × Bool,
        (r = if isCurrent base then st
          else
            ({ st.1 with
                queue := fun cls => ((st.1.queue cls).discardLane (base.1, base.2, g)).1
                dropped := record st.1.dropped s base.2
                  (bodiesAt (st.1.queue .ordered) (base.1, base.2, g) ++
                    bodiesAt (st.1.queue .critical) (base.1, base.2, g)) },
              st.2 || ((st.1.queue .ordered).discardLane (base.1, base.2, g)).2 ||
                ((st.1.queue .critical).discardLane (base.1, base.2, g)).2)) →
        LoopInv r.1 ∧ r.1.sessions = st.1.sessions ∧ r.1.peers = st.1.peers := by
      rintro r rfl
      by_cases hcur : isCurrent base = true
      · rw [if_pos hcur]
        exact ⟨h, rfl, rfl⟩
      · rw [if_neg hcur]
        refine ⟨?_, rfl, rfl⟩
        exact h.clear (base.1, base.2, g) hentry (ha base s g hentry (by simpa using hcur))
          (fun cls => (h.sound cls).discardLane _) (fun cls k => discardLane_lane _ _ k)
    generalize hr : (if isCurrent base then st else _) = r
    obtain ⟨hinv, hsessions, hpeers⟩ := hclear r hr.symm
    have hanswers : r.1.Answers isCurrent := by
      intro b t g' hg' hb
      rw [hsessions] at hg'
      have hret := ha b t g' hg' hb
      rwa [isCurrentSession, hpeers]
    split_ifs with hkeep
    · exact ⟨hinv, hanswers⟩
    · -- The lane is in neither queue, so its entry can go.
      simp only [Bool.or_eq_true, not_or, contains] at hkeep
      have hlane : (r.1.queue (classOf base.2)).lane (base.1, base.2, g) = none := by
        cases classOf base.2 with
        | ordered => simpa using hkeep.1
        | critical => simpa using hkeep.2
      refine ⟨hinv.dropEntry (base.1, base.2, g) (hsessions ▸ hentry) hlane, ?_⟩
      intro b t g' hg' hb
      change assocGet b (assocErase base r.1.sessions) = _ at hg'
      rw [assocGet_erase_eq] at hg'
      split_ifs at hg'
      exact hanswers b t g' hg' hb

theorem LoopInv.pruneFold (bases : List (PeerId × Byte)) {st : EventLoop α × Bool}
    (h : LoopInv st.1) (ha : st.1.Answers isCurrent) :
    LoopInv (bases.foldl (EventLoop.pruneEntry isCurrent) st).1 := by
  induction bases generalizing st with
  | nil => exact h
  | cons base bases ih =>
    obtain ⟨h', ha'⟩ := h.pruneEntry ha base
    exact ih h' ha'

theorem LoopInv.pruneOrderedSessions (h : LoopInv st) (ha : st.answersFor isCurrent = true) :
    LoopInv (st.pruneOrderedSessions isCurrent) := by
  have hfold : LoopInv ((st.sessions.map Prod.fst).foldl (EventLoop.pruneEntry isCurrent)
      (st, false)).1 := LoopInv.pruneFold _ h (LoopInv.answers ha)
  unfold EventLoop.pruneOrderedSessions
  generalize (st.sessions.map Prod.fst).foldl (EventLoop.pruneEntry isCurrent) (st, false) = r
    at hfold
  obtain ⟨st', changed⟩ := r
  dsimp only at hfold ⊢
  split_ifs
  · exact hfold.setQueue (fun cls => (hfold.sound cls).compactReady) (fun _ _ => rfl)
  · exact hfold

/-! ### The transport -/

theorem LoopInv.connect (h : LoopInv st) {peer : PeerId} (hfree : assocGet peer st.peers = none) :
    LoopInv { st with
      peers := assocSet peer st.opened.length st.peers
      opened := st.opened ++ [peer] } where
  __ := h
  lanes := by
    have hold : ∀ s, st.knownSession s = true → s.state < st.opened.length := by
      intro s hs
      simp only [knownSession, decide_eq_true_eq] at hs
      exact (List.getElem?_eq_some_iff.mp hs).1
    have hview : ({ st with
        peers := assocSet peer st.opened.length st.peers
        opened := st.opened ++ [peer] } : EventLoop α).view =
          st.view.connect ⟨peer, st.opened.length⟩ := by
      refine LaneView.ext rfl rfl rfl (funext fun s => propext ?_) (funext fun s => propext ?_)
        rfl rfl rfl
      · obtain ⟨p, n⟩ := s
        simp only [view, LaneView.connect, isCurrentSession, decide_eq_true_eq,
          PeerSession.mk.injEq]
        by_cases hp : p = peer
        · subst hp
          rw [assocGet_set_self, hfree]
          simp [eq_comm]
        · rw [assocGet_set_of_ne hp]
          simp [hp]
      · obtain ⟨p, n⟩ := s
        simp only [view, LaneView.connect, knownSession, decide_eq_true_eq, PeerSession.mk.injEq]
        rcases Nat.lt_trichotomy n st.opened.length with hn | hn | hn
        · rw [List.getElem?_append_left hn]
          simp [Nat.ne_of_lt hn]
        · subst hn
          simp [eq_comm]
        · rw [List.getElem?_eq_none (by simp; omega), List.getElem?_eq_none (by omega)]
          simp [Nat.ne_of_gt hn]
    rw [hview]
    refine h.lanes.connect ?_ ?_ ?_
    · intro hk
      exact absurd (hold _ hk) (by simp)
    · intro t ht hp
      simp only [view, isCurrentSession, decide_eq_true_eq] at ht
      rw [hp, hfree] at ht
      cases ht
    · intro t ht hs
      have hlt := hold t ht
      rw [hs] at hlt
      simp at hlt

theorem LoopInv.retire (h : LoopInv st) (peer : PeerId) :
    LoopInv { st with peers := assocErase peer st.peers } where
  __ := h
  lanes := by
    have hview : ({ st with peers := assocErase peer st.peers } : EventLoop α).view =
        st.view.retire fun s => s.peer ≠ peer := by
      refine LaneView.ext rfl rfl rfl (funext fun s => propext ?_) rfl rfl rfl rfl
      simp only [view, LaneView.retire, isCurrentSession, decide_eq_true_eq]
      by_cases hp : s.peer = peer
      · rw [hp, assocGet_erase_self]
        simp
      · rw [assocGet_erase_of_ne hp]
        simp [hp]
    rw [hview]
    exact h.lanes.retire _

/-! ### Runs -/

theorem LoopInv.step {st' : EventLoop α} {a : Action α} (h : LoopInv st)
    (hstep : step st a = some st') : LoopInv st' := by
  cases a with simp only [EventLoop.step] at hstep
  | connect peer =>
    split_ifs at hstep with hfree
    cases hstep
    exact h.connect (Option.isNone_iff_eq_none.mp hfree)
  | retire peer =>
    cases hstep
    exact h.retire peer
  | message source e =>
    split_ifs at hstep with hcond
    cases hstep
    simp only [Bool.and_eq_true] at hcond
    exact h.receiveMessage hcond.2
  | disconnected s =>
    split_ifs at hstep with hcond
    cases hstep
    simp only [Bool.and_eq_true, Bool.not_eq_true'] at hcond
    exact (h.discardSession hcond.1.2 hcond.2).1.spawnOrdinary
  | ordinary =>
    split_ifs at hstep
    cases hstep
    exact h.spawnOrdinary
  | finish i =>
    split at hstep
    · rename_i hi
      cases hstep
      exact h.finishTask hi
    · cases hstep
  | join i =>
    split at hstep
    · rename_i hi
      cases hstep
      have hcollect := h.collectTask hi
      split_ifs
      · exact hcollect
      · exact hcollect.spawnBoth
    · cases hstep
  | tick isCurrent =>
    split_ifs at hstep with hcond
    cases hstep
    simp only [Bool.and_eq_true] at hcond
    exact h.pruneOrderedSessions hcond.2
  | shutdown =>
    cases hstep
    exact h.setHandlers st.permits true rfl
  | drain isCurrent =>
    split_ifs at hstep with hcond
    cases hstep
    simp only [Bool.and_eq_true] at hcond
    exact (h.pruneOrderedSessions hcond.2).spawnBoth

/-! ### What the invariant gives -/

/-- What a reader of the event loop may rely on. -/
structure LanesSafe (st : EventLoop α) : Prop where
  /-- The counter of a queue is the number of its waiting events. -/
  pending : ∀ cls, (st.queue cls).pending =
    assocSum (fun lane => lane.events.length) (st.queue cls).lanes
  /-- A lane has at most one running event, and is marked as running exactly while it has one. -/
  oneRunning : (st.running.map Prod.fst).Nodup ∧ ∀ key,
    key ∈ st.running.map Prod.fst ↔
      ∃ lane, (st.queue (classOf key.2.1)).lane key = some lane ∧ lane.running = true
  /-- Never two events of one session and channel at once, in whatever lanes. -/
  oneAtATime : ∀ s c,
    (st.running.filter fun x => x.2.session = s ∧ x.2.channel = c).length ≤ 1
  /-- The events of a session and channel are those started, in the order of arrival, then those
  waiting, then those a discard of the session removed. -/
  inOrder : ∀ s c, st.arrived s c =
    st.started s c ++ (eventsOf (st.queue .ordered) s c ++ eventsOf (st.queue .critical) s c) ++
      st.dropped s c
  /-- Nothing of a live session is removed. -/
  noneLost : ∀ s c, st.isCurrentSession s = true → st.dropped s c = []
  /-- A lane that is not running and has events is registered as ready. -/
  noneStranded : ∀ cls key lane, (st.queue cls).lane key = some lane → lane.running = false →
    lane.events ≠ [] → key ∈ (st.queue cls).ready
  /-- Collecting a handler of another generation leaves the lane and the entry of this one. -/
  retiredApart : ∀ i key e finished, st.handlers[i]? = some ⟨.ordered key e, finished⟩ →
    ∀ s g, assocGet (laneBase key) st.sessions = some (s, g) → g ≠ key.2.2 →
      assocGet (laneBase key) (st.collectTask i (.ordered key e)).sessions = some (s, g) ∧
      ∀ cls,
        ((st.collectTask i (.ordered key e)).queue cls).lane (key.1, key.2.1, g) =
          (st.queue cls).lane (key.1, key.2.1, g) ∧
        ((key.1, key.2.1, g) ∈ ((st.collectTask i (.ordered key e)).queue cls).ready ↔
          (key.1, key.2.1, g) ∈ (st.queue cls).ready)

theorem complete_ready_of_ne {E : Type} (q : OrderedHandlerQueue E) {k : OrderedLaneKey}
    (hk : k ≠ key) : k ∈ (q.complete key).ready ↔ k ∈ q.ready := by
  unfold OrderedHandlerQueue.complete
  split
  · rfl
  · split_ifs
    · rfl
    · simp [hk]

/-- Collecting a handler touches the lane of its key only, and the entry only if it is of the same
generation. -/
theorem collectTask_apart (st : EventLoop α) (i : ℕ) (key : OrderedLaneKey) (e : OrderedEvent α)
    {g : BitVec 64} (hentry : assocGet (laneBase key) st.sessions = some (s, g))
    (hg : g ≠ key.2.2) :
    (st.collectTask i (.ordered key e)).sessions = st.sessions ∧
      ∀ cls, (st.collectTask i (.ordered key e)).queue cls =
        if cls = classOf key.2.1 then (st.queue cls).complete key else st.queue cls := by
  simp only [EventLoop.collectTask]
  split_ifs with hdrain
  · exact ⟨rfl, fun _ => rfl⟩
  · rw [EventLoop.releaseEntry, if_neg]
    · exact ⟨rfl, fun _ => rfl⟩
    · simp [EventLoop.completeLane, hentry, hg]

theorem LoopInv.lanesSafe (h : LoopInv st) : LanesSafe st where
  pending := fun cls => (h.sound cls).pending
  oneRunning := by
    refine ⟨h.lanes.distinct, fun key => ⟨fun hk => ?_, ?_⟩⟩
    · obtain ⟨x, hx, rfl⟩ := List.mem_map.mp hk
      exact (h.lanes.running x hx).lane
    · rintro ⟨lane, hl, hrun⟩
      exact h.lanes.registered key lane hl hrun
  oneAtATime := by
    intro s c
    have hsub : (st.running.filter fun x => x.2.session = s ∧ x.2.channel = c).Sublist
        st.running := List.filter_sublist
    have hnodup := h.lanes.distinct.sublist (hsub.map Prod.fst)
    have hmem : ∀ x ∈ st.running.filter (fun x => x.2.session = s ∧ x.2.channel = c),
        x ∈ st.running ∧ x.2.session = s ∧ x.2.channel = c := by
      intro x hx
      simpa using hx
    generalize st.running.filter (fun x => x.2.session = s ∧ x.2.channel = c) = l at hnodup hmem
    match l, hnodup, hmem with
    | [], _, _ => simp
    | [x], _, _ => simp
    | x :: y :: l, hnodup, hmem =>
      obtain ⟨hx, hxs, hxc⟩ := hmem x (.head _)
      obtain ⟨hy, hys, hyc⟩ := hmem y (.tail _ (.head _))
      have hsame := h.lanes.single x hx y hy (hxs.trans hys.symm) (hxc.trans hyc.symm)
      simp [hsame] at hnodup
  inOrder := by
    intro s c
    have hwaiting : eventsOf (st.queue .ordered) s c ++ eventsOf (st.queue .critical) s c =
        st.view.waiting s c := by
      rw [h.eventsOf_eq, h.eventsOf_eq]
      cases classOf c <;> simp
    rw [hwaiting]
    exact (h.lanes.log s c).arrived
  noneLost := fun s c hs => (h.lanes.log s c).live hs
  noneStranded := fun cls key lane hl hrun _ => (h.sound cls).ready key lane hl hrun
  retiredApart := by
    intro i key e finished _ s g hentry hg
    obtain ⟨hsessions, hqueue⟩ := collectTask_apart st i key e hentry hg
    have hne : (key.1, key.2.1, g) ≠ key := fun hk => hg (congrArg (fun k => k.2.2) hk)
    refine ⟨hsessions ▸ hentry, fun cls => ?_⟩
    rw [hqueue]
    split_ifs
    · exact ⟨by rw [complete_lane, if_neg hne], complete_ready_of_ne _ hne⟩
    · exact ⟨rfl, Iff.rfl⟩

end EventLoop

open EventLoop

theorem loopInv_of_reachable {workers : ℕ} {ok : EventLoop α → Action α → Prop} {st : EventLoop α}
    (h : Reachable (eventLoopSystem α workers) ok st) : LoopInv st := by
  refine h.invariant LoopInv ?_ ?_
  · rintro _ rfl
    exact loopInv_init workers
  · intro s a s' hs _ hstep
    exact hs.step hstep

/-- **Ordered lanes are safe.**  In every state the event loop can reach, the messages of a session
and channel are handled one at a time and in the order of arrival, none of a live session is lost,
and no lane with work is left out of the ready keys. -/
theorem ordered_lanes_safe {workers : ℕ} {st : EventLoop α}
    (h : Reachable (eventLoopSystem α workers) (fun _ _ => True) st) : LanesSafe st :=
  (loopInv_of_reachable h).lanesSafe

/-- Two messages of a session that lost its peer id to a new session, while the first message of the
old one is still running. -/
theorem ordered_lanes_safe_reused :
    ∃ st : EventLoop ℕ, Reachable (eventLoopSystem ℕ 8) (fun _ _ => True) st ∧
      (st.running.length = 2 ∧ (st.queue .ordered).pending = 1 ∧
        st.dropped ⟨7, 0⟩ 9 = [11] ∧ st.arrived ⟨7, 1⟩ 9 = [20, 21]) ∧ LanesSafe st := by
  have hrun : (runActions (eventLoopSystem ℕ 8) (.init 8)
      [.connect 7, .message .ordered ⟨⟨7, 0⟩, 9, 10⟩, .message .ordered ⟨⟨7, 0⟩, 9, 11⟩, .retire 7,
        .connect 7, .message .ordered ⟨⟨7, 1⟩, 9, 20⟩,
        .message .ordered ⟨⟨7, 1⟩, 9, 21⟩]).any (fun st =>
          decide (st.running.length = 2 ∧ (st.queue .ordered).pending = 1 ∧
            st.dropped ⟨7, 0⟩ 9 = [11] ∧ st.arrived ⟨7, 1⟩ 9 = [20, 21])) = true := by
    decide +kernel
  obtain ⟨st, hst, hP⟩ := exists_reachable_of_free_run (.init rfl) hrun
  exact ⟨st, hst, by simpa using hP, ordered_lanes_safe hst⟩

end BasisRust.Server

