import BasisRust.Library.AssocList
import BasisRust.Library.Bytes

/-!
# The ordered handler queue

Reliable ordered messages wait in lanes, one lane for each peer, channel and generation.  The queue
holds the lanes, the keys of the lanes that may start their next event, and the number of waiting
events.  A lane whose head is running stays in the map until the handler completes.
-/

namespace BasisRust.Server

open Library

/-- Peer, channel and generation. -/
abbrev OrderedLaneKey := BitVec 16 × Byte × BitVec 64

/-- The peer and the channel of a lane. -/
def laneBase (key : OrderedLaneKey) : BitVec 16 × Byte := (key.1, key.2.1)

structure OrderedLane (E : Type) where
  events : List E
  running : Bool
  deriving DecidableEq

structure OrderedHandlerQueue (E : Type) where
  lanes : List (OrderedLaneKey × OrderedLane E)
  ready : List OrderedLaneKey
  pending : ℕ
  deriving DecidableEq

namespace OrderedHandlerQueue

variable {E : Type}

def empty : OrderedHandlerQueue E := ⟨[], [], 0⟩

def lane (q : OrderedHandlerQueue E) (key : OrderedLaneKey) : Option (OrderedLane E) :=
  assocGet key q.lanes

def contains (q : OrderedHandlerQueue E) (key : OrderedLaneKey) : Bool := (q.lane key).isSome

def enqueue (q : OrderedHandlerQueue E) (key : OrderedLaneKey) (event : E) :
    OrderedHandlerQueue E :=
  let lane := (q.lane key).getD ⟨[], false⟩
  { lanes := assocSet key { lane with events := lane.events ++ [event] } q.lanes
    ready := if !lane.running && lane.events.isEmpty then q.ready ++ [key] else q.ready
    pending := q.pending + 1 }

/-- The loop of `start_next` over the ready keys. -/
def startFrom (lanes : List (OrderedLaneKey × OrderedLane E)) (pending : ℕ) :
    List OrderedLaneKey → OrderedHandlerQueue E × Option (OrderedLaneKey × E)
  | [] => (⟨lanes, [], pending⟩, none)
  | key :: ready =>
    match assocGet key lanes with
    | none => startFrom lanes pending ready
    | some lane =>
      if lane.running then startFrom lanes pending ready
      else
        match lane.events with
        | [] => startFrom (assocErase key lanes) pending ready
        | event :: events =>
          (⟨assocSet key ⟨events, true⟩ lanes, ready, pending - 1⟩, some (key, event))

def startNext (q : OrderedHandlerQueue E) : OrderedHandlerQueue E × Option (OrderedLaneKey × E) :=
  startFrom q.lanes q.pending q.ready

def complete (q : OrderedHandlerQueue E) (key : OrderedLaneKey) : OrderedHandlerQueue E :=
  match q.lane key with
  | none => q
  | some lane =>
    if lane.events.isEmpty then { q with lanes := assocErase key q.lanes }
    else
      { q with
        lanes := assocSet key { lane with running := false } q.lanes
        ready := q.ready ++ [key] }

def compactReady (q : OrderedHandlerQueue E) : OrderedHandlerQueue E :=
  { q with ready := q.ready.filter fun key => q.contains key }

/-- One pass of the loop of `discard_matching`. -/
def discardIn (pred : E → Bool) (q : OrderedHandlerQueue E) (key : OrderedLaneKey) :
    OrderedHandlerQueue E :=
  match q.lane key with
  | none => q
  | some lane =>
    let events := lane.events.filter fun event => !pred event
    let removed := lane.events.length - events.length
    if events.isEmpty && !lane.running then
      { q with lanes := assocErase key q.lanes, pending := q.pending - removed }
    else
      { q with
        lanes := assocSet key { lane with events := events } q.lanes
        pending := q.pending - removed }

def discardMatching (q : OrderedHandlerQueue E) (pred : E → Bool) : OrderedHandlerQueue E :=
  ((q.lanes.map Prod.fst).foldl (discardIn pred) q).compactReady

/-- The second component tells whether the lane changed. -/
def discardLane (q : OrderedHandlerQueue E) (key : OrderedLaneKey) : OrderedHandlerQueue E × Bool :=
  match q.lane key with
  | none => (q, false)
  | some lane =>
    let changed := !lane.events.isEmpty || !lane.running
    let pending := q.pending - lane.events.length
    if lane.running then
      ({ q with lanes := assocSet key { lane with events := [] } q.lanes, pending := pending },
        changed)
    else ({ q with lanes := assocErase key q.lanes, pending := pending }, changed)

/-- `discard_lane`, followed by `compact_ready` if the lane changed. -/
def retireLane (q : OrderedHandlerQueue E) (key : OrderedLaneKey) : OrderedHandlerQueue E :=
  let (q', changed) := q.discardLane key
  if changed then q'.compactReady else q'

/-! ### Soundness -/

structure Sound (q : OrderedHandlerQueue E) : Prop where
  nodup : AssocNodup q.lanes
  pending : q.pending = assocSum (fun lane => lane.events.length) q.lanes
  busy : ∀ key lane, q.lane key = some lane → lane.running = true ∨ lane.events ≠ []
  ready : ∀ key lane, q.lane key = some lane → lane.running = false → key ∈ q.ready

theorem Sound.empty : (empty : OrderedHandlerQueue E).Sound where
  nodup := .nil
  pending := rfl
  busy := by
    intro key lane h
    cases h
  ready := by
    intro key lane h
    cases h

/-- The number of waiting events of a lane that may be absent. -/
def waiting (o : Option (OrderedLane E)) : ℕ := o.elim 0 fun lane => lane.events.length

variable {q : OrderedHandlerQueue E}

/-- **The update rule.**  An operation that changes one lane keeps the queue sound if the counter
follows the length of the lane and no startable lane is left out of the ready keys. -/
theorem Sound.update {q' : OrderedHandlerQueue E} (h : q.Sound) (key : OrderedLaneKey)
    (o : Option (OrderedLane E)) (hlanes : q'.lanes = assocPut key o q.lanes)
    (hpending : q'.pending + waiting (q.lane key) = q.pending + waiting o)
    (hbusy : ∀ lane, o = some lane → lane.running = true ∨ lane.events ≠ [])
    (hready : ∀ k lane, q.lane k = some lane → lane.running = false → k ≠ key → k ∈ q'.ready)
    (hkey : ∀ lane, o = some lane → lane.running = false → key ∈ q'.ready) : q'.Sound where
  nodup := hlanes ▸ h.nodup.put key o
  pending := by
    have hsum := h.nodup.sum_put (fun lane => lane.events.length) key o
    rw [← hlanes] at hsum
    have hold := h.pending
    simp only [waiting, lane] at hpending
    omega
  busy := by
    intro k lane hk
    rw [OrderedHandlerQueue.lane, hlanes, assocGet_put] at hk
    split_ifs at hk with heq
    · exact hbusy lane hk
    · exact h.busy k lane hk
  ready := by
    intro k lane hk hrun
    rw [OrderedHandlerQueue.lane, hlanes, assocGet_put] at hk
    split_ifs at hk with heq
    · exact heq ▸ hkey lane hk hrun
    · exact hready k lane hk hrun heq

theorem Sound.waiting_le (h : q.Sound) (key : OrderedLaneKey) :
    waiting (q.lane key) ≤ q.pending := by
  have hsum := h.nodup.sum_erase (fun lane => lane.events.length) key
  have hpending := h.pending
  simp only [waiting, lane]
  omega

/-! ### Operations -/

theorem enqueue_lane (q : OrderedHandlerQueue E) (key k : OrderedLaneKey) (event : E) :
    (q.enqueue key event).lane k =
      if k = key then
        some ⟨((q.lane key).getD ⟨[], false⟩).events ++ [event],
          ((q.lane key).getD ⟨[], false⟩).running⟩
      else q.lane k :=
  assocGet_put key k (some _) q.lanes

theorem Sound.enqueue (h : q.Sound) (key : OrderedLaneKey) (event : E) :
    (q.enqueue key event).Sound := by
  refine h.update key (some _) rfl ?_ ?_ ?_ ?_
  · cases hk : q.lane key <;> simp [OrderedHandlerQueue.enqueue, waiting, hk]
    omega
  · rintro lane ⟨⟩
    right
    simp
  · intro k lane hk hrun _
    have hmem := h.ready k lane hk hrun
    simp only [OrderedHandlerQueue.enqueue]
    split_ifs
    · exact List.mem_append_left _ hmem
    · exact hmem
  · rintro lane ⟨⟩ hrun
    simp only [OrderedHandlerQueue.enqueue]
    cases hk : q.lane key with
    | none => simp
    | some lane =>
      rw [hk] at hrun
      have hmem := h.ready key lane hk hrun
      split_ifs
      · exact List.mem_append_left _ hmem
      · exact hmem

theorem complete_lane (q : OrderedHandlerQueue E) (key k : OrderedLaneKey) :
    (q.complete key).lane k =
      if k = key then
        (q.lane key).bind fun lane =>
          if lane.events.isEmpty then none else some { lane with running := false }
      else q.lane k := by
  unfold complete
  cases hk : q.lane key with
  | none =>
    split_ifs with heq
    · rw [heq, hk, Option.bind_none]
    · rfl
  | some lane =>
    simp only [Option.bind_some]
    by_cases hempty : lane.events.isEmpty = true
    · rw [if_pos hempty, if_pos hempty]
      exact assocGet_put key k none q.lanes
    · rw [if_neg hempty, if_neg hempty]
      exact assocGet_put key k (some _) q.lanes

theorem Sound.complete (h : q.Sound) (key : OrderedLaneKey) : (q.complete key).Sound := by
  unfold OrderedHandlerQueue.complete
  cases hk : q.lane key with
  | none => exact h
  | some lane =>
    by_cases hempty : lane.events.isEmpty = true
    · simp only [if_pos hempty]
      refine h.update key none rfl ?_ (by rintro _ ⟨⟩) (fun k l hl hrun _ => h.ready k l hl hrun)
        (by rintro _ ⟨⟩)
      simp [waiting, hk, List.isEmpty_iff.mp hempty]
    · simp only [if_neg hempty]
      refine h.update key (some _) rfl ?_ ?_ ?_ ?_
      · simp [waiting, hk]
      · rintro l ⟨⟩
        exact .inr fun hnil => hempty (List.isEmpty_iff.mpr hnil)
      · exact fun k l hl hrun _ => List.mem_append_left _ (h.ready k l hl hrun)
      · exact fun _ _ _ => List.mem_append_right _ (List.mem_singleton_self key)

@[simp] theorem compactReady_lane (q : OrderedHandlerQueue E) (k : OrderedLaneKey) :
    q.compactReady.lane k = q.lane k := rfl

theorem Sound.compactReady (h : q.Sound) : q.compactReady.Sound where
  __ := h
  ready := by
    intro k lane hk hrun
    refine List.mem_filter.mpr ⟨h.ready k lane hk hrun, ?_⟩
    have hk' : q.lane k = some lane := hk
    simp [contains, hk']

/-- What the loop of `discard_matching` leaves of a lane. -/
def keep (pred : E → Bool) (o : Option (OrderedLane E)) : Option (OrderedLane E) :=
  o.bind fun lane =>
    let events := lane.events.filter fun event => !pred event
    if events.isEmpty && !lane.running then none else some { lane with events := events }

theorem discardIn_lane (pred : E → Bool) (q : OrderedHandlerQueue E) (key k : OrderedLaneKey) :
    (discardIn pred q key).lane k = if k = key then keep pred (q.lane key) else q.lane k := by
  unfold discardIn keep
  cases hk : q.lane key with
  | none =>
    split_ifs with heq
    · rw [heq, hk, Option.bind_none]
    · rfl
  | some lane =>
    simp only [Option.bind_some]
    by_cases hempty :
      ((lane.events.filter fun event => !pred event).isEmpty && !lane.running) = true
    · rw [if_pos hempty, if_pos hempty]
      exact assocGet_put key k none q.lanes
    · rw [if_neg hempty, if_neg hempty]
      exact assocGet_put key k (some _) q.lanes

theorem Sound.discardIn (h : q.Sound) (pred : E → Bool)
    (key : OrderedLaneKey) : (discardIn pred q key).Sound := by
  unfold OrderedHandlerQueue.discardIn
  cases hk : q.lane key with
  | none => exact h
  | some lane =>
    have hle : (lane.events.filter fun event => !pred event).length ≤ lane.events.length :=
      List.length_filter_le _ _
    have hpending := h.waiting_le key
    simp only [waiting, hk, Option.elim] at hpending
    by_cases hempty :
      ((lane.events.filter fun event => !pred event).isEmpty && !lane.running) = true
    · simp only [if_pos hempty]
      have hnil : (lane.events.filter fun event => !pred event) = [] := by
        simp only [Bool.and_eq_true] at hempty
        exact List.isEmpty_iff.mp hempty.1
      refine h.update key none rfl ?_ (by rintro _ ⟨⟩) (fun k l hl hrun _ => h.ready k l hl hrun)
        (by rintro _ ⟨⟩)
      simp only [waiting, hk, Option.elim, hnil, List.length_nil]
      omega
    · simp only [if_neg hempty]
      refine h.update key (some _) rfl ?_ ?_ (fun k l hl hrun _ => h.ready k l hl hrun) ?_
      · simp only [waiting, hk, Option.elim]
        omega
      · rintro l ⟨⟩
        by_cases hrun : lane.running = true
        · exact .inl hrun
        · exact .inr fun hnil => hempty (by
            change (lane.events.filter fun event => !pred event) = [] at hnil
            simp [hnil, hrun])
      · rintro l ⟨⟩ hrun
        exact h.ready key lane hk hrun

theorem Sound.discardFold (h : q.Sound) (pred : E → Bool)
    (keys : List OrderedLaneKey) : (keys.foldl (OrderedHandlerQueue.discardIn pred) q).Sound := by
  induction keys generalizing q with
  | nil => exact h
  | cons key keys ih => exact ih (h.discardIn pred key)

theorem Sound.discardMatching (h : q.Sound) (pred : E → Bool) : (q.discardMatching pred).Sound :=
  (h.discardFold pred _).compactReady

theorem keep_keep (pred : E → Bool) (o : Option (OrderedLane E)) :
    keep pred (keep pred o) = keep pred o := by
  cases o with
  | none => rfl
  | some lane =>
    simp only [keep, Option.bind_some]
    split_ifs with h
    · rfl
    · rw [Option.bind_some, List.filter_filter]
      simp only [Bool.and_self]
      rw [if_neg h]

theorem discardFold_lane (pred : E → Bool) (q : OrderedHandlerQueue E)
    (keys : List OrderedLaneKey) (k : OrderedLaneKey) :
    (keys.foldl (discardIn pred) q).lane k =
      if k ∈ keys then keep pred (q.lane k) else q.lane k := by
  induction keys generalizing q with
  | nil => simp
  | cons key keys ih =>
    rw [List.foldl_cons, ih, discardIn_lane]
    by_cases hkey : k = key
    · subst hkey
      by_cases hmem : k ∈ keys
      · simp [hmem, keep_keep]
      · simp [hmem]
    · simp [hkey]

theorem discardMatching_lane (q : OrderedHandlerQueue E) (pred : E → Bool) (k : OrderedLaneKey) :
    (q.discardMatching pred).lane k = keep pred (q.lane k) := by
  rw [discardMatching, compactReady_lane, discardFold_lane]
  split_ifs with h
  · rfl
  · have hnone : q.lane k = none := assocGet_eq_none h
    rw [hnone, keep, Option.bind_none]

/-- What `discard_lane` leaves of a lane. -/
def cleared (o : Option (OrderedLane E)) : Option (OrderedLane E) :=
  o.bind fun lane => if lane.running then some { lane with events := [] } else none

theorem discardLane_lane (q : OrderedHandlerQueue E) (key k : OrderedLaneKey) :
    (q.discardLane key).1.lane k = if k = key then cleared (q.lane key) else q.lane k := by
  unfold discardLane cleared
  cases hk : q.lane key with
  | none =>
    split_ifs with heq
    · rw [heq, hk, Option.bind_none]
    · rfl
  | some lane =>
    simp only [Option.bind_some]
    by_cases hrun : lane.running = true
    · rw [if_pos hrun, if_pos hrun]
      exact assocGet_put key k (some _) q.lanes
    · rw [if_neg hrun, if_neg hrun]
      exact assocGet_put key k none q.lanes

theorem Sound.discardLane (h : q.Sound) (key : OrderedLaneKey) : (q.discardLane key).1.Sound := by
  unfold OrderedHandlerQueue.discardLane
  cases hk : q.lane key with
  | none => exact h
  | some lane =>
    have hpending := h.waiting_le key
    simp only [waiting, hk, Option.elim] at hpending
    by_cases hrun : lane.running = true
    · simp only [if_pos hrun]
      refine h.update key (some _) rfl ?_ ?_ (fun k l hl hr _ => h.ready k l hl hr) ?_
      · simp only [waiting, hk, Option.elim, List.length_nil]
        omega
      · rintro l ⟨⟩
        exact .inl hrun
      · rintro l ⟨⟩ hfalse
        exact absurd hfalse (by simp [hrun])
    · simp only [if_neg hrun]
      refine h.update key none rfl ?_ (by rintro _ ⟨⟩) (fun k l hl hr _ => h.ready k l hl hr)
        (by rintro _ ⟨⟩)
      simp only [waiting, hk, Option.elim]
      omega

theorem retireLane_lane (q : OrderedHandlerQueue E) (key k : OrderedLaneKey) :
    (q.retireLane key).lane k = if k = key then cleared (q.lane key) else q.lane k := by
  rw [← discardLane_lane, retireLane]
  dsimp only
  split_ifs <;> rfl

theorem Sound.retireLane (h : q.Sound) (key : OrderedLaneKey) : (q.retireLane key).Sound := by
  unfold OrderedHandlerQueue.retireLane
  have hdiscard := h.discardLane key
  simp only
  split_ifs
  · exact hdiscard.compactReady
  · exact hdiscard

/-! ### Starting the next event -/

/-- What `start_next` returns: nothing, with every lane as it was, or the head of a lane that was
not running. -/
inductive Started (q q' : OrderedHandlerQueue E) : Option (OrderedLaneKey × E) → Prop
  | nothing (hlanes : ∀ k, q'.lane k = q.lane k) : Started q q' none
  | head {key : OrderedLaneKey} {event : E} {events : List E}
      (hkey : q.lane key = some ⟨event :: events, false⟩)
      (hlanes : ∀ k, q'.lane k = if k = key then some ⟨events, true⟩ else q.lane k) :
      Started q q' (some (key, event))

/-- `start_next` from a queue with the same lanes. -/
theorem Started.frame {q₀ q' : OrderedHandlerQueue E} {o : Option (OrderedLaneKey × E)}
    (h : Started q q' o) (hlanes : ∀ k, q.lane k = q₀.lane k) : Started q₀ q' o := by
  cases h with
  | nothing h => exact .nothing fun k => (h k).trans (hlanes k)
  | head hkey h =>
    refine .head (hlanes _ ▸ hkey) fun k => ?_
    rw [h k, hlanes k]

theorem startFrom_spec {lanes : List (OrderedLaneKey × OrderedLane E)} {pending : ℕ}
    {ready : List OrderedLaneKey} (h : (⟨lanes, ready, pending⟩ : OrderedHandlerQueue E).Sound) :
    (startFrom lanes pending ready).1.Sound ∧
      Started ⟨lanes, ready, pending⟩ (startFrom lanes pending ready).1
        (startFrom lanes pending ready).2 := by
  induction ready with
  | nil => exact ⟨h, .nothing fun _ => rfl⟩
  | cons key ready ih =>
    -- Dropping a key whose lane is absent or running leaves every startable lane registered.
    have hskip (hkey : ∀ lane, assocGet key lanes = some lane → lane.running = true) :
        (⟨lanes, ready, pending⟩ : OrderedHandlerQueue E).Sound := by
      refine ⟨h.nodup, h.pending, h.busy, ?_⟩
      intro k lane hk hrun
      rcases List.mem_cons.mp (h.ready k lane hk hrun) with rfl | hmem
      · exact absurd (hkey lane hk) (by simp [hrun])
      · exact hmem
    rw [startFrom]
    cases hk : assocGet key lanes with
    | none =>
      obtain ⟨hs, hstart⟩ := ih (hskip (by rw [hk]; rintro _ ⟨⟩))
      exact ⟨hs, hstart.frame fun _ => rfl⟩
    | some lane =>
      by_cases hrun : lane.running = true
      · obtain ⟨hs, hstart⟩ := ih (hskip (by rw [hk]; rintro _ ⟨⟩; exact hrun))
        simp only [if_pos hrun]
        exact ⟨hs, hstart.frame fun _ => rfl⟩
      · simp only [if_neg hrun]
        obtain ⟨events, running⟩ := lane
        have hfalse : running = false := by simpa using hrun
        subst hfalse
        cases events with
        | nil =>
          -- A lane that is neither running nor waiting is never kept.
          rcases h.busy key _ hk with hbad | hbad
          · exact absurd hbad (by simp)
          · exact absurd rfl hbad
        | cons event events =>
          refine ⟨?_, .head hk fun k => assocGet_put key k (some _) lanes⟩
          refine h.update key (some ⟨events, true⟩) rfl
            ?_ (fun l hl => .inl (by cases hl; rfl)) ?_ ?_
          · have hle := h.waiting_le key
            have hk' : (⟨lanes, key :: ready, pending⟩ : OrderedHandlerQueue E).lane key = some _ :=
              hk
            rw [hk'] at hle ⊢
            simp only [waiting, Option.elim, List.length_cons] at hle ⊢
            omega
          · intro k l hl hr hne
            rcases List.mem_cons.mp (h.ready k l hl hr) with heq | hmem
            · exact absurd heq hne
            · exact hmem
          · rintro l ⟨⟩ hbad
            exact absurd hbad (by simp)

theorem startNext_spec (h : q.Sound) :
    q.startNext.1.Sound ∧ Started q q.startNext.1 q.startNext.2 :=
  startFrom_spec h

end OrderedHandlerQueue

end BasisRust.Server

