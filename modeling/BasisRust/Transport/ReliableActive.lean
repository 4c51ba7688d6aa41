import BasisRust.Transport.Ack

/-!
# The activity flag of a peer

`reliable_active` tells the dispatcher which peers to visit.  The producers publish work under the
lock of their queue and then set the flag; a dispatch pass that finds nothing left takes the four
queue locks one after another, checks each queue as it goes, and clears the flag while it holds all
of them.  `record_pending_reliable` is the one producer that releases its lock before it sets the
flag.

The queues, the counters and the packets a pass has taken are those of `SendState`; the locks have
explicit holders here, so that a step of one thread between two steps of another is a step of the
system.  A producer that holds a lock has published its work and either has or has not set the flag
yet.  `unset` counts the calls of `record_pending_reliable` that have released their lock and not
set the flag.
-/

namespace BasisRust.Transport

open Library

/-- Who holds the lock of a queue. -/
inductive LockHolder where
  /-- A producer that has published its work; `flagged` once it has set the flag. -/
  | producer (flagged : Bool)
  | refresh
  deriving DecidableEq

/-- How far `refresh_reliable_active` has come: the locks it holds, in the order it takes them. -/
inductive RefreshPhase where
  | entered
  | datagrams
  | pending
  | outgoing
  | acks
  | cleared
  deriving DecidableEq

/-- How far a dispatch pass over the peer has come. -/
inductive PassPhase where
  | asleep
  | retrying
  | releasingAcks
  | moving
  | building
  | refreshing (phase : RefreshPhase)
  | flushing
  deriving DecidableEq

structure ActiveState where
  send : SendState
  acks : Byte → Option AckState
  pendingDatagrams : List Bytes
  reliableActive : Bool
  datagramsLock : Option LockHolder
  pendingLock : Option LockHolder
  outgoingLock : Option LockHolder
  acksLock : Option LockHolder
  unset : ℕ
  pass : PassPhase

namespace ActiveState

def init (connectionNumber : BitVec 2) : ActiveState where
  send := .init connectionNumber
  acks := fun _ => none
  pendingDatagrams := []
  reliableActive := false
  datagramsLock := none
  pendingLock := none
  outgoingLock := none
  acksLock := none
  unset := 0
  pass := .asleep

/-! ### Work -/

def HasQueued (s : ActiveState) : Prop := ∃ c, s.send.outgoing c ≠ []

def HasInFlight (s : ActiveState) : Prop := ∃ c, s.send.pending c ≠ []

def HasDirtyAck (s : ActiveState) : Prop := ∃ c, ∃ ack, s.acks c = some ack ∧ ack.dirty = true

instance (s : ActiveState) : Decidable s.HasQueued :=
  inferInstanceAs (Decidable (∃ c, s.send.outgoing c ≠ []))

instance (s : ActiveState) : Decidable s.HasInFlight :=
  inferInstanceAs (Decidable (∃ c, s.send.pending c ≠ []))

instance (s : ActiveState) : Decidable s.HasDirtyAck :=
  decidable_of_iff (∃ c, (s.acks c).any (fun ack => ack.dirty) = true) <| by
    simp [HasDirtyAck, Option.any_eq_true]

/-! ### Producers -/

/-- `enqueue_reliable_batch` up to the store of the flag; a refused batch releases the lock. -/
def enqueue (s : ActiveState) (packets : List (Byte × DeliveryMethod × Bytes)) : ActiveState :=
  let (accepted, send) := enqueueReliableBatch s.send packets
  if accepted && !packets.isEmpty then
    { s with send := send, outgoingLock := some (.producer false) }
  else s

/-- Whether `queue_ack` gets as far as marking the window dirty. -/
def ackAccepted (ack : AckState) (sequence : ℕ) : Bool :=
  decide (sequence < maxSequence) && decide (0 ≤ relativeSequence sequence ack.windowStart)

/-- `queue_ack` up to the store of the flag; a sequence number before the window releases the
lock. -/
def publishAck (s : ActiveState) (channelId : Byte) (sequence : ℕ) : ActiveState :=
  if sequence ≥ maxSequence then s
  else
    let ack := (s.acks channelId).getD .initial
    { s with
      acks := Function.update s.acks channelId (some (queueAck ack sequence))
      acksLock := if ackAccepted ack sequence then some (.producer false) else none }

/-- `record_pending_reliable` up to the release of its lock. -/
def record (s : ActiveState) (channelId : Byte) (packet : PendingReliable) : ActiveState :=
  let (recorded, send) := recordPendingReliable s.send channelId packet
  if recorded then { s with send := send, unset := s.unset + 1 } else s

/-! ### The dispatch pass -/

/-- Clear the dirty marks; the acknowledgements go to the builder of the pass. -/
def releaseAcks (s : ActiveState) : ActiveState :=
  { s with
    acks := fun c => (s.acks c).map fun ack => { ack with dirty := false }
    pass := .moving }

/-- Build the next packet the pass has taken and put it in flight. -/
def buildOne (s : ActiveState) (channelId : Byte) (outgoing : OutgoingReliable)
    (rest : List (Byte × OutgoingReliable)) : ActiveState :=
  let (built, packet) := buildQueuedReliablePacket s.send channelId outgoing
  let recorded := record { s with send := built } channelId packet
  { recorded with send := { recorded.send with phase := .afterBuild rest } }

/-- Give up the locks a refresh holds. -/
def releaseLocks (s : ActiveState) : ActiveState :=
  { s with
    datagramsLock := none
    pendingLock := if s.pendingLock = some .refresh then none else s.pendingLock
    outgoingLock := if s.outgoingLock = some .refresh then none else s.outgoingLock
    acksLock := if s.acksLock = some .refresh then none else s.acksLock
    pass := .flushing }

inductive Action where
  | enqueue (packets : List (Byte × DeliveryMethod × Bytes))
  | enqueueFlag
  | enqueueEnd
  | queueAck (channelId : Byte) (sequence : ℕ)
  | ackFlag
  | ackEnd
  /-- A send path outside the dispatcher puts a packet in flight. -/
  | record (channelId : Byte) (packet : PendingReliable)
  | recordFlag
  /-- An acknowledgement arrives. -/
  | ack (bytes : Bytes)
  | settle (released : ℕ)
  /-- The dispatcher finds the flag set and gets the send turn. -/
  | visit
  /-- Send the datagrams left over from earlier; only `sent` of them go out. -/
  | retry (sent : ℕ)
  | releaseAcks
  | move (order : List Byte)
  | releaseBytes
  | releasePackets
  | build
  /-- The idle check after the packets are built. -/
  | checkIdle
  /-- The next step of `refresh_reliable_active`. -/
  | refresh
  /-- Append the built datagrams, set the flag if there are any, and try to send. -/
  | flush (datagrams : List Bytes) (sent : ℕ)
  /-- The maintenance loop appends pings and retransmissions. -/
  | maintain (datagrams : List Bytes) (sent : ℕ)

/-- One step of `refresh_reliable_active`: take the next lock and look at its queue, then clear the
flag, then release everything. -/
def refreshStep (s : ActiveState) : RefreshPhase → Option ActiveState
  | .entered =>
    if s.datagramsLock = none then
      some (if s.pendingDatagrams = [] then
        { s with datagramsLock := some .refresh, pass := .refreshing .datagrams }
      else s.releaseLocks)
    else none
  | .datagrams =>
    if s.pendingLock = none then
      some (if s.HasInFlight then s.releaseLocks
      else { s with pendingLock := some .refresh, pass := .refreshing .pending })
    else none
  | .pending =>
    if s.outgoingLock = none then
      some (if s.HasQueued then s.releaseLocks
      else { s with outgoingLock := some .refresh, pass := .refreshing .outgoing })
    else none
  | .outgoing =>
    if s.acksLock = none then
      some (if s.HasDirtyAck then s.releaseLocks
      else { s with acksLock := some .refresh, pass := .refreshing .acks })
    else none
  | .acks => some { s with reliableActive := false, pass := .refreshing .cleared }
  | .cleared => some s.releaseLocks

def appendDatagrams (s : ActiveState) (datagrams : List Bytes) (sent : ℕ) : ActiveState :=
  { s with
    pendingDatagrams := (s.pendingDatagrams ++ datagrams).drop sent
    reliableActive := if datagrams = [] then s.reliableActive else true }

def step (s : ActiveState) : Action → Option ActiveState
  | .enqueue packets => if s.outgoingLock = none then some (s.enqueue packets) else none
  | .enqueueFlag =>
    if s.outgoingLock = some (.producer false) then
      some { s with reliableActive := true, outgoingLock := some (.producer true) }
    else none
  | .enqueueEnd =>
    if s.outgoingLock = some (.producer true) then some { s with outgoingLock := none } else none
  | .queueAck channelId sequence =>
    if s.acksLock = none then some (s.publishAck channelId sequence) else none
  | .ackFlag =>
    if s.acksLock = some (.producer false) then
      some { s with reliableActive := true, acksLock := some (.producer true) }
    else none
  | .ackEnd =>
    if s.acksLock = some (.producer true) then some { s with acksLock := none } else none
  | .record channelId packet =>
    if s.pendingLock = none then some (s.record channelId packet) else none
  | .recordFlag =>
    if 0 < s.unset then some { s with reliableActive := true, unset := s.unset - 1 } else none
  | .ack bytes =>
    if s.pendingLock = none then some { s with send := processAck s.send bytes } else none
  | .settle released =>
    (sendStep s.send (.settle released)).map fun send => { s with send := send }
  | .visit =>
    if s.pass = .asleep ∧ s.reliableActive = true then some { s with pass := .retrying } else none
  | .retry sent =>
    if s.pass = .retrying ∧ s.datagramsLock = none then
      some { s with
        pendingDatagrams := s.pendingDatagrams.drop sent
        pass := if s.pendingDatagrams.drop sent = [] then .releasingAcks else .asleep }
    else none
  | .releaseAcks =>
    if s.pass = .releasingAcks ∧ s.acksLock = none then some s.releaseAcks else none
  | .move order =>
    if s.pass = .moving ∧ s.pendingLock = none ∧ s.outgoingLock = none then
      (sendStep s.send (.move order)).map fun send => { s with send := send, pass := .building }
    else none
  | .releaseBytes => (sendStep s.send .releaseBytes).map fun send => { s with send := send }
  | .releasePackets => (sendStep s.send .releasePackets).map fun send => { s with send := send }
  | .build =>
    match s.send.phase with
    | .building ((channelId, outgoing) :: rest) =>
      if s.pendingLock = none then some (s.buildOne channelId outgoing rest) else none
    | _ => none
  | .checkIdle =>
    if s.pass = .building ∧ s.send.phase = .idle ∧ s.outgoingLock = none then
      some { s with
        pass := if ¬ s.HasQueued ∧ s.send.pendingTotal = 0 then .refreshing .entered
          else .flushing }
    else none
  | .refresh =>
    match s.pass with
    | .refreshing phase => s.refreshStep phase
    | _ => none
  | .flush datagrams sent =>
    if s.pass = .flushing ∧ s.datagramsLock = none then
      some { s.appendDatagrams datagrams sent with pass := .asleep }
    else none
  | .maintain datagrams sent =>
    if s.pass = .asleep ∧ s.datagramsLock = none then some (s.appendDatagrams datagrams sent)
    else none

/-! ### The invariant -/

/-- How many locks a refresh holds: of the datagrams, the in-flight packets, the outgoing packets
and the acknowledgements, in this order. -/
def PassPhase.held : PassPhase → ℕ
  | .refreshing .datagrams => 1
  | .refreshing .pending => 2
  | .refreshing .outgoing => 3
  | .refreshing .acks | .refreshing .cleared => 4
  | _ => 0

structure ActiveInv (s : ActiveState) : Prop where
  queued : s.HasQueued → s.reliableActive = true ∨ s.outgoingLock = some (.producer false)
  inFlight : s.HasInFlight → s.reliableActive = true ∨ 0 < s.unset
  dirty : s.HasDirtyAck → s.reliableActive = true ∨ s.acksLock = some (.producer false)
  pendingLock : s.pendingLock = if 2 ≤ PassPhase.held s.pass then some .refresh else none
  outgoingLock : s.outgoingLock = some .refresh ↔ 3 ≤ PassPhase.held s.pass
  acksLock : s.acksLock = some .refresh ↔ 4 ≤ PassPhase.held s.pass
  pendingSeen : 2 ≤ PassPhase.held s.pass → ¬ s.HasInFlight
  outgoingSeen : 3 ≤ PassPhase.held s.pass → ¬ s.HasQueued
  acksSeen : 4 ≤ PassPhase.held s.pass → ¬ s.HasDirtyAck

theorem activeInv_init (connectionNumber : BitVec 2) : ActiveInv (init connectionNumber) where
  queued := by rintro ⟨c, hc⟩; exact absurd rfl hc
  inFlight := by rintro ⟨c, hc⟩; exact absurd rfl hc
  dirty := by rintro ⟨c, ack, hc, -⟩; cases hc
  pendingLock := rfl
  outgoingLock := by simp [init, PassPhase.held]
  acksLock := by simp [init, PassPhase.held]
  pendingSeen := by simp [init, PassPhase.held]
  outgoingSeen := by simp [init, PassPhase.held]
  acksSeen := by simp [init, PassPhase.held]

variable {s s' : ActiveState}

/-- A step that adds no work, clears no flag and takes or releases no lock but that of the
datagrams. -/
theorem ActiveInv.frame (h : ActiveInv s)
    (hqueued : s'.HasQueued → s.HasQueued) (hinFlight : s'.HasInFlight → s.HasInFlight)
    (hdirty : s'.HasDirtyAck → s.HasDirtyAck)
    (hflag : s.reliableActive = true → s'.reliableActive = true)
    (hpending : s'.pendingLock = s.pendingLock) (houtgoing : s'.outgoingLock = s.outgoingLock)
    (hacks : s'.acksLock = s.acksLock) (hunset : s'.unset = s.unset)
    (hheld : max 1 (PassPhase.held s'.pass) = max 1 (PassPhase.held s.pass)) : ActiveInv s' := by
  have hiff : ∀ n, 2 ≤ n → (n ≤ PassPhase.held s'.pass ↔ n ≤ PassPhase.held s.pass) := by
    intro n hn
    omega
  constructor
  · intro hw
    rw [houtgoing]
    exact (h.queued (hqueued hw)).imp_left hflag
  · intro hw
    rw [hunset]
    exact (h.inFlight (hinFlight hw)).imp_left hflag
  · intro hw
    rw [hacks]
    exact (h.dirty (hdirty hw)).imp_left hflag
  · simp only [hpending, hiff 2 le_rfl, h.pendingLock]
  · rw [houtgoing, hiff 3 (by omega), h.outgoingLock]
  · rw [hacks, hiff 4 (by omega), h.acksLock]
  · rw [hiff 2 le_rfl]
    exact fun hp hw => h.pendingSeen hp (hinFlight hw)
  · rw [hiff 3 (by omega)]
    exact fun hp hw => h.outgoingSeen hp (hqueued hw)
  · rw [hiff 4 (by omega)]
    exact fun hp hw => h.acksSeen hp (hdirty hw)

/-- The lock is free, so no refresh has passed this queue. -/
theorem ActiveInv.held_of_pending (h : ActiveInv s) (hfree : s.pendingLock = none) :
    PassPhase.held s.pass < 2 := by
  have hlock := h.pendingLock
  rw [hfree] at hlock
  split_ifs at hlock with hheld
  omega

theorem ActiveInv.held_of_outgoing (h : ActiveInv s) (hfree : s.outgoingLock ≠ some .refresh) :
    PassPhase.held s.pass < 3 := by
  have hlock := mt h.outgoingLock.mpr hfree
  omega

theorem ActiveInv.held_of_acks (h : ActiveInv s) (hfree : s.acksLock ≠ some .refresh) :
    PassPhase.held s.pass < 4 := by
  have hlock := mt h.acksLock.mpr hfree
  omega

/-! ### What the queue operations leave alone -/

theorem enqueueReliableBatch_pending (s : SendState)
    (packets : List (Byte × DeliveryMethod × Bytes)) :
    (enqueueReliableBatch s packets).2.pending = s.pending := by
  unfold enqueueReliableBatch
  split_ifs
  · rfl
  · cases packets.mapM planPayload with
    | none => rfl
    | some plan =>
      dsimp only
      split_ifs <;> rfl

theorem processAck_outgoing (s : SendState) (bytes : Bytes) :
    (processAck s bytes).outgoing = s.outgoing := by
  unfold processAck
  dsimp only
  split_ifs
  · rfl
  · rfl
  · rfl
  · split <;> rfl
  · split
    · rfl
    · split_ifs <;> rfl

/-- An acknowledgement only takes packets out of flight. -/
theorem processAck_pending (s : SendState) (bytes : Bytes) (c : Byte)
    (h : (processAck s bytes).pending c ≠ []) : s.pending c ≠ [] := by
  intro hnil
  refine h ?_
  have hrelease : ∀ channelId gone kept, (c = channelId → kept = []) →
      (releasePending s channelId gone kept).pending c = [] := by
    intro channelId gone kept hkept
    by_cases hc : c = channelId
    · subst hc
      simp [releasePending, hkept rfl]
    · simp [releasePending, hc, hnil]
  unfold processAck
  dsimp only
  split_ifs
  · exact hnil
  · exact hnil
  · exact hnil
  · split
    · exact hnil
    · refine hrelease _ _ _ fun hc => ?_
      rw [← hc, hnil, List.drop_nil]
  · split
    · exact hnil
    · split_ifs
      · exact hnil
      · refine hrelease _ _ _ fun hc => ?_
        rename_i front rest hq _
        rw [← hc, hnil] at hq
        cases hq

theorem moveQueued_outgoing (s : SendState) (order : List Byte) (remaining : ℕ)
    (outgoing : Byte → List OutgoingReliable) (c : Byte)
    (h : (moveQueued s order remaining outgoing).2 c ≠ []) : outgoing c ≠ [] := by
  induction order generalizing remaining outgoing with
  | nil => exact h
  | cons d order ih =>
    rw [moveQueued] at h
    split_ifs at h
    · exact h
    · have hrest := ih _ _ h
      by_cases hc : c = d
      · subst hc
        rw [Function.update_self] at hrest
        intro hnil
        exact hrest (by simp [dequeueReliableWindow, hnil])
      · rwa [Function.update_of_ne hc] at hrest

/-! ### Steps -/

theorem ActiveInv.enqueue (h : ActiveInv s) (hfree : s.outgoingLock = none)
    (packets : List (Byte × DeliveryMethod × Bytes)) : ActiveInv (s.enqueue packets) := by
  unfold ActiveState.enqueue
  dsimp only
  split_ifs with hacc
  · have hheld := h.held_of_outgoing (by simp [hfree])
    have hsame : (s.HasInFlight ↔ HasInFlight { s with
        send := (enqueueReliableBatch s.send packets).2
        outgoingLock := some (.producer false) }) := by
      simp only [HasInFlight, enqueueReliableBatch_pending]
    refine ⟨fun _ => .inr rfl, fun hw => h.inFlight (hsame.mpr hw), h.dirty, h.pendingLock, ?_,
      h.acksLock, fun hp hw => h.pendingSeen hp (hsame.mpr hw), fun hp => ?_, h.acksSeen⟩
    · simp only [reduceCtorEq, Option.some.injEq, false_iff]
      omega
    · change 3 ≤ PassPhase.held s.pass at hp
      omega
  · exact h

theorem queueAck_dirty {ack : AckState} {sequence : ℕ} (h : ackAccepted ack sequence = false) :
    queueAck ack sequence = ack := by
  unfold queueAck
  simp only [ackAccepted, Bool.and_eq_false_iff, decide_eq_false_iff_not] at h
  by_cases hseq : sequence ≥ maxSequence
  · rw [if_pos hseq]
  · rw [if_neg hseq]
    dsimp only
    rw [if_pos (by omega)]

section

variable (h : ActiveInv s)
include h

theorem ActiveInv.publishAck (hfree : s.acksLock = none) (channelId : Byte) (sequence : ℕ) :
    ActiveInv (s.publishAck channelId sequence) := by
  unfold ActiveState.publishAck
  split_ifs with hseq
  · exact h
  · have hheld := h.held_of_acks (by simp [hfree])
    dsimp only
    by_cases hacc : ackAccepted ((s.acks channelId).getD .initial) sequence = true
    · rw [if_pos hacc]
      refine ⟨h.queued, h.inFlight, fun _ => .inr rfl, h.pendingLock, h.outgoingLock, ?_,
        h.pendingSeen, h.outgoingSeen, fun hp => ?_⟩
      · simp only [reduceCtorEq, Option.some.injEq, false_iff]
        omega
      · change 4 ≤ PassPhase.held s.pass at hp
        omega
    · rw [if_neg hacc, queueAck_dirty (by simpa using hacc)]
      refine h.frame id id ?_ id rfl rfl hfree.symm rfl rfl
      rintro ⟨c, ack, hc, hd⟩
      -- The entry may be new, but then it is not dirty.
      by_cases heq : c = channelId
      · subst heq
        simp only [Function.update_self, Option.some.injEq] at hc
        cases hold : s.acks c with
        | none =>
          rw [hold] at hc
          rw [← hc] at hd
          cases hd
        | some old =>
          rw [hold, Option.getD_some] at hc
          exact ⟨c, old, hold, hc ▸ hd⟩
      · exact ⟨c, ack, by simpa [heq] using hc, hd⟩

theorem ActiveInv.record (hfree : s.pendingLock = none) (channelId : Byte)
    (packet : PendingReliable) : ActiveInv (s.record channelId packet) := by
  have hheld := h.held_of_pending hfree
  unfold ActiveState.record recordPendingReliable
  by_cases hfull : s.send.pendingTotal ≥ maxPendingReliablePerPeer
  · simp only [if_pos hfull]
    exact h
  · simp only [if_neg hfull, if_true]
    refine ⟨h.queued, fun _ => .inr (Nat.succ_pos _), h.dirty, h.pendingLock, h.outgoingLock,
      h.acksLock, fun hp => ?_, h.outgoingSeen, h.acksSeen⟩
    change 2 ≤ PassPhase.held s.pass at hp
    omega

theorem ActiveInv.buildOne (hfree : s.pendingLock = none) (channelId : Byte)
    (outgoing : OutgoingReliable) (rest : List (Byte × OutgoingReliable)) :
    ActiveInv (s.buildOne channelId outgoing rest) := by
  have hbuilt : ActiveInv { s with
      send := (buildQueuedReliablePacket s.send channelId outgoing).1 } :=
    h.frame id id id id rfl rfl rfl rfl rfl
  exact (hbuilt.record hfree channelId _).frame id id id id rfl rfl rfl rfl rfl

/-- Giving up the locks of a refresh. -/
theorem ActiveInv.releaseLocks : ActiveInv s.releaseLocks where
  queued := by
    intro hw
    refine (h.queued hw).imp_right fun hlock => ?_
    simp [ActiveState.releaseLocks, hlock]
  inFlight := h.inFlight
  dirty := by
    intro hw
    refine (h.dirty hw).imp_right fun hlock => ?_
    simp [ActiveState.releaseLocks, hlock]
  pendingLock := by
    have hlock := h.pendingLock
    simp only [ActiveState.releaseLocks, PassPhase.held]
    split_ifs at hlock ⊢ with h₁ h₂ h₃ <;> first | rfl | simp_all
  outgoingLock := by
    simp only [ActiveState.releaseLocks, PassPhase.held]
    split_ifs with hlock
    · simp
    · simp [hlock]
  acksLock := by
    simp only [ActiveState.releaseLocks, PassPhase.held]
    split_ifs with hlock
    · simp
    · simp [hlock]
  pendingSeen := by simp [ActiveState.releaseLocks, PassPhase.held]
  outgoingSeen := by simp [ActiveState.releaseLocks, PassPhase.held]
  acksSeen := by simp [ActiveState.releaseLocks, PassPhase.held]

theorem ActiveInv.refreshStep {phase : RefreshPhase} (hpass : s.pass = .refreshing phase)
    (hstep : s.refreshStep phase = some s') : ActiveInv s' := by
  cases phase with simp only [ActiveState.refreshStep] at hstep
  | entered =>
    split_ifs at hstep with hfree hempty
    · cases hstep
      exact h.frame id id id id rfl rfl rfl rfl (by simp [hpass, PassPhase.held])
    · cases hstep
      exact h.releaseLocks
  | datagrams =>
    split_ifs at hstep with hfree hwork
    · cases hstep
      exact h.releaseLocks
    · cases hstep
      have hout := h.outgoingLock
      have hacks := h.acksLock
      rw [hpass] at hout hacks
      exact ⟨h.queued, h.inFlight, h.dirty, rfl, by simpa [PassPhase.held] using hout,
        by simpa [PassPhase.held] using hacks, fun _ => hwork, by simp [PassPhase.held],
        by simp [PassPhase.held]⟩
  | pending =>
    split_ifs at hstep with hfree hwork
    · cases hstep
      exact h.releaseLocks
    · cases hstep
      have hpend := h.pendingLock
      have hacks := h.acksLock
      rw [hpass] at hpend hacks
      refine ⟨fun hw => absurd hw hwork, h.inFlight, h.dirty, hpend, by simp [PassPhase.held],
        by simpa [PassPhase.held] using hacks, fun _ =>
          h.pendingSeen (by simp [hpass, PassPhase.held]), fun _ => hwork,
        by simp [PassPhase.held]⟩
  | outgoing =>
    split_ifs at hstep with hfree hwork
    · cases hstep
      exact h.releaseLocks
    · cases hstep
      have hpend := h.pendingLock
      have hout := h.outgoingLock
      rw [hpass] at hpend hout
      exact ⟨h.queued, h.inFlight, fun hw => absurd hw hwork, hpend,
        by simpa [PassPhase.held] using hout, by simp [PassPhase.held],
        fun _ => h.pendingSeen (by simp [hpass, PassPhase.held]),
        fun _ => h.outgoingSeen (by simp [hpass, PassPhase.held]), fun _ => hwork⟩
  | acks =>
    -- All four locks are held, and every queue was empty when its lock was taken.
    cases hstep
    have hall : PassPhase.held s.pass = 4 := by rw [hpass]; rfl
    have hpend := h.pendingSeen (by omega)
    have hout := h.outgoingSeen (by omega)
    have hack := h.acksSeen (by omega)
    have hlocks := And.intro h.pendingLock (And.intro h.outgoingLock h.acksLock)
    rw [hall] at hlocks
    exact ⟨fun hw => absurd hw hout, fun hw => absurd hw hpend, fun hw => absurd hw hack,
      hlocks.1, hlocks.2.1, hlocks.2.2, fun _ => hpend, fun _ => hout, fun _ => hack⟩
  | cleared =>
    cases hstep
    exact h.releaseLocks

theorem appendDatagrams_frame (datagrams : List Bytes) (sent : ℕ) :
    ActiveInv (s.appendDatagrams datagrams sent) := by
  refine h.frame id id id (fun hf => ?_) rfl rfl rfl rfl rfl
  simp only [appendDatagrams]
  split_ifs
  · exact hf
  · rfl

/-- The counters of the queues may change by themselves. -/
theorem ActiveInv.setSend {send : SendState} (houtgoing : send.outgoing = s.send.outgoing)
    (hpending : send.pending = s.send.pending) : ActiveInv { s with send := send } := by
  refine h.frame ?_ ?_ id id rfl rfl rfl rfl rfl
  · rintro ⟨c, hc⟩
    exact ⟨c, houtgoing ▸ hc⟩
  · rintro ⟨c, hc⟩
    exact ⟨c, hpending ▸ hc⟩

end

/-- The three steps that only settle counters. -/
theorem sendStep_counters {s s' : SendState} {a : SendAction}
    (ha : (∃ n, a = .settle n) ∨ a = .releaseBytes ∨ a = .releasePackets)
    (hstep : sendStep s a = some s') : s'.outgoing = s.outgoing ∧ s'.pending = s.pending := by
  rcases ha with ⟨n, rfl⟩ | rfl | rfl
  · simp only [sendStep] at hstep
    split_ifs at hstep
    cases hstep
    exact ⟨rfl, rfl⟩
  · simp only [sendStep] at hstep
    split at hstep
    · cases hstep
      exact ⟨rfl, rfl⟩
    · cases hstep
  · simp only [sendStep] at hstep
    split at hstep
    · cases hstep
      exact ⟨rfl, rfl⟩
    · cases hstep

theorem ActiveInv.step {a : Action} (h : ActiveInv s) (hstep : step s a = some s') :
    ActiveInv s' := by
  cases a with simp only [ActiveState.step] at hstep
  | enqueue packets =>
    split_ifs at hstep with hfree
    cases hstep
    exact h.enqueue hfree packets
  | enqueueFlag =>
    split_ifs at hstep with hlock
    cases hstep
    have hout := h.outgoingLock
    rw [hlock] at hout
    exact ⟨fun _ => .inl rfl, fun _ => .inl rfl, fun _ => .inl rfl, h.pendingLock,
      by simpa using hout, h.acksLock, h.pendingSeen, h.outgoingSeen, h.acksSeen⟩
  | enqueueEnd =>
    split_ifs at hstep with hlock
    cases hstep
    have hout := h.outgoingLock
    have hqueued := h.queued
    rw [hlock] at hout hqueued
    exact ⟨fun hw => .inl (by simpa using hqueued hw), h.inFlight, h.dirty, h.pendingLock,
      by simpa using hout, h.acksLock, h.pendingSeen, h.outgoingSeen, h.acksSeen⟩
  | queueAck channelId sequence =>
    split_ifs at hstep with hfree
    cases hstep
    exact h.publishAck hfree channelId sequence
  | ackFlag =>
    split_ifs at hstep with hlock
    cases hstep
    have hacks := h.acksLock
    rw [hlock] at hacks
    exact ⟨fun _ => .inl rfl, fun _ => .inl rfl, fun _ => .inl rfl, h.pendingLock,
      h.outgoingLock, by simpa using hacks, h.pendingSeen, h.outgoingSeen, h.acksSeen⟩
  | ackEnd =>
    split_ifs at hstep with hlock
    cases hstep
    have hacks := h.acksLock
    have hdirty := h.dirty
    rw [hlock] at hacks hdirty
    exact ⟨h.queued, h.inFlight, fun hw => .inl (by simpa using hdirty hw), h.pendingLock,
      h.outgoingLock, by simpa using hacks, h.pendingSeen, h.outgoingSeen, h.acksSeen⟩
  | record channelId packet =>
    split_ifs at hstep with hfree
    cases hstep
    exact h.record hfree channelId packet
  | recordFlag =>
    split_ifs at hstep
    cases hstep
    exact ⟨fun _ => .inl rfl, fun _ => .inl rfl, fun _ => .inl rfl, h.pendingLock, h.outgoingLock,
      h.acksLock, h.pendingSeen, h.outgoingSeen, h.acksSeen⟩
  | ack bytes =>
    split_ifs at hstep
    cases hstep
    refine h.frame ?_ ?_ id id rfl rfl rfl rfl rfl
    · rintro ⟨c, hc⟩
      exact ⟨c, by simpa only [processAck_outgoing] using hc⟩
    · rintro ⟨c, hc⟩
      exact ⟨c, processAck_pending s.send bytes c hc⟩
  | settle released =>
    obtain ⟨send, hsend, rfl⟩ := Option.map_eq_some_iff.mp hstep
    obtain ⟨ho, hp⟩ := sendStep_counters (.inl ⟨released, rfl⟩) hsend
    exact h.setSend ho hp
  | visit =>
    split_ifs at hstep with hcond
    cases hstep
    exact h.frame id id id id rfl rfl rfl rfl (by simp [hcond.1, PassPhase.held])
  | retry sent =>
    split_ifs at hstep with hcond
    all_goals
      cases hstep
      exact h.frame id id id id rfl rfl rfl rfl (by simp [hcond.1, PassPhase.held])
  | releaseAcks =>
    split_ifs at hstep with hcond
    cases hstep
    refine h.frame id id ?_ id rfl rfl rfl rfl (by simp [ActiveState.releaseAcks, hcond.1,
      PassPhase.held])
    rintro ⟨c, ack, hc, hd⟩
    obtain ⟨old, -, rfl⟩ := Option.map_eq_some_iff.mp hc
    cases hd
  | move order =>
    split_ifs at hstep with hcond
    obtain ⟨send, hsend, rfl⟩ := Option.map_eq_some_iff.mp hstep
    simp only [sendStep] at hsend
    split_ifs at hsend
    cases hsend
    refine h.frame ?_ id id id rfl rfl rfl rfl (by simp [hcond.1, PassPhase.held])
    rintro ⟨c, hc⟩
    exact ⟨c, moveQueued_outgoing _ _ _ _ c hc⟩
  | releaseBytes =>
    obtain ⟨send, hsend, rfl⟩ := Option.map_eq_some_iff.mp hstep
    obtain ⟨ho, hp⟩ := sendStep_counters (.inr (.inl rfl)) hsend
    exact h.setSend ho hp
  | releasePackets =>
    obtain ⟨send, hsend, rfl⟩ := Option.map_eq_some_iff.mp hstep
    obtain ⟨ho, hp⟩ := sendStep_counters (.inr (.inr rfl)) hsend
    exact h.setSend ho hp
  | build =>
    split at hstep
    · split_ifs at hstep with hfree
      cases hstep
      exact h.buildOne hfree _ _ _
    · cases hstep
  | checkIdle =>
    split_ifs at hstep with hcond
    all_goals
      cases hstep
      exact h.frame id id id id rfl rfl rfl rfl (by simp [hcond.1, PassPhase.held])
  | refresh =>
    split at hstep
    · rename_i phase hpass
      exact h.refreshStep hpass hstep
    · cases hstep
  | flush datagrams sent =>
    split_ifs at hstep with hcond
    cases hstep
    refine (appendDatagrams_frame h datagrams sent).frame id id id id rfl rfl rfl rfl ?_
    simp [appendDatagrams, hcond.1, PassPhase.held]
  | maintain datagrams sent =>
    split_ifs at hstep
    cases hstep
    exact appendDatagrams_frame h datagrams sent

/-- No producer is between publishing its work and setting the flag, and no refresh is under way. -/
structure Quiet (s : ActiveState) : Prop where
  enqueuing : s.outgoingLock ≠ some (.producer false)
  acking : s.acksLock ≠ some (.producer false)
  recording : s.unset = 0
  refreshing : ∀ phase, s.pass ≠ .refreshing phase

end ActiveState

open ActiveState

/-- The reliable side of one peer with its activity flag. -/
def activeSystem (connectionNumber : BitVec 2) : System ActiveState ActiveState.Action where
  init := fun s => s = .init connectionNumber
  step := ActiveState.step

theorem activeInv_of_reachable {connectionNumber : BitVec 2}
    {ok : ActiveState → ActiveState.Action → Prop} {s : ActiveState}
    (h : Reachable (activeSystem connectionNumber) ok s) : ActiveInv s := by
  refine h.invariant ActiveInv ?_ ?_
  · rintro _ rfl
    exact activeInv_init connectionNumber
  · intro s a s' hs _ hstep
    exact hs.step hstep

/-- **Reliable work is never stranded.** When nobody is in the middle of publishing or refreshing, a
peer with queued packets, packets in flight or a dirty acknowledgement has its flag set, and a
dispatcher that is asleep can visit it. -/
theorem reliable_work_visited {connectionNumber : BitVec 2} {s : ActiveState}
    (h : Reachable (activeSystem connectionNumber) (fun _ _ => True) s) (hquiet : Quiet s)
    (hwork : s.HasQueued ∨ s.HasInFlight ∨ s.HasDirtyAck) :
    s.reliableActive = true ∧ (s.pass = .asleep → (s.step .visit).isSome = true) := by
  have hinv := activeInv_of_reachable h
  have hflag : s.reliableActive = true := by
    rcases hwork with hw | hw | hw
    · exact (hinv.queued hw).resolve_right hquiet.enqueuing
    · exact (hinv.inFlight hw).resolve_right (by simp [hquiet.recording])
    · exact (hinv.dirty hw).resolve_right hquiet.acking
  refine ⟨hflag, fun hasleep => ?_⟩
  simp [ActiveState.step, hasleep, hflag]

/-- A packet is enqueued while the refresh of a pass holds the first two locks; the refresh sees it
and leaves the flag. -/
theorem reliable_work_visited_race :
    ∃ s, Reachable (activeSystem 0) (fun _ _ => True) s ∧ Quiet s ∧ s.HasQueued ∧
      s.reliableActive = true := by
  have hrun : (runActions (activeSystem 0) (.init 0)
      [.maintain [[1]] 0, .visit, .retry 1, .releaseAcks, .move [], .checkIdle, .refresh, .refresh,
        .enqueue [(0, .reliableOrdered, [7])], .enqueueFlag, .enqueueEnd, .refresh,
        .flush [] 0]).any (fun s =>
          decide ((s.outgoingLock = none ∧ s.acksLock = none ∧ s.unset = 0 ∧ s.pass = .asleep) ∧
            s.send.outgoing (DeliveryMethod.channelId 0 .reliableOrdered) ≠ [])) = true := by
    decide +kernel
  obtain ⟨s, hs, hP⟩ := exists_reachable_of_free_run (.init rfl) hrun
  obtain ⟨⟨hout, hack, hunset, hpass⟩, hqueued⟩ := of_decide_eq_true hP
  have hquiet : Quiet s := ⟨by simp [hout], by simp [hack], hunset, by simp [hpass]⟩
  have hwork : s.HasQueued := ⟨_, hqueued⟩
  exact ⟨s, hs, hquiet, hwork, (reliable_work_visited hs hquiet (.inl hwork)).1⟩

end BasisRust.Transport

