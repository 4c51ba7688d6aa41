import BasisRust.Avatar.LazyEager
import BasisRust.Avatar.Uplink
import BasisRust.Library.Run
import Mathlib.Data.List.Chain

/-!
# Which pose of a tick is committed

The updates of a player between two ticks share one place: each one that is accepted replaces the
one that waits.  The tick takes it out and commits it if its sequence number is newer than the
committed one.  Other threads go on in between, so taking out and committing are steps of their own.
-/

namespace BasisRust.Avatar

open Library

/-- Newer in the wrapping half-window order. -/
def newer (x y : Byte) : Bool := x - y ≠ 0 && (x - y).toNat < 128

/-- `payload[0]` -/
def PendingAvatarUpdate.sequence (update : PendingAvatarUpdate) : Byte := update.payload.getD 0 0

def PendingAvatarUpdate.quality (update : PendingAvatarUpdate) : BitQuality :=
  .ofCode (qualityFromChannel update.channel)

/-- The payload is as long as the checks of `upsert_from_channel_payload` ask. -/
def PendingAvatarUpdate.Whole (update : PendingAvatarUpdate) : Prop :=
  1 + update.quality.payloadLen ≤ update.payload.length

/-- `process_pending_update` -/
def PendingAvatarUpdate.process (update : PendingAvatarUpdate) (h : update.Whole) :
    AvatarUpdate where
  inboundSequence := update.sequence
  quality := update.quality
  payload := slice update.payload 1 update.quality.payloadLen
  additionalData := update.payload.drop (1 + update.quality.payloadLen)
  len := slice_length _ _ _ h

instance (update : PendingAvatarUpdate) : Decidable update.Whole :=
  inferInstanceAs (Decidable (_ ≤ _))

/-- One player.  `since`, `taken` and `commits` are history: the sequence numbers accepted since the
last tick took an update out, those of the update that was taken out and of what it had replaced,
and those committed since the player was registered. -/
structure PlayerSync where
  live : Option ℕ
  pending : Option PendingAvatarUpdate
  drained : Option PendingAvatarUpdate
  state : Option PlayerAvatarState
  heap : Heap
  generation : ℕ
  since : List Byte
  taken : List Byte
  commits : List Byte

namespace PlayerSync

def initial : PlayerSync := ⟨none, none, none, none, ⟨[], []⟩, 1, [], [], []⟩

def committed (s : PlayerSync) : Option Byte := s.state.map (·.lastInboundSequence)

inductive Action where
  | registerPlayer
  | removePlayer
  | upsert (channel : Byte) (payload : Bytes)
  | drain
  | commit (config : AvatarSyncConfig) (now : ℕ)
  /-- Other players take generations from the same counter. -/
  | elsewhere (generations : ℕ)

/-- `commit_processed_updates` for the update that was taken out. -/
def commitDrained (peerId : PeerId) (s : PlayerSync) (update : PendingAvatarUpdate)
    (config : AvatarSyncConfig) (now : ℕ) : PlayerSync :=
  if s.live ≠ some update.incarnation then { s with drained := none, taken := [] }
  else if h : update.Whole then
    let result := commitLazy peerId s.heap s.state (update.process h) config s.generation now
    { s with
      drained := none
      taken := []
      state := result.1
      heap := result.2
      generation := s.generation + 1
      commits :=
        if (result.1.map (·.lastInboundSequence)) = s.committed then s.commits
        else s.commits ++ (result.1.map (·.lastInboundSequence)).toList }
  else { s with drained := none, taken := [], generation := s.generation + 1 }

def step (peerId : PeerId) (s : PlayerSync) : Action → Option PlayerSync
  | .registerPlayer =>
    if s.live.isSome then some s
    else some { s with live := some s.generation, generation := s.generation + 1 }
  | .removePlayer =>
    some { s with live := none, pending := none, state := none, since := [], commits := [] }
  | .upsert channel payload =>
    match upsertFromChannelPayload s.live channel payload with
    | .error _ => some s
    | .ok none => some s
    | .ok (some update) =>
      some { s with pending := some update, since := s.since ++ [update.sequence] }
  | .drain =>
    match s.drained, s.pending with
    | none, some update =>
      some { s with pending := none, drained := some update, since := [], taken := s.since }
    | _, _ => none
  | .commit config now => s.drained.map fun update => s.commitDrained peerId update config now
  | .elsewhere generations => some { s with generation := s.generation + generations }

def system (peerId : PeerId) : System PlayerSync Action where
  init s := s = initial
  step := step peerId

end PlayerSync

/-! ### Sequence numbers -/

theorem newer_irrefl (x : Byte) : newer x x = false := by
  rw [newer, BitVec.sub_self]
  rfl

theorem newer_asymm {x y : Byte} (h : newer x y = true) : newer y x = false := by
  unfold newer at h ⊢
  rw [Bool.and_eq_true, decide_eq_true_iff, decide_eq_true_iff] at h
  rw [Bool.and_eq_false_iff, decide_eq_false_iff_not, decide_eq_false_iff_not]
  obtain ⟨hne, hlow⟩ := h
  right
  bv_omega

variable {state : PlayerAvatarState}

theorem stale_eq (u : AvatarUpdate) (h : state.hasReceivedFirst = true) :
    u.stale state = !newer u.inboundSequence state.lastInboundSequence := by
  unfold AvatarUpdate.stale newer
  dsimp only
  generalize u.inboundSequence - state.lastInboundSequence = delta
  rw [h]
  by_cases hzero : delta = 0
  · simp [hzero]
  · by_cases hlow : delta.toNat < 128
    · simp [hlow, Nat.not_le.mpr hlow]
    · simp [hlow, Nat.not_lt.mp hlow]

/-! ### What a commit does -/

theorem lazyHighDelta_state {h : Heap} {state' : PlayerAvatarState}
    {currentPayload delta : Option Bytes} {config : AvatarSyncConfig} {now : ℕ} {h' : Heap}
    (heq : lazyHighDelta h state currentPayload config now = (.ok (delta, state'), h')) :
    ∃ stretch, state' = state.withStretch stretch := by
  have hself : ∃ stretch, state = state.withStretch stretch := ⟨_, (withStretch_self state).symm⟩
  unfold lazyHighDelta at heq
  split at heq
  · cases heq
    exact hself
  · dsimp only at heq
    split at heq
    · cases heq
      exact hself
    · split at heq
      · cases heq
      · next baseline _ _ =>
        obtain ⟨delta', stretch', hall, -⟩ := highDeltaOrKeyframe_eq config baseline currentPayload
          (state.keyframeStretchShift, state.smallDeltaStreak)
        have hstate := hall state
        rw [withStretch_self] at hstate
        rw [hstate] at heq
        cases heq
        exact ⟨stretch', rfl⟩

theorem updateLazy_received {h h' : Heap} {state' : PlayerAvatarState} {current generation now : ℕ}
    {qualities : PerQuality (Option PreSerializedQuality)} {config : AvatarSyncConfig}
    (heq : updateLazyOutboundDeltaState h state current qualities generation config now =
      (.ok state', h')) :
    state'.lastInboundSequence = state.lastInboundSequence ∧
      state'.hasReceivedFirst = state.hasReceivedFirst := by
  unfold updateLazyOutboundDeltaState at heq
  split at heq
  · cases heq
  · split at heq
    · cases heq
    · next hdelta =>
      obtain ⟨stretch, rfl⟩ := lazyHighDelta_state hdelta
      cases heq
      exact ⟨rfl, rfl⟩
    · next hdelta =>
      obtain ⟨stretch, rfl⟩ := lazyHighDelta_state hdelta
      split at heq
      · cases heq
      · split at heq
        · cases heq
        · cases heq
          exact ⟨rfl, rfl⟩

/-- The committed number after an update. -/
def committedAfter (committed : Option Byte) (sequence : Byte) : Byte :=
  match committed with
  | none => sequence
  | some last => if newer sequence last then sequence else last

/-- **A commit** takes the update if it is newer, and keeps the state otherwise. -/
theorem commitLazy_committed (peerId : PeerId) (h : Heap) {state : Option PlayerAvatarState}
    (hfirst : ∀ st, state = some st → st.hasReceivedFirst = true) (u : AvatarUpdate)
    (config : AvatarSyncConfig) (generation now : ℕ) :
    ∃ st, (commitLazy peerId h state u config generation now).1 = some st ∧
      st.hasReceivedFirst = true ∧
      st.lastInboundSequence =
        committedAfter (state.map (·.lastInboundSequence)) u.inboundSequence := by
  cases state with
  | none =>
    unfold commitLazy
    dsimp only
    rw [new_eq peerId 0 u.additionalData _ u.len]
    exact ⟨_, rfl, rfl, rfl⟩
  | some st =>
    have hstale := stale_eq u (hfirst st rfl)
    show ∃ st' : PlayerAvatarState, _ ∧ _ ∧ st'.lastInboundSequence =
      if newer u.inboundSequence st.lastInboundSequence then u.inboundSequence
      else st.lastInboundSequence
    unfold commitLazy
    dsimp only
    cases hnewer : newer u.inboundSequence st.lastInboundSequence with
    | false =>
      rw [hnewer] at hstale
      rw [if_pos (by rw [hstale]; rfl)]
      exact ⟨st, rfl, hfirst st rfl, rfl⟩
    | true =>
      rw [hnewer] at hstale
      rw [if_neg (by rw [hstale]; decide),
        new_eq peerId _ u.additionalData _ u.len]
      dsimp only
      split
      · exact ⟨_, rfl, rfl, rfl⟩
      · next hupdate =>
        obtain ⟨hlast, hreceived⟩ := updateLazy_received hupdate
        exact ⟨_, rfl, hreceived, hlast⟩

/-! ### The invariant -/

theorem upsertFromChannelPayload_some {live : Option ℕ} {channel : Byte} {payload : Bytes}
    {update : PendingAvatarUpdate}
    (h : upsertFromChannelPayload live channel payload = .ok (some update)) :
    live = some update.incarnation ∧ update.Whole := by
  unfold upsertFromChannelPayload at h
  split at h
  · cases h
  · split at h
    · cases h
    · dsimp only at h
      split at h
      · cases h
      · next hlong =>
        split at h
        · split at h
          · cases h
          · cases h
            exact ⟨rfl, Nat.not_lt.mp hlong⟩
        · cases h
          refine ⟨rfl, ?_⟩
          show _ ≤ (payload.take _).length
          rw [List.length_take, Nat.min_eq_left (Nat.not_lt.mp hlong)]
          exact le_rfl

namespace PlayerSync

structure PlayerSyncOk (s : PlayerSync) : Prop where
  pending : ∀ u, s.pending = some u → u.Whole ∧ s.since.getLast? = some u.sequence
  drained : ∀ u, s.drained = some u → u.Whole ∧ s.taken.getLast? = some u.sequence
  received : ∀ st, s.state = some st → st.hasReceivedFirst = true
  last : s.commits.getLast? = s.committed
  increasing : s.commits.IsChain fun a b => newer b a = true

variable {peerId : PeerId} {s s' : PlayerSync} {update : PendingAvatarUpdate}

/-- The committed number after the update that was taken out. -/
theorem commitDrained_committed (peerId : PeerId) (hs : s.PlayerSyncOk)
    (hdrained : s.drained = some update) (hlive : s.live = some update.incarnation)
    (config : AvatarSyncConfig) (now : ℕ) :
    ∃ st, (s.commitDrained peerId update config now).state = some st ∧ st.hasReceivedFirst = true ∧
      st.lastInboundSequence = committedAfter s.committed update.sequence ∧
      (s.commitDrained peerId update config now).commits =
        if some st.lastInboundSequence = s.committed then s.commits
        else s.commits ++ [st.lastInboundSequence] := by
  have hwhole := (hs.drained update hdrained).1
  obtain ⟨st, hst, hreceived, hlast⟩ := commitLazy_committed peerId s.heap hs.received
    (update.process hwhole) config s.generation now
  unfold commitDrained
  rw [if_neg (not_not.mpr hlive), dif_pos hwhole]
  refine ⟨st, hst, hreceived, hlast, ?_⟩
  dsimp only
  rw [hst]
  rfl

theorem PlayerSyncOk.commit (hs : s.PlayerSyncOk) (hdrained : s.drained = some update)
    (config : AvatarSyncConfig) (now : ℕ) :
    (s.commitDrained peerId update config now).PlayerSyncOk := by
  by_cases hlive : s.live = some update.incarnation
  · obtain ⟨st, hst, hreceived, hlast, hcommits⟩ :=
      commitDrained_committed peerId hs hdrained hlive config now
    have hother : (s.commitDrained peerId update config now).pending = s.pending ∧
        (s.commitDrained peerId update config now).since = s.since ∧
        (s.commitDrained peerId update config now).drained = none := by
      unfold commitDrained
      rw [if_neg (not_not.mpr hlive), dif_pos (hs.drained update hdrained).1]
      exact ⟨rfl, rfl, rfl⟩
    obtain ⟨hpending, hsince, hnone⟩ := hother
    have hcommitted : (s.commitDrained peerId update config now).committed =
        some st.lastInboundSequence := by
      rw [committed, hst]
      rfl
    refine ⟨?_, ?_, ?_, ?_, ?_⟩
    · rw [hpending, hsince]
      exact hs.pending
    · intro u hu
      rw [hnone] at hu
      cases hu
    · intro st' hst'
      rw [hst] at hst'
      cases hst'
      exact hreceived
    · rw [hcommits, hcommitted]
      split
      · next hsame =>
        rw [hsame]
        exact hs.last
      · rw [List.getLast?_append]
        rfl
    · rw [hcommits]
      split
      · exact hs.increasing
      · next hchanged =>
        refine List.isChain_append.mpr ⟨hs.increasing, .singleton _, ?_⟩
        intro x hx y hy
        have hcommitted' : s.committed = some x := hs.last.symm.trans hx
        cases hy
        rw [hcommitted'] at hchanged hlast
        rw [hlast] at hchanged ⊢
        show newer (if newer update.sequence x then update.sequence else x) x = true
        split
        · next hnewer => exact hnewer
        · next hold =>
          refine absurd ?_ hchanged
          show some (if newer update.sequence x then update.sequence else x) = _
          rw [if_neg hold]
  · have heq : s.commitDrained peerId update config now = { s with drained := none, taken := [] } :=
      if_pos hlive
    rw [heq]
    exact ⟨hs.pending, nofun, hs.received, hs.last, hs.increasing⟩

theorem PlayerSyncOk.step (hs : s.PlayerSyncOk) {a : Action} (hstep : step peerId s a = some s') :
    s'.PlayerSyncOk := by
  cases a with
  | registerPlayer =>
    change (if s.live.isSome then _ else _) = _ at hstep
    split at hstep
    · cases hstep
      exact hs
    · cases hstep
      exact ⟨hs.pending, hs.drained, hs.received, hs.last, hs.increasing⟩
  | removePlayer =>
    cases hstep
    refine ⟨nofun, hs.drained, ?_, rfl, .nil⟩
    intro st hst
    cases hst
  | upsert channel payload =>
    simp only [PlayerSync.step] at hstep
    split at hstep
    · cases hstep
      exact hs
    · cases hstep
      exact hs
    · next update hupdate =>
      cases hstep
      refine ⟨?_, hs.drained, hs.received, hs.last, hs.increasing⟩
      intro u hu
      cases hu
      refine ⟨(upsertFromChannelPayload_some hupdate).2, ?_⟩
      rw [List.getLast?_append]
      rfl
  | drain =>
    simp only [PlayerSync.step] at hstep
    split at hstep
    · next update hdrained hpending =>
      cases hstep
      refine ⟨nofun, ?_, hs.received, hs.last, hs.increasing⟩
      intro u hu
      cases hu
      exact hs.pending update hpending
    · cases hstep
  | commit config now =>
    obtain ⟨update, hupdate, rfl⟩ := Option.map_eq_some_iff.mp hstep
    exact hs.commit hupdate config now
  | elsewhere generations =>
    cases hstep
    exact ⟨hs.pending, hs.drained, hs.received, hs.last, hs.increasing⟩

theorem playerSyncOk (h : Reachable (system peerId) (fun _ _ => True) s) : s.PlayerSyncOk := by
  refine h.invariant PlayerSyncOk ?_ fun _ _ _ hs _ hstep => hs.step hstep
  intro s hinit
  cases hinit
  refine ⟨nofun, nofun, ?_, rfl, .nil⟩
  intro st hst
  cases hst

/-! ### The newest pose of a tick -/

/-- A number that was committed or accepted, with none newer among these. -/
def Newest (r : Byte) (committed : Option Byte) (batch : List Byte) : Prop :=
  r ∈ committed.toList ++ batch ∧ ∀ y ∈ committed.toList ++ batch, newer y r = false

/-- None of the batch is newer than the last to arrive, if that is newer than the committed one, and
else none is newer than the committed one. -/
def LastIsNewest (committed : Option Byte) (batch : List Byte) (last : Byte) : Prop :=
  match committed with
  | none => ∀ y ∈ batch, newer y last = false
  | some p =>
    if newer last p then ∀ y ∈ batch, newer y last = false else ∀ y ∈ batch, newer y p = false

theorem newest_committedAfter_iff {committed : Option Byte} {batch : List Byte} {last : Byte}
    (hlast : batch.getLast? = some last) :
    Newest (committedAfter committed last) committed batch ↔ LastIsNewest committed batch last := by
  have hmem : last ∈ batch := List.mem_of_getLast? hlast
  unfold Newest LastIsNewest committedAfter
  cases committed with
  | none =>
    rw [Option.toList_none, List.nil_append]
    exact ⟨fun h => h.2, fun h => ⟨hmem, h⟩⟩
  | some p =>
    rw [Option.toList_some, List.singleton_append]
    dsimp only
    by_cases hnewer : newer last p = true
    · rw [if_pos hnewer, if_pos hnewer, List.forall_mem_cons]
      exact ⟨fun h => h.2.2, fun h => ⟨.tail _ hmem, newer_asymm hnewer, h⟩⟩
    · rw [if_neg hnewer, if_neg hnewer, List.forall_mem_cons]
      exact ⟨fun h => h.2.2, fun h => ⟨.head _, newer_irrefl p, h⟩⟩

/-- **Poses of a player.** In every run the committed numbers increase.  An update that arrives
leaves a newer one that waits in its place exactly when none waits that is newer; and a commit
commits the newest of the committed number and the batch exactly when the last of the batch is the
newest. -/
theorem newest_pose (h : Reachable (system peerId) (fun _ _ => True) s) :
    (s.commits.IsChain fun a b => newer b a = true) ∧ s.commits.getLast? = s.committed ∧
    (∀ channel payload update s',
      upsertFromChannelPayload s.live channel payload = .ok (some update) →
      step peerId s (.upsert channel payload) = some s' → ∀ old, s.pending = some old →
      ((newer old.sequence update.sequence = true → s'.pending = some old) ↔
        newer old.sequence update.sequence = false)) ∧
    ∀ update config now s', s.drained = some update → s.live = some update.incarnation →
      step peerId s (.commit config now) = some s' →
      ((∃ r, s'.committed = some r ∧ Newest r s.committed s.taken) ↔
        LastIsNewest s.committed s.taken update.sequence) := by
  have hs := playerSyncOk h
  refine ⟨hs.increasing, hs.last, ?_, ?_⟩
  · intro channel payload update s' hupdate hstep old hold
    simp only [step, hupdate] at hstep
    cases hstep
    constructor
    · intro hkeeps
      by_contra hnewer
      rw [Bool.not_eq_false] at hnewer
      have hsame : update = old := Option.some.inj (hkeeps hnewer)
      rw [hsame, newer_irrefl] at hnewer
      cases hnewer
    · intro hold hnewer
      rw [hold] at hnewer
      cases hnewer
  · intro update config now s' hdrained hlive hstep
    obtain ⟨st, hst, -, hlast, -⟩ :=
      commitDrained_committed peerId hs hdrained hlive config now
    have hs' : s' = s.commitDrained peerId update config now := by
      rw [step, hdrained] at hstep
      exact (Option.some.inj hstep).symm
    have hcommitted : s'.committed = some (committedAfter s.committed update.sequence) := by
      rw [hs', committed, hst, ← hlast]
      rfl
    rw [← newest_committedAfter_iff (hs.drained update hdrained).2, hcommitted]
    constructor
    · rintro ⟨r, hr, hnewest⟩
      cases hr
      exact hnewest
    · intro hnewest
      exact ⟨_, rfl, hnewest⟩

/-- A pose of zeros in the lowest quality. -/
def zeroPose (sequence : Byte) : Action :=
  .upsert playerAvatarVeryLow (sequence :: List.replicate 74 0)

/-- A pose is committed, and two more arrive before the next tick takes one out. -/
def twoPoses (first second : Byte) : List Action :=
  [.registerPlayer, zeroPose 3, .drain, .commit Lockstep.deltaConfig 1, zeroPose first,
    zeroPose second, .drain]

/-- The batch that is taken out behind the committed number 3, and what its commit leaves. -/
def commitsTo (batch : List Byte) (r : Byte) (s : PlayerSync) : Bool :=
  decide (s.taken = batch ∧ s.committed = some 3) &&
    (s.drained.any fun update => s.live = some update.incarnation) &&
    (step 7 s (.commit Lockstep.deltaConfig 2)).any fun s' => decide (s'.committed = some r)

theorem newest_pose_in_order :
    ∃ s s', Reachable (system 7) (fun _ _ => True) s ∧ s.taken = [4, 5] ∧
      step 7 s (.commit Lockstep.deltaConfig 2) = some s' ∧
      ∃ r, s'.committed = some r ∧ Newest r s.committed s.taken := by
  have hrun : (runActions (system 7) initial (twoPoses 4 5)).any (commitsTo [4, 5] 5) = true := by
    decide +kernel
  obtain ⟨s, hreach, hs⟩ := exists_reachable_of_free_run (.init rfl) hrun
  rw [commitsTo, Bool.and_eq_true, Bool.and_eq_true, decide_eq_true_iff] at hs
  obtain ⟨⟨⟨htaken, hcommitted⟩, hdrained⟩, hcommit⟩ := hs
  obtain ⟨update, hupdate, hlive⟩ := (Option.any_eq_true _ _).mp hdrained
  obtain ⟨s', hs', -⟩ := (Option.any_eq_true _ _).mp hcommit
  have hlast := ((playerSyncOk hreach).drained update hupdate).2
  rw [htaken] at hlast
  have hsequence : 5 = update.sequence := Option.some.inj hlast
  refine ⟨s, s', hreach, htaken, hs', ?_⟩
  refine ((newest_pose hreach).2.2.2 update _ _ s' hupdate (of_decide_eq_true hlive) hs').mpr ?_
  rw [hcommitted, htaken, ← hsequence]
  unfold LastIsNewest
  decide

/-- Pose 5 arrives before pose 4: the older one takes its place and is committed. -/
theorem newest_pose_late :
    ∃ s s', Reachable (system 7) (fun _ _ => True) s ∧ s.committed = some 3 ∧ s.taken = [5, 4] ∧
      step 7 s (.commit Lockstep.deltaConfig 2) = some s' ∧ s'.committed = some 4 ∧
      newer 5 4 = true ∧ ¬∃ r, s'.committed = some r ∧ Newest r s.committed s.taken := by
  have hrun : (runActions (system 7) initial (twoPoses 5 4)).any (commitsTo [5, 4] 4) = true := by
    decide +kernel
  obtain ⟨s, hreach, hs⟩ := exists_reachable_of_free_run (.init rfl) hrun
  rw [commitsTo, Bool.and_eq_true, Bool.and_eq_true, decide_eq_true_iff] at hs
  obtain ⟨⟨⟨htaken, hcommitted⟩, -⟩, hcommit⟩ := hs
  obtain ⟨s', hs', hr⟩ := (Option.any_eq_true _ _).mp hcommit
  have hfour := of_decide_eq_true hr
  refine ⟨s, s', hreach, hcommitted, htaken, hs', hfour, by decide, ?_⟩
  rintro ⟨r, hr', -, hnone⟩
  rw [hfour] at hr'
  cases hr'
  rw [hcommitted, htaken] at hnone
  exact absurd (hnone 5 (by decide)) (by decide)

end PlayerSync

end BasisRust.Avatar
