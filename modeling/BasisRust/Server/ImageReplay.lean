import BasisRust.Library.Queues
import BasisRust.Library.Thins
import BasisRust.Server.ImageGovernor

/-!
# The replay queue is a FIFO for each connection

For one connection the governor is its job, its batches with the transport and its history
(`TargetInv`): a job has a batch with the transport exactly while it is marked, and what was handed
out followed by what is queued is what was enqueued, except for payloads that were cancelled.
-/

namespace BasisRust.Server

open Library

namespace Governor

variable {T B : Type} [DecidableEq T] {peerId : T → BitVec 16} {pacing : Pacing B} {i : ℕ}
  {payloads : List PendingPayload}

/-! ### Jobs by connection -/

section Jobs

variable {t s : T} {jobs : List (ReplayJob T B)} {f : ReplayJob T B → ReplayJob T B}

theorem findJob_cons (t : T) (job : ReplayJob T B) (jobs : List (ReplayJob T B)) :
    findJob t (job :: jobs) = if job.target = t then some job else findJob t jobs := by
  rw [findJob, List.find?_cons]
  by_cases h : job.target = t <;> simp [h, findJob]

theorem findJob_target {job : ReplayJob T B} (h : findJob t jobs = some job) : job.target = t := by
  simpa using List.find?_some h

theorem findJob_modifyJob (hf : ∀ job, (f job).target = job.target) :
    findJob s (modifyJob t f jobs) = if s = t then (findJob t jobs).map f else findJob s jobs := by
  induction jobs with
  | nil => simp [modifyJob, findJob]
  | cons job jobs ih =>
    rw [modifyJob]
    by_cases ht : job.target = t
    · rw [if_pos ht, findJob_cons, hf, findJob_cons, findJob_cons, if_pos ht]
      by_cases hs : s = t
      · simp [hs, ht]
      · rw [if_neg hs, if_neg (by rw [ht]; exact Ne.symm hs), if_neg (by rw [ht]; exact Ne.symm hs)]
    · rw [if_neg ht, findJob_cons, ih, findJob_cons, findJob_cons, if_neg ht]
      by_cases hs : s = t
      · subst hs
        simp [ht]
      · simp [hs]

theorem modifyJob_targets (hf : ∀ job, (f job).target = job.target) :
    (modifyJob t f jobs).map ReplayJob.target = jobs.map ReplayJob.target := by
  induction jobs with
  | nil => rfl
  | cons job jobs ih =>
    rw [modifyJob]
    split_ifs
    · rw [List.map_cons, List.map_cons, hf]
    · rw [List.map_cons, List.map_cons, ih]

theorem findJob_append (jobs : List (ReplayJob T B)) (job : ReplayJob T B) :
    findJob s (jobs ++ [job]) =
      (findJob s jobs).or (if job.target = s then some job else none) := by
  rw [findJob, List.find?_append]
  congr 1
  by_cases h : job.target = s <;> simp [h]

theorem findJob_eq_none (h : t ∉ jobs.map ReplayJob.target) : findJob t jobs = none := by
  refine List.find?_eq_none.mpr fun job hjob => ?_
  simp only [decide_eq_true_eq]
  exact fun heq => h (heq ▸ List.mem_map_of_mem hjob)

theorem findJob_map (hf : ∀ job, (f job).target = job.target) :
    findJob t (jobs.map f) = (findJob t jobs).map f := by
  induction jobs with
  | nil => rfl
  | cons job jobs ih =>
    rw [List.map_cons, findJob_cons, findJob_cons, hf, ih]
    by_cases h : job.target = t <;> simp [h]

theorem findJob_filter (p : ReplayJob T B → Bool) (hnodup : (jobs.map ReplayJob.target).Nodup) :
    findJob t (jobs.filter p) = (findJob t jobs).filter p := by
  induction jobs with
  | nil => rfl
  | cons job jobs ih =>
    have hn := List.nodup_cons.mp hnodup
    rw [List.filter_cons, findJob_cons]
    by_cases ht : job.target = t
    · subst ht
      have hnone : findJob job.target jobs = none := findJob_eq_none hn.1
      by_cases hp : p job = true
      · simp [hp, findJob_cons, Option.filter]
      · simp [hp, ih hn.2, hnone, Option.filter]
    · by_cases hp : p job = true
      · simp [hp, findJob_cons, ht, ih hn.2]
      · simp [hp, ht, ih hn.2]

theorem findJob_remove (hnodup : (jobs.map ReplayJob.target).Nodup) :
    findJob s (jobs.filter fun job => job.target ≠ t) = if s = t then none else findJob s jobs := by
  rw [findJob_filter _ hnodup]
  cases h : findJob s jobs with
  | none => simp
  | some job =>
    have htarget := findJob_target h
    by_cases hs : s = t <;> simp [Option.filter, htarget, hs]

end Jobs

/-! ### The map of jobs -/

/-- Every connection has one job at most, under its peer id. -/
structure ReplaysInv (peerId : T → BitVec 16) (replays : List (BitVec 16 × List (ReplayJob T B))) :
    Prop where
  nodup : AssocNodup replays
  targets : ∀ p jobs, assocGet p replays = some jobs → (jobs.map ReplayJob.target).Nodup
  peers : ∀ p jobs, assocGet p replays = some jobs → ∀ job ∈ jobs, peerId job.target = p

def jobIn (peerId : T → BitVec 16) (replays : List (BitVec 16 × List (ReplayJob T B))) (t : T) :
    Option (ReplayJob T B) :=
  findJob t ((assocGet (peerId t) replays).getD [])

variable {replays : List (BitVec 16 × List (ReplayJob T B))} {st : Governor T B}

omit [DecidableEq T] in
theorem ReplaysInv.put (h : ReplaysInv peerId replays) (p : BitVec 16)
    (o : Option (List (ReplayJob T B)))
    (hnodup : ∀ jobs, o = some jobs → (jobs.map ReplayJob.target).Nodup)
    (hpeers : ∀ jobs, o = some jobs → ∀ job ∈ jobs, peerId job.target = p) :
    ReplaysInv peerId (assocPut p o replays) where
  nodup := h.nodup.put p o
  targets := by
    intro q jobs hq
    rw [assocGet_put] at hq
    split_ifs at hq
    · exact hnodup jobs hq
    · exact h.targets q jobs hq
  peers := by
    intro q jobs hq
    rw [assocGet_put] at hq
    split_ifs at hq with heq
    · exact heq ▸ hpeers jobs hq
    · exact h.peers q jobs hq

theorem jobIn_put (replays : List (BitVec 16 × List (ReplayJob T B))) (p : BitVec 16)
    (o : Option (List (ReplayJob T B))) (s : T) :
    jobIn peerId (assocPut p o replays) s =
      if peerId s = p then findJob s (o.getD []) else jobIn peerId replays s := by
  rw [jobIn, assocGet_put, jobIn]
  split_ifs <;> rfl

omit [DecidableEq T] in
theorem ReplaysInv.getD_targets (h : ReplaysInv peerId replays) (p : BitVec 16) :
    (((assocGet p replays).getD []).map ReplayJob.target).Nodup ∧
      ∀ job ∈ (assocGet p replays).getD [], peerId job.target = p := by
  cases hp : assocGet p replays with
  | none => simp
  | some jobs => exact ⟨h.targets p jobs hp, h.peers p jobs hp⟩

/-! ### One job -/

section OneJob

omit [DecidableEq T]

/-- The image cache has cleared the handle. -/
def Gone (cancelled : List ℕ) (p : PendingPayload) : Prop := p.payload.handle ∈ cancelled

theorem gone_of_payloadLen {cancelled : List ℕ} {p : PendingPayload}
    (h : payloadLen cancelled p = 0) : Gone cancelled p := by
  rw [payloadLen] at h
  split_ifs at h with hp
  · exact hp
  · exact absurd h (Nat.ne_of_gt p.payload.nonempty)

/-- The payloads of a job, in order. -/
def ReplayJob.queue (job : ReplayJob T B) : List PendingPayload :=
  job.payloads.map QueuedPayload.pending

/-- With no positive rate every queued payload bypasses the pacing. -/
def Bypassing (pacing : Pacing B) (payloads : List QueuedPayload) : Prop :=
  pacing.limited = false → ∀ q ∈ payloads, q.bypassPacing = true

theorem takeBatch_spec (pacing : Pacing B) (cancelled : List ℕ) (bucket : B)
    (payloads : List QueuedPayload) :
    Thins (Gone cancelled) (payloads.map QueuedPayload.pending)
        ((takeBatch pacing cancelled bucket payloads).1 ++
          (takeBatch pacing cancelled bucket payloads).2.1.map QueuedPayload.pending) ∧
      ∀ q ∈ (takeBatch pacing cancelled bucket payloads).2.1, q ∈ payloads := by
  induction payloads generalizing bucket with
  | nil => exact ⟨.nil, fun q hq => hq⟩
  | cons front rest ih =>
    rw [takeBatch]
    by_cases hbreak : (pacing.limited && !front.bypassPacing && pacing.exhausted bucket) = true
    · rw [if_pos hbreak]
      exact ⟨.refl _, fun q hq => hq⟩
    rw [if_neg hbreak]
    dsimp only
    by_cases hsize : payloadLen cancelled front.pending = 0
    · rw [if_pos hsize]
      obtain ⟨hthin, hmem⟩ := ih bucket
      exact ⟨.drop (gone_of_payloadLen hsize) hthin, fun q hq => .tail _ (hmem q hq)⟩
    · rw [if_neg hsize]
      generalize (if pacing.limited && !front.bypassPacing then
        pacing.spend bucket (payloadLen cancelled front.pending) else bucket) = bucket'
      obtain ⟨hthin, hmem⟩ := ih bucket'
      exact ⟨.keep hthin, fun q hq => .tail _ (hmem q hq)⟩

/-- What an operation may do to a job: `added` comes in at the back, cancelled payloads are dropped,
and `batch` goes out at the front, which marks the job. -/
structure Advance (pacing : Pacing B) (cancelled : List ℕ) (added : List PendingPayload)
    (job job' : ReplayJob T B) (batch : List PendingPayload) : Prop where
  target : job'.target = job.target
  queue : Thins (Gone cancelled) (ReplayJob.queue job ++ added) (batch ++ ReplayJob.queue job')
  marked : job'.inFlight = (job.inFlight || !batch.isEmpty)
  exclusive : job.inFlight = true → batch = []
  bypassing : Bypassing pacing job.payloads → Bypassing pacing job'.payloads

theorem startBatch_advance (cancelled : List ℕ) (now : ℕ) {job : ReplayJob T B}
    (hidle : job.inFlight = false) :
    Advance pacing cancelled [] job (startBatch pacing cancelled now job).1
      (startBatch pacing cancelled now job).2 := by
  obtain ⟨hthin, hmem⟩ := takeBatch_spec pacing cancelled
    (if pacing.limited then pacing.refill job.bucket now else job.bucket) job.payloads
  refine ⟨rfl, ?_, ?_, ?_, ?_⟩
  · rw [List.append_nil]
    exact hthin
  · rw [hidle]
    rfl
  · simp [hidle]
  · intro hb hl q hq
    exact hb hl q (hmem q hq)

theorem retainLive_advance (pacing : Pacing B) (cancelled : List ℕ) (job : ReplayJob T B) :
    Advance pacing cancelled [] job (retainLive cancelled job) [] where
  target := rfl
  queue := by
    rw [List.append_nil, List.nil_append]
    change Thins _ (job.payloads.map _) ((job.payloads.filter _).map _)
    rw [show (fun q : QueuedPayload => decide (0 < payloadLen cancelled q.pending)) =
      (fun p => decide (0 < payloadLen cancelled p)) ∘ QueuedPayload.pending from rfl,
      ← List.filter_map]
    refine .filter _ (fun p hp => gone_of_payloadLen ?_) _
    simpa using hp
  marked := by simp [retainLive]
  exclusive := fun _ => rfl
  bypassing := fun hb hl q hq => hb hl q (List.mem_of_mem_filter hq)

theorem Advance.trans {cancelled : List ℕ} {job job₁ job₂ : ReplayJob T B}
    {added batch : List PendingPayload} (h : Advance pacing cancelled added job job₁ [])
    (h' : Advance pacing cancelled [] job₁ job₂ batch) :
    Advance pacing cancelled added job job₂ batch where
  target := h'.target.trans h.target
  queue := by
    have hleft := h.queue
    have hright := h'.queue
    rw [List.append_nil] at hright
    exact hleft.trans hright
  marked := by
    rw [h'.marked, h.marked]
    simp
  exclusive := by
    intro hin
    refine h'.exclusive ?_
    rw [h.marked, hin]
    rfl
  bypassing := fun hb => h'.bypassing (h.bypassing hb)

theorem pumpJob_advance (cancelled : List ℕ) (now : ℕ) (job : ReplayJob T B) :
    Advance pacing cancelled [] job (pumpJob pacing cancelled now job).1
      (pumpJob pacing cancelled now job).2 := by
  have hlive := retainLive_advance pacing cancelled job
  rw [pumpJob]
  split_ifs with hskip
  · exact hlive
  · simp only [Bool.or_eq_true, not_or] at hskip
    exact hlive.trans (startBatch_advance cancelled now (by simpa using hskip.1))

theorem enqueueJob_advance (cancelled : List ℕ) (paced : Bool) (payloads : List PendingPayload)
    (now : ℕ) (job : ReplayJob T B) :
    Advance pacing cancelled payloads job (enqueueJob pacing cancelled paced payloads now job).1
      (enqueueJob pacing cancelled paced payloads now job).2 := by
  -- The payloads are appended to what is left of the queue.
  have happend : Advance pacing cancelled payloads job
      { retainLive cancelled job with
        payloads := (retainLive cancelled job).payloads ++
          payloads.map fun pending => ⟨pending, !paced || !pacing.limited⟩ } [] := by
    have hlive := retainLive_advance pacing cancelled job
    refine ⟨hlive.target, ?_, hlive.marked, fun _ => rfl, ?_⟩
    · have hq := hlive.queue
      rw [List.append_nil, List.nil_append] at hq
      have hback := hq.append (.refl payloads)
      simpa [ReplayJob.queue, Function.comp_def] using hback
    · intro hb hl q hq
      rcases List.mem_append.mp hq with hq | hq
      · exact hlive.bypassing hb hl q hq
      · obtain ⟨p, -, rfl⟩ := List.mem_map.mp hq
        simp [hl]
  rw [enqueueJob]
  split_ifs with hstart
  · simp only [Bool.and_eq_true, Bool.not_eq_true'] at hstart
    exact happend.trans (startBatch_advance cancelled now hstart.1)
  · exact happend

end OneJob

/-! ### One connection -/

/-- The batches of a connection that are with the transport. -/
def out (st : Governor T B) (t : T) : List (List PendingPayload) := onKey t st.outstanding

/-- What holds for one connection: of its job, its batches with the transport, and its history. -/
structure TargetInv (pacing : Pacing B) (cancelled : List ℕ) (job : Option (ReplayJob T B))
    (removed : Prop) (out : List (List PendingPayload)) (enqueued handed : List PendingPayload) :
    Prop where
  queued : ∀ j, job = some j → ¬ removed ∧ (j.inFlight = true ↔ out ≠ []) ∧
    Thins (Gone cancelled) enqueued (handed ++ ReplayJob.queue j) ∧ Bypassing pacing j.payloads
  noJob : job = none → ¬ removed → out = [] ∧ Thins (Gone cancelled) enqueued handed
  past : ∃ rest, Thins (Gone cancelled) enqueued (handed ++ rest)
  single : out.length ≤ 1
  last : ∀ batch ∈ out, ∃ before, handed = before ++ batch

section Target

omit [DecidableEq T]

variable {cancelled : List ℕ} {job : Option (ReplayJob T B)} {removed : Prop}
  {out : List (List PendingPayload)} {enqueued handed : List PendingPayload} {j : ReplayJob T B}
  {batch : List PendingPayload}

/-- A batch that goes out of a job is added to the batches with the transport. -/
theorem TargetInv.advance {j' : ReplayJob T B} {added : List PendingPayload}
    (h : TargetInv pacing cancelled (some j) removed out enqueued handed)
    (hadv : Advance pacing cancelled added j j' batch) :
    TargetInv pacing cancelled (some j') removed (if batch.isEmpty then out else out ++ [batch])
      (enqueued ++ added) (handed ++ batch) := by
  obtain ⟨hlive, hmark, hqueue, hbypass⟩ := h.queued j rfl
  have hthin : Thins (Gone cancelled) (enqueued ++ added)
      (handed ++ batch ++ ReplayJob.queue j') := by
    have hleft := hqueue.append (.refl added)
    rw [List.append_assoc] at hleft ⊢
    exact hleft.trans ((Thins.refl handed).append hadv.queue)
  have hmarked := hadv.marked
  refine ⟨?_, ?_, ⟨_, hthin⟩, ?_, ?_⟩
  · rintro j₂ ⟨⟩
    refine ⟨hlive, ?_, hthin, hadv.bypassing hbypass⟩
    rw [hmarked]
    cases hb : batch.isEmpty
    · simp
    · simpa using hmark
  · rintro ⟨⟩
  · -- A job with a batch at the transport hands out no second one.
    split_ifs with hb
    · exact h.single
    · have hidle : ¬ j.inFlight = true := fun hin => hb (by simp [hadv.exclusive hin])
      have hnil : out = [] := by
        by_contra hne
        exact hidle (hmark.mpr hne)
      simp [hnil]
  · intro b hb
    split_ifs at hb with hempty
    · obtain ⟨before, hbefore⟩ := h.last b hb
      exact ⟨before, by rw [hbefore, List.isEmpty_iff.mp hempty, List.append_nil]⟩
    · rcases List.mem_append.mp hb with hb | hb
      · have hin : j.inFlight = true := hmark.mpr fun hnil => by simp [hnil] at hb
        exact absurd (hadv.exclusive hin) (by simpa using hempty)
      · rw [List.mem_singleton] at hb
        exact ⟨handed, by rw [hb]⟩

/-- A connection without a job may get an empty one. -/
theorem TargetInv.create
    (h : TargetInv pacing cancelled (none : Option (ReplayJob T B)) removed out enqueued handed)
    (hlive : ¬ removed) (hempty : j.payloads = []) (hidle : j.inFlight = false) :
    TargetInv pacing cancelled (some j) removed out enqueued handed := by
  obtain ⟨hnil, hthin⟩ := h.noJob rfl hlive
  refine ⟨?_, by rintro ⟨⟩, h.past, h.single, h.last⟩
  rintro j₂ ⟨⟩
  refine ⟨hlive, by simp [hidle, hnil], ?_, fun _ q hq => by simp [hempty] at hq⟩
  simpa [ReplayJob.queue, hempty] using hthin

/-- A job with nothing queued and nothing with the transport may go. -/
theorem TargetInv.forget (h : TargetInv pacing cancelled (some j) removed out enqueued handed)
    (hempty : j.payloads = []) (hidle : j.inFlight = false) :
    TargetInv pacing cancelled (none : Option (ReplayJob T B)) removed out enqueued handed := by
  obtain ⟨hlive, hmark, hthin, -⟩ := h.queued j rfl
  refine ⟨by rintro _ ⟨⟩, fun _ _ => ⟨?_, ?_⟩, h.past, h.single, h.last⟩
  · by_contra hne
    exact absurd (hmark.mpr hne) (by simp [hidle])
  · simpa [ReplayJob.queue, hempty] using hthin

/-- The disconnect drops the job. -/
theorem TargetInv.remove (h : TargetInv pacing cancelled job removed out enqueued handed) :
    TargetInv pacing cancelled (none : Option (ReplayJob T B)) True out enqueued handed :=
  ⟨by rintro _ ⟨⟩, fun _ hlive => absurd trivial hlive, h.past, h.single, h.last⟩

theorem TargetInv.cancel (h : TargetInv pacing cancelled job removed out enqueued handed)
    (handle : ℕ) : TargetInv pacing (handle :: cancelled) job removed out enqueued handed := by
  have hgone : ∀ p, Gone cancelled p → Gone (handle :: cancelled) p := fun p hp => .tail _ hp
  refine ⟨fun j hj => ?_, fun hj hlive => ?_, ?_, h.single, h.last⟩
  · obtain ⟨hlive, hmark, hthin, hbypass⟩ := h.queued j hj
    exact ⟨hlive, hmark, hthin.mono hgone, hbypass⟩
  · exact ⟨(h.noJob hj hlive).1, (h.noJob hj hlive).2.mono hgone⟩
  · obtain ⟨rest, hrest⟩ := h.past
    exact ⟨rest, hrest.mono hgone⟩

/-- The transport reports the batch: what it refused goes back to the front of the queue. -/
theorem TargetInv.finish (h : TargetInv pacing cancelled job removed [batch] enqueued handed)
    (sent : ℕ) : TargetInv pacing cancelled (job.map (finishJob (batch.drop sent))) removed []
      enqueued (handed.take (handed.length - (batch.drop sent).length)) := by
  obtain ⟨before, rfl⟩ := h.last batch (.head _)
  have htake : (before ++ batch).take ((before ++ batch).length - (batch.drop sent).length) =
      before ++ batch.take sent := by
    have hsplit : before ++ batch = before ++ batch.take sent ++ batch.drop sent := by
      rw [List.append_assoc, List.take_append_drop]
    rw [hsplit, List.length_append, Nat.add_sub_cancel, List.take_left]
  have hback (rest : List PendingPayload) :
      before ++ batch ++ rest = before ++ batch.take sent ++ (batch.drop sent ++ rest) := by
    rw [List.append_assoc, List.append_assoc, ← List.append_assoc (batch.take sent),
      List.take_append_drop]
  rw [htake]
  refine ⟨?_, ?_, ?_, by simp, by simp⟩
  · intro j₂ hj₂
    obtain ⟨j, hj, rfl⟩ := Option.map_eq_some_iff.mp hj₂
    obtain ⟨hlive, hmark, hthin, hbypass⟩ := h.queued j hj
    have hin : j.inFlight = true := hmark.mpr (by simp)
    rw [finishJob, if_pos hin]
    refine ⟨hlive, by simp, ?_, ?_⟩
    · rw [hback] at hthin
      simpa [ReplayJob.queue, Function.comp_def] using hthin
    · intro hl q hq
      rcases List.mem_append.mp hq with hq | hq
      · obtain ⟨p, -, rfl⟩ := List.mem_map.mp hq
        rfl
      · exact hbypass hl q hq
  · intro hj hlive
    have hnone : job = none := by simpa using hj
    exact absurd (h.noJob hnone hlive).1 (by simp)
  · obtain ⟨rest, hrest⟩ := h.past
    exact ⟨batch.drop sent ++ rest, hback rest ▸ hrest⟩

end Target

/-! ### All connections -/

structure ReplayInv (peerId : T → BitVec 16) (pacing : Pacing B) (st : Governor T B) : Prop where
  replays : ReplaysInv peerId st.replays
  targets : ∀ t, TargetInv pacing st.cancelled (jobIn peerId st.replays t) (t ∈ st.removed)
    (st.out t) (st.enqueued t) (st.handed t)

theorem replayInv_init : ReplayInv peerId pacing (init : Governor T B) where
  replays := by
    refine ⟨.nil, ?_, ?_⟩
    · intro p jobs h
      cases h
    · intro p jobs h
      cases h
  targets := by
    intro t
    refine ⟨?_, fun _ _ => ⟨rfl, .nil⟩, ⟨[], .nil⟩, by simp [init, out], ?_⟩
    · rintro j ⟨⟩
    · intro batch hb
      simp [init, out] at hb

theorem handOut_out (st : Governor T B) (t s : T) (batch : List PendingPayload) :
    (st.handOut t batch).out s =
      if s = t then (if batch.isEmpty then st.out s else st.out s ++ [batch]) else st.out s := by
  rw [handOut]
  by_cases hb : batch.isEmpty = true
  · simp [hb]
  · rw [if_neg hb]
    simp only [out, onKey_append]
    by_cases hs : s = t
    · subst hs
      simp [hb]
    · simp [hs, onKey_cons_of_ne (Ne.symm hs)]

theorem handOut_handed (st : Governor T B) (t s : T) (batch : List PendingPayload) :
    (st.handOut t batch).handed s = if s = t then st.handed s ++ batch else st.handed s := by
  rw [handOut]
  by_cases hb : batch.isEmpty = true
  · rw [if_pos hb, List.isEmpty_iff.mp hb]
    simp
  · rw [if_neg hb]

theorem handOut_frame (st : Governor T B) (t : T) (batch : List PendingPayload) :
    (st.handOut t batch).replays = st.replays ∧ (st.handOut t batch).cancelled = st.cancelled ∧
      (st.handOut t batch).removed = st.removed ∧ (st.handOut t batch).enqueued = st.enqueued := by
  rw [handOut]
  split_ifs <;> exact ⟨rfl, rfl, rfl, rfl⟩

/-- `enqueue_mode` runs on the job of its connection, which it creates if there is none. -/
theorem enqueueMode_spec (pacing : Pacing B) (h : ReplaysInv peerId st.replays) (t : T)
    (hne : payloads.isEmpty = false) (paced : Bool) (now : ℕ) :
    ReplaysInv peerId (enqueueMode peerId pacing st t payloads paced now).replays ∧
      ∀ s, jobIn peerId (enqueueMode peerId pacing st t payloads paced now).replays s =
        if s = t then
          some (enqueueJob pacing st.cancelled paced payloads now
            ((jobIn peerId st.replays t).getD ⟨t, [], pacing.new now, false⟩)).1
        else jobIn peerId st.replays s := by
  rw [Governor.enqueueMode, if_neg (by rw [hne]; decide)]
  obtain ⟨hnodup, hpeers⟩ := h.getD_targets (peerId t)
  dsimp only
  -- The job of the connection, created if there was none.
  set jobs := (assocGet (peerId t) st.replays).getD [] with hjobs
  set created : ReplayJob T B := ⟨t, [], pacing.new now, false⟩ with hcreated
  set jobs' := if (findJob t jobs).isSome then jobs else jobs ++ [created] with hjobs'
  set run := enqueueJob (T := T) pacing st.cancelled paced payloads now with hrun
  have hkeep : ∀ job, (run job).1.target = job.target :=
    fun job => (enqueueJob_advance st.cancelled paced payloads now job).target
  have hfind : findJob t jobs' = some ((findJob t jobs).getD created) := by
    rw [hjobs']
    cases hf : findJob t jobs with
    | some job => simp [hf]
    | none => simp [findJob_append, hf, hcreated]
  have hother : ∀ s, s ≠ t → findJob s jobs' = findJob s jobs := by
    intro s hs
    rw [hjobs']
    split_ifs
    · rfl
    · rw [findJob_append, if_neg (Ne.symm hs), Option.or_none]
  have hnodup' : (jobs'.map ReplayJob.target).Nodup ∧ ∀ job ∈ jobs',
      peerId job.target = peerId t := by
    rw [hjobs']
    split_ifs with hsome
    · exact ⟨hnodup, hpeers⟩
    · refine ⟨?_, ?_⟩
      · rw [List.map_append]
        refine List.nodup_append.mpr ⟨hnodup, by simp, ?_⟩
        intro a ha b hb hab
        rw [List.map_singleton, List.mem_singleton] at hb
        subst hb hab
        obtain ⟨job, hjob, hjt⟩ := List.mem_map.mp ha
        refine hsome ?_
        rw [findJob, List.find?_isSome]
        exact ⟨job, hjob, by simp [hjt]⟩
      · intro job hjob
        rcases List.mem_append.mp hjob with hjob | hjob
        · exact hpeers job hjob
        · rw [List.mem_singleton] at hjob
          rw [hjob]
  have hput : assocSet (peerId t) (modifyJob t (fun job => (run job).1) jobs') st.replays =
      assocPut (peerId t) (some (modifyJob t (fun job => (run job).1) jobs')) st.replays := rfl
  rw [(handOut_frame _ t _).1]
  constructor
  · refine h.put (peerId t) (some _) ?_ ?_
    · rintro _ ⟨⟩
      rw [modifyJob_targets hkeep]
      exact hnodup'.1
    · rintro _ ⟨⟩ job hjob
      have hmem : job.target ∈ (modifyJob t (fun job => (run job).1) jobs').map ReplayJob.target :=
        List.mem_map_of_mem hjob
      rw [modifyJob_targets hkeep] at hmem
      obtain ⟨job', hjob', heq⟩ := List.mem_map.mp hmem
      rw [← heq]
      exact hnodup'.2 job' hjob'
  · intro s
    rw [hput, jobIn_put]
    simp only [Option.getD_some]
    rw [findJob_modifyJob hkeep]
    by_cases hs : s = t
    · subst hs
      rw [if_pos rfl, if_pos rfl, if_pos rfl, hfind, Option.map_some]
      rfl
    · rw [if_neg hs, if_neg hs, hother s hs]
      split_ifs with hp
      · rw [jobIn, hp]
      · rfl

/-- The history of a connection after `enqueue_mode`. -/
theorem enqueueMode_history (peerId : T → BitVec 16) (pacing : Pacing B) (st : Governor T B) (t : T)
    (hne : payloads.isEmpty = false) (paced : Bool) (now : ℕ) :
    let st' := enqueueMode peerId pacing st t payloads paced now
    let batch := (enqueueJob pacing st.cancelled paced payloads now
      ((jobIn peerId st.replays t).getD ⟨t, [], pacing.new now, false⟩)).2
    st'.cancelled = st.cancelled ∧ st'.removed = st.removed ∧
      ∀ s, st'.enqueued s = (if s = t then st.enqueued s ++ payloads else st.enqueued s) ∧
        st'.out s =
          (if s = t then (if batch.isEmpty then st.out s else st.out s ++ [batch]) else st.out s) ∧
        st'.handed s = if s = t then st.handed s ++ batch else st.handed s := by
  dsimp only
  rw [Governor.enqueueMode, if_neg (by rw [hne]; decide)]
  dsimp only
  rw [show findJob t ((assocGet (peerId t) st.replays).getD []) =
    jobIn peerId st.replays t from rfl]
  generalize assocSet (peerId t) _ st.replays = replays
  generalize (enqueueJob pacing st.cancelled paced payloads now
    ((jobIn peerId st.replays t).getD ⟨t, [], pacing.new now, false⟩)).2 = batch
  refine ⟨(handOut_frame _ t batch).2.1, (handOut_frame _ t batch).2.2.1, fun s => ⟨?_, ?_, ?_⟩⟩
  · rw [(handOut_frame _ t batch).2.2.2]
  · rw [handOut_out]
    rfl
  · rw [handOut_handed]

theorem ReplayInv.enqueueMode (h : ReplayInv peerId pacing st) {t : T} (hlive : t ∉ st.removed)
    (payloads : List PendingPayload) (paced : Bool) (now : ℕ) :
    ReplayInv peerId pacing (enqueueMode peerId pacing st t payloads paced now) := by
  cases hne : payloads.isEmpty with
  | true =>
    rw [Governor.enqueueMode, if_pos hne]
    exact h
  | false =>
    obtain ⟨hreplays, hjob⟩ := enqueueMode_spec pacing h.replays t hne paced now
    obtain ⟨hc, hrem, hhistory⟩ := enqueueMode_history peerId pacing st t hne paced now
    refine ⟨hreplays, fun s => ?_⟩
    obtain ⟨henq, hout, hhanded⟩ := hhistory s
    rw [hjob s, hc, hrem, henq, hout, hhanded]
    have htarget := h.targets s
    by_cases hs : s = t
    · subst hs
      rw [if_pos rfl, if_pos rfl, if_pos rfl, if_pos rfl]
      refine TargetInv.advance ?_ (enqueueJob_advance st.cancelled paced payloads now _)
      cases hf : jobIn peerId st.replays s with
      | some job =>
        rw [hf] at htarget
        exact htarget
      | none =>
        rw [hf] at htarget
        exact htarget.create hlive rfl rfl
    · rw [if_neg hs, if_neg hs, if_neg hs, if_neg hs]
      exact htarget

/-! ### Finishing and removing -/

omit [DecidableEq T] in
theorem finishJob_target (rejected : List PendingPayload) (job : ReplayJob T B) :
    (finishJob rejected job).target = job.target := by
  rw [finishJob]
  split_ifs <;> rfl

/-- `finish_replay_batch` changes the job of its connection, if there is one. -/
theorem finishReplayBatch_spec (h : ReplaysInv peerId st.replays) (t : T)
    (rejected : List PendingPayload) :
    ReplaysInv peerId (finishReplayBatch peerId st t rejected).replays ∧
      ∀ s, jobIn peerId (finishReplayBatch peerId st t rejected).replays s =
        if s = t then (jobIn peerId st.replays t).map (finishJob rejected)
        else jobIn peerId st.replays s := by
  rw [finishReplayBatch]
  cases hp : assocGet (peerId t) st.replays with
  | none =>
    refine ⟨h, fun s => ?_⟩
    split_ifs with hs
    · rw [hs, jobIn, hp]
      rfl
    · rfl
  | some jobs =>
    have hkeep := finishJob_target (T := T) (B := B) rejected
    refine ⟨h.put (peerId t) (some _) ?_ ?_, fun s => ?_⟩
    · rintro _ ⟨⟩
      rw [modifyJob_targets hkeep]
      exact h.targets _ jobs hp
    · rintro _ ⟨⟩ job hjob
      have hmem := List.mem_map_of_mem (f := ReplayJob.target) hjob
      rw [modifyJob_targets hkeep] at hmem
      obtain ⟨job', hjob', heq⟩ := List.mem_map.mp hmem
      exact heq ▸ h.peers _ jobs hp job' hjob'
    · change jobIn peerId (assocPut (peerId t) (some _) st.replays) s = _
      rw [jobIn_put, Option.getD_some, findJob_modifyJob hkeep]
      by_cases hs : s = t
      · subst hs
        rw [if_pos rfl, if_pos rfl, if_pos rfl, jobIn, hp, Option.getD_some]
      · rw [if_neg hs, if_neg hs]
        split_ifs with hpeer
        · rw [jobIn, hpeer, hp, Option.getD_some]
        · rfl

theorem finishReplayBatch_frame (peerId : T → BitVec 16) (st : Governor T B) (t : T)
    (rejected : List PendingPayload) :
    (finishReplayBatch peerId st t rejected).cancelled = st.cancelled ∧
      (finishReplayBatch peerId st t rejected).removed = st.removed ∧
      (finishReplayBatch peerId st t rejected).enqueued = st.enqueued := by
  rw [finishReplayBatch]
  split <;> exact ⟨rfl, rfl, rfl⟩

theorem onKey_eraseIdx {κ α : Type} [DecidableEq κ] {l : List (κ × α)} {k s : κ} {x : α}
    (hi : l[i]? = some (k, x)) (hs : s ≠ k) : onKey s (l.eraseIdx i) = onKey s l := by
  induction l generalizing i with
  | nil => rfl
  | cons y l ih =>
    obtain ⟨j, y⟩ := y
    cases i with
    | zero =>
      cases hi
      rw [List.eraseIdx_cons_zero, onKey_cons_of_ne (Ne.symm hs)]
    | succ i =>
      rw [List.eraseIdx_cons_succ]
      by_cases hj : j = s
      · subst hj
        rw [onKey_cons_self, onKey_cons_self, ih (by simpa using hi)]
      · rw [onKey_cons_of_ne hj, onKey_cons_of_ne hj, ih (by simpa using hi)]

theorem onKey_eraseIdx_length {κ α : Type} [DecidableEq κ] {l : List (κ × α)} {k : κ} {x : α}
    (hi : l[i]? = some (k, x)) : (onKey k (l.eraseIdx i)).length + 1 = (onKey k l).length := by
  induction l generalizing i with
  | nil => cases hi
  | cons y l ih =>
    obtain ⟨j, y⟩ := y
    cases i with
    | zero =>
      cases hi
      simp
    | succ i =>
      rw [List.eraseIdx_cons_succ]
      have hrest := ih (by simpa using hi)
      by_cases hj : j = k
      · subst hj
        simp [hrest]
      · rw [onKey_cons_of_ne hj, onKey_cons_of_ne hj, hrest]

theorem ReplayInv.finish (h : ReplayInv peerId pacing st) {t : T} {batch : List PendingPayload}
    (hi : st.outstanding[i]? = some (t, batch)) (sent : ℕ) : ReplayInv peerId pacing
      { finishReplayBatch peerId st t (batch.drop sent) with
        outstanding := st.outstanding.eraseIdx i
        handed := fun s =>
          if s = t then (st.handed s).take ((st.handed s).length - (batch.drop sent).length)
          else st.handed s } := by
  obtain ⟨hreplays, hjob⟩ := finishReplayBatch_spec h.replays t (batch.drop sent)
  obtain ⟨hc, hrem, henq⟩ := finishReplayBatch_frame peerId st t (batch.drop sent)
  have htarget := h.targets t
  -- The connection had this batch with the transport and no other.
  have hmem : batch ∈ st.out t := mem_onKey.mpr (List.mem_of_getElem? hi)
  have hone : st.out t = [batch] := by
    have hlen := htarget.single
    match hout : st.out t with
    | [] => simp [hout] at hmem
    | [b] => rw [hout, List.mem_singleton] at hmem; rw [hmem]
    | b :: b' :: l => simp [hout] at hlen
  refine ⟨hreplays, fun s => ?_⟩
  change TargetInv pacing (finishReplayBatch peerId st t _).cancelled (jobIn peerId _ s)
    (s ∈ (finishReplayBatch peerId st t _).removed) (onKey s (st.outstanding.eraseIdx i))
    ((finishReplayBatch peerId st t _).enqueued s) _
  rw [hc, hrem, henq, hjob s]
  by_cases hs : s = t
  · subst hs
    rw [if_pos rfl]
    have hnil : onKey s (st.outstanding.eraseIdx i) = [] := by
      have hlen := onKey_eraseIdx_length hi
      rw [show onKey s st.outstanding = [batch] from hone] at hlen
      exact List.eq_nil_of_length_eq_zero (by simpa using hlen)
    rw [hone] at htarget
    simp only [if_true, hnil]
    exact htarget.finish sent
  · rw [if_neg hs, onKey_eraseIdx hi hs]
    simp only [if_neg hs]
    exact h.targets s

/-- `remove_peer` drops the job of its connection. -/
theorem removePeer_spec (h : ReplaysInv peerId st.replays) (t : T) :
    ReplaysInv peerId (Governor.removePeer peerId st t).replays ∧
      ∀ s, jobIn peerId (Governor.removePeer peerId st t).replays s =
        if s = t then none else jobIn peerId st.replays s := by
  rw [Governor.removePeer]
  cases hp : assocGet (peerId t) st.replays with
  | none =>
    refine ⟨h, fun s => ?_⟩
    split_ifs with hs
    · rw [hs, jobIn, hp]
      rfl
    · rfl
  | some jobs =>
    have hnodup := h.targets _ jobs hp
    have hput : ∃ o : Option (List (ReplayJob T B)),
        (if (jobs.filter fun job => job.target ≠ t).isEmpty then
            assocErase (peerId t) st.replays
          else assocSet (peerId t) (jobs.filter fun job => job.target ≠ t) st.replays) =
          assocPut (peerId t) o st.replays ∧
        o.getD [] = jobs.filter fun job => job.target ≠ t := by
      by_cases hempty : (jobs.filter fun job => job.target ≠ t).isEmpty = true
      · exact ⟨none, if_pos hempty, (List.isEmpty_iff.mp hempty).symm⟩
      · exact ⟨some _, if_neg hempty, rfl⟩
    obtain ⟨o, ho, hgetD⟩ := hput
    dsimp only
    rw [ho]
    refine ⟨h.put _ o ?_ ?_, fun s => ?_⟩
    · rintro _ rfl
      rw [Option.getD_some] at hgetD
      rw [hgetD]
      exact hnodup.sublist (List.filter_sublist.map _)
    · rintro _ rfl job hjob
      rw [Option.getD_some] at hgetD
      rw [hgetD] at hjob
      exact h.peers _ jobs hp job (List.mem_of_mem_filter hjob)
    · rw [jobIn_put, hgetD, findJob_remove hnodup]
      by_cases hs : s = t
      · simp [hs]
      · rw [if_neg hs, if_neg hs]
        split_ifs with hpeer
        · rw [jobIn, hpeer, hp, Option.getD_some]
        · rfl

theorem ReplayInv.removePeer (h : ReplayInv peerId pacing st) (t : T) :
    ReplayInv peerId pacing { removePeer peerId st t with removed := t :: st.removed } := by
  have hspec := removePeer_spec h.replays t
  have hframe : (Governor.removePeer peerId st t).cancelled = st.cancelled ∧
      (Governor.removePeer peerId st t).outstanding = st.outstanding ∧
      (Governor.removePeer peerId st t).enqueued = st.enqueued ∧
      (Governor.removePeer peerId st t).handed = st.handed := by
    rw [Governor.removePeer]
    split <;> exact ⟨rfl, rfl, rfl, rfl⟩
  obtain ⟨hc, hout, henq, hhanded⟩ := hframe
  refine ⟨hspec.1, fun s => ?_⟩
  change TargetInv pacing (Governor.removePeer peerId st t).cancelled (jobIn peerId _ s)
    (s ∈ t :: st.removed) (onKey s (Governor.removePeer peerId st t).outstanding)
    ((Governor.removePeer peerId st t).enqueued s) ((Governor.removePeer peerId st t).handed s)
  rw [hc, hout, henq, hhanded, hspec.2 s]
  have htarget := h.targets s
  by_cases hs : s = t
  · rw [if_pos hs]
    have htrue : (s ∈ t :: st.removed) = True := by simp [hs]
    rw [htrue]
    exact htarget.remove
  · rw [if_neg hs]
    have hsame : (s ∈ t :: st.removed) = (s ∈ st.removed) := by simp [hs]
    rw [hsame]
    exact htarget

/-! ### Pumping -/

/-- A pass that changes every job by itself, and may drop some. -/
theorem jobIn_map (f : ReplayJob T B → ReplayJob T B) (hf : ∀ job, (f job).target = job.target)
    (s : T) :
    jobIn peerId (replays.map fun x => (x.1, x.2.map f)) s = (jobIn peerId replays s).map f := by
  rw [jobIn, assocGet_map, jobIn]
  cases assocGet (peerId s) replays with
  | none => rfl
  | some jobs => exact findJob_map hf

omit [DecidableEq T] in
theorem map_target {f : ReplayJob T B → ReplayJob T B} (hf : ∀ job, (f job).target = job.target)
    (jobs : List (ReplayJob T B)) :
    (jobs.map f).map ReplayJob.target = jobs.map ReplayJob.target := by
  rw [List.map_map]
  exact List.map_congr_left fun job _ => hf job

omit [DecidableEq T] in
theorem ReplaysInv.map (h : ReplaysInv peerId replays)
    {f : List (ReplayJob T B) → List (ReplayJob T B)}
    (hf : ∀ jobs, ((f jobs).map ReplayJob.target).Sublist (jobs.map ReplayJob.target)) :
    ReplaysInv peerId (replays.map fun x => (x.1, f x.2)) where
  nodup := by
    have hkeys : (replays.map fun x => (x.1, f x.2)).map Prod.fst = replays.map Prod.fst := by
      rw [List.map_map]
      rfl
    rw [AssocNodup, hkeys]
    exact h.nodup
  targets := by
    intro p jobs hp
    rw [assocGet_map] at hp
    obtain ⟨jobs₀, hp₀, rfl⟩ := Option.map_eq_some_iff.mp hp
    exact (h.targets p jobs₀ hp₀).sublist (hf jobs₀)
  peers := by
    intro p jobs hp job hjob
    rw [assocGet_map] at hp
    obtain ⟨jobs₀, hp₀, rfl⟩ := Option.map_eq_some_iff.mp hp
    obtain ⟨job₀, hjob₀, heq⟩ := List.mem_map.mp ((hf jobs₀).subset (List.mem_map_of_mem hjob))
    exact heq ▸ h.peers p jobs₀ hp₀ job₀ hjob₀

/-- What `pump` leaves of a job when the rate is not positive. -/
def unpaced (job : ReplayJob T B) : ReplayJob T B :=
  if job.inFlight then job
  else { job with payloads := job.payloads.filter fun q => q.bypassPacing }

omit [DecidableEq T] in
theorem unpaced_target (job : ReplayJob T B) : (unpaced job).target = job.target := by
  rw [unpaced]
  split_ifs <;> rfl

omit [DecidableEq T] in
theorem dropUnpaced_eq (replays : List (BitVec 16 × List (ReplayJob T B))) :
    dropUnpaced replays =
      (replays.map fun x => (x.1, (x.2.map unpaced).filter
        fun job => job.inFlight || !job.payloads.isEmpty)).filter fun x => !x.2.isEmpty := rfl

theorem ReplaysInv.dropUnpaced (h : ReplaysInv peerId replays) :
    ReplaysInv peerId (dropUnpaced replays) ∧
      ∀ s, jobIn peerId (Governor.dropUnpaced replays) s =
        ((jobIn peerId replays s).map unpaced).filter
          fun job => job.inFlight || !job.payloads.isEmpty := by
  rw [dropUnpaced_eq]
  have hmap := h.map (f := fun jobs => (jobs.map unpaced).filter
    fun job => job.inFlight || !job.payloads.isEmpty) (fun jobs => by
      rw [← map_target unpaced_target jobs]
      exact List.filter_sublist.map _)
  -- Dropping a peer id without jobs does not change the job of any connection.
  have hget : ∀ p, assocGet p ((replays.map fun x => (x.1, (x.2.map unpaced).filter
      fun job => job.inFlight || !job.payloads.isEmpty)).filter fun x => !x.2.isEmpty) =
      (assocGet p (replays.map fun x => (x.1, (x.2.map unpaced).filter
        fun job => job.inFlight || !job.payloads.isEmpty))).filter fun jobs => !jobs.isEmpty :=
    fun p => hmap.nodup.get_filter (fun jobs => !jobs.isEmpty) p
  constructor
  · refine ⟨hmap.nodup.sublist (List.filter_sublist.map _), ?_, ?_⟩
    · intro p jobs hp
      rw [hget] at hp
      exact hmap.targets p jobs (Option.filter_eq_some_iff.mp hp).1
    · intro p jobs hp
      rw [hget] at hp
      exact hmap.peers p jobs (Option.filter_eq_some_iff.mp hp).1
  · intro s
    rw [jobIn, hget, assocGet_map replays fun jobs => (jobs.map unpaced).filter
      fun job => job.inFlight || !job.payloads.isEmpty, jobIn]
    cases hp : assocGet (peerId s) replays with
    | none => rfl
    | some jobs =>
      rw [Option.map_some, Option.getD_some, ← findJob_map unpaced_target]
      have hnodup : ((jobs.map unpaced).map ReplayJob.target).Nodup := by
        rw [map_target unpaced_target]
        exact h.targets _ jobs hp
      rw [← findJob_filter _ hnodup]
      cases hkept : (jobs.map unpaced).filter fun job => job.inFlight || !job.payloads.isEmpty with
      | nil | cons => rfl

theorem ReplayInv.pumpable (h : ReplayInv peerId pacing st) :
    ReplayInv peerId pacing { st with replays := pumpable pacing st } := by
  rw [Governor.pumpable]
  split_ifs with hlimited
  · exact h
  · obtain ⟨hreplays, hjob⟩ := h.replays.dropUnpaced
    refine ⟨hreplays, fun s => ?_⟩
    change TargetInv pacing st.cancelled (jobIn peerId (dropUnpaced st.replays) s)
      (s ∈ st.removed) (st.out s) (st.enqueued s) (st.handed s)
    rw [hjob s]
    have htarget := h.targets s
    cases hj : jobIn peerId st.replays s with
    | none =>
      rw [hj] at htarget
      exact htarget
    | some job =>
      rw [hj] at htarget
      -- Nothing is paced at this rate, so nothing is dropped from the queue.
      have hsame : unpaced job = job := by
        have hbypass := (htarget.queued job rfl).2.2.2 (by simpa using hlimited)
        rw [unpaced]
        split_ifs
        · rfl
        · rw [List.filter_eq_self.mpr fun q hq => hbypass q hq]
      rw [Option.map_some, hsame]
      by_cases hkeep : (job.inFlight || !job.payloads.isEmpty) = true
      · simpa [Option.filter, hkeep] using htarget
      · simp only [Bool.or_eq_true, not_or, Bool.not_eq_true', Bool.not_eq_true] at hkeep
        have hidle : job.inFlight = false := hkeep.1
        have hempty : job.payloads = [] := by simpa using hkeep.2
        have hnone : Option.filter (fun job => job.inFlight || !job.payloads.isEmpty) (some job) =
            none := by
          simp [Option.filter, hidle, hempty]
        rw [hnone]
        exact htarget.forget hempty hidle

theorem foldl_handOut (batches : List (T × List PendingPayload))
    (hbatches : ∀ x ∈ batches, x.2.isEmpty = false) (st : Governor T B) :
    let st' := batches.foldl (fun s batch => s.handOut batch.1 batch.2) st
    st'.replays = st.replays ∧ st'.cancelled = st.cancelled ∧ st'.removed = st.removed ∧
      st'.enqueued = st.enqueued ∧ st'.outstanding = st.outstanding ++ batches ∧
      ∀ s, st'.handed s = st.handed s ++ (onKey s batches).flatten := by
  induction batches generalizing st with
  | nil => simp
  | cons x batches ih =>
    obtain ⟨t, batch⟩ := x
    have hne : batch.isEmpty = false := hbatches _ (.head _)
    obtain ⟨hr, hc, hrem, henq⟩ := handOut_frame st t batch
    obtain ⟨hr', hc', hrem', henq', hout', hhanded'⟩ :=
      ih (fun x hx => hbatches x (.tail _ hx)) (st.handOut t batch)
    refine ⟨hr'.trans hr, hc'.trans hc, hrem'.trans hrem, henq'.trans henq, ?_, fun s => ?_⟩
    · rw [List.foldl_cons, hout']
      simp [handOut, hne]
    · rw [List.foldl_cons, hhanded', handOut_handed]
      by_cases hs : s = t
      · subst hs
        simp
      · rw [if_neg hs, onKey_cons_of_ne (Ne.symm hs)]

/-- The batch of a connection among those of a list of jobs. -/
theorem onKey_jobs {jobs : List (ReplayJob T B)} (hnodup : (jobs.map ReplayJob.target).Nodup)
    (f : ReplayJob T B → List PendingPayload) (s : T) :
    onKey s (jobs.map fun job => (job.target, f job)) = ((findJob s jobs).map f).toList := by
  induction jobs with
  | nil => rfl
  | cons job jobs ih =>
    have hn := List.nodup_cons.mp hnodup
    rw [List.map_cons, findJob_cons]
    by_cases hs : job.target = s
    · subst hs
      rw [onKey_cons_self, ih hn.2, findJob_eq_none hn.1]
      simp
    · rw [onKey_cons_of_ne hs, ih hn.2, if_neg hs]

theorem onKey_filter {κ α : Type} [DecidableEq κ] (l : List (κ × α)) (p : α → Bool) (k : κ) :
    onKey k (l.filter fun x => p x.2) = (onKey k l).filter p := by
  induction l with
  | nil => rfl
  | cons x l ih =>
    obtain ⟨j, x⟩ := x
    by_cases hj : j = k
    · subst hj
      by_cases hp : p x = true <;> simp [hp, ih]
    · by_cases hp : p x = true
      · simp [hp, onKey_cons_of_ne hj, ih]
      · simp [hp, onKey_cons_of_ne hj, ih]

theorem onKey_flatMap {κ α β : Type} [DecidableEq κ] (l : List β) (f : β → List (κ × α)) (k : κ) :
    onKey k (l.flatMap f) = l.flatMap fun x => onKey k (f x) := by
  induction l with
  | nil => rfl
  | cons x l ih => simp [ih]

/-- A pass of `pump` returns for a connection the batch of its job, if that is not empty. -/
theorem onKey_pumpBatches (now : ℕ) (h : ReplaysInv peerId (pumpable pacing st)) (s : T) :
    onKey s (pumpBatches pacing st now) =
      (((jobIn peerId (pumpable pacing st) s).map fun job =>
        (pumpJob pacing st.cancelled now job).2).toList).filter fun batch => !batch.isEmpty := by
  rw [pumpBatches, onKey_filter _ fun batch : List PendingPayload => !batch.isEmpty, onKey_flatMap]
  congr 1
  have honly : ∀ p jobs, (p, jobs) ∈ pumpable pacing st → p ≠ peerId s →
      onKey s (jobs.map fun job => (job.target, (pumpJob pacing st.cancelled now job).2)) = [] := by
    intro p jobs hmem hp
    have hget := h.nodup.get_of_mem hmem
    rw [onKey_jobs (h.targets p jobs hget), findJob_eq_none]
    · rfl
    · intro hs
      obtain ⟨job, hjob, heq⟩ := List.mem_map.mp hs
      exact hp (heq ▸ (h.peers p jobs hget job hjob).symm)
  rw [h.nodup.flatMap_of_only (fun jobs => onKey s (jobs.map fun job =>
    (job.target, (pumpJob pacing st.cancelled now job).2))) (peerId s) honly, jobIn]
  cases hp : assocGet (peerId s) (pumpable pacing st) with
  | none => rfl
  | some jobs => exact onKey_jobs (h.targets _ jobs hp) _ s

/-- `pump` runs on every job. -/
theorem jobIn_pump (peerId : T → BitVec 16) (pacing : Pacing B) (st : Governor T B)
    (now : ℕ) (s : T) :
    jobIn peerId (pump pacing st now).replays s =
      (jobIn peerId (pumpable pacing st) s).map fun job =>
        (pumpJob pacing st.cancelled now job).1 := by
  have hkeep : ∀ job : ReplayJob T B, (pumpJob pacing st.cancelled now job).1.target = job.target :=
    fun job => (pumpJob_advance st.cancelled now job).target
  have hnonempty : ∀ x ∈ pumpBatches pacing st now, x.2.isEmpty = false := by
    intro x hx
    simpa using (List.mem_filter.mp hx).2
  rw [Governor.pump, (foldl_handOut (pumpBatches pacing st now) hnonempty _).1]
  exact jobIn_map _ hkeep s

theorem ReplayInv.pump (h : ReplayInv peerId pacing st) (now : ℕ) :
    ReplayInv peerId pacing (pump pacing st now) := by
  have hready := h.pumpable
  have hkeep : ∀ job : ReplayJob T B, (pumpJob pacing st.cancelled now job).1.target = job.target :=
    fun job => (pumpJob_advance st.cancelled now job).target
  have hnonempty : ∀ x ∈ pumpBatches pacing st now, x.2.isEmpty = false := by
    intro x hx
    simpa using (List.mem_filter.mp hx).2
  obtain ⟨hr, hc, hrem, henq, hout, hhanded⟩ := foldl_handOut (pumpBatches pacing st now) hnonempty
    { st with
      replays := (Governor.pumpable pacing st).map fun x =>
        (x.1, x.2.map fun job => (pumpJob pacing st.cancelled now job).1) }
  rw [Governor.pump]
  refine ⟨?_, fun s => ?_⟩
  · rw [hr]
    refine hready.replays.map fun jobs => ?_
    rw [map_target hkeep]
  · rw [hr, hc, hrem, henq, hhanded]
    change TargetInv pacing st.cancelled (jobIn peerId ((Governor.pumpable pacing st).map _) s)
      (s ∈ st.removed) (onKey s _) (st.enqueued s) (st.handed s ++ _)
    rw [hout, onKey_append, jobIn_map _ hkeep, onKey_pumpBatches now hready.replays]
    have htarget : TargetInv pacing st.cancelled (jobIn peerId (Governor.pumpable pacing st) s)
      (s ∈ st.removed) (st.out s) (st.enqueued s) (st.handed s) := hready.targets s
    cases hj : jobIn peerId (Governor.pumpable pacing st) s with
    | none =>
      rw [hj] at htarget
      simpa [out] using htarget
    | some job =>
      rw [hj] at htarget
      have hstep := htarget.advance (pumpJob_advance st.cancelled now job)
      rw [List.append_nil] at hstep
      cases hb : (pumpJob pacing st.cancelled now job).2 with
      | nil | cons => simpa [hb, out] using hstep

/-! ### Runs -/

theorem ReplayInv.step {st' : Governor T B} {a : Action T} (h : ReplayInv peerId pacing st)
    (hstep : step peerId pacing st a = some st') : ReplayInv peerId pacing st' := by
  cases a with simp only [Governor.step] at hstep
  | enqueueReplay t payloads now =>
    split_ifs at hstep with hlive
    cases hstep
    exact h.enqueueMode hlive payloads true now
  | enqueueInline t payloads now =>
    split_ifs at hstep with hlive
    cases hstep
    exact h.enqueueMode hlive payloads false now
  | pump now =>
    cases hstep
    exact h.pump now
  | finish i sent =>
    split at hstep
    · cases hstep
    · rename_i t batch hi
      cases hstep
      exact h.finish hi sent
  | removePeer t =>
    cases hstep
    exact h.removePeer t
  | cancel handle =>
    cases hstep
    exact ⟨h.replays, fun s => (h.targets s).cancel handle⟩

end Governor

open Governor

variable {T B : Type} [DecidableEq T] {peerId : T → BitVec 16} {pacing : Pacing B}

theorem replayInv_of_reachable {ok : Governor T B → Action T → Prop} {st : Governor T B}
    (h : Reachable (governorSystem peerId pacing) ok st) : ReplayInv peerId pacing st := by
  refine h.invariant (ReplayInv peerId pacing) ?_ ?_
  · rintro _ rfl
    exact replayInv_init
  · intro s a s' hs _ hstep
    exact hs.step hstep

/-- **The replay queue is a FIFO for each connection.**  At most one batch of a connection is with
the transport, it is the last part of what was handed out to the connection, and what was handed out
and not returned is, in order, what was enqueued for it up to some point, without payloads that were
cancelled. -/
theorem replay_fifo {st : Governor T B}
    (h : Reachable (governorSystem peerId pacing) (fun _ _ => True) st) (t : T) :
    (st.outstanding.filter fun x => x.1 = t).length ≤ 1 ∧
      (∀ batch, (t, batch) ∈ st.outstanding → ∃ before, st.handed t = before ++ batch) ∧
      ∃ n, Thins (fun p => p.payload.handle ∈ st.cancelled) ((st.enqueued t).take n)
        (st.handed t) := by
  have htarget := (replayInv_of_reachable h).targets t
  refine ⟨?_, fun batch hb => htarget.last batch (mem_onKey.mpr hb), ?_⟩
  · simpa [out, onKey] using htarget.single
  · obtain ⟨rest, hrest⟩ := htarget.past
    obtain ⟨n, hn, -⟩ := hrest.split
    exact ⟨n, hn⟩

/-- Whole tokens, a burst of two at most. -/
def tokenPacing : Pacing ℤ where
  limited := true
  new := fun _ => 2
  refill := fun tokens _ => min 2 (tokens + 1)
  spend := fun tokens bytes => tokens - bytes
  exhausted := fun tokens => tokens ≤ 0

/-- The second payload of a batch is refused, cancelled, and never sent; the third one follows the
first. -/
theorem replay_fifo_refused :
    ∃ st : Governor (BitVec 16 × ℕ) ℤ,
      Reachable (governorSystem Prod.fst tokenPacing) (fun _ _ => True) st ∧
      ((st.handed (7, 0)).map (fun p => p.payload.handle) = [1, 3] ∧
        (st.enqueued (7, 0)).map (fun p => p.payload.handle) = [1, 2, 3]) ∧
      ∃ n, Thins (fun p => p.payload.handle ∈ st.cancelled) ((st.enqueued (7, 0)).take n)
        (st.handed (7, 0)) := by
  have hrun : (runActions (governorSystem Prod.fst tokenPacing) (.init : Governor _ _)
      [.enqueueInline (7, 0) [⟨1, 1, 3, by decide⟩, ⟨1, 2, 3, by decide⟩] 0,
        .enqueueReplay (7, 0) [⟨1, 3, 3, by decide⟩] 0, .finish 0 1, .cancel 2,
        .pump 1]).any (fun st =>
          decide ((st.handed ((7 : BitVec 16), 0)).map (fun p => p.payload.handle) = [1, 3] ∧
            (st.enqueued (7, 0)).map (fun p => p.payload.handle) = [1, 2, 3])) = true := by
    decide +kernel
  obtain ⟨st, hst, hP⟩ := exists_reachable_of_free_run (.init rfl) hrun
  exact ⟨st, hst, by simpa using hP, (replay_fifo hst (7, 0)).2.2⟩

end BasisRust.Server
