import BasisRust.Library.Meter
import BasisRust.Server.EventLoop
import BasisRust.Server.ImageReplay

/-!
# The bandwidth of images

`image_governor.rs` charges what a player relays to the others, and paces what a connection is sent
from the cache.  Both count in a token bucket with credit for two seconds.  While there is credit a
whole message or payload passes, even one that costs more; the debt has to be earned back before
the next.  A caller may have read its clock before another one that was served earlier, so the
times a bucket sees are not ordered; a bucket is refilled up to the latest time it has seen.

Tokens and times are rationals.  The points between which bytes are counted are places in the
sequence of calls, and the time that has passed between them is given by the times that the bucket
sees there: the first of them is not before `t₁` and none is after `t₂`.
-/

namespace BasisRust.Server

open Library

namespace ImageBandwidth

/-! ### Buckets -/

def megabitsToBytes : ℚ := 125000

def burstSeconds : ℚ := 2

structure Bucket where
  tokens : ℚ
  lastRefill : ℚ
  deriving DecidableEq

namespace Bucket

def new (rate now : ℚ) : Bucket := ⟨rate * burstSeconds, now⟩

def refill (b : Bucket) (rate now : ℚ) : Bucket where
  tokens := min (b.tokens + rate * max 0 (now - b.lastRefill)) (rate * burstSeconds)
  lastRefill := max b.lastRefill now

/-- Pass `bytes` if there is credit. -/
def charge (b : Bucket) (bytes : ℕ) : Bool × Bucket :=
  if b.tokens ≤ 0 then (false, b) else (true, { b with tokens := b.tokens - bytes })

def meter (b : Bucket) : Meter := ⟨b.tokens, b.lastRefill⟩

theorem refill_meter (b : Bucket) (rate now : ℚ) :
    (b.refill rate now).meter = b.meter.refill rate (rate * burstSeconds) now := rfl

/-- **A stale time** adds no credit and does not set the clock back. -/
theorem refill_stale {b : Bucket} {now : ℚ} (rate : ℚ) (h : now ≤ b.lastRefill) :
    (b.refill rate now).tokens = min b.tokens (rate * burstSeconds) ∧
      (b.refill rate now).lastRefill = b.lastRefill :=
  @Meter.refill_stale rate (rate * burstSeconds) now b.meter h

/-- A bucket in a stretch of calls: the bytes that passed are paid for, and no more than the largest
of them is owed. -/
structure Stretch (rate largest t₁ t₂ : ℚ) (spent : ℚ) (b : Bucket) : Prop where
  metered : Meter.Metered rate (rate * burstSeconds) t₁ t₂ spent b.meter
  owed : spent = 0 ∨ -largest ≤ b.tokens

variable {rate t₁ t₂ now spent largest : ℚ} {b : Bucket}

theorem Stretch.start (hrate : 0 ≤ rate) (hnow : t₁ ≤ now) (ht : t₁ ≤ t₂) :
    Stretch rate largest t₁ t₂ 0 (b.refill rate now) := by
  refine ⟨?_, .inl rfl⟩
  rw [refill_meter]
  exact .start hrate hnow ht

section

variable (h : Stretch rate largest t₁ t₂ spent b)
include h

theorem Stretch.refill (hrate : 0 ≤ rate)
    (hlargest : 0 ≤ largest) (hnow : now ≤ t₂) :
    Stretch rate largest t₁ t₂ spent (b.refill rate now) := by
  refine ⟨h.metered.refill hnow, h.owed.imp id fun howed => ?_⟩
  have hearned := mul_nonneg hrate (le_max_left 0 (now - b.lastRefill))
  have hburst : 0 ≤ rate * burstSeconds := mul_nonneg hrate (by norm_num [burstSeconds])
  exact le_min (by linarith) (by linarith)

/-- **Bytes that pass** while there is credit. -/
theorem Stretch.spend {bytes : ℕ}
    (hcredit : ¬ b.tokens ≤ 0) (hbytes : (bytes : ℚ) ≤ largest) :
    Stretch rate largest t₁ t₂ (spent + bytes) { b with tokens := b.tokens - bytes } := by
  refine ⟨h.metered.spend (Nat.cast_nonneg bytes), .inr ?_⟩
  show -largest ≤ b.tokens - bytes
  linarith [not_le.mp hcredit]

theorem Stretch.charge (bytes : ℕ)
    (hbytes : (b.charge bytes).1 = true → (bytes : ℚ) ≤ largest) :
    Stretch rate largest t₁ t₂ (spent + if (b.charge bytes).1 then (bytes : ℚ) else 0)
      (b.charge bytes).2 := by
  by_cases hcredit : b.tokens ≤ 0
  · rw [Bucket.charge, if_pos hcredit]
    simpa using h
  · rw [Bucket.charge, if_neg hcredit] at hbytes ⊢
    exact h.spend hcredit (hbytes rfl)

theorem Stretch.spent_le (hrate : 0 ≤ rate)
    (hlargest : 0 ≤ largest) (ht : t₁ ≤ t₂) :
    spent ≤ rate * burstSeconds + rate * (t₂ - t₁) + largest := by
  rcases h.owed with hzero | howed
  · have hgrow := mul_nonneg hrate (sub_nonneg.mpr ht)
    have hburst : 0 ≤ rate * burstSeconds := mul_nonneg hrate (by norm_num [burstSeconds])
    linarith
  · have hspent := h.metered.spent_le hrate
    have hbalance : b.meter.balance = b.tokens := rfl
    linarith

end

end Bucket

/-! ### Relaying -/

/-- The settings of the governor; they are `i32`. -/
structure Config where
  imageShareEgressMegabitsPerSecond : BitVec 32
  imageShareEgressEnforcementPercent : BitVec 32
  imageShareDownloadMegabitsPerSecond : BitVec 32
  deriving DecidableEq

/-- The rate at which relayed bytes are allowed. -/
def Config.egressRate (config : Config) : ℚ :=
  config.imageShareEgressMegabitsPerSecond.toInt * megabitsToBytes *
    ((max config.imageShareEgressEnforcementPercent.toInt 100 : ℤ) / 100)

structure Egress where
  buckets : List (PeerId × Bucket)
  droppedMessages : BitVec 64
  droppedBytes : BitVec 64

namespace Egress

def tryConsumeEgress (g : Egress) (sender : PeerId) (bytes : BitVec 64) (config : Config)
    (now : ℚ) : Bool × Egress :=
  if config.imageShareEgressMegabitsPerSecond.toInt ≤ 0 ∨ bytes = 0 then (true, g)
  else
    let rate := config.egressRate
    let bucket := (assocGet sender g.buckets).getD (.new rate now)
    let (passes, charged) := (bucket.refill rate now).charge bytes.toNat
    if passes then (true, { g with buckets := assocSet sender charged g.buckets })
    else
      (false,
        { buckets := assocSet sender charged g.buckets
          droppedMessages := g.droppedMessages + 1
          droppedBytes := g.droppedBytes + bytes })

/-- A message to relay, or a player who leaves. -/
inductive Call where
  | consume (sender : PeerId) (bytes : BitVec 64) (now : ℚ)
  | removePeer (peer : PeerId)
  deriving DecidableEq

def call (config : Config) (g : Egress) : Call → Egress
  | .consume sender bytes now => (g.tryConsumeEgress sender bytes config now).2
  | .removePeer peer => { g with buckets := assocErase peer g.buckets }

/-- The sizes of a player's messages that are admitted. -/
def admitted (config : Config) (p : PeerId) : Egress → List Call → List ℕ
  | _, [] => []
  | g, .consume sender bytes now :: calls =>
    (if sender = p ∧ (g.tryConsumeEgress sender bytes config now).1 then [bytes.toNat] else []) ++
      admitted config p (g.call config (.consume sender bytes now)) calls
  | g, .removePeer peer :: calls => admitted config p (g.call config (.removePeer peer)) calls

/-- The times that a player's bucket sees: a message without bytes does not get there. -/
def observed (p : PeerId) : List Call → List ℚ
  | [] => []
  | .consume sender bytes now :: calls =>
    if sender = p ∧ bytes ≠ 0 then now :: observed p calls else observed p calls
  | .removePeer _ :: calls => observed p calls

variable {config : Config} {p : PeerId} {g : Egress} {t₁ t₂ spent : ℚ} {largest : ℕ}
  {calls : List Call} {c : Call}

theorem egressRate_pos (h : 0 < config.imageShareEgressMegabitsPerSecond.toInt) :
    0 < config.egressRate := by
  have hmegabits : (0 : ℚ) < config.imageShareEgressMegabitsPerSecond.toInt := by exact_mod_cast h
  have hpercent : (0 : ℚ) <
      ((max config.imageShareEgressEnforcementPercent.toInt 100 : ℤ) : ℚ) := by
    have hmax : (0 : ℤ) < max config.imageShareEgressEnforcementPercent.toInt 100 :=
      lt_of_lt_of_le (by decide) (le_max_right _ _)
    exact_mod_cast hmax
  rw [Config.egressRate, megabitsToBytes]
  exact mul_pos (mul_pos hmegabits (by norm_num)) (div_pos hpercent (by norm_num))

/-- A message of another player leaves the bucket. -/
theorem call_other (config : Config) (g : Egress) (hstay : c ≠ .removePeer p)
    (hother : ∀ bytes now, c = .consume p bytes now → bytes = 0) :
    assocGet p (g.call config c).buckets = assocGet p g.buckets := by
  cases c with
  | removePeer peer =>
    have hne : p ≠ peer := fun heq => hstay (by rw [heq])
    exact assocGet_erase_of_ne hne g.buckets
  | consume sender bytes now =>
    show assocGet p (g.tryConsumeEgress sender bytes config now).2.buckets = _
    rw [tryConsumeEgress]
    split_ifs with hfree
    · rfl
    · have hne : p ≠ sender := by
        intro heq
        exact hfree (.inr (hother bytes now (by rw [heq])))
      dsimp only
      split_ifs <;> exact assocGet_set_of_ne hne _ g.buckets

/-- A message of the player is charged to the bucket. -/
theorem call_own (g : Egress) (p : PeerId)
    (h : 0 < config.imageShareEgressMegabitsPerSecond.toInt) {bytes : BitVec 64}
    (hbytes : bytes ≠ 0) (now : ℚ) :
    let bucket := ((assocGet p g.buckets).getD (.new config.egressRate now)).refill
      config.egressRate now
    (g.tryConsumeEgress p bytes config now).1 = (bucket.charge bytes.toNat).1 ∧
      assocGet p (g.call config (.consume p bytes now)).buckets =
        some (bucket.charge bytes.toNat).2 := by
  have hcharged : ¬ (config.imageShareEgressMegabitsPerSecond.toInt ≤ 0 ∨ bytes = 0) :=
    fun hfree => hfree.elim (fun hle => absurd h (not_lt.mpr hle)) hbytes
  dsimp only
  generalize hb : ((assocGet p g.buckets).getD (.new config.egressRate now)).refill
    config.egressRate now = bucket
  show _ ∧ assocGet p (g.tryConsumeEgress p bytes config now).2.buckets = _
  rw [tryConsumeEgress, if_neg hcharged]
  dsimp only
  rw [hb]
  cases hpasses : (bucket.charge bytes.toNat).1 with
  | false | true => exact ⟨rfl, assocGet_set_self p _ g.buckets⟩

theorem admitted_other (config : Config) (g : Egress) (calls : List Call)
    (hother : ∀ bytes now, c = .consume p bytes now → bytes = 0) :
    (admitted config p g (c :: calls)).sum = (admitted config p (g.call config c) calls).sum ∧
      observed p (c :: calls) = observed p calls := by
  cases c with
  | removePeer peer => exact ⟨rfl, rfl⟩
  | consume sender bytes now =>
    rw [admitted, observed, List.sum_append]
    by_cases hsender : sender = p
    · have hzero : bytes = 0 := hother bytes now (by rw [hsender])
      refine ⟨?_, if_neg fun h => h.2 hzero⟩
      rw [hzero]
      split_ifs <;> simp
    · rw [if_neg (fun h => hsender h.1), if_neg (fun h => hsender h.1)]
      exact ⟨Nat.zero_add _, rfl⟩

/-- What a call of the player's own adds. -/
theorem admitted_own (config : Config) (g : Egress) (p : PeerId) (bytes : BitVec 64) (now : ℚ)
    (calls : List Call) : ((admitted config p g (.consume p bytes now :: calls)).sum : ℚ) =
      (if (g.tryConsumeEgress p bytes config now).1 then (bytes.toNat : ℚ) else 0) +
        ((admitted config p (g.call config (.consume p bytes now)) calls).sum : ℕ) := by
  rw [admitted, List.sum_append, Nat.cast_add]
  by_cases hpass : (g.tryConsumeEgress p bytes config now).1 = true
  · rw [if_pos ⟨rfl, hpass⟩, if_pos hpass, List.sum_singleton]
  · rw [if_neg fun h => hpass h.2, if_neg hpass, List.sum_nil, Nat.cast_zero]

/-- Nothing later is larger than the largest of all. -/
theorem admitted_later (hlargest : ∀ n ∈ admitted config p g (c :: calls), n ≤ largest) :
    ∀ n ∈ admitted config p (g.call config c) calls, n ≤ largest := by
  intro n hn
  cases c with
  | removePeer peer => exact hlargest n hn
  | consume sender bytes now =>
    apply hlargest n
    rw [admitted]
    exact List.mem_append_right _ hn

theorem admitted_first {bytes : BitVec 64} {now : ℚ}
    (hlargest : ∀ n ∈ admitted config p g (.consume p bytes now :: calls), n ≤ largest)
    (hpass : (g.tryConsumeEgress p bytes config now).1 = true) :
    (bytes.toNat : ℚ) ≤ largest := by
  have hle := hlargest bytes.toNat (by simp [admitted, hpass])
  exact_mod_cast hle

/-- A call that the bucket of the player sees, or one that it does not. -/
theorem Call.own_or_other (p : PeerId) (c : Call) :
    (∃ bytes now, c = .consume p bytes now ∧ bytes ≠ 0) ∨
      ∀ bytes now, c = .consume p bytes now → bytes = 0 := by
  by_cases h : ∃ bytes now, c = .consume p bytes now ∧ bytes ≠ 0
  · exact .inl h
  · refine .inr fun bytes now heq => ?_
    by_contra hne
    exact h ⟨bytes, now, heq, hne⟩

/-- The calls after the first that the bucket has seen. -/
theorem admitted_after (hrate : 0 < config.imageShareEgressMegabitsPerSecond.toInt) (ht : t₁ ≤ t₂)
    {b : Bucket} (hb : assocGet p g.buckets = some b)
    (hstretch : b.Stretch config.egressRate largest t₁ t₂ spent)
    (hstay : .removePeer p ∉ calls) (hlast : ∀ t ∈ observed p calls, t ≤ t₂)
    (hlargest : ∀ n ∈ admitted config p g calls, n ≤ largest) :
    spent + (admitted config p g calls).sum ≤
      config.egressRate * burstSeconds + config.egressRate * (t₂ - t₁) + largest := by
  induction calls generalizing g b spent with
  | nil =>
    have hle := hstretch.spent_le (egressRate_pos hrate).le (Nat.cast_nonneg largest) ht
    simpa [admitted] using hle
  | cons c calls ih =>
    have hstay' : .removePeer p ∉ calls := fun h => hstay (List.mem_cons_of_mem c h)
    rcases c.own_or_other p with ⟨bytes, now, rfl, hbytes⟩ | hother
    · obtain ⟨hpasses, hbucket⟩ := call_own g p hrate hbytes now
      rw [hb, Option.getD_some] at hpasses hbucket
      rw [observed, if_pos ⟨rfl, hbytes⟩] at hlast
      have hrefilled := hstretch.refill (egressRate_pos hrate).le (Nat.cast_nonneg largest)
        (hlast now (.head _))
      have hcharged := hrefilled.charge bytes.toNat fun hpass =>
        admitted_first hlargest (hpasses.trans hpass)
      have hrest := ih hbucket hcharged hstay' (fun t ht => hlast t (.tail _ ht))
        (admitted_later hlargest)
      rw [← hpasses, add_assoc] at hrest
      rw [admitted_own]
      exact hrest
    · obtain ⟨hsum, hobserved⟩ := admitted_other config g calls hother
      have hbucket := call_other config g
        (fun heq => hstay (heq ▸ .head _)) hother
      rw [hsum]
      rw [hobserved] at hlast
      exact ih (hbucket.trans hb) hstretch hstay' hlast (admitted_later hlargest)

/-- **What a player may relay** between two points: from any state, while the player stays. -/
theorem admitted_le (hrate : 0 < config.imageShareEgressMegabitsPerSecond.toInt) (ht : t₁ ≤ t₂)
    (hstay : .removePeer p ∉ calls) (hfirst : ∀ t ∈ (observed p calls).head?, t₁ ≤ t)
    (hlast : ∀ t ∈ observed p calls, t ≤ t₂)
    (hlargest : ∀ n ∈ admitted config p g calls, n ≤ largest) :
    ((admitted config p g calls).sum : ℚ) ≤
      config.egressRate * burstSeconds + config.egressRate * (t₂ - t₁) + largest := by
  have hrate' := (egressRate_pos hrate).le
  induction calls generalizing g with
  | nil =>
    have hgrow := mul_nonneg hrate' (sub_nonneg.mpr ht)
    have hburst : 0 ≤ config.egressRate * burstSeconds :=
      mul_nonneg hrate' (by norm_num [burstSeconds])
    have hzero : (0 : ℚ) ≤ largest := Nat.cast_nonneg largest
    show ((0 : ℕ) : ℚ) ≤ _
    push_cast
    linarith
  | cons c calls ih =>
    have hstay' : .removePeer p ∉ calls := fun h => hstay (List.mem_cons_of_mem c h)
    rcases c.own_or_other p with ⟨bytes, now, rfl, hbytes⟩ | hother
    · obtain ⟨hpasses, hbucket⟩ := call_own g p hrate hbytes now
      rw [observed, if_pos ⟨rfl, hbytes⟩] at hfirst hlast
      have hstart : t₁ ≤ now := hfirst now rfl
      generalize (assocGet p g.buckets).getD (.new config.egressRate now) = bucket
        at hpasses hbucket
      have hstarted : (bucket.refill config.egressRate now).Stretch config.egressRate largest
          t₁ t₂ 0 := .start hrate' hstart ht
      have hcharged := hstarted.charge bytes.toNat fun hpass =>
        admitted_first hlargest (hpasses.trans hpass)
      have hrest := admitted_after hrate ht hbucket hcharged hstay'
        (fun t ht => hlast t (.tail _ ht)) (admitted_later hlargest)
      rw [← hpasses, zero_add] at hrest
      rw [admitted_own]
      exact hrest
    · obtain ⟨hsum, hobserved⟩ := admitted_other config g calls hother
      rw [hsum]
      rw [hobserved] at hfirst hlast
      exact ih hstay' hfirst hlast (admitted_later hlargest)

end Egress

/-! ### Pacing -/

/-- The rate at which a connection is sent images from the cache. -/
def Config.downloadRate (config : Config) : ℚ :=
  config.imageShareDownloadMegabitsPerSecond.toInt * megabitsToBytes

/-- The buckets of the replay queue; `tick` is the time that an instant counts, in seconds. -/
def Config.pacing (config : Config) (tick : ℚ) : Pacing Bucket where
  limited := decide (0 < config.downloadRate)
  new now := .new (max config.downloadRate 0) (now * tick)
  refill b now := b.refill config.downloadRate (now * tick)
  spend b size := { b with tokens := b.tokens - size }
  exhausted b := decide (b.tokens ≤ 0)

open Governor

/-- The sizes of the paced payloads in a part of a queue; a cleared payload counts nothing. -/
def pacedSizes (cancelled : List ℕ) (queue : List QueuedPayload) : List ℕ :=
  (queue.filter fun q => !q.bypassPacing).map fun q => payloadLen cancelled q.pending

/-- What was taken from the front of a queue. -/
def taken {α : Type} (before after : List α) : List α := before.take (before.length - after.length)

theorem taken_self {α : Type} (queue : List α) : taken queue queue = [] := by
  rw [taken, Nat.sub_self, List.take_zero]

variable {T : Type} [DecidableEq T] {peerId : T → BitVec 16} {config : Config} {tick : ℚ}
  {payloads : List PendingPayload} {now : ℕ}

section OneJob

omit [DecidableEq T]

/-- The job with new payloads at the back of what is left of its queue. -/
def appended (pacing : Pacing Bucket) (cancelled : List ℕ) (paced : Bool)
    (payloads : List PendingPayload) (job : ReplayJob T Bucket) : ReplayJob T Bucket :=
  { retainLive cancelled job with
    payloads := (retainLive cancelled job).payloads ++
      payloads.map fun pending => ⟨pending, !paced || !pacing.limited⟩ }

variable (pacing : Pacing Bucket)

theorem enqueueJob_eq (cancelled : List ℕ) (paced : Bool) (payloads : List PendingPayload) (now : ℕ)
    (job : ReplayJob T Bucket) :
    enqueueJob pacing cancelled paced payloads now job =
      if !job.inFlight && (!paced || !pacing.limited) then
        startBatch pacing cancelled now (appended pacing cancelled paced payloads job)
      else (appended pacing cancelled paced payloads job, []) := rfl

/-- The paced payloads that `enqueue_mode` selects from a job. -/
def enqueueSelects (pacing : Pacing Bucket) (cancelled : List ℕ) (paced : Bool)
    (payloads : List PendingPayload) (now : ℕ) (job : ReplayJob T Bucket) : List ℕ :=
  pacedSizes cancelled (taken (appended pacing cancelled paced payloads job).payloads
    (enqueueJob pacing cancelled paced payloads now job).1.payloads)

/-- A job that `pump` has nothing to do for. -/
def skipped (cancelled : List ℕ) (job : ReplayJob T Bucket) : Bool :=
  job.inFlight || (retainLive cancelled job).payloads.isEmpty

theorem pumpJob_eq (cancelled : List ℕ) (now : ℕ) (job : ReplayJob T Bucket) :
    pumpJob pacing cancelled now job =
      if skipped cancelled job then (retainLive cancelled job, [])
      else startBatch pacing cancelled now (retainLive cancelled job) := rfl

/-- The paced payloads that `pump` selects from a job. -/
def pumpSelects (pacing : Pacing Bucket) (cancelled : List ℕ) (now : ℕ)
    (job : ReplayJob T Bucket) : List ℕ :=
  pacedSizes cancelled (taken (retainLive cancelled job).payloads
    (pumpJob pacing cancelled now job).1.payloads)

variable {cancelled : List ℕ} {t₁ t₂ spent : ℚ} {largest : ℕ}

theorem takeBatch_length (cancelled : List ℕ) (bucket : Bucket) (payloads : List QueuedPayload) :
    (takeBatch pacing cancelled bucket payloads).2.1.length ≤ payloads.length := by
  induction payloads generalizing bucket with
  | nil => exact le_rfl
  | cons front rest ih =>
    rw [takeBatch]
    by_cases hbreak : (pacing.limited && !front.bypassPacing && pacing.exhausted bucket) = true
    · rw [if_pos hbreak]
    · rw [if_neg hbreak]
      dsimp only
      by_cases hsize : payloadLen cancelled front.pending = 0
      · rw [if_pos hsize]
        exact (ih _).trans (Nat.le_succ _)
      · rw [if_neg hsize]
        exact (ih _).trans (Nat.le_succ _)

theorem taken_cons {α : Type} {front : α} {rest after : List α} (h : after.length ≤ rest.length) :
    taken (front :: rest) after = front :: taken rest after := by
  rw [taken, List.length_cons, Nat.succ_sub h]
  rfl

/-- **The loop that takes a batch** pays for the paced payloads it takes. -/
theorem takeBatch_stretch (hrate : 0 < config.downloadRate) {bucket : Bucket}
    {payloads : List QueuedPayload}
    (h : bucket.Stretch config.downloadRate largest t₁ t₂ spent)
    (hlargest : ∀ n ∈ pacedSizes cancelled
      (taken payloads (takeBatch (config.pacing tick) cancelled bucket payloads).2.1),
        n ≤ largest) :
    (takeBatch (config.pacing tick) cancelled bucket payloads).2.2.Stretch config.downloadRate
      largest t₁ t₂ (spent + (pacedSizes cancelled
        (taken payloads (takeBatch (config.pacing tick) cancelled bucket payloads).2.1)).sum) := by
  have hlimited : (config.pacing tick).limited = true := decide_eq_true hrate
  induction payloads generalizing bucket spent with
  | nil =>
    have hnone : (pacedSizes cancelled (taken ([] : List QueuedPayload) [])).sum = 0 := rfl
    rw [takeBatch, hnone]
    simpa using h
  | cons front rest ih =>
    rw [takeBatch] at hlargest ⊢
    rw [hlimited, Bool.true_and] at hlargest ⊢
    by_cases hbreak : (!front.bypassPacing && (config.pacing tick).exhausted bucket) = true
    · rw [if_pos hbreak, taken_self] at hlargest ⊢
      show bucket.Stretch _ _ _ _ (spent + ((0 : ℕ) : ℚ))
      simpa using h
    rw [if_neg hbreak] at hlargest ⊢
    dsimp only at hlargest ⊢
    have hlength := fun b => takeBatch_length (config.pacing tick) cancelled b rest
    by_cases hsize : payloadLen cancelled front.pending = 0
    · -- a cleared payload is dropped
      rw [if_pos hsize, taken_cons (hlength _)] at hlargest ⊢
      have hsum : (pacedSizes cancelled (front ::
          taken rest (takeBatch (config.pacing tick) cancelled bucket rest).2.1)).sum =
          (pacedSizes cancelled
            (taken rest (takeBatch (config.pacing tick) cancelled bucket rest).2.1)).sum := by
        rw [pacedSizes, List.filter_cons]
        split_ifs
        · rw [List.map_cons, List.sum_cons, hsize, Nat.zero_add]
          rfl
        · rfl
      rw [hsum]
      refine ih h fun n hn => hlargest n ?_
      rw [pacedSizes, List.filter_cons]
      split_ifs
      · exact .tail _ hn
      · exact hn
    rw [if_neg hsize] at hlargest ⊢
    cases hbypass : front.bypassPacing with
    | true =>
      rw [hbypass] at hlargest
      simp only [Bool.not_true, Bool.false_eq_true, if_false] at hlargest ⊢
      rw [taken_cons (hlength _)] at hlargest ⊢
      have hskip : ∀ queue, pacedSizes cancelled (front :: queue) = pacedSizes cancelled queue := by
        intro queue
        rw [pacedSizes, List.filter_cons, if_neg (by rw [hbypass]; decide)]
        rfl
      rw [hskip] at hlargest ⊢
      exact ih h hlargest
    | false =>
      have hcredit : ¬ bucket.tokens ≤ 0 := by
        intro hpoor
        refine hbreak ?_
        rw [hbypass]
        exact decide_eq_true hpoor
      rw [hbypass] at hlargest
      simp only [Bool.not_false, if_true] at hlargest ⊢
      rw [taken_cons (hlength _)] at hlargest ⊢
      have htake : ∀ queue, pacedSizes cancelled (front :: queue) =
          payloadLen cancelled front.pending :: pacedSizes cancelled queue := by
        intro queue
        rw [pacedSizes, List.filter_cons, if_pos (by rw [hbypass]; decide)]
        rfl
      rw [htake] at hlargest ⊢
      have hfront : ((payloadLen cancelled front.pending : ℕ) : ℚ) ≤ largest := by
        exact_mod_cast hlargest _ (.head _)
      have hrest := ih (h.spend hcredit hfront) fun n hn =>
        hlargest n (.tail _ hn)
      rw [List.sum_cons, Nat.cast_add, ← add_assoc]
      exact hrest

/-- Starting a batch refills the bucket and pays for the paced payloads. -/
theorem startBatch_stretch (hrate : 0 < config.downloadRate) {job : ReplayJob T Bucket} {now : ℕ}
    (h : (job.bucket.refill config.downloadRate (now * tick)).Stretch config.downloadRate largest
      t₁ t₂ spent)
    (hlargest : ∀ n ∈ pacedSizes cancelled
      (taken job.payloads (startBatch (config.pacing tick) cancelled now job).1.payloads),
        n ≤ largest) :
    (startBatch (config.pacing tick) cancelled now job).1.bucket.Stretch config.downloadRate
      largest t₁ t₂ (spent + (pacedSizes cancelled
        (taken job.payloads
          (startBatch (config.pacing tick) cancelled now job).1.payloads)).sum) := by
  have hlimited : (config.pacing tick).limited = true := decide_eq_true hrate
  have hbucket : (if (config.pacing tick).limited then (config.pacing tick).refill job.bucket now
      else job.bucket) = job.bucket.refill config.downloadRate (now * tick) := by
    rw [hlimited]
    rfl
  rw [startBatch, hbucket] at hlargest ⊢
  exact takeBatch_stretch hrate h hlargest

/-- Work that only waits selects nothing. -/
theorem enqueueJob_waits (tick : ℚ) (cancelled : List ℕ) (hrate : 0 < config.downloadRate)
    {paced : Bool} (payloads : List PendingPayload) (now : ℕ) {job : ReplayJob T Bucket}
    (hwaits : paced = true ∨ job.inFlight = true) :
    enqueueSelects (config.pacing tick) cancelled paced payloads now job = [] ∧
      (enqueueJob (config.pacing tick) cancelled paced payloads now job).1.bucket = job.bucket := by
  have hlimited : (config.pacing tick).limited = true := decide_eq_true hrate
  have hskip : ¬ (!job.inFlight && (!paced || !(config.pacing tick).limited)) = true := by
    rw [hlimited]
    rcases hwaits with hpaced | hin
    · rw [hpaced, Bool.not_true, Bool.or_false, Bool.and_false]
      decide
    · rw [hin, Bool.not_true, Bool.false_and]
      decide
  rw [enqueueSelects, enqueueJob_eq, if_neg hskip, taken_self]
  exact ⟨rfl, rfl⟩

theorem pumpJob_skips (now : ℕ) {job : ReplayJob T Bucket} (hskip : skipped cancelled job = true) :
    pumpSelects pacing cancelled now job = [] ∧
      (pumpJob pacing cancelled now job).1.bucket = job.bucket := by
  rw [pumpSelects, pumpJob_eq, if_pos hskip, taken_self]
  exact ⟨rfl, rfl⟩

end OneJob

/-! ### One connection -/

section Connection

variable (peerId) (config) (tick) (t : T) (st : Governor T Bucket)

/-- The job that work for the connection goes to. -/
def jobFor (now : ℕ) : ReplayJob T Bucket :=
  (jobIn peerId st.replays t).getD ⟨t, [], (config.pacing tick).new now, false⟩

/-- The paced payloads that a call selects for the connection. -/
def selected : Action T → List ℕ
  | .enqueueReplay s payloads now =>
    if s = t ∧ payloads.isEmpty = false then
      enqueueSelects (config.pacing tick) st.cancelled true payloads now
        (jobFor peerId config tick t st now)
    else []
  | .enqueueInline s payloads now =>
    if s = t ∧ payloads.isEmpty = false then
      enqueueSelects (config.pacing tick) st.cancelled false payloads now
        (jobFor peerId config tick t st now)
    else []
  | .pump now =>
    ((jobIn peerId (pumpable (config.pacing tick) st) t).map
      (pumpSelects (config.pacing tick) st.cancelled now)).getD []
  | _ => []

/-- The times at which the bucket of the connection is made or refilled. -/
def observed : Action T → List ℚ
  | .enqueueReplay s payloads now =>
    if (s = t ∧ payloads.isEmpty = false) ∧ jobIn peerId st.replays t = none then [now * tick]
    else []
  | .enqueueInline s payloads now =>
    if (s = t ∧ payloads.isEmpty = false) ∧
        (jobFor peerId config tick t st now).inFlight = false then
      [now * tick]
    else []
  | .pump now =>
    if (jobIn peerId (pumpable (config.pacing tick) st) t).any fun job =>
        !skipped st.cancelled job then
      [now * tick]
    else []
  | _ => []

/-- What calls in a row do, as long as they are possible. -/
def inRun {β : Type} (f : Governor T Bucket → Action T → List β) :
    Governor T Bucket → List (Action T) → List β
  | _, [] => []
  | st, a :: actions =>
    match Governor.step peerId (config.pacing tick) st a with
    | none => []
    | some st' => f st a ++ inRun f st' actions

end Connection

theorem downloadRate_nonneg (hrate : 0 < config.downloadRate) :
    max config.downloadRate 0 = config.downloadRate := max_eq_left hrate.le

/-- A new bucket is full at its time. -/
theorem Bucket.refill_new (rate now : ℚ) :
    (Bucket.new rate now).refill rate now = .new rate now := by
  rw [Bucket.refill, Bucket.new]
  simp

/-- A call that the bucket of the connection does not see. -/
structure Quiet (peerId : T → BitVec 16) (config : Config) (tick : ℚ) (t : T)
    (st : Governor T Bucket) (a : Action T) (st' : Governor T Bucket) : Prop where
  selected : selected peerId config tick t st a = []
  observed : observed peerId config tick t st a = []
  bucket : t ∈ st'.removed ∨ (jobIn peerId st'.replays t).map ReplayJob.bucket =
    (jobIn peerId st.replays t).map ReplayJob.bucket

/-- A call that makes or refills the bucket of the connection, and pays for what it selects. -/
structure Seen (peerId : T → BitVec 16) (config : Config) (tick : ℚ) (t : T)
    (st : Governor T Bucket) (a : Action T) (st' : Governor T Bucket) (now : ℚ) (bucket : Bucket)
    (job' : ReplayJob T Bucket) : Prop where
  observed : observed peerId config tick t st a = [now]
  before : ∀ job, jobIn peerId st.replays t = some job → job.bucket = bucket
  after : jobIn peerId st'.replays t = some job'
  pays : ∀ {t₁ t₂ spent : ℚ} {largest : ℕ},
    (bucket.refill config.downloadRate now).Stretch config.downloadRate largest t₁ t₂ spent →
    (∀ n ∈ selected peerId config tick t st a, n ≤ largest) →
    job'.bucket.Stretch config.downloadRate largest t₁ t₂
      (spent + (selected peerId config tick t st a).sum)

variable {st st' : Governor T Bucket} {a : Action T} {t : T} {s : T}

/-- Work for another connection, or none. -/
theorem enqueueMode_other (h : ReplayInv peerId (config.pacing tick) st)
    (hother : ¬ (s = t ∧ payloads.isEmpty = false)) (paced : Bool) (now : ℕ) :
    jobIn peerId (enqueueMode peerId (config.pacing tick) st s payloads paced now).replays t =
      jobIn peerId st.replays t := by
  cases hne : payloads.isEmpty with
  | true => rw [enqueueMode, if_pos hne]
  | false =>
    have hst : t ≠ s := fun heq => hother ⟨heq.symm, hne⟩
    rw [(enqueueMode_spec (config.pacing tick) h.replays s hne paced now).2 t, if_neg hst]

theorem enqueueMode_own (h : ReplayInv peerId (config.pacing tick) st)
    (hne : payloads.isEmpty = false) (paced : Bool) (now : ℕ) :
    jobIn peerId (enqueueMode peerId (config.pacing tick) st t payloads paced now).replays t =
      some (enqueueJob (config.pacing tick) st.cancelled paced payloads now
        (jobFor peerId config tick t st now)).1 := by
  rw [(enqueueMode_spec (config.pacing tick) h.replays t hne paced now).2 t, if_pos rfl]
  rfl

section

variable (hrate : 0 < config.downloadRate)
include hrate

/-- The paced work of a connection waits for the pump; a bucket that is made is full. -/
theorem enqueueReplay_connection (h : ReplayInv peerId (config.pacing tick) st)
    (hstep : Governor.step peerId (config.pacing tick) st
      (.enqueueReplay s payloads now) = some st')
    (t : T) :
    Quiet peerId config tick t st (.enqueueReplay s payloads now) st' ∨ ∃ now' bucket job',
      Seen peerId config tick t st (.enqueueReplay s payloads now) st' now' bucket job' := by
  rw [Governor.step] at hstep
  split_ifs at hstep
  cases hstep
  by_cases hown : s = t ∧ payloads.isEmpty = false
  · obtain ⟨rfl, hne⟩ := hown
    have hjob := enqueueMode_own (t := s) h hne true now
    obtain ⟨hselects, hbucket⟩ := @enqueueJob_waits T config tick st.cancelled hrate true payloads
      now (jobFor peerId config tick s st now) (.inl rfl)
    have hselected : selected peerId config tick s st (.enqueueReplay s payloads now) = [] := by
      rw [selected, if_pos ⟨rfl, hne⟩, hselects]
    cases hold : jobIn peerId st.replays s with
    | some job =>
      have hfor : jobFor peerId config tick s st now = job := by rw [jobFor, hold]; rfl
      refine .inl ⟨hselected, ?_, .inr ?_⟩
      · rw [observed, hold, if_neg (fun hnone => by cases hnone.2)]
      · rw [hjob, hold, Option.map_some, Option.map_some, hbucket, hfor]
    | none =>
      -- the bucket is made, and is full
      have hfor : jobFor peerId config tick s st now =
          ⟨s, [], (config.pacing tick).new now, false⟩ := by rw [jobFor, hold]; rfl
      rw [hfor] at hbucket
      have hnew : (config.pacing tick).new now = .new config.downloadRate (now * tick) := by
        show Bucket.new (max config.downloadRate 0) _ = _
        rw [downloadRate_nonneg hrate]
      refine .inr ⟨now * tick, .new config.downloadRate (now * tick), _, ?_, ?_, hjob, ?_⟩
      · rw [observed, if_pos ⟨⟨rfl, hne⟩, hold⟩]
      · intro job hsome
        rw [hold] at hsome
        cases hsome
      · intro t₁ t₂ spent largest hstretch _
        rw [hselected, hfor, hbucket, hnew]
        rw [Bucket.refill_new] at hstretch
        simpa using hstretch
  · refine .inl ⟨by rw [selected, if_neg hown], by rw [observed, if_neg fun hseen => hown hseen.1],
      .inr ?_⟩
    rw [enqueueMode_other h hown]

/-- Inline work starts a batch when none is in flight. -/
theorem enqueueInline_connection (h : ReplayInv peerId (config.pacing tick) st)
    (hstep : Governor.step peerId (config.pacing tick) st
      (.enqueueInline s payloads now) = some st')
    (t : T) :
    Quiet peerId config tick t st (.enqueueInline s payloads now) st' ∨ ∃ now' bucket job',
      Seen peerId config tick t st (.enqueueInline s payloads now) st' now' bucket job' := by
  rw [Governor.step] at hstep
  split_ifs at hstep
  cases hstep
  by_cases hown : s = t ∧ payloads.isEmpty = false
  · obtain ⟨rfl, hne⟩ := hown
    have hjob := enqueueMode_own (t := s) h hne false now
    have hselected : selected peerId config tick s st (.enqueueInline s payloads now) =
        enqueueSelects (config.pacing tick) st.cancelled false payloads now
          (jobFor peerId config tick s st now) := by
      rw [selected, if_pos ⟨rfl, hne⟩]
    cases hin : (jobFor peerId config tick s st now).inFlight with
    | true =>
      obtain ⟨hselects, hbucket⟩ := enqueueJob_waits tick st.cancelled hrate payloads now
        (.inr hin)
      refine .inl ⟨hselected.trans hselects, ?_, .inr ?_⟩
      · rw [observed, hin, if_neg (fun hidle => by cases hidle.2)]
      · rw [hjob, Option.map_some, hbucket]
        cases hold : jobIn peerId st.replays s with
        | some job =>
          rw [jobFor, hold]
          rfl
        | none =>
          rw [jobFor, hold] at hin
          cases hin
    | false =>
      refine .inr ⟨now * tick, (jobFor peerId config tick s st now).bucket, _, ?_, ?_, hjob, ?_⟩
      · rw [observed, if_pos ⟨⟨rfl, hne⟩, hin⟩]
      · intro job hsome
        rw [jobFor, hsome]
        rfl
      · intro t₁ t₂ spent largest hstretch hlargest
        rw [hselected] at hlargest ⊢
        rw [enqueueSelects, enqueueJob_eq, if_pos (by rw [hin]; rfl)] at hlargest ⊢
        exact startBatch_stretch hrate hstretch hlargest
  · refine .inl ⟨by rw [selected, if_neg hown], by rw [observed, if_neg fun hseen => hown hseen.1],
      .inr ?_⟩
    rw [enqueueMode_other h hown]

/-- The pump starts a batch of every job that it does not skip. -/
theorem pump_connection
    (hstep : Governor.step peerId (config.pacing tick) st (.pump now) = some st') (t : T) :
    Quiet peerId config tick t st (.pump now) st' ∨ ∃ now' bucket job',
      Seen peerId config tick t st (.pump now) st' now' bucket job' := by
  have hlimited : (config.pacing tick).limited = true := decide_eq_true hrate
  cases hstep
  have hpumpable : pumpable (config.pacing tick) st = st.replays := if_pos hlimited
  have hjob := jobIn_pump peerId (config.pacing tick) st now t
  rw [hpumpable] at hjob
  cases hold : jobIn peerId st.replays t with
  | none =>
    refine .inl ⟨?_, ?_, .inr ?_⟩
    · rw [selected, hpumpable, hold]
      rfl
    · rw [observed, hpumpable, hold]
      rfl
    · rw [hjob, hold]
      rfl
  | some job =>
    rw [hold, Option.map_some] at hjob
    have hselected : selected peerId config tick t st (.pump now) =
        pumpSelects (config.pacing tick) st.cancelled now job := by
      rw [selected, hpumpable, hold]
      rfl
    cases hskip : skipped st.cancelled job with
    | true =>
      obtain ⟨hselects, hbucket⟩ := pumpJob_skips (config.pacing tick) now hskip
      refine .inl ⟨hselected.trans hselects, ?_, .inr ?_⟩
      · rw [observed, hpumpable, hold, Option.any_some, hskip]
        rfl
      · rw [hjob, hold, Option.map_some, Option.map_some, hbucket]
    | false =>
      refine .inr ⟨now * tick, job.bucket, _, ?_, ?_, hjob, ?_⟩
      · rw [observed, hpumpable, hold, Option.any_some, hskip]
        rfl
      · intro job' hsome
        rw [hold, Option.some.injEq] at hsome
        rw [hsome]
      · intro t₁ t₂ spent largest hstretch hlargest
        rw [hselected] at hlargest ⊢
        rw [pumpSelects, pumpJob_eq, if_neg (by rw [hskip]; decide)] at hlargest ⊢
        exact startBatch_stretch hrate hstretch hlargest

end

/-- The end of a batch leaves the buckets. -/
theorem finish_connection (h : ReplayInv peerId (config.pacing tick) st) {i sent : ℕ}
    (hstep : Governor.step peerId (config.pacing tick) st (.finish i sent) = some st')
    (t : T) : Quiet peerId config tick t st (.finish i sent) st' ∨ ∃ now' bucket job',
      Seen peerId config tick t st (.finish i sent) st' now' bucket job' := by
  refine .inl ⟨rfl, rfl, .inr ?_⟩
  rw [Governor.step] at hstep
  split at hstep
  · cases hstep
  · rename_i s batch hi
    cases hstep
    show (jobIn peerId (finishReplayBatch peerId st s (batch.drop sent)).replays t).map _ = _
    rw [(finishReplayBatch_spec h.replays s (batch.drop sent)).2 t]
    split_ifs with hst
    · rw [hst]
      cases jobIn peerId st.replays s with
      | none => rfl
      | some job =>
        rw [Option.map_some, Option.map_some, Option.map_some, finishJob]
        split_ifs <;> rfl
    · rfl

/-- **One call**, seen from one connection. -/
theorem step_connection (hrate : 0 < config.downloadRate)
    (h : ReplayInv peerId (config.pacing tick) st)
    (hstep : Governor.step peerId (config.pacing tick) st a = some st') (t : T) :
    Quiet peerId config tick t st a st' ∨
      ∃ now bucket job', Seen peerId config tick t st a st' now bucket job' := by
  cases a with
  | enqueueReplay s payloads now => exact enqueueReplay_connection hrate h hstep t
  | enqueueInline s payloads now => exact enqueueInline_connection hrate h hstep t
  | pump now => exact pump_connection hrate hstep t
  | finish i sent => exact finish_connection h hstep t
  | removePeer s =>
    cases hstep
    refine .inl ⟨rfl, rfl, ?_⟩
    by_cases hst : t = s
    · exact .inl (hst ▸ .head _)
    · refine .inr ?_
      show (jobIn peerId (removePeer peerId st s).replays t).map _ = _
      rw [(removePeer_spec h.replays s).2 t, if_neg hst]
  | cancel handle =>
    cases hstep
    exact .inl ⟨rfl, rfl, .inr rfl⟩

/-! ### Runs -/

section Runs

variable {t₁ t₂ spent : ℚ} {largest : ℕ} {actions : List (Action T)}

theorem inRun_cons {β : Type} (f : Governor T Bucket → Action T → List β)
    (hstep : Governor.step peerId (config.pacing tick) st a = some st') :
    inRun peerId config tick f st (a :: actions) =
      f st a ++ inRun peerId config tick f st' actions := by
  rw [inRun, hstep]

theorem removed_step (hstep : Governor.step peerId (config.pacing tick) st a = some st')
    (hremoved : t ∈ st.removed) : t ∈ st'.removed := by
  have henqueue : ∀ s payloads paced now,
      t ∈ (enqueueMode peerId (config.pacing tick) st s payloads paced now).removed := by
    intro s payloads paced now
    cases hne : payloads.isEmpty with
    | true =>
      rw [enqueueMode, if_pos hne]
      exact hremoved
    | false =>
      rw [(enqueueMode_history peerId (config.pacing tick) st s hne paced now).2.1]
      exact hremoved
  cases a with rw [Governor.step] at hstep
  | enqueueReplay s payloads now =>
    split_ifs at hstep
    cases hstep
    exact henqueue s payloads true now
  | enqueueInline s payloads now =>
    split_ifs at hstep
    cases hstep
    exact henqueue s payloads false now
  | pump now =>
    cases hstep
    have hnonempty : ∀ x ∈ pumpBatches (config.pacing tick) st now, x.2.isEmpty = false := by
      intro x hx
      simpa using (List.mem_filter.mp hx).2
    rw [pump, (foldl_handOut _ hnonempty _).2.2.1]
    exact hremoved
  | finish i sent =>
    split at hstep
    · cases hstep
    · cases hstep
      show t ∈ (finishReplayBatch peerId st _ _).removed
      rw [(finishReplayBatch_frame peerId st _ _).2.1]
      exact hremoved
  | removePeer s =>
    cases hstep
    exact List.mem_cons_of_mem s hremoved
  | cancel handle =>
    cases hstep
    exact hremoved

/-- Nothing is selected for a connection that was removed. -/
theorem selected_removed (hrate : 0 < config.downloadRate)
    (h : ReplayInv peerId (config.pacing tick) st) (hremoved : t ∈ st.removed) :
    inRun peerId config tick (selected peerId config tick t) st actions = [] := by
  have hlimited : (config.pacing tick).limited = true := decide_eq_true hrate
  induction actions generalizing st with
  | nil => rfl
  | cons a actions ih =>
    cases hstep : Governor.step peerId (config.pacing tick) st a with
    | none => rw [inRun, hstep]
    | some st' =>
      have hjob : jobIn peerId st.replays t = none := by
        cases hold : jobIn peerId st.replays t with
        | none => rfl
        | some job => exact absurd hremoved ((h.targets t).queued job hold).1
      have hselected : selected peerId config tick t st a = [] := by
        cases a with
        | enqueueReplay | enqueueInline =>
          rw [selected, if_neg]
          rintro ⟨rfl, -⟩
          rw [Governor.step, if_pos hremoved] at hstep
          cases hstep
        | pump now =>
          rw [selected, show pumpable (config.pacing tick) st =
            st.replays from if_pos hlimited, hjob]
          rfl
        | finish | removePeer | cancel => rfl
      rw [inRun_cons _ hstep, hselected, ih (h.step hstep) (removed_step hstep hremoved)]
      rfl

/-- The calls after the first that the bucket of the connection has seen. -/
theorem paced_after (hrate : 0 < config.downloadRate) (ht : t₁ ≤ t₂)
    (h : ReplayInv peerId (config.pacing tick) st) {job : ReplayJob T Bucket}
    (hjob : jobIn peerId st.replays t = some job)
    (hstretch : job.bucket.Stretch config.downloadRate largest t₁ t₂ spent)
    (hlast : ∀ τ ∈ inRun peerId config tick (observed peerId config tick t) st actions, τ ≤ t₂)
    (hlargest : ∀ n ∈ inRun peerId config tick (selected peerId config tick t) st actions,
      n ≤ largest) :
    spent + (inRun peerId config tick (selected peerId config tick t) st actions).sum ≤
      config.downloadRate * burstSeconds + config.downloadRate * (t₂ - t₁) + largest := by
  have hbound := hstretch.spent_le hrate.le (Nat.cast_nonneg largest) ht
  induction actions generalizing st job spent with
  | nil => simpa [inRun] using hbound
  | cons a actions ih =>
    cases hstep : Governor.step peerId (config.pacing tick) st a with
    | none =>
      rw [inRun, hstep]
      simpa using hbound
    | some st' =>
      rw [inRun_cons _ hstep] at hlast hlargest ⊢
      have hlast' := fun τ hτ => hlast τ (List.mem_append_right _ hτ)
      have hlargest' := fun n hn => hlargest n (List.mem_append_right _ hn)
      rcases step_connection hrate h hstep t with hquiet | ⟨now, bucket, job', hseen⟩
      · rw [hquiet.selected, List.nil_append]
        rcases hquiet.bucket with hremoved | hsame
        · rw [selected_removed hrate (h.step hstep) hremoved]
          simpa using hbound
        · rw [hjob, Option.map_some, Option.map_eq_some_iff] at hsame
          obtain ⟨job', hjob', hbucket⟩ := hsame
          rw [← hbucket] at hstretch
          exact ih (h.step hstep) hjob' hstretch hlast' hlargest' hbound
      · have hnow : now ≤ t₂ :=
          hlast now (List.mem_append_left _ (by rw [hseen.observed]; exact .head _))
        rw [hseen.before job hjob] at hstretch
        have hpaid := hseen.pays (hstretch.refill hrate.le (Nat.cast_nonneg largest) hnow)
          fun n hn => hlargest n (List.mem_append_left _ hn)
        have hrest := ih (h.step hstep) hseen.after hpaid hlast' hlargest'
          (hpaid.spent_le hrate.le (Nat.cast_nonneg largest) ht)
        rw [List.sum_append, Nat.cast_add]
        linarith

/-- **What a connection is sent from the cache** between two points of a run, paced. -/
theorem paced_le (hrate : 0 < config.downloadRate) (ht : t₁ ≤ t₂)
    (h : ReplayInv peerId (config.pacing tick) st)
    (hfirst : ∀ τ ∈ (inRun peerId config tick (observed peerId config tick t) st actions).head?,
      t₁ ≤ τ)
    (hlast : ∀ τ ∈ inRun peerId config tick (observed peerId config tick t) st actions, τ ≤ t₂)
    (hlargest : ∀ n ∈ inRun peerId config tick (selected peerId config tick t) st actions,
      n ≤ largest) :
    ((inRun peerId config tick (selected peerId config tick t) st actions).sum : ℚ) ≤
      config.downloadRate * burstSeconds + config.downloadRate * (t₂ - t₁) + largest := by
  have hbound : (0 : ℚ) ≤
      config.downloadRate * burstSeconds + config.downloadRate * (t₂ - t₁) + largest := by
    have hgrow := mul_nonneg hrate.le (sub_nonneg.mpr ht)
    have hburst : 0 ≤ config.downloadRate * burstSeconds :=
      mul_nonneg hrate.le (by norm_num [burstSeconds])
    have hzero : (0 : ℚ) ≤ largest := Nat.cast_nonneg largest
    linarith
  induction actions generalizing st with
  | nil => simpa [inRun] using hbound
  | cons a actions ih =>
    cases hstep : Governor.step peerId (config.pacing tick) st a with
    | none =>
      rw [inRun, hstep]
      simpa using hbound
    | some st' =>
      rw [inRun_cons _ hstep] at hfirst hlast hlargest ⊢
      have hlast' := fun τ hτ => hlast τ (List.mem_append_right _ hτ)
      have hlargest' := fun n hn => hlargest n (List.mem_append_right _ hn)
      rcases step_connection hrate h hstep t with hquiet | ⟨now, bucket, job', hseen⟩
      · rw [hquiet.selected, List.nil_append]
        rw [hquiet.observed, List.nil_append] at hfirst
        exact ih (h.step hstep) hfirst hlast' hlargest'
      · have hnow : t₁ ≤ now := hfirst now (by rw [hseen.observed]; rfl)
        have hpaid := hseen.pays (.start hrate.le hnow ht)
          fun n hn => hlargest n (List.mem_append_left _ hn)
        have hrest := paced_after hrate ht (h.step hstep) hseen.after hpaid hlast' hlargest'
        rw [List.sum_append, Nat.cast_add]
        linarith

end Runs

/-- **The bandwidth of images**, with tokens and times as rationals and at constant positive rates.

Whatever was called before, and in whatever order times are observed: of the messages of a player
that stays, those admitted between two points are within the burst, the rate of the time between
them and the size of one message.  In every run of the replay queue, the paced payloads selected for
one connection between two points are within the burst, the rate of that time and one payload.  The
time between the points goes from the first time that the bucket sees there to the latest.  A stale
time adds no credit and does not set the clock back. -/
theorem image_bandwidth (config : Config)
    (hegress : 0 < config.imageShareEgressMegabitsPerSecond.toInt)
    (hdownload : 0 < config.imageShareDownloadMegabitsPerSecond.toInt) :
    (∀ (g : Egress) (p : PeerId) (calls : List Egress.Call) (t₁ t₂ : ℚ) (largest : ℕ), t₁ ≤ t₂ →
      .removePeer p ∉ calls → (∀ t ∈ (Egress.observed p calls).head?, t₁ ≤ t) →
      (∀ t ∈ Egress.observed p calls, t ≤ t₂) →
      (∀ n ∈ Egress.admitted config p g calls, n ≤ largest) →
      ((Egress.admitted config p g calls).sum : ℚ) ≤
        config.egressRate * burstSeconds + config.egressRate * (t₂ - t₁) + largest) ∧
    (∀ {T : Type} [DecidableEq T] (peerId : T → BitVec 16) (tick : ℚ) (st : Governor T Bucket),
      Reachable (governorSystem peerId (config.pacing tick)) (fun _ _ => True) st →
      ∀ (t : T) (actions : List (Governor.Action T)) (t₁ t₂ : ℚ) (largest : ℕ), t₁ ≤ t₂ →
      (∀ τ ∈ (inRun peerId config tick (observed peerId config tick t) st actions).head?,
        t₁ ≤ τ) →
      (∀ τ ∈ inRun peerId config tick (observed peerId config tick t) st actions, τ ≤ t₂) →
      (∀ n ∈ inRun peerId config tick (selected peerId config tick t) st actions, n ≤ largest) →
      ((inRun peerId config tick (selected peerId config tick t) st actions).sum : ℚ) ≤
        config.downloadRate * burstSeconds + config.downloadRate * (t₂ - t₁) + largest) ∧
    ∀ (b : Bucket) (rate now : ℚ), now ≤ b.lastRefill →
      (b.refill rate now).tokens ≤ b.tokens ∧ (b.refill rate now).lastRefill = b.lastRefill := by
  have hrate : 0 < config.downloadRate := by
    have hmegabits : (0 : ℚ) < config.imageShareDownloadMegabitsPerSecond.toInt := by
      exact_mod_cast hdownload
    rw [Config.downloadRate, megabitsToBytes]
    exact mul_pos hmegabits (by norm_num)
  refine ⟨?_, ?_, ?_⟩
  · intro g p calls t₁ t₂ largest ht hstay hfirst hlast hlargest
    exact Egress.admitted_le hegress ht hstay hfirst hlast hlargest
  · intro T _ peerId tick st hst t actions t₁ t₂ largest ht hfirst hlast hlargest
    exact paced_le hrate ht (replayInv_of_reachable hst) hfirst hlast hlargest
  · intro b rate now hstale
    obtain ⟨htokens, hclock⟩ := Bucket.refill_stale rate hstale
    exact ⟨htokens.trans_le (min_le_left _ _), hclock⟩

/-- One megabit for relaying and for the cache. -/
def oneMegabit : Config := ⟨1, 100, 1⟩

/-- A message that costs more than the burst, one that comes while its debt is repaid, a stale one
and one that passes again. -/
def fanout : List Egress.Call :=
  [.consume 7 500000 0, .consume 7 50 2, .consume 7 50 1, .consume 7 50 3]

theorem image_bandwidth_fanout :
    Egress.admitted oneMegabit 7 ⟨[], 0, 0⟩ fanout = [500000, 50] ∧
      ((Egress.admitted oneMegabit 7 ⟨[], 0, 0⟩ fanout).sum : ℚ) ≤
        oneMegabit.egressRate * burstSeconds + oneMegabit.egressRate * (3 - 0) +
          (500000 : ℕ) :=
  ⟨by decide +kernel, (image_bandwidth oneMegabit (by decide) (by decide)).1 ⟨[], 0, 0⟩ 7 fanout 0 3
    500000 (by norm_num) (by decide +kernel) (by decide +kernel) (by decide +kernel)
    (by decide +kernel)⟩

end ImageBandwidth

end BasisRust.Server
