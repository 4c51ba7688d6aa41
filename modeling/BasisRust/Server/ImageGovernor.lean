import BasisRust.Library.AssocList
import BasisRust.Library.Run

/-!
# The image replay queue

Cached images are sent to a connection through its replay job: a queue of payloads, a token bucket
and a flag that is set while a batch of the job is with the transport.  `enqueue_replay` and
`enqueue_inline` append to the queue, `pump` takes one batch out of every job that has none with the
transport, and `finish_replay_batch` puts the payloads the transport refused back to the front.
Each of them runs under the lock of the replay map and is one step; the sends happen outside it, so
the batches that were handed out and not finished are part of the state (`outstanding`).

The bucket counts in floating point.  Nothing here depends on its arithmetic, so it is a parameter
(`Pacing`): a new bucket, the refill, the spending of bytes and the test for credit.  `limited` is
whether the download rate is positive.

A payload is a handle that the image cache may clear at any time; `cancelled` has the cleared ones.
A connection is removed once, by the disconnect that has waited for its read leases, and every
producer holds such a lease while it enqueues: nothing is enqueued for a removed connection.

`enqueued` and `handed` are history: the payloads enqueued for a connection, and those handed out to
it and not returned as rejected.
-/

namespace BasisRust.Server

open Library

/-- The arithmetic of a token bucket at one download rate. -/
structure Pacing (B : Type) where
  /-- The download rate is positive. -/
  limited : Bool
  new : ℕ → B
  refill : B → ℕ → B
  spend : B → ℕ → B
  exhausted : B → Bool

/-- A replay payload: its handle and the number of bytes it was made with. -/
structure ReplayPayload where
  handle : ℕ
  bytes : ℕ
  nonempty : 0 < bytes
  deriving DecidableEq

structure PendingPayload where
  owner : BitVec 16
  payload : ReplayPayload
  deriving DecidableEq

structure QueuedPayload where
  pending : PendingPayload
  bypassPacing : Bool
  deriving DecidableEq

structure ReplayJob (T B : Type) where
  target : T
  payloads : List QueuedPayload
  bucket : B
  inFlight : Bool
  deriving DecidableEq

/-- The governor, the cleared handles, the batches with the transport and the history. -/
structure Governor (T B : Type) where
  replays : List (BitVec 16 × List (ReplayJob T B))
  cancelled : List ℕ
  removed : List T
  outstanding : List (T × List PendingPayload)
  enqueued : T → List PendingPayload
  handed : T → List PendingPayload

namespace Governor

variable {T B : Type} [DecidableEq T] (peerId : T → BitVec 16) (pacing : Pacing B)

def init : Governor T B := ⟨[], [], [], [], fun _ => [], fun _ => []⟩

/-- `ReplayPayload::len`. -/
def payloadLen (cancelled : List ℕ) (p : PendingPayload) : ℕ :=
  if p.payload.handle ∈ cancelled then 0 else p.payload.bytes

/-- The loop that takes a batch from the front of a job's queue. -/
def takeBatch (cancelled : List ℕ) :
    B → List QueuedPayload → List PendingPayload × List QueuedPayload × B
  | bucket, [] => ([], [], bucket)
  | bucket, front :: rest =>
    if pacing.limited && !front.bypassPacing && pacing.exhausted bucket then
      ([], front :: rest, bucket)
    else
      let size := payloadLen cancelled front.pending
      if size = 0 then takeBatch cancelled bucket rest
      else
        let bucket' :=
          if pacing.limited && !front.bypassPacing then pacing.spend bucket size else bucket
        let (batch, queue, bucket'') := takeBatch cancelled bucket' rest
        (front.pending :: batch, queue, bucket'')

/-- Take a batch and mark the job, if there is anything to send. -/
def startBatch (cancelled : List ℕ) (now : ℕ) (job : ReplayJob T B) :
    ReplayJob T B × List PendingPayload :=
  let bucket := if pacing.limited then pacing.refill job.bucket now else job.bucket
  let (batch, queue, bucket') := takeBatch pacing cancelled bucket job.payloads
  ({ job with payloads := queue, bucket := bucket', inFlight := !batch.isEmpty }, batch)

/-- Drop the handles that were cleared. -/
def retainLive (cancelled : List ℕ) (job : ReplayJob T B) : ReplayJob T B :=
  { job with payloads := job.payloads.filter fun q => 0 < payloadLen cancelled q.pending }

/-- The part of `enqueue_mode` on the job of the connection. -/
def enqueueJob (cancelled : List ℕ) (paced : Bool) (payloads : List PendingPayload) (now : ℕ)
    (job : ReplayJob T B) : ReplayJob T B × List PendingPayload :=
  let live := retainLive cancelled job
  let job' :=
    { live with
      payloads := live.payloads ++
        payloads.map fun pending => ⟨pending, !paced || !pacing.limited⟩ }
  if !job'.inFlight && (!paced || !pacing.limited) then startBatch pacing cancelled now job'
  else (job', [])

/-- The part of `pump` on one job. -/
def pumpJob (cancelled : List ℕ) (now : ℕ) (job : ReplayJob T B) :
    ReplayJob T B × List PendingPayload :=
  let live := retainLive cancelled job
  if live.inFlight || live.payloads.isEmpty then (live, [])
  else startBatch pacing cancelled now live

/-- The part of `finish_replay_batch` on the job of the connection. -/
def finishJob (rejected : List PendingPayload) (job : ReplayJob T B) : ReplayJob T B :=
  if job.inFlight then
    { job with
      inFlight := false
      payloads := rejected.map (fun pending => ⟨pending, true⟩) ++ job.payloads }
  else job

/-- Change the first job of a connection. -/
def modifyJob (t : T) (f : ReplayJob T B → ReplayJob T B) :
    List (ReplayJob T B) → List (ReplayJob T B)
  | [] => []
  | job :: jobs => if job.target = t then f job :: jobs else job :: modifyJob t f jobs

def findJob (t : T) (jobs : List (ReplayJob T B)) : Option (ReplayJob T B) :=
  jobs.find? fun job => job.target = t

/-- Give a batch to the caller, who sends it to `t`. -/
def handOut (st : Governor T B) (t : T) (batch : List PendingPayload) : Governor T B :=
  if batch.isEmpty then st
  else
    { st with
      outstanding := st.outstanding ++ [(t, batch)]
      handed := fun s => if s = t then st.handed s ++ batch else st.handed s }

def enqueueMode (st : Governor T B) (t : T) (payloads : List PendingPayload) (paced : Bool)
    (now : ℕ) : Governor T B :=
  if payloads.isEmpty then st
  else
    let jobs := (assocGet (peerId t) st.replays).getD []
    let created : ReplayJob T B := ⟨t, [], pacing.new now, false⟩
    let jobs' := if (findJob t jobs).isSome then jobs else jobs ++ [created]
    let run := enqueueJob pacing st.cancelled paced payloads now
    let changed :=
      { st with
        replays := assocSet (peerId t) (modifyJob t (fun job => (run job).1) jobs') st.replays
        enqueued := fun s => if s = t then st.enqueued s ++ payloads else st.enqueued s }
    changed.handOut t (run ((findJob t jobs).getD created)).2

def finishReplayBatch (st : Governor T B) (t : T) (rejected : List PendingPayload) : Governor T B :=
  match assocGet (peerId t) st.replays with
  | none => st
  | some jobs =>
    { st with
      replays := assocSet (peerId t) (modifyJob t (finishJob rejected) jobs) st.replays }

/-- With no positive rate, `pump` first drops paced payloads and the jobs that have nothing left. -/
def dropUnpaced (replays : List (BitVec 16 × List (ReplayJob T B))) :
    List (BitVec 16 × List (ReplayJob T B)) :=
  let kept := replays.map fun x =>
    (x.1, (x.2.map fun job =>
      if job.inFlight then job
      else { job with payloads := job.payloads.filter fun q => q.bypassPacing }).filter
        fun job => job.inFlight || !job.payloads.isEmpty)
  kept.filter fun x => !x.2.isEmpty

/-- The jobs `pump` takes batches from. -/
def pumpable (st : Governor T B) : List (BitVec 16 × List (ReplayJob T B)) :=
  if pacing.limited then st.replays else dropUnpaced st.replays

/-- The batches a pass of `pump` returns. -/
def pumpBatches (st : Governor T B) (now : ℕ) : List (T × List PendingPayload) :=
  ((pumpable pacing st).flatMap fun x =>
    x.2.map fun job => (job.target, (pumpJob pacing st.cancelled now job).2)).filter
      fun batch => !batch.2.isEmpty

def pump (st : Governor T B) (now : ℕ) : Governor T B :=
  (pumpBatches pacing st now).foldl (fun s batch => s.handOut batch.1 batch.2)
    { st with
      replays := (pumpable pacing st).map fun x =>
        (x.1, x.2.map fun job => (pumpJob pacing st.cancelled now job).1) }

def removePeer (st : Governor T B) (t : T) : Governor T B :=
  match assocGet (peerId t) st.replays with
  | none => st
  | some jobs =>
    let kept := jobs.filter fun job => job.target ≠ t
    { st with
      replays :=
        if kept.isEmpty then assocErase (peerId t) st.replays
        else assocSet (peerId t) kept st.replays }

inductive Action (T : Type) where
  | enqueueReplay (t : T) (payloads : List PendingPayload) (now : ℕ)
  | enqueueInline (t : T) (payloads : List PendingPayload) (now : ℕ)
  | pump (now : ℕ)
  /-- The caller of the `i`th outstanding batch reports that all but the first `sent` payloads were
  refused. -/
  | finish (i : ℕ) (sent : ℕ)
  | removePeer (t : T)
  /-- The image cache clears a handle. -/
  | cancel (handle : ℕ)

def step (st : Governor T B) : Action T → Option (Governor T B)
  | .enqueueReplay t payloads now =>
    if t ∈ st.removed then none else some (enqueueMode peerId pacing st t payloads true now)
  | .enqueueInline t payloads now =>
    if t ∈ st.removed then none else some (enqueueMode peerId pacing st t payloads false now)
  | .pump now => some (pump pacing st now)
  | .finish i sent =>
    match st.outstanding[i]? with
    | none => none
    | some (t, batch) =>
      some { finishReplayBatch peerId st t (batch.drop sent) with
        outstanding := st.outstanding.eraseIdx i
        handed := fun s =>
          if s = t then (st.handed s).take ((st.handed s).length - (batch.drop sent).length)
          else st.handed s }
  | .removePeer t => some { removePeer peerId st t with removed := t :: st.removed }
  | .cancel handle => some { st with cancelled := handle :: st.cancelled }

end Governor

/-- The replay queue of a server whose connections have the peer ids `peerId`. -/
def governorSystem {T B : Type} [DecidableEq T] (peerId : T → BitVec 16) (pacing : Pacing B) :
    System (Governor T B) (Governor.Action T) where
  init := fun st => st = .init
  step := Governor.step peerId pacing

end BasisRust.Server
