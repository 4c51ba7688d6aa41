import BasisRust.Library.Run
import Mathlib.Data.List.Count
import Mathlib.Tactic.Common

/-!
# The read gate of a session

Message handlers hold a read lease on their session; the session is torn down by whoever claims its
cleanup, after the gate has closed and the last lease is gone.  The model has any number of tasks
that share one gate.  A step is one section under the gate's lock, one `notify_waiters`, or one
move of a task between two of these.

A task that has left a lock section in which it saw the gate drained is `notifying` until it has
called `notify_waiters`.  A waiter is `enabled` before it looks at the count and `awaiting` after;
`notify_waiters` wakes every waiter that is enabled, whether it has looked already or not.

`claims` and `teardowns` are history: the callers that were given the cleanup and the callers whose
teardown has started.
-/

namespace BasisRust.Transport

open Library

structure SessionReadGateState where
  closed : Bool
  cleanupClaimed : Bool
  readers : ℕ
  deriving DecidableEq

namespace SessionReadGateState

/-- The lock section of `try_acquire`; `false` when the gate is closed. -/
def tryAcquire (gate : SessionReadGateState) : SessionReadGateState × Bool :=
  if gate.closed then (gate, false) else ({ gate with readers := gate.readers + 1 }, true)

/-- The lock section of `close_admission` and whether the gate is drained. -/
def closeAdmission (gate : SessionReadGateState) : SessionReadGateState × Bool :=
  ({ gate with closed := true }, gate.readers = 0)

/-- The lock section of `close_and_claim_cleanup`: `none` for a caller that comes too late, else
whether the gate is drained. -/
def closeAndClaimCleanup (gate : SessionReadGateState) : SessionReadGateState × Option Bool :=
  if gate.cleanupClaimed then ({ gate with closed := true }, none)
  else ({ gate with closed := true, cleanupClaimed := true }, some (gate.readers = 0))

/-- The lock section of a lease's `drop` and whether the gate is drained. -/
def dropLease (gate : SessionReadGateState) : SessionReadGateState × Bool :=
  ({ gate with readers := gate.readers - 1 }, gate.closed && gate.readers - 1 = 0)

end SessionReadGateState

/-- On whose behalf a task works.  The first three are the callers of `close_and_claim_cleanup`:
the handler of `PeerDisconnected`, `request_disconnect` and the rollback of an accept. -/
inductive Caller where
  | peerDisconnected
  | requestDisconnect
  | rollbackAccept
  | other
  deriving DecidableEq

/-- Where a task stands between two sections. -/
inductive Place where
  | idle
  | clearOrderedReorder (caller : Caller)
  -- `request_disconnect` spawns the task that waits
  | spawnCleanup
  | waitForReadLeases (caller : Caller)
  | waitForReaders (caller : Caller)
  | teardown (caller : Caller)
  deriving DecidableEq

inductive GateTask where
  | ready (place : Place)
  | notifying (place : Place)
  | enabled (woken : Bool) (caller : Caller)
  | awaiting (woken : Bool) (caller : Caller)
  deriving DecidableEq

namespace GateTask

/-- What `notify_waiters` does to a task. -/
def wake : GateTask → GateTask
  | enabled _ caller => enabled true caller
  | awaiting _ caller => awaiting true caller
  | task => task

def isNotifying : GateTask → Bool
  | notifying _ => true
  | _ => false

/-- A waiter that nothing has woken. -/
def isBlocked : GateTask → Bool
  | awaiting false _ => true
  | _ => false

end GateTask

namespace Place

/-- The caller that goes on from here to its teardown. -/
def owes : Place → Bool
  | clearOrderedReorder _ => true
  | spawnCleanup => true
  | waitForReadLeases caller => caller ≠ .other
  | waitForReaders caller => caller ≠ .other
  | idle | teardown _ => false

end Place

namespace GateTask

/-- The task has been given the cleanup and has not started the teardown. -/
def owes : GateTask → Bool
  | ready place => place.owes
  | notifying place => place.owes
  | enabled _ caller => caller ≠ .other
  | awaiting _ caller => caller ≠ .other

def tearsDown : GateTask → Bool
  | ready (.teardown _) => true
  | notifying (.teardown _) => true
  | _ => false

end GateTask

structure GateState where
  gate : SessionReadGateState
  leases : List ℕ
  nextLease : ℕ
  tasks : List GateTask
  claims : List Caller
  teardowns : List Caller
  deriving DecidableEq

/-- The operations a task can start while it is outside all of them. -/
inductive GateOp where
  | tryAcquire
  | dropLease (lease : ℕ)
  | closeAdmission
  | closeAndClaimCleanup (caller : Caller)
  | waitForReaders
  | waitForReadLeases
  deriving DecidableEq

inductive GateAction where
  | spawn
  | start (task : ℕ) (op : GateOp)
  | advance (task : ℕ)
  deriving DecidableEq

/-- Where a caller goes once it has been given the cleanup: the handler of `PeerDisconnected`, the
rollback and `disconnect_session` all call `clear_ordered_reorder`. -/
def afterClaim : Caller → Place
  | .other => .idle
  | caller => .clearOrderedReorder caller

/-- `clear_ordered_reorder` closes admission again; `request_disconnect` then spawns its task. -/
def afterReorder : Caller → Place
  | .requestDisconnect => .spawnCleanup
  | caller => .waitForReadLeases caller

/-- What a caller of `wait_for_readers` goes on with. -/
def afterWait : Caller → Place
  | .other => .idle
  | caller => .teardown caller

namespace GateState

def init : GateState :=
  { gate := { closed := false, cleanupClaimed := false, readers := 0 }
    leases := [], nextLease := 0, tasks := [], claims := [], teardowns := [] }

def setTask (s : GateState) (task : ℕ) (t : GateTask) : GateState :=
  { s with tasks := s.tasks.set task t }

/-- A task leaves a lock section: it has to notify when it saw the gate drained. -/
def leave (s : GateState) (task : ℕ) (gate : SessionReadGateState) (drained : Bool)
    (place : Place) : GateState :=
  { s with gate, tasks := s.tasks.set task (if drained then .notifying place else .ready place) }

def closeAdmission (s : GateState) (task : ℕ) (place : Place) : GateState :=
  s.leave task s.gate.closeAdmission.1 s.gate.closeAdmission.2 place

def tryAcquire (s : GateState) : GateState :=
  match s.gate.tryAcquire with
  | (_, false) => s
  | (gate, true) =>
    { s with gate, leases := s.nextLease :: s.leases, nextLease := s.nextLease + 1 }

def closeAndClaimCleanup (s : GateState) (task : ℕ) (caller : Caller) : GateState :=
  match s.gate.closeAndClaimCleanup with
  | (gate, none) => s.leave task gate false .idle
  | (gate, some drained) =>
    { s.leave task gate drained (afterClaim caller) with claims := caller :: s.claims }

/-- The first step of an operation of an idle task. -/
def start (s : GateState) (task : ℕ) : GateOp → Option GateState
  | .tryAcquire => some s.tryAcquire
  | .dropLease lease =>
    if lease ∈ s.leases then
      some { s.leave task s.gate.dropLease.1 s.gate.dropLease.2 .idle with
        leases := s.leases.erase lease }
    else none
  | .closeAdmission => some (s.closeAdmission task .idle)
  | .closeAndClaimCleanup caller => some (s.closeAndClaimCleanup task caller)
  | .waitForReaders => some (s.setTask task (.ready (.waitForReaders .other)))
  | .waitForReadLeases => some (s.setTask task (.ready (.waitForReadLeases .other)))

/-- The look at the reader count in `wait_for_readers`. -/
def look (s : GateState) (task : ℕ) (woken : Bool) (caller : Caller) : GateState :=
  if s.gate.readers = 0 then
    { s.setTask task (.ready (afterWait caller)) with
      teardowns := if caller = .other then s.teardowns else caller :: s.teardowns }
  else s.setTask task (.awaiting woken caller)

def notifyWaiters (s : GateState) (task : ℕ) (place : Place) : GateState :=
  { s with tasks := (s.tasks.map GateTask.wake).set task (.ready place) }

/-- The next step of a task inside an operation. -/
def advance (s : GateState) (task : ℕ) : GateTask → Option GateState
  | .ready .idle => none
  | .ready (.clearOrderedReorder caller) => some (s.closeAdmission task (afterReorder caller))
  | .ready .spawnCleanup =>
    some { s with tasks := s.tasks.set task (.ready .idle) ++
      [.ready (.waitForReadLeases .requestDisconnect)] }
  | .ready (.waitForReadLeases caller) => some (s.closeAdmission task (.waitForReaders caller))
  -- `notified()` and `enable`
  | .ready (.waitForReaders caller) => some (s.setTask task (.enabled false caller))
  | .ready (.teardown _) => some (s.setTask task (.ready .idle))
  | .notifying place => some (s.notifyWaiters task place)
  | .enabled woken caller => some (s.look task woken caller)
  | .awaiting true caller => some (s.setTask task (.ready (.waitForReaders caller)))
  | .awaiting false _ => none

def step (s : GateState) : GateAction → Option GateState
  | .spawn => some { s with tasks := s.tasks ++ [.ready .idle] }
  | .start task op => if s.tasks[task]? = some (.ready .idle) then s.start task op else none
  | .advance task => s.tasks[task]?.bind (s.advance task)

end GateState

def gateSystem : System GateState GateAction where
  init s := s = .init
  step := GateState.step

/-! ### What a step does -/

/-- The steps by their effect.  A task that moves on by itself never takes on a cleanup, and blocks
only while there are readers. -/
inductive GateMove (s : GateState) : GateState → Prop where
  | refused : GateMove s s
  | spawn : GateMove s { s with tasks := s.tasks ++ [.ready .idle] }
  | acquire (hopen : s.gate.closed = false) :
      GateMove s { s with
        gate := { s.gate with readers := s.gate.readers + 1 }
        leases := s.nextLease :: s.leases
        nextLease := s.nextLease + 1 }
  | goOn {task : ℕ} {t t' : GateTask} (ht : s.tasks[task]? = some t)
      (hn : t.isNotifying = false) (howes : t'.owes = true → t.owes = true)
      (htears : t'.tearsDown = false) (hblocked : t'.isBlocked = true → s.gate.readers ≠ 0) :
      GateMove s (s.setTask task t')
  | spawnCleanup {task : ℕ} (ht : s.tasks[task]? = some (.ready .spawnCleanup)) :
      GateMove s { s with tasks := s.tasks.set task (.ready .idle) ++
        [.ready (.waitForReadLeases .requestDisconnect)] }
  | drop {task lease : ℕ} (ht : s.tasks[task]? = some (.ready .idle)) (hl : lease ∈ s.leases) :
      GateMove s { s.leave task s.gate.dropLease.1 s.gate.dropLease.2 .idle with
        leases := s.leases.erase lease }
  | close {task : ℕ} {origin place : Place} (ht : s.tasks[task]? = some (.ready origin))
      (howes : place.owes = true → origin.owes = true) (htears : ∀ c, place ≠ .teardown c) :
      GateMove s (s.closeAdmission task place)
  | late {task : ℕ} (ht : s.tasks[task]? = some (.ready .idle))
      (hclaimed : s.gate.cleanupClaimed = true) :
      GateMove s { s with
        gate := { s.gate with closed := true }
        tasks := s.tasks.set task (.ready .idle) }
  | claim {task : ℕ} (caller : Caller) (ht : s.tasks[task]? = some (.ready .idle))
      (hclaimed : s.gate.cleanupClaimed = false) :
      GateMove s { s.leave task { s.gate with closed := true, cleanupClaimed := true }
        (s.gate.readers = 0) (afterClaim caller) with claims := caller :: s.claims }
  | notify {task : ℕ} {place : Place} (ht : s.tasks[task]? = some (.notifying place)) :
      GateMove s (s.notifyWaiters task place)
  | pass {task : ℕ} {woken : Bool} {caller : Caller}
      (ht : s.tasks[task]? = some (.enabled woken caller)) (hdrained : s.gate.readers = 0) :
      GateMove s { s.setTask task (.ready (afterWait caller)) with
        teardowns := if caller = .other then s.teardowns else caller :: s.teardowns }

variable {s s' : GateState} {a : GateAction} {task : ℕ} {t t' : GateTask}

theorem start_move {op : GateOp} (ht : s.tasks[task]? = some (.ready .idle))
    (h : s.start task op = some s') : GateMove s s' := by
  cases op with
  | tryAcquire =>
    cases h
    unfold GateState.tryAcquire SessionReadGateState.tryAcquire
    by_cases hclosed : s.gate.closed = true
    · rw [if_pos hclosed]
      exact .refused
    · rw [if_neg hclosed]
      exact .acquire (eq_false_of_ne_true hclosed)
  | dropLease lease =>
    simp only [GateState.start] at h
    split at h
    · cases h
      exact .drop ht ‹_›
    · cases h
  | closeAdmission =>
    cases h
    exact .close ht (fun h => h) nofun
  | closeAndClaimCleanup caller =>
    cases h
    unfold GateState.closeAndClaimCleanup SessionReadGateState.closeAndClaimCleanup
    by_cases hclaimed : s.gate.cleanupClaimed = true
    · rw [if_pos hclaimed]
      exact .late ht hclaimed
    · rw [if_neg hclaimed]
      exact .claim caller ht (eq_false_of_ne_true hclaimed)
  | waitForReaders | waitForReadLeases =>
    cases h
    exact .goOn ht rfl (fun h => by simp [GateTask.owes, Place.owes] at h) rfl
      (fun h => by simp [GateTask.isBlocked] at h)

theorem look_move {woken : Bool} {caller : Caller}
    (ht : s.tasks[task]? = some (.enabled woken caller)) :
    GateMove s (s.look task woken caller) := by
  unfold GateState.look
  by_cases hdrained : s.gate.readers = 0
  · rw [if_pos hdrained]
    exact .pass ht hdrained
  · rw [if_neg hdrained]
    exact .goOn ht rfl (fun h => h) rfl (fun _ => hdrained)

theorem advance_move (ht : s.tasks[task]? = some t) (h : s.advance task t = some s') :
    GateMove s s' := by
  cases t with
  | ready place =>
    cases place with
    | idle => cases h
    | clearOrderedReorder caller =>
      cases h
      refine .close ht (fun _ => rfl) ?_
      intro c hc
      cases caller <;> cases hc
    | spawnCleanup =>
      cases h
      exact .spawnCleanup ht
    | waitForReadLeases caller =>
      cases h
      exact .close ht (fun h => h) nofun
    | waitForReaders caller =>
      cases h
      exact .goOn ht rfl (fun h => h) rfl (fun h => by simp [GateTask.isBlocked] at h)
    | teardown caller =>
      cases h
      exact .goOn ht rfl (fun h => by simp [GateTask.owes, Place.owes] at h) rfl
        (fun h => by simp [GateTask.isBlocked] at h)
  | notifying place =>
    cases h
    exact .notify ht
  | enabled woken caller =>
    cases h
    exact look_move ht
  | awaiting woken caller =>
    cases woken with
    | true =>
      cases h
      exact .goOn ht rfl (fun h => h) rfl (fun h => by simp [GateTask.isBlocked] at h)
    | false => cases h

theorem step_move (h : s.step a = some s') : GateMove s s' := by
  cases a with
  | spawn =>
    cases h
    exact .spawn
  | start task op =>
    simp only [GateState.step] at h
    split at h
    · exact start_move ‹_› h
    · cases h
  | advance task =>
    obtain ⟨t, ht, h⟩ := Option.bind_eq_some_iff.mp h
    exact advance_move ht h

/-! ### The reader count -/

structure LeaseCounted (s : GateState) : Prop where
  readers : s.gate.readers = s.leases.length
  nodup : s.leases.Nodup
  issued : ∀ lease ∈ s.leases, lease < s.nextLease

theorem LeaseCounted.move (hc : LeaseCounted s) (hm : GateMove s s') : LeaseCounted s' := by
  cases hm with
  | acquire =>
    refine ⟨?_, ?_, ?_⟩
    · show s.gate.readers + 1 = _
      rw [hc.readers, List.length_cons]
    · apply List.nodup_cons.mpr
      exact ⟨fun hmem => absurd (hc.issued _ hmem) (Nat.lt_irrefl _), hc.nodup⟩
    · intro lease hlease
      show lease < s.nextLease + 1
      rcases List.mem_cons.mp hlease with rfl | hmem
      · exact Nat.lt_succ_self _
      · exact Nat.lt_succ_of_lt (hc.issued _ hmem)
  | @drop task lease ht hl =>
    refine ⟨?_, hc.nodup.erase _, fun l hmem => hc.issued l (List.mem_of_mem_erase hmem)⟩
    show s.gate.readers - 1 = _
    rw [hc.readers, List.length_erase_of_mem hl]
  | _ => exact ⟨hc.readers, hc.nodup, hc.issued⟩

/-- A closed gate stays closed and grants no lease. -/
theorem GateMove.closed (hm : GateMove s s') (hclosed : s.gate.closed = true) :
    s'.gate.closed = true ∧ ∀ lease ∈ s'.leases, lease ∈ s.leases := by
  cases hm with
  | acquire hopen =>
    rw [hopen] at hclosed
    cases hclosed
  | drop ht hl => exact ⟨hclosed, fun l hmem => List.mem_of_mem_erase hmem⟩
  | close | late | claim => exact ⟨rfl, fun _ h => h⟩
  | _ => exact ⟨hclosed, fun _ h => h⟩

/-! ### The cleanup -/

/-- The cleanup is given out once, with the gate closed; the tasks on their way to a teardown and
the teardowns that have started are together no more than the claims. -/
structure Cleaned (s : GateState) : Prop where
  closed : s.gate.cleanupClaimed = true → s.gate.closed = true
  claims : s.claims.length = if s.gate.cleanupClaimed then 1 else 0
  owed : s.tasks.countP GateTask.owes + s.teardowns.length ≤ s.claims.length
  tornDown : ∀ t ∈ s.tasks, t.tearsDown = true → s.gate.closed = true ∧ s.gate.readers = 0

variable {tasks : List GateTask}

/-- One task owes its teardown in the place of another. -/
theorem countP_set_le (ht : tasks[task]? = some t) (howes : t'.owes = true → t.owes = true) :
    (tasks.set task t').countP GateTask.owes ≤ tasks.countP GateTask.owes := by
  obtain ⟨hlt, rfl⟩ := List.getElem?_eq_some_iff.mp ht
  rw [List.countP_set hlt]
  have hpos : tasks[task].owes = true → 0 < tasks.countP GateTask.owes :=
    fun h => List.countP_pos_iff.mpr ⟨_, List.getElem_mem hlt, h⟩
  split <;> split <;> grind

theorem countP_set_add_one (ht : tasks[task]? = some t) (howes : t.owes = true)
    (hdone : t'.owes = false) :
    (tasks.set task t').countP GateTask.owes + 1 = tasks.countP GateTask.owes := by
  obtain ⟨hlt, rfl⟩ := List.getElem?_eq_some_iff.mp ht
  have hpos : 0 < tasks.countP GateTask.owes :=
    List.countP_pos_iff.mpr ⟨_, List.getElem_mem hlt, howes⟩
  rw [List.countP_set hlt, if_pos howes, hdone, if_neg Bool.false_ne_true]
  omega

theorem countP_set_le_add_one (ht : tasks[task]? = some t) :
    (tasks.set task t').countP GateTask.owes ≤ tasks.countP GateTask.owes + 1 := by
  obtain ⟨hlt, rfl⟩ := List.getElem?_eq_some_iff.mp ht
  rw [List.countP_set hlt]
  have hone : (if t'.owes = true then 1 else 0) ≤ 1 := by split <;> omega
  omega

theorem mem_set_cases {x : GateTask} {p : GateTask → Bool} (hx : x ∈ tasks.set task t')
    (hp : p x = true) (ht' : p t' = false) : x ∈ tasks := by
  rcases List.mem_or_eq_of_mem_set hx with hmem | rfl
  · exact hmem
  · rw [ht'] at hp
    cases hp

theorem owes_wake (t : GateTask) : t.wake.owes = t.owes := by
  cases t <;> rfl

theorem tearsDown_wake (t : GateTask) : t.wake.tearsDown = t.tearsDown := by
  cases t <;> rfl

theorem owes_leave (drained : Bool) (place : Place) :
    (if drained then GateTask.notifying place else .ready place).owes = place.owes := by
  cases drained <;> rfl

theorem tearsDown_leave (drained : Bool) {place : Place} (h : ∀ c, place ≠ .teardown c) :
    (if drained then GateTask.notifying place else .ready place).tearsDown = false := by
  cases drained <;> cases place <;> first | rfl | exact absurd rfl (h _)

theorem afterClaim_ne_teardown (caller c : Caller) : afterClaim caller ≠ .teardown c := by
  cases caller <;> exact nofun

/-- Whoever owes a teardown has claimed the cleanup, so the gate is closed. -/
theorem Cleaned.closed_of_owes (hc : Cleaned s) (ht : s.tasks[task]? = some t)
    (howes : t.owes = true) : s.gate.closed = true := by
  have hpos : 0 < s.tasks.countP GateTask.owes :=
    List.countP_pos_iff.mpr ⟨t, List.mem_of_getElem? ht, howes⟩
  have howed := hc.owed
  rw [hc.claims] at howed
  by_cases hclaimed : s.gate.cleanupClaimed = true
  · exact hc.closed hclaimed
  · rw [if_neg hclaimed] at howed
    omega

theorem Cleaned.move (hc : Cleaned s) (hm : GateMove s s') : Cleaned s' := by
  cases hm with
  | refused => exact hc
  | spawn =>
    refine ⟨hc.closed, hc.claims, ?_, ?_⟩
    · show (s.tasks ++ [GateTask.ready .idle]).countP GateTask.owes + _ ≤ _
      rw [List.countP_append]
      exact hc.owed
    · intro t ht htears
      rcases List.mem_append.mp ht with hmem | hmem
      · exact hc.tornDown t hmem htears
      · rw [List.mem_singleton.mp hmem] at htears
        cases htears
  | acquire hopen =>
    refine ⟨hc.closed, hc.claims, hc.owed, ?_⟩
    intro t ht htears
    have hclosed := (hc.tornDown t ht htears).1
    rw [hopen] at hclosed
    cases hclosed
  | goOn ht hn howes htears hblocked =>
    refine ⟨hc.closed, hc.claims, ?_, ?_⟩
    · exact Nat.le_trans (Nat.add_le_add_right (countP_set_le ht howes) _) hc.owed
    · intro x hx hxt
      exact hc.tornDown x (mem_set_cases hx hxt htears) hxt
  | @spawnCleanup task ht =>
    refine ⟨hc.closed, hc.claims, ?_, ?_⟩
    · show (s.tasks.set task (.ready .idle) ++ _).countP GateTask.owes + _ ≤ _
      rw [List.countP_append]
      show (s.tasks.set task (.ready .idle)).countP GateTask.owes + 1 + _ ≤ _
      rw [countP_set_add_one ht rfl rfl]
      exact hc.owed
    · intro x hx hxt
      rcases List.mem_append.mp hx with hmem | hmem
      · exact hc.tornDown x (mem_set_cases hmem hxt rfl) hxt
      · rw [List.mem_singleton.mp hmem] at hxt
        cases hxt
  | drop ht hl =>
    refine ⟨hc.closed, hc.claims, ?_, ?_⟩
    · refine Nat.le_trans (Nat.add_le_add_right (countP_set_le ht ?_) _) hc.owed
      rw [owes_leave]
      exact fun h => h
    · intro x hx hxt
      have hmem := mem_set_cases hx hxt (tearsDown_leave _ nofun)
      obtain ⟨hclosed, hreaders⟩ := hc.tornDown x hmem hxt
      refine ⟨hclosed, ?_⟩
      show s.gate.readers - 1 = 0
      rw [hreaders]
  | close ht howes htears =>
    refine ⟨fun _ => rfl, hc.claims, ?_, ?_⟩
    · refine Nat.le_trans (Nat.add_le_add_right (countP_set_le ht ?_) _) hc.owed
      rw [owes_leave]
      exact howes
    · intro x hx hxt
      exact ⟨rfl, (hc.tornDown x (mem_set_cases hx hxt (tearsDown_leave _ htears)) hxt).2⟩
  | late ht hclaimed =>
    refine ⟨fun _ => rfl, hc.claims, ?_, ?_⟩
    · exact Nat.le_trans (Nat.add_le_add_right (countP_set_le ht (fun h => h)) _) hc.owed
    · intro x hx hxt
      exact ⟨rfl, (hc.tornDown x (mem_set_cases hx hxt rfl) hxt).2⟩
  | @claim task caller ht hclaimed =>
    have hclaims : s.claims.length = 0 := by
      rw [hc.claims, hclaimed]
      rfl
    have howed := hc.owed
    rw [hclaims] at howed
    refine ⟨fun _ => rfl, ?_, ?_, ?_⟩
    · show s.claims.length + 1 = 1
      rw [hclaims]
    · show (s.tasks.set task _).countP GateTask.owes + s.teardowns.length ≤ s.claims.length + 1
      refine Nat.le_trans (Nat.add_le_add_right (countP_set_le_add_one ht) _) ?_
      omega
    · intro x hx hxt
      have hmem := mem_set_cases hx hxt (tearsDown_leave _ (afterClaim_ne_teardown caller))
      exact ⟨rfl, (hc.tornDown x hmem hxt).2⟩
  | @notify task place ht =>
    have hwoken : (s.tasks.map GateTask.wake)[task]? = some (.notifying place) := by
      rw [List.getElem?_map, ht]
      rfl
    refine ⟨hc.closed, hc.claims, ?_, ?_⟩
    · have hset : ((s.tasks.map GateTask.wake).set task (.ready place)).countP GateTask.owes ≤
          (s.tasks.map GateTask.wake).countP GateTask.owes := countP_set_le hwoken (fun h => h)
      have hsame : GateTask.owes ∘ GateTask.wake = GateTask.owes := funext owes_wake
      rw [List.countP_map, hsame] at hset
      exact Nat.le_trans (Nat.add_le_add_right hset _) hc.owed
    · intro x hx hxt
      rcases List.mem_or_eq_of_mem_set hx with hmem | rfl
      · obtain ⟨t, ht, rfl⟩ := List.mem_map.mp hmem
        rw [tearsDown_wake] at hxt
        exact hc.tornDown t ht hxt
      · refine hc.tornDown _ (List.mem_of_getElem? ht) ?_
        cases place <;> first | rfl | exact hxt
  | @pass task woken caller ht hdrained =>
    by_cases hother : caller = .other
    · subst hother
      refine ⟨hc.closed, hc.claims, ?_, ?_⟩
      · have hset : (s.tasks.set task (.ready .idle)).countP GateTask.owes ≤
            s.tasks.countP GateTask.owes := countP_set_le ht (fun h => h)
        exact Nat.le_trans (Nat.add_le_add_right hset _) hc.owed
      · intro x hx hxt
        exact hc.tornDown x (mem_set_cases hx hxt rfl) hxt
    · have howes : (GateTask.enabled woken caller).owes = true := decide_eq_true hother
      have hdone : (GateTask.ready (afterWait caller)).owes = false := by cases caller <;> rfl
      refine ⟨hc.closed, hc.claims, ?_, ?_⟩
      · show _ + (if caller = .other then s.teardowns else caller :: s.teardowns).length ≤ _
        rw [if_neg hother, List.length_cons, Nat.add_comm s.teardowns.length 1, ← Nat.add_assoc]
        show (s.tasks.set task _).countP GateTask.owes + 1 + _ ≤ _
        rw [countP_set_add_one ht howes hdone]
        exact hc.owed
      · intro x hx hxt
        exact ⟨hc.closed_of_owes ht howes, hdrained⟩

/-! ### The waiters -/

/-- When the gate is closed and drained, somebody is about to notify or nobody is blocked. -/
def WaitersWoken (s : GateState) : Prop :=
  s.gate.closed = true → s.gate.readers = 0 →
    (∃ t ∈ s.tasks, t.isNotifying = true) ∨ ∀ t ∈ s.tasks, t.isBlocked = false

/-- A task that left a lock section in which the gate was drained is notifying. -/
theorem WaitersWoken.leave {place : Place} (ht : s.tasks[task]? = some t) :
    ∃ x ∈ s.tasks.set task (.notifying place), x.isNotifying = true := by
  obtain ⟨hlt, -⟩ := List.getElem?_eq_some_iff.mp ht
  exact ⟨.notifying place, List.mem_set hlt _, rfl⟩

theorem exists_notifying_set (ht : s.tasks[task]? = some t) (hn : t.isNotifying = false)
    (h : ∃ x ∈ s.tasks, x.isNotifying = true) :
    ∃ x ∈ s.tasks.set task t', x.isNotifying = true := by
  obtain ⟨x, hx, hxn⟩ := h
  rcases mem_set_or_eq ht hx with hmem | rfl
  · exact ⟨x, hmem, hxn⟩
  · rw [hn] at hxn
    cases hxn

/-- A task that moves without blocking keeps the others as they are. -/
theorem WaitersWoken.set (hq : WaitersWoken s) (ht : s.tasks[task]? = some t)
    (hn : t.isNotifying = false) (hclosed : s.gate.closed = true) (hdrained : s.gate.readers = 0)
    (hb : t'.isBlocked = false) :
    (∃ x ∈ s.tasks.set task t', x.isNotifying = true) ∨
      ∀ x ∈ s.tasks.set task t', x.isBlocked = false := by
  rcases hq hclosed hdrained with hnotify | hnone
  · exact .inl (exists_notifying_set ht hn hnotify)
  · refine .inr ?_
    intro x hx
    rcases List.mem_or_eq_of_mem_set hx with hmem | rfl
    · exact hnone x hmem
    · exact hb

theorem WaitersWoken.append (hb : t.isBlocked = false)
    (h : (∃ x ∈ tasks, x.isNotifying = true) ∨ ∀ x ∈ tasks, x.isBlocked = false) :
    (∃ x ∈ tasks ++ [t], x.isNotifying = true) ∨ ∀ x ∈ tasks ++ [t], x.isBlocked = false := by
  rcases h with ⟨x, hx, hxn⟩ | hnone
  · exact .inl ⟨x, List.mem_append_left _ hx, hxn⟩
  · refine .inr ?_
    intro x hx
    rcases List.mem_append.mp hx with hmem | hmem
    · exact hnone x hmem
    · rw [List.mem_singleton.mp hmem]
      exact hb

theorem isBlocked_wake (t : GateTask) : t.wake.isBlocked = false := by
  cases t <;> rfl

theorem WaitersWoken.move (hcl : Cleaned s) (hq : WaitersWoken s) (hm : GateMove s s') :
    WaitersWoken s' := by
  intro hclosed hdrained
  cases hm with
  | refused => exact hq hclosed hdrained
  | spawn => exact WaitersWoken.append rfl (hq hclosed hdrained)
  | acquire hopen =>
    rw [show s.gate.closed = true from hclosed] at hopen
    cases hopen
  | @goOn task t t' ht hn howes htears hblocked =>
    refine hq.set ht hn hclosed hdrained ?_
    cases hb : t'.isBlocked with
    | false => rfl
    | true => exact absurd hdrained (hblocked hb)
  | spawnCleanup ht => exact WaitersWoken.append rfl (hq.set ht rfl hclosed hdrained rfl)
  | @drop task lease ht hl =>
    have hlast : s.gate.dropLease.2 = true := by
      show (s.gate.closed && decide (s.gate.readers - 1 = 0)) = true
      rw [show s.gate.closed = true from hclosed,
        decide_eq_true (show s.gate.readers - 1 = 0 from hdrained)]
      rfl
    rw [hlast]
    exact .inl (WaitersWoken.leave ht)
  | @close task origin place ht howes htears =>
    have hlast : s.gate.closeAdmission.2 = true := decide_eq_true hdrained
    show (∃ x ∈ (s.leave task _ s.gate.closeAdmission.2 place).tasks, _) ∨ _
    rw [hlast]
    exact .inl (WaitersWoken.leave ht)
  | late ht hclaimed => exact hq.set ht rfl (hcl.closed hclaimed) hdrained rfl
  | claim caller ht hclaimed =>
    rw [decide_eq_true (show s.gate.readers = 0 from hdrained)]
    exact .inl (WaitersWoken.leave ht)
  | notify ht =>
    refine .inr ?_
    intro x hx
    rcases List.mem_or_eq_of_mem_set hx with hmem | rfl
    · obtain ⟨t, -, rfl⟩ := List.mem_map.mp hmem
      exact isBlocked_wake t
    · rfl
  | pass ht hpass => exact hq.set ht rfl hclosed hdrained rfl

/-! ### Every run -/

structure GateInv (s : GateState) : Prop where
  counted : LeaseCounted s
  cleaned : Cleaned s
  quiet : WaitersWoken s

theorem gateInv_init : GateInv .init where
  counted := ⟨rfl, List.nodup_nil, nofun⟩
  cleaned := ⟨nofun, rfl, Nat.le_refl 0, nofun⟩
  quiet := nofun

theorem gateInv_of_reachable (h : Reachable gateSystem (fun _ _ => True) s) : GateInv s := by
  apply Reachable.invariant GateInv ?_ ?_ h
  · intro s hs
    rw [show s = .init from hs]
    exact gateInv_init
  · intro s a s' hinv _ hstep
    have hm : GateMove s s' := step_move hstep
    exact ⟨hinv.counted.move hm, hinv.cleaned.move hm, hinv.quiet.move hinv.cleaned hm⟩

/-- **A session is torn down once and after all its handlers.**  In every interleaving the reader
count is the number of live leases; a closed gate stays closed and grants no lease; at most one
caller is given the cleanup and at most one teardown starts; while a teardown runs, on whichever
path, the gate is closed and no lease is live; and with the gate closed, no reader left and nobody
about to notify, no waiter is blocked. -/
theorem session_teardown_once (h : Reachable gateSystem (fun _ _ => True) s) :
    s.gate.readers = s.leases.length ∧
    (s.gate.closed = true → ∀ a s', s.step a = some s' →
      s'.gate.closed = true ∧ ∀ lease ∈ s'.leases, lease ∈ s.leases) ∧
    s.claims.length ≤ 1 ∧
    s.teardowns.length ≤ 1 ∧
    (∀ caller, GateTask.ready (.teardown caller) ∈ s.tasks →
      s.gate.closed = true ∧ s.leases = []) ∧
    ¬(s.gate.closed = true ∧ s.gate.readers = 0 ∧
      (∀ place, GateTask.notifying place ∉ s.tasks) ∧
      ∃ caller, GateTask.awaiting false caller ∈ s.tasks) := by
  obtain ⟨hcounted, hcleaned, hquiet⟩ := gateInv_of_reachable h
  have hclaims : s.claims.length ≤ 1 := by
    rw [hcleaned.claims]
    split <;> decide
  refine ⟨hcounted.readers, ?_, hclaims, ?_, ?_, ?_⟩
  · intro hclosed a s' hstep
    exact (step_move hstep).closed hclosed
  · exact Nat.le_trans (Nat.le_trans (Nat.le_add_left _ _) hcleaned.owed) hclaims
  · intro caller hmem
    obtain ⟨hclosed, hreaders⟩ := hcleaned.tornDown _ hmem rfl
    rw [hcounted.readers] at hreaders
    exact ⟨hclosed, List.eq_nil_of_length_eq_zero hreaders⟩
  · intro ⟨hclosed, hdrained, hnone, caller, hblocked⟩
    rcases hquiet hclosed hdrained with ⟨t, ht, hn⟩ | hfree
    · cases t with
      | notifying place => exact hnone place ht
      | _ => cases hn
    · cases hfree _ hblocked

/-- A handler holds a lease while `PeerDisconnected` is handled: the teardown blocks, is woken by
the drop of the lease and runs. -/
def handlerOutlivesDisconnect : List GateAction :=
  [.spawn, .spawn, .start 0 .tryAcquire, .start 1 (.closeAndClaimCleanup .peerDisconnected),
    .advance 1, .advance 1, .advance 1, .advance 1, .start 0 .tryAcquire,
    .start 0 (.dropLease 0), .advance 0, .advance 1, .advance 1, .advance 1]

theorem session_teardown_once_woken :
    ∃ s, Reachable gateSystem (fun _ _ => True) s ∧
      (GateTask.ready (.teardown .peerDisconnected) ∈ s.tasks ∧
        s.teardowns = [.peerDisconnected]) ∧
      s.claims.length ≤ 1 := by
  have hrun : (runActions gateSystem .init handlerOutlivesDisconnect).any (fun s =>
      decide (GateTask.ready (.teardown .peerDisconnected) ∈ s.tasks ∧
        s.teardowns = [.peerDisconnected])) = true := by
    decide +kernel
  obtain ⟨s, hs, hP⟩ := exists_reachable_of_free_run (.init rfl) hrun
  exact ⟨s, hs, of_decide_eq_true hP, (session_teardown_once hs).2.2.1⟩

end BasisRust.Transport
