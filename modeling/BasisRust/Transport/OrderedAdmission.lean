import BasisRust.Library.Bytes
import BasisRust.Library.Ledger
import BasisRust.Library.Run
import Mathlib.Data.List.Perm.Basic

/-!
# Admission permits of the ordered dispatch

An ordered message is handed over together with a permit.  A permit is counted three times on a
regular channel (the lane of the peer, the peer, the total) and twice on the critical channel (the
peer's critical work, the critical total); each counter has its own limit.  The counters are taken
one after another, and given back when a later one is at its limit; dropping a permit gives them
back one after another, too.

`reserve` is one call by itself, as the source has it.  `admissionSystem` interleaves any number of
calls and drops, for any number of peers and channels, at every access to a counter.
`AdmissionCounter` names the counters; `asserted` is history: whether the debug assertion of
`decrement_admission_counter` has held so far.
-/

namespace BasisRust.Transport

open Library

variable {P : Type} [DecidableEq P]

/-! ### Counters and limits -/

structure OrderedAdmissionConfig where
  regularCapacity : ℕ
  criticalCapacity : ℕ
  perLane : ℕ
  perPeer : ℕ
  criticalPerLane : ℕ
  criticalPerPeer : ℕ
  criticalChannel : Byte
  deriving DecidableEq

inductive AdmissionCounter (P : Type) where
  | regularTotal
  | criticalTotal
  | regular (peer : P)
  | critical (peer : P)
  | regularLane (peer : P) (channel : Byte)
  deriving DecidableEq

def limitOf (limits : OrderedAdmissionConfig) : AdmissionCounter P → ℕ
  | .regularTotal => limits.regularCapacity
  | .criticalTotal => limits.criticalCapacity
  | .regular _ => limits.perPeer
  | .critical _ => min limits.criticalPerPeer limits.criticalPerLane
  | .regularLane _ _ => limits.perLane

abbrev AdmissionCounts (P : Type) := AdmissionCounter P → ℕ

structure OrderedAdmissionPermit (P : Type) where
  peer : P
  channel : Byte
  critical : Bool
  deriving DecidableEq

/-- The counters of a permit, in the order in which they are taken and given back. -/
def OrderedAdmissionPermit.counters (permit : OrderedAdmissionPermit P) :
    List (AdmissionCounter P) :=
  if permit.critical then [.critical permit.peer, .criticalTotal]
  else [.regularLane permit.peer permit.channel, .regular permit.peer, .regularTotal]

/-- The counters are those that the permit is counted in. -/
def OrderedAdmissionPermit.countedIn (permit : OrderedAdmissionPermit P) : AdmissionCounter P → Bool
  | .regularTotal => !permit.critical
  | .criticalTotal => permit.critical
  | .regular peer => !permit.critical && decide (permit.peer = peer)
  | .critical peer => permit.critical && decide (permit.peer = peer)
  | .regularLane peer channel =>
    !permit.critical && (decide (permit.peer = peer) && decide (permit.channel = channel))

/-! ### One call by itself -/

/-- Take one more on a counter, unless it is at its limit. -/
def tryIncrement (limits : OrderedAdmissionConfig) (counts : AdmissionCounts P)
    (counter : AdmissionCounter P) : Option (AdmissionCounts P) :=
  if counts counter ≥ limitOf limits counter then none
  else some (Function.update counts counter (counts counter + 1))

def decrement (counts : AdmissionCounts P) (counter : AdmissionCounter P) : AdmissionCounts P :=
  Function.update counts counter (counts counter - 1)

/-- Reserve a permit for a peer and a channel. -/
def reserve (limits : OrderedAdmissionConfig) (counts : AdmissionCounts P) (peer : P)
    (channel : Byte) : Option (OrderedAdmissionPermit P) × AdmissionCounts P :=
  let critical := decide (channel = limits.criticalChannel)
  if critical then
    match tryIncrement limits counts (.critical peer) with
    | none => (none, counts)
    | some counts =>
      match tryIncrement limits counts .criticalTotal with
      | none => (none, decrement counts (.critical peer))
      | some counts => (some ⟨peer, channel, critical⟩, counts)
  else
    match tryIncrement limits counts (.regularLane peer channel) with
    | none => (none, counts)
    | some counts =>
      match tryIncrement limits counts (.regular peer) with
      | none => (none, decrement counts (.regularLane peer channel))
      | some counts =>
        match tryIncrement limits counts .regularTotal with
        | none => (none, decrement (decrement counts (.regular peer)) (.regularLane peer channel))
        | some counts => (some ⟨peer, channel, critical⟩, counts)

/-! ### Calls and drops that overlap -/

/-- A call under way: a reservation with the counters it has taken (the latest first) and those to
come, or the giving back of counters. -/
inductive AdmissionTask (P : Type) where
  | reserving (permit : OrderedAdmissionPermit P) (taken rest : List (AdmissionCounter P))
  | releasing (permit : OrderedAdmissionPermit P) (rest : List (AdmissionCounter P))

structure OrderedAdmission (P : Type) where
  counts : AdmissionCounts P
  permits : List (OrderedAdmissionPermit P)
  tasks : List (AdmissionTask P)
  asserted : Bool

def OrderedAdmission.init : OrderedAdmission P := ⟨fun _ => 0, [], [], true⟩

inductive AdmissionAction (P : Type) where
  | reserve (peer : P) (channel : Byte)
  | drop (i : ℕ)
  | advance (i : ℕ)

/-- One access to a counter by task `i`, or its end. -/
def advanceTask (limits : OrderedAdmissionConfig) (s : OrderedAdmission P) (i : ℕ) :
    AdmissionTask P → OrderedAdmission P
  | .reserving permit _ [] =>
    { s with permits := permit :: s.permits, tasks := s.tasks.eraseIdx i }
  | .reserving permit taken (counter :: rest) =>
    match tryIncrement limits s.counts counter with
    | some counts =>
      { s with counts := counts, tasks :=
        s.tasks.set i (.reserving permit (counter :: taken) rest) }
    | none => { s with tasks := s.tasks.set i (.releasing permit taken) }
  | .releasing _ [] => { s with tasks := s.tasks.eraseIdx i }
  | .releasing permit (counter :: rest) =>
    { s with
      counts := decrement s.counts counter
      asserted := s.asserted && decide (0 < s.counts counter)
      tasks := s.tasks.set i (.releasing permit rest) }

def admissionStep (limits : OrderedAdmissionConfig) (s : OrderedAdmission P) :
    AdmissionAction P → Option (OrderedAdmission P)
  | .reserve peer channel =>
    let permit : OrderedAdmissionPermit P :=
      ⟨peer, channel, decide (channel = limits.criticalChannel)⟩
    some { s with tasks := .reserving permit [] permit.counters :: s.tasks }
  | .drop i => (s.permits[i]?).map fun permit =>
      { s with
        permits := s.permits.eraseIdx i
        tasks := .releasing permit permit.counters :: s.tasks }
  | .advance i => (s.tasks[i]?).map (advanceTask limits s i)

/-- The admission counters of a server under any number of overlapping calls and drops. -/
def admissionSystem (P : Type) [DecidableEq P] (limits : OrderedAdmissionConfig) :
    System (OrderedAdmission P) (AdmissionAction P) where
  init := fun s => s = .init
  step := admissionStep limits

/-! ### What is held -/

/-- The counters a call under way holds. -/
def AdmissionTask.held : AdmissionTask P → List (AdmissionCounter P)
  | .reserving _ taken _ => taken
  | .releasing _ rest => rest

def AdmissionTask.permit : AdmissionTask P → OrderedAdmissionPermit P
  | .reserving permit _ _ => permit
  | .releasing permit _ => permit

/-- Everything that is held, by permits and by calls under way. -/
def OrderedAdmission.held (s : OrderedAdmission P) : Multiset (List (AdmissionCounter P)) :=
  ((s.permits.map fun permit => permit.counters) : Multiset (List (AdmissionCounter P))) +
    (s.tasks.map fun task => task.held : List (List (AdmissionCounter P)))

/-- A list of held counters charges each counter with its occurrences. -/
def chargeOf (held : List (AdmissionCounter P)) (counter : AdmissionCounter P) : ℕ :=
  held.count counter

/-! ### One access -/

section Counters

variable {limits : OrderedAdmissionConfig} {counts counts' : AdmissionCounts P}
  {counter k : AdmissionCounter P}

theorem tryIncrement_eq_some (h : tryIncrement limits counts counter = some counts') :
    counts counter < limitOf limits counter ∧
      counts' = Function.update counts counter (counts counter + 1) := by
  rw [tryIncrement] at h
  split_ifs at h with hfull
  cases h
  exact ⟨Nat.lt_of_not_le hfull, rfl⟩

/-- Giving back what was just taken. -/
@[simp] theorem decrement_increment (counts : AdmissionCounts P) (counter : AdmissionCounter P) :
    decrement (Function.update counts counter (counts counter + 1)) counter = counts := by
  funext k
  rw [decrement, Function.update_self, Nat.add_sub_cancel]
  by_cases hk : k = counter
  · rw [hk, Function.update_self]
  · rw [Function.update_of_ne hk, Function.update_of_ne hk]

theorem chargeOf_cons (held : List (AdmissionCounter P)) :
    chargeOf (counter :: held) k = chargeOf held k + if k = counter then 1 else 0 := by
  rw [chargeOf, chargeOf, List.count_cons]
  by_cases hk : k = counter
  · simp [hk]
  · have hne : (counter == k) = false := by
      rw [beq_eq_false_iff_ne]
      exact Ne.symm hk
    simp [hk, hne]

theorem update_succ_apply :
    Function.update counts counter (counts counter + 1) k =
      counts k + if k = counter then 1 else 0 := by
  by_cases hk : k = counter
  · rw [hk, Function.update_self, if_pos rfl]
  · rw [Function.update_of_ne hk, if_neg hk, Nat.add_zero]

theorem decrement_apply : decrement counts counter k = counts k - if k = counter then 1 else 0 := by
  rw [decrement]
  by_cases hk : k = counter
  · rw [hk, Function.update_self, if_pos rfl]
  · rw [Function.update_of_ne hk, if_neg hk, Nat.sub_zero]

end Counters

namespace OrderedAdmissionPermit

variable {permit : OrderedAdmissionPermit P} {k : AdmissionCounter P}

omit [DecidableEq P] in
theorem counters_nodup (permit : OrderedAdmissionPermit P) : permit.counters.Nodup := by
  rw [counters]
  split_ifs <;> simp

theorem mem_counters : k ∈ permit.counters ↔ permit.countedIn k = true := by
  obtain ⟨peer, channel, critical⟩ := permit
  cases critical <;> cases k <;> simp [counters, countedIn, @eq_comm P, @eq_comm Byte]

end OrderedAdmissionPermit

/-! ### The invariant -/

/-- A call under way holds counters of its own permit, none twice. -/
structure TaskSound (limits : OrderedAdmissionConfig) (task : AdmissionTask P) : Prop where
  critical : task.permit.critical = decide (task.permit.channel = limits.criticalChannel)
  held : task.held.Subperm task.permit.counters
  order : ∀ permit taken rest, task = .reserving permit taken rest →
    taken.reverse ++ rest = permit.counters

structure AdmissionSound (limits : OrderedAdmissionConfig) (s : OrderedAdmission P) : Prop where
  balanced : Balanced chargeOf s.counts s.held
  bounded : ∀ k, s.counts k ≤ limitOf limits k
  asserted : s.asserted = true
  permits : ∀ permit ∈ s.permits,
    permit.critical = decide (permit.channel = limits.criticalChannel)
  tasks : ∀ task ∈ s.tasks, TaskSound limits task

namespace AdmissionSound

variable {limits : OrderedAdmissionConfig} {s s' : OrderedAdmission P} {i : ℕ}
  {task : AdmissionTask P}

theorem init (limits : OrderedAdmissionConfig) :
    AdmissionSound limits (.init : OrderedAdmission P) where
  balanced := .empty _
  bounded := fun _ => Nat.zero_le _
  asserted := rfl
  permits := nofun
  tasks := nofun

/-- What everybody but task `i` holds. -/
def others (s : OrderedAdmission P) (i : ℕ) : Multiset (List (AdmissionCounter P)) :=
  ((s.permits.map fun permit => permit.counters) : Multiset (List (AdmissionCounter P))) +
    ((s.tasks.eraseIdx i).map fun task => task.held : List (List (AdmissionCounter P)))

omit [DecidableEq P] in
theorem held_eq (ht : s.tasks[i]? = some task) : s.held = task.held ::ₘ others s i := by
  rw [OrderedAdmission.held, coe_map_of_getElem? _ ht, Multiset.add_cons]
  rfl

/-- Task `i` goes on as `task'`. -/
theorem replace (h : AdmissionSound limits s) (task' : AdmissionTask P)
    (counts' : AdmissionCounts P) (ht : s.tasks[i]? = some task) (hsound : TaskSound limits task')
    (hc : ∀ k, counts' k + chargeOf task.held k = s.counts k + chargeOf task'.held k)
    (hb : ∀ k, counts' k ≤ limitOf limits k) :
    AdmissionSound limits { s with counts := counts', tasks := s.tasks.set i task' } where
  balanced := by
    have hold := h.balanced
    rw [held_eq ht] at hold
    have hnew : OrderedAdmission.held { s with counts := counts', tasks := s.tasks.set i task' } =
        task'.held ::ₘ others s i := by
      rw [OrderedAdmission.held, coe_map_set _ ht, Multiset.add_cons]
      rfl
    rw [hnew]
    exact hold.exchange hc
  bounded := hb
  __ := h
  tasks := by
    intro t hmem
    rcases List.mem_or_eq_of_mem_set hmem with hmem | heq
    · exact h.tasks t hmem
    · rw [heq]
      exact hsound

/-- **One access of a call** keeps the invariant. -/
theorem advance (h : AdmissionSound limits s) (ht : s.tasks[i]? = some task) :
    AdmissionSound limits (advanceTask limits s i task) := by
  have hmem := List.mem_of_getElem? ht
  obtain ⟨hcritical, hheld, horder⟩ := h.tasks task hmem
  have hrest : ∀ t ∈ s.tasks.eraseIdx i, TaskSound limits t :=
    fun t hmem => h.tasks t (List.mem_of_mem_eraseIdx hmem)
  cases task with
  | reserving permit taken rest =>
    have hsplit := horder permit taken rest rfl
    cases rest with
    | nil =>
      -- the permit takes over what the call holds
      refine ⟨?_, h.bounded, h.asserted, ?_, hrest⟩
      · have hold := h.balanced
        rw [held_eq ht] at hold
        show Balanced chargeOf s.counts (permit.counters ::ₘ others s i)
        apply hold.exchange
        intro k
        show s.counts k + chargeOf taken k = s.counts k + chargeOf permit.counters k
        rw [← hsplit, List.append_nil, chargeOf, chargeOf, List.count_reverse]
      · intro p hp
        rcases List.mem_cons.mp hp with heq | hp
        · rw [heq]
          exact hcritical
        · exact h.permits p hp
    | cons counter rest =>
      rw [advanceTask]
      cases htry : tryIncrement limits s.counts counter with
      | none =>
        exact h.replace (.releasing permit taken) s.counts ht ⟨hcritical, hheld, nofun⟩
          (fun k => rfl) h.bounded
      | some counts =>
        obtain ⟨hlt, rfl⟩ := tryIncrement_eq_some htry
        refine h.replace (.reserving permit (counter :: taken) rest) _ ht ⟨hcritical, ?_, ?_⟩ ?_ ?_
        · show (counter :: taken).Subperm permit.counters
          have hperm : (counter :: taken).Perm (taken.reverse ++ [counter]) :=
            (List.reverse_perm (counter :: taken)).symm.trans (by rw [List.reverse_cons])
          have hsub : (taken.reverse ++ [counter]).Sublist (taken.reverse ++ counter :: rest) :=
            (List.singleton_sublist.mpr (.head _)).append_left _
          rw [← hsplit]
          exact hperm.subperm.trans hsub.subperm
        · intro p t r heq
          cases heq
          rw [List.reverse_cons, List.append_assoc]
          exact hsplit
        · intro k
          rw [update_succ_apply]
          show _ = s.counts k + chargeOf (counter :: taken) k
          rw [chargeOf_cons]
          show _ + chargeOf taken k = _
          omega
        · intro k
          rw [update_succ_apply]
          split_ifs with hk
          · rw [hk]
            exact hlt
          · exact h.bounded k
  | releasing permit rest =>
    cases rest with
    | nil =>
      refine ⟨?_, h.bounded, h.asserted, h.permits, hrest⟩
      have hold := h.balanced
      rw [held_eq ht] at hold
      exact hold.remove fun k => rfl
    | cons counter rest =>
      have hpos : chargeOf (counter :: rest) counter ≤ s.counts counter := by
        apply h.balanced.charge_le
        rw [held_eq ht]
        exact Multiset.mem_cons_self _ _
      rw [chargeOf_cons, if_pos rfl] at hpos
      have hnext := h.replace (.releasing permit rest) (decrement s.counts counter) ht
        ⟨hcritical, ?_, nofun⟩ ?_ ?_
      · refine { hnext with asserted := ?_ }
        show (s.asserted && decide (0 < s.counts counter)) = true
        rw [h.asserted, Bool.true_and, decide_eq_true_eq]
        omega
      · exact (List.sublist_cons_self counter rest).subperm.trans hheld
      · intro k
        show _ + chargeOf (counter :: rest) k = _ + chargeOf rest k
        rw [decrement_apply, chargeOf_cons]
        split_ifs with hk
        · rw [hk]
          omega
        · omega
      · intro k
        rw [decrement_apply]
        exact (Nat.sub_le _ _).trans (h.bounded k)

omit [DecidableEq P] in
theorem held_cons (counts : AdmissionCounts P) (permits : List (OrderedAdmissionPermit P))
    (tasks : List (AdmissionTask P)) (asserted : Bool) :
    OrderedAdmission.held ⟨counts, permits, task :: tasks, asserted⟩ =
      task.held ::ₘ OrderedAdmission.held ⟨counts, permits, tasks, asserted⟩ := by
  rw [OrderedAdmission.held, List.map_cons, ← Multiset.cons_coe, Multiset.add_cons]
  rfl

/-- **Every step keeps the invariant.** -/
theorem step {a : AdmissionAction P} (h : AdmissionSound limits s)
    (hstep : admissionStep limits s a = some s') : AdmissionSound limits s' := by
  cases a with
  | reserve peer channel =>
    cases hstep
    refine ⟨?_, h.bounded, h.asserted, h.permits, ?_⟩
    · rw [held_cons]
      exact h.balanced.add fun k => rfl
    · intro t hmem
      rcases List.mem_cons.mp hmem with heq | hmem
      · rw [heq]
        refine ⟨rfl, List.nil_subperm, ?_⟩
        intro permit taken rest heq
        cases heq
        rfl
      · exact h.tasks t hmem
  | drop i =>
    obtain ⟨permit, hp, rfl⟩ := Option.map_eq_some_iff.mp hstep
    refine ⟨?_, h.bounded, h.asserted, ?_, ?_⟩
    · -- the call takes over what the permit holds
      have hold := h.balanced
      rw [OrderedAdmission.held, coe_map_of_getElem? _ hp, Multiset.cons_add] at hold
      rw [held_cons]
      exact hold
    · exact fun p hmem => h.permits p (List.mem_of_mem_eraseIdx hmem)
    · intro t hmem
      rcases List.mem_cons.mp hmem with heq | hmem
      · rw [heq]
        exact ⟨h.permits permit (List.mem_of_getElem? hp), List.Subperm.refl _, nofun⟩
      · exact h.tasks t hmem
  | advance i =>
    obtain ⟨task, ht, rfl⟩ := Option.map_eq_some_iff.mp hstep
    exact h.advance ht

/-- **What a counter counts**: the live permits counted in it, and the calls under way that hold
it. -/
theorem counts_eq (h : AdmissionSound limits s) (k : AdmissionCounter P) :
    s.counts k = (s.permits.countP fun permit => permit.countedIn k) +
      s.tasks.countP fun task => decide (k ∈ task.held) := by
  have hsum := h.balanced k
  rw [OrderedAdmission.held, Multiset.map_add, Multiset.sum_add, Multiset.map_coe,
    Multiset.map_coe, Multiset.sum_coe, Multiset.sum_coe, List.map_map, List.map_map] at hsum
  rw [hsum, sum_map_eq_countP _ (fun permit => permit.countedIn k),
    sum_map_eq_countP _ (fun task => decide (k ∈ task.held))]
  · intro task ht
    have hnodup : task.held.Nodup := by
      obtain ⟨l, hl, hsub⟩ := (h.tasks task ht).held
      exact hl.nodup_iff.mp (hsub.nodup (OrderedAdmissionPermit.counters_nodup _))
    show task.held.count k = _
    rw [hnodup.count]
    simp
  · intro permit _
    show permit.counters.count k = _
    rw [(OrderedAdmissionPermit.counters_nodup permit).count]
    simp only [OrderedAdmissionPermit.mem_counters]

end AdmissionSound

/-- **The invariant holds in every reachable state.** -/
theorem admissionSound_of_reachable {limits : OrderedAdmissionConfig}
    {ok : OrderedAdmission P → AdmissionAction P → Prop} {s : OrderedAdmission P}
    (h : Reachable (admissionSystem P limits) ok s) : AdmissionSound limits s := by
  refine h.invariant (AdmissionSound limits) ?_ ?_
  · intro s hs
    rw [show s = .init from hs]
    exact .init limits
  · intro s a s' hinv _ hstep
    exact hinv.step hstep

/-! ### One call from start to end -/

/-- Take counters one after another, and give back what was taken when one is at its limit. -/
def takeAll (limits : OrderedAdmissionConfig) (counts : AdmissionCounts P)
    (taken : List (AdmissionCounter P)) : List (AdmissionCounter P) → Bool × AdmissionCounts P
  | [] => (true, counts)
  | counter :: rest =>
    match tryIncrement limits counts counter with
    | none => (false, taken.foldl decrement counts)
    | some counts => takeAll limits counts (counter :: taken) rest

section Calls

variable {limits : OrderedAdmissionConfig} {counts : AdmissionCounts P} {peer : P} {channel : Byte}

/-- A call takes the counters of its permit. -/
theorem reserve_eq (limits : OrderedAdmissionConfig) (counts : AdmissionCounts P) (peer : P)
    (channel : Byte) :
    let permit : OrderedAdmissionPermit P :=
      ⟨peer, channel, decide (channel = limits.criticalChannel)⟩
    let r := takeAll limits counts [] permit.counters
    reserve limits counts peer channel = (if r.1 then some permit else none, r.2) := by
  by_cases hcritical : channel = limits.criticalChannel
  · simp only [reserve, OrderedAdmissionPermit.counters, hcritical, decide_true, if_true, takeAll]
    cases hpeer : tryIncrement limits counts (.critical peer) with
    | none => simp
    | some counts₁ =>
      cases htotal : tryIncrement limits counts₁ .criticalTotal with
      | none | some => simp [htotal]
  · simp only [reserve, OrderedAdmissionPermit.counters, hcritical, decide_false,
      Bool.false_eq_true, if_false, takeAll]
    cases hlane : tryIncrement limits counts (.regularLane peer channel) with
    | none => simp
    | some counts₁ =>
      cases hpeer : tryIncrement limits counts₁ (.regular peer) with
      | none => simp [hpeer]
      | some counts₂ =>
        cases htotal : tryIncrement limits counts₂ .regularTotal with
        | none | some => simp [hpeer, htotal]

theorem takeAll_refused {taken rest : List (AdmissionCounter P)}
    (h : (takeAll limits counts taken rest).1 = false) :
    (takeAll limits counts taken rest).2 = taken.foldl decrement counts := by
  induction rest generalizing counts taken with
  | nil => cases h
  | cons counter rest ih =>
    rw [takeAll] at h ⊢
    cases htry : tryIncrement limits counts counter with
    | none => rfl
    | some counts₁ =>
      rw [htry] at h
      obtain ⟨-, rfl⟩ := tryIncrement_eq_some htry
      dsimp only
      rw [ih h, List.foldl_cons, decrement_increment]

/-- **A refused call leaves every counter as it was.** -/
theorem reserve_refused (h : (reserve limits counts peer channel).1 = none) :
    (reserve limits counts peer channel).2 = counts := by
  have heq := reserve_eq limits counts peer channel
  dsimp only at heq
  rw [heq] at h ⊢
  split_ifs at h with htaken
  exact takeAll_refused (Bool.eq_false_iff.mpr htaken)

/-- A critical call is granted exactly while the two critical counters are below their limits. -/
theorem reserve_critical_isSome :
    (reserve limits counts peer limits.criticalChannel).1.isSome = true ↔
      counts (.critical peer) < min limits.criticalPerPeer limits.criticalPerLane ∧
        counts .criticalTotal < limits.criticalCapacity := by
  have hother : ∀ n, Function.update counts (.critical peer) n .criticalTotal =
      counts .criticalTotal := fun n => Function.update_of_ne (by simp) _ _
  have hlimit : limitOf limits (.critical peer) =
      min limits.criticalPerPeer limits.criticalPerLane := rfl
  have htotal : limitOf (P := P) limits .criticalTotal = limits.criticalCapacity := rfl
  simp only [reserve, decide_true, if_true]
  cases hpeer : tryIncrement limits counts (.critical peer) with
  | none =>
    rw [tryIncrement, ite_eq_left_iff] at hpeer
    by_cases hfull : counts (.critical peer) ≥ limitOf limits (.critical peer)
    · simp only [Option.isSome_none, Bool.false_eq_true, false_iff]
      omega
    · cases hpeer hfull
  | some counts₁ =>
    obtain ⟨hlt, rfl⟩ := tryIncrement_eq_some hpeer
    by_cases hfull : counts .criticalTotal ≥ limits.criticalCapacity
    · have hnone : tryIncrement limits (Function.update counts (.critical peer)
          (counts (.critical peer) + 1)) .criticalTotal = none := by
        rw [tryIncrement, hother, htotal, if_pos hfull]
      simp only [hnone, Option.isSome_none, Bool.false_eq_true, false_iff]
      omega
    · obtain ⟨counts₂, hsome⟩ : ∃ counts₂, tryIncrement limits (Function.update counts
          (.critical peer) (counts (.critical peer) + 1)) .criticalTotal = some counts₂ := by
        rw [tryIncrement, hother, htotal, if_neg hfull]
        exact ⟨_, rfl⟩
      simp only [hsome, Option.isSome_some, true_iff]
      omega

end Calls

/-! ### The result -/

/-- A call on a regular channel never touches the critical counters. -/
theorem AdmissionSound.regular_keeps {limits : OrderedAdmissionConfig} {s : OrderedAdmission P}
    {i : ℕ} {task : AdmissionTask P} (h : AdmissionSound limits s) (ht : s.tasks[i]? = some task)
    (hregular : task.permit.critical = false) {k : AdmissionCounter P}
    (hk : k = .criticalTotal ∨ ∃ peer, k = .critical peer) :
    (advanceTask limits s i task).counts k = s.counts k := by
  have hsound := h.tasks task (List.mem_of_getElem? ht)
  have hout : k ∉ task.permit.counters := by
    rw [OrderedAdmissionPermit.mem_counters]
    rcases hk with rfl | ⟨peer, rfl⟩ <;> simp [OrderedAdmissionPermit.countedIn, hregular]
  cases task with
  | reserving permit taken rest =>
    have hsplit := hsound.order permit taken rest rfl
    cases rest with
    | nil => rfl
    | cons counter rest =>
      have hne : k ≠ counter := by
        intro heq
        apply hout
        show k ∈ permit.counters
        rw [← hsplit, heq]
        exact List.mem_append_right _ (.head _)
      rw [advanceTask]
      cases htry : tryIncrement limits s.counts counter with
      | none => rfl
      | some counts =>
        obtain ⟨-, rfl⟩ := tryIncrement_eq_some htry
        exact Function.update_of_ne hne _ _
  | releasing permit rest =>
    cases rest with
    | nil => rfl
    | cons counter rest =>
      have hne : k ≠ counter := by
        intro heq
        exact hout (hsound.held.subset (heq ▸ .head _))
      exact Function.update_of_ne hne _ _

/-- **Admission permits are counted exactly.** However calls and drops overlap: every counter is the
number of live permits counted in it and of calls under way that hold it, each of them for its own
permit; no counter exceeds its limit or drops below zero; a refused call leaves all counters as they
were; and the critical counters are never touched by a call on a regular channel, and alone decide
whether a critical call is granted. -/
theorem admission_counts {limits : OrderedAdmissionConfig}
    {ok : OrderedAdmission P → AdmissionAction P → Prop} {s : OrderedAdmission P}
    (h : Reachable (admissionSystem P limits) ok s) :
    (∀ k, s.counts k = (s.permits.countP fun permit => permit.countedIn k) +
      s.tasks.countP fun task => decide (k ∈ task.held)) ∧
    (∀ task ∈ s.tasks, ∀ k ∈ task.held, task.permit.countedIn k = true) ∧
    (∀ permit ∈ s.permits, permit.critical = decide (permit.channel = limits.criticalChannel)) ∧
    (∀ k, s.counts k ≤ limitOf limits k) ∧
    s.asserted = true ∧
    (∀ peer channel, (reserve limits s.counts peer channel).1 = none →
      (reserve limits s.counts peer channel).2 = s.counts) ∧
    (∀ i task, s.tasks[i]? = some task → task.permit.critical = false → ∀ peer,
      (advanceTask limits s i task).counts .criticalTotal = s.counts .criticalTotal ∧
      (advanceTask limits s i task).counts (.critical peer) = s.counts (.critical peer)) ∧
    (∀ peer, (reserve limits s.counts peer limits.criticalChannel).1.isSome = true ↔
      s.counts (.critical peer) < min limits.criticalPerPeer limits.criticalPerLane ∧
        s.counts .criticalTotal < limits.criticalCapacity) := by
  have hs := admissionSound_of_reachable h
  refine ⟨hs.counts_eq, ?_, hs.permits, hs.bounded, hs.asserted, fun _ _ => reserve_refused, ?_,
    fun _ => reserve_critical_isSome⟩
  · intro task ht k hk
    rw [← OrderedAdmissionPermit.mem_counters]
    exact (hs.tasks task ht).held.subset hk
  · intro i task ht hregular peer
    exact ⟨hs.regular_keeps ht hregular (.inl rfl), hs.regular_keeps ht hregular (.inr ⟨peer, rfl⟩)⟩

/-- Small limits: one critical permit, and two regular ones for each lane. -/
def smallLimits : OrderedAdmissionConfig := ⟨4, 1, 2, 3, 1, 1, 7⟩

/-- Two overlapping calls on one lane and a critical one, of which one regular call is finished. -/
def overlappingCalls : List (AdmissionAction ℕ) :=
  [.reserve 0 3, .reserve 0 3, .advance 0, .advance 1, .reserve 1 7, .advance 0, .advance 0,
    .advance 0, .advance 1, .advance 1, .advance 1]

theorem admission_counts_one : ∃ s, Reachable (admissionSystem ℕ smallLimits) (fun _ _ => True) s ∧
    s.permits.length = 2 ∧ s.counts (.regularLane 0 3) = 2 ∧
    s.counts (.regularLane 0 3) ≤ smallLimits.perLane ∧ s.asserted = true := by
  have hrun : ((runActions (admissionSystem ℕ smallLimits) .init overlappingCalls).any fun s =>
      decide (s.permits.length = 2) && decide (s.counts (.regularLane 0 3) = 2)) = true := by
    decide +kernel
  obtain ⟨s, hreach, hs⟩ := exists_reachable_of_free_run (.init rfl) hrun
  simp only [Bool.and_eq_true, decide_eq_true_eq] at hs
  obtain ⟨-, -, -, hbounded, hasserted, -⟩ := admission_counts hreach
  exact ⟨s, hreach, hs.1, hs.2, hbounded (.regularLane 0 3), hasserted⟩

end BasisRust.Transport

