import BasisRust.Avatar.Frames
import BasisRust.Library.AssocList
import BasisRust.Library.Run
import Mathlib.Data.List.Nodup
import Mathlib.Data.List.TakeDrop

/-!
# Slicing the receivers

A tick of the avatar system builds packets for one slice of the receivers.  The membership at the
start of a cycle is its roster; the slices of the roster are served one after another, without those
who have left, and then the next cycle begins with the membership of that tick.  How many slices
there are is adapted once for each cycle.

The slices are behind a lock that a tick takes twice, to make its plan and to adapt the slice count.
An update of the settings takes it too, before it stores them, and so does reclaiming idle capacity,
which drops the cycle.  All of these interleave.

Identities are pairs of a peer id and an incarnation.  The smoothing of the tick time is in floating
point: it is a parameter here.
-/

namespace BasisRust.Avatar

open Library

/-! ### Geometry -/

def maxSliceCount : ℕ := 32
def avatarTickIntervalMs : ℕ := 4

/-- The largest `u64`. -/
def u64Max : ℕ := 2 ^ 64 - 1

def divCeil (n d : ℕ) : ℕ := (n + d - 1) / d

def saturatingMul (a b : ℕ) : ℕ := min (a * b) u64Max

def clamp (n low high : ℕ) : ℕ := max low (min n high)

def receiverCycleBounds (receiverCount sliceCount cursor : ℕ) : ℕ × ℕ :=
  let start := min cursor receiverCount
  let width := divCeil receiverCount (max sliceCount 1)
  (start, min (start + width) receiverCount)

def receiverCycleLength (receiverCount sliceCount : ℕ) : ℕ :=
  if receiverCount = 0 then 0
  else divCeil receiverCount (divCeil receiverCount (max sliceCount 1))

/-! ### State -/

/-- The settings of the slices, as `applyEnvTuning` leaves them. -/
structure SliceConfig where
  minReceiverSlices : ℕ
  maxReceiverSlices : ℕ
  tickBudgetMicros : ℕ
  cycleBudgetMicros : ℕ
  min_pos : 1 ≤ minReceiverSlices
  min_le_max : minReceiverSlices ≤ maxReceiverSlices
  max_le : maxReceiverSlices ≤ maxSliceCount

/-- The settings with the values of the environment. -/
def applyEnvTuning (envMin envMax : Option ℕ) (minReceiverSlices maxReceiverSlices : ℕ)
    (tickBudgetMicros cycleBudgetMicros : ℕ) : SliceConfig :=
  let low := clamp (envMin.getD minReceiverSlices) 1 maxSliceCount
  have hlow : 1 ≤ low := Nat.le_max_left _ _
  have hhigh : low ≤ maxSliceCount :=
    Nat.max_le.mpr ⟨Nat.le_of_ble_eq_true rfl, Nat.min_le_right _ _⟩
  { minReceiverSlices := low
    maxReceiverSlices := min (max (envMax.getD maxReceiverSlices) low) maxSliceCount
    tickBudgetMicros := tickBudgetMicros
    cycleBudgetMicros := cycleBudgetMicros
    min_pos := hlow
    min_le_max := Nat.le_min.mpr ⟨Nat.le_max_right _ _, hhigh⟩
    max_le := Nat.min_le_right _ _ }

abbrev Member := PeerId × ℕ

structure ReceiverCycle where
  roster : List Member
  cursor : ℕ
  sliceCount : ℕ
  deriving DecidableEq

structure ReceiverSlicePlan where
  receiverCycle : ℕ
  receivers : List Member
  effectiveTickIntervalMs : ℕ

structure SliceState where
  sliceCount : ℕ
  cycle : Option ReceiverCycle
  smoothedTickMicros : ℕ

def SliceState.init : SliceState := ⟨1, none, 0⟩

/-- The next slice of the roster, those who are still there. -/
def selectReceiverCycle (cycle : ReceiverCycle) (current : List Member) :
    List Member × ReceiverCycle :=
  let bounds := receiverCycleBounds cycle.roster.length cycle.sliceCount cycle.cursor
  (((cycle.roster.drop bounds.1).take (bounds.2 - bounds.1)).filter fun member =>
      decide (assocGet member.1 current = some member.2),
    { cycle with cursor := bounds.2 })

namespace SliceState

/-- The cycle of a tick: none with at most one member, a new one when the old one is over. -/
def cycleFor (s : SliceState) (members : List Member) (config : SliceConfig) : SliceState :=
  if members.length ≤ 1 then { s with cycle := none }
  else if s.cycle.all fun cycle => decide (cycle.cursor ≥ cycle.roster.length) then
    let minimum := max config.minReceiverSlices 1
    let maximum := min (max config.maxReceiverSlices minimum) maxSliceCount
    let sliceCount := clamp s.sliceCount minimum maximum
    { s with sliceCount := sliceCount, cycle := some ⟨members, 0, sliceCount⟩ }
  else s

def advanceSliceState (s : SliceState) (members : List Member) (config : SliceConfig) :
    ReceiverSlicePlan × SliceState :=
  let s := s.cycleFor members config
  let effectiveTickIntervalMs := max avatarTickIntervalMs (divCeil s.smoothedTickMicros 1000)
  match s.cycle with
  | none => (⟨0, [], effectiveTickIntervalMs⟩, s)
  | some cycle =>
    let selected := selectReceiverCycle cycle members
    (⟨receiverCycleLength cycle.roster.length cycle.sliceCount, selected.1,
      effectiveTickIntervalMs⟩, { s with cycle := some selected.2 })

/-- The slice count for the next cycle, once the cycle is over. -/
def adaptSliceCount (smooth : ℕ → ℕ → ℕ) (s : SliceState) (elapsedMicros : ℕ)
    (config : SliceConfig) : SliceState :=
  let smoothed := if s.smoothedTickMicros = 0 then elapsedMicros
    else smooth s.smoothedTickMicros elapsedMicros
  let s := { s with smoothedTickMicros := smoothed }
  match s.cycle with
  | none => s
  | some cycle =>
    if cycle.cursor < cycle.roster.length then s
    else
      let activeCount := cycle.roster.length
      let minSlices := max config.minReceiverSlices 1
      let maxSlices := min (max config.maxReceiverSlices minSlices) maxSliceCount
      let currentTarget := clamp s.sliceCount minSlices maxSlices
      let estimatedCycleMicros :=
        saturatingMul smoothed (receiverCycleLength activeCount cycle.sliceCount)
      let projectedLargerCycleMicros :=
        saturatingMul smoothed (receiverCycleLength activeCount (currentTarget + 1))
      let nextSliceCount :=
        if estimatedCycleMicros > config.cycleBudgetMicros then
          if elapsedMicros > config.tickBudgetMicros then
            if currentTarget < maxSlices then currentTarget + 1 else currentTarget
          else if currentTarget > minSlices then currentTarget - 1
          else currentTarget
        else if elapsedMicros < saturatingMul config.tickBudgetMicros 3 / 4 ∧
            currentTarget > minSlices then currentTarget - 1
        else if elapsedMicros > config.tickBudgetMicros ∧
            projectedLargerCycleMicros ≤ config.cycleBudgetMicros ∧
            currentTarget < maxSlices then currentTarget + 1
        else currentTarget
      { s with sliceCount := nextSliceCount }

end SliceState

/-! ### Ticks -/

/-- The members a tick finds, each peer once. -/
structure Snapshot where
  members : List Member
  nodup : (members.map Prod.fst).Nodup

/-- Where the tick loop is. -/
inductive TickPhase where
  | idle
  | begun (config : SliceConfig)
  | advanced (config : SliceConfig)

/-- The slices, the settings, the updates that have not stored theirs yet, and the tick.  All
settings so far and all plans so far are recorded. -/
structure SliceSystem where
  slices : SliceState
  config : SliceConfig
  updating : List SliceConfig
  phase : TickPhase
  given : List SliceConfig
  plans : List ReceiverSlicePlan

inductive SliceAction where
  /-- `update_config`, up to the lock of the slices. -/
  | clampTo (config : SliceConfig)
  /-- The rest of an update. -/
  | store (i : ℕ)
  | reclaimIdleCapacity
  | start
  | advance (snapshot : Snapshot)
  | adapt (elapsedMicros : ℕ)
  /-- The packets of a tick cannot be flushed: it returns before it adapts the slice count. -/
  | fail

namespace SliceSystem

def init (config : SliceConfig) : SliceSystem := ⟨.init, config, [], .idle, [config], []⟩

def step (smooth : ℕ → ℕ → ℕ) (s : SliceSystem) : SliceAction → Option SliceSystem
  | .clampTo config =>
    some { s with
      slices := { s.slices with
        sliceCount := clamp s.slices.sliceCount config.minReceiverSlices config.maxReceiverSlices }
      updating := s.updating ++ [config]
      given := s.given ++ [config] }
  | .store i =>
    s.updating[i]?.map fun config => { s with config, updating := s.updating.eraseIdx i }
  | .reclaimIdleCapacity => some { s with slices := { s.slices with cycle := none } }
  | .start =>
    match s.phase with
    | .idle => some { s with phase := .begun s.config }
    | _ => none
  | .advance snapshot =>
    match s.phase with
    | .begun config =>
      let plan := s.slices.advanceSliceState snapshot.members config
      some { s with slices := plan.2, phase := .advanced config, plans := s.plans ++ [plan.1] }
    | _ => none
  | .adapt elapsedMicros =>
    match s.phase with
    | .advanced config =>
      some { s with slices := s.slices.adaptSliceCount smooth elapsedMicros config, phase := .idle }
    | _ => none
  | .fail =>
    match s.phase with
    | .advanced _ => some { s with phase := .idle }
    | _ => none

def system (smooth : ℕ → ℕ → ℕ) : System SliceSystem SliceAction where
  init s := ∃ config, s = init config
  step := step smooth

theorem reachable_init (smooth : ℕ → ℕ → ℕ) (config : SliceConfig) :
    Reachable (system smooth) (fun _ _ => True) (init config) :=
  .init ⟨config, rfl⟩

end SliceSystem

/-- What the ticks of a run find. -/
def snapshots (actions : List SliceAction) : List Snapshot :=
  actions.filterMap fun action =>
    match action with
    | .advance snapshot => some snapshot
    | _ => none

/-- Everyone whom the plans select, in order. -/
def selected (plans : List ReceiverSlicePlan) : List Member :=
  plans.flatMap fun plan => plan.receivers

/-- The actions that a cycle outlasts. -/
def SliceAction.KeepsCycle : SliceAction → Prop
  | .reclaimIdleCapacity => False
  | .advance snapshot => 2 ≤ snapshot.members.length
  | _ => True

instance : DecidablePred SliceAction.KeepsCycle
  | .reclaimIdleCapacity => inferInstanceAs (Decidable False)
  | .advance snapshot => inferInstanceAs (Decidable (2 ≤ snapshot.members.length))
  | .clampTo _ | .store _ | .start | .adapt _ | .fail => inferInstanceAs (Decidable True)

/-! ### Arithmetic of the slices -/

/-- A cycle of slices of width `w` ends with the last of `divCeil n w` slices. -/
theorem divCeil_spec {n w : ℕ} (hw : 0 < w) : n ≤ divCeil n w * w ∧
    ∀ k, k < divCeil n w → k * w < n := by
  have hlower : n + w - 1 < w * divCeil n w + w := by
    have hdiv := Nat.lt_mul_div_succ (n + w - 1) hw
    rwa [Nat.mul_add, Nat.mul_one] at hdiv
  have hupper : w * divCeil n w ≤ n + w - 1 := Nat.mul_div_le _ _
  constructor
  · rw [Nat.mul_comm]
    omega
  · intro k hk
    have hmul : w * (k + 1) ≤ w * divCeil n w := Nat.mul_le_mul_left w hk
    rw [Nat.mul_add, Nat.mul_one] at hmul
    rw [Nat.mul_comm]
    omega

theorem divCeil_pos {n d : ℕ} (hn : 0 < n) (hd : 0 < d) : 0 < divCeil n d := by
  obtain ⟨hle, -⟩ := divCeil_spec (n := n) hd
  by_contra hzero
  rw [Nat.eq_zero_of_not_pos hzero] at hle
  omega

/-! ### One tick -/

/-- The width of the slices of a cycle. -/
def ReceiverCycle.width (cycle : ReceiverCycle) : ℕ :=
  divCeil cycle.roster.length (max cycle.sliceCount 1)

def ReceiverCycle.length (cycle : ReceiverCycle) : ℕ :=
  receiverCycleLength cycle.roster.length cycle.sliceCount

/-- Whether a member is there with the same incarnation. -/
def presentIn (current : List Member) (member : Member) : Bool :=
  decide (assocGet member.1 current = some member.2)

theorem presentIn_of_mem {current : List Member} (hnodup : (current.map Prod.fst).Nodup)
    {member : Member} (h : member ∈ current) : presentIn current member = true := by
  apply decide_eq_true
  exact AssocNodup.get_of_mem hnodup h

variable {smooth : ℕ → ℕ → ℕ} {cycle : ReceiverCycle}

/-- A slice: the next `width` members of the roster, those who are there. -/
theorem selectReceiverCycle_eq (current : List Member) (h : cycle.cursor ≤ cycle.roster.length) :
    selectReceiverCycle cycle current =
      (((cycle.roster.drop cycle.cursor).take cycle.width).filter (presentIn current),
        { cycle with cursor := min (cycle.cursor + cycle.width) cycle.roster.length }) := by
  have htake : (cycle.roster.drop cycle.cursor).take
      (min (cycle.cursor + cycle.width) cycle.roster.length - cycle.cursor) =
        (cycle.roster.drop cycle.cursor).take cycle.width := by
    rw [List.take_eq_take_iff, List.length_drop]
    omega
  rw [selectReceiverCycle, receiverCycleBounds, Nat.min_eq_left h]
  show (List.filter (presentIn current) (List.take (min (cycle.cursor + cycle.width)
    cycle.roster.length - cycle.cursor) _), _) = _
  rw [htake]
  rfl

namespace SliceState

variable {slices : SliceState} {members : List Member} {config : SliceConfig}

/-- A tick whose cycle is known. -/
theorem advance_of_cycle (h : (slices.cycleFor members config).cycle = some cycle)
    (hcursor : cycle.cursor ≤ cycle.roster.length) :
    (slices.advanceSliceState members config).1.receiverCycle = cycle.length ∧
    (slices.advanceSliceState members config).1.receivers =
      ((cycle.roster.drop cycle.cursor).take cycle.width).filter (presentIn members) ∧
    (slices.advanceSliceState members config).2.cycle =
      some { cycle with cursor := min (cycle.cursor + cycle.width) cycle.roster.length } := by
  have hselect := selectReceiverCycle_eq members hcursor
  simp only [advanceSliceState, h]
  rw [hselect]
  exact ⟨rfl, rfl, rfl⟩

/-- With at most one member a tick selects nobody and ends the cycle. -/
theorem advance_of_few (config : SliceConfig) (h : members.length ≤ 1) (slices : SliceState) :
    (slices.advanceSliceState members config).1.receivers = [] ∧
    (slices.advanceSliceState members config).2.cycle = none := by
  have hnone : (slices.cycleFor members config).cycle = none := by
    rw [cycleFor, if_pos h]
  simp only [advanceSliceState, hnone]
  exact ⟨trivial, trivial⟩

/-- While the cycle lasts, a tick with two members goes on with it. -/
theorem cycleFor_of_open (config : SliceConfig) (h : slices.cycle = some cycle)
    (hopen : cycle.cursor < cycle.roster.length) (hmembers : 2 ≤ members.length) :
    (slices.cycleFor members config).cycle = some cycle := by
  have hover : (slices.cycle.all fun cycle =>
      decide (cycle.cursor ≥ cycle.roster.length)) = false := by
    rw [h, Option.all_some]
    exact decide_eq_false (Nat.not_le_of_lt hopen)
  rw [cycleFor, if_neg (by omega), if_neg (by rw [hover]; decide)]
  exact h

/-- A cycle that is over, or none. -/
def Over (slices : SliceState) : Prop :=
  ∀ cycle, slices.cycle = some cycle → cycle.roster.length ≤ cycle.cursor

/-- A tick with two members begins a new cycle then. -/
theorem cycleFor_of_over (config : SliceConfig) (h : slices.Over)
    (hmembers : 2 ≤ members.length) :
    (slices.cycleFor members config).cycle = some ⟨members, 0,
      clamp slices.sliceCount config.minReceiverSlices config.maxReceiverSlices⟩ := by
  have hover : (slices.cycle.all fun cycle =>
      decide (cycle.cursor ≥ cycle.roster.length)) = true := by
    cases hcycle : slices.cycle with
    | none => rfl
    | some cycle => exact decide_eq_true (h cycle hcycle)
  rw [cycleFor, if_neg (by omega), if_pos hover]
  dsimp only
  rw [Nat.max_eq_left config.min_pos, Nat.max_eq_left config.min_le_max,
    Nat.min_eq_left config.max_le]

end SliceState

/-! ### The ticks of a cycle -/

/-- The width of the slices of a roster. -/
def sliceWidth (roster : List Member) (count : ℕ) : ℕ := divCeil roster.length (max count 1)

/-- What the plans of a cycle have done so far: they have served the slices of the roster up to
here, without those who were away. -/
structure Served (roster : List Member) (count : ℕ) (ticks : List Snapshot)
    (plans : List ReceiverSlicePlan) : Prop where
  length : ∀ plan ∈ plans, plan.receiverCycle = receiverCycleLength roster.length count
  sublist : (selected plans).Sublist (roster.take (ticks.length * sliceWidth roster count))
  kept : ∀ member ∈ roster.take (ticks.length * sliceWidth roster count),
    (∀ tick ∈ ticks, presentIn tick.members member = true) → member ∈ selected plans

/-- The cycle of a roster after `k` ticks. -/
def cycleAfter (roster : List Member) (count k : ℕ) : ReceiverCycle :=
  ⟨roster, min (k * sliceWidth roster count) roster.length, count⟩

theorem Served.nil (roster : List Member) (count : ℕ) : Served roster count [] [] where
  length plan hplan := nomatch hplan
  sublist := List.nil_sublist _
  kept member hmember := by
    rw [List.length_nil, Nat.zero_mul, List.take_zero] at hmember
    cases hmember

variable {roster : List Member} {count : ℕ} {ticks : List Snapshot}
  {plans : List ReceiverSlicePlan}

/-- **One tick of a cycle** serves the next slice. -/
theorem Served.snoc {slices : SliceState} {config : SliceConfig} {tick : Snapshot}
    (h : Served roster count ticks plans)
    (hcycle : (slices.cycleFor tick.members config).cycle =
      some (cycleAfter roster count ticks.length)) :
    Served roster count (ticks ++ [tick])
        (plans ++ [(slices.advanceSliceState tick.members config).1]) ∧
      (slices.advanceSliceState tick.members config).2.cycle =
        some (cycleAfter roster count (ticks.length + 1)) := by
  obtain ⟨hlength, hreceivers, hnext⟩ := SliceState.advance_of_cycle hcycle (Nat.min_le_right _ _)
  generalize hwidth : sliceWidth roster count = width at *
  have hcursor : (cycleAfter roster count ticks.length).cursor =
      min (ticks.length * width) roster.length := by
    rw [← hwidth]
    rfl
  have hwidth' : (cycleAfter roster count ticks.length).width = width := hwidth
  have hroster : (cycleAfter roster count ticks.length).roster = roster := rfl
  rw [hcursor, hwidth', hroster] at hnext hreceivers
  have hdrop : roster.drop (min (ticks.length * width) roster.length) =
      roster.drop (ticks.length * width) := by
    rw [List.drop_eq_drop_iff]
    omega
  rw [hdrop] at hreceivers
  have hselected : selected (plans ++ [(slices.advanceSliceState tick.members config).1]) =
      selected plans ++
        ((roster.drop (ticks.length * width)).take width).filter (presentIn tick.members) := by
    rw [← hreceivers, selected, List.flatMap_append, List.flatMap_singleton]
    rfl
  have htake : roster.take ((ticks ++ [tick]).length * width) =
      roster.take (ticks.length * width) ++ (roster.drop (ticks.length * width)).take width := by
    rw [List.length_append, List.length_singleton, Nat.succ_mul, List.take_add]
  refine ⟨⟨?_, ?_, ?_⟩, ?_⟩
  · intro plan hplan
    rcases List.mem_append.mp hplan with hplan | hplan
    · exact h.length plan hplan
    · rw [List.mem_singleton.mp hplan]
      exact hlength
  · rw [hwidth, hselected, htake]
    have hsub := h.sublist
    rw [hwidth] at hsub
    exact hsub.append List.filter_sublist
  · intro member hmember hpresent
    rw [hwidth, htake, List.mem_append] at hmember
    rw [hselected, List.mem_append]
    rcases hmember with hbefore | hnow
    · left
      apply h.kept member
      · rw [hwidth]
        exact hbefore
      · intro t ht
        exact hpresent t (List.mem_append_left _ ht)
    · right
      exact List.mem_filter.mpr ⟨hnow, hpresent tick (by simp)⟩
  · have hmin : min (min (ticks.length * width) roster.length + width) roster.length =
        min ((ticks.length + 1) * width) roster.length := by
      rw [Nat.succ_mul]
      omega
    rw [hnext, hmin, cycleAfter, cycleAfter, hwidth]

/-- A cycle of two members or more is open until its last tick, and over then. -/
theorem cycleAfter_spec (count : ℕ) (hroster : roster ≠ []) :
    (∀ k < receiverCycleLength roster.length count,
      (cycleAfter roster count k).cursor < roster.length) ∧
    roster.take (receiverCycleLength roster.length count * sliceWidth roster count) = roster ∧
    (cycleAfter roster count (receiverCycleLength roster.length count)).cursor =
      roster.length := by
  have hpos : 0 < roster.length := List.length_pos_of_ne_nil hroster
  have hwidth : 0 < sliceWidth roster count := divCeil_pos hpos (Nat.le_max_right _ _)
  obtain ⟨henough, hopen⟩ := divCeil_spec (n := roster.length) hwidth
  have hlength : receiverCycleLength roster.length count =
      divCeil roster.length (sliceWidth roster count) := by
    rw [receiverCycleLength, if_neg (by omega)]
    rfl
  rw [hlength]
  refine ⟨?_, List.take_of_length_le henough, Nat.min_eq_right henough⟩
  intro k hk
  exact Nat.lt_of_le_of_lt (Nat.min_le_left _ _) (hopen k hk)

/-! ### Runs -/

theorem snapshots_cons (action : SliceAction) (actions : List SliceAction) :
    snapshots (action :: actions) = snapshots [action] ++ snapshots actions := by
  rw [snapshots, ← List.singleton_append, List.filterMap_append]
  rfl

namespace SliceSystem

variable {s s' : SliceSystem}

/-- Adapting the slice count leaves the cycle as it is. -/
theorem adaptSliceCount_cycle (smooth : ℕ → ℕ → ℕ) (slices : SliceState) (elapsed : ℕ)
    (config : SliceConfig) :
    (slices.adaptSliceCount smooth elapsed config).cycle = slices.cycle := by
  rw [SliceState.adaptSliceCount]
  cases h : slices.cycle with
  | none => rfl
  | some cycle =>
    dsimp only
    split_ifs <;> rfl

theorem step_advance {snapshot : Snapshot} (h : step smooth s (.advance snapshot) = some s') :
    ∃ config, s.phase = .begun config ∧
      s' = { s with
        slices := (s.slices.advanceSliceState snapshot.members config).2
        phase := .advanced config
        plans := s.plans ++ [(s.slices.advanceSliceState snapshot.members config).1] } := by
  simp only [step] at h
  split at h
  · rename_i config hphase
    cases h
    exact ⟨config, hphase, rfl⟩
  · cases h

theorem step_adapt {elapsed : ℕ} (h : step smooth s (.adapt elapsed) = some s') :
    ∃ config, s.phase = .advanced config ∧
      s' = { s with slices := s.slices.adaptSliceCount smooth elapsed config, phase := .idle } := by
  simp only [step] at h
  split at h
  · rename_i config hphase
    cases h
    exact ⟨config, hphase, rfl⟩
  · cases h

/-- Every other step that a cycle outlasts leaves it and the plans as they are. -/
theorem step_frame {action : SliceAction} (hkeeps : action.KeepsCycle)
    (hno : snapshots [action] = []) (h : step smooth s action = some s') :
    s'.slices.cycle = s.slices.cycle ∧ s'.plans = s.plans := by
  cases action with
  | clampTo config =>
    cases h
    exact ⟨rfl, rfl⟩
  | store i =>
    obtain ⟨config, -, rfl⟩ := Option.map_eq_some_iff.mp h
    exact ⟨rfl, rfl⟩
  | reclaimIdleCapacity => exact absurd hkeeps id
  | start | fail =>
    simp only [step] at h
    split at h <;> cases h
    exact ⟨rfl, rfl⟩
  | advance snapshot => cases hno
  | adapt elapsed =>
    obtain ⟨config, -, rfl⟩ := step_adapt h
    exact ⟨adaptSliceCount_cycle _ _ _ _, rfl⟩

/-- **The rest of a cycle**, with everything that happens between its ticks. -/
theorem run_of_cycle {actions : List SliceAction} {base : List ReceiverSlicePlan}
    (hroster : roster ≠ []) (hrun : runActions (system smooth) s actions = some s')
    (hkeeps : ∀ action ∈ actions, action.KeepsCycle)
    (hticks : (ticks ++ snapshots actions).length ≤ receiverCycleLength roster.length count)
    (hserved : Served roster count ticks plans) (hplans : s.plans = base ++ plans)
    (hcycle : s.slices.cycle = some (cycleAfter roster count ticks.length)) :
    ∃ plans', s'.plans = base ++ plans' ∧
      Served roster count (ticks ++ snapshots actions) plans' ∧
      s'.slices.cycle = some (cycleAfter roster count (ticks ++ snapshots actions).length) := by
  induction actions generalizing s ticks plans with
  | nil =>
    cases hrun
    rw [snapshots, List.filterMap_nil, List.append_nil]
    exact ⟨plans, hplans, hserved, hcycle⟩
  | cons action actions ih =>
    simp only [runActions] at hrun
    split at hrun
    · cases hrun
    rename_i s₁ hstep
    change step smooth s action = some s₁ at hstep
    have hlater : ∀ action ∈ actions, action.KeepsCycle :=
      fun action haction => hkeeps action (.tail _ haction)
    rw [snapshots_cons, ← List.append_assoc] at hticks ⊢
    by_cases hno : snapshots [action] = []
    · -- not a tick
      rw [hno, List.append_nil] at hticks ⊢
      obtain ⟨hsame, hsamePlans⟩ := step_frame (hkeeps action (.head _)) hno hstep
      exact ih hrun hlater hticks hserved (hsamePlans.trans hplans) (hsame.trans hcycle)
    · cases action with
      | advance snapshot =>
        obtain ⟨config, -, rfl⟩ := step_advance hstep
        have hopen : ticks.length < receiverCycleLength roster.length count := by
          rw [List.length_append, List.length_append] at hticks
          exact Nat.lt_of_lt_of_le (Nat.lt_succ_self _) (Nat.le_trans (Nat.le_add_right _ _) hticks)
        have hgoes := SliceState.cycleFor_of_open config hcycle
          ((cycleAfter_spec count hroster).1 _ hopen) (hkeeps _ (.head _))
        obtain ⟨hserved', hcycle'⟩ := hserved.snoc hgoes
        apply ih hrun hlater hticks hserved'
        · rw [hplans, List.append_assoc]
        · rw [hcycle', List.length_append]
          rfl
      | clampTo | store | reclaimIdleCapacity | start | adapt | fail => exact absurd rfl hno

/-! ### The slice count -/

/-- The range of the settings. -/
def InRange (config : SliceConfig) (sliceCount : ℕ) : Prop :=
  max 1 config.minReceiverSlices ≤ sliceCount ∧
    sliceCount ≤ min (max config.maxReceiverSlices config.minReceiverSlices) maxSliceCount

theorem inRange_iff (config : SliceConfig) (n : ℕ) : InRange config n ↔
    config.minReceiverSlices ≤ n ∧ n ≤ config.maxReceiverSlices := by
  obtain ⟨low, high, -, -, hlow, hle, hhigh⟩ := config
  simp only [InRange]
  omega

theorem inRange_clamp (config : SliceConfig) (n : ℕ) :
    InRange config (clamp n config.minReceiverSlices config.maxReceiverSlices) := by
  have hle := config.min_le_max
  rw [inRange_iff, clamp]
  omega

/-- **Adapting** leaves the slice count until the cycle is complete, and then puts it in the range
of the settings. -/
theorem adapt_sliceCount (smooth : ℕ → ℕ → ℕ) (slices : SliceState) (elapsed : ℕ)
    (config : SliceConfig) :
    ((slices.adaptSliceCount smooth elapsed config).sliceCount = slices.sliceCount ∧
      ∀ cycle ∈ slices.cycle, cycle.cursor < cycle.roster.length) ∨
    InRange config (slices.adaptSliceCount smooth elapsed config).sliceCount := by
  rw [SliceState.adaptSliceCount]
  cases hcycle : slices.cycle with
  | none => exact .inl ⟨rfl, fun cycle h => nomatch h⟩
  | some cycle =>
    dsimp only
    by_cases hopen : cycle.cursor < cycle.roster.length
    · left
      rw [if_pos hopen]
      refine ⟨rfl, ?_⟩
      intro cycle' h
      cases h
      exact hopen
    · right
      have htarget := inRange_clamp config slices.sliceCount
      rw [inRange_iff] at htarget ⊢
      rw [if_neg hopen, Nat.max_eq_left config.min_pos, Nat.max_eq_left config.min_le_max,
        Nat.min_eq_left config.max_le]
      dsimp only
      generalize clamp slices.sliceCount config.minReceiverSlices config.maxReceiverSlices = target
        at htarget ⊢
      split_ifs <;> omega

/-- What finding or beginning a cycle does to the slice count. -/
theorem cycleFor_cases (slices : SliceState) (members : List Member) (config : SliceConfig) :
    ((slices.cycleFor members config).sliceCount = slices.sliceCount ∧
      ((slices.cycleFor members config).cycle = none ∨
        (slices.cycleFor members config).cycle = slices.cycle)) ∨
    InRange config (slices.cycleFor members config).sliceCount := by
  rw [SliceState.cycleFor]
  split_ifs
  · exact .inl ⟨rfl, .inl rfl⟩
  · right
    have hclamp := inRange_clamp config slices.sliceCount
    dsimp only
    rw [Nat.max_eq_left config.min_pos, Nat.max_eq_left config.min_le_max,
      Nat.min_eq_left config.max_le]
    exact hclamp
  · exact .inl ⟨rfl, .inr rfl⟩

/-- A tick leaves the slice count in its range, or there is still no cycle. -/
theorem advance_counted {slices : SliceState} {members : List Member} {config : SliceConfig}
    {given : List SliceConfig} (hgiven : config ∈ given)
    (h : (slices.sliceCount = 1 ∧ slices.cycle = none) ∨
      ∃ config ∈ given, InRange config slices.sliceCount) :
    ((slices.advanceSliceState members config).2.sliceCount = 1 ∧
      (slices.advanceSliceState members config).2.cycle = none) ∨
    ∃ config' ∈ given, InRange config' (slices.advanceSliceState members config).2.sliceCount := by
  have hcount : (slices.advanceSliceState members config).2.sliceCount =
      (slices.cycleFor members config).sliceCount := by
    rw [SliceState.advanceSliceState]
    cases (slices.cycleFor members config).cycle <;> rfl
  rw [hcount]
  rcases cycleFor_cases slices members config with ⟨hsame, hcycle⟩ | hrange
  · rw [hsame]
    rcases h with ⟨hone, hnone⟩ | hin
    · rw [hnone, or_self] at hcycle
      refine .inl ⟨hone, ?_⟩
      simp only [SliceState.advanceSliceState, hcycle]
    · exact .inr hin
  · exact .inr ⟨config, hgiven, hrange⟩

/-- The settings in use have been given, and the slice count is the initial one without a cycle or
in the range of settings that have been given. -/
structure Counted (s : SliceSystem) : Prop where
  config : s.config ∈ s.given
  updating : ∀ config ∈ s.updating, config ∈ s.given
  begun : ∀ config, s.phase = .begun config → config ∈ s.given
  advanced : ∀ config, s.phase = .advanced config → config ∈ s.given
  count : (s.slices.sliceCount = 1 ∧ s.slices.cycle = none) ∨
    ∃ config ∈ s.given, InRange config s.slices.sliceCount

theorem counted_of_reachable (h : Reachable (system smooth) (fun _ _ => True) s) : Counted s := by
  refine h.invariant Counted ?_ ?_
  · rintro _ ⟨config, rfl⟩
    exact ⟨List.mem_singleton_self _, nofun, nofun, nofun, .inl ⟨rfl, rfl⟩⟩
  · intro s action s' hs _ hstep
    change step smooth s action = some s' at hstep
    cases action with
    | clampTo config =>
      cases hstep
      refine ⟨List.mem_append_left _ hs.config, ?_, ?_, ?_, ?_⟩
      · intro config' h
        rcases List.mem_append.mp h with h | h
        · exact List.mem_append_left _ (hs.updating config' h)
        · exact List.mem_append_right _ h
      · exact fun config' h => List.mem_append_left _ (hs.begun config' h)
      · exact fun config' h => List.mem_append_left _ (hs.advanced config' h)
      · exact .inr ⟨config, List.mem_append_right _ (List.mem_singleton_self _),
          inRange_clamp config _⟩
    | store i =>
      obtain ⟨config, hget, rfl⟩ := Option.map_eq_some_iff.mp hstep
      exact { hs with
        config := hs.updating config (List.mem_of_getElem? hget)
        updating := fun config' h => hs.updating config' (List.mem_of_mem_eraseIdx h) }
    | reclaimIdleCapacity =>
      cases hstep
      exact { hs with count := hs.count.imp_left fun h => ⟨h.1, rfl⟩ }
    | start =>
      simp only [step] at hstep
      split at hstep <;> cases hstep
      refine { hs with begun := ?_, advanced := nofun }
      intro config h
      cases h
      exact hs.config
    | advance snapshot =>
      obtain ⟨config, hphase, rfl⟩ := step_advance hstep
      have hgiven := hs.begun config hphase
      refine { hs with begun := nofun, advanced := ?_, count := advance_counted hgiven hs.count }
      intro config' h
      cases h
      exact hgiven
    | adapt elapsed =>
      obtain ⟨config, hphase, rfl⟩ := step_adapt hstep
      refine { hs with begun := nofun, advanced := nofun, count := ?_ }
      rw [adaptSliceCount_cycle]
      rcases adapt_sliceCount smooth s.slices elapsed config with ⟨hsame, -⟩ | hrange
      · rw [hsame]
        exact hs.count
      · exact .inr ⟨config, hs.advanced config hphase, hrange⟩
    | fail =>
      simp only [step] at hstep
      split at hstep <;> cases hstep
      exact { hs with begun := nofun, advanced := nofun }

/-! ### Fairness -/

/-- **Slicing is fair.**  In every reachable state whose cycle is over, a tick with two members or
more freezes its membership as the roster of a new cycle.  As long as every tick has two members or
more and nothing is reclaimed, whatever else happens in between, nobody outside the roster is
selected and nobody is selected twice; the cycle lasts exactly as many ticks as its length says,
whoever is there at all of them has then been selected, and the next cycle begins with the
membership of the next tick.  A tick with fewer members ends the cycle, and so does reclaiming. -/
theorem receiver_slicing_is_fair (h : Reachable (system smooth) (fun _ _ => True) s) :
    ((s.slices.sliceCount = 1 ∧ s.slices.cycle = none) ∨
      ∃ config ∈ s.given, InRange config s.slices.sliceCount) ∧
    (∀ elapsed config s', s.phase = .advanced config →
      step smooth s (.adapt elapsed) = some s' →
      (s'.slices.sliceCount = s.slices.sliceCount ∧
        ∀ cycle ∈ s.slices.cycle, cycle.cursor < cycle.roster.length) ∨
      InRange config s'.slices.sliceCount) ∧
    (∀ tick s', tick.members.length ≤ 1 → step smooth s (.advance tick) = some s' →
      selected s'.plans = selected s.plans ∧ s'.slices.Over) ∧
    (∀ s', step smooth s .reclaimIdleCapacity = some s' →
      s'.plans = s.plans ∧ s'.slices.Over) ∧
    ∀ first config, s.slices.Over → s.phase = .begun config → 2 ≤ first.members.length →
      ∃ count, InRange config count ∧ ∀ rest s',
        runActions (system smooth) s (.advance first :: rest) = some s' →
        (∀ action ∈ rest, action.KeepsCycle) →
        (first :: snapshots rest).length ≤ receiverCycleLength first.members.length count →
        ∃ plans, s'.plans = s.plans ++ plans ∧
          (∀ plan ∈ plans,
            plan.receiverCycle = receiverCycleLength first.members.length count) ∧
          (∀ member ∈ selected plans, member ∈ first.members) ∧
          (selected plans).Nodup ∧
          ((first :: snapshots rest).length < receiverCycleLength first.members.length count →
            ∃ cursor < first.members.length,
              s'.slices.cycle = some ⟨first.members, cursor, count⟩) ∧
          ((first :: snapshots rest).length = receiverCycleLength first.members.length count →
            s'.slices.Over ∧
            (∀ member, (∀ tick ∈ first :: snapshots rest, member ∈ tick.members) →
              (selected plans).count member = 1) ∧
            ∀ next config' s'', 2 ≤ next.members.length → s'.phase = .begun config' →
              step smooth s' (.advance next) = some s'' →
              ∃ cursor count', InRange config' count' ∧
                s''.slices.cycle = some ⟨next.members, cursor, count'⟩) := by
  refine ⟨(counted_of_reachable h).count, ?_, ?_, ?_, ?_⟩
  · intro elapsed config s' hphase hstep
    obtain ⟨config', hphase', rfl⟩ := step_adapt hstep
    rw [hphase] at hphase'
    cases hphase'
    exact adapt_sliceCount smooth s.slices elapsed config
  · intro tick s' hfew hstep
    obtain ⟨config, -, rfl⟩ := step_advance hstep
    obtain ⟨hnobody, hnone⟩ := SliceState.advance_of_few config hfew s.slices
    refine ⟨?_, ?_⟩
    · rw [selected, List.flatMap_append, List.flatMap_singleton, hnobody, List.append_nil]
      rfl
    · intro cycle hcycle
      rw [hnone] at hcycle
      cases hcycle
  · intro s' hstep
    cases hstep
    refine ⟨rfl, ?_⟩
    intro cycle hcycle
    cases hcycle
  · intro first config hover hphase htwo
    have hbegin := SliceState.cycleFor_of_over config hover htwo
    have hcount := inRange_clamp config s.slices.sliceCount
    generalize clamp s.slices.sliceCount config.minReceiverSlices config.maxReceiverSlices = count
      at hbegin hcount
    refine ⟨count, hcount, ?_⟩
    intro rest s' hrun hkeeps hticks
    simp only [runActions] at hrun
    split at hrun
    · cases hrun
    rename_i s₁ hstep
    change step smooth s (.advance first) = some s₁ at hstep
    obtain ⟨config', hphase', rfl⟩ := step_advance hstep
    rw [hphase] at hphase'
    cases hphase'
    have hroster : first.members ≠ [] := List.ne_nil_of_length_pos (by omega)
    -- the first tick begins the cycle
    have hstart : (s.slices.cycleFor first.members config).cycle =
        some (cycleAfter first.members count 0) := by
      rw [hbegin, cycleAfter, Nat.zero_mul, Nat.zero_min]
    obtain ⟨hserved, hcycle⟩ := (Served.nil first.members count).snoc hstart
    obtain ⟨plans, hall, hserved', hend⟩ :=
      run_of_cycle hroster hrun hkeeps hticks hserved rfl hcycle
    obtain ⟨hopen, hwhole, hfull⟩ := cycleAfter_spec count hroster
    have hnodup : (selected plans).Nodup :=
      (hserved'.sublist.trans (List.take_sublist _ _)).nodup (List.Nodup.of_map _ first.nodup)
    refine ⟨plans, hall, hserved'.length, ?_, hnodup, ?_, ?_⟩
    · intro member hmember
      exact List.mem_of_mem_take (hserved'.sublist.subset hmember)
    · intro hless
      exact ⟨_, hopen _ hless, hend⟩
    · intro heq
      have hover' : s'.slices.Over := by
        intro cycle hcycle'
        rw [hend] at hcycle'
        cases hcycle'
        show first.members.length ≤
          (cycleAfter first.members count (first :: snapshots rest).length).cursor
        rw [heq, hfull]
      refine ⟨hover', ?_, ?_⟩
      · intro member hmember
        apply List.count_eq_one_of_mem hnodup
        apply hserved'.kept
        · show member ∈ first.members.take ((first :: snapshots rest).length * _)
          rw [heq, hwhole]
          exact hmember first List.mem_cons_self
        · intro tick htick
          exact presentIn_of_mem tick.nodup (hmember tick htick)
      · intro next config'' s'' hnext hphase'' hstep'
        obtain ⟨config₁, hphase₁, rfl⟩ := step_advance hstep'
        rw [hphase''] at hphase₁
        cases hphase₁
        obtain ⟨-, -, hnew⟩ := SliceState.advance_of_cycle
          (SliceState.cycleFor_of_over config'' hover' hnext) (Nat.zero_le _)
        exact ⟨_, _, inRange_clamp config'' _, hnew⟩

/-- Three members in slices of one.  Reclaiming drops the cycle after its first tick; the next one
is served whole, with an update of the settings, a failed tick, an arrival and a departure in it. -/
theorem receiver_slicing_is_fair_three :
    let smooth : ℕ → ℕ → ℕ := fun smoothed elapsed => (smoothed * 85 + elapsed * 15) / 100
    let config : SliceConfig := ⟨3, 3, 6000, 180000, by decide, by decide, by decide⟩
    let wider : SliceConfig := ⟨1, 32, 6000, 180000, by decide, by decide, by decide⟩
    let first : Snapshot := ⟨[(1, 7), (2, 7), (3, 7)], by decide⟩
    let later : Snapshot := ⟨[(4, 7), (3, 7), (1, 7)], by decide⟩
    let before : List SliceAction :=
      [.start, .advance first, .reclaimIdleCapacity, .adapt 100, .start]
    let rest : List SliceAction :=
      [.clampTo wider, .adapt 100, .start, .store 0, .advance later, .fail, .start, .advance later]
    ∃ s s' plans, runActions (system smooth) (init config) before = some s ∧
      runActions (system smooth) s (.advance first :: rest) = some s' ∧
      s'.plans = s.plans ++ plans ∧ (selected plans).count (3, 7) = 1 ∧ s'.slices.Over := by
  intro smooth config wider first later before rest
  have hrun : (runActions (system smooth) (init config) before).isSome = true := rfl
  have hreach := reachable_runActions (.of_forall (fun _ _ => trivial) _ _)
    (reachable_init smooth config) (Option.some_get hrun).symm
  obtain ⟨-, -, -, -, hfair⟩ := receiver_slicing_is_fair hreach
  obtain ⟨count, hrange, hcycle⟩ := hfair first config nofun rfl (by decide)
  have hcount : count = 3 := by
    obtain ⟨hlow, hhigh⟩ := (inRange_iff _ _).mp hrange
    exact Nat.le_antisymm hhigh hlow
  subst hcount
  obtain ⟨plans, hplans, -, -, -, -, hwhole⟩ := hcycle rest _ rfl (by decide) (by decide)
  obtain ⟨hover, hstay, -⟩ := hwhole (by decide)
  exact ⟨_, _, plans, (Option.some_get hrun).symm, rfl, hplans, hstay (3, 7) (by decide), hover⟩

/-- Whoever is there at every tick of a cycle is selected in it exactly once, if everything that
happens between its ticks is allowed. -/
def ExactlyOnce (allowed : SliceAction → Prop) : Prop :=
  ∀ (smooth : ℕ → ℕ → ℕ) (s s' : SliceSystem) (config : SliceConfig) (first : Snapshot)
    (rest : List SliceAction) (cursor count : ℕ),
    Reachable (system smooth) (fun _ _ => True) s → s.slices.Over → s.phase = .begun config →
    (s.slices.advanceSliceState first.members config).2.cycle =
      some ⟨first.members, cursor, count⟩ →
    runActions (system smooth) s (.advance first :: rest) = some s' →
    (∀ action ∈ rest, allowed action) →
    (first :: snapshots rest).length = receiverCycleLength first.members.length count →
    ∀ member, (∀ tick ∈ first :: snapshots rest, member ∈ tick.members) →
      (selected (s'.plans.drop s.plans.length)).count member = 1

/-- When all but one member leave in the middle of a cycle, the cycle ends and the one that is left
is not selected; when idle capacity is reclaimed in the middle of it, the next tick serves the first
slice again; and before the first cycle the slice count is the initial one, whatever the
settings. -/
theorem receiver_slicing_stops_early :
    ¬ ExactlyOnce (fun action => action ≠ .reclaimIdleCapacity) ∧
    ¬ ExactlyOnce (fun action =>
      ∀ snapshot, action = .advance snapshot → 2 ≤ snapshot.members.length) ∧
    ¬ (∀ (smooth : ℕ → ℕ → ℕ) (s s' : SliceSystem) (elapsed : ℕ),
        Reachable (system smooth) (fun _ _ => True) s →
        step smooth s (.adapt elapsed) = some s' →
        InRange s'.config s'.slices.sliceCount) := by
  let smooth : ℕ → ℕ → ℕ := fun smoothed elapsed => (smoothed * 85 + elapsed * 15) / 100
  let config : SliceConfig := ⟨3, 3, 6000, 180000, by decide, by decide, by decide⟩
  let first : Snapshot := ⟨[(1, 7), (2, 7), (3, 7)], by decide⟩
  let alone : Snapshot := ⟨[(3, 7)], by decide⟩
  let s : SliceSystem := { init config with phase := .begun config }
  have hreach : Reachable (system smooth) (fun _ _ => True) s :=
    .step (a := .start) (reachable_init smooth config) trivial rfl
  refine ⟨?_, ?_, ?_⟩
  · intro hall
    have hone := hall smooth s _ config first
      [.adapt 100, .start, .advance alone, .adapt 100, .start, .advance alone] 1 3
      hreach nofun rfl (by decide) rfl (by simp) (by decide) (3, 7) (by decide)
    exact absurd hone (by decide)
  · intro hall
    have hone := hall smooth s _ config first
      [.adapt 100, .reclaimIdleCapacity, .start, .advance first, .adapt 100, .start, .advance first]
      1 3 hreach nofun rfl (by decide) rfl (by simp [first]) (by decide) (3, 7) (by decide)
    exact absurd hone (by decide)
  · intro hall
    have hrange := hall smooth _ _ 100 (.step (a := .advance alone) hreach trivial rfl) rfl
    exact absurd hrange.1 (by decide)

end SliceSystem

end BasisRust.Avatar
