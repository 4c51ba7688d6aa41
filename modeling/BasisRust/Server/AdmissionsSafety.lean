import BasisRust.Server.Admissions

/-!
# Admission decisions at the commit

A check that an admission has passed need not hold any more when its peer is inserted: the
restriction mode is not read again.  What does hold is relative to the reads of the admission.
After `set_restriction_mode(RejoinOnly)` has returned, and as long as the mode stays, an admission
that reads the configuration later is verified, and one that is checked later was in the rejoin
population then, or an editor of the configuration.  The peer limit is checked again under the
commit lock, so that no insertion goes beyond the limit the admission has read.

`Stepped` says once what a step can do; the results follow from it along a run.
-/

namespace BasisRust.Server.Admissions

open Library

/-! ### One step -/

/-- What a step does with the admissions, the commit lock and the peers. -/
inductive Stepped (s : State) : Action → State → Prop
  | other {act : Action} {s' : State} (admissions : s'.admissions = s.admissions)
      (commit : s'.commit = s.commit)
      (peers : s'.authenticated.length ≤ s.authenticated.length) : Stepped s act s'
  | arrived (peer : ℕ) (uuid : String) (verified : Bool) :
      Stepped s (.arrive peer uuid verified) (s.arrive peer uuid verified)
  | refused {act : Action} (u : ℕ) : Stepped s act (s.finish u)
  | configured {u : ℕ} {b : Admission} (hb : assocGet u s.admissions = some b)
      (hphase : b.phase = .arrived) (hverified : s.config.mode = .rejoinOnly → b.verified = true) :
      Stepped s (.readConfig u) (s.setPhase u b (.configured s.config))
  | checked {u : ℕ} {b : Admission} {config : Config} (hb : assocGet u s.admissions = some b)
      (hphase : b.phase = .configured config) (hadmitted : s.admissionRejection b.uuid = none) :
      Stepped s (.check u) (s.setPhase u b (.checked config))
  | committing {u : ℕ} {b : Admission} {config : Config} (hb : assocGet u s.admissions = some b)
      (hphase : b.phase = .checked config) (hfree : s.commit = none)
      (hroom : s.isFull config = false) :
      Stepped s (.lockCommit u) { s.setPhase u b (.committing config) with commit := some u }
  | inserted {u : ℕ} {b : Admission} {config : Config} (hb : assocGet u s.admissions = some b)
      (hphase : b.phase = .committing config) :
      Stepped s (.insert u) { s.finish u with
        authenticated := assocSet b.peer ⟨b.uuid, b.verified⟩ s.authenticated, commit := none }

section Step

variable {s s' : State} {act : Action} {t u : ℕ} {a b : Admission}

theorem stepped_of_admission (h : step s act = some s')
    (hact : act = .readConfig u ∨ act = .check u ∨ act = .lockCommit u ∨ act = .insert u) :
    Stepped s act s' := by
  rcases hact with rfl | rfl | rfl | rfl
  · simp only [step, State.readConfig] at h
    split at h
    · rename_i b hb
      split at h
      · rename_i hguard
        split at h
        · cases h
          exact .refused u
        · rename_i hverified
          cases h
          exact .configured hb hguard.2 fun hmode =>
            eq_true_of_ne_false fun hfalse => hverified ⟨hmode, hfalse⟩
      · cases h
    · cases h
  · simp only [step, State.check] at h
    split at h
    · rename_i b hb
      split at h
      · rename_i config hphase
        split at h
        · split at h
          · cases h
            exact .refused u
          · rename_i hrejection
            cases h
            exact .checked hb hphase hrejection
        · cases h
      · cases h
    · cases h
  · simp only [step, State.lockCommit] at h
    split at h
    · rename_i b hb
      split at h
      · rename_i config hphase
        split at h
        · rename_i hcommit
          split at h
          · cases h
            exact .refused u
          · rename_i hfull
            cases h
            exact .committing hb hphase hcommit (eq_false_of_ne_true hfull)
        · cases h
      · cases h
    · cases h
  · simp only [step, State.insert] at h
    split at h
    · rename_i b hb
      split at h
      · rename_i config hphase
        cases h
        exact .inserted hb hphase
      · cases h
    · cases h

theorem stepped_of_step (h : step s act = some s') : Stepped s act s' := by
  cases act with
  | arrive peer uuid verified =>
    cases h
    exact .arrived peer uuid verified
  | readConfig u => exact stepped_of_admission h (.inl rfl)
  | check u => exact stepped_of_admission h (.inr (.inl rfl))
  | lockCommit u => exact stepped_of_admission h (.inr (.inr (.inl rfl)))
  | insert u => exact stepped_of_admission h (.inr (.inr (.inr rfl)))
  | disconnect peer =>
    cases h
    exact .other rfl rfl (length_assocErase_le _ _)
  | refresh previous mode =>
    simp only [step, State.refresh, Option.some.injEq] at h
    split_ifs at h <;> cases h <;> exact .other rfl rfl (Nat.le_refl _)
  | moderate lists =>
    cases h
    exact .other rfl rfl (Nat.le_refl _)
  | beginMode mode =>
    simp only [step, State.beginMode] at h
    split at h <;> cases h
    exact .other rfl rfl (Nat.le_refl _)
  | storePopulation =>
    simp only [step, State.storePopulation] at h
    split at h
    · split at h <;> cases h
      exact .other rfl rfl (Nat.le_refl _)
    · cases h
  | endMode =>
    simp only [step, State.endMode] at h
    split at h
    · split at h <;> cases h
      exact .other rfl rfl (Nat.le_refl _)
    · cases h
  | storeRefresh i =>
    simp only [step, State.storeRefresh] at h
    split at h <;> cases h
    exact .other rfl rfl (Nat.le_refl _)
  | configure config =>
    simp only [step, State.configure] at h
    split at h <;> cases h
    exact .other rfl rfl (Nat.le_refl _)

/-- An admission with a new phase is the one that took the step, or it is as before. -/
theorem get_setPhase {phase : Phase} (h : assocGet t (s.setPhase u b phase).admissions = some a) :
    (t = u ∧ a = { b with phase }) ∨ assocGet t s.admissions = some a := by
  by_cases ht : t = u
  · subst ht
    have heq : some { b with phase } = some a := (assocGet_set_self _ _ _).symm.trans h
    exact .inl ⟨rfl, (Option.some.inj heq).symm⟩
  · exact .inr ((assocGet_set_of_ne ht _ _).symm.trans h)

/-- What an admission that is there after a step has gone through in it. -/
inductive Moved (s : State) (act : Action) (s' : State) (t : ℕ) (a : Admission) : Prop
  | stayed : assocGet t s.admissions = some a → Moved s act s' t a
  | arrived : a.phase = .arrived → Moved s act s' t a
  | configured {config : Config} : a.phase = .configured config →
      (s.config.mode = .rejoinOnly → a.verified = true) → Moved s act s' t a
  | checked {config : Config} : act = .check t → a.phase = .checked config →
      assocGet t s.admissions = some { a with phase := .configured config } →
      s.admissionRejection a.uuid = none → Moved s act s' t a
  | committing {config : Config} : a.phase = .committing config →
      assocGet t s.admissions = some { a with phase := .checked config } →
      s'.commit = some t → s'.isFull config = false → Moved s act s' t a

theorem admission_moved (h : step s act = some s') (ha : assocGet t s'.admissions = some a) :
    Moved s act s' t a := by
  cases stepped_of_step h with
  | other admissions commit peers => exact .stayed (admissions ▸ ha)
  | arrived peer uuid verified =>
    by_cases ht : t = s.nextToken
    · subst ht
      have heq : some ⟨peer, uuid, verified, .arrived⟩ = some a :=
        (assocGet_set_self _ _ _).symm.trans ha
      cases heq
      exact .arrived rfl
    · exact .stayed ((assocGet_set_of_ne ht _ _).symm.trans ha)
  | refused | inserted => exact .stayed (assocGet_of_erase ha)
  | configured hb hphase hverified =>
    rcases get_setPhase ha with ⟨rfl, rfl⟩ | hold
    · exact .configured rfl hverified
    · exact .stayed hold
  | checked hb hphase hadmitted =>
    rcases get_setPhase ha with ⟨rfl, rfl⟩ | hold
    · exact .checked rfl rfl (hphase ▸ hb) hadmitted
    · exact .stayed hold
  | committing hb hphase hfree hroom =>
    rcases get_setPhase ha with ⟨rfl, rfl⟩ | hold
    · exact .committing rfl (hphase ▸ hb) rfl hroom
    · exact .stayed hold

end Step

/-! ### The peer limit -/

variable {s : State} {act : Action} {as : List Action} {t : ℕ} {a : Admission}

/-- An admission that is about to commit holds the lock, and there is room for its peer. -/
def Room (s : State) : Prop :=
  ∀ t a config, assocGet t s.admissions = some a → a.phase = .committing config →
    s.commit = some t ∧ s.isFull config = false

theorem isFull_mono {s' : State} {config : Config}
    (h : s'.authenticated.length ≤ s.authenticated.length) (hroom : s.isFull config = false) :
    s'.isFull config = false := by
  unfold State.isFull at *
  rw [Bool.and_eq_false_iff] at *
  refine hroom.imp_right fun hcount => ?_
  rw [decide_eq_false_iff_not, Nat.not_le] at *
  exact Nat.lt_of_le_of_lt h hcount

theorem room_step {s' : State} (hr : Room s) (h : step s act = some s') : Room s' := by
  intro t a config ha hphase
  cases admission_moved h ha with
  | arrived harrived => cases harrived.symm.trans hphase
  | configured hconfigured hverified => cases hconfigured.symm.trans hphase
  | checked hact hchecked hold hadmitted => cases hchecked.symm.trans hphase
  | committing hcommitting hold hcommit hroom =>
    cases hcommitting.symm.trans hphase
    exact ⟨hcommit, hroom⟩
  | stayed hold =>
    -- the admission was about to commit before the step, and held the lock
    obtain ⟨hcommit, hroom⟩ := hr t a config hold hphase
    cases stepped_of_step h with
    | other admissions commit peers => exact ⟨commit.trans hcommit, isFull_mono peers hroom⟩
    | arrived | refused | configured | checked => exact ⟨hcommit, hroom⟩
    | committing hb hb' hfree hroom' => cases hfree.symm.trans hcommit
    | @inserted u b config' hb hb' =>
      -- only the holder of the lock inserts, and then its admission is over
      cases (hr u b config' hb hb').1.symm.trans hcommit
      have hgone : assocGet t (s.finish t).admissions = none := assocGet_erase_self _ _
      cases hgone.symm.trans ha

theorem room_of_reachable (h : Reachable system (fun _ _ => True) s) : Room s := by
  refine h.invariant Room ?_ fun s act s' hr _ hs => room_step hr hs
  rintro s ⟨config, lists, -, rfl⟩ t a c ha
  cases ha

theorem length_after_insert (peer : ℕ) (x : Peer) :
    (assocSet peer x s.authenticated).length ≤ s.authenticated.length + 1 :=
  Nat.succ_le_succ (length_assocErase_le _ _)

/-! ### The rejoin-only mode -/

/-- The run has checked the admission, and at that step its identity was in the rejoin population or
held the right to edit the configuration. -/
def CheckedIn (s₀ : State) (as : List Action) (t : ℕ) (a : Admission) : Prop :=
  ∃ before after sc config, as = before ++ .check t :: after ∧
    runActions system s₀ before = some sc ∧
    assocGet t sc.admissions = some { a with phase := .configured config } ∧
    (a.uuid ∈ sc.population ∨ a.uuid ∈ sc.lists.editors)

/-- What an admission has gone through in a run, or had gone through before. -/
structure Since (s₀ : State) (as : List Action) (t : ℕ) (a : Admission) : Prop where
  verified : a.phase ≠ .arrived → a.verified = true ∨
    ∃ phase, assocGet t s₀.admissions = some { a with phase } ∧ phase ≠ .arrived
  checked : a.phase.isChecked = true → CheckedIn s₀ as t a ∨
    ∃ phase, assocGet t s₀.admissions = some { a with phase } ∧ phase.isChecked = true

/-- In the rejoin-only mode the check asks for the population or for the permission. -/
theorem may_rejoin {uuid : String} (hmode : s.config.mode = .rejoinOnly)
    (h : s.admissionRejection uuid = none) : uuid ∈ s.population ∨ uuid ∈ s.lists.editors := by
  unfold State.admissionRejection at h
  rw [hmode] at h
  by_contra hneither
  rw [not_or] at hneither
  have hpopulation : s.canRejoin uuid = false := by simpa [State.canRejoin] using hneither.1
  have heditors : s.lists.editors.contains uuid = false := by simpa using hneither.2
  split at h
  · cases h
  split at h
  · cases h
  split at h
  · cases h
  rw [if_pos ⟨rfl, hpopulation, heditors⟩] at h
  cases h

theorem CheckedIn.cons {s₁ : State} (hstep : step s act = some s₁) (h : CheckedIn s₁ as t a) :
    CheckedIn s (act :: as) t a := by
  obtain ⟨before, after, sc, config, rfl, hrun, hget, hright⟩ := h
  refine ⟨act :: before, after, sc, config, rfl, ?_, hget, hright⟩
  have hfirst : system.step s act = some s₁ := hstep
  rw [runActions, hfirst]
  exact hrun

/-- One step more at the beginning of the run. -/
theorem Since.cons {s₁ : State} (hlocked : s.config.mode = .rejoinOnly)
    (hstep : step s act = some s₁) (h : Since s₁ as t a) : Since s (act :: as) t a := by
  constructor
  · intro hphase
    rcases h.verified hphase with hverified | ⟨phase, hget, hlater⟩
    · exact .inl hverified
    · cases admission_moved hstep hget with
      | stayed hold => exact .inr ⟨phase, hold, hlater⟩
      | arrived harrived => exact absurd harrived hlater
      | configured hconfigured hverified => exact .inl (hverified hlocked)
      | checked _ _ hold | committing _ hold => exact .inr ⟨_, hold, nofun⟩
  · intro hphase
    rcases h.checked hphase with hchecked | ⟨phase, hget, hlater⟩
    · exact .inl (hchecked.cons hstep)
    · cases admission_moved hstep hget with
      | stayed hold => exact .inr ⟨phase, hold, hlater⟩
      | arrived harrived =>
        rw [show phase = .arrived from harrived] at hlater
        cases hlater
      | configured hconfigured hverified =>
        rw [show phase = _ from hconfigured] at hlater
        cases hlater
      | checked hact hchecked hold hadmitted =>
        exact .inl ⟨[], as, s, _, by rw [hact]; rfl, rfl, hold, may_rejoin hlocked hadmitted⟩
      | committing hcommitting hold hcommit hroom => exact .inr ⟨_, hold, rfl⟩

theorem since_of_run {s₀ : State} (hlocked : s₀.config.mode = .rejoinOnly)
    (hkeeps : Admits system KeepsRejoinOnly s₀ as) (hrun : runActions system s₀ as = some s)
    (ha : assocGet t s.admissions = some a) : Since s₀ as t a := by
  induction as generalizing s₀ with
  | nil =>
    obtain rfl : s₀ = s := Option.some.inj hrun
    exact ⟨fun hphase => .inr ⟨a.phase, ha, hphase⟩, fun hphase => .inr ⟨a.phase, ha, hphase⟩⟩
  | cons act as ih =>
    cases hstep : system.step s₀ act with
    | none =>
      rw [runActions, hstep] at hrun
      cases hrun
    | some s₁ =>
      rw [runActions, hstep] at hrun
      exact .cons hlocked hstep (ih (hkeeps.1 s₁ hstep) (hkeeps.2 s₁ hstep) hrun)

/-- **What an insertion can rely on.** -/
theorem admission_decisions_hold {s s' : State} {t : ℕ} {a : Admission}
    (hs : Reachable system (fun _ _ => True) s) (ha : assocGet t s.admissions = some a)
    (hinsert : step s (.insert t) = some s') :
    (∀ config, a.phase = .committing config → 0 < config.peerLimit →
      (s'.authenticated.length : ℤ) ≤ config.peerLimit) ∧
    ∀ s₀ as, Reachable system (fun _ _ => True) s₀ → s₀.config.mode = .rejoinOnly →
      s₀.writer = none →
      Admits system KeepsRejoinOnly s₀ as → runActions system s₀ as = some s →
      ((∀ a₀, assocGet t s₀.admissions = some a₀ → a₀.phase = .arrived) → a.verified = true) ∧
      ((∀ a₀, assocGet t s₀.admissions = some a₀ → a₀.phase.isChecked = false) →
        CheckedIn s₀ as t a) := by
  obtain ⟨b, config, hb, hphase, rfl⟩ : ∃ (b : Admission) (config : Config),
      assocGet t s.admissions = some b ∧ b.phase = .committing config ∧ s' = { s.finish t with
        authenticated := assocSet b.peer ⟨b.uuid, b.verified⟩ s.authenticated
        commit := none } := by
    simp only [step, State.insert] at hinsert
    split at hinsert
    · rename_i b hb
      split at hinsert
      · rename_i config hphase
        exact ⟨b, config, hb, hphase, (Option.some.inj hinsert).symm⟩
      · cases hinsert
    · cases hinsert
  obtain rfl : b = a := Option.some.inj (hb.symm.trans ha)
  constructor
  · intro config' hconfig hlimit
    cases hconfig.symm.trans hphase
    have hroom := (room_of_reachable hs t b config hb hphase).2
    unfold State.isFull at hroom
    rw [decide_eq_true hlimit, Bool.true_and, decide_eq_false_iff_not, Nat.not_le] at hroom
    have hlength : (assocSet b.peer ⟨b.uuid, b.verified⟩ s.authenticated).length ≤
        s.authenticated.length + 1 := length_after_insert _ _
    show ((assocSet b.peer ⟨b.uuid, b.verified⟩ s.authenticated).length : ℤ) ≤ config.peerLimit
    omega
  · intro s₀ as _ hlocked _ hkeeps hrun
    have hsince := since_of_run hlocked hkeeps hrun hb
    refine ⟨fun hfresh => ?_, fun hfresh => ?_⟩
    · rcases hsince.verified (by simp [hphase]) with hverified | ⟨phase, ha₀, hp⟩
      · exact hverified
      · exact absurd (hfresh _ ha₀) hp
    · rcases hsince.checked (by rw [hphase]; rfl) with hchecked | ⟨phase, ha₀, hp⟩
      · exact hchecked
      · cases (hfresh _ ha₀).symm.trans hp

/-! ### Two runs -/

instance (s : State) (a : Action) : Decidable (KeepsRejoinOnly s a) :=
  match h : step s a with
  | none => isTrue fun s' hs => by
      rw [h] at hs
      cases hs
  | some s' =>
    decidable_of_iff (s'.config.mode = .rejoinOnly)
      ⟨fun hmode x hx => by
        rw [h, Option.some.injEq] at hx
        exact hx ▸ hmode, fun hall => hall s' h⟩

/-- A server with room for eight peers and one editor of the configuration. -/
def small : State := .initial ⟨.normal, 8⟩ ⟨[], [], [], ["e"]⟩

def lock : List Action := [.beginMode .rejoinOnly, .storePopulation, .endMode]

/-- An admission up to its commit. -/
def admission (t peer : ℕ) (uuid : String) : List Action :=
  [.arrive peer uuid true, .readConfig t, .check t, .lockCommit t]

/-- The state at the end of a list of actions that are all enabled. -/
def endOf (s : State) (as : List Action) : State := (runActions system s as).getD s

theorem run_endOf (h : (runActions system s as).isSome = true) :
    runActions system s as = some (endOf s as) := by
  obtain ⟨s', hs'⟩ := Option.isSome_iff_exists.mp h
  rw [endOf, hs']
  rfl

theorem reachable_endOf (hs : Reachable system (fun _ _ => True) s)
    (h : (runActions system s as).isSome = true) :
    Reachable system (fun _ _ => True) (endOf s as) :=
  reachable_runActions (.of_forall (fun _ _ => trivial) _ _) hs (run_endOf h)

theorem small_reachable : Reachable system (fun _ _ => True) small :=
  .init ⟨⟨.normal, 8⟩, ⟨[], [], [], ["e"]⟩, by decide, rfl⟩

/-- Peer 1 was there when the server was locked, and has left. -/
def lockedWithOne : State :=
  endOf small (admission 0 1 "a" ++ [.insert 0] ++ lock ++ [.disconnect 1])

/-- Its admission is checked between two changes of the lists. -/
def rejoin : List Action :=
  [.arrive 1 "a" true, .readConfig 1, .check 1, .moderate ⟨["a"], [], [], []⟩, .lockCommit 1]

theorem admission_decisions_hold_rejoin :
    ((endOf (endOf lockedWithOne rejoin) [.insert 1]).authenticated.length : ℤ) ≤ 8 ∧
      CheckedIn lockedWithOne rejoin 1 ⟨1, "a", true, .committing ⟨.rejoinOnly, 8⟩⟩ := by
  have hlocked : Reachable system (fun _ _ => True) lockedWithOne :=
    reachable_endOf small_reachable (by decide)
  have hresult := @admission_decisions_hold (endOf lockedWithOne rejoin)
    (endOf (endOf lockedWithOne rejoin) [.insert 1]) 1 ⟨1, "a", true, .committing ⟨.rejoinOnly, 8⟩⟩
    (reachable_endOf hlocked (by decide)) (by decide) (by decide)
  refine ⟨hresult.1 _ rfl (by decide), ?_⟩
  refine (hresult.2 lockedWithOne rejoin hlocked (by decide) (by decide) (by decide)
    (run_endOf (by decide))).2 ?_
  intro a₀ ha₀
  cases ha₀

/-- An editor of the configuration is inserted although no such identity was there when the server
was locked, and so is a peer whose admission was checked before. -/
theorem admitted_outside_population :
    (∃ s₀ as s s', Reachable system (fun _ _ => True) s₀ ∧ s₀.config.mode = .rejoinOnly ∧
      s₀.writer = none ∧ Admits system KeepsRejoinOnly s₀ as ∧ runActions system s₀ as = some s ∧
      step s (.insert 0) = some s' ∧ s'.authenticated = [(1, ⟨"e", true⟩)] ∧ "e" ∉ s'.population) ∧
    ∃ s₀ as s s', Reachable system (fun _ _ => True) s₀ ∧ s₀.config.mode = .rejoinOnly ∧
      s₀.writer = none ∧ Admits system KeepsRejoinOnly s₀ as ∧ runActions system s₀ as = some s ∧
      step s (.insert 0) = some s' ∧ s'.authenticated = [(1, ⟨"x", true⟩)] ∧
        "x" ∉ s'.population := by
  constructor
  · exact ⟨endOf small lock, admission 0 1 "e", _, endOf (endOf (endOf small lock)
      (admission 0 1 "e")) [.insert 0], reachable_endOf small_reachable (by decide), by decide,
      by decide, by decide, run_endOf (by decide), by decide, by decide, by decide⟩
  · exact ⟨endOf small (admission 0 1 "x" ++ lock), [], _, endOf (endOf small
      (admission 0 1 "x" ++ lock)) [.insert 0],
        reachable_endOf small_reachable (by decide), by decide,
      by decide, trivial, rfl, by decide, by decide, by decide⟩

end BasisRust.Server.Admissions
