import BasisRust.Server.Registry

/-!
# The accounting of the resource registry

An operation that is done has done what the operation of `ResourceState` does in one step
(`advance_settled`), because nobody else can touch the registry while it holds the write lock.  So
the counts are right as soon as each of these operations keeps them right (`Accounted`).
-/

namespace BasisRust.Server

open Library

variable {δ : Type}

/-! ### One operation -/

namespace ResourceState

theorem isEmpty_eq_false {c : String} (h : c ≠ "") : c.isEmpty = false := by
  rw [Bool.eq_false_iff, ne_eq, String.isEmpty_iff]
  exact h

theorem countOf_noteResourceRemoved {counts : List (String × ℕ)} {creator c : String}
    (hc : c ≠ "") :
    (assocGet c (noteResourceRemoved counts creator)).getD 0 =
      (assocGet c counts).getD 0 - if creator = c then 1 else 0 := by
  unfold noteResourceRemoved
  by_cases hempty : creator.isEmpty = true
  · rw [if_pos hempty, if_neg (by rw [String.isEmpty_iff.mp hempty]; exact Ne.symm hc),
      Nat.sub_zero]
  · rw [if_neg hempty]
    by_cases heq : creator = c
    · subst heq
      rw [if_pos rfl]
      split
      · rename_i hget
        rw [hget]
        rfl
      · rename_i hget
        rw [hget]
        rfl
      · rename_i hget
        rw [assocGet_erase_self, hget]
        rfl
      · rename_i hget
        rw [assocGet_set_self, hget]
        rfl
    · rw [if_neg heq, Nat.sub_zero]
      split
      · rfl
      · rfl
      · rw [assocGet_erase_of_ne (Ne.symm heq)]
      · rw [assocGet_set_of_ne (Ne.symm heq)]

/-- Each resource has an id of its own, and the numbers that are kept are those of the resources. -/
structure Accounted (st : ResourceState (ResourceBody (StaticBody δ))) : Prop where
  nodup : AssocNodup st.resources
  counts : ∀ c, c ≠ "" → st.countOf c = st.loadedBy c

section

variable {st : ResourceState (ResourceBody (StaticBody δ))} {id creator : String}
  {resource old : Resource δ} {maxPerCreator : ℕ}

theorem Accounted.empty : Accounted (⟨[], [], []⟩ : ResourceState (ResourceBody (StaticBody δ))) :=
  ⟨.nil, fun _ _ => rfl⟩

variable (resource) in
theorem loadedBy_set (hnodup : AssocNodup st.resources) (hget : assocGet id st.resources = none)
    (c : String) (counts : List (String × ℕ)) (sessions : List (String × PreloadSession)) :
    (⟨assocSet id resource st.resources, counts, sessions⟩ :
        ResourceState (ResourceBody (StaticBody δ))).loadedBy c =
      st.loadedBy c + if resource.uuidOfCreator = c then 1 else 0 := by
  have hsum := hnodup.sum_put (fun r : Resource δ => if r.uuidOfCreator = c then 1 else 0) id
    (some resource)
  rw [hget] at hsum
  exact hsum

theorem loadedBy_erase (hnodup : AssocNodup st.resources)
    (hget : assocGet id st.resources = some resource) (c : String) (counts : List (String × ℕ))
    (sessions : List (String × PreloadSession)) :
    (⟨assocErase id st.resources, counts, sessions⟩ :
        ResourceState (ResourceBody (StaticBody δ))).loadedBy c =
      st.loadedBy c - if resource.uuidOfCreator = c then 1 else 0 := by
  have hsum := hnodup.sum_erase (fun r : Resource δ => if r.uuidOfCreator = c then 1 else 0) id
  rw [hget, Option.elim] at hsum
  show assocSum _ (assocErase id st.resources) = assocSum _ st.resources - _
  rw [← hsum, Nat.add_sub_cancel]

theorem loadedBy_replace (hnodup : AssocNodup st.resources)
    (hget : assocGet id st.resources = some old)
    (hsame : resource.uuidOfCreator = old.uuidOfCreator) (c : String) :
    ({ st with resources := assocSet id resource st.resources } :
        ResourceState (ResourceBody (StaticBody δ))).loadedBy c = st.loadedBy c := by
  have hsum := hnodup.sum_put (fun r : Resource δ => if r.uuidOfCreator = c then 1 else 0) id
    (some resource)
  rw [hget, Option.elim, Option.elim, hsame] at hsum
  exact Nat.add_right_cancel hsum

/-- **A resource is registered**: it is counted unless its creator is anonymous. -/
theorem Accounted.insert (h : Accounted st) (hget : assocGet id st.resources = none)
    {counts : List (String × ℕ)} (hcounts : ∀ c, c ≠ "" → (assocGet c counts).getD 0 =
      st.countOf c + if resource.uuidOfCreator = c then 1 else 0) :
    Accounted { st with
      resources := assocSet id resource st.resources
      creatorCounts := counts } where
  nodup := h.nodup.put id (some resource)
  counts c hc := by
    rw [loadedBy_set _ h.nodup hget, ← h.counts c hc]
    exact hcounts c hc

theorem countOf_succ (st : ResourceState (ResourceBody (StaticBody δ))) (creator c : String) :
    (assocGet c (assocSet creator (st.countOf creator + 1) st.creatorCounts)).getD 0 =
      st.countOf c + if creator = c then 1 else 0 := by
  by_cases heq : creator = c
  · subst heq
    rw [assocGet_set_self, if_pos rfl]
    rfl
  · rw [assocGet_set_of_ne (Ne.symm heq), if_neg heq]
    rfl

section

variable (h : Accounted st)
include h

theorem Accounted.insertResource {st' : ResourceState (ResourceBody (StaticBody δ))}
    (hs : st.insertResource resource maxPerCreator = some st') : Accounted st' := by
  unfold ResourceState.insertResource at hs
  split at hs
  · cases hs
  · split at hs
    · cases hs
    · rename_i hnew
      have hget : assocGet resource.loadedNetId st.resources = none :=
        Option.not_isSome_iff_eq_none.mp hnew
      dsimp only at hs
      split at hs
      · rename_i hempty
        cases hs
        refine h.insert hget fun c hc => ?_
        rw [if_neg (by rw [String.isEmpty_iff.mp hempty]; exact Ne.symm hc)]
        rfl
      · split at hs
        · cases hs
        · cases hs
          exact h.insert hget fun c _ => countOf_succ st resource.uuidOfCreator c

theorem Accounted.sessions (sessions : List (String × PreloadSession)) :
    Accounted { st with preloadSessions := sessions } :=
  ⟨h.nodup, h.counts⟩

theorem Accounted.register (preload : Option PreloadStart) :
    Accounted ((Section.register st resource maxPerCreator preload).getD st) := by
  cases preload with
  | none =>
    show Accounted ((st.insertResource resource maxPerCreator).getD st)
    cases hs : st.insertResource resource maxPerCreator with
    | none => exact h
    | some st' => exact h.insertResource hs
  | some p =>
    obtain ⟨peers, now⟩ := p
    show Accounted (((st.insertResource resource maxPerCreator).map _).getD st)
    cases hs : st.insertResource resource maxPerCreator with
    | none => exact h
    | some st' => exact (h.insertResource hs).sessions _

theorem Accounted.unload (hget : assocGet id st.resources = some resource)
    (sessions : List (String × PreloadSession)) : Accounted
      { resources := assocErase id st.resources
        creatorCounts := noteResourceRemoved st.creatorCounts resource.uuidOfCreator
        preloadSessions := sessions } where
  nodup := h.nodup.erase id
  counts c hc := by
    rw [loadedBy_erase h.nodup hget, ← h.counts c hc]
    exact countOf_noteResourceRemoved hc

theorem Accounted.removeListed (closes : Bool) (ids : List String) :
    Accounted (st.removeListed closes ids).2 := by
  induction ids generalizing st with
  | nil => exact h
  | cons id ids ih =>
    rw [ResourceState.removeListed]
    cases hget : assocGet id st.resources with
    | none => exact ih h
    | some resource => exact ih (h.unload hget _)

theorem Accounted.modify (hget : assocGet id st.resources = some old) (committed : ModifyResource) :
    Accounted { st with resources := assocSet id (old.modify committed) st.resources } where
  nodup := h.nodup.put id (some (old.modify committed))
  counts c hc := by
    have hsame : (old.modify committed).uuidOfCreator = old.uuidOfCreator := rfl
    rw [loadedBy_replace h.nodup hget hsame, ← h.counts c hc]
    rfl

end

end

end ResourceState

open ResourceState

/-! ### What a step can do -/

namespace Registry

inductive Moved (s : Registry δ) : Action δ → Registry δ → Prop
  | same (a : Action δ) : Moved s a s
  | insert (resource : Resource δ) (maxPerCreator : ℕ) (preload : Option PreloadStart)
    (hfree : s.holder = none) (hid : resource.loadedNetId ≠ "")
    (hget : assocGet resource.loadedNetId s.store.resources = none)
    (hcreator : resource.uuidOfCreator = "") :
    Moved s (.load resource maxPerCreator preload) (s.insert resource preload)
  | count (resource : Resource δ) (maxPerCreator : ℕ) (preload : Option PreloadStart)
    (hfree : s.holder = none) (hid : resource.loadedNetId ≠ "")
    (hget : assocGet resource.loadedNetId s.store.resources = none)
    (hcreator : resource.uuidOfCreator ≠ "") :
    Moved s (.load resource maxPerCreator preload)
      { s with holder := some (.counting resource maxPerCreator preload) }
  | unload (id : String) (allowed : Resource δ → Bool) (resource : Resource δ)
    (hfree : s.holder = none) (hget : assocGet id s.store.resources = some resource) :
    Moved s (.unload id allowed)
      { s with
        store := { s.store with resources := assocErase id s.store.resources }
        holder := some (.closing id resource.uuidOfCreator none) }
  | modify (message : ModifyResource) (allowed : Resource δ → Bool) (resource : Resource δ)
    (committed : ModifyResource) (hfree : s.holder = none)
    (hget : assocGet message.loadedNetId s.store.resources = some resource) :
    Moved s (.modify message allowed)
      { s with
        store := { s.store with
          resources := assocSet message.loadedNetId (resource.modify committed)
            s.store.resources } }
  | list (sweep : Sweep) (ids : List String) (hfree : s.holder = none)
    (hperm : ids.Perm (s.store.listed sweep)) :
    Moved s (.list sweep ids) { s with sweeping := s.sweeping ++ [(sweep, ids)] }
  | removeListed (i : ℕ) (sweep : Sweep) (ids : List String) (hfree : s.holder = none)
    (hget : s.sweeping[i]? = some (sweep, ids)) :
    Moved s (.removeListed i)
      { s with sweeping := s.sweeping.eraseIdx i, holder := some (.removing sweep ids) }
  | advance (section_ : Section δ) (hheld : s.holder = some section_) :
    Moved s .advance (s.advance section_)

variable {s s' : Registry δ} {a : Action δ}

theorem step_moved (hs : s.step a = some s') : Moved s a s' := by
  cases a with simp only [step] at hs
  | load resource maxPerCreator preload =>
    split_ifs at hs with hheld hid hget hcreator <;> cases hs
    · exact .same _
    · exact .same _
    · exact .insert _ _ _ (Option.not_isSome_iff_eq_none.mp hheld)
        (mt String.isEmpty_iff.mpr hid) (Option.not_isSome_iff_eq_none.mp hget)
        (String.isEmpty_iff.mp hcreator)
    · exact .count _ _ _ (Option.not_isSome_iff_eq_none.mp hheld)
        (mt String.isEmpty_iff.mpr hid) (Option.not_isSome_iff_eq_none.mp hget)
        (mt String.isEmpty_iff.mpr hcreator)
  | unload id allowed =>
    split at hs
    · cases hs
    · rename_i hheld
      split at hs
      · cases hs
        exact .same _
      · rename_i resource hget
        split at hs <;> cases hs
        · exact .same _
        · exact .unload id allowed resource (Option.not_isSome_iff_eq_none.mp hheld) hget
  | modify message allowed =>
    simp only [modifyResourceIf] at hs
    split at hs
    · cases hs
    · rename_i hheld
      cases hget : assocGet message.loadedNetId s.store.resources with
      | none =>
        rw [hget] at hs
        cases hs
        exact .same _
      | some resource =>
        rw [hget] at hs
        dsimp only at hs
        by_cases hallowed : (!allowed resource) = true
        · rw [if_pos hallowed] at hs
          cases hs
          exact .same _
        · rw [if_neg hallowed] at hs
          cases hs
          exact .modify message allowed resource _ (Option.not_isSome_iff_eq_none.mp hheld) hget
  | list sweep ids =>
    split at hs <;> cases hs
    rename_i hcond
    obtain ⟨hheld, hperm⟩ := not_or.mp hcond
    exact .list sweep ids (Option.not_isSome_iff_eq_none.mp hheld) (not_not.mp hperm)
  | removeListed i =>
    split at hs
    · cases hs
    · rename_i hheld
      split at hs <;> cases hs
      rename_i sweep ids hget
      exact .removeListed i sweep ids (Option.not_isSome_iff_eq_none.mp hheld) hget
  | advance =>
    simp only [Option.map_eq_some_iff] at hs
    obtain ⟨section_, hheld, rfl⟩ := hs
    exact .advance section_ hheld

/-! ### Operations as single steps -/

theorem finish_resume (st : ResourceState (ResourceBody (StaticBody δ)))
    (sweep : Option (Sweep × List String)) :
    Section.finish st (Section.resume sweep) = Section.finishSweep st sweep := by
  cases sweep <;> rfl

theorem finish_uncount (st : ResourceState (ResourceBody (StaticBody δ))) (creator : String)
    (sweep : Option (Sweep × List String)) :
    Section.finish st (Section.uncount creator sweep) =
      Section.finishSweep
        { st with creatorCounts := noteResourceRemoved st.creatorCounts creator } sweep := by
  unfold Section.uncount noteResourceRemoved
  split
  · exact finish_resume st sweep
  · rename_i hne
    show Section.finishSweep
      { st with creatorCounts := noteResourceRemoved st.creatorCounts creator } sweep = _
    unfold noteResourceRemoved
    rw [if_neg hne]

variable {st : ResourceState (ResourceBody (StaticBody δ))} {resource : Resource δ}

theorem insertResource_counted (maxPerCreator : ℕ) (hid : resource.loadedNetId ≠ "")
    (hget : assocGet resource.loadedNetId st.resources = none)
    (hcreator : resource.uuidOfCreator ≠ "") :
    st.insertResource resource maxPerCreator =
      if maxPerCreator ≤ st.countOf resource.uuidOfCreator then none
      else
        some { st with
          resources := assocSet resource.loadedNetId resource st.resources
          creatorCounts := assocSet resource.uuidOfCreator
            (st.countOf resource.uuidOfCreator + 1) st.creatorCounts } := by
  unfold insertResource
  rw [isEmpty_eq_false hid, isEmpty_eq_false hcreator, hget]
  rfl

theorem insertResource_anonymous (maxPerCreator : ℕ) (hid : resource.loadedNetId ≠ "")
    (hget : assocGet resource.loadedNetId st.resources = none)
    (hcreator : resource.uuidOfCreator = "") :
    st.insertResource resource maxPerCreator =
      some { st with resources := assocSet resource.loadedNetId resource st.resources } := by
  unfold insertResource
  rw [isEmpty_eq_false hid, hget, hcreator]
  rfl

/-- A registered resource has its place in the map and, if it is preloaded, a session. -/
theorem register_of_insert {st' : ResourceState (ResourceBody (StaticBody δ))} {maxPerCreator : ℕ}
    (h : st.insertResource resource maxPerCreator = some st') (preload : Option PreloadStart) :
    Section.register st resource maxPerCreator preload =
      some (Section.finish st' (preload.map (.opening resource.loadedNetId))) := by
  cases preload with
  | none => exact h
  | some p =>
    show (st.insertResource resource maxPerCreator).map _ = _
    rw [h]
    rfl

theorem register_of_refused {maxPerCreator : ℕ}
    (h : st.insertResource resource maxPerCreator = none) (preload : Option PreloadStart) :
    Section.register st resource maxPerCreator preload = none := by
  cases preload with
  | none => exact h
  | some p =>
    show (st.insertResource resource maxPerCreator).map _ = _
    rw [h]
    rfl

theorem advance_gone {sweep : Sweep} {id : String} {ids : List String}
    (hget : assocGet id s.store.resources = none) :
    s.advance (.removing sweep (id :: ids)) = { s with holder := some (.removing sweep ids) } := by
  simp only [advance, hget]

theorem advance_removed {sweep : Sweep} {id : String} {ids : List String}
    (hget : assocGet id s.store.resources = some resource) :
    s.advance (.removing sweep (id :: ids)) =
      { s with
        store := { s.store with resources := assocErase id s.store.resources }
        holder :=
          if sweep.closes then some (.closing id resource.uuidOfCreator (some (sweep, ids)))
          else Section.uncount resource.uuidOfCreator (some (sweep, ids))
        removed := s.removed ++ [(sweep, resource)] } := by
  simp only [advance, hget]

/-- What holds while a load waits for the lock of the counts. -/
structure Waiting (s : Registry δ) (resource : Resource δ) : Prop where
  accounted : Accounted s.store
  id : resource.loadedNetId ≠ ""
  fresh : assocGet resource.loadedNetId s.store.resources = none
  creator : resource.uuidOfCreator ≠ ""

structure Inv (s : Registry δ) : Prop where
  settled : Accounted s.settled
  waiting : ∀ resource maxPerCreator preload,
    s.holder = some (.counting resource maxPerCreator preload) → Waiting s resource
  loads : ∀ x ∈ s.loads, x.loaded ≤ x.maxPerCreator

/-- **The operation that holds the lock does the same whatever is in between.** -/
theorem advance_settled (h : Inv s) {section_ : Section δ} (hheld : s.holder = some section_) :
    (s.advance section_).settled = s.settled := by
  unfold settled
  rw [hheld]
  cases section_ with
  | counting resource maxPerCreator preload =>
    obtain ⟨-, hid, hget, hcreator⟩ := h.waiting _ _ _ hheld
    have hinsert := insertResource_counted maxPerCreator hid hget hcreator
    show _ = (Section.register s.store resource maxPerCreator preload).getD s.store
    unfold advance
    dsimp only
    split
    · rename_i hmax
      rw [if_pos hmax] at hinsert
      rw [register_of_refused hinsert]
      rfl
    · rename_i hmax
      rw [if_neg hmax] at hinsert
      rw [register_of_insert hinsert]
      rfl
  | opening id preload => rfl
  | closing id creator sweep => exact finish_uncount _ creator sweep
  | uncounting creator sweep => exact finish_resume _ sweep
  | removing sweep ids =>
    cases ids with
    | nil => rfl
    | cons id ids =>
      show _ = (s.store.removeListed sweep.closes (id :: ids)).2
      rw [removeListed]
      cases hget : assocGet id s.store.resources with
      | none =>
        rw [advance_gone hget]
        rfl
      | some resource =>
        rw [advance_removed hget]
        dsimp only
        cases hcloses : sweep.closes with
        | false =>
          rw [if_neg Bool.false_ne_true, if_neg Bool.false_ne_true]
          refine (finish_uncount _ resource.uuidOfCreator (some (sweep, ids))).trans ?_
          show (removeListed sweep.closes _ ids).2 = _
          rw [hcloses]
        | true =>
          rw [if_pos rfl, if_pos rfl]
          show (removeListed sweep.closes _ ids).2 = _
          rw [hcloses]

theorem settled_of_free (hfree : s.holder = none) : s.settled = s.store := by
  unfold settled
  rw [hfree]
  rfl

/-! ### Every step keeps the accounts -/

theorem Inv.empty : Inv (empty : Registry δ) where
  settled := .empty
  waiting := nofun
  loads := nofun

theorem Inv.store (h : Inv s) (hfree : s.holder = none) : Accounted s.store :=
  settled_of_free hfree ▸ h.settled

/-- A step that waits for no lock of the counts and counts no load. -/
theorem Inv.frame (h : Inv s) (hsettled : Accounted s'.settled)
    (hholder : ∀ resource maxPerCreator preload,
      s'.holder ≠ some (.counting resource maxPerCreator preload))
    (hloads : s'.loads = s.loads) : Inv s' where
  settled := hsettled
  waiting _ _ _ hheld := absurd hheld (hholder _ _ _)
  loads := hloads ▸ h.loads

theorem resume_ne_counting (sweep : Option (Sweep × List String)) (resource : Resource δ)
    (maxPerCreator : ℕ) (preload : Option PreloadStart) :
    Section.resume sweep ≠ some (.counting resource maxPerCreator preload) := by
  cases sweep <;> nofun

theorem uncount_ne_counting (creator : String) (sweep : Option (Sweep × List String))
    (resource : Resource δ) (maxPerCreator : ℕ) (preload : Option PreloadStart) :
    Section.uncount creator sweep ≠ some (.counting resource maxPerCreator preload) := by
  unfold Section.uncount
  split
  · exact resume_ne_counting sweep resource maxPerCreator preload
  · nofun

theorem opening_ne_counting (id : String) (preload : Option PreloadStart) (resource : Resource δ)
    (maxPerCreator : ℕ) (preload' : Option PreloadStart) :
    preload.map (Section.opening id) ≠ some (Section.counting resource maxPerCreator preload') := by
  cases preload <;> nofun

/-- **The number of a creator's resources stays within the limit of each of its loads.** -/
theorem Inv.advance (h : Inv s) {section_ : Section δ} (hheld : s.holder = some section_) :
    Inv (s.advance section_) := by
  have hsettled : Accounted (s.advance section_).settled := by
    rw [advance_settled h hheld]
    exact h.settled
  cases section_ with
  | counting resource maxPerCreator preload =>
    obtain ⟨haccounted, hid, hget, hcreator⟩ := h.waiting _ _ _ hheld
    unfold Registry.advance at hsettled ⊢
    dsimp only at hsettled ⊢
    split
    · rename_i hmax
      rw [if_pos hmax] at hsettled
      exact h.frame hsettled nofun rfl
    · rename_i hmax
      rw [if_neg hmax] at hsettled
      refine ⟨hsettled, fun _ _ _ hcounting => absurd hcounting (opening_ne_counting _ _ _ _ _),
        fun x hx => ?_⟩
      rcases List.mem_append.mp hx with hx | hx
      · exact h.loads x hx
      · rw [List.mem_singleton.mp hx]
        have hloaded := loadedBy_set resource haccounted.nodup hget resource.uuidOfCreator
          (assocSet resource.uuidOfCreator (s.store.countOf resource.uuidOfCreator + 1)
            s.store.creatorCounts) s.store.preloadSessions
        rw [if_pos rfl, ← haccounted.counts _ hcreator] at hloaded
        exact Nat.le_trans (Nat.le_of_eq hloaded) (Nat.lt_of_not_le hmax)
  | opening id preload => exact h.frame hsettled nofun rfl
  | closing id creator sweep => exact h.frame hsettled (uncount_ne_counting creator sweep) rfl
  | uncounting creator sweep => exact h.frame hsettled (resume_ne_counting sweep) rfl
  | removing sweep ids =>
    cases ids with
    | nil => exact h.frame hsettled nofun rfl
    | cons id ids =>
      cases hget : assocGet id s.store.resources with
      | none =>
        rw [advance_gone hget] at hsettled ⊢
        exact h.frame hsettled nofun rfl
      | some resource =>
        rw [advance_removed hget] at hsettled ⊢
        refine h.frame hsettled (fun r m p => ?_) rfl
        dsimp only
        split
        · nofun
        · exact uncount_ne_counting _ _ r m p

theorem Inv.move (h : Inv s) (hm : Moved s a s') : Inv s' := by
  cases hm with
  | same => exact h
  | insert resource maxPerCreator preload hfree hid hget hcreator =>
    refine h.frame ?_ (opening_ne_counting _ _) rfl
    have hinsert := insertResource_anonymous maxPerCreator hid hget hcreator
    have hregister : Accounted ((Section.register s.store resource maxPerCreator preload).getD
      s.store) := (h.store hfree).register preload
    rwa [register_of_insert hinsert] at hregister
  | count resource maxPerCreator preload hfree hid hget hcreator =>
    refine ⟨(h.store hfree).register preload, fun r m p hheld => ?_, h.loads⟩
    cases hheld
    exact ⟨h.store hfree, hid, hget, hcreator⟩
  | unload id allowed resource hfree hget =>
    exact h.frame ((h.store hfree).unload hget _) nofun rfl
  | modify message allowed resource committed hfree hget =>
    refine h.frame ?_ (fun _ _ _ hheld => ?_) rfl
    · rw [settled_of_free (by exact hfree)]
      exact (h.store hfree).modify hget committed
    · rw [show s.holder = none from hfree] at hheld
      cases hheld
  | list sweep ids hfree hperm =>
    refine h.frame h.settled (fun _ _ _ hheld => ?_) rfl
    rw [show s.holder = none from hfree] at hheld
    cases hheld
  | removeListed i sweep ids hfree hget =>
    exact h.frame ((h.store hfree).removeListed sweep.closes ids) nofun rfl
  | advance section_ hheld => exact h.advance hheld

theorem inv_of_reachable {ok : Registry δ → Action δ → Prop} (hr : Reachable (system δ) ok s) :
    Inv s :=
  hr.invariant Inv (fun s (hinit : s = Registry.empty) => hinit ▸ .empty) fun _ _ _ h _ hs =>
    h.move (step_moved hs)

/-! ### What the sweeps remove -/

/-- What a sweep has listed and is still loaded is what it takes. -/
def TakesAll (s : Registry δ) (x : Sweep × List String) : Prop :=
  ∀ id ∈ x.2, ∀ resource, assocGet id s.store.resources = some resource → x.1.takes resource = true

end Registry

namespace Section

/-- The sweep that the operation is part of. -/
def ahead : Section δ → Option (Sweep × List String)
  | .counting _ _ _ | .opening _ _ => none
  | .closing _ _ sweep | .uncounting _ sweep => sweep
  | .removing sweep ids => some (sweep, ids)

variable {section_ : Section δ} {sweep : Option (Sweep × List String)}

theorem ahead_resume (h : section_ ∈ resume sweep) : section_.ahead = sweep := by
  cases sweep with
  | none => cases h
  | some x =>
    cases h
    rfl

theorem ahead_uncount {creator : String} (h : section_ ∈ uncount creator sweep) :
    section_.ahead = sweep := by
  unfold uncount at h
  split at h
  · exact ahead_resume h
  · cases h
    rfl

theorem ahead_opening {id : String} {preload : Option PreloadStart}
    (h : section_ ∈ preload.map (Section.opening id)) : section_.ahead = none := by
  cases preload with
  | none => cases h
  | some p =>
    cases h
    rfl

end Section

namespace Registry

structure Swept (s : Registry δ) : Prop where
  listed : ∀ x ∈ s.sweeping, TakesAll s x
  ahead : ∀ section_ ∈ s.holder, ∀ x ∈ section_.ahead, TakesAll s x
  waiting : ∀ resource maxPerCreator preload,
    s.holder = some (.counting resource maxPerCreator preload) →
    s.store.countOf resource.uuidOfCreator < maxPerCreator →
    ∀ x ∈ s.sweeping, resource.loadedNetId ∈ x.2 → x.1.takes resource = true
  removed : ∀ x ∈ s.removed, x.1.takes x.2 = true

variable {s s' : Registry δ} {a : Action δ} {x : Sweep × List String}

theorem TakesAll.mono (h : TakesAll s x)
    (hresources : ∀ id resource, assocGet id s'.store.resources = some resource →
      assocGet id s.store.resources = some resource) : TakesAll s' x :=
  fun id hid resource hget => h id hid resource (hresources id resource hget)

theorem TakesAll.insert {id : String} {resource : Resource δ} (h : TakesAll s x)
    (hresources : s'.store.resources = assocSet id resource s.store.resources)
    (htakes : id ∈ x.2 → x.1.takes resource = true) : TakesAll s' x := by
  intro id' hid' resource' hget
  rw [hresources] at hget
  by_cases heq : id' = id
  · subst heq
    rw [assocGet_set_self] at hget
    cases hget
    exact htakes hid'
  · rw [assocGet_set_of_ne heq] at hget
    exact h id' hid' resource' hget

/-- A modified resource is taken by the same sweeps. -/
theorem takes_modify (sweep : Sweep) (resource : Resource δ) (committed : ModifyResource) :
    sweep.takes (resource.modify committed) = sweep.takes resource := by
  cases sweep <;> rfl

theorem Swept.empty : Swept (empty : Registry δ) where
  listed := nofun
  ahead := nofun
  waiting := nofun
  removed := nofun

/-- A step that adds no resource. -/
theorem Swept.shrink (h : Swept s)
    (hresources : ∀ id resource, assocGet id s'.store.resources = some resource →
      assocGet id s.store.resources = some resource)
    (hsweeping : ∀ x ∈ s'.sweeping, x ∈ s.sweeping)
    (hahead : ∀ section_ ∈ s'.holder, ∀ x ∈ section_.ahead, TakesAll s x)
    (hholder : ∀ resource maxPerCreator preload,
      s'.holder ≠ some (.counting resource maxPerCreator preload))
    (hremoved : ∀ x ∈ s'.removed, x.1.takes x.2 = true) : Swept s' where
  listed x hx := (h.listed x (hsweeping x hx)).mono hresources
  ahead section_ hsection x hx := (hahead section_ hsection x hx).mono hresources
  waiting _ _ _ hheld := absurd hheld (hholder _ _ _)
  removed := hremoved

/-- A resource is registered under an id for which all sweeps are ready. -/
theorem Swept.insert (h : Swept s) {resource : Resource δ} (hresources : s'.store.resources =
      assocSet resource.loadedNetId resource s.store.resources)
    (htakes : ∀ x ∈ s.sweeping, resource.loadedNetId ∈ x.2 → x.1.takes resource = true)
    (hsweeping : s'.sweeping = s.sweeping) {preload : Option PreloadStart}
    (hholder : s'.holder = preload.map (.opening resource.loadedNetId))
    (hremoved : s'.removed = s.removed) : Swept s' where
  listed x hx := by
    rw [hsweeping] at hx
    exact (h.listed x hx).insert hresources (htakes x hx)
  ahead section_ hsection x hx := by
    rw [hholder] at hsection
    rw [Section.ahead_opening hsection] at hx
    cases hx
  waiting _ _ _ hheld := by
    rw [hholder] at hheld
    exact absurd hheld (opening_ne_counting _ _ _ _ _)
  removed := hremoved ▸ h.removed

theorem Swept.advance (h : Swept s) {section_ : Section δ} (hheld : s.holder = some section_) :
    Swept (s.advance section_) := by
  have hahead := h.ahead section_ hheld
  cases section_ with
  | counting resource maxPerCreator preload =>
    unfold Registry.advance
    dsimp only
    split
    · exact h.shrink (fun _ _ hr => hr) (fun _ hx => hx) nofun nofun h.removed
    · rename_i hmax
      exact h.insert rfl (h.waiting _ _ _ hheld (Nat.lt_of_not_le hmax)) rfl rfl rfl
  | opening id preload =>
    exact h.shrink (fun _ _ hr => hr) (fun _ hx => hx) nofun nofun h.removed
  | closing id creator sweep =>
    refine h.shrink (fun _ _ hr => hr) (fun _ hx => hx) (fun section_ hsection => ?_)
      (uncount_ne_counting creator sweep) h.removed
    rw [Section.ahead_uncount hsection]
    exact hahead
  | uncounting creator sweep =>
    refine h.shrink (fun _ _ hr => hr) (fun _ hx => hx) (fun section_ hsection => ?_)
      (resume_ne_counting sweep) h.removed
    rw [Section.ahead_resume hsection]
    exact hahead
  | removing sweep ids =>
    cases ids with
    | nil => exact h.shrink (fun _ _ hr => hr) (fun _ hx => hx) nofun nofun h.removed
    | cons id ids =>
      have hids : TakesAll s (sweep, id :: ids) := hahead _ rfl
      have hrest : TakesAll s (sweep, ids) := fun id' hid' => hids id' (.tail _ hid')
      cases hget : assocGet id s.store.resources with
      | none =>
        rw [advance_gone hget]
        refine h.shrink (fun _ _ hr => hr) (fun _ hx => hx) (fun section_ hsection x hx => ?_) nofun
          h.removed
        cases hsection
        cases hx
        exact hrest
      | some resource =>
        rw [advance_removed hget]
        refine h.shrink (fun _ _ => assocGet_of_erase) (fun _ hx => hx)
          (fun section_ hsection x hx => ?_)
          (fun r m p => ?_) fun x hx => ?_
        · have hsweep : section_.ahead = some (sweep, ids) := by
            dsimp only at hsection
            split at hsection
            · cases hsection
              rfl
            · exact Section.ahead_uncount hsection
          rw [hsweep] at hx
          cases hx
          exact hrest
        · dsimp only
          split
          · nofun
          · exact uncount_ne_counting _ _ r m p
        · rcases List.mem_append.mp hx with hx | hx
          · exact h.removed x hx
          · rw [List.mem_singleton.mp hx]
            exact hids id (.head _) resource hget

/-- What is listed is what the sweep takes. -/
theorem takesAll_listed (hnodup : AssocNodup s.store.resources) {sweep : Sweep} {ids : List String}
    (hperm : ids.Perm (s.store.listed sweep)) : TakesAll s (sweep, ids) := by
  intro id hid resource hget
  have hlisted : id ∈ s.store.listed sweep := hperm.mem_iff.mp hid
  unfold listed at hlisted
  split at hlisted
  · cases hlisted
  · obtain ⟨⟨id', r⟩, hmem, rfl⟩ := List.mem_map.mp hlisted
    obtain ⟨hmem, htakes⟩ := List.mem_filter.mp hmem
    rw [hnodup.get_of_mem hmem] at hget
    cases hget
    exact htakes

theorem Swept.move (h : Swept s) (hi : Inv s) (hu : Undisturbed s a) (hm : Moved s a s') :
    Swept s' := by
  cases hm with
  | same => exact h
  | insert resource maxPerCreator preload hfree hid hget hcreator =>
    exact h.insert rfl (hu hget (.inl hcreator)) rfl rfl rfl
  | count resource maxPerCreator preload hfree hid hget hcreator =>
    refine ⟨h.listed, fun section_ hsection x hx => ?_, fun r m p hheld hcount => ?_, h.removed⟩
    · cases hsection
      cases hx
    · cases hheld
      exact hu hget (.inr hcount)
  | unload id allowed resource hfree hget =>
    refine h.shrink (fun _ _ => assocGet_of_erase) (fun _ hx => hx)
      (fun section_ hsection x hx => ?_)
      nofun h.removed
    cases hsection
    cases hx
  | modify message allowed resource committed hfree hget =>
    have htakes : ∀ x, TakesAll s x → TakesAll { s with
        store := { s.store with
          resources := assocSet message.loadedNetId (resource.modify committed)
            s.store.resources } } x := by
      intro x hx
      refine hx.insert rfl fun hid => ?_
      rw [takes_modify]
      exact hx _ hid resource hget
    refine ⟨fun x hx => htakes x (h.listed x hx), fun section_ hsection x hx =>
      htakes x (h.ahead section_ hsection x hx), h.waiting, h.removed⟩
  | list sweep ids hfree hperm =>
    refine ⟨fun x hx => ?_, h.ahead, fun r m p hheld => ?_, h.removed⟩
    · rcases List.mem_append.mp hx with hx | hx
      · exact h.listed x hx
      · rw [List.mem_singleton.mp hx]
        exact takesAll_listed (hi.store hfree).nodup hperm
    · rw [show s.holder = none from hfree] at hheld
      cases hheld
  | removeListed i sweep ids hfree hget =>
    refine h.shrink (fun _ _ hr => hr) (fun x hx => List.mem_of_mem_eraseIdx hx)
      (fun section_ hsection x hx => ?_) nofun h.removed
    cases hsection
    cases hx
    exact h.listed _ (List.mem_of_getElem? hget)
  | advance section_ hheld => exact h.advance hheld

/-! ### Every run -/

theorem swept_of_reachable (hr : Reachable (system δ) Undisturbed s) : Swept s :=
  hr.invariant_of Swept (fun _ hs => inv_of_reachable hs)
    (fun s (hinit : s = Registry.empty) => hinit ▸ .empty) fun _ _ _ hi h hu hs =>
    h.move hi hu (step_moved hs)

/-- **The registry accounts for its resources**: when the lock of the resources is free, the number
of each creator is that of its resources, no load goes beyond the limit it was called with, and, in
every run in which no other resource takes the id of one that is going to be swept away, a sweep
only removes what it takes. -/
theorem resource_accounting (δ : Type) :
    (∀ s, Reachable (system δ) (fun _ _ => True) s →
      (s.holder = none → ∀ creator, creator ≠ "" →
        s.store.countOf creator = s.store.loadedBy creator) ∧
      ∀ x ∈ s.loads, x.loaded ≤ x.maxPerCreator) ∧
    ∀ s, Reachable (system δ) Undisturbed s → ∀ x ∈ s.removed, x.1.takes x.2 = true := by
  refine ⟨fun s hr => ?_, fun s hr => (swept_of_reachable hr).removed⟩
  have hi := inv_of_reachable hr
  exact ⟨fun hfree => (hi.store hfree).counts, hi.loads⟩

/-- A resource without static flags. -/
def plainResource (id creator : String) (mode : Byte) (persist : Bool) : Resource Unit :=
  ⟨id, creator, false, 0, ⟨mode, persist, ⟨false, false, ()⟩, 0⟩⟩

/-- Two scenes, one of them unloaded and loaded again, are swept away. -/
def sweepRun : List (Action Unit) :=
  [.load (plainResource "room" "ann" sceneMode false) 1 none, .advance,
    .load (plainResource "hall" "bob" sceneMode true) 2 (some ([0, 1], 0)), .advance, .advance,
    .list .scenes ["room", "hall"],
    .unload "hall" fun _ => true, .advance, .advance,
    .load (plainResource "hall" "ann" sceneMode true) 2 none, .advance,
    .removeListed 0, .advance, .advance, .advance, .advance, .advance]

theorem resource_accounting_sweep : ∃ s : Registry Unit,
    (s.holder.isNone ∧ s.removed.length = 2 ∧ s.loads = [⟨1, 1⟩, ⟨1, 2⟩, ⟨2, 2⟩]) ∧
      (∀ creator, creator ≠ "" → s.store.countOf creator = s.store.loadedBy creator) ∧
      (∀ x ∈ s.loads, x.loaded ≤ x.maxPerCreator) ∧ ∀ x ∈ s.removed, x.1.takes x.2 = true := by
  have hok : Admits (system Unit) Undisturbed empty sweepRun := by decide +kernel
  have hrun : (runActions (system Unit) empty sweepRun).any (fun s =>
      s.holder.isNone ∧ s.removed.length = 2 ∧ s.loads = [⟨1, 1⟩, ⟨1, 2⟩, ⟨2, 2⟩]) = true := by
    decide +kernel
  obtain ⟨s, hs, hend⟩ := exists_reachable_of_run Undisturbed hok (.init rfl) hrun
  have hall := (resource_accounting Unit).1 s (hs.mono fun _ _ _ => trivial)
  have hend := of_decide_eq_true hend
  exact ⟨s, hend, hall.1 (Option.isNone_iff_eq_none.mp hend.1), hall.2,
    (resource_accounting Unit).2 s hs⟩

/-- While a scene is about to be swept away, it is unloaded and a persistent prop gets its id. -/
def replacedRun : List (Action Unit) :=
  [.load (plainResource "room" "ann" sceneMode false) 1 none, .advance,
    .list .scenes ["room"],
    .unload "room" fun _ => true, .advance, .advance,
    .load (plainResource "room" "bob" 0 true) 1 none, .advance,
    .removeListed 0, .advance, .advance, .advance]

theorem resource_accounting_replaced : ∃ s : Registry Unit,
    Reachable (system Unit) (fun _ _ => True) s ∧
      ∃ x ∈ s.removed, x = (Sweep.scenes, plainResource "room" "bob" 0 true) ∧
        x.1.takes x.2 = false := by
  have hrun : (runActions (system Unit) empty replacedRun).any (fun s => decide
      (∃ x ∈ s.removed, x = (Sweep.scenes, plainResource "room" "bob" 0 true) ∧
        x.1.takes x.2 = false)) = true := by
    decide +kernel
  obtain ⟨s, hs, hend⟩ := exists_reachable_of_free_run (.init rfl) hrun
  exact ⟨s, hs, of_decide_eq_true hend⟩

end Registry

end BasisRust.Server
