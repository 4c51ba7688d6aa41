import BasisRust.Storage.Database
import Mathlib.Order.Monotone.Basic

/-!
# Dirty tracking

The file is a snapshot of the data of some moment, and that moment never goes back: the lock of the
saves keeps a second save out until the first one has marked or given up.  The saved generation is
not above the generation of that moment.  So if it is the current generation, the data have not
changed since, as long as the generations have not come round.
-/

namespace BasisRust.Storage

open Library

/-- Choices along a run that only go forward. -/
theorem exists_monotone_choice {P : ℕ → ℕ → Prop} {N d₀ : ℕ} (hzero : P 0 d₀)
    (hstep : ∀ n d, n < N → P n d → ∃ d', d ≤ d' ∧ P (n + 1) d') :
    ∃ f : ℕ → ℕ, Monotone f ∧ ∀ n ≤ N, P n (f n) := by
  classical
  let next : ℕ → ℕ → ℕ := fun n d =>
    if h : n < N ∧ P n d then (hstep n d h.1 h.2).choose else d
  let f : ℕ → ℕ := fun n => Nat.rec d₀ next n
  have hf : ∀ n, f (n + 1) = next n (f n) := fun n => rfl
  refine ⟨f, monotone_nat_of_le_succ fun n => ?_, fun n hn => ?_⟩
  · rw [hf]
    by_cases h : n < N ∧ P n (f n)
    · rw [show next n (f n) = (hstep n (f n) h.1 h.2).choose from dif_pos h]
      exact (hstep n (f n) h.1 h.2).choose_spec.1
    · rw [show next n (f n) = f n from dif_neg h]
  · induction n with
    | zero => exact hzero
    | succ n ih =>
      have h : n < N ∧ P n (f n) := ⟨hn, ih (Nat.le_of_succ_le hn)⟩
      rw [hf, show next n (f n) = (hstep n (f n) h.1 h.2).choose from dif_pos h]
      exact (hstep n (f n) h.1 h.2).choose_spec.2

/-- What the reader gives back: lists of data whose payloads the text keeps. -/
def JsonCodec.Keeps {ν : Type} (codec : JsonCodec ν) (exact : ν → Prop) : Prop :=
  ∀ values text, (∀ value ∈ values, exact value.jsonPayload) →
    codec.toStringPretty values = some text → codec.fromStr text = some values

def DbEvent.isUpdate {ν : Type} : DbEvent ν → Bool
  | .addOrUpdate _ => true
  | _ => false

namespace PersistentDatabase

variable {ν : Type} {codec : JsonCodec ν}

/-! ### Snapshots -/

/-- Every entry is under its own name. -/
def Named (data : OrderedMap String (BasisData ν)) : Prop := ∀ x ∈ data.entries, x.2.name = x.1

variable {data : OrderedMap String (BasisData ν)} {values : List (BasisData ν)}

theorem Named.insert (h : Named data) (value : BasisData ν) :
    Named (data.insert value.name value) := by
  intro x hx
  rcases OrderedMap.mem_insert.mp hx with heq | hx
  · rw [heq]
  · exact h x (mem_of_mem_assocErase hx)

theorem Named.insertAll (h : Named data) (values : List (BasisData ν)) :
    Named (insertAll values data) := by
  induction values generalizing data with
  | nil => exact h
  | cons value values ih => exact ih (h.insert value)

theorem insertAll_eq_of_inserts {data' : OrderedMap String (BasisData ν)}
    (h : OrderedMap.Inserts (values.map fun value => (value.name, value)) data data') :
    insertAll values data = data' := by
  induction values generalizing data with
  | nil => exact Eq.symm h
  | cons value values ih => exact ih h.2

/-- **The values of a map** in any order give the map. -/
theorem insertAll_eq (h : Named data) (hperm : values.Perm (data.entries.map Prod.snd)) :
    insertAll values .empty = data := by
  apply insertAll_eq_of_inserts
  rw [OrderedMap.inserts_iff]
  have hkeyed : (data.entries.map Prod.snd).map (fun value => (value.name, value)) =
      data.entries := by
    rw [List.map_map]
    refine (List.map_congr_left fun x hx => ?_).trans (List.map_id _)
    exact Prod.ext (h x hx) rfl
  have hall := hperm.map fun value => (value.name, value)
  rw [hkeyed] at hall
  rw [show (OrderedMap.empty : OrderedMap String (BasisData ν)).entries = [] from rfl,
    List.append_nil]
  exact hall.symm

variable {s : PersistentDatabase ν}

variable {file : Option String}

theorem load_readBack (hload : load codec file = some s) :
    readBack codec s.file = some s.data ∧ s.generation = 0 ∧ s.savedGeneration = 0 ∧
      s.saving = none := by
  obtain ⟨data, hdata, rfl⟩ := Option.map_eq_some_iff.mp hload
  exact ⟨hdata, rfl, rfl, rfl⟩

theorem load_named (hload : load codec file = some s) : Named s.data := by
  have hread := (load_readBack hload).1
  have hempty : Named (.empty : OrderedMap String (BasisData ν)) := nofun
  cases hfile : s.file with
  | none =>
    rw [hfile] at hread
    exact Option.some.inj hread ▸ hempty
  | some text =>
    rw [hfile] at hread
    obtain ⟨values, -, hvalues⟩ := Option.map_eq_some_iff.mp hread
    exact hvalues ▸ hempty.insertAll values

/-- A file is the one that was loaded, or one complete snapshot of the data. -/
def Disk (codec : JsonCodec ν) (loaded s : PersistentDatabase ν) (file : Option String) : Prop :=
  file = loaded.file ∧ s.data = loaded.data ∨
    ∃ values text, values.Perm (s.data.entries.map Prod.snd) ∧
      codec.toStringPretty values = some text ∧ file = some text

/-- **Reading back** a file. -/
theorem Disk.readBack {loaded s : PersistentDatabase ν} {exact : ν → Prop}
    (h : Disk codec loaded s file) (hcodec : codec.Keeps exact) (hnamed : Named s.data)
    (hexact : ∀ x ∈ s.data.entries, exact x.2.jsonPayload)
    (hloaded : readBack codec loaded.file = some loaded.data) :
    PersistentDatabase.readBack codec file = some s.data := by
  rcases h with ⟨hfile, hdata⟩ | ⟨values, text, hperm, htext, hfile⟩
  · rw [hfile, hdata]
    exact hloaded
  · have hvalues : ∀ value ∈ values, exact value.jsonPayload := by
      intro value hvalue
      obtain ⟨x, hx, rfl⟩ := List.mem_map.mp (hperm.mem_iff.mp hvalue)
      exact hexact x hx
    rw [hfile, PersistentDatabase.readBack, hcodec values text hvalues htext, Option.map_some,
      insertAll_eq hnamed hperm]

/-! ### Failed saves -/

/-- A persist that does not replace the file, or whose sync fails, of a save that is not given
up. -/
def Fails (codec : JsonCodec ν) (s : PersistentDatabase ν) (outcome : Persist) : Prop :=
  ∃ force generation values, s.saving = some (.captured force generation values) ∧
    (force = true ∨ generation ≠ s.savedGeneration) ∧
      (codec.toStringPretty values = none ∨ outcome ≠ .replaced)

/-- **A failed persist** leaves the data and both counters. -/
theorem persist_of_fails {outcome : Persist} (h : Fails codec s outcome) :
    (s.persist codec outcome).data = s.data ∧ (s.persist codec outcome).generation = s.generation ∧
        (s.persist codec outcome).savedGeneration = s.savedGeneration := by
  obtain ⟨force, generation, values, hsaving, -, hfails⟩ := h
  rw [PersistentDatabase.persist, hsaving]
  dsimp only
  split_ifs
  · exact ⟨rfl, rfl, rfl⟩
  · cases htext : codec.toStringPretty values with
    | none => exact ⟨rfl, rfl, rfl⟩
    | some text =>
      cases outcome with
      | failed | unsynced => exact ⟨rfl, rfl, rfl⟩
      | replaced =>
        exact absurd rfl (hfails.resolve_left (by rw [htext]; exact Option.some_ne_none _))

/-! ### Updates -/

variable {events : List (DbEvent ν)} {n m : ℕ}

/-- The number of updates among the first events. -/
def updates (events : List (DbEvent ν)) (n : ℕ) : ℕ := (events.take n).countP DbEvent.isUpdate

theorem updates_succ (hn : n < events.length) :
    updates events (n + 1) = updates events n + if events[n].isUpdate then 1 else 0 := by
  rw [updates, List.take_add_one, List.getElem?_eq_getElem hn, Option.toList_some,
    List.countP_append, List.countP_singleton]
  rfl

theorem updates_mono (events : List (DbEvent ν)) : Monotone (updates events) :=
  fun _ _ h => List.Sublist.countP_le ((List.take_prefix_take_left h).sublist)

variable [DecidableEq ν]

/-- **Only updates** change the data and the generation. -/
theorem step_data (s : PersistentDatabase ν) {event : DbEvent ν} (h : event.isUpdate = false) :
    (step codec s event).data = s.data ∧ (step codec s event).generation = s.generation := by
  cases event with
  | addOrUpdate value => cases h
  | saveIfDirty | shutdown => exact ⟨rfl, rfl⟩
  | compare task =>
    rw [step, compare]
    split
    · split_ifs <;> exact ⟨rfl, rfl⟩
    · exact ⟨rfl, rfl⟩
  | lockSave task =>
    rw [step, lockSave]
    split <;> exact ⟨rfl, rfl⟩
  | capture values =>
    rw [step, capture]
    split
    · split_ifs <;> exact ⟨rfl, rfl⟩
    · exact ⟨rfl, rfl⟩
  | persist outcome =>
    rw [step, persist]
    split
    · split_ifs
      · exact ⟨rfl, rfl⟩
      · split <;> exact ⟨rfl, rfl⟩
    · exact ⟨rfl, rfl⟩
  | mark =>
    rw [step, mark]
    split
    · split_ifs <;> exact ⟨rfl, rfl⟩
    · exact ⟨rfl, rfl⟩

/-- The state after the first events of a run. -/
def after (codec : JsonCodec ν) (s : PersistentDatabase ν) (events : List (DbEvent ν)) (n : ℕ) :
    PersistentDatabase ν :=
  s.run codec (events.take n)

theorem after_succ (hn : n < events.length) :
    after codec s events (n + 1) = step codec (after codec s events n) events[n] := by
  rw [after, run, List.take_add_one, List.getElem?_eq_getElem hn, Option.toList_some,
    List.foldl_append]
  rfl

/-- **The generation counts the updates**, before it comes round. -/
theorem generation_after (hs : s.generation = 0)
    (hfew : events.countP DbEvent.isUpdate < 2 ^ 64) (hn : n ≤ events.length) :
    (after codec s events n).generation = updates events n := by
  induction n with
  | zero => exact hs
  | succ n ih =>
    have hlt : updates events (n + 1) < 2 ^ 64 :=
      lt_of_le_of_lt (List.Sublist.countP_le (List.take_sublist _ _)) hfew
    rw [updates_succ hn] at hlt ⊢
    rw [after_succ hn]
    cases hevent : events[n] with
    | addOrUpdate value =>
      rw [hevent] at hlt
      show nextGeneration (after codec s events n).generation = updates events n + 1
      rw [ih (Nat.le_of_succ_le hn), nextGeneration]
      exact Nat.mod_eq_of_lt hlt
    | _ =>
      rw [(step_data _ rfl).2]
      exact ih (Nat.le_of_succ_le hn)

/-- **The same number of updates**, the same data. -/
theorem data_after (hmn : m ≤ n) (hn : n ≤ events.length)
    (hsame : updates events m = updates events n) :
    (after codec s events m).data = (after codec s events n).data := by
  induction n, hmn using Nat.le_induction with
  | base => rfl
  | succ n hmn ih =>
    have hmono := updates_mono events hmn
    have hsucc := updates_succ hn
    cases hupdate : events[n].isUpdate with
    | true =>
      rw [hupdate, if_pos rfl] at hsucc
      omega
    | false =>
      rw [hupdate, if_neg Bool.false_ne_true] at hsucc
      rw [after_succ hn, (step_data _ hupdate).1]
      exact ih (Nat.le_of_succ_le hn) (by omega)

/-! ### The moment of the file -/

/-- What a save holds: a snapshot of a moment that is not before that of the file, or the generation
of the file. -/
def Holds (codec : JsonCodec ν) (s : PersistentDatabase ν) (events : List (DbEvent ν)) (n d : ℕ) :
    Option (Saving ν) → Prop
  | some (.captured _ generation values) => ∃ c, d ≤ c ∧ c ≤ n ∧
      generation = (after codec s events c).generation ∧
        values.Perm ((after codec s events c).data.entries.map Prod.snd)
  | some (.persisted generation) => generation = (after codec s events d).generation
  | _ => True

/-- The state after `n` events, with `d` the moment of the file. -/
structure Tracked (codec : JsonCodec ν) (s : PersistentDatabase ν) (events : List (DbEvent ν))
    (n d : ℕ) : Prop where
  le : d ≤ n
  disk : Disk codec s (after codec s events d) (after codec s events n).file
  saved : (after codec s events n).savedGeneration ≤ (after codec s events d).generation
  saving : Holds codec s events n d (after codec s events n).saving

variable {d : ℕ}

theorem Holds.succ {saving : Option (Saving ν)} (h : Holds codec s events n d saving) :
    Holds codec s events (n + 1) d saving := by
  match saving with
  | some (.captured _ _ _) =>
    obtain ⟨c, hdc, hcn, hc⟩ := h
    exact ⟨c, hdc, Nat.le_succ_of_le hcn, hc⟩
  | some (.persisted _) => exact h
  | some (.locked _) => trivial
  | none => trivial

section

variable (h : Tracked codec s events n d)
include h

/-- A step that leaves the file and the saved generation. -/
theorem Tracked.keep (hfile : (after codec s events (n + 1)).file = (after codec s events n).file)
    (hsaved : (after codec s events (n + 1)).savedGeneration =
      (after codec s events n).savedGeneration)
    (hsaving : Holds codec s events (n + 1) d (after codec s events (n + 1)).saving) :
    ∃ d', d ≤ d' ∧ Tracked codec s events (n + 1) d' :=
  ⟨d, le_rfl, Nat.le_succ_of_le h.le, hfile ▸ h.disk, hsaved ▸ h.saved, hsaving⟩

/-- A step that also leaves the save, or ends it. -/
theorem Tracked.keep_saving {db : PersistentDatabase ν} (hafter : after codec s events (n + 1) = db)
    (hfile : db.file = (after codec s events n).file)
    (hsaved : db.savedGeneration = (after codec s events n).savedGeneration)
    (hsaving : db.saving = (after codec s events n).saving ∨ db.saving = none) :
    ∃ d', d ≤ d' ∧ Tracked codec s events (n + 1) d' := by
  subst hafter
  refine h.keep hfile hsaved ?_
  rcases hsaving with hsame | hnone
  · rw [hsame]
    exact h.saving.succ
  · rw [hnone]
    trivial

/-- **Persisting** writes the snapshot that is held, or leaves the file. -/
theorem Tracked.persist (hn : n < events.length) (hmono : ∀ i j, i ≤ j → j ≤ events.length →
      (after codec s events i).generation ≤ (after codec s events j).generation) {outcome : Persist}
    (hevent : events[n] = .persist outcome) : ∃ d', d ≤ d' ∧ Tracked codec s events (n + 1) d' := by
  have hafter : after codec s events (n + 1) = PersistentDatabase.step codec
      (after codec s events n) events[n] := after_succ hn
  rw [hevent, step, PersistentDatabase.persist] at hafter
  cases hsaving : (after codec s events n).saving with
  | none =>
    rw [hsaving] at hafter
    exact h.keep_saving hafter rfl rfl (.inl rfl)
  | some saving =>
    rw [hsaving] at hafter
    cases saving with
    | locked force => exact h.keep_saving hafter rfl rfl (.inl rfl)
    | persisted generation =>
      exact h.keep_saving hafter rfl rfl (.inl rfl)
    | captured force generation values =>
      have hheld := h.saving
      rw [hsaving] at hheld
      obtain ⟨c, hdc, hcn, hgeneration, hperm⟩ := hheld
      dsimp only at hafter
      split_ifs at hafter
      · exact h.keep_saving hafter rfl rfl (.inr rfl)
      · cases htext : codec.toStringPretty values with
        | none =>
          rw [htext] at hafter
          exact h.keep_saving hafter rfl rfl (.inr rfl)
        | some text =>
          -- the file is now the snapshot of the moment `c`
          have hsaved : (after codec s events n).savedGeneration ≤
              (after codec s events c).generation :=
            h.saved.trans (hmono d c hdc (hcn.trans hn.le))
          have hdisk : Disk codec s (after codec s events c) (some text) :=
            .inr ⟨values, text, hperm, htext, rfl⟩
          rw [htext] at hafter
          cases outcome with
          | failed => exact h.keep_saving hafter rfl rfl (.inr rfl)
          | unsynced =>
            refine ⟨c, hdc, Nat.le_succ_of_le hcn, ?_, ?_, ?_⟩
            · rw [hafter]
              exact hdisk
            · rw [hafter]
              exact hsaved
            · rw [hafter]
              trivial
          | replaced =>
            refine ⟨c, hdc, Nat.le_succ_of_le hcn, ?_, ?_, ?_⟩
            · rw [hafter]
              exact hdisk
            · rw [hafter]
              exact hsaved
            · rw [hafter]
              exact hgeneration

theorem Tracked.step (hn : n < events.length) (hmono : ∀ i j, i ≤ j → j ≤ events.length →
      (after codec s events i).generation ≤ (after codec s events j).generation) :
    ∃ d', d ≤ d' ∧ Tracked codec s events (n + 1) d' := by
  have hafter : after codec s events (n + 1) = PersistentDatabase.step codec
      (after codec s events n) events[n] := after_succ hn
  cases hevent : events[n] with
  | addOrUpdate | saveIfDirty | shutdown =>
    rw [hevent] at hafter
    exact h.keep_saving hafter rfl rfl (.inl rfl)
  | compare task =>
    rw [hevent, PersistentDatabase.step, compare] at hafter
    split at hafter
    · split_ifs at hafter <;> exact h.keep_saving hafter rfl rfl (.inl rfl)
    · exact h.keep_saving hafter rfl rfl (.inl rfl)
  | lockSave task =>
    rw [hevent, PersistentDatabase.step, lockSave] at hafter
    split at hafter
    · refine h.keep (by rw [hafter]) (by rw [hafter]) ?_
      rw [hafter]
      trivial
    · exact h.keep_saving hafter rfl rfl (.inl rfl)
  | capture values =>
    rw [hevent, PersistentDatabase.step, capture] at hafter
    split at hafter
    · split_ifs at hafter with hperm
      · refine h.keep (by rw [hafter]) (by rw [hafter]) ?_
        rw [hafter]
        exact ⟨n, h.le, Nat.le_succ n, rfl, hperm⟩
      · exact h.keep_saving hafter rfl rfl (.inl rfl)
    · exact h.keep_saving hafter rfl rfl (.inl rfl)
  | persist outcome => exact h.persist hn hmono hevent
  | mark =>
    rw [hevent, PersistentDatabase.step, mark] at hafter
    cases hsaving : (after codec s events n).saving with
    | none =>
      rw [hsaving] at hafter
      exact h.keep_saving hafter rfl rfl (.inl rfl)
    | some saving =>
      rw [hsaving] at hafter
      cases saving with
      | locked force => exact h.keep_saving hafter rfl rfl (.inl rfl)
      | captured force generation values =>
        exact h.keep_saving hafter rfl rfl (.inl rfl)
      | persisted generation =>
        have hheld := h.saving
        rw [hsaving] at hheld
        dsimp only at hafter
        split_ifs at hafter
        · refine ⟨d, le_rfl, Nat.le_succ_of_le h.le, ?_, ?_, ?_⟩
          · rw [hafter]
            exact h.disk
          · rw [hafter]
            exact Nat.le_of_eq hheld
          · rw [hafter]
            trivial
        · exact h.keep_saving hafter rfl rfl (.inr rfl)

end

/-! ### Whole runs -/

/-- What holds of the loaded entries and of the updates holds of all entries. -/
theorem entries_after {P : String × BasisData ν → Prop} (hs : ∀ x ∈ s.data.entries, P x)
    (hevents : ∀ value, .addOrUpdate value ∈ events → P (value.name, value))
    (hn : n ≤ events.length) : ∀ x ∈ (after codec s events n).data.entries, P x := by
  induction n with
  | zero => exact hs
  | succ n ih =>
    have hbefore := ih (Nat.le_of_succ_le hn)
    rw [after_succ hn]
    cases hevent : events[n] with
    | addOrUpdate value =>
      intro x hx
      rcases OrderedMap.mem_insert.mp hx with heq | hx
      · rw [heq]
        exact hevents value (hevent ▸ List.getElem_mem hn)
      · exact hbefore x (mem_of_mem_assocErase hx)
    | _ =>
      rw [(step_data _ rfl).1]
      exact hbefore

theorem tracked_zero (hload : load codec file = some s) : Tracked codec s events 0 0 := by
  obtain ⟨-, -, hsaved, hsaving⟩ := load_readBack hload
  refine ⟨le_rfl, .inl ⟨rfl, rfl⟩, ?_, ?_⟩
  · show s.savedGeneration ≤ _
    rw [hsaved]
    exact Nat.zero_le _
  · show Holds codec s events 0 0 s.saving
    rw [hsaving]
    trivial

/-- After `n` events the file is that of the moment `d`. -/
structure Sound (codec : JsonCodec ν) (s : PersistentDatabase ν) (events : List (DbEvent ν))
    (n d : ℕ) : Prop where
  le : d ≤ n
  snapshot : Disk codec s (after codec s events d) (after codec s events n).file
  reads_back : readBack codec (after codec s events n).file = some (after codec s events d).data
  saved_le : (after codec s events n).savedGeneration ≤ (after codec s events n).generation
  clean : (after codec s events n).generation = (after codec s events n).savedGeneration →
    readBack codec (after codec s events n).file = some (after codec s events n).data
  failed : ∀ outcome, Fails codec (after codec s events n) outcome →
    ((after codec s events n).persist codec outcome).generation =
        (after codec s events n).generation ∧
      ((after codec s events n).persist codec outcome).savedGeneration =
        (after codec s events n).savedGeneration
  /-- a save that `save_if_dirty` has begun finds unsaved updates, and they stay unsaved -/
  dirty : ∀ generation values,
    (after codec s events n).saving = some (.captured false generation values) →
      generation ≠ (after codec s events n).savedGeneration →
        (after codec s events n).generation ≠ (after codec s events n).savedGeneration

/-- **Dirty tracking**, in every run with less than `2 ^ 64` updates after the load. -/
theorem database_tracking (codec : JsonCodec ν) (exact : ν → Prop) (hcodec : codec.Keeps exact)
    (file : Option String) (s : PersistentDatabase ν) (hload : load codec file = some s)
    (events : List (DbEvent ν)) (hloaded : ∀ x ∈ s.data.entries, exact x.2.jsonPayload)
    (hupdates : ∀ value, .addOrUpdate value ∈ events → exact value.jsonPayload)
    (hfew : events.countP DbEvent.isUpdate < 2 ^ 64) :
    ∃ moment : ℕ → ℕ, Monotone moment ∧
      ∀ n ≤ events.length, Sound codec s events n (moment n) := by
  obtain ⟨hread, hzero, -, -⟩ := load_readBack hload
  have hgeneration : ∀ {i}, i ≤ events.length →
      (after codec s events i).generation = updates events i :=
    fun hi => generation_after hzero hfew hi
  have hmono : ∀ i j, i ≤ j → j ≤ events.length →
      (after codec s events i).generation ≤ (after codec s events j).generation := by
    intro i j hij hj
    rw [hgeneration (hij.trans hj), hgeneration hj]
    exact updates_mono events hij
  obtain ⟨moment, hmoment, htracked⟩ := exists_monotone_choice
    (P := Tracked codec s events) (N := events.length) (tracked_zero hload)
    fun n d hn h => h.step hn hmono
  refine ⟨moment, hmoment, fun n hn => ?_⟩
  have h := htracked n hn
  have hdn := hmono (moment n) n h.le hn
  have hnamed : Named (after codec s events (moment n)).data :=
    entries_after (load_named hload) (fun _ _ => rfl) (h.le.trans hn)
  have hexact : ∀ x ∈ (after codec s events (moment n)).data.entries, exact x.2.jsonPayload :=
    entries_after (P := fun x => exact x.2.jsonPayload) hloaded hupdates (h.le.trans hn)
  have hback := h.disk.readBack hcodec hnamed hexact hread
  refine ⟨h.le, h.disk, hback, h.saved.trans hdn, fun hclean => ?_, fun outcome hfails => ?_,
    fun generation values hsaving hne hclean => ?_⟩
  · -- no update since the moment of the file
    have hsame : updates events (moment n) = updates events n := by
      rw [← hgeneration (h.le.trans hn), ← hgeneration hn]
      exact le_antisymm hdn (hclean ▸ h.saved)
    rw [hback, data_after h.le hn hsame]
  · exact (persist_of_fails hfails).2
  · have hheld := h.saving
    rw [hsaving] at hheld
    obtain ⟨c, hdc, hcn, hcaptured, -⟩ := hheld
    have hdc' := hmono (moment n) c hdc (hcn.trans hn)
    have hcn' := hmono c n hcn hn
    have hsaved := h.saved
    omega

/-! ### Runs of one database -/

def worldText : String := "[\n  \x7b\n    \"name\": \"world\",\n    \"json_payload\": 1\n  \x7d\n]"

/-- A writer and a reader for what the runs below save. -/
def worldCodec : JsonCodec ℕ where
  toStringPretty values :=
    if values = [] then some "[]"
    else if values = [⟨"world", 1⟩] then some worldText
    else none
  fromStr text :=
    if text = "[]" then some []
    else if text = worldText then some [⟨"world", 1⟩]
    else none

theorem worldCodec_keeps : worldCodec.Keeps fun _ => True := by
  intro values text _ h
  rw [worldCodec] at h ⊢
  dsimp only at h ⊢
  split_ifs at h with hnil hworld
  · cases h
    rw [hnil, if_pos rfl]
  · cases h
    rw [hworld]
    decide

def worldDatabase : PersistentDatabase ℕ := ⟨.empty, 0, 0, none, [], none⟩

/-- The first save fails; an update between the snapshot of the second one and its mark stays
unsaved. -/
def worldEvents : List (DbEvent ℕ) :=
  [.addOrUpdate ⟨"world", 1⟩, .saveIfDirty, .compare 0, .lockSave 0, .capture [⟨"world", 1⟩],
    .persist .failed, .saveIfDirty, .compare 0, .lockSave 0, .capture [⟨"world", 1⟩],
    .addOrUpdate ⟨"world", 2⟩, .persist .replaced, .mark]

theorem database_tracking_world :
    (∃ moment : ℕ → ℕ, Monotone moment ∧
      ∀ n ≤ 13, Sound worldCodec worldDatabase worldEvents n (moment n)) ∧
      (after worldCodec worldDatabase worldEvents 6).generation = 1 ∧
        (after worldCodec worldDatabase worldEvents 6).savedGeneration = 0 ∧
          (after worldCodec worldDatabase worldEvents 13).generation = 2 ∧
            (after worldCodec worldDatabase worldEvents 13).savedGeneration = 0 ∧
              (after worldCodec worldDatabase worldEvents 13).file = some worldText := by
  refine ⟨?_, by decide, by decide, by decide, by decide, by decide⟩
  exact database_tracking worldCodec (fun _ => True) worldCodec_keeps none worldDatabase rfl
    worldEvents (fun _ _ => trivial) (fun _ _ => trivial) (by decide)

/-- `k` updates of one value. -/
theorem run_replicate (codec : JsonCodec ν) (value : BasisData ν) (k : ℕ)
    (s : PersistentDatabase ν) (hs : s.generation < 2 ^ 64) :
    (run codec s (List.replicate k (.addOrUpdate value))).generation = (s.generation + k) % 2 ^ 64 ∧
      (run codec s (List.replicate k (.addOrUpdate value))).savedGeneration = s.savedGeneration ∧
        (run codec s (List.replicate k (.addOrUpdate value))).file = s.file ∧
          (run codec s (List.replicate k (.addOrUpdate value))).saving = s.saving ∧
            (value ∈ s.data.entries.map Prod.snd ∨ 0 < k →
              value ∈ (run codec s (List.replicate k (.addOrUpdate value))).data.entries.map
                Prod.snd) := by
  induction k generalizing s with
  | zero =>
    exact ⟨(Nat.mod_eq_of_lt hs).symm, rfl, rfl, rfl, fun h => h.resolve_right (lt_irrefl 0)⟩
  | succ k ih =>
    rw [List.replicate_succ, run, List.foldl_cons]
    obtain ⟨hgeneration, hsaved, hfile, hsaving, hvalue⟩ :=
      ih (s.addOrUpdate value) (Nat.mod_lt _ (by decide))
    refine ⟨hgeneration.trans ?_, hsaved, hfile, hsaving, fun _ => hvalue (.inl ?_)⟩
    · show ((s.generation + 1) % 2 ^ 64 + k) % 2 ^ 64 = _
      rw [Nat.mod_add_mod]
      congr 1
      omega
    · exact List.mem_map.mpr ⟨(value.name, value), OrderedMap.mem_insert.mpr (.inl rfl), rfl⟩

/-- A shutdown without unsaved updates, up to its persist. -/
def cleanShutdown : List (DbEvent ℕ) := [.shutdown, .lockSave 0, .capture []]

def flood : List (DbEvent ℕ) := List.replicate (2 ^ 64) (.addOrUpdate ⟨"world", 1⟩)

/-- A failed save at a shutdown without unsaved updates ends clean, and `2 ^ 64` updates that nobody
saves end clean. -/
theorem failed_save_ends_clean_and_generations_come_round :
    load worldCodec none = some worldDatabase ∧
      (Fails worldCodec (run worldCodec worldDatabase cleanShutdown) .failed ∧
        (run worldCodec worldDatabase (cleanShutdown ++ [.persist .failed])).generation =
          (run worldCodec worldDatabase (cleanShutdown ++ [.persist .failed])).savedGeneration) ∧
      (run worldCodec worldDatabase flood).saving = none ∧
        (run worldCodec worldDatabase flood).generation =
          (run worldCodec worldDatabase flood).savedGeneration ∧
          readBack worldCodec (run worldCodec worldDatabase flood).file ≠
            some (run worldCodec worldDatabase flood).data := by
  obtain ⟨hgeneration, hsaved, hfile, hsaving, hvalue⟩ :=
    run_replicate worldCodec ⟨"world", 1⟩ (2 ^ 64) worldDatabase (by decide)
  rw [← flood] at hgeneration hsaved hfile hsaving hvalue
  refine ⟨rfl, ⟨⟨true, 0, [], by decide, .inl rfl, .inr (by decide)⟩, by decide⟩, hsaving, ?_, ?_⟩
  · rw [hgeneration, hsaved]
    decide
  · rw [hfile]
    intro hread
    have hmem := hvalue (.inr (by decide))
    rw [← Option.some.inj hread] at hmem
    exact absurd hmem List.not_mem_nil

end PersistentDatabase

end BasisRust.Storage
