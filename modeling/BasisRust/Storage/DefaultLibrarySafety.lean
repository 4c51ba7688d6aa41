import BasisRust.Storage.DefaultLibrary
import BasisRust.Storage.LegacyDecode

/-!
# What an interruption leaves of the default library

A directory stands for the library that a recovery would make of it: its files, and those of the
hidden directories that are not committed.  `Represents` is that relation, and each operation keeps
it at every point where it may be interrupted without harm, or has completed it.
-/

namespace BasisRust.Storage.Items

open BasisRust.Library BasisRust.Permissions Routine

/-! ### The library that a directory stands for -/

/-- A file that a recovery would put back. -/
def Staged (staging : OrderedMap Text Folder) (name : Text) (content : Bytes) : Prop :=
  ∃ dir t, staging.get dir = some t ∧ t.get committed = none ∧ t.get name = some content

/-- XML files and the marker, and nothing else. -/
def CleanFolder (t : Folder) : Prop :=
  ∀ name, (t.get name).isSome = true → isXml name = true ∨ name = committed

def Clean (staging : OrderedMap Text Folder) : Prop :=
  ∀ dir t, staging.get dir = some t → CleanFolder t

structure Represents (d : Disk) (L : Folder) : Prop where
  absent : d.present = false → L = .empty
  get : ∀ name content, L.get name = some content ↔
    isXml name = true ∧ (d.files.get name = some content ∨ Staged d.staging name content)
  clean : Clean d.staging

/-- The same for a directory that is in three parts: the files in place, a hidden directory, and the
other hidden directories. -/
structure Shows (rest : OrderedMap Text Folder) (files t L : Folder) : Prop where
  get : ∀ name content, L.get name = some content ↔ isXml name = true ∧
    (files.get name = some content ∨ (t.get committed = none ∧ t.get name = some content) ∨
      Staged rest name content)
  folder : CleanFolder t
  clean : Clean rest

/-- The hidden directory, and the others. -/
structure At (dir : Text) (rest : OrderedMap Text Folder) (d : Disk) (t : Folder) : Prop where
  present : d.present = true
  get : d.staging.get dir = some t
  rest : d.staging.erase dir = rest

section

variable {staging rest : OrderedMap Text Folder} {dir name : Text} {content : Bytes} {d : Disk}
  {files t L : Folder}

theorem isXml_ne_committed (h : isXml name = true) : name ≠ committed := by
  rintro rfl
  exact absurd h (by decide)

theorem CleanFolder.empty : CleanFolder .empty := by
  intro name h
  cases h

theorem CleanFolder.erase (h : CleanFolder t) (name : Text) : CleanFolder (t.erase name) := by
  intro name' hname
  rw [OrderedMap.get_erase] at hname
  split_ifs at hname with heq
  · cases hname
  · exact h name' hname

theorem get_erase_none {name' : Text} (h : t.get name' = none) :
    (t.erase name).get name' = none := by
  rw [OrderedMap.get_erase, h]
  exact ite_self _

theorem eq_empty_of_left (h : ∀ name, (t.get name).isSome = true ↔ name ∈ ([] : List Text)) :
    t = .empty :=
  OrderedMap.ext_get fun name => Option.not_isSome_iff_eq_none.mp (mt (h name).mp List.not_mem_nil)

theorem staged_iff (h : staging.get dir = some t) : Staged staging name content ↔
    (t.get committed = none ∧ t.get name = some content) ∨
      Staged (staging.erase dir) name content := by
  constructor
  · rintro ⟨dir', t', hget, hopen, hname⟩
    by_cases hdir : dir' = dir
    · subst hdir
      obtain rfl := Option.some.inj (h.symm.trans hget)
      exact .inl ⟨hopen, hname⟩
    · exact .inr ⟨dir', t', (OrderedMap.get_erase_of_ne hdir).trans hget, hopen, hname⟩
  · rintro (⟨hopen, hname⟩ | ⟨dir', t', hget, hopen, hname⟩)
    · exact ⟨dir, t, h, hopen, hname⟩
    · rw [OrderedMap.get_erase] at hget
      split_ifs at hget
      exact ⟨dir', t', hget, hopen, hname⟩

theorem At.represents_iff (h : At dir rest d t) : Represents d L ↔ Shows rest d.files t L := by
  constructor
  · intro hr
    refine ⟨fun name content => ?_, hr.clean dir t h.get, fun dir' t' hget => ?_⟩
    · rw [hr.get, staged_iff h.get, h.rest]
    · rw [← h.rest, OrderedMap.get_erase] at hget
      split_ifs at hget
      exact hr.clean _ _ hget
  · intro hs
    refine ⟨fun habs => ?_, fun name content => ?_, fun dir' t' hget => ?_⟩
    · rw [h.present] at habs
      cases habs
    · rw [hs.get, staged_iff h.get, h.rest]
    · by_cases hdir : dir' = dir
      · subst hdir
        obtain rfl := Option.some.inj (h.get.symm.trans hget)
        exact hs.folder
      · exact hs.clean dir' t' (by rw [← h.rest, OrderedMap.get_erase_of_ne hdir, hget])

/-- An empty directory is as good as none. -/
theorem represents_iff_empty (hp : d.present = true) :
    Represents d L ↔ Shows d.staging d.files .empty L := by
  have hnone : ∀ name content, ¬ ((OrderedMap.empty : Folder).get name = some content) :=
    fun _ _ h => nomatch h
  constructor
  · intro hr
    refine ⟨fun name content => ?_, .empty, hr.clean⟩
    rw [hr.get]
    simp only [hnone, and_false, false_or]
  · intro hs
    refine ⟨fun habs => ?_, fun name content => ?_, hs.clean⟩
    · rw [hp] at habs
      cases habs
    · rw [hs.get]
      simp only [hnone, and_false, false_or]

namespace Shows

/-- What counts is the same. -/
theorem congr {files' t' : Folder} (h : Shows rest files t L) (hclean : CleanFolder t')
    (hget : ∀ name content, isXml name = true →
      ((files'.get name = some content ∨ t'.get committed = none ∧ t'.get name = some content) ↔
        (files.get name = some content ∨ t.get committed = none ∧ t.get name = some content))) :
    Shows rest files' t' L := by
  refine ⟨fun name content => ?_, hclean, h.clean⟩
  rw [h.get, ← or_assoc, ← or_assoc]
  exact and_congr_right fun hx => or_congr_left (hget name content hx).symm

/-- Nothing of a hidden directory counts that has the marker. -/
theorem marked (h : Shows rest files .empty L) (hmark : (t.get committed).isSome = true)
    (hclean : CleanFolder t) : Shows rest files t L := by
  refine h.congr hclean fun name content _ => or_congr_right ?_
  constructor
  · rintro ⟨hnone, -⟩
    rw [hnone] at hmark
    cases hmark
  · rintro ⟨-, hget⟩
    cases hget

theorem unmarked (h : Shows rest files t L) (hmark : (t.get committed).isSome = true) :
    Shows rest files .empty L := by
  refine h.congr .empty fun name content _ => or_congr_right ?_
  constructor
  · rintro ⟨-, hget⟩
    cases hget
  · rintro ⟨hnone, -⟩
    rw [hnone] at hmark
    cases hmark

/-- A name has one content. -/
theorem eq_of_get {b c : Bytes} (h : Shows rest files t L) (hx : isXml name = true)
    (hb : files.get name = some b) (hopen : t.get committed = none)
    (hc : t.get name = some c) : b = c := by
  have hLb := (h.get name b).mpr ⟨hx, .inl hb⟩
  have hLc := (h.get name c).mpr ⟨hx, .inr (.inl ⟨hopen, hc⟩)⟩
  exact Option.some.inj (hLb.symm.trans hLc)

theorem isXml_of_get {b : Bytes} (h : Shows rest files t L) (hopen : t.get committed = none)
    (hb : t.get name = some b) : isXml name = true := by
  rcases h.folder name (by rw [hb]; rfl) with hx | rfl
  · exact hx
  · rw [hopen] at hb
    cases hb

variable {b : Bytes}

section

variable (h : Shows rest files t L) (hopen : t.get committed = none)
include h hopen

theorem link (hb : t.get name = some b)
    (hnone : files.get name = none) : Shows rest (files.insert name b) t L := by
  refine h.congr h.folder fun name' content _ => ?_
  rw [OrderedMap.get_insert]
  by_cases hname : name' = name
  · subst hname
    simp [hopen, hb, hnone]
  · rw [if_neg hname]

theorem unlink (hb : t.get name = some b)
    (hfile : files.get name = some b) : Shows rest files (t.erase name) L := by
  refine h.congr (h.folder.erase name) fun name' content _ => ?_
  rw [get_erase_none hopen, hopen, OrderedMap.get_erase]
  by_cases hname : name' = name
  · subst hname
    simp [hb, hfile]
  · rw [if_neg hname]

theorem rename (hx : isXml name = true)
    (hb : files.get name = some b) : Shows rest (files.erase name) (t.insert name b) L := by
  have hne : committed ≠ name := (isXml_ne_committed hx).symm
  refine h.congr (fun name' hname => ?_) fun name' content _ => ?_
  · rw [OrderedMap.get_insert] at hname
    split_ifs at hname with heq
    · exact .inl (heq ▸ hx)
    · exact h.folder name' hname
  · rw [OrderedMap.get_erase, OrderedMap.get_insert, OrderedMap.get_insert, if_neg hne]
    by_cases hname : name' = name
    · subst hname
      have heq : t.get name' = some content → b = content := fun hc => h.eq_of_get hx hb hopen hc
      simp only [if_pos, hopen, hb, true_and, Option.some.injEq, reduceCtorEq, false_or]
      exact ⟨.inl, fun hc => hc.elim id heq⟩
    · simp only [if_neg hname]

theorem renameBack (hb : t.get name = some b) :
    Shows rest (files.insert name b) (t.erase name) L := by
  have hx := h.isXml_of_get hopen hb
  refine h.congr (h.folder.erase name) fun name' content _ => ?_
  rw [get_erase_none hopen, hopen, OrderedMap.get_erase, OrderedMap.get_insert]
  by_cases hname : name' = name
  · subst hname
    have heq : files.get name' = some content → content = b := fun hc => h.eq_of_get hx hc hopen hb
    simp only [if_pos, hb, true_and, Option.some.injEq, reduceCtorEq, or_false]
    exact ⟨.inr, fun hc => hc.elim (fun hc => (heq hc).symm) id⟩
  · simp only [if_neg hname]

end

end Shows

end

/-! ### Calls -/

/-- No call fails, and the process does not die in front of one, where that does harm. -/
structure Mild (hz : Hazards Call Library) : Prop where
  fails : ∀ c s, hz.fails c s → harmful s.disk false c = false
  stops : ∀ c s, hz.stops c s → harmful s.disk true c = false

section

variable {rest : OrderedMap Text Folder} {dir name : Text} {b : Bytes} {d : Disk} {t L : Folder}

section

variable (h : At dir rest d t)
include h

theorem At.setDir (t' : Folder) : At dir rest (d.setDir dir t') t' :=
  ⟨h.present, OrderedMap.get_insert_self _ _ _, (OrderedMap.erase_insert _ _ _).trans h.rest⟩

theorem At.setFiles (files : Folder) : At dir rest (d.setFiles files) t :=
  ⟨h.present, h.get, h.rest⟩

theorem At.moved_eq (hb : t.get name = some b) : d.moved dir name = some (t, b) := by
  simp [Disk.moved, h.get, hb]

theorem At.moved_none (hb : t.get name = none) : d.moved dir name = none := by
  simp [Disk.moved, h.get, hb]

theorem At.removeMoved_eq (hb : t.get name = some b) :
    d.removeMoved dir name = .ok (d.setDir dir (t.erase name)) := by
  rw [Disk.removeMoved, h.moved_eq hb]

end

theorem At.apply_removeDir (h : At dir rest d .empty) :
    d.apply (.removeDir dir) = .ok { d with staging := d.staging.erase dir } := by
  simp only [Disk.apply, h.get]
  rfl

/-- In a committed directory nothing counts, and in an empty one there is nothing. -/
theorem At.represents (h : At dir rest d t) (hbase : Shows rest d.files .empty L)
    (hclean : CleanFolder t) (hidle : t.get committed = none → t = .empty) : Represents d L := by
  refine h.represents_iff.mpr ?_
  cases hmark : t.get committed with
  | none =>
    rw [hidle hmark]
    exact hbase
  | some _ => exact hbase.marked (by rw [hmark]; rfl) hclean

end

/-- A program of the library ends with `Q` or `E`, and is stopped only where `I` holds. -/
abbrev Upholds (hz : Hazards Call Library) (I : Library → Prop) {α : Type} :
    (α → Library → Prop) → (LibraryError → Library → Prop) → LibM α → Library → Prop :=
  Meets Library.apply .io hz I

section

variable {hz : Hazards Call Library} {I : Library → Prop} {α : Type} {Q : α → Library → Prop}
  {E : LibraryError → Library → Prop} {s : Library} {c : Call}
    {next : Except LibraryError Unit → LibM α}

/-- A call that succeeds unless it is interrupted. -/
theorem meets_ok {d : Disk} (h : s.disk.apply c = .ok d) (hstop : hz.stops c s → I s)
    (hfail : hz.fails c s → Upholds hz I Q E (next (.error .io)) s)
    (hdone : Upholds hz I Q E (next (.ok ())) { s with disk := d }) :
    Upholds hz I Q E (.call c next) s := by
  refine meets_call.mpr ⟨hstop, hfail, ?_⟩
  rw [Library.apply, h]
  exact hdone

theorem meets_error {e : LibraryError} (h : s.disk.apply c = .error e) (hstop : hz.stops c s → I s)
    (hfail : hz.fails c s → Upholds hz I Q E (next (.error .io)) s)
    (hdone : Upholds hz I Q E (next (.error e)) s) :
    Upholds hz I Q E (.call c next) s := by
  refine meets_call.mpr ⟨hstop, hfail, ?_⟩
  rw [Library.apply, h]
  exact hdone

end

/-! ### Recovery -/

/-- What is left of a hidden directory. -/
structure Recovered (dir : Text) (rest : OrderedMap Text Folder) (L : Folder)
    (entries : List DefaultLibraryEntry) (s : Library) : Prop where
  entries : s.entries = entries
  present : s.disk.present = true
  rest : s.disk.staging.erase dir = rest
  idle : ∀ t, s.disk.staging.get dir = some t → t.get committed = none → t = .empty
  represents : Represents s.disk L

/-- A committed directory while it is cleared. -/
structure Clearing (dir : Text) (rest : OrderedMap Text Folder) (files : Folder)
    (entries : List DefaultLibraryEntry) (left : List Text) (s : Library) : Prop where
  entries : s.entries = entries
  files : s.disk.files = files
  nodup : left.Nodup
  folder : ∃ t, At dir rest s.disk t ∧ CleanFolder t ∧
    ∀ name, (t.get name).isSome = true ↔ name ∈ left

/-- A directory that is not committed, while its files are moved back. -/
structure Restoring (dir : Text) (rest : OrderedMap Text Folder) (L : Folder)
    (entries : List DefaultLibraryEntry) (left : List Text) (s : Library) : Prop where
  entries : s.entries = entries
  nodup : left.Nodup
  folder : ∃ t, At dir rest s.disk t ∧ t.get committed = none ∧ Shows rest s.disk.files t L ∧
    ∀ name, (t.get name).isSome = true ↔ name ∈ left

/-- The hidden directories while they are recovered. -/
structure Recovering (L : Folder) (entries : List DefaultLibraryEntry) (left : List Text)
    (s : Library) : Prop where
  entries : s.entries = entries
  present : s.disk.present = true
  represents : Represents s.disk L
  nodup : left.Nodup
  there : ∀ dir ∈ left, ∃ t, s.disk.staging.get dir = some t
  idle : ∀ dir t, s.disk.staging.get dir = some t → t.get committed = none → dir ∈ left ∨ t = .empty

/-- A program may be stopped wherever the directory stands for the library. -/
abbrev Covers (I : Library → Prop) (L : Folder) : Prop := ∀ s, Represents s.disk L → I s

/-- An interruption, and the library is as it was. -/
def Interrupted (hz : Hazards Call Library) (L : Folder) (entries : List DefaultLibraryEntry)
    (s : Library) : Prop :=
  hz.Faulty ∧ s.entries = entries ∧ Represents s.disk L

section

variable {hz : Hazards Call Library} {I : Library → Prop} {L : Folder} {s : Library}
  {orders : Orders}
  {rest : OrderedMap Text Folder} {dir name : Text} {t : Folder} {b : Bytes}
  {entries : List DefaultLibraryEntry} {left : List Text}

theorem At.recovered (h : At dir rest s.disk t) (he : s.entries = entries)
    (hr : Represents s.disk L)
    (hidle : t.get committed = none → t = .empty) : Recovered dir rest L entries s := by
  refine ⟨he, h.present, h.rest, fun t' hget => ?_, hr⟩
  obtain rfl := Option.some.inj (h.get.symm.trans hget)
  exact hidle

theorem removeDir_meets (hI : Covers I L) (hat : At dir rest s.disk .empty)
    (hr : Represents s.disk L) :
    Upholds hz I (fun _ => Recovered dir rest L s.entries)
      (fun _ s' => hz.Faulty ∧ s' = s) (perform (.removeDir dir)) s := by
  refine meets_ok hat.apply_removeDir (fun _ => hI s hr) (fun hf => ⟨⟨_, _, hf⟩, rfl⟩) ?_
  have hshow := hat.represents_iff.mp hr
  have hgone : (s.disk.staging.erase dir).get dir = none := OrderedMap.get_erase_self _ _
  refine ⟨rfl, hat.present, ?_, fun t hget => ?_, ?_⟩
  · rw [← hat.rest]
    exact OrderedMap.ext (OrderedMap.erase_of_get_none hgone)
  · cases hgone.symm.trans hget
  · refine (represents_iff_empty (d := { s.disk with staging := s.disk.staging.erase dir })
      hat.present).mpr ?_
    show Shows (s.disk.staging.erase dir) s.disk.files .empty L
    rw [hat.rest]
    exact hshow

theorem mem_removal (t : Folder) (name : Text) :
    (t.get name).isSome = true ↔ name ∈ orders.removal t.keys := by
  rw [(orders.removal_perm t.keys).mem_iff, OrderedMap.mem_keys, Option.isSome_iff_exists]

/-- The names that are left, without the first. -/
theorem isSome_erase_iff (hleft : ∀ name', (t.get name').isSome = true ↔ name' ∈ name :: left)
    (hname : name ∉ left) (name' : Text) :
    ((t.erase name).get name').isSome = true ↔ name' ∈ left := by
  rw [OrderedMap.get_erase]
  split_ifs with heq
  · rw [heq]
    exact iff_of_false (by simp) hname
  · rw [hleft, List.mem_cons, or_iff_right heq]

theorem clear_meets (hm : Mild hz) (hI : Covers I L) {files : Folder}
    (hbase : Shows rest files .empty L) (h : Clearing dir rest files entries (name :: left) s) :
    Upholds hz I (fun _ => Clearing dir rest files entries left)
      (fun _ => Recovered dir rest L entries) (perform (.clear dir name)) s := by
  obtain ⟨t, hat, hclean, hleft⟩ := h.folder
  obtain ⟨b, hb⟩ := Option.isSome_iff_exists.mp ((hleft name).mpr (.head _))
  have hnodup := List.nodup_cons.mp h.nodup
  -- an interruption without harm finds the marker
  have hmarked : ∀ stop, harmful s.disk stop (.clear dir name) = false → t.get committed = none →
      t = .empty := by
    intro stop hharm hnone
    simp [harmful, hat.get, hnone] at hharm
  have hrep : (t.get committed = none → t = .empty) → Represents s.disk L :=
    hat.represents (h.files ▸ hbase) hclean
  refine meets_ok (hat.removeMoved_eq hb) (fun hstop => ?_) (fun hf => ?_) ?_
  · exact hI s (hrep (hmarked true (hm.stops _ _ hstop)))
  · have hidle := hmarked false (hm.fails _ _ hf)
    exact hat.recovered h.entries (hrep hidle) hidle
  · exact ⟨h.entries, h.files, hnodup.2, t.erase name, hat.setDir _, hclean.erase name,
      isSome_erase_iff hleft hnodup.1⟩

/-- A committed directory is cleared, or keeps its marker, or is empty. -/
theorem removeDirAll_meets (hm : Mild hz) (hI : Covers I L)
    (hat : At dir rest s.disk t) (hmark : (t.get committed).isSome = true)
    (hr : Represents s.disk L) :
    Upholds hz I (fun _ => Recovered dir rest L s.entries)
      (fun _ => Recovered dir rest L s.entries) (removeDirAll orders dir) s := by
  have hshow := hat.represents_iff.mp hr
  have hbase := hshow.unmarked hmark
  have hstart : Clearing dir rest s.disk.files s.entries (orders.removal t.keys) s :=
    ⟨rfl, rfl, (orders.removal_perm _).nodup_iff.mpr t.nodup, t, hat, hshow.folder, mem_removal t⟩
  unfold removeDirAll
  refine meets_view.mpr ?_
  rw [hat.get]
  refine (Meets.forEach (Clearing dir rest s.disk.files s.entries)
    (fun _ _ _ h => clear_meets hm hI hbase h) hstart).bind (fun _ s' h => ?_) fun _ _ h => h
  -- nothing is left
  obtain ⟨t', hat', -, hleft⟩ := h.folder
  obtain rfl := eq_empty_of_left hleft
  have hr' : Represents s'.disk L := hat'.represents_iff.mpr (h.files ▸ hbase)
  rw [← h.entries]
  refine (removeDir_meets hI hat' hr').imp (fun _ _ h => h) ?_
  rintro _ s'' ⟨-, rfl⟩
  exact hat'.recovered rfl hr' fun _ => rfl

theorem linkBack_meets (hI : Covers I L) (hat : At dir rest s.disk t)
    (hopen : t.get committed = none) (hb : t.get name = some b) (hr : Represents s.disk L) :
    Upholds hz I
      (fun _ s' => s'.entries = s.entries ∧ At dir rest s'.disk t ∧
        s'.disk.files.get name = some b ∧
        Represents s'.disk L)
      (fun _ => Interrupted hz L s.entries) (linkBack dir name) s := by
  have hshow := hat.represents_iff.mp hr
  have hfail : hz.fails (.hardLink dir name) s → Interrupted hz L s.entries s := fun hf =>
    ⟨⟨_, _, hf⟩, rfl, hr⟩
  unfold linkBack
  cases hfile : s.disk.files.get name with
  | none =>
    have happly : s.disk.apply (.hardLink dir name) =
        .ok (s.disk.setFiles (s.disk.files.insert name b)) := by
      simp [Disk.apply, hat.moved_eq hb, hfile]
    refine meets_ok happly (fun _ => hI s hr) (fun hf => hfail hf) ?_
    have hat' := hat.setFiles (s.disk.files.insert name b)
    exact ⟨rfl, hat', OrderedMap.get_insert_self _ _ _,
      hat'.represents_iff.mpr (hshow.link hopen hb hfile)⟩
  | some c =>
    have happly : s.disk.apply (.hardLink dir name) = .error .alreadyExists := by
      simp [Disk.apply, hat.moved_eq hb, hfile]
    -- the file in place is the same
    obtain rfl := hshow.eq_of_get (hshow.isXml_of_get hopen hb) hfile hopen hb
    refine meets_error happly (fun _ => hI s hr) (fun hf => hfail hf) ?_
    refine meets_view.mpr ?_
    rw [hat.moved_eq hb, hfile, if_pos (show Option.map Prod.snd (some (t, c)) = some c from rfl)]
    exact ⟨rfl, hat, hfile, hr⟩

theorem recoverFile_meets (hI : Covers I L) (h : Restoring dir rest L entries (name :: left) s) :
    Upholds hz I (fun _ => Restoring dir rest L entries left)
      (fun _ => Interrupted hz L entries) (recoverFile dir name) s := by
  obtain ⟨t, hat, hopen, hshow, hleft⟩ := h.folder
  obtain ⟨b, hb⟩ := Option.isSome_iff_exists.mp ((hleft name).mpr (.head _))
  have hnodup := List.nodup_cons.mp h.nodup
  rw [← h.entries]
  refine (linkBack_meets hI hat hopen hb (hat.represents_iff.mpr hshow)).bind ?_ fun _ _ h => h
  rintro - s' ⟨he, hat', hfile, hr'⟩
  rw [← he]
  refine meets_ok (hat'.removeMoved_eq hb) (fun _ => hI s' hr')
    (fun hf => ⟨⟨_, _, hf⟩, rfl, hr'⟩) ?_
  have hshow' := (hat'.represents_iff.mp hr').unlink hopen hb hfile
  exact ⟨rfl, hnodup.2, t.erase name, hat'.setDir _, get_erase_none hopen, hshow',
    isSome_erase_iff hleft hnodup.1⟩

theorem mem_xmlFiles {files : Folder} :
    name ∈ xmlFiles files ↔ isXml name = true ∧ (files.get name).isSome = true := by
  rw [xmlFiles, List.mem_filter, OrderedMap.mem_keys, Option.isSome_iff_exists, and_comm]

theorem recoverDir_meets (hm : Mild hz) (hI : Covers I L)
    (hat : At dir rest s.disk t) (hr : Represents s.disk L) :
    Upholds hz I (fun _ => Recovered dir rest L s.entries)
      (fun _ => Interrupted hz L s.entries) (recoverDir orders dir) s := by
  have hshow := hat.represents_iff.mp hr
  unfold recoverDir
  refine meets_view.mpr ?_
  rw [hat.get]
  cases hmark : t.get committed with
  | some m =>
    simp only [hmark, Option.isSome_some, if_true]
    exact (removeDirAll_meets hm hI hat (by rw [hmark]; rfl) hr).attempt (fun _ _ h => h)
      fun _ _ h => h
  | none =>
    simp only [hmark, Option.isSome_none, Bool.false_eq_true, if_false]
    have hstart : Restoring dir rest L s.entries (xmlFiles t) s := by
      refine ⟨rfl, List.Nodup.sublist List.filter_sublist t.nodup, t, hat, hmark, hshow,
        fun name => ?_⟩
      rw [mem_xmlFiles]
      refine ⟨fun hname => ⟨?_, hname⟩, And.right⟩
      obtain ⟨b, hb⟩ := Option.isSome_iff_exists.mp hname
      exact hshow.isXml_of_get hmark hb
    refine (Meets.forEach (Restoring dir rest L s.entries) (fun _ _ _ h => recoverFile_meets hI h)
      hstart).bind (fun _ s' h => ?_) fun _ _ h => h
    obtain ⟨t', hat', -, hshow', hleft⟩ := h.folder
    obtain rfl := eq_empty_of_left hleft
    have hr' := hat'.represents_iff.mpr hshow'
    rw [← h.entries]
    refine (removeDir_meets hI hat' hr').imp (fun _ _ h => h) ?_
    rintro _ s'' ⟨hfaulty, rfl⟩
    exact ⟨hfaulty, rfl, hr'⟩

/-- After a recovery the library is in place. -/
theorem recoverRemovals_meets (hm : Mild hz) (hI : Covers I L)
    (hp : s.disk.present = true) (hr : Represents s.disk L) :
    Upholds hz I (fun _ => Recovering L s.entries [])
      (fun _ => Interrupted hz L s.entries) (recoverRemovals orders) s := by
  have hstart : Recovering L s.entries (orders.dirs s.disk.staging.keys) s := by
    refine ⟨rfl, hp, hr, (orders.dirs_perm _).nodup_iff.mpr s.disk.staging.nodup,
      fun dir hdir => ?_, fun dir t hget _ => .inl ?_⟩
    · exact OrderedMap.mem_keys.mp ((orders.dirs_perm _).mem_iff.mp hdir)
    · exact (orders.dirs_perm _).mem_iff.mpr (OrderedMap.mem_keys.mpr ⟨t, hget⟩)
  unfold recoverRemovals
  refine meets_view.mpr ?_
  rw [if_pos hp]
  refine Meets.forEach (Recovering L s.entries) (fun dir left s' h => ?_) hstart
  obtain ⟨t, hget⟩ := h.there dir (.head _)
  have hnodup := List.nodup_cons.mp h.nodup
  rw [← h.entries]
  refine (recoverDir_meets hm hI ⟨h.present, hget, rfl⟩ h.represents).imp ?_ fun _ _ h => h
  intro _ s'' hdone
  have hother : ∀ dir', dir' ≠ dir → s''.disk.staging.get dir' = s'.disk.staging.get dir' := by
    intro dir' hne
    rw [← OrderedMap.get_erase_of_ne hne, hdone.rest, OrderedMap.get_erase_of_ne hne]
  refine ⟨hdone.entries, hdone.present, hdone.represents, hnodup.2, fun dir' hdir => ?_,
    fun dir' t' hget' hopen => ?_⟩
  · rw [hother dir' fun heq => hnodup.1 (heq ▸ hdir)]
    exact h.there dir' (.tail _ hdir)
  · by_cases hne : dir' = dir
    · subst hne
      exact .inr (hdone.idle t' hget' hopen)
    · rw [hother dir' hne] at hget'
      exact (h.idle dir' t' hget' hopen).imp_left fun hmem =>
        (List.mem_cons.mp hmem).resolve_left hne

end

/-! ### The operations -/

def Unchanged (L : Folder) (entries : List DefaultLibraryEntry) (s : Library) : Prop :=
  s.entries = entries ∧ Represents s.disk L

/-- A removal that has not been committed. -/
def Uncommitted (dir : Text) (rest : OrderedMap Text Folder) (L : Folder)
    (entries : List DefaultLibraryEntry) (s : Library) : Prop :=
  s.entries = entries ∧ ∃ t, At dir rest s.disk t ∧ t.get committed = none ∧
    Shows rest s.disk.files t L

section

variable (codec : Codec) (casing : Casing)

def Readable (L : Folder) : Prop :=
  ∀ name content, L.get name = some content → (codec.readEntry content).isSome = true

/-- The items that a file gives a load. -/
def visible (content : Bytes) : List DefaultLibraryEntry :=
  match codec.readEntry content with
  | some entry => if entry.url.isEmpty then [] else [entry]
  | none => []

/-- The items of a library. -/
def items (L : Folder) : List DefaultLibraryEntry :=
  L.entries.flatMap fun file => visible codec file.2

/-- The library without the items of a URL. -/
def without (url : Text) (L : Folder) : Folder :=
  L.filter fun file => !isMatch codec casing url file.2

/-- What a completed operation makes of the library. -/
def Completed : Op → Folder → Folder → Prop
  | .load, L, L' | .recover, L, L' => L' = L
  | .add mode url password _, L, L' =>
    ∃ entry bytes name, normalizedEntry codec mode url password = .ok entry ∧
      codec.document entry = some bytes ∧ isXml name = true ∧ L.get name = none ∧
        L' = L.insert name bytes
  | .remove url _, L, L' => L' = without codec casing url L

def CompletedOn (op : Op) (L : Folder) (s : Library) : Prop :=
  ∃ L', Completed codec casing op L L' ∧ Represents s.disk L'

/-- The library as before or as after. -/
def Either (op : Op) (L : Folder) (s : Library) : Prop :=
  Represents s.disk L ∨ CompletedOn codec casing op L s

end

section

variable {codec : Codec} {casing : Casing} {hz : Hazards Call Library}
  {I : Library → Prop} {L : Folder}
  {s : Library} {orders : Orders} {rest : OrderedMap Text Folder} {dir url : Text}
  {entries : List DefaultLibraryEntry} {name : Text} {E : LibraryError → Library → Prop} {stamp : ℕ}

theorem Interrupted.unchanged (h : Interrupted hz L entries s) : Unchanged L entries s := h.2

theorem Uncommitted.unchanged (h : Uncommitted dir rest L entries s) : Unchanged L entries s := by
  obtain ⟨he, t, hat, -, hshow⟩ := h
  exact ⟨he, hat.represents_iff.mpr hshow⟩

/-- Nothing is staged after a recovery. -/
theorem Recovering.not_staged (h : Recovering L entries [] s) {content : Bytes} :
    ¬ Staged s.disk.staging name content := by
  rintro ⟨dir, t, hget, hopen, hname⟩
  obtain rfl := (h.idle dir t hget hopen).resolve_left List.not_mem_nil
  cases hname

theorem Recovering.get_iff (h : Recovering L entries [] s) {content : Bytes} :
    L.get name = some content ↔ isXml name = true ∧ s.disk.files.get name = some content := by
  rw [h.represents.get, or_iff_left h.not_staged]

theorem readEntries_eq {l : List (Text × Bytes)}
    (h : ∀ file ∈ l, (codec.readEntry file.2).isSome = true) :
    readEntries codec l = .ok (l.flatMap fun file => visible codec file.2) := by
  induction l with
  | nil => rfl
  | cons file l ih =>
    obtain ⟨name, content⟩ := file
    have htail := ih fun f hf => h f (.tail _ hf)
    obtain ⟨entry, hentry⟩ := Option.isSome_iff_exists.mp (h _ (.head _))
    simp only [readEntries, htail, List.flatMap_cons, visible, hentry]
    split_ifs <;> rfl

theorem Readable.readEntries (h : Readable codec L) :
    readEntries codec L.entries = .ok (items codec L) :=
  readEntries_eq fun file hfile => h file.1 file.2 (OrderedMap.mem_iff_get.mp hfile)

theorem loadXmlDir_meets (orders : Orders) (hm : Mild hz) (hI : Covers I L)
    (hread : Readable codec L) (hr : Represents s.disk L) :
    Upholds hz I
      (fun _ s' => Represents s'.disk L ∧ s'.entries = items codec L)
      (fun _ => Interrupted hz L s.entries) (loadXmlDir orders codec) s := by
  unfold loadXmlDir
  refine meets_view.mpr ?_
  by_cases hp : s.disk.present = true
  · rw [if_pos hp]
    refine (recoverRemovals_meets hm hI hp hr).bind (fun _ s' h => ?_) fun _ _ h => h
    have hfiles : s'.disk.files.entries.filter (fun f => isXml f.1) = L.entries := by
      have hL : s'.disk.files.filter (fun f => isXml f.1) = L := by
        refine OrderedMap.ext_get fun name => Option.ext fun content => ?_
        rw [OrderedMap.get_filter, h.get_iff, and_comm]
      exact congrArg OrderedMap.entries hL
    refine meets_view.mpr ?_
    rw [hfiles, hread.readEntries]
    exact ⟨h.represents, rfl⟩
  · rw [if_neg hp]
    obtain rfl := hr.absent (Bool.eq_false_iff.mpr hp)
    exact ⟨hr, rfl⟩

theorem created_of_apply {d d' : Disk} (h : d.apply (.createNew name) = .ok d') :
    d.files.get name = none ∧ d' = d.setFiles (d.files.insert name []) := by
  simp only [Disk.apply] at h
  split_ifs at h with hfree
  exact ⟨Option.not_isSome_iff_eq_none.mp hfree, (Except.ok.inj h).symm⟩

theorem createdDir_of_apply {d d' : Disk} {dir : Text} (h : d.apply (.createDir dir) = .ok d') :
    d.staging.get dir = none ∧ d' = d.setDir dir .empty := by
  simp only [Disk.apply] at h
  split_ifs at h with hfree
  exact ⟨Option.not_isSome_iff_eq_none.mp hfree, (Except.ok.inj h).symm⟩

/-- The loop that looks for a free name changes nothing until it has found one. -/
theorem createFirst_meets {create : Text → Call} {name : ℕ → Text} {Q : Unit → Library → Prop}
    {f : Text → LibM Unit} (hstop : I s) (herr : ∀ e, E e s)
    (hok : ∀ k d, s.disk.apply (create (name k)) = .ok d →
      Upholds hz I Q E (f (name k)) { s with disk := d })
    (attempts counter : ℕ) :
    Upholds hz I Q E (createFirst create name attempts counter >>= f) s := by
  induction attempts generalizing counter with
  | zero => exact herr _
  | succ attempts ih =>
    unfold createFirst
    cases happly : s.disk.apply (create (name counter)) with
    | ok d => exact meets_ok happly (fun _ => hstop) (fun _ => herr _) (hok counter d happly)
    | error e =>
      refine meets_error happly (fun _ => hstop) (fun _ => herr _) ?_
      cases e with
      | alreadyExists => exact ih _
      | _ => exact herr _

theorem isXml_fileName (mode stamp counter : ℕ) : isXml (fileName mode stamp counter) = true := by
  have hsuffix : ".xml".toList <:+ fileName mode stamp counter := List.suffix_append _ _
  have hlong : 4 < (fileName mode stamp counter).length := by
    simp only [fileName, List.length_append, List.length_cons]
    have : ".xml".toList.length = 4 := rfl
    omega
  rw [isXml, List.isSuffixOf_iff_suffix.mpr hsuffix, decide_eq_true hlong]
  rfl

/-- A file that is created and then written. -/
theorem Recovering.insert (h : Recovering L entries [] s) (hx : isXml name = true) (bytes : Bytes) :
    Represents (s.disk.setFiles (s.disk.files.insert name bytes)) (L.insert name bytes) := by
  refine ⟨fun habs => ?_, fun name' content => ?_, h.represents.clean⟩
  · cases habs.symm.trans h.present
  · show _ ↔ _ ∧ ((s.disk.files.insert name bytes).get name' = some content ∨
      Staged s.disk.staging name' content)
    rw [or_iff_left h.not_staged, OrderedMap.get_insert, OrderedMap.get_insert]
    split_ifs with heq
    · rw [heq]
      exact (and_iff_right hx).symm
    · exact h.get_iff

theorem addItem_meets (hm : Mild hz) {mode : ℕ} {password : Text} (hI : Covers I L)
    (hr : Represents s.disk L) :
    Upholds hz I (fun _ => CompletedOn codec casing (.add mode url password stamp) L)
      (fun _ => Unchanged L s.entries) (addItem orders codec mode url password stamp) s := by
  unfold addItem
  cases hentry : normalizedEntry codec mode url password with
  | error e => exact ⟨rfl, hr⟩
  | ok entry =>
    dsimp only
    cases hdoc : codec.document entry with
    | none => exact ⟨rfl, hr⟩
    | some bytes =>
      have hr₁ : Represents { s.disk with present := true } L := ⟨nofun, hr.get, hr.clean⟩
      refine meets_ok rfl (fun _ => hI s hr) (fun _ => ⟨rfl, hr⟩) ?_
      refine (recoverRemovals_meets hm hI rfl hr₁).bind (fun _ s₂ h => ?_) fun _ _ h => h.unchanged
      refine meets_view.mpr ?_
      have herr : ∀ e : LibraryError, Unchanged L s.entries s₂ := fun _ => ⟨h.entries, h.represents⟩
      refine createFirst_meets (hI s₂ h.represents) herr (fun k d happly => ?_) _ _
      obtain ⟨hfree, rfl⟩ := created_of_apply happly
      have hx := isXml_fileName mode stamp k
      generalize fileName mode stamp k = name at hfree hx ⊢
      -- the file is there and empty: only the two interruptions are possible that do no harm
      refine meets_ok rfl (fun hstop => absurd (hm.stops _ _ hstop) (by simp [harmful]))
        (fun _ => ?_) ?_
      · have hremove : (s₂.disk.setFiles (s₂.disk.files.insert name [])).apply (.removeFile name) =
            .ok s₂.disk := by
          simp [Disk.apply, Disk.setFiles, OrderedMap.get_insert_self, OrderedMap.erase_insert,
            OrderedMap.erase_of_none hfree]
        refine meets_ok hremove (fun hstop => absurd (hm.stops _ _ hstop) (by simp [harmful]))
          (fun hfail => absurd (hm.fails _ _ hfail) (by simp [harmful])) ?_
        exact herr .io
      · have hnone : L.get name = none := by
          cases hL : L.get name with
          | none => rfl
          | some content => cases hfree.symm.trans (h.get_iff.mp hL).2
        have hinsert := h.insert hx bytes
        rw [← OrderedMap.insert_insert _ _ []] at hinsert
        exact ⟨_, ⟨entry, bytes, name, hentry, hdoc, hx, hnone, rfl⟩, hinsert⟩

/-! ### Removing -/

theorem mem_matchingFiles : name ∈ matchingFiles codec casing url s ↔
    isXml name = true ∧ ∃ b, s.disk.files.get name = some b ∧
      isMatch codec casing url b = true := by
  rw [matchingFiles, List.mem_filter, mem_xmlFiles, Option.any_eq_true]
  constructor
  · rintro ⟨⟨hx, -⟩, hmatch⟩
    exact ⟨hx, hmatch⟩
  · rintro ⟨hx, b, hb, hmatch⟩
    exact ⟨⟨hx, by rw [hb]; rfl⟩, b, hb, hmatch⟩

/-- What is left when all matching files have been moved away. -/
theorem Recovering.shows_without (h : Recovering L entries [] s) {files : Folder}
    (hfiles : ∀ name, files.get name =
      if name ∈ matchingFiles codec casing url s then none else s.disk.files.get name) :
    Shows s.disk.staging files .empty (without codec casing url L) := by
  refine ⟨fun name content => ?_, .empty, h.represents.clean⟩
  rw [without, OrderedMap.get_filter, h.get_iff, or_iff_left h.not_staged,
    or_iff_left (fun hc => nomatch hc.2), hfiles, and_assoc]
  refine and_congr_right fun hx => ?_
  split_ifs with hmatch
  · obtain ⟨-, b, hb, hmatch⟩ := mem_matchingFiles.mp hmatch
    refine iff_of_false (fun hc => ?_) nofun
    obtain rfl := Option.some.inj (hb.symm.trans hc.1)
    rw [hmatch] at hc
    cases hc.2
  · refine and_iff_left_of_imp fun hget => ?_
    rw [Bool.not_eq_true']
    exact Bool.eq_false_iff.mpr fun hc => hmatch (mem_matchingFiles.mpr ⟨hx, content, hget, hc⟩)

/-- The end of the staging. -/
def StageEnd (dir : Text) (rest : OrderedMap Text Folder) (L L' : Folder)
    (entries : List DefaultLibraryEntry) : Except LibraryError Unit → Library → Prop
  | .ok _, s => s.entries = entries ∧ Represents s.disk L' ∧
      ∃ t, At dir rest s.disk t ∧ (t.get committed).isSome = true
  | .error _, s => Uncommitted dir rest L entries s

theorem stage_meets {files₀ L' : Folder} {all : List Text} (hI : Covers I L)
    (hxml : ∀ name ∈ all, isXml name = true)
    (hall : ∀ files : Folder,
      (∀ name, files.get name = if name ∈ all then none else files₀.get name) →
      Shows rest files .empty L') {left staged : List Text} (hsplit : staged ++ left = all)
    (h : Uncommitted dir rest L entries s)
    (hfiles : ∀ name, s.disk.files.get name = if name ∈ staged then none else files₀.get name) :
    Upholds hz I (fun r => StageEnd dir rest L L' entries r.2) E (stage dir left staged) s := by
  induction left generalizing staged s with
  | nil =>
    obtain rfl : staged = all := by rwa [List.append_nil] at hsplit
    have hunchanged := h.unchanged
    obtain ⟨he, t, hat, hopen, hshow⟩ := id h
    have happly : s.disk.apply (.mark dir) = .ok (s.disk.setDir dir (t.insert committed [])) := by
      simp [Disk.apply, hat.get]
    refine meets_ok happly (fun _ => hI s hunchanged.2) (fun _ => h) ?_
    have hmark : ((t.insert committed []).get committed).isSome = true := by
      rw [OrderedMap.get_insert_self]
      rfl
    have hclean : CleanFolder (t.insert committed []) := by
      intro name hname
      rw [OrderedMap.get_insert] at hname
      split_ifs at hname with heq
      · exact .inr heq
      · exact hshow.folder name hname
    have hat' := hat.setDir (t.insert committed [])
    exact ⟨he, hat'.represents_iff.mpr ((hall _ hfiles).marked hmark hclean), _, hat', hmark⟩
  | cons file left ih =>
    have hunchanged := h.unchanged
    obtain ⟨he, t, hat, hopen, hshow⟩ := id h
    unfold stage
    cases hb : s.disk.files.get file with
    | none =>
      have happly : s.disk.apply (.rename file dir) = .error .notFound := by simp [Disk.apply, hb]
      exact meets_error happly (fun _ => hI s hunchanged.2) (fun _ => h) h
    | some b =>
      have happly : s.disk.apply (.rename file dir) =
          .ok ((s.disk.setFiles (s.disk.files.erase file)).setDir dir (t.insert file b)) := by
        simp [Disk.apply, hb, hat.get]
      refine meets_ok happly (fun _ => hI s hunchanged.2) (fun _ => h) ?_
      have hx := hxml file (by rw [← hsplit]; simp)
      refine ih (by rw [← hsplit]; simp)
        ⟨he, _, (hat.setFiles _).setDir _, ?_, hshow.rename hopen hx hb⟩ ?_
      · rwa [OrderedMap.get_insert_of_ne (isXml_ne_committed hx).symm]
      · intro name
        show (s.disk.files.erase file).get name = _
        rw [OrderedMap.get_erase, hfiles]
        by_cases hname : name = file
        · rw [if_pos hname, if_pos (List.mem_append_right _ (List.mem_singleton.mpr hname))]
        · simp only [List.mem_append, List.mem_singleton, hname, if_false, or_false]

/-- A rollback loses nothing, however many of its steps fail. -/
theorem rollback_meets (hI : Covers I L) {left : List Text} {error : Option LibraryError}
    (h : Uncommitted dir rest L entries s) :
    Upholds hz I (fun _ => Uncommitted dir rest L entries) E (rollback dir left error) s := by
  induction left generalizing error s with
  | nil => exact h
  | cons file left ih =>
    have hunchanged := h.unchanged
    obtain ⟨he, t, hat, hopen, hshow⟩ := id h
    unfold rollback
    cases hb : t.get file with
    | none =>
      have happly : s.disk.apply (.renameBack dir file) = .error .notFound := by
        simp [Disk.apply, hat.moved_none hb]
      exact meets_error happly (fun _ => hI s hunchanged.2) (fun _ => ih h) (ih h)
    | some b =>
      have happly : s.disk.apply (.renameBack dir file) =
          .ok ((s.disk.setFiles (s.disk.files.insert file b)).setDir dir (t.erase file)) := by
        simp [Disk.apply, hat.moved_eq hb]
      refine meets_ok happly (fun _ => hI s hunchanged.2) (fun _ => ih h) ?_
      exact ih ⟨he, _, (hat.setFiles _).setDir _, get_erase_none hopen, hshow.renameBack hopen hb⟩

/-- The empty directory of a removal that was rolled back. -/
theorem discard_meets (hI : Covers I L) {error : LibraryError} {α : Type}
    {Q : α → Library → Prop} (h : Uncommitted dir rest L entries s) :
    Upholds hz I Q (fun _ => Unchanged L entries)
      (do let _ ← tried (.removeDir dir); .fail error) s := by
  have hunchanged := h.unchanged
  obtain ⟨he, t, hat, hopen, hshow⟩ := h
  have hr := hat.represents_iff.mpr hshow
  cases hempty : t.isEmpty with
  | true =>
    have htree : t = .empty := OrderedMap.ext (List.isEmpty_iff.mp hempty)
    subst htree
    exact (removeDir_meets hI hat hr).attempt (fun _ _ h => ⟨h.entries.trans he, h.represents⟩)
      fun _ _ h => h.2 ▸ hunchanged
  | false =>
    have happly : s.disk.apply (.removeDir dir) = .error .notEmpty := by
      simp [Disk.apply, hat.get, hempty]
    exact meets_error happly (fun _ => hI s hr) (fun _ => hunchanged) hunchanged

theorem removeStaged_meets (hm : Mild hz) (hI : Covers I L)
    (hI' : Covers I (without codec casing url L)) (h : Recovering L entries [] s) :
    Upholds hz I (fun _ s' => Represents s'.disk (without codec casing url L))
      (fun _ => Unchanged L entries)
      (removeStaged orders casing url (matchingFiles codec casing url s) stamp) s := by
  have hunchanged : Unchanged L entries s := ⟨h.entries, h.represents⟩
  unfold removeStaged
  refine meets_view.mpr ?_
  refine createFirst_meets (hI s h.represents) (fun _ => hunchanged) (fun k d happly => ?_) _ _
  obtain ⟨hfree, rfl⟩ := createdDir_of_apply happly
  generalize stagingName stamp k = dir at hfree ⊢
  have hat : At dir s.disk.staging (s.disk.setDir dir .empty) .empty :=
    ⟨h.present, OrderedMap.get_insert_self _ _ _,
      (OrderedMap.erase_insert _ _ _).trans (OrderedMap.erase_of_none hfree)⟩
  have hstart : Uncommitted dir s.disk.staging L entries
      { s with disk := s.disk.setDir dir .empty } :=
    ⟨h.entries, _, hat, rfl, (represents_iff_empty h.present).mp h.represents⟩
  refine (stage_meets hI (fun name hname => (mem_matchingFiles.mp hname).1)
    (fun _ => h.shows_without) rfl
    hstart fun name => ?_).bind ?_ fun _ _ h => h
  · rw [if_neg List.not_mem_nil]
    rfl
  · rintro ⟨staged, _ | _⟩ s' hend
    · -- a move or the marker failed
      refine (rollback_meets hI hend).bind ?_ fun _ _ h => h
      rintro (_ | _) s'' hrolled
      · exact discard_meets hI hrolled
      · exact hrolled.unchanged
    · obtain ⟨-, hr', t, hat', hmark⟩ := hend
      exact (removeDirAll_meets (s := retainOthers casing url s') hm hI' hat' hmark hr').attempt
        (fun _ _ h => h.represents) fun _ _ h => h.represents

theorem removeItem_meets (hm : Mild hz) (hI : Covers I L)
    (hI' : Covers I (without codec casing url L)) (hr : Represents s.disk L) :
    Upholds hz I (fun _ s' => Represents s'.disk (without codec casing url L))
      (fun _ => Unchanged L s.entries) (removeItem orders codec casing url stamp) s := by
  unfold removeItem
  by_cases hblank : isBlank url = true
  · rw [if_pos hblank]
    exact ⟨rfl, hr⟩
  rw [if_neg hblank]
  refine meets_view.mpr ?_
  by_cases hp : s.disk.present = true
  · rw [if_pos hp]
    refine (recoverRemovals_meets hm hI hp hr).bind (fun _ s' h => ?_) fun _ _ h => h.unchanged
    refine meets_view.mpr ?_
    split
    · rename_i hfiles
      refine (represents_iff_empty h.present).mpr (h.shows_without fun name => ?_)
      rw [hfiles, if_neg List.not_mem_nil]
    · rename_i file files hfiles
      rw [← hfiles]
      exact removeStaged_meets hm hI hI' h
  · rw [if_neg hp]
    obtain rfl := hr.absent (Bool.eq_false_iff.mpr hp)
    exact hr

end

/-! ### Runs -/

/-- **What was written can be read.** -/
theorem Codec.readEntry_document {codec : Codec} {entry : DefaultLibraryEntry} {bytes : Bytes}
    (h : codec.document entry = some bytes) : (codec.readEntry bytes).isSome = true := by
  obtain ⟨xml, hxml, rfl⟩ := Option.map_eq_some_iff.mp h
  rw [Codec.readEntry, strFromUtf8_iff.mpr rfl, Option.map_some, String.toList_ofList]
  dsimp only
  rw [if_pos (codec.writes_root entry xml hxml)]
  exact codec.reads_back entry xml hxml

theorem Completed.readable {codec : Codec} {casing : Casing} {op : Op} {L L' : Folder}
    (h : Completed codec casing op L L') (hread : Readable codec L) : Readable codec L' := by
  cases op with
  | load | recover => exact h ▸ hread
  | add mode url password stamp =>
    obtain ⟨entry, bytes, file, -, hdoc, -, -, rfl⟩ := h
    intro name content hget
    rw [OrderedMap.get_insert] at hget
    split_ifs at hget
    · obtain rfl := Option.some.inj hget
      exact Codec.readEntry_document hdoc
    · exact hread name content hget
  | remove url stamp =>
    obtain rfl := h
    intro name content hget
    exact hread name content (OrderedMap.get_filter.mp hget).1

/-- The interruptions that do no harm. -/
def harmless : Hazards Call Library :=
  ⟨fun c s => harmful s.disk false c = false, fun c s => harmful s.disk true c = false⟩

theorem mild_harmless : Mild harmless := ⟨fun _ _ h => h, fun _ _ h => h⟩

theorem mild_none : Mild .none := ⟨fun _ _ h => h.elim, fun _ _ h => h.elim⟩

section

variable (codec : Codec) (casing : Casing)

/-- What is known of an operation that runs, up to its end. -/
abbrev Runs (op : Op) (L : Folder) (entries : List DefaultLibraryEntry) :
    LibM Unit → Library → Prop :=
  Upholds harmless (Either codec casing op L) (fun _ => CompletedOn codec casing op L)
    fun _ => Unchanged L entries

/-- What is known when nothing runs. -/
def Ended (op : Op) (L : Folder) (entries : List DefaultLibraryEntry) :
    Option (Except LibraryError Unit) → Library → Prop
  | some (.ok _), s => CompletedOn codec casing op L s
  | some (.error _), s => Unchanged L entries s
  | none, s => Either codec casing op L s

structure Sound (s : State) (L : Folder) : Prop where
  readable : Readable codec L
  started : Represents s.started.disk L
  task : match s.task with
    | some m => Runs codec casing s.op L s.started.entries m s.library
    | none => Ended codec casing s.op L s.started.entries s.outcome s.library

end

section

variable {codec : Codec} {casing : Casing} {L : Folder} {s s' : State}

theorem op_runs {orders : Orders} {lib : Library} (op : Op) (hread : Readable codec L)
    (hr : Represents lib.disk L) : Runs codec casing op L lib.entries
      (op.run codec casing orders) lib := by
  have hI : Covers (Either codec casing op L) L := fun _ => .inl
  cases op with
  | load =>
    exact (loadXmlDir_meets _ mild_harmless hI hread hr).imp (fun _ _ h => ⟨L, rfl, h.1⟩)
      fun _ _ h => h.unchanged
  | recover =>
    by_cases hp : lib.disk.present = true
    · exact (recoverRemovals_meets mild_harmless hI hp hr).imp (fun _ _ h => ⟨L, rfl, h.represents⟩)
        fun _ _ h => h.unchanged
    · show Runs _ _ _ _ _ (recoverRemovals orders) lib
      unfold recoverRemovals
      refine meets_view.mpr ?_
      rw [if_neg hp]
      exact ⟨rfl, hr⟩
  | add mode url password stamp => exact addItem_meets mild_harmless hI hr
  | remove url stamp =>
    have hI' : Covers (Either codec casing (.remove url stamp) L) (without codec casing url L) :=
      fun _ h => .inr ⟨_, rfl, h⟩
    exact (removeItem_meets mild_harmless hI hI' hr).imp (fun _ _ h => ⟨_, rfl, h⟩) fun _ _ h => h

theorem sound_resume {m : LibM Unit} {lib : Library} (hread : Readable codec L)
    (hstarted : Represents s.started.disk L)
    (h : Runs codec casing s.op L s.started.entries m lib) :
    Sound codec casing (s.resume m lib) L := by
  have hsettled := meets_settle.mpr h
  unfold State.resume
  split
  · rename_i r lib' heq
    rw [heq] at hsettled
    refine ⟨hread, hstarted, ?_⟩
    cases r with
    | ok | error => exact hsettled
  · rename_i m' lib' _ heq
    rw [heq] at hsettled
    exact ⟨hread, hstarted, hsettled⟩

/-- When nothing runs the directory stands for a library. -/
theorem Sound.current (h : Sound codec casing s L) (hidle : s.task = none) :
    ∃ L', Readable codec L' ∧ Represents s.library.disk L' := by
  have htask := h.task
  rw [hidle] at htask
  have hcompleted : CompletedOn codec casing s.op L s.library →
      ∃ L', Readable codec L' ∧ Represents s.library.disk L' := by
    rintro ⟨L', hL', hr⟩
    exact ⟨L', hL'.readable h.readable, hr⟩
  cases ho : s.outcome with
  | none =>
    rw [ho] at htask
    exact htask.elim (fun hr => ⟨L, h.readable, hr⟩) hcompleted
  | some r =>
    rw [ho] at htask
    cases r with
    | ok _ => exact hcompleted htask
    | error _ => exact ⟨L, h.readable, htask.2⟩

/-- **A step.** An interruption without harm leaves the library as before the operation or as after
it. -/
theorem sound_step {a : Action} (h : Sound codec casing s L) (hok : Harmless s a = true)
    (hs : step codec casing s a = some s') : ∃ L', Sound codec casing s' L' := by
  cases htask : s.task with
  | none =>
    cases a with
    | start op orders =>
      simp only [step, htask, Option.isNone_none, if_true, Option.some.injEq] at hs
      obtain ⟨L', hread, hr⟩ := h.current htask
      rw [← hs]
      exact ⟨L', sound_resume hread hr (op_runs op hread hr)⟩
    | proceed | fail | stop => simp [step, htask] at hs
  | some m =>
    have hruns := h.task
    rw [htask] at hruns
    cases m with
    | call c next =>
      obtain ⟨hstop, hfail, hdone⟩ := meets_call.mp hruns
      simp only [Harmless, htask] at hok
      cases a with
      | start op orders => simp [step, htask] at hs
      | proceed =>
        simp only [step, htask, Option.some.injEq, State.call] at hs
        rw [← hs]
        cases happly : s.library.apply c with
        | ok lib =>
          rw [happly] at hdone
          exact ⟨L, sound_resume h.readable h.started hdone⟩
        | error e =>
          rw [happly] at hdone
          exact ⟨L, sound_resume h.readable h.started hdone⟩
      | fail =>
        simp only [step, htask, Option.some.injEq] at hs
        rw [← hs]
        exact ⟨L, sound_resume h.readable h.started
          (hfail (show harmful s.library.disk false c = false by simpa using hok))⟩
      | stop =>
        simp only [step, htask, Option.some.injEq] at hs
        rw [← hs]
        exact ⟨L, h.readable, h.started,
          hstop (show harmful s.library.disk true c = false by simpa using hok)⟩
    | done | view | modify => cases a <;> simp [step, htask] at hs

theorem sound_initial (hs : (system codec casing).init s) : ∃ L, Sound codec casing s L := by
  obtain ⟨present, files, habsent, hread, rfl⟩ := hs
  have hr : Represents ⟨present, files, .empty⟩ (files.filter fun file => isXml file.1) := by
    refine ⟨fun hp => ?_, fun name content => ?_, nofun⟩
    · rw [habsent hp]
      rfl
    · rw [OrderedMap.get_filter, and_comm, or_iff_left]
      rintro ⟨dir, t, hget, -⟩
      cases hget
  refine ⟨_, ⟨fun name content hget => ?_, hr, .inl hr⟩⟩
  obtain ⟨hget, hx⟩ := OrderedMap.get_filter.mp hget
  exact hread name content hx hget

theorem sound_reachable (h : Reachable (system codec casing) (fun s a => Harmless s a = true) s) :
    ∃ L, Sound codec casing s L :=
  h.invariant (fun s => ∃ L, Sound codec casing s L) (fun _ => sound_initial)
    fun _ _ _ ⟨_, h⟩ hok hs => sound_step h hok hs

/-! ### The items of a directory -/

end

/-- The items after a completed operation. -/
def Changed (codec : Codec) (casing : Casing) :
    Op → List DefaultLibraryEntry → List DefaultLibraryEntry → Prop
  | .load, before, after | .recover, before, after => after = before
  | .add mode url password _, before, after => ∃ entry bytes l r,
      normalizedEntry codec mode url password = .ok entry ∧ codec.document entry = some bytes ∧
        before = l ++ r ∧ after = l ++ (visible codec bytes ++ r)
  | .remove url _, before, after => after = before.filter fun entry =>
    !urlsMatch casing entry.url url

/-- The items after an operation that succeeded, failed, or was interrupted. -/
def Survives (codec : Codec) (casing : Casing) (s : State)
    (before after : List DefaultLibraryEntry) : Prop :=
  match s.outcome with
  | some (.ok _) => Changed codec casing s.op before after
  | some (.error _) => after = before ∧ s.library.entries = s.started.entries
  | none => after = before ∨ Changed codec casing s.op before after

section

variable {codec : Codec} {casing : Casing} {L : Folder} {s : State}

theorem loaded_eq (orders : Orders) {d : Disk} (hr : Represents d L) (hread : Readable codec L) :
    loaded codec orders d = .ok (items codec L) := by
  have hrun := (loadXmlDir_meets orders (s := ⟨d, []⟩) (I := fun _ => True) mild_none
    (fun _ _ => trivial) hread hr).run
  cases hresult : ((loadXmlDir orders codec).run Library.apply ⟨d, []⟩).1 with
  | ok _ =>
    rw [hresult] at hrun
    simp only [loaded, hresult, Except.map]
    exact congrArg Except.ok hrun.2
  | error _ =>
    rw [hresult] at hrun
    exact absurd hrun.1 Hazards.not_faulty_none

theorem flatMap_without (url : Text) (L : Folder) :
    items codec (without codec casing url L) =
      (items codec L).filter fun entry => !urlsMatch casing entry.url url := by
  show (L.entries.filter fun file => !isMatch codec casing url file.2).flatMap _ =
    List.filter _ (L.entries.flatMap _)
  induction L.entries with
  | nil => rfl
  | cons file l ih =>
    rw [List.flatMap_cons, List.filter_append, ← ih, List.filter_cons]
    cases hread : codec.readEntry file.2 with
    | none => simp [isMatch, visible, hread]
    | some entry =>
      have hvisible : visible codec file.2 = if entry.url.isEmpty then [] else [entry] := by
        rw [visible, hread]
      have hfile : isMatch codec casing url file.2 = urlsMatch casing entry.url url := by
        rw [isMatch, hread, Option.any_some]
      rw [hfile]
      cases hmatch : urlsMatch casing entry.url url with
      | true =>
        rw [Bool.not_true, if_neg Bool.false_ne_true, hvisible]
        split_ifs <;> simp [hmatch]
      | false =>
        rw [Bool.not_false, if_pos rfl, List.flatMap_cons, hvisible]
        split_ifs <;> simp [hmatch]

theorem Completed.changed {op : Op} {L' : Folder} (h : Completed codec casing op L L') :
    Changed codec casing op (items codec L) (items codec L') := by
  cases op with
  | load | recover => exact congrArg (items codec) h
  | add mode url password stamp =>
    obtain ⟨entry, bytes, name, hentry, hdoc, -, hnone, rfl⟩ := h
    obtain ⟨l, r, hold, hnew⟩ := OrderedMap.exists_insert_new hnone bytes
    refine ⟨entry, bytes, l.flatMap fun file => visible codec file.2, r.flatMap fun file =>
      visible codec file.2, hentry, hdoc, ?_, ?_⟩
    · rw [items, hold, List.flatMap_append]
    · rw [items, hnew, List.flatMap_append, List.flatMap_cons]
  | remove url stamp =>
    obtain rfl := h
    exact flatMap_without url L

/-- **After any run without a harmful interruption** the directory can be loaded: it has the items
of before the last operation, or those of after it, the latter if it succeeded; and an operation
that failed has changed neither the directory nor the live entries. -/
theorem interrupted_operation
    (h : Reachable (system codec casing) (fun s a => Harmless s a = true) s)
    (hidle : s.task = none) (orders : Orders) :
    ∃ before after, loaded codec orders s.started.disk = .ok before ∧
      loaded codec orders s.library.disk = .ok after ∧ Survives codec casing s before after := by
  obtain ⟨L, hread, hstarted, htask⟩ := sound_reachable h
  rw [hidle] at htask
  have hbefore := loaded_eq orders hstarted hread
  have hsame : Represents s.library.disk L → ∃ after,
    loaded codec orders s.library.disk = .ok after ∧
      after = items codec L := fun hr => ⟨_, loaded_eq _ hr hread, rfl⟩
  have hdone : CompletedOn codec casing s.op L s.library →
      ∃ after, loaded codec orders s.library.disk = .ok after ∧
        Changed codec casing s.op (items codec L) after := by
    rintro ⟨L', hL', hr⟩
    exact ⟨_, loaded_eq _ hr (hL'.readable hread), hL'.changed⟩
  unfold Survives
  cases ho : s.outcome with
  | none =>
    rw [ho] at htask
    rcases htask with hr | hr
    · obtain ⟨after, hafter, rfl⟩ := hsame hr
      exact ⟨_, _, hbefore, hafter, .inl rfl⟩
    · obtain ⟨after, hafter, hchanged⟩ := hdone hr
      exact ⟨_, _, hbefore, hafter, .inr hchanged⟩
  | some r =>
    rw [ho] at htask
    cases r with
    | ok _ =>
      obtain ⟨after, hafter, hchanged⟩ := hdone htask
      exact ⟨_, _, hbefore, hafter, hchanged⟩
    | error _ =>
      obtain ⟨after, hafter, rfl⟩ := hsame htask.2
      exact ⟨_, _, hbefore, hafter, rfl, htask.1⟩

end

/-! ### Interruptions at work -/

section Fixture

/-- An element with a text, or an empty one. -/
def fieldXml (name value : Text) : Text :=
  if value.isEmpty then '<' :: name ++ ['/', '>']
  else '<' :: name ++ '>' :: value ++ '<' :: '/' :: name ++ ['>']

def itemXml (entry : DefaultLibraryEntry) : Text :=
  '<' :: rootName ++ '>' :: fieldXml "Mode".toList (decimal entry.mode) ++
    fieldXml "Url".toList entry.url ++ fieldXml "Password".toList entry.password ++
    '<' :: '/' :: rootName ++ ['>']

/-- A tag that ends with a slash is an empty element. -/
def closeTag : XmlEvent → XmlEvent
  | .start name [] => if name.getLast? = some '/' then .empty name.dropLast [] else .start name []
  | event => event

def itemEvents (text : Text) : List (Option XmlEvent) :=
  match readMarkup text with
  | some events => events.map fun event => some (closeTag event)
  | none => [none]

def setField (entry : DefaultLibraryEntry) (name value : Text) : Option DefaultLibraryEntry :=
  let mode := value.foldl (fun n c => 10 * n + (c.toNat - 48)) 0
  if name = "Url".toList then some { entry with url := value }
  else if name = "Password".toList then some { entry with password := value }
  else if name ≠ "Mode".toList then some entry
  else if value ≠ [] ∧ value.all Char.isDigit ∧ mode < 256 then some { entry with mode }
  else none

def readFields : DefaultLibraryEntry → List XmlEvent → Option DefaultLibraryEntry
  | entry, [.stop _] => some entry
  | entry, .empty name _ :: events =>
    (setField entry name []).bind fun entry => readFields entry events
  | entry, .start name _ :: .stop _ :: events =>
    (setField entry name []).bind fun entry => readFields entry events
  | entry, .start name _ :: .text value :: .stop _ :: events =>
    (setField entry name value).bind fun entry => readFields entry events
  | _, _ => none

def readItem (text : Text) : Option DefaultLibraryEntry :=
  let events := (itemEvents text).filter fun event =>
    event ≠ some .decl ∧ event.all fun event => !event.isSpace
  match events with
  | some (.start _ _) :: events => (events.mapM id).bind (readFields ⟨0, [], []⟩)
  | [some (.empty _ _)] => some ⟨0, [], []⟩
  | _ => none

/-- Items whose texts need no escapes, as they are written and read. -/
def itemCodec : Codec where
  readEvents := itemEvents
  fromStr := readItem
  toStr entry :=
    let text := declaration ++ itemXml entry ++ ['\n']
    if checkRoot (itemEvents text) = true ∧ readItem text = some entry then some (itemXml entry)
    else none
  decodeFragment _ := none
  writes_root := by
    intro entry xml h
    dsimp only at h
    split_ifs at h with hread
    cases h
    exact hread.1
  reads_back := by
    intro entry xml h
    dsimp only at h
    split_ifs at h with hread
    cases h
    rw [hread.2]
    rfl

/-- A removal goes through a directory from its end. -/
def lastFirst : Orders := ⟨id, List.reverse, fun l => .refl l, fun l => l.reverse_perm⟩

def url : Text := "https://host/item".toList

def world : DefaultLibraryEntry := ⟨1, url, "secret".toList⟩

def prop : DefaultLibraryEntry := ⟨2, "HTTPS://HOST/ITEM".toList, []⟩

/-- As `add_item` writes it. -/
def worldFile : Bytes := utf8 ("<?xml version=\"1.0\" encoding=\"utf-8\"?>
<BasisDefaultLibraryConfiguration><Mode>1</Mode>" ++
  "<Url>https://host/item</Url><Password>secret</Password></BasisDefaultLibraryConfiguration>
")

/-- By hand. -/
def propFile : Bytes := utf8 "<BasisDefaultLibraryConfiguration>
  <Mode>2</Mode>
  <Url>HTTPS://HOST/ITEM</Url>
  <Password/>
</BasisDefaultLibraryConfiguration>
"

def twoFiles : Folder :=
  (OrderedMap.empty.insert "a.xml".toList worldFile).insert "b.xml".toList propFile

theorem readEntry_files : itemCodec.document world = some worldFile ∧
    itemCodec.readEntry worldFile = some world ∧ itemCodec.readEntry propFile = some prop := by
  decide +kernel

theorem init_twoFiles : (system itemCodec asciiCasing).init (.initial true twoFiles) := by
  refine ⟨true, twoFiles, nofun, fun file content _ hget => ?_, rfl⟩
  obtain ⟨-, hworld, hprop⟩ := readEntry_files
  have hmem := OrderedMap.mem_iff_get.mpr hget
  have hentries : twoFiles.entries = [("a.xml".toList, worldFile), ("b.xml".toList, propFile)] :=
    rfl
  simp only [hentries, List.mem_cons, Prod.mk.injEq, List.not_mem_nil, or_false] at hmem
  rcases hmem with ⟨-, heq⟩ | ⟨-, heq⟩
  · rw [heq, hworld]
    rfl
  · rw [heq, hprop]
    rfl

/-- An operation that is cut off after the given number of calls. -/
def cutOff (op : Op) (calls : ℕ) : List Action :=
  .start op lastFirst :: List.replicate calls .proceed ++ [.stop]

/-- The process has died, and loads find these items before and after. -/
def loads (before : List DefaultLibraryEntry)
    (after : Except LibraryError (List DefaultLibraryEntry)) (s : State) : Bool :=
  s.task.isNone && s.outcome.isNone &&
    decide (loaded itemCodec lastFirst s.started.disk = .ok before) &&
    decide (loaded itemCodec lastFirst s.library.disk = after)

/-- A removal that dies after its marker was set is complete. -/
theorem interrupted_operation_removed : ∃ s : State, s.task = none ∧
    ∃ before after, loaded itemCodec lastFirst s.started.disk = .ok before ∧
      loaded itemCodec lastFirst s.library.disk = .ok after ∧
      Survives itemCodec asciiCasing s before after := by
  have hrun : Admits (system itemCodec asciiCasing) (fun s a => Harmless s a = true)
      (.initial true twoFiles) (cutOff (.remove url 0) 4) ∧
      (runActions (system itemCodec asciiCasing) (.initial true twoFiles)
        (cutOff (.remove url 0) 4)).any (loads [world, prop] (.ok [])) = true := by
    decide +kernel
  obtain ⟨s, hr, hs⟩ := exists_reachable_of_run _ hrun.1 (.init init_twoFiles) hrun.2
  simp only [loads, Bool.and_eq_true, Option.isNone_iff_eq_none] at hs
  exact ⟨s, hs.1.1.1, interrupted_operation hr hs.1.1.1 lastFirst⟩

/-- **Two harmful interruptions.** A removal of two files that dies when it has cleared its marker
and one of them comes back in part; and an addition that dies before it has written its file leaves
a directory that cannot be loaded. -/
theorem half_removed :
    (∃ s, Reachable (system itemCodec asciiCasing) (fun _ _ => True) s ∧ s.task = none ∧
      s.outcome = none ∧ loaded itemCodec lastFirst s.started.disk = .ok [world, prop] ∧
      loaded itemCodec lastFirst s.library.disk = .ok [world]) ∧
    ∃ s, Reachable (system itemCodec asciiCasing) (fun _ _ => True) s ∧ s.task = none ∧
      s.outcome = none ∧ loaded itemCodec lastFirst s.started.disk = .ok [world, prop] ∧
      loaded itemCodec lastFirst s.library.disk = .error .unreadable := by
  have hrun : ∀ op calls after, (runActions (system itemCodec asciiCasing)
      (.initial true twoFiles) (cutOff op calls)).any (loads [world, prop] after) = true →
      ∃ s, Reachable (system itemCodec asciiCasing) (fun _ _ => True) s ∧ s.task = none ∧
        s.outcome = none ∧ loaded itemCodec lastFirst s.started.disk = .ok [world, prop] ∧
        loaded itemCodec lastFirst s.library.disk = after := by
    intro op calls after h
    obtain ⟨s, hr, hs⟩ := exists_reachable_of_free_run (.init init_twoFiles) h
    simp only [loads, Bool.and_eq_true, Option.isNone_iff_eq_none, decide_eq_true_eq] at hs
    exact ⟨s, hr, hs.1.1.1, hs.1.1.2, hs.1.2, hs.2⟩
  have hboth : (runActions (system itemCodec asciiCasing) (.initial true twoFiles)
        (cutOff (.remove url 0) 6)).any (loads [world, prop] (.ok [world])) = true ∧
      (runActions (system itemCodec asciiCasing) (.initial true twoFiles)
        (cutOff (.add 1 url "secret".toList 0) 2)).any
          (loads [world, prop] (.error .unreadable)) = true := by
    decide +kernel
  exact ⟨hrun _ 6 _ hboth.1, hrun _ 2 _ hboth.2⟩

end Fixture

end BasisRust.Storage.Items
