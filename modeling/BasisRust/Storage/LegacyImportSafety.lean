import BasisRust.Storage.BackendsRefine
import BasisRust.Storage.LegacyDecode
import BasisRust.Storage.LegacyImport
import Mathlib.Data.List.Nodup

/-!
# Legacy saves are imported once

The ledger only grows, and a row is only made for a key that is not in it and enters it in the same
transaction.  So no key is imported twice, and the row of an owner whose key is in the ledger is out
of reach of every later import.
-/

namespace BasisRust.Storage.Legacy

open Library

variable {sha256 : Bytes → Digest} {category : Char → GeneralCategory} {serde : Serde}
  {β τ : Type} {limiter : Limiter β τ}

/-- The key of an owner. -/
def ownerKey (sha256 : Bytes → Digest) (owner : String) : String := (sha256 (utf8 owner)).lowerHex

theorem readRecord_key {save : Save} {record : PlayerRecord}
    (h : readRecord sha256 category save = .ok record) : ownerKey sha256 record.owner = save.1 := by
  rw [readRecord] at h
  cases hcontent : save.2 with
  | none =>
    rw [hcontent] at h
    cases h
  | some content =>
    rw [hcontent] at h
    dsimp only at h
    cases hdecode : decode sha256 category (content.take (maxBlob + 1)) save.1 with
    | error reason =>
      rw [hdecode] at h
      cases h
    | ok decoded =>
      rw [hdecode] at h
      cases h
      exact (decode_iff.mp hdecode).1.hash

/-! ### One save -/

def Report.total (r : Report) : ℕ := r.imported + r.preserved + r.empty + r.previouslyImported

/-- A save for which a row is made. -/
def insertsRow (sha256 : Bytes → Digest) (category : Char → GeneralCategory) (tx : Tx β)
    (save : Save) : Bool :=
  decide (save.1 ∉ tx.ledger) &&
    match readRecord sha256 category save with
    | .ok record => !record.scopes.isEmpty && (assocGet record.owner tx.sql.rows).isNone
    | .error _ => false

variable {tx tx' : Tx β} {save : Save} {saves : List Save} {owner : String}

theorem addRecord_ledger (record : PlayerRecord) : (addRecord tx record).ledger = tx.ledger := by
  rw [addRecord, insertNew]
  split_ifs
  · rfl
  · cases assocGet record.owner tx.sql.rows <;> rfl

theorem addRecord_total (record : PlayerRecord) :
    (addRecord tx record).report.total = tx.report.total + 1 := by
  rw [addRecord, insertNew]
  split_ifs
  · show tx.report.imported + tx.report.preserved + (tx.report.empty + 1) +
      tx.report.previouslyImported = tx.report.total + 1
    rw [Report.total]
    omega
  · cases assocGet record.owner tx.sql.rows with
    | none =>
      show tx.report.imported + 1 + tx.report.preserved + tx.report.empty +
        tx.report.previouslyImported = tx.report.total + 1
      rw [Report.total]
      omega
    | some payload =>
      show tx.report.imported + (tx.report.preserved + 1) + tx.report.empty +
        tx.report.previouslyImported = tx.report.total + 1
      rw [Report.total]
      omega

/-- **The row of a record** is made, if the record is not empty and its owner has none. -/
theorem addRecord_rows (record : PlayerRecord) :
    (addRecord tx record).sql.rows =
      if !record.scopes.isEmpty && (assocGet record.owner tx.sql.rows).isNone then
        assocSet record.owner record.toVec tx.sql.rows
      else tx.sql.rows := by
  rw [addRecord, insertNew]
  cases record.scopes.isEmpty with
  | true => rfl
  | false => cases assocGet record.owner tx.sql.rows <;> rfl

/-- **What one save does**: it was seen before, or it is read, added and marked. -/
theorem importSave_cases (h : importSave sha256 category tx save = .ok tx') :
    (save.1 ∈ tx.ledger ∧ tx'.sql = tx.sql ∧ tx'.ledger = tx.ledger ∧
      tx'.report.total = tx.report.total + 1) ∨
    save.1 ∉ tx.ledger ∧ ∃ record, readRecord sha256 category save = .ok record ∧
      tx'.sql = (addRecord tx record).sql ∧ tx'.ledger = save.1 :: tx.ledger ∧
        tx'.report.total = tx.report.total + 1 := by
  rw [importSave] at h
  split_ifs at h with hseen
  · cases h
    exact .inl ⟨hseen, rfl, rfl, (Nat.add_assoc _ _ _).symm⟩
  · cases hread : readRecord sha256 category save with
    | error e =>
      rw [hread] at h
      cases h
    | ok record =>
      rw [hread] at h
      cases h
      refine .inr ⟨hseen, record, rfl, rfl, ?_, addRecord_total record⟩
      show save.1 :: (addRecord tx record).ledger = _
      rw [addRecord_ledger]

theorem insertsRow_of_read {record : PlayerRecord} (hseen : save.1 ∉ tx.ledger)
    (hread : readRecord sha256 category save = .ok record) :
    insertsRow sha256 category tx save =
      (!record.scopes.isEmpty && (assocGet record.owner tx.sql.rows).isNone) := by
  rw [insertsRow, decide_eq_true hseen, hread, Bool.true_and]

theorem insertsRow_of_seen (hseen : save.1 ∈ tx.ledger) :
    insertsRow sha256 category tx save = false := by
  rw [insertsRow, decide_eq_false (not_not.mpr hseen), Bool.false_and]

/-- **A row** is what it was, or it is made for the key of the save. -/
theorem importSave_row (h : importSave sha256 category tx save = .ok tx') (owner : String) :
    assocGet owner tx'.sql.rows = assocGet owner tx.sql.rows ∨
      assocGet owner tx.sql.rows = none ∧ insertsRow sha256 category tx save = true ∧
        ownerKey sha256 owner = save.1 := by
  rcases importSave_cases h with ⟨-, hsql, -, -⟩ | ⟨hseen, record, hread, hsql, -, -⟩
  · rw [hsql]
    exact .inl rfl
  · rw [hsql, addRecord_rows, ← insertsRow_of_read hseen hread]
    split_ifs with hinserts
    · by_cases howner : owner = record.owner
      · right
        have hrow := insertsRow_of_read hseen hread
        rw [hinserts, eq_comm, Bool.and_eq_true, Option.isNone_iff_eq_none] at hrow
        rw [howner]
        exact ⟨hrow.2, hinserts, readRecord_key hread⟩
      · exact .inl (assocGet_set_of_ne howner _ _)
    · exact .inl rfl

/-- **A row that is made** is that of an owner with the key of the save, who had none. -/
theorem importSave_inserted (h : importSave sha256 category tx save = .ok tx')
    (hinserts : insertsRow sha256 category tx save = true) : ∃ record,
      readRecord sha256 category save = .ok record ∧
      assocGet record.owner tx.sql.rows = none ∧
      assocGet record.owner tx'.sql.rows = some record.toVec := by
  rcases importSave_cases h with ⟨hseen, -⟩ | ⟨hseen, record, hread, hsql, -, -⟩
  · rw [insertsRow_of_seen hseen] at hinserts
    cases hinserts
  · have hrow := insertsRow_of_read hseen hread
    have hnone := hrow
    rw [hinserts, eq_comm, Bool.and_eq_true, Option.isNone_iff_eq_none] at hnone
    refine ⟨record, hread, hnone.2, ?_⟩
    rw [hsql, addRecord_rows, ← hrow, hinserts, if_pos rfl, assocGet_set_self]

/-! ### All saves -/

/-- The keys whose rows an import makes, in order. -/
def insertedKeys (sha256 : Bytes → Digest) (category : Char → GeneralCategory) :
    Tx β → List Save → List String
  | _, [] => []
  | tx, save :: saves =>
    match importSave sha256 category tx save with
    | .error _ => []
    | .ok tx' =>
      (if insertsRow sha256 category tx save then [save.1] else []) ++
        insertedKeys sha256 category tx' saves

theorem importSaves_cons (h : importSaves sha256 category tx (save :: saves) = .ok tx') : ∃ tx₁,
    importSave sha256 category tx save = .ok tx₁ ∧ importSaves sha256 category tx₁ saves = .ok tx' ∧
      insertedKeys sha256 category tx (save :: saves) =
        (if insertsRow sha256 category tx save then [save.1] else []) ++
          insertedKeys sha256 category tx₁ saves := by
  rw [importSaves] at h
  cases hsave : importSave sha256 category tx save with
  | error e =>
    rw [hsave] at h
    cases h
  | ok tx₁ =>
    rw [hsave] at h
    refine ⟨tx₁, rfl, h, ?_⟩
    rw [insertedKeys, hsave]

/-- What a list of saves does, with the keys whose rows it makes. -/
structure Advance (sha256 : Bytes → Digest) (category : Char → GeneralCategory) (tx tx' : Tx β)
    (saves : List Save) (keys : List String) : Prop where
  ledger : tx.ledger ⊆ tx'.ledger
  total : tx'.report.total = tx.report.total + saves.length
  nodup : keys.Nodup
  fresh : ∀ key ∈ keys, key ∉ tx.ledger
  marked : ∀ key ∈ keys, key ∈ tx'.ledger
  rows : ∀ owner, assocGet owner tx'.sql.rows = assocGet owner tx.sql.rows ∨
    assocGet owner tx.sql.rows = none ∧ ownerKey sha256 owner ∈ keys
  records : ∀ key ∈ keys, ∃ save ∈ saves, ∃ record, save.1 = key ∧
    readRecord sha256 category save = .ok record ∧ ownerKey sha256 record.owner = key ∧
    assocGet record.owner tx.sql.rows = none ∧
      assocGet record.owner tx'.sql.rows = some record.toVec

theorem Advance.one (h : importSave sha256 category tx save = .ok tx') :
    Advance sha256 category tx tx' [save]
      (if insertsRow sha256 category tx save then [save.1] else []) := by
  have hledger : tx.ledger ⊆ tx'.ledger := by
    rcases importSave_cases h with ⟨-, -, hsame, -⟩ | ⟨-, -, -, -, hmarked, -⟩
    · rw [hsame]
      exact List.Subset.refl _
    · rw [hmarked]
      exact List.subset_cons_self _ _
  have htotal : tx'.report.total = tx.report.total + 1 := by
    rcases importSave_cases h with ⟨-, -, -, htotal⟩ | ⟨-, -, -, -, -, htotal⟩
    · exact htotal
    · exact htotal
  cases hinserts : insertsRow sha256 category tx save with
  | false =>
    refine ⟨hledger, htotal, .nil, nofun,
      nofun, fun owner => ?_, nofun⟩
    rcases importSave_row h owner with hsame | ⟨-, hrow, -⟩
    · exact .inl hsame
    · rw [hinserts] at hrow
      cases hrow
  | true =>
    have hnew : save.1 ∉ tx.ledger := by
      intro hseen
      rw [insertsRow_of_seen hseen] at hinserts
      cases hinserts
    refine ⟨hledger, htotal, List.nodup_singleton _, fun key hkey => ?_, fun key hkey => ?_,
      fun owner => ?_, fun key hkey => ?_⟩
    · rw [List.mem_singleton.mp hkey]
      exact hnew
    · rw [List.mem_singleton.mp hkey]
      rcases importSave_cases h with ⟨hseen, -⟩ | ⟨-, -, -, -, hmarked, -⟩
      · exact absurd hseen hnew
      · rw [hmarked]
        exact .head _
    · rcases importSave_row h owner with hsame | ⟨hnone, -, hkey⟩
      · exact .inl hsame
      · exact .inr ⟨hnone, List.mem_singleton.mpr hkey⟩
    · obtain ⟨record, hread, hnone, hrow⟩ := importSave_inserted h hinserts
      rw [List.mem_singleton.mp hkey]
      exact ⟨save, .head _, record, rfl, hread, readRecord_key hread, hnone, hrow⟩

theorem Advance.append {tx'' : Tx β} {saves' : List Save} {keys keys' : List String}
    (h : Advance sha256 category tx tx' saves keys)
    (h' : Advance sha256 category tx' tx'' saves' keys') :
    Advance sha256 category tx tx'' (saves ++ saves') (keys ++ keys') where
  ledger := List.Subset.trans h.ledger h'.ledger
  total := by
    rw [h'.total, h.total, List.length_append, Nat.add_assoc]
  nodup := h.nodup.append h'.nodup fun key hkey hkey' => h'.fresh key hkey' (h.marked key hkey)
  fresh := fun key hkey hseen => by
    rcases List.mem_append.mp hkey with hkey | hkey
    · exact h.fresh key hkey hseen
    · exact h'.fresh key hkey (h.ledger hseen)
  marked := fun key hkey => by
    rcases List.mem_append.mp hkey with hkey | hkey
    · exact h'.ledger (h.marked key hkey)
    · exact h'.marked key hkey
  rows := fun owner => by
    rcases h'.rows owner with hsame' | ⟨hnone', hkey'⟩
    · rcases h.rows owner with hsame | ⟨hnone, hkey⟩
      · exact .inl (hsame'.trans hsame)
      · exact .inr ⟨hnone, List.mem_append_left _ hkey⟩
    · rcases h.rows owner with hsame | ⟨hnone, hkey⟩
      · exact .inr ⟨hsame ▸ hnone', List.mem_append_right _ hkey'⟩
      · exact .inr ⟨hnone, List.mem_append_left _ hkey⟩
  records := fun key hkey => by
    rcases List.mem_append.mp hkey with hkey | hkey
    · obtain ⟨save, hsave, record, hname, hread, howner, hnone, hrow⟩ := h.records key hkey
      refine ⟨save, List.mem_append_left _ hsave, record, hname, hread, howner, hnone, ?_⟩
      rcases h'.rows record.owner with hsame | ⟨hnone', -⟩
      · exact hsame.trans hrow
      · rw [hrow] at hnone'
        cases hnone'
    · obtain ⟨save, hsave, record, hname, hread, howner, hnone, hrow⟩ := h'.records key hkey
      refine ⟨save, List.mem_append_right _ hsave, record, hname, hread, howner, ?_, hrow⟩
      rcases h.rows record.owner with hsame | ⟨hnone', -⟩
      · exact hsame ▸ hnone
      · exact hnone'

theorem importSaves_advance (h : importSaves sha256 category tx saves = .ok tx') :
    Advance sha256 category tx tx' saves (insertedKeys sha256 category tx saves) := by
  induction saves generalizing tx with
  | nil =>
    cases h
    exact ⟨List.Subset.refl _, rfl, .nil, nofun,
      nofun, fun _ => .inl rfl,
      nofun⟩
  | cons save saves ih =>
    obtain ⟨tx₁, hone, hrest, hkeys⟩ := importSaves_cons h
    rw [hkeys]
    exact (Advance.one hone).append (ih hrest)

/-- **An invalid save** that is not in the ledger at its turn ends the import. -/
theorem importSaves_invalid {before : List Save} (after : List Save) (hseen : save.1 ∉ tx.ledger)
    (hbefore : save.1 ∉ before.map Prod.fst)
    (hinvalid : ∀ record, readRecord sha256 category save ≠ .ok record) :
    ∃ e, importSaves sha256 category tx (before ++ save :: after) = .error e := by
  induction before generalizing tx with
  | nil =>
    rw [List.nil_append, importSaves, importSave, if_neg hseen]
    cases hread : readRecord sha256 category save with
    | error e => exact ⟨e, rfl⟩
    | ok record => exact absurd hread (hinvalid record)
  | cons other before ih =>
    rw [List.map_cons, List.mem_cons, not_or] at hbefore
    rw [List.cons_append, importSaves]
    cases hother : importSave sha256 category tx other with
    | error e => exact ⟨e, rfl⟩
    | ok tx₁ =>
      refine ih ?_ hbefore.2
      rcases importSave_cases hother with ⟨-, -, hsame, -⟩ | ⟨-, -, -, -, hmarked, -⟩
      · rwa [hsame]
      · rw [hmarked, List.mem_cons, not_or]
        exact ⟨hbefore.1, hseen⟩

/-! ### Imports -/

section Runs

variable {db : Database β} {tree : Tree} {sqlFails : Bool} {report : Report}

/-- **An import that succeeds** has seen all candidates, and its transaction is the database. -/
theorem runImport_ok (h : (runImport sha256 category db tree sqlFails).2 = .ok report) :
    ∃ saves tx, candidates tree = .ok saves ∧
      importSaves sha256 category (begin db) saves = .ok tx ∧
      report = tx.report ∧
        (runImport sha256 category db tree sqlFails).1 = ⟨tx.sql, tx.ledger⟩ := by
  rw [runImport] at h ⊢
  cases hcandidates : candidates tree with
  | error e =>
    rw [hcandidates] at h
    cases h
  | ok saves =>
    rw [hcandidates] at h
    cases saves with
    | nil =>
      cases h
      exact ⟨[], begin db, rfl, rfl, rfl, rfl⟩
    | cons save saves =>
      cases sqlFails with
      | true => cases h
      | false =>
        dsimp only at h ⊢
        rw [if_neg Bool.false_ne_true] at h ⊢
        cases himport : importSaves sha256 category (begin db) (save :: saves) with
        | error e =>
          rw [himport] at h
          cases h
        | ok tx =>
          rw [himport] at h
          cases h
          exact ⟨_, tx, rfl, himport, rfl, rfl⟩

/-- **An import that fails** has no effect. -/
theorem runImport_error {e : ImportError}
    (h : (runImport sha256 category db tree sqlFails).2 = .error e) :
    (runImport sha256 category db tree sqlFails).1 = db := by
  rw [runImport] at h ⊢
  cases hcandidates : candidates tree with
  | error e => rfl
  | ok saves =>
    rw [hcandidates] at h
    cases saves with
    | nil => cases h
    | cons save saves =>
      cases sqlFails with
      | true => rfl
      | false =>
        dsimp only at h ⊢
        rw [if_neg Bool.false_ne_true] at h ⊢
        cases himport : importSaves sha256 category (begin db) (save :: saves) with
        | error e => rfl
        | ok tx =>
          rw [himport] at h
          cases h

theorem runImport_invalid {before after : List Save}
    (hcandidates : candidates tree = .ok (before ++ save :: after)) (hseen : save.1 ∉ db.ledger)
    (hbefore : save.1 ∉ before.map Prod.fst)
    (hinvalid : ∀ record, readRecord sha256 category save ≠ .ok record) :
    ∃ e, (runImport sha256 category db tree sqlFails).2 = .error e := by
  cases hresult : (runImport sha256 category db tree sqlFails).2 with
  | error e => exact ⟨e, rfl⟩
  | ok report =>
    obtain ⟨saves, tx, hsaves, himport, -, -⟩ := runImport_ok hresult
    rw [hcandidates] at hsaves
    cases hsaves
    have hnew : save.1 ∉ (begin db).ledger := hseen
    obtain ⟨e, he⟩ := importSaves_invalid after hnew hbefore hinvalid
    rw [himport] at he
    cases he

/-- The keys whose rows an import makes. -/
def importedKeys (sha256 : Bytes → Digest) (category : Char → GeneralCategory) (db : Database β)
    (tree : Tree) (sqlFails : Bool) : List String :=
  match (runImport sha256 category db tree sqlFails).2, candidates tree with
  | .ok _, .ok saves => insertedKeys sha256 category (begin db) saves
  | _, _ => []

/-- **An import** is an advance to what it leaves, or no change at all. -/
theorem runImport_advance (sha256 : Bytes → Digest) (category : Char → GeneralCategory)
    (db : Database β) (tree : Tree) (sqlFails : Bool) :
    ∃ tx saves, (runImport sha256 category db tree sqlFails).1 = ⟨tx.sql, tx.ledger⟩ ∧
      (candidates tree = .ok saves ∨ saves = []) ∧
      Advance sha256 category (begin db) tx saves
        (importedKeys sha256 category db tree sqlFails) := by
  cases hresult : (runImport sha256 category db tree sqlFails).2 with
  | error e =>
    refine ⟨begin db, [], runImport_error hresult, .inr rfl, ?_⟩
    have hnone : importedKeys sha256 category db tree sqlFails = [] := by
      rw [importedKeys, hresult]
    rw [hnone]
    have himport : importSaves sha256 category (begin db) [] = .ok (begin db) := rfl
    exact importSaves_advance himport
  | ok report =>
    obtain ⟨saves, tx, hsaves, himport, -, hdb⟩ := runImport_ok hresult
    refine ⟨tx, saves, hdb, .inl hsaves, ?_⟩
    have hkeys : importedKeys sha256 category db tree sqlFails =
        insertedKeys sha256 category (begin db) saves := by
      rw [importedKeys, hresult, hsaves]
    rw [hkeys]
    exact importSaves_advance himport

/-! ### Histories -/

/-- The keys whose rows an event makes by an import. -/
def Event.insertions (sha256 : Bytes → Digest) (category : Char → GeneralCategory)
    (db : Database β) :
    Event τ → List String
  | .runImport tree sqlFails => importedKeys sha256 category db tree sqlFails
  | _ => []

/-- The keys whose rows a history makes by imports, in order. -/
def insertions (sha256 : Bytes → Digest) (category : Char → GeneralCategory) (serde : Serde)
    (limiter : Limiter β τ) : Database β → List (Event τ) → List String
  | _, [] => []
  | db, event :: events => event.insertions sha256 category db ++
      insertions sha256 category serde limiter (step sha256 category serde limiter db event) events

variable (sha256 category serde limiter) in
/-- **The ledger** after an event, and the keys whose rows it made. -/
theorem step_ledger (db : Database β) (event : Event τ) :
    db.ledger ⊆ (step sha256 category serde limiter db event).ledger ∧
      (event.insertions sha256 category db).Nodup ∧
      ∀ key ∈ event.insertions sha256 category db,
        key ∉ db.ledger ∧ key ∈ (step sha256 category serde limiter db event).ledger := by
  cases event with
  | connect | execute | wipe => exact ⟨List.Subset.refl _, .nil, nofun⟩
  | runImport tree sqlFails =>
    obtain ⟨tx, saves, hdb, -, hadvance⟩ := runImport_advance sha256 category db tree sqlFails
    rw [step, hdb]
    exact ⟨hadvance.ledger, hadvance.nodup,
      fun key hkey => ⟨hadvance.fresh key hkey, hadvance.marked key hkey⟩⟩

theorem run_ledger (db : Database β) (events : List (Event τ)) :
    db.ledger ⊆ (run sha256 category serde limiter db events).ledger := by
  induction events generalizing db with
  | nil => exact List.Subset.refl _
  | cons event events ih =>
    exact List.Subset.trans (step_ledger sha256 category serde limiter db event).1 (ih _)

/-- **No key twice** in a history. -/
theorem insertions_nodup (db : Database β) (events : List (Event τ)) :
    (insertions sha256 category serde limiter db events).Nodup ∧
      ∀ key ∈ insertions sha256 category serde limiter db events, key ∉ db.ledger := by
  induction events generalizing db with
  | nil => exact ⟨.nil, nofun⟩
  | cons event events ih =>
    obtain ⟨hgrows, hnodup, hkeys⟩ := step_ledger sha256 category serde limiter db event
    obtain ⟨hrest, hfresh⟩ := ih (step sha256 category serde limiter db event)
    rw [insertions]
    refine ⟨hnodup.append hrest fun key hkey hkey' => hfresh key hkey' (hkeys key hkey).2, ?_⟩
    intro key hkey hseen
    rcases List.mem_append.mp hkey with hkey | hkey
    · exact (hkeys key hkey).1 hseen
    · exact hfresh key hkey (hgrows hseen)

/-- **Legacy imports.** An import that fails changes nothing, and one that meets an invalid save
that it has not seen fails.  Over every history no key is inserted twice; a row is inserted for a
save of its owner's key, when the owner has none, and no other row is changed; the row of an owner
whose key is in the ledger is not changed by any later import; and the report counts every
candidate. -/
theorem legacy_import (sha256 : Bytes → Digest) (category : Char → GeneralCategory) (serde : Serde)
    (limiter : Limiter β τ) :
    (∀ (db : Database β) tree sqlFails,
      (∀ e, (runImport sha256 category db tree sqlFails).2 = .error e →
        (runImport sha256 category db tree sqlFails).1 = db) ∧
      (∀ e, candidates tree = .error e →
        ∃ e', (runImport sha256 category db tree sqlFails).2 = .error e') ∧
      ∀ before save after, candidates tree = .ok (before ++ save :: after) → save.1 ∉ db.ledger →
        save.1 ∉ before.map Prod.fst →
        (∀ record, readRecord sha256 category save ≠ .ok record) →
          ∃ e, (runImport sha256 category db tree sqlFails).2 = .error e) ∧
    (∀ (db : Database β) (events : List (Event τ)),
      (insertions sha256 category serde limiter db events).Nodup) ∧
    (∀ (db : Database β) tree sqlFails,
      (∀ key ∈ importedKeys sha256 category db tree sqlFails, ∃ saves save record,
        candidates tree = .ok saves ∧ save ∈ saves ∧ save.1 = key ∧
        readRecord sha256 category save = .ok record ∧ ownerKey sha256 record.owner = key ∧
        assocGet record.owner db.sql.rows = none ∧
        assocGet record.owner (runImport sha256 category db tree sqlFails).1.sql.rows =
          some record.toVec) ∧
      ∀ owner, assocGet owner (runImport sha256 category db tree sqlFails).1.sql.rows =
          assocGet owner db.sql.rows ∨
        assocGet owner db.sql.rows = none ∧
          ownerKey sha256 owner ∈ importedKeys sha256 category db tree sqlFails) ∧
    (∀ (db : Database β) (events : List (Event τ)) owner tree sqlFails,
      ownerKey sha256 owner ∈ db.ledger →
        assocGet owner (runImport sha256 category (run sha256 category serde limiter db events) tree
            sqlFails).1.sql.rows =
          assocGet owner (run sha256 category serde limiter db events).sql.rows) ∧
    ∀ (db : Database β) tree sqlFails report,
      (runImport sha256 category db tree sqlFails).2 = .ok report →
        ∃ saves, candidates tree = .ok saves ∧
          report.imported + report.preserved + report.empty + report.previouslyImported =
            saves.length := by
  refine ⟨fun db tree sqlFails => ⟨fun e => runImport_error, fun e he => ⟨e, ?_⟩, ?_⟩,
    fun db events => (insertions_nodup db events).1, fun db tree sqlFails => ?_,
    fun db events owner tree sqlFails hkey => ?_, fun db tree sqlFails report h => ?_⟩
  · rw [runImport, he]
  · exact fun before save after => runImport_invalid
  · obtain ⟨tx, saves, hdb, hsaves, hadvance⟩ :=
      runImport_advance sha256 category db tree sqlFails
    rw [hdb]
    refine ⟨fun key hkey => ?_, hadvance.rows⟩
    obtain ⟨save, hsave, record, hrecord⟩ := hadvance.records key hkey
    rcases hsaves with hsaves | hnone
    · exact ⟨saves, save, record, hsaves, hsave, hrecord⟩
    · rw [hnone] at hsave
      cases hsave
  · obtain ⟨tx, saves, hdb, -, hadvance⟩ := runImport_advance sha256 category
      (run sha256 category serde limiter db events) tree sqlFails
    rw [hdb]
    rcases hadvance.rows owner with hsame | ⟨-, hnew⟩
    · exact hsame
    · exact absurd (run_ledger db events hkey) (hadvance.fresh _ hnew)
  · obtain ⟨saves, tx, hsaves, himport, hreport, -⟩ := runImport_ok h
    refine ⟨saves, hsaves, ?_⟩
    have htotal := (importSaves_advance himport).total
    have hnone : (begin db).report.total = 0 := rfl
    rw [hnone, Nat.zero_add] at htotal
    rw [hreport]
    exact htotal

/-- The owner key of the sample save. -/
def fixtureKey : String := "ca978112ca1bbdcafac231b39a23dc4da786eff8147c4e72b9807785afee48bb"

/-- A tree with one file. -/
def fixtureTree (blob : Bytes) : Tree :=
  .folders [some ⟨[0x63#8, 0x61#8], some true,
    some [some ⟨utf8 fixtureKey ++ dot :: extension, some true, some blob⟩]⟩]

theorem candidates_fixture (blob : Bytes) :
    candidates (fixtureTree blob) = .ok [(fixtureKey, some blob)] := by
  have hsplit : splitName (utf8 fixtureKey ++ dot :: extension) =
      (utf8 fixtureKey, some extension) := by
    decide +kernel
  have hstem : strFromUtf8 (utf8 fixtureKey) = some fixtureKey := strFromUtf8_iff.mpr rfl
  have hkey : (utf8 fixtureKey).length = 64 ∧ (utf8 fixtureKey).all isHex ∧
      [0x63#8, 0x61#8].isPrefixOf (utf8 fixtureKey) := by
    decide +kernel
  have hfile : candidateFile [0x63#8, 0x61#8]
      (some ⟨utf8 fixtureKey ++ dot :: extension, some true, some blob⟩) =
        .ok (some (fixtureKey, some blob)) := by
    rw [candidateFile]
    dsimp only
    rw [hsplit]
    dsimp only
    rw [if_neg (fun hne => hne rfl), hstem]
    exact if_pos hkey
  have hname : (fromUtf8Lossy [0x63#8, 0x61#8]).bytes = [0x63#8, 0x61#8] := by decide
  have hhex : ¬ ([0x63#8, 0x61#8].length ≠ 2 ∨ (!([0x63#8, 0x61#8].all isHex)) = true) := by decide
  have hfolder : candidateFolder (some ⟨[0x63#8, 0x61#8], some true,
      some [some ⟨utf8 fixtureKey ++ dot :: extension, some true, some blob⟩]⟩) =
        .ok [(fixtureKey, some blob)] := by
    rw [candidateFolder]
    dsimp only
    rw [hname, if_neg hhex, List.mapM_cons, hfile]
    rfl
  rw [fixtureTree, candidates, List.mapM_cons, hfolder]
  show Except.ok ([(fixtureKey, some blob)].mergeSort _) = _
  rw [List.mergeSort_singleton]

/-- The sample save is imported into an empty database, and its row is there afterwards. -/
theorem legacy_import_fixture : ∃ blob,
    importedKeys fixtureDigest (fun _ => .other) ⟨.new idleLimiter, []⟩ (fixtureTree blob) false =
        [fixtureKey] ∧
      assocGet "a" (runImport fixtureDigest (fun _ => .other) ⟨.new idleLimiter, []⟩
        (fixtureTree blob) false).1.sql.rows = some fixtureRecord.toVec := by
  obtain ⟨blob, -, hlength, hdecode⟩ := exists_fixtureBlob
  have hread : readRecord fixtureDigest (fun _ => .other) (fixtureKey, some blob) =
      .ok fixtureRecord := by
    rw [readRecord]
    dsimp only
    rw [List.take_of_length_le (by rw [hlength]; decide)]
    rw [show decode fixtureDigest (fun _ => .other) blob fixtureKey = _ from hdecode]
  have hseen : fixtureKey ∉ (begin (β := Unit) ⟨.new idleLimiter, []⟩).ledger := List.not_mem_nil
  have hsave : importSave fixtureDigest (fun _ => .other)
      (begin ⟨.new idleLimiter, []⟩) (fixtureKey, some blob) =
        .ok { addRecord (begin ⟨.new idleLimiter, []⟩) fixtureRecord with ledger :=
          [fixtureKey] } := by
    rw [importSave, if_neg hseen, hread]
    rfl
  have hinserts : insertsRow fixtureDigest (fun _ => .other) (begin ⟨.new idleLimiter, []⟩)
      (fixtureKey, some blob) = true := by
    rw [insertsRow_of_read hseen hread]
    rfl
  have hresult : (runImport fixtureDigest (fun _ => .other) ⟨.new idleLimiter, []⟩
      (fixtureTree blob) false).2 = .ok ⟨1, 0, 0, 0⟩ := by
    rw [runImport, candidates_fixture]
    dsimp only
    rw [if_neg Bool.false_ne_true, importSaves, hsave]
    rfl
  have hkeys : importedKeys fixtureDigest (fun _ => .other) ⟨.new idleLimiter, []⟩
    (fixtureTree blob)
      false = [fixtureKey] := by
    rw [importedKeys, hresult, candidates_fixture]
    dsimp only
    rw [insertedKeys, hsave]
    dsimp only
    rw [hinserts]
    rfl
  refine ⟨blob, hkeys, ?_⟩
  obtain ⟨-, -, himports, -⟩ :=
    legacy_import (τ := ℕ) fixtureDigest (fun _ => .other) Serde.ofWriters idleLimiter
  obtain ⟨saves, save, record, hsaves, hmem, -, hrecord, -, -, hrow⟩ :=
    (himports ⟨.new idleLimiter, []⟩ (fixtureTree blob) false).1 fixtureKey
      (hkeys ▸ List.mem_cons_self)
  rw [candidates_fixture] at hsaves
  cases hsaves
  rw [List.mem_singleton.mp hmem, hread] at hrecord
  cases hrecord
  exact hrow

end Runs

end BasisRust.Storage.Legacy
