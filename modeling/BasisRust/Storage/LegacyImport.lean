import BasisRust.Library.Utf8
import BasisRust.Storage.Backends
import BasisRust.Storage.Legacy

/-!
# The import of legacy saves

`import` of `sql/legacy.rs` runs at every start on a database file.  It looks for the saves under
`players`, one folder for each beginning of an owner key, and puts those it has not seen into the
table of the accounts, if there is no row of the owner.  A ledger keeps the owner keys that were
seen.  All of it is one transaction: it is committed, or nothing of it shows.

A tree is what the reads of the directory return; a read that fails is `none`.  The tree may be
another one at every start.  The ledger is the list of its keys, empty before its table is made.
-/

namespace BasisRust.Storage.Legacy

open Library

/-! ### The files -/

inductive ImportError where
  | io
  | notDirectory
  | notFile
  | fileName
  | hashPath
  | sql
  | save (reason : Halt)
  deriving DecidableEq

structure FileEntry where
  name : Bytes
  isFile : Option Bool
  content : Option Bytes
  deriving DecidableEq

structure FolderEntry where
  name : Bytes
  isDir : Option Bool
  files : Option (List (Option FileEntry))
  deriving DecidableEq

inductive Tree where
  | missing
  | unreadable
  | folders (entries : List (Option FolderEntry))
  deriving DecidableEq

def isHex (b : Byte) : Bool :=
  (decide (0x30 ≤ b.toNat) && decide (b.toNat ≤ 0x39)) ||
    (decide (0x61 ≤ b.toNat) && decide (b.toNat ≤ 0x66))

def dot : Byte := 0x2e#8

/-- `file_stem` and `extension`: the parts around the last dot, if something is before it. -/
def splitName (name : Bytes) : Bytes × Option Bytes :=
  let after := (name.reverse.takeWhile fun b => b ≠ dot).reverse
  let before := name.take (name.length - after.length - 1)
  if dot ∈ name ∧ before ≠ [] then (before, some after) else (name, none)

/-- `bsr`. -/
def extension : Bytes := [0x62#8, 0x73#8, 0x72#8]

/-- A save: its owner key, and what reading the file returns. -/
abbrev Save := String × Option Bytes

/-- One round of the loop over the files of a folder. -/
def candidateFile (folder : Bytes) : Option FileEntry → Except ImportError (Option Save)
  | none => .error .io
  | some file =>
    let (stem, ext) := splitName file.name
    if ext ≠ some extension then .ok none
    else
      match file.isFile with
      | none => .error .io
      | some false => .error .notFile
      | some true =>
        match strFromUtf8 stem with
        | none => .error .fileName
        | some key =>
          if (utf8 key).length = 64 ∧ (utf8 key).all isHex ∧ folder.isPrefixOf (utf8 key) then
            .ok (some (key, file.content))
          else .error .hashPath

/-- One round of the loop over the folders. -/
def candidateFolder : Option FolderEntry → Except ImportError (List Save)
  | none => .error .io
  | some folder =>
    let name := (fromUtf8Lossy folder.name).bytes
    if name.length ≠ 2 ∨ !name.all isHex then .ok []
    else
      match folder.isDir, folder.files with
      | none, _ => .error .io
      | some false, _ => .error .notDirectory
      | some true, none => .error .io
      | some true, some files => do
        let saves ← files.mapM (candidateFile name)
        .ok saves.reduceOption

/-- The saves of a tree, in the order of their keys. -/
def candidates : Tree → Except ImportError (List Save)
  | .missing => .ok []
  | .unreadable => .error .io
  | .folders entries => do
    let saves ← entries.mapM candidateFolder
    .ok (saves.flatten.mergeSort fun x y => decide (x.1 ≤ y.1))

/-! ### The import -/

structure Report where
  imported : ℕ
  preserved : ℕ
  empty : ℕ
  previouslyImported : ℕ
  deriving DecidableEq

def Report.new : Report := ⟨0, 0, 0, 0⟩

/-- The database: the accounts, and the keys of the ledger. -/
structure Database (β : Type) where
  sql : SqlStorage β
  ledger : List String

/-- The transaction of an import. -/
structure Tx (β : Type) where
  sql : SqlStorage β
  ledger : List String
  report : Report

section

variable (sha256 : Bytes → Digest) (category : Char → GeneralCategory) (serde : Serde)
  {β τ : Type} (limiter : Limiter β τ)

def readRecord (save : Save) : Except ImportError PlayerRecord :=
  match save.2 with
  | none => .error .io
  | some content =>
    match decode sha256 category (content.take (maxBlob + 1)) save.1 with
    | .ok record => .ok record
    | .error reason => .error (.save reason)

/-- `INSERT … ON CONFLICT(owner) DO NOTHING`, with its trigger, and whether a row was made. -/
def insertNew (s : SqlStorage β) (owner : String) (payload : Bytes) : Bool × SqlStorage β :=
  match assocGet owner s.rows with
  | some _ => (false, s)
  | none => (true, s.upsert owner payload)

/-- A record that is read is put into the accounts and counted. -/
def addRecord (tx : Tx β) (record : PlayerRecord) : Tx β :=
  if record.scopes.isEmpty then { tx with report :=
    { tx.report with empty := tx.report.empty + 1 } }
  else
    match insertNew tx.sql record.owner record.toVec with
    | (true, sql) =>
      { tx with sql, report := { tx.report with imported := tx.report.imported + 1 } }
    | (false, sql) =>
      { tx with sql, report := { tx.report with preserved := tx.report.preserved + 1 } }

/-- One round of the loop over the saves. -/
def importSave (tx : Tx β) (save : Save) : Except ImportError (Tx β) :=
  if save.1 ∈ tx.ledger then
    .ok { tx with
      report := { tx.report with previouslyImported := tx.report.previouslyImported + 1 } }
  else
    match readRecord sha256 category save with
    | .error e => .error e
    | .ok record =>
      let tx := addRecord tx record
      -- imported and preserved accounts are marked, and never resurrected
      .ok { tx with ledger := save.1 :: tx.ledger }

def importSaves : Tx β → List Save → Except ImportError (Tx β)
  | tx, [] => .ok tx
  | tx, save :: saves =>
    match importSave sha256 category tx save with
    | .error e => .error e
    | .ok tx => importSaves tx saves

def begin (db : Database β) : Tx β := ⟨db.sql, db.ledger, .new⟩

/-- `import`; `sqlFails` says that a statement of the transaction or its commit fails. -/
def runImport (db : Database β) (tree : Tree) (sqlFails : Bool) :
    Database β × Except ImportError Report :=
  match candidates tree with
  | .error e => (db, .error e)
  | .ok [] => (db, .ok .new)
  | .ok saves =>
    if sqlFails then (db, .error .sql)
    else
      match importSaves sha256 category (begin db) saves with
      | .error e => (db, .error e)
      | .ok tx => (⟨tx.sql, tx.ledger⟩, .ok tx.report)

/-! ### The other transactions -/

/-- `is_empty` of `accounting.rs`. -/
def isEmptyAccount (owner : String) (payload : Bytes) : Bool :=
  match serde.fromSlice payload with
  | some record => decide (record.owner = owner) && record.scopes.isEmpty
  | none => false

/-- `init_sqlite`: empty accounts are removed, and what is used is added up. -/
def initSqlite (s : SqlStorage β) : SqlStorage β :=
  let rows := s.rows.filter fun x => !(decide (x.1 ≠ "") && isEmptyAccount serde x.1 x.2)
  { rows, used := assocSum List.length rows, limits := limiter.init }

/-- What happens to the database.  A start is `connect` and, after it, `runImport`. -/
inductive Event (τ : Type) where
  | connect
  | runImport (tree : Tree) (sqlFails : Bool)
  | execute (call : StorageCall τ)
  | wipe (owner : String)

def step (db : Database β) : Event τ → Database β
  | .connect => { db with sql := initSqlite serde limiter db.sql }
  | .runImport tree sqlFails => (runImport sha256 category db tree sqlFails).1
  | .execute call =>
    { db with sql := (SqlStorage.execute limiter (SqlStorage.sqliteOperation serde) db.sql call).1 }
  | .wipe owner => { db with sql := db.sql.delete owner }

def run (db : Database β) (events : List (Event τ)) : Database β :=
  events.foldl (step sha256 category serde limiter) db

end

end BasisRust.Storage.Legacy
