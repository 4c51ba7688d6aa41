import BasisRust.Library.AssocList
import BasisRust.Library.Faults
import BasisRust.Library.Run
import BasisRust.Storage.Player

/-!
# Player storage in files

One file for each account, named after the digest of its owner, and a ledger with the total size of
the account files.  A save marks the ledger dirty, replaces or removes the account file and marks
the ledger clean with the new total; `fileUsage` rebuilds the ledger from the files when it is
missing, unreadable or dirty.

The directory is a map from names to contents.  The account files are those with the extension
`json`; the other files of the directory, and the temporary ones of a replacement, are skipped by
their extension and left out.  `atomic_write_with` is one step: what precedes the replacement does
not show, and the sync after it can only turn success into failure.  All of it runs under the lock
of the directory.

The digest and the two readers of `serde_json` are parameters; the readers come with the fact that
they read back what was written.
-/

namespace BasisRust.Storage

open Library

/-- The largest `usize`. -/
def usizeMax : ℕ := 2 ^ 64 - 1

structure FileUsage where
  used : ℕ
  dirty : Bool
  deriving DecidableEq

def FileUsage.toVec (usage : FileUsage) : Bytes :=
  jsonObject [("used", jsonNumber usage.used),
    ("dirty", utf8 (if usage.dirty then "true" else "false"))]

/-- The readers of records and ledgers. -/
structure Serde where
  fromSlice : Bytes → Option PlayerRecord
  usageFromSlice : Bytes → Option FileUsage
  round_trip : ∀ record : PlayerRecord, fromSlice record.toVec = some record
  usage_round_trip : ∀ usage : FileUsage, usageFromSlice usage.toVec = some usage

structure Directory where
  accounts : List (String × Bytes)
  usage : Option Bytes
  deriving DecidableEq

inductive StorageError where
  | io
  | sizeOverflow
  | accountingMismatch
  | quotaExceeded
  | didMismatch
  deriving DecidableEq

/-- A program on the directory. -/
abbrev DirM := Prog StorageError Directory

namespace Directory

def accountBytes (d : Directory) : ℕ := assocSum List.length d.accounts

def setUsage (d : Directory) (bytes : Bytes) : Directory := { d with usage := some bytes }

def setAccount (d : Directory) (file : String) (content : Option Bytes) : Directory :=
  { d with accounts := assocPut file content d.accounts }

end Directory

def checkedAdd (a b : ℕ) : DirM ℕ := if a + b ≤ usizeMax then pure (a + b) else .fail .sizeOverflow

def checkedSub (a b : ℕ) : DirM ℕ := if b ≤ a then pure (a - b) else .fail .accountingMismatch

def syncDirectory : DirM Unit := .inspect .io fun _ => ()

def readAccountFile (file : String) : DirM (Option Bytes) :=
  .inspect .io fun d => assocGet file d.accounts

/-- Remove a file, and say whether it was there. -/
def removeFile (file : String) : DirM Bool :=
  .attempt .io fun d => ((assocGet file d.accounts).isSome, d.setAccount file none)

def writeAccountFile (file : String) (bytes : Bytes) : DirM Unit :=
  .attempt .io fun d => ((), d.setAccount file (some bytes))

def writeFileUsage (used : ℕ) (dirty : Bool) : DirM Unit :=
  .attempt .io fun d => ((), d.setUsage (FileUsage.toVec ⟨used, dirty⟩))

/-- Remove the account file, or replace it. -/
def replaceAccount (file : String) (bytes : Bytes) : DirM Unit :=
  if bytes.isEmpty then do
    let present ← removeFile file
    if present then syncDirectory else pure ()
  else writeAccountFile file bytes

/-- The bytes a save writes; none stand for no file. -/
def saveBytes (record : PlayerRecord) : Bytes := if record.scopes.isEmpty then [] else record.toVec

section

variable (digest : String → String) (serde : Serde)

/-- Add up the files that are left to visit; a record without scopes in its own file is removed. -/
def reconcileFrom : List String → ℕ → DirM ℕ
  | [], used => do
    syncDirectory
    writeFileUsage used false
    pure used
  | file :: files, used => do
    match ← readAccountFile file with
    | none => .fail .io
    | some bytes =>
      let legacy := (serde.fromSlice bytes).any fun record =>
        record.scopes.isEmpty && digest record.owner = file
      if legacy then do
        let _ ← removeFile file
        reconcileFrom files used
      else do
        let used ← checkedAdd used bytes.length
        reconcileFrom files used

def reconcileFiles : DirM ℕ := do
  let files ← .inspect .io fun d => d.accounts.map Prod.fst
  reconcileFrom digest serde files 0

def fileUsage : DirM ℕ := do
  match ← .inspect .io Directory.usage with
  | none => reconcileFiles digest serde
  | some bytes =>
    match serde.usageFromSlice bytes with
    | some ⟨used, false⟩ => pure used
    | _ => reconcileFiles digest serde

def saveAccount (owner : String) (record : PlayerRecord) (maxTotalBytes : ℕ) : DirM Unit := do
  let file := digest owner
  let bytes := saveBytes record
  let used ← fileUsage digest serde
  let content ← readAccountFile file
  let rest ← checkedSub used (content.elim 0 List.length)
  let next ← checkedAdd rest bytes.length
  if quotaAllows used next maxTotalBytes then do
    writeFileUsage used true
    replaceAccount file bytes
    writeFileUsage next false
  else .fail .quotaExceeded

/-- `PlayerStorage::new` on an existing directory. -/
def restart : DirM Unit := do
  let _ ← reconcileFiles digest serde
  pure ()

def wipe (owner : String) : DirM Unit := saveAccount digest serde owner (.new "") 0

/-! ### Sequences of operations -/

inductive FileOp where
  | saveAccount (owner : String) (record : PlayerRecord) (maxTotalBytes : ℕ)
  | reconcileFiles
  | fileUsage
  | wipe (owner : String)
  | restart

/-- The record an operation tries to write. -/
def FileOp.tried : FileOp → Option (String × PlayerRecord)
  | .saveAccount owner record _ => some (owner, record)
  | .wipe owner => some (owner, .new "")
  | .reconcileFiles | .fileUsage | .restart => none

def FileOp.run : FileOp → DirM Unit
  | .saveAccount owner record maxTotalBytes =>
    Storage.saveAccount digest serde owner record maxTotalBytes
  | .reconcileFiles => do
    let _ ← Storage.reconcileFiles digest serde
    pure ()
  | .fileUsage => do
    let _ ← Storage.fileUsage digest serde
    pure ()
  | .wipe owner => Storage.wipe digest serde owner
  | .restart => Storage.restart digest serde

/-- The directory, and what the operations so far have tried to write. -/
structure FileState where
  dir : Directory
  saves : List (String × PlayerRecord)

/-- Operations one after the other, each with its own schedule of faults. -/
def fileSystem : System FileState (FileOp × List Fault) where
  init s := s = ⟨⟨[], none⟩, []⟩
  step s a := some ⟨(a.1.run digest serde s.dir a.2).2.1, a.1.tried.toList ++ s.saves⟩

end

end BasisRust.Storage
