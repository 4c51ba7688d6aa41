import BasisRust.Library.Interrupts
import BasisRust.Library.Markup
import BasisRust.Library.Run
import BasisRust.Permissions.Store
import BasisRust.Storage.Legacy

/-!
# The default library

One XML file for each item in a directory.  `add_item` creates a file and writes it; `remove_item`
moves the files of a URL into a hidden directory, commits the removal with a marker in it, and
clears it; and `recover_removals` clears the directories that are committed and moves the files of
the others back.

The directory is a map from names to contents, with its hidden directories beside it.  Each
creation, write, move and removal is a call that can fail without an effect, and that the process
can die in front of; looks do not fail.  Another kind of entry does not occur.

The order in which a directory is read or removed is a parameter, and so are the time stamps, the
events, the reader and the writer of `quick_xml`, and the decoder of the password in the fragment of
a URL.
-/

namespace BasisRust.Storage.Items

open Library Permissions

structure DefaultLibraryEntry where
  mode : ℕ
  url : Text
  password : Text
  deriving DecidableEq

/-- The files of a directory with their contents. -/
abbrev Folder := OrderedMap Text Bytes

structure Disk where
  present : Bool
  files : Folder
  staging : OrderedMap Text Folder
  deriving DecidableEq

/-- The directory and the live library. -/
structure Library where
  disk : Disk
  entries : List DefaultLibraryEntry
  deriving DecidableEq

inductive LibraryError where
  | io
  | alreadyExists
  | notFound
  | notEmpty
  | emptyUrl
  | unknownMode
  | unwritable
  | unreadable
  | rollbackIncomplete
  | exhausted
  deriving DecidableEq

inductive Call where
  | createDirAll
  | createNew (name : Text)
  | write (name : Text) (content : Bytes)
  | removeFile (name : Text)
  | createDir (dir : Text)
  | rename (name dir : Text)
  | renameBack (dir name : Text)
  | mark (dir : Text)
  | hardLink (dir name : Text)
  | unlink (dir name : Text)
  | clear (dir name : Text)
  | removeDir (dir : Text)
  deriving DecidableEq

/-- The marker of a removal that is committed. -/
def committed : Text := "committed".toList

/-- The extension is `xml`. -/
def isXml (name : Text) : Bool := ".xml".toList.isSuffixOf name && decide (4 < name.length)

namespace Disk

def setFiles (d : Disk) (files : Folder) : Disk := { d with files }

def setDir (d : Disk) (dir : Text) (t : Folder) : Disk :=
  { d with staging := d.staging.insert dir t }

/-- A file of a hidden directory. -/
def moved (d : Disk) (dir name : Text) : Option (Folder × Bytes) :=
  (d.staging.get dir).bind fun t => (t.get name).map fun b => (t, b)

def removeMoved (d : Disk) (dir name : Text) : Except LibraryError Disk :=
  match d.moved dir name with
  | some (t, _) => .ok (d.setDir dir (t.erase name))
  | none => .error .notFound

def apply (d : Disk) : Call → Except LibraryError Disk
  | .createDirAll => .ok { d with present := true }
  | .createNew name =>
    if (d.files.get name).isSome then .error .alreadyExists
    else .ok (d.setFiles (d.files.insert name []))
  | .write name content => .ok (d.setFiles (d.files.insert name content))
  | .removeFile name =>
    if (d.files.get name).isSome then .ok (d.setFiles (d.files.erase name)) else .error .notFound
  | .createDir dir =>
    if (d.staging.get dir).isSome then .error .alreadyExists else .ok (d.setDir dir .empty)
  | .rename name dir =>
    match d.files.get name, d.staging.get dir with
    | some b, some t => .ok ((d.setFiles (d.files.erase name)).setDir dir (t.insert name b))
    | _, _ => .error .notFound
  | .renameBack dir name =>
    match d.moved dir name with
    | some (t, b) => .ok ((d.setFiles (d.files.insert name b)).setDir dir (t.erase name))
    | none => .error .notFound
  | .mark dir =>
    match d.staging.get dir with
    | some t => .ok (d.setDir dir (t.insert committed []))
    | none => .error .notFound
  | .hardLink dir name =>
    match d.moved dir name with
    | some (_, b) =>
      if (d.files.get name).isSome then .error .alreadyExists
      else .ok (d.setFiles (d.files.insert name b))
    | none => .error .notFound
  | .unlink dir name | .clear dir name => d.removeMoved dir name
  | .removeDir dir =>
    match d.staging.get dir with
    | some t =>
      if t.isEmpty then .ok { d with staging := d.staging.erase dir } else .error .notEmpty
    | none => .error .notFound

end Disk

def Library.apply (c : Call) (s : Library) : Except LibraryError Library :=
  (s.disk.apply c).map fun disk => { s with disk }

/-- A program of the library. -/
abbrev LibM := Routine Call Library LibraryError

/-- A call whose error the program handles. -/
def tried (c : Call) : LibM (Except LibraryError Unit) := (Routine.perform c).attempt

/-- The orders in which directories are read and removed. -/
structure Orders where
  dirs : List Text → List Text
  removal : List Text → List Text
  dirs_perm : ∀ l, (dirs l).Perm l
  removal_perm : ∀ l, (removal l).Perm l

/-! ### Documents -/

/-- What `add_item` writes in front of an item. -/
def declaration : Text := "<?xml version=\"1.0\" encoding=\"utf-8\"?>\n".toList

def rootName : Text := "BasisDefaultLibraryConfiguration".toList

/-- The loop of `read_entry`: the first element has the name of the root.  An error is `none`. -/
def checkRoot : List (Option XmlEvent) → Bool
  | [] => false
  | none :: _ => false
  | some (.start name _) :: _ | some (.empty name _) :: _ => decide (name = rootName)
  | some _ :: events => checkRoot events

/-- `quick_xml`, and the decoder of passwords. -/
structure Codec where
  readEvents : Text → List (Option XmlEvent)
  fromStr : Text → Option DefaultLibraryEntry
  toStr : DefaultLibraryEntry → Option Text
  decodeFragment : Text → Option Text
  /-- The root of what is written for an item is named after its type. -/
  writes_root : ∀ entry xml, toStr entry = some xml →
    checkRoot (readEvents (declaration ++ xml ++ ['\n'])) = true
  /-- What is written for an item can be read. -/
  reads_back : ∀ entry xml, toStr entry = some xml →
    (fromStr (declaration ++ xml ++ ['\n'])).isSome = true

namespace Codec

variable (codec : Codec)

def readEntry (content : Bytes) : Option DefaultLibraryEntry :=
  match (strFromUtf8 content).map String.toList with
  | none => none
  | some xml => if checkRoot (codec.readEvents xml) then codec.fromStr xml else none

/-- The file that is written for an item. -/
def document (entry : DefaultLibraryEntry) : Option Bytes :=
  (codec.toStr entry).map fun xml => utf8 (String.ofList (declaration ++ xml ++ ['\n']))

end Codec

/-- `xml_files`; the keys are in order. -/
def xmlFiles (files : Folder) : List Text := files.keys.filter isXml

/-! ### `recover_removals` -/

section

variable (orders : Orders)

/-- `remove_dir_all`. -/
def removeDirAll (dir : Text) : LibM Unit :=
  .view fun s =>
    match s.disk.staging.get dir with
    | none => .fail .notFound
    | some t => do
      .forEach (fun name => .perform (.clear dir name)) (orders.removal t.keys)
      .perform (.removeDir dir)

/-- Link a file back, unless the same file is there. -/
def linkBack (dir name : Text) : LibM Unit := do
  match ← tried (.hardLink dir name) with
  | .ok () => pure ()
  | .error .alreadyExists =>
    .view fun s =>
      if (s.disk.moved dir name).map Prod.snd = s.disk.files.get name then pure ()
      else .fail .alreadyExists
  | .error e => .fail e

def recoverFile (dir name : Text) : LibM Unit := do
  linkBack dir name
  .perform (.unlink dir name)

def recoverDir (dir : Text) : LibM Unit :=
  .view fun s =>
    match s.disk.staging.get dir with
    | none => .fail .notFound
    | some t =>
      if (t.get committed).isSome then do
        let _ ← (removeDirAll orders dir).attempt
        pure ()
      else do
        .forEach (recoverFile dir) (xmlFiles t)
        .perform (.removeDir dir)

def recoverRemovals : LibM Unit :=
  .view fun s =>
    if s.disk.present then .forEach (recoverDir orders) (orders.dirs s.disk.staging.keys)
    else .fail .notFound

/-! ### `load_xml_dir` -/

variable (codec : Codec)

def readEntries : List (Text × Bytes) → Except LibraryError (List DefaultLibraryEntry)
  | [] => .ok []
  | (_, content) :: files =>
    match codec.readEntry content with
    | none => .error .unreadable
    | some entry =>
      match readEntries files with
      | .ok entries => .ok (if entry.url.isEmpty then entries else entry :: entries)
      | .error e => .error e

def loadXmlDir : LibM Unit :=
  .view fun s =>
    if s.disk.present then do
      recoverRemovals orders
      .view fun s =>
        match readEntries codec (s.disk.files.entries.filter fun f => isXml f.1) with
        | .ok entries => .update fun s => { s with entries }
        | .error e => .fail e
    else .update fun s => { s with entries := [] }

/-! ### `add_item` -/

/-- The URL up to a `#`, and the password behind it if there is no other. -/
def splitFragment (url password : Text) : Text × Text :=
  match url.dropWhile (· ≠ '#') with
  | [] => (url, password)
  | _ :: fragment =>
    (url.takeWhile (· ≠ '#'),
      if password.isEmpty && !fragment.isEmpty then
        (codec.decodeFragment (fragment.filter fun c => !isWhitespace c)).getD password
      else password)

def normalizedEntry (mode : ℕ) (url password : Text) : Except LibraryError DefaultLibraryEntry :=
  if isBlank url then .error .emptyUrl
  else if 2 < mode then .error .unknownMode
  else
    let (url, password) := splitFragment codec url password
    if isBlank url then .error .emptyUrl else .ok ⟨mode, url, password⟩

def modeName (mode : ℕ) : Text :=
  if mode = 0 then "avatar".toList else if mode = 1 then "world".toList else "prop".toList

def decimal (n : ℕ) : Text := Nat.toDigits 10 n

def fileName (mode stamp counter : ℕ) : Text :=
  modeName mode ++ '_' :: decimal
    stamp ++ (if counter = 0 then [] else '_' :: decimal counter) ++ ".xml".toList

def stagingName (stamp counter : ℕ) : Text :=
  ".basis-remove-".toList ++ decimal stamp ++ '-' :: decimal counter

/-- The loops that count until a name is free.  They stop at the first of them that is, so that one
more attempt than there are names is enough. -/
def createFirst (create : Text → Call) (name : ℕ → Text) : ℕ → ℕ → LibM Text
  | 0, _ => .fail .exhausted
  | attempts + 1, counter => do
    match ← tried (create (name counter)) with
    | .ok () => pure (name counter)
    | .error .alreadyExists => createFirst create name attempts (counter + 1)
    | .error e => .fail e

def addItem (mode : ℕ) (url password : Text) (stamp : ℕ) : LibM Unit :=
  match normalizedEntry codec mode url password with
  | .error e => .fail e
  | .ok entry =>
    match codec.document entry with
    | none => .fail .unwritable
    | some bytes => do
      .perform .createDirAll
      recoverRemovals orders
      .view fun s => do
        let file ← createFirst .createNew (fileName mode stamp) (s.disk.files.len + 1) 0
        match ← tried (.write file bytes) with
        | .ok () => .update fun s => { s with entries := s.entries ++ [entry] }
        | .error e => do
          let _ ← tried (.removeFile file)
          .fail e

/-! ### `remove_item` -/

variable (casing : Casing)

def urlsMatch (left right : Text) : Bool := ordinalIgnoreCaseEqual casing left right

/-- The file can be read and its URL matches. -/
def isMatch (url : Text) (content : Bytes) : Bool :=
  (codec.readEntry content).any fun entry => urlsMatch casing entry.url url

/-- `remove_item_in_memory`. -/
def retainOthers (url : Text) (s : Library) : Library :=
  { s with entries := s.entries.filter fun entry => !urlsMatch casing entry.url url }

/-- Move the files and set the marker.  The result has the files that were moved. -/
def stage (dir : Text) : List Text → List Text → LibM (List Text × Except LibraryError Unit)
  | [], staged => do
    let result ← tried (.mark dir)
    pure (staged, result)
  | file :: files, staged => do
    match ← tried (.rename file dir) with
    | .ok () => stage dir files (staged ++ [file])
    | .error e => pure (staged, .error e)

def rollback (dir : Text) : List Text → Option LibraryError → LibM (Option LibraryError)
  | [], error => pure error
  | file :: files, error => do
    match ← tried (.renameBack dir file) with
    | .ok () => rollback dir files error
    | .error e => rollback dir files (some e)

def removeStaged (url : Text) (files : List Text) (stamp : ℕ) : LibM Unit :=
  .view fun s => do
    let dir ← createFirst .createDir (stagingName stamp) (s.disk.staging.len + 1) 0
    match ← stage dir files [] with
    | (_, .ok ()) => do
      .update (retainOthers casing url)
      let _ ← (removeDirAll orders dir).attempt
      pure ()
    | (staged, .error e) => do
      match ← rollback dir staged.reverse none with
      | some _ => .fail .rollbackIncomplete
      | none => do
        let _ ← tried (.removeDir dir)
        .fail e

def matchingFiles (url : Text) (s : Library) : List Text :=
  (xmlFiles s.disk.files).filter fun file => (s.disk.files.get file).any (isMatch codec casing url)

def removeItem (url : Text) (stamp : ℕ) : LibM Unit :=
  if isBlank url then .fail .emptyUrl
  else
    .view fun s =>
      if s.disk.present then do
        recoverRemovals orders
        .view fun s =>
          match matchingFiles codec casing url s with
          | [] => .update (retainOthers casing url)
          | file :: files => removeStaged orders casing url (file :: files) stamp
      else .update (retainOthers casing url)

end

/-! ### The process -/

inductive Op where
  | load
  | recover
  | add (mode : ℕ) (url password : Text) (stamp : ℕ)
  | remove (url : Text) (stamp : ℕ)
  deriving DecidableEq

section

variable (codec : Codec) (casing : Casing)

def Op.run (orders : Orders) : Op → LibM Unit
  | .load => loadXmlDir orders codec
  | .recover => recoverRemovals orders
  | .add mode url password stamp => addItem orders codec mode url password stamp
  | .remove url stamp => removeItem orders codec casing url stamp

/-- The operation that runs, up to its next call, or the last one with its outcome, which it has
unless the process died.  `started` is the library when it began. -/
structure State where
  library : Library
  op : Op
  started : Library
  task : Option (LibM Unit)
  outcome : Option (Except LibraryError Unit)

inductive Action where
  | start (op : Op) (orders : Orders)
  | proceed
  | fail
  | stop

/-- An operation goes on to its next call, or to its end. -/
def State.resume (s : State) (m : LibM Unit) (library : Library) : State :=
  match m.settle library with
  | (.done r, library) => { s with library, task := none, outcome := some r }
  | (m, library) => { s with library, task := some m, outcome := none }

/-- A call is made. -/
def State.call (s : State) (c : Call) (next : Except LibraryError Unit → LibM Unit) : State :=
  match s.library.apply c with
  | .ok library => s.resume (next (.ok ())) library
  | .error e => s.resume (next (.error e)) s.library

def step (s : State) : Action → Option State
  | .start op orders =>
    if s.task.isNone then
      some (State.resume { s with op, started := s.library } (op.run codec casing orders) s.library)
    else none
  | .proceed =>
    match s.task with
    | some (.call c next) => some (s.call c next)
    | _ => none
  | .fail =>
    match s.task with
    | some (.call _ next) => some (s.resume (next (.error .io)) s.library)
    | _ => none
  | .stop =>
    match s.task with
    | some (.call _ _) =>
      some { s with library := { s.library with entries := [] }, task := none, outcome := none }
    | _ => none

/-- A process that has not loaded its library, on a directory whose XML files can be read. -/
def State.initial (present : Bool) (files : Folder) : State :=
  let library : Library := ⟨⟨present, files, .empty⟩, []⟩
  ⟨library, .recover, library, none, none⟩

def system : System State Action where
  init s := ∃ present files, (present = false → files = .empty) ∧
    (∀ file content, isXml file = true → files.get file = some content →
      (codec.readEntry content).isSome = true) ∧
    s = .initial present files
  step := step codec casing

/-- What a load that nothing interrupts makes of a directory. -/
def loaded (orders : Orders) (disk : Disk) : Except LibraryError (List DefaultLibraryEntry) :=
  let r := (loadXmlDir orders codec).run Library.apply ⟨disk, []⟩
  r.1.map fun _ => r.2.entries

end

/-! ### The interruptions that are told apart -/

/-- An interruption in front of a call does harm.  The file of `add_item` is there and not yet
written; or the marker of a committed removal has been cleared before a file. -/
def harmful (d : Disk) (stop : Bool) : Call → Bool
  | .write _ _ => stop
  | .removeFile _ => true
  | .clear dir _ => (d.staging.get dir).any fun t => (t.get committed).isNone
  | _ => false

/-- The step does not interrupt where it does harm. -/
def Harmless (s : State) (a : Action) : Bool :=
  match s.task with
  | some (.call c _) =>
    match a with
    | .fail => !harmful s.library.disk false c
    | .stop => !harmful s.library.disk true c
    | _ => true
  | _ => true

end BasisRust.Storage.Items
