import BasisRust.Library.OrderedMap
import Mathlib.Data.List.Perm.Basic
import Mathlib.Data.String.Basic

/-!
# The persistent database

`PersistentDatabase` keeps the world data in memory and writes snapshots of it to one file.  Updates
count the generations; a save remembers which generation it has written.  Several threads update and
save at the same time; a step here is what a thread does under one lock, or one access to a counter
without a lock.

A thread that holds `save_lock` is in `saving`; the others are in `tasks`: those in `save_if_dirty`
that have read the generation, and those that wait for the lock.  The values of the hash map come in
any order.  The counters are `u64`.

The reader and the writer of JSON are parameters.
-/

namespace BasisRust.Storage

open Library

structure BasisData (ν : Type) where
  name : String
  jsonPayload : ν
  deriving DecidableEq

/-- `serde_json`, for lists of data. -/
structure JsonCodec (ν : Type) where
  toStringPretty : List (BasisData ν) → Option String
  fromStr : String → Option (List (BasisData ν))

/-- A thread outside `save_lock`. -/
inductive Task where
  /-- in `save_if_dirty`, with the generation it has read -/
  | comparing (generation : ℕ)
  | waiting (force : Bool)
  deriving DecidableEq

/-- The thread that holds `save_lock`. -/
inductive Saving (ν : Type) where
  | locked (force : Bool)
  | captured (force : Bool) (generation : ℕ) (values : List (BasisData ν))
  | persisted (generation : ℕ)
  deriving DecidableEq

structure PersistentDatabase (ν : Type) where
  data : OrderedMap String (BasisData ν)
  generation : ℕ
  savedGeneration : ℕ
  file : Option String
  tasks : List Task
  saving : Option (Saving ν)

/-- What becomes of a replacement of the file: it fails, it is done, or it is done and the sync of
the directory fails. -/
inductive Persist where
  | failed
  | replaced
  | unsynced
  deriving DecidableEq

inductive DbEvent (ν : Type) where
  | addOrUpdate (value : BasisData ν)
  /-- a call of `save_if_dirty` reads the generation -/
  | saveIfDirty
  | shutdown
  /-- a thread in `save_if_dirty` reads the saved generation -/
  | compare (task : ℕ)
  | lockSave (task : ℕ)
  /-- the generation and the values are read under the lock of the data -/
  | capture (values : List (BasisData ν))
  | persist (outcome : Persist)
  | mark
  deriving DecidableEq

/-- `fetch_add(1)`. -/
def nextGeneration (n : ℕ) : ℕ := (n + 1) % 2 ^ 64

namespace PersistentDatabase

section

variable {ν : Type} (codec : JsonCodec ν)

def insertAll (values : List (BasisData ν)) (data : OrderedMap String (BasisData ν)) :
    OrderedMap String (BasisData ν) :=
  values.foldl (fun data value => data.insert value.name value) data

/-- What `load` of another database finds in the file. -/
def readBack (file : Option String) : Option (OrderedMap String (BasisData ν)) :=
  match file with
  | none => some .empty
  | some text => (codec.fromStr text).map fun values => insertAll values .empty

/-- The database after `load` of a file. -/
def load (file : Option String) : Option (PersistentDatabase ν) :=
  (readBack codec file).map fun data => ⟨data, 0, 0, file, [], none⟩

def addOrUpdate (s : PersistentDatabase ν) (value : BasisData ν) : PersistentDatabase ν :=
  { s with
    data := s.data.insert value.name value
    generation := nextGeneration s.generation }

/-- `return Ok(false)`, or on to `save(false)`. -/
def compare (s : PersistentDatabase ν) (task : ℕ) : PersistentDatabase ν :=
  match s.tasks[task]? with
  | some (.comparing generation) =>
    if generation = s.savedGeneration then { s with tasks := s.tasks.eraseIdx task }
    else { s with tasks := s.tasks.set task (.waiting false) }
  | _ => s

def lockSave (s : PersistentDatabase ν) (task : ℕ) : PersistentDatabase ν :=
  match s.tasks[task]?, s.saving with
  | some (.waiting force), none =>
    { s with tasks := s.tasks.eraseIdx task, saving := some (.locked force) }
  | _, _ => s

def capture [DecidableEq ν] (s : PersistentDatabase ν) (values : List (BasisData ν)) :
    PersistentDatabase ν :=
  match s.saving with
  | some (.locked force) =>
    if values.Perm (s.data.entries.map Prod.snd) then
      { s with saving := some (.captured force s.generation values) }
    else s
  | _ => s

/-- `persist(path, &json)?`, unless there is nothing to save; the lock is given back on every
return. -/
def persist (s : PersistentDatabase ν) (outcome : Persist) : PersistentDatabase ν :=
  match s.saving with
  | some (.captured force generation values) =>
    if !force && generation = s.savedGeneration then { s with saving := none }
    else
      match codec.toStringPretty values, outcome with
      | none, _ => { s with saving := none }
      | some _, .failed => { s with saving := none }
      | some json, .unsynced => { s with file := some json, saving := none }
      | some json, .replaced => { s with file := some json, saving := some (.persisted generation) }
  | _ => s

/-- Under the read lock of the data, which keeps updates out. -/
def mark (s : PersistentDatabase ν) : PersistentDatabase ν :=
  match s.saving with
  | some (.persisted generation) =>
    if s.generation = generation then { s with savedGeneration := generation, saving := none }
    else { s with saving := none }
  | _ => s

def step [DecidableEq ν] (s : PersistentDatabase ν) : DbEvent ν → PersistentDatabase ν
  | .addOrUpdate value => s.addOrUpdate value
  | .saveIfDirty => { s with tasks := s.tasks ++ [.comparing s.generation] }
  | .shutdown => { s with tasks := s.tasks ++ [.waiting true] }
  | .compare task => s.compare task
  | .lockSave task => s.lockSave task
  | .capture values => s.capture values
  | .persist outcome => s.persist codec outcome
  | .mark => s.mark

def run [DecidableEq ν] (s : PersistentDatabase ν) (events : List (DbEvent ν)) :
    PersistentDatabase ν :=
  events.foldl (step codec) s

end

end PersistentDatabase

end BasisRust.Storage
