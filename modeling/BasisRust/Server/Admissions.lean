import BasisRust.Library.AssocList
import BasisRust.Library.Run

/-!
# Admission of peers

`finalize_accept` decides whether a peer that has connected is admitted.  It reads the
configuration, asks `admission_rejection`, and commits the peer under the lock `admission_commit`,
with awaits in between.  The restriction mode can change meanwhile: `set_restriction_mode` holds the
write lock of the configuration while it replaces the rejoin population and the mode, and
`refresh_rejoin_population` replaces the population with no lock around it.

An admission is a task with the point it has reached.  Every read and every write of shared state is
a step of its own.
-/

namespace BasisRust.Server.Admissions

open Library

/-- `BasisUserRestrictionMode`. -/
inductive RestrictionMode where
  | normal
  | banList
  | allowList
  | rejoinOnly
  deriving DecidableEq

structure Config where
  mode : RestrictionMode
  peerLimit : ℤ
  deriving DecidableEq

/-- What the moderation lists and the permission store say about identities. -/
structure Lists where
  banned : List String
  whitelisted : List String
  blacklisted : List String
  editors : List String
  deriving DecidableEq

/-- An authenticated peer. -/
structure Peer where
  uuid : String
  verified : Bool
  deriving DecidableEq

/-- How far an admission has come.  From the first check on it carries the configuration it has
read. -/
inductive Phase where
  | arrived
  | configured (config : Config)
  | checked (config : Config)
  | committing (config : Config)
  deriving DecidableEq

/-- `admission_rejection` has let it through. -/
def Phase.isChecked : Phase → Bool
  | .arrived | .configured _ => false
  | .checked _ | .committing _ => true

structure Admission where
  peer : ℕ
  uuid : String
  verified : Bool
  phase : Phase
  deriving DecidableEq

/-- A call of `set_restriction_mode`, with the population it has collected and whether it has stored
it. -/
structure ModeChange where
  mode : RestrictionMode
  population : List String
  stored : Bool
  deriving DecidableEq

/-- `captured` are the populations that calls of `refresh_rejoin_population` have collected and not
yet stored. -/
structure State where
  config : Config
  writer : Option ModeChange
  population : List String
  captured : List (List String)
  globalMode : RestrictionMode
  lists : Lists
  authenticated : List (ℕ × Peer)
  admissions : List (ℕ × Admission)
  nextToken : ℕ
  commit : Option ℕ
  deriving DecidableEq

namespace State

/-- The identities of the authenticated peers. -/
def identities (s : State) : List String := s.authenticated.map fun p => p.2.uuid

/-- `can_rejoin`. -/
def canRejoin (s : State) (uuid : String) : Bool := s.population.contains uuid

/-- `admission_rejection`. -/
def admissionRejection (s : State) (uuid : String) : Option String :=
  if s.lists.banned.contains uuid then some "Banned"
  else if s.config.mode = .allowList ∧ s.lists.whitelisted.contains uuid = false then
    some "You are not on the whitelist."
  else if s.config.mode = .banList ∧ s.lists.blacklisted.contains uuid = true then
    some "You are on the blacklist."
  else if s.config.mode = .rejoinOnly ∧ s.canRejoin uuid = false ∧
    s.lists.editors.contains uuid = false then
    some "The server is locked — only players already here may rejoin."
  else none

/-- The admission ends, with the peer inserted or disconnected. -/
def finish (s : State) (t : ℕ) : State := { s with admissions := assocErase t s.admissions }

def setPhase (s : State) (t : ℕ) (a : Admission) (phase : Phase) : State :=
  { s with admissions := assocSet t { a with phase } s.admissions }

/-- The limit that an admission has read leaves no room. -/
def isFull (s : State) (config : Config) : Bool :=
  decide (0 < config.peerLimit) && decide (config.peerLimit.toNat ≤ s.authenticated.length)

end State

inductive Action where
  | arrive (peer : ℕ) (uuid : String) (verified : Bool)
  | readConfig (t : ℕ)
  | check (t : ℕ)
  | lockCommit (t : ℕ)
  | insert (t : ℕ)
  | disconnect (peer : ℕ)
  | beginMode (mode : RestrictionMode)
  | storePopulation
  | endMode
  | refresh (previous mode : RestrictionMode)
  | storeRefresh (i : ℕ)
  | configure (config : Config)
  | moderate (lists : Lists)
  deriving DecidableEq

/-! ### Steps of an admission -/

namespace State

/-- The configuration can be read. -/
def readable (s : State) : Bool := s.writer.isNone

def arrive (s : State) (peer : ℕ) (uuid : String) (verified : Bool) : State :=
  { s with
    admissions := assocSet s.nextToken ⟨peer, uuid, verified, .arrived⟩ s.admissions
    nextToken := s.nextToken + 1 }

/-- The configuration is read, and the rejoin-only mode asks for a verified identity. -/
def readConfig (s : State) (t : ℕ) : Option State :=
  match assocGet t s.admissions with
  | some a =>
    if s.readable = true ∧ a.phase = .arrived then
      if s.config.mode = .rejoinOnly ∧ a.verified = false then some (s.finish t)
      else some (s.setPhase t a (.configured s.config))
    else none
  | none => none

def check (s : State) (t : ℕ) : Option State :=
  match assocGet t s.admissions with
  | some a =>
    match a.phase with
    | .configured config =>
      if s.readable = true then
        match s.admissionRejection a.uuid with
        | some _ => some (s.finish t)
        | none => some (s.setPhase t a (.checked config))
      else none
    | _ => none
  | none => none

/-- The commit lock is taken and the peers are counted; a full server refuses and gives the lock
back. -/
def lockCommit (s : State) (t : ℕ) : Option State :=
  match assocGet t s.admissions with
  | some a =>
    match a.phase with
    | .checked config =>
      if s.commit = none then
        if s.isFull config then some (s.finish t)
        else some { s.setPhase t a (.committing config) with commit := some t }
      else none
    | _ => none
  | none => none

def insert (s : State) (t : ℕ) : Option State :=
  match assocGet t s.admissions with
  | some a =>
    match a.phase with
    | .committing _ =>
      some
        { s.finish t with
          authenticated := assocSet a.peer ⟨a.uuid, a.verified⟩ s.authenticated
          commit := none }
    | _ => none
  | none => none

/-! ### Steps of the others -/

def disconnect (s : State) (peer : ℕ) : State :=
  { s with authenticated := assocErase peer s.authenticated }

/-- `set_restriction_mode` takes the write lock and collects the population. -/
def beginMode (s : State) (mode : RestrictionMode) : Option State :=
  if s.readable = true then
    some { s with writer := some ⟨mode, if mode = .rejoinOnly then s.identities else [], false⟩ }
  else none

def storePopulation (s : State) : Option State :=
  match s.writer with
  | some w =>
    if w.stored = false then
      some { s with population := w.population, writer := some { w with stored := true } }
    else none
  | none => none

/-- `set_restriction_mode` writes the mode and returns. -/
def endMode (s : State) : Option State :=
  match s.writer with
  | some w =>
    if w.stored = true then
      some { s with
        config := { s.config with mode := w.mode }
        globalMode := w.mode
        writer := none }
    else none
  | none => none

/-- `refresh_rejoin_population`, up to the store of what it collects. -/
def refresh (s : State) (previous mode : RestrictionMode) : State :=
  if mode = .rejoinOnly then
    if previous ≠ mode then { s with captured := s.captured ++ [s.identities] } else s
  else { s with population := [] }

def storeRefresh (s : State) (i : ℕ) : Option State :=
  match s.captured[i]? with
  | some population => some { s with population, captured := s.captured.eraseIdx i }
  | none => none

/-- The configuration is replaced: a console command or a reload. -/
def configure (s : State) (config : Config) : Option State :=
  if s.readable = true then some { s with config } else none

end State

def step (s : State) : Action → Option State
  | .arrive peer uuid verified => some (s.arrive peer uuid verified)
  | .readConfig t => s.readConfig t
  | .check t => s.check t
  | .lockCommit t => s.lockCommit t
  | .insert t => s.insert t
  | .disconnect peer => some (s.disconnect peer)
  | .beginMode mode => s.beginMode mode
  | .storePopulation => s.storePopulation
  | .endMode => s.endMode
  | .refresh previous mode => some (s.refresh previous mode)
  | .storeRefresh i => s.storeRefresh i
  | .configure config => s.configure config
  | .moderate lists => some { s with lists }

def State.initial (config : Config) (lists : Lists) : State :=
  ⟨config, none, [], [], config.mode, lists, [], [], 0, none⟩

/-- The admissions of a server, which does not start in the rejoin-only mode. -/
def system : System State Action where
  init s := ∃ config lists, config.mode ≠ .rejoinOnly ∧ s = .initial config lists
  step := step

/-- The step leaves the server in the rejoin-only mode. -/
def KeepsRejoinOnly (s : State) (a : Action) : Prop :=
  ∀ s', step s a = some s' → s'.config.mode = .rejoinOnly

end BasisRust.Server.Admissions
