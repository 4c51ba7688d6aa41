import BasisRust.Library.Faults
import BasisRust.Library.Grouping
import BasisRust.Library.Keyed
import BasisRust.Library.Run
import BasisRust.Library.Text
import Mathlib.Data.Char
import Mathlib.Data.List.Lex
import Mathlib.Data.List.Sort

/-!
# Moderation lists

Bans, mutes, an allow list and a ban list of identities, each in memory and in a file of its own.
An operation computes the new list, writes the file, and then replaces the list in memory.  `reload`
reads all files, writes those that are missing, and then replaces all lists.

Bans and mutes are XML; what the serde reader returns for a file is what was written, so such a file
is modelled by the list that is in it.  The other two files are plain lines.

The parser of UUIDs and the normal form of addresses are parameters.  A UUID has one canonical
spelling, which is a text of digits and hyphens.
-/

namespace BasisRust.Moderation

open Library

/-- The parsers of identities. -/
structure Identities where
  parseUuid : Text → Option Text
  normalizeIp : Text → Text
  parse_canonical : ∀ s c, parseUuid s = some c → parseUuid c = some c
  canonical_digits : ∀ s c, parseUuid s = some c →
    c ≠ [] ∧ ∀ ch ∈ c, ch.isAlphanum = true ∨ ch = '-'
  normalizeIp_idem : ∀ s, normalizeIp (normalizeIp s) = normalizeIp s

structure BannedPlayer where
  uuid : Text
  bannedIp : Text
  reason : Text
  hasBannedIp : Bool
  timeOfBan : Text
  deriving DecidableEq

structure MutedPlayer where
  uuid : Text
  voiceMuted : Bool
  textMuted : Bool
  timeOfMute : Text
  deriving DecidableEq

structure ModerationState where
  bannedPlayers : List BannedPlayer
  mutedPlayers : List MutedPlayer
  whitelist : List Text
  blacklist : List Text
  deriving DecidableEq

/-- The files; the legacy ones are read when the canonical ones are missing. -/
structure ModerationFiles where
  bannedPlayers : Option (List BannedPlayer)
  mutedPlayers : Option (List MutedPlayer)
  whitelist : Option Text
  blacklist : Option Text
  legacyWhitelist : Option Text
  legacyBlacklist : Option Text
  deriving DecidableEq

structure ModerationLists where
  state : ModerationState
  files : ModerationFiles
  deriving DecidableEq

inductive ModerationError where
  | io
  | invalidUuid
  deriving DecidableEq

/-- A program on the lists. -/
abbrev ListsM := Prog ModerationError ModerationLists

def ModerationState.empty : ModerationState := ⟨[], [], [], []⟩

def readLineList (source : Option Text) : List Text :=
  match source with
  | none => []
  | some text =>
    let values := ((lines (stripBom text)).map trim).filter fun v => !v.isEmpty
    dedupRuns (values.insertionSort (· ≤ ·))

def writeLineList (values : List Text) : Text :=
  (values.filter fun v => !isBlank v).flatMap fun v => v ++ [lineFeed]

section

variable (ids : Identities)

def normalizeIdentity (identity : Text) : Text := (ids.parseUuid identity).getD identity

namespace BannedPlayer

def sameRestriction (p other : BannedPlayer) : Bool :=
  p.uuid = other.uuid && ((ids.parseUuid p.uuid).isNone ||
    (p.hasBannedIp = other.hasBannedIp && (!p.hasBannedIp || p.bannedIp = other.bannedIp)))

/-- The player as `reload` takes it from the file. -/
def normalize (p : BannedPlayer) : BannedPlayer :=
  { p with
    uuid := normalizeIdentity ids p.uuid
    bannedIp := if p.hasBannedIp then ids.normalizeIp p.bannedIp else p.bannedIp }

end BannedPlayer

def putBan (players : List BannedPlayer) (player : BannedPlayer) : List BannedPlayer :=
  replaceOrPush (fun p => p.sameRestriction ids player) player players

def loadBans (players : List BannedPlayer) : List BannedPlayer :=
  players.foldl (fun acc player => putBan ids acc (player.normalize ids)) []

def loadMute (players : List MutedPlayer) (entry : MutedPlayer) : List MutedPlayer :=
  let player := { entry with uuid := normalizeIdentity ids entry.uuid }
  if player.uuid.isEmpty || !(player.voiceMuted || player.textMuted) then players
  else
    match players.find? fun p => p.uuid = player.uuid with
    | some existing =>
      let merged :=
        if (ids.parseUuid player.uuid).isSome then
          { existing with
            voiceMuted := existing.voiceMuted || player.voiceMuted
            textMuted := existing.textMuted || player.textMuted }
        else player
      replaceOrPush (fun p => p.uuid = player.uuid) merged players
    | none => players ++ [player]

def loadMutes (players : List MutedPlayer) : List MutedPlayer := players.foldl (loadMute ids) []

def loadLines (path legacy : Option Text) : List Text :=
  (readLineList (path.or legacy)).map (normalizeIdentity ids)

/-! ### Answers -/

namespace ModerationState

def isUuidBanned (s : ModerationState) (uuid : Text) : Bool :=
  s.bannedPlayers.any fun p => p.uuid = normalizeIdentity ids uuid

def isIpBanned (s : ModerationState) (ip : Text) : Bool :=
  s.bannedPlayers.any fun p => p.hasBannedIp && p.bannedIp = ids.normalizeIp ip

def isWhitelisted (s : ModerationState) (uuid : Text) : Bool :=
  s.whitelist.any fun p => p = normalizeIdentity ids uuid

def isBlacklisted (s : ModerationState) (uuid : Text) : Bool :=
  s.blacklist.any fun p => p = normalizeIdentity ids uuid

def muteState (s : ModerationState) (uuid : Text) : Bool × Bool :=
  ((s.mutedPlayers.find? fun p => p.uuid = normalizeIdentity ids uuid).map fun p =>
    (p.voiceMuted, p.textMuted)).getD (false, false)

/-- The same answer to every question. -/
def SameAnswers (s s' : ModerationState) : Prop :=
  ∀ identity, s.isUuidBanned ids identity = s'.isUuidBanned ids identity ∧
    s.isIpBanned ids identity = s'.isIpBanned ids identity ∧
    s.muteState ids identity = s'.muteState ids identity ∧
    s.isWhitelisted ids identity = s'.isWhitelisted ids identity ∧
    s.isBlacklisted ids identity = s'.isBlacklisted ids identity

end ModerationState

/-! ### Operations -/

/-- Write one file. -/
def write (f : ModerationFiles → ModerationFiles) : ListsM Unit :=
  .commit .io fun m => { m with files := f m.files }

/-- Write a file that is missing. -/
def writeMissing {α : Type} (get : ModerationFiles → Option α)
    (f : ModerationFiles → ModerationFiles) : ListsM Unit := do
  let content ← .view fun m => get m.files
  if content.isNone then write f else pure ()

def reload : ListsM Unit := do
  let bans ← .inspect .io fun m => m.files.bannedPlayers
  let mutes ← .inspect .io fun m => m.files.mutedPlayers
  let white ← .inspect .io fun m => (m.files.whitelist, m.files.legacyWhitelist)
  let black ← .inspect .io fun m => (m.files.blacklist, m.files.legacyBlacklist)
  let state : ModerationState :=
    ⟨loadBans ids (bans.getD []), loadMutes ids (mutes.getD []), loadLines ids white.1 white.2,
      loadLines ids black.1 black.2⟩
  writeMissing ModerationFiles.bannedPlayers fun files => { files with bannedPlayers := some [] }
  writeMissing ModerationFiles.mutedPlayers fun files => { files with mutedPlayers := some [] }
  writeMissing ModerationFiles.whitelist fun files =>
    { files with whitelist := some (writeLineList state.whitelist) }
  writeMissing ModerationFiles.blacklist fun files =>
    { files with blacklist := some (writeLineList state.blacklist) }
  .modify fun m => { m with state }

/-- `None` when nothing changes. -/
def changeBans (change : List BannedPlayer → Option (List BannedPlayer)) : ListsM Bool := do
  let players ← .view fun m => m.state.bannedPlayers
  match change players with
  | none => pure false
  | some players => do
    write fun files => { files with bannedPlayers := some players }
    .modify fun m => { m with state := { m.state with bannedPlayers := players } }
    pure true

def addBanWithDetails (uuid reason : Text) (bannedIp : Option Text) (now : Text) : ListsM Bool :=
  let uuid := normalizeIdentity ids uuid
  if isBlank uuid then pure false
  else
    let bannedIp := (bannedIp.map ids.normalizeIp).getD []
    let player : BannedPlayer := ⟨uuid, bannedIp, reason, !isBlank bannedIp, now⟩
    changeBans fun players => some (putBan ids players player)

/-- Take players out. -/
def removeBans (p : BannedPlayer → Bool) : ListsM Bool :=
  changeBans fun players =>
    let kept := players.filter fun player => !p player
    if kept.length = players.length then none else some kept

def removeBan (uuid : Text) : ListsM Bool := removeBans fun p => p.uuid = normalizeIdentity ids uuid

def addIpBan (ip now : Text) : ListsM Bool :=
  let ip := ids.normalizeIp ip
  if isBlank ip then pure false
  else addBanWithDetails ids ("ip-ban:".toList ++ ip) "IP banned".toList (some ip) now

def removeIpBan (ip : Text) : ListsM Bool :=
  removeBans fun p => p.hasBannedIp && p.bannedIp = ids.normalizeIp ip

/-- The mutes after one flag was set. -/
def muted (players : List MutedPlayer) (uuid : Text) (voice mute : Bool) (now : Text) :
    List MutedPlayer :=
  let players :=
    if players.any fun p => p.uuid = uuid then players else players ++ [⟨uuid, false, false, now⟩]
  let players := players.modify (players.findIdx fun p => p.uuid = uuid) fun p =>
    if voice then { p with voiceMuted := mute } else { p with textMuted := mute }
  players.filter fun p => p.voiceMuted || p.textMuted

def setMute (uuid : Text) (voice mute : Bool) (now : Text) : ListsM Bool :=
  if isBlank uuid then .fail .invalidUuid
  else do
    let players ← .view fun m => m.state.mutedPlayers
    let players := muted players (normalizeIdentity ids uuid) voice mute now
    write fun files => { files with mutedPlayers := some players }
    .modify fun m => { m with state := { m.state with mutedPlayers := players } }
    pure true

/-- The list after an identity was added or removed. -/
def changedList (values : List Text) (uuid : Text) (add : Bool) : List Text :=
  if add then if uuid ∈ values then values else values ++ [uuid]
  else values.filter fun p => p ≠ uuid

def changeList (uuid : Text) (whitelist add : Bool) : ListsM Bool :=
  if isBlank uuid then pure false
  else do
    let before ← .view fun m => if whitelist then m.state.whitelist else m.state.blacklist
    let values := changedList before (normalizeIdentity ids uuid) add
    if values = before then pure false
    else do
      write fun files =>
        if whitelist then { files with whitelist := some (writeLineList values) }
        else { files with blacklist := some (writeLineList values) }
      .modify fun m =>
        if whitelist then { m with state := { m.state with whitelist := values } }
        else { m with state := { m.state with blacklist := values } }
      pure true

inductive ModerationOp where
  | addBanWithDetails (uuid reason : Text) (bannedIp : Option Text) (now : Text)
  | addIpBan (ip now : Text)
  | removeBan (uuid : Text)
  | removeIpBan (ip : Text)
  | setVoiceMute (uuid : Text) (muted : Bool) (now : Text)
  | setTextMute (uuid : Text) (muted : Bool) (now : Text)
  | addWhitelist (uuid : Text)
  | removeWhitelist (uuid : Text)
  | addBlacklist (uuid : Text)
  | removeBlacklist (uuid : Text)
  | reload
  deriving DecidableEq

def ModerationOp.run : ModerationOp → ListsM Bool
  | .addBanWithDetails uuid reason bannedIp now =>
    Moderation.addBanWithDetails ids uuid reason bannedIp now
  | .addIpBan ip now => Moderation.addIpBan ids ip now
  | .removeBan uuid => Moderation.removeBan ids uuid
  | .removeIpBan ip => Moderation.removeIpBan ids ip
  | .setVoiceMute uuid muted now => setMute ids uuid true muted now
  | .setTextMute uuid muted now => setMute ids uuid false muted now
  | .addWhitelist uuid => changeList ids uuid true true
  | .removeWhitelist uuid => changeList ids uuid true false
  | .addBlacklist uuid => changeList ids uuid false true
  | .removeBlacklist uuid => changeList ids uuid false false
  | .reload => do
    Moderation.reload ids
    pure true

/-- `file_backed` on a directory: the lists it gives, if it succeeds. -/
def fileBacked (files : ModerationFiles) (faults : List Fault) : Option ModerationLists :=
  match reload ids ⟨.empty, files⟩ faults with
  | (.ok _, m, _) => some m
  | (.error _, _, _) => none

/-- Lists that were opened on any directory, and operations with a schedule of faults each. -/
def moderationSystem (files : ModerationFiles) :
    System ModerationLists (ModerationOp × List Fault) where
  init m := ∃ faults, fileBacked ids files faults = some m
  step m a := some (a.1.run ids m a.2).2.1

/-! ### The condition -/

/-- A line that is read back as it was written: no line feed in it, no white space around it and no
byte-order mark in front. -/
structure Plain (v : Text) : Prop where
  feed : lineFeed ∉ v
  trimmed : trim v = v
  bom : noBom v

instance (v : Text) : Decidable (Plain v) :=
  decidable_of_iff (lineFeed ∉ v ∧ trim v = v ∧ noBom v)
    ⟨fun h => ⟨h.1, h.2.1, h.2.2⟩, fun h => ⟨h.feed, h.trimmed, h.bom⟩⟩

/-- Every identity that is added to one of the line lists is a plain line. -/
def PlainAdds (_ : ModerationLists) : ModerationOp × List Fault → Prop
  | (.addWhitelist uuid, _) | (.addBlacklist uuid, _) =>
    isBlank uuid = true ∨ Plain (normalizeIdentity ids uuid)
  | _ => True

/-- No line of the two line files has a byte-order mark in front, but for the one the file begins
with. -/
def Readable (files : ModerationFiles) : Prop :=
  (∀ v ∈ readLineList (files.whitelist.or files.legacyWhitelist), noBom v) ∧
    ∀ v ∈ readLineList (files.blacklist.or files.legacyBlacklist), noBom v

end

end BasisRust.Moderation
