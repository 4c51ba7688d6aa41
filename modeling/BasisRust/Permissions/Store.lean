import BasisRust.Library.Markup
import BasisRust.Library.OrderedMap
import Mathlib.Data.Char
import Mathlib.Data.List.Lex

/-!
# The permission store

Users and groups with their permission nodes, and the history of the nodes that were given to a
group by default.  Identities keep the spelling of the operator and are compared without regard to
case.

Hash maps and hash sets are maps that keep their keys in order.  Where the code takes any key with a
property, the model takes the first one; `CaseDistinct` says that there is only one.

The upper case of a character is a parameter, of which only the letters of ASCII are known.
-/

namespace BasisRust.Permissions

open Library

/-! ### Case -/

/-- The full upper-case mapping of characters. -/
structure Casing where
  toUppercase : Char → List Char
  ascii : ∀ c : Char, c.toNat < 128 → toUppercase c = [c.toUpper]

/-- Upper case for texts of ASCII. -/
def asciiCasing : Casing := ⟨fun c => [c.toUpper], fun _ _ => rfl⟩

section

variable (casing : Casing)

def ordinalUpper (c : Char) : Char :=
  let n := c.toNat
  if n = 0x131 ∨ n = 0x17f then c
  else if (0x1f80 ≤ n ∧ n ≤ 0x1f87) ∨ (0x1f90 ≤ n ∧ n ≤ 0x1f97) ∨ (0x1fa0 ≤ n ∧ n ≤ 0x1fa7) then
    Char.ofNat (n + 8)
  else if n = 0x1fb3 then Char.ofNat 0x1fbc
  else if n = 0x1fc3 then Char.ofNat 0x1fcc
  else if n = 0x1ff3 then Char.ofNat 0x1ffc
  else
    match casing.toUppercase c with
    | [first] => first
    | _ => c

def ordinalIgnoreCaseKey (value : Text) : Text := value.map fun c => (ordinalUpper casing c).toLower

def isAscii (value : Text) : Bool := value.all fun c => c.toNat < 128

def ordinalIgnoreCaseEqual (left right : Text) : Bool :=
  if isAscii left && isAscii right then left.map Char.toLower = right.map Char.toLower
  else ordinalIgnoreCaseKey casing left = ordinalIgnoreCaseKey casing right

/-! ### Maps and sets -/

abbrev TextSet := OrderedMap Text Unit

def same (a b : Text) : Bool := ordinalIgnoreCaseEqual casing a b

/-- The spelling of a key in the map. -/
def key {α : Type} (map : OrderedMap Text α) (wanted : Text) : Option Text :=
  if (map.get wanted).isSome then some wanted else map.keys.find? fun k => same casing k wanted

def contains (set : TextSet) (value : Text) : Bool :=
  (set.get value).isSome || set.keys.any fun v => same casing v value

def insert (set : TextSet) (value : Text) : TextSet :=
  if contains casing set value then set else OrderedMap.insert set value ()

def remove (set : TextSet) (value : Text) : TextSet :=
  if (set.get value).isSome then set.erase value
  else
    match set.keys.find? fun v => same casing v value with
    | none => set
    | some k => set.erase k

/-- Change the entry of a key, if there is one. -/
def update {α : Type} (map : OrderedMap Text α) (k : Text) (f : α → α) : OrderedMap Text α :=
  match map.get k with
  | none => map
  | some x => map.insert k (f x)

end

/-! ### The store -/

structure PermissionUser where
  uuid : Text
  nodes : TextSet
  groups : TextSet
  deriving DecidableEq

structure PermissionGroup where
  name : Text
  nodes : TextSet
  parents : TextSet
  deriving DecidableEq

structure PermissionStore where
  users : OrderedMap Text PermissionUser
  groups : OrderedMap Text PermissionGroup
  seededDefaults : OrderedMap Text TextSet
  deriving DecidableEq

def PermissionStore.empty : PermissionStore :=
  ⟨OrderedMap.empty, OrderedMap.empty, OrderedMap.empty⟩

def defaultGroup : Text := "default".toList
def moderatorGroup : Text := "moderator".toList
def adminGroup : Text := "admin".toList

/-- `DEFAULT_GROUP_NODES`. -/
def defaultGroupNodes : List Text :=
  ["basis.command.help", "basis.resource.load.prop", "basis.resource.unload.prop",
    "basis.resource.load.avatar", "basis.resource.unload.avatar", "basis.resource.load.world",
    "basis.resource.unload.world", "basis.ownership.transfer", "basis.ownership.remove",
    "basis.ownership.get", "basis.contentshare.delete", "basis.contentshare.create",
    "basis.storage.use"].map String.toList

/-- `MODERATOR_GROUP_NODES`. -/
def moderatorGroupNodes : List Text :=
  ["basis.moderation", "basis.moderation.ban", "basis.moderation.kick", "basis.moderation.ipban",
    "basis.moderation.unban", "basis.moderation.unbanip", "basis.moderation.message",
    "basis.moderation.messageall", "basis.moderation.teleport", "basis.moderation.announce",
    "basis.moderation.globallock", "basis.moderation.headlessaudio", "basis.moderation.opusbitrate",
    "basis.moderation.fullqualitybroadcast", "basis.moderation.forceavatar",
    "basis.moderation.locomotion", "basis.moderation.mute", "basis.moderation.rename",
    "basis.permissions.view", "basis.resource.lockbypass.avatar", "basis.resource.lockbypass.prop",
    "basis.resource.lockbypass.world", "basis.resource.lockbypass.server", "basis.chat.lockbypass",
    "basis.voice.lockbypass"].map String.toList

/-- `LEGACY_DEFAULT_GROUP_NODES`. -/
def legacyDefaultGroupNodes : List Text :=
  ["basis.command.help", "basis.resource.load.prop", "basis.resource.unload.prop",
    "basis.resource.load.avatar", "basis.resource.unload.avatar", "basis.resource.load.world",
    "basis.resource.unload.world", "basis.ownership.transfer", "basis.ownership.remove",
    "basis.ownership.get", "basis.contentshare.delete",
    "basis.contentshare.create"].map String.toList

/-- `LEGACY_MODERATOR_GROUP_NODES`. -/
def legacyModeratorGroupNodes : List Text :=
  ["basis.moderation.ban", "basis.moderation.kick", "basis.moderation.ipban",
    "basis.moderation.unban", "basis.moderation.unbanip", "basis.moderation.message",
    "basis.moderation.messageall", "basis.moderation.teleport", "basis.moderation.announce",
    "basis.moderation.globallock", "basis.moderation.headlessaudio", "basis.moderation.opusbitrate",
    "basis.permissions.view", "basis.resource.lockbypass.avatar", "basis.resource.lockbypass.prop",
    "basis.resource.lockbypass.world", "basis.resource.lockbypass.server"].map String.toList

/-- `nodes::ALL`. -/
def allNodes : List Text := ["*".toList]

def moderationAnnounce : Text := "basis.moderation.announce".toList
def moderationShout : Text := "basis.moderation.shout".toList

section

variable (casing : Casing)

/-! ### Operations -/

/-- Change a user, who is made if there is none. -/
def userMut (store : PermissionStore) (uuid : Text) (f : PermissionUser → PermissionUser) :
    PermissionStore :=
  let k := (key casing store.users uuid).getD uuid
  let user := (store.users.get k).getD
    ⟨uuid, OrderedMap.empty, OrderedMap.empty.insert defaultGroup ()⟩
  { store with users := store.users.insert k (f user) }

/-- Change a group, which is made if there is none. -/
def groupMut (store : PermissionStore) (name : Text) (f : PermissionGroup → PermissionGroup) :
    PermissionStore :=
  let k := (key casing store.groups name).getD name
  let group := (store.groups.get k).getD ⟨name, OrderedMap.empty, OrderedMap.empty⟩
  { store with groups := store.groups.insert k (f group) }

/-- Give a node to a group, unless it was given before or is denied. -/
def seedNode (acc : TextSet × PermissionGroup) (node : Text) : TextSet × PermissionGroup :=
  if contains casing acc.1 node then acc
  else
    (insert casing acc.1 node,
      if contains casing acc.2.nodes ('-' :: node) then acc.2
      else { acc.2 with nodes := insert casing acc.2.nodes node })

def seedGroup (store : PermissionStore) (name : Text) (parent : Option Text) (nodes : List Text) :
    PermissionStore :=
  let seededKey := (key casing store.seededDefaults name).getD name
  let seeded := (store.seededDefaults.get seededKey).getD OrderedMap.empty
  let groupKey := (key casing store.groups name).getD name
  let start : TextSet × PermissionGroup :=
    match store.groups.get groupKey with
    | some group => (seeded, group)
    | none =>
      (OrderedMap.empty, ⟨name, OrderedMap.empty,
        parent.elim OrderedMap.empty fun p => OrderedMap.empty.insert p ()⟩)
  let done := nodes.foldl (seedNode casing) start
  { store with
    groups := store.groups.insert groupKey done.2
    seededDefaults := store.seededDefaults.insert seededKey done.1 }

def seedLegacyGroup (store : PermissionStore) (name : Text) (parent : Option Text)
    (nodes legacyNodes : List Text) : PermissionStore :=
  if (key casing store.groups name).isNone then seedGroup casing store name parent nodes
  else
    let history :=
      if (key casing store.seededDefaults name).isNone then
        { store with
          seededDefaults := store.seededDefaults.insert name
            (legacyNodes.foldl (insert casing) OrderedMap.empty) }
      else store
    seedGroup casing history name parent nodes

def ensureDefaults (store : PermissionStore) : PermissionStore :=
  let store :=
    seedLegacyGroup casing store defaultGroup none defaultGroupNodes legacyDefaultGroupNodes
  let store := seedLegacyGroup casing store moderatorGroup (some defaultGroup) moderatorGroupNodes
    legacyModeratorGroupNodes
  seedLegacyGroup casing store adminGroup (some moderatorGroup) allNodes allNodes

def getOrCreateUser (store : PermissionStore) (uuid : Text) : PermissionStore :=
  if isBlank uuid then store else userMut casing store uuid id

def addUserNode (store : PermissionStore) (uuid node : Text) : PermissionStore :=
  if isBlank uuid || isBlank node then store
  else userMut casing store uuid fun u => { u with nodes := insert casing u.nodes (trim node) }

def removeUserNode (store : PermissionStore) (uuid node : Text) : PermissionStore :=
  match key casing store.users uuid with
  | none => store
  | some k =>
    { store with users := update store.users k fun u =>
        { u with nodes := remove casing u.nodes (trim node) } }

def addUserToGroup (store : PermissionStore) (uuid group : Text) : PermissionStore :=
  if isBlank uuid || isBlank group then store
  else userMut casing store uuid fun u => { u with groups := insert casing u.groups (trim group) }

def removeUserFromGroup (store : PermissionStore) (uuid group : Text) : PermissionStore :=
  match key casing store.users uuid with
  | none => store
  | some k =>
    { store with users := update store.users k fun u =>
        { u with groups := remove casing u.groups (trim group) } }

def getOrCreateGroup (store : PermissionStore) (group : Text) : PermissionStore :=
  if isBlank group then store else groupMut casing store (trim group) id

def addGroupNode (store : PermissionStore) (group node : Text) : PermissionStore :=
  if isBlank group || isBlank node then store
  else groupMut casing store (trim group) fun g =>
    { g with nodes := insert casing g.nodes (trim node) }

def removeGroupNode (store : PermissionStore) (group node : Text) : PermissionStore :=
  match key casing store.groups (trim group) with
  | none => store
  | some k =>
    { store with groups := update store.groups k fun g =>
        { g with nodes := remove casing g.nodes (trim node) } }

def addGroupParent (store : PermissionStore) (group parent : Text) : PermissionStore :=
  if isBlank group || isBlank parent then store
  else groupMut casing store (trim group) fun g =>
    { g with parents := insert casing g.parents (trim parent) }

def removeGroupParent (store : PermissionStore) (group parent : Text) : PermissionStore :=
  match key casing store.groups (trim group) with
  | none => store
  | some k =>
    { store with groups := update store.groups k fun g =>
        { g with parents := remove casing g.parents (trim parent) } }

def deleteGroup (store : PermissionStore) (group : Text) : PermissionStore :=
  match key casing store.groups (trim group) with
  | none => store
  | some k =>
    { store with
      groups := (store.groups.erase k).mapValues fun g =>
        { g with parents := remove casing g.parents k }
      users := store.users.mapValues fun u => { u with groups := remove casing u.groups k } }

end

end BasisRust.Permissions
