import BasisRust.Library.Run
import BasisRust.Permissions.Store
import Mathlib.Data.List.Sort

/-!
# The permission file

`parsePermissions` reads the events of the XML reader one by one, with the open elements on a stack.
`savePermissions` writes the text.  The reader of XML and the decoder of attribute values are
parameters: a well-formed document gives the events that were written, and a value that was escaped
is decoded.
-/

namespace BasisRust.Permissions

open Library

/-! ### Escaping -/

/-- `str::replace` of a character. -/
def replaceChar (c : Char) (t : String) (s : Text) : Text :=
  s.flatMap fun d => if d = c then t.toList else [d]

def escape (value : Text) : Text :=
  replaceChar '\t' "&#9;"
    (replaceChar '\n' "&#10;" (replaceChar '\r' "&#13;" (replaceChar '>' "&gt;"
    (replaceChar '<' "&lt;" (replaceChar '"' "&quot;" (replaceChar '&' "&amp;" value))))))

/-- The XML library. -/
structure XmlReader where
  readEvents : Text → Option (List XmlEvent)
  decodeValue : Text → Option Text
  reads : ∀ doc, Markup.WellFormed doc → ∃ events,
    readEvents (doc.flatMap Markup.render) = some events ∧
    events.filter (fun e => !e.isSpace) = doc.filterMap Markup.event
  decodes : ∀ v, decodeValue (escape v) = some v

/-! ### Reading -/

inductive Tag where
  | permissions
  | groups
  | users
  | seededDefaults
  | group
  | user
  | parent
  | node
  | other (name : Text)
  deriving DecidableEq

def Tag.name : Tag → Text
  | .permissions => "Permissions".toList
  | .groups => "Groups".toList
  | .users => "Users".toList
  | .seededDefaults => "SeededDefaults".toList
  | .group => "Group".toList
  | .user => "User".toList
  | .parent => "Parent".toList
  | .node => "Node".toList
  | .other name => name

def Tag.ofName (name : Text) : Tag :=
  if name = "Permissions".toList then .permissions
  else if name = "Groups".toList then .groups
  else if name = "Users".toList then .users
  else if name = "SeededDefaults".toList then .seededDefaults
  else if name = "Group".toList then .group
  else if name = "User".toList then .user
  else if name = "Parent".toList then .parent
  else if name = "Node".toList then .node
  else .other name

inductive ParseError where
  | invalidXmlCharacter
  | reader
  | unexpectedClosingElement
  | mismatchedClosingElement
  | unexpectedText
  | dtdIsProhibited
  | unexpectedContent
  | unexpectedXmlDeclaration
  | missingOrIncompleteRoot
  | unescapedLess
  | malformedAttribute
  | isMissing (tag : Tag) (attrib : Text)
  | hasEmpty (tag : Tag) (attrib : Text)
  | multipleXmlRoots
  | missingIdentity
  | missingOwner
  | nodeOutsideGroupOrUser
  | unexpectedElement (tag : Tag) (parent : Option Tag)
  deriving DecidableEq

structure Frame where
  tag : Tag
  identity : Option Text
  deriving DecidableEq

/-- What the loop of `parse_permissions` keeps; the innermost open element comes first. -/
structure ParseState where
  seenDeclaration : Bool
  store : PermissionStore
  stack : List Frame
  seenRoot : Bool

def isXmlChar (c : Char) : Bool :=
  let n := c.toNat
  n = 0x9 || n = 0xa || n = 0xd || (0x20 ≤ n && n ≤ 0xd7ff) || (0xe000 ≤ n && n ≤ 0xfffd) ||
    (0x10000 ≤ n && n ≤ 0x10ffff)

section

variable (casing : Casing) (reader : XmlReader)

def migrate (node : Text) : Text :=
  if same casing node moderationShout then moderationAnnounce
  else if same casing node ('-' :: moderationShout) then '-' :: moderationAnnounce
  else node

/-- The attributes of an element; the last one comes first. -/
def readAttributes : List (Option XmlAttribute) → List (Text × Text) →
    Except ParseError (List (Text × Text))
  | [], acc => .ok acc
  | none :: _, _ => .error .malformedAttribute
  | some a :: rest, acc =>
    if '<' ∈ a.raw then .error .unescapedLess
    else
      match reader.decodeValue a.raw with
      | none => .error .malformedAttribute
      | some value => readAttributes rest ((a.key, value) :: acc)

/-- The closure `attr`. -/
def readAttribute (tag : Tag) (attribs : List (Text × Text)) (name : Text) :
    Except ParseError Text :=
  match assocGet name attribs with
  | none => .error (.isMissing tag name)
  | some value => if isBlank value then .error (.hasEmpty tag name) else .ok value

def nameAttribute : Text := "name".toList
def uuidAttribute : Text := "uuid".toList
def valueAttribute : Text := "value".toList

/-- The entry of a key that is read anew: an entry with the same key goes. -/
def replaceEntry {α : Type} (map : OrderedMap Text α) (name : Text) (x : α) : OrderedMap Text α :=
  ((key casing map name).elim map map.erase).insert name x

/-- The key of the element on top of the stack. -/
def ownerKey (owner : Option Frame) : Except ParseError Text :=
  match owner.bind Frame.identity with
  | none => .error .missingIdentity
  | some k => .ok k

/-- Change the entry of the element on top of the stack. -/
def updateOwner {α : Type} (map : OrderedMap Text α) (k : Text) (f : α → α) :
    Except ParseError (OrderedMap Text α) :=
  if (map.get k).isSome then .ok (update map k f) else .error .missingOwner

/-- Put a node into the set of its owner. -/
def insertNode (store : PermissionStore) (inside : Option Tag) (k node : Text) :
    Except ParseError PermissionStore :=
  match inside with
  | some .groups => do
    let groups ← updateOwner store.groups k fun g => { g with nodes := insert casing g.nodes node }
    .ok { store with groups }
  | some .users => do
    let users ← updateOwner store.users k fun u => { u with nodes := insert casing u.nodes node }
    .ok { store with users }
  | some .seededDefaults => do
    let seededDefaults ← updateOwner store.seededDefaults k fun s => insert casing s node
    .ok { store with seededDefaults }
  | _ => .error .nodeOutsideGroupOrUser

def startElement (tag : Tag) (attributes : List (Option XmlAttribute)) (st : ParseState) :
    Except ParseError (Frame × ParseState) := do
  let attribs ← readAttributes reader attributes []
  let attr := readAttribute tag attribs
  let store := st.store
  let owner := st.stack.head?
  let inside := (st.stack.reverse[1]?).map Frame.tag
  match owner.map Frame.tag, tag with
  | none, .permissions =>
    if st.seenRoot then .error .multipleXmlRoots
    else .ok (⟨tag, none⟩, { st with seenRoot := true })
  | some .permissions, .groups | some .permissions, .users | some .permissions, .seededDefaults =>
    .ok (⟨tag, none⟩, st)
  | some .groups, .group => do
    let name ← attr nameAttribute
    let groups := replaceEntry casing store.groups name ⟨name, OrderedMap.empty, OrderedMap.empty⟩
    .ok (⟨tag, some name⟩, { st with store := { store with groups } })
  | some .users, .user => do
    let uuid ← attr uuidAttribute
    let users := replaceEntry casing store.users uuid ⟨uuid, OrderedMap.empty, OrderedMap.empty⟩
    .ok (⟨tag, some uuid⟩, { st with store := { store with users } })
  | some .seededDefaults, .group => do
    let name ← attr nameAttribute
    let k := (key casing store.seededDefaults name).getD name
    let seeded := (store.seededDefaults.get k).getD OrderedMap.empty
    let seededDefaults := store.seededDefaults.insert k seeded
    .ok (⟨tag, some k⟩, { st with store := { store with seededDefaults } })
  | some .user, .group =>
    if inside = some .users then do
      let k ← ownerKey owner
      let name ← attr nameAttribute
      let users ← updateOwner store.users k fun u =>
        { u with groups := insert casing u.groups (trim name) }
      .ok (⟨tag, none⟩, { st with store := { store with users } })
    else .error (.unexpectedElement tag (some .user))
  | some .group, .parent =>
    if inside = some .groups then do
      let k ← ownerKey owner
      let name ← attr nameAttribute
      let groups ← updateOwner store.groups k fun g =>
        { g with parents := insert casing g.parents (trim name) }
      .ok (⟨tag, none⟩, { st with store := { store with groups } })
    else .error (.unexpectedElement tag (some .group))
  | some .group, .node | some .user, .node => do
    let k ← ownerKey owner
    let value ← attr valueAttribute
    let store ← insertNode casing store inside k (migrate casing (trim value))
    .ok (⟨tag, none⟩, { st with store })
  | parent, tag => .error (.unexpectedElement tag parent)

def readEvent (st : ParseState) (event : XmlEvent) : Except ParseError ParseState :=
  match event with
  | .start name attributes => do
    let (frame, st) ← startElement casing reader (Tag.ofName name) attributes st
    .ok { st with stack := frame :: st.stack }
  | .empty name attributes => do
    let (_, st) ← startElement casing reader (Tag.ofName name) attributes st
    .ok st
  | .stop name =>
    match st.stack with
    | [] => .error .unexpectedClosingElement
    | frame :: stack =>
      if Tag.ofName name = frame.tag then .ok { st with stack }
      else .error .mismatchedClosingElement
  | .text content => if isBlank content then .ok st else .error .unexpectedText
  | .docType => .error .dtdIsProhibited
  | .cData | .generalRef => .error .unexpectedContent
  | .decl =>
    if !st.seenRoot && !st.seenDeclaration && st.stack.isEmpty then
      .ok { st with seenDeclaration := true }
    else .error .unexpectedXmlDeclaration
  | .comment | .processing => .ok st

def readAll (st : ParseState) (events : List XmlEvent) : Except ParseError ParseState :=
  events.foldlM (readEvent casing reader) st

def parsePermissions (text : Text) : Except ParseError PermissionStore :=
  if !text.all isXmlChar then .error .invalidXmlCharacter
  else
    match reader.readEvents text with
    | none => .error .reader
    | some events => do
      let st ← readAll casing reader ⟨false, .empty, [], false⟩ events
      if st.seenRoot && st.stack.isEmpty then .ok st.store else .error .missingOrIncompleteRoot

/-- `load_permissions`: a file that does not exist gives an empty store. -/
def loadPermissions (file : Option Text) : Except ParseError PermissionStore :=
  match file with
  | none => .ok .empty
  | some text => parsePermissions casing reader (text.dropWhile fun c => c = byteOrderMark)

end

/-! ### Writing -/

/-- A text that starts a line, and the line feed after it. -/
def line (indent : String) (m : Markup) : List Markup := [.space indent.toList, m, .space ['\n']]

def writeSet (tag : Tag) (attrib : Text) (set : TextSet) : List Markup :=
  set.keys.flatMap fun value => line "      " (.empty tag.name ⟨attrib, escape value⟩)

/-- An element with its name and its content in lines of their own. -/
def writeElement (tag : Tag) (attrib name : Text) (content : List Markup) : List Markup :=
  line "    " (.start tag.name (some ⟨attrib, escape name⟩)) ++ content ++
    line "    " (.stop tag.name)

def writeSection (tag : Tag) (content : List Markup) : List Markup :=
  line "  " (.start tag.name none) ++ content ++ line "  " (.stop tag.name)

def writeGroup (group : PermissionGroup) : List Markup :=
  writeElement .group nameAttribute group.name
    (writeSet .parent nameAttribute group.parents ++ writeSet .node valueAttribute group.nodes)

def writeUser (user : PermissionUser) : List Markup :=
  writeElement .user uuidAttribute user.uuid
    (writeSet .group nameAttribute user.groups ++ writeSet .node valueAttribute user.nodes)

def writeSeeded (seeded : Text × TextSet) : List Markup :=
  writeElement .group nameAttribute seeded.1 (writeSet .node valueAttribute seeded.2)

/-- The document; groups and users are sorted by their own names. -/
def permissionsDocument (store : PermissionStore) : List Markup :=
  let groups := (store.groups.entries.map Prod.snd).insertionSort fun a b => a.name ≤ b.name
  let users := (store.users.entries.map Prod.snd).insertionSort fun a b => a.uuid ≤ b.uuid
  [.decl, .space ['\n'], .start Tag.permissions.name none, .space ['\n']] ++
    (writeSection .groups (groups.flatMap writeGroup) ++
      writeSection .users (users.flatMap writeUser) ++
      writeSection .seededDefaults (store.seededDefaults.entries.flatMap writeSeeded)) ++
    [.stop Tag.permissions.name, .space ['\n']]

/-- The text `save_permissions` writes. -/
def savePermissions (store : PermissionStore) : Text :=
  (permissionsDocument store).flatMap Markup.render

/-! ### Runs -/

inductive PermissionOp where
  | ensureDefaults
  | getOrCreateUser (uuid : Text)
  | addUserNode (uuid node : Text)
  | removeUserNode (uuid node : Text)
  | addUserToGroup (uuid group : Text)
  | removeUserFromGroup (uuid group : Text)
  | getOrCreateGroup (group : Text)
  | addGroupNode (group node : Text)
  | removeGroupNode (group node : Text)
  | addGroupParent (group parent : Text)
  | removeGroupParent (group parent : Text)
  | deleteGroup (group : Text)
  | loadFromXml (file : Option Text)
  deriving DecidableEq

section

variable (casing : Casing) (reader : XmlReader)

def PermissionOp.run (store : PermissionStore) : PermissionOp → PermissionStore
  | .ensureDefaults => Permissions.ensureDefaults casing store
  | .getOrCreateUser uuid => Permissions.getOrCreateUser casing store uuid
  | .addUserNode uuid node => Permissions.addUserNode casing store uuid node
  | .removeUserNode uuid node => Permissions.removeUserNode casing store uuid node
  | .addUserToGroup uuid group => Permissions.addUserToGroup casing store uuid group
  | .removeUserFromGroup uuid group => Permissions.removeUserFromGroup casing store uuid group
  | .getOrCreateGroup group => Permissions.getOrCreateGroup casing store group
  | .addGroupNode group node => Permissions.addGroupNode casing store group node
  | .removeGroupNode group node => Permissions.removeGroupNode casing store group node
  | .addGroupParent group parent => Permissions.addGroupParent casing store group parent
  | .removeGroupParent group parent => Permissions.removeGroupParent casing store group parent
  | .deleteGroup group => Permissions.deleteGroup casing store group
  | .loadFromXml file =>
    match loadPermissions casing reader file with
    | .ok loaded => loaded
    | .error _ => store

/-- A store that begins empty, and the operations on it. -/
def permissionSystem : System PermissionStore PermissionOp where
  init store := store = .empty
  step store op := some (op.run casing reader store)

end

end BasisRust.Permissions
