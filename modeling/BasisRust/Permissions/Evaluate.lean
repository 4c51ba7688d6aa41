import BasisRust.Permissions.Store

/-!
# The evaluation of permissions

`has` collects the decisions of the groups of a user, and of their parents, then those of the user,
and looks a node up in them; `is_in_group` walks through the same groups.  A deny is never replaced.

Where the code iterates over a hash map or a hash set, the order is a parameter, fixed for each of
them. The two walks call themselves for every parent; the fuel bounds how deep.  The visited keys
are a list.
-/

namespace BasisRust.Permissions

open Library

/-- The orders in which the hash tables of a store are iterated; sets by the key of their owner. -/
structure HashOrder where
  users : List Text
  groups : List Text
  userNodes : Text → List Text
  userGroups : Text → List Text
  groupNodes : Text → List Text
  groupParents : Text → List Text

structure HashOrder.Of (order : HashOrder) (store : PermissionStore) : Prop where
  users : order.users.Perm store.users.keys
  groups : order.groups.Perm store.groups.keys
  userNodes : ∀ k u, store.users.get k = some u → (order.userNodes k).Perm u.nodes.keys
  userGroups : ∀ k u, store.users.get k = some u → (order.userGroups k).Perm u.groups.keys
  groupNodes : ∀ k g, store.groups.get k = some g → (order.groupNodes k).Perm g.nodes.keys
  groupParents : ∀ k g, store.groups.get k = some g → (order.groupParents k).Perm g.parents.keys

/-- The order of the model's own maps and sets. -/
def HashOrder.sorted (store : PermissionStore) : HashOrder where
  users := store.users.keys
  groups := store.groups.keys
  userNodes k := ((store.users.get k).map fun u => u.nodes.keys).getD []
  userGroups k := ((store.users.get k).map fun u => u.groups.keys).getD []
  groupNodes k := ((store.groups.get k).map fun g => g.nodes.keys).getD []
  groupParents k := ((store.groups.get k).map fun g => g.parents.keys).getD []

theorem HashOrder.sorted_of (store : PermissionStore) : (HashOrder.sorted store).Of store where
  users := .refl _
  groups := .refl _
  userNodes k u h := .of_eq (by simp [sorted, h])
  userGroups k u h := .of_eq (by simp [sorted, h])
  groupNodes k g h := .of_eq (by simp [sorted, h])
  groupParents k g h := .of_eq (by simp [sorted, h])

section

variable (casing : Casing)

/-- `key`, with the order in which the keys are looked through. -/
def findKey {α : Type} (keys : List Text) (map : OrderedMap Text α) (wanted : Text) : Option Text :=
  if (map.get wanted).isSome then some wanted else keys.find? fun k => same casing k wanted

/-! ### Decisions -/

/-- The node of a raw node, and whether it allows; none for a blank one. -/
def rawNode (raw : Text) : Option (Text × Bool) :=
  let (node, allow) :=
    match trim raw with
    | '-' :: rest => (trim rest, false)
    | raw => (raw, true)
  if node.isEmpty then none else some (ordinalIgnoreCaseKey casing node, allow)

def applyRawNode (decisions : OrderedMap Text Bool) (raw : Text) : OrderedMap Text Bool :=
  match rawNode casing raw with
  | none => decisions
  | some (node, allow) =>
    if decisions.get node = some false then decisions else decisions.insert node allow

def applyRawNodes (rawNodes : List Text) (decisions : OrderedMap Text Bool) :
    OrderedMap Text Bool :=
  rawNodes.foldl (applyRawNode casing) decisions

/-- `prefix.*`. -/
def wildcard (stem : Text) : Text := stem ++ ".*".toList

/-- `nodes::ALL`. -/
def allNode : Text := "*".toList

/-- The loop of `check_node`, on the reversed `current`: `rsplit_once` drops everything from the
last dot on. -/
def checkWildcards (decisions : OrderedMap Text Bool) : Text → Bool
  | [] => (decisions.get allNode).getD false
  | c :: rest =>
    if c = '.' then
      match decisions.get (wildcard rest.reverse) with
      | some value => value
      | none => checkWildcards decisions rest
    else checkWildcards decisions rest

def checkNode (decisions : OrderedMap Text Bool) (node : Text) : Bool :=
  let node := ordinalIgnoreCaseKey casing (trim node)
  if node.isEmpty then false
  else
    match decisions.get node with
    | some value => value
    | none => checkWildcards decisions node.reverse

/-! ### Walks -/

variable (store : PermissionStore) (order : HashOrder)

def applyGroup : ℕ → Text → List Text × OrderedMap Text Bool →
    Option (List Text × OrderedMap Text Bool)
  | 0, _, _ => none
  | fuel + 1, name, (visited, decisions) =>
    let k := ordinalIgnoreCaseKey casing name
    if k ∈ visited then some (visited, decisions)
    else
      match findKey casing order.groups store.groups name with
      | none => some (k :: visited, decisions)
      | some group =>
        ((order.groupParents group).foldlM (fun st parent => applyGroup fuel parent st)
            (k :: visited, decisions)).map fun (visited, decisions) =>
          (visited, applyRawNodes casing (order.groupNodes group) decisions)

/-- `any`, for walks that share their visited keys. -/
def anyGroup (inherits : Text → List Text → Option (Bool × List Text)) :
    List Text → List Text → Option (Bool × List Text)
  | [], visited => some (false, visited)
  | name :: names, visited =>
    match inherits name visited with
    | some (false, visited) => anyGroup inherits names visited
    | r => r

def inheritsGroup (target : Text) : ℕ → Text → List Text → Option (Bool × List Text)
  | 0, _, _ => none
  | fuel + 1, name, visited =>
    let k := ordinalIgnoreCaseKey casing name
    if same casing name target then some (true, visited)
    else if k ∈ visited then some (false, visited)
    else
      match findKey casing order.groups store.groups name with
      | none => some (false, k :: visited)
      | some group => anyGroup (inheritsGroup target fuel) (order.groupParents group) (k :: visited)

/-! ### Queries -/

def effectiveDecisions (fuel : ℕ) (uuid : Text) : Option (OrderedMap Text Bool) :=
  match findKey casing order.users store.users uuid with
  | some k =>
    ((order.userGroups k).foldlM (fun st group => applyGroup casing store order fuel group st)
        ([], OrderedMap.empty)).map fun (_, decisions) =>
      applyRawNodes casing (order.userNodes k) decisions
  | none => (applyGroup casing store order fuel defaultGroup ([], OrderedMap.empty)).map Prod.snd

def has (fuel : ℕ) (uuid node : Text) : Option Bool :=
  (effectiveDecisions casing store order fuel uuid).map fun decisions =>
    checkNode casing decisions node

def isInGroup (fuel : ℕ) (uuid group : Text) : Option Bool :=
  if isBlank uuid || isBlank group then some false
  else
    match findKey casing order.users store.users uuid with
    | some k =>
      (anyGroup (inheritsGroup casing store order (trim group) fuel) (order.userGroups k) []).map
        Prod.fst
    | none => (inheritsGroup casing store order (trim group) fuel defaultGroup []).map Prod.fst

end

end BasisRust.Permissions
