import BasisRust.Permissions.RoundTrip

/-!
# Seeding

What `ensure_defaults` reports: whether it has changed the store, which is what makes the manager
save it and tell the players.  `ensureDefaultsReport_snd` says that the store is the one of
`ensureDefaults`.

The last section is a store that is edited, saved and loaded again after its defaults were seeded.
Saves are kept, so that any of them can be loaded.
-/

namespace BasisRust.Permissions

open Library

/-- A group that `ensure_defaults` seeds. -/
structure Builtin where
  name : Text
  parent : Option Text
  nodes : List Text
  legacyNodes : List Text

def builtins : List Builtin :=
  [⟨defaultGroup, none, defaultGroupNodes, legacyDefaultGroupNodes⟩,
    ⟨moderatorGroup, some defaultGroup, moderatorGroupNodes, legacyModeratorGroupNodes⟩,
    ⟨adminGroup, some moderatorGroup, allNodes, allNodes⟩]

section

variable (casing : Casing)

/-- Whether `insert` has put the value in. -/
def insertReport (set : TextSet) (value : Text) : Bool × TextSet :=
  if contains casing set value then (false, set) else (true, OrderedMap.insert set value ())

def seedNodeReport (acc : Bool × TextSet × PermissionGroup) (node : Text) :
    Bool × TextSet × PermissionGroup :=
  match insertReport casing acc.2.1 node with
  | (false, seeded) => (acc.1, seeded, acc.2.2)
  | (true, seeded) =>
    (true, seeded,
      if contains casing acc.2.2.nodes ('-' :: node) then acc.2.2
      else { acc.2.2 with nodes := (insertReport casing acc.2.2.nodes node).2 })

def seedGroupReport (store : PermissionStore) (name : Text) (parent : Option Text)
    (nodes : List Text) : Bool × PermissionStore :=
  let seededKey := (key casing store.seededDefaults name).getD name
  let changed := (store.seededDefaults.get seededKey).isNone
  let seeded := (store.seededDefaults.get seededKey).getD OrderedMap.empty
  let groupKey := (key casing store.groups name).getD name
  let start : Bool × TextSet × PermissionGroup :=
    match store.groups.get groupKey with
    | some group => (changed, seeded, group)
    | none =>
      (true, OrderedMap.empty, ⟨name, OrderedMap.empty,
        parent.elim OrderedMap.empty fun p => OrderedMap.empty.insert p ()⟩)
  let done := nodes.foldl (seedNodeReport casing) start
  (done.1, { store with
    groups := store.groups.insert groupKey done.2.2
    seededDefaults := store.seededDefaults.insert seededKey done.2.1 })

/-- A history of the legacy nodes, and whether any was new. -/
def legacyHistory (legacyNodes : List Text) : Bool × TextSet :=
  legacyNodes.foldl (fun acc node =>
    let (new, seeded) := insertReport casing acc.2 node
    (acc.1 || new, seeded)) (false, OrderedMap.empty)

def seedLegacyGroupReport (store : PermissionStore) (name : Text) (parent : Option Text)
    (nodes legacyNodes : List Text) : Bool × PermissionStore :=
  if (key casing store.groups name).isNone then seedGroupReport casing store name parent nodes
  else
    let (historyAdded, store) :=
      if (key casing store.seededDefaults name).isNone then
        ((legacyHistory casing legacyNodes).1,
          { store with
            seededDefaults :=
              store.seededDefaults.insert name (legacyHistory casing legacyNodes).2 })
      else (false, store)
    let (changed, store) := seedGroupReport casing store name parent nodes
    (changed || historyAdded, store)

/-- `ensure_defaults`, with what it returns to `mutate`. -/
def ensureDefaultsReport (store : PermissionStore) : Bool × PermissionStore :=
  let (changed₁, store) := seedLegacyGroupReport casing store defaultGroup none defaultGroupNodes
    legacyDefaultGroupNodes
  let (changed₂, store) := seedLegacyGroupReport casing store moderatorGroup (some defaultGroup)
    moderatorGroupNodes legacyModeratorGroupNodes
  let (changed₃, store) := seedLegacyGroupReport casing store adminGroup (some moderatorGroup)
    allNodes allNodes
  (changed₁ || changed₂ || changed₃, store)

/-- `seed_legacy_group` for a group of the list. -/
def seedBuiltin (store : PermissionStore) (b : Builtin) : PermissionStore :=
  seedLegacyGroup casing store b.name b.parent b.nodes b.legacyNodes

end

/-! ### The report and the store -/

section

variable {casing : Casing}

theorem insertReport_snd (set : TextSet) (value : Text) :
    (insertReport casing set value).2 = insert casing set value := by
  rw [insertReport, insert]
  split_ifs <;> rfl

theorem seedNodeReport_snd (acc : Bool × TextSet × PermissionGroup) (node : Text) :
    (seedNodeReport casing acc node).2 = seedNode casing acc.2 node := by
  rw [seedNodeReport, insertReport, seedNode]
  by_cases hseeded : contains casing acc.2.1 node = true
  · rw [if_pos hseeded, if_pos hseeded]
  · rw [if_neg hseeded, if_neg hseeded]
    have hnew : insert casing acc.2.1 node = OrderedMap.insert acc.2.1 node () := by
      rw [insert, if_neg hseeded]
    dsimp only
    rw [insertReport_snd, hnew]

theorem foldl_seedNodeReport_snd (nodes : List Text) (acc : Bool × TextSet × PermissionGroup) :
    (nodes.foldl (seedNodeReport casing) acc).2 = nodes.foldl (seedNode casing) acc.2 := by
  induction nodes generalizing acc with
  | nil => rfl
  | cons node nodes ih => rw [List.foldl_cons, List.foldl_cons, ih, seedNodeReport_snd]

theorem seedGroupReport_snd (store : PermissionStore) (name : Text) (parent : Option Text)
    (nodes : List Text) :
    (seedGroupReport casing store name parent nodes).2 =
      seedGroup casing store name parent nodes := by
  rw [seedGroupReport, seedGroup]
  dsimp only
  rw [foldl_seedNodeReport_snd]
  cases store.groups.get ((key casing store.groups name).getD name) <;> rfl

theorem legacyHistory_snd (legacyNodes : List Text) :
    (legacyHistory casing legacyNodes).2 = legacyNodes.foldl (insert casing) OrderedMap.empty := by
  have hfold : ∀ (l : List Text) (acc : Bool × TextSet),
      (l.foldl (fun acc node =>
        let (new, seeded) := insertReport casing acc.2 node
        (acc.1 || new, seeded)) acc).2 = l.foldl (insert casing) acc.2 := by
    intro l
    induction l with
    | nil => exact fun _ => rfl
    | cons node l ih =>
      intro acc
      rw [List.foldl_cons, List.foldl_cons, ih, ← insertReport_snd]
  exact hfold legacyNodes _

theorem seedLegacyGroupReport_snd (store : PermissionStore) (name : Text) (parent : Option Text)
    (nodes legacyNodes : List Text) :
    (seedLegacyGroupReport casing store name parent nodes legacyNodes).2 =
      seedLegacyGroup casing store name parent nodes legacyNodes := by
  rw [seedLegacyGroupReport, seedLegacyGroup]
  split_ifs
  · exact seedGroupReport_snd _ _ _ _
  · rw [← legacyHistory_snd]
    exact seedGroupReport_snd _ _ _ _
  · exact seedGroupReport_snd _ _ _ _

/-- **The store** that `ensure_defaults` leaves. -/
theorem ensureDefaultsReport_snd (store : PermissionStore) :
    (ensureDefaultsReport casing store).2 = ensureDefaults casing store := by
  rw [ensureDefaultsReport, ensureDefaults]
  dsimp only
  rw [seedLegacyGroupReport_snd, seedLegacyGroupReport_snd, seedLegacyGroupReport_snd]

end

/-! ### Edits, saves and loads -/

structure SeedState where
  store : PermissionStore
  saves : List Text

inductive SeedEvent where
  | edit (op : PermissionOp)
  | save
  /-- one of the saves is loaded -/
  | load (i : ℕ)
  deriving DecidableEq

section

variable (casing : Casing) (reader : XmlReader)

def SeedState.step (s : SeedState) : SeedEvent → SeedState
  | .edit op => { s with store := op.run casing reader s.store }
  | .save => { s with saves := s.saves ++ [savePermissions s.store] }
  | .load i =>
    match s.saves[i]? with
    | none => s
    | some text =>
      { s with store := (PermissionOp.loadFromXml (some text)).run casing reader s.store }

/-- Runs from a store, with nothing saved so far. -/
def seedingSystem (store : PermissionStore) : System SeedState SeedEvent where
  init s := s = ⟨store, []⟩
  step s event := some (s.step casing reader event)

/-- Only saves of the run are loaded, and no group of `ensure_defaults` is deleted. -/
def KeepsBuiltins (_ : SeedState) : SeedEvent → Prop
  | .edit (.loadFromXml _) => False
  | .edit (.deleteGroup group) => ∀ b ∈ builtins, same casing (trim group) b.name = false
  | _ => True

end

end BasisRust.Permissions
