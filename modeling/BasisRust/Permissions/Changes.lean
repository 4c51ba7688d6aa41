import BasisRust.Permissions.EvaluateExact
import BasisRust.Permissions.Seeding

/-!
# Changes of the permission store

`mutate` runs an operation on the store and, if it has changed something, notes whose rules it may
have changed: those of one user, or those of everybody.  `take_changes` hands the notes over.

An operation holds the lock of the store until it has noted its change, and rules are read under
that lock; `mutate` is therefore one step.
-/

namespace BasisRust.Permissions

open Library

section

variable (casing : Casing) (reader : XmlReader)

/-! ### What an operation reports -/

/-- `created | insert(…)`, for a set of the user. -/
def userAdds (store : PermissionStore) (uuid : Text) (field : PermissionUser → TextSet)
    (value : Text) :
    Bool :=
  match key casing store.users uuid with
  | none => true
  | some k => (store.users.get k).any fun u => !contains casing (field u) value

/-- `remove`, from a set of the user. -/
def userRemoves (store : PermissionStore) (uuid : Text) (field : PermissionUser → TextSet)
    (value : Text) :
    Bool :=
  match key casing store.users uuid with
  | none => false
  | some k => (store.users.get k).any fun u => contains casing (field u) value

/-- `created | insert(…)`, for a set of the group. -/
def groupAdds (store : PermissionStore) (name : Text) (field : PermissionGroup → TextSet)
    (value : Text) :
    Bool :=
  match key casing store.groups name with
  | none => true
  | some k => (store.groups.get k).any fun g => !contains casing (field g) value

/-- `remove`, from a set of the group. -/
def groupRemoves (store : PermissionStore) (name : Text) (field : PermissionGroup → TextSet)
    (value : Text) : Bool :=
  match key casing store.groups name with
  | none => false
  | some k => (store.groups.get k).any fun g => contains casing (field g) value

namespace PermissionOp

/-- Whether the operation reports a change. -/
def changed (store : PermissionStore) : PermissionOp → Bool
  | .ensureDefaults => (ensureDefaultsReport casing store).1
  | .getOrCreateUser uuid => !isBlank uuid && (key casing store.users uuid).isNone
  | .addUserNode uuid node =>
    !(isBlank uuid || isBlank node) && userAdds casing store uuid PermissionUser.nodes (trim node)
  | .removeUserNode uuid node => userRemoves casing store uuid PermissionUser.nodes (trim node)
  | .addUserToGroup uuid group =>
    !(isBlank uuid || isBlank group) &&
      userAdds casing store uuid PermissionUser.groups (trim group)
  | .removeUserFromGroup uuid group =>
    userRemoves casing store uuid PermissionUser.groups (trim group)
  | .getOrCreateGroup group => !isBlank group && (key casing store.groups (trim group)).isNone
  | .addGroupNode group node =>
    !(isBlank group || isBlank node) &&
      groupAdds casing store (trim group) PermissionGroup.nodes (trim node)
  | .removeGroupNode group node =>
    groupRemoves casing store (trim group) PermissionGroup.nodes (trim node)
  | .addGroupParent group parent =>
    !(isBlank group || isBlank parent) &&
      groupAdds casing store (trim group) PermissionGroup.parents (trim parent)
  | .removeGroupParent group parent =>
    groupRemoves casing store (trim group) PermissionGroup.parents (trim parent)
  | .deleteGroup group => (key casing store.groups (trim group)).isSome
  | .loadFromXml file =>
    match loadPermissions casing reader file with
    | .ok loaded => store ≠ loaded
    | .error _ => false

/-- The user whose rules the operation may change; none for everybody. -/
def scope : PermissionOp → Option Text
  | .getOrCreateUser uuid | .addUserNode uuid _ | .removeUserNode uuid _ | .addUserToGroup uuid _
  | .removeUserFromGroup uuid _ => some uuid
  | _ => none

end PermissionOp

/-! ### The notes -/

/-- The notes say the same already. -/
def alreadyNoted (change : Option Text) : Option Text → Bool
  | none => change.isNone
  | some a => change.any fun b => same casing a b

def enqueue (changes : List (Option Text)) (change : Option Text) : List (Option Text) :=
  if changes.any (alreadyNoted casing change) then changes else changes ++ [change]

/-- `PermissionManager`, without what the file needs. -/
structure PermissionManager where
  store : PermissionStore
  changes : List (Option Text)
  deriving DecidableEq

namespace PermissionManager

def mutate (m : PermissionManager) (op : PermissionOp) : PermissionManager where
  store := op.run casing reader m.store
  changes :=
    if op.changed casing reader m.store then enqueue casing m.changes op.scope else m.changes

def takeChanges (m : PermissionManager) : List (Option Text) × PermissionManager :=
  (m.changes, { m with changes := [] })

end PermissionManager

/-! ### The rules of a user -/

/-- What `effective_decisions` returns; `effectiveDecisions_eq` says that no order matters. -/
def decisions (store : PermissionStore) (uuid : Text) : OrderedMap Text Bool :=
  (effectiveDecisions casing store (.sorted store) (store.groups.len + 1) uuid).getD
    OrderedMap.empty

def allowedRules (store : PermissionStore) (uuid : Text) : List Text :=
  ((decisions casing store uuid).entries.filter fun e => e.2).map Prod.fst

def deniedRules (store : PermissionStore) (uuid : Text) : List Text :=
  ((decisions casing store uuid).entries.filter fun e => !e.2).map Prod.fst

end

variable {casing : Casing} {reader : XmlReader} {store : PermissionStore} {value k name u : Text}
  {nodes : List Text} {op : PermissionOp} {changes : List (Option Text)} {change : Option Text}

/-! ### An operation that reports no change -/

theorem insert_of_contains {set : TextSet} (h : contains casing set value = true) :
    insert casing set value = set :=
  if_pos h

theorem remove_of_not_contains {set : TextSet} (h : contains casing set value = false) :
    remove casing set value = set := by
  rw [contains, Bool.or_eq_false_iff, List.any_eq_false] at h
  have hfind : (set.keys.find? fun v => same casing v value) = none := List.find?_eq_none.mpr h.2
  rw [remove, h.1, if_neg Bool.false_ne_true, hfind]

theorem update_same {α : Type} {map : OrderedMap Text α} {f : α → α}
    (h : ∀ x, map.get k = some x → f x = x) : update map k f = map := by
  unfold update
  split
  · rfl
  · rename_i x hx
    rw [h x hx]
    exact OrderedMap.insert_of_get hx

variable {uuid : Text} {f : PermissionUser → PermissionUser}

theorem userMut_same {u : PermissionUser} (hkey : key casing store.users uuid = some k)
    (hu : store.users.get k = some u) (hf : f u = u) : userMut casing store uuid f = store := by
  simp only [userMut, hkey, Option.getD_some, hu, hf, OrderedMap.insert_of_get hu]

theorem groupMut_same {g : PermissionGroup} {f : PermissionGroup → PermissionGroup}
    (hkey : key casing store.groups name = some k) (hg : store.groups.get k = some g)
    (hf : f g = g) :
    groupMut casing store name f = store := by
  simp only [groupMut, hkey, Option.getD_some, hg, hf, OrderedMap.insert_of_get hg]

theorem get_of_key {α : Type} {map : OrderedMap Text α} {wanted : Text}
    (h : key casing map wanted = some k) : ∃ x, map.get k = some x :=
  OrderedMap.mem_keys.mp (key_some h).1

theorem userAdds_false {field : PermissionUser → TextSet}
    (h : userAdds casing store uuid field value = false) :
    ∃ k u, key casing store.users uuid = some k ∧ store.users.get k = some u ∧
      insert casing (field u) value = field u := by
  unfold userAdds at h
  split at h
  · cases h
  · rename_i k hkey
    obtain ⟨u, hu⟩ := get_of_key hkey
    rw [hu, Option.any_some, Bool.not_eq_false'] at h
    exact ⟨k, u, hkey, hu, insert_of_contains h⟩

theorem groupAdds_false {field : PermissionGroup → TextSet}
    (h : groupAdds casing store name field value = false) :
    ∃ k g, key casing store.groups name = some k ∧ store.groups.get k = some g ∧
      insert casing (field g) value = field g := by
  unfold groupAdds at h
  split at h
  · cases h
  · rename_i k hkey
    obtain ⟨g, hg⟩ := get_of_key hkey
    rw [hg, Option.any_some, Bool.not_eq_false'] at h
    exact ⟨k, g, hkey, hg, insert_of_contains h⟩

theorem userRemoves_false {u : PermissionUser} {f : PermissionUser → TextSet}
    (h : userRemoves casing store uuid f value = false)
    (hkey : key casing store.users uuid = some k) (hu : store.users.get k = some u) :
    remove casing (f u) value = f u := by
  simp only [userRemoves, hkey, hu, Option.any_some] at h
  exact remove_of_not_contains h

theorem groupRemoves_false {g : PermissionGroup} {f : PermissionGroup → TextSet}
    (h : groupRemoves casing store name f value = false)
    (hkey : key casing store.groups name = some k) (hg : store.groups.get k = some g) :
    remove casing (f g) value = f g := by
  simp only [groupRemoves, hkey, hg, Option.any_some] at h
  exact remove_of_not_contains h

/-- Once something is new the report stays, so that without one nothing was. -/
theorem foldl_seedNodeReport_of_not {acc : Bool × TextSet × PermissionGroup}
    (h : (nodes.foldl (seedNodeReport casing) acc).1 = false) :
    nodes.foldl (seedNodeReport casing) acc = acc := by
  induction nodes generalizing acc with
  | nil => rfl
  | cons node nodes ih =>
    rw [List.foldl_cons] at h ⊢
    have hrest := ih h
    rw [hrest] at h ⊢
    rw [seedNodeReport, insertReport] at h ⊢
    by_cases hseeded : contains casing acc.2.1 node = true
    · rw [if_pos hseeded]
    · rw [if_neg hseeded] at h
      cases h

theorem seedGroupReport_of_not {parent : Option Text}
    (h : (seedGroupReport casing store name parent nodes).1 = false) :
    (seedGroupReport casing store name parent nodes).2 = store := by
  unfold seedGroupReport at h ⊢
  dsimp only at h ⊢
  have hstart := foldl_seedNodeReport_of_not h
  rw [hstart] at h ⊢
  split at h
  · rename_i group hgroup
    rw [Option.isNone_eq_false_iff, Option.isSome_iff_exists] at h
    obtain ⟨seeded, hseeded⟩ := h
    simp only [hgroup, hseeded, Option.getD_some, OrderedMap.insert_of_get]
  · cases h

/-- A history that is made of nodes is new. -/
theorem legacyHistory_fst {legacyNodes : List Text} (h : legacyNodes ≠ []) :
    (legacyHistory casing legacyNodes).1 = true := by
  have hkeep : ∀ (l : List Text) (acc : Bool × TextSet), acc.1 = true →
      (l.foldl (fun acc node => (acc.1 || (insertReport casing acc.2 node).1,
        (insertReport casing acc.2 node).2)) acc).1 = true := by
    intro l
    induction l with
    | nil => exact fun _ h => h
    | cons node l ih =>
      intro acc h
      refine ih _ ?_
      show (acc.1 || (insertReport casing acc.2 node).1) = true
      rw [h, Bool.true_or]
  obtain ⟨node, nodes, rfl⟩ := List.exists_cons_of_ne_nil h
  exact hkeep nodes _ rfl

theorem seedLegacyGroupReport_of_not {parent : Option Text} {legacyNodes : List Text}
    (hlegacy : legacyNodes ≠ [])
    (h : (seedLegacyGroupReport casing store name parent nodes legacyNodes).1 = false) :
    (seedLegacyGroupReport casing store name parent nodes legacyNodes).2 = store := by
  unfold seedLegacyGroupReport at h ⊢
  split_ifs at h ⊢
  · exact seedGroupReport_of_not h
  · rw [legacyHistory_fst hlegacy] at h
    cases (Bool.or_true _).symm.trans h
  · exact seedGroupReport_of_not ((Bool.or_false _).symm.trans h)

theorem ensureDefaults_of_not_changed (h : (ensureDefaultsReport casing store).1 = false) :
    ensureDefaults casing store = store := by
  rw [← ensureDefaultsReport_snd]
  simp only [ensureDefaultsReport, Bool.or_eq_false_iff] at h ⊢
  obtain ⟨⟨hfirst, hsecond⟩, hthird⟩ := h
  have hone := seedLegacyGroupReport_of_not (by decide) hfirst
  rw [hone] at hsecond hthird ⊢
  have htwo := seedLegacyGroupReport_of_not (by decide) hsecond
  rw [htwo] at hthird ⊢
  exact seedLegacyGroupReport_of_not (by decide) hthird

/-- **No change is reported only if there is none.** -/
theorem PermissionOp.run_of_not_changed (h : op.changed casing reader store = false) :
    op.run casing reader store = store := by
  cases op with
  | ensureDefaults => exact ensureDefaults_of_not_changed h
  | getOrCreateUser uuid =>
    simp only [changed, Bool.and_eq_false_iff, Bool.not_eq_false', Option.isNone_eq_false_iff,
      Option.isSome_iff_exists] at h
    simp only [run, Permissions.getOrCreateUser]
    split
    · rfl
    · rename_i hblank
      obtain ⟨k, hkey⟩ := h.resolve_left hblank
      obtain ⟨u, hu⟩ := get_of_key hkey
      exact userMut_same hkey hu rfl
  | addUserNode uuid node =>
    simp only [changed, Bool.and_eq_false_iff, Bool.not_eq_false'] at h
    simp only [run, Permissions.addUserNode]
    split
    · rfl
    · rename_i hblank
      obtain ⟨k, u, hkey, hu, hsame⟩ := userAdds_false (h.resolve_left hblank)
      exact userMut_same hkey hu (by rw [hsame])
  | removeUserNode uuid node =>
    simp only [run, Permissions.removeUserNode]
    split
    · rfl
    · rename_i k hkey
      rw [update_same fun u hu => by rw [userRemoves_false (f := PermissionUser.nodes) h hkey hu]]
  | addUserToGroup uuid group =>
    simp only [changed, Bool.and_eq_false_iff, Bool.not_eq_false'] at h
    simp only [run, Permissions.addUserToGroup]
    split
    · rfl
    · rename_i hblank
      obtain ⟨k, u, hkey, hu, hsame⟩ := userAdds_false (h.resolve_left hblank)
      exact userMut_same hkey hu (by rw [hsame])
  | removeUserFromGroup uuid group =>
    simp only [run, Permissions.removeUserFromGroup]
    split
    · rfl
    · rename_i k hkey
      rw [update_same fun u hu => by rw [userRemoves_false (f := PermissionUser.groups) h hkey hu]]
  | getOrCreateGroup group =>
    simp only [changed, Bool.and_eq_false_iff, Bool.not_eq_false', Option.isNone_eq_false_iff,
      Option.isSome_iff_exists] at h
    simp only [run, Permissions.getOrCreateGroup]
    split
    · rfl
    · rename_i hblank
      obtain ⟨k, hkey⟩ := h.resolve_left hblank
      obtain ⟨g, hg⟩ := get_of_key hkey
      exact groupMut_same hkey hg rfl
  | addGroupNode group node =>
    simp only [changed, Bool.and_eq_false_iff, Bool.not_eq_false'] at h
    simp only [run, Permissions.addGroupNode]
    split
    · rfl
    · rename_i hblank
      obtain ⟨k, g, hkey, hg, hsame⟩ := groupAdds_false (h.resolve_left hblank)
      exact groupMut_same hkey hg (by rw [hsame])
  | removeGroupNode group node =>
    simp only [run, Permissions.removeGroupNode]
    split
    · rfl
    · rename_i k hkey
      rw [update_same fun g hg => by rw [groupRemoves_false (f := PermissionGroup.nodes) h hkey hg]]
  | addGroupParent group parent =>
    simp only [changed, Bool.and_eq_false_iff, Bool.not_eq_false'] at h
    simp only [run, Permissions.addGroupParent]
    split
    · rfl
    · rename_i hblank
      obtain ⟨k, g, hkey, hg, hsame⟩ := groupAdds_false (h.resolve_left hblank)
      exact groupMut_same hkey hg (by rw [hsame])
  | removeGroupParent group parent =>
    simp only [run, Permissions.removeGroupParent]
    split
    · rfl
    · rename_i k hkey
      rw [update_same
        fun g hg => by rw [groupRemoves_false (f := PermissionGroup.parents) h hkey hg]]
  | deleteGroup group =>
    simp only [changed, Option.isSome_eq_false_iff, Option.isNone_iff_eq_none] at h
    simp only [run, Permissions.deleteGroup, h]
  | loadFromXml file =>
    cases hloaded : loadPermissions casing reader file with
    | ok loaded =>
      simp only [changed, hloaded] at h
      simp only [run, hloaded]
      exact (Decidable.not_not.mp (of_decide_eq_false h)).symm
    | error _ => simp only [run, hloaded]

/-! ### The rules that an operation may change -/

/-- The decisions for a user come from the groups and from the entries under the user's name. -/
theorem collected_congr {store' : PermissionStore} (hgroups : store'.groups = store.groups)
    (husers : ∀ k, same casing k uuid = true → store'.users.get k = store.users.get k) :
    collected casing store' uuid = collected casing store uuid := by
  have hentry : ∀ P : PermissionUser → Prop,
      (∃ k u, store'.users.get k = some u ∧ same casing k uuid = true ∧ P u) ↔
        ∃ k u, store.users.get k = some u ∧ same casing k uuid = true ∧ P u := by
    intro P
    constructor
    · rintro ⟨k, u, hu, hsame, hP⟩
      exact ⟨k, u, husers k hsame ▸ hu, hsame, hP⟩
    · rintro ⟨k, u, hu, hsame, hP⟩
      exact ⟨k, u, (husers k hsame).trans hu, hsame, hP⟩
  have hmissing : (∀ k ∈ store'.users.keys, same casing k uuid = false) ↔
      ∀ k ∈ store.users.keys, same casing k uuid = false := by
    have hentry := not_congr (hentry fun _ => True)
    simp only [and_true, not_exists, not_and, Bool.not_eq_true] at hentry
    simp only [OrderedMap.mem_keys, forall_exists_index]
    exact hentry
  have hparent : Parent casing store' = Parent casing store := by
    unfold Parent
    rw [hgroups]
  have hstart : ∀ name, StartGroup casing store' uuid name ↔ StartGroup casing store uuid name :=
    fun name => or_congr (hentry fun u => name ∈ u.groups.keys) (and_congr_left fun _ => hmissing)
  have hinherits : ∀ key, Inherits casing store' uuid key ↔ Inherits casing store uuid key := by
    intro key
    unfold Inherits
    rw [hparent]
    exact exists_congr fun name => and_congr_left fun _ => hstart name
  ext raw
  refine or_congr ?_ (hentry fun u => raw ∈ u.nodes.keys)
  rw [hgroups]
  refine exists_congr fun k => exists_congr fun g => ?_
  rw [hinherits]

/-- **The rules do not depend on the order** in which the hash maps are iterated. -/
theorem effectiveDecisions_eq (husers : CaseDistinct casing store.users.keys)
    (hgroups : CaseDistinct casing store.groups.keys) {order : HashOrder} (horder : order.Of store)
    {fuel : ℕ} (hfuel : store.groups.len < fuel) (uuid : Text) :
    effectiveDecisions casing store order fuel uuid = some (decisions casing store uuid) := by
  obtain ⟨d, hd, hget⟩ := effectiveDecisions_spec husers hgroups horder hfuel uuid
  obtain ⟨d', hd', hget'⟩ :=
    effectiveDecisions_spec husers hgroups (HashOrder.sorted_of store) (Nat.lt_succ_self _) uuid
  have hsame : d = d' := OrderedMap.ext_get fun k => (hget k).trans (hget' k).symm
  rw [hd, decisions, hd', hsame]
  rfl

theorem get_decisions (husers : CaseDistinct casing store.users.keys)
    (hgroups : CaseDistinct casing store.groups.keys) (uuid k : Text) :
    (decisions casing store uuid).get k = ruling casing (collected casing store uuid) k := by
  obtain ⟨d, hd, hget⟩ :=
    effectiveDecisions_spec husers hgroups (HashOrder.sorted_of store) (Nat.lt_succ_self _) uuid
  rw [decisions, hd]
  exact hget k

theorem decisions_congr {store' : PermissionStore} (h : CaseFree casing store)
    (h' : CaseFree casing store')
    (hsame : collected casing store' uuid = collected casing store uuid) :
    decisions casing store' uuid = decisions casing store uuid := by
  refine OrderedMap.ext_get fun k => ?_
  rw [get_decisions h'.users h'.groups, get_decisions h.users h.groups, hsame]

theorem users_userMut (hother : same casing u uuid = false) (hk : same casing k uuid = true) :
    (userMut casing store u f).users.get k = store.users.get k :=
  OrderedMap.get_insert_of_ne (ne_of_same hother hk (same_spelling _ _)) _

theorem users_update {k' : Text} (hkey : key casing store.users u = some k')
    (hother : same casing u uuid = false) (hk : same casing k uuid = true) :
    (update store.users k' f).get k = store.users.get k := by
  unfold update
  split
  · rfl
  · exact OrderedMap.get_insert_of_ne (ne_of_same hother hk (key_some hkey).2) _

theorem collected_run_of_scope (hscope : op.scope = some u) (hother : same casing u uuid = false) :
    collected casing (op.run casing reader store) uuid = collected casing store uuid := by
  cases op with
  | getOrCreateUser v | addUserNode v _ | addUserToGroup v _ =>
    cases hscope
    simp only [PermissionOp.run, getOrCreateUser, addUserNode, addUserToGroup]
    split
    · rfl
    · exact collected_congr rfl fun k hk => users_userMut hother hk
  | removeUserNode v _ | removeUserFromGroup v _ =>
    cases hscope
    simp only [PermissionOp.run, removeUserNode, removeUserFromGroup]
    split
    · rfl
    · rename_i hkey
      exact collected_congr rfl fun k hk => users_update hkey hother hk
  | ensureDefaults | getOrCreateGroup _ | addGroupNode _ _ | removeGroupNode _ _
  | addGroupParent _ _ | removeGroupParent _ _ | deleteGroup _ | loadFromXml _ => cases hscope

/-- **An operation on a user changes the rules of that user only.** -/
theorem decisions_run_of_scope (h : CaseFree casing store)
    (h' : CaseFree casing (op.run casing reader store)) (hscope : op.scope = some u)
    (hother : same casing u uuid = false) :
    decisions casing (op.run casing reader store) uuid = decisions casing store uuid :=
  decisions_congr h h' (collected_run_of_scope hscope hother)

/-! ### Who is covered by a note -/

/-- The condition under which `sync_permission_changes` refreshes a peer. -/
def covers (casing : Casing) (changes : List (Option Text)) (uuid : Text) : Bool :=
  changes.any Option.isNone || changes.any fun change => change.any fun u => same casing u uuid

/-- A note refreshes a user. -/
def Refreshes (casing : Casing) (uuid : Text) (change : Option Text) : Prop :=
  ∀ u, change = some u → same casing u uuid = true

theorem covers_iff :
    covers casing changes uuid = true ↔ ∃ change ∈ changes, Refreshes casing uuid change := by
  rw [covers, Bool.or_eq_true, List.any_eq_true, List.any_eq_true]
  constructor
  · rintro (⟨change, hmem, hnone⟩ | ⟨change, hmem, hsome⟩)
    · refine ⟨change, hmem, fun u hu => ?_⟩
      rw [hu] at hnone
      cases hnone
    · obtain ⟨u, rfl, hsame⟩ := (Option.any_eq_true _ _).mp hsome
      exact ⟨_, hmem, fun u' hu' => Option.some.inj hu' ▸ hsame⟩
  · rintro ⟨change, hmem, hcovers⟩
    cases change with
    | none => exact .inl ⟨none, hmem, rfl⟩
    | some u => exact .inr ⟨some u, hmem, hcovers u rfl⟩

theorem Refreshes.of_alreadyNoted {old : Option Text} (hold : alreadyNoted casing change old = true)
    (h : Refreshes casing uuid change) : Refreshes casing uuid old := by
  intro a ha
  rw [ha] at hold
  obtain ⟨b, hb, hsame⟩ := (Option.any_eq_true _ _).mp hold
  exact same_trans hsame (h b hb)

/-- A note stays when another one is made. -/
theorem covers_enqueue_of_covers (h : covers casing changes uuid = true) :
    covers casing (enqueue casing changes change) uuid = true := by
  obtain ⟨old, hmem, hcovers⟩ := covers_iff.mp h
  refine covers_iff.mpr ⟨old, ?_, hcovers⟩
  unfold enqueue
  split
  · exact hmem
  · exact List.mem_append_left _ hmem

/-- Whoever a note refreshes is covered once it is made. -/
theorem Refreshes.enqueue (h : Refreshes casing uuid change) :
    covers casing (enqueue casing changes change) uuid = true := by
  unfold Permissions.enqueue
  split
  · rename_i hany
    obtain ⟨old, hmem, hold⟩ := List.any_eq_true.mp hany
    exact covers_iff.mpr ⟨old, hmem, h.of_alreadyNoted hold⟩
  · exact covers_iff.mpr ⟨change, List.mem_append_right _ (.head _), h⟩

/-- **A change is covered**: after an operation the notes refresh a user, or the rules are as
before. -/
theorem PermissionManager.mutate_covers {m : PermissionManager} (op : PermissionOp) (uuid : Text)
    (h : CaseFree casing m.store) (h' : CaseFree casing (op.run casing reader m.store)) :
    covers casing (m.mutate casing reader op).changes uuid = true ∨
      decisions casing (m.mutate casing reader op).store uuid = decisions casing m.store uuid := by
  cases hchanged : op.changed casing reader m.store with
  | false =>
    right
    simp only [mutate, PermissionOp.run_of_not_changed hchanged]
  | true =>
    simp only [mutate, hchanged, if_true]
    by_cases hrefreshes : Refreshes casing uuid op.scope
    · exact .inl hrefreshes.enqueue
    · right
      simp only [Refreshes, not_forall, Bool.not_eq_true] at hrefreshes
      obtain ⟨u, hscope, hother⟩ := hrefreshes
      exact decisions_run_of_scope h h' hscope hother

end BasisRust.Permissions
