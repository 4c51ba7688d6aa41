import BasisRust.Permissions.Seeding

/-!
# Defaults are seeded once

After `ensure_defaults` every built-in group exists and its history has all its nodes.  Nothing but
the deletion of the group takes that away: edits leave the histories as they are, and a save and a
load keep them.  Then `ensure_defaults` finds nothing to do.
-/

namespace BasisRust.Permissions

open Library

variable {casing : Casing} {reader : XmlReader}

/-! ### Sets and keys -/

theorem contains_insert_of {set : TextSet} {v : Text}
    (h : contains casing set v = true) (w : Text) :
    contains casing (insert casing set w) v = true := by
  unfold insert
  split_ifs
  · exact h
  · obtain ⟨a, ha, hsame⟩ := contains_iff.mp h
    exact contains_iff.mpr ⟨a, mem_keys_insert.mpr (.inr ha), hsame⟩

theorem contains_insert_self (set : TextSet) (v : Text) :
    contains casing (insert casing set v) v = true := by
  unfold insert
  split_ifs with h
  · exact h
  · exact contains_iff.mpr ⟨v, mem_keys_insert.mpr (.inl rfl), same_refl v⟩

theorem key_eq_some {α : Type} {m : OrderedMap Text α} (hdistinct : CaseDistinct casing m.keys)
    {k wanted : Text} (hk : k ∈ m.keys) (hsame : same casing k wanted = true) :
    key casing m wanted = some k := by
  cases hkey : key casing m wanted with
  | none =>
    have hno := key_none hkey k hk
    rw [hsame] at hno
    cases hno
  | some k' =>
    obtain ⟨hk', hsame'⟩ := key_some hkey
    rw [hdistinct k' hk' k hk (same_trans hsame' (same_symm hsame))]

/-! ### The defaults -/

/-- A node without a wildcard, in small letters, that allows and has no old name. -/
def isPlainNode (node : Text) : Bool :=
  isAscii node && node.map Char.toLower = node && node.head? ≠ some '-' &&
    !(".*".toList.isSuffixOf node) && node ≠ moderationShout

/-- The texts of a built-in group. -/
structure ProperBuiltin (b : Builtin) : Prop where
  name : ProperText (fun _ => True) b.name
  parent : ∀ p ∈ b.parent, ProperText (fun _ => True) p
  nodes : ∀ node ∈ b.nodes, ProperText (fun _ => True) node
  legacyNodes : ∀ node ∈ b.legacyNodes, ProperText (fun _ => True) node

theorem builtins_checked : (builtins.all fun b => b.nodes.all isPlainNode &&
    ([b.name] ++ b.parent.toList ++ b.nodes ++ b.legacyNodes).all
      fun v => trim v = v && !v.isEmpty) = true := by
  decide +kernel

theorem builtin_nodes_plain : ∀ b ∈ builtins, ∀ node ∈ b.nodes, isPlainNode node = true := by
  intro b hb node hnode
  have hchecked := List.all_eq_true.mp builtins_checked b hb
  rw [Bool.and_eq_true] at hchecked
  exact List.all_eq_true.mp hchecked.1 node hnode

theorem builtins_proper : ∀ b ∈ builtins, ProperBuiltin b := by
  intro b hb
  have hchecked := List.all_eq_true.mp builtins_checked b hb
  rw [Bool.and_eq_true] at hchecked
  have hproper : ∀ {v : Text}, v ∈ [b.name] ++ b.parent.toList ++ b.nodes ++ b.legacyNodes →
      ProperText (fun _ => True) v := by
    intro v hv
    have htrim := List.all_eq_true.mp hchecked.2 v hv
    rw [Bool.and_eq_true, decide_eq_true_eq, Bool.not_eq_true', List.isEmpty_eq_false_iff] at htrim
    exact ⟨htrim.1, htrim.2, trivial⟩
  refine ⟨hproper ?_, fun p hp => hproper ?_, fun v hv => hproper ?_, fun v hv => hproper ?_⟩
  · simp
  · simp [Option.mem_def.mp hp]
  · simp [hv]
  · simp [hv]

section

variable {node : Text}

theorem isPlainNode_iff : isPlainNode node = true ↔ isAscii node = true ∧
    node.map Char.toLower = node ∧ node.head? ≠ some '-' ∧ (".*".toList).isSuffixOf node = false ∧
      node ≠ moderationShout := by
  rw [isPlainNode, Bool.and_eq_true, Bool.and_eq_true, Bool.and_eq_true, Bool.and_eq_true,
    decide_eq_true_eq, decide_eq_true_eq, decide_eq_true_eq, Bool.not_eq_true']
  tauto

theorem key_of_isPlainNode (h : isPlainNode node = true) :
    ordinalIgnoreCaseKey casing node = node := by
  obtain ⟨hascii, hlower, -⟩ := isPlainNode_iff.mp h
  rw [ordinalIgnoreCaseKey_ascii hascii]
  exact hlower

/-- No default is spelled like a deny. -/
theorem same_deny_of_isPlainNode (h : isPlainNode node = true) (d : Text) :
    same casing node ('-' :: d) = false := by
  refine Bool.eq_false_iff.mpr fun hsame => ?_
  rw [same_iff, key_of_isPlainNode h] at hsame
  obtain ⟨-, -, hhead, -⟩ := isPlainNode_iff.mp h
  refine hhead ?_
  have hdash : (ordinalUpper casing '-').toLower = '-' := ordinalUpper_ascii (by decide)
  rw [hsame, ordinalIgnoreCaseKey, List.map_cons, List.head?_cons, hdash]

/-- No default has an old name. -/
theorem same_shout_of_isPlainNode (h : isPlainNode node = true) :
    same casing node moderationShout = false := by
  refine Bool.eq_false_iff.mpr fun hsame => ?_
  obtain ⟨-, -, -, -, hshout⟩ := isPlainNode_iff.mp h
  rw [same_iff, key_of_isPlainNode h, ordinalIgnoreCaseKey_ascii (by decide +kernel)] at hsame
  exact hshout (hsame.trans (by decide +kernel))

end

/-! ### Seeded groups -/

/-- The group exists, and the nodes are in its history. -/
structure SeededGroup (casing : Casing) (store : PermissionStore) (name : Text)
    (nodes : List Text) : Prop where
  group : ∃ k ∈ store.groups.keys, same casing k name = true
  history : ∃ k seeded, store.seededDefaults.get k = some seeded ∧ same casing k name = true ∧
    ∀ node ∈ nodes, contains casing seeded node = true

variable {store : PermissionStore} {name : Text} {parent : Option Text} {nodes : List Text}

/-- The history after some nodes: what was there, and the nodes. -/
theorem foldl_seedNode_history (nodes : List Text) (acc : TextSet × PermissionGroup) :
    (∀ v, contains casing acc.1 v = true →
      contains casing (nodes.foldl (seedNode casing) acc).1 v = true) ∧
      ∀ node ∈ nodes, contains casing (nodes.foldl (seedNode casing) acc).1 node = true := by
  induction nodes generalizing acc with
  | nil => exact ⟨fun _ h => h, nofun⟩
  | cons node nodes ih =>
    obtain ⟨hkeep, hnodes⟩ := ih (seedNode casing acc node)
    have hone : (∀ v, contains casing acc.1 v = true →
        contains casing (seedNode casing acc node).1 v = true) ∧
          contains casing (seedNode casing acc node).1 node = true := by
      rw [seedNode]
      split_ifs with hseeded
      · exact ⟨fun _ h => h, hseeded⟩
      · exact ⟨fun _ h => contains_insert_of h node, contains_insert_self _ _⟩
      · exact ⟨fun _ h => contains_insert_of h node, contains_insert_self _ _⟩
    refine ⟨fun v hv => hkeep v (hone.1 v hv), fun v hv => ?_⟩
    rcases List.mem_cons.mp hv with rfl | hv
    · exact hkeep v hone.2
    · exact hnodes v hv

theorem seedGroup_seeded (store : PermissionStore) (name : Text) (parent : Option Text)
    (nodes : List Text) : SeededGroup casing (seedGroup casing store name parent nodes)
      name nodes where
  group := ⟨_, mem_keys_insert.mpr (.inl rfl), same_spelling store.groups name⟩
  history := ⟨_, _, OrderedMap.get_insert_self _ _ _, same_spelling store.seededDefaults name,
    (foldl_seedNode_history nodes _).2⟩

/-- Entries of another name are left. -/
theorem SeededGroup.seedGroup {b : Text} {bNodes : List Text}
    (h : SeededGroup casing store b bNodes) (hne : same casing name b = false) :
    SeededGroup casing (seedGroup casing store name parent nodes) b bNodes := by
  obtain ⟨k, hk, hsame⟩ := h.group
  obtain ⟨k', seeded, hget, hsame', hnodes⟩ := h.history
  refine ⟨⟨k, mem_keys_insert.mpr (.inr hk), hsame⟩, ⟨k', seeded, ?_, hsame', hnodes⟩⟩
  have hkey := ne_of_same hne hsame' (same_spelling store.seededDefaults name)
  exact (OrderedMap.get_insert_of_ne hkey _).trans hget

theorem seedBuiltin_seeded (store : PermissionStore) (b : Builtin) :
    SeededGroup casing (seedBuiltin casing store b) b.name b.nodes := by
  rw [seedBuiltin, seedLegacyGroup]
  split_ifs
  · exact seedGroup_seeded _ _ _ _
  · exact seedGroup_seeded _ _ _ _
  · exact seedGroup_seeded _ _ _ _

theorem SeededGroup.seedBuiltin {b c : Builtin} (h : SeededGroup casing store b.name b.nodes)
    (hne : same casing c.name b.name = false) :
    SeededGroup casing (seedBuiltin casing store c) b.name b.nodes := by
  rw [Permissions.seedBuiltin, seedLegacyGroup]
  split_ifs
  · exact h.seedGroup hne
  · refine SeededGroup.seedGroup ⟨h.group, ?_⟩ hne
    obtain ⟨k, seeded, hget, hsame, hnodes⟩ := h.history
    have hkey := ne_of_same hne hsame (same_refl c.name)
    exact ⟨k, seeded, (OrderedMap.get_insert_of_ne hkey _).trans hget, hsame, hnodes⟩
  · exact h.seedGroup hne

/-- The built-in groups have different names. -/
theorem builtins_distinct :
    builtins.Pairwise fun (b c : Builtin) =>
      same casing c.name b.name = false ∧ same casing b.name c.name = false := by
  have hascii : ∀ b ∈ builtins, isAscii b.name = true := by decide +kernel
  have hpair : builtins.Pairwise fun (b c : Builtin) =>
      b.name.map Char.toLower ≠ c.name.map Char.toLower := by
    decide +kernel
  refine hpair.imp_of_mem fun {b c} hb hc hne => ⟨?_, ?_⟩
  · refine Bool.eq_false_iff.mpr fun hsame => hne ?_
    rw [same_iff, ordinalIgnoreCaseKey_ascii (hascii b hb),
      ordinalIgnoreCaseKey_ascii (hascii c hc)]
      at hsame
    exact hsame.symm
  · refine Bool.eq_false_iff.mpr fun hsame => hne ?_
    rwa [same_iff, ordinalIgnoreCaseKey_ascii (hascii b hb),
      ordinalIgnoreCaseKey_ascii (hascii c hc)] at hsame

/-- **After `ensure_defaults`** all built-in groups are seeded. -/
theorem ensureDefaults_seeded (store : PermissionStore) :
    ∀ b ∈ builtins, SeededGroup casing (ensureDefaults casing store) b.name b.nodes := by
  have hfold : ∀ (l : List Builtin),
    l.Pairwise (fun (b c : Builtin) => same casing c.name b.name = false ∧
      same casing b.name c.name = false) → ∀ store : PermissionStore,
        (∀ b : Builtin, (∀ c ∈ l, same casing c.name b.name = false) →
          SeededGroup casing store b.name b.nodes →
            SeededGroup casing (l.foldl (seedBuiltin casing) store) b.name b.nodes) ∧
        ∀ b ∈ l, SeededGroup casing (l.foldl (seedBuiltin casing) store) b.name b.nodes := by
    intro l hl
    induction l with
    | nil => exact fun _ => ⟨fun _ _ h => h, nofun⟩
    | cons c l ih =>
      intro store
      obtain ⟨hc, hl⟩ := List.pairwise_cons.mp hl
      obtain ⟨hkeep, hall⟩ := ih hl (seedBuiltin casing store c)
      refine ⟨fun b hother h => ?_, fun b hb => ?_⟩
      · exact hkeep b (fun d hd => hother d (List.mem_cons_of_mem c hd))
          (h.seedBuiltin (hother c (.head _)))
      · rcases List.mem_cons.mp hb with rfl | hb
        · exact hkeep b (fun d hd => (hc d hd).1) (seedBuiltin_seeded store b)
        · exact hall b hb
  exact (hfold builtins builtins_distinct store).2

/-! ### Nothing to do -/

theorem foldl_seedNodeReport_of_contains {acc : Bool × TextSet × PermissionGroup}
    (h : ∀ node ∈ nodes, contains casing acc.2.1 node = true) :
    nodes.foldl (seedNodeReport casing) acc = acc := by
  induction nodes with
  | nil => rfl
  | cons node nodes ih =>
    have hone : seedNodeReport casing acc node = acc := by
      rw [seedNodeReport, insertReport, if_pos (h node (.head _))]
    rw [List.foldl_cons, hone]
    exact ih fun v hv => h v (List.mem_cons_of_mem node hv)

theorem seedGroup_report (hgroups : CaseDistinct casing store.groups.keys)
    (hhistories : CaseDistinct casing store.seededDefaults.keys)
    (h : SeededGroup casing store name nodes) :
    seedGroupReport casing store name parent nodes = (false, store) := by
  obtain ⟨k, hk, hsame⟩ := h.group
  obtain ⟨group, hgroup⟩ := OrderedMap.mem_keys.mp hk
  obtain ⟨k', seeded, hseeded, hsame', hnodes⟩ := h.history
  rw [seedGroupReport, key_eq_some hgroups hk hsame,
    key_eq_some hhistories (OrderedMap.mem_keys.mpr ⟨seeded, hseeded⟩) hsame']
  dsimp only [Option.getD_some]
  rw [hgroup, hseeded]
  dsimp only [Option.getD_some, Option.isNone_some]
  rw [foldl_seedNodeReport_of_contains hnodes]
  dsimp only
  rw [OrderedMap.insert_of_get hgroup, OrderedMap.insert_of_get hseeded]

/-- **A seeded group** is left as it is. -/
theorem seedBuiltin_report (hgroups : CaseDistinct casing store.groups.keys)
    (hhistories : CaseDistinct casing store.seededDefaults.keys)
    (h : SeededGroup casing store name nodes) (legacyNodes : List Text) :
    seedLegacyGroupReport casing store name parent nodes legacyNodes = (false, store) := by
  obtain ⟨k, hk, hsame⟩ := h.group
  obtain ⟨k', seeded, hseeded, hsame', -⟩ := h.history
  rw [seedLegacyGroupReport, key_eq_some hgroups hk hsame,
    key_eq_some hhistories (OrderedMap.mem_keys.mpr ⟨seeded, hseeded⟩) hsame']
  dsimp only [Option.isNone_some]
  rw [if_neg Bool.false_ne_true, if_neg Bool.false_ne_true]
  dsimp only
  rw [seedGroup_report hgroups hhistories h]
  rfl

/-- What the runs keep. -/
structure SeededStore (casing : Casing) (store : PermissionStore) : Prop where
  proper : ProperStore casing (fun _ => True) store
  seeded : ∀ b ∈ builtins, SeededGroup casing store b.name b.nodes

theorem SeededStore.report (h : SeededStore casing store) :
    ensureDefaultsReport casing store = (false, store) := by
  have hone : ∀ b ∈ builtins, seedLegacyGroupReport casing store b.name b.parent b.nodes
      b.legacyNodes = (false, store) := fun b hb =>
    seedBuiltin_report h.proper.groups.distinct h.proper.seeded.distinct (h.seeded b hb) _
  have hdefault := hone ⟨defaultGroup, none, defaultGroupNodes, legacyDefaultGroupNodes⟩
    (by simp [builtins])
  have hmoderator := hone ⟨moderatorGroup, some defaultGroup, moderatorGroupNodes,
    legacyModeratorGroupNodes⟩ (by simp [builtins])
  have hadmin := hone ⟨adminGroup, some moderatorGroup, allNodes, allNodes⟩ (by simp [builtins])
  rw [ensureDefaultsReport, hdefault]
  dsimp only
  rw [hmoderator]
  dsimp only
  rw [hadmin]
  rfl

theorem SeededStore.ensureDefaults_eq (h : SeededStore casing store) :
    ensureDefaults casing store = store := by
  rw [← ensureDefaultsReport_snd, h.report]

/-! ### Edits -/

/-- Groups are not lost, and histories are left. -/
theorem SeededGroup.of_kept {store' : PermissionStore} (h : SeededGroup casing store name nodes)
    (hkeys : ∀ k ∈ store.groups.keys, same casing k name = true → k ∈ store'.groups.keys)
    (hhistory : store'.seededDefaults = store.seededDefaults) :
    SeededGroup casing store' name nodes := by
  obtain ⟨k, hk, hsame⟩ := h.group
  refine ⟨⟨k, hkeys k hk hsame, hsame⟩, ?_⟩
  rw [hhistory]
  exact h.history

theorem keys_update {α : Type} (m : OrderedMap Text α) (k : Text) (f : α → α) {k' : Text}
    (hk' : k' ∈ m.keys) : k' ∈ (update m k f).keys := by
  rw [update]
  cases m.get k with
  | none => exact hk'
  | some x => exact mem_keys_insert.mpr (.inr hk')

variable (reader store) in
/-- **Edits** leave the histories, and every group that they do not delete. -/
theorem PermissionOp.run_keeps {op : PermissionOp} (hensure : op ≠ .ensureDefaults)
    (hload : ∀ file, op ≠ .loadFromXml file) :
    (op.run casing reader store).seededDefaults = store.seededDefaults ∧
      ∀ k ∈ store.groups.keys, k ∈ (op.run casing reader store).groups.keys ∨
        ∃ group, op = .deleteGroup group ∧ same casing (trim group) k = true := by
  cases op with
  | ensureDefaults => exact absurd rfl hensure
  | loadFromXml file => exact absurd rfl (hload file)
  | getOrCreateUser uuid =>
    rw [run, Permissions.getOrCreateUser]
    split_ifs <;> exact ⟨rfl, fun _ hk => .inl hk⟩
  | addUserNode uuid node =>
    rw [run, Permissions.addUserNode]
    split_ifs <;> exact ⟨rfl, fun _ hk => .inl hk⟩
  | removeUserNode uuid node =>
    rw [run, Permissions.removeUserNode]
    split <;> exact ⟨rfl, fun _ hk => .inl hk⟩
  | addUserToGroup uuid group =>
    rw [run, Permissions.addUserToGroup]
    split_ifs <;> exact ⟨rfl, fun _ hk => .inl hk⟩
  | removeUserFromGroup uuid group =>
    rw [run, Permissions.removeUserFromGroup]
    split <;> exact ⟨rfl, fun _ hk => .inl hk⟩
  | getOrCreateGroup group =>
    rw [run, Permissions.getOrCreateGroup]
    split_ifs
    · exact ⟨rfl, fun _ hk => .inl hk⟩
    · exact ⟨rfl, fun _ hk => .inl (mem_keys_insert.mpr (.inr hk))⟩
  | addGroupNode group node =>
    rw [run, Permissions.addGroupNode]
    split_ifs
    · exact ⟨rfl, fun _ hk => .inl hk⟩
    · exact ⟨rfl, fun _ hk => .inl (mem_keys_insert.mpr (.inr hk))⟩
  | removeGroupNode group node =>
    rw [run, Permissions.removeGroupNode]
    split
    · exact ⟨rfl, fun _ hk => .inl hk⟩
    · exact ⟨rfl, fun _ hk => .inl (keys_update _ _ _ hk)⟩
  | addGroupParent group parent =>
    rw [run, Permissions.addGroupParent]
    split_ifs
    · exact ⟨rfl, fun _ hk => .inl hk⟩
    · exact ⟨rfl, fun _ hk => .inl (mem_keys_insert.mpr (.inr hk))⟩
  | removeGroupParent group parent =>
    rw [run, Permissions.removeGroupParent]
    split
    · exact ⟨rfl, fun _ hk => .inl hk⟩
    · exact ⟨rfl, fun _ hk => .inl (keys_update _ _ _ hk)⟩
  | deleteGroup group =>
    rw [run, Permissions.deleteGroup]
    split
    · exact ⟨rfl, fun _ hk => .inl hk⟩
    · rename_i k hkey
      refine ⟨rfl, fun k' hk' => ?_⟩
      by_cases heq : k' = k
      · exact .inr ⟨group, rfl, heq ▸ same_symm (key_some hkey).2⟩
      · left
        rw [OrderedMap.keys_mapValues]
        exact mem_keys_erase.mpr ⟨heq, hk'⟩

/-! ### Saves and loads -/

theorem migrate_of_same {v node : Text} (hsame : same casing v node = true)
    (h : isPlainNode node = true) : migrate casing v = v := by
  have hother : ∀ {old : Text}, same casing node old = false → ¬ same casing v old = true := by
    intro old hold hv
    rw [same_trans (same_symm hsame) hv] at hold
    cases hold
  rw [migrate, if_neg (hother (same_shout_of_isPlainNode h)),
    if_neg (hother (same_deny_of_isPlainNode h moderationShout))]

/-- **A save and a load** keep the history. -/
theorem SeededStore.renamed (h : SeededStore casing store) :
    ∀ b ∈ builtins, SeededGroup casing (store.renamed casing) b.name b.nodes := by
  intro b hb
  obtain ⟨k, hk, hsame⟩ := (h.seeded b hb).group
  obtain ⟨k', seeded, hget, hsame', hnodes⟩ := (h.seeded b hb).history
  refine ⟨⟨k, ?_, hsame⟩, ⟨k', renamedNodes casing seeded, ?_, hsame', fun node hnode => ?_⟩⟩
  · show k ∈ (store.groups.mapValues _).keys
    rw [OrderedMap.keys_mapValues]
    exact hk
  · show (store.seededDefaults.mapValues _).get k' = _
    rw [OrderedMap.get_mapValues, hget]
    rfl
  · obtain ⟨v, hv, hv'⟩ := contains_iff.mp (hnodes node hnode)
    have hset := renamedSet_renamedNodes (h.proper.seeded.proper k' seeded hget).2.distinct
    obtain ⟨w, hw, hw'⟩ := hset.there v hv
    rw [migrate_of_same hv' (builtin_nodes_plain b hb node hnode)] at hw'
    exact contains_iff.mpr ⟨w, hw, same_trans hw' hv'⟩

/-- A save does not begin with a byte-order mark. -/
theorem dropWhile_save (store : PermissionStore) :
    (savePermissions store).dropWhile (fun c => c = byteOrderMark) = savePermissions store := by
  have hcons : ∃ rest, savePermissions store = '<' :: rest := ⟨_, rfl⟩
  obtain ⟨rest, hrest⟩ := hcons
  rw [hrest, List.dropWhile_cons, if_neg (by decide +kernel)]

theorem SeededStore.load_save (h : SeededStore casing store) {now : PermissionStore}
    (hnow : SeededStore casing now) :
    SeededStore casing ((PermissionOp.loadFromXml (some (savePermissions store))).run casing reader
      now) := by
  refine ⟨hnow.proper.run allowed_true fun _ _ _ => trivial, fun b hb => ?_⟩
  rw [PermissionOp.run, loadPermissions, dropWhile_save, parsePermissions_save h.proper]
  split_ifs
  · exact h.renamed b hb
  · exact hnow.seeded b hb

/-! ### Runs -/

/-- What every run keeps: the store and every save are seeded. -/
structure SeededRun (casing : Casing) (s : SeedState) : Prop where
  store : SeededStore casing s.store
  saves : ∀ text ∈ s.saves, ∃ saved, SeededStore casing saved ∧ text = savePermissions saved

theorem SeededRun.step {s : SeedState} (h : SeededRun casing s) {event : SeedEvent}
    (hok : KeepsBuiltins casing s event) : SeededRun casing (s.step casing reader event) := by
  cases event with
  | save =>
    refine ⟨h.store, fun text htext => ?_⟩
    rcases List.mem_append.mp htext with htext | htext
    · exact h.saves text htext
    · exact ⟨s.store, h.store, List.mem_singleton.mp htext⟩
  | load i =>
    rw [SeedState.step]
    cases htext : s.saves[i]? with
    | none => exact h
    | some text =>
      obtain ⟨saved, hsaved, rfl⟩ := h.saves text (List.mem_of_getElem? htext)
      exact ⟨hsaved.load_save h.store, h.saves⟩
  | edit op =>
    refine ⟨⟨h.store.proper.run allowed_true fun _ _ _ => trivial, fun b hb => ?_⟩, h.saves⟩
    by_cases hensure : op = .ensureDefaults
    · rw [hensure]
      exact ensureDefaults_seeded s.store b hb
    · have hload : ∀ file, op ≠ .loadFromXml file := by
        rintro file rfl
        exact hok
      obtain ⟨hhistory, hkeys⟩ := PermissionOp.run_keeps reader s.store
        hensure hload
      refine (h.store.seeded b hb).of_kept (fun k hk hsame => ?_) hhistory
      rcases hkeys k hk with hk | ⟨group, rfl, hdeleted⟩
      · exact hk
      · have hname := hok b hb
        rw [same_trans hdeleted hsame] at hname
        cases hname

/-- The node is in the group, in any spelling. -/
def InGroup (casing : Casing) (store : PermissionStore) (name node : Text) : Prop :=
  ∃ k group, store.groups.get k = some group ∧ same casing k name = true ∧
    contains casing group.nodes node = true

/-- **Defaults are seeded once.** A second `ensure_defaults` changes and reports nothing, and after
any run of edits, saves and loads that leaves the built-in groups, none puts a node back. -/
theorem seeding_defaults (casing : Casing) (reader : XmlReader) (store : PermissionStore)
    (hstore : Reachable (permissionSystem casing reader) (fun _ _ => True) store) :
    ensureDefaults casing (ensureDefaults casing store) = ensureDefaults casing store ∧
      ensureDefaultsReport casing (ensureDefaults casing store) =
        (false, ensureDefaults casing store) ∧
      ∀ s, Reachable (seedingSystem casing reader (ensureDefaults casing store))
          (KeepsBuiltins casing) s →
        ensureDefaultsReport casing s.store = (false, s.store) ∧
          ∀ b ∈ builtins, (∃ k ∈ s.store.groups.keys, same casing k b.name = true) ∧
            ∀ node, ¬ InGroup casing s.store b.name node →
              ¬ InGroup casing (ensureDefaults casing s.store) b.name node := by
  have hproper := reachable_proper allowed_true (fun _ _ _ _ _ _ => trivial) hstore
  have hseeded : SeededStore casing (ensureDefaults casing store) :=
    ⟨hproper.ensureDefaults allowed_true, ensureDefaults_seeded store⟩
  refine ⟨hseeded.ensureDefaults_eq, hseeded.report, fun s hs => ?_⟩
  have hrun : SeededRun casing s := by
    refine hs.invariant (SeededRun casing) ?_ ?_
    · rintro s rfl
      exact ⟨hseeded, fun _ htext => absurd htext List.not_mem_nil⟩
    · intro s event s' h hok hstep
      rw [← Option.some.inj hstep]
      exact h.step hok
  refine ⟨hrun.store.report, fun b hb => ⟨(hrun.store.seeded b hb).group, fun node hnot => ?_⟩⟩
  rw [hrun.store.ensureDefaults_eq]
  exact hnot

/-- An old group without a history, from which the node was taken. -/
def legacyStore : PermissionStore := getOrCreateGroup asciiCasing .empty "Admin".toList

/-- The node is given to the group and taken away once more, and the store is saved. -/
def seedingRun : List SeedEvent :=
  [.edit (.addGroupNode "ADMIN".toList "*".toList),
    .edit (.removeGroupNode "admin".toList "*".toList), .save]

theorem seeding_defaults_run :
    ∃ s, Reachable (seedingSystem asciiCasing markupReader (ensureDefaults asciiCasing legacyStore))
        (KeepsBuiltins asciiCasing) s ∧
        ((s.store.groups.get "Admin".toList).map fun group =>
          contains asciiCasing group.nodes "*".toList) = some false ∧
        ensureDefaultsReport asciiCasing s.store = (false, s.store) ∧
        let loaded := s.step asciiCasing markupReader (.load 0)
        ensureDefaultsReport asciiCasing loaded.store = (false, loaded.store) := by
  have hstore : Reachable (permissionSystem asciiCasing markupReader) (fun _ _ => True)
      legacyStore :=
    .step (a := .getOrCreateGroup "Admin".toList) (.init rfl) trivial rfl
  have hadmits : Admits (seedingSystem asciiCasing markupReader
      (ensureDefaults asciiCasing legacyStore)) (KeepsBuiltins asciiCasing)
      ⟨ensureDefaults asciiCasing legacyStore, []⟩ seedingRun := by
    have hkeeps : ∀ event ∈ seedingRun, ∀ s, KeepsBuiltins asciiCasing s event := by
      intro event hevent s
      simp only [seedingRun, List.mem_cons, List.not_mem_nil, or_false] at hevent
      rcases hevent with rfl | rfl | rfl <;> trivial
    exact .of_forall_mem (fun s event hevent => hkeeps event hevent s) _
  obtain ⟨s, hreach, hs⟩ := exists_reachable_of_run (KeepsBuiltins asciiCasing) hadmits (.init rfl)
    (P := fun s => ((s.store.groups.get "Admin".toList).map fun group =>
      contains asciiCasing group.nodes "*".toList) = some false)
    (by decide +kernel)
  have hruns := (seeding_defaults asciiCasing markupReader legacyStore hstore).2.2
  exact ⟨s, hreach, of_decide_eq_true hs, (hruns s hreach).1,
    (hruns _ (.step (a := .load 0) hreach trivial rfl)).1⟩

end BasisRust.Permissions
