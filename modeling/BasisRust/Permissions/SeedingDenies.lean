import BasisRust.Permissions.EvaluateExact
import BasisRust.Permissions.SeedingOnce

/-!
# Denies and new defaults

`seed_group` looks for a deny of the very node that it gives.  A deny of the exact node also stays
above the new grant when the nodes are evaluated, but a deny of a wildcard or of `*` gives way to
it.
-/

namespace BasisRust.Permissions

open Library

variable {casing : Casing} {reader : XmlReader} {set : TextSet} {v node : Text} {b : Builtin}

/-! ### The defaults as raw nodes -/

section

variable {node : Text}

/-- **A default allows its own key.** -/
theorem rawNode_of_isPlainNode (h : isPlainNode node = true)
    (hproper : ProperText (fun _ => True) node) : rawNode casing node = some (node, true) := by
  have hkey : ordinalIgnoreCaseKey casing node = node := key_of_isPlainNode h
  obtain ⟨-, -, hhead, -⟩ := isPlainNode_iff.mp h
  rw [rawNode, hproper.trimmed]
  cases node with
  | nil => exact absurd rfl hproper.ne_nil
  | cons c rest =>
    have hc : c ≠ '-' := fun heq => hhead (congrArg some heq)
    split
    rename_i heq
    split at heq
    · rename_i hcons
      exact absurd (List.cons.inj hcons).1 hc
    · cases heq
      rw [if_neg (show ¬ (c :: rest).isEmpty = true from Bool.false_ne_true), hkey]

theorem ne_wildcard_of_isPlainNode (h : isPlainNode node = true) (stem : Text) :
    node ≠ wildcard stem := by
  rintro rfl
  obtain ⟨-, -, -, hplain, -⟩ := isPlainNode_iff.mp h
  have hsuffix : (".*".toList).isSuffixOf (wildcard stem) = true :=
    List.isSuffixOf_iff_suffix.mpr (List.suffix_append stem _)
  rw [hplain] at hsuffix
  cases hsuffix

end

/-! ### One group -/

theorem contains_of_same {w : Text} (h : contains casing set v = true)
    (hsame : same casing v w = true) : contains casing set w = true := by
  obtain ⟨a, ha, ha'⟩ := contains_iff.mp h
  exact contains_iff.mpr ⟨a, ha, same_trans ha' hsame⟩

theorem contains_of_insert {w : Text} (h : contains casing (insert casing set v) w = true) :
    contains casing set w = true ∨ same casing v w = true := by
  obtain ⟨a, ha, hsame⟩ := contains_iff.mp h
  rcases mem_insert ha with ha | ⟨rfl, -⟩
  · exact .inl (contains_iff.mpr ⟨a, ha, hsame⟩)
  · exact .inr hsame

variable (casing) in
theorem subset_insert (set : TextSet) (w : Text) :
    ∀ v ∈ set.keys, v ∈ (insert casing set w).keys := by
  intro v hv
  unfold insert
  split_ifs
  · exact hv
  · exact mem_keys_insert.mpr (.inr hv)

theorem same_deny {a b : Text} (h : same casing a b = true) :
    same casing ('-' :: a) ('-' :: b) = true := by
  rw [same_iff] at h ⊢
  exact congrArg ((ordinalUpper casing '-').toLower :: ·) h

/-- What becomes of a group and its history: the nodes that are new to the history and not
denied. -/
structure Given (casing : Casing) (nodes : List Text) (history : TextSet)
    (group group' : PermissionGroup) : Prop where
  parents : group'.parents = group.parents
  kept : ∀ v ∈ group.nodes.keys, v ∈ group'.nodes.keys
  back : ∀ v ∈ group'.nodes.keys, v ∈ group.nodes.keys ∨
    v ∈ nodes ∧ contains casing history v = false ∧ contains casing group.nodes ('-' :: v) = false
  there : ∀ node ∈ nodes, contains casing history node = true ∨
    contains casing group'.nodes ('-' :: node) = true ∨ contains casing group'.nodes node = true

theorem contains_of_subset {set' : TextSet} (h : contains casing set v = true)
    (hsub : ∀ w ∈ set.keys, w ∈ set'.keys) : contains casing set' v = true := by
  obtain ⟨a, ha, hsame⟩ := contains_iff.mp h
  exact contains_iff.mpr ⟨a, hsub a ha, hsame⟩

theorem contains_eq_false_of_subset {set' : TextSet} (h : contains casing set' v = false)
    (hsub : ∀ w ∈ set.keys, w ∈ set'.keys) : contains casing set v = false := by
  refine Bool.eq_false_iff.mpr fun hset => ?_
  rw [contains_of_subset hset hsub] at h
  cases h

variable (casing) in
/-- **The nodes that a group gets.** -/
theorem foldl_seedNode_nodes (nodes : List Text) (history : TextSet) (group : PermissionGroup) :
    Given casing nodes history group (nodes.foldl (seedNode casing) (history, group)).2 := by
  induction nodes generalizing history group with
  | nil => exact ⟨rfl, fun _ hv => hv, fun _ hv => .inl hv, nofun⟩
  | cons node nodes ih =>
    rw [List.foldl_cons, seedNode]
    dsimp only
    split_ifs with hseeded hdenied
    · obtain ⟨hparents, hkept, hback, hthere⟩ := ih history group
      refine ⟨hparents, hkept, fun v hv => ?_, fun v hv => ?_⟩
      · exact (hback v hv).imp_right fun h => ⟨List.mem_cons_of_mem node h.1, h.2⟩
      · rcases List.mem_cons.mp hv with rfl | hv
        · exact .inl hseeded
        · exact hthere v hv
    all_goals have hgrow := subset_insert casing history node
    · obtain ⟨hparents, hkept, hback, hthere⟩ := ih (insert casing history node) group
      refine ⟨hparents, hkept, fun v hv => ?_, fun v hv => ?_⟩
      · exact (hback v hv).imp_right fun h =>
          ⟨List.mem_cons_of_mem node h.1, contains_eq_false_of_subset h.2.1 hgrow, h.2.2⟩
      · -- the head is denied, and so is what is spelled like it
        have hhead := contains_of_subset hdenied hkept
        rcases List.mem_cons.mp hv with rfl | hv
        · exact .inr (.inl hhead)
        · rcases hthere v hv with h | h
          · rcases contains_of_insert h with h | hsame
            · exact .inl h
            · exact .inr (.inl (contains_of_same hhead (same_deny hsame)))
          · exact .inr h
    · obtain ⟨hparents, hkept, hback, hthere⟩ := ih (insert casing history node)
        { group with nodes := insert casing group.nodes node }
      have hgroup := subset_insert casing group.nodes node
      refine ⟨hparents, fun v hv => hkept v (hgroup v hv), fun v hv => ?_, fun v hv => ?_⟩
      · rcases hback v hv with h | h
        · rcases mem_insert h with h | ⟨rfl, -⟩
          · exact .inl h
          · exact .inr ⟨.head _, Bool.eq_false_iff.mpr hseeded, Bool.eq_false_iff.mpr hdenied⟩
        · exact .inr ⟨List.mem_cons_of_mem node h.1, contains_eq_false_of_subset h.2.1 hgrow,
            contains_eq_false_of_subset h.2.2 hgroup⟩
      · have hhead := contains_of_subset (contains_insert_self group.nodes node) hkept
        rcases List.mem_cons.mp hv with rfl | hv
        · exact .inr (.inr hhead)
        · rcases hthere v hv with h | h
          · rcases contains_of_insert h with h | hsame
            · exact .inl h
            · exact .inr (.inr (contains_of_same hhead hsame))
          · exact .inr h

/-! ### All groups -/

/-- What `ensure_defaults` takes for the history of a group that exists. -/
def historyOf (casing : Casing) (store : PermissionStore) (b : Builtin) : TextSet :=
  match key casing store.seededDefaults b.name with
  | some k => (store.seededDefaults.get k).getD OrderedMap.empty
  | none => b.legacyNodes.foldl (insert casing) OrderedMap.empty

variable {store : PermissionStore}

theorem seedBuiltin_users (store : PermissionStore) (b : Builtin) :
    (seedBuiltin casing store b).users = store.users := by
  rw [seedBuiltin, seedLegacyGroup]
  split_ifs <;> rfl

/-- **Seeding a group that exists.** -/
theorem seedBuiltin_groups {k : Text} {group : PermissionGroup}
    (hdistinct : CaseDistinct casing store.groups.keys) (hget : store.groups.get k = some group)
    (hsame : same casing k b.name = true) :
    (seedBuiltin casing store b).groups = store.groups.insert k
      (b.nodes.foldl (seedNode casing) (historyOf casing store b, group)).2 := by
  have hkey := key_eq_some hdistinct (OrderedMap.mem_keys.mpr ⟨group, hget⟩) hsame
  rw [seedBuiltin, seedLegacyGroup, hkey, if_neg (by rw [Option.isNone_some]; decide), historyOf]
  cases hhistory : key casing store.seededDefaults b.name with
  | none =>
    have hname : key casing (store.seededDefaults.insert b.name
        (b.legacyNodes.foldl (insert casing) OrderedMap.empty)) b.name = some b.name := by
      rw [key, OrderedMap.get_insert_self, Option.isSome_some, if_pos rfl]
    dsimp only [Option.isNone_none]
    rw [if_pos rfl, seedGroup]
    dsimp only
    rw [hkey, hname]
    dsimp only [Option.getD_some]
    rw [hget, OrderedMap.get_insert_self]
    rfl
  | some k' =>
    dsimp only [Option.isNone_some]
    rw [if_neg Bool.false_ne_true, seedGroup, hkey, hhistory]
    dsimp only [Option.getD_some]
    rw [hget]

/-- Histories of other names are left. -/
theorem seedBuiltin_seededDefaults {c : Builtin} {k : Text} (hne : same casing k c.name = false) :
    (seedBuiltin casing store c).seededDefaults.get k = store.seededDefaults.get k := by
  have hgroup : ∀ store : PermissionStore,
      (seedGroup casing store c.name c.parent c.nodes).seededDefaults.get k =
        store.seededDefaults.get k := by
    intro store
    refine OrderedMap.get_insert_of_ne ?_ _
    rintro rfl
    rw [same_spelling] at hne
    cases hne
  rw [seedBuiltin, seedLegacyGroup]
  split_ifs
  · exact hgroup store
  · refine (hgroup _).trans (OrderedMap.get_insert_of_ne ?_ _)
    rintro rfl
    rw [same_refl] at hne
    cases hne
  · exact hgroup store

theorem historyOf_congr {store' : PermissionStore}
    (hdistinct' : CaseDistinct casing store'.seededDefaults.keys)
    (h : ∀ k, same casing k b.name = true →
      store'.seededDefaults.get k = store.seededDefaults.get k) :
    historyOf casing store' b = historyOf casing store b := by
  rw [historyOf, historyOf]
  cases hkey : key casing store.seededDefaults b.name with
  | some k =>
    obtain ⟨hk, hsame⟩ := key_some hkey
    obtain ⟨seeded, hget⟩ := OrderedMap.mem_keys.mp hk
    have hget' := (h k hsame).trans hget
    rw [key_eq_some hdistinct' (OrderedMap.mem_keys.mpr ⟨seeded, hget'⟩) hsame]
    dsimp only
    rw [hget, hget']
  | none =>
    have hnone : key casing store'.seededDefaults b.name = none := by
      refine key_eq_none fun k hk => Bool.eq_false_iff.mpr fun hsame => ?_
      obtain ⟨seeded, hget⟩ := OrderedMap.mem_keys.mp hk
      have hno := key_none hkey k (OrderedMap.mem_keys.mpr ⟨seeded, (h k hsame).symm.trans hget⟩)
      rw [hsame] at hno
      cases hno
    rw [hnone]

theorem ProperStore.seedBuiltin (h : ProperStore casing (fun _ => True) store) (hb : b ∈ builtins) :
    ProperStore casing (fun _ => True) (seedBuiltin casing store b) :=
  have hproper := builtins_proper b hb
  h.seedLegacyGroup hproper.name hproper.parent hproper.nodes hproper.legacyNodes

/-- What becomes of the groups when some built-in groups are seeded. -/
structure Seeds (casing : Casing) (l : List Builtin) (store after : PermissionStore) : Prop where
  users : after.users = store.users
  keys : ∀ k, k ∈ after.groups.keys ↔ k ∈ store.groups.keys
  other : ∀ k group, store.groups.get k = some group → (∀ b ∈ l, same casing k b.name = false) →
    after.groups.get k = some group
  builtin : ∀ b ∈ l, ∀ k group, store.groups.get k = some group → same casing k b.name = true →
    after.groups.get k = some (b.nodes.foldl (seedNode casing) (historyOf casing store b, group)).2

/-- **The built-in groups** one after the other. -/
theorem foldl_seedBuiltin {l : List Builtin} (hl : ∀ b ∈ l, b ∈ builtins)
    (hpairs : l.Pairwise fun (b c : Builtin) => same casing c.name b.name = false ∧
      same casing b.name c.name = false)
    (hstore : ProperStore casing (fun _ => True) store)
    (hexist : ∀ b ∈ l, ∃ k ∈ store.groups.keys, same casing k b.name = true) :
    Seeds casing l store (l.foldl (seedBuiltin casing) store) := by
  induction l generalizing store with
  | nil =>
    exact ⟨rfl, fun _ => Iff.rfl, fun _ _ hget _ => hget, nofun⟩
  | cons c l ih =>
    obtain ⟨hc, hrestPairs⟩ := List.pairwise_cons.mp hpairs
    have hproper := hstore.seedBuiltin (hl c (.head _))
    obtain ⟨kc, hkc, hsamec⟩ := hexist c (.head _)
    obtain ⟨groupc, hgetc⟩ := OrderedMap.mem_keys.mp hkc
    have hgroups := seedBuiltin_groups hstore.groups.distinct hgetc hsamec
    have hkeys : ∀ k, k ∈ (seedBuiltin casing store c).groups.keys ↔ k ∈ store.groups.keys := by
      intro k
      rw [hgroups, mem_keys_insert]
      exact ⟨fun h => h.elim (fun heq => heq ▸ hkc) id, .inr⟩
    have hget : ∀ k group, store.groups.get k = some group → same casing k c.name = false →
        (seedBuiltin casing store c).groups.get k = some group := by
      intro k group hget hne
      rw [hgroups, OrderedMap.get_insert_of_ne (fun heq => ?_)]
      · exact hget
      · rw [heq, hsamec] at hne
        cases hne
    have hrest := ih (fun b hb => hl b (List.mem_cons_of_mem c hb)) hrestPairs hproper
      fun b hb => by
        obtain ⟨k, hk, hsame⟩ := hexist b (List.mem_cons_of_mem c hb)
        exact ⟨k, (hkeys k).mpr hk, hsame⟩
    rw [List.foldl_cons]
    refine ⟨?_, fun k => (hrest.keys k).trans (hkeys k), fun k group hk hother => ?_,
      fun b hb k group hk hsame => ?_⟩
    · rw [hrest.users, seedBuiltin_users]
    · exact hrest.other k group (hget k group hk (hother c (.head _)))
        fun b hb => hother b (List.mem_cons_of_mem c hb)
    · rcases List.mem_cons.mp hb with rfl | hb
      · -- the groups after this one have other names
        have heq := hstore.groups.distinct k (OrderedMap.mem_keys.mpr ⟨group, hk⟩) kc hkc
          (same_trans hsame (same_symm hsamec))
        subst heq
        rw [hgetc] at hk
        cases hk
        refine hrest.other k _ (by rw [hgroups, OrderedMap.get_insert_self]) fun d hd => ?_
        refine Bool.eq_false_iff.mpr fun hsamed => ?_
        have hne := (hc d hd).1
        rw [same_trans (same_symm hsamed) hsame] at hne
        cases hne
      · have hother : same casing k c.name = false := by
          refine Bool.eq_false_iff.mpr fun hsamek => ?_
          have hne := (hc b hb).2
          rw [same_trans (same_symm hsamek) hsame] at hne
          cases hne
        rw [hrest.builtin b hb k group (hget k group hk hother) hsame]
        rw [historyOf_congr hproper.seeded.distinct fun k' hk' => ?_]
        refine seedBuiltin_seededDefaults (Bool.eq_false_iff.mpr fun hsamek' => ?_)
        have hne := (hc b hb).2
        rw [same_trans (same_symm hsamek') hk'] at hne
        cases hne

/-! ### Before and after -/

/-- All built-in groups exist. -/
def BuiltinsExist (casing : Casing) (store : PermissionStore) : Prop :=
  ∀ b ∈ builtins, ∃ k ∈ store.groups.keys, same casing k b.name = true

theorem seeds_ensureDefaults (hstore : ProperStore casing (fun _ => True) store)
    (hexist : BuiltinsExist casing store) :
    Seeds casing builtins store (ensureDefaults casing store) :=
  foldl_seedBuiltin (fun _ hb => hb) builtins_distinct hstore hexist

/-- A default that a group of the user gets. -/
def Added (casing : Casing) (store : PermissionStore) (uuid node : Text) : Prop :=
  ∃ b ∈ builtins, Inherits casing store uuid (ordinalIgnoreCaseKey casing b.name) ∧
    node ∈ b.nodes ∧ contains casing (historyOf casing store b) node = false ∧
      ∀ k group, store.groups.get k = some group → same casing k b.name = true →
        contains casing group.nodes ('-' :: node) = false

section

variable {after : PermissionStore} (h : Seeds casing builtins store after)
include h

theorem Seeds.group {k : Text}
    {group : PermissionGroup} (hget : store.groups.get k = some group) :
    after.groups.get k = some group ∨
      ∃ b ∈ builtins, same casing k b.name = true ∧ ∃ group', after.groups.get k = some group' ∧
        Given casing b.nodes (historyOf casing store b) group group' := by
  by_cases hother : ∀ b ∈ builtins, same casing k b.name = false
  · exact .inl (h.other k group hget hother)
  · simp only [not_forall, Bool.not_eq_false] at hother
    obtain ⟨b, hb, hsame⟩ := hother
    exact .inr ⟨b, hb, hsame, _, h.builtin b hb k group hget hsame, foldl_seedNode_nodes _ _ _ _⟩

theorem Seeds.parents {k : Text}
    {group' : PermissionGroup} (hget : after.groups.get k = some group') :
    ∃ group, store.groups.get k = some group ∧ group'.parents = group.parents := by
  obtain ⟨group, hgroup⟩ := OrderedMap.mem_keys.mp
    ((h.keys k).mp (OrderedMap.mem_keys.mpr ⟨group', hget⟩))
  refine ⟨group, hgroup, ?_⟩
  rcases h.group hgroup with hsame | ⟨b, -, -, group'', hget'', hgiven⟩
  · rw [Option.some.inj (hget.symm.trans hsame)]
  · rw [Option.some.inj (hget.symm.trans hget'')]
    exact hgiven.parents

theorem Seeds.inherits
    {uuid key : Text} : Inherits casing after uuid key ↔ Inherits casing store uuid key := by
  have hedges : Parent casing after = Parent casing store := by
    funext a b
    refine propext ⟨?_, ?_⟩
    · rintro ⟨k, group', hget, hk, p, hp, hpb⟩
      obtain ⟨group, hgroup, hparents⟩ := h.parents hget
      exact ⟨k, group, hgroup, hk, p, hparents ▸ hp, hpb⟩
    · rintro ⟨k, group, hgroup, hk, p, hp, hpb⟩
      obtain ⟨group', hget⟩ := OrderedMap.mem_keys.mp
        ((h.keys k).mpr (OrderedMap.mem_keys.mpr ⟨group, hgroup⟩))
      obtain ⟨group₀, hgroup₀, hparents⟩ := h.parents hget
      rw [hgroup, Option.some.injEq] at hgroup₀
      exact ⟨k, group', hget, hk, p, by rwa [hparents, ← hgroup₀], hpb⟩
  have hstart : ∀ name, StartGroup casing after uuid name ↔ StartGroup casing store uuid name := by
    intro name
    rw [StartGroup, StartGroup, h.users]
  rw [Inherits, Inherits, hedges]
  exact exists_congr fun name => and_congr_left' (hstart name)

end

variable {uuid : Text}

variable (uuid) in
/-- **What is collected** after the seeding: what was collected before, and added defaults. -/
theorem collected_ensureDefaults (hstore : ProperStore casing (fun _ => True) store)
    (hexist : BuiltinsExist casing store) :
    (∀ raw ∈ collected casing store uuid,
      raw ∈ collected casing (ensureDefaults casing store) uuid) ∧
      (∀ raw ∈ collected casing (ensureDefaults casing store) uuid,
        raw ∈ collected casing store uuid ∨ Added casing store uuid raw) ∧
      ∀ node, Added casing store uuid node →
        ∃ raw ∈ collected casing (ensureDefaults casing store) uuid,
          same casing raw node = true := by
  have h := seeds_ensureDefaults hstore hexist
  refine ⟨?_, ?_, ?_⟩
  · rintro raw (⟨k, group, hget, hinherits, hraw⟩ | ⟨k, u, hu, hsame, hraw⟩)
    · left
      rcases h.group hget with hget' | ⟨b, -, -, group', hget', hgiven⟩
      · exact ⟨k, group, hget', h.inherits.mpr hinherits, hraw⟩
      · exact ⟨k, group', hget', h.inherits.mpr hinherits, hgiven.kept raw hraw⟩
    · exact .inr ⟨k, u, by rw [h.users]; exact hu, hsame, hraw⟩
  · rintro raw (⟨k, group', hget', hinherits, hraw⟩ | ⟨k, u, hu, hsame, hraw⟩)
    · obtain ⟨group, hget, -⟩ := h.parents hget'
      rcases h.group hget with hsame' | ⟨b, hb, hname, group'', hget'', hgiven⟩
      · rw [Option.some.inj (hget'.symm.trans hsame')] at hraw
        exact .inl (.inl ⟨k, group, hget, h.inherits.mp hinherits, hraw⟩)
      · rw [Option.some.inj (hget'.symm.trans hget'')] at hraw
        rcases hgiven.back raw hraw with hraw | ⟨hnode, hnew, hdenied⟩
        · exact .inl (.inl ⟨k, group, hget, h.inherits.mp hinherits, hraw⟩)
        · refine .inr ⟨b, hb, ?_, hnode, hnew, fun k' g hg hk' => ?_⟩
          · rw [← same_iff.mp hname]
            exact h.inherits.mp hinherits
          · have hkey := hstore.groups.distinct k' (OrderedMap.mem_keys.mpr ⟨g, hg⟩) k
              (OrderedMap.mem_keys.mpr ⟨group, hget⟩) (same_trans hk' (same_symm hname))
            rw [hkey, hget] at hg
            rw [← Option.some.inj hg]
            exact hdenied
    · exact .inl (.inr ⟨k, u, by rw [← h.users]; exact hu, hsame, hraw⟩)
  · rintro node ⟨b, hb, hinherits, hnode, hnew, hdenied⟩
    obtain ⟨k, hk, hname⟩ := hexist b hb
    obtain ⟨group, hget⟩ := OrderedMap.mem_keys.mp hk
    have hget' := h.builtin b hb k group hget hname
    have hgiven := foldl_seedNode_nodes casing b.nodes (historyOf casing store b) group
    have hplain := builtin_nodes_plain b hb
    have hhas : contains casing
        (b.nodes.foldl (seedNode casing) (historyOf casing store b, group)).2.nodes
          node = true := by
      rcases hgiven.there node hnode with hold | hdeny | hhas
      · rw [hnew] at hold
        cases hold
      · -- a deny in the group now is one that was there, since no default is a deny
        obtain ⟨w, hw, hsame⟩ := contains_iff.mp hdeny
        rcases hgiven.back w hw with hw | ⟨hw, -⟩
        · have hno := hdenied k group hget hname
          rw [contains_iff.mpr ⟨w, hw, hsame⟩] at hno
          cases hno
        · rw [same_deny_of_isPlainNode (hplain w hw)] at hsame
          cases hsame
      · exact hhas
    obtain ⟨raw, hraw, hsame⟩ := contains_iff.mp hhas
    refine ⟨raw, .inl ⟨k, _, hget', h.inherits.mpr ?_, hraw⟩, hsame⟩
    rw [same_iff.mp hname]
    exact hinherits

/-- A default that is added allows its own key. -/
theorem Added.rawNode (h : Added casing store uuid node) :
    isPlainNode node = true ∧ rawNode casing node = some (node, true) := by
  obtain ⟨b, hb, -, hnode, -⟩ := h
  have hplain := builtin_nodes_plain b hb node hnode
  exact ⟨hplain, rawNode_of_isPlainNode hplain ((builtins_proper b hb).nodes node hnode)⟩

/-! ### Denies -/

/-- A text whose key is that of a default is no deny. -/
theorem rawNode_of_same {raw : Text} (hplain : isPlainNode node = true) (hraw : trim raw = raw)
    (hne : node ≠ []) (hsame : same casing raw node = true) :
    rawNode casing raw = some (node, true) := by
  rw [same_iff, key_of_isPlainNode hplain] at hsame
  rw [rawNode, hraw]
  cases raw with
  | nil => exact absurd hsame.symm hne
  | cons c rest =>
    have hc : c ≠ '-' := by
      rintro rfl
      have hdeny : same casing node ('-' :: rest) = false := same_deny_of_isPlainNode hplain rest
      rw [same_iff.mpr ((key_of_isPlainNode hplain).trans hsame.symm)] at hdeny
      cases hdeny
    split
    rename_i heq
    split at heq
    · rename_i hcons
      exact absurd (List.cons.inj hcons).1 hc
    · cases heq
      rw [if_neg (show ¬ (c :: rest).isEmpty = true from Bool.false_ne_true), hsame]

/-- Every raw node of a store stands as it is trimmed. -/
theorem trim_of_collected (hstore : ProperStore casing (fun _ => True) store) {raw : Text}
    (h : raw ∈ collected casing store uuid) : trim raw = raw := by
  rcases h with ⟨k, group, hget, -, hraw⟩ | ⟨k, u, hu, -, hraw⟩
  · exact ((hstore.groups.proper k group hget).2.nodes.proper raw hraw).trimmed
  · exact ((hstore.users.proper k u hu).2.nodes.proper raw hraw).trimmed

/-- `check_node` finds a decision, and it denies: of the node, of the longest stem, or of `*`. -/
def ExplicitDeny (decision : Text → Option Bool) (node : Text) : Prop :=
  decision node = some false ∨ decision node = none ∧
    ((∃ stem, IsStem stem node ∧ decision (wildcard stem) = some false ∧
      ∀ longer, IsStem longer node → stem.length < longer.length →
        decision (wildcard longer) = none) ∨
      (∀ stem, IsStem stem node → decision (wildcard stem) = none) ∧ decision allNode = some false)

/-- The node is one of the defaults that a built-in group of the user gets: it is in none of the
group's history, and the group has no deny of it. -/
def Overridden (casing : Casing) (store : PermissionStore) (uuid node : Text) : Prop :=
  Added casing store uuid (ordinalIgnoreCaseKey casing (trim node))

section

variable (hstore : ProperStore casing (fun _ => True) store) (hexist : BuiltinsExist casing store)
include hstore hexist

/-- **Denied keys** are the same before and after. -/
theorem ruling_denied_iff (key : Text) :
    ruling casing (collected casing (ensureDefaults casing store) uuid) key = some false ↔
      ruling casing (collected casing store uuid) key = some false := by
  obtain ⟨hkept, hback, -⟩ := collected_ensureDefaults uuid hstore hexist
  rw [ruling_eq_false, ruling_eq_false]
  constructor
  · rintro ⟨raw, hraw, hdeny⟩
    rcases hback raw hraw with hraw | hadded
    · exact ⟨raw, hraw, hdeny⟩
    · rw [hadded.rawNode.2] at hdeny
      cases hdeny
  · rintro ⟨raw, hraw, hdeny⟩
    exact ⟨raw, hkept raw hraw, hdeny⟩

/-- **Other keys** are decided as before. -/
theorem ruling_of_not_added {key : Text} (hkey : ¬ Added casing store uuid key) :
    ruling casing (collected casing (ensureDefaults casing store) uuid) key =
      ruling casing (collected casing store uuid) key := by
  obtain ⟨hkept, hback, -⟩ := collected_ensureDefaults uuid hstore hexist
  refine ruling_congr fun allow => ⟨?_, ?_⟩
  · rintro ⟨raw, hraw, hrule⟩
    rcases hback raw hraw with hraw | hadded
    · exact ⟨raw, hraw, hrule⟩
    · rw [hadded.rawNode.2] at hrule
      rw [← (Prod.mk.inj (Option.some.inj hrule)).1] at hkey
      exact absurd hadded hkey
  · rintro ⟨raw, hraw, hrule⟩
    exact ⟨raw, hkept raw hraw, hrule⟩

/-- **An added default is allowed**, unless it is denied. -/
theorem ruling_of_added (hadded : Added casing store uuid node)
    (hdenied : ruling casing (collected casing store uuid) node ≠ some false) :
    ruling casing (collected casing (ensureDefaults casing store) uuid) node = some true := by
  obtain ⟨-, -, hthere⟩ := collected_ensureDefaults uuid hstore hexist
  obtain ⟨raw, hraw, hsame⟩ := hthere node hadded
  obtain ⟨hplain, -⟩ := hadded.rawNode
  have hne : node ≠ [] := by
    obtain ⟨b, hb, -, hnode, -⟩ := hadded
    exact ((builtins_proper b hb).nodes node hnode).ne_nil
  have hrule := rawNode_of_same hplain
    (trim_of_collected (hstore.ensureDefaults allowed_true) hraw) hne hsame
  have hnot : ¬ ∃ raw ∈ collected casing (ensureDefaults casing store) uuid,
      rawNode casing raw = some (node, false) := fun hdeny =>
    hdenied ((ruling_denied_iff hstore hexist node).mp (ruling_eq_false.mpr hdeny))
  rw [ruling, if_neg hnot, if_pos ⟨raw, hraw, hrule⟩]

/-- **A denied node after the seeding.** -/
theorem answers_after_seeding {answer : Bool}
    (hdeny : ExplicitDeny (ruling casing (collected casing store uuid))
      (ordinalIgnoreCaseKey casing (trim node)))
    (hanswer : Answers casing (ensureDefaults casing store) uuid node answer) :
    answer = false ↔
      ruling casing (collected casing store uuid) (ordinalIgnoreCaseKey casing (trim node)) =
        some false ∨ ¬ Overridden casing store uuid node := by
  rw [Answers] at hanswer
  split_ifs at hanswer with hblank
  · -- a blank node is no default
    refine iff_of_true hanswer (.inr ?_)
    rintro ⟨b, hb, -, hnode, -⟩
    have hne := ((builtins_proper b hb).nodes _ hnode).ne_nil
    exact hne (by rw [ordinalIgnoreCaseKey, List.isEmpty_iff.mp hblank, List.map_nil])
  · rcases hdeny with hexact | ⟨hnone, hdeny⟩
    · have hafter := (ruling_denied_iff hstore hexist _).mpr hexact
      exact iff_of_true (hanswer.unique (.exact hafter)) (.inl hexact)
    · have hdenied : ruling casing (collected casing store uuid)
          (ordinalIgnoreCaseKey casing (trim node)) ≠ some false := by
        rw [hnone]
        exact (Option.some_ne_none false).symm
      by_cases hover : Overridden casing store uuid node
      · have htrue := hanswer.unique (.exact (ruling_of_added hstore hexist hover hdenied))
        refine iff_of_false (by rw [htrue]; decide) fun h => ?_
        exact h.elim hdenied fun hnot => hnot hover
      · refine iff_of_true (hanswer.unique ?_) (.inr hover)
        have hexact := (ruling_of_not_added hstore hexist hover).trans hnone
        have hwildcard : ∀ stem, ruling casing
            (collected casing (ensureDefaults casing store) uuid) (wildcard stem) =
              ruling casing (collected casing store uuid) (wildcard stem) := fun stem =>
          ruling_of_not_added hstore hexist fun hadded =>
            ne_wildcard_of_isPlainNode hadded.rawNode.1 stem rfl
        rcases hdeny with ⟨stem, hstem, hfalse, hlongest⟩ | ⟨hstems, hall⟩
        · refine .stem hexact hstem ((hwildcard stem).trans hfalse) fun longer hlonger hlt => ?_
          exact (hwildcard longer).trans (hlongest longer hlonger hlt)
        · refine .all hexact (fun stem hstem => (hwildcard stem).trans (hstems stem hstem)) ?_
          rw [(ruling_denied_iff hstore hexist allNode).mpr hall]
          rfl

end

/-- **Denies after the seeding.**  Where the decisions deny a node, it is still denied after
`ensure_defaults` if and only if the deny is of the node itself or no group gets the node. -/
theorem denied_after_seeding (casing : Casing) (reader : XmlReader) (store : PermissionStore)
    (hstore : Reachable (permissionSystem casing reader) (fun _ _ => True) store)
    (hexist : BuiltinsExist casing store) (order : HashOrder) (horder : order.Of store) (fuel : ℕ)
    (hfuel : store.groups.len < fuel) (uuid node : Text) (decisions : OrderedMap Text Bool)
    (hdecisions : effectiveDecisions casing store order fuel uuid = some decisions)
    (hdeny : ExplicitDeny decisions.get (ordinalIgnoreCaseKey casing (trim node))) :
    (∀ order : HashOrder, order.Of (ensureDefaults casing store) → ∀ fuel,
      (ensureDefaults casing store).groups.len < fuel →
        has casing (ensureDefaults casing store) order fuel uuid node = some false) ↔
      decisions.get (ordinalIgnoreCaseKey casing (trim node)) = some false ∨
        ¬ Overridden casing store uuid node := by
  have hproper := reachable_proper allowed_true (fun _ _ _ _ _ _ => trivial) hstore
  have hafter := hproper.ensureDefaults allowed_true
  obtain ⟨decisions', hdecisions', hget⟩ := effectiveDecisions_spec hproper.users.distinct
    hproper.groups.distinct horder hfuel uuid
  obtain rfl : decisions' = decisions := Option.some.inj (hdecisions'.symm.trans hdecisions)
  rw [show decisions'.get = ruling casing (collected casing store uuid) from funext hget] at hdeny ⊢
  have hspec : ∀ {order : HashOrder} {fuel : ℕ}, order.Of (ensureDefaults casing store) →
      (ensureDefaults casing store).groups.len < fuel →
        ∃ answer, has casing (ensureDefaults casing store) order fuel uuid node = some answer ∧
          Answers casing (ensureDefaults casing store) uuid node answer :=
    fun horder hfuel =>
      has_spec hafter.users.distinct hafter.groups.distinct horder hfuel uuid node
  constructor
  · intro hall
    obtain ⟨answer, hhas, hanswer⟩ := hspec (HashOrder.sorted_of _) (Nat.lt_succ_self _)
    rw [hall _ (HashOrder.sorted_of _) _ (Nat.lt_succ_self _), Option.some.injEq] at hhas
    exact (answers_after_seeding hproper hexist hdeny hanswer).mp hhas.symm
  · intro hcondition order horder fuel hfuel
    obtain ⟨answer, hhas, hanswer⟩ := hspec horder hfuel
    rw [hhas, (answers_after_seeding hproper hexist hdeny hanswer).mpr hcondition]

/-- Groups of an old file, and a user to whom a wildcard is denied. -/
def deniedStore : PermissionStore :=
  let store := getOrCreateGroup asciiCasing .empty "default".toList
  let store := getOrCreateGroup asciiCasing store "moderator".toList
  let store := getOrCreateGroup asciiCasing store "admin".toList
  addUserNode asciiCasing store "u".toList "-basis.*".toList

theorem deniedStore_reachable :
    Reachable (permissionSystem asciiCasing markupReader) (fun _ _ => True) deniedStore := by
  have hdefault : Reachable (permissionSystem asciiCasing markupReader) (fun _ _ => True)
      (getOrCreateGroup asciiCasing .empty "default".toList) :=
    .step (a := .getOrCreateGroup "default".toList) (.init rfl) trivial rfl
  have hmoderator := hdefault.step (a := .getOrCreateGroup "moderator".toList) trivial rfl
  have hadmin := hmoderator.step (a := .getOrCreateGroup "admin".toList) trivial rfl
  exact hadmin.step (a := .addUserNode "u".toList "-basis.*".toList) trivial rfl

theorem deniedStore_builtins : BuiltinsExist asciiCasing deniedStore := by
  unfold BuiltinsExist
  decide +kernel

def deniedDecisions : OrderedMap Text Bool := OrderedMap.empty.insert "basis.*".toList false

theorem deniedStore_decisions :
    effectiveDecisions asciiCasing deniedStore (.sorted deniedStore) 4 "u".toList =
      some deniedDecisions := by
  decide +kernel

/-- What begins with `basis.` is denied by the wildcard. -/
theorem deniedDecisions_deny (rest : Text) (hrest : rest ≠ ['*']) :
    ExplicitDeny deniedDecisions.get ("basis".toList ++ '.' :: rest) := by
  have hget : ∀ {k : Text}, k ≠ "basis.*".toList → deniedDecisions.get k = none :=
    fun hk => OrderedMap.get_insert_of_ne hk _
  refine .inr
    ⟨hget fun heq => hrest ?_, .inl ⟨"basis".toList, ⟨rest, rfl⟩, ?_, fun longer _ hlt => ?_⟩⟩
  · exact (List.cons.inj (List.append_cancel_left
      (heq.trans (show "basis.*".toList = "basis".toList ++ '.' :: ['*'] by decide)))).2
  · exact OrderedMap.get_insert_self _ _ _
  · refine hget fun heq => ?_
    have hlength := congrArg List.length heq
    rw [wildcard, List.length_append] at hlength
    have hbasis : "basis".toList.length = 5 := by decide
    have hwild : "basis.*".toList.length = 7 := by decide
    have hstar : ".*".toList.length = 2 := by decide
    omega

theorem denied_after_seeding_legacy :
    has asciiCasing (ensureDefaults asciiCasing deniedStore)
      (.sorted (ensureDefaults asciiCasing deniedStore)) 5 "u".toList
      "basis.command.help".toList = some false := by
  have hkey : ordinalIgnoreCaseKey asciiCasing (trim "basis.command.help".toList) =
      "basis".toList ++ '.' :: "command.help".toList := by decide +kernel
  have hdeny := deniedDecisions_deny "command.help".toList (by decide)
  rw [← hkey] at hdeny
  refine (denied_after_seeding asciiCasing markupReader deniedStore deniedStore_reachable
    deniedStore_builtins (.sorted deniedStore) (HashOrder.sorted_of _) 4 (by decide +kernel)
    "u".toList "basis.command.help".toList deniedDecisions deniedStore_decisions hdeny).mpr
    (.inr ?_) _ (HashOrder.sorted_of _) 5 (by decide +kernel)
  rintro ⟨b, hb, -, hnode, hnew, -⟩
  have hold : (builtins.all fun b => !b.nodes.contains "basis.command.help".toList ||
      contains asciiCasing (historyOf asciiCasing deniedStore b) "basis.command.help".toList) =
        true := by decide +kernel
  have hb := List.all_eq_true.mp hold b hb
  rw [hkey, show "basis".toList ++ '.' :: "command.help".toList =
    "basis.command.help".toList by decide]
    at hnode hnew
  rw [hnew, List.contains_iff_mem.mpr hnode] at hb
  cases hb

/-- A user who may not use the storage, by a wildcard, may use it after an upgrade has added the
node to the group of all users. -/
theorem wildcard_deny_overridden :
    Reachable (permissionSystem asciiCasing markupReader) (fun _ _ => True) deniedStore ∧
      BuiltinsExist asciiCasing deniedStore ∧
      effectiveDecisions asciiCasing deniedStore (.sorted deniedStore) 4 "u".toList =
        some deniedDecisions ∧
      ExplicitDeny deniedDecisions.get "basis.storage.use".toList ∧
      has asciiCasing deniedStore (.sorted deniedStore) 4 "u".toList "basis.storage.use".toList =
        some false ∧
      has asciiCasing (ensureDefaults asciiCasing deniedStore)
        (.sorted (ensureDefaults asciiCasing deniedStore)) 4 "u".toList "basis.storage.use".toList =
          some true := by
  have hdeny := deniedDecisions_deny "storage.use".toList (by decide)
  rw [show "basis".toList ++ '.' :: "storage.use".toList =
    "basis.storage.use".toList by decide] at hdeny
  exact ⟨deniedStore_reachable, deniedStore_builtins, deniedStore_decisions,
    hdeny, by decide +kernel, by decide +kernel⟩

end BasisRust.Permissions
