import BasisRust.Library.Yields
import BasisRust.Permissions.Xml

/-!
# What every operation keeps

`ProperStore` says of a store that no two keys and no two members of a set are equal without regard
to case, that every text in it has no white space around it where the code trims and is not blank,
and that every text has a property `ok`, which may be any that holds of the texts of the code
itself.
-/

namespace BasisRust.Permissions

open Library

variable {casing : Casing} {a b v : Text} {s : TextSet} {store : PermissionStore}

/-! ### Case -/

theorem ordinalUpper_ascii {c : Char} (h : c.toNat < 128) :
    (ordinalUpper casing c).toLower = c.toLower := by
  have hround : ∀ n < 128, (Char.ofNat n).toUpper.toLower = (Char.ofNat n).toLower := by decide
  have hupper : ordinalUpper casing c = c.toUpper := by
    unfold ordinalUpper
    dsimp only
    rw [if_neg (by omega), if_neg (by omega), if_neg (by omega), if_neg (by omega),
      if_neg (by omega), casing.ascii c h]
  have hc := hround c.toNat h
  rw [Char.ofNat_toNat] at hc
  rw [hupper, hc]

theorem ordinalIgnoreCaseKey_ascii {value : Text} (h : isAscii value = true) :
    ordinalIgnoreCaseKey casing value = value.map Char.toLower := by
  refine List.map_congr_left ?_
  intro c hc
  exact ordinalUpper_ascii (of_decide_eq_true (List.all_eq_true.mp h c hc))

theorem same_iff :
    same casing a b = true ↔ ordinalIgnoreCaseKey casing a = ordinalIgnoreCaseKey casing b := by
  show (if _ then _ else _) = true ↔ _
  by_cases h : (isAscii a && isAscii b) = true
  · obtain ⟨ha, hb⟩ := Bool.and_eq_true_iff.mp h
    rw [if_pos h, decide_eq_true_eq, ordinalIgnoreCaseKey_ascii ha, ordinalIgnoreCaseKey_ascii hb]
  · rw [if_neg h, decide_eq_true_eq]

theorem same_refl (a : Text) : same casing a a = true := same_iff.mpr rfl

theorem same_symm (h : same casing a b = true) : same casing b a = true :=
  same_iff.mpr (same_iff.mp h).symm

theorem same_trans {c : Text} (h : same casing a b = true) (h' : same casing b c = true) :
    same casing a c = true :=
  same_iff.mpr ((same_iff.mp h).trans (same_iff.mp h'))

/-- No two are equal without regard to case. -/
def CaseDistinct (casing : Casing) (keys : List Text) : Prop :=
  ∀ a ∈ keys, ∀ b ∈ keys, same casing a b = true → a = b

/-! ### Keys and members -/

section

variable {α : Type} {m : OrderedMap Text α} {s : TextSet} {wanted k value v : Text}

theorem key_some (h : key casing m wanted = some k) : k ∈ m.keys ∧ same casing k wanted = true := by
  unfold key at h
  split at h
  · rename_i hget
    cases h
    exact ⟨OrderedMap.mem_keys.mpr (Option.isSome_iff_exists.mp hget), same_refl wanted⟩
  · exact ⟨List.mem_of_find?_eq_some h, by simpa using List.find?_some h⟩

theorem key_none (h : key casing m wanted = none) : ∀ k ∈ m.keys, same casing k wanted = false := by
  unfold key at h
  split at h
  · cases h
  · intro k hk
    exact eq_false_of_ne_true (List.find?_eq_none.mp h k hk)

theorem key_eq_none (h : ∀ k ∈ m.keys, same casing k wanted = false) :
    key casing m wanted = none := by
  cases hkey : key casing m wanted with
  | none => rfl
  | some k =>
    obtain ⟨hmem, hsame⟩ := key_some hkey
    rw [h k hmem] at hsame
    cases hsame

/-- The key that an entry has or gets. -/
theorem same_spelling (m : OrderedMap Text α) (name : Text) :
    same casing ((key casing m name).getD name) name = true := by
  cases hkey : key casing m name with
  | none => exact same_refl name
  | some k => exact (key_some hkey).2

theorem ne_of_same {a b k' : Text} (hne : same casing a b = false) (hk : same casing k b = true)
    (hk' : same casing k' a = true) : k ≠ k' := by
  rintro rfl
  rw [same_trans (same_symm hk') hk] at hne
  cases hne

theorem contains_iff :
    contains casing s value = true ↔ ∃ v ∈ s.keys, same casing v value = true := by
  unfold contains
  rw [Bool.or_eq_true, List.any_eq_true]
  refine or_iff_right_of_imp ?_
  intro hget
  exact ⟨value, OrderedMap.mem_keys.mpr (Option.isSome_iff_exists.mp hget), same_refl value⟩

theorem mem_keys_insert {x : α} : v ∈ (m.insert k x).keys ↔ v = k ∨ v ∈ m.keys := by
  rw [OrderedMap.mem_keys, OrderedMap.mem_keys]
  by_cases h : v = k
  · rw [h, OrderedMap.get_insert_self]
    simp
  · rw [OrderedMap.get_insert_of_ne h]
    simp [h]

theorem mem_keys_erase : v ∈ (m.erase k).keys ↔ v ≠ k ∧ v ∈ m.keys := by
  rw [OrderedMap.mem_keys, OrderedMap.mem_keys, OrderedMap.get_erase]
  by_cases h : v = k
  · simp [h]
  · simp [h]

theorem mem_insert (h : v ∈ (insert casing s value).keys) :
    v ∈ s.keys ∨ v = value ∧ contains casing s value = false := by
  unfold insert at h
  split at h
  · exact .inl h
  · rename_i hnew
    exact (mem_keys_insert.mp h).symm.imp_right fun heq => ⟨heq, eq_false_of_ne_true hnew⟩

theorem mem_remove (h : v ∈ (remove casing s value).keys) : v ∈ s.keys := by
  unfold remove at h
  split at h
  · exact (mem_keys_erase.mp h).2
  · split at h
    · exact h
    · exact (mem_keys_erase.mp h).2

end

/-! ### Sets -/

/-- A text as it stands in a set. -/
structure ProperText (ok : Text → Prop) (v : Text) : Prop where
  trimmed : trim v = v
  ne_nil : v ≠ []
  ok : ok v

/-- Set members are distinct and proper. -/
structure ProperSet (casing : Casing) (ok : Text → Prop) (s : TextSet) : Prop where
  distinct : CaseDistinct casing s.keys
  proper : ∀ v ∈ s.keys, ProperText ok v

variable {ok : Text → Prop}

theorem ProperSet.empty : ProperSet casing ok OrderedMap.empty :=
  ⟨fun _ h => (nomatch h), fun _ h => (nomatch h)⟩

theorem ProperSet.insert {value : Text} (h : ProperSet casing ok s) (hv : ProperText ok value) :
    ProperSet casing ok (insert casing s value) := by
  constructor
  · intro a hain b hbin hsame
    rcases mem_insert hain with ha | ⟨hav, hnew⟩
    · rcases mem_insert hbin with hb | ⟨hbv, hnew⟩
      · exact h.distinct a ha b hb hsame
      · rw [contains_iff.mpr ⟨a, ha, hbv ▸ hsame⟩] at hnew
        cases hnew
    · rcases mem_insert hbin with hb | ⟨hbv, _⟩
      · rw [contains_iff.mpr ⟨b, hb, hav ▸ same_symm hsame⟩] at hnew
        cases hnew
      · rw [hav, hbv]
  · intro v hmem
    rcases mem_insert hmem with hmem | ⟨rfl, _⟩
    · exact h.proper v hmem
    · exact hv

theorem ProperSet.remove (h : ProperSet casing ok s) (value : Text) :
    ProperSet casing ok (remove casing s value) :=
  ⟨fun a ha b hb => h.distinct a (mem_remove ha) b (mem_remove hb),
    fun v hv => h.proper v (mem_remove hv)⟩

theorem ProperSet.singleton (hv : ProperText ok v) :
    ProperSet casing ok (OrderedMap.empty.insert v ()) :=
  ProperSet.empty.insert hv

theorem ProperSet.foldl {values : List Text} (h : ProperSet casing ok s)
    (hvalues : ∀ v ∈ values, ProperText ok v) :
    ProperSet casing ok (values.foldl (Permissions.insert casing) s) :=
  List.foldlRecOn values _ h fun _ hs v hv => hs.insert (hvalues v hv)

/-! ### Maps -/

/-- A key is not blank. -/
structure ProperKey (ok : Text → Prop) (k : Text) : Prop where
  blank : isBlank k = false
  ok : ok k

/-- Map keys are distinct and proper, and each entry fits its key. -/
structure ProperMap {α : Type} (casing : Casing) (ok : Text → Prop) (P : Text → α → Prop)
    (m : OrderedMap Text α) : Prop where
  distinct : CaseDistinct casing m.keys
  proper : ∀ k x, m.get k = some x → ProperKey ok k ∧ P k x

section

variable {α : Type} {P : Text → α → Prop} {m : OrderedMap Text α}

theorem ProperMap.empty : ProperMap casing ok P OrderedMap.empty :=
  ⟨fun _ h => (nomatch h), fun _ _ h => (nomatch h)⟩

section

variable (h : ProperMap casing ok P m)
include h

theorem ProperMap.insert {k : Text} {x : α} (hk : ProperKey ok k)
    (honly : ∀ k' ∈ m.keys, same casing k' k = true → k' = k) (hx : P k x) :
    ProperMap casing ok P (m.insert k x) := by
  constructor
  · intro a hain b hbin hsame
    rcases mem_keys_insert.mp hain with hak | ha
    · rcases mem_keys_insert.mp hbin with hbk | hb
      · rw [hak, hbk]
      · rw [hak, honly b hb (hak ▸ same_symm hsame)]
    · rcases mem_keys_insert.mp hbin with hbk | hb
      · rw [hbk, honly a ha (hbk ▸ hsame)]
      · exact h.distinct a ha b hb hsame
  · intro k' y hy
    rw [OrderedMap.get_insert] at hy
    split at hy
    · rename_i heq
      cases hy
      exact heq ▸ ⟨hk, hx⟩
    · exact h.proper k' y hy

/-- The key under which a name is entered. -/
theorem ProperMap.spelling {name : Text} (hname : ProperKey ok name) :
    ProperKey ok ((key casing m name).getD name) ∧
      ∀ k ∈ m.keys, same casing k ((key casing m name).getD name) = true →
        k = (key casing m name).getD name := by
  cases hkey : key casing m name with
  | none =>
    refine ⟨hname, ?_⟩
    intro k hk hsame
    rw [Option.getD_none, key_none hkey k hk] at hsame
    cases hsame
  | some k =>
    obtain ⟨hmem, -⟩ := key_some hkey
    obtain ⟨x, hx⟩ := OrderedMap.mem_keys.mp hmem
    exact ⟨(h.proper k x hx).1, fun k' hk' hsame => h.distinct k' hk' k hmem hsame⟩

/-- The entry of a name, or a new one. -/
theorem ProperMap.entry (name : Text) {x : α} (hx : P name x) :
    P ((key casing m name).getD name) ((m.get ((key casing m name).getD name)).getD x) := by
  cases hkey : key casing m name with
  | none =>
    cases hget : m.get name with
    | none =>
      rw [Option.getD_none, hget]
      exact hx
    | some y =>
      rw [Option.getD_none, hget]
      exact (h.proper name y hget).2
  | some k =>
    obtain ⟨y, hy⟩ := OrderedMap.mem_keys.mp (key_some hkey).1
    rw [Option.getD_some, hy]
    exact (h.proper k y hy).2

theorem ProperMap.erase (k : Text) : ProperMap casing ok P (m.erase k) := by
  constructor
  · intro a ha b hb
    exact h.distinct a (mem_keys_erase.mp ha).2 b (mem_keys_erase.mp hb).2
  · intro k' x hx
    rw [OrderedMap.get_erase] at hx
    split at hx
    · cases hx
    · exact h.proper k' x hx

theorem ProperMap.mapValues {f : α → α}
    (hf : ∀ k x, P k x → P k (f x)) : ProperMap casing ok P (m.mapValues f) := by
  constructor
  · rw [OrderedMap.keys_mapValues]
    exact h.distinct
  · intro k x hx
    rw [OrderedMap.get_mapValues] at hx
    obtain ⟨y, hy, rfl⟩ := Option.map_eq_some_iff.mp hx
    obtain ⟨hk, hP⟩ := h.proper k y hy
    exact ⟨hk, hf k y hP⟩

theorem ProperMap.update {f : α → α}
    (hf : ∀ k x, P k x → P k (f x)) (k : Text) : ProperMap casing ok P (update m k f) := by
  unfold Permissions.update
  cases hget : m.get k with
  | none => exact h
  | some x =>
    obtain ⟨hk, hP⟩ := h.proper k x hget
    refine h.insert hk ?_ (hf k x hP)
    intro k' hk' hsame
    exact h.distinct k' hk' k (OrderedMap.mem_keys.mpr ⟨x, hget⟩) hsame

end

end

/-! ### The store -/

structure ProperUser (casing : Casing) (ok : Text → Prop) (k : Text) (u : PermissionUser) :
    Prop where
  uuid : u.uuid = k
  nodes : ProperSet casing ok u.nodes
  groups : ProperSet casing ok u.groups

structure ProperGroup (casing : Casing) (ok : Text → Prop) (k : Text) (g : PermissionGroup) :
    Prop where
  name : g.name = k
  nodes : ProperSet casing ok g.nodes
  parents : ProperSet casing ok g.parents

structure ProperStore (casing : Casing) (ok : Text → Prop) (store : PermissionStore) : Prop where
  users : ProperMap casing ok (ProperUser casing ok) store.users
  groups : ProperMap casing ok (ProperGroup casing ok) store.groups
  seeded : ProperMap casing ok (fun _ => ProperSet casing ok) store.seededDefaults

theorem ProperStore.empty : ProperStore casing ok .empty := ⟨.empty, .empty, .empty⟩

/-- The texts of the code. -/
def knownTexts : List Text :=
  [defaultGroup, moderatorGroup, adminGroup, moderationAnnounce, '-' :: moderationAnnounce] ++
    defaultGroupNodes ++ moderatorGroupNodes ++ legacyDefaultGroupNodes ++
      legacyModeratorGroupNodes ++
    allNodes

/-- A property that trimming keeps and that holds of the texts of the code. -/
structure Allowed (ok : Text → Prop) : Prop where
  known : ∀ v ∈ knownTexts, ok v
  trim : ∀ v, ok v → ok (trim v)

theorem knownTexts_trimmed : (knownTexts.all fun v => trim v = v && !v.isEmpty) = true := by
  decide +kernel

theorem Allowed.properText (hok : Allowed ok) (hv : v ∈ knownTexts) : ProperText ok v := by
  have htrim := List.all_eq_true.mp knownTexts_trimmed v hv
  rw [Bool.and_eq_true, decide_eq_true_eq, Bool.not_eq_true', List.isEmpty_eq_false_iff] at htrim
  exact ⟨htrim.1, htrim.2, hok.known v hv⟩

theorem ProperText.key (h : ProperText ok v) : ProperKey ok v := by
  refine ⟨?_, h.ok⟩
  unfold isBlank
  rw [h.trimmed]
  exact List.isEmpty_eq_false_iff.mpr h.ne_nil

/-- What is left of a text that is not blank. -/
theorem properText_trim (hblank : isBlank v = false) (hok : ok (trim v)) :
    ProperText ok (trim v) :=
  ⟨trim_trim v, List.isEmpty_eq_false_iff.mp hblank, hok⟩

section

variable {store : PermissionStore} {name : Text} {nodes : List Text}

theorem ProperStore.userMut (h : ProperStore casing ok store) (hok : Allowed ok) {uuid : Text}
    (huuid : ProperKey ok uuid) {f : PermissionUser → PermissionUser}
    (hf : ∀ k u, ProperUser casing ok k u → ProperUser casing ok k (f u)) :
    ProperStore casing ok (userMut casing store uuid f) := by
  have hnew : ProperUser casing ok uuid
      ⟨uuid, OrderedMap.empty, OrderedMap.empty.insert defaultGroup ()⟩ :=
    ⟨rfl, .empty, .singleton (hok.properText (by simp [knownTexts]))⟩
  obtain ⟨hkey, honly⟩ := h.users.spelling huuid
  exact { h with users := h.users.insert hkey honly (hf _ _ (h.users.entry uuid hnew)) }

theorem ProperStore.groupMut (h : ProperStore casing ok store) (hname : ProperKey ok name)
    {f : PermissionGroup → PermissionGroup}
    (hf : ∀ k g, ProperGroup casing ok k g → ProperGroup casing ok k (f g)) :
    ProperStore casing ok (groupMut casing store name f) := by
  have hnew : ProperGroup casing ok name ⟨name, OrderedMap.empty, OrderedMap.empty⟩ :=
    ⟨rfl, .empty, .empty⟩
  obtain ⟨hkey, honly⟩ := h.groups.spelling hname
  exact { h with groups := h.groups.insert hkey honly (hf _ _ (h.groups.entry name hnew)) }

theorem ProperGroup.seedNodes {k : Text} (hnodes : ∀ v ∈ nodes, ProperText ok v)
    (acc : TextSet × PermissionGroup) (hset : ProperSet casing ok acc.1)
    (hgroup : ProperGroup casing ok k acc.2) :
    ProperSet casing ok (nodes.foldl (seedNode casing) acc).1 ∧
      ProperGroup casing ok k (nodes.foldl (seedNode casing) acc).2 := by
  refine List.foldlRecOn nodes _ (motive := fun acc : TextSet × PermissionGroup =>
    ProperSet casing ok acc.1 ∧ ProperGroup casing ok k acc.2) ⟨hset, hgroup⟩ ?_
  rintro acc ⟨hset, hgroup⟩ v hv
  unfold seedNode
  split
  · exact ⟨hset, hgroup⟩
  · refine ⟨hset.insert (hnodes v hv), ?_⟩
    dsimp only
    split
    · exact hgroup
    · exact { hgroup with nodes := hgroup.nodes.insert (hnodes v hv) }

section

variable (h : ProperStore casing ok store)
include h

theorem ProperStore.seedGroup {parent : Option Text} (hname : ProperText ok name)
    (hparent : ∀ p ∈ parent, ProperText ok p) (hnodes : ∀ v ∈ nodes, ProperText ok v) :
    ProperStore casing ok (seedGroup casing store name parent nodes) := by
  obtain ⟨hkey, honly⟩ := h.groups.spelling hname.key
  obtain ⟨hseededKey, hseededOnly⟩ := h.seeded.spelling hname.key
  have hparents : ProperSet casing ok
      (parent.elim OrderedMap.empty fun p => OrderedMap.empty.insert p ()) := by
    cases parent with
    | none => exact .empty
    | some p => exact .singleton (hparent p rfl)
  have hentry := h.groups.entry name
    (x :=
      ⟨name, OrderedMap.empty, parent.elim OrderedMap.empty fun p => OrderedMap.empty.insert p ()⟩)
    ⟨rfl, .empty, hparents⟩
  have hseeded := h.seeded.entry name (x := OrderedMap.empty) .empty
  have hdone := fun seeded (hs : ProperSet casing ok seeded) =>
    ProperGroup.seedNodes hnodes (seeded, _) hs hentry
  unfold Permissions.seedGroup
  dsimp only
  cases hget : store.groups.get ((key casing store.groups name).getD name) with
  | none =>
    rw [hget] at hdone
    obtain ⟨hset, hgroup⟩ := hdone OrderedMap.empty .empty
    exact { h with
      groups := h.groups.insert hkey honly hgroup
      seeded := h.seeded.insert hseededKey hseededOnly hset }
  | some group =>
    rw [hget] at hdone
    obtain ⟨hset, hgroup⟩ := hdone _ hseeded
    exact { h with
      groups := h.groups.insert hkey honly hgroup
      seeded := h.seeded.insert hseededKey hseededOnly hset }

theorem ProperStore.seedLegacyGroup {parent : Option Text} {legacyNodes : List Text}
    (hname : ProperText ok name) (hparent : ∀ p ∈ parent, ProperText ok p)
    (hnodes : ∀ v ∈ nodes, ProperText ok v) (hlegacy : ∀ v ∈ legacyNodes, ProperText ok v) :
    ProperStore casing ok (seedLegacyGroup casing store name parent nodes legacyNodes) := by
  unfold Permissions.seedLegacyGroup
  split
  · exact h.seedGroup hname hparent hnodes
  · refine ProperStore.seedGroup ?_ hname hparent hnodes
    split
    · rename_i hnone
      refine { h with seeded := h.seeded.insert hname.key ?_ (ProperSet.empty.foldl hlegacy) }
      intro k hk hsame
      rw [key_none (Option.isNone_iff_eq_none.mp hnone) k hk] at hsame
      cases hsame
    · exact h

theorem ProperStore.ensureDefaults (hok : Allowed ok) :
    ProperStore casing ok (ensureDefaults casing store) := by
  have hknown : ∀ l : List Text, (∀ v ∈ l, v ∈ knownTexts) → ∀ v ∈ l, ProperText ok v :=
    fun l hl v hv => hok.properText (hl v hv)
  have hgroups := hknown [defaultGroup, moderatorGroup, adminGroup] (by simp [knownTexts])
  have hdefault := hgroups defaultGroup (by simp)
  have hmoderator := hgroups moderatorGroup (by simp)
  have hadmin := hgroups adminGroup (by simp)
  have hparent : ∀ {g : Text}, ProperText ok g → ∀ p ∈ some g, ProperText ok p := by
    intro g hg p hp
    exact Option.some.inj hp ▸ hg
  have hnone : ∀ p ∈ (none : Option Text), ProperText ok p := nofun
  have hall := hknown allNodes fun v hv => by simp [knownTexts, hv]
  have hfirst := h.seedLegacyGroup hdefault hnone
    (hknown defaultGroupNodes fun v hv => by simp [knownTexts, hv])
    (hknown legacyDefaultGroupNodes fun v hv => by simp [knownTexts, hv])
  have hsecond := hfirst.seedLegacyGroup hmoderator (hparent hdefault)
    (hknown moderatorGroupNodes fun v hv => by simp [knownTexts, hv])
    (hknown legacyModeratorGroupNodes fun v hv => by simp [knownTexts, hv])
  exact hsecond.seedLegacyGroup hadmin (hparent hmoderator) hall hall

end

end

/-! ### Reading -/

variable {reader : XmlReader}

/-- The decoded values of the attributes. -/
def attributeValues (reader : XmlReader) (attributes : List (Option XmlAttribute)) : List Text :=
  attributes.filterMap fun a => a.bind fun a => reader.decodeValue a.raw

def eventValues (reader : XmlReader) : XmlEvent → List Text
  | .start _ attributes | .empty _ attributes => attributeValues reader attributes
  | _ => []

theorem readAttributes_yields (attributes : List (Option XmlAttribute)) : ∀ acc,
    Yields (fun attribs => ∀ p ∈ attribs, p ∈ acc ∨ p.2 ∈ attributeValues reader attributes)
      (readAttributes reader attributes acc) := by
  induction attributes with
  | nil => exact fun acc => .ok fun p hp => .inl hp
  | cons a rest ih =>
    intro acc
    cases a with
    | none => exact .error _
    | some a =>
      rw [readAttributes]
      split
      · exact .error _
      · split
        · exact .error _
        · rename_i value hvalue
          refine (ih _).imp fun attribs h p hp => ?_
          have hvalues : attributeValues reader (some a :: rest) =
              value :: attributeValues reader rest := by
            simp [attributeValues, hvalue]
          rw [hvalues]
          rcases h p hp with hmem | hmem
          · rcases List.mem_cons.mp hmem with rfl | hmem
            · exact .inr (.head _)
            · exact .inl hmem
          · exact .inr (.tail _ hmem)

theorem readAttribute_yields {tag : Tag} {attribs : List (Text × Text)}
    (h : ∀ p ∈ attribs, isBlank p.2 = false → ok p.2) (name : Text) :
    Yields (ProperKey ok) (readAttribute tag attribs name) := by
  unfold readAttribute
  split
  · exact .error _
  · rename_i value hvalue
    split
    · exact .error _
    · rename_i hblank
      have hfalse := eq_false_of_ne_true hblank
      exact .ok ⟨hfalse, h _ (mem_keys_of_assocGet hvalue) hfalse⟩

theorem ProperKey.trim (hok : Allowed ok) (h : ProperKey ok v) :
    ProperText ok (Library.trim v) :=
  properText_trim h.blank (hok.trim v h.ok)

theorem ProperText.migrate (hok : Allowed ok) (h : ProperText ok v) :
    ProperText ok (migrate casing v) := by
  unfold Permissions.migrate
  split
  · exact hok.properText (by simp [knownTexts])
  · split
    · exact hok.properText (by simp [knownTexts])
    · exact h

theorem replaceEntry_proper {α : Type} {P : Text → α → Prop} {m : OrderedMap Text α}
    (h : ProperMap casing ok P m) {name : Text} (hname : ProperKey ok name) {x : α}
    (hx : P name x) :
    ProperMap casing ok P (replaceEntry casing m name x) := by
  unfold replaceEntry
  cases hkey : key casing m name with
  | none =>
    refine h.insert hname ?_ hx
    intro k hk hsame
    rw [key_none hkey k hk] at hsame
    cases hsame
  | some old =>
    refine (h.erase old).insert hname ?_ hx
    intro k hk hsame
    obtain ⟨hne, hk⟩ := mem_keys_erase.mp hk
    obtain ⟨hold, hsameOld⟩ := key_some hkey
    exact absurd (h.distinct k hk old hold (same_trans hsame (same_symm hsameOld))) hne

theorem updateOwner_yields {α : Type} {P : Text → α → Prop} {m : OrderedMap Text α}
    (h : ProperMap casing ok P m) (k : Text) {f : α → α} (hf : ∀ k x, P k x → P k (f x)) :
    Yields (ProperMap casing ok P) (updateOwner m k f) := by
  unfold updateOwner
  split
  · exact .ok (h.update hf k)
  · exact .error _

theorem ownerKey_yields (owner : Option Frame) : Yields (fun _ => True) (ownerKey owner) :=
  fun _ _ => trivial

theorem insertNode_yields (h : ProperStore casing ok store) (inside : Option Tag) (k : Text)
    {node : Text} (hnode : ProperText ok node) :
    Yields (ProperStore casing ok) (insertNode casing store inside k node) := by
  unfold insertNode
  split
  · refine (updateOwner_yields h.groups k ?_).bind fun groups hgroups =>
      .ok { h with groups := hgroups }
    exact fun k g hg => { hg with nodes := hg.nodes.insert hnode }
  · refine (updateOwner_yields h.users k ?_).bind fun users husers => .ok { h with users := husers }
    exact fun k u hu => { hu with nodes := hu.nodes.insert hnode }
  · refine (updateOwner_yields h.seeded k ?_).bind fun seeded hseeded =>
      .ok { h with seeded := hseeded }
    exact fun k s hs => hs.insert hnode
  · exact .error _

theorem startElement_yields (hok : Allowed ok) {st : ParseState}
    (h : ProperStore casing ok st.store) {attributes : List (Option XmlAttribute)}
    (hvalues : ∀ v ∈ attributeValues reader attributes, isBlank v = false → ok v) (tag : Tag) :
    Yields (fun r => ProperStore casing ok r.2.store)
      (startElement casing reader tag attributes st) := by
  unfold startElement
  refine (readAttributes_yields attributes []).bind fun attribs hattribs => ?_
  have hread : ∀ name, Yields (ProperKey ok) (readAttribute tag attribs name) :=
    readAttribute_yields fun p hp hblank =>
      (hattribs p hp).elim nofun fun hmem => hvalues _ hmem hblank
  dsimp only
  split
  · split
    · exact .error _
    · exact .ok h
  · exact .ok h
  · exact .ok h
  · exact .ok h
  · refine (hread _).bind fun name hname => .ok ?_
    exact { h with groups := replaceEntry_proper h.groups hname ⟨rfl, .empty, .empty⟩ }
  · refine (hread _).bind fun uuid huuid => .ok ?_
    exact { h with users := replaceEntry_proper h.users huuid ⟨rfl, .empty, .empty⟩ }
  · refine (hread _).bind fun name hname => .ok ?_
    obtain ⟨hkey, honly⟩ := h.seeded.spelling hname
    exact { h with seeded := h.seeded.insert hkey honly (h.seeded.entry name .empty) }
  · split
    · refine (ownerKey_yields _).bind fun k _ => (hread _).bind fun name hname => ?_
      refine (updateOwner_yields h.users k ?_).bind fun users husers =>
        .ok { h with users := husers }
      exact fun k u hu => { hu with groups := hu.groups.insert (hname.trim hok) }
    · exact .error _
  · split
    · refine (ownerKey_yields _).bind fun k _ => (hread _).bind fun name hname => ?_
      refine (updateOwner_yields h.groups k ?_).bind fun groups hgroups =>
        .ok { h with groups := hgroups }
      exact fun k g hg => { hg with parents := hg.parents.insert (hname.trim hok) }
    · exact .error _
  · refine (ownerKey_yields _).bind fun k _ => (hread _).bind fun value hvalue => ?_
    exact (insertNode_yields h _ k ((hvalue.trim hok).migrate hok)).bind fun store hstore =>
      .ok hstore
  · refine (ownerKey_yields _).bind fun k _ => (hread _).bind fun value hvalue => ?_
    exact (insertNode_yields h _ k ((hvalue.trim hok).migrate hok)).bind fun store hstore =>
      .ok hstore
  · exact .error _

theorem readEvent_yields (hok : Allowed ok) {st : ParseState} (h : ProperStore casing ok st.store)
    {event : XmlEvent} (hvalues : ∀ v ∈ eventValues reader event, isBlank v = false → ok v) :
    Yields (fun st => ProperStore casing ok st.store) (readEvent casing reader st event) := by
  cases event with
  | start | empty =>
    exact (startElement_yields hok h hvalues _).bind fun r hr => .ok hr
  | stop name =>
    dsimp only [readEvent]
    split
    · exact .error _
    · split
      · exact .ok h
      · exact .error _
  | text | decl =>
    dsimp only [readEvent]
    split
    · exact .ok h
    · exact .error _
  | docType | cData | generalRef => exact .error _
  | comment | processing => exact .ok h

/-- The texts that reading a file may put into the store. -/
def fileTexts (reader : XmlReader) (file : Option Text) : List Text :=
  match file with
  | none => []
  | some text =>
    match reader.readEvents (text.dropWhile fun c => c = byteOrderMark) with
    | none => []
    | some events => events.flatMap (eventValues reader)

theorem loadPermissions_yields (hok : Allowed ok) {file : Option Text}
    (hvalues : ∀ v ∈ fileTexts reader file, isBlank v = false → ok v) :
    Yields (ProperStore casing ok) (loadPermissions casing reader file) := by
  cases file with
  | none => exact .ok .empty
  | some text =>
    show Yields _ (parsePermissions casing reader (text.dropWhile fun c => c = byteOrderMark))
    unfold parsePermissions
    unfold fileTexts at hvalues
    dsimp only at hvalues
    split
    · exact .error _
    · split
      · exact .error _
      · rename_i events hevents
        rw [hevents] at hvalues
        have hall : Yields (fun st : ParseState => ProperStore casing ok st.store)
            (readAll casing reader ⟨false, .empty, [], false⟩ events) := by
          refine Yields.foldlM events ?_ _ .empty
          intro st hst event hevent
          exact readEvent_yields hok hst fun v hv =>
            hvalues v (List.mem_flatMap.mpr ⟨event, hevent, hv⟩)
        refine hall.bind fun st hst => ?_
        split
        · exact .ok hst
        · exact .error _

/-! ### Runs -/

/-- The texts that an operation may put into the store. -/
def PermissionOp.texts (reader : XmlReader) : PermissionOp → List Text
  | .getOrCreateUser uuid => [uuid]
  | .addUserNode uuid node => [uuid, trim node]
  | .addUserToGroup uuid group => [uuid, trim group]
  | .getOrCreateGroup group => [trim group]
  | .addGroupNode group node => [trim group, trim node]
  | .addGroupParent group parent => [trim group, trim parent]
  | .loadFromXml file => fileTexts reader file
  | _ => []

/-- An operation whose texts are blank does nothing. -/
theorem ProperStore.guard {store' : PermissionStore} {blank : Bool}
    (h : ProperStore casing ok store) (h' : blank = false → ProperStore casing ok store') :
    ProperStore casing ok (if blank then store else store') := by
  split
  · exact h
  · rename_i hblank
    exact h' (eq_false_of_ne_true hblank)

theorem ProperStore.run (hok : Allowed ok) (h : ProperStore casing ok store) {op : PermissionOp}
    (htexts : ∀ v ∈ op.texts reader, isBlank v = false → ok v) :
    ProperStore casing ok (op.run casing reader store) := by
  have hkey : ∀ {v : Text}, v ∈ op.texts reader → isBlank v = false → ProperKey ok v :=
    fun hv hblank => ⟨hblank, htexts _ hv hblank⟩
  have htrim : ∀ {v : Text}, trim v ∈ op.texts reader → isBlank v = false →
      ProperText ok (trim v) := by
    intro v hv hblank
    refine properText_trim hblank (htexts _ hv ?_)
    unfold isBlank
    rw [trim_trim]
    exact hblank
  cases op with
  | ensureDefaults => exact h.ensureDefaults hok
  | getOrCreateUser uuid =>
    refine h.guard fun hblank => ?_
    exact h.userMut hok (hkey (by simp [PermissionOp.texts]) hblank)
      fun k u hu => hu
  | addUserNode uuid node =>
    refine h.guard fun hblank => ?_
    rw [Bool.or_eq_false_iff] at hblank
    have hnode := htrim (v := node) (by simp [PermissionOp.texts]) hblank.2
    exact h.userMut hok (hkey (by simp [PermissionOp.texts]) hblank.1)
      fun k u hu => { hu with nodes := hu.nodes.insert hnode }
  | removeUserNode uuid node =>
    show ProperStore casing ok (removeUserNode casing store _ _)
    unfold removeUserNode
    split
    · exact h
    · refine { h with users := h.users.update ?_ _ }
      exact fun k u hu => { hu with nodes := hu.nodes.remove _ }
  | addUserToGroup uuid group =>
    refine h.guard fun hblank => ?_
    rw [Bool.or_eq_false_iff] at hblank
    have hgroup := htrim (v := group) (by simp [PermissionOp.texts]) hblank.2
    exact h.userMut hok (hkey (by simp [PermissionOp.texts]) hblank.1)
      fun k u hu => { hu with groups := hu.groups.insert hgroup }
  | removeUserFromGroup uuid group =>
    show ProperStore casing ok (removeUserFromGroup casing store _ _)
    unfold removeUserFromGroup
    split
    · exact h
    · refine { h with users := h.users.update ?_ _ }
      exact fun k u hu => { hu with groups := hu.groups.remove _ }
  | getOrCreateGroup group =>
    refine h.guard fun hblank => ?_
    have hgroup := htrim (v := group) (by simp [PermissionOp.texts]) hblank
    exact h.groupMut hgroup.key fun k g hg => hg
  | addGroupNode group node =>
    refine h.guard fun hblank => ?_
    rw [Bool.or_eq_false_iff] at hblank
    have hgroup := htrim (v := group) (by simp [PermissionOp.texts]) hblank.1
    have hnode := htrim (v := node) (by simp [PermissionOp.texts]) hblank.2
    exact h.groupMut hgroup.key fun k g hg => { hg with nodes := hg.nodes.insert hnode }
  | removeGroupNode group node =>
    show ProperStore casing ok (removeGroupNode casing store _ _)
    unfold removeGroupNode
    split
    · exact h
    · refine { h with groups := h.groups.update ?_ _ }
      exact fun k g hg => { hg with nodes := hg.nodes.remove _ }
  | addGroupParent group parent =>
    refine h.guard fun hblank => ?_
    rw [Bool.or_eq_false_iff] at hblank
    have hgroup := htrim (v := group) (by simp [PermissionOp.texts]) hblank.1
    have hparent := htrim (v := parent) (by simp [PermissionOp.texts]) hblank.2
    exact h.groupMut hgroup.key fun k g hg => { hg with parents := hg.parents.insert hparent }
  | removeGroupParent group parent =>
    show ProperStore casing ok (removeGroupParent casing store _ _)
    unfold removeGroupParent
    split
    · exact h
    · refine { h with groups := h.groups.update ?_ _ }
      exact fun k g hg => { hg with parents := hg.parents.remove _ }
  | deleteGroup group =>
    show ProperStore casing ok (deleteGroup casing store group)
    unfold deleteGroup
    split
    · exact h
    · rename_i old _
      have hgroups := (h.groups.erase old).mapValues
        (f := fun g => { g with parents := remove casing g.parents old })
        fun k g hg => { hg with parents := hg.parents.remove old }
      have husers :=
        h.users.mapValues (f := fun u => { u with groups := remove casing u.groups old })
        fun k u hu => { hu with groups := hu.groups.remove old }
      exact { h with groups := hgroups, users := husers }
  | loadFromXml file =>
    dsimp only [PermissionOp.run]
    split
    · rename_i loaded hloaded
      exact loadPermissions_yields hok htexts loaded hloaded
    · exact h

end BasisRust.Permissions
