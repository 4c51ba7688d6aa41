import BasisRust.Library.DepthFirst
import BasisRust.Permissions.Evaluate
import BasisRust.Permissions.RoundTrip
import Mathlib.Data.Set.Insert

/-!
# Permissions are evaluated by their rule

The walks are searches on the keys of the names, so they leave the groups that a user inherits from,
each once.  What the decisions say of a key depends only on which raw nodes were collected.
-/

namespace BasisRust.Permissions

open Library

variable {casing : Casing} {node : Text} {decisions : OrderedMap Text Bool} {raws : Set Text}
  {keys : List Text}

/-! ### The rule -/

section

variable (casing : Casing)

/-- From the key of a group to the key of a parent. -/
def Parent (store : PermissionStore) (a b : Text) : Prop :=
  ∃ k g, store.groups.get k = some g ∧ ordinalIgnoreCaseKey casing k = a ∧
    ∃ p ∈ g.parents.keys, ordinalIgnoreCaseKey casing p = b

/-- The names of the groups of a user. -/
def StartGroup (store : PermissionStore) (uuid name : Text) : Prop :=
  (∃ k u, store.users.get k = some u ∧ same casing k uuid = true ∧ name ∈ u.groups.keys) ∨
    (∀ k ∈ store.users.keys, same casing k uuid = false) ∧ name = defaultGroup

/-- The user is in the group with this key, which need not exist. -/
def Inherits (store : PermissionStore) (uuid key : Text) : Prop :=
  ∃ name, StartGroup casing store uuid name ∧
    Relation.ReflTransGen (Parent casing store) (ordinalIgnoreCaseKey casing name) key

/-- The raw nodes of a user and of the groups. -/
def collected (store : PermissionStore) (uuid : Text) : Set Text :=
  {raw | (∃ k g, store.groups.get k = some g ∧
      Inherits casing store uuid (ordinalIgnoreCaseKey casing k) ∧ raw ∈ g.nodes.keys) ∨
    ∃ k u, store.users.get k = some u ∧ same casing k uuid = true ∧ raw ∈ u.nodes.keys}

open Classical in
/-- Denied if any raw node denies, else allowed if one allows. -/
noncomputable def ruling (raws : Set Text) (key : Text) : Option Bool :=
  if ∃ raw ∈ raws, rawNode casing raw = some (key, false) then some false
  else if ∃ raw ∈ raws, rawNode casing raw = some (key, true) then some true
  else none

end

/-- What stands in front of a dot. -/
def IsStem (stem node : Text) : Prop := ∃ rest, node = stem ++ '.' :: rest

/-- The answer for a node: its own decision, that of the longest stem, or that of `*`. -/
inductive Rule (decision : Text → Option Bool) (node : Text) : Bool → Prop where
  | exact {answer : Bool} (h : decision node = some answer) : Rule decision node answer
  | stem {answer : Bool} {stem : Text} (hexact : decision node = none) (hstem : IsStem stem node)
      (h : decision (wildcard stem) = some answer)
      (hlongest : ∀ longer, IsStem longer node → stem.length < longer.length →
        decision (wildcard longer) = none) : Rule decision node answer
  | all {answer : Bool} (hexact : decision node = none)
      (hstems : ∀ stem, IsStem stem node → decision (wildcard stem) = none)
      (h : (decision allNode).getD false = answer) : Rule decision node answer

theorem IsStem.eq_of_length {p q : Text} (hp : IsStem p node) (hq : IsStem q node)
    (h : p.length = q.length) : p = q := by
  obtain ⟨rest, rfl⟩ := hp
  obtain ⟨rest', heq⟩ := hq
  exact (List.append_inj heq h).1

variable {decision : Text → Option Bool}

theorem Rule.unique {a b : Bool} (ha : Rule decision node a) (hb : Rule decision node b) :
    a = b := by
  cases ha with
  | exact ha =>
    cases hb with
    | exact hb => exact Option.some.inj (ha.symm.trans hb)
    | stem hexact | all hexact => cases ha.symm.trans hexact
  | @stem p hexact hp ha hlongest =>
    cases hb with
    | exact hb => cases hb.symm.trans hexact
    | @stem q _ hq hb hlongest' =>
      rcases Nat.lt_trichotomy p.length q.length with hlt | heq | hlt
      · cases hb.symm.trans (hlongest q hq hlt)
      · rw [hp.eq_of_length hq heq] at ha
        exact Option.some.inj (ha.symm.trans hb)
      · cases ha.symm.trans (hlongest' p hp hlt)
    | all _ hstems => cases ha.symm.trans (hstems p hp)
  | all hexact hstems ha =>
    cases hb with
    | exact hb => cases hb.symm.trans hexact
    | stem _ hq hb => cases hb.symm.trans (hstems _ hq)
    | all _ _ hb => exact ha.symm.trans hb

theorem isStem_append_singleton {p m : Text} {c : Char} :
    IsStem p (m ++ [c]) ↔ IsStem p m ∨ c = '.' ∧ p = m := by
  constructor
  · rintro ⟨rest, heq⟩
    rcases List.eq_nil_or_concat rest with rfl | ⟨rest', d, rfl⟩
    · obtain ⟨hm, hc⟩ := List.append_inj' heq rfl
      exact .inr ⟨List.singleton_inj.mp hc, hm.symm⟩
    · rw [List.concat_eq_append, ← List.cons_append, ← List.append_assoc] at heq
      exact .inl ⟨rest', (List.append_inj' heq rfl).1⟩
  · rintro (⟨rest, rfl⟩ | ⟨rfl, rfl⟩)
    · exact ⟨rest ++ [c], by rw [List.append_assoc, List.cons_append]⟩
    · exact ⟨[], rfl⟩

/-- **The loop** finds the decision of the longest stem. -/
theorem checkWildcards_rule (hdecisions : ∀ k, decisions.get k = decision k) (node : Text)
    (reversed : Text) (hexact : decision node = none)
    (hstem : ∀ p, IsStem p reversed.reverse → IsStem p node)
    (hlonger : ∀ p, IsStem p node → ¬ IsStem p reversed.reverse →
      reversed.length ≤ p.length ∧ decision (wildcard p) = none) :
    Rule decision node (checkWildcards decisions reversed) := by
  induction reversed with
  | nil =>
    refine .all hexact (fun p hp => (hlonger p hp ?_).2) (by rw [checkWildcards, hdecisions])
    rintro ⟨rest, heq⟩
    simp at heq
  | cons c rest ih =>
    rw [List.reverse_cons] at hstem hlonger
    have hbelow : ∀ p, IsStem p rest.reverse → IsStem p node :=
      fun p hp => hstem p (isStem_append_singleton.mpr (.inl hp))
    rw [checkWildcards]
    split_ifs with hdot
    · rw [hdecisions]
      have hself : IsStem rest.reverse node :=
        hstem _ (isStem_append_singleton.mpr (.inr ⟨hdot, rfl⟩))
      cases hvalue : decision (wildcard rest.reverse) with
      | some value =>
        refine .stem hexact hself hvalue fun p hp hlt => ?_
        refine (hlonger p hp fun hmem => ?_).2
        rcases isStem_append_singleton.mp hmem with ⟨tail, heq⟩ | ⟨-, rfl⟩
        · have hlength := congrArg List.length heq
          rw [List.length_append, List.length_cons] at hlength
          omega
        · exact lt_irrefl _ hlt
      | none =>
        refine ih hbelow fun p hp hnot => ?_
        by_cases hmem : IsStem p (rest.reverse ++ [c])
        · obtain ⟨-, rfl⟩ := (isStem_append_singleton.mp hmem).resolve_left hnot
          exact ⟨by rw [List.length_reverse], hvalue⟩
        · obtain ⟨hlength, hnone⟩ := hlonger p hp hmem
          exact ⟨Nat.le_of_succ_le hlength, hnone⟩
    · refine ih hbelow fun p hp hnot => ?_
      obtain ⟨hlength, hnone⟩ := hlonger p hp fun hmem =>
        (isStem_append_singleton.mp hmem).elim hnot fun h => hdot h.1
      exact ⟨Nat.le_of_succ_le hlength, hnone⟩

theorem isEmpty_key {value : Text} : (ordinalIgnoreCaseKey casing value).isEmpty = value.isEmpty :=
  List.isEmpty_map

/-- **A node is looked up** by the rule. -/
theorem checkNode_rule (hdecisions : ∀ k, decisions.get k = decision k) (node : Text)
    (hblank : isBlank node = false) :
    Rule decision (ordinalIgnoreCaseKey casing (trim node)) (checkNode casing decisions node) := by
  rw [checkNode, isEmpty_key, show (trim node).isEmpty = isBlank node from rfl, hblank,
    if_neg Bool.false_ne_true, hdecisions]
  cases hexact : decision (ordinalIgnoreCaseKey casing (trim node)) with
  | some value => exact .exact hexact
  | none =>
    refine checkWildcards_rule hdecisions _ _ hexact (fun p hp => ?_) (fun p hp hnot => ?_)
    · rwa [List.reverse_reverse] at hp
    · rw [List.reverse_reverse] at hnot
      exact absurd hp hnot

/-! ### Collecting decisions -/

theorem exists_mem_union_singleton {raw : Text} {P : Text → Prop} :
    (∃ r ∈ raws ∪ {raw}, P r) ↔ (∃ r ∈ raws, P r) ∨ P raw := by
  simp only [Set.mem_union, Set.mem_singleton_iff, or_and_right, exists_or, exists_eq_left]

theorem ruling_eq_false {key : Text} :
    ruling casing raws key = some false ↔ ∃ raw ∈ raws, rawNode casing raw = some (key, false) := by
  unfold ruling
  split_ifs with hdeny hallow
  · exact iff_of_true rfl hdeny
  · exact iff_of_false (by decide) hdeny
  · exact iff_of_false (by decide) hdeny

theorem ruling_congr {raws' : Set Text} {key : Text}
    (h : ∀ allow, (∃ raw ∈ raws, rawNode casing raw = some (key, allow)) ↔
      ∃ raw ∈ raws', rawNode casing raw = some (key, allow)) :
    ruling casing raws key = ruling casing raws' key := by
  rw [ruling, ruling, propext (h false), propext (h true)]

theorem ruling_empty (key : Text) : ruling casing ∅ key = none := by
  unfold ruling
  simp only [Set.mem_empty_iff_false, false_and, exists_false, if_false]

theorem get_applyRawNode (h : ∀ k, decisions.get k = ruling casing raws k) (raw k : Text) :
    (applyRawNode casing decisions raw).get k = ruling casing (raws ∪ {raw}) k := by
  rw [applyRawNode]
  cases hraw : rawNode casing raw with
  | none =>
    show decisions.get k = _
    rw [h]
    refine ruling_congr fun allow => ?_
    rw [exists_mem_union_singleton, hraw]
    exact (or_iff_left (by simp)).symm
  | some rule =>
    obtain ⟨node, allow⟩ := rule
    dsimp only
    by_cases hk : k = node
    · subst hk
      by_cases hdenied : decisions.get k = some false
      · rw [if_pos hdenied, hdenied]
        rw [h, ruling_eq_false] at hdenied
        exact (ruling_eq_false.mpr (exists_mem_union_singleton.mpr (.inl hdenied))).symm
      · rw [if_neg hdenied, OrderedMap.get_insert_self]
        rw [h, ruling_eq_false] at hdenied
        cases allow with
        | false => exact (ruling_eq_false.mpr (exists_mem_union_singleton.mpr (.inr hraw))).symm
        | true =>
          unfold ruling
          rw [if_neg, if_pos (exists_mem_union_singleton.mpr (.inr hraw))]
          rw [exists_mem_union_singleton, hraw]
          exact fun hdeny => hdeny.elim hdenied nofun
    · have hother : ∀ a, (∃ r ∈ raws, rawNode casing r = some (k, a)) ↔
          ∃ r ∈ raws ∪ {raw}, rawNode casing r = some (k, a) := by
        intro a
        rw [exists_mem_union_singleton, hraw]
        refine (or_iff_left fun heq => hk ?_).symm
        exact (Prod.mk.inj (Option.some.inj heq)).1.symm
      split_ifs
      · exact (h k).trans (ruling_congr hother)
      · rw [OrderedMap.get_insert_of_ne hk]
        exact (h k).trans (ruling_congr hother)

/-- **More raw nodes**, in any order. -/
theorem get_applyRawNodes (h : ∀ k, decisions.get k = ruling casing raws k) (rawNodes : List Text)
    (k : Text) :
    (applyRawNodes casing rawNodes decisions).get k =
      ruling casing (raws ∪ {raw | raw ∈ rawNodes}) k := by
  induction rawNodes generalizing raws decisions with
  | nil =>
    rw [show raws ∪ {raw | raw ∈ ([] : List Text)} = raws by simp]
    exact h k
  | cons raw rawNodes ih =>
    have hset : raws ∪ {r | r ∈ raw :: rawNodes} = raws ∪ {raw} ∪ {r | r ∈ rawNodes} := by
      ext r
      simp only [Set.mem_union, Set.mem_ofPred_eq, List.mem_cons, Set.mem_singleton_iff, or_assoc]
    rw [hset]
    exact ih (get_applyRawNode h raw)

/-! ### Walks as searches -/

section

variable (casing : Casing)

/-- The key in the map with this key without regard to case. -/
def spelling (keys : List Text) (x : Text) : Option Text :=
  keys.find? fun k => ordinalIgnoreCaseKey casing k = x

variable (store : PermissionStore) (order : HashOrder)

/-- The keys of the parents of a group. -/
def parentKeys (x : Text) : List Text :=
  match spelling casing store.groups.keys x with
  | none => []
  | some k => (order.groupParents k).map (ordinalIgnoreCaseKey casing)

def leaveGroup (x : Text) (decisions : OrderedMap Text Bool) : OrderedMap Text Bool :=
  match spelling casing store.groups.keys x with
  | none => decisions
  | some k => applyRawNodes casing (order.groupNodes k) decisions

def startNames (uuid : Text) : List Text :=
  match spelling casing store.users.keys (ordinalIgnoreCaseKey casing uuid) with
  | some k => order.userGroups k
  | none => [defaultGroup]

end

theorem spelling_eq_some (hdistinct : CaseDistinct casing keys) {x k : Text} :
    spelling casing keys x = some k ↔ k ∈ keys ∧ ordinalIgnoreCaseKey casing k = x := by
  constructor
  · intro h
    exact ⟨List.mem_of_find?_eq_some h,
      of_decide_eq_true (List.find?_some (p := fun k => ordinalIgnoreCaseKey casing k = x) h)⟩
  · rintro ⟨hk, rfl⟩
    cases hfind : spelling casing keys (ordinalIgnoreCaseKey casing k) with
    | none => exact absurd (decide_eq_true rfl) (List.find?_eq_none.mp hfind k hk)
    | some k' =>
      have hkey := of_decide_eq_true
        (List.find?_some
          (p := fun k' => ordinalIgnoreCaseKey casing k' = ordinalIgnoreCaseKey casing k)
          hfind)
      rw [hdistinct k' (List.mem_of_find?_eq_some hfind) k hk (same_iff.mpr hkey)]

theorem spelling_eq_none {x : Text} :
    spelling casing keys x = none ↔ ∀ k ∈ keys, ordinalIgnoreCaseKey casing k ≠ x := by
  rw [spelling, List.find?_eq_none]
  simp only [decide_eq_true_eq, ne_eq]

/-- **A key is found** whatever the order of the keys. -/
theorem findKey_eq {α : Type} {map : OrderedMap Text α} (hdistinct : CaseDistinct casing map.keys)
    (hperm : keys.Perm map.keys) (wanted : Text) :
    findKey casing keys map wanted =
      spelling casing map.keys (ordinalIgnoreCaseKey casing wanted) := by
  symm
  rw [findKey]
  split_ifs with hget
  · rw [spelling_eq_some hdistinct]
    exact ⟨OrderedMap.mem_keys.mpr (Option.isSome_iff_exists.mp hget), rfl⟩
  · cases hfind : keys.find? fun k => same casing k wanted with
    | none =>
      rw [spelling_eq_none]
      intro k hk heq
      exact List.find?_eq_none.mp hfind k (hperm.mem_iff.mpr hk) (same_iff.mpr heq)
    | some k =>
      rw [spelling_eq_some hdistinct]
      exact ⟨hperm.mem_iff.mp (List.mem_of_find?_eq_some hfind),
        same_iff.mp (List.find?_some (p := fun k => same casing k wanted) hfind)⟩

/-- The loop over some names. -/
theorem foldlM_eq_visitAll {σ : Type} {apply : Text → List Text × σ → Option (List Text × σ)}
    {visitOne : Text → List Text × σ → Option (Bool × List Text × σ)}
    (happly : ∀ name st, apply name st =
      (visitOne (ordinalIgnoreCaseKey casing name) st).map Prod.snd)
    (hnone : ∀ x st r, visitOne x st = some r → r.1 = false) (names : List Text)
    (st : List Text × σ) :
    names.foldlM (fun st name => apply name st) st =
      (visitAll visitOne (names.map (ordinalIgnoreCaseKey casing)) st).map Prod.snd := by
  induction names generalizing st with
  | nil => rfl
  | cons name names ih =>
    rw [List.foldlM_cons, happly, List.map_cons, visitAll]
    cases hvisit : visitOne (ordinalIgnoreCaseKey casing name) st with
    | none => rfl
    | some r =>
      have hr := hnone _ _ _ hvisit
      obtain ⟨found, st'⟩ := r
      rw [show found = false from hr]
      exact ih st'

theorem anyGroup_eq_visitAll {inherits : Text → List Text → Option (Bool × List Text)}
    {visitOne : Text → List Text × Unit → Option (Bool × List Text × Unit)}
    (hinherits : ∀ name visited, inherits name visited =
      (visitOne (ordinalIgnoreCaseKey casing name) (visited, ())).map fun r => (r.1, r.2.1))
    (names visited : List Text) :
    anyGroup inherits names visited =
      (visitAll visitOne (names.map (ordinalIgnoreCaseKey casing)) (visited, ())).map
        fun r => (r.1, r.2.1) := by
  induction names generalizing visited with
  | nil => rfl
  | cons name names ih =>
    rw [anyGroup, hinherits, List.map_cons, visitAll]
    cases hvisit : visitOne (ordinalIgnoreCaseKey casing name) (visited, ()) with
    | none => rfl
    | some r =>
      obtain ⟨found, visited', _⟩ := r
      cases found with
      | true => rfl
      | false => exact ih visited'

section

variable {store : PermissionStore} {order : HashOrder} {fuel : ℕ}

theorem visit_never {σ : Type} {children : Text → List Text} {leave : Text → σ → σ} {x : Text}
    {st : List Text × σ} {r : Bool × List Text × σ}
    (h : visit children (fun _ => false) leave fuel x st = some r) : r.1 = false := by
  obtain ⟨_, hexplored⟩ := visit_explored h
  cases hfound : r.1 with
  | false => rfl
  | true =>
    obtain ⟨_, hstop, -⟩ := hexplored.found hfound
    cases hstop

theorem applyGroup_eq (hgroups : CaseDistinct casing store.groups.keys) (horder : order.Of store)
    (name : Text) (st : List Text × OrderedMap Text Bool) :
    applyGroup casing store order fuel name st =
      (visit (parentKeys casing store order) (fun _ => false) (leaveGroup casing store order) fuel
        (ordinalIgnoreCaseKey casing name) st).map Prod.snd := by
  induction fuel generalizing name st with
  | zero => rfl
  | succ fuel ih =>
    obtain ⟨visited, decisions⟩ := st
    rw [applyGroup, visit, if_neg Bool.false_ne_true]
    dsimp only
    split_ifs with hvisited
    · rfl
    · rw [findKey_eq hgroups horder.groups, parentKeys]
      cases hgroup : spelling casing store.groups.keys (ordinalIgnoreCaseKey casing name) with
      | none =>
        dsimp only [visitAll]
        rw [leaveGroup, hgroup]
        rfl
      | some group =>
        dsimp only
        rw [foldlM_eq_visitAll ih fun _ _ _ hvisit => visit_never hvisit]
        cases hall : visitAll _ ((order.groupParents group).map (ordinalIgnoreCaseKey casing))
          (ordinalIgnoreCaseKey casing name :: visited, decisions) with
        | none => rfl
        | some r =>
          obtain ⟨found, visited', decisions'⟩ := r
          cases found with
          | false =>
            dsimp only [Option.map_some]
            rw [leaveGroup, hgroup]
          | true =>
            obtain ⟨_, hexplored⟩ := visitAll_explored (fun _ _ _ h => visit_explored h) hall
            obtain ⟨_, hstop, -⟩ := hexplored.found rfl
            cases hstop

theorem inheritsGroup_eq (hgroups : CaseDistinct casing store.groups.keys)
    (horder : order.Of store) (target name : Text) (visited : List Text) :
    inheritsGroup casing store order target fuel name visited =
      (visit (parentKeys casing store order)
        (fun x => x = ordinalIgnoreCaseKey casing target) (fun _ (s : Unit) => s) fuel
        (ordinalIgnoreCaseKey casing name) (visited, ())).map fun r => (r.1, r.2.1) := by
  induction fuel generalizing name visited with
  | zero => rfl
  | succ fuel ih =>
    rw [inheritsGroup, visit,
      show same casing name target = decide (ordinalIgnoreCaseKey casing name =
      ordinalIgnoreCaseKey casing target) from Bool.eq_iff_iff.mpr
        (by rw [same_iff, decide_eq_true_eq])]
    split_ifs with hstop hvisited
    · rfl
    · rfl
    · rw [findKey_eq hgroups horder.groups, parentKeys]
      cases spelling casing store.groups.keys (ordinalIgnoreCaseKey casing name) with
      | none => rfl
      | some group =>
        dsimp only
        rw [anyGroup_eq_visitAll ih]
        cases visitAll _ ((order.groupParents group).map (ordinalIgnoreCaseKey casing))
          (ordinalIgnoreCaseKey casing name :: visited, ()) with
        | none => rfl
        | some r =>
          obtain ⟨found, visited', _⟩ := r
          cases found <;> rfl

end

/-! ### What is reached -/

section

variable {store : PermissionStore} {order : HashOrder} {fuel : ℕ} {uuid : Text}

theorem mem_parentKeys (hgroups : CaseDistinct casing store.groups.keys) (horder : order.Of store)
    {a b : Text} : b ∈ parentKeys casing store order a ↔ Parent casing store a b := by
  rw [parentKeys]
  constructor
  · intro hb
    cases hgroup : spelling casing store.groups.keys a with
    | none =>
      rw [hgroup] at hb
      exact absurd hb List.not_mem_nil
    | some k =>
      rw [hgroup] at hb
      obtain ⟨hk, hkey⟩ := (spelling_eq_some hgroups).mp hgroup
      obtain ⟨g, hg⟩ := OrderedMap.mem_keys.mp hk
      obtain ⟨p, hp, hpb⟩ := List.mem_map.mp hb
      exact ⟨k, g, hg, hkey, p, (horder.groupParents k g hg).mem_iff.mp hp, hpb⟩
  · rintro ⟨k, g, hg, hkey, p, hp, hpb⟩
    rw [(spelling_eq_some hgroups).mpr ⟨OrderedMap.mem_keys.mpr ⟨g, hg⟩, hkey⟩]
    exact List.mem_map.mpr ⟨p, (horder.groupParents k g hg).mem_iff.mpr hp, hpb⟩

theorem mem_startNames (husers : CaseDistinct casing store.users.keys) (horder : order.Of store)
    {name : Text} :
    name ∈ startNames casing store order uuid ↔ StartGroup casing store uuid name := by
  rw [startNames]
  cases huser : spelling casing store.users.keys (ordinalIgnoreCaseKey casing uuid) with
  | none =>
    have hno : ∀ k ∈ store.users.keys, same casing k uuid = false := fun k hk =>
      Bool.eq_false_iff.mpr fun hsame => spelling_eq_none.mp huser k hk (same_iff.mp hsame)
    rw [List.mem_singleton]
    constructor
    · exact fun hname => .inr ⟨hno, hname⟩
    · rintro (⟨k, u, hu, hsame, -⟩ | ⟨-, hname⟩)
      · rw [hno k (OrderedMap.mem_keys.mpr ⟨u, hu⟩)] at hsame
        cases hsame
      · exact hname
  | some k =>
    obtain ⟨hk, hkey⟩ := (spelling_eq_some husers).mp huser
    obtain ⟨u, hu⟩ := OrderedMap.mem_keys.mp hk
    rw [(horder.userGroups k u hu).mem_iff]
    constructor
    · exact fun hname => .inl ⟨k, u, hu, same_iff.mpr hkey, hname⟩
    · rintro (⟨k', u', hu', hsame, hname⟩ | ⟨hno, -⟩)
      · have hk' := husers k' (OrderedMap.mem_keys.mpr ⟨u', hu'⟩) k hk
          (same_iff.mpr ((same_iff.mp hsame).trans hkey.symm))
        rw [hk', hu] at hu'
        rw [Option.some.inj hu']
        exact hname
      · have hsame := hno k hk
        rw [same_iff.mpr hkey] at hsame
        cases hsame

/-- **What a search reaches** from the groups of a user. -/
theorem reaches_iff (husers : CaseDistinct casing store.users.keys)
    (hgroups : CaseDistinct casing store.groups.keys) (horder : order.Of store) {key : Text} :
    Reaches (parentKeys casing store order)
        ((startNames casing store order uuid).map (ordinalIgnoreCaseKey casing)) key ↔
      Inherits casing store uuid key := by
  have hedges : (fun a b => b ∈ parentKeys casing store order a) = Parent casing store := by
    funext a b
    exact propext (mem_parentKeys hgroups horder)
  rw [Reaches, hedges]
  constructor
  · rintro ⟨x, hx, hxy⟩
    obtain ⟨name, hname, rfl⟩ := List.mem_map.mp hx
    exact ⟨name, (mem_startNames husers horder).mp hname, hxy⟩
  · rintro ⟨name, hname, hxy⟩
    exact ⟨_, List.mem_map_of_mem ((mem_startNames husers horder).mpr hname), hxy⟩

variable (order) in
/-- **The fuel**: one more than there are groups. -/
theorem groups_search_isSome {σ : Type} (hgroups : CaseDistinct casing store.groups.keys)
    (stop : Text → Bool) (leave : Text → σ → σ) (starts : List Text) (st : List Text × σ)
    (hfuel : store.groups.len < fuel) :
    (visitAll (visit (parentKeys casing store order) stop leave fuel) starts st).isSome = true := by
  have hnodes : (store.groups.keys.map (ordinalIgnoreCaseKey casing)).length < fuel := by
    rw [List.length_map, OrderedMap.keys, List.length_map]
    exact hfuel
  refine visitAll_isSome (fun x hx => ?_) hnodes
  rw [parentKeys] at hx
  cases hgroup : spelling casing store.groups.keys x with
  | none =>
    rw [hgroup] at hx
    exact absurd rfl hx
  | some k =>
    obtain ⟨hk, hkey⟩ := (spelling_eq_some hgroups).mp hgroup
    exact List.mem_map.mpr ⟨k, hk, hkey⟩

variable (store order) in
/-- The decisions when some groups have been left. -/
theorem get_leaveGroups (keys : List Text) {raws : Set Text} {decisions : OrderedMap Text Bool}
    (h : ∀ k, decisions.get k = ruling casing raws k) (k : Text) :
    (keys.foldl (fun decisions x => leaveGroup casing store order x decisions) decisions).get k =
      ruling casing (raws ∪ {raw | ∃ x ∈ keys, ∃ group,
        spelling casing store.groups.keys x = some group ∧ raw ∈ order.groupNodes group}) k := by
  induction keys generalizing raws decisions with
  | nil =>
    rw [show raws ∪ {raw | ∃ x ∈ ([] : List Text), ∃ group,
      spelling casing store.groups.keys x = some group ∧
        raw ∈ order.groupNodes group} = raws by simp]
    exact h k
  | cons x keys ih =>
    have hleave : ∀ k, (leaveGroup casing store order x decisions).get k =
        ruling casing (raws ∪ {raw | ∃ group, spelling casing store.groups.keys x = some group ∧
          raw ∈ order.groupNodes group}) k := by
      intro k
      rw [leaveGroup]
      cases spelling casing store.groups.keys x with
      | none =>
        simp only [reduceCtorEq, false_and, exists_false]
        rw [show raws ∪ {raw : Text | False} = raws by simp]
        exact h k
      | some group =>
        simp only [Option.some.injEq, exists_eq_left']
        exact get_applyRawNodes h (order.groupNodes group) k
    rw [List.foldl_cons, ih hleave]
    congr 1
    ext raw
    simp only [Set.mem_union, Set.mem_ofPred_eq, List.mem_cons, or_and_right, exists_or,
      exists_eq_left, or_assoc]

/-- **The decisions** of a user. -/
theorem effectiveDecisions_spec (husers : CaseDistinct casing store.users.keys)
    (hgroups : CaseDistinct casing store.groups.keys) (horder : order.Of store)
    (hfuel : store.groups.len < fuel) (uuid : Text) :
    ∃ decisions, effectiveDecisions casing store order fuel uuid = some decisions ∧
      ∀ k, decisions.get k = ruling casing (collected casing store uuid) k := by
  obtain ⟨⟨found, visited, decisions⟩, hall⟩ := Option.isSome_iff_exists.mp
    (groups_search_isSome order hgroups (fun _ => false) (leaveGroup casing store order)
      ((startNames casing store order uuid).map (ordinalIgnoreCaseKey casing))
      ([], OrderedMap.empty) hfuel)
  obtain ⟨hfound, hleft⟩ := search_spec hall
  have hnone : found = false := by
    cases found with
    | false => rfl
    | true =>
      obtain ⟨_, hstop, -⟩ := hfound.mp rfl
      cases hstop
  obtain ⟨keys, -, hkeys, hdecisions⟩ := hleft hnone
  have hempty : ∀ k, (OrderedMap.empty : OrderedMap Text Bool).get k = ruling casing ∅ k :=
    fun k => (ruling_empty k).symm
  have hget := get_leaveGroups store order keys hempty
  rw [← hdecisions, Set.empty_union] at hget
  -- the raw nodes of the groups that were left
  have hset : ∀ raw, (∃ x ∈ keys, ∃ group, spelling casing store.groups.keys x = some group ∧
      raw ∈ order.groupNodes group) ↔ ∃ k g, store.groups.get k = some g ∧
        Inherits casing store uuid (ordinalIgnoreCaseKey casing k) ∧ raw ∈ g.nodes.keys := by
    intro raw
    constructor
    · rintro ⟨x, hx, k, hgroup, hraw⟩
      obtain ⟨hk, rfl⟩ := (spelling_eq_some hgroups).mp hgroup
      obtain ⟨g, hg⟩ := OrderedMap.mem_keys.mp hk
      exact ⟨k, g, hg, (reaches_iff husers hgroups horder).mp ((hkeys _).mp hx),
        (horder.groupNodes k g hg).mem_iff.mp hraw⟩
    · rintro ⟨k, g, hg, hinherits, hraw⟩
      exact ⟨_, (hkeys _).mpr ((reaches_iff husers hgroups horder).mpr hinherits), k,
        (spelling_eq_some hgroups).mpr ⟨OrderedMap.mem_keys.mpr ⟨g, hg⟩, rfl⟩,
        (horder.groupNodes k g hg).mem_iff.mpr hraw⟩
  rw [effectiveDecisions, findKey_eq husers horder.users]
  rw [startNames] at hall
  cases huser : spelling casing store.users.keys (ordinalIgnoreCaseKey casing uuid) with
  | none =>
    rw [huser] at hall
    refine ⟨decisions, ?_, fun k => ?_⟩
    · show (applyGroup casing store order fuel defaultGroup ([], OrderedMap.empty)).map Prod.snd = _
      rw [applyGroup_eq hgroups horder]
      rw [List.map_singleton, visitAll_singleton] at hall
      rw [hall]
      rfl
    · rw [hget]
      congr 1
      ext raw
      rw [Set.mem_ofPred_eq, hset, collected, Set.mem_ofPred_eq]
      refine (or_iff_left ?_).symm
      rintro ⟨k', u, hu, hsame, -⟩
      exact spelling_eq_none.mp huser k' (OrderedMap.mem_keys.mpr ⟨u, hu⟩) (same_iff.mp hsame)
  | some k =>
    rw [huser] at hall
    obtain ⟨hk, hkey⟩ := (spelling_eq_some husers).mp huser
    obtain ⟨u, hu⟩ := OrderedMap.mem_keys.mp hk
    refine ⟨applyRawNodes casing (order.userNodes k) decisions, ?_, fun k' => ?_⟩
    · dsimp only
      rw [foldlM_eq_visitAll (applyGroup_eq hgroups horder) fun _ _ _ hvisit =>
        visit_never hvisit, hall]
      rfl
    · rw [get_applyRawNodes hget]
      congr 1
      ext raw
      rw [Set.mem_union, Set.mem_ofPred_eq, Set.mem_ofPred_eq, hset, collected, Set.mem_ofPred_eq,
        (horder.userNodes k u hu).mem_iff]
      refine or_congr Iff.rfl ⟨fun hraw => ⟨k, u, hu, same_iff.mpr hkey, hraw⟩, ?_⟩
      rintro ⟨k'', u', hu', hsame, hraw⟩
      have hk' := husers k'' (OrderedMap.mem_keys.mpr ⟨u', hu'⟩) k hk
        (same_iff.mpr ((same_iff.mp hsame).trans hkey.symm))
      rw [hk', hu] at hu'
      rw [Option.some.inj hu']
      exact hraw

/-- **The groups** of a user. -/
theorem isInGroup_spec (husers : CaseDistinct casing store.users.keys)
    (hgroups : CaseDistinct casing store.groups.keys) (horder : order.Of store)
    (hfuel : store.groups.len < fuel) {group : Text} (huuid : isBlank uuid = false)
    (hgroup : isBlank group = false) :
    ∃ answer, isInGroup casing store order fuel uuid group = some answer ∧
      (answer = true ↔ Inherits casing store uuid (ordinalIgnoreCaseKey casing (trim group))) := by
  obtain ⟨⟨found, visited, _⟩, hall⟩ := Option.isSome_iff_exists.mp
    (groups_search_isSome order hgroups
      (fun x => x = ordinalIgnoreCaseKey casing (trim group)) (fun _ (s : Unit) => s)
      ((startNames casing store order uuid).map (ordinalIgnoreCaseKey casing)) ([], ()) hfuel)
  have hfound := (search_spec hall).1
  refine ⟨found, ?_, ?_⟩
  · rw [isInGroup, huuid, hgroup, findKey_eq husers horder.users]
    rw [startNames] at hall
    cases huser : spelling casing store.users.keys (ordinalIgnoreCaseKey casing uuid) with
    | none =>
      rw [huser, List.map_singleton, visitAll_singleton] at hall
      show (inheritsGroup casing store order (trim group) fuel defaultGroup []).map Prod.fst = _
      rw [inheritsGroup_eq hgroups horder, hall]
      rfl
    | some k =>
      rw [huser] at hall
      show (anyGroup _ (order.userGroups k) []).map Prod.fst = _
      rw [anyGroup_eq_visitAll (inheritsGroup_eq hgroups horder (trim group)), hall]
      rfl
  · rw [hfound, ← reaches_iff husers hgroups horder]
    constructor
    · rintro ⟨y, hstop, hy⟩
      rw [← of_decide_eq_true hstop]
      exact hy
    · exact fun hy => ⟨_, decide_eq_true rfl, hy⟩

end

/-! ### The answers -/

/-- The answer for a node of a user: false for a blank node, else by the rule. -/
def Answers (casing : Casing) (store : PermissionStore) (uuid node : Text) (answer : Bool) : Prop :=
  if isBlank node then answer = false
  else Rule (ruling casing (collected casing store uuid)) (ordinalIgnoreCaseKey casing (trim node))
    answer

theorem Answers.unique {store : PermissionStore} {uuid : Text} {a b : Bool}
    (ha : Answers casing store uuid node a) (hb : Answers casing store uuid node b) : a = b := by
  unfold Answers at ha hb
  split_ifs at ha hb
  · exact ha.trans hb.symm
  · exact ha.unique hb

theorem has_spec {store : PermissionStore} {order : HashOrder} {fuel : ℕ}
    (husers : CaseDistinct casing store.users.keys)
    (hgroups : CaseDistinct casing store.groups.keys) (horder : order.Of store)
    (hfuel : store.groups.len < fuel) (uuid node : Text) :
    ∃ answer, has casing store order fuel uuid node = some answer ∧
      Answers casing store uuid node answer := by
  obtain ⟨decisions, heffective, hget⟩ := effectiveDecisions_spec husers hgroups horder hfuel uuid
  refine ⟨checkNode casing decisions node, by rw [has, heffective]; rfl, ?_⟩
  unfold Answers
  split_ifs with hblank
  · rw [checkNode, isEmpty_key]
    exact if_pos hblank
  · exact checkNode_rule hget node (Bool.eq_false_iff.mpr hblank)

/-- **Permissions are evaluated by their rule**, in every order and with enough fuel. -/
theorem permission_evaluation (casing : Casing) (store : PermissionStore)
    (husers : CaseDistinct casing store.users.keys)
    (hgroups : CaseDistinct casing store.groups.keys) :
    (∀ uuid node, ∃ answer,
      (∀ order : HashOrder, order.Of store → ∀ fuel, store.groups.len < fuel →
        has casing store order fuel uuid node = some answer) ∧
      ∀ b, Answers casing store uuid node b ↔ answer = b) ∧
    ∀ uuid group, ∃ answer,
      (∀ order : HashOrder, order.Of store → ∀ fuel, store.groups.len < fuel →
        isInGroup casing store order fuel uuid group = some answer) ∧
      (answer = true ↔ isBlank uuid = false ∧ isBlank group = false ∧
        Inherits casing store uuid (ordinalIgnoreCaseKey casing (trim group))) := by
  constructor
  · intro uuid node
    obtain ⟨answer, -, hanswer⟩ := has_spec husers hgroups (HashOrder.sorted_of store)
      (Nat.lt_succ_self _) uuid node
    refine ⟨answer, fun order horder fuel hfuel => ?_, fun b =>
      ⟨hanswer.unique, fun h => h ▸ hanswer⟩⟩
    obtain ⟨other, hhas, hother⟩ := has_spec husers hgroups horder hfuel uuid node
    rw [hhas, hother.unique hanswer]
  · intro uuid group
    by_cases hblank : (isBlank uuid || isBlank group) = true
    · refine ⟨false, fun order _ fuel _ => ?_, (fun h => nomatch h), fun h => ?_⟩
      · rw [isInGroup, if_pos hblank]
      · rw [h.1, h.2.1] at hblank
        cases hblank
    · rw [Bool.or_eq_true, not_or, Bool.not_eq_true, Bool.not_eq_true] at hblank
      obtain ⟨huuid, hgroup⟩ := hblank
      obtain ⟨answer, -, hanswer⟩ := isInGroup_spec husers hgroups (HashOrder.sorted_of store)
        (Nat.lt_succ_self _) huuid hgroup
      refine ⟨answer, fun order horder fuel hfuel => ?_, ?_⟩
      · obtain ⟨other, hin, hother⟩ := isInGroup_spec husers hgroups horder hfuel huuid hgroup
        rw [hin, Bool.eq_iff_iff.mpr (hother.trans hanswer.symm)]
      · rw [hanswer, huuid, hgroup]
        exact ⟨fun h => ⟨rfl, rfl, h⟩, fun h => h.2.2⟩

/-- Two groups that are each other's parents; one of them denies a node that the other allows. -/
def cycleStore : PermissionStore :=
  let store := addGroupNode asciiCasing .empty "Mods".toList "basis.*".toList
  let store := addGroupParent asciiCasing store "mods".toList "B".toList
  let store := addGroupNode asciiCasing store "B".toList "-Basis.Kick".toList
  let store := addGroupParent asciiCasing store "b".toList "MODS".toList
  addUserToGroup asciiCasing store "u".toList "mODS".toList

theorem permission_evaluation_cycle :
    has asciiCasing cycleStore (.sorted cycleStore) 8 "U".toList " Basis.Ban".toList = some true ∧
      has asciiCasing cycleStore (.sorted cycleStore) 8 "u".toList
        "basis.kick".toList = some false ∧
      isInGroup asciiCasing cycleStore (.sorted cycleStore) 8 "U".toList "b".toList =
        some true := by
  have husers : CaseDistinct asciiCasing cycleStore.users.keys := by
    unfold CaseDistinct
    decide +kernel
  have hgroups : CaseDistinct asciiCasing cycleStore.groups.keys := by
    unfold CaseDistinct
    decide +kernel
  have hlen : cycleStore.groups.len = 2 := by decide +kernel
  obtain ⟨hhas, hin⟩ := permission_evaluation asciiCasing cycleStore husers hgroups
  rw [hlen] at hhas hin
  have hsorted := HashOrder.sorted_of cycleStore
  refine ⟨?_, ?_, ?_⟩
  · obtain ⟨answer, hanswer, -⟩ := hhas "U".toList " Basis.Ban".toList
    rw [hanswer _ hsorted 8 (by decide), ← hanswer _ hsorted 3 (by decide)]
    decide +kernel
  · obtain ⟨answer, hanswer, -⟩ := hhas "u".toList "basis.kick".toList
    rw [hanswer _ hsorted 8 (by decide), ← hanswer _ hsorted 3 (by decide)]
    decide +kernel
  · obtain ⟨answer, hanswer, -⟩ := hin "U".toList "b".toList
    rw [hanswer _ hsorted 8 (by decide), ← hanswer _ hsorted 3 (by decide)]
    decide +kernel

/-- A user who may do everything. -/
def ownerStore : PermissionStore := addUserNode asciiCasing .empty "owner".toList "*".toList

/-- A blank node is refused to a user whose `*` decides it, and a blank user is not in the group
that unknown users are in. -/
theorem blank_names_refused :
    CaseDistinct asciiCasing ownerStore.users.keys ∧
      CaseDistinct asciiCasing ownerStore.groups.keys ∧
      has asciiCasing ownerStore (.sorted ownerStore) 1 "owner".toList [] = some false ∧
      Rule (ruling asciiCasing (collected asciiCasing ownerStore "owner".toList))
        (ordinalIgnoreCaseKey asciiCasing (trim [])) true ∧
      isInGroup asciiCasing ownerStore (.sorted ownerStore) 1 [] "default".toList = some false ∧
      Inherits asciiCasing ownerStore [] (ordinalIgnoreCaseKey asciiCasing "default".toList) := by
  have husers : CaseDistinct asciiCasing ownerStore.users.keys := by
    unfold CaseDistinct
    decide +kernel
  have hgroups : CaseDistinct asciiCasing ownerStore.groups.keys := by
    unfold CaseDistinct
    decide +kernel
  refine ⟨husers, hgroups, by decide +kernel, ?_, by decide +kernel, ?_⟩
  · obtain ⟨decisions, heffective, hget⟩ := effectiveDecisions_spec husers hgroups
      (HashOrder.sorted_of ownerStore) (by decide +kernel : ownerStore.groups.len < 1)
        "owner".toList
    have hvalues : (effectiveDecisions asciiCasing ownerStore (.sorted ownerStore) 1
        "owner".toList).map (fun d => (d.get [], d.get allNode)) = some (none, some true) := by
      decide +kernel
    rw [heffective, Option.map_some] at hvalues
    obtain ⟨hnone, hall⟩ := Prod.mk.inj (Option.some.inj hvalues)
    refine .all ((hget []).symm.trans hnone) (fun stem hstem => ?_) ?_
    · obtain ⟨rest, heq⟩ := hstem
      exact absurd (congrArg List.length heq)
        (by simp [ordinalIgnoreCaseKey, trim, trimStart, trimEnd])
    · rw [← hget, hall]
      rfl
  · refine ⟨defaultGroup, .inr ⟨?_, rfl⟩, .refl⟩
    decide +kernel

end BasisRust.Permissions
