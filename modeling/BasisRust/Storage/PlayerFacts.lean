import BasisRust.Storage.Player

/-!
# What a request does to a record

`Changed` lists the ways in which a request changes a record.  From it: what can be read afterwards
(`Changed.value`), that the bounds on scopes and entries are kept (`Changed.bounded`), and that a
removal makes the record smaller, in its own measure and as a text (`Changed.shrinks`).
-/

namespace BasisRust.Storage

open Library

variable {record next : PlayerRecord} {request : StorageRequest} {scope : String}
  {entries : OrderedMap String Bytes}

/-- At most 64 scopes, at most 1024 entries and no empty scope. -/
structure PlayerRecord.Bounded (record : PlayerRecord) : Prop where
  scopes_le : record.scopes.len ≤ 64
  entries_le : record.entryCount ≤ 1024
  nonempty : ∀ x ∈ record.scopes.entries, x.2.isEmpty = false

theorem PlayerRecord.bounded_new (owner : String) : (PlayerRecord.new owner).Bounded :=
  ⟨Nat.zero_le _, Nat.zero_le _, nofun⟩

/-- The ways in which a request changes a record. -/
inductive Changed (record : PlayerRecord) (request : StorageRequest) : PlayerRecord → Prop where
  | set (entries : OrderedMap String Bytes) (hop : request.op = .set)
      (hentries : entries = (record.scopes.get request.scope).getD .empty)
      (hscopes : record.scopes.get request.scope = none → record.scopes.len < 64)
      (hcount : entries.get request.key = none → record.entryCount < 1024) :
      Changed record request { record with
        scopes := record.scopes.insert request.scope (entries.insert request.key request.value) }
  | delete (entries : OrderedMap String Bytes) (value : Bytes) (hop : request.op = .delete)
      (hentries : record.scopes.get request.scope = some entries)
      (hvalue : entries.get request.key = some value)
      (hrest : (entries.erase request.key).isEmpty = false) :
      Changed record request { record with
        scopes := record.scopes.insert request.scope (entries.erase request.key) }
  | deleteLast (entries : OrderedMap String Bytes) (value : Bytes) (hop : request.op = .delete)
      (hentries : record.scopes.get request.scope = some entries)
      (hvalue : entries.get request.key = some value)
      (hrest : (entries.erase request.key).isEmpty = true) :
      Changed record request { record with scopes := record.scopes.erase request.scope }
  | clear (entries : OrderedMap String Bytes) (hop : request.op = .clear)
      (hentries : record.scopes.get request.scope = some entries) :
      Changed record request { record with scopes := record.scopes.erase request.scope }

theorem changed_of_change (h : change record request = .ok next) : Changed record request next := by
  unfold change at h
  cases hop : request.op with
  | get | keys | usage => simp only [hop, reduceCtorEq] at h
  | set =>
    simp only [hop] at h
    split at h
    · cases h
    · rename_i hscopes
      split at h
      · cases h
      · rename_i hcount
        cases h
        refine .set _ hop rfl ?_ ?_
        · intro hnone
          simpa [hnone] using hscopes
        · intro hnone
          simpa [hnone] using hcount
  | delete =>
    simp only [hop] at h
    split at h
    · cases h
    · rename_i entries hentries
      split at h
      · cases h
      · rename_i hvalue
        obtain ⟨value, hvalue⟩ : ∃ value, entries.get request.key = some value := by
          rw [Option.isNone_iff_eq_none] at hvalue
          exact Option.ne_none_iff_exists'.mp hvalue
        split at h
        · rename_i hrest
          cases h
          exact .deleteLast entries value hop hentries hvalue hrest
        · rename_i hrest
          cases h
          exact .delete entries value hop hentries hvalue (eq_false_of_ne_true hrest)
  | clear =>
    simp only [hop] at h
    split at h
    · cases h
    · rename_i hsome
      cases h
      obtain ⟨entries, hentries⟩ : ∃ entries, record.scopes.get request.scope = some entries := by
        rw [Option.isNone_iff_eq_none] at hsome
        exact Option.ne_none_iff_exists'.mp hsome
      exact .clear entries hop hentries

theorem Changed.owner_eq (h : Changed record request next) : next.owner = record.owner := by
  cases h <;> rfl

/-! ### Reading -/

/-- What becomes of a value when a request is carried out. -/
def StorageRequest.effect (request : StorageRequest) (scope key : String) (old : Option Bytes) :
    Option Bytes :=
  match request.op with
  | .set => if scope = request.scope ∧ key = request.key then some request.value else old
  | .delete => if scope = request.scope ∧ key = request.key then none else old
  | .clear => if scope = request.scope then none else old
  | .get | .keys | .usage => old

theorem value_of_none (h : record.scopes.get scope = none) (key : String) :
    record.value scope key = none := by
  rw [PlayerRecord.value, h, Option.bind_none]

theorem value_of_some (h : record.scopes.get scope = some entries) (key : String) :
    record.value scope key = entries.get key := by
  rw [PlayerRecord.value, h, Option.bind_some]

theorem value_congr (h : next.scopes.get scope = record.scopes.get scope) (key : String) :
    next.value scope key = record.value scope key := by
  rw [PlayerRecord.value, PlayerRecord.value, h]

/-- The only entry of a map that is empty without it. -/
theorem get_of_rest_empty {key : String} (h : (entries.erase key).isEmpty = true) {k : String}
    (hk : k ≠ key) : entries.get k = none := by
  rw [← OrderedMap.get_erase_of_ne hk, OrderedMap.get, List.isEmpty_iff.mp h]
  rfl

theorem Changed.value (h : Changed record request next) (scope key : String) :
    next.value scope key = request.effect scope key (record.value scope key) := by
  cases h with simp only [StorageRequest.effect, hop]
  | set entries hop hentries =>
    by_cases hscope : scope = request.scope
    · subst hscope
      rw [value_of_some (OrderedMap.get_insert_self _ _ _)]
      by_cases hkey : key = request.key
      · rw [if_pos ⟨rfl, hkey⟩, hkey, OrderedMap.get_insert_self]
      · rw [if_neg fun h => hkey h.2, OrderedMap.get_insert_of_ne hkey, hentries]
        cases hget : record.scopes.get request.scope with
        | none =>
          rw [value_of_none hget]
          rfl
        | some entries => rw [value_of_some hget, Option.getD_some]
    · rw [if_neg fun h => hscope h.1]
      exact value_congr (OrderedMap.get_insert_of_ne hscope _) key
  | delete entries value hop hentries hvalue =>
    by_cases hscope : scope = request.scope
    · subst hscope
      rw [value_of_some (OrderedMap.get_insert_self _ _ _), value_of_some hentries]
      by_cases hkey : key = request.key
      · rw [if_pos ⟨rfl, hkey⟩, hkey, OrderedMap.get_erase_self]
      · rw [if_neg fun h => hkey h.2, OrderedMap.get_erase_of_ne hkey]
    · rw [if_neg fun h => hscope h.1]
      exact value_congr (OrderedMap.get_insert_of_ne hscope _) key
  | deleteLast entries value hop hentries hvalue hrest =>
    by_cases hscope : scope = request.scope
    · subst hscope
      rw [value_of_none (OrderedMap.get_erase_self _ _), value_of_some hentries]
      by_cases hkey : key = request.key
      · rw [if_pos ⟨rfl, hkey⟩]
      · rw [if_neg fun h => hkey h.2, get_of_rest_empty hrest hkey]
    · rw [if_neg fun h => hscope h.1]
      exact value_congr (OrderedMap.get_erase_of_ne hscope) key
  | clear entries hop hentries =>
    by_cases hscope : scope = request.scope
    · subst hscope
      rw [value_of_none (OrderedMap.get_erase_self _ _), if_pos rfl]
    · rw [if_neg hscope]
      exact value_congr (OrderedMap.get_erase_of_ne hscope) key

/-! ### Bounds -/

theorem isEmpty_insert (entries : OrderedMap String Bytes) (key : String) (value : Bytes) :
    (entries.insert key value).isEmpty = false := by
  rw [Bool.eq_false_iff, Ne, OrderedMap.isEmpty_iff_len, OrderedMap.len_insert]
  omega

/-- Replacing a scope by one that is not empty. -/
theorem nonempty_insert (h : ∀ x ∈ record.scopes.entries, x.2.isEmpty = false)
    (hentries : entries.isEmpty = false) (scope : String) :
    ∀ x ∈ (record.scopes.insert scope entries).entries, x.2.isEmpty = false := by
  intro x hx
  rcases OrderedMap.mem_insert.mp hx with rfl | hx
  · exact hentries
  · exact h x (mem_of_mem_assocErase hx)

theorem Changed.bounded (h : Changed record request next) (hb : record.Bounded) : next.Bounded := by
  obtain ⟨hscopes_le, hentries_le, hnonempty⟩ := hb
  unfold PlayerRecord.entryCount at hentries_le
  cases h with
  | set entries hop hentries hscopes hcount =>
    unfold PlayerRecord.entryCount at hcount
    refine ⟨?_, ?_, nonempty_insert hnonempty (isEmpty_insert _ _ _) _⟩
    · show (record.scopes.insert _ _).len ≤ 64
      rw [OrderedMap.len_insert]
      cases hget : record.scopes.get request.scope with
      | none =>
        have hlt := hscopes hget
        rw [OrderedMap.len_of_none hget] at hlt
        omega
      | some old =>
        rw [OrderedMap.len_of_get hget] at hscopes_le
        exact hscopes_le
    · show (record.scopes.insert _ _).sum (fun x => x.2.len) ≤ 1024
      rw [OrderedMap.sum_insert]
      show (entries.insert request.key request.value).len + _ ≤ 1024
      have htotal : record.scopes.sum (fun x => x.2.len) =
          entries.len + (record.scopes.erase request.scope).sum fun x => x.2.len := by
        cases hget : record.scopes.get request.scope with
        | none =>
          rw [OrderedMap.sum_of_none _ hget, hentries, hget, Option.getD_none]
          exact (Nat.zero_add _).symm
        | some old => rw [OrderedMap.sum_of_get _ hget, hentries, hget, Option.getD_some]
      rw [htotal] at hentries_le hcount
      rw [OrderedMap.len_insert]
      cases hkey : entries.get request.key with
      | none =>
        have hlt := hcount hkey
        rw [OrderedMap.len_of_none hkey] at hlt
        omega
      | some old =>
        rw [OrderedMap.len_of_get hkey] at hentries_le
        exact hentries_le
  | delete entries value hop hentries hvalue hrest =>
    refine ⟨?_, ?_, nonempty_insert hnonempty hrest _⟩
    · show (record.scopes.insert _ _).len ≤ 64
      rw [OrderedMap.len_insert, ← OrderedMap.len_of_get hentries]
      exact hscopes_le
    · show (record.scopes.insert _ _).sum (fun x => x.2.len) ≤ 1024
      rw [OrderedMap.sum_insert]
      rw [OrderedMap.sum_of_get _ hentries] at hentries_le
      dsimp only at hentries_le ⊢
      rw [OrderedMap.len_of_get hvalue] at hentries_le
      omega
  | deleteLast _ _ _ hentries | clear _ _ hentries =>
    rw [OrderedMap.len_of_get hentries] at hscopes_le
    rw [OrderedMap.sum_of_get _ hentries] at hentries_le
    exact ⟨Nat.le_trans (Nat.le_add_left _ _) hscopes_le,
      Nat.le_trans (Nat.le_add_left _ _) hentries_le,
      fun x hx => hnonempty x (mem_of_mem_assocErase hx)⟩

/-! ### Removals -/

/-- What a scope costs in the text of a record. -/
def scopeText (x : String × OrderedMap String Bytes) : ℕ :=
  (jsonField (x.1, PlayerRecord.entriesText x.2)).length + 1

theorem length_entriesText (h : entries.isEmpty = false) :
    (PlayerRecord.entriesText entries).length =
      1 + entries.sum fun x => (jsonField (x.1, jsonBytes x.2)).length + 1 :=
  length_jsonObject_map _ (by simpa [OrderedMap.isEmpty] using h)

theorem length_toVec (owner : String) : ∃ n, ∀ scopes : OrderedMap String (OrderedMap String Bytes),
    scopes.isEmpty = false →
      (PlayerRecord.toVec ⟨owner, scopes⟩).length = n + scopes.sum scopeText := by
  refine ⟨1 + ((jsonString "owner").length + (1 + ((jsonString owner).length + (1 +
    ((jsonString "scopes").length + (1 + (1 + 1))))))), ?_⟩
  intro scopes h
  have hscopes : (PlayerRecord.scopesText scopes).length = 1 + scopes.sum scopeText :=
    length_jsonObject_map _ (by simpa [OrderedMap.isEmpty] using h)
  rw [PlayerRecord.toVec, jsonObject_pair]
  simp only [List.length_cons, List.length_append, List.length_nil, hscopes]
  omega

/-- Scopes that cost less make the record smaller. -/
theorem storageBytes_lt {scopes : OrderedMap String (OrderedMap String Bytes)}
    (hsome : record.scopes.isEmpty = false)
    (hsum : scopes.sum scopeText < record.scopes.sum scopeText) :
    PlayerRecord.storageBytes { record with scopes } < record.storageBytes := by
  obtain ⟨n, hlength⟩ := length_toVec record.owner
  unfold PlayerRecord.storageBytes
  rw [hsome, if_neg Bool.false_ne_true, hlength record.scopes hsome]
  show (if scopes.isEmpty then 0 else (PlayerRecord.toVec ⟨record.owner, scopes⟩).length) < _
  split
  · omega
  · rename_i hscopes
    rw [hlength scopes (eq_false_of_ne_true hscopes)]
    omega

theorem isEmpty_of_get (h : record.scopes.get scope = some entries) :
    record.scopes.isEmpty = false := by
  rw [Bool.eq_false_iff, Ne, OrderedMap.isEmpty_iff_len, OrderedMap.len_of_get h]
  omega

/-- A scope without one of its values costs less. -/
theorem scopeText_erase {key : String} {value : Bytes} (hvalue : entries.get key = some value)
    (hrest : (entries.erase key).isEmpty = false) :
    scopeText (scope, entries.erase key) < scopeText (scope, entries) := by
  have hentries : entries.isEmpty = false := by
    rw [Bool.eq_false_iff, Ne, OrderedMap.isEmpty_iff_len, OrderedMap.len_of_get hvalue]
    omega
  simp only [scopeText, jsonField, List.length_append, List.length_cons, length_entriesText hrest,
    length_entriesText hentries, OrderedMap.sum_of_get _ hvalue]
  omega

/-- **A removal makes the record smaller.** -/
theorem Changed.shrinks (h : Changed record request next) (hop : request.op ≠ .set) :
    next.used < record.used ∧ next.storageBytes < record.storageBytes := by
  have hremoved : ∀ entries, record.scopes.get request.scope = some entries →
      PlayerRecord.used { record with scopes := record.scopes.erase request.scope } < record.used ∧
      PlayerRecord.storageBytes { record with scopes := record.scopes.erase request.scope } <
        record.storageBytes := by
    intro entries hentries
    refine ⟨?_, storageBytes_lt (isEmpty_of_get hentries) ?_⟩
    · show (record.scopes.erase _).sum _ < record.scopes.sum _
      rw [OrderedMap.sum_of_get _ hentries]
      exact Nat.lt_add_of_pos_left (by simp only [PlayerRecord.scopeUsed]; omega)
    · rw [OrderedMap.sum_of_get scopeText hentries]
      exact Nat.lt_add_of_pos_left (Nat.succ_pos _)
  cases h with
  | set entries hset => exact absurd hset hop
  | delete entries value _ hentries hvalue hrest =>
    refine ⟨?_, storageBytes_lt (isEmpty_of_get hentries) ?_⟩
    · show (record.scopes.insert _ _).sum _ < record.scopes.sum _
      rw [OrderedMap.sum_insert, OrderedMap.sum_of_get _ hentries]
      simp only [PlayerRecord.scopeUsed, OrderedMap.sum_of_get _ hvalue, PlayerRecord.entryUsed]
      omega
    · rw [OrderedMap.sum_insert, OrderedMap.sum_of_get scopeText hentries]
      exact Nat.add_lt_add_right (scopeText_erase hvalue hrest) _
  | deleteLast entries _ _ hentries | clear entries _ hentries => exact hremoved entries hentries

end BasisRust.Storage
