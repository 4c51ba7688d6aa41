import BasisRust.Storage.Backends
import BasisRust.Storage.FilesSafety
import BasisRust.Storage.PlayerFacts

/-!
# The backends refine the reference map

Each backend is related to the reference by what it keeps: the same list of records, the list of
their files, or the list of their rows, and a counter that is the total.  One call keeps the
relation and gives the same reply, so every sequence of calls does.

What the reference itself guarantees is said call by call in `CallSpec`.
-/

namespace BasisRust.Storage

open Library

variable {β τ : Type} {digest : String → String} {serde : Serde} {limiter : Limiter β τ}
  {request : StorageRequest} {limit : ℕ} {reply : StorageReply}

/-! ### The reference -/

namespace Reference

variable {r : Reference β} {owner : String} {next : PlayerRecord}

/-- Every kept record is in its own place, not empty, and within the bounds. -/
structure Inv (r : Reference β) : Prop where
  nodup : AssocNodup r.records
  kept : ∀ x ∈ r.records, x.2.owner = x.1 ∧ x.2.scopes.isEmpty = false ∧ x.2.Bounded

theorem record_of_none (h : assocGet owner r.records = none) : r.record owner = .new owner := by
  rw [record, h, Option.getD_none]

theorem record_of_some {x : PlayerRecord} (h : assocGet owner r.records = some x) :
    r.record owner = x := by
  rw [record, h, Option.getD_some]

theorem Inv.record_owner (h : Inv r) (owner : String) : (r.record owner).owner = owner := by
  cases hget : assocGet owner r.records with
  | none => rw [record_of_none hget]; rfl
  | some x =>
    rw [record_of_some hget]
    exact (h.kept _ (mem_keys_of_assocGet hget)).1

theorem Inv.bounded (h : Inv r) (owner : String) : (r.record owner).Bounded := by
  cases hget : assocGet owner r.records with
  | none =>
    rw [record_of_none hget]
    exact PlayerRecord.bounded_new owner
  | some x =>
    rw [record_of_some hget]
    exact (h.kept _ (mem_keys_of_assocGet hget)).2.2

/-- What is stored of an owner is the record it has, if any. -/
theorem Inv.stored (h : Inv r) (owner : String) :
    (assocGet owner r.records).elim 0 (fun x => x.toVec.length) =
      (r.record owner).storageBytes := by
  cases hget : assocGet owner r.records with
  | none => rw [record_of_none hget]; rfl
  | some x =>
    rw [record_of_some hget, PlayerRecord.storageBytes,
      (h.kept _ (mem_keys_of_assocGet hget)).2.1, if_neg Bool.false_ne_true]
    rfl

theorem Inv.storageBytes_le (h : Inv r) (owner : String) :
    (r.record owner).storageBytes ≤ r.total := by
  have hsum := h.nodup.sum_erase (fun x => x.toVec.length) owner
  rw [h.stored owner] at hsum
  show _ ≤ assocSum _ r.records
  omega

theorem Inv.total_put (h : Inv r) (owner : String) (next : PlayerRecord) :
    (r.put owner next).total = r.total - (r.record owner).storageBytes + next.storageBytes := by
  have hsum := h.nodup.sum_put (fun x => x.toVec.length) owner
    (if next.scopes.isEmpty then none else some next)
  have hnew : (if next.scopes.isEmpty then none else some next).elim 0 (fun x => x.toVec.length) =
      next.storageBytes := by
    unfold PlayerRecord.storageBytes
    split <;> rfl
  have hle := h.storageBytes_le owner
  rw [h.stored owner, hnew] at hsum
  show assocSum _ (assocPut owner _ r.records) = _
  unfold total at hle ⊢
  omega

theorem scopes_put (r : Reference β) (owner : String) (next : PlayerRecord) :
    ((r.put owner next).record owner).scopes = next.scopes := by
  unfold record put
  dsimp only
  rw [assocGet_put, if_pos rfl]
  split
  · rename_i hempty
    rw [Option.getD_none]
    exact (OrderedMap.ext (List.isEmpty_iff.mp hempty)).symm
  · rfl

theorem record_put_of_ne {other : String} (h : other ≠ owner) :
    (r.put owner next).record other = r.record other := by
  unfold record put
  dsimp only
  rw [assocGet_put, if_neg h]

theorem Inv.put (h : Inv r) (hnext : next.owner = owner) (hb : next.Bounded) :
    Inv (r.put owner next) := by
  refine ⟨h.nodup.put _ _, ?_⟩
  intro x hx
  unfold Reference.put at hx
  dsimp only at hx
  split at hx
  · exact h.kept x (mem_of_mem_assocErase hx)
  · rename_i hempty
    rcases mem_assocSet hx with rfl | hx
    · exact ⟨hnext, eq_false_of_ne_true hempty, hb⟩
    · exact h.kept x hx

end Reference

/-! ### One request -/

/-- The next record comes from a change that the limit of the player allows. -/
theorem applyRequest_some {record next : PlayerRecord}
    (h : applyRequest record request limit = (reply, some next)) :
    Changed record request next ∧ quotaAllows record.used next.used limit = true ∧
      reply.status = .ok := by
  unfold applyRequest at h
  dsimp only at h
  split at h
  · split at h <;> cases h
  · cases h
  · cases h
  all_goals
    split at h
    · cases h
    · rename_i next' hchange
      split at h
      · rename_i hquota
        cases h
        exact ⟨changed_of_change hchange, hquota, rfl⟩
      · cases h

/-- How a call is carried out: it changes nothing, it changes a record, or the total is in the
way. -/
inductive Reference.Move (r : Reference β) (call : StorageCall τ) :
    Reference β × StorageReply → Prop where
  | answered (reply : StorageReply)
      (h : applyRequest (r.record call.owner) call.request call.limit = (reply, none)) :
      Move r call (r, reply)
  | changed (reply : StorageReply) (next : PlayerRecord)
      (h : applyRequest (r.record call.owner) call.request call.limit = (reply, some next))
      (hquota : quotaAllows r.total (r.put call.owner next).total call.totalLimit = true) :
      Move r call (r.put call.owner next, reply)
  | full (reply : StorageReply) (next : PlayerRecord)
      (h : applyRequest (r.record call.owner) call.request call.limit = (reply, some next))
      (hquota : quotaAllows r.total (r.put call.owner next).total call.totalLimit = false) :
      Move r call (r, reply.full (r.record call.owner))

theorem Reference.carryOut_move (r : Reference β) (call : StorageCall τ) :
    r.Move call (r.carryOut call) := by
  unfold carryOut
  split
  · rename_i reply happly
    exact .answered reply happly
  · rename_i reply next happly
    split
    · rename_i hquota
      exact .changed reply next happly hquota
    · rename_i hquota
      exact .full reply next happly (eq_false_of_ne_true hquota)

variable {r : Reference β} {call : StorageCall τ} {history : List (StorageCall τ × StorageReply)}

theorem Reference.Inv.carryOut (h : r.Inv) (call : StorageCall τ) : (r.carryOut call).1.Inv := by
  have hmove := r.carryOut_move call
  generalize r.carryOut call = result at hmove
  cases hmove with
  | answered | full => exact h
  | changed reply next happly =>
    obtain ⟨hchanged, -, -⟩ := applyRequest_some happly
    exact h.put (hchanged.owner_eq.trans (h.record_owner _)) (hchanged.bounded (h.bounded _))

/-! ### Backends -/

/-- A backend whose records and counter are those of the reference refines it: the calls that are
not carried out are answered alike. -/
theorem serve_simulates {σ : Type} {budgets : σ → β} {setBudgets : σ → β → σ}
    {carryOut : σ → StorageCall τ → σ × StorageReply} {R : σ → Reference β → Prop}
    (hbudgets : ∀ s r, R s r → budgets s = r.budgets)
    (hset : ∀ s r b, R s r → R (setBudgets s b) { r with budgets := b })
    (hcarry : ∀ s r, R s r → r.Fits call →
      R (carryOut s call).1 (r.carryOut call).1 ∧ (carryOut s call).2 = (r.carryOut call).2)
    {s : σ} (h : R s r) (hfits : r.Fits call) :
    R (serve limiter budgets setBudgets carryOut s call).1 (r.execute limiter call).1 ∧
      (serve limiter budgets setBudgets carryOut s call).2 = (r.execute limiter call).2 := by
  unfold Reference.execute serve
  by_cases hdenied : call.isDenied = true
  · rw [if_pos hdenied, if_pos hdenied]
    exact ⟨h, rfl⟩
  · rw [if_neg hdenied, if_neg hdenied, hbudgets s r h]
    obtain ⟨allowed, b⟩ := limiter.ask r.budgets call
    cases allowed with
    | false => exact ⟨hset s r b h, rfl⟩
    | true => exact hcarry _ _ (hset s r b h) hfits

/-- The total after a change, as the backends compute it. -/
theorem Reference.Inv.next_total (h : r.Inv) (hfits : r.Fits call) {next : PlayerRecord}
    (happly : applyRequest (r.record call.owner) call.request call.limit = (reply, some next)) :
    r.total - (r.record call.owner).storageBytes + next.storageBytes =
        (r.put call.owner next).total ∧
      (r.put call.owner next).total ≤ usizeMax := by
  refine ⟨(h.total_put _ next).symm, hfits next ?_⟩
  rw [happly]
  rfl

/-! ### The records in memory -/

structure MemoryRefines (s : PlayerStorage β) (r : Reference β) : Prop where
  root : s.root = none
  records : s.records = r.records
  bytes : s.memoryBytes = r.total
  budgets : s.budgets = r.budgets
  inv : r.Inv

theorem MemoryRefines.record {s : PlayerStorage β} (h : MemoryRefines s r)
    (digest : String → String) (serde : Serde) (owner : String) :
    s.record digest serde owner = some (r.record owner) := by
  unfold PlayerStorage.record
  rw [h.records, h.root]
  cases hget : assocGet owner r.records with
  | none => rw [Reference.record_of_none hget]; rfl
  | some x => rw [Reference.record_of_some hget]

theorem saturatingAdd_of_le {a b : ℕ} (h : a + b ≤ usizeMax) : saturatingAdd a b = a + b :=
  Nat.min_eq_left h

theorem MemoryRefines.carryOut {s : PlayerStorage β} (h : MemoryRefines s r) (hfits : r.Fits call) :
    MemoryRefines (s.carryOut digest serde call).1 (r.carryOut call).1 ∧
      (s.carryOut digest serde call).2 = (r.carryOut call).2 := by
  have hinv := h.inv.carryOut call
  unfold PlayerStorage.carryOut
  unfold Reference.carryOut at hinv ⊢
  rw [h.record digest serde call.owner]
  dsimp only
  cases happly : applyRequest (r.record call.owner) call.request call.limit with
  | mk reply updated =>
    rw [happly] at hinv
    cases updated with
    | none => exact ⟨h, rfl⟩
    | some next =>
      obtain ⟨htotal, hle⟩ := h.inv.next_total hfits happly
      dsimp only at hinv ⊢
      rw [h.root]
      dsimp only [PlayerStorage.keep]
      rw [h.bytes, saturatingAdd_of_le (by rw [htotal]; exact hle), htotal]
      by_cases hquota : quotaAllows r.total (r.put call.owner next).total call.totalLimit = true
      · rw [if_pos hquota] at hinv
        rw [if_pos hquota, if_pos hquota]
        exact ⟨⟨h.root, by rw [h.records]; rfl, rfl, h.budgets, hinv⟩, rfl⟩
      · rw [if_neg hquota, if_neg hquota]
        exact ⟨h, rfl⟩

/-! ### The records in files and in rows

Both are the list of records with every key renamed and every record replaced by its text. -/

theorem length_saveBytes_eq (record : PlayerRecord) :
    (saveBytes record).length = record.storageBytes := by
  unfold saveBytes PlayerRecord.storageBytes
  split <;> rfl

theorem target_map (record : PlayerRecord) :
    target record = (if record.scopes.isEmpty then none else some record).map
      PlayerRecord.toVec := by
  unfold target
  split <;> rfl

section Stored

variable {r : Reference β} {owner : String} {name : String → String}

/-- The texts of the records, under their names. -/
def Reference.texts (r : Reference β) (name : String → String) : List (String × Bytes) :=
  r.records.map fun x => (name x.1, x.2.toVec)

theorem Reference.Inv.text_length (h : r.Inv)
    (hname : ∀ x ∈ r.records, name x.1 = name owner → x.1 = owner) :
    (assocGet (name owner) (r.texts name)).elim 0 List.length = (r.record owner).storageBytes := by
  unfold texts
  rw [assocGet_renamed hname, ← h.stored owner]
  cases assocGet owner r.records <;> rfl

/-- What is read back of an owner. -/
theorem Reference.Inv.read_text (h : r.Inv) (serde : Serde)
    (hname : ∀ x ∈ r.records, name x.1 = name owner → x.1 = owner) :
    (match assocGet (name owner) (r.texts name) with
      | none => some (PlayerRecord.new owner)
      | some bytes => (serde.fromSlice bytes).filter fun record => record.owner = owner) =
      some (r.record owner) := by
  unfold texts
  rw [assocGet_renamed hname]
  cases hget : assocGet owner r.records with
  | none => rw [Reference.record_of_none hget]; rfl
  | some x =>
    have howner := (h.kept _ (mem_keys_of_assocGet hget)).1
    rw [Reference.record_of_some hget]
    dsimp only [Option.map_some]
    rw [serde.round_trip, Option.filter_some, if_pos (decide_eq_true howner)]

theorem Reference.texts_put (hname : ∀ x ∈ r.records, name x.1 = name owner → x.1 = owner)
    (next : PlayerRecord) :
    assocPut (name owner) (target next) (r.texts name) = (r.put owner next).texts name := by
  unfold texts
  rw [target_map]
  exact assocPut_renamed hname _

end Stored

/-! ### The records in files -/

structure FileRefines (digest : String → String) (owners : List String) (s : PlayerStorage β)
    (r : Reference β) : Prop where
  root : s.root = some ⟨r.texts digest, some (FileUsage.toVec ⟨r.total, false⟩)⟩
  records : s.records = []
  budgets : s.budgets = r.budgets
  owners : ∀ x ∈ r.records, x.1 ∈ owners
  inv : r.Inv

section Files

variable {owners : List String} {s : PlayerStorage β} {r : Reference β} {call : StorageCall τ}
  {owner : String}

theorem FileRefines.apart (h : FileRefines digest owners s r)
    (hdigest : ∀ o ∈ owners, ∀ o' ∈ owners, digest o = digest o' → o = o')
    (howner : owner ∈ owners) :
    ∀ x ∈ r.records, digest x.1 = digest owner → x.1 = owner :=
  fun x hx heq => hdigest _ (h.owners x hx) _ howner heq

theorem FileRefines.record (h : FileRefines digest owners s r)
    (hdigest : ∀ o ∈ owners, ∀ o' ∈ owners, digest o = digest o' → o = o')
    (howner : owner ∈ owners) :
    s.record digest serde owner = some (r.record owner) := by
  unfold PlayerStorage.record
  rw [h.records, h.root]
  exact h.inv.read_text serde (h.apart hdigest howner)

theorem owners_put {next : PlayerRecord} (h : ∀ x ∈ r.records, x.1 ∈ owners)
    (howner : owner ∈ owners) : ∀ x ∈ (r.put owner next).records, x.1 ∈ owners := by
  intro x hx
  unfold Reference.put at hx
  dsimp only at hx
  split at hx
  · exact h x (mem_of_mem_assocErase hx)
  · rcases mem_assocSet hx with rfl | hx
    · exact howner
    · exact h x hx

theorem FileRefines.carryOut (h : FileRefines digest owners s r) (hfits : r.Fits call)
    (hdigest : ∀ o ∈ owners, ∀ o' ∈ owners, digest o = digest o' → o = o')
    (howner : call.owner ∈ owners) :
    FileRefines digest owners (s.carryOut digest serde call).1 (r.carryOut call).1 ∧
      (s.carryOut digest serde call).2 = (r.carryOut call).2 := by
  have hinv := h.inv.carryOut call
  have hapart := h.apart hdigest howner
  unfold PlayerStorage.carryOut
  unfold Reference.carryOut at hinv ⊢
  rw [h.record hdigest howner]
  dsimp only
  cases happly : applyRequest (r.record call.owner) call.request call.limit with
  | mk reply updated =>
    rw [happly] at hinv
    cases updated with
    | none => exact ⟨h, rfl⟩
    | some next =>
      obtain ⟨htotal, hle⟩ := h.inv.next_total hfits happly
      have hold := h.inv.text_length hapart
      dsimp only at hinv ⊢
      rw [h.root]
      dsimp only [PlayerStorage.save]
      rw [saveAccount_undisturbed rfl (by rw [hold]; exact h.inv.storageBytes_le _)
        (by rw [hold, length_saveBytes_eq, htotal]; exact hle), hold, length_saveBytes_eq, htotal]
      dsimp only
      by_cases hquota : quotaAllows r.total (r.put call.owner next).total call.totalLimit = true
      · rw [if_pos hquota] at hinv
        rw [if_pos hquota, if_pos hquota]
        refine ⟨⟨?_, h.records, h.budgets, owners_put h.owners howner, hinv⟩, rfl⟩
        rw [Reference.texts_put hapart]
      · rw [if_neg hquota, if_neg hquota]
        exact ⟨⟨rfl, h.records, h.budgets, h.owners, h.inv⟩, rfl⟩

end Files

/-! ### The records in rows -/

structure SqlRefines (s : SqlStorage β) (r : Reference β) : Prop where
  rows : s.rows = r.texts id
  used : s.used = r.total
  limits : s.limits = r.budgets
  inv : r.Inv

theorem SqlRefines.decode {s : SqlStorage β} (h : SqlRefines s r) (serde : Serde) (owner : String) :
    SqlStorage.decodeRecord serde (assocGet owner s.rows) owner = some (r.record owner) := by
  have hapart : ∀ x ∈ r.records, id x.1 = id owner → x.1 = owner := fun _ _ heq => heq
  rw [← h.inv.read_text serde hapart, h.rows]
  unfold SqlStorage.decodeRecord
  cases hget : assocGet owner (r.texts id) <;> simp only [id_eq, hget]

theorem SqlRefines.carryOut {s : SqlStorage β} (h : SqlRefines s r) (hfits : r.Fits call) :
    SqlRefines (s.carryOut (SqlStorage.operation serde) call).1 (r.carryOut call).1 ∧
      (s.carryOut (SqlStorage.operation serde) call).2 = (r.carryOut call).2 := by
  have hinv := h.inv.carryOut call
  have hapart : ∀ x ∈ r.records, id x.1 = id call.owner → x.1 = call.owner := fun _ _ heq => heq
  have hold : s.existingSize call.owner = (r.record call.owner).storageBytes := by
    unfold SqlStorage.existingSize
    rw [h.rows]
    exact h.inv.text_length hapart
  have hdecode := h.decode serde call.owner
  unfold SqlStorage.carryOut SqlStorage.operation
  unfold Reference.carryOut at hinv ⊢
  rw [hdecode]
  dsimp only
  cases happly : applyRequest (r.record call.owner) call.request call.limit with
  | mk reply updated =>
    rw [happly] at hinv
    cases updated with
    | none => exact ⟨h, rfl⟩
    | some next =>
      obtain ⟨htotal, hle⟩ := h.inv.next_total hfits happly
      have hle' := h.inv.storageBytes_le call.owner
      dsimp only at hinv ⊢
      rw [h.used, hold, length_saveBytes_eq,
        saturatingAdd_of_le (by rw [htotal]; exact hle), htotal]
      by_cases hquota : quotaAllows r.total (r.put call.owner next).total call.totalLimit = true
      · rw [if_pos hquota] at hinv
        rw [if_pos hquota, if_pos hquota]
        refine ⟨?_, rfl⟩
        have hrows : assocPut call.owner (target next) s.rows =
            (r.put call.owner next).texts id := by
          rw [h.rows]
          exact Reference.texts_put hapart next
        rw [target_eq] at hrows
        by_cases hempty : (saveBytes next).isEmpty = true
        · rw [if_pos hempty] at hrows ⊢
          refine ⟨hrows, ?_, h.limits, hinv⟩
          have hzero : next.storageBytes = 0 := by
            rw [← length_saveBytes_eq, List.isEmpty_iff.mp hempty]
            rfl
          show s.used - s.existingSize call.owner = _
          rw [h.used, hold, ← htotal, hzero, Nat.add_zero]
        · rw [if_neg hempty] at hrows ⊢
          refine ⟨hrows, ?_, h.limits, hinv⟩
          show s.used + (saveBytes next).length - s.existingSize call.owner = _
          rw [h.used, hold, length_saveBytes_eq, ← htotal]
          omega
      · rw [if_neg hquota, if_neg hquota]
        exact ⟨h, rfl⟩

/-! ### What the reference guarantees -/

/-- The value that the calls so far have left under a key. -/
def lastValue (owner scope key : String) (history : List (StorageCall τ × StorageReply)) :
    Option Bytes :=
  history.foldl (fun old x =>
    if x.1.owner = owner ∧ x.2.status = .ok then x.1.request.effect scope key old else old) none

/-- One call, after a history of calls and replies. -/
structure CallSpec (history : List (StorageCall τ × StorageReply)) (r r' : Reference β)
    (call : StorageCall τ) (reply : StorageReply) : Prop where
  read : call.request.op = .get → reply.status = .denied ∨ reply.status = .rateLimited ∨
    match lastValue call.owner call.request.scope call.request.key history with
    | some value => reply.status = .ok ∧ reply.value = value
    | none => reply.status = .notFound
  others : ∀ owner, owner ≠ call.owner → r'.record owner = r.record owner
  bounded : ∀ owner, (r'.record owner).Bounded
  unchanged : reply.status ≠ .ok → r'.records = r.records
  player_limit : call.request.op = .set → reply.status = .ok →
    (r'.record call.owner).used ≤ call.limit ∨
      (r'.record call.owner).used < (r.record call.owner).used
  total_limit : call.request.op = .set → reply.status = .ok →
    call.totalLimit = 0 ∨ r'.total ≤ call.totalLimit ∨ r'.total < r.total
  delete_allowed : call.request.op = .delete →
    (r.record call.owner).value call.request.scope call.request.key ≠ none → reply.status ≠ .full
  clear_allowed : call.request.op = .clear →
    (r.record call.owner).scopes.get call.request.scope ≠ none → reply.status ≠ .full

theorem quotaAllows_iff {current next : ℕ} :
    quotaAllows current next limit = true ↔ limit = 0 ∨ next ≤ limit ∨ next < current := by
  simp [quotaAllows, or_assoc]

theorem one_le_limit (call : StorageCall τ) : 1 ≤ call.limit :=
  le_min (le_max_right _ _) (by decide)

theorem change_error {record : PlayerRecord} {status : StorageStatus}
    (h : change record request = .error status) :
    (request.op = .set ∧ status = .full) ∨ (request.op = .delete ∧ status = .notFound ∧
      record.value request.scope request.key = none) ∨
    (request.op = .clear ∧ status = .ok ∧ record.scopes.get request.scope = none) ∨
    request.isWrite = false := by
  unfold change at h
  cases hop : request.op with
  | set =>
    simp only [hop] at h
    split at h
    · cases h
      exact .inl ⟨rfl, rfl⟩
    · split at h
      · cases h
        exact .inl ⟨rfl, rfl⟩
      · cases h
  | delete =>
    simp only [hop] at h
    split at h
    · rename_i hnone
      cases h
      exact .inr (.inl ⟨rfl, rfl, value_of_none hnone _⟩)
    · rename_i entries hentries
      split at h
      · rename_i hnone
        cases h
        exact .inr
          (.inl ⟨rfl, rfl, (value_of_some hentries _).trans (Option.isNone_iff_eq_none.mp hnone)⟩)
      · split at h <;> cases h
  | clear =>
    simp only [hop] at h
    split at h
    · rename_i hnone
      cases h
      exact .inr (.inr (.inl ⟨rfl, rfl, Option.isNone_iff_eq_none.mp hnone⟩))
    · cases h
  | get | keys | usage => exact .inr (.inr (.inr (by simp [StorageRequest.isWrite, hop])))

/-- A request that may change the record is answered without a change because of what `change` says,
or because the limit of the player is in the way. -/
theorem applyRequest_none {record : PlayerRecord}
    (h : applyRequest record request limit = (reply, none)) (hwrite : request.isWrite = true) :
    change record request = .error reply.status ∨
      ∃ next, Changed record request next ∧ quotaAllows record.used next.used limit = false ∧
        reply.status = .full := by
  unfold applyRequest at h
  dsimp only at h
  split at h
  · rename_i hop
    simp [StorageRequest.isWrite, hop] at hwrite
  · rename_i hop
    simp [StorageRequest.isWrite, hop] at hwrite
  · rename_i hop
    simp [StorageRequest.isWrite, hop] at hwrite
  all_goals
    split at h
    · rename_i status hchange
      cases h
      exact .inl hchange
    · rename_i next hchange
      split at h
      · cases h
      · rename_i hquota
        cases h
        exact .inr ⟨next, changed_of_change hchange, eq_false_of_ne_true hquota, rfl⟩

/-- A request that is answered without a change and with `Ok` has no effect. -/
theorem effect_of_none {record : PlayerRecord}
    (h : applyRequest record request limit = (reply, none)) (hok : reply.status = .ok)
    (scope key : String) :
    request.effect scope key (record.value scope key) = record.value scope key := by
  by_cases hwrite : request.isWrite = true
  · rcases applyRequest_none h hwrite with hchange | ⟨next, -, -, hfull⟩
    · rcases change_error hchange with ⟨-, hfull⟩ | ⟨-, hfound, -⟩ | ⟨hop, -, hnone⟩ | hread
      · rw [hok] at hfull
        cases hfull
      · rw [hok] at hfound
        cases hfound
      · simp only [StorageRequest.effect, hop]
        split
        · rename_i hscope
          rw [hscope, value_of_none hnone]
        · rfl
      · rw [hread] at hwrite
        cases hwrite
    · rw [hok] at hfull
      cases hfull
  · unfold StorageRequest.effect
    unfold StorageRequest.isWrite at hwrite
    split <;> first | rfl | simp [*] at hwrite

/-- A removal is not refused for the sake of a limit. -/
theorem quotaAllows_of_lt {current next : ℕ} (h : next < current) (limit : ℕ) :
    quotaAllows current next limit = true :=
  quotaAllows_iff.mpr (.inr (.inr h))

theorem Reference.execute_cases (limiter : Limiter β τ) (r : Reference β) (call : StorageCall τ) :
    (∃ budgets status, (status = .denied ∨ status = .rateLimited) ∧
      r.execute limiter call = ({ r with budgets }, call.refusal status)) ∨
    ∃ budgets, r.execute limiter call = Reference.carryOut { r with budgets } call := by
  unfold execute serve
  split
  · exact .inl ⟨r.budgets, .denied, .inl rfl, rfl⟩
  · dsimp only
    split
    · exact .inr ⟨_, rfl⟩
    · exact .inl ⟨_, .rateLimited, .inr rfl, rfl⟩

/-- What can be read after a call. -/
theorem Reference.value_execute (limiter : Limiter β τ) (r : Reference β) (call : StorageCall τ)
    (owner scope key : String) :
    ((r.execute limiter call).1.record owner).value scope key =
      if call.owner = owner ∧ (r.execute limiter call).2.status = .ok then
        call.request.effect scope key ((r.record owner).value scope key)
      else (r.record owner).value scope key := by
  rcases r.execute_cases limiter call with ⟨budgets, status, hstatus, heq⟩ | ⟨budgets, heq⟩
  · rw [heq, if_neg]
    · rfl
    · rintro ⟨-, hok⟩
      rcases hstatus with rfl | rfl <;> cases hok
  · rw [heq]
    have hmove := Reference.carryOut_move { r with budgets } call
    generalize Reference.carryOut { r with budgets } call = result at hmove
    cases hmove with
    | answered reply happly =>
      split
      · rename_i hcond
        obtain ⟨rfl, hok⟩ := hcond
        exact (effect_of_none happly hok scope key).symm
      · rfl
    | changed reply next happly hquota =>
      obtain ⟨hchanged, -, hok⟩ := applyRequest_some happly
      by_cases howner : call.owner = owner
      · subst howner
        rw [if_pos ⟨rfl, hok⟩]
        refine Eq.trans ?_ (hchanged.value scope key)
        unfold PlayerRecord.value
        rw [Reference.scopes_put]
      · rw [if_neg fun h => howner h.1, Reference.record_put_of_ne (Ne.symm howner)]
        rfl
    | full reply next happly hquota =>
      rw [if_neg]
      · rfl
      · rintro ⟨-, hok⟩
        cases hok

theorem Reference.inv_new (limiter : Limiter β τ) : (Reference.new limiter).Inv := ⟨.nil, nofun⟩

/-- **What is stored is what was last set.** -/
theorem Reference.value_eq_lastValue (limiter : Limiter β τ) (calls : List (StorageCall τ))
    (owner scope key : String) :
    ((runCalls (Reference.execute limiter) (.new limiter) calls).1.record owner).value scope key =
      lastValue owner scope key
        (calls.zip (runCalls (Reference.execute limiter) (.new limiter) calls).2) := by
  -- from any state, since the history starts with what is there
  have hfrom : ∀ (calls : List (StorageCall τ)) (r : Reference β),
      ((runCalls (Reference.execute limiter) r calls).1.record owner).value scope key =
        (calls.zip (runCalls (Reference.execute limiter) r calls).2).foldl (fun old x =>
          if x.1.owner = owner ∧ x.2.status = .ok then x.1.request.effect scope key old else old)
          ((r.record owner).value scope key) := by
    intro calls
    induction calls with
    | nil =>
      intro r
      rfl
    | cons call calls ih =>
      intro r
      show ((runCalls (Reference.execute limiter) (r.execute limiter call).1 calls).1.record
        owner).value scope key = _
      rw [ih, Reference.value_execute]
      rfl
  exact hfrom calls (.new limiter)

theorem applyRequest_get (record : PlayerRecord) (limit : ℕ) (hop : request.op = .get) :
    (applyRequest record request limit).2 = none ∧
      match record.value request.scope request.key with
      | some value => (applyRequest record request limit).1.status = .ok ∧
          (applyRequest record request limit).1.value = value
      | none => (applyRequest record request limit).1.status = .notFound := by
  unfold applyRequest
  simp only [hop]
  cases record.value request.scope request.key with
  | none => exact ⟨rfl, rfl⟩
  | some value => exact ⟨rfl, rfl, rfl⟩

theorem Reference.Inv.carryOut_spec (h : r.Inv)
    (hhistory : (r.record call.owner).value call.request.scope call.request.key =
      lastValue call.owner call.request.scope call.request.key history) :
    CallSpec history r (r.carryOut call).1 call (r.carryOut call).2 := by
  have hinv := h.carryOut call
  have hmove := r.carryOut_move call
  generalize r.carryOut call = result at hinv hmove
  -- a removal of something that is there is refused by neither limit
  have hremoval : ∀ next, Changed (r.record call.owner) call.request next → call.request.op ≠ .set →
      quotaAllows (r.record call.owner).used next.used call.limit = true ∧
      quotaAllows r.total (r.put call.owner next).total call.totalLimit = true := by
    intro next hchanged hop
    obtain ⟨hused, hbytes⟩ := hchanged.shrinks hop
    refine ⟨quotaAllows_of_lt hused _, quotaAllows_of_lt ?_ _⟩
    have hle := h.storageBytes_le call.owner
    rw [h.total_put]
    omega
  cases hmove with
  | answered reply happly =>
    have hwrite : call.request.isWrite = true → call.request.op ≠ .set →
        reply.status = .full → False := by
      intro hwrite hop hfull
      rcases applyRequest_none happly hwrite with hchange | ⟨next, hchanged, hquota, -⟩
      · rcases change_error hchange with ⟨hset, -⟩ | ⟨-, hstatus, -⟩ | ⟨-, hstatus, -⟩ | hread
        · exact hop hset
        · rw [hfull] at hstatus
          cases hstatus
        · rw [hfull] at hstatus
          cases hstatus
        · rw [hread] at hwrite
          cases hwrite
      · rw [(hremoval next hchanged hop).1] at hquota
        cases hquota
    have hnoset : call.request.op = .set → reply.status ≠ .ok := by
      intro hop hok
      have hwrite : call.request.isWrite = true := by simp [StorageRequest.isWrite, hop]
      rcases applyRequest_none happly hwrite with hchange | ⟨next, -, -, hfull⟩
      · rcases change_error hchange with ⟨-, hstatus⟩ | ⟨hdelete, -⟩ | ⟨hclear, -⟩ | hread
        · rw [hok] at hstatus
          cases hstatus
        · rw [hop] at hdelete
          cases hdelete
        · rw [hop] at hclear
          cases hclear
        · rw [hread] at hwrite
          cases hwrite
      · rw [hok] at hfull
        cases hfull
    refine ⟨?_, fun _ _ => rfl, hinv.bounded, fun _ => rfl, fun hop hok => absurd hok (hnoset hop),
      fun hop hok => absurd hok (hnoset hop), ?_, ?_⟩
    · intro hop
      refine .inr (.inr ?_)
      have hget := (applyRequest_get (r.record call.owner) call.limit hop).2
      rw [happly, hhistory] at hget
      exact hget
    · intro hop _ hfull
      exact hwrite (by simp [StorageRequest.isWrite, hop]) (by rw [hop]; decide) hfull
    · intro hop _ hfull
      exact hwrite (by simp [StorageRequest.isWrite, hop]) (by rw [hop]; decide) hfull
  | changed reply next happly hquota =>
    obtain ⟨hchanged, hplayer, hok⟩ := applyRequest_some happly
    have hused : ((r.put call.owner next).record call.owner).used = next.used := by
      unfold PlayerRecord.used
      rw [Reference.scopes_put]
    have hne : reply.status ≠ .full := by
      rw [hok]
      decide
    refine ⟨?_, fun owner howner => Reference.record_put_of_ne howner, hinv.bounded,
      fun hno => absurd hok hno, ?_, fun _ _ => quotaAllows_iff.mp hquota, fun _ _ => hne,
      fun _ _ => hne⟩
    · intro hop
      have hnone := (applyRequest_get (r.record call.owner) call.limit hop).1
      rw [happly] at hnone
      cases hnone
    · intro _ _
      rw [hused]
      refine (quotaAllows_iff.mp hplayer).resolve_left ?_
      have hone := one_le_limit call
      omega
  | full reply next happly hquota =>
    obtain ⟨hchanged, -, -⟩ := applyRequest_some happly
    have hset : call.request.op = .set := by
      by_contra hop
      rw [(hremoval next hchanged hop).2] at hquota
      cases hquota
    refine ⟨?_, fun _ _ => rfl, hinv.bounded, fun _ => rfl, ?_, ?_, ?_, ?_⟩
    · intro hop
      rw [hset] at hop
      cases hop
    · intro _ hok
      cases hok
    · intro _ hok
      cases hok
    · intro hop
      rw [hset] at hop
      cases hop
    · intro hop
      rw [hset] at hop
      cases hop

theorem Reference.Inv.execute (h : r.Inv) (limiter : Limiter β τ)
    (call : StorageCall τ) : (r.execute limiter call).1.Inv := by
  rcases r.execute_cases limiter call with ⟨budgets, status, -, heq⟩ | ⟨budgets, heq⟩
  · rw [heq]
    exact ⟨h.nodup, h.kept⟩
  · rw [heq]
    have hbudgets : Reference.Inv { r with budgets } := ⟨h.nodup, h.kept⟩
    exact hbudgets.carryOut call

theorem Reference.Inv.execute_spec (h : r.Inv) (limiter : Limiter β τ)
    (hhistory : (r.record call.owner).value call.request.scope call.request.key =
      lastValue call.owner call.request.scope call.request.key history) :
    CallSpec history r (r.execute limiter call).1 call (r.execute limiter call).2 := by
  rcases r.execute_cases limiter call with ⟨budgets, status, hstatus, heq⟩ | ⟨budgets, heq⟩
  · rw [heq]
    have hne : (call.refusal status).status ≠ .ok ∧ (call.refusal status).status ≠ .full := by
      rcases hstatus with rfl | rfl <;> exact ⟨nofun, nofun⟩
    refine ⟨?_, fun _ _ => rfl, h.bounded, fun _ => rfl, fun _ hok => absurd hok hne.1, fun _ hok =>
      absurd hok hne.1, fun _ _ => hne.2, fun _ _ => hne.2⟩
    intro _
    rcases hstatus with rfl | rfl
    · exact .inl rfl
    · exact .inr (.inl rfl)
  · rw [heq]
    have hbudgets : Reference.Inv { r with budgets } := ⟨h.nodup, h.kept⟩
    have hspec := hbudgets.carryOut_spec hhistory
    exact ⟨hspec.read, hspec.others, hspec.bounded, hspec.unchanged,
      hspec.player_limit, hspec.total_limit, hspec.delete_allowed, hspec.clear_allowed⟩

/-! ### Every sequence of calls -/

variable {calls : List (StorageCall τ)}

theorem memory_refines (digest : String → String) (serde : Serde) (limiter : Limiter β τ)
    (hfits : Along (Reference.execute limiter) Reference.Fits (.new limiter) calls) :
    MemoryRefines
      (runCalls (PlayerStorage.execute digest serde limiter) (.newMemory limiter) calls).1
        (runCalls (Reference.execute limiter) (.new limiter) calls).1 ∧
      (runCalls (PlayerStorage.execute digest serde limiter) (.newMemory limiter) calls).2 =
        (runCalls (Reference.execute limiter) (.new limiter) calls).2 := by
  refine runCalls_simulates ?_ ⟨rfl, rfl, rfl, rfl, Reference.inv_new limiter⟩ hfits
  intro s r call _ h hok
  refine serve_simulates (fun s r h => h.budgets) ?_ (fun s r h hfits => h.carryOut hfits) h hok
  intro s r b h
  exact ⟨h.root, h.records, h.bytes, rfl, ⟨h.inv.nodup, h.inv.kept⟩⟩

theorem file_refines (serde : Serde) (limiter : Limiter β τ)
    (hdigest : ∀ c ∈ calls, ∀ c' ∈ calls, digest c.owner = digest c'.owner → c.owner = c'.owner)
    (hfits : Along (Reference.execute limiter) Reference.Fits (.new limiter) calls) :
    FileRefines digest (calls.map StorageCall.owner)
        (runCalls (PlayerStorage.execute digest serde limiter) (.newFile digest serde limiter)
          calls).1
        (runCalls (Reference.execute limiter) (.new limiter) calls).1 ∧
      (runCalls (PlayerStorage.execute digest serde limiter) (.newFile digest serde limiter)
          calls).2 =
        (runCalls (Reference.execute limiter) (.new limiter) calls).2 := by
  have hapart : ∀ o ∈ calls.map StorageCall.owner, ∀ o' ∈ calls.map StorageCall.owner,
      digest o = digest o' → o = o' := by
    intro o ho o' ho' heq
    obtain ⟨c, hc, rfl⟩ := List.mem_map.mp ho
    obtain ⟨c', hc', rfl⟩ := List.mem_map.mp ho'
    exact hdigest c hc c' hc' heq
  refine runCalls_simulates ?_ ⟨rfl, rfl, rfl, nofun, Reference.inv_new limiter⟩ hfits
  intro s r call hcall h hok
  refine serve_simulates (fun s r h => h.budgets) ?_
    (fun s r h hfits => h.carryOut hfits hapart (List.mem_map_of_mem hcall)) h hok
  intro s r b h
  exact ⟨h.root, h.records, rfl, h.owners, ⟨h.inv.nodup, h.inv.kept⟩⟩

theorem sql_refines (serde : Serde) (limiter : Limiter β τ)
    (hfits : Along (Reference.execute limiter) Reference.Fits (.new limiter) calls) :
    SqlRefines (runCalls (SqlStorage.execute limiter (SqlStorage.operation serde)) (.new limiter)
          calls).1
        (runCalls (Reference.execute limiter) (.new limiter) calls).1 ∧
      (runCalls (SqlStorage.execute limiter (SqlStorage.operation serde)) (.new limiter) calls).2 =
        (runCalls (Reference.execute limiter) (.new limiter) calls).2 := by
  refine runCalls_simulates ?_ ⟨rfl, rfl, rfl, Reference.inv_new limiter⟩ hfits
  intro s r call _ h hok
  refine serve_simulates (fun s r h => h.limits) ?_ (fun s r h hfits => h.carryOut hfits) h hok
  intro s r b h
  exact ⟨h.rows, h.used, rfl, ⟨h.inv.nodup, h.inv.kept⟩⟩

/-- **The backends refine the reference map.** On every sequence of calls the four backends reply as
the reference does and end with its records; and every call of the sequence does what is said in
`CallSpec`, with the calls before it as its history. -/
theorem backends_refine_reference (digest : String → String) (serde : Serde)
    (limiter : Limiter β τ) (calls : List (StorageCall τ))
    (hdigest : ∀ c ∈ calls, ∀ c' ∈ calls, digest c.owner = digest c'.owner → c.owner = c'.owner)
    (hfits : Along (Reference.execute limiter) Reference.Fits (.new limiter) calls) :
    let r := runCalls (Reference.execute limiter) (.new limiter) calls
    let memory := runCalls (PlayerStorage.execute digest serde limiter) (.newMemory limiter) calls
    let file := runCalls (PlayerStorage.execute digest serde limiter)
      (.newFile digest serde limiter) calls
    let sqlite := runCalls (SqlStorage.execute limiter (SqlStorage.sqliteOperation serde))
      (.new limiter) calls
    let postgres := runCalls (SqlStorage.execute limiter (SqlStorage.postgresOperation serde))
      (.new limiter) calls
    (memory.2 = r.2 ∧ file.2 = r.2 ∧ sqlite.2 = r.2 ∧ postgres.2 = r.2) ∧
    (∀ c ∈ calls,
      memory.1.record digest serde c.owner = some (r.1.record c.owner) ∧
      file.1.record digest serde c.owner = some (r.1.record c.owner) ∧
      SqlStorage.decodeRecord serde (assocGet c.owner sqlite.1.rows) c.owner =
        some (r.1.record c.owner) ∧
      SqlStorage.decodeRecord serde (assocGet c.owner postgres.1.rows) c.owner =
        some (r.1.record c.owner)) ∧
    ∀ before call after, calls = before ++ call :: after →
      CallSpec (before.zip (runCalls (Reference.execute limiter) (.new limiter) before).2)
        (runCalls (Reference.execute limiter) (.new limiter) before).1
        ((runCalls (Reference.execute limiter) (.new limiter) before).1.execute limiter call).1 call
        ((runCalls (Reference.execute limiter) (.new limiter) before).1.execute
          limiter call).2 := by
  intro r memory file sqlite postgres
  obtain ⟨hmemory, hmemoryReplies⟩ := memory_refines digest serde limiter hfits
  obtain ⟨hfile, hfileReplies⟩ := file_refines serde limiter hdigest hfits
  obtain ⟨hsql, hsqlReplies⟩ := sql_refines serde limiter hfits
  refine ⟨⟨hmemoryReplies, hfileReplies, hsqlReplies, hsqlReplies⟩, ?_, ?_⟩
  · intro c hc
    have hdecode := hsql.decode serde c.owner
    refine ⟨hmemory.record digest serde c.owner, ?_, hdecode, hdecode⟩
    refine hfile.record ?_ (List.mem_map_of_mem hc)
    intro o ho o' ho' heq
    obtain ⟨d, hd, rfl⟩ := List.mem_map.mp ho
    obtain ⟨d', hd', rfl⟩ := List.mem_map.mp ho'
    exact hdigest d hd d' hd' heq
  · intro before call after _
    have hinv : (runCalls (Reference.execute limiter) (.new limiter) before).1.Inv :=
      runCalls_invariant Reference.Inv (fun r c h => h.execute limiter c)
        (Reference.inv_new limiter) before
    exact hinv.execute_spec limiter (Reference.value_eq_lastValue limiter before _ _ _)

/-- Far from every rate limit. -/
def idleLimiter : Limiter Unit ℕ := ⟨(), fun _ _ _ _ _ _ => (true, ())⟩

def sampleCall (owner : String) (op : StorageOp) (value : Bytes) (totalLimit now : ℕ) :
    StorageCall ℕ :=
  ⟨owner, ⟨op, 1#16, "world", "score", value⟩, 1024, totalLimit, now⟩

/-- Two owners; the second one is refused by a total that has shrunk, until the first one removes
its value. -/
def sampleCalls : List (StorageCall ℕ) :=
  [sampleCall "alice" .set [7#8] 0 1, sampleCall "bobby" .set [9#8] 40 2,
    sampleCall "alice" .get [] 40 3, sampleCall "alice" .delete [] 40 4,
    sampleCall "bobby" .set [9#8] 60 5, sampleCall "alice" .get [] 60 6]

theorem backends_refine_reference_sample :
    (runCalls (PlayerStorage.execute sampleDigest Serde.ofWriters idleLimiter)
      (.newFile sampleDigest Serde.ofWriters idleLimiter) sampleCalls).2.map StorageReply.status =
      [.ok, .full, .ok, .ok, .ok, .notFound] ∧
    (runCalls (SqlStorage.execute idleLimiter (SqlStorage.sqliteOperation Serde.ofWriters))
      (.new idleLimiter) sampleCalls).2.map StorageReply.value = [[], [], [7#8], [], [], []] := by
  have hdigest : ∀ c ∈ sampleCalls, ∀ c' ∈ sampleCalls,
      sampleDigest c.owner = sampleDigest c'.owner → c.owner = c'.owner := by
    decide +kernel
  have hfits : Along (Reference.execute idleLimiter) Reference.Fits (.new idleLimiter)
      sampleCalls := by
    decide +kernel
  obtain ⟨⟨-, hfile, hsqlite, -⟩, -, -⟩ :=
    backends_refine_reference sampleDigest Serde.ofWriters idleLimiter sampleCalls hdigest hfits
  rw [hfile, hsqlite]
  decide +kernel

end BasisRust.Storage
