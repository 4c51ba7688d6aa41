import BasisRust.Storage.Files

/-!
# The ledger survives every interruption

`Ledger` is what holds of the directory wherever an operation may be cut off: the total of a clean
ledger is exact, and every account file is the complete text of a record that some save tried to
write. The operations are taken one after the other; each has one triple, with the ledger invariant
as its condition for being cut off.
-/

namespace BasisRust.Storage

open Library
open Library.Prog

variable {digest : String → String} {serde : Serde} {used : ℕ}

/-- Where the account files come from. -/
def Written (digest : String → String) (saves : List (String × PlayerRecord))
    (accounts : List (String × Bytes)) : Prop :=
  ∀ file content, assocGet file accounts = some content →
    ∃ x ∈ saves, digest x.1 = file ∧ x.2.scopes.isEmpty = false ∧ content = x.2.toVec

/-- The total of a clean ledger is exact. -/
def Exact (serde : Serde) (d : Directory) : Prop :=
  ∀ bytes used, d.usage = some bytes → serde.usageFromSlice bytes = some ⟨used, false⟩ →
    used = d.accountBytes

structure Ledger (digest : String → String) (serde : Serde) (saves : List (String × PlayerRecord))
    (d : Directory) : Prop where
  nodup : AssocNodup d.accounts
  written : Written digest saves d.accounts
  exact : Exact serde d

variable {d : Directory}

theorem exact_setUsage_clean (h : used = d.accountBytes) :
    Exact serde (d.setUsage (FileUsage.toVec ⟨used, false⟩)) := by
  intro bytes used' hbytes hread
  rw [← Option.some.inj hbytes, serde.usage_round_trip] at hread
  cases hread
  exact h

/-! ### The steps -/

section Steps

variable {P : Directory → Prop} {E : StorageError → Directory → Prop}

theorem checkedAdd_meets (a b : ℕ) (hE : ∀ d, P d → E .sizeOverflow d) :
    Meets P (checkedAdd a b) (fun n d => n = a + b ∧ P d) E := by
  unfold checkedAdd
  split
  · exact .pure fun d hd => ⟨rfl, hd⟩
  · exact .fail hE

/-- A subtraction that is known to go through. -/
theorem checkedSub_meets {a b : ℕ} (h : b ≤ a) :
    Meets P (checkedSub a b) (fun n d => n = a - b ∧ P d) E := by
  unfold checkedSub
  rw [if_pos h]
  exact .pure fun d hd => ⟨rfl, hd⟩

theorem syncDirectory_meets (hE : ∀ d, P d → E .io d) : Meets P syncDirectory (fun _ => P) E :=
  .inspect (fun _ hd => hd) hE

theorem readAccountFile_meets (file : String) (hE : ∀ d, P d → E .io d) :
    Meets P (readAccountFile file) (fun content d => content = assocGet file d.accounts ∧ P d) E :=
  .inspect (fun _ hd => ⟨rfl, hd⟩) hE

end Steps

/-- What an operation that leaves the accounts alone is cut off with. -/
def Kept (digest : String → String) (serde : Serde) (saves : List (String × PlayerRecord))
    (accounts : List (String × Bytes)) (d : Directory) : Prop :=
  Ledger digest serde saves d ∧ d.accounts = accounts

variable {saves : List (String × PlayerRecord)} {accounts : List (String × Bytes)}

/-- The sizes of the listed files. -/
def sizes (accounts : List (String × Bytes)) (files : List String) : ℕ :=
  (files.map fun file => (assocGet file accounts).elim 0 List.length).sum

theorem sizes_keys (h : AssocNodup accounts) :
    sizes accounts (accounts.map Prod.fst) = assocSum List.length accounts := by
  unfold sizes assocSum
  rw [List.map_map]
  congr 1
  refine List.map_congr_left ?_
  intro x hx
  show (assocGet x.1 accounts).elim 0 List.length = x.2.length
  rw [h.get_of_mem hx]
  rfl

/-- No file that a save has written is removed as a legacy one. -/
theorem not_legacy {file : String} {bytes : Bytes} (h : Written digest saves accounts)
    (hfile : assocGet file accounts = some bytes) :
    ((serde.fromSlice bytes).any fun record =>
      record.scopes.isEmpty && digest record.owner = file) = false := by
  obtain ⟨x, -, -, hscopes, rfl⟩ := h file bytes hfile
  rw [serde.round_trip, Option.any_some, hscopes, Bool.false_and]

theorem Ledger.setUsage_clean (h : Ledger digest serde saves d) (hused : used = d.accountBytes) :
    Ledger digest serde saves (d.setUsage (FileUsage.toVec ⟨used, false⟩)) :=
  ⟨h.nodup, h.written, exact_setUsage_clean hused⟩

theorem reconcileFrom_meets (files : List String) : ∀ used,
    (∀ file ∈ files, (assocGet file accounts).isSome = true) →
    used + sizes accounts files = assocSum List.length accounts →
    Meets (Kept digest serde saves accounts) (reconcileFrom digest serde files used)
      (fun n d => n = d.accountBytes ∧ Kept digest serde saves accounts d)
      (fun e d => e ≠ .accountingMismatch ∧ Kept digest serde saves accounts d) := by
  induction files with
  | nil =>
    intro used _ hsum
    have hused : used = assocSum List.length accounts := by simpa [sizes] using hsum
    unfold reconcileFrom
    refine .bind (syncDirectory_meets fun d hd => ⟨by simp, hd⟩) fun _ => ?_
    refine .bind (R := fun _ d => used = d.accountBytes ∧ Kept digest serde saves accounts d)
      (.attempt ?_ (fun d hd => ⟨by simp, hd⟩) ?_) fun _ => ?_
    · intro d hd
      have htotal : used = d.accountBytes := by rw [Directory.accountBytes, hd.2, hused]
      exact ⟨htotal, hd.1.setUsage_clean htotal, hd.2⟩
    · intro d hd
      refine ⟨by simp, hd.1.setUsage_clean ?_, hd.2⟩
      rw [Directory.accountBytes, hd.2, hused]
    · exact .pure fun d hd => hd
  | cons file files ih =>
    intro used hpresent hsum
    unfold reconcileFrom
    refine .bind (readAccountFile_meets file fun d hd => ⟨by simp, hd⟩) fun content => ?_
    obtain ⟨bytes, hbytes⟩ := Option.isSome_iff_exists.mp (hpresent file (.head _))
    refine .of_forall fun d hd => ?_
    obtain ⟨hcontent, hkept⟩ := hd
    rw [hkept.2, hbytes] at hcontent
    subst hcontent
    dsimp only
    rw [not_legacy hkept.1.written (by rw [hkept.2]; exact hbytes), if_neg Bool.false_ne_true]
    refine .bind (checkedAdd_meets _ _ ?_) fun n => ?_
    · intro d' hd'
      subst hd'
      exact ⟨by simp, hkept⟩
    · refine .of_forall fun d' hd' => ?_
      obtain ⟨rfl, rfl⟩ := hd'
      refine (ih (used + bytes.length) ?_ ?_).imp ?_ (fun _ _ h => h) (fun _ _ h => h)
      · intro file' hfile'
        exact hpresent file' (.tail _ hfile')
      · rw [← hsum]
        simp [sizes, hbytes, Nat.add_assoc]
      · intro s hs
        subst hs
        exact hkept

theorem reconcileFiles_meets (digest : String → String) (serde : Serde)
    (saves : List (String × PlayerRecord)) (accounts : List (String × Bytes)) :
    Meets (Kept digest serde saves accounts) (reconcileFiles digest serde)
      (fun n d => n = d.accountBytes ∧ Kept digest serde saves accounts d)
      (fun e d => e ≠ .accountingMismatch ∧ Kept digest serde saves accounts d) := by
  unfold reconcileFiles
  refine .bind (R := fun files d => files = accounts.map Prod.fst ∧
      Kept digest serde saves accounts d) (.inspect ?_ fun d hd => ⟨nofun, hd⟩) fun files => ?_
  · intro d hd
    exact ⟨by rw [hd.2], hd⟩
  · refine .of_forall fun d hd => ?_
    obtain ⟨rfl, hkept⟩ := hd
    have hnodup : AssocNodup accounts := hkept.2 ▸ hkept.1.nodup
    refine (reconcileFrom_meets (accounts.map Prod.fst) 0 ?_ ?_).imp ?_ (fun _ _ h => h)
      (fun _ _ h => h)
    · intro file hfile
      obtain ⟨x, hx, rfl⟩ := List.mem_map.mp hfile
      rw [hnodup.get_of_mem hx]
      rfl
    · rw [Nat.zero_add, sizes_keys hnodup]
    · intro s hs
      subst hs
      exact hkept

/-- Whoever asks for the total gets the exact one. -/
theorem fileUsage_meets (digest : String → String) (serde : Serde)
    (saves : List (String × PlayerRecord)) (accounts : List (String × Bytes)) :
    Meets (Kept digest serde saves accounts) (fileUsage digest serde)
      (fun n d => n = d.accountBytes ∧ Kept digest serde saves accounts d)
      (fun e d => e ≠ .accountingMismatch ∧ Kept digest serde saves accounts d) := by
  unfold fileUsage
  refine .bind (R := fun usage d => usage = d.usage ∧ Kept digest serde saves accounts d)
    (.inspect (fun d hd => ⟨rfl, hd⟩) fun d hd => ⟨nofun, hd⟩) fun usage => ?_
  have hreconcile := reconcileFiles_meets digest serde saves accounts
  cases usage with
  | none => exact hreconcile.imp (fun _ h => h.2) (fun _ _ h => h) (fun _ _ h => h)
  | some bytes =>
    dsimp only
    split
    · rename_i used hread
      refine .pure fun d hd => ?_
      exact ⟨hd.2.1.exact bytes used hd.1.symm hread, hd.2⟩
    · exact hreconcile.imp (fun _ h => h.2) (fun _ _ h => h) (fun _ _ h => h)

/-! ### A save -/

/-- What a save leaves in the file of the account. -/
def target (record : PlayerRecord) : Option Bytes :=
  if record.scopes.isEmpty then none else some record.toVec

/-- The account file is as before or as the save wants it, and nothing else has changed. -/
def Replaced (digest : String → String) (serde : Serde) (saves : List (String × PlayerRecord))
    (accounts : List (String × Bytes)) (owner : String) (record : PlayerRecord) (d : Directory) :
    Prop :=
  Ledger digest serde ((owner, record) :: saves) d ∧
    (d.accounts = accounts ∨ d.accounts = assocPut (digest owner) (target record) accounts)

variable {owner : String} {record : PlayerRecord}

theorem Written.mono (h : Written digest saves accounts) (x : String × PlayerRecord) :
    Written digest (x :: saves) accounts := by
  intro file content hfile
  obtain ⟨y, hy, hrest⟩ := h file content hfile
  exact ⟨y, .tail _ hy, hrest⟩

theorem Written.put (h : Written digest saves accounts) (owner : String) (record : PlayerRecord) :
    Written digest ((owner, record) :: saves)
      (assocPut (digest owner) (target record) accounts) := by
  intro file content hfile
  rw [assocGet_put] at hfile
  split at hfile
  · rename_i heq
    unfold target at hfile
    split at hfile
    · cases hfile
    · rename_i hscopes
      exact ⟨(owner, record), .head _, heq.symm, eq_false_of_ne_true hscopes,
        (Option.some.inj hfile).symm⟩
  · exact h.mono _ file content hfile

theorem Kept.replaced (h : Kept digest serde saves accounts d) :
    Replaced digest serde saves accounts owner record d :=
  ⟨⟨h.1.nodup, h.1.written.mono _, h.1.exact⟩, .inl h.2⟩

/-- While the ledger is dirty nothing is asked of its total. -/
theorem replaced_of_dirty (hnodup : AssocNodup accounts) (hwritten : Written digest saves accounts)
    (hdirty : d.usage = some (FileUsage.toVec ⟨used, true⟩)) (haccounts : d.accounts = accounts ∨
      d.accounts = assocPut (digest owner) (target record) accounts) :
    Replaced digest serde saves accounts owner record d := by
  refine ⟨⟨?_, ?_, ?_⟩, haccounts⟩
  · rcases haccounts with h | h
    · rw [h]
      exact hnodup
    · rw [h]
      exact hnodup.put _ _
  · rcases haccounts with h | h
    · rw [h]
      exact hwritten.mono _
    · rw [h]
      exact hwritten.put owner record
  · intro bytes used' hbytes hread
    rw [hdirty] at hbytes
    rw [← Option.some.inj hbytes, serde.usage_round_trip] at hread
    cases hread

theorem target_eq (record : PlayerRecord) :
    target record = if (saveBytes record).isEmpty then none else some (saveBytes record) := by
  unfold target saveBytes
  split
  · rfl
  · rfl

theorem length_saveBytes (record : PlayerRecord) :
    (saveBytes record).length = (target record).elim 0 List.length := by
  unfold target saveBytes
  split <;> rfl

theorem replaceAccount_meets {file : String} {bytes : Bytes} {E : StorageError → Directory → Prop}
    (hE : ∀ d : Directory, d.usage = some (FileUsage.toVec ⟨used, true⟩) →
      (d.accounts = accounts ∨
        d.accounts = assocPut file (if bytes.isEmpty then none else some bytes) accounts) →
      E .io d) :
    Meets (fun d => d.usage = some (FileUsage.toVec ⟨used, true⟩) ∧ d.accounts = accounts)
      (replaceAccount file bytes)
      (fun _ d => d.usage = some (FileUsage.toVec ⟨used, true⟩) ∧
        d.accounts = assocPut file (if bytes.isEmpty then none else some bytes) accounts) E := by
  unfold replaceAccount
  split
  · rename_i hempty
    rw [if_pos hempty] at hE
    refine .bind (R := fun _ d => d.usage = some (FileUsage.toVec ⟨used, true⟩) ∧
      d.accounts = assocPut file none accounts) (.attempt ?_ ?_ ?_) fun present => ?_
    · intro d hd
      exact ⟨hd.1, by rw [← hd.2]; rfl⟩
    · intro d hd
      exact hE d hd.1 (.inl hd.2)
    · intro d hd
      exact hE _ hd.1 (.inr (by rw [← hd.2]; rfl))
    · split
      · exact syncDirectory_meets fun d hd => hE d hd.1 (.inr hd.2)
      · exact .pure fun d hd => hd
  · rename_i hempty
    rw [if_neg hempty] at hE
    refine .attempt ?_ ?_ ?_
    · intro d hd
      exact ⟨hd.1, by rw [← hd.2]; rfl⟩
    · intro d hd
      exact hE d hd.1 (.inl hd.2)
    · intro d hd
      exact hE _ hd.1 (.inr (by rw [← hd.2]; rfl))

/-- **A save, wherever it is cut off.** -/
theorem saveAccount_meets (digest : String → String) (serde : Serde)
    (saves : List (String × PlayerRecord)) (accounts : List (String × Bytes)) (owner : String)
    (record : PlayerRecord) (maxTotalBytes : ℕ) :
    Meets (Kept digest serde saves accounts) (saveAccount digest serde owner record maxTotalBytes)
      (fun _ => Replaced digest serde saves accounts owner record)
      (fun e d => e ≠ .accountingMismatch ∧
        Replaced digest serde saves accounts owner record d) := by
  unfold saveAccount
  refine .bind ((fileUsage_meets digest serde saves accounts).imp (fun _ h => h) (fun _ _ h => h)
    fun e d h => ⟨h.1, h.2.replaced⟩) fun used => ?_
  refine .bind (readAccountFile_meets _ fun d hd => ⟨by simp, hd.2.replaced⟩) fun content => ?_
  refine .of_forall fun d₀ hd₀ => ?_
  obtain ⟨rfl, rfl, hkept⟩ := hd₀
  obtain ⟨hledger, haccounts⟩ := hkept
  subst haccounts
  -- the file of the account is one of those in the total
  have hsum := hledger.nodup.sum_erase List.length (digest owner)
  have hput := hledger.nodup.sum_put List.length (digest owner) (target record)
  have hkept : Kept digest serde saves d₀.accounts d₀ := ⟨hledger, rfl⟩
  refine .bind (checkedSub_meets ?_) fun rest => ?_
  · show _ ≤ assocSum List.length d₀.accounts
    omega
  refine .bind (checkedAdd_meets _ _ ?_) fun next => ?_
  · rintro d ⟨-, rfl⟩
    exact ⟨by simp, hkept.replaced⟩
  refine .of_forall fun d hd => ?_
  obtain ⟨rfl, rfl, hd⟩ := hd
  rw [hd]
  split
  · refine .bind (R := fun _ d => d.usage = some (FileUsage.toVec ⟨d₀.accountBytes, true⟩) ∧
      d.accounts = d₀.accounts) (.attempt ?_ ?_ ?_) fun _ => ?_
    · intro d hd
      subst hd
      exact ⟨rfl, rfl⟩
    · intro d hd
      subst hd
      exact ⟨by simp, hkept.replaced⟩
    · intro d hd
      subst hd
      exact ⟨by simp, replaced_of_dirty hledger.nodup hledger.written rfl (.inl rfl)⟩
    refine .bind (replaceAccount_meets ?_) fun _ => ?_
    · intro d hdirty haccounts
      refine ⟨by simp, replaced_of_dirty hledger.nodup hledger.written hdirty ?_⟩
      rw [target_eq]
      exact haccounts
    have htotal : ∀ d : Directory, d.accounts = assocPut (digest owner)
        (if (saveBytes record).isEmpty then none else some (saveBytes record)) d₀.accounts →
        d₀.accountBytes - (assocGet (digest owner) d₀.accounts).elim 0 List.length +
          (saveBytes record).length = d.accountBytes := by
      intro d hd
      rw [← target_eq] at hd
      rw [length_saveBytes, Directory.accountBytes, Directory.accountBytes, hd]
      omega
    refine .attempt ?_ ?_ ?_
    · rintro d ⟨hdirty, haccounts⟩
      have hclean := htotal d haccounts
      rw [← target_eq] at haccounts
      have hreplaced : Replaced digest serde saves d₀.accounts owner record d :=
        replaced_of_dirty hledger.nodup hledger.written hdirty (.inr haccounts)
      exact ⟨hreplaced.1.setUsage_clean hclean, hreplaced.2⟩
    · rintro d ⟨hdirty, haccounts⟩
      rw [← target_eq] at haccounts
      exact ⟨by simp, replaced_of_dirty hledger.nodup hledger.written hdirty (.inr haccounts)⟩
    · rintro d ⟨hdirty, haccounts⟩
      have hclean := htotal d haccounts
      rw [← target_eq] at haccounts
      have hreplaced : Replaced digest serde saves d₀.accounts owner record d :=
        replaced_of_dirty hledger.nodup hledger.written hdirty (.inr haccounts)
      exact ⟨by simp, hreplaced.1.setUsage_clean hclean, hreplaced.2⟩
  · refine .fail ?_
    intro d hd
    subst hd
    exact ⟨by simp, hkept.replaced⟩

/-! ### Without interruption -/

theorem reconcileFrom_undisturbed (files : List String) (d : Directory)
    (hwritten : Written digest saves d.accounts) : ∀ used,
    (∀ file ∈ files, (assocGet file d.accounts).isSome = true) →
    used + sizes d.accounts files ≤ usizeMax →
    reconcileFrom digest serde files used d [] =
      (.ok (used + sizes d.accounts files),
        d.setUsage (FileUsage.toVec ⟨used + sizes d.accounts files, false⟩), []) := by
  induction files with
  | nil =>
    intro used _ _
    rfl
  | cons file files ih =>
    intro used hpresent hfits
    obtain ⟨bytes, hbytes⟩ := Option.isSome_iff_exists.mp (hpresent file (.head _))
    have hsizes : sizes d.accounts (file :: files) = bytes.length + sizes d.accounts files := by
      simp [sizes, hbytes]
    rw [hsizes, ← Nat.add_assoc] at hfits ⊢
    rw [← ih (used + bytes.length) (fun f hf => hpresent f (.tail _ hf)) hfits]
    have hread : readAccountFile file d [] = (.ok (some bytes), d, []) := by
      show (Except.ok (assocGet file d.accounts), d, []) = _
      rw [hbytes]
    have hadd : checkedAdd used bytes.length d [] = (.ok (used + bytes.length), d, []) := by
      unfold checkedAdd
      rw [if_pos (by omega)]
      rfl
    rw [reconcileFrom, bind_eq, hread]
    dsimp only
    rw [not_legacy hwritten hbytes, if_neg Bool.false_ne_true, bind_eq, hadd]

theorem fileUsage_undisturbed (h : Ledger digest serde saves d)
    (hfits : d.accountBytes ≤ usizeMax) :
    (fileUsage digest serde d []).1 = .ok d.accountBytes := by
  have hreconcile : (reconcileFiles digest serde d []).1 = .ok d.accountBytes := by
    have htotal : 0 + sizes d.accounts (d.accounts.map Prod.fst) = d.accountBytes := by
      rw [Nat.zero_add, sizes_keys h.nodup]
      rfl
    show (reconcileFrom digest serde (d.accounts.map Prod.fst) 0 d []).1 = _
    rw [reconcileFrom_undisturbed _ d h.written 0 ?_ (htotal ▸ hfits), htotal]
    intro file hfile
    obtain ⟨x, hx, rfl⟩ := List.mem_map.mp hfile
    rw [h.nodup.get_of_mem hx]
    rfl
  have hread : (Prog.inspect StorageError.io Directory.usage : DirM (Option Bytes)) d [] =
      (.ok d.usage, d, []) := rfl
  rw [fileUsage, bind_eq, hread]
  dsimp only
  cases husage : d.usage with
  | none => exact hreconcile
  | some bytes =>
    dsimp only
    cases hparse : serde.usageFromSlice bytes with
    | none => exact hreconcile
    | some usage =>
      obtain ⟨used, dirty⟩ := usage
      cases dirty with
      | true => exact hreconcile
      | false =>
        rw [← h.exact bytes used husage hparse]
        rfl

theorem replaceAccount_undisturbed (file : String) (bytes : Bytes) (d : Directory) :
    replaceAccount file bytes d [] =
      (.ok (), d.setAccount file (if bytes.isEmpty then none else some bytes), []) := by
  unfold replaceAccount
  split
  · rw [bind_eq]
    show (if (assocGet file d.accounts).isSome then syncDirectory else pure ()) _ [] = _
    split
    · rfl
    · rfl
  · rfl

/-- A save on a clean ledger. -/
theorem saveAccount_undisturbed (husage : d.usage = some (FileUsage.toVec ⟨used, false⟩))
    (hold : (assocGet (digest owner) d.accounts).elim 0 List.length ≤ used)
    (hfits : used - (assocGet (digest owner) d.accounts).elim 0 List.length +
      (saveBytes record).length ≤ usizeMax) (maxTotalBytes : ℕ) :
    saveAccount digest serde owner record maxTotalBytes d [] =
      let next := used - (assocGet (digest owner) d.accounts).elim 0 List.length +
        (saveBytes record).length
      if quotaAllows used next maxTotalBytes then
        (.ok (), ⟨assocPut (digest owner) (target record) d.accounts,
          some (FileUsage.toVec ⟨next, false⟩)⟩, [])
      else (.error .quotaExceeded, d, []) := by
  have hused : fileUsage digest serde d [] = (.ok used, d, []) := by
    have hread : (Prog.inspect StorageError.io Directory.usage : DirM (Option Bytes)) d [] =
        (.ok d.usage, d, []) := rfl
    rw [fileUsage, bind_eq, hread, husage]
    dsimp only
    rw [serde.usage_round_trip]
    rfl
  have hread : readAccountFile (digest owner) d [] =
      (.ok (assocGet (digest owner) d.accounts), d, []) := rfl
  have hsub : checkedSub used ((assocGet (digest owner) d.accounts).elim 0 List.length) d [] =
      (.ok (used - (assocGet (digest owner) d.accounts).elim 0 List.length), d, []) := by
    rw [checkedSub, if_pos hold]
    rfl
  have hadd : checkedAdd (used - (assocGet (digest owner) d.accounts).elim 0 List.length)
      (saveBytes record).length d [] = (.ok (used -
        (assocGet (digest owner) d.accounts).elim 0 List.length + (saveBytes record).length),
        d, []) := by
    rw [checkedAdd, if_pos hfits]
    rfl
  rw [saveAccount, bind_eq, hused]
  dsimp only
  rw [bind_eq, hread]
  dsimp only
  rw [bind_eq, hsub]
  dsimp only
  rw [bind_eq, hadd]
  dsimp only
  by_cases hquota : quotaAllows used (used -
      (assocGet (digest owner) d.accounts).elim 0 List.length + (saveBytes record).length)
      maxTotalBytes = true
  · rw [if_pos hquota, if_pos hquota, target_eq]
    show (replaceAccount _ _ >>= fun _ => writeFileUsage _ _ : DirM Unit) _ [] = _
    rw [bind_eq, replaceAccount_undisturbed]
    rfl
  · rw [if_neg hquota, if_neg hquota]
    rfl

/-! ### Every sequence of operations -/

theorem Kept.of_ledger (h : Ledger digest serde saves d) :
    Kept digest serde saves d.accounts d := ⟨h, rfl⟩

/-- What an operation does to the ledger, whatever becomes of its steps. -/
theorem run_spec (h : Ledger digest serde saves d) (op : FileOp) (faults : List Fault) :
    (op.run digest serde d faults).1 ≠ .error .accountingMismatch ∧
    Ledger digest serde (op.tried.toList ++ saves) (op.run digest serde d faults).2.1 ∧
    ((op.run digest serde d faults).2.1.accounts = d.accounts ∨
      ∃ x ∈ op.tried, (op.run digest serde d faults).2.1.accounts =
        assocPut (digest x.1) (target x.2) d.accounts) := by
  have hkeeps : ∀ m : DirM ℕ, Meets (Kept digest serde saves d.accounts) m
      (fun n d' => n = d'.accountBytes ∧ Kept digest serde saves d.accounts d')
      (fun e d' => e ≠ .accountingMismatch ∧ Kept digest serde saves d.accounts d') →
      ((m >>= fun _ => pure ()) d faults).1 ≠ .error .accountingMismatch ∧
      Ledger digest serde saves ((m >>= fun _ => pure ()) d faults).2.1 ∧
      (((m >>= fun _ => pure ()) d faults).2.1.accounts = d.accounts ∨
        ∃ x ∈ (none : Option (String × PlayerRecord)),
          ((m >>= fun _ => pure ()) d faults).2.1.accounts =
            assocPut (digest x.1) (target x.2) d.accounts) := by
    intro m hm
    have hend := hm d faults (.of_ledger h)
    rw [bind_eq]
    generalize m d faults = r at hend
    obtain ⟨result, d', faults'⟩ := r
    cases result with
    | ok n => exact ⟨nofun, hend.2.1, .inl hend.2.2⟩
    | error e =>
      refine ⟨?_, hend.2.1, .inl hend.2.2⟩
      intro heq
      exact hend.1 (Except.error.inj heq)
  have hsaves : ∀ owner record maxTotalBytes,
      (saveAccount digest serde owner record maxTotalBytes d faults).1 ≠
        .error .accountingMismatch ∧
      Ledger digest serde ((owner, record) :: saves)
        (saveAccount digest serde owner record maxTotalBytes d faults).2.1 ∧
      ((saveAccount digest serde owner record maxTotalBytes d faults).2.1.accounts = d.accounts ∨
        ∃ x ∈ some (owner, record),
          (saveAccount digest serde owner record maxTotalBytes d faults).2.1.accounts =
            assocPut (digest x.1) (target x.2) d.accounts) := by
    intro owner record maxTotalBytes
    have hend := saveAccount_meets digest serde saves d.accounts owner record maxTotalBytes d faults
      (.of_ledger h)
    generalize saveAccount digest serde owner record maxTotalBytes d faults = r at hend
    obtain ⟨result, d', faults'⟩ := r
    cases result with
    | ok n => exact ⟨nofun, hend.1, hend.2.imp_right fun h => ⟨_, rfl, h⟩⟩
    | error e =>
      refine ⟨?_, hend.2.1, hend.2.2.imp_right fun h => ⟨_, rfl, h⟩⟩
      intro heq
      exact hend.1 (Except.error.inj heq)
  cases op with
  | saveAccount owner record maxTotalBytes => exact hsaves owner record maxTotalBytes
  | reconcileFiles | restart => exact hkeeps _ (reconcileFiles_meets digest serde saves d.accounts)
  | fileUsage => exact hkeeps _ (fileUsage_meets digest serde saves d.accounts)
  | wipe owner => exact hsaves owner (.new "") 0

theorem ledger_of_reachable {s : FileState}
    (hr : Reachable (fileSystem digest serde) (fun _ _ => True) s) :
    Ledger digest serde s.saves s.dir := by
  refine hr.invariant (fun s => Ledger digest serde s.saves s.dir) ?_ ?_
  · intro s hs
    rw [show s = _ from hs]
    exact ⟨.nil, fun file content h => (nomatch h), fun bytes used h => (nomatch h)⟩
  · intro s a s' hinv _ hstep
    cases hstep
    exact (run_spec hinv a.1 a.2).2.1

/-- **The ledger is crash-consistent.** After every sequence of operations, each cut off anywhere or
not at all: the total of a clean ledger is exact; every account file is the complete text of a
record that a save of that account tried to write; the next operation, wherever it is cut off, does
not find the total too small, and leaves every account file as it is but the one it saves, which is
as before or as it wants it; and whoever asks for the total gets the exact one, and does get it when
nothing comes in between. -/
theorem ledger_crash_consistent {s : FileState}
    (hr : Reachable (fileSystem digest serde) (fun _ _ => True) s) :
    (∀ bytes used, s.dir.usage = some bytes → serde.usageFromSlice bytes = some ⟨used, false⟩ →
      used = s.dir.accountBytes) ∧
    (∀ file content, assocGet file s.dir.accounts = some content →
      ∃ x ∈ s.saves, digest x.1 = file ∧ x.2.scopes.isEmpty = false ∧ content = x.2.toVec) ∧
    (∀ (op : FileOp) faults,
      (op.run digest serde s.dir faults).1 ≠ .error .accountingMismatch ∧
      ∀ file, assocGet file (op.run digest serde s.dir faults).2.1.accounts =
          assocGet file s.dir.accounts ∨
        ∃ x ∈ op.tried, digest x.1 = file ∧
          assocGet file (op.run digest serde s.dir faults).2.1.accounts = target x.2) ∧
    (∀ faults used d faults', fileUsage digest serde s.dir faults = (.ok used, d, faults') →
      used = s.dir.accountBytes) ∧
    (s.dir.accountBytes ≤ usizeMax →
      (fileUsage digest serde s.dir []).1 = .ok s.dir.accountBytes) := by
  have hledger := ledger_of_reachable hr
  refine ⟨hledger.exact, hledger.written, ?_, ?_, fileUsage_undisturbed hledger⟩
  · intro op faults
    obtain ⟨hsub, -, haccounts⟩ := run_spec hledger op faults
    refine ⟨hsub, ?_⟩
    intro file
    rcases haccounts with haccounts | ⟨x, hx, haccounts⟩
    · exact .inl (by rw [haccounts])
    · rw [haccounts, assocGet_put]
      split
      · rename_i heq
        exact .inr ⟨x, hx, heq.symm, rfl⟩
      · exact .inl rfl
  · intro faults used d faults' hrun
    have hend :=
      fileUsage_meets digest serde s.saves s.dir.accounts s.dir faults (.of_ledger hledger)
    rw [hrun] at hend
    obtain ⟨hused, hkept⟩ := hend
    rw [hused, Directory.accountBytes, hkept.2]
    rfl

/-! ### The writers can be read back -/

theorem delimited_entriesText (D : Byte → Prop) : Delimited D PlayerRecord.entriesText := by
  intro a b c d x y hc hd h
  obtain ⟨hentries, hrest⟩ :=
    delimited_jsonObject (fun D => delimited_jsonBytes D) a.entries b.entries c d x y hc hd h
  exact ⟨OrderedMap.ext hentries, hrest⟩

theorem delimited_scopesText (D : Byte → Prop) : Delimited D PlayerRecord.scopesText := by
  intro a b c d x y hc hd h
  obtain ⟨hentries, hrest⟩ :=
    delimited_jsonObject delimited_entriesText a.entries b.entries c d x y hc hd h
  exact ⟨OrderedMap.ext hentries, hrest⟩

theorem PlayerRecord.toVec_injective : Function.Injective PlayerRecord.toVec := by
  intro r r' h
  rw [toVec, toVec, jsonObject_pair, jsonObject_pair] at h
  have hfields := List.append_cancel_left (List.cons.inj h).2
  obtain ⟨howner, hrest⟩ := delimited_jsonString (fun _ => True) _ _ _ _ _ _ trivial trivial
    (List.cons.inj hfields).2
  have hscopes := List.append_cancel_left (List.cons.inj hrest).2
  obtain ⟨hscopes, -⟩ := delimited_scopesText (fun _ => True) _ _ _ _ _ _ trivial trivial
    (List.cons.inj hscopes).2
  cases r
  cases r'
  exact congrArg₂ PlayerRecord.mk howner hscopes

theorem FileUsage.toVec_injective : Function.Injective FileUsage.toVec := by
  intro u u' h
  rw [toVec, toVec, jsonObject_pair, jsonObject_pair] at h
  have hfields := List.append_cancel_left (List.cons.inj h).2
  obtain ⟨hused, hrest⟩ := delimited_jsonNumber _ _ _ _ _ _ (by decide) (by decide)
    (List.cons.inj hfields).2
  have hdirty := List.append_cancel_left (List.cons.inj hrest).2
  have htexts := utf8_injective (List.append_cancel_right (List.cons.inj hdirty).2)
  have hne : ("true" : String) ≠ "false" := by decide
  obtain ⟨used, dirty⟩ := u
  obtain ⟨used', dirty'⟩ := u'
  refine congrArg₂ FileUsage.mk hused ?_
  cases dirty <;> cases dirty'
    <;> first | rfl | exact absurd htexts hne | exact absurd htexts hne.symm

open Classical in
/-- The inverse of a writer. -/
noncomputable def readBack {α : Type} (write : α → Bytes) (bytes : Bytes) : Option α :=
  if h : ∃ a, write a = bytes then some h.choose else none

theorem readBack_write {α : Type} {write : α → Bytes} (h : Function.Injective write) (a : α) :
    readBack write (write a) = some a := by
  have hex : ∃ b, write b = write a := ⟨a, rfl⟩
  rw [readBack, dif_pos hex]
  exact congrArg some (h hex.choose_spec)

/-- Readers that accept what the writers produce. -/
noncomputable def Serde.ofWriters : Serde where
  fromSlice := readBack PlayerRecord.toVec
  usageFromSlice := readBack FileUsage.toVec
  round_trip := readBack_write PlayerRecord.toVec_injective
  usage_round_trip := readBack_write FileUsage.toVec_injective

/-- One value in one scope. -/
def sampleRecord : PlayerRecord :=
  ⟨"alice", OrderedMap.empty.insert "world" (OrderedMap.empty.insert "score" [7#8])⟩

/-- The first save of an account is cut off right after the account file was replaced. -/
def interruptedSave : FileOp × List Fault :=
  (.saveAccount "alice" sampleRecord 0, List.replicate 6 .none ++ [.after])

/-- The digests of two names. -/
def sampleDigest (owner : String) : String :=
  if owner = "alice" then "2bd806c97f0e00af1a1fc3328fa763a9269723c8db8fac4f93af71db186d6e90"
  else if owner = "bobby" then "69ff8042237aeef5ddf1ced10e851bc6104e1ebb15a304061dba43ea10106fa9"
  else owner

theorem ledger_crash_consistent_interrupted :
    ∃ s, Reachable (fileSystem sampleDigest Serde.ofWriters) (fun _ _ => True) s ∧
      s.dir.accounts = [(sampleDigest "alice", sampleRecord.toVec)] ∧
      s.dir.usage = some (FileUsage.toVec ⟨0, true⟩) ∧
      (fileUsage sampleDigest Serde.ofWriters s.dir []).1 = .ok sampleRecord.toVec.length := by
  have hreach : Reachable (fileSystem sampleDigest Serde.ofWriters) (fun _ _ => True)
      ⟨⟨[(sampleDigest "alice", sampleRecord.toVec)], some (FileUsage.toVec ⟨0, true⟩)⟩,
        [("alice", sampleRecord)]⟩ :=
    .step (.init rfl) (a := interruptedSave) trivial rfl
  refine ⟨_, hreach, rfl, rfl, ?_⟩
  obtain ⟨-, -, -, -, husage⟩ := ledger_crash_consistent hreach
  exact husage (by decide +kernel)

end BasisRust.Storage
