import BasisRust.Transport.PreAuth

/-!
# The rate bound of the limiter

An entry never has fewer tokens than it has earned since it last allowed something
(`PreAuthEntry.Proper.earned`), and a minute earns a full bucket for every kind; so an entry that
is dropped was full, and an address never gains by losing its entry, by falling back to a shared
bucket, or by getting an entry again.

`level` is what an address may still ask for.  `level_call` says that no call raises it, and that an
admission takes one off; with `globalLevel_call` for all addresses together, `pre_auth_rate` is the
bound for every interval of every run.
-/

namespace BasisRust.Transport

open Library Server

/-! ### Entries -/

theorem PreAuthKind.burst_nonneg (kind : PreAuthKind) : 0 ≤ kind.budget.1 := by
  cases kind <;> norm_num [budget]

theorem PreAuthKind.rate_nonneg (kind : PreAuthKind) : 0 ≤ kind.budget.2 := by
  cases kind <;> norm_num [budget]

/-- A full bucket is earned before an entry is dropped. -/
theorem PreAuthKind.burst_le_ttl (kind : PreAuthKind) : kind.budget.1 ≤ kind.budget.2 * ipTtl := by
  cases kind <;> norm_num [budget, ipTtl]

namespace PreAuthEntry

/-- What an entry has for a kind at a time. -/
def level (entry : PreAuthEntry) (kind : PreAuthKind) (now : ℚ) : ℚ :=
  refill (entry.tokens kind) (entry.updated kind) now kind.budget

/-- An entry whose last call was not after `t`. -/
structure Proper (t : ℚ) (entry : PreAuthEntry) : Prop where
  nonneg : ∀ kind, 0 ≤ entry.tokens kind
  updated : ∀ kind, entry.updated kind ≤ t
  allowed : entry.lastAllowed ≤ t
  earned : ∀ kind, min kind.budget.1 (kind.budget.2 * (entry.updated kind - entry.lastAllowed)) ≤
    entry.tokens kind

variable {entry : PreAuthEntry} {t t' now : ℚ} {kind : PreAuthKind}

theorem Proper.later (h : entry.Proper t) (ht : t ≤ t') : entry.Proper t' :=
  { h with
    updated := fun kind => (h.updated kind).trans ht
    allowed := h.allowed.trans ht }

theorem fresh_tokens (now : ℚ) (kind : PreAuthKind) : (fresh now).tokens kind = kind.budget.1 := by
  cases kind <;> rfl

theorem fresh_level (now t : ℚ) (kind : PreAuthKind) :
    (fresh now).level kind t = kind.budget.1 := by
  rw [level, fresh_tokens, refill]
  apply min_eq_right
  have hearned : 0 ≤ durationSince t ((fresh now).updated kind) * kind.budget.2 :=
    mul_nonneg (le_max_left _ _) kind.rate_nonneg
  linarith

theorem fresh_proper (now : ℚ) : (fresh now).Proper now where
  nonneg kind := by
    rw [fresh_tokens]
    exact kind.burst_nonneg
  updated _ := le_rfl
  allowed := le_rfl
  earned kind := by
    rw [fresh_tokens]
    exact min_le_left _ _

/-- The tokens at a time are at least what was earned since the last admission. -/
theorem Proper.earned_level (h : entry.Proper t) (kind : PreAuthKind) :
    min kind.budget.1 (kind.budget.2 * (t - entry.lastAllowed)) ≤ entry.level kind t := by
  have hsince : durationSince t (entry.updated kind) = t - entry.updated kind :=
    max_eq_right (sub_nonneg.mpr (h.updated kind))
  have hrate := mul_nonneg (sub_nonneg.mpr (h.updated kind)) kind.rate_nonneg
  rw [level, refill, hsince]
  refine le_min ?_ (min_le_left _ _)
  rcases min_le_iff.mp (h.earned kind) with hfull | hearned
  · refine (min_le_left _ _).trans ?_
    linarith
  · refine (min_le_right _ _).trans ?_
    have hsplit : kind.budget.2 * (t - entry.lastAllowed) =
        kind.budget.2 * (entry.updated kind - entry.lastAllowed) +
          (t - entry.updated kind) * kind.budget.2 := by
      rw [mul_comm (t - _), ← mul_add, sub_add_sub_cancel']
    linarith

/-- **An entry that is dropped was full.** -/
theorem Proper.level_of_dead (h : entry.Proper t) (hdead : Limiter.live t entry = false)
    (kind : PreAuthKind) : entry.level kind t = kind.budget.1 := by
  rw [Limiter.live, decide_eq_false_iff_not, not_lt] at hdead
  have hsince : durationSince t entry.lastAllowed = t - entry.lastAllowed :=
    max_eq_right (sub_nonneg.mpr h.allowed)
  rw [hsince] at hdead
  apply le_antisymm refill_le
  refine le_trans ?_ (h.earned_level kind)
  exact le_min le_rfl (kind.burst_le_ttl.trans (mul_le_mul_of_nonneg_left hdead kind.rate_nonneg))

theorem Proper.level_nonneg (h : entry.Proper t) (kind : PreAuthKind) : 0 ≤ entry.level kind t :=
  refill_nonneg (h.nonneg kind) kind.burst_nonneg kind.rate_nonneg

/-- **Taking a token** costs one, and nothing when it is refused or of another kind. -/
theorem take_level (entry : PreAuthEntry) (kind kind' : PreAuthKind) (now : ℚ) :
    (entry.take kind now).2.level kind' now +
      (if (entry.take kind now).1 && decide (kind = kind') then 1 else 0) =
    entry.level kind' now := by
  by_cases hk : kind = kind'
  · subst hk
    have hburst : refill (entry.tokens kind) (entry.updated kind) now kind.budget ≤
      kind.budget.1 := refill_le
    rw [take]
    split_ifs with hpoor hcount hcount
    · simp at hcount
    · simp only [level, Function.update_self]
      rw [refill_now hburst, add_zero]
    · simp only [level, Function.update_self]
      rw [refill_now (by linarith), sub_add_cancel]
    · simp at hcount
  · rw [decide_eq_false hk, Bool.and_false, if_neg (by decide), add_zero, take]
    split_ifs <;> simp only [level, Function.update_of_ne (Ne.symm hk)]

theorem Proper.take (h : entry.Proper now) (kind : PreAuthKind) :
    (entry.take kind now).2.Proper now := by
  have hlevel := h.level_nonneg kind
  rw [level] at hlevel
  rw [PreAuthEntry.take]
  split_ifs with hpoor
  · refine ⟨?_, ?_, h.allowed, ?_⟩
    · intro k
      by_cases hk : k = kind
      · rw [hk]
        simpa using hlevel
      · simpa [Function.update_of_ne hk] using h.nonneg k
    · intro k
      by_cases hk : k = kind
      · rw [hk]
        simp
      · simpa [Function.update_of_ne hk] using h.updated k
    · intro k
      by_cases hk : k = kind
      · rw [hk]
        simpa [level] using h.earned_level kind
      · simpa [Function.update_of_ne hk] using h.earned k
  · refine ⟨?_, ?_, le_rfl, ?_⟩
    · intro k
      by_cases hk : k = kind
      · rw [hk]
        simpa using hpoor
      · simpa [Function.update_of_ne hk] using h.nonneg k
    · intro k
      by_cases hk : k = kind
      · rw [hk]
        simp
      · simpa [Function.update_of_ne hk] using h.updated k
    · intro k
      by_cases hk : k = kind
      · rw [hk]
        simpa using Or.inr hpoor
      · have hold := h.nonneg k
        have hupdated := h.updated k
        simp only [Function.update_of_ne hk]
        refine (min_le_right _ _).trans (le_trans ?_ hold)
        exact mul_nonpos_of_nonneg_of_nonpos k.rate_nonneg (by linarith)

end PreAuthEntry

/-! ### Addresses -/

namespace Limiter

/-- The entry an address would use now: its own, or the shared one. -/
def current (l : Limiter) (ip : IpAddr) : Option PreAuthEntry :=
  (assocGet ip l.entries).or (l.overflow (l.overflowBucket ip))

/-- What an address may still ask for. -/
def level (l : Limiter) (ip : IpAddr) (kind : PreAuthKind) (t : ℚ) : ℚ :=
  (l.current ip).elim kind.budget.1 fun entry => entry.level kind t

/-- What all addresses together may still ask for. -/
def globalLevel (l : Limiter) (kind : PreAuthKind) (t : ℚ) : ℚ :=
  refill (l.globalTokens kind) (l.globalUpdated kind) t kind.globalBudget

/-- A limiter whose last call was not after `t`. -/
structure Proper (t : ℚ) (l : Limiter) : Prop where
  nodup : AssocNodup l.entries
  few : l.entries.length ≤ maxIps
  entries : ∀ x ∈ l.entries, x.2.Proper t
  overflow : ∀ i entry, l.overflow i = some entry → entry.Proper t
  global : ∀ kind, 0 ≤ l.globalTokens kind

variable {l : Limiter} {ip : IpAddr} {kind : PreAuthKind} {t t' now : ℚ} {entry : PreAuthEntry}

theorem Proper.later (h : l.Proper t) (ht : t ≤ t') : l.Proper t' :=
  { h with
    entries := fun x hx => (h.entries x hx).later ht
    overflow := fun i entry hi => (h.overflow i entry hi).later ht }

theorem init_proper (hash : IpAddr → ℕ) (start : ℚ) : (init hash start).Proper start where
  nodup := .nil
  few := Nat.zero_le _
  entries := nofun
  overflow := nofun
  global kind := by cases kind <;> norm_num [init]

theorem Proper.current (h : l.Proper t) (hcurrent : l.current ip = some entry) :
    entry.Proper t := by
  rcases Option.or_eq_some_iff.mp hcurrent with hown | ⟨-, hshared⟩
  · exact h.entries _ (mem_keys_of_assocGet hown)
  · exact h.overflow _ _ hshared

theorem Proper.level_le (ip : IpAddr) (kind : PreAuthKind) : l.level ip kind t ≤ kind.budget.1 := by
  rw [level]
  cases l.current ip with
  | none => exact le_rfl
  | some entry => exact refill_le

theorem Proper.level_nonneg (h : l.Proper t) (ip : IpAddr) (kind : PreAuthKind) :
    0 ≤ l.level ip kind t := by
  rw [level]
  cases hcurrent : l.current ip with
  | none => exact kind.burst_nonneg
  | some entry => exact (h.current hcurrent).level_nonneg kind

theorem level_later (l : Limiter) (ip : IpAddr) (kind : PreAuthKind) (ht : t ≤ t') :
    l.level ip kind t' ≤ l.level ip kind t + kind.budget.2 * (t' - t) := by
  rw [level, level]
  cases l.current ip with
  | none =>
    have hgrow := mul_nonneg kind.rate_nonneg (sub_nonneg.mpr ht)
    show kind.budget.1 ≤ kind.budget.1 + _
    linarith
  | some entry => exact refill_later ht kind.rate_nonneg

/-! ### Cleaning up -/

theorem Proper.cleanup (h : l.Proper now) : (l.cleanup now).Proper now := by
  rw [Limiter.cleanup]
  split_ifs
  · refine ⟨?_, (List.length_filter_le _ _).trans h.few, ?_, ?_, h.global⟩
    · exact List.Nodup.sublist (List.filter_sublist.map _) h.nodup
    · intro x hx
      exact h.entries x (List.mem_filter.mp hx).1
    · intro i entry hi
      exact h.overflow i entry (Option.filter_eq_some_iff.mp hi).1
  · exact h

/-- **Dropping entries** raises no level, since they were full. -/
theorem level_cleanup (h : l.Proper now) (ip : IpAddr) (kind : PreAuthKind) :
    (l.cleanup now).level ip kind now ≤ l.level ip kind now := by
  have hfull : ∀ entry : PreAuthEntry, l.current ip = some entry → live now entry = false →
      (l.cleanup now).level ip kind now ≤ l.level ip kind now := by
    intro entry hcurrent hdead
    have heq : l.level ip kind now = kind.budget.1 := by
      rw [level, hcurrent]
      exact (h.current hcurrent).level_of_dead hdead kind
    rw [heq]
    exact Proper.level_le ip kind
  by_cases hthrottle : durationSince now l.lastCleanup ≥ 1
  · have hcleaned : (l.cleanup now).current ip =
        ((assocGet ip l.entries).filter (live now)).or
          ((l.overflow (l.overflowBucket ip)).filter (live now)) := by
      rw [Limiter.cleanup, if_pos hthrottle]
      show (assocGet ip (l.entries.filter fun x => live now x.2)).or _ = _
      rw [h.nodup.get_filter]
      rfl
    cases hcurrent : l.current ip with
    | none =>
      have heq : l.level ip kind now = kind.budget.1 := by
        rw [level, hcurrent]
        rfl
      rw [heq]
      exact Proper.level_le ip kind
    | some entry =>
      cases hlive : live now entry with
      | false => exact hfull entry hcurrent hlive
      | true =>
        -- the entry that is used now stays
        have hsame : (l.cleanup now).current ip = some entry := by
          rw [hcleaned]
          rcases Option.or_eq_some_iff.mp hcurrent with hown | ⟨hnone, hshared⟩
          · rw [hown, Option.filter_some, if_pos hlive]
            rfl
          · rw [hnone, hshared, Option.filter_some, if_pos hlive]
            rfl
        rw [level, level, hsame, hcurrent]
  · rw [Limiter.cleanup, if_neg hthrottle]

/-! ### Storing an entry -/

theorem Proper.store (h : l.Proper now) (hentry : entry.Proper now) (ip : IpAddr) :
    (l.storeEntry ip entry).Proper now := by
  rw [storeEntry]
  split_ifs with hroom
  · refine ⟨h.nodup.put ip (some entry), ?_, ?_, h.overflow, h.global⟩
    · show (assocErase ip l.entries).length + 1 ≤ maxIps
      rw [Bool.or_eq_true, decide_eq_true_eq] at hroom
      rcases hroom with hsome | hlt
      · obtain ⟨old, hold⟩ := Option.isSome_iff_exists.mp hsome
        have hlength := (h.nodup.perm_of_get hold).length_eq
        rw [List.length_cons] at hlength
        have hfew := h.few
        omega
      · have hle : (assocErase ip l.entries).length ≤ l.entries.length :=
          List.length_filter_le _ _
        omega
    · intro x hx
      rcases List.mem_cons.mp hx with heq | hx
      · rw [heq]
        exact hentry
      · exact h.entries x (List.mem_filter.mp hx).1
  · refine ⟨h.nodup, h.few, h.entries, ?_, h.global⟩
    intro i e hi
    have hi' : Function.update l.overflow (l.overflowBucket ip) (some entry) i = some e := hi
    by_cases heq : i = l.overflowBucket ip
    · rw [heq, Function.update_self] at hi'
      cases hi'
      exact hentry
    · rw [Function.update_of_ne heq] at hi'
      exact h.overflow i e hi'

/-- The entry an address starts from is the one it would use. -/
theorem level_entryFor (l : Limiter) (ip : IpAddr) (kind : PreAuthKind) (now : ℚ) :
    (l.entryFor ip now).level kind now = l.level ip kind now := by
  rw [entryFor, level, current]
  cases assocGet ip l.entries with
  | some entry => rfl
  | none =>
    cases l.overflow (l.overflowBucket ip) with
    | some entry => rfl
    | none => exact PreAuthEntry.fresh_level now now kind

theorem Proper.entryFor (h : l.Proper now) (ip : IpAddr) : (l.entryFor ip now).Proper now := by
  rw [Limiter.entryFor]
  cases hown : assocGet ip l.entries with
  | some entry => exact h.entries _ (mem_keys_of_assocGet hown)
  | none =>
    cases hshared : l.overflow (l.overflowBucket ip) with
    | some entry => exact h.overflow _ _ hshared
    | none => exact PreAuthEntry.fresh_proper now

/-- After storing, the address uses the entry that was stored. -/
theorem current_store_self (l : Limiter) (ip : IpAddr) (entry : PreAuthEntry) :
    (l.storeEntry ip entry).current ip = some entry := by
  rw [storeEntry]
  split_ifs with hroom
  · show (assocGet ip (assocSet ip entry l.entries)).or _ = _
    rw [assocGet_set_self]
    rfl
  · rw [Bool.or_eq_true, not_or, Option.not_isSome_iff_eq_none] at hroom
    show (assocGet ip l.entries).or (Function.update l.overflow (l.overflowBucket ip) (some entry)
      (l.overflowBucket ip)) = _
    rw [hroom.1, Function.update_self]
    rfl

/-- **Another address** that uses the same shared bucket can only lose by it. -/
theorem level_store_of_ne {other : IpAddr} (hne : other ≠ ip) (kind : PreAuthKind)
    (hentry : entry.level kind now ≤ (l.entryFor ip now).level kind now) :
    (l.storeEntry ip entry).level other kind now ≤ l.level other kind now := by
  rw [storeEntry]
  split_ifs with hroom
  · have hsame : ({ l with entries := assocSet ip entry l.entries } : Limiter).current other =
        l.current other := by
      show (assocGet other (assocSet ip entry l.entries)).or _ = _
      rw [assocGet_set_of_ne hne]
      rfl
    rw [level, level, hsame]
  · rw [Bool.or_eq_true, not_or, Option.not_isSome_iff_eq_none] at hroom
    cases hown : assocGet other l.entries with
    | some e =>
      rw [level, level, current, current, hown]
      rfl
    | none =>
      by_cases hbucket : l.overflowBucket other = l.overflowBucket ip
      · -- both addresses use the same bucket
        have hlevel : l.level other kind now = l.level ip kind now := by
          rw [level, level, current, current, hown, hroom.1, hbucket]
        have hnew : current { l with
            overflow := Function.update l.overflow (l.overflowBucket ip) (some entry) } other =
              some entry := by
          show (assocGet other l.entries).or (Function.update l.overflow (l.overflowBucket ip)
            (some entry) (l.overflowBucket other)) = _
          rw [hown, hbucket, Function.update_self]
          rfl
        have hold := level_entryFor l ip kind now
        rw [hlevel, ← hold, level, hnew]
        exact hentry
      · have hsame : current { l with
            overflow := Function.update l.overflow (l.overflowBucket ip) (some entry) } other =
              l.current other := by
          show (assocGet other l.entries).or (Function.update l.overflow (l.overflowBucket ip)
            (some entry) (l.overflowBucket other)) = _
          rw [Function.update_of_ne hbucket]
          rfl
        rw [level, level, hsame]

/-! ### Calls -/

theorem Proper.refillGlobal (h : l.Proper now) (kind : PreAuthKind) :
    (l.refillGlobal kind now).Proper now := by
  refine { h with global := ?_ }
  intro k
  show 0 ≤ Function.update l.globalTokens kind _ k
  by_cases hk : k = kind
  · rw [hk, Function.update_self]
    exact refill_nonneg (h.global kind) (by cases kind <;> norm_num [PreAuthKind.globalBudget])
      (by cases kind <;> norm_num [PreAuthKind.globalBudget])
  · rw [Function.update_of_ne hk]
    exact h.global k

/-- **A request**, step by step: it is refused by the budget of all, or it takes a token from the
bucket of its address. -/
theorem allow_cases (l : Limiter) (ip : IpAddr) (kind : PreAuthKind) (now : ℚ) :
    let l₁ := (l.cleanup now).refillGlobal kind now
    let taken := (l₁.entryFor (canonicalIp ip) now).take kind now
    let l₂ := l₁.storeEntry (canonicalIp ip) taken.2
    (l.allow ip kind now = (false, l₁)) ∨
    (taken.1 = false ∧ l.allow ip kind now = (false, l₂)) ∨
    (taken.1 = true ∧ 1 ≤ l₁.globalTokens kind ∧ l.allow ip kind now = (true, { l₂ with
      globalTokens := Function.update l₂.globalTokens kind (l₂.globalTokens kind - 1) })) := by
  simp only [allow]
  split_ifs with hglobal htaken
  · exact .inl rfl
  · exact .inr (.inr ⟨htaken, not_lt.mp hglobal, rfl⟩)
  · exact .inr (.inl ⟨Bool.eq_false_of_not_eq_true htaken, rfl⟩)

theorem store_global (l : Limiter) (ip : IpAddr) (entry : PreAuthEntry) :
    (l.storeEntry ip entry).globalTokens = l.globalTokens ∧
      (l.storeEntry ip entry).globalUpdated = l.globalUpdated := by
  rw [storeEntry]
  split_ifs <;> exact ⟨rfl, rfl⟩

theorem Proper.call {c : LimiterCall} (h : l.Proper c.now) : (l.call c).Proper c.now := by
  cases c with
  | cleanup now => exact Proper.cleanup h
  | allow ip kind now =>
    have hfirst := (Proper.cleanup h).refillGlobal kind
    have hstored := hfirst.store ((hfirst.entryFor (canonicalIp ip)).take kind) (canonicalIp ip)
    show (l.allow ip kind now).2.Proper now
    rcases l.allow_cases ip kind now with heq | ⟨-, heq⟩ | ⟨-, hone, heq⟩
    · rw [heq]
      exact hfirst
    · rw [heq]
      exact hstored
    · rw [heq]
      refine { hstored with global := ?_ }
      intro k
      show 0 ≤ Function.update (storeEntry _ _ _).globalTokens kind _ k
      by_cases hk : k = kind
      · rw [hk, Function.update_self, (store_global _ _ _).1]
        linarith
      · rw [Function.update_of_ne hk]
        exact hstored.global k

/-- **No call raises the level of an address**, and a request that it is admitted costs one. -/
theorem level_call {c : LimiterCall} (h : l.Proper c.now) (ip : IpAddr) (kind : PreAuthKind) :
    (l.call c).level (canonicalIp ip) kind
      c.now + (if l.admits c && c.ofAddress ip kind then 1 else 0) ≤
      l.level (canonicalIp ip) kind c.now := by
  cases c with
  | cleanup now =>
    rw [admits, Bool.false_and, if_neg (by decide), add_zero]
    exact level_cleanup h (canonicalIp ip) kind
  | allow i k now =>
    have hclean := level_cleanup  h (canonicalIp ip) kind
    -- the budget of all addresses has no part in a level
    have hglobal : ((l.cleanup now).refillGlobal k now).level (canonicalIp ip) kind now =
        (l.cleanup now).level (canonicalIp ip) kind now := rfl
    generalize hl : (l.cleanup now).refillGlobal k now = l₁ at hglobal
    have htake := (l₁.entryFor (canonicalIp i) now).take_level k kind now
    have hcases := l.allow_cases i k now
    rw [hl] at hcases
    dsimp only at hcases
    generalize (l₁.entryFor (canonicalIp i) now).take k now = taken at htake hcases
    have hstore : (l₁.storeEntry (canonicalIp i) taken.2).level (canonicalIp ip) kind now +
        (if taken.1 && (LimiterCall.allow i k now).ofAddress ip kind then 1 else 0) ≤
          l₁.level (canonicalIp ip) kind now := by
      by_cases hi : canonicalIp i = canonicalIp ip
      · rw [LimiterCall.ofAddress, decide_eq_true hi, Bool.true_and, level, ← hi,
          current_store_self, ← level_entryFor]
        exact htake.le
      · rw [LimiterCall.ofAddress, decide_eq_false hi, Bool.false_and, Bool.and_false,
          if_neg (by decide), add_zero]
        apply level_store_of_ne (Ne.symm hi) kind
        have hcost : (0 : ℚ) ≤ if taken.1 && decide (k = kind) then 1 else 0 := by
          split_ifs <;> norm_num
        linarith
    show (l.allow i k now).2.level (canonicalIp ip) kind now +
      (if (l.allow i k now).1 && (LimiterCall.allow i k now).ofAddress ip kind then 1 else 0) ≤
        l.level (canonicalIp ip) kind now
    rcases hcases with heq | ⟨hrefused, heq⟩ | ⟨hadmitted, -, heq⟩
    · rw [heq, Bool.false_and, if_neg (by decide), add_zero]
      exact hglobal.le.trans hclean
    · rw [heq]
      rw [hrefused] at hstore
      exact hstore.trans (hglobal.le.trans hclean)
    · rw [heq]
      rw [hadmitted] at hstore
      exact hstore.trans (hglobal.le.trans hclean)

theorem cleanup_global (l : Limiter) (now : ℚ) :
    (l.cleanup now).globalTokens = l.globalTokens ∧
      (l.cleanup now).globalUpdated = l.globalUpdated := by
  rw [cleanup]
  split_ifs <;> exact ⟨rfl, rfl⟩

/-- **No call raises the level of all addresses**, and an admission costs one. -/
theorem globalLevel_call (l : Limiter) (c : LimiterCall) (kind : PreAuthKind) :
    (l.call c).globalLevel kind c.now + (if l.admits c && c.ofKind kind then 1 else 0) ≤
      l.globalLevel kind c.now := by
  cases c with
  | cleanup now =>
    rw [admits, Bool.false_and, if_neg (by decide), add_zero]
    show (l.cleanup now).globalLevel kind now ≤ l.globalLevel kind now
    rw [globalLevel, (cleanup_global l now).1, (cleanup_global l now).2]
    exact le_rfl
  | allow ip k now =>
    have hburst : refill (l.globalTokens kind) (l.globalUpdated kind) now kind.globalBudget ≤
      kind.globalBudget.1 := refill_le
    -- the refill does not change what is there now
    have hrefill : ((l.cleanup now).refillGlobal k now).globalLevel kind now =
        l.globalLevel kind now := by
      rw [globalLevel, globalLevel, refillGlobal, (cleanup_global l now).1,
        (cleanup_global l now).2]
      by_cases hk : kind = k
      · rw [← hk]
        simp only [Function.update_self]
        exact refill_now hburst
      · simp only [Function.update_of_ne hk]
    generalize hl : (l.cleanup now).refillGlobal k now = l₁ at hrefill
    have hcases := l.allow_cases ip k now
    rw [hl] at hcases
    dsimp only at hcases
    generalize (l₁.entryFor (canonicalIp ip) now).take k now = taken at hcases
    obtain ⟨htokens, hupdated⟩ := l₁.store_global (canonicalIp ip) taken.2
    have hstored : (l₁.storeEntry (canonicalIp ip) taken.2).globalLevel kind now =
        l₁.globalLevel kind now := by
      rw [globalLevel, htokens, hupdated, globalLevel]
    show (l.allow ip k now).2.globalLevel kind now +
      (if (l.allow ip k now).1 && decide (k = kind) then 1 else 0) ≤ l.globalLevel kind now
    rcases hcases with heq | ⟨-, heq⟩ | ⟨-, -, heq⟩
    · rw [heq, Bool.false_and, if_neg (by decide), add_zero]
      exact hrefill.le
    · rw [heq, Bool.false_and, if_neg (by decide), add_zero]
      exact hstored.le.trans hrefill.le
    · rw [heq, Bool.true_and, ← hrefill]
      by_cases hk : k = kind
      · have hnow : l₁.globalUpdated k = now := by
          rw [← hl]
          simp only [refillGlobal, Function.update_self]
        have hle : l₁.globalTokens k ≤ k.globalBudget.1 := by
          rw [← hl]
          simp only [refillGlobal, Function.update_self]
          exact refill_le
        rw [decide_eq_true hk, if_pos rfl, ← hk, globalLevel, globalLevel]
        simp only [Function.update_self]
        rw [hupdated, htokens, hnow, refill_now hle, refill_now (by linarith), sub_add_cancel]
      · rw [decide_eq_false hk, if_neg (by decide), add_zero, globalLevel, globalLevel]
        simp only [Function.update_of_ne (Ne.symm hk)]
        rw [hupdated, htokens]

/-! ### Runs -/

theorem addressBounded (ip : IpAddr) (kind : PreAuthKind) :
    RateBounded call admits LimiterCall.now (LimiterCall.ofAddress ip kind) Proper
      (fun t l => l.level (canonicalIp ip) kind t) kind.budget.1 kind.budget.2 where
  one_le_burst := by cases kind <;> norm_num [PreAuthKind.budget]
  rate_nonneg := kind.rate_nonneg
  nonneg h := h.level_nonneg (canonicalIp ip) kind
  le_burst _ := Proper.level_le (canonicalIp ip) kind
  refill _ ht := level_later _ (canonicalIp ip) kind ht
  later h ht := h.later ht
  kept h := h.call
  spend h := level_call h ip kind

theorem globalBounded (kind : PreAuthKind) :
    RateBounded call admits LimiterCall.now (LimiterCall.ofKind kind) Proper
      (fun t l => l.globalLevel kind t) kind.globalBudget.1 kind.globalBudget.2 where
  one_le_burst := by cases kind <;> norm_num [PreAuthKind.globalBudget]
  rate_nonneg := by cases kind <;> norm_num [PreAuthKind.globalBudget]
  nonneg h := refill_nonneg (h.global kind) (by cases kind <;> norm_num [PreAuthKind.globalBudget])
    (by cases kind <;> norm_num [PreAuthKind.globalBudget])
  le_burst _ := refill_le
  refill _ ht := refill_later ht (by cases kind <;> norm_num [PreAuthKind.globalBudget])
  later h ht := h.later ht
  kept h := h.call
  spend _ := globalLevel_call _ _ kind

/-- The limiter stays proper over a run. -/
theorem Proper.run {calls : List LimiterCall} (h : l.Proper t)
    (hlater : ∀ c ∈ calls, t ≤ c.now) (hsorted : calls.Pairwise fun a b => a.now ≤ b.now) :
    ∃ t', (calls.foldl Limiter.call l).Proper t' := by
  induction calls generalizing l t with
  | nil => exact ⟨t, h⟩
  | cons c calls ih =>
    obtain ⟨hhead, htail⟩ := List.pairwise_cons.mp hsorted
    exact ih (h.later (hlater c (.head _))).call hhead htail

end Limiter

open Limiter RateBounded in
/-- **The rate bound.**  In a run of the limiter from its start, with a clock that does not go
back: in every interval of time, what is admitted of a kind is at most the burst and the rate of all
addresses, and what is admitted of a kind from one address is at most the burst and the rate of an
address, whatever becomes of its entry; and the table never grows over its bound. -/
theorem pre_auth_rate (overflowHash : IpAddr → ℕ) (start : ℚ) (calls : List LimiterCall)
    (hstart : ∀ c ∈ calls, start ≤ c.now) (hclock : calls.Pairwise fun a b => a.now ≤ b.now) :
    (∀ (kind : PreAuthKind) (t₁ t₂ : ℚ), t₁ ≤ t₂ →
      (countIn call admits LimiterCall.now (LimiterCall.ofKind kind) (init overflowHash start)
        calls t₁ t₂ : ℚ) ≤ kind.globalBudget.1 + kind.globalBudget.2 * (t₂ - t₁)) ∧
    (∀ (ip : IpAddr) (kind : PreAuthKind) (t₁ t₂ : ℚ), t₁ ≤ t₂ →
      (countIn call admits LimiterCall.now (LimiterCall.ofAddress ip kind)
        (init overflowHash start) calls t₁ t₂ : ℚ) ≤
          kind.budget.1 + kind.budget.2 * (t₂ - t₁)) ∧
    (calls.foldl call (init overflowHash start)).entries.length ≤ maxIps := by
  have hinit := init_proper overflowHash start
  refine ⟨?_, ?_, ?_⟩
  · intro kind t₁ t₂ ht
    exact (globalBounded kind).count_le hinit hstart hclock ht
  · intro ip kind t₁ t₂ ht
    exact (addressBounded ip kind).count_le hinit hstart hclock ht
  · obtain ⟨t', hproper⟩ := hinit.run hstart hclock
    exact hproper.few

/-- Two requests for information from one address, half a second apart. -/
theorem pre_auth_rate_two :
    (RateBounded.countIn Limiter.call Limiter.admits LimiterCall.now
      (LimiterCall.ofAddress (.v4 0) .info) (Limiter.init (fun _ => 0) 0)
      [.allow (.v4 0) .info 0, .allow (.v4 0) .info 0, .allow (.v4 0) .info (1 / 2)] 0
        (1 / 2) : ℚ) ≤
        PreAuthKind.info.budget.1 + PreAuthKind.info.budget.2 * (1 / 2 - 0) := by
  exact (pre_auth_rate (fun _ => 0) 0 _ (by decide +kernel) (by decide +kernel)).2.1 (.v4 0) .info 0
    (1 / 2) (by norm_num)

end BasisRust.Transport
