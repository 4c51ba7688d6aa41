import BasisRust.Storage.RateTokens

/-!
# The bounds of the rate limiter

What an owner may still spend is in its own bucket or, while the table has none for it, in the
overflow bucket.  An owner loses its bucket when that is full, and gets a new one when the overflow
bucket is full; so no move between the buckets gives it anything.
-/

namespace BasisRust.Storage

open Library

namespace RateLimiter

open RateBudget

variable {l l' : RateLimiter} {b : RateBudget} {c : Call} {o : String} {most : ℕ} {now : ℚ}

/-- A bucket that may serve an owner: that in which its tokens are or, when this one is full, the
overflow bucket or a new one. -/
def Serves (l : RateLimiter) (c : Call) (o : String) (b : RateBudget) : Prop :=
  b = l.bucket o ∨
    (l.bucket o).fullyRefilled c.checked = true ∧ (b = l.overflow ∨ b = .new c.limit c.created)

theorem bucket_own (h : assocGet o l.owners = some b) : l.bucket o = b := by
  rw [bucket, h, Option.getD_some]

theorem bucket_untracked (h : assocGet o l.owners = none) : l.bucket o = l.overflow := by
  rw [bucket, h, Option.getD_none]

theorem bucket_consumeOwn :
    (l.consumeOwn b c).2.bucket o = if o = c.owner
      then (b.consumeAt c.write c.bytes c.limit c.served).2 else l.bucket o := by
  rw [bucket, consumeOwn]
  split_ifs with h
  · rw [h, assocGet_set_self, Option.getD_some]
  · rw [assocGet_set_of_ne h, bucket]

theorem bucket_consumeOverflow :
    (l.consumeOverflow c).2.bucket o = l.bucket o ∨ l.bucket o = l.overflow ∧
      (l.consumeOverflow c).2.bucket o =
        (l.overflow.consumeAt c.write c.bytes c.limit c.served).2 := by
  cases hget : assocGet o l.owners with
  | some b =>
    left
    rw [bucket_own hget]
    exact bucket_own hget
  | none => exact .inr ⟨bucket_untracked hget, bucket_untracked (l := (l.consumeOverflow c).2) hget⟩

/-- The table without some of its full buckets. -/
def drop (l : RateLimiter) (dropped : String × RateBudget → Bool) (now : ℚ) : RateLimiter :=
  { l with owners := l.owners.filter fun x => !(dropped x && x.2.fullyRefilled now) }

variable (o now) in
theorem drop_get (h : AssocNodup l.owners) (dropped : String × RateBudget → Bool) :
    assocGet o (l.drop dropped now).owners = assocGet o l.owners ∨
      assocGet o (l.drop dropped now).owners = none ∧
        ∃ b, assocGet o l.owners = some b ∧ b.fullyRefilled now = true := by
  show assocGet o (l.owners.filter _) = _ ∨ assocGet o (l.owners.filter _) = none ∧ _
  rw [h.get_filter_entry]
  cases hget : assocGet o l.owners with
  | none => exact .inl rfl
  | some b =>
    rw [Option.filter_some]
    split_ifs with hkept
    · exact .inl rfl
    · right
      rw [Bool.not_eq_true', Bool.not_eq_false, Bool.and_eq_true] at hkept
      exact ⟨rfl, b, rfl, hkept.2⟩

/-- **Sweeping** drops all full buckets or none. -/
theorem sweep_eq_drop :
    l.sweep most now = l.drop (fun _ => decide (most ≤ l.owners.length)) now := by
  rw [sweep, drop]
  split_ifs with hlength
  · rw [decide_eq_true hlength]
    simp only [Bool.true_and]
  · rw [decide_eq_false hlength]
    simp only [Bool.false_and, Bool.not_false, List.filter_true]

theorem sweep_overflow : (l.sweep most now).overflow = l.overflow := by
  rw [sweep_eq_drop]
  rfl

theorem sweep_nodup (h : AssocNodup l.owners) : AssocNodup (l.sweep most now).owners := by
  rw [sweep_eq_drop]
  exact h.filter _

variable (o most now) in
theorem sweep_get (h : AssocNodup l.owners) :
    assocGet o (l.sweep most now).owners = assocGet o l.owners ∨
      assocGet o (l.sweep most now).owners = none ∧
        ∃ b, assocGet o l.owners = some b ∧ b.fullyRefilled now = true := by
  rw [sweep_eq_drop]
  exact drop_get o now h _

variable (o most now) in
theorem sweep_bucket (h : AssocNodup l.owners) : (l.sweep most now).bucket o = l.bucket o ∨
    (l.bucket o).fullyRefilled now = true ∧ (l.sweep most now).bucket o = l.overflow := by
  rcases sweep_get o most now h with hsame | ⟨hnone, b, hget, hfull⟩
  · left
    rw [bucket, bucket, hsame, sweep_overflow]
  · right
    rw [bucket_own hget, bucket_untracked hnone, sweep_overflow]
    exact ⟨hfull, rfl⟩

variable (most now) in
theorem sweep_get_none (h : AssocNodup l.owners) (hget : assocGet o l.owners = none) :
    assocGet o (l.sweep most now).owners = none := by
  rcases sweep_get o most now h with hsame | ⟨hnone, -⟩
  · rw [hsame, hget]
  · exact hnone

/-! ### What a call can do -/

/-- **The ways of a call**: on the bucket of its owner, on a new bucket, or on the overflow bucket,
after the table was swept or without that. -/
theorem consumeUpTo_cases (l : RateLimiter) (c : Call) (most : ℕ) :
    (∃ b, assocGet c.owner l.owners = some b ∧ l.consumeUpTo most c = l.consumeOwn b c) ∨
    (assocGet c.owner l.owners = none ∧ l.overflow.fullyRefilled c.checked = true ∧
      (l.sweep most c.checked).owners.length < most ∧
      l.consumeUpTo most c = (l.sweep most c.checked).consumeOwn (.new c.limit c.created) c) ∨
    (assocGet c.owner l.owners = none ∧ l.overflow.fullyRefilled c.checked = true ∧
      ¬ (l.sweep most c.checked).owners.length < most ∧
      l.consumeUpTo most c = (l.sweep most c.checked).consumeOverflow c) ∨
    assocGet c.owner l.owners = none ∧ ¬ l.overflow.fullyRefilled c.checked = true ∧
      l.consumeUpTo most c = l.consumeOverflow c := by
  cases hget : assocGet c.owner l.owners with
  | some b =>
    left
    refine ⟨b, rfl, ?_⟩
    rw [consumeUpTo, hget]
  | none =>
    right
    by_cases hfull : l.overflow.fullyRefilled c.checked = true
    · by_cases hroom : (l.sweep most c.checked).owners.length < most
      · left
        refine ⟨rfl, hfull, hroom, ?_⟩
        rw [consumeUpTo, hget]
        exact (if_pos hfull).trans (if_pos hroom)
      · right; left
        refine ⟨rfl, hfull, hroom, ?_⟩
        rw [consumeUpTo, hget]
        exact (if_pos hfull).trans (if_neg hroom)
    · right; right
      refine ⟨rfl, hfull, ?_⟩
      rw [consumeUpTo, hget]
      exact if_neg hfull

/-- The bucket that serves a call. -/
def server (l : RateLimiter) (most : ℕ) (c : Call) : RateBudget :=
  match assocGet c.owner l.owners with
  | some b => b
  | none =>
    if l.overflow.fullyRefilled c.checked = true ∧ (l.sweep most c.checked).owners.length < most
      then .new c.limit c.created
    else l.overflow

variable (c most) in
/-- **The owner of a call** is served by one bucket, in which its tokens are afterwards. -/
theorem bucket_self (h : AssocNodup l.owners) : l.Serves c c.owner (l.server most c) ∧
    (l.consumeUpTo most c).1 = ((l.server most c).consumeAt c.write c.bytes c.limit c.served).1 ∧
    (l.consumeUpTo most c).2.bucket c.owner =
      ((l.server most c).consumeAt c.write c.bytes c.limit c.served).2 := by
  rcases l.consumeUpTo_cases c most with ⟨b, hget, heq⟩ | ⟨hget, hfull, hroom, heq⟩ |
    ⟨hget, hfull, hroom, heq⟩ | ⟨hget, hfull, heq⟩
  · have hserver : l.server most c = b := by rw [server, hget]
    refine ⟨.inl ?_, by rw [heq, hserver]; rfl, ?_⟩
    · rw [hserver, bucket_own hget]
    · rw [heq, bucket_consumeOwn, if_pos rfl, hserver]
  · have hserver : l.server most c = .new c.limit c.created := by
      rw [server, hget]
      exact if_pos ⟨hfull, hroom⟩
    refine ⟨.inr ⟨?_, .inr hserver⟩, by rw [heq, hserver]; rfl, ?_⟩
    · rwa [bucket_untracked hget]
    · rw [heq, bucket_consumeOwn, if_pos rfl, hserver]
  · have hserver : l.server most c = l.overflow := by
      rw [server, hget]
      exact if_neg fun hnew => hroom hnew.2
    have hnone := sweep_get_none most c.checked h hget
    refine ⟨.inl ?_, ?_, ?_⟩
    · rw [hserver, bucket_untracked hget]
    · rw [heq, consumeOverflow, sweep_overflow, hserver]
    · rw [heq, bucket_untracked (l := ((l.sweep most c.checked).consumeOverflow c).2) hnone,
        consumeOverflow, sweep_overflow, hserver]
  · have hserver : l.server most c = l.overflow := by
      rw [server, hget]
      exact if_neg fun hnew => hfull hnew.1
    refine ⟨.inl ?_, by rw [heq, hserver]; rfl, ?_⟩
    · rw [hserver, bucket_untracked hget]
    · rw [heq, hserver]
      exact bucket_untracked (l := (l.consumeOverflow c).2) hget

variable (c most) in
/-- **The tokens of another owner** stay where they are or were full; its bucket may be the one that
serves the call. -/
theorem bucket_other (h : AssocNodup l.owners) (hne : o ≠ c.owner) : ∃ b, l.Serves c o b ∧
    ((l.consumeUpTo most c).2.bucket o = b ∨
      (l.consumeUpTo most c).2.bucket o = (b.consumeAt c.write c.bytes c.limit c.served).2) := by
  have hswept : l.Serves c o ((l.sweep most c.checked).bucket o) := by
    rcases sweep_bucket o most c.checked h with hsame | ⟨hfull, hover⟩
    · exact .inl hsame
    · exact .inr ⟨hfull, .inl hover⟩
  rcases l.consumeUpTo_cases c most with ⟨b, -, heq⟩ | ⟨-, -, -, heq⟩ | ⟨-, -, -, heq⟩ | ⟨-, -, heq⟩
  · refine ⟨l.bucket o, .inl rfl, .inl ?_⟩
    rw [heq, bucket_consumeOwn, if_neg hne]
  · refine ⟨_, hswept, .inl ?_⟩
    rw [heq, bucket_consumeOwn, if_neg hne]
  · refine ⟨_, hswept, ?_⟩
    rw [heq]
    rcases bucket_consumeOverflow (l := l.sweep most c.checked) (c := c) (o := o) with
      hsame | ⟨hover, hnext⟩
    · exact .inl hsame
    · rw [hover]
      exact .inr hnext
  · refine ⟨l.bucket o, .inl rfl, ?_⟩
    rw [heq]
    rcases bucket_consumeOverflow (l := l) (c := c) (o := o) with hsame | ⟨hover, hnext⟩
    · exact .inl hsame
    · rw [hover]
      exact .inr hnext

variable (l c most) in
theorem consumeUpTo_overflow : (l.consumeUpTo most c).2.overflow = l.overflow ∨
    (l.consumeUpTo most c).2.overflow =
      (l.overflow.consumeAt c.write c.bytes c.limit c.served).2 := by
  rcases l.consumeUpTo_cases c most with ⟨b, -, heq⟩ | ⟨-, -, -, heq⟩ | ⟨-, -, -, heq⟩ | ⟨-, -, heq⟩
  · rw [heq]
    exact .inl rfl
  · rw [heq]
    exact .inl sweep_overflow
  · rw [heq]
    right
    rw [consumeOverflow, sweep_overflow]
  · rw [heq]
    exact .inr rfl

theorem consumeOwn_nodup (h : AssocNodup l.owners) : AssocNodup (l.consumeOwn b c).2.owners :=
  h.put c.owner (some _)

theorem consumeUpTo_nodup (h : AssocNodup l.owners) :
    AssocNodup (l.consumeUpTo most c).2.owners := by
  rcases l.consumeUpTo_cases c most with ⟨b, -, heq⟩ | ⟨-, -, -, heq⟩ | ⟨-, -, -, heq⟩ | ⟨-, -, heq⟩
  · rw [heq]
    exact consumeOwn_nodup h
  · rw [heq]
    exact consumeOwn_nodup (sweep_nodup h)
  · rw [heq]
    exact sweep_nodup h
  · rw [heq]
    exact h

theorem length_consumeUpTo (h : l.owners.length ≤ most) :
    (l.consumeUpTo most c).2.owners.length ≤ most := by
  have hswept : (l.sweep most c.checked).owners.length ≤ most := by
    rw [sweep_eq_drop]
    exact (List.length_filter_le _ _).trans h
  rcases l.consumeUpTo_cases c most with ⟨b, hget, heq⟩ | ⟨-, -, hroom, heq⟩ | ⟨-, -, -, heq⟩ |
    ⟨-, -, heq⟩
  · rw [heq]
    exact (length_assocSet_of_get hget _).trans h
  · rw [heq]
    exact Nat.succ_le_of_lt ((length_assocErase_le _ _).trans_lt hroom)
  · rw [heq]
    exact hswept
  · rw [heq]
    exact h

/-! ### The allowance of an owner -/

/-- A limiter whose buckets were last used by a time, under one limit. -/
structure Inv (limit : ℕ) (t : ℚ) (l : RateLimiter) : Prop where
  nodup : AssocNodup l.owners
  overflow : l.overflow.Proper limit t
  buckets : ∀ o, (l.bucket o).Proper limit t

variable {limit : ℕ} {t t' : ℚ}

theorem inv_default (t : ℚ) (limit : ℕ) : Inv limit t (default t) :=
  ⟨.nil, .new le_rfl, fun _ => .new le_rfl⟩

theorem Inv.later (h : Inv limit t l) (hle : t ≤ t') : Inv limit t' l :=
  ⟨h.nodup, h.overflow.later hle, fun o => (h.buckets o).later hle⟩

theorem Inv.serves (h : Inv limit c.served l) (hb : l.Serves c o b) : b.Proper limit c.served := by
  rcases hb with hb | ⟨-, hb | hb⟩
  · rw [hb]
    exact h.buckets o
  · rw [hb]
    exact h.overflow
  · rw [hb]
    exact .new c.created_le

theorem Inv.step (h : Inv limit c.served l) (hc : c.limit = limit) :
    Inv limit c.served (l.step c) := by
  have hnext : ∀ b : RateBudget,
      (b.consumeAt c.write c.bytes c.limit c.served).2.Proper limit c.served := by
    intro b
    rw [hc]
    exact .consumeAt
  refine ⟨consumeUpTo_nodup h.nodup, ?_, fun o => ?_⟩
  · rcases consumeUpTo_overflow l c maxOwners with hsame | hmoved
    · rw [RateLimiter.step, consume, hsame]
      exact h.overflow
    · rw [RateLimiter.step, consume, hmoved]
      exact hnext _
  · by_cases ho : o = c.owner
    · rw [ho, RateLimiter.step, consume, (bucket_self c maxOwners h.nodup).2.2]
      exact hnext _
    · obtain ⟨b, hb, hsame | hmoved⟩ := bucket_other c maxOwners h.nodup ho
      · rw [RateLimiter.step, consume, hsame]
        exact h.serves hb
      · rw [RateLimiter.step, consume, hmoved]
        exact hnext _

/-- What a call takes of an owner's tokens. -/
def costOf (o : String) (cost : Call → ℚ) (c : Call) : ℚ := if c.owner = o then cost c else 0

section Allowance

variable {amount : RateBudget → ℚ} {cost : Call → ℚ} {cap rate : ℚ}

/-- **The bucket that serves** has no more than the bucket of the owner. -/
theorem Serves.le (hb : l.Serves c o b) (h : Tokens limit amount cost cap rate) :
    amount (b.settle limit c.served) ≤ amount ((l.bucket o).settle limit c.served) := by
  rcases hb with hb | ⟨hfull, -⟩
  · rw [hb]
  · rw [h.full (fullyRefilled_later hfull (c.checked_le.trans c.created_le))]
    exact h.le_cap

theorem step_spend (h : Tokens limit amount cost cap rate) (o : String) (hc : c.limit = limit)
    (hinv : Inv limit c.served l) :
    amount (((l.step c).bucket o).settle limit c.served) +
        (if l.admits c then costOf o cost c else 0) ≤
      amount ((l.bucket o).settle limit c.served) := by
  by_cases ho : o = c.owner
  · obtain ⟨hb, hadmits, hnext⟩ := bucket_self c maxOwners hinv.nodup
    have hspend := h.spend (b := l.server maxOwners c) hc
    rw [costOf, if_pos ho.symm, ho, admits, step, consume, hadmits, hnext]
    exact hspend.trans (hb.le h)
  · obtain ⟨b, hb, hnext⟩ := bucket_other c maxOwners hinv.nodup ho
    have hle := hb.le h
    rw [costOf, if_neg (Ne.symm ho), ite_self, add_zero, step, consume]
    rcases hnext with hsame | hmoved
    · rw [hsame]
      exact hle
    · have hspend := h.spend (b := b) hc
      have hcost : 0 ≤ if (b.consumeAt c.write c.bytes c.limit c.served).1 then cost c else 0 := by
        split_ifs
        · exact h.cost_nonneg c
        · exact le_rfl
      rw [hmoved]
      linarith

/-- **The tokens of one owner** are an allowance of the whole limiter. -/
theorem allowance (h : Tokens limit amount cost cap rate) (o : String) :
    Allowance step admits Call.served (costOf o cost) (fun c => c.limit = limit) (Inv limit)
      (fun t l => amount ((l.bucket o).settle limit t)) cap rate where
  __ := h
  cost_nonneg := fun c => by
    rw [costOf]
    split_ifs
    · exact h.cost_nonneg c
    · exact le_rfl
  le_cap := fun _ => h.le_cap
  refill := fun hinv hle => h.refill (hinv.buckets o) hle
  later := Inv.later
  kept := fun hc hinv => hinv.step hc
  spend := fun hc hinv => step_spend h o hc hinv
  afford := fun {c l} hc hinv hadmits hcost => by
    have ho : c.owner = o := by
      by_contra ho
      rw [costOf, if_neg ho] at hcost
      exact lt_irrefl 0 hcost
    obtain ⟨hb, hdecision, -⟩ := bucket_self c maxOwners hinv.nodup
    have hle := hb.le h
    rw [costOf, if_pos ho] at hcost ⊢
    rw [admits, consume, hdecision] at hadmits
    rw [ho] at hle
    rcases h.pays hc hadmits hcost with hpays | ⟨hlarge, hfull⟩
    · exact .inl (hpays.trans hle)
    · rw [hfull] at hle
      exact .inr ⟨hlarge, h.le_cap.antisymm hle⟩

end Allowance

/-! ### Dropped owners -/

/-- Whether the bucket of an owner is full, if it has one. -/
def Refilled (l : RateLimiter) (now : ℚ) (o : String) : Prop :=
  ∀ b, assocGet o l.owners = some b → b.fullyRefilled now = true

theorem Refilled.later (h : l.Refilled t o) (hle : t ≤ t') : l.Refilled t' o :=
  fun b hb => fullyRefilled_later (h b hb) hle

theorem Refilled.of_none (h : assocGet o l.owners = none) : l.Refilled now o := by
  intro b hb
  rw [h] at hb
  cases hb

/-- Limiters with the same buckets, but for those that are full or absent in both. -/
structure Alike (now : ℚ) (l l' : RateLimiter) : Prop where
  nodup : AssocNodup l.owners
  nodup' : AssocNodup l'.owners
  full : l.overflow.fullyRefilled now = true
  full' : l'.overflow.fullyRefilled now = true
  owners : ∀ o, assocGet o l.owners = assocGet o l'.owners ∨ l.Refilled now o ∧ l'.Refilled now o

namespace Alike

theorem refl (hnodup : AssocNodup l.owners) (hfull : l.overflow.fullyRefilled now = true) :
    Alike now l l :=
  ⟨hnodup, hnodup, hfull, hfull, fun _ => .inl rfl⟩

theorem symm (h : Alike now l l') : Alike now l' l :=
  ⟨h.nodup', h.nodup, h.full', h.full, fun o => (h.owners o).imp Eq.symm And.symm⟩

theorem later (h : Alike t l l') (hle : t ≤ t') : Alike t' l l' :=
  ⟨h.nodup, h.nodup', fullyRefilled_later h.full hle, fullyRefilled_later h.full' hle,
    fun o => (h.owners o).imp id fun hfull => ⟨hfull.1.later hle, hfull.2.later hle⟩⟩

theorem drop (h : Alike now l l') (dropped : String × RateBudget → Bool) :
    Alike now (l.drop dropped now) l' := by
  refine ⟨h.nodup.filter _, h.nodup', h.full, h.full', fun o => ?_⟩
  rcases drop_get o now h.nodup dropped with hsame | ⟨hnone, b, hget, hfull⟩
  · rcases h.owners o with heq | ⟨hrefilled, hrefilled'⟩
    · exact .inl (hsame.trans heq)
    · refine .inr ⟨fun b hb => hrefilled b ?_, hrefilled'⟩
      rwa [hsame] at hb
  · refine .inr ⟨.of_none hnone, ?_⟩
    rcases h.owners o with heq | ⟨-, hrefilled'⟩
    · intro b' hb'
      rw [← heq, hget] at hb'
      cases hb'
      exact hfull
    · exact hrefilled'

theorem sweep (h : Alike now l l') (most : ℕ) : Alike now (l.sweep most now) l' := by
  rw [sweep_eq_drop]
  exact h.drop _

/-- The same bucket is put in both. -/
theorem put (h : Alike now l l') (o : String) (b : RateBudget) :
    Alike now { l with owners := assocSet o b l.owners }
      { l' with owners := assocSet o b l'.owners } := by
  refine ⟨h.nodup.put o (some b), h.nodup'.put o (some b), h.full, h.full', fun o' => ?_⟩
  by_cases ho : o' = o
  · left
    show assocGet o' (assocSet o b l.owners) = assocGet o' (assocSet o b l'.owners)
    rw [ho, assocGet_set_self, assocGet_set_self]
  · rw [Refilled, Refilled]
    show assocGet o' (assocSet o b l.owners) = assocGet o' (assocSet o b l'.owners) ∨
      (∀ b', assocGet o' (assocSet o b l.owners) = some b' → _) ∧
        ∀ b', assocGet o' (assocSet o b l'.owners) = some b' → _
    rw [assocGet_set_of_ne ho, assocGet_set_of_ne ho]
    exact h.owners o'

end Alike

/-- The table has room for the owner of a call. -/
def HasRoom (l : RateLimiter) (most : ℕ) (c : Call) : Prop :=
  assocGet c.owner l.owners = none → (l.sweep most c.checked).owners.length < most

theorem consumeAt_full {b b' : RateBudget} (hb : b.fullyRefilled now = true)
    (hb' : b'.fullyRefilled now = true) (write : Bool) (bytes : ℕ) :
    b.consumeAt write bytes limit now = b'.consumeAt write bytes limit now := by
  rw [RateBudget.consumeAt, RateBudget.consumeAt, settle_full hb, settle_full hb']

/-- **A call that finds room** is served by the bucket of its owner or by a new one, in the table as
it is or swept. -/
theorem consume_room (hfull : l.overflow.fullyRefilled c.checked = true)
    (hroom : l.HasRoom most c) : ∃ swept b,
      (swept = l ∨ swept = l.sweep most c.checked) ∧
      (assocGet c.owner l.owners = some b ∨
        assocGet c.owner l.owners = none ∧ b = .new c.limit c.created) ∧
      l.consumeUpTo most c = swept.consumeOwn b c := by
  rcases l.consumeUpTo_cases c most with ⟨b, hget, heq⟩ | ⟨hget, -, -, heq⟩ |
    ⟨hget, -, hnone, -⟩ | ⟨-, hnot, -⟩
  · exact ⟨l, b, .inl rfl, .inl hget, heq⟩
  · exact ⟨_, _, .inr rfl, .inr ⟨hget, rfl⟩, heq⟩
  · exact absurd (hroom hget) hnone
  · exact absurd hfull hnot

/-- The bucket that serves a call, where the owner's is full or absent. -/
theorem Refilled.serves (h : l.Refilled c.served c.owner) (hb : assocGet c.owner l.owners = some b ∨
      assocGet c.owner l.owners = none ∧ b = .new c.limit c.created) :
    b.fullyRefilled c.served = true := by
  rcases hb with hget | ⟨-, hnew⟩
  · exact h b hget
  · rw [hnew]
    exact new_fullyRefilled

/-- **One call** cannot tell limiters apart that are alike, if both have room. -/
theorem Alike.step {most' : ℕ} (h : Alike now l l') (hnow : now ≤ c.checked)
    (hroom : l.HasRoom most c) (hroom' : l'.HasRoom most' c) :
    (l.consumeUpTo most c).1 = (l'.consumeUpTo most' c).1 ∧
      Alike c.served (l.consumeUpTo most c).2 (l'.consumeUpTo most' c).2 := by
  have hchecked := h.later hnow
  have hserved : c.checked ≤ c.served := c.checked_le.trans c.created_le
  obtain ⟨swept, b, hswept, hb, heq⟩ := consume_room hchecked.full hroom
  obtain ⟨swept', b', hswept', hb', heq'⟩ := consume_room hchecked.full' hroom'
  have hsame : b.consumeAt c.write c.bytes c.limit c.served =
      b'.consumeAt c.write c.bytes c.limit c.served := by
    rcases (h.later (hnow.trans hserved)).owners c.owner with hget | ⟨hfull, hfull'⟩
    · -- both have the bucket of the owner, or both have none
      rw [← hget] at hb'
      rcases hb with hsome | ⟨hnone, hnew⟩
      · rcases hb' with hsome' | ⟨hnone', -⟩
        · rw [hsome] at hsome'
          cases hsome'
          rfl
        · rw [hsome] at hnone'
          cases hnone'
      · rcases hb' with hsome' | ⟨-, hnew'⟩
        · rw [hnone] at hsome'
          cases hsome'
        · rw [hnew, hnew']
    · exact consumeAt_full (hfull.serves hb) (hfull'.serves hb') _ _
  have halike : Alike c.checked swept swept' := by
    have hleft : Alike c.checked swept l' := by
      rcases hswept with hl | hl
      · rwa [hl]
      · rw [hl]
        exact hchecked.sweep most
    rcases hswept' with hl | hl
    · rwa [hl]
    · rw [hl]
      exact (hleft.symm.sweep most').symm
  rw [heq, heq', consumeOwn, consumeOwn, hsame]
  exact ⟨rfl, (halike.later hserved).put c.owner _⟩

/-! ### Runs -/

/-- The calls read a clock that does not go back. -/
def Clocked (start : ℚ) : List Call → Prop
  | [] => True
  | c :: calls => start ≤ c.checked ∧ Clocked c.served calls

variable {calls : List Call}

theorem Clocked.served {start : ℚ} (h : Clocked start calls) : ∀ c ∈ calls, start ≤ c.served := by
  induction calls generalizing start with
  | nil => exact nofun
  | cons c calls ih =>
    have hc : start ≤ c.served := h.1.trans (c.checked_le.trans c.created_le)
    intro c' hc'
    rcases List.mem_cons.mp hc' with heq | hc'
    · rwa [heq]
    · exact hc.trans (ih h.2 c' hc')

theorem Clocked.sorted {start : ℚ} (h : Clocked start calls) :
    calls.Pairwise fun c c' => c.served ≤ c'.served := by
  induction calls generalizing start with
  | nil => exact .nil
  | cons c calls ih => exact .cons h.2.served (ih h.2)

def decisions (most : ℕ) : RateLimiter → List Call → List Bool
  | _, [] => []
  | l, c :: calls => (l.consumeUpTo most c).1 :: decisions most (l.consumeUpTo most c).2 calls

def HasRoomFor (most : ℕ) : RateLimiter → List Call → Prop
  | _, [] => True
  | l, c :: calls => l.HasRoom most c ∧ HasRoomFor most (l.consumeUpTo most c).2 calls

/-- **No run** can tell limiters apart that are alike, while both have room. -/
theorem Alike.run {most' : ℕ} (h : Alike now l l') (hclock : Clocked now calls)
    (hroom : HasRoomFor most l calls) (hroom' : HasRoomFor most' l' calls) :
    decisions most l calls = decisions most' l' calls := by
  induction calls generalizing now l l' with
  | nil => rfl
  | cons c calls ih =>
    obtain ⟨hsame, hnext⟩ := h.step hclock.1 hroom.1 hroom'.1
    rw [decisions, decisions, hsame, ih hnext hclock.2 hroom.2 hroom'.2]

theorem run_cons (c : Call) (calls : List Call) : l.run (c :: calls) = (l.step c).run calls := rfl

theorem length_run (h : l.owners.length ≤ maxOwners) (calls : List Call) :
    (l.run calls).owners.length ≤ maxOwners := by
  induction calls generalizing l with
  | nil => exact h
  | cons c calls ih =>
    rw [run_cons]
    exact ih (length_consumeUpTo h)

theorem nodup_run (h : AssocNodup l.owners) (calls : List Call) :
    AssocNodup (l.run calls).owners := by
  induction calls generalizing l with
  | nil => exact h
  | cons c calls ih =>
    rw [run_cons]
    exact ih (consumeUpTo_nodup h)

/-- What the calls that are admitted in an interval take of an owner's tokens, in order. -/
def spent (l : RateLimiter) (o : String) (cost : Call → ℚ) (calls : List Call) (t₁ t₂ : ℚ) :
    List ℚ :=
  (Allowance.admittedIn step admits Call.served l calls t₁ t₂).map (costOf o cost)

/-- What one owner may do in a run under one limit. -/
structure Limited (limit : ℕ) (o : String) (l : RateLimiter) (calls : List Call) : Prop where
  reads : ∀ t₁ t₂, t₁ ≤ t₂ → (l.spent o readCost calls t₁ t₂).sum ≤ 60 + 20 * (t₂ - t₁)
  writes : ∀ t₁ t₂, t₁ ≤ t₂ → (l.spent o writeCost calls t₁ t₂).sum ≤ 10 + 2 * (t₂ - t₁)
  bytes : ∀ t₁ t₂, t₁ ≤ t₂ →
    WithinAllowance (limit * 2 : ℕ) ((limit : ℚ) / 2) t₁ t₂ (l.spent o byteCost calls t₁ t₂)
  /-- a write that sets bytes is not admitted before an earlier one has been paid for -/
  repaid : ∀ c c', [c, c'].Sublist (admitted step admits l calls) → c.owner = o → c'.owner = o →
    0 < byteCost c' → byteCost c - (limit * 2 : ℕ) ≤ (limit : ℚ) / 2 * (c'.served - c.served)

theorem spent_le {amount : RateBudget → ℚ} {cost : Call → ℚ} {cap rate t₁ t₂ : ℚ}
    (h : Tokens limit amount cost cap rate) (hcost : ∀ c, cost c ≤ cap)
    (hclock : Clocked t calls) (hlimit : ∀ c ∈ calls, c.limit = limit) (o : String) (ht : t₁ ≤ t₂) :
    ((default t).spent o cost calls t₁ t₂).sum ≤ cap + rate * (t₂ - t₁) := by
  have hwithin := (allowance h o).within (inv_default t limit) hlimit hclock.served hclock.sorted ht
  refine hwithin.sum_le fun x hx => ?_
  obtain ⟨c, -, hc⟩ := List.mem_map.mp hx
  rw [← hc, costOf]
  split_ifs
  · exact hcost c
  · exact h.cap_nonneg

theorem limited (hclock : Clocked t calls) (hlimit : ∀ c ∈ calls, c.limit = limit) (o : String) :
    Limited limit o (default t) calls where
  reads := fun t₁ t₂ ht => by
    refine spent_le reads_tokens (fun c => ?_) hclock hlimit o ht
    rw [readCost]
    split_ifs <;> norm_num
  writes := fun t₁ t₂ ht => by
    refine spent_le writes_tokens (fun c => ?_) hclock hlimit o ht
    rw [writeCost]
    split_ifs <;> norm_num
  bytes := fun t₁ t₂ ht =>
    (allowance bytes_tokens o).within (inv_default t limit) hlimit hclock.served hclock.sorted ht
  repaid := fun c c' hsub ho ho' hcost => by
    have hordered : c.served ≤ c'.served := by
      have hpair := (hclock.sorted.sublist (Allowance.admitted_sublist _ _)).sublist hsub
      exact (List.pairwise_cons.mp hpair).1 c' (.head _)
    have htokens : Tokens limit RateBudget.bytes byteCost (limit * 2 : ℕ) ((limit : ℚ) / 2) :=
      bytes_tokens
    have hrepaid := (allowance htokens o).repaid (inv_default t limit) hlimit
      hclock.served hclock.sorted hsub hordered (by rwa [costOf, if_pos ho'])
    rwa [costOf, if_pos ho] at hrepaid

/-- **The rate limits of the storage**, over every run from a new limiter: what an owner is admitted
in an interval under one limit, the size of the table, that dropping full buckets while the overflow
bucket is full changes no decision as long as there is room, and what a new limit gives. -/
theorem storage_rate_limits (start : ℚ) (calls : List Call) (hclock : Clocked start calls) :
    (∀ limit, (∀ c ∈ calls, c.limit = limit) → ∀ o, Limited limit o (default start) calls) ∧
    ((default start).run calls).owners.length ≤ maxOwners ∧
    (∀ (dropped : String × RateBudget → Bool) (now : ℚ) (later : List Call) (most : ℕ),
      ((default start).run calls).overflow.fullyRefilled now = true → Clocked now later →
      HasRoomFor maxOwners (((default start).run calls).drop dropped now) later →
      HasRoomFor most ((default start).run calls) later →
        decisions maxOwners (((default start).run calls).drop dropped now) later =
          decisions most ((default start).run calls) later) ∧
    ∀ (l : RateLimiter) (c : Call), l = (default start).run calls →
      (l.admits c = true → c.write = true → c.limit * 2 < c.bytes →
        ((l.server maxOwners c).settle c.limit c.served).bytes = (c.limit * 2 : ℕ)) ∧
      (((l.server maxOwners c).settle c.limit c.served).bytes ≤
          ((l.bucket c.owner).settle (l.bucket c.owner).byteLimit c.served).bytes ∨
        (l.bucket c.owner).BytesFull c.served) := by
  have hnodup : AssocNodup ((default start).run calls).owners := nodup_run .nil calls
  refine ⟨fun limit hlimit o => limited hclock hlimit o, length_run (Nat.zero_le _) calls,
    fun dropped now later most hfull hlater hroom hroom' => ?_, fun l c hl => ?_⟩
  · exact ((Alike.refl hnodup hfull).drop dropped).run hlater hroom hroom'
  · rw [← hl] at hnodup
    obtain ⟨hserves, hdecision, -⟩ := bucket_self c maxOwners hnodup
    refine ⟨fun hadmits hwrite hlarge => ?_, ?_⟩
    · rw [admits, consume, hdecision, hwrite] at hadmits
      exact full_of_oversized hadmits hlarge
    · rcases hserves with hown | ⟨hfull, -⟩
      · rw [hown]
        exact settle_bytes_adopted
      · right
        exact (fullyRefilled_iff.mp hfull).2.2.later (c.checked_le.trans c.created_le)

/-! ### A full table -/

/-- A write of one owner under a limit of 16 bytes, with the clock at rest. -/
def callOf (owner : String) (bytes : ℕ) (now : ℚ) : Call :=
  ⟨owner, true, bytes, 16, now, now, now, le_rfl, le_rfl⟩

def crowdName (n : ℕ) : String := String.ofList (List.replicate n 'a')

theorem crowdName_injective : Function.Injective crowdName := by
  intro m n h
  have hlength := congrArg (fun name => name.toList.length) h
  simpa [crowdName] using hlength

theorem crowdName_ne {name : String} (h : ∃ letter ∈ name.toList, letter ≠ 'a') (n : ℕ) :
    crowdName n ≠ name := by
  rintro rfl
  obtain ⟨letter, hletter, hne⟩ := h
  rw [crowdName, String.toList_ofList] at hletter
  exact hne (List.eq_of_mem_replicate hletter)

/-- Each of `n` owners sets 20 bytes. -/
def crowd (n : ℕ) : List Call := (List.range n).map fun i => callOf (crowdName i) 20 0

def crowdTable (n : ℕ) : List (String × RateBudget) :=
  (List.range n).reverse.map fun i => (crowdName i, ⟨0, 60, 9, 12, 16⟩)

theorem crowdTable_succ (n : ℕ) :
    crowdTable (n + 1) = (crowdName n, ⟨0, 60, 9, 12, 16⟩) :: crowdTable n := by
  rw [crowdTable, List.range_succ, List.reverse_append]
  rfl

theorem notMem_crowdTable {name : String} {n : ℕ} (h : ∀ i < n, crowdName i ≠ name) :
    name ∉ (crowdTable n).map Prod.fst := by
  intro hmem
  simp only [crowdTable, List.map_map, List.mem_map, List.mem_reverse, List.mem_range,
    Function.comp_apply] at hmem
  obtain ⟨i, hi, hname⟩ := hmem
  exact h i hi hname

theorem length_crowdTable (n : ℕ) : (crowdTable n).length = n := by
  rw [crowdTable, List.length_map, List.length_reverse, List.length_range]

theorem sweep_of_lt (h : l.owners.length < most) : l.sweep most now = l :=
  if_neg (Nat.not_le.mpr h)

/-- A crowd fills the table. -/
theorem run_crowd {n : ℕ} (hn : n ≤ maxOwners) :
    (default 0).run (crowd n) = ⟨crowdTable n, .new defaultBytesPerPlayer 0⟩ := by
  induction n with
  | zero => rfl
  | succ n ih =>
    have hnew : crowdName n ∉ (crowdTable n).map Prod.fst :=
      notMem_crowdTable fun i hi heq => hi.ne (crowdName_injective heq)
    rw [run, crowd, List.range_succ, List.map_append, List.foldl_append]
    show step ((default 0).run (crowd n)) (callOf (crowdName n) 20 0) = _
    rw [ih (Nat.le_of_succ_le hn), step, consume]
    set l : RateLimiter := ⟨crowdTable n, .new defaultBytesPerPlayer 0⟩
    have hroom : l.owners.length < maxOwners := (length_crowdTable n).trans_lt hn
    obtain ⟨b, hget, -⟩ | ⟨-, -, -, heq⟩ | ⟨-, -, hfull, -⟩ | ⟨-, hnot, -⟩ :=
      l.consumeUpTo_cases (callOf (crowdName n) 20 0) maxOwners
    · cases (assocGet_eq_none hnew).symm.trans hget
    · have hbucket : ((RateBudget.new 16 0).consumeAt true 20 16 0).2 = ⟨0, 60, 9, 12, 16⟩ := by
        decide +kernel
      rw [heq, sweep_of_lt hroom, crowdTable_succ, ← hbucket, ← assocErase_eq_self hnew]
      rfl
    · rw [sweep_of_lt hroom] at hfull
      exact absurd hroom hfull
    · have hfull : (RateBudget.new defaultBytesPerPlayer 0).fullyRefilled 0 = true := by
        decide +kernel
      exact absurd hfull hnot

section Crowded

variable {owners : List (String × RateBudget)} {b' : RateBudget} {admitted : Bool}
  (hnew : c.owner ∉ owners.map Prod.fst) (hlength : maxOwners ≤ owners.length)

include hnew hlength

/-- A full table has no bucket for a new owner while the overflow bucket is in debt or no bucket of
the table is full. -/
theorem consume_crowded
    (h : b.fullyRefilled c.checked = false ∨ ∀ x ∈ owners, x.2.fullyRefilled c.checked = false)
    (hb : b.consumeAt c.write c.bytes c.limit c.served = (admitted, b')) :
    consumeUpTo maxOwners ⟨owners, b⟩ c = (admitted, ⟨owners, b'⟩) := by
  have hserved : consumeOverflow ⟨owners, b⟩ c = (admitted, ⟨owners, b'⟩) := by
    rw [consumeOverflow, hb]
  have hsweep : b.fullyRefilled c.checked = true →
      sweep ⟨owners, b⟩ maxOwners c.checked = ⟨owners, b⟩ := by
    intro hfull
    have hspent := h.resolve_left (ne_of_eq_of_ne hfull Bool.noConfusion)
    rw [sweep, if_pos hlength, List.filter_eq_self.mpr]
    intro x hx
    rw [hspent x hx]
    rfl
  obtain ⟨_, hget, -⟩ | ⟨-, hfull, hroom, -⟩ | ⟨-, hfull, -, heq⟩ | ⟨-, -, heq⟩ :=
    consumeUpTo_cases ⟨owners, b⟩ c maxOwners
  · cases (assocGet_eq_none hnew).symm.trans hget
  · rw [hsweep hfull] at hroom
    exact absurd hlength (Nat.not_le.mpr hroom)
  · rw [heq, hsweep hfull, hserved]
  · rw [heq, hserved]

/-- When all buckets are full, the table is emptied for a new owner. -/
theorem consume_swept (hfull : b.fullyRefilled c.checked = true)
    (hall : ∀ x ∈ owners, x.2.fullyRefilled c.checked = true)
    (hb : (RateBudget.new c.limit c.created).consumeAt c.write c.bytes c.limit c.served =
      (admitted, b')) :
    consumeUpTo maxOwners ⟨owners, b⟩ c = (admitted, ⟨[(c.owner, b')], b⟩) := by
  have hsweep : sweep ⟨owners, b⟩ maxOwners c.checked = ⟨[], b⟩ := by
    rw [sweep, if_pos hlength, List.filter_eq_nil_iff.mpr]
    intro x hx
    rw [hall x hx]
    exact Bool.false_ne_true
  obtain ⟨_, hget, -⟩ | ⟨-, -, -, heq⟩ | ⟨-, -, hroom, -⟩ | ⟨-, hnot, -⟩ :=
    consumeUpTo_cases ⟨owners, b⟩ c maxOwners
  · cases (assocGet_eq_none hnew).symm.trans hget
  · rw [heq, hsweep, consumeOwn, hb]
    rfl
  · rw [hsweep] at hroom
    exact absurd (Nat.zero_lt_succ 8191) hroom
  · exact absurd hfull hnot

end Crowded

/-- An oversized write, one of a second owner that is refused because of the shared debt, and one
when that is repaid; and the first owner again, when all buckets are full. -/
def latecomers : List Call :=
  [callOf "bob" 100 0, callOf "carol" 1 8, callOf "carol" 1 9, callOf "bob" 1 20]

theorem latecomers_decisions {owners : List (String × RateBudget)}
    (hlength : maxOwners ≤ owners.length) (hbob : "bob" ∉ owners.map Prod.fst)
    (hcarol : "carol" ∉ owners.map Prod.fst) (hspent : ∀ x ∈ owners, x.2 = ⟨0, 60, 9, 12, 16⟩) :
    decisions maxOwners ⟨owners, .new defaultBytesPerPlayer 0⟩ latecomers =
        [true, false, true, true] ∧
      (run ⟨owners, .new defaultBytesPerPlayer 0⟩ latecomers).owners.map Prod.fst = ["bob"] := by
  have hnow : ∀ x ∈ owners, x.2.fullyRefilled 0 = false := fun x hx => by
    rw [hspent x hx]
    decide +kernel
  have hlater : ∀ x ∈ owners, x.2.fullyRefilled 20 = true := fun x hx => by
    rw [hspent x hx]
    decide +kernel
  have hdebt : (RateBudget.new defaultBytesPerPlayer 0).consumeAt true 100 16 0 =
      (true, ⟨0, 60, 9, -68, 16⟩) := by decide +kernel
  have hrefused : (⟨0, 60, 9, -68, 16⟩ : RateBudget).consumeAt true 1 16 8 =
      (false, ⟨8, 60, 10, -4, 16⟩) := by decide +kernel
  have hrepaid : (⟨8, 60, 10, -4, 16⟩ : RateBudget).consumeAt true 1 16 9 =
      (true, ⟨9, 60, 9, 3, 16⟩) := by decide +kernel
  have hpromoted : (RateBudget.new 16 20).consumeAt true 1 16 20 = (true, ⟨20, 60, 9, 31, 16⟩) := by
    decide +kernel
  have hinDebt : (⟨0, 60, 9, -68, 16⟩ : RateBudget).fullyRefilled 8 = false := by decide +kernel
  have hinDebt' : (⟨8, 60, 10, -4, 16⟩ : RateBudget).fullyRefilled 9 = false := by decide +kernel
  have hfull : (⟨9, 60, 9, 3, 16⟩ : RateBudget).fullyRefilled 20 = true := by decide +kernel
  have h₁ := consume_crowded (c := callOf "bob" 100 0) hbob hlength (.inr hnow) hdebt
  have h₂ := consume_crowded (c := callOf "carol" 1 8) hcarol hlength (.inl hinDebt) hrefused
  have h₃ := consume_crowded (c := callOf "carol" 1 9) hcarol hlength (.inl hinDebt') hrepaid
  have h₄ := consume_swept (c := callOf "bob" 1 20) hbob hlength hfull hlater hpromoted
  simp only [latecomers, decisions, run, List.foldl, step, consume, h₁, h₂, h₃, h₄]
  exact ⟨trivial, rfl⟩

theorem clocked_crowd (names : List ℕ) {later : List Call} (h : Clocked 0 later) :
    Clocked 0 (names.map (fun i => callOf (crowdName i) 20 0) ++ later) := by
  induction names with
  | nil => exact h
  | cons i names ih => exact ⟨le_rfl, ih⟩

/-- A crowd that fills the table, and the latecomers. -/
theorem storage_rate_limits_crowded :
    Limited 16 "bob" (default 0) (crowd maxOwners ++ latecomers) ∧
      ((default 0).run (crowd maxOwners)).owners.length = maxOwners ∧
      decisions maxOwners ((default 0).run (crowd maxOwners)) latecomers =
        [true, false, true, true] ∧
      (((default 0).run (crowd maxOwners)).run latecomers).owners.map Prod.fst = ["bob"] := by
  have hlate : Clocked 0 latecomers := ⟨by decide, by decide, by decide, by decide, trivial⟩
  have hlimit : ∀ c ∈ crowd maxOwners ++ latecomers, c.limit = 16 := by
    intro c hc
    rcases List.mem_append.mp hc with hcrowd | hlate
    · obtain ⟨i, -, rfl⟩ := List.mem_map.mp hcrowd
      rfl
    · exact (by decide : ∀ c ∈ latecomers, c.limit = 16) c hlate
  refine ⟨(storage_rate_limits 0 _ (clocked_crowd _ hlate)).1 16 hlimit "bob", ?_⟩
  have hlength := length_crowdTable maxOwners
  have hbob : "bob" ∉ (crowdTable maxOwners).map Prod.fst :=
    notMem_crowdTable fun i _ => crowdName_ne ⟨'b', by decide, by decide⟩ i
  have hcarol : "carol" ∉ (crowdTable maxOwners).map Prod.fst :=
    notMem_crowdTable fun i _ => crowdName_ne ⟨'c', by decide, by decide⟩ i
  rw [run_crowd le_rfl]
  dsimp only
  refine ⟨hlength, latecomers_decisions hlength.ge hbob hcarol fun x hx => ?_⟩
  obtain ⟨i, -, rfl⟩ := List.mem_map.mp hx
  rfl

end RateLimiter

end BasisRust.Storage
