import BasisRust.Storage.RateLimiter
import Mathlib.Tactic.NormNum

/-!
# The tokens of a bucket

`RateBudget.Tokens` is what reads, writes and bytes have in common: what a settled bucket has of
them, how they are refilled, and what a call takes.  `Tokens.spend` and `Tokens.pays` are what a
call does; a bucket that is fully refilled settles to a new one (`settle_full`), and a new limit
gives no bytes to a bucket whose bytes are not full (`settle_bytes_adopted`).
-/

namespace BasisRust.Storage

open Library

namespace RateBudget

variable {b : RateBudget} {limit limit' bytes : ℕ} {write : Bool} {now now' t t' : ℚ}

theorem delta_nonneg : 0 ≤ b.delta now := le_max_left _ _

theorem delta_mono (h : now ≤ now') : b.delta now ≤ b.delta now' := max_le_max le_rfl (by linarith)

theorem delta_add (hlast : b.last ≤ now) (h : now ≤ now') :
    b.delta now' = b.delta now + (now' - now) := by
  rw [delta, delta, max_eq_right (by linarith), max_eq_right (by linarith)]
  exact (sub_add_sub_cancel' now b.last now').symm

/-- Whether the bytes have been refilled at an instant. -/
def BytesFull (b : RateBudget) (now : ℚ) : Prop :=
  ((b.byteLimit * 2 : ℕ) : ℚ) ≤ b.bytes + b.delta now * b.byteLimit / 2

instance : Decidable (b.BytesFull now) := inferInstanceAs (Decidable (_ ≤ _))

theorem BytesFull.later (h : b.BytesFull now) (hle : now ≤ now') : b.BytesFull now' := by
  have hdelta : b.delta now ≤ b.delta now' := delta_mono hle
  have hgrow := mul_le_mul_of_nonneg_right hdelta (Nat.cast_nonneg (α := ℚ) b.byteLimit)
  rw [BytesFull] at h ⊢
  linarith

theorem fullyRefilled_iff : b.fullyRefilled now = true ↔
    60 ≤ b.reads + b.delta now * 20 ∧ 10 ≤ b.writes + b.delta now * 2 ∧ b.BytesFull now := by
  rw [fullyRefilled, Bool.and_eq_true, Bool.and_eq_true, decide_eq_true_eq, decide_eq_true_eq,
    decide_eq_true_eq, and_assoc]
  exact Iff.rfl

/-- **A full bucket stays full** while it is not used. -/
theorem fullyRefilled_later (h : b.fullyRefilled now = true) (hle : now ≤ now') :
    b.fullyRefilled now' = true := by
  have hdelta : b.delta now ≤ b.delta now' := delta_mono hle
  obtain ⟨hreads, hwrites, hbytes⟩ := fullyRefilled_iff.mp h
  exact fullyRefilled_iff.mpr ⟨by linarith, by linarith, hbytes.later hle⟩

theorem new_fullyRefilled : (new limit now).fullyRefilled now' = true := by
  have hdelta : 0 ≤ (new limit now).delta now' := delta_nonneg
  refine fullyRefilled_iff.mpr ⟨?_, ?_, ?_⟩
  · show (60 : ℚ) ≤ 60 + _
    linarith
  · show (10 : ℚ) ≤ 10 + _
    linarith
  · have hgrow := mul_nonneg hdelta (Nat.cast_nonneg (α := ℚ) limit)
    show ((limit * 2 : ℕ) : ℚ) ≤ (limit * 2 : ℕ) + _ * (limit : ℚ) / 2
    linarith

/-! ### Settling -/

theorem settle_byteLimit : (b.settle limit now).byteLimit = limit := rfl

theorem settle_last : (b.settle limit now).last = now := rfl

theorem settle_reads : (b.settle limit now).reads = min (b.reads + b.delta now * 20) 60 := rfl

theorem settle_writes : (b.settle limit now).writes = min (b.writes + b.delta now * 2) 10 := rfl

theorem settle_bytes_full (h : b.BytesFull now) : (b.settle limit now).bytes = (limit * 2 : ℕ) := by
  have hfull : ((b.byteLimit * 2 : ℕ) : ℚ) ≤ (b.refill now).bytes := le_min h le_rfl
  exact if_pos hfull

theorem settle_bytes_owing (h : ¬ b.BytesFull now) :
    (b.settle limit now).bytes = min (b.bytes + b.delta now * b.byteLimit / 2) (limit * 2 : ℕ) := by
  have howing : b.bytes + b.delta now * b.byteLimit / 2 < (b.byteLimit * 2 : ℕ) := not_le.mp h
  have hrefill : (b.refill now).bytes = b.bytes + b.delta now * b.byteLimit / 2 :=
    min_eq_left howing.le
  have hnot : ¬ ((b.byteLimit * 2 : ℕ) : ℚ) ≤ (b.refill now).bytes := by
    rw [hrefill]
    exact not_le.mpr howing
  rw [← hrefill]
  exact if_neg hnot

theorem settle_bytes_le : (b.settle limit now).bytes ≤ (limit * 2 : ℕ) := by
  by_cases h : b.BytesFull now
  · rw [settle_bytes_full h]
  · rw [settle_bytes_owing h]
    exact min_le_right _ _

/-- **A full bucket settles** to the bucket of its new limit, whatever it was full of. -/
theorem settle_full (h : b.fullyRefilled now = true) : b.settle limit now = new limit now := by
  obtain ⟨hreads, hwrites, hbytes⟩ := fullyRefilled_iff.mp h
  have hr : (b.settle limit now).reads = 60 := min_eq_right hreads
  have hw : (b.settle limit now).writes = 10 := min_eq_right hwrites
  have hb : (b.settle limit now).bytes = (limit * 2 : ℕ) := settle_bytes_full hbytes
  show (⟨now, (b.settle limit now).reads, (b.settle limit now).writes,
    (b.settle limit now).bytes, limit⟩ : RateBudget) = _
  rw [hr, hw, hb]
  rfl

/-- **A new limit** gives no more bytes than the old one, but to a bucket whose bytes are full. -/
theorem settle_bytes_adopted : (b.settle limit now).bytes ≤ (b.settle b.byteLimit now).bytes ∨
    b.BytesFull now := by
  by_cases h : b.BytesFull now
  · exact .inr h
  · left
    have howing : b.bytes + b.delta now * b.byteLimit / 2 < (b.byteLimit * 2 : ℕ) := not_le.mp h
    rw [settle_bytes_owing h, settle_bytes_owing h]
    exact le_min (min_le_left _ _) ((min_le_left _ _).trans howing.le)

/-! ### What a call leaves -/

theorem consumeAt_admits : (b.consumeAt write bytes limit now).1 =
    (b.settle limit now).admits write bytes := by
  rw [consumeAt]
  split_ifs with h
  · exact h.symm
  · exact (Bool.eq_false_iff.mpr h).symm

theorem consumeAt_admitted (h : (b.settle limit now).admits write bytes = true) :
    (b.consumeAt write bytes limit now).2 = (b.settle limit now).charge write bytes := by
  rw [consumeAt, if_pos h]

theorem consumeAt_refused (h : (b.settle limit now).admits write bytes = false) :
    (b.consumeAt write bytes limit now).2 = b.settle limit now := by
  rw [consumeAt, if_neg (Bool.eq_false_iff.mp h)]

theorem charge_last : (b.charge write bytes).last = b.last := by
  cases write <;> rfl

theorem charge_byteLimit : (b.charge write bytes).byteLimit = b.byteLimit := by
  cases write <;> rfl

theorem consumeAt_last : (b.consumeAt write bytes limit now).2.last = now := by
  cases h : (b.settle limit now).admits write bytes with
  | false => rw [consumeAt_refused h, settle_last]
  | true => rw [consumeAt_admitted h, charge_last, settle_last]

theorem consumeAt_byteLimit : (b.consumeAt write bytes limit now).2.byteLimit = limit := by
  cases h : (b.settle limit now).admits write bytes with
  | false => rw [consumeAt_refused h, settle_byteLimit]
  | true => rw [consumeAt_admitted h, charge_byteLimit, settle_byteLimit]

theorem available_of_admits (h : b.admits write bytes = true) :
    1 ≤ if write then b.writes else b.reads := by
  by_contra hlow
  rw [admits, decide_eq_true (not_le.mp hlow), Bool.true_or] at h
  cases h

/-- **An admitted write** is paid, or it is larger than the bucket, which is full. -/
theorem bytes_of_admits (h : b.admits true bytes = true) (hbytes : 0 < bytes) :
    (bytes : ℚ) ≤ b.bytes ∨
      ((b.byteLimit * 2 : ℕ) : ℚ) < bytes ∧ b.bytes = (b.byteLimit * 2 : ℕ) := by
  rw [admits, Bool.not_eq_true', Bool.or_eq_false_iff] at h
  have hpays := h.2
  rw [Bool.true_and, decide_eq_true hbytes, Bool.true_and, Bool.and_eq_false_iff,
    Bool.not_eq_false', Bool.and_eq_true, decide_eq_true_eq, decide_eq_true_eq,
    decide_eq_false_iff_not, not_lt] at hpays
  exact hpays

/-- **Larger than the bucket**: a write that is admitted finds the bytes full. -/
theorem full_of_oversized (h : (b.consumeAt true bytes limit now).1 = true)
    (hlarge : limit * 2 < bytes) : (b.settle limit now).bytes = (limit * 2 : ℕ) := by
  rw [consumeAt_admits] at h
  rcases bytes_of_admits h (Nat.zero_lt_of_lt hlarge) with hle | ⟨-, hfull⟩
  · have hcap : (b.settle limit now).bytes ≤ (limit * 2 : ℕ) := settle_bytes_le
    have hcast : ((limit * 2 : ℕ) : ℚ) < bytes := Nat.cast_lt.mpr hlarge
    linarith
  · exact hfull

/-- A bucket that was last used by a time, under the limit or full of another one. -/
structure Proper (limit : ℕ) (t : ℚ) (b : RateBudget) : Prop where
  last_le : b.last ≤ t
  limit_eq : b.byteLimit = limit ∨ ((b.byteLimit * 2 : ℕ) : ℚ) ≤ b.bytes

theorem Proper.later (h : b.Proper limit t) (hle : t ≤ t') : b.Proper limit t' :=
  ⟨h.last_le.trans hle, h.limit_eq⟩

theorem Proper.new (hle : now ≤ t) : (RateBudget.new limit' now).Proper limit t :=
  ⟨hle, .inr le_rfl⟩

theorem Proper.consumeAt : (b.consumeAt write bytes limit now).2.Proper limit now :=
  ⟨consumeAt_last.le, .inl consumeAt_byteLimit⟩

theorem bytesFull_of_le (h : ((b.byteLimit * 2 : ℕ) : ℚ) ≤ b.bytes) : b.BytesFull now := by
  have hdelta : 0 ≤ b.delta now := delta_nonneg
  have hgrow := mul_nonneg hdelta (Nat.cast_nonneg (α := ℚ) b.byteLimit)
  rw [BytesFull]
  linarith

/-! ### Kinds of tokens -/

/-- One kind of the tokens of a bucket under a limit: what the bucket has of it, and what a call
takes. -/
structure Tokens (limit : ℕ) (amount : RateBudget → ℚ) (cost : Call → ℚ) (cap rate : ℚ) : Prop where
  cap_nonneg : 0 ≤ cap
  rate_nonneg : 0 ≤ rate
  cost_nonneg : ∀ c, 0 ≤ cost c
  le_cap : ∀ {b : RateBudget} {t}, amount (b.settle limit t) ≤ cap
  full : ∀ {b : RateBudget} {t}, b.fullyRefilled t = true → amount (b.settle limit t) = cap
  refill : ∀ {b : RateBudget} {t t'}, b.Proper limit t → t ≤ t' →
    amount (b.settle limit t') ≤ amount (b.settle limit t) + rate * (t' - t)
  settled : ∀ {b : RateBudget} {t}, b.last = t → b.byteLimit = limit →
    amount (b.settle limit t) ≤ amount b
  charge : ∀ {b : RateBudget} {c : Call}, amount (b.charge c.write c.bytes) + cost c = amount b
  afford : ∀ {b : RateBudget} {c : Call}, b.byteLimit = limit → b.admits c.write c.bytes = true →
    0 < cost c → cost c ≤ amount b ∨ cap < cost c ∧ amount b = cap

def readCost (c : Call) : ℚ := if c.write then 0 else 1

def writeCost (c : Call) : ℚ := if c.write then 1 else 0

def byteCost (c : Call) : ℚ := if c.write then c.bytes else 0

theorem delta_last (h : b.last = t) : b.delta t = 0 := by
  rw [delta, h, sub_self, max_self]

/-- A cap on what grows with the time. -/
theorem min_refill {x rate cap d : ℚ} (hrate : 0 ≤ rate * d) :
    min (x + rate * d) cap ≤ min x cap + rate * d := by
  rcases le_total x cap with hle | hle
  · rw [min_eq_left hle]
    exact min_le_left _ _
  · rw [min_eq_right hle]
    exact (min_le_right _ _).trans (by linarith)

theorem amount_refill (hb : b.Proper limit t) (hle : t ≤ t') {x rate cap : ℚ} (hrate : 0 ≤ rate) :
    min (x + b.delta t' * rate) cap ≤ min (x + b.delta t * rate) cap + rate * (t' - t) := by
  rw [delta_add hb.last_le hle, add_mul, ← add_assoc, mul_comm (t' - t)]
  exact min_refill (mul_nonneg hrate (sub_nonneg.mpr hle))

theorem reads_tokens : Tokens limit reads readCost 60 20 where
  cap_nonneg := by norm_num
  rate_nonneg := by norm_num
  cost_nonneg := fun c => by
    rw [readCost]
    split_ifs <;> norm_num
  le_cap := min_le_right _ _
  full := fun h => by rw [settle_full h, new]
  refill := fun {b t t'} hb hle => by
    rw [settle_reads, settle_reads]
    exact amount_refill hb hle (by norm_num)
  settled := fun {b t} hlast _ => by
    rw [settle_reads, delta_last hlast, zero_mul, add_zero]
    exact min_le_left _ _
  charge := fun {b c} => by
    rw [charge, readCost]
    cases c.write with
    | false => exact sub_add_cancel _ _
    | true => exact add_zero _
  afford := fun {b c} _ hadmits hcost => by
    have havailable := available_of_admits hadmits
    rw [readCost] at hcost ⊢
    cases hwrite : c.write with
    | false =>
      rw [hwrite] at havailable
      exact .inl havailable
    | true =>
      rw [hwrite, if_pos rfl] at hcost
      exact absurd hcost (lt_irrefl 0)

theorem writes_tokens : Tokens limit writes writeCost 10 2 where
  cap_nonneg := by norm_num
  rate_nonneg := by norm_num
  cost_nonneg := fun c => by
    rw [writeCost]
    split_ifs <;> norm_num
  le_cap := min_le_right _ _
  full := fun h => by rw [settle_full h, new]
  refill := fun {b t t'} hb hle => by
    rw [settle_writes, settle_writes]
    exact amount_refill hb hle (by norm_num)
  settled := fun {b t} hlast _ => by
    rw [settle_writes, delta_last hlast, zero_mul, add_zero]
    exact min_le_left _ _
  charge := fun {b c} => by
    rw [charge, writeCost]
    cases c.write with
    | false => exact add_zero _
    | true => exact sub_add_cancel _ _
  afford := fun {b c} _ hadmits hcost => by
    have havailable := available_of_admits hadmits
    rw [writeCost] at hcost ⊢
    cases hwrite : c.write with
    | true =>
      rw [hwrite] at havailable
      exact .inl havailable
    | false =>
      rw [hwrite, if_neg Bool.false_ne_true] at hcost
      exact absurd hcost (lt_irrefl 0)

/-- The bytes of a proper bucket, a while later. -/
theorem bytes_refill (hb : b.Proper limit t) (hle : t ≤ t') :
    (b.settle limit t').bytes ≤ (b.settle limit t).bytes + (limit : ℚ) / 2 * (t' - t) := by
  have hgrow : (0 : ℚ) ≤ (limit : ℚ) / 2 * (t' - t) :=
    mul_nonneg (div_nonneg (Nat.cast_nonneg _) (by norm_num)) (by linarith)
  by_cases hfull : b.BytesFull t
  · rw [settle_bytes_full hfull]
    have hcap : (b.settle limit t').bytes ≤ (limit * 2 : ℕ) := settle_bytes_le
    linarith
  · have hlimit : b.byteLimit = limit :=
      hb.limit_eq.resolve_right fun h => hfull (bytesFull_of_le h)
    rw [settle_bytes_owing hfull, hlimit]
    -- before the cap the bytes have grown by the time
    have hgrown : b.bytes + b.delta t' * limit / 2 =
        b.bytes + b.delta t * limit / 2 + (limit : ℚ) / 2 * (t' - t) := by
      rw [delta_add hb.last_le hle, add_mul]
      linarith
    have hmin : (b.settle limit t').bytes ≤
        min (b.bytes + b.delta t' * limit / 2) (limit * 2 : ℕ) := by
      refine le_min ?_ settle_bytes_le
      by_cases hfull' : b.BytesFull t'
      · rw [settle_bytes_full hfull']
        rw [BytesFull, hlimit] at hfull'
        exact hfull'
      · rw [settle_bytes_owing hfull', hlimit]
        exact min_le_left _ _
    rw [hgrown] at hmin
    exact hmin.trans (min_refill hgrow)

theorem bytes_tokens :
    Tokens limit RateBudget.bytes byteCost (limit * 2 : ℕ) ((limit : ℚ) / 2) where
  cap_nonneg := Nat.cast_nonneg _
  rate_nonneg := div_nonneg (Nat.cast_nonneg _) (by norm_num)
  cost_nonneg := fun c => by
    rw [byteCost]
    split_ifs
    · exact Nat.cast_nonneg _
    · exact le_rfl
  le_cap := settle_bytes_le
  full := fun h => by rw [settle_full h, new]
  refill := bytes_refill
  settled := fun {b t} hlast hlimit => by
    by_cases hfull : b.BytesFull t
    · rw [settle_bytes_full hfull]
      rw [BytesFull, delta_last hlast, zero_mul, zero_div, add_zero, hlimit] at hfull
      exact hfull
    · rw [settle_bytes_owing hfull, delta_last hlast, zero_mul, zero_div, add_zero]
      exact min_le_left _ _
  charge := fun {b c} => by
    rw [charge, byteCost]
    cases c.write with
    | false => exact add_zero _
    | true => exact sub_add_cancel _ _
  afford := fun {b c} hlimit hadmits hcost => by
    rw [byteCost] at hcost ⊢
    cases hwrite : c.write with
    | false =>
      rw [hwrite, if_neg Bool.false_ne_true] at hcost
      exact absurd hcost (lt_irrefl 0)
    | true =>
      rw [hwrite] at hadmits
      rw [hwrite, if_pos rfl] at hcost
      rw [if_pos rfl, ← hlimit]
      exact bytes_of_admits hadmits (Nat.cast_pos.mp hcost)

namespace Tokens

variable {amount : RateBudget → ℚ} {cost : Call → ℚ} {cap rate : ℚ} {c : Call}

/-- **A call takes its cost** from the bucket that serves it. -/
theorem spend (h : Tokens limit amount cost cap rate) (hc : c.limit = limit) :
    amount ((b.consumeAt c.write c.bytes c.limit c.served).2.settle limit c.served) +
        (if (b.consumeAt c.write c.bytes c.limit c.served).1 then cost c else 0) ≤
      amount (b.settle limit c.served) := by
  have hlast : (b.consumeAt c.write c.bytes c.limit c.served).2.last = c.served := consumeAt_last
  have hsettled := h.settled hlast (consumeAt_byteLimit.trans hc)
  rw [consumeAt_admits]
  rw [hc] at hsettled ⊢
  cases hadmits : (b.settle limit c.served).admits c.write c.bytes with
  | false =>
    rw [consumeAt_refused hadmits] at hsettled ⊢
    rw [if_neg Bool.false_ne_true, add_zero]
    exact hsettled
  | true =>
    have hcharge := h.charge (b := b.settle limit c.served) (c := c)
    rw [consumeAt_admitted hadmits] at hsettled ⊢
    rw [if_pos rfl]
    linarith

theorem pays (h : Tokens limit amount cost cap rate) (hc : c.limit = limit)
    (hadmits : (b.consumeAt c.write c.bytes c.limit c.served).1 = true) (hcost : 0 < cost c) :
    cost c ≤ amount (b.settle limit c.served) ∨
      cap < cost c ∧ amount (b.settle limit c.served) = cap := by
  rw [consumeAt_admits, hc] at hadmits
  exact h.afford settle_byteLimit hadmits hcost

end Tokens

end RateBudget

end BasisRust.Storage
