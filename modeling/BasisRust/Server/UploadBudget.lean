import BasisRust.Library.Meter
import Mathlib.Data.List.Basic

/-!
# The upload budget

`upload_budget.rs` bounds what a connection may upload: a bucket with credit for two seconds of the
rate, counted in bytes and nanoseconds.  A reliable message that is larger than the whole bucket
passes when the bucket is full; what it costs beyond the bucket becomes a debt, which is repaid
before new credit is earned.

The arithmetic is that of `u128`: an operation that would overflow or underflow gives no result, and
the two saturating ones stop at the greatest value.  Instants are nanoseconds.
-/

namespace BasisRust.Server

open Library

namespace UploadBudget

def nanosPerSecond : ℕ := 1000000000

def burstSeconds : ℕ := 2

/-! ### `u128` -/

def u128Max : ℕ := 2 ^ 128 - 1

def mul128 (a b : ℕ) : Option ℕ := if a * b ≤ u128Max then some (a * b) else none

def sub128 (a b : ℕ) : Option ℕ := if b ≤ a then some (a - b) else none

def satAdd128 (a b : ℕ) : ℕ := min (a + b) u128Max

def satMul128 (a b : ℕ) : ℕ := min (a * b) u128Max

theorem mul128_eq {a b : ℕ} (h : a * b ≤ u128Max) : mul128 a b = some (a * b) := if_pos h

theorem sub128_eq {a b : ℕ} (h : b ≤ a) : sub128 a b = some (a - b) := if_pos h

/-! ### The bucket -/

structure Bucket where
  rate : BitVec 64
  tokens : ℕ
  debt : ℕ
  lastRefill : Option ℕ
  deriving DecidableEq

namespace Bucket

/-- `Bucket::default`. -/
def empty : Bucket := ⟨0, 0, 0, none⟩

/-- The tokens and the debt after the refill; a bucket starts full. -/
def refill (b : Bucket) (capacity now : ℕ) : Option (ℕ × ℕ) :=
  match b.lastRefill with
  | some previous => do
    let refill := satMul128 (now - previous) b.rate.toNat
    let repayment := min refill b.debt
    let debt ← sub128 b.debt repayment
    let earned ← sub128 refill repayment
    some (min (satAdd128 b.tokens earned) capacity, debt)
  | none => some (capacity, b.debt)

def admitAt (b : Bucket) (rate bytes : BitVec 64) (now : ℕ) (reliable : Bool) :
    Option (Bool × Bucket) :=
  if rate = 0 then some (true, { b with rate := 0, lastRefill := none, debt := 0 })
  else do
    let capacity ← (mul128 rate.toNat burstSeconds).bind fun n => mul128 n nanosPerSecond
    let (tokens, debt) ← b.refill capacity now
    let cost ← mul128 bytes.toNat nanosPerSecond
    if tokens < cost then
      -- one reliable message larger than the bucket may spend all of a full one
      if reliable ∧ capacity < cost ∧ tokens = capacity ∧ debt = 0 then do
        let owed ← sub128 cost capacity
        some (true, ⟨rate, 0, owed, some now⟩)
      else some (false, ⟨rate, tokens, debt, some now⟩)
    else do
      let left ← sub128 tokens cost
      some (true, ⟨rate, left, debt, some now⟩)

/-! ### What is due -/

/-- Two seconds of a rate, in bytes and nanoseconds. -/
def capacity (rate : BitVec 64) : ℕ := rate.toNat * burstSeconds * nanosPerSecond

/-- The bucket after the refill that is due at a time: the debt is repaid first. -/
def due (b : Bucket) (rate : BitVec 64) (now : ℕ) : Bucket :=
  match b.lastRefill with
  | none => ⟨rate, capacity rate, b.debt, some now⟩
  | some previous =>
    ⟨rate, min (b.tokens + ((now - previous) * b.rate.toNat - b.debt)) (capacity rate),
      b.debt - (now - previous) * b.rate.toNat, some now⟩

def pay (b : Bucket) (cost : ℕ) : Bucket := { b with tokens := b.tokens - cost }

def overdraw (b : Bucket) (debt : ℕ) : Bucket := { b with tokens := 0, debt := debt }

@[simp] theorem pay_debt (b : Bucket) (cost : ℕ) : (b.pay cost).debt = b.debt := rfl

@[simp] theorem pay_lastRefill (b : Bucket) (cost : ℕ) :
    (b.pay cost).lastRefill = b.lastRefill := rfl

@[simp] theorem overdraw_lastRefill (b : Bucket) (debt : ℕ) :
    (b.overdraw debt).lastRefill = b.lastRefill := rfl

/-- The bucket admits a message, or not, after the refill. -/
def settle (b : Bucket) (rate bytes : BitVec 64) (reliable : Bool) : Bool × Bucket :=
  let cost := bytes.toNat * nanosPerSecond
  if cost ≤ b.tokens then (true, b.pay cost)
  else if reliable ∧ capacity rate < cost ∧ b.tokens = capacity rate ∧ b.debt = 0 then
    (true, b.overdraw (cost - capacity rate))
  else (false, b)

/-- A bucket of a connection whose rate has always been `rate`. -/
structure Proper (rate : BitVec 64) (b : Bucket) : Prop where
  same : ∀ previous, b.lastRefill = some previous → b.rate = rate
  apart : b.tokens = 0 ∨ b.debt = 0
  capped : b.tokens ≤ capacity rate
  owed : b.debt < 2 ^ 64 * nanosPerSecond
  fresh : b.lastRefill = none → b.debt = 0

variable {rate bytes : BitVec 64} {b b' : Bucket} {now : ℕ} {reliable passes : Bool}

theorem empty_proper (rate : BitVec 64) : Proper rate empty where
  same := nofun
  apart := .inl rfl
  capped := Nat.zero_le _
  owed := by decide
  fresh _ := rfl

theorem capacity_le (rate : BitVec 64) :
    capacity rate < 2 ^ 64 * burstSeconds * nanosPerSecond := by
  have hlt := rate.isLt
  rw [capacity, burstSeconds, nanosPerSecond]
  omega

theorem Proper.due (h : Proper rate b) (now : ℕ) : Proper rate (b.due rate now) := by
  have howed := h.owed
  rw [Bucket.due]
  cases hlast : b.lastRefill with
  | none => exact ⟨fun _ _ => rfl, .inr (h.fresh hlast), le_rfl, howed, nofun⟩
  | some previous =>
    refine ⟨fun _ _ => rfl, ?_, min_le_right _ _, (Nat.sub_le _ _).trans_lt howed, nofun⟩
    show min _ _ = 0 ∨ b.debt - _ = 0
    rcases h.apart with hzero | hzero
    · rw [hzero]
      omega
    · omega

/-- What saturates is beyond anything the bucket can hold. -/
theorem saturated_eq (tokens refill : ℕ) {debt cap : ℕ} (howed : debt < 2 ^ 64 * nanosPerSecond)
    (hcap : cap < 2 ^ 64 * burstSeconds * nanosPerSecond) :
    min (satAdd128 tokens (min refill u128Max - min (min refill u128Max) debt)) cap =
        min (tokens + (refill - debt)) cap ∧
      debt - min (min refill u128Max) debt = debt - refill := by
  have hbig : cap + debt ≤ u128Max := by
    rw [burstSeconds, nanosPerSecond] at hcap
    rw [nanosPerSecond] at howed
    rw [u128Max]
    omega
  rw [satAdd128]
  generalize u128Max = most at hbig
  omega

theorem refill_eq (h : Proper rate b) (now : ℕ) :
    b.refill (capacity rate) now = some ((b.due rate now).tokens, (b.due rate now).debt) := by
  rw [Bucket.due, Bucket.refill]
  cases hlast : b.lastRefill with
  | none => rfl
  | some previous =>
    dsimp only
    rw [satMul128]
    generalize (now - previous) * b.rate.toNat = refill
    rw [sub128_eq (min_le_right _ _), sub128_eq (min_le_left _ _), Option.bind_eq_bind,
      Option.bind_some, Option.bind_some]
    obtain ⟨htokens, hdebt⟩ := saturated_eq b.tokens refill h.owed (capacity_le rate)
    rw [htokens, hdebt]

theorem due_rate (b : Bucket) (rate : BitVec 64) (now : ℕ) :
    (b.due rate now).rate = rate ∧ (b.due rate now).lastRefill = some now := by
  rw [Bucket.due]
  cases b.lastRefill <;> exact ⟨rfl, rfl⟩

/-- **No operation fails**, and saturation makes no difference. -/
theorem admitAt_eq (hrate : rate ≠ 0) (h : Proper rate b) (bytes : BitVec 64) (now : ℕ)
    (reliable : Bool) :
    b.admitAt rate bytes now reliable = some ((b.due rate now).settle rate bytes reliable) := by
  have hlt := rate.isLt
  have hbytes := bytes.isLt
  have hcapacity : ((mul128 rate.toNat burstSeconds).bind fun n => mul128 n nanosPerSecond) =
      some (capacity rate) := by
    rw [mul128_eq (by rw [burstSeconds, u128Max]; omega), Option.bind_some,
      mul128_eq (by rw [burstSeconds, nanosPerSecond, u128Max]; omega), capacity]
  have hcost : mul128 bytes.toNat nanosPerSecond = some (bytes.toNat * nanosPerSecond) :=
    mul128_eq (by rw [nanosPerSecond, u128Max]; omega)
  rw [admitAt, if_neg hrate, hcapacity, Option.bind_eq_bind, Option.bind_some, refill_eq h now,
    Option.bind_eq_bind, Option.bind_some]
  dsimp only
  rw [hcost, Option.bind_some]
  obtain ⟨hsame, hlast⟩ := b.due_rate rate now
  rw [settle]
  by_cases hpoor : (b.due rate now).tokens < bytes.toNat * nanosPerSecond
  · rw [if_pos hpoor, if_neg (not_le.mpr hpoor)]
    by_cases hlarge : reliable = true ∧ capacity rate < bytes.toNat * nanosPerSecond ∧
        (b.due rate now).tokens = capacity rate ∧ (b.due rate now).debt = 0
    · rw [if_pos hlarge, if_pos hlarge, sub128_eq hlarge.2.1.le, Option.bind_some,
        Bucket.overdraw, hsame, hlast]
    · rw [if_neg hlarge, if_neg hlarge]
      generalize b.due rate now = b' at hsame hlast
      obtain ⟨r, tokens, debt, last⟩ := b'
      cases hsame
      cases hlast
      rfl
  · rw [if_neg hpoor, if_pos (not_lt.mp hpoor), sub128_eq (not_lt.mp hpoor), Option.bind_some,
      Bucket.pay, hsame, hlast]

theorem oversized_debt_lt (bytes rate : BitVec 64) :
    bytes.toNat * nanosPerSecond - capacity rate < 2 ^ 64 * nanosPerSecond := by
  have hbytes := bytes.isLt
  rw [nanosPerSecond]
  omega

theorem Proper.pay (h : Proper rate b) (cost : ℕ) : Proper rate (b.pay cost) where
  __ := h
  apart := h.apart.imp (fun hzero => show b.tokens - cost = 0 by omega) id
  capped := (Nat.sub_le _ _).trans h.capped

theorem Proper.overdraw (h : Proper rate b) (hlast : b.lastRefill ≠ none) {debt : ℕ}
    (hdebt : debt < 2 ^ 64 * nanosPerSecond) : Proper rate (b.overdraw debt) where
  same := h.same
  apart := .inl rfl
  capped := Nat.zero_le _
  owed := hdebt
  fresh hnone := absurd hnone hlast

theorem Proper.settle (h : Proper rate b) (hlast : b.lastRefill ≠ none) (bytes : BitVec 64)
    (reliable : Bool) : Proper rate (b.settle rate bytes reliable).2 := by
  rw [Bucket.settle]
  split_ifs with hpays hlarge
  · exact h.pay _
  · exact h.overdraw hlast (oversized_debt_lt bytes rate)
  · exact h

/-- Credit and debt as one balance. -/
def meter (b : Bucket) (last : ℕ) : Meter := ⟨(b.tokens : ℚ) - b.debt, last⟩

/-- **The refill that is due** is that of the balance. -/
theorem due_meter (h : Proper rate b) {last : ℕ} (hlast : b.lastRefill = some last)
    (hnow : last ≤ now) :
    (b.due rate now).meter now = (b.meter last).refill rate.toNat (capacity rate) now := by
  have hsame := h.same last hlast
  have hapart := h.apart
  have hlater : (last : ℚ) ≤ now := by exact_mod_cast hnow
  have hearned : (rate.toNat : ℚ) * ((now : ℚ) - last) = (((now - last) * rate.toNat : ℕ) : ℚ) := by
    push_cast [Nat.cast_sub hnow]
    exact mul_comm _ _
  rw [Meter.refill, meter, meter, due, hlast]
  dsimp only
  rw [hsame, max_eq_right (sub_nonneg.mpr hlater), hearned, max_eq_right hlater]
  generalize (now - last) * rate.toNat = earned
  have hbalance : ((min (b.tokens + (earned - b.debt)) (capacity rate) : ℕ) : ℚ) -
      ((b.debt - earned : ℕ) : ℚ) = min ((b.tokens : ℚ) - b.debt + earned) (capacity rate) := by
    have hcapped := h.capped
    rcases le_total earned b.debt with hless | hmore
    · -- the debt takes all
      rw [Nat.sub_eq_zero_of_le hless, Nat.add_zero, min_eq_left hcapped, Nat.cast_sub hless,
        min_eq_left]
      · linarith
      · have hless' : (earned : ℚ) ≤ b.debt := by exact_mod_cast hless
        have hcapped' : (b.tokens : ℚ) ≤ capacity rate := by exact_mod_cast hcapped
        linarith
    · rw [Nat.sub_eq_zero_of_le hmore, Nat.cast_min, Nat.cast_add, Nat.cast_sub hmore,
        Nat.cast_zero, sub_zero]
      congr 1
      linarith
  rw [hbalance]

theorem meter_pay {cost : ℕ} (hcost : cost ≤ b.tokens) (last : ℕ) :
    (b.pay cost).meter last = (b.meter last).spend cost := by
  rw [meter, meter, Meter.spend, pay, Nat.cast_sub hcost]
  congr 1
  linarith

/-- A message beyond the credit of a full bucket is paid for by the credit and the debt. -/
theorem meter_overdraw {cost : ℕ} (hcost : b.tokens ≤ cost) (hdebt : b.debt = 0) (last : ℕ) :
    (b.overdraw (cost - b.tokens)).meter last = (b.meter last).spend cost := by
  rw [meter, meter, Meter.spend, overdraw, Nat.cast_sub hcost, hdebt]
  congr 1
  push_cast
  linarith

end Bucket

/-! ### Messages -/

structure Message where
  bytes : BitVec 64
  now : ℕ
  reliable : Bool
  deriving DecidableEq

/-- The messages of a connection one after another, and those of them that are admitted. -/
def run (rate : BitVec 64) : Bucket → List Message → Option (Bucket × List Message)
  | b, [] => some (b, [])
  | b, m :: messages => do
    let (passes, b₁) ← b.admitAt rate m.bytes m.now m.reliable
    let (b₂, admitted) ← run rate b₁ messages
    some (b₂, if passes then m :: admitted else admitted)

def totalBytes (messages : List Message) : ℕ := (messages.map fun m => m.bytes.toNat).sum

theorem totalBytes_append (l l' : List Message) :
    totalBytes (l ++ l') = totalBytes l + totalBytes l' := by
  rw [totalBytes, List.map_append, List.sum_append]
  rfl

theorem totalBytes_singleton (m : Message) : totalBytes [m] = m.bytes.toNat := by
  rw [totalBytes, List.map_singleton, List.sum_singleton]

/-- Two seconds of the rate and the rate of the time between `t₁` and `t₂`. -/
def Within (rate : BitVec 64) (t₁ t₂ : ℕ) (admitted : List Message) : Prop :=
  totalBytes admitted * nanosPerSecond ≤
    Bucket.capacity rate + rate.toNat * (t₂ - t₁)

/-- A reliable message larger than two seconds of the rate. -/
def Oversized (rate : BitVec 64) (m : Message) : Prop :=
  m.reliable = true ∧ rate.toNat * burstSeconds < m.bytes.toNat

/-- The last of the messages is oversized, and those before it are within the rate of the time. -/
def EndsOversized (rate : BitVec 64) (t₁ t₂ : ℕ) (admitted : List Message) : Prop :=
  ∃ before m, admitted = before ++ [m] ∧ Oversized rate m ∧
    totalBytes before * nanosPerSecond ≤ rate.toNat * (t₂ - t₁)

/-- The messages that have bytes. -/
def nonempty (messages : List Message) : List Message := messages.filter fun m => m.bytes ≠ 0

theorem totalBytes_nonempty (messages : List Message) :
    totalBytes (nonempty messages) = totalBytes messages := by
  induction messages with
  | nil => rfl
  | cons m messages ih =>
    rw [nonempty, List.filter_cons]
    split_ifs with hbytes
    · exact congrArg (m.bytes.toNat + ·) ih
    · have hzero : m.bytes = 0 := by simpa using hbytes
      show totalBytes (nonempty messages) = m.bytes.toNat + totalBytes messages
      rw [hzero, ih]
      exact (Nat.zero_add _).symm

/-! ### The account of an interval -/

/-- What was admitted since the first message of an interval.  While there is a debt, nothing with
bytes has been admitted, or the last of it was oversized. -/
structure Account (rate : BitVec 64) (t₁ t₂ : ℕ) (admitted : List Message) (b : Bucket)
    (last : ℕ) : Prop where
  ordered : t₁ ≤ t₂
  refilled : b.lastRefill = some last
  metered : Meter.Metered rate.toNat (Bucket.capacity rate) t₁ t₂
    ((totalBytes admitted * nanosPerSecond : ℕ) : ℚ) (b.meter last)
  owing : b.debt = 0 ∨ totalBytes admitted = 0 ∨ EndsOversized rate t₁ t₂ (nonempty admitted)

variable {rate : BitVec 64} {t₁ t₂ now last : ℕ} {b : Bucket} {admitted : List Message}
  {messages : List Message} {m : Message}

/-- **The first message** of an interval refills the bucket. -/
theorem Account.start (h : b.Proper rate) (hlast : ∀ last, b.lastRefill = some last → last ≤ now)
    (hnow : t₁ ≤ now) (ht : t₁ ≤ t₂) : Account rate t₁ t₂ [] (b.due rate now) now := by
  refine ⟨ht, (b.due_rate rate now).2, ?_, .inr (.inl rfl)⟩
  have hrate : (0 : ℚ) ≤ rate.toNat := Nat.cast_nonneg _
  have hnow' : (t₁ : ℚ) ≤ now := by exact_mod_cast hnow
  have ht' : (t₁ : ℚ) ≤ t₂ := by exact_mod_cast ht
  show Meter.Metered _ _ _ _ ((0 * nanosPerSecond : ℕ) : ℚ) _
  rw [Nat.zero_mul, Nat.cast_zero]
  cases hold : b.lastRefill with
  | some previous =>
    rw [Bucket.due_meter h hold (hlast previous hold)]
    exact .start hrate hnow' ht'
  | none =>
    -- a new bucket is as good as one that was just refilled
    have hmeter : (b.due rate now).meter now =
        Meter.refill rate.toNat (Bucket.capacity rate) ⟨Bucket.capacity rate, now⟩ now := by
      rw [Bucket.due, hold, Bucket.meter, Meter.refill, h.fresh hold]
      simp
    rw [hmeter]
    exact .start hrate hnow' ht'

theorem Account.due (hacc : Account rate t₁ t₂ admitted b last) (h : b.Proper rate)
    (hnow : last ≤ now) (ht : now ≤ t₂) : Account rate t₁ t₂ admitted (b.due rate now) now := by
  refine ⟨hacc.ordered, (b.due_rate rate now).2, ?_, hacc.owing.imp (fun hzero => ?_) id⟩
  · rw [Bucket.due_meter h hacc.refilled hnow]
    exact hacc.metered.refill (by exact_mod_cast ht)
  · rw [Bucket.due, hacc.refilled]
    show b.debt - _ = 0
    rw [hzero, Nat.zero_sub]

/-- The cost of a message is that of its bytes. -/
theorem totalBytes_admit (admitted : List Message) (m : Message) :
    ((totalBytes (admitted ++ [m]) * nanosPerSecond : ℕ) : ℚ) =
      ((totalBytes admitted * nanosPerSecond : ℕ) : ℚ) +
        ((m.bytes.toNat * nanosPerSecond : ℕ) : ℚ) := by
  rw [totalBytes_append, totalBytes_singleton, Nat.add_mul, Nat.cast_add]

theorem nonempty_admit_empty (admitted : List Message) (hbytes : m.bytes = 0) :
    nonempty (admitted ++ [m]) = nonempty admitted := by
  rw [nonempty, List.filter_append, List.filter_cons_of_neg (by simpa using hbytes)]
  exact List.append_nil _

theorem nonempty_admit (admitted : List Message) (hbytes : m.bytes ≠ 0) :
    nonempty (admitted ++ [m]) = nonempty admitted ++ [m] := by
  rw [nonempty, List.filter_append, List.filter_cons_of_pos (by simpa using hbytes)]
  rfl

section

variable (hacc : Account rate t₁ t₂ admitted b last)
include hacc

/-- **A message that the credit pays for.**  Without credit only one without bytes is. -/
theorem Account.pay (h : b.Proper rate) (m : Message)
    (hpays : m.bytes.toNat * nanosPerSecond ≤ b.tokens) :
    Account rate t₁ t₂ (admitted ++ [m]) (b.pay (m.bytes.toNat * nanosPerSecond)) last := by
  refine ⟨hacc.ordered, by rw [Bucket.pay_lastRefill, hacc.refilled], ?_, ?_⟩
  · rw [Bucket.meter_pay hpays, totalBytes_admit]
    exact hacc.metered.spend (Nat.cast_nonneg _)
  · rw [Bucket.pay_debt]
    rcases h.apart with hzero | hzero
    · have hnone : m.bytes.toNat = 0 := by
        rw [hzero, nanosPerSecond] at hpays
        omega
      rw [nonempty_admit_empty admitted (BitVec.eq_of_toNat_eq hnone), totalBytes_append,
        totalBytes_singleton, hnone]
      exact hacc.owing
    · exact .inl hzero

/-- Without a debt, what was admitted and the credit are within the burst and the rate of the
time. -/
theorem Account.spent_le (hdebt : b.debt = 0) :
    totalBytes admitted * nanosPerSecond + b.tokens ≤
      Bucket.capacity rate + rate.toNat * (t₂ - t₁) := by
  have hspent := hacc.metered.spent_le (Nat.cast_nonneg _)
  have hbalance : (b.meter last).balance = b.tokens := by
    show (b.tokens : ℚ) - b.debt = _
    rw [hdebt, Nat.cast_zero, sub_zero]
  have htime : ((rate.toNat * (t₂ - t₁) : ℕ) : ℚ) = (rate.toNat : ℚ) * ((t₂ : ℚ) - t₁) := by
    rw [Nat.cast_mul, Nat.cast_sub hacc.ordered]
  have hcast : ((totalBytes admitted * nanosPerSecond + b.tokens : ℕ) : ℚ) ≤
      ((Bucket.capacity rate + rate.toNat * (t₂ - t₁) : ℕ) : ℚ) := by
    rw [hbalance] at hspent
    rw [Nat.cast_add, Nat.cast_add, htime]
    linarith
  exact_mod_cast hcast

/-- **An oversized message** passes when the bucket is full. -/
theorem Account.overdraw (m : Message)
    (hreliable : m.reliable = true) (hlarge : b.tokens < m.bytes.toNat * nanosPerSecond)
    (hfull : b.tokens = Bucket.capacity rate) (hdebt : b.debt = 0) :
    Account rate t₁ t₂ (admitted ++ [m])
      (b.overdraw (m.bytes.toNat * nanosPerSecond - b.tokens)) last := by
  refine ⟨hacc.ordered, by rw [Bucket.overdraw_lastRefill, hacc.refilled], ?_, .inr (.inr ?_)⟩
  · rw [Bucket.meter_overdraw hlarge.le hdebt, totalBytes_admit]
    exact hacc.metered.spend (Nat.cast_nonneg _)
  · have hbytes : m.bytes ≠ 0 := by
      intro hnone
      rw [hnone] at hlarge
      exact absurd hlarge (by simp)
    have hover : rate.toNat * burstSeconds < m.bytes.toNat := by
      rw [hfull, Bucket.capacity, nanosPerSecond] at hlarge
      omega
    refine ⟨nonempty admitted, m, nonempty_admit admitted hbytes, ⟨hreliable, hover⟩, ?_⟩
    have hspent := hacc.spent_le hdebt
    rw [totalBytes_nonempty]
    omega

theorem Account.settle (h : b.Proper rate) (m : Message) :
    Account rate t₁ t₂
      (admitted ++ if (b.settle rate m.bytes m.reliable).1 then [m] else [])
      (b.settle rate m.bytes m.reliable).2 last := by
  by_cases hpays : m.bytes.toNat * nanosPerSecond ≤ b.tokens
  · rw [Bucket.settle, if_pos hpays, if_pos rfl]
    exact hacc.pay h m hpays
  · rw [Bucket.settle, if_neg hpays]
    by_cases hlarge : m.reliable = true ∧
        Bucket.capacity rate < m.bytes.toNat * nanosPerSecond ∧
        b.tokens = Bucket.capacity rate ∧ b.debt = 0
    · rw [if_pos hlarge, if_pos rfl, ← hlarge.2.2.1]
      exact hacc.overdraw m hlarge.1 (not_le.mp hpays) hlarge.2.2.1 hlarge.2.2.2
    · rw [if_neg hlarge, if_neg Bool.false_ne_true, List.append_nil]
      exact hacc

end

/-! ### Runs -/

/-- What a message does to a proper bucket. -/
def serve (rate : BitVec 64) (b : Bucket) (m : Message) : Bool × Bucket :=
  (b.due rate m.now).settle rate m.bytes m.reliable

theorem serve_lastRefill (rate : BitVec 64) (b : Bucket) (m : Message) :
    (serve rate b m).2.lastRefill = some m.now := by
  have hdue := (b.due_rate rate m.now).2
  rw [serve, Bucket.settle]
  split_ifs
  · rw [Bucket.pay_lastRefill, hdue]
  · rw [Bucket.overdraw_lastRefill, hdue]
  · exact hdue

theorem serve_proper (h : b.Proper rate) (m : Message) : (serve rate b m).2.Proper rate := by
  have hdue := (b.due_rate rate m.now).2
  exact (h.due m.now).settle (by rw [hdue]; exact Option.some_ne_none _) m.bytes m.reliable

/-- **A refused message** leaves what the refill made. -/
theorem serve_refused (hrefused : (serve rate b m).1 = false) :
    (serve rate b m).2 = b.due rate m.now := by
  rw [serve, Bucket.settle] at hrefused ⊢
  split_ifs at hrefused ⊢
  rfl

theorem admitAt_serve (hrate : rate ≠ 0) (h : b.Proper rate) (m : Message) :
    b.admitAt rate m.bytes m.now m.reliable = some (serve rate b m) :=
  Bucket.admitAt_eq hrate h m.bytes m.now m.reliable

theorem run_cons (hrate : rate ≠ 0) (h : b.Proper rate) (m : Message) (messages : List Message) :
    run rate b (m :: messages) = (run rate (serve rate b m).2 messages).map fun (b', admitted) =>
      (b', (if (serve rate b m).1 then [m] else []) ++ admitted) := by
  rw [run, admitAt_serve hrate h]
  generalize serve rate b m = served
  obtain ⟨passes, b₁⟩ := served
  show (run rate b₁ messages >>= _) = _
  cases hrest : run rate b₁ messages with
  | none => rfl
  | some ends =>
    obtain ⟨b₂, admitted⟩ := ends
    cases passes <;> rfl

/-- **No operation fails** in a run, and the bucket stays proper. -/
theorem run_proper (hrate : rate ≠ 0) (h : b.Proper rate) (messages : List Message) :
    ∃ b' admitted, run rate b messages = some (b', admitted) ∧ b'.Proper rate ∧
      admitted.Sublist messages ∧
      ∀ last, b'.lastRefill = some last →
        b.lastRefill = some last ∨ ∃ m ∈ messages, m.now = last := by
  induction messages generalizing b with
  | nil => exact ⟨b, [], rfl, h, .slnil, fun _ hlast => .inl hlast⟩
  | cons m messages ih =>
    obtain ⟨b', admitted, hrun, hproper, hsub, hlast⟩ := ih (serve_proper h m)
    refine ⟨b', _, by rw [run_cons hrate h, hrun, Option.map_some], hproper, ?_, fun last hb' => ?_⟩
    · cases (serve rate b m).1
      · exact hsub.cons m
      · exact hsub.cons_cons m
    · rcases hlast last hb' with hold | ⟨m', hm', hnow⟩
      · rw [serve_lastRefill] at hold
        exact .inr ⟨m, .head _, Option.some.inj hold⟩
      · exact .inr ⟨m', .tail _ hm', hnow⟩

theorem run_append (messages messages' : List Message) {b' b'' : Bucket}
    {admitted admitted' : List Message} (hrun : run rate b messages = some (b', admitted))
    (hrun' : run rate b' messages' = some (b'', admitted')) :
    run rate b (messages ++ messages') = some (b'', admitted ++ admitted') := by
  induction messages generalizing b admitted with
  | nil =>
    cases hrun
    exact hrun'
  | cons m messages ih =>
    rw [run, Option.bind_eq_bind] at hrun
    obtain ⟨⟨passes, b₁⟩, hadmit, hrest⟩ := Option.bind_eq_some_iff.mp hrun
    obtain ⟨⟨b₂, l⟩, hl, hends⟩ := Option.bind_eq_some_iff.mp hrest
    cases hends
    rw [List.cons_append, run, hadmit, Option.bind_eq_bind, Option.bind_some]
    show (run rate b₁ (messages ++ messages') >>= _) = _
    rw [ih hl, Option.bind_eq_bind, Option.bind_some]
    cases passes <;> rfl

/-- **The account of a stretch** after its first message. -/
theorem Account.run (hrate : rate ≠ 0) (hacc : Account rate t₁ t₂ admitted b last)
    (h : b.Proper rate) (hclock : messages.Pairwise fun m m' => m.now ≤ m'.now)
    (hlast : ∀ m ∈ messages, last ≤ m.now) (ht : ∀ m ∈ messages, m.now ≤ t₂)
    {b' : Bucket} {admitted' : List Message}
    (hrun : UploadBudget.run rate b messages = some (b', admitted')) :
    ∃ last', Account rate t₁ t₂ (admitted ++ admitted') b' last' := by
  induction messages generalizing b admitted admitted' last with
  | nil =>
    cases hrun
    rw [List.append_nil]
    exact ⟨last, hacc⟩
  | cons m messages ih =>
    obtain ⟨hnext, hclock⟩ := List.pairwise_cons.mp hclock
    have hacc := (hacc.due h (hlast m (.head _)) (ht m (.head _))).settle
      (h.due m.now) m
    rw [run_cons hrate h] at hrun
    obtain ⟨⟨b₂, l⟩, hl, hends⟩ := Option.map_eq_some_iff.mp hrun
    cases hends
    rw [← List.append_assoc]
    exact ih hacc (serve_proper h m) hclock hnext (fun m' hm' => ht m' (.tail _ hm')) hl

/-- What the account of a stretch says about what was admitted. -/
theorem Account.bound (hacc : Account rate t₁ t₂ admitted b last) :
    Within rate t₁ t₂ admitted ∨ EndsOversized rate t₁ t₂ (nonempty admitted) := by
  rcases hacc.owing with hdebt | hnone | hends
  · left
    rw [Within]
    exact (Nat.le_add_right _ _).trans (hacc.spent_le hdebt)
  · left
    rw [Within, hnone, Nat.zero_mul]
    exact Nat.zero_le _
  · exact .inr hends

/-! ### Intervals -/

/-- The messages of an interval of time. -/
def inInterval (t₁ t₂ : ℕ) (messages : List Message) : List Message :=
  messages.filter fun m => t₁ ≤ m.now ∧ m.now ≤ t₂

theorem inInterval_eq_nil (h : ∀ m ∈ messages, m.now < t₁ ∨ t₂ < m.now) :
    inInterval t₁ t₂ messages = [] := by
  apply List.filter_eq_nil_iff.mpr
  intro m hm hin
  have hin := of_decide_eq_true hin
  have hout := h m hm
  omega

theorem inInterval_eq_self (h : ∀ m ∈ messages, t₁ ≤ m.now ∧ m.now ≤ t₂) :
    inInterval t₁ t₂ messages = messages :=
  List.filter_eq_self.mpr fun m hm => decide_eq_true (h m hm)

/-- Messages in the order of time are those before a time and those from it on. -/
theorem exists_split (hclock : messages.Pairwise fun m m' => m.now ≤ m'.now) (t : ℕ) :
    ∃ early late, messages = early ++ late ∧ (∀ m ∈ early, m.now < t) ∧ ∀ m ∈ late, t ≤ m.now := by
  induction messages with
  | nil => exact ⟨[], [], rfl, nofun, fun _ hm =>
      absurd hm List.not_mem_nil⟩
  | cons m messages ih =>
    obtain ⟨hnext, hclock⟩ := List.pairwise_cons.mp hclock
    by_cases hearly : m.now < t
    · obtain ⟨early, late, hsplit, hbefore, hafter⟩ := ih hclock
      refine ⟨m :: early, late, congrArg (m :: ·) hsplit, fun m' hm' => ?_, hafter⟩
      rcases List.mem_cons.mp hm' with heq | hm'
      · rwa [heq]
      · exact hbefore m' hm'
    · refine ⟨[], m :: messages, rfl, nofun, fun m' hm' => ?_⟩
      rcases List.mem_cons.mp hm' with heq | hm'
      · rw [heq]
        exact not_lt.mp hearly
      · exact (not_lt.mp hearly).trans (hnext m' hm')

/-- **A stretch of messages** that lies in an interval, from any proper bucket. -/
theorem stretch_bound (hrate : rate ≠ 0) (h : b.Proper rate) (ht : t₁ ≤ t₂)
    (hclock : messages.Pairwise fun m m' => m.now ≤ m'.now)
    (hlast : ∀ last, b.lastRefill = some last → ∀ m ∈ messages, last ≤ m.now)
    (hin : ∀ m ∈ messages, t₁ ≤ m.now ∧ m.now ≤ t₂) {b' : Bucket}
    (hrun : run rate b messages = some (b', admitted)) :
    Within rate t₁ t₂ admitted ∨ EndsOversized rate t₁ t₂ (nonempty admitted) := by
  cases messages with
  | nil =>
    cases hrun
    left
    rw [Within, totalBytes, List.map_nil, List.sum_nil, Nat.zero_mul]
    exact Nat.zero_le _
  | cons m messages =>
    obtain ⟨hnext, hclock⟩ := List.pairwise_cons.mp hclock
    have hm := hin m (.head _)
    have hacc := (Account.start h (fun last hb => hlast last hb m (.head _)) hm.1 ht).settle
      (h.due m.now) m
    rw [run_cons hrate h] at hrun
    obtain ⟨⟨b₂, l⟩, hl, hends⟩ := Option.map_eq_some_iff.mp hrun
    cases hends
    rw [List.nil_append] at hacc
    obtain ⟨last', hacc⟩ := hacc.run hrate (serve_proper h m) hclock hnext
      (fun m' hm' => (hin m' (.tail _ hm')).2) hl
    exact hacc.bound

/-- **The bound of every interval** of every run of a new bucket. -/
theorem run_bound (hrate : rate ≠ 0) (hclock : messages.Pairwise fun m m' => m.now ≤ m'.now)
    (ht : t₁ ≤ t₂) (hrun : run rate Bucket.empty messages = some (b, admitted)) :
    Within rate t₁ t₂ (inInterval t₁ t₂ admitted) ∨
      EndsOversized rate t₁ t₂ (nonempty (inInterval t₁ t₂ admitted)) := by
  obtain ⟨before, rest, hsplit, hbefore, hrest⟩ := exists_split hclock t₁
  rw [hsplit] at hrun hclock
  obtain ⟨-, hclock, hacross⟩ := List.pairwise_append.mp hclock
  obtain ⟨during, after, hsplit', hduring, hafter⟩ := exists_split hclock (t₂ + 1)
  obtain ⟨b₁, a₁, hrun₁, hproper₁, hsub₁, hlast₁⟩ :=
    run_proper hrate (Bucket.empty_proper rate) before
  obtain ⟨b₂, a₂, hrun₂, hproper₂, hsub₂, -⟩ := run_proper hrate hproper₁ during
  obtain ⟨b₃, a₃, hrun₃, -, hsub₃, -⟩ := run_proper hrate hproper₂ after
  rw [hsplit', run_append _ _ hrun₁ (run_append _ _ hrun₂ hrun₃)] at hrun
  cases hrun
  have hin : ∀ m ∈ during, t₁ ≤ m.now ∧ m.now ≤ t₂ := by
    intro m hm
    exact ⟨hrest m (hsplit' ▸ List.mem_append_left _ hm), Nat.lt_succ_iff.mp (hduring m hm)⟩
  have hinterval : inInterval t₁ t₂ (a₁ ++ (a₂ ++ a₃)) = a₂ := by
    have h₁ : inInterval t₁ t₂ a₁ = [] :=
      inInterval_eq_nil fun m hm => .inl (hbefore m (hsub₁.subset hm))
    have h₂ : inInterval t₁ t₂ a₂ = a₂ := inInterval_eq_self fun m hm => hin m (hsub₂.subset hm)
    have h₃ : inInterval t₁ t₂ a₃ = [] :=
      inInterval_eq_nil fun m hm => .inr (hafter m (hsub₃.subset hm))
    rw [inInterval, List.filter_append, List.filter_append]
    show inInterval t₁ t₂ a₁ ++ (inInterval t₁ t₂ a₂ ++ inInterval t₁ t₂ a₃) = a₂
    rw [h₁, h₂, h₃, List.nil_append, List.append_nil]
  rw [hinterval]
  refine stretch_bound hrate hproper₁ ht (List.pairwise_append.mp (hsplit' ▸ hclock)).1
    (fun last hlast m hm => ?_) hin hrun₂
  rcases hlast₁ last hlast with hold | ⟨m', hm', hnow⟩
  · cases hold
  · rw [← hnow]
    exact hacross m' hm' m (hsplit' ▸ List.mem_append_left _ hm)

theorem admitAt_refused (hrate : rate ≠ 0) (h : b.Proper rate) (m : Message) :
    ∃ passes b', b.admitAt rate m.bytes m.now m.reliable = some (passes, b') ∧
      (passes = false → b' = b.due rate m.now) := by
  have hserve := admitAt_serve hrate h m
  have hrefused : (serve rate b m).1 = false → (serve rate b m).2 = b.due rate m.now :=
    serve_refused
  generalize serve rate b m = served at hserve hrefused
  obtain ⟨passes, b'⟩ := served
  exact ⟨passes, b', hserve, hrefused⟩

/-- **The upload budget.**  No operation of the run fails, credit and debt are never both positive,
what an interval admits is within two seconds of the rate and the rate of its time or ends with one
oversized message, and a refused message leaves the refill that is due. -/
theorem upload_budget (rate : BitVec 64) (hrate : rate ≠ 0) (messages : List Message)
    (hclock : messages.Pairwise fun m m' => m.now ≤ m'.now) :
    ∃ b admitted, run rate Bucket.empty messages = some (b, admitted) ∧
      (b.tokens = 0 ∨ b.debt = 0) ∧
      (∀ t₁ t₂, t₁ ≤ t₂ → Within rate t₁ t₂ (inInterval t₁ t₂ admitted) ∨
        EndsOversized rate t₁ t₂ (nonempty (inInterval t₁ t₂ admitted))) ∧
      ∀ m : Message, ∃ passes b', b.admitAt rate m.bytes m.now m.reliable = some (passes, b') ∧
        (passes = false → b'.tokens = (b.due rate m.now).tokens ∧
          b'.debt = (b.due rate m.now).debt) := by
  obtain ⟨b, admitted, hrun, hproper, -, -⟩ :=
    run_proper hrate (Bucket.empty_proper rate) messages
  refine ⟨b, admitted, hrun, hproper.apart, fun t₁ t₂ ht => run_bound hrate hclock ht hrun,
    fun m => ?_⟩
  obtain ⟨passes, b', hadmit, hrefused⟩ := admitAt_refused hrate hproper m
  refine ⟨passes, b', hadmit, fun hpasses => ?_⟩
  rw [hrefused hpasses]
  exact ⟨rfl, rfl⟩

/-- Three messages at a rate of a hundred bytes: the burst, one that is refused, and an oversized
one when the bucket is full again. -/
theorem upload_budget_hundred :
    ∃ b, run 100 Bucket.empty [⟨200, 0, true⟩, ⟨1, 0, true⟩, ⟨300, 2000000000, true⟩] =
        some (b, [⟨200, 0, true⟩, ⟨300, 2000000000, true⟩]) ∧
      EndsOversized 100 0 2000000000
        (nonempty (inInterval 0 2000000000 [⟨200, 0, true⟩, ⟨300, 2000000000, true⟩])) := by
  obtain ⟨b, admitted, hrun, -, hbound, -⟩ := upload_budget 100 (by decide)
    [⟨200, 0, true⟩, ⟨1, 0, true⟩, ⟨300, 2000000000, true⟩] (by decide)
  have hadmitted : admitted = [⟨200, 0, true⟩, ⟨300, 2000000000, true⟩] := by
    have hcomputed : (run 100 Bucket.empty
        [⟨200, 0, true⟩, ⟨1, 0, true⟩, ⟨300, 2000000000, true⟩]).map Prod.snd =
        some [⟨200, 0, true⟩, ⟨300, 2000000000, true⟩] := by decide +kernel
    rw [hrun] at hcomputed
    exact Option.some.inj hcomputed
  rw [hadmitted] at hrun hbound
  refine ⟨b, hrun, (hbound 0 2000000000 (by decide)).resolve_left ?_⟩
  rw [Within]
  decide +kernel

/-- A message without bytes is admitted beside any debt, also after the oversized message. -/
theorem upload_budget_empty_message :
    (run 100 Bucket.empty [⟨300, 0, true⟩, ⟨0, 0, true⟩]).map Prod.snd =
        some [⟨300, 0, true⟩, ⟨0, 0, true⟩] ∧
      ¬ Within 100 0 0 (inInterval 0 0 [⟨300, 0, true⟩, ⟨0, 0, true⟩]) ∧
      ¬ EndsOversized 100 0 0 (inInterval 0 0 [⟨300, 0, true⟩, ⟨0, 0, true⟩]) := by
  refine ⟨by decide +kernel, by rw [Within]; decide +kernel, ?_⟩
  intro hends
  obtain ⟨before, m, hsplit, hover, -⟩ := hends
  have hlast : m = ⟨0, 0, true⟩ := by
    have hcomputed : (inInterval 0 0 [⟨300, 0, true⟩, ⟨0, 0, true⟩]).getLast? =
        some ⟨0, 0, true⟩ := by decide +kernel
    rw [hsplit, List.getLast?_concat] at hcomputed
    exact Option.some.inj hcomputed
  rw [hlast] at hover
  exact absurd hover.2 (by decide)

end UploadBudget

end BasisRust.Server

