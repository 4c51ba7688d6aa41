import BasisRust.Library.RateBound
import BasisRust.Server.P2p

/-!
# Budgets before authentication

`Limiter` bounds what addresses that are not authenticated may ask for.  Every address has a token
bucket for each kind of request, in a table of bounded size; addresses that find no room there share
the buckets of a small overflow table, by a hash.  A bucket that has allowed nothing for a minute is
dropped.  A budget over all addresses comes first.

Times are seconds and tokens are rationals.  `level` is what an address may still ask for: it is
the potential of the rate bound.
-/

namespace BasisRust.Transport

open Library Server

/-! ### The limiter -/

def maxIps : ℕ := 4096
def overflowBuckets : ℕ := 256
def ipTtl : ℚ := 60

inductive PreAuthKind where
  | connection
  | info
  | nat
  deriving DecidableEq

namespace PreAuthKind

/-- Burst and rate of an address. -/
def budget : PreAuthKind → ℚ × ℚ
  | connection => (4096, 128)
  | info => (1, 2)
  | nat => (32, 8)

/-- Burst and rate of all addresses together. -/
def globalBudget : PreAuthKind → ℚ × ℚ
  | connection => (4096, 512)
  | info => (200, 100)
  | nat => (256, 128)

end PreAuthKind

structure PreAuthEntry where
  tokens : PreAuthKind → ℚ
  updated : PreAuthKind → ℚ
  lastAllowed : ℚ

structure Limiter where
  entries : List (IpAddr × PreAuthEntry)
  overflow : Fin overflowBuckets → Option PreAuthEntry
  overflowHash : IpAddr → ℕ
  lastCleanup : ℚ
  globalTokens : PreAuthKind → ℚ
  globalUpdated : PreAuthKind → ℚ

def durationSince (now earlier : ℚ) : ℚ := max 0 (now - earlier)

/-- The tokens of a bucket at a time. -/
def refill (tokens updated now : ℚ) (budget : ℚ × ℚ) : ℚ :=
  min (tokens + durationSince now updated * budget.2) budget.1

/-- An IPv4 address written as an IPv6 address is that IPv4 address. -/
def canonicalIp : IpAddr → IpAddr
  | .v6 ip =>
    match SocketAddr.toIpv4Mapped ip with
    | some ip4 => .v4 ip4
    | none => .v6 ip
  | ip => ip

namespace PreAuthEntry

def fresh (now : ℚ) : PreAuthEntry where
  tokens
    | .connection => 4096
    | .info => 1
    | .nat => 32
  updated _ := now
  lastAllowed := now

/-- Refill a bucket and take a token if there is one. -/
def take (entry : PreAuthEntry) (kind : PreAuthKind) (now : ℚ) : Bool × PreAuthEntry :=
  let tokens := refill (entry.tokens kind) (entry.updated kind) now kind.budget
  let updated := Function.update entry.updated kind now
  if tokens < 1 then
    (false, { entry with tokens := Function.update entry.tokens kind tokens, updated := updated })
  else (true, ⟨Function.update entry.tokens kind (tokens - 1), updated, now⟩)

end PreAuthEntry

namespace Limiter

def init (overflowHash : IpAddr → ℕ) (now : ℚ) : Limiter where
  entries := []
  overflow _ := none
  overflowHash := overflowHash
  lastCleanup := now
  globalTokens
    | .connection => 4096
    | .info => 200
    | .nat => 256
  globalUpdated _ := now

/-- Whether an entry has allowed something within its time to live. -/
def live (now : ℚ) (entry : PreAuthEntry) : Bool :=
  decide (durationSince now entry.lastAllowed < ipTtl)

def cleanup (l : Limiter) (now : ℚ) : Limiter :=
  if durationSince now l.lastCleanup ≥ 1 then
    { l with
      entries := l.entries.filter fun x => live now x.2
      overflow := fun i => (l.overflow i).filter (live now)
      lastCleanup := now }
  else l

def overflowBucket (l : Limiter) (ip : IpAddr) : Fin overflowBuckets :=
  ⟨l.overflowHash ip % overflowBuckets, Nat.mod_lt _ (by decide)⟩

def refillGlobal (l : Limiter) (kind : PreAuthKind) (now : ℚ) : Limiter :=
  { l with
    globalTokens := Function.update l.globalTokens kind
      (refill (l.globalTokens kind) (l.globalUpdated kind) now kind.globalBudget)
    globalUpdated := Function.update l.globalUpdated kind now }

/-- The bucket of an address: its own, or the shared one it would use or start from. -/
def entryFor (l : Limiter) (ip : IpAddr) (now : ℚ) : PreAuthEntry :=
  match assocGet ip l.entries with
  | some entry => entry
  | none => (l.overflow (l.overflowBucket ip)).getD (.fresh now)

/-- An address gets an entry of its own while there is room. -/
def storeEntry (l : Limiter) (ip : IpAddr) (entry : PreAuthEntry) : Limiter :=
  if (assocGet ip l.entries).isSome || decide (l.entries.length < maxIps) then
    { l with entries := assocSet ip entry l.entries }
  else { l with overflow := Function.update l.overflow (l.overflowBucket ip) (some entry) }

def allow (l : Limiter) (ip : IpAddr) (kind : PreAuthKind) (now : ℚ) : Bool × Limiter :=
  let l := (l.cleanup now).refillGlobal kind now
  if l.globalTokens kind < 1 then (false, l)
  else
    let ip := canonicalIp ip
    let taken := (l.entryFor ip now).take kind now
    let l := l.storeEntry ip taken.2
    if taken.1 then
      (true, { l with
        globalTokens := Function.update l.globalTokens kind (l.globalTokens kind - 1) })
    else (false, l)

end Limiter

/-! ### Calls -/

inductive LimiterCall where
  | cleanup (now : ℚ)
  | allow (ip : IpAddr) (kind : PreAuthKind) (now : ℚ)

namespace LimiterCall

def now : LimiterCall → ℚ
  | cleanup now => now
  | allow _ _ now => now

/-- A request of a kind. -/
def ofKind (kind : PreAuthKind) : LimiterCall → Bool
  | cleanup _ => false
  | allow _ k _ => decide (k = kind)

/-- A request of a kind from an address, however it is written. -/
def ofAddress (ip : IpAddr) (kind : PreAuthKind) : LimiterCall → Bool
  | cleanup _ => false
  | allow i k _ => decide (canonicalIp i = canonicalIp ip) && decide (k = kind)

end LimiterCall

namespace Limiter

def call (l : Limiter) : LimiterCall → Limiter
  | .cleanup now => l.cleanup now
  | .allow ip kind now => (l.allow ip kind now).2

def admits (l : Limiter) : LimiterCall → Bool
  | .cleanup _ => false
  | .allow ip kind now => (l.allow ip kind now).1

end Limiter

/-! ### A bucket -/

theorem durationSince_self (now : ℚ) : durationSince now now = 0 := by
  rw [durationSince, sub_self, max_self]

theorem durationSince_later {t t' : ℚ} (h : t ≤ t') (earlier : ℚ) :
    durationSince t' earlier ≤ durationSince t earlier + (t' - t) := by
  apply max_le
  · have hnonneg : 0 ≤ durationSince t earlier := le_max_left _ _
    linarith
  · have hge : t - earlier ≤ durationSince t earlier := le_max_right _ _
    linarith

section Bucket

variable {tokens updated now t t' : ℚ} {budget : ℚ × ℚ}

theorem refill_le : refill tokens updated now budget ≤ budget.1 := min_le_right _ _

theorem refill_nonneg (htokens : 0 ≤ tokens) (hburst : 0 ≤ budget.1) (hrate : 0 ≤ budget.2) :
    0 ≤ refill tokens updated now budget :=
  le_min (add_nonneg htokens (mul_nonneg (le_max_left _ _) hrate)) hburst

theorem refill_later (h : t ≤ t') (hrate : 0 ≤ budget.2) :
    refill tokens updated t' budget ≤ refill tokens updated t budget + budget.2 * (t' - t) := by
  have hgrow := mul_le_mul_of_nonneg_right (durationSince_later h updated) hrate
  have hnonneg := mul_nonneg hrate (sub_nonneg.mpr h)
  rw [refill, refill, ← min_add_add_right]
  apply le_min
  · refine (min_le_left _ _).trans ?_
    rw [add_mul] at hgrow
    linarith
  · refine (min_le_right _ _).trans ?_
    linarith

/-- What is left at the time of an update. -/
theorem refill_now (h : tokens ≤ budget.1) : refill tokens now now budget = tokens := by
  rw [refill, durationSince_self, zero_mul, add_zero, min_eq_left h]

end Bucket

end BasisRust.Transport
