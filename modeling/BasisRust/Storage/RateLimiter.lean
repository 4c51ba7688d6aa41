import BasisRust.Library.Allowance
import BasisRust.Library.AssocList

/-!
# The rate limiter of the storage

`RateBudget` and `RateLimiter` of `player.rs`.  An owner has a bucket of its own while the table has
one for it, and the overflow bucket is shared by all other owners.  A bucket has tokens for reads,
for writes and for the bytes that are set; a new one is full.  An owner that is not in the table
gets a bucket when the overflow bucket is full and the table has room, for which full buckets are
dropped.

Instants are seconds.  A call reads the clock up to three times: when the overflow bucket is
checked, when a new bucket is made, and when the tokens are taken.
-/

namespace BasisRust.Storage

open Library

def defaultBytesPerPlayer : ℕ := 16384

/-! ### One bucket -/

structure RateBudget where
  last : ℚ
  reads : ℚ
  writes : ℚ
  bytes : ℚ
  byteLimit : ℕ
  deriving DecidableEq

namespace RateBudget

/-- `RateBudget::new`, at an instant. -/
def new (limit : ℕ) (now : ℚ) : RateBudget := ⟨now, 60, 10, (limit * 2 : ℕ), limit⟩

/-- `now.saturating_duration_since(self.last)`. -/
def delta (b : RateBudget) (now : ℚ) : ℚ := max 0 (now - b.last)

def fullyRefilled (b : RateBudget) (now : ℚ) : Bool :=
  decide (60 ≤ b.reads + b.delta now * 20) && decide (10 ≤ b.writes + b.delta now * 2) &&
    decide (((b.byteLimit * 2 : ℕ) : ℚ) ≤ b.bytes + b.delta now * b.byteLimit / 2)

/-- The tokens at an instant, before a new limit is adopted. -/
def refill (b : RateBudget) (now : ℚ) : RateBudget where
  last := now
  reads := min (b.reads + b.delta now * 20) 60
  writes := min (b.writes + b.delta now * 2) 10
  bytes := min (b.bytes + b.delta now * b.byteLimit / 2) (b.byteLimit * 2 : ℕ)
  byteLimit := b.byteLimit

/-- A full bucket adopts the capacity of a new limit; a debt is kept. -/
def adopt (b : RateBudget) (limit : ℕ) : RateBudget :=
  { b with
    bytes := if ((b.byteLimit * 2 : ℕ) : ℚ) ≤ b.bytes then (limit * 2 : ℕ)
      else min b.bytes (limit * 2 : ℕ)
    byteLimit := limit }

def settle (b : RateBudget) (limit : ℕ) (now : ℚ) : RateBudget := (b.refill now).adopt limit

/-- Whether a settled bucket admits a call.  One larger than the bucket passes when it is full. -/
def admits (b : RateBudget) (write : Bool) (bytes : ℕ) : Bool :=
  let available := if write then b.writes else b.reads
  let oversizedFromFull := decide (((b.byteLimit * 2 : ℕ) : ℚ) < bytes) &&
    decide (b.bytes = (b.byteLimit * 2 : ℕ))
  !(decide (available < 1) ||
    (write && decide (0 < bytes) && decide (b.bytes < bytes) && !oversizedFromFull))

/-- What an admitted call takes from a settled bucket. -/
def charge (b : RateBudget) (write : Bool) (bytes : ℕ) : RateBudget :=
  if write then { b with writes := b.writes - 1, bytes := b.bytes - bytes }
  else { b with reads := b.reads - 1 }

def consumeAt (b : RateBudget) (write : Bool) (bytes limit : ℕ) (now : ℚ) : Bool × RateBudget :=
  let b := b.settle limit now
  if b.admits write bytes then (true, b.charge write bytes) else (false, b)

end RateBudget

/-! ### The limiter -/

/-- A call of `RateLimiter::consume`, with the instants its readings of the clock return. -/
structure Call where
  owner : String
  write : Bool
  bytes : ℕ
  limit : ℕ
  checked : ℚ
  created : ℚ
  served : ℚ
  checked_le : checked ≤ created
  created_le : created ≤ served
  deriving DecidableEq

structure RateLimiter where
  owners : List (String × RateBudget)
  overflow : RateBudget
  deriving DecidableEq

namespace RateLimiter

/-- `RateLimiter::default`, at an instant. -/
def default (now : ℚ) : RateLimiter := ⟨[], .new defaultBytesPerPlayer now⟩

def maxOwners : ℕ := 8192

/-- `consume` on the bucket of an owner in the table. -/
def consumeOwn (l : RateLimiter) (b : RateBudget) (c : Call) : Bool × RateLimiter :=
  let result := b.consumeAt c.write c.bytes c.limit c.served
  (result.1, { l with owners := assocSet c.owner result.2 l.owners })

def consumeOverflow (l : RateLimiter) (c : Call) : Bool × RateLimiter :=
  let result := l.overflow.consumeAt c.write c.bytes c.limit c.served
  (result.1, { l with overflow := result.2 })

/-- The table without its full buckets, when it is as large as it may become. -/
def sweep (l : RateLimiter) (most : ℕ) (now : ℚ) : RateLimiter :=
  if most ≤ l.owners.length then
    { l with owners := l.owners.filter fun x => !x.2.fullyRefilled now }
  else l

/-- `RateLimiter::consume`, for a table of at most `most` owners. -/
def consumeUpTo (most : ℕ) (l : RateLimiter) (c : Call) : Bool × RateLimiter :=
  match assocGet c.owner l.owners with
  | some b => l.consumeOwn b c
  | none =>
    -- an owner who may owe tokens to the shared bucket gets no fresh one
    if l.overflow.fullyRefilled c.checked then
      let swept := l.sweep most c.checked
      if swept.owners.length < most then swept.consumeOwn (.new c.limit c.created) c
      else swept.consumeOverflow c
    else l.consumeOverflow c

def consume (l : RateLimiter) (c : Call) : Bool × RateLimiter := l.consumeUpTo maxOwners c

def admits (l : RateLimiter) (c : Call) : Bool := (l.consume c).1

def step (l : RateLimiter) (c : Call) : RateLimiter := (l.consume c).2

def run (l : RateLimiter) (calls : List Call) : RateLimiter := calls.foldl step l

/-- The bucket that an owner's tokens are in. -/
def bucket (l : RateLimiter) (owner : String) : RateBudget :=
  (assocGet owner l.owners).getD l.overflow

end RateLimiter

end BasisRust.Storage
