import BasisRust.Library.Allowance

/-!
# Rates bounded by a potential

A system answers calls that come at rational times and admits some of them.  `RateBounded` gives it
a potential, which says how many calls it could still admit at a time: the potential is never above
`burst`, grows with `rate` at most, and every call that is counted takes one off.

`RateBounded.count_le` is the consequence for whole runs: in any interval of time, the calls that
are admitted and counted are at most `burst` and `rate` times the length of the interval.  It is the
bound of an allowance where a counted call costs one, which nothing overdraws.
-/

namespace BasisRust.Library

variable {σ α : Type}

/-- `φ t s` bounds what state `s` may still admit at time `t`; `inv t s` says that `s` is a state
whose last call was not after `t`. -/
structure RateBounded (step : σ → α → σ) (admits : σ → α → Bool) (time : α → ℚ)
    (counted : α → Bool) (inv : ℚ → σ → Prop) (φ : ℚ → σ → ℚ) (burst rate : ℚ) : Prop where
  one_le_burst : 1 ≤ burst
  rate_nonneg : 0 ≤ rate
  nonneg : ∀ {t s}, inv t s → 0 ≤ φ t s
  le_burst : ∀ {t s}, inv t s → φ t s ≤ burst
  refill : ∀ {t t' s}, inv t s → t ≤ t' → φ t' s ≤ φ t s + rate * (t' - t)
  later : ∀ {t t' s}, inv t s → t ≤ t' → inv t' s
  kept : ∀ {a s}, inv (time a) s → inv (time a) (step s a)
  spend : ∀ {a s}, inv (time a) s →
    φ (time a) (step s a) + (if admits s a && counted a then 1 else 0) ≤ φ (time a) s

namespace RateBounded

variable {step : σ → α → σ} {admits : σ → α → Bool} {time : α → ℚ} {counted : α → Bool}
  {inv : ℚ → σ → Prop} {φ : ℚ → σ → ℚ} {burst rate : ℚ} {s : σ} {calls : List α} {t t₁ t₂ : ℚ}

/-- How many calls of a run are admitted and counted in an interval. -/
def countIn (step : σ → α → σ) (admits : σ → α → Bool) (time : α → ℚ) (counted : α → Bool)
    (s : σ) (calls : List α) (t₁ t₂ : ℚ) : ℕ :=
  (admitted step admits s calls).countP fun a =>
    counted a && (decide (t₁ ≤ time a) && decide (time a ≤ t₂))

def unitCost (counted : α → Bool) (a : α) : ℚ := if counted a then 1 else 0

theorem sum_unitCost (l : List α) : (l.map (unitCost counted)).sum = l.countP counted := by
  induction l with
  | nil => rfl
  | cons a l ih =>
    rw [List.map_cons, List.sum_cons, ih, List.countP_cons, unitCost]
    cases counted a with
    | false => simp
    | true => simp [add_comm]

/-- A counted call is admitted only where the potential pays for it. -/
theorem allowance (h : RateBounded step admits time counted inv φ burst rate) :
    Allowance step admits time (unitCost counted) (fun _ => True) inv φ burst rate where
  cap_nonneg := zero_le_one.trans h.one_le_burst
  rate_nonneg := h.rate_nonneg
  cost_nonneg a := by
    unfold unitCost
    split_ifs <;> norm_num
  le_cap := h.le_burst
  refill := h.refill
  later := h.later
  kept _ := h.kept
  spend {a s} _ hinv := by
    have hspend := h.spend hinv
    unfold unitCost
    cases hadmits : admits s a <;> simpa [hadmits] using hspend
  afford {a s} _ hinv hadmits hcost := by
    left
    have hspend := h.spend hinv
    have hrest := h.nonneg (h.kept hinv)
    rw [hadmits, Bool.true_and] at hspend
    unfold unitCost
    linarith

theorem count_le (h : RateBounded step admits time counted inv φ burst rate) (hs : inv t s)
    (hlater : ∀ a ∈ calls, t ≤ time a) (hsorted : calls.Pairwise fun a b => time a ≤ time b)
    (ht : t₁ ≤ t₂) :
    (countIn step admits time counted s calls t₁ t₂ : ℚ) ≤ burst + rate * (t₂ - t₁) := by
  have hwithin := h.allowance.within hs (fun _ _ => trivial) hlater hsorted ht
  have hsum := hwithin.sum_le fun c hc => by
    obtain ⟨a, -, rfl⟩ := List.mem_map.mp hc
    refine le_trans ?_ h.one_le_burst
    unfold unitCost
    split_ifs <;> norm_num
  rwa [sum_unitCost, Allowance.admittedIn, List.countP_filter] at hsum

end RateBounded

end BasisRust.Library
