import Mathlib.Algebra.Order.Ring.Rat
import Mathlib.Tactic.Linarith

/-!
# Meters

A meter has a balance that grows at a rate up to a burst as its clock advances, and that is spent.
The clock is the latest time that was observed: an earlier one leaves it where it is.

The worth of a meter at a time is what it has and may still earn until then.  It is the potential of
the rate bound: refilling does not raise it, and spending takes from it what is spent.
-/

namespace BasisRust.Library

structure Meter where
  balance : ℚ
  clock : ℚ
  deriving DecidableEq

namespace Meter

def refill (rate burst : ℚ) (m : Meter) (now : ℚ) : Meter :=
  ⟨min (m.balance + rate * max 0 (now - m.clock)) burst, max m.clock now⟩

def spend (m : Meter) (amount : ℚ) : Meter := ⟨m.balance - amount, m.clock⟩

/-- What the meter has and may still earn until `t`. -/
def worth (rate t : ℚ) (m : Meter) : ℚ := m.balance + rate * max 0 (t - m.clock)

variable {rate burst largest t t₁ t₂ now spent amount : ℚ} {m : Meter}

theorem balance_le_worth (hrate : 0 ≤ rate) : m.balance ≤ m.worth rate t := by
  have hearned := mul_nonneg hrate (le_max_left 0 (t - m.clock))
  rw [worth]
  linarith

/-- **A stale observation** adds nothing. -/
theorem refill_stale (h : now ≤ m.clock) :
    (m.refill rate burst now).balance = min m.balance burst ∧
      (m.refill rate burst now).clock = m.clock := by
  have hzero : max 0 (now - m.clock) = 0 := max_eq_left (by linarith)
  rw [refill, hzero, mul_zero, add_zero, max_eq_left h]
  exact ⟨rfl, rfl⟩

/-- **Refilling** does not raise the worth at a time that is not earlier. -/
theorem worth_refill (hnow : now ≤ t) :
    (m.refill rate burst now).worth rate t ≤ m.worth rate t := by
  rw [worth, worth, refill]
  rcases le_total now m.clock with hstale | hlater
  · rw [max_eq_left hstale, max_eq_left (show now - m.clock ≤ 0 by linarith), mul_zero, add_zero]
    have hle := min_le_left m.balance burst
    linarith
  · rw [max_eq_right hlater, max_eq_right (show 0 ≤ now - m.clock by linarith),
      max_eq_right (show 0 ≤ t - now by linarith),
      max_eq_right (show 0 ≤ t - m.clock by linarith)]
    have hle := min_le_left (m.balance + rate * (now - m.clock)) burst
    have hsplit : rate * (t - m.clock) = rate * (now - m.clock) + rate * (t - now) := by
      rw [← mul_add, sub_add_sub_cancel']
    linarith

theorem worth_spend : (m.spend amount).worth rate t = m.worth rate t - amount := by
  show m.balance - amount + rate * max 0 (t - m.clock) = _
  exact sub_add_eq_add_sub _ _ _

/-- A stretch of calls after its first observation. -/
structure Metered (rate burst t₁ t₂ spent : ℚ) (m : Meter) : Prop where
  later : t₁ ≤ m.clock
  capped : m.balance ≤ burst
  paid : spent + m.worth rate t₂ ≤ burst + rate * (t₂ - t₁)

/-- **The first observation** of a stretch, whatever was spent before it. -/
theorem Metered.start (hrate : 0 ≤ rate) (hnow : t₁ ≤ now) (ht : t₁ ≤ t₂) :
    Metered rate burst t₁ t₂ 0 (m.refill rate burst now) := by
  have hclock : t₁ ≤ max m.clock now := hnow.trans (le_max_right _ _)
  have hbalance : (m.refill rate burst now).balance ≤ burst := min_le_right _ _
  refine ⟨hclock, hbalance, ?_⟩
  have hlength : max 0 (t₂ - max m.clock now) ≤ t₂ - t₁ := max_le (by linarith) (by linarith)
  have hearned := mul_le_mul_of_nonneg_left hlength hrate
  show 0 + ((m.refill rate burst now).balance + rate * max 0 (t₂ - max m.clock now)) ≤ _
  linarith

section

variable (h : Metered rate burst t₁ t₂ spent m)
include h

theorem Metered.refill (hnow : now ≤ t₂) :
  Metered rate burst t₁ t₂ spent (m.refill rate burst now) := by
  have hworth : (m.refill rate burst now).worth rate t₂ ≤ m.worth rate t₂ := worth_refill hnow
  exact ⟨h.later.trans (le_max_left _ _), min_le_right _ _, by linarith [h.paid]⟩

theorem Metered.spend (hamount : 0 ≤ amount) :
    Metered rate burst t₁ t₂ (spent + amount) (m.spend amount) := by
  have hworth : (m.spend amount).worth rate t₂ = m.worth rate t₂ - amount := worth_spend
  have hbalance : (m.spend amount).balance = m.balance - amount := rfl
  exact ⟨h.later, by linarith [h.capped], by linarith [h.paid]⟩

theorem Metered.spent_le (hrate : 0 ≤ rate) : spent ≤ burst + rate * (t₂ - t₁) - m.balance := by
  have hworth : m.balance ≤ m.worth rate t₂ := balance_le_worth hrate
  linarith [h.paid]

end

end Meter

end BasisRust.Library
