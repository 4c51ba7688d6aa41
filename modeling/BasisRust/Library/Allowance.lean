import Mathlib.Algebra.Order.BigOperators.Group.List
import Mathlib.Algebra.Order.Ring.Rat
import Mathlib.Data.List.Basic
import Mathlib.Tactic.Linarith

/-!
# Allowances that may be overdrawn once

Calls have a cost, and a potential says what may still be spent.  It is never above `cap` and grows
with `rate` at most, and a call that is admitted takes its cost off.  The cost is within the
potential, or it is above the whole cap and the potential is at the cap: then the potential becomes
negative, and nothing that costs anything is admitted before the debt is repaid.
-/

namespace BasisRust.Library

/-- What costs `l` in order may be, where the potential and the time give `x`. -/
def Paid (cap x : ℚ) (l : List ℚ) : Prop :=
  (∀ c ∈ l, c = 0) ∨ l.sum ≤ x ∨
    ∃ before large after, l = before ++ large :: after ∧ cap < large ∧
      before.sum + cap ≤ x ∧ ∀ c ∈ after, c = 0

/-- The costs of an interval. -/
def WithinAllowance (cap rate t₁ t₂ : ℚ) (l : List ℚ) : Prop :=
  l.sum ≤ cap + rate * (t₂ - t₁) ∨
    ∃ before large after, l = before ++ large :: after ∧ cap < large ∧
      before.sum ≤ rate * (t₂ - t₁) ∧ ∀ c ∈ after, c = 0

section Paid

variable {cap x y c : ℚ} {l : List ℚ} {rate t₁ t₂ : ℚ}

theorem sum_eq_zero_of_all (h : ∀ c ∈ l, c = 0) : l.sum = 0 := by
  induction l with
  | nil => rfl
  | cons c l ih =>
    rw [List.sum_cons, h c (.head _), ih fun d hd => h d (.tail _ hd), add_zero]

theorem Paid.mono (h : Paid cap x l) (hxy : x ≤ y) : Paid cap y l := by
  rcases h with hzero | hsum | ⟨before, large, after, hl, hlarge, hbefore, hafter⟩
  · exact .inl hzero
  · exact .inr (.inl (hsum.trans hxy))
  · exact .inr (.inr ⟨before, large, after, hl, hlarge, hbefore.trans hxy, hafter⟩)

theorem Paid.zero (h : Paid cap x l) : Paid cap x (0 :: l) := by
  rcases h with hzero | hsum | ⟨before, large, after, hl, hlarge, hbefore, hafter⟩
  · exact .inl (List.forall_mem_cons.mpr ⟨rfl, hzero⟩)
  · right; left
    rwa [List.sum_cons, zero_add]
  · right; right
    refine ⟨0 :: before, large, after, by rw [hl, List.cons_append], hlarge, ?_, hafter⟩
    rwa [List.sum_cons, zero_add]

/-- **A cost in front** that is within the amount, or is large and finds the cap. -/
theorem Paid.cons (h : Paid cap y l) (hpay : c + y ≤ x) (hafford : c ≤ x ∨ cap < c ∧ cap ≤ x) :
    Paid cap x (c :: l) := by
  rcases h with hzero | hsum | ⟨before, large, after, hl, hlarge, hbefore, hafter⟩
  · rcases hafford with hle | ⟨hlarge, hcap⟩
    · right; left
      rwa [List.sum_cons, sum_eq_zero_of_all hzero, add_zero]
    · right; right
      exact ⟨[], c, l, rfl, hlarge, by rwa [List.sum_nil, zero_add], hzero⟩
  · right; left
    rw [List.sum_cons]
    linarith
  · right; right
    refine ⟨c :: before, large, after, by rw [hl, List.cons_append], hlarge, ?_, hafter⟩
    rw [List.sum_cons]
    linarith

theorem Paid.within (h : Paid cap (cap + rate * (t₂ - t₁)) l) (hcap : 0 ≤ cap)
    (hgrow : 0 ≤ rate * (t₂ - t₁)) : WithinAllowance cap rate t₁ t₂ l := by
  rcases h with hzero | hsum | ⟨before, large, after, hl, hlarge, hbefore, hafter⟩
  · left
    rw [sum_eq_zero_of_all hzero]
    linarith
  · exact .inl hsum
  · exact .inr ⟨before, large, after, hl, hlarge, by linarith, hafter⟩

/-- Costs that are all within the cap. -/
theorem WithinAllowance.sum_le (h : WithinAllowance cap rate t₁ t₂ l) (hsmall : ∀ c ∈ l, c ≤ cap) :
    l.sum ≤ cap + rate * (t₂ - t₁) := by
  rcases h with hsum | ⟨before, large, after, hl, hlarge, -, -⟩
  · exact hsum
  · have hmem : large ∈ l := hl ▸ List.mem_append_right _ (.head _)
    exact absurd (hsmall large hmem) (not_le.mpr hlarge)

/-- **Two costs, the first of them large**: the second has waited for the debt. -/
theorem WithinAllowance.debt_le {a b : ℚ} (h : WithinAllowance cap rate t₁ t₂ l)
    (hnonneg : ∀ c ∈ l, 0 ≤ c) (hcap : 0 ≤ cap) (hsub : [a, b].Sublist l) (hb : 0 < b) :
    a ≤ cap + rate * (t₂ - t₁) := by
  rcases h with hsum | ⟨before, large, after, hl, -, hbefore, hafter⟩
  · have hle : [a, b].sum ≤ l.sum := hsub.sum_le_sum hnonneg
    rw [List.sum_cons, List.sum_cons, List.sum_nil] at hle
    linarith
  · -- the second is not behind the last large cost, so the first is before it
    have hfirst : a ∈ before := by
      rw [hl] at hsub
      obtain ⟨front, rest, hsplit, hfront, hrest⟩ := List.sublist_append_iff.mp hsub
      cases front with
      | nil =>
        rw [List.nil_append] at hsplit
        rw [← hsplit] at hrest
        have htail : [b].Sublist after := hrest.of_cons_cons
        exact absurd (hafter b (List.singleton_sublist.mp htail)) hb.ne'
      | cons c front =>
        have hhead : a = c := (List.cons.inj hsplit).1
        rw [hhead]
        exact hfront.subset (.head _)
    have hin : ∀ c ∈ before, 0 ≤ c := fun c hc => hnonneg c (hl ▸ List.mem_append_left _ hc)
    have hle : a ≤ before.sum := List.single_le_sum hin a hfirst
    linarith

end Paid

variable {σ α : Type}

/-- The calls that are admitted in a run, in order. -/
def admitted (step : σ → α → σ) (admits : σ → α → Bool) : σ → List α → List α
  | _, [] => []
  | s, a :: calls =>
    if admits s a then a :: admitted step admits (step s a) calls
    else admitted step admits (step s a) calls

/-- `φ t s` is what state `s` may still spend at time `t`; `inv t s` says that `s` is a state whose
last call was not after `t`, and `ok` which calls are considered. -/
structure Allowance (step : σ → α → σ) (admits : σ → α → Bool) (time : α → ℚ) (cost : α → ℚ)
    (ok : α → Prop) (inv : ℚ → σ → Prop) (φ : ℚ → σ → ℚ) (cap rate : ℚ) : Prop where
  cap_nonneg : 0 ≤ cap
  rate_nonneg : 0 ≤ rate
  cost_nonneg : ∀ a, 0 ≤ cost a
  le_cap : ∀ {t s}, inv t s → φ t s ≤ cap
  refill : ∀ {t t' s}, inv t s → t ≤ t' → φ t' s ≤ φ t s + rate * (t' - t)
  later : ∀ {t t' s}, inv t s → t ≤ t' → inv t' s
  kept : ∀ {a s}, ok a → inv (time a) s → inv (time a) (step s a)
  spend : ∀ {a s}, ok a → inv (time a) s →
    φ (time a) (step s a) + (if admits s a then cost a else 0) ≤ φ (time a) s
  afford : ∀ {a s}, ok a → inv (time a) s → admits s a = true → 0 < cost a →
    cost a ≤ φ (time a) s ∨ cap < cost a ∧ φ (time a) s = cap

namespace Allowance

variable {step : σ → α → σ} {admits : σ → α → Bool} {time cost : α → ℚ} {ok : α → Prop}
  {inv : ℚ → σ → Prop} {φ : ℚ → σ → ℚ} {cap rate : ℚ} {s : σ} {calls : List α} {t t₁ t₂ : ℚ}

/-- The calls that a run admits in an interval. -/
def admittedIn (step : σ → α → σ) (admits : σ → α → Bool) (time : α → ℚ) (s : σ) (calls : List α)
    (t₁ t₂ : ℚ) : List α :=
  (admitted step admits s calls).filter fun a => decide (t₁ ≤ time a) && decide (time a ≤ t₂)

theorem admittedIn_cons (a : α) :
    admittedIn step admits time s (a :: calls) t₁ t₂ =
      (if admits s a && (decide (t₁ ≤ time a) && decide (time a ≤ t₂)) then [a] else []) ++
        admittedIn step admits time (step s a) calls t₁ t₂ := by
  rw [admittedIn, admittedIn, admitted]
  cases admits s a with
  | false => rfl
  | true =>
    rw [if_pos rfl, List.filter_cons, Bool.true_and]
    split_ifs <;> rfl

theorem admitted_sublist (s : σ) (calls : List α) :
    (admitted step admits s calls).Sublist calls := by
  induction calls generalizing s with
  | nil => exact .slnil
  | cons b calls ih =>
    rw [admitted]
    split_ifs
    · exact (ih _).cons_cons b
    · exact (ih _).cons b

theorem admittedIn_eq_nil (h : ∀ a ∈ calls, t₂ < time a) :
    admittedIn step admits time s calls t₁ t₂ = [] := by
  apply List.filter_eq_nil_iff.mpr
  intro a ha hin
  have hafter := h a ((admitted_sublist s calls).subset ha)
  rw [Bool.and_eq_true, decide_eq_true_eq, decide_eq_true_eq] at hin
  exact absurd hin.2 (not_le.mpr hafter)

section

variable (h : Allowance step admits time cost ok inv φ cap rate) (hs : inv t s)
  (hok : ∀ a ∈ calls, ok a) (hlater : ∀ a ∈ calls, t ≤ time a)
    (hsorted : calls.Pairwise fun a b => time a ≤ time b)
include h hs hok hlater hsorted

/-- **From a time on**: what is spent is paid for by the potential and by the time that passes. -/
theorem paid_from (ht : t ≤ t₂) (ht₁ : t₁ ≤ t) :
    Paid cap (φ t s + rate * (t₂ - t)) ((admittedIn step admits time s calls t₁ t₂).map cost) := by
  induction calls generalizing s t with
  | nil => exact .inl nofun
  | cons a calls ih =>
    have ha := hlater a (.head _)
    obtain ⟨hhead, htail⟩ := List.pairwise_cons.mp hsorted
    by_cases hin : time a ≤ t₂
    · have hnow := h.later hs ha
      have hcall := hok a (.head _)
      have hrest := ih (h.kept hcall hnow) (fun b hb => hok b (.tail _ hb)) hhead htail hin
        (ht₁.trans ha)
      have hspend := h.spend hcall hnow
      have hrefill := h.refill hs ha
      have hgrow := mul_nonneg h.rate_nonneg (sub_nonneg.mpr hin)
      have hsplit : rate * (t₂ - t) = rate * (time a - t) + rate * (t₂ - time a) := by
        rw [← mul_add, sub_add_sub_cancel']
      rw [admittedIn_cons, decide_eq_true (ht₁.trans ha), decide_eq_true hin, Bool.and_true,
        Bool.and_true]
      cases hadmits : admits s a with
      | false =>
        rw [hadmits, if_neg Bool.false_ne_true, add_zero] at hspend
        rw [if_neg Bool.false_ne_true, List.nil_append]
        exact hrest.mono (by linarith)
      | true =>
        rw [hadmits, if_pos rfl] at hspend
        rw [if_pos rfl, List.singleton_append, List.map_cons]
        rcases (h.cost_nonneg a).eq_or_lt with hfree | hcost
        · rw [← hfree] at hspend ⊢
          exact (hrest.mono (by linarith)).zero
        · refine hrest.cons (by linarith) ?_
          rcases h.afford hcall hnow hadmits hcost with hle | ⟨hlarge, hfull⟩
          · exact .inl (by linarith)
          · exact .inr ⟨hlarge, by linarith⟩
    · have hnone : ∀ b ∈ a :: calls, t₂ < time b := by
        intro b hb
        rcases List.mem_cons.mp hb with heq | hb
        · rw [heq]
          exact lt_of_not_ge hin
        · exact lt_of_lt_of_le (lt_of_not_ge hin) (hhead b hb)
      rw [admittedIn_eq_nil hnone]
      exact .inl nofun

theorem within (ht : t₁ ≤ t₂) :
    WithinAllowance cap rate t₁ t₂ ((admittedIn step admits time s calls t₁ t₂).map cost) := by
  have hgrow := mul_nonneg h.rate_nonneg (sub_nonneg.mpr ht)
  induction calls generalizing s t with
  | nil =>
    left
    show ([] : List ℚ).sum ≤ _
    rw [List.sum_nil]
    linarith [h.cap_nonneg]
  | cons a calls ih =>
    have ha := hlater a (.head _)
    obtain ⟨hhead, htail⟩ := List.pairwise_cons.mp hsorted
    by_cases hbefore : time a < t₁
    · -- a call before the interval
      have hrest := ih (h.kept (hok a (.head _)) (h.later hs ha))
        (fun b hb => hok b (.tail _ hb)) hhead htail
      rw [admittedIn_cons, decide_eq_false (not_le_of_gt hbefore), Bool.false_and, Bool.and_false,
        if_neg Bool.false_ne_true, List.nil_append]
      exact hrest
    · rw [not_lt] at hbefore
      have hall : ∀ b ∈ a :: calls, max t t₁ ≤ time b := by
        intro b hb
        refine max_le (hlater b hb) ?_
        rcases List.mem_cons.mp hb with heq | hb
        · rw [heq]
          exact hbefore
        · exact hbefore.trans (hhead b hb)
      have hnow := h.later hs (le_max_left t t₁)
      have hcap := h.le_cap hnow
      by_cases hend : max t t₁ ≤ t₂
      · have hpaid := h.paid_from hnow hok hall hsorted hend (le_max_right t t₁)
        have hlength : rate * (t₂ - max t t₁) ≤ rate * (t₂ - t₁) :=
          mul_le_mul_of_nonneg_left (by linarith [le_max_right t t₁]) h.rate_nonneg
        exact (hpaid.mono (by linarith)).within h.cap_nonneg hgrow
      · have hnone : ∀ b ∈ a :: calls, t₂ < time b :=
          fun b hb => lt_of_lt_of_le (lt_of_not_ge hend) (hall b hb)
        rw [admittedIn_eq_nil hnone]
        left
        show ([] : List ℚ).sum ≤ _
        rw [List.sum_nil]
        linarith [h.cap_nonneg]

/-- **Between a large cost and a later one** the debt has been repaid. -/
theorem repaid {a b : α}
    (hsub : [a, b].Sublist (admitted step admits s calls)) (hab : time a ≤ time b)
    (hb : 0 < cost b) : cost a - cap ≤ rate * (time b - time a) := by
  have hin : [a, b].Sublist (admittedIn step admits time s calls (time a) (time b)) := by
    have hfilter := hsub.filter
      fun c => decide (time a ≤ time c) && decide (time c ≤ time b)
    rwa [List.filter_cons_of_pos (by simp [hab]), List.filter_cons_of_pos (by simp [hab]),
      List.filter_nil] at hfilter
  have hwithin := h.within hs hok hlater hsorted hab
  have hle := hwithin.debt_le (fun c hc => by
    obtain ⟨x, -, hx⟩ := List.mem_map.mp hc
    exact hx ▸ h.cost_nonneg x) h.cap_nonneg (hin.map cost) hb
  linarith

end

end Allowance

end BasisRust.Library
