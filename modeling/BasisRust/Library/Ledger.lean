import BasisRust.Library.AssocList
import Mathlib.Algebra.BigOperators.Group.Multiset.Basic
import Mathlib.Data.List.Perm.Basic
import Mathlib.Data.Multiset.AddSub
import Mathlib.Tactic.Common

/-!
# Ledgers

Some resource is handed out in holdings, and a family of counters is to say how much is out.  A
holding `t` charges counter `i` with `charge t i`; the ledger is balanced when every counter is the
sum of the charges of the holdings that are live.

Holders are often kept in a list whose entries are replaced and removed by their place
(`coe_map_of_getElem?`, `coe_map_set`), or in a table with keys (`holdings`,
`AssocNodup.holdings_split`).
-/

namespace BasisRust.Library

variable {τ ι : Type}

/-- Every counter is the sum of what the live holdings charge it with. -/
def Balanced (charge : τ → ι → ℕ) (counts : ι → ℕ) (live : Multiset τ) : Prop :=
  ∀ i, counts i = (live.map fun t => charge t i).sum

namespace Balanced

variable {charge : τ → ι → ℕ} {counts counts' : ι → ℕ} {live : Multiset τ} {t t' : τ}

theorem empty (charge : τ → ι → ℕ) : Balanced charge (fun _ => 0) 0 := by
  intro i
  rw [Multiset.map_zero, Multiset.sum_zero]

theorem cons_iff : Balanced charge counts (t ::ₘ live) ↔
    ∀ i, counts i = charge t i + (live.map fun t => charge t i).sum := by
  simp only [Balanced, Multiset.map_cons, Multiset.sum_cons]

theorem add (h : Balanced charge counts live) (hc : ∀ i, counts' i = counts i + charge t i) :
    Balanced charge counts' (t ::ₘ live) := by
  rw [cons_iff]
  intro i
  rw [hc i, h i, Nat.add_comm]

/-- A live holding is part of every counter. -/
theorem charge_le (h : Balanced charge counts live) (ht : t ∈ live) (i : ι) :
    charge t i ≤ counts i := by
  obtain ⟨rest, rfl⟩ := Multiset.exists_cons_of_mem ht
  rw [cons_iff] at h
  rw [h i]
  exact Nat.le_add_right _ _

theorem remove (h : Balanced charge counts (t ::ₘ live))
    (hc : ∀ i, counts' i = counts i - charge t i) : Balanced charge counts' live := by
  rw [cons_iff] at h
  intro i
  rw [hc i, h i, Nat.add_sub_cancel_left]

/-- A holding is replaced by another one. -/
theorem exchange (h : Balanced charge counts (t ::ₘ live))
    (hc : ∀ i, counts' i + charge t i = counts i + charge t' i) :
    Balanced charge counts' (t' ::ₘ live) := by
  rw [cons_iff] at h ⊢
  intro i
  have hi := h i
  have hci := hc i
  omega

theorem eq_zero (h : Balanced charge counts live) {i : ι} (hz : ∀ t ∈ live, charge t i = 0) :
    counts i = 0 := by
  rw [h i]
  apply Multiset.sum_eq_zero
  intro x hx
  obtain ⟨t, ht, rfl⟩ := Multiset.mem_map.mp hx
  exact hz t ht

end Balanced

/-- What only some holdings charge is the sum over these. -/
theorem sum_map_ite (p : τ → Prop) [DecidablePred p] (f : τ → ℕ) (live : Multiset τ) :
    (live.map fun t => if p t then f t else 0).sum = ((live.filter p).map f).sum := by
  induction live using Multiset.induction_on with
  | empty => rfl
  | cons t live ih =>
    rw [Multiset.map_cons, Multiset.sum_cons, ih]
    by_cases ht : p t
    · rw [if_pos ht, Multiset.filter_cons_of_pos live ht, Multiset.map_cons, Multiset.sum_cons]
    · rw [if_neg ht, Multiset.filter_cons_of_neg live ht, Nat.zero_add]

/-! ### Holders in a list -/

variable {α : Type} {l : List α} {i : ℕ} {x : α}

/-- What the list holds, the entry at `i` first. -/
theorem coe_map_of_getElem? (f : α → τ) (h : l[i]? = some x) :
    ((l.map f : List τ) : Multiset τ) = f x ::ₘ ((l.eraseIdx i).map f : List τ) := by
  obtain ⟨hi, rfl⟩ := List.getElem?_eq_some_iff.mp h
  rw [Multiset.cons_coe, ← List.map_cons, Multiset.coe_eq_coe]
  exact ((List.getElem_cons_eraseIdx_perm hi).map f).symm

/-- What the list holds after the entry at `i` was replaced. -/
theorem coe_map_set (f : α → τ) (h : l[i]? = some x) (y : α) :
    ((l.set i y).map f : List τ) = f y ::ₘ (((l.eraseIdx i).map f : List τ) : Multiset τ) := by
  obtain ⟨hi, -⟩ := List.getElem?_eq_some_iff.mp h
  rw [Multiset.cons_coe, ← List.map_cons, Multiset.coe_eq_coe]
  exact (List.set_perm_cons_eraseIdx hi y).map f

/-- A sum of indicators counts. -/
theorem sum_map_eq_countP (f : α → ℕ) (p : α → Bool)
    (h : ∀ x ∈ l, f x = if p x then 1 else 0) : (l.map f).sum = l.countP p := by
  induction l with
  | nil => rfl
  | cons x xs ih =>
    rw [List.map_cons, List.sum_cons, h x (.head _),
      ih fun y hy => h y (List.mem_cons_of_mem x hy), List.countP_cons, Nat.add_comm]

/-! ### Holders in a table -/

section Table

variable {κ : Type} [DecidableEq κ] (w : α → Multiset τ)

/-- What the entries of a table hold. -/
def holdings (w : α → Multiset τ) (l : List (κ × α)) : Multiset τ := (l.map fun x => w x.2).sum

omit [DecidableEq κ] in
theorem holdings_cons (x : κ × α) (l : List (κ × α)) :
    holdings w (x :: l) = w x.2 + holdings w l := by
  rw [holdings, List.map_cons, List.sum_cons]
  rfl

/-- The entry of a key and the other entries. -/
theorem AssocNodup.holdings_split {l : List (κ × α)} (hl : AssocNodup l) (k : κ) :
    holdings w l = (assocGet k l).elim 0 w + holdings w (assocErase k l) := by
  cases h : assocGet k l with
  | none =>
    have hnot : k ∉ l.map Prod.fst := by
      intro hk
      obtain ⟨x, hx, rfl⟩ := List.mem_map.mp hk
      obtain ⟨y, hy⟩ := assocGet_isSome_of_mem (k := x.1) (x := x.2) hx
      rw [h] at hy
      cases hy
    rw [assocErase_eq_self hnot, Option.elim_none, zero_add]
  | some x =>
    rw [Option.elim_some, holdings, ((hl.perm_of_get h).map fun x => w x.2).sum_eq]
    exact holdings_cons w (k, x) (assocErase k l)

end Table

end BasisRust.Library
