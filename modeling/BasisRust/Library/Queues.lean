import Mathlib.Algebra.BigOperators.Group.Finset.Basic
import Mathlib.Algebra.BigOperators.Group.Finset.Piecewise
import Mathlib.Algebra.BigOperators.Group.List.Basic
import Mathlib.Algebra.Ring.Nat
import Mathlib.Data.Fintype.Basic

/-!
# Families of queues

A family of queues is a function from keys to lists.  Items on their way into or out of such a
family travel in one list of keyed items; `onKey k` is the part of it that belongs to the queue of
`k`.  `queueTotal` weighs everything a family holds, and `queueTotal_split` says that moving keyed
items out of a family moves exactly their weight.
-/

namespace BasisRust.Library

variable {κ α : Type} [DecidableEq κ]

/-- The items of a keyed list that belong to `k`, in order. -/
def onKey (k : κ) (xs : List (κ × α)) : List α := (xs.filter fun x => x.1 = k).map Prod.snd

@[simp] theorem onKey_nil (k : κ) : onKey k ([] : List (κ × α)) = [] := rfl

@[simp] theorem onKey_cons_self (k : κ) (x : α) (xs : List (κ × α)) :
    onKey k ((k, x) :: xs) = x :: onKey k xs := by
  simp [onKey]

theorem onKey_cons_of_ne {k j : κ} (h : j ≠ k) (x : α) (xs : List (κ × α)) :
    onKey k ((j, x) :: xs) = onKey k xs := by
  simp [onKey, h]

@[simp] theorem onKey_append (k : κ) (xs ys : List (κ × α)) :
    onKey k (xs ++ ys) = onKey k xs ++ onKey k ys := by
  simp [onKey]

@[simp] theorem onKey_map_self (k : κ) (l : List α) : onKey k (l.map fun x => (k, x)) = l := by
  induction l with
  | nil => rfl
  | cons x l ih => simp [ih]

theorem onKey_map_of_ne {k j : κ} (h : j ≠ k) (l : List α) :
    onKey k (l.map fun x => (j, x)) = [] := by
  induction l with
  | nil => rfl
  | cons x l ih => simp only [List.map_cons, onKey_cons_of_ne h, ih]

theorem mem_onKey {k : κ} {x : α} {xs : List (κ × α)} : x ∈ onKey k xs ↔ (k, x) ∈ xs := by
  simp [onKey]

section Total

variable [Fintype κ]

/-- The weight of everything in a family of queues. -/
def queueTotal (w : α → ℕ) (q : κ → List α) : ℕ := ∑ k, ((q k).map w).sum

/-- Every keyed item belongs to exactly one queue. -/
theorem queueTotal_onKey (w : α → ℕ) (xs : List (κ × α)) :
    queueTotal w (fun k => onKey k xs) = (xs.map fun x => w x.2).sum := by
  induction xs with
  | nil => simp [queueTotal]
  | cons x xs ih =>
    obtain ⟨j, x⟩ := x
    have hcons : ∀ k, ((onKey k ((j, x) :: xs)).map w).sum =
        (if k = j then w x else 0) + ((onKey k xs).map w).sum := by
      intro k
      by_cases hk : k = j
      · subst hk
        simp
      · simp [onKey_cons_of_ne (Ne.symm hk), hk]
    rw [queueTotal] at ih ⊢
    simp only [hcons, Finset.sum_add_distrib, ih, Finset.sum_ite_eq', Finset.mem_univ, if_true,
      List.map_cons, List.sum_cons]

/-- **Moving weighs nothing.**  If every queue of `q` is its part of `xs` followed by its queue in
`q'`, the weight of `q` is that of `xs` plus that of `q'`. -/
theorem queueTotal_split {w : α → ℕ} {q q' : κ → List α} {xs : List (κ × α)}
    (h : ∀ k, q k = onKey k xs ++ q' k) :
    queueTotal w q = (xs.map fun x => w x.2).sum + queueTotal w q' := by
  rw [← queueTotal_onKey]
  simp only [queueTotal, h, List.map_append, List.sum_append, Finset.sum_add_distrib]

/-- Appending keyed items adds their weight. -/
theorem queueTotal_append {w : α → ℕ} {q q' : κ → List α} {xs : List (κ × α)}
    (h : ∀ k, q' k = q k ++ onKey k xs) :
    queueTotal w q' = queueTotal w q + (xs.map fun x => w x.2).sum := by
  rw [← queueTotal_onKey]
  simp only [queueTotal, h, List.map_append, List.sum_append, Finset.sum_add_distrib]

/-- Changing one queue changes the weight by the difference there. -/
theorem queueTotal_update (w : α → ℕ) (q : κ → List α) (k : κ) (l : List α) :
    queueTotal w (Function.update q k l) + ((q k).map w).sum = queueTotal w q + (l.map w).sum := by
  have hsplit : ∀ r : κ → List α, queueTotal w r =
      ((r k).map w).sum + ∑ j ∈ Finset.univ.erase k, ((r j).map w).sum := by
    intro r
    exact (Finset.add_sum_erase _ _ (Finset.mem_univ k)).symm
  have hrest : ∑ j ∈ Finset.univ.erase k, ((Function.update q k l j).map w).sum =
      ∑ j ∈ Finset.univ.erase k, ((q j).map w).sum := by
    apply Finset.sum_congr rfl
    intro j hj
    rw [Function.update_of_ne (Finset.ne_of_mem_erase hj)]
  rw [hsplit (Function.update q k l), hsplit q, hrest, Function.update_self]
  omega

end Total

end BasisRust.Library
