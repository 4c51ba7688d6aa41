import Mathlib.Data.List.Basic

/-!
# Lists with some elements dropped

`Thins gone xs ys` says that `ys` is `xs` with some of the elements dropped that are `gone`, in the
same order and without repetition.  A queue whose entries may be cancelled while they wait delivers
such a thinning of what was put in.
-/

namespace BasisRust.Library

variable {α : Type}

inductive Thins (gone : α → Prop) : List α → List α → Prop
  | nil : Thins gone [] []
  | keep {x : α} {xs ys : List α} (h : Thins gone xs ys) : Thins gone (x :: xs) (x :: ys)
  | drop {x : α} {xs ys : List α} (hx : gone x) (h : Thins gone xs ys) : Thins gone (x :: xs) ys

namespace Thins

variable {gone gone' : α → Prop} {xs ys zs ws : List α}

theorem refl (xs : List α) : Thins gone xs xs := by
  induction xs with
  | nil => exact .nil
  | cons x xs ih => exact .keep ih

theorem trans (h : Thins gone xs ys) (h' : Thins gone ys zs) : Thins gone xs zs := by
  induction h generalizing zs with
  | nil => exact h'
  | keep _ ih =>
    cases h' with
    | keep h' => exact .keep (ih h')
    | drop hx h' => exact .drop hx (ih h')
  | drop hx _ ih => exact .drop hx (ih h')

theorem mono (himp : ∀ x, gone x → gone' x) (h : Thins gone xs ys) : Thins gone' xs ys := by
  induction h with
  | nil => exact .nil
  | keep _ ih => exact .keep ih
  | drop hx _ ih => exact .drop (himp _ hx) ih

theorem append (h : Thins gone xs ys) (h' : Thins gone zs ws) :
    Thins gone (xs ++ zs) (ys ++ ws) := by
  induction h with
  | nil => exact h'
  | keep _ ih => exact .keep ih
  | drop hx _ ih => exact .drop hx ih

/-- What a thinning starts with is a thinning of a beginning of the list. -/
theorem split (h : Thins gone xs (ys ++ zs)) :
    ∃ n, Thins gone (xs.take n) ys ∧ Thins gone (xs.drop n) zs := by
  induction xs generalizing ys with
  | nil =>
    cases hy : ys ++ zs with
    | nil =>
      obtain ⟨rfl, rfl⟩ := List.append_eq_nil_iff.mp hy
      exact ⟨0, .nil, .nil⟩
    | cons y l =>
      rw [hy] at h
      cases h
  | cons x xs ih =>
    cases ys with
    | nil => exact ⟨0, .nil, h⟩
    | cons y ys =>
      cases h with
      | keep h =>
        obtain ⟨n, hl, hr⟩ := ih h
        exact ⟨n + 1, .keep hl, hr⟩
      | drop hx h =>
        obtain ⟨n, hl, hr⟩ := @ih (y :: ys) h
        exact ⟨n + 1, .drop hx hl, hr⟩

theorem filter (p : α → Bool) (hgone : ∀ x, p x = false → gone x) (xs : List α) :
    Thins gone xs (xs.filter p) := by
  induction xs with
  | nil => exact .nil
  | cons x xs ih =>
    rw [List.filter_cons]
    split_ifs with hx
    · exact .keep ih
    · exact .drop (hgone x (by simpa using hx)) ih

end Thins

end BasisRust.Library
