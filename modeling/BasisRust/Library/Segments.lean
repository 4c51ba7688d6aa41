import Mathlib.Data.List.Basic

/-!
# Streams made of segments

A stream `xs.flatMap f` is the concatenation of one segment for each element of `xs`.  `startOf`
is where a segment starts; `getElem?_segment` reads the stream at a place inside a segment, and
`exists_segment` finds the segment of a place.
-/

namespace BasisRust.Library

variable {α β : Type} {f : α → List β} {xs ys : List α} {x : α} {i j n : ℕ}

/-- Where the segment of element `i` starts. -/
def startOf (f : α → List β) (xs : List α) (i : ℕ) : ℕ := ((xs.take i).flatMap f).length

theorem startOf_succ (h : xs[i]? = some x) :
    startOf f xs (i + 1) = startOf f xs i + (f x).length := by
  rw [startOf, startOf, List.take_add_one, h]
  simp

/-- Later elements do not move the segments of the earlier ones. -/
theorem startOf_extends (h : xs <+: ys) (hi : i ≤ xs.length) : startOf f ys i = startOf f xs i := by
  obtain ⟨zs, rfl⟩ := h
  rw [startOf, startOf, List.take_append_of_le_length hi]

/-- Reading the stream inside a segment. -/
theorem getElem?_segment (h : xs[i]? = some x) (hj : j < (f x).length) :
    (xs.flatMap f)[startOf f xs i + j]? = (f x)[j]? := by
  obtain ⟨hi, hx⟩ := List.getElem?_eq_some_iff.mp h
  have hsplit : xs = xs.take i ++ x :: xs.drop (i + 1) := by
    rw [← hx, ← List.drop_eq_getElem_cons hi, List.take_append_drop]
  have hflat : xs.flatMap f = (xs.take i).flatMap f ++ (f x ++ (xs.drop (i + 1)).flatMap f) := by
    conv_lhs => rw [hsplit]
    simp
  rw [hflat, startOf, List.getElem?_append_right (Nat.le_add_right _ _), Nat.add_sub_cancel_left,
    List.getElem?_append_left hj]

/-- Every place of the stream lies in a segment. -/
theorem exists_segment (h : n < (xs.flatMap f).length) :
    ∃ i x j, xs[i]? = some x ∧ j < (f x).length ∧ n = startOf f xs i + j := by
  induction xs generalizing n with
  | nil => simp at h
  | cons y xs ih =>
    rcases Nat.lt_or_ge n (f y).length with hlt | hge
    · exact ⟨0, y, n, rfl, hlt, (Nat.zero_add n).symm⟩
    · rw [List.flatMap_cons, List.length_append] at h
      obtain ⟨i, x, j, hx, hj, hn⟩ := ih (n := n - (f y).length) (by omega)
      refine ⟨i + 1, x, j, hx, hj, ?_⟩
      simp only [startOf, List.take_succ_cons, List.flatMap_cons, List.length_append] at hn ⊢
      omega

end BasisRust.Library
