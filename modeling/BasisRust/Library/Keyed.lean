import Mathlib.Data.List.Basic

/-!
# Lists with one element for each key

`replaceOrPush p x` puts `x` in the place of the first element with `p`, or at the end.  If `p` asks
for the key of `x`, the keys stay the same or get one more.
-/

namespace BasisRust.Library

variable {α κ : Type}

/-- Replace the first element with a property, or add one. -/
def replaceOrPush (p : α → Bool) (x : α) : List α → List α
  | [] => [x]
  | y :: l => if p y then x :: l else y :: replaceOrPush p x l

variable {p : α → Bool} {x : α} {l : List α}

theorem mem_replaceOrPush {y : α} (h : y ∈ replaceOrPush p x l) : y = x ∨ y ∈ l := by
  induction l with
  | nil => exact .inl (List.mem_singleton.mp h)
  | cons z l ih =>
    rw [replaceOrPush] at h
    split at h
    · exact (List.mem_cons.mp h).imp_right (List.mem_cons_of_mem _)
    · rcases List.mem_cons.mp h with h | h
      · exact .inr (h ▸ .head _)
      · exact (ih h).imp_right (List.mem_cons_of_mem _)

theorem replaceOrPush_of_not (h : ∀ y ∈ l, p y = false) : replaceOrPush p x l = l ++ [x] := by
  induction l with
  | nil => rfl
  | cons z l ih =>
    rw [replaceOrPush, h z (.head _), if_neg Bool.false_ne_true,
      ih fun y hy => h y (.tail _ hy)]
    rfl

/-- The keys after `x` was put in. -/
theorem nodup_replaceOrPush {key : α → κ} (hp : ∀ y, p y = true ↔ key y = key x)
    (h : (l.map key).Nodup) : ((replaceOrPush p x l).map key).Nodup := by
  induction l with
  | nil => exact List.pairwise_singleton _ _
  | cons z l ih =>
    obtain ⟨hz, hl⟩ := List.nodup_cons.mp h
    rw [replaceOrPush]
    split
    · rename_i hpz
      rw [List.map_cons, ← (hp z).mp hpz]
      exact h
    · rename_i hpz
      refine List.nodup_cons.mpr ⟨?_, ih hl⟩
      intro hmem
      obtain ⟨y, hy, hkey⟩ := List.mem_map.mp hmem
      rcases mem_replaceOrPush hy with rfl | hy
      · exact hpz ((hp z).mpr hkey.symm)
      · exact hz (List.mem_map.mpr ⟨y, hy, hkey⟩)

/-- Putting in, one by one, elements with keys of their own. -/
theorem foldl_push (key : α → κ) {f : List α → α → List α}
    (hf : ∀ acc, ∀ x ∈ l, (∀ y ∈ acc, key y ≠ key x) → f acc x = acc ++ [x]) :
    ∀ acc, ((acc ++ l).map key).Nodup → l.foldl f acc = acc ++ l := by
  induction l with
  | nil =>
    intro acc _
    exact (List.append_nil acc).symm
  | cons x l ih =>
    intro acc h
    have hnew : ∀ y ∈ acc, key y ≠ key x := by
      intro y hy heq
      rw [List.map_append, List.map_cons] at h
      have hdisjoint := (List.nodup_append.mp h).2.2
      exact hdisjoint (key y) (List.mem_map_of_mem hy) (key x) (.head _) heq
    have hrest := ih (fun acc y hy => hf acc y (.tail _ hy)) (acc ++ [x])
      (by rw [List.append_assoc]; exact h)
    rw [List.foldl_cons, hf acc x (.head _) hnew, hrest, List.append_assoc]
    rfl

end BasisRust.Library
