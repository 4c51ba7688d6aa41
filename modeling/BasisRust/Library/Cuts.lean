import BasisRust.Library.Text

/-!
# Cutting a list at a separator

`cutOnce sep s` is what comes before and what comes after the first place at which `sep` stands in
`s`. `cutOnce_spec` puts the pieces together again, and `cutOnce_fresh` finds them: the first place
is the one after a piece in which the separator does not even begin.

`splitOn_nonempty` says when no piece between separators is empty.
-/

namespace BasisRust.Library

variable {α : Type} [DecidableEq α]

/-- `str::split_once`. -/
def cutOnce (sep : List α) : List α → Option (List α × List α)
  | [] => if sep = [] then some ([], []) else none
  | x :: s =>
    if sep.isPrefixOf (x :: s) then some ([], (x :: s).drop sep.length)
    else (cutOnce sep s).map fun p => (x :: p.1, p.2)

variable {sep s a : List α} {x : α}

theorem cutOnce_spec {b : List α} (h : cutOnce sep s = some (a, b)) : s = a ++ sep ++ b := by
  induction s generalizing a with
  | nil =>
    rw [cutOnce] at h
    split at h
    · rename_i hsep
      cases h
      rw [hsep]
      rfl
    · cases h
  | cons x s ih =>
    rw [cutOnce] at h
    split at h
    · rename_i hbegins
      obtain ⟨t, ht⟩ := List.isPrefixOf_iff_prefix.mp hbegins
      cases h
      rw [← ht, List.drop_left]
      rfl
    · cases hcut : cutOnce sep s with
      | none =>
        rw [hcut] at h
        cases h
      | some p =>
        rw [hcut] at h
        cases h
        rw [ih hcut]
        rfl

/-- The separator is found behind a piece that does not contain its first element. -/
theorem cutOnce_fresh (hfresh : x ∉ a) (b : List α) :
    cutOnce (x :: sep) (a ++ x :: sep ++ b) = some (a, b) := by
  induction a with
  | nil =>
    have hbegins : (x :: sep).isPrefixOf (x :: sep ++ b) :=
      List.isPrefixOf_iff_prefix.mpr (List.prefix_append _ _)
    have hrest : (x :: sep ++ b).drop (x :: sep).length = b := List.drop_left
    exact (if_pos hbegins).trans (congrArg (fun t => some ([], t)) hrest)
  | cons y a ih =>
    have hne : x ≠ y := fun heq => hfresh (heq ▸ .head _)
    have hbegins : (x :: sep).isPrefixOf (y :: (a ++ x :: sep ++ b)) = false := by
      rw [List.isPrefixOf_cons_cons, beq_eq_false_iff_ne.mpr hne, Bool.false_and]
    show cutOnce (x :: sep) (y :: (a ++ x :: sep ++ b)) = some (y :: a, b)
    rw [cutOnce, hbegins, if_neg Bool.false_ne_true, ih fun hmem => hfresh (.tail _ hmem)]
    rfl

/-- A separator of one element does not stand in what comes before it. -/
theorem notMem_of_cutOnce {b : List α} (h : cutOnce [x] s = some (a, b)) : x ∉ a := by
  induction s generalizing a with
  | nil => cases h
  | cons y s ih =>
    rw [cutOnce] at h
    split at h
    · cases h
      exact List.not_mem_nil
    · rename_i hbegins
      cases hcut : cutOnce [x] s with
      | none =>
        rw [hcut] at h
        cases h
      | some p =>
        rw [hcut] at h
        cases h
        intro hmem
        rcases List.mem_cons.mp hmem with rfl | hmem
        · exact hbegins (List.isPrefixOf_iff_prefix.mpr ⟨s, rfl⟩)
        · exact ih hcut hmem

theorem cutOnce_none : cutOnce [x] s = none ↔ x ∉ s := by
  constructor
  · intro h hmem
    obtain ⟨a, b, rfl, hfresh⟩ := List.eq_append_cons_of_mem hmem
    have hcut : cutOnce [x] (a ++ [x] ++ b) = some (a, b) := cutOnce_fresh hfresh b
    rw [List.append_assoc] at hcut
    exact absurd (h.symm.trans hcut) (by simp)
  · intro hfresh
    cases hcut : cutOnce [x] s with
    | none => rfl
    | some p =>
      rw [cutOnce_spec hcut] at hfresh
      exact absurd (by simp) hfresh

theorem isSome_cutOnce : (cutOnce sep s).isSome ↔ sep <:+: s := by
  induction s with
  | nil =>
    rw [cutOnce]
    split
    · rename_i hsep
      simp [hsep]
    · rename_i hsep
      simp [hsep]
  | cons x s ih =>
    rw [cutOnce]
    split
    · rename_i hbegins
      simp only [Option.isSome_some, true_iff]
      exact (List.isPrefixOf_iff_prefix.mp hbegins).isInfix
    · rename_i hbegins
      rw [Option.isSome_map, ih, List.infix_cons_iff, or_iff_right]
      exact fun h => hbegins (List.isPrefixOf_iff_prefix.mpr h)

/-! ### Pieces between separators -/

/-- The first piece and the others.  The induction follows the text: a separator makes what was the
first piece one of the others. -/
theorem exists_splitOn (x : α) (s : List α) : ∃ l ls, s.splitOn x = l :: ls ∧
    (l ≠ [] ↔ ∃ c, s.head? = some c ∧ c ≠ x) ∧
    ((∀ p ∈ ls, p ≠ []) ↔ s.getLast? ≠ some x ∧ ¬ [x, x] <:+: s) := by
  induction s with
  | nil => exact ⟨[], [], rfl, by simp, by simp⟩
  | cons y s ih =>
    obtain ⟨l, ls, hsplit, hfirst, hothers⟩ := ih
    by_cases hy : y = x
    · refine ⟨[], l :: ls, ?_, ?_, ?_⟩
      · rw [List.splitOn_cons_eq_if_modifyHead, if_pos (beq_iff_eq.mpr hy), hsplit]
      · simp [hy]
      · rw [List.forall_mem_cons, hfirst, hothers, hy]
        cases s with
        | nil => simp
        | cons c s => simp [List.infix_cons_iff (a := x), eq_comm (a := x), and_left_comm]
    · refine ⟨y :: l, ls, ?_, ?_, ?_⟩
      · rw [List.splitOn_cons_eq_if_modifyHead, if_neg (fun h => hy (beq_iff_eq.mp h)), hsplit]
        rfl
      · simp [hy]
      · rw [hothers, List.infix_cons_iff]
        cases s with
        | nil => simp [hy]
        | cons c s => simp [eq_comm (a := x), hy]

/-- **No piece is empty if no separator begins the text, ends it or stands behind another one.** -/
theorem splitOn_nonempty : (∀ p ∈ s.splitOn x, p ≠ []) ↔
    (∃ c, s.head? = some c ∧ c ≠ x) ∧ s.getLast? ≠ some x ∧ ¬ [x, x] <:+: s := by
  obtain ⟨l, ls, hsplit, hfirst, hothers⟩ := exists_splitOn x s
  rw [hsplit, List.forall_mem_cons, hfirst, hothers]

/-- A piece is made of elements that are not the separator. -/
theorem mem_of_mem_splitOn {p : List α} (h : p ∈ s.splitOn x) : ∀ c ∈ p, c ∈ s ∧ c ≠ x := by
  induction s generalizing p with
  | nil =>
    rw [List.splitOn_nil, List.mem_singleton] at h
    rw [h]
    exact nofun
  | cons y s ih =>
    have hcons : ∀ {p}, p ∈ s.splitOn x → ∀ c ∈ p, c ∈ y :: s ∧ c ≠ x := fun hp c hc =>
      ⟨.tail _ (ih hp c hc).1, (ih hp c hc).2⟩
    rw [List.splitOn_cons_eq_if_modifyHead] at h
    split at h
    · rcases List.mem_cons.mp h with rfl | h
      · exact nofun
      · exact hcons h
    · rename_i hy
      obtain ⟨l, ls, hsplit, -⟩ := exists_splitOn x s
      rw [hsplit] at h hcons
      rcases List.mem_cons.mp h with rfl | h
      · refine List.forall_mem_cons.mpr ⟨⟨.head _, fun heq => ?_⟩, hcons (.head _)⟩
        exact hy (beq_iff_eq.mpr heq)
      · exact hcons (.tail _ h)

/-- What stands behind the last separator. -/
theorem getLast_splitOn_intercalate {ls : List (List α)} (hls : ls ≠ []) (h : ∀ l ∈ ls, x ∉ l) :
    (([x].intercalate ls).splitOn x).getLastD [] = ls.getLast hls := by
  rw [List.splitOn_intercalate x h hls, List.getLastD_eq_getLast?,
    List.getLast?_eq_some_getLast hls]
  rfl

end BasisRust.Library
