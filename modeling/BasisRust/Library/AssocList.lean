import Mathlib.Algebra.BigOperators.Group.List.Basic
import Mathlib.Algebra.Ring.Nat
import Mathlib.Data.List.Basic

/-!
# Association lists

A hash map whose iteration order does not matter is a list of keyed entries with at most one entry
for each key.  The operations are `assocGet`, `assocSet` and `assocErase`, and `assocPut`, which is
one or the other; the lemmas say what a read returns after each of them.  `assocSum` adds up a
weight over all entries, and `AssocNodup.sum_put` says how an update changes the sum.
-/

namespace BasisRust.Library

variable {κ α : Type} [DecidableEq κ]

/-- The entry of a key. -/
def assocGet (k : κ) : List (κ × α) → Option α
  | [] => none
  | (j, x) :: l => if j = k then some x else assocGet k l

/-- Remove the entry of a key. -/
def assocErase (k : κ) (l : List (κ × α)) : List (κ × α) := l.filter fun x => x.1 ≠ k

/-- Insert or replace the entry of a key. -/
def assocSet (k : κ) (x : α) (l : List (κ × α)) : List (κ × α) := (k, x) :: assocErase k l

@[simp] theorem assocGet_nil (k : κ) : assocGet k ([] : List (κ × α)) = none := rfl

theorem assocErase_cons (k j : κ) (x : α) (l : List (κ × α)) :
    assocErase k ((j, x) :: l) = if j = k then assocErase k l else (j, x) :: assocErase k l := by
  by_cases h : j = k <;> simp [assocErase, h]

@[simp] theorem assocGet_erase_self (k : κ) (l : List (κ × α)) :
    assocGet k (assocErase k l) = none := by
  induction l with
  | nil => rfl
  | cons x l ih =>
    obtain ⟨j, x⟩ := x
    rw [assocErase_cons]
    split_ifs with h
    · exact ih
    · rw [assocGet, if_neg h, ih]

variable {k : κ} {k' : κ} {x : α}

theorem assocGet_erase_of_ne (h : k' ≠ k) (l : List (κ × α)) :
    assocGet k' (assocErase k l) = assocGet k' l := by
  induction l with
  | nil => rfl
  | cons x l ih =>
    obtain ⟨j, x⟩ := x
    rw [assocErase_cons]
    split_ifs with hj
    · rw [ih, assocGet, if_neg (by rw [hj]; exact Ne.symm h)]
    · rw [assocGet, assocGet, ih]

variable {l : List (κ × α)}

theorem assocGet_of_erase (h : assocGet k' (assocErase k l) = some x) : assocGet k' l = some x := by
  by_cases heq : k' = k
  · subst heq
    rw [assocGet_erase_self] at h
    cases h
  · rw [assocGet_erase_of_ne heq] at h
    exact h

@[simp] theorem assocGet_set_self (k : κ) (x : α) (l : List (κ × α)) :
    assocGet k (assocSet k x l) = some x := by
  rw [assocSet, assocGet, if_pos rfl]

theorem assocGet_set_of_ne (h : k' ≠ k) (x : α) (l : List (κ × α)) :
    assocGet k' (assocSet k x l) = assocGet k' l := by
  rw [assocSet, assocGet, if_neg (Ne.symm h), assocGet_erase_of_ne h]

theorem mem_of_mem_assocErase {y : κ × α} (h : y ∈ assocErase k l) : y ∈ l :=
  (List.mem_filter.mp h).1

theorem mem_assocSet {y : κ × α} (h : y ∈ assocSet k x l) : y = (k, x) ∨ y ∈ l := by
  rcases List.mem_cons.mp h with h | h
  · exact .inl h
  · exact .inr (mem_of_mem_assocErase h)

/-- Reading after every entry was changed by itself. -/
theorem assocGet_map {β : Type} (l : List (κ × α)) (f : α → β) (k : κ) :
    assocGet k (l.map fun x => (x.1, f x.2)) = (assocGet k l).map f := by
  induction l with
  | nil => rfl
  | cons x l ih =>
    obtain ⟨j, x⟩ := x
    rw [List.map_cons, assocGet, assocGet, ih]
    split_ifs <;> rfl

/-! ### Updates that may remove the entry -/

/-- Replace the entry of a key, or remove it. -/
def assocPut (k : κ) : Option α → List (κ × α) → List (κ × α)
  | none => assocErase k
  | some x => assocSet k x

theorem assocGet_put (k k' : κ) (o : Option α) (l : List (κ × α)) :
    assocGet k' (assocPut k o l) = if k' = k then o else assocGet k' l := by
  cases o with
  | none =>
    by_cases h : k' = k
    · subst h
      simp [assocPut]
    · simp [assocPut, h, assocGet_erase_of_ne h]
  | some x =>
    by_cases h : k' = k
    · subst h
      simp [assocPut]
    · simp [assocPut, h, assocGet_set_of_ne h]

/-! ### One entry for each key -/

/-- No key has two entries. -/
def AssocNodup (l : List (κ × α)) : Prop := (l.map Prod.fst).Nodup

omit [DecidableEq κ] in
theorem AssocNodup.nil : AssocNodup ([] : List (κ × α)) := List.nodup_nil

theorem mem_keys_of_assocGet (h : assocGet k l = some x) : (k, x) ∈ l := by
  induction l with
  | nil => cases h
  | cons y l ih =>
    obtain ⟨j, y⟩ := y
    rw [assocGet] at h
    split_ifs at h with hj
    · cases h
      subst hj
      exact .head _
    · exact .tail _ (ih h)

theorem assocGet_eq_none (h : k ∉ l.map Prod.fst) : assocGet k l = none := by
  cases hg : assocGet k l with
  | none => rfl
  | some x => exact absurd (List.mem_map_of_mem (mem_keys_of_assocGet hg)) h

theorem assocGet_isSome_of_mem (h : (k, x) ∈ l) : ∃ y, assocGet k l = some y := by
  induction l with
  | nil => cases h
  | cons z l ih =>
    obtain ⟨j, z⟩ := z
    rw [assocGet]
    split_ifs with hj
    · exact ⟨z, rfl⟩
    · refine ih ((List.mem_cons.mp h).resolve_left ?_)
      rintro heq
      cases heq
      exact hj rfl

section

variable (hl : AssocNodup l)
include hl

theorem AssocNodup.get_of_mem (h : (k, x) ∈ l) : assocGet k l = some x := by
  induction l with
  | nil => cases h
  | cons y l ih =>
    obtain ⟨j, y⟩ := y
    have hl' := List.nodup_cons.mp hl
    rcases List.mem_cons.mp h with heq | hmem
    · cases heq
      rw [assocGet, if_pos rfl]
    · have hj : j ≠ k := by
        intro hjk
        subst hjk
        exact hl'.1 (List.mem_map.mpr ⟨_, hmem, rfl⟩)
      rw [assocGet, if_neg hj]
      exact ih hl'.2 hmem

theorem AssocNodup.erase (k : κ) : AssocNodup (assocErase k l) :=
  hl.sublist (List.filter_sublist.map Prod.fst)

theorem AssocNodup.put (k : κ) (o : Option α) : AssocNodup (assocPut k o l) := by
  cases o with
  | none => exact hl.erase k
  | some x =>
    refine List.nodup_cons.mpr ⟨?_, hl.erase k⟩
    simp [assocErase]

/-- If only one key contributes, collecting over all entries reads that key. -/
theorem AssocNodup.flatMap_of_only {β : Type} (f : α → List β) (k : κ)
    (h : ∀ j x, (j, x) ∈ l → j ≠ k → f x = []) :
    (l.flatMap fun x => f x.2) = (assocGet k l).elim [] f := by
  induction l with
  | nil => rfl
  | cons y l ih =>
    obtain ⟨j, y⟩ := y
    have hl' := List.nodup_cons.mp hl
    have hrest := ih hl'.2 fun j' x hx => h j' x (.tail _ hx)
    rw [List.flatMap_cons, hrest, assocGet]
    split_ifs with hj
    · subst hj
      rw [assocGet_eq_none hl'.1]
      simp
    · rw [h j y (.head _) hj, List.nil_append]

/-- Dropping entries by their key and value. -/
theorem AssocNodup.get_filter_entry (p : κ × α → Bool) (k : κ) :
    assocGet k (l.filter p) = (assocGet k l).filter fun x => p (k, x) := by
  induction l with
  | nil => rfl
  | cons x l ih =>
    obtain ⟨j, x⟩ := x
    have hl' := List.nodup_cons.mp hl
    rw [assocGet, List.filter_cons]
    by_cases hj : j = k
    · subst hj
      rw [if_pos rfl]
      by_cases hp : p (j, x) = true
      · simp [hp, assocGet, Option.filter]
      · simp [hp, ih hl'.2, assocGet_eq_none hl'.1, Option.filter]
    · rw [if_neg hj, ← ih hl'.2]
      by_cases hp : p (j, x) = true
      · simp [hp, assocGet, hj]
      · simp [hp]

/-- Dropping entries by their value. -/
theorem AssocNodup.get_filter (p : α → Bool) (k : κ) :
    assocGet k (l.filter fun x => p x.2) = (assocGet k l).filter p :=
  hl.get_filter_entry (fun x => p x.2) k

end

omit [DecidableEq κ] in
theorem AssocNodup.map {β : Type} (hl : AssocNodup l) (f : α → β) :
    AssocNodup (l.map fun x => (x.1, f x.2)) := by
  rw [AssocNodup, List.map_map]
  exact hl

omit [DecidableEq κ] in
theorem AssocNodup.filter (hl : AssocNodup l) (p : κ × α → Bool) : AssocNodup (l.filter p) :=
  List.Nodup.sublist (List.filter_sublist.map Prod.fst) hl

/-- The keys of the entries with a property. -/
theorem AssocNodup.mem_filter_keys (hl : AssocNodup l) (p : α → Bool) :
    k ∈ (l.filter fun x => p x.2).map Prod.fst ↔ ∃ x, assocGet k l = some x ∧ p x = true := by
  constructor
  · intro hk
    obtain ⟨⟨j, x⟩, hx, heq⟩ := List.mem_map.mp hk
    cases heq
    obtain ⟨hmem, hp⟩ := List.mem_filter.mp hx
    exact ⟨x, hl.get_of_mem hmem, hp⟩
  · intro hk
    obtain ⟨x, hx, hp⟩ := hk
    exact List.mem_map.mpr ⟨(k, x), List.mem_filter.mpr ⟨mem_keys_of_assocGet hx, hp⟩, rfl⟩

theorem assocErase_eq_self (h : k ∉ l.map Prod.fst) : assocErase k l = l := by
  refine List.filter_eq_self.mpr fun x hx => ?_
  have hne : x.1 ≠ k := fun hxk => h (hxk ▸ List.mem_map_of_mem hx)
  simpa using hne

theorem length_assocErase_le (k : κ) (l : List (κ × α)) : (assocErase k l).length ≤ l.length :=
  List.length_filter_le _ _

theorem length_assocSet_of_get (h : assocGet k l = some x) (y : α) :
    (assocSet k y l).length ≤ l.length := by
  have hmem := mem_keys_of_assocGet h
  have hlt : (assocErase k l).length < l.length := by
    apply List.length_filter_lt_length_iff_exists.mpr
    exact ⟨(k, x), hmem, by simp⟩
  exact hlt

/-- The entry of a key can be put first. -/
theorem AssocNodup.perm_of_get (hl : AssocNodup l) (h : assocGet k l = some x) :
    l.Perm ((k, x) :: assocErase k l) := by
  induction l with
  | nil => cases h
  | cons y l ih =>
    obtain ⟨j, y⟩ := y
    have hl' := List.nodup_cons.mp hl
    rw [assocGet] at h
    rw [assocErase_cons]
    split_ifs at h ⊢ with hj
    · cases h
      subst hj
      rw [assocErase_eq_self hl'.1]
    · exact ((ih hl'.2 h).cons _).trans (List.Perm.swap _ _ _)

/-! ### Renamed keys -/

section Renamed

variable {κ' β : Type} [DecidableEq κ'] {f : κ → κ'} {g : α → β} {k : κ} {l : List (κ × α)}

/-- Reading under a renaming that keeps the key apart from the others. -/
theorem assocGet_renamed (h : ∀ x ∈ l, f x.1 = f k → x.1 = k) :
    assocGet (f k) (l.map fun x => (f x.1, g x.2)) = (assocGet k l).map g := by
  induction l with
  | nil => rfl
  | cons x l ih =>
    have hrest := ih fun y hy => h y (.tail _ hy)
    obtain ⟨j, x⟩ := x
    rw [List.map_cons, assocGet, assocGet, hrest]
    by_cases hj : j = k
    · rw [if_pos hj, if_pos (congrArg f hj), Option.map_some]
    · rw [if_neg hj, if_neg fun hf => hj (h (j, x) (.head _) hf)]

theorem assocPut_renamed (h : ∀ x ∈ l, f x.1 = f k → x.1 = k) (o : Option α) :
    assocPut (f k) (o.map g) (l.map fun x => (f x.1, g x.2)) =
      (assocPut k o l).map fun x => (f x.1, g x.2) := by
  have herase : assocErase (f k) (l.map fun x => (f x.1, g x.2)) =
      (assocErase k l).map fun x => (f x.1, g x.2) := by
    unfold assocErase
    rw [List.filter_map]
    congr 1
    refine List.filter_congr ?_
    intro x hx
    show decide (f x.1 ≠ f k) = decide (x.1 ≠ k)
    exact decide_eq_decide.mpr
      ⟨fun hne heq => hne (congrArg f heq), fun hne heq => hne (h x hx heq)⟩
  cases o with
  | none => exact herase
  | some x => exact congrArg _ herase

end Renamed

/-! ### Sums over the entries -/

/-- The sum of a weight over all entries. -/
def assocSum (w : α → ℕ) (l : List (κ × α)) : ℕ := (l.map fun x => w x.2).sum

omit [DecidableEq κ] in
@[simp] theorem assocSum_cons (w : α → ℕ) (x : κ × α) (l : List (κ × α)) :
    assocSum w (x :: l) = w x.2 + assocSum w l := by
  simp [assocSum]

theorem AssocNodup.sum_erase (hl : AssocNodup l) (w : α → ℕ) (k : κ) :
    assocSum w (assocErase k l) + (assocGet k l).elim 0 w = assocSum w l := by
  induction l with
  | nil => rfl
  | cons x l ih =>
    obtain ⟨j, x⟩ := x
    have hl' := List.nodup_cons.mp hl
    rw [assocErase_cons, assocGet]
    split_ifs with h
    · subst h
      rw [assocErase_eq_self hl'.1, assocSum_cons, Option.elim, Nat.add_comm]
    · rw [assocSum_cons, assocSum_cons, ← ih hl'.2, Nat.add_assoc]

theorem AssocNodup.sum_eq_keys (hl : AssocNodup l) (w : α → ℕ) :
    assocSum w l = ((l.map Prod.fst).map fun k => (assocGet k l).elim 0 w).sum := by
  rw [assocSum, List.map_map]
  congr 1
  apply List.map_congr_left
  intro x hx
  rw [Function.comp_apply, hl.get_of_mem hx]
  rfl

/-- The keys are those under which something is found. -/
theorem mem_keys_iff : k ∈ l.map Prod.fst ↔ ∃ x, assocGet k l = some x := by
  constructor
  · intro hk
    obtain ⟨⟨j, x⟩, hx, rfl⟩ := List.mem_map.mp hk
    exact assocGet_isSome_of_mem hx
  · intro hk
    obtain ⟨x, hx⟩ := hk
    exact List.mem_map_of_mem (mem_keys_of_assocGet hx)

/-- An update takes the old weight of the key out of the sum and puts the new one in. -/
theorem AssocNodup.sum_put (hl : AssocNodup l) (w : α → ℕ) (k : κ) (o : Option α) :
    assocSum w (assocPut k o l) + (assocGet k l).elim 0 w = assocSum w l + o.elim 0 w := by
  have herase := hl.sum_erase w k
  cases o with
  | none => simpa [assocPut] using herase
  | some x =>
    simp only [assocPut, assocSet, assocSum_cons, Option.elim] at herase ⊢
    omega

end BasisRust.Library
