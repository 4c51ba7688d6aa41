import Mathlib.Data.List.Basic
import Mathlib.Data.List.Nodup
import Mathlib.Data.List.Perm.Subperm

/-!
# Countdowns

A countdown waits until every party that is expected has answered, with yes or with no.  It keeps
the answers and the number of the parties, but not the parties themselves: a party that withdraws
takes its answer back and lowers the number.
-/

namespace BasisRust.Library

variable {κ : Type} [DecidableEq κ]

/-- Everybody else of a list. -/
def others (k : κ) (l : List κ) : List κ := l.filter fun j => j ≠ k

variable {k : κ} {l : List κ}

theorem mem_others {j : κ} : j ∈ others k l ↔ j ∈ l ∧ j ≠ k := by
  simp [others]

theorem mem_of_mem_others {j : κ} (h : j ∈ others k l) : j ∈ l := (mem_others.mp h).1

theorem others_append (k : κ) (l l' : List κ) : others k (l ++ l') = others k l ++ others k l' :=
  List.filter_append l l'

theorem Nodup.others (h : l.Nodup) (k : κ) : (others k l).Nodup := h.filter _

theorem length_others (h : l.Nodup) (hk : k ∈ l) : (others k l).length = l.length - 1 := by
  have heq : others k l = l.erase k := by
    rw [h.erase_eq_filter]
    exact List.filter_congr fun j _ => by by_cases hj : j = k <;> simp [hj]
  rw [heq, List.length_erase_of_mem hk]

structure Countdown (expected yeas noes : List κ) (total : ℕ) : Prop where
  expected_nodup : expected.Nodup
  answers_nodup : (yeas ++ noes).Nodup
  expects : ∀ k ∈ yeas ++ noes, k ∈ expected
  total_eq : total = expected.length

namespace Countdown

variable {expected yeas noes : List κ} {total : ℕ} {k : κ}

omit [DecidableEq κ] in
theorem start (h : expected.Nodup) : Countdown expected [] [] expected.length where
  expected_nodup := h
  answers_nodup := .nil
  expects := nofun
  total_eq := rfl

section

variable (h : Countdown expected yeas noes total)
include h

/-- The earlier answer of a party is taken back. -/
theorem retract (k : κ) :
    (others k yeas ++ others k noes).Nodup ∧ (∀ j ∈ others k yeas ++ others k noes, j ∈ expected) ∧
      k ∉ others k yeas ++ others k noes := by
  rw [← others_append]
  refine ⟨Nodup.others h.answers_nodup k, fun j hj => h.expects j (mem_others.mp hj).1, ?_⟩
  intro hk
  exact (mem_others.mp hk).2 rfl

theorem yes (hk : k ∈ expected) :
    Countdown expected (k :: others k yeas) (others k noes) total := by
  obtain ⟨hnodup, hexpects, hnew⟩ := h.retract k
  refine ⟨h.expected_nodup, List.nodup_cons.mpr ⟨hnew, hnodup⟩, fun j hj => ?_, h.total_eq⟩
  rcases List.mem_cons.mp hj with heq | hj
  · rwa [heq]
  · exact hexpects j hj

theorem no (hk : k ∈ expected) : Countdown expected (others k yeas) (k :: others k noes) total := by
  obtain ⟨hnodup, hexpects, hnew⟩ := h.retract k
  have hperm : (k :: (others k yeas ++ others k noes)).Perm (others k yeas ++ k :: others k noes) :=
    List.perm_middle.symm
  refine ⟨h.expected_nodup, hperm.nodup_iff.mp (List.nodup_cons.mpr ⟨hnew, hnodup⟩),
    fun j hj => ?_, h.total_eq⟩
  rcases List.mem_cons.mp (hperm.mem_iff.mpr hj) with heq | hj
  · rwa [heq]
  · exact hexpects j hj

/-- **A party withdraws**, with its answer if it has given one. -/
theorem withdraw (hk : k ∈ expected) :
    Countdown (others k expected) (others k yeas) (others k noes) (total - 1) := by
  obtain ⟨hnodup, hexpects, hgone⟩ := h.retract k
  refine ⟨Nodup.others h.expected_nodup k, hnodup, fun j hj => ?_, ?_⟩
  · refine mem_others.mpr ⟨hexpects j hj, ?_⟩
    intro heq
    exact hgone (heq ▸ hj)
  · rw [h.total_eq, length_others h.expected_nodup hk]

omit [DecidableEq κ] in
/-- **The count is complete** when every party has answered. -/
theorem complete_iff : total ≤ yeas.length + noes.length ↔ ∀ k ∈ expected, k ∈ yeas ∨ k ∈ noes := by
  rw [h.total_eq, ← List.length_append]
  constructor
  · intro hcount k hk
    have hperm : (yeas ++ noes).Perm expected :=
      (h.answers_nodup.subperm h.expects).perm_of_length_le hcount
    exact List.mem_append.mp (hperm.mem_iff.mpr hk)
  · intro hall
    have hsub : expected ⊆ yeas ++ noes := fun k hk => List.mem_append.mpr (hall k hk)
    exact (h.expected_nodup.subperm hsub).length_le

end

end Countdown

end BasisRust.Library
