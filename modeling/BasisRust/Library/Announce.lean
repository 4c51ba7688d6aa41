import Mathlib.Data.List.Basic
import Mathlib.Tactic.Common

/-!
# Registries whose changes are announced

A registry holds a value or nothing for every key and counts the changes of each key.  A `Note`
says what a key held after some number of changes.  One subscriber has a log of the notes it has
got, in order, and is owed further notes; `Informed` is what the two have to do with the registry.
-/

namespace BasisRust.Library

variable {κ ν : Type}

/-- What a key holds after `version` changes. -/
structure Note (κ ν : Type) where
  key : κ
  value : Option ν
  version : ℕ
  deriving DecidableEq

/-- The number of changes of a key, in a list of the keys that have changed. -/
theorem count_change [DecidableEq κ] (changes : List κ) (k k' : κ) :
    (changes ++ [k]).count k' = changes.count k' + if k = k' then 1 else 0 := by
  rw [List.count_append, List.count_singleton]
  by_cases hk : k = k' <;> simp [hk]

/-- A registry that holds `R` after `V` changes, seen by a subscriber with the log `log` that is
owed the notes `owed`. -/
structure Informed (R : κ → Option ν) (V : κ → ℕ) (log : List (Note κ ν))
    (owed : Note κ ν → Prop) : Prop where
  current : ∀ m, m ∈ log ∨ owed m → m.version < V m.key ∨ m.version = V m.key ∧ m.value = R m.key
  covered : ∀ m, m ∈ log ∨ owed m →
    ∃ m', (m' ∈ log ∨ owed m') ∧ m'.key = m.key ∧ m'.version = V m.key
  sorted : log.Pairwise fun m m' => m.key = m'.key → m.version ≤ m'.version

namespace Informed

variable {R R' : κ → Option ν} {V V' : κ → ℕ} {log : List (Note κ ν)}
  {owed owed' : Note κ ν → Prop} {m : Note κ ν}

theorem empty : Informed R V [] (fun _ => False) where
  current m h := by simp at h
  covered m h := by simp at h
  sorted := .nil

section

variable (h : Informed R V log owed)
include h

/-- What is owed may be described in another way. -/
theorem congr (howed : ∀ m, owed' m ↔ owed m) : Informed R V log owed' := by
  have heq : owed' = owed := funext fun m => propext (howed m)
  rw [heq]
  exact h

/-- **Changes.**  The notes that become owed say what the registry holds now, and every key that
has changed is among them or is one the subscriber has never heard of. -/
theorem changes (new : Note κ ν → Prop) (hgrows : ∀ k, V' k = V k ∧ R' k = R k ∨ V k < V' k)
    (hnew : ∀ m, new m → m.version = V' m.key ∧ m.value = R' m.key)
    (hall : ∀ k, V k < V' k → (∃ m, new m ∧ m.key = k) ∨ ∀ m, m ∈ log ∨ owed m → m.key ≠ k)
    (howed : ∀ m, owed' m ↔ owed m ∨ new m) : Informed R' V' log owed' := by
  have hknown : ∀ m, m ∈ log ∨ owed' m → (m ∈ log ∨ owed m) ∨ new m := by
    intro m hm
    rcases hm with hm | hm
    · exact .inl (.inl hm)
    · rcases (howed m).mp hm with hm | hm
      · exact .inl (.inr hm)
      · exact .inr hm
  have hold : ∀ m, m ∈ log ∨ owed m → m ∈ log ∨ owed' m := by
    intro m hm
    exact hm.imp_right fun hm => (howed m).mpr (.inl hm)
  refine ⟨?_, ?_, h.sorted⟩
  · intro m hm
    rcases hknown m hm with hm | hm
    · rcases hgrows m.key with ⟨hV, hR⟩ | hV
      · rw [hV, hR]
        exact h.current m hm
      · left
        rcases h.current m hm with hlt | ⟨heq, -⟩
        · exact Nat.lt_trans hlt hV
        · exact heq ▸ hV
    · exact .inr (hnew m hm)
  · intro m hm
    have hself : ∀ m, new m → ∃ m', (m' ∈ log ∨ owed' m') ∧ m'.key = m.key ∧
        m'.version = V' m.key := fun m hm =>
      ⟨m, .inr ((howed m).mpr (.inr hm)), rfl, (hnew m hm).1⟩
    rcases hknown m hm with hm | hm
    · rcases hgrows m.key with ⟨hV, -⟩ | hV
      · obtain ⟨m', hm', hkey, hversion⟩ := h.covered m hm
        exact ⟨m', hold m' hm', hkey, hversion.trans hV.symm⟩
      · rcases hall m.key hV with ⟨m', hm', hkey⟩ | hnone
        · rw [← hkey]
          exact hself m' hm'
        · exact absurd rfl (hnone m hm)
    · exact hself m hm

/-- **A note reaches the log.** -/
theorem emit (hm : owed m) (hsub : ∀ x, owed' x → owed x) (hrest : ∀ x, owed x → x = m ∨ owed' x)
    (hfirst : ∀ x ∈ log, x.key = m.key → x.version ≤ m.version) :
    Informed R V (log ++ [m]) owed' := by
  have hknown : ∀ x, x ∈ log ++ [m] ∨ owed' x ↔ x ∈ log ∨ owed x := by
    intro x
    rw [List.mem_append, List.mem_singleton]
    constructor
    · rintro ((hx | rfl) | hx)
      · exact .inl hx
      · exact .inr hm
      · exact .inr (hsub x hx)
    · rintro (hx | hx)
      · exact .inl (.inl hx)
      · rcases hrest x hx with rfl | hx
        · exact .inl (.inr rfl)
        · exact .inr hx
  refine ⟨fun x hx => h.current x ((hknown x).mp hx), ?_, ?_⟩
  · intro x hx
    obtain ⟨y, hy, hkey⟩ := h.covered x ((hknown x).mp hx)
    exact ⟨y, (hknown y).mpr hy, hkey⟩
  · rw [List.pairwise_append]
    refine ⟨h.sorted, List.pairwise_singleton _ _, ?_⟩
    intro x hx y hy
    rw [List.mem_singleton.mp hy]
    exact hfirst x hx

/-- A subscriber may hear of an older state, as long as it hears of the present one too. -/
theorem hear (hm : m.version < V m.key ∨ m.version = V m.key ∧ m.value = R m.key)
    (hcovered : m.version = V m.key ∨
      ∃ m', (m' ∈ log ∨ owed m') ∧ m'.key = m.key ∧ m'.version = V m.key)
    (howed : ∀ x, owed' x ↔ owed x ∨ x = m) : Informed R V log owed' := by
  have hold : ∀ x, x ∈ log ∨ owed x → x ∈ log ∨ owed' x :=
    fun x hx => hx.imp_right fun hx => (howed x).mpr (.inl hx)
  have hknown : ∀ x, x ∈ log ∨ owed' x → (x ∈ log ∨ owed x) ∨ x = m := by
    intro x hx
    rcases hx with hx | hx
    · exact .inl (.inl hx)
    · exact ((howed x).mp hx).imp_left .inr
  refine ⟨?_, ?_, h.sorted⟩
  · intro x hx
    rcases hknown x hx with hx | rfl
    · exact h.current x hx
    · exact hm
  · intro x hx
    rcases hknown x hx with hx | rfl
    · obtain ⟨m', hm', hsame⟩ := h.covered x hx
      exact ⟨m', hold m' hm', hsame⟩
    · rcases hcovered with hversion | ⟨m', hm', hsame⟩
      · exact ⟨x, .inr ((howed x).mpr (.inr rfl)), rfl, hversion⟩
      · exact ⟨m', hold m' hm', hsame⟩

/-- Notes about older states need not be owed any longer. -/
theorem forget (hsub : ∀ m, owed' m → owed m)
    (hkeep : ∀ m, owed m → m.version = V m.key → owed' m) :
    Informed R V log owed' := by
  refine ⟨fun m hm => h.current m (hm.imp_right (hsub m)), ?_, h.sorted⟩
  intro m hm
  obtain ⟨m', hm', hkey, hversion⟩ := h.covered m (hm.imp_right (hsub m))
  refine ⟨m', hm'.imp_right fun howed => hkeep m' howed ?_, hkey, hversion⟩
  rw [hversion, hkey]

/-- **The last note is right.** -/
theorem last_eq [DecidableEq κ] (hnone : ∀ m, ¬ owed m) {k : κ}
    (hlast : (log.filter fun x => x.key = k).getLast? = some m) : m.value = R k := by
  have hmem : m ∈ log.filter fun x => x.key = k := List.mem_of_getLast? hlast
  obtain ⟨hlog, hkey⟩ := List.mem_filter.mp hmem
  have hkey : m.key = k := of_decide_eq_true hkey
  obtain ⟨m', hm', hkey', hversion⟩ := h.covered m (.inl hlog)
  have hlog' : m' ∈ log := hm'.resolve_right (hnone m')
  have hmem' : m' ∈ log.filter fun x => x.key = k :=
    List.mem_filter.mpr ⟨hlog', decide_eq_true (hkey'.trans hkey)⟩
  have hle : m'.version ≤ m.version := by
    -- the last element of a sorted list bounds the others
    obtain ⟨front, hfront⟩ := List.getLast?_eq_some_iff.mp hlast
    have hsorted := h.sorted.filter fun x => decide (x.key = k)
    rw [hfront, List.pairwise_append] at hsorted
    rw [hfront, List.mem_append, List.mem_singleton] at hmem'
    rcases hmem' with hmem' | rfl
    · exact hsorted.2.2 m' hmem' m (.head _) hkey'
    · exact Nat.le_refl _
  rcases h.current m (.inl hlog) with hlt | ⟨-, hvalue⟩
  · omega
  · rw [hvalue, hkey]

end

end Informed

/-- The subscriber has heard or will hear of everything the registry holds. -/
def Complete (R : κ → Option ν) (V : κ → ℕ) (log : List (Note κ ν)) (owed : Note κ ν → Prop) :
    Prop :=
  ∀ k, R k ≠ none → ∃ m, (m ∈ log ∨ owed m) ∧ m.key = k ∧ m.version = V k

/-- What the subscriber holds to be there. -/
def viewOf [DecidableEq κ] (log : List (Note κ ν)) (k : κ) : Option ν :=
  (log.filter fun x => x.key = k).getLast?.bind Note.value

/-- **The view converges.**  A subscriber that is owed nothing sees the registry. -/
theorem Informed.viewOf_eq [DecidableEq κ] {R : κ → Option ν} {V : κ → ℕ} {log : List (Note κ ν)}
    {owed : Note κ ν → Prop} (h : Informed R V log owed) (hcomplete : Complete R V log owed)
    (hnone : ∀ m, ¬ owed m) (k : κ) : viewOf log k = R k := by
  unfold viewOf
  cases hlast : (log.filter fun x => x.key = k).getLast? with
  | some m => exact h.last_eq hnone hlast
  | none =>
    symm
    by_contra hne
    obtain ⟨m, hm, hkey, -⟩ := hcomplete k hne
    have hempty := List.getLast?_eq_none_iff.mp hlast
    have hmem : m ∈ log.filter fun x => x.key = k :=
      List.mem_filter.mpr ⟨hm.resolve_right (hnone m), decide_eq_true hkey⟩
    rw [hempty] at hmem
    exact List.not_mem_nil hmem

end BasisRust.Library
