import Mathlib.Data.Nat.ModEq

/-!
# Sliding windows kept in a table of residues

A window of `W` consecutive numbers `base, …, base + W - 1` has each residue modulo `W` exactly
once, so a set restricted to the window fits in a table with one entry per residue.  `Shows` says
that a Boolean table does this.  `Shows.mark` records one more number of the window, and
`Shows.slide` moves the window up.

The numbers here are unbounded.  A program that stores them modulo a multiple of `W` uses the same
residues.
-/

namespace BasisRust.Library

variable {W base k : ℕ} {tab tab' : ℕ → Bool} {S : ℕ → Prop}

/-- Inside one window the residue determines the number. -/
theorem eq_of_mod_eq {n m : ℕ} (hn : base ≤ n) (hn' : n < base + W) (hm : base ≤ m)
    (hm' : m < base + W) (h : n % W = m % W) : n = m := by
  rcases Nat.le_total n m with hle | hle
  · have hd : W ∣ m - n := (Nat.modEq_iff_dvd' hle).mp h
    have : m - n = 0 := Nat.eq_zero_of_dvd_of_lt hd (by omega)
    omega
  · have hd : W ∣ n - m := (Nat.modEq_iff_dvd' hle).mp h.symm
    have : n - m = 0 := Nat.eq_zero_of_dvd_of_lt hd (by omega)
    omega

/-- Two numbers less than a period apart that agree modulo the period are equal. -/
theorem eq_of_mod_eq_of_close {n m p : ℕ} (h₁ : n < m + p) (h₂ : m < n + p) (h : n % p = m % p) :
    n = m := by
  rcases Nat.le_total n m with hle | hle
  · exact eq_of_mod_eq le_rfl (by omega) hle h₂ h
  · exact eq_of_mod_eq hle h₁ le_rfl (by omega) h

/-- The table `tab` holds the set `S` on the window that starts at `base`. -/
def Shows (W : ℕ) (tab : ℕ → Bool) (base : ℕ) (S : ℕ → Prop) : Prop :=
  ∀ n, base ≤ n → n < base + W → (tab (n % W) = true ↔ S n)

theorem Shows.congr {S' : ℕ → Prop} (h : Shows W tab base S)
    (hS : ∀ n, base ≤ n → n < base + W → (S n ↔ S' n)) : Shows W tab base S' :=
  fun n hn hn' => (h n hn hn').trans (hS n hn hn')

/-- **Mark.**  Setting the residue of a number of the window adds exactly that number. -/
theorem Shows.mark (h : Shows W tab base S) (hk : base ≤ k) (hk' : k < base + W)
    (htab : ∀ r, tab' r = (decide (r = k % W) || tab r)) :
    Shows W tab' base (fun n => n = k ∨ S n) := by
  intro n hn hn'
  rw [htab, Bool.or_eq_true, decide_eq_true_eq, h n hn hn']
  constructor
  · rintro (heq | hS)
    · exact .inl (eq_of_mod_eq hn hn' hk hk' heq)
    · exact .inr hS
  · rintro (rfl | hS)
    · exact .inl rfl
    · exact .inr hS

/-- **Slide.**  Clearing the residues of the first `k` numbers moves the window up by `k`, provided
that nothing beyond the old window was in the set. -/
theorem Shows.slide (h : Shows W tab base S) (hS : ∀ n, base + W ≤ n → ¬ S n)
    (htab : ∀ r, tab' r = (tab r && decide (∀ i < k, r ≠ (base + i) % W))) :
    Shows W tab' (base + k) S := by
  intro n hn hn'
  rw [htab, Bool.and_eq_true, decide_eq_true_eq]
  rcases Nat.lt_or_ge n (base + W) with hlt | hge
  · -- still inside the old window: its residue is not one of those that were cleared
    have hkeep : ∀ i < k, n % W ≠ (base + i) % W := by
      intro i hi heq
      have := @eq_of_mod_eq W base _ _ (by omega) hlt (by omega) (by omega) heq
      omega
    rw [h n (by omega) hlt]
    exact ⟨fun hx => hx.1, fun hx => ⟨hx, hkeep⟩⟩
  · -- newly inside: not in the set, and its residue was cleared
    have hmod : n % W = (base + (n - W - base)) % W := by
      rw [show base + (n - W - base) = n - W from by omega]
      exact (Nat.mod_eq_sub_mod (by omega))
    constructor
    · rintro ⟨-, hclear⟩
      exact absurd hmod (hclear _ (by omega))
    · intro hx
      exact absurd hx (hS n hge)

/-- The table `tab` shows nothing on the window that starts at `base` but numbers of `S`. -/
def ShowsOnly (W : ℕ) (tab : ℕ → Bool) (base : ℕ) (S : ℕ → Prop) : Prop :=
  ∀ n, base ≤ n → n < base + W → tab (n % W) = true → S n

theorem ShowsOnly.mono {S' : ℕ → Prop} (h : ShowsOnly W tab base S) (hS : ∀ n, S n → S' n) :
    ShowsOnly W tab base S' :=
  fun n hn hn' ht => hS n (h n hn hn' ht)

/-- Setting the residue of a number of the window that is in the set. -/
theorem ShowsOnly.mark (h : ShowsOnly W tab base S) (hk : base ≤ k) (hk' : k < base + W)
    (hS : S k) (htab : ∀ r, tab' r = (decide (r = k % W) || tab r)) :
    ShowsOnly W tab' base S := by
  intro n hn hn' ht
  rw [htab, Bool.or_eq_true, decide_eq_true_eq] at ht
  rcases ht with heq | ht
  · rw [eq_of_mod_eq hn hn' hk hk' heq]
    exact hS
  · exact h n hn hn' ht

/-- Clearing the first residue moves the window up by one. -/
theorem ShowsOnly.slide_one (h : ShowsOnly W tab base S)
    (htab : ∀ r, tab' r = (tab r && decide (r ≠ base % W))) :
    ShowsOnly W tab' (base + 1) S := by
  intro n hn hn' ht
  rw [htab, Bool.and_eq_true, decide_eq_true_eq] at ht
  rcases Nat.lt_or_ge n (base + W) with hlt | hge
  · exact h n (by omega) hlt ht.1
  · -- the number that came in has the residue that was cleared
    refine absurd ?_ ht.2
    rw [show n = base + W from by omega, Nat.add_mod_right]

end BasisRust.Library
