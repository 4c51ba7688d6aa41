import Mathlib.Data.List.Basic

/-!
# Lists of machine words as bit strings

`bitAt words k` reads bit `k` of a list of `w`-bit words, the least significant bit of the first
word being bit `0`; beyond the end every bit is clear.  The two updates a bitmap needs, setting and
clearing one bit, are described by what `bitAt` reads afterwards, so that no proof about a bitmap
has to look inside a word again.
-/

namespace BasisRust.Library

variable {w : ℕ}

/-- Bit `k` of a list of words, least significant bits first. -/
def bitAt (words : List (BitVec w)) (k : ℕ) : Bool := (words.getD (k / w) 0).getLsbD (k % w)

/-- Set bit `k`; a position beyond the end is ignored. -/
def setBitAt (words : List (BitVec w)) (k : ℕ) : List (BitVec w) :=
  words.modify (k / w) fun x => x ||| (1#w <<< (k % w))

/-- Clear bit `k`; a position beyond the end is ignored. -/
def clearBitAt (words : List (BitVec w)) (k : ℕ) : List (BitVec w) :=
  words.modify (k / w) fun x => x &&& ~~~(1#w <<< (k % w))

variable (words : List (BitVec w))

@[simp] theorem setBitAt_length (k : ℕ) : (setBitAt words k).length = words.length := by
  simp [setBitAt]

@[simp] theorem clearBitAt_length (k : ℕ) : (clearBitAt words k).length = words.length := by
  simp [clearBitAt]

/-- Reading past the last word gives a clear bit. -/
theorem bitAt_of_length_le (k : ℕ) (h : words.length ≤ k / w) : bitAt words k = false := by
  simp [bitAt, List.getD_eq_getElem?_getD, List.getElem?_eq_none h]

/-- The single bit a shifted one carries. -/
theorem getLsbD_one_shiftLeft (k j : ℕ) :
    (1#w <<< k).getLsbD j = (decide (j < w) && decide (j = k)) := by
  rw [BitVec.getLsbD_shiftLeft, BitVec.getLsbD_one]
  by_cases hj : j < w <;> by_cases hk : j = k <;> simp [hj, hk] <;> omega

/-- Inside one word, two positions are equal exactly when they name the same bit of it. -/
theorem decide_mod_eq_of_div_eq {j k : ℕ} (hd : k / w = j / w) :
    decide (j % w = k % w) = decide (j = k) := by
  rw [decide_eq_decide]
  constructor
  · intro hm
    rw [← Nat.div_add_mod j w, ← Nat.div_add_mod k w, hd, hm]
  · rintro rfl
    rfl

theorem getD_modify (i j : ℕ) (f : BitVec w → BitVec w) (hi : i < words.length) :
    (words.modify i f).getD j 0 = if i = j then f (words.getD j 0) else words.getD j 0 := by
  rw [List.getD_eq_getElem?_getD, List.getElem?_modify, List.getD_eq_getElem?_getD]
  by_cases h : i = j
  · subst h
    simp [List.getElem?_eq_getElem hi]
  · simp [h]

/-- **Setting a bit** sets that bit and no other. -/
theorem bitAt_setBitAt (hw : 0 < w) (words : List (BitVec w)) (k j : ℕ)
    (hk : k / w < words.length) :
    bitAt (setBitAt words k) j = (decide (j = k) || bitAt words j) := by
  unfold bitAt setBitAt
  rw [getD_modify words _ _ _ hk]
  have hj : j % w < w := Nat.mod_lt _ hw
  by_cases hd : k / w = j / w
  · rw [if_pos hd, BitVec.getLsbD_or, getLsbD_one_shiftLeft, Bool.or_comm,
      decide_mod_eq_of_div_eq hd]
    simp only [hj, decide_true, Bool.true_and]
  · rw [if_neg hd]
    have : j ≠ k := fun h => hd (by rw [h])
    simp [this]

/-- **Clearing a bit** clears that bit and no other. -/
theorem bitAt_clearBitAt (hw : 0 < w) (words : List (BitVec w)) (k j : ℕ) :
    bitAt (clearBitAt words k) j = (!decide (j = k) && bitAt words j) := by
  have hj : j % w < w := Nat.mod_lt _ hw
  by_cases hk : k / w < words.length
  · unfold bitAt clearBitAt
    rw [getD_modify words _ _ _ hk]
    by_cases hd : k / w = j / w
    · rw [if_pos hd, BitVec.getLsbD_and, BitVec.getLsbD_not, getLsbD_one_shiftLeft,
        Bool.and_comm, decide_mod_eq_of_div_eq hd]
      simp only [hj, decide_true, Bool.true_and]
    · rw [if_neg hd]
      have : j ≠ k := fun h => hd (by rw [h])
      simp [this]
  · -- the position is beyond the end: nothing changes, and bit `k` was clear anyway
    have hsame : clearBitAt words k = words := by
      unfold clearBitAt
      exact List.modify_eq_self (by omega)
    rw [hsame]
    by_cases h : j = k
    · subst h
      simp [bitAt_of_length_le words j (by omega)]
    · simp [h]

@[simp] theorem bitAt_replicate_zero (n k : ℕ) : bitAt (List.replicate n 0#w) k = false := by
  unfold bitAt
  rw [List.getD_eq_getElem?_getD, List.getElem?_replicate]
  split <;> simp

end BasisRust.Library
