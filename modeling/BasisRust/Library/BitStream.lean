import BasisRust.Library.Bits
import BasisRust.Library.Bytes

/-!
# Bit fields in byte strings

Programs that pack fields of odd widths read and write them through 64-bit windows of consecutive
bytes.  This module says what such a window is in terms of `bitAt`.
-/

namespace BasisRust.Library

/-! ### Windows -/

/-- Or the bytes of a list into a word, byte `i` at bit `8 * i`. -/
def gather : Bytes → ℕ → BitVec 64 → BitVec 64
  | [], _, window => window
  | byte :: rest, index, window =>
    gather rest (index + 1) (window ||| (byte.setWidth 64 <<< (index * 8)))

theorem bitAt_cons (byte : Byte) (rest : Bytes) (k : ℕ) :
    bitAt (byte :: rest) k = if k < 8 then byte.getLsbD k else bitAt rest (k - 8) := by
  unfold bitAt
  split_ifs with hk
  · rw [show k / 8 = 0 from by omega, show k % 8 = k from by omega]
    rfl
  · rw [show k / 8 = (k - 8) / 8 + 1 from by omega, show k % 8 = (k - 8) % 8 from by omega]
    rfl

theorem getLsbD_gather (bytes : Bytes) (index : ℕ) (window : BitVec 64) (k : ℕ) :
    (gather bytes index window).getLsbD k = (window.getLsbD k ||
        (decide (k < 64) && (decide (index * 8 ≤ k) && bitAt bytes (k - index * 8)))) := by
  induction bytes generalizing index window with
  | nil => simp [gather, bitAt]
  | cons byte rest ih =>
    rw [gather, ih, BitVec.getLsbD_or, BitVec.getLsbD_shiftLeft, BitVec.getLsbD_setWidth,
      bitAt_cons, Bool.or_assoc]
    congr 1
    by_cases hk : k < 64
    · by_cases h₁ : k < index * 8
      · simp [hk, h₁, show ¬ index * 8 ≤ k from by omega,
          show ¬ (index + 1) * 8 ≤ k from by omega]
      · by_cases h₂ : k - index * 8 < 8
        · simp [hk, h₁, h₂, show index * 8 ≤ k from by omega,
            show ¬ (index + 1) * 8 ≤ k from by omega, show k - index * 8 < 64 from by omega]
        · have hbyte : byte.getLsbD (k - index * 8) = false :=
            BitVec.getLsbD_of_ge byte _ (by omega)
          simp [hk, h₁, h₂, hbyte, show index * 8 ≤ k from by omega,
            show (index + 1) * 8 ≤ k from by omega,
            show k - (index + 1) * 8 = k - index * 8 - 8 from by omega]
    · simp [hk]

/-- The bytes `0, …, count - 1` of a word. -/
def scatter (window : BitVec 64) (count : ℕ) : Bytes :=
  (List.range count).map fun index => (window >>> (index * 8)).setWidth 8

/-- Write the first bytes of a word over the bytes at `first`. -/
def overwrite (bytes : Bytes) (first : ℕ) (window : BitVec 64) (count : ℕ) : Bytes :=
  bytes.take first ++ scatter window count ++ bytes.drop (first + count)

@[simp] theorem scatter_length (window : BitVec 64) (count : ℕ) :
    (scatter window count).length = count := by
  simp [scatter]

theorem overwrite_length (bytes : Bytes) (first count : ℕ) (window : BitVec 64)
    (h : first + count ≤ bytes.length) : (overwrite bytes first window count).length =
      bytes.length := by
  simp [overwrite]
  omega

theorem bitAt_append (bs cs : Bytes) (k : ℕ) :
    bitAt (bs ++ cs) k = if k < 8 * bs.length then bitAt bs k
      else bitAt cs (k - 8 * bs.length) := by
  unfold bitAt
  simp only [List.getD_eq_getElem?_getD]
  split_ifs with hk
  · rw [List.getElem?_append_left (by omega)]
  · rw [List.getElem?_append_right (by omega)]
    rw [show (k - 8 * bs.length) / 8 = k / 8 - bs.length from by omega,
      show (k - 8 * bs.length) % 8 = k % 8 from by omega]

theorem bitAt_take (bs : Bytes) (n k : ℕ) (h : k < 8 * n) : bitAt (bs.take n) k = bitAt bs k := by
  unfold bitAt
  simp only [List.getD_eq_getElem?_getD]
  rw [List.getElem?_take_of_lt (by omega)]

theorem bitAt_drop (bs : Bytes) (n k : ℕ) : bitAt (bs.drop n) k = bitAt bs (8 * n + k) := by
  unfold bitAt
  simp only [List.getD_eq_getElem?_getD, List.getElem?_drop]
  rw [show (8 * n + k) / 8 = n + k / 8 from by omega, show (8 * n + k) % 8 = k % 8 from by omega]

theorem bitAt_slice (bs : Bytes) (i n k : ℕ) (h : k < 8 * n) :
    bitAt (slice bs i n) k = bitAt bs (8 * i + k) := by
  rw [slice, bitAt_take _ _ _ h, bitAt_drop]

theorem bitAt_scatter (window : BitVec 64) (count k : ℕ) (h : k < 8 * count) :
    bitAt (scatter window count) k = window.getLsbD k := by
  unfold bitAt scatter
  rw [List.getD_eq_getElem?_getD, List.getElem?_map,
    List.getElem?_range (show k / 8 < count from by omega)]
  simp only [Option.map_some, Option.getD_some, BitVec.getLsbD_setWidth, BitVec.getLsbD_ushiftRight]
  rw [show k / 8 * 8 + k % 8 = k from by omega]
  simp [show k % 8 < 8 from by omega]

/-- **Writing a word back** changes the bits of its bytes and no others. -/
theorem bitAt_overwrite (bytes : Bytes) (first count k : ℕ) (window : BitVec 64)
    (h : first + count ≤ bytes.length) :
    bitAt (overwrite bytes first window count) k =
      if 8 * first ≤ k ∧ k < 8 * (first + count) then window.getLsbD (k - 8 * first)
      else bitAt bytes k := by
  have htake : (bytes.take first).length = first := by
    rw [List.length_take]
    omega
  unfold overwrite
  rw [List.append_assoc, bitAt_append, htake]
  by_cases h₁ : k < 8 * first
  · rw [if_pos h₁, if_neg (by omega), bitAt_take _ _ _ h₁]
  · rw [if_neg h₁, bitAt_append, scatter_length]
    by_cases h₂ : k < 8 * (first + count)
    · rw [if_pos (by omega), if_pos ⟨by omega, h₂⟩, bitAt_scatter _ _ _ (by omega)]
    · rw [if_neg (by omega), if_neg (by omega), bitAt_drop]
      congr 1
      omega

/-- Byte strings of one length are equal when their bits are. -/
theorem eq_of_bitAt {bs cs : Bytes} (hlen : bs.length = cs.length)
    (h : ∀ k, k < 8 * bs.length → bitAt bs k = bitAt cs k) : bs = cs := by
  refine List.ext_getElem hlen fun i hi hi' => ?_
  apply BitVec.eq_of_getLsbD_eq
  intro j hj
  have hk := h (8 * i + j) (by omega)
  unfold bitAt at hk
  rwa [show (8 * i + j) / 8 = i from by omega, show (8 * i + j) % 8 = j from by omega,
    List.getD_eq_getElem?_getD, List.getD_eq_getElem?_getD, List.getElem?_eq_getElem hi,
    List.getElem?_eq_getElem hi'] at hk

/-- The bytes at an offset, when they are all there. -/
def getRange (bytes : Bytes) (first count : ℕ) : Option Bytes :=
  if first + count ≤ bytes.length then some (slice bytes first count) else none

/-! ### Masks -/

/-- The low `count` bits of a word. -/
def lowMask (count : ℕ) : BitVec 64 :=
  if 64 ≤ count then BitVec.allOnes 64 else (1#64 <<< count) - 1#64

theorem toNat_shiftLeft_one_sub_one (w count : ℕ) (h : count < w) :
    ((1#w <<< count) - 1#w).toNat = 2 ^ count - 1 := by
  have hpow : 2 ^ count < 2 ^ w := Nat.pow_lt_pow_right (by omega) h
  have hpos : 0 < 2 ^ count := Nat.two_pow_pos count
  have hone : 1 % 2 ^ w = 1 := Nat.mod_eq_of_lt (Nat.one_lt_two_pow (by omega))
  rw [BitVec.toNat_sub, BitVec.toNat_shiftLeft, BitVec.toNat_ofNat, hone, Nat.shiftLeft_eq,
    Nat.one_mul, Nat.mod_eq_of_lt hpow,
    show 2 ^ w - 1 + 2 ^ count = 2 ^ count - 1 + 2 ^ w from by omega, Nat.add_mod_right]
  exact Nat.mod_eq_of_lt (by omega)

theorem getLsbD_shiftLeft_one_sub_one (w count k : ℕ) (h : count < w) :
    ((1#w <<< count) - 1#w).getLsbD k = decide (k < count) := by
  rw [BitVec.getLsbD, toNat_shiftLeft_one_sub_one w count h, Nat.testBit_two_pow_sub_one]

theorem getLsbD_lowMask (count k : ℕ) :
    (lowMask count).getLsbD k = (decide (k < count) && decide (k < 64)) := by
  unfold lowMask
  split_ifs with h
  · rw [BitVec.getLsbD_allOnes]
    by_cases hk : k < 64
    · simp [hk, show k < count from by omega]
    · simp [hk]
  · rw [getLsbD_shiftLeft_one_sub_one 64 count k (by omega)]
    by_cases hk : k < count
    · simp [hk, show k < 64 from by omega]
    · simp [hk]

/-! ### Streams -/

/-- The bits of `bytes` from `pos` on start with `bits`. -/
def Holds (bytes : Bytes) : ℕ → List Bool → Prop
  | _, [] => True
  | pos, b :: bits => bitAt bytes pos = b ∧ Holds bytes (pos + 1) bits

variable {bytes : Bytes} {pos : ℕ} {bits : List Bool}

theorem Holds.append {bits' : List Bool} :
    Holds bytes pos (bits ++ bits') ↔
      Holds bytes pos bits ∧ Holds bytes (pos + bits.length) bits' := by
  induction bits generalizing pos with
  | nil => simp [Holds]
  | cons b bits ih =>
    rw [List.cons_append, Holds, Holds, ih, List.length_cons,
      show pos + 1 + bits.length = pos + (bits.length + 1) from by omega, and_assoc]

theorem holds_iff :
    Holds bytes pos bits ↔ ∀ i, i < bits.length → bits[i]? = some (bitAt bytes (pos + i)) := by
  induction bits generalizing pos with
  | nil => simp [Holds]
  | cons b bits ih =>
    rw [Holds, ih]
    constructor
    · rintro ⟨hb, hrest⟩ i hi
      cases i with
      | zero => simp [hb]
      | succ i =>
        rw [List.getElem?_cons_succ, hrest i (by simpa using hi),
          show pos + 1 + i = pos + (i + 1) from by omega]
    · intro h
      refine ⟨?_, fun i hi => ?_⟩
      · have := h 0 (by simp)
        simpa using this.symm
      · have := h (i + 1) (by simpa using hi)
        rwa [List.getElem?_cons_succ, show pos + (i + 1) = pos + 1 + i from by omega] at this

/-- Two byte strings with the same bits in `[start, stop)`. -/
def Agree (bytes bytes' : Bytes) (start stop : ℕ) : Prop :=
  ∀ k, start ≤ k → k < stop → bitAt bytes' k = bitAt bytes k

theorem Agree.holds {bytes' : Bytes} (h : Agree bytes bytes' pos (pos + bits.length))
    (hb : Holds bytes pos bits) : Holds bytes' pos bits := by
  rw [holds_iff] at hb ⊢
  intro i hi
  rw [hb i hi, h (pos + i) (by omega) (by omega)]

/-- The low bits of a word, least significant first. -/
def wordBits {w : ℕ} (value : BitVec w) (count : ℕ) : List Bool :=
  (List.range count).map value.getLsbD

@[simp] theorem wordBits_length {w : ℕ} (value : BitVec w) (count : ℕ) :
    (wordBits value count).length = count := by
  simp [wordBits]

theorem holds_wordBits_iff {w : ℕ} {count : ℕ} {value : BitVec w} :
    Holds bytes pos (wordBits value count) ↔
      ∀ i, i < count → bitAt bytes (pos + i) = value.getLsbD i := by
  rw [holds_iff, wordBits_length]
  refine forall_congr' fun i => forall_congr' fun hi => ?_
  rw [wordBits, List.getElem?_map, List.getElem?_range hi, Option.map_some, Option.some.injEq]
  exact eq_comm

/-! ### Packed words

Values of a few bits each, one above the other in one word. -/

/-- The value, the position and the width of each. -/
def pack (parts : List (BitVec 64 × ℕ × ℕ)) : BitVec 64 :=
  parts.foldl (fun word part => word ||| (part.1 <<< part.2.1)) 0#64

theorem getLsbD_foldl_pack (parts : List (BitVec 64 × ℕ × ℕ)) (word : BitVec 64) (k : ℕ) :
    (parts.foldl (fun word part => word ||| (part.1 <<< part.2.1)) word).getLsbD k =
      (word.getLsbD k || parts.any fun part => (part.1 <<< part.2.1).getLsbD k) := by
  induction parts generalizing word with
  | nil => rw [List.foldl_nil, List.any_nil, Bool.or_false]
  | cons part parts ih =>
    rw [List.foldl_cons, ih, BitVec.getLsbD_or, List.any_cons, Bool.or_assoc]

/-- Two different members of a list in which every pair is related one way. -/
theorem rel_or_of_pairwise {α : Type} {R : α → α → Prop} {l : List α} (h : l.Pairwise R) {x y : α}
    (hx : x ∈ l) (hy : y ∈ l) (hne : x ≠ y) : R x y ∨ R y x := by
  induction h with
  | nil => cases hx
  | cons hhead _ ih =>
    rcases List.mem_cons.mp hx with rfl | hx'
    · rcases List.mem_cons.mp hy with rfl | hy'
      · exact absurd rfl hne
      · exact .inl (hhead y hy')
    · rcases List.mem_cons.mp hy with rfl | hy'
      · exact .inr (hhead x hx')
      · exact ih hx' hy'

/-- **The bits of one of the values**, when no two overlap and each fits its width. -/
theorem getLsbD_pack {parts : List (BitVec 64 × ℕ × ℕ)}
    (hfit : ∀ part ∈ parts, ∀ j, part.2.2 ≤ j → part.1.getLsbD j = false)
    (hapart : parts.Pairwise fun x y => x.2.1 + x.2.2 ≤ y.2.1) {part : BitVec 64 × ℕ × ℕ}
    (hpart : part ∈ parts) {j : ℕ} (hj : j < part.2.2) (hword : part.2.1 + j < 64) :
    (pack parts).getLsbD (part.2.1 + j) = part.1.getLsbD j := by
  have hbit : ∀ x : BitVec 64 × ℕ × ℕ, (x.1 <<< x.2.1).getLsbD (part.2.1 + j) =
      (decide (x.2.1 ≤ part.2.1 + j) && x.1.getLsbD (part.2.1 + j - x.2.1)) := by
    intro x
    rw [BitVec.getLsbD_shiftLeft, decide_eq_true hword, Bool.true_and]
    congr 1
    rw [← decide_not]
    exact decide_eq_decide.mpr Nat.not_lt
  -- another part either begins above the bit or ends below it
  have hother : ∀ x ∈ parts, x ≠ part → (x.1 <<< x.2.1).getLsbD (part.2.1 + j) = false := by
    intro x hx hne
    rw [hbit]
    rcases rel_or_of_pairwise hapart hx hpart hne with hbelow | habove
    · rw [hfit x hx _ (by omega), Bool.and_false]
    · rw [decide_eq_false (by omega), Bool.false_and]
  unfold pack
  rw [getLsbD_foldl_pack, BitVec.getLsbD_zero, Bool.false_or]
  cases hvalue : part.1.getLsbD j with
  | true =>
    apply List.any_eq_true.mpr
    refine ⟨part, hpart, ?_⟩
    rw [hbit, decide_eq_true (Nat.le_add_right _ _), Nat.add_sub_cancel_left, hvalue]
    rfl
  | false =>
    apply List.any_eq_false.mpr
    intro x hx
    by_cases heq : x = part
    · rw [heq, hbit, Nat.add_sub_cancel_left, hvalue, Bool.and_false]
      exact Bool.false_ne_true
    · rw [hother x hx heq]
      exact Bool.false_ne_true

end BasisRust.Library
