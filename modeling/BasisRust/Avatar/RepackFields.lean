import BasisRust.Avatar.Repack
import Mathlib.Data.Int.Notation

/-!
# Repacking is field-wise rescaling

Position and tail are copied, every value of every field is rescaled, and everything else is zero.
-/

namespace BasisRust.Avatar.Repack

open Library

/-! ### Rescaling one value -/

/-- The largest value of a width. -/
def maxOf (bits : ℕ) : ℕ := 2 ^ bits - 1

/-- Rescaling from `s` to `d` bits is monotone, goes from end to end, and is the nearest integer to
the exact ratio `v * maxOf d / maxOf s`. -/
structure Rescales (s d : ℕ) : Prop where
  monotone : ∀ v w : BitVec 64, v.toNat ≤ w.toNat → w.toNat < 2 ^ s →
    (rescaleQuant v s d).toNat ≤ (rescaleQuant w s d).toNat
  zero : rescaleQuant 0 s d = 0
  max : rescaleQuant (BitVec.ofNat 64 (maxOf s)) s d = BitVec.ofNat 64 (maxOf d)
  le : ∀ v : BitVec 64, v.toNat < 2 ^ s → (rescaleQuant v s d).toNat ≤ maxOf d
  nearest : ∀ v : BitVec 64, v.toNat < 2 ^ s → ∀ n : ℤ,
    ((rescaleQuant v s d).toNat * maxOf s - v.toNat * maxOf d : ℤ).natAbs ≤
      (n * maxOf s - v.toNat * maxOf d : ℤ).natAbs

theorem toNat_maxOf {bits : ℕ} (h : bits < 64) :
    (BitVec.ofNat 64 (maxOf bits)).toNat = maxOf bits := by
  have hlt : 2 ^ bits < 2 ^ 64 := Nat.pow_lt_pow_right (by decide) h
  rw [BitVec.toNat_ofNat]
  apply Nat.mod_eq_of_lt
  unfold maxOf
  omega

variable {s : ℕ} {vs : List (BitVec 64)} {ps qs : List (ℕ × ℕ)}

/-- The arithmetic of the source does not overflow. -/
theorem toNat_rescaleQuant {v : BitVec 64} {d : ℕ} (hs : 0 < s) (hd : 0 < d) (hne : s ≠ d)
    (hsd : s + d ≤ 63) (hv : v.toNat < 2 ^ s) :
    (rescaleQuant v s d).toNat = (v.toNat * maxOf d + maxOf s / 2) / maxOf s := by
  have hspos : 2 ≤ 2 ^ s := Nat.pow_le_pow_right (n := 2) (by decide) hs
  have hdpos : 2 ≤ 2 ^ d := Nat.pow_le_pow_right (n := 2) (by decide) hd
  have hsum : 2 ^ s * 2 ^ d ≤ 2 ^ 63 := by
    rw [← Nat.pow_add]
    exact Nat.pow_le_pow_right (by decide) hsd
  have hmul : v.toNat * maxOf d ≤ 2 ^ s * 2 ^ d := Nat.mul_le_mul (Nat.le_of_lt hv) (Nat.sub_le _ _)
  have hslt : 2 ^ s < 2 ^ 63 := Nat.pow_lt_pow_right (by decide) (by omega)
  have hmaxSrc : ((1#64 <<< s) - 1).toNat = maxOf s := toNat_shiftLeft_one_sub_one 64 s (by omega)
  have hmaxDst : ((1#64 <<< d) - 1).toNat = maxOf d := toNat_shiftLeft_one_sub_one 64 d (by omega)
  unfold rescaleQuant
  rw [if_neg hne, if_neg (by omega)]
  dsimp only
  rw [BitVec.toNat_udiv, BitVec.toNat_add, BitVec.toNat_mul, BitVec.toNat_ushiftRight, hmaxSrc,
    hmaxDst, Nat.shiftRight_eq_div_pow, Nat.pow_one, Nat.mod_eq_of_lt (by omega),
    Nat.mod_eq_of_lt (by unfold maxOf at *; omega)]

theorem rescaleQuant_same (v : BitVec 64) (s : ℕ) : rescaleQuant v s s = v := if_pos rfl

theorem rescaleQuant_none (v : BitVec 64) (hs : 0 < s) : rescaleQuant v s 0 = 0 := by
  unfold rescaleQuant
  rw [if_neg (by omega), if_pos rfl]

/-- A quotient rounded at half an odd divisor is nearest. -/
theorem natAbs_le_of_half {r M x : ℕ} (hlow : r * M ≤ x + M / 2) (hhigh : x + M / 2 < r * M + M)
    (hodd : M % 2 = 1) (n : ℤ) : (r * M - x : ℤ).natAbs ≤ (n * M - x : ℤ).natAbs := by
  rcases Int.lt_trichotomy n r with hlt | heq | hgt
  · have hstep : (n + 1) * M ≤ r * (M : ℤ) :=
      Int.mul_le_mul_of_nonneg_right hlt (Int.natCast_nonneg _)
    rw [Int.add_mul, Int.one_mul] at hstep
    omega
  · exact Nat.le_of_eq (by rw [heq])
  · have hstep : ((r : ℤ) + 1) * M ≤ n * (M : ℤ) :=
      Int.mul_le_mul_of_nonneg_right hgt (Int.natCast_nonneg _)
    rw [Int.add_mul, Int.one_mul] at hstep
    omega

theorem rescaleQuant_spec {d : ℕ} (hs : 0 < s) (hsd : s + d ≤ 63) : Rescales s d := by
  have hspow : 2 ^ s = 2 * 2 ^ (s - 1) := by
    rw [← Nat.pow_succ', Nat.succ_eq_add_one]; congr 1; omega
  have hspos := Nat.two_pow_pos (s - 1)
  have hM : maxOf s = 2 * 2 ^ (s - 1) - 1 := by rw [maxOf, hspow]
  by_cases hsame : s = d
  · subst hsame
    refine ⟨fun v w hvw _ => ?_, rescaleQuant_same _ _, rescaleQuant_same _ _, fun v hv => ?_,
      fun v _ n => ?_⟩
    · rw [rescaleQuant_same, rescaleQuant_same]
      exact hvw
    · rw [rescaleQuant_same, maxOf]
      omega
    · rw [rescaleQuant_same, Int.sub_self]
      exact Nat.zero_le _
  by_cases hd : d = 0
  · subst hd
    refine ⟨fun v w _ _ => ?_, rescaleQuant_none _ hs, rescaleQuant_none _ hs, fun v _ => ?_,
      fun v _ n => ?_⟩
    · rw [rescaleQuant_none v hs]
      exact Nat.zero_le _
    · rw [rescaleQuant_none v hs]
      exact Nat.zero_le _
    · rw [rescaleQuant_none v hs]
      have hzero : maxOf 0 = 0 := rfl
      rw [hzero]
      simp
  have hvalue := fun v : BitVec 64 =>
    toNat_rescaleQuant (v := v) hs (Nat.pos_of_ne_zero hd) hsame hsd
  have hMpos : 0 < maxOf s := by omega
  have hhalf : maxOf s / 2 < maxOf s := Nat.div_lt_self hMpos (by decide)
  refine ⟨fun v w hvw hw => ?_, ?_, ?_, fun v hv => ?_, fun v hv n => ?_⟩
  · rw [hvalue v (by omega), hvalue w hw]
    exact Nat.div_le_div_right (Nat.add_le_add_right (Nat.mul_le_mul_right _ hvw) _)
  · apply BitVec.eq_of_toNat_eq
    rw [hvalue 0 (by show 0 < 2 ^ s; omega)]
    show (0 * maxOf d + maxOf s / 2) / maxOf s = 0
    rw [Nat.zero_mul, Nat.zero_add]
    exact Nat.div_eq_of_lt hhalf
  · apply BitVec.eq_of_toNat_eq
    rw [hvalue _ (by rw [toNat_maxOf (by omega)]; omega), toNat_maxOf (by omega),
      toNat_maxOf (by omega), Nat.add_comm, Nat.add_mul_div_left _ _ hMpos,
      Nat.div_eq_of_lt hhalf, Nat.zero_add]
  · rw [hvalue v hv]
    have hle : v.toNat * maxOf d ≤ maxOf s * maxOf d := Nat.mul_le_mul_right _ (by omega)
    calc (v.toNat * maxOf d + maxOf s / 2) / maxOf s
        ≤ (maxOf s / 2 + maxOf s * maxOf d) / maxOf s := Nat.div_le_div_right (by omega)
      _ = maxOf d := by
        rw [Nat.add_mul_div_left _ _ hMpos, Nat.div_eq_of_lt hhalf, Nat.zero_add]
  · rw [hvalue v hv]
    have hdiv := Nat.div_add_mod (v.toNat * maxOf d + maxOf s / 2) (maxOf s)
    have hmod := Nat.mod_lt (v.toNat * maxOf d + maxOf s / 2) hMpos
    rw [Nat.mul_comm] at hdiv
    have hnear := natAbs_le_of_half (r := (v.toNat * maxOf d + maxOf s / 2) / maxOf s)
      (M := maxOf s) (x := v.toNat * maxOf d) (by omega) (by omega) (by omega) n
    rwa [Int.natCast_mul v.toNat] at hnear

/-! ### Bits that are read and written -/

/-- **What is read** are the bits from there on. -/
theorem readBits_spec (src : Bytes) (base bitPos count : ℕ) (hcount : count ≤ 57)
    (h : base * 8 + bitPos + count ≤ 8 * src.length) :
    ∃ value, readBits src base bitPos count = .ok value ∧
      ∀ i, value.getLsbD i = (decide (i < count) && bitAt src (base * 8 + bitPos + i)) := by
  generalize habs : base * 8 + bitPos = absolute at h
  have hrange : absolute / 8 + (absolute % 8 + count + 7) / 8 ≤ src.length := by omega
  refine ⟨(gather (slice src (absolute / 8) ((absolute % 8 + count + 7) / 8)) 0 0#64 >>>
    (absolute % 8)) &&& lowMask count, ?_, fun i => ?_⟩
  · unfold readBits
    dsimp only
    rw [habs, if_pos (by omega), getRange, if_pos hrange]
  · rw [BitVec.getLsbD_and, getLsbD_lowMask, BitVec.getLsbD_ushiftRight, getLsbD_gather,
      BitVec.getLsbD_zero, Bool.false_or]
    by_cases hi : i < count
    · rw [Nat.zero_mul, decide_eq_true (show absolute % 8 + i < 64 by omega),
        decide_eq_true (show 0 ≤ absolute % 8 + i by omega), decide_eq_true hi,
        decide_eq_true (show i < 64 by omega), Nat.sub_zero, bitAt_slice _ _ _ _ (by omega),
        show 8 * (absolute / 8) + (absolute % 8 + i) = absolute + i by omega]
      simp only [Bool.true_and, Bool.and_true]
    · rw [decide_eq_false hi, Bool.false_and, Bool.false_and, Bool.and_false]

/-- What is read back is the value whose bits stand there. -/
theorem readBits_of_bits {src : Bytes} {base bitPos count : ℕ} {value : BitVec 64}
    (hcount : count ≤ 57) (h : base * 8 + bitPos + count ≤ 8 * src.length)
    (hfit : ∀ j, count ≤ j → value.getLsbD j = false)
    (hbits : ∀ i, i < count → bitAt src (base * 8 + bitPos + i) = value.getLsbD i) :
    readBits src base bitPos count = .ok value := by
  obtain ⟨read, hread, hspec⟩ := readBits_spec _ _ _ _ hcount h
  rw [hread]
  congr 1
  apply BitVec.eq_of_getLsbD_eq
  intro i _
  rw [hspec]
  by_cases hi : i < count
  · rw [decide_eq_true hi, Bool.true_and, hbits i hi]
  · rw [decide_eq_false hi, Bool.false_and, hfit i (by omega)]

/-- **What is written** is put over the bits from there on; all others stay. -/
theorem writeBits_spec (dst : Bytes) (base bitPos count : ℕ) (value : BitVec 64)
    (hcount : count ≤ 57) (h : base * 8 + bitPos + count ≤ 8 * dst.length) :
    ∃ out, writeBits dst base bitPos value count = .ok out ∧ out.length = dst.length ∧
      ∀ k, bitAt out k = (bitAt dst k ||
        (decide (base * 8 + bitPos ≤ k) && (decide (k < base * 8 + bitPos + count) &&
          value.getLsbD (k - (base * 8 + bitPos))))) := by
  generalize habs : base * 8 + bitPos = absolute at h
  generalize hn : (absolute % 8 + count + 7) / 8 = n
  have hrange : absolute / 8 + n ≤ dst.length := by omega
  refine ⟨overwrite dst (absolute / 8) (gather (slice dst (absolute / 8) n) 0 0#64 |||
    ((value &&& lowMask count) <<< (absolute % 8))) n, ?_, overwrite_length _ _ _ _ hrange,
      fun k => ?_⟩
  · unfold writeBits
    dsimp only
    rw [habs, if_pos (by omega), hn, getRange, if_pos hrange]
  · rw [bitAt_overwrite _ _ _ _ _ hrange]
    by_cases hk : 8 * (absolute / 8) ≤ k ∧ k < 8 * (absolute / 8 + n)
    · rw [if_pos hk, BitVec.getLsbD_or, getLsbD_gather, BitVec.getLsbD_zero, Bool.false_or,
        BitVec.getLsbD_shiftLeft, BitVec.getLsbD_and, getLsbD_lowMask, Nat.zero_mul, Nat.sub_zero,
        bitAt_slice _ _ _ _ (by omega), decide_eq_true (show k - 8 * (absolute / 8) < 64 by omega),
        decide_eq_true (show 0 ≤ k - 8 * (absolute / 8) by omega),
        show 8 * (absolute / 8) + (k - 8 * (absolute / 8)) = k by omega]
      by_cases hlow : absolute ≤ k
      · rw [decide_eq_true hlow,
          decide_eq_false (show ¬k - 8 * (absolute / 8) < absolute % 8 by omega),
          show k - 8 * (absolute / 8) - absolute % 8 = k - absolute by omega]
        by_cases hhigh : k < absolute + count
        · rw [decide_eq_true hhigh, decide_eq_true (show k - absolute < count by omega),
            decide_eq_true (show k - absolute < 64 by omega)]
          simp only [Bool.true_and, Bool.and_true, Bool.not_false]
        · rw [decide_eq_false hhigh, decide_eq_false (show ¬k - absolute < count by omega)]
          simp only [Bool.true_and, Bool.false_and, Bool.and_false, Bool.or_false]
      · rw [decide_eq_false hlow,
          decide_eq_true (show k - 8 * (absolute / 8) < absolute % 8 by omega)]
        simp only [Bool.true_and, Bool.not_true, Bool.false_and, Bool.or_false]
    · rw [if_neg hk]
      by_cases hlow : absolute ≤ k
      · rw [decide_eq_false (show ¬k < absolute + count by omega), Bool.false_and, Bool.and_false,
          Bool.or_false]
      · rw [decide_eq_false hlow, Bool.false_and, Bool.or_false]

/-! ### The values of a field -/

/-- Two values next to each other: place in the field and width. -/
def pairParts (firstBits secondBits : List ℕ) (quality : BitQuality) : List (ℕ × ℕ) :=
  let first := firstBits.getD quality.index 0
  [(0, first), (first, secondBits.getD quality.index 0)]

/-- The values of a rotation field: place in the field and width. -/
def rotationParts (quality : BitQuality) (field : ℕ) : List (ℕ × ℕ) :=
  if field < wireBoneSlotCount then
    match boneDof.getD field 0 with
    | 3 =>
      let bpc := (bpcTable quality).getD field 0
      [(0, 2), (2, bpc), (2 + bpc, bpc), (2 + 2 * bpc, bpc)]
    | 2 => pairParts hingeBits twistBits quality
    | _ => [(0, singleBits.getD quality.index 0)]
  else pairParts curlBits splayBits quality

/-- Ranges, each given by its start and its width, that follow one another from `start` to
`stop`. -/
def Tiles : ℕ → ℕ → List (ℕ × ℕ) → Prop
  | start, stop, [] => start = stop
  | start, stop, (offset, width) :: rest => offset = start ∧ Tiles (start + width) stop rest

instance Tiles.decidable : ∀ start stop parts, Decidable (Tiles start stop parts)
  | start, stop, [] => inferInstanceAs (Decidable (start = stop))
  | start, stop, (offset, width) :: rest =>
    have := Tiles.decidable (start + width) stop rest
    inferInstanceAs (Decidable (offset = start ∧ Tiles (start + width) stop rest))

/-- **The fields of a quality are the rotation bits**, and the values of a field are the field. -/
structure Partition (quality : BitQuality) : Prop where
  fields : Tiles 0 (rotationFieldOffset quality rotationFieldCount)
    ((List.range rotationFieldCount).map fun field =>
      (rotationFieldOffset quality field, rotationFieldWidth quality field))
  bytes : (rotationFieldOffset quality rotationFieldCount + 7) / 8 = quality.rotationLen
  parts : ∀ field < rotationFieldCount,
    Tiles 0 (rotationFieldWidth quality field) (rotationParts quality field)

theorem partition_spec (quality : BitQuality) : Partition quality := by
  refine ⟨?_, ?_, ?_⟩ <;> cases quality <;> decide

/-- What the proofs use of the values of a field. -/
structure PartsOk (target : BitQuality) (field : ℕ) : Prop where
  apart : (rotationParts target field).Pairwise fun x y => x.1 + x.2 ≤ y.1
  inside : ∀ quality, ∀ q ∈ rotationParts quality field,
    q.1 + q.2 ≤ rotationFieldWidth quality field
  widths : ∀ x ∈ (rotationParts .high field).zip (rotationParts target field),
    0 < x.1.2 ∧ x.1.2 + x.2.2 ≤ 63

theorem parts_ok (target : BitQuality) {field : ℕ} (h : field < rotationFieldCount) :
    PartsOk target field := by
  have hapart : ∀ field < rotationFieldCount,
      (rotationParts target field).Pairwise fun x y => x.1 + x.2 ≤ y.1 := by
    cases target <;> decide
  have hinside : ∀ quality, ∀ field < rotationFieldCount, ∀ q ∈ rotationParts quality field,
      q.1 + q.2 ≤ rotationFieldWidth quality field := by
    intro quality
    cases quality <;> decide
  have hwidths : ∀ field < rotationFieldCount,
      ∀ x ∈ (rotationParts .high field).zip (rotationParts target field),
        0 < x.1.2 ∧ x.1.2 + x.2.2 ≤ 63 := by
    cases target <;> decide
  exact ⟨hapart field h, fun quality => hinside quality field h, hwidths field h⟩

/-- The rescaled values with their places in the field of the target. -/
def rescaledParts : List (BitVec 64) → List (ℕ × ℕ) → List (ℕ × ℕ) → List (BitVec 64 × ℕ × ℕ)
  | v :: vs, p :: ps, q :: qs => (rescaleQuant v p.2 q.2, q.1, q.2) :: rescaledParts vs ps qs
  | _, _, _ => []

theorem mem_rescaledParts {x : BitVec 64 × ℕ × ℕ} (h : x ∈ rescaledParts vs ps qs) :
    ∃ v p q, (v, p) ∈ vs.zip ps ∧ (p, q) ∈ ps.zip qs ∧ q ∈ qs ∧
      x = (rescaleQuant v p.2 q.2, q.1, q.2) := by
  induction vs generalizing ps qs with
  | nil => cases h
  | cons v vs ih =>
    cases ps with
    | nil => cases h
    | cons p ps =>
      cases qs with
      | nil => cases h
      | cons q qs =>
        rcases List.mem_cons.mp h with rfl | h
        · exact ⟨v, p, q, .head _, .head _, .head _, rfl⟩
        · obtain ⟨v', p', q', hvp, hpq, hq, heq⟩ := ih h
          exact ⟨v', p', q', .tail _ hvp, .tail _ hpq,
            .tail _ hq, heq⟩

theorem getElem?_rescaledParts {i : ℕ} {v : BitVec 64} {p q : ℕ × ℕ} (hv : vs[i]? = some v)
    (hp : ps[i]? = some p) (hq : qs[i]? = some q) :
    (rescaleQuant v p.2 q.2, q.1, q.2) ∈ rescaledParts vs ps qs := by
  induction i generalizing vs ps qs with
  | zero =>
    obtain ⟨vs, rfl⟩ : ∃ l, vs = v :: l := by cases vs <;> simp_all
    obtain ⟨ps, rfl⟩ : ∃ l, ps = p :: l := by cases ps <;> simp_all
    obtain ⟨qs, rfl⟩ : ∃ l, qs = q :: l := by cases qs <;> simp_all
    exact .head _
  | succ i ih =>
    cases vs with
    | nil => cases hv
    | cons v' vs =>
      cases ps with
      | nil => cases hp
      | cons p' ps =>
        cases qs with
        | nil => cases hq
        | cons q' qs => exact .tail _ (ih hv hp hq)

theorem rescaledParts_pairwise (h : qs.Pairwise fun x y => x.1 + x.2 ≤ y.1) :
    (rescaledParts vs ps qs).Pairwise fun x y => x.2.1 + x.2.2 ≤ y.2.1 := by
  induction h generalizing vs ps with
  | nil => cases vs <;> cases ps <;> exact .nil
  | cons hhead _ ih =>
    cases vs with
    | nil => exact .nil
    | cons v vs =>
      cases ps with
      | nil => exact .nil
      | cons p ps =>
        refine .cons (fun x hx => ?_) ih
        obtain ⟨_, _, q, -, -, hq, rfl⟩ := mem_rescaledParts hx
        exact hhead q hq

/-! ### One field -/

/-- Every value of the field in the repacked payload is the rescaled value of the high payload. -/
def FieldRepacked (high : Bytes) (target : BitQuality) (out : Bytes) (field : ℕ) : Prop :=
  ∀ (i : ℕ) (p q : ℕ × ℕ), (rotationParts .high field)[i]? = some p →
    (rotationParts target field)[i]? = some q →
    ∃ v, readBits high writePosition (rotationFieldOffset .high field + p.1) p.2 = .ok v ∧
      readBits out writePosition (rotationFieldOffset target field + q.1) q.2 =
        .ok (rescaleQuant v p.2 q.2)

/-- The first bit of a rotation field in the payload. -/
def fieldBit (quality : BitQuality) (field : ℕ) : ℕ :=
  writePosition * 8 + rotationFieldOffset quality field

theorem fieldBit_succ (quality : BitQuality) (field : ℕ) :
    fieldBit quality (field + 1) = fieldBit quality field + rotationFieldWidth quality field := by
  unfold fieldBit rotationFieldOffset
  rw [List.range_succ, List.map_append, List.sum_append, List.map_singleton, List.sum_singleton,
    Nat.add_assoc]

theorem fieldBit_mono (quality : BitQuality) {i j : ℕ} (h : i ≤ j) :
    fieldBit quality i ≤ fieldBit quality j := by
  induction h with
  | refl => exact Nat.le_refl _
  | step _ ih =>
    rw [fieldBit_succ]
    exact Nat.le_trans ih (Nat.le_add_right _ _)

/-- What the code does to the output for one field. -/
structure FieldStep (high : Bytes) (target : BitQuality) (field : ℕ) (out out' : Bytes) : Prop where
  length : out'.length = target.payloadLen
  below : ∀ k, k < fieldBit target field → bitAt out' k = bitAt out k
  above : ∀ k, fieldBit target (field + 1) ≤ k → bitAt out' k = false
  repacked : FieldRepacked high target out' field

section Fields

variable {high out : Bytes} {target : BitQuality} {field : ℕ}

/-- A value read from a field of the high payload fits its width. -/
theorem readPart_fits {v : BitVec 64} {bit count : ℕ} (hcount : count ≤ 57)
    (h : writePosition * 8 + bit + count ≤ 8 * high.length)
    (hread : readBits high writePosition bit count = .ok v) : v.toNat < 2 ^ count := by
  obtain ⟨read, heq, hspec⟩ := readBits_spec _ _ _ _ hcount h
  rw [hread] at heq
  injection heq with heq
  subst heq
  apply Nat.lt_pow_two_of_testBit
  intro i hi
  show v.getLsbD i = false
  rw [hspec, decide_eq_false (Nat.not_lt.mpr hi), Bool.false_and]

theorem getLsbD_of_le {v : BitVec 64} {bits j : ℕ} (h : v.toNat ≤ maxOf bits) (hj : bits ≤ j) :
    v.getLsbD j = false := by
  have hpos := Nat.two_pow_pos bits
  have hlt : v.toNat < 2 ^ j := by
    unfold maxOf at h
    exact Nat.lt_of_lt_of_le (show v.toNat < 2 ^ bits by omega)
      (Nat.pow_le_pow_right (by decide) hj)
  exact Nat.testBit_lt_two_pow hlt

/-- **Writing the packed values of a field.** -/
theorem writeParts_spec (hhigh : BitQuality.high.payloadLen ≤ high.length)
    (hout : out.length = target.payloadLen) (hfield : field < rotationFieldCount)
    (hclear : ∀ k, fieldBit target field ≤ k → bitAt out k = false) (vals : List (BitVec 64))
    (hlength : vals.length = (rotationParts .high field).length)
    (hvals : ∀ x ∈ vals.zip (rotationParts .high field),
      readBits high writePosition (rotationFieldOffset .high field + x.2.1) x.2.2 = .ok x.1) :
    ∃ out', writeBits out writePosition (rotationFieldOffset target field)
        (pack (rescaledParts vals (rotationParts .high field) (rotationParts target field)))
        (rotationFieldWidth target field) = .ok out' ∧
      FieldStep high target field out out' := by
  obtain ⟨hapart, hpart, hwidths⟩ := parts_ok target hfield
  obtain ⟨hhighWidth, hhighInside⟩ := field_inside .high hfield
  obtain ⟨hwidth, hinside⟩ := field_inside target hfield
  generalize hps : rotationParts .high field = ps at *
  generalize hqs : rotationParts target field = qs at *
  obtain ⟨out', hwrite, hlen, hbits⟩ := writeBits_spec out writePosition
    (rotationFieldOffset target field) (rotationFieldWidth target field)
      (pack (rescaledParts vals ps qs)) hwidth
    (by rw [hout]; exact hinside)
  refine ⟨out', hwrite, hlen.trans hout, fun k hk => ?_, fun k hk => ?_, fun i p q hp hq => ?_⟩
  · rw [hbits]
    unfold fieldBit at hk
    rw [decide_eq_false (Nat.not_le.mpr hk), Bool.false_and, Bool.or_false]
  · rw [fieldBit_succ] at hk
    rw [hbits, hclear k (Nat.le_trans (Nat.le_add_right _ _) hk), Bool.false_or]
    unfold fieldBit at hk
    rw [decide_eq_false (Nat.not_lt.mpr hk), Bool.false_and, Bool.and_false]
  rw [hps] at hp
  rw [hqs] at hq
  -- the value of this part and how it is rescaled
  have hi : i < vals.length := hlength ▸ (List.getElem?_eq_some_iff.mp hp).1
  have hv : vals[i]? = some vals[i] := List.getElem?_eq_getElem hi
  have hread := hvals (vals[i], p) (List.mem_of_getElem? (i := i) (by
    rw [List.getElem?_zip_eq_some]
    exact ⟨hv, hp⟩))
  have hpInside := hpart .high p (by rw [hps]; exact List.mem_of_getElem? hp)
  have hqInside := hpart target q (by rw [hqs]; exact List.mem_of_getElem? hq)
  refine ⟨vals[i], hread, ?_⟩
  have hfits : ∀ x ∈ rescaledParts vals ps qs, ∀ j, x.2.2 ≤ j → x.1.getLsbD j = false := by
    intro x hx j hj
    obtain ⟨v, p', q', hvp, hpq, -, rfl⟩ := mem_rescaledParts hx
    have hinside' := hpart .high p' (by rw [hps]; exact (List.of_mem_zip hvp).2)
    have hv' : v.toNat < 2 ^ p'.2 :=
      readPart_fits (show p'.2 ≤ 57 by omega)
        (show writePosition * 8 + (rotationFieldOffset .high field + p'.1) + p'.2 ≤
          8 * high.length by
          omega)
        (hvals (v, p') hvp)
    have hle := (rescaleQuant_spec (hwidths (p', q') hpq).1 (hwidths (p', q') hpq).2).le v hv'
    exact getLsbD_of_le hle hj
  have hmem := getElem?_rescaledParts hv hp hq
  refine readBits_of_bits (by omega) (by rw [hlen, hout]; omega) (hfits _ hmem) fun j hj => ?_
  have hpacked := getLsbD_pack hfits (rescaledParts_pairwise hapart) hmem hj (by dsimp only; omega)
  dsimp only at hpacked
  rw [hbits, hclear _ (by unfold fieldBit; omega), Bool.false_or,
    decide_eq_true (show writePosition * 8 + rotationFieldOffset target field ≤
      writePosition * 8 + (rotationFieldOffset target field + q.1) + j by omega),
    decide_eq_true (show writePosition * 8 + (rotationFieldOffset target field + q.1) + j <
      writePosition * 8 + rotationFieldOffset target field + rotationFieldWidth target
        field by omega),
    show writePosition * 8 + (rotationFieldOffset target field + q.1) + j -
      (writePosition * 8 + rotationFieldOffset target field) = q.1 + j by omega, hpacked]
  rfl

/-- A part of what was read is what would have been read there. -/
theorem readBits_part {bit count : ℕ} {raw : BitVec 64} (a b : ℕ) (hcount : count ≤ 57)
    (h : writePosition * 8 + bit + count ≤ 8 * high.length)
    (hraw : readBits high writePosition bit count = .ok raw) (hab : a + b ≤ count) :
    readBits high writePosition (bit + a) b = .ok ((raw >>> a) &&& ((1#64 <<< b) - 1)) := by
  obtain ⟨read, heq, hspec⟩ := readBits_spec _ _ _ _ hcount h
  rw [hraw] at heq
  injection heq with heq
  subst heq
  have hvalue : ∀ i, ((raw >>> a) &&& ((1#64 <<< b) - 1)).getLsbD i =
      (raw.getLsbD (a + i) && decide (i < b)) := by
    intro i
    rw [BitVec.getLsbD_and, BitVec.getLsbD_ushiftRight]
    congr 1
    exact getLsbD_shiftLeft_one_sub_one 64 b i (by omega)
  refine readBits_of_bits (by omega) (by omega) (fun j hj => ?_) fun i hi => ?_
  · rw [hvalue, decide_eq_false (Nat.not_lt.mpr hj), Bool.and_false]
  · rw [hvalue, decide_eq_true hi, Bool.and_true, hspec,
      decide_eq_true (show a + i < count by omega), Bool.true_and,
      show writePosition * 8 + bit + (a + i) = writePosition * 8 + (bit + a) + i by omega]

section Step

variable (hhigh : BitQuality.high.payloadLen ≤ high.length)
  (hout : out.length = target.payloadLen)
  (hclear : ∀ k, fieldBit target field ≤ k → bitAt out k = false)
include hhigh hout hclear

section

variable (hfield : field < rotationFieldCount)
include hfield

theorem repackQuaternion_spec (hparts : ∀ quality, rotationParts quality field =
      let bpc := (bpcTable quality).getD field 0
      [(0, 2), (2, bpc), (2 + bpc, bpc), (2 + 2 * bpc, bpc)])
    (hwidth : ∀ quality, rotationFieldWidth quality field =
      2 + 3 * (bpcTable quality).getD field 0) :
    ∃ out', repackQuaternion high target out field = .ok out' ∧
      FieldStep high target field out out' := by
  obtain ⟨hsmall, hinside⟩ := field_inside .high hfield
  have hparts₀ : rotationParts .high field = [(0, 2), (2, bpcHigh.getD field 0),
      (2 + bpcHigh.getD field 0, bpcHigh.getD field 0),
      (2 + 2 * bpcHigh.getD field 0, bpcHigh.getD field 0)] := hparts .high
  have hwidth₀ : rotationFieldWidth .high field = 2 + 3 * bpcHigh.getD field 0 := hwidth .high
  rw [hwidth₀] at hsmall hinside
  have hle : writePosition * 8 + rotationFieldOffset .high field +
      (2 + 3 * bpcHigh.getD field 0) ≤ 8 * high.length := by omega
  obtain ⟨raw, hraw, -⟩ := readBits_spec _ _ _ _ hsmall hle
  have hpart := fun a b hab => readBits_part a b hsmall hle hraw hab
  obtain ⟨out', hwrite, hstep⟩ := writeParts_spec hhigh hout hfield hclear
    [raw &&& 3#64, (raw >>> 2) &&& ((1#64 <<< bpcHigh.getD field 0) - 1),
      (raw >>> (2 + bpcHigh.getD field 0)) &&& ((1#64 <<< bpcHigh.getD field 0) - 1),
      (raw >>> (2 + 2 * bpcHigh.getD field 0)) &&& ((1#64 <<< bpcHigh.getD field 0) - 1)]
    (by rw [hparts₀]; rfl) (by
      rw [hparts₀]
      simp only [List.zip_cons_cons, List.zip_nil_right, List.forall_mem_cons, List.not_mem_nil,
        false_implies, implies_true, and_true]
      exact ⟨hpart 0 2 (by omega), hpart 2 _ (by omega), hpart _ _ (by omega),
        hpart _ _ (by omega)⟩)
  refine ⟨out', ?_, hstep⟩
  rw [← hwrite, hparts₀, hparts target, hwidth target]
  rw [repackQuaternion, hraw]
  dsimp only [rescaledParts, pack, List.foldl_cons, List.foldl_nil]
  rw [rescaleQuant_same, BitVec.shiftLeft_zero, BitVec.zero_or]
  rfl

theorem repackPair_spec {firstBits secondBits : List ℕ}
    (hparts : ∀ quality, rotationParts quality field = pairParts firstBits secondBits quality)
    (hwidth : ∀ quality, rotationFieldWidth quality field =
      firstBits.getD quality.index 0 + secondBits.getD quality.index 0) :
    ∃ out', repackPair high target firstBits secondBits out field = .ok out' ∧
      FieldStep high target field out out' := by
  obtain ⟨hsmall, hinside⟩ := field_inside .high hfield
  rw [hwidth] at hsmall hinside
  obtain ⟨first, hfirst, -⟩ := readBits_spec high writePosition
    (rotationFieldOffset .high field) (firstBits.getD BitQuality.high.index 0) (by omega) (by omega)
  obtain ⟨second, hsecond, -⟩ := readBits_spec high writePosition
    (rotationFieldOffset .high field + firstBits.getD BitQuality.high.index 0)
    (secondBits.getD BitQuality.high.index 0) (by omega) (by omega)
  obtain ⟨out', hwrite, hstep⟩ := writeParts_spec hhigh hout hfield hclear [first, second]
    (by rw [hparts]; rfl) (by
      rw [hparts]
      unfold pairParts
      simp only [List.zip_cons_cons, List.zip_nil_right, List.forall_mem_cons, List.not_mem_nil,
        false_implies, implies_true, and_true]
      exact ⟨hfirst, hsecond⟩)
  refine ⟨out', ?_, hstep⟩
  rw [← hwrite, hparts, hparts target, hwidth target, repackPair]
  simp only [hfirst, hsecond, bind, Except.bind]
  dsimp only [pairParts, rescaledParts, pack, List.foldl_cons, List.foldl_nil]
  rw [BitVec.shiftLeft_zero, BitVec.zero_or]

theorem repackSingle_spec
    (hparts : ∀ quality, rotationParts quality field = [(0, singleBits.getD quality.index 0)])
    (hwidth : ∀ quality, rotationFieldWidth quality field = singleBits.getD quality.index 0) :
    ∃ out', repackSingle high target out field = .ok out' ∧
      FieldStep high target field out out' := by
  obtain ⟨hsmall, hinside⟩ := field_inside .high hfield
  rw [hwidth] at hsmall hinside
  obtain ⟨value, hvalue, -⟩ := readBits_spec high writePosition
    (rotationFieldOffset .high field) _ hsmall (by omega)
  obtain ⟨out', hwrite, hstep⟩ := writeParts_spec hhigh hout hfield hclear [value]
    (by rw [hparts]; rfl) (by
      rw [hparts]
      simp only [List.zip_cons_cons, List.zip_nil_right, List.forall_mem_cons, List.not_mem_nil,
        false_implies, implies_true, and_true]
      exact hvalue)
  refine ⟨out', ?_, hstep⟩
  rw [← hwrite, hparts, hparts target, hwidth target, repackSingle, hvalue]
  dsimp only [rescaledParts, pack, List.foldl_cons, List.foldl_nil]
  rw [BitVec.shiftLeft_zero, BitVec.zero_or]
  rfl

end

theorem repackBone_spec (hslot : field < wireBoneSlotCount) :
    ∃ out', repackBone high target out field = .ok out' ∧ FieldStep high target field out out' := by
  have hfield : field < rotationFieldCount := Nat.lt_of_lt_of_le hslot (by decide)
  have hwidth : ∀ quality, rotationFieldWidth quality field = boneFieldWidth quality field :=
    fun quality => if_pos hslot
  rw [repackBone]
  split
  · next hdof =>
    refine repackQuaternion_spec hhigh hout hclear hfield (fun quality => ?_) fun quality => ?_
    · rw [rotationParts, if_pos hslot]
      simp only [hdof]
    · rw [hwidth, boneFieldWidth]
      simp only [hdof]
  · next hdof =>
    refine repackPair_spec hhigh hout hclear hfield (fun quality => ?_) fun quality => ?_
    · rw [rotationParts, if_pos hslot]
      simp only [hdof]
    · rw [hwidth, boneFieldWidth]
      simp only [hdof]
  · next hthree htwo =>
    refine repackSingle_spec hhigh hout hclear hfield (fun quality => ?_) fun quality => ?_
    · rw [rotationParts, if_pos hslot]
      split
      · next hdof => exact absurd hdof hthree
      · next hdof => exact absurd hdof htwo
      · rfl
    · rw [hwidth, boneFieldWidth]
      split
      · next hdof => exact absurd hdof hthree
      · next hdof => exact absurd hdof htwo
      · rfl

end Step

theorem repackFinger_spec (hhigh : BitQuality.high.payloadLen ≤ high.length)
    (hout : out.length = target.payloadLen) {finger : ℕ} (hfinger : finger < fingerChannelCount)
    (hclear : ∀ k, fieldBit target (wireBoneSlotCount + finger) ≤ k → bitAt out k = false) :
    ∃ out', repackFinger high target out finger = .ok out' ∧
      FieldStep high target (wireBoneSlotCount + finger) out out' := by
  have hge : ¬wireBoneSlotCount + finger < wireBoneSlotCount :=
    Nat.not_lt.mpr (Nat.le_add_right _ _)
  refine repackPair_spec hhigh hout hclear (Nat.add_lt_add_left hfinger _) (fun quality => ?_)
    fun quality => ?_
  · rw [rotationParts, if_neg hge]
  · rw [rotationFieldWidth, if_neg hge, fingerFieldWidth]

/-! ### All fields -/

/-- The output after the first fields. -/
structure RepackedTo (high : Bytes) (target : BitQuality) (count : ℕ) (out : Bytes) : Prop where
  length : out.length = target.payloadLen
  position : ∀ k, k < writePosition * 8 → bitAt out k = bitAt high k
  clear : ∀ k, fieldBit target count ≤ k → bitAt out k = false
  fields : ∀ field < count, FieldRepacked high target out field

/-- A field only depends on its bits. -/
theorem FieldRepacked.congr {out' : Bytes} (h : FieldRepacked high target out field)
    (hfield : field < rotationFieldCount) (hout : target.payloadLen ≤ out.length)
    (hout' : target.payloadLen ≤ out'.length)
    (hsame : ∀ k, k < fieldBit target (field + 1) → bitAt out' k = bitAt out k) :
    FieldRepacked high target out' field := by
  intro i p q hp hq
  obtain ⟨v, hread, hvalue⟩ := h i p q hp hq
  refine ⟨v, hread, ?_⟩
  obtain ⟨hwidth, hinside⟩ := field_inside target hfield
  have hqInside := (parts_ok target hfield).inside target q (List.mem_of_getElem? hq)
  obtain ⟨read, heq, hspec⟩ := readBits_spec out writePosition
    (rotationFieldOffset target field + q.1) q.2 (by omega) (by omega)
  rw [hvalue] at heq
  injection heq with heq
  rw [heq]
  refine readBits_of_bits (by omega) (by omega) (fun j hj => ?_) fun j hj => ?_
  · rw [hspec, decide_eq_false (Nat.not_lt.mpr hj), Bool.false_and]
  · rw [hspec, decide_eq_true hj, Bool.true_and]
    apply hsame
    rw [fieldBit_succ, fieldBit]
    omega

theorem RepackedTo.step {out' : Bytes} (h : RepackedTo high target field out)
    (hfield : field < rotationFieldCount) (hs : FieldStep high target field out out') :
    RepackedTo high target (field + 1) out' := by
  refine ⟨hs.length, fun k hk => ?_, hs.above, fun j hj => ?_⟩
  · rw [hs.below k (Nat.lt_of_lt_of_le hk (Nat.le_add_right _ _))]
    exact h.position k hk
  · rcases Nat.lt_succ_iff_lt_or_eq.mp hj with hlt | rfl
    · exact (h.fields j hlt).congr (Nat.lt_trans hlt hfield) (Nat.le_of_eq h.length.symm)
        (Nat.le_of_eq hs.length.symm) fun k hk =>
          hs.below k (Nat.lt_of_lt_of_le hk (fieldBit_mono target hlt))
    · exact hs.repacked

/-- A loop over the fields from `start` on. -/
theorem repackLoop_spec (f : Bytes → ℕ → Except RepackError Bytes) (start count : ℕ)
    (hcount : start + count ≤ rotationFieldCount)
    (hstep : ∀ out i, i < count → RepackedTo high target (start + i) out →
      ∃ out', f out i = .ok out' ∧ FieldStep high target (start + i) out out')
    (hout : RepackedTo high target start out) :
    ∃ out', (List.range count).foldlM f out = .ok out' ∧
      RepackedTo high target (start + count) out' := by
  induction count with
  | zero => exact ⟨out, rfl, hout⟩
  | succ count ih =>
    obtain ⟨mid, hmid, hrepacked⟩ := ih (by omega) fun out i hi => hstep out i (by omega)
    obtain ⟨out', hlast, hs⟩ := hstep mid count (Nat.lt_succ_self _) hrepacked
    refine ⟨out', ?_, hrepacked.step (by omega) hs⟩
    rw [List.range_succ, List.foldlM_append, hmid]
    show [count].foldlM f mid = _
    rw [List.foldlM_cons, hlast]
    rfl

end Fields

/-! ### The whole payload -/

/-- The position at the front, the rotation fields, zeros up to a whole byte, and the tail. -/
structure Fieldwise (high : Bytes) (target : BitQuality) (packed : Bytes) : Prop where
  length : packed.length = writePosition + target.rotationLen + tailBytes
  position : packed.take writePosition = high.take writePosition
  fields : ∀ field < rotationFieldCount, FieldRepacked high target packed field
  padding : ∀ k, fieldBit target rotationFieldCount ≤ k →
    k < 8 * (writePosition + target.rotationLen) → bitAt packed k = false
  tail : packed.drop (writePosition + target.rotationLen) =
    slice high (writePosition + BitQuality.high.rotationLen) tailBytes

/-- The rotation fields with the position before them and the tail put behind them. -/
theorem RepackedTo.fieldwise {high fields : Bytes} {target : BitQuality}
    (h : RepackedTo high target rotationFieldCount fields) (htarget : target ≠ .high)
    (hhigh : BitQuality.high.payloadLen ≤ high.length) :
    Fieldwise high target (fields.take (writePosition + target.rotationLen) ++
      slice high (writePosition + BitQuality.high.rotationLen) tailBytes) := by
  have hpayload : target.payloadLen = writePosition + target.rotationLen + tailBytes := by
    cases target <;> first | rfl | exact absurd rfl htarget
  have hbits : fieldBit target rotationFieldCount ≤ 8 * (writePosition + target.rotationLen) := by
    have hbytes := (partition_spec target).bytes
    unfold fieldBit
    omega
  have hhighLen : writePosition + BitQuality.high.rotationLen + tailBytes ≤ high.length :=
    Nat.le_trans (by decide) hhigh
  have htail : (slice high (writePosition + BitQuality.high.rotationLen) tailBytes).length =
      tailBytes := slice_length _ _ _ hhighLen
  have htake : (fields.take (writePosition + target.rotationLen)).length =
      writePosition + target.rotationLen := by
    rw [List.length_take, h.length]
    omega
  have hsame : ∀ k, k < 8 * (writePosition + target.rotationLen) →
      bitAt (fields.take (writePosition + target.rotationLen) ++
        slice high (writePosition + BitQuality.high.rotationLen) tailBytes) k = bitAt fields k := by
    intro k hk
    rw [bitAt_append, htake, if_pos hk, bitAt_take _ _ _ hk]
  have hlength : (fields.take (writePosition + target.rotationLen) ++
      slice high (writePosition + BitQuality.high.rotationLen) tailBytes).length =
      writePosition + target.rotationLen + tailBytes := by
    rw [List.length_append, htake, htail]
  refine ⟨hlength, ?_, fun field hfield => ?_, fun k hk hk' => ?_, ?_⟩
  · refine eq_of_bitAt ?_ fun k hk => ?_
    · rw [List.length_take, List.length_take, hlength]
      omega
    · rw [List.length_take, hlength] at hk
      rw [bitAt_take _ _ _ (by omega), bitAt_take _ _ _ (by omega), hsame k (by omega),
        h.position k (by omega)]
  · exact (h.fields field hfield).congr hfield (Nat.le_of_eq h.length.symm)
      (Nat.le_of_eq (hpayload.trans hlength.symm)) fun k hk =>
        hsame k (Nat.lt_of_lt_of_le hk (Nat.le_trans (fieldBit_mono target hfield) hbits))
  · rw [hsame k hk', h.clear k hk]
  · rw [List.drop_left' htake]

/-- **Repacking is field-wise rescaling.** Into any buffer that is large enough: the payload is
`Fieldwise` and what is behind it in the buffer stays.  The fields and their values partition the
rotation bits, and rescaling is what it should be wherever its 64-bit arithmetic does not
overflow. -/
theorem repack_fieldwise {high out : Bytes} {target : BitQuality}
    (hhigh : BitQuality.high.payloadLen ≤ high.length) (htarget : target ≠ .high)
    (hout : target.payloadLen ≤ out.length) :
    (∃ packed, repackHighToLowerInto high target out = .ok (packed ++ out.drop target.payloadLen) ∧
      packed.length = target.payloadLen ∧ Fieldwise high target packed) ∧
    (∀ quality, Partition quality) ∧
    ∀ s d, 0 < s → s + d ≤ 63 → Rescales s d := by
  refine ⟨?_, partition_spec, fun s d => rescaleQuant_spec⟩
  have hpayload : target.payloadLen = writePosition + target.rotationLen + tailBytes := by
    cases target <;> first | rfl | exact absurd rfl htarget
  have hzeros : (List.replicate target.payloadLen (0 : Byte)).length = target.payloadLen :=
    List.length_replicate
  have hposition : (high.take writePosition).length = writePosition := by
    have hle : writePosition ≤ BitQuality.high.payloadLen := by decide
    rw [List.length_take]
    omega
  have hstart : RepackedTo high target 0 (high.take writePosition ++
      (List.replicate target.payloadLen (0 : Byte)).drop writePosition) := by
    refine ⟨?_, fun k hk => ?_, fun k hk => ?_, fun field hfield =>
      absurd hfield (Nat.not_lt_zero _)⟩
    · rw [List.length_append, hposition, List.length_drop, hzeros]
      omega
    · rw [bitAt_append, hposition, if_pos (by omega), bitAt_take _ _ _ (by omega)]
    · have hge : writePosition * 8 ≤ k := hk
      rw [bitAt_append, hposition, if_neg (by omega), bitAt_drop]
      exact bitAt_replicate_zero _ _
  obtain ⟨bones, hbones, hbonesTo⟩ := repackLoop_spec (repackBone high target) 0
    wireBoneSlotCount (by decide) (fun out i hi hrepacked => by
      have hclear := hrepacked.clear
      rw [Nat.zero_add] at hclear ⊢
      exact repackBone_spec hhigh hrepacked.length hclear hi) hstart
  rw [Nat.zero_add] at hbonesTo
  obtain ⟨fields, hfields, hfieldsTo⟩ := repackLoop_spec (repackFinger high target)
    wireBoneSlotCount fingerChannelCount (by decide)
    (fun out i hi hrepacked => repackFinger_spec hhigh hrepacked.length hi hrepacked.clear) hbonesTo
  have hfieldwise := RepackedTo.fieldwise hfieldsTo htarget hhigh
  refine ⟨_, ?_, hfieldwise.length.trans hpayload.symm, hfieldwise⟩
  rw [repackHighToLowerInto, if_neg htarget, if_neg (Nat.not_lt.mpr hhigh),
    if_neg (Nat.not_lt.mpr hout)]
  show (do let bones ← (List.range wireBoneSlotCount).foldlM (repackBone high target) _; _) = _
  rw [hbones]
  show (do let fingers ← (List.range fingerChannelCount).foldlM (repackFinger high target) _; _) = _
  rw [hfields]
  show Except.ok (_ ++ fields.drop (writePosition + target.rotationLen + tailBytes) ++ _) = _
  rw [List.drop_of_length_le (Nat.le_of_eq (hfieldsTo.length.trans hpayload)), List.append_nil]

/-- A payload of ones, into a buffer with one byte too many. -/
theorem repack_fieldwise_ones :
    ∃ packed, repackHighToLowerInto (List.replicate 159 255#8) .veryLow (List.replicate 75 7#8) =
      .ok (packed ++ [7#8]) ∧ Fieldwise (List.replicate 159 255#8) .veryLow packed := by
  obtain ⟨⟨packed, hpacked, -, hfieldwise⟩, -, -⟩ := @repack_fieldwise
    (List.replicate 159 255#8) (List.replicate 75 7#8) .veryLow
    (by rw [List.length_replicate]; decide) (by decide) (by rw [List.length_replicate]; decide)
  exact ⟨packed, hpacked, hfieldwise⟩

end BasisRust.Avatar.Repack
