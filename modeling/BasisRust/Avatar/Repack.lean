import BasisRust.Avatar.Layout
import BasisRust.Library.BitStream

/-!
# Repacking an avatar payload

`repackHighToLowerInto` makes the payload of a lower quality from one of high quality: the position
and the tail are copied, and every rotation field is read, rescaled and written with the widths of
the target.  Bits go through 64-bit windows, as in the delta codec; an index outside a buffer is the
error `outOfBounds`.

`repack_ok` says that a payload of full length always repacks, to a payload of the target's length.
-/

namespace BasisRust.Avatar.Repack

open Library

inductive RepackError where
  | targetNotLower
  | highPayloadTooSmall
  | outputTooSmall
  | outOfBounds
  deriving DecidableEq

/-! ### Bits -/

def readBitsSlow (src : Bytes) (absolute : ℕ) : ℕ → ℕ → BitVec 64 → Except RepackError (BitVec 64)
  | _, 0, result => .ok result
  | i, count + 1, result =>
    let bit := absolute + i
    if bit / 8 < src.length then
      readBitsSlow src absolute (i + 1) count
        (if bitAt src bit then result ||| (1#64 <<< i) else result)
    else .error .outOfBounds

def readBits (src : Bytes) (baseByteOffset bitPos bitCount : ℕ) : Except RepackError (BitVec 64) :=
  let absolute := baseByteOffset * 8 + bitPos
  let firstByte := absolute / 8
  let bitShift := absolute % 8
  let window :=
    if bitCount ≤ 64 - bitShift then getRange src firstByte ((bitShift + bitCount + 7) / 8)
    else none
  match window with
  | some bytes => .ok ((gather bytes 0 0#64 >>> bitShift) &&& lowMask bitCount)
  | none => readBitsSlow src absolute 0 bitCount 0#64

def writeBitsSlow (value : BitVec 64) (absolute : ℕ) : ℕ → ℕ → Bytes → Except RepackError Bytes
  | _, 0, dst => .ok dst
  | i, count + 1, dst =>
    if value.getLsbD i then
      let bit := absolute + i
      if bit / 8 < dst.length then writeBitsSlow value absolute (i + 1) count (setBitAt dst bit)
      else .error .outOfBounds
    else writeBitsSlow value absolute (i + 1) count dst

def writeBits (dst : Bytes) (baseByteOffset bitPos : ℕ) (value : BitVec 64) (bitCount : ℕ) :
    Except RepackError Bytes :=
  let absolute := baseByteOffset * 8 + bitPos
  let firstByte := absolute / 8
  let bitShift := absolute % 8
  let byteCount := (bitShift + bitCount + 7) / 8
  let window := if bitCount ≤ 64 - bitShift then getRange dst firstByte byteCount else none
  match window with
  | some bytes =>
    .ok (overwrite dst firstByte
      (gather bytes 0 0#64 ||| ((value &&& lowMask bitCount) <<< bitShift)) byteCount)
  | none => writeBitsSlow value absolute 0 bitCount dst

/-- Rescale a value from one width to another, to the nearest. -/
def rescaleQuant (value : BitVec 64) (srcBits dstBits : ℕ) : BitVec 64 :=
  if srcBits = dstBits then value
  else if dstBits = 0 then 0
  else
    let maxSrc : BitVec 64 := (1#64 <<< srcBits) - 1
    let maxDst : BitVec 64 := (1#64 <<< dstBits) - 1
    (value * maxDst + (maxSrc >>> 1)) / maxSrc

/-! ### Fields -/

/-- A bone with three components, the smallest three of a quaternion. -/
def repackQuaternion (high : Bytes) (target : BitQuality) (out : Bytes) (slot : ℕ) :
    Except RepackError Bytes := do
  let srcBpc := bpcHigh.getD slot 0
  let dstBpc := (bpcTable target).getD slot 0
  let raw ← readBits high writePosition (rotationFieldOffset .high slot) (2 + 3 * srcBpc)
  let idx := raw &&& 3#64
  let srcMask : BitVec 64 := (1#64 <<< srcBpc) - 1
  let qa := (raw >>> 2) &&& srcMask
  let qb := (raw >>> (2 + srcBpc)) &&& srcMask
  let qc := (raw >>> (2 + 2 * srcBpc)) &&& srcMask
  let packed := idx ||| (rescaleQuant qa srcBpc dstBpc <<< 2) |||
    (rescaleQuant qb srcBpc dstBpc <<< (2 + dstBpc)) |||
    (rescaleQuant qc srcBpc dstBpc <<< (2 + 2 * dstBpc))
  writeBits out writePosition (rotationFieldOffset target slot) packed (2 + 3 * dstBpc)

/-- Two values next to each other: a hinge and a twist, or a curl and a splay. -/
def repackPair (high : Bytes) (target : BitQuality) (firstBits secondBits : List ℕ) (out : Bytes)
    (field : ℕ) : Except RepackError Bytes := do
  let srcFirst := firstBits.getD BitQuality.high.index 0
  let srcSecond := secondBits.getD BitQuality.high.index 0
  let dstFirst := firstBits.getD target.index 0
  let dstSecond := secondBits.getD target.index 0
  let srcBit := rotationFieldOffset .high field
  let first ← readBits high writePosition srcBit srcFirst
  let second ← readBits high writePosition (srcBit + srcFirst) srcSecond
  let packed := rescaleQuant first srcFirst dstFirst |||
    (rescaleQuant second srcSecond dstSecond <<< dstFirst)
  writeBits out writePosition (rotationFieldOffset target field) packed (dstFirst + dstSecond)

def repackSingle (high : Bytes) (target : BitQuality) (out : Bytes) (slot : ℕ) :
    Except RepackError Bytes := do
  let srcBits := singleBits.getD BitQuality.high.index 0
  let dstBits := singleBits.getD target.index 0
  let value ← readBits high writePosition (rotationFieldOffset .high slot) srcBits
  writeBits out writePosition (rotationFieldOffset target slot) (rescaleQuant value srcBits dstBits)
    dstBits

def repackBone (high : Bytes) (target : BitQuality) (out : Bytes) (slot : ℕ) :
    Except RepackError Bytes :=
  match boneDof.getD slot 0 with
  | 3 => repackQuaternion high target out slot
  | 2 => repackPair high target hingeBits twistBits out slot
  | _ => repackSingle high target out slot

def repackFinger (high : Bytes) (target : BitQuality) (out : Bytes) (finger : ℕ) :
    Except RepackError Bytes :=
  repackPair high target curlBits splayBits out (wireBoneSlotCount + finger)

def repackHighToLowerInto (high : Bytes) (target : BitQuality) (out : Bytes) :
    Except RepackError Bytes := do
  if target = .high then throw .targetNotLower
  if high.length < BitQuality.high.payloadLen then throw .highPayloadTooSmall
  if out.length < target.payloadLen then throw .outputTooSmall
  let zeros := List.replicate target.payloadLen (0 : Byte)
  let start := high.take writePosition ++ zeros.drop writePosition
  let bones ← (List.range wireBoneSlotCount).foldlM (repackBone high target) start
  let fingers ← (List.range fingerChannelCount).foldlM (repackFinger high target) bones
  let srcTail := writePosition + BitQuality.high.rotationLen
  let dstTail := writePosition + target.rotationLen
  return fingers.take dstTail ++ slice high srcTail tailBytes ++
    fingers.drop (dstTail + tailBytes) ++ out.drop target.payloadLen

/-! ### Every payload of full length repacks -/

theorem getRange_isSome {bytes : Bytes} {first count : ℕ} (h : first + count ≤ bytes.length) :
    ∃ window, getRange bytes first count = some window := by
  rw [getRange, if_pos h]
  exact ⟨_, rfl⟩

theorem readBits_ok {src : Bytes} {base bitPos count : ℕ} (hcount : count ≤ 57)
    (h : base * 8 + bitPos + count ≤ 8 * src.length) :
    ∃ value, readBits src base bitPos count = .ok value := by
  obtain ⟨window, hwindow⟩ : ∃ window, getRange src ((base * 8 + bitPos) / 8)
      (((base * 8 + bitPos) % 8 + count + 7) / 8) = some window :=
    getRange_isSome (by omega)
  refine ⟨(gather window 0 0#64 >>> ((base * 8 + bitPos) % 8)) &&& lowMask count, ?_⟩
  rw [readBits]
  simp only [if_pos (show count ≤ 64 - (base * 8 + bitPos) % 8 from by omega), hwindow]

theorem writeBits_ok {dst : Bytes} {base bitPos count : ℕ} (value : BitVec 64) (hcount : count ≤ 57)
    (h : base * 8 + bitPos + count ≤ 8 * dst.length) :
    ∃ out, writeBits dst base bitPos value count = .ok out ∧ out.length = dst.length := by
  have hrange : (base * 8 + bitPos) / 8 + ((base * 8 + bitPos) % 8 + count + 7) / 8 ≤
      dst.length := by
    omega
  obtain ⟨window, hwindow⟩ := getRange_isSome hrange
  refine ⟨_, ?_, overwrite_length dst _ _
    (gather window 0 0#64 ||| ((value &&& lowMask count) <<< ((base * 8 + bitPos) % 8))) hrange⟩
  rw [writeBits]
  simp only [if_pos (show count ≤ 64 - (base * 8 + bitPos) % 8 from by omega), hwindow]

/-- A field of either quality is inside its payload and fits a window. -/
theorem field_inside (quality : BitQuality) {field : ℕ} (h : field < rotationFieldCount) :
    rotationFieldWidth quality field ≤ 57 ∧
      writePosition * 8 + rotationFieldOffset quality field + rotationFieldWidth quality field ≤
        8 * quality.payloadLen := by
  have hall : ∀ field < rotationFieldCount, rotationFieldWidth quality field ≤ 57 ∧
      writePosition * 8 + rotationFieldOffset quality field + rotationFieldWidth quality field ≤
        8 * quality.payloadLen := by
    cases quality <;> decide
  exact hall field h

section Fields

variable {high out : Bytes} {target : BitQuality} {field : ℕ}

/-- Bits of a field of high quality can be read. -/
theorem readField_ok (hhigh : BitQuality.high.payloadLen ≤ high.length)
    (hfield : field < rotationFieldCount) {bit count : ℕ}
    (hbit : rotationFieldOffset .high field ≤ bit)
    (hend : bit + count ≤ rotationFieldOffset .high field + rotationFieldWidth .high field) :
    ∃ value, readBits high writePosition bit count = .ok value := by
  obtain ⟨hwidth, hinside⟩ := field_inside .high hfield
  exact readBits_ok (by omega) (by omega)

/-- A field of the target can be written. -/
theorem writeField_ok (hfield : field < rotationFieldCount) (hout : out.length = target.payloadLen)
    (value : BitVec 64) :
    ∃ out', writeBits out writePosition (rotationFieldOffset target field) value
      (rotationFieldWidth target field) = .ok out' ∧ out'.length = target.payloadLen := by
  obtain ⟨hwidth, hinside⟩ := field_inside target hfield
  rw [← hout] at hinside
  obtain ⟨out', hwrite, hlen⟩ := writeBits_ok value hwidth hinside
  exact ⟨out', hwrite, hlen.trans hout⟩

section

variable (hhigh : BitQuality.high.payloadLen ≤ high.length) (hout : out.length = target.payloadLen)
include hhigh hout

section

variable (hfield : field < rotationFieldCount)
include hfield

theorem repackQuaternion_ok (hwidth : ∀ quality, rotationFieldWidth quality field =
      2 + 3 * (bpcTable quality).getD field 0) :
    ∃ out', repackQuaternion high target out field = .ok out' ∧
      out'.length = target.payloadLen := by
  obtain ⟨raw, hraw⟩ : ∃ value, readBits high writePosition (rotationFieldOffset .high field)
      (2 + 3 * bpcHigh.getD field 0) = .ok value := by
    refine readField_ok hhigh hfield (Nat.le_refl _) (Nat.le_of_eq ?_)
    rw [hwidth]
    rfl
  rw [repackQuaternion, hraw]
  simp only [← hwidth]
  exact writeField_ok hfield hout _

theorem repackPair_ok {firstBits secondBits : List ℕ}
    (hwidth : ∀ quality, rotationFieldWidth quality field =
      firstBits.getD quality.index 0 + secondBits.getD quality.index 0) :
    ∃ out', repackPair high target firstBits secondBits out field = .ok out' ∧
      out'.length = target.payloadLen := by
  have hhighWidth := hwidth .high
  obtain ⟨first, hfirst⟩ : ∃ value, readBits high writePosition (rotationFieldOffset .high field)
      (firstBits.getD BitQuality.high.index 0) = .ok value :=
    readField_ok hhigh hfield (Nat.le_refl _) (by omega)
  obtain ⟨second, hsecond⟩ : ∃ value, readBits high writePosition
      (rotationFieldOffset .high field + firstBits.getD BitQuality.high.index 0)
      (secondBits.getD BitQuality.high.index 0) = .ok value :=
    readField_ok hhigh hfield (Nat.le_add_right _ _) (by omega)
  rw [repackPair]
  simp only [hfirst, hsecond, bind, Except.bind]
  simp only [← hwidth]
  exact writeField_ok hfield hout _

theorem repackSingle_ok
    (hwidth : ∀ quality, rotationFieldWidth quality field = singleBits.getD quality.index 0) :
    ∃ out', repackSingle high target out field = .ok out' ∧ out'.length = target.payloadLen := by
  obtain ⟨value, hvalue⟩ : ∃ value, readBits high writePosition (rotationFieldOffset .high field)
      (singleBits.getD BitQuality.high.index 0) = .ok value := by
    refine readField_ok hhigh hfield (Nat.le_refl _) (Nat.le_of_eq ?_)
    rw [hwidth]
  rw [repackSingle, hvalue]
  simp only [← hwidth]
  exact writeField_ok hfield hout _

end

theorem repackBone_ok (hslot : field < wireBoneSlotCount) :
    ∃ out', repackBone high target out field = .ok out' ∧ out'.length = target.payloadLen := by
  have hfield : field < rotationFieldCount := Nat.lt_of_lt_of_le hslot (by decide)
  have hwidth : ∀ quality, rotationFieldWidth quality field = boneFieldWidth quality field :=
    fun quality => if_pos hslot
  rw [repackBone]
  split
  · next hdof =>
    refine repackQuaternion_ok hhigh hout hfield fun quality => ?_
    rw [hwidth, boneFieldWidth]
    simp only [hdof]
  · next hdof =>
    refine repackPair_ok hhigh hout hfield fun quality => ?_
    rw [hwidth, boneFieldWidth]
    simp only [hdof]
  · next hthree htwo =>
    refine repackSingle_ok hhigh hout hfield fun quality => ?_
    rw [hwidth, boneFieldWidth]
    split
    · next hdof => exact absurd hdof hthree
    · next hdof => exact absurd hdof htwo
    · rfl

theorem repackFinger_ok {finger : ℕ} (hfinger : finger < fingerChannelCount) :
    ∃ out', repackFinger high target out finger = .ok out' ∧ out'.length = target.payloadLen := by
  refine repackPair_ok hhigh hout (Nat.add_lt_add_left hfinger _) fun quality => ?_
  rw [rotationFieldWidth, if_neg (Nat.not_lt.mpr (Nat.le_add_right _ _)), fingerFieldWidth]

end

end Fields

/-- A loop whose body always succeeds and keeps a property. -/
theorem foldlM_ok {α β ε : Type} {f : β → α → Except ε β} {P : β → Prop} {l : List α}
    (h : ∀ b, P b → ∀ a ∈ l, ∃ b', f b a = .ok b' ∧ P b') {b : β} (hb : P b) :
    ∃ b', l.foldlM f b = .ok b' ∧ P b' := by
  induction l generalizing b with
  | nil => exact ⟨b, rfl, hb⟩
  | cons a l ih =>
    obtain ⟨b₁, hstep, hb₁⟩ := h b hb a (.head _)
    obtain ⟨b₂, hrest, hb₂⟩ := ih (fun b hb a ha => h b hb a (.tail _ ha)) hb₁
    refine ⟨b₂, ?_, hb₂⟩
    rw [List.foldlM_cons, hstep]
    exact hrest

/-- **A payload of full length repacks**, to a payload of the target's length. -/
theorem repack_ok {high : Bytes} {target : BitQuality}
    (hhigh : BitQuality.high.payloadLen ≤ high.length) (htarget : target ≠ .high) :
    ∃ out, repackHighToLowerInto high target (List.replicate target.payloadLen 0) = .ok out ∧
      out.length = target.payloadLen := by
  have hzeros : (List.replicate target.payloadLen (0 : Byte)).length = target.payloadLen :=
    List.length_replicate
  have hle : writePosition + target.rotationLen + tailBytes ≤ target.payloadLen := by
    cases target <;> decide
  have hstart : (high.take writePosition ++
      (List.replicate target.payloadLen (0 : Byte)).drop writePosition).length =
      target.payloadLen := by
    have hposition : writePosition ≤ BitQuality.high.payloadLen := by decide
    rw [List.length_append, List.length_take, List.length_drop, hzeros]
    omega
  obtain ⟨bones, hbones, hbonesLen⟩ :=
    foldlM_ok (P := fun out : Bytes => out.length = target.payloadLen)
    (fun out hout slot hslot => repackBone_ok hhigh hout (List.mem_range.mp hslot)) hstart
  obtain ⟨fingers, hfingers, hfingersLen⟩ :=
    foldlM_ok (P := fun out : Bytes => out.length = target.payloadLen)
    (fun out hout finger hfinger => repackFinger_ok hhigh hout (List.mem_range.mp hfinger))
      hbonesLen
  refine ⟨fingers.take (writePosition + target.rotationLen) ++
    slice high (writePosition + BitQuality.high.rotationLen) tailBytes ++
    fingers.drop (writePosition + target.rotationLen + tailBytes) ++
    (List.replicate target.payloadLen 0).drop target.payloadLen, ?_, ?_⟩
  · rw [repackHighToLowerInto, if_neg htarget, if_neg (Nat.not_lt.mpr hhigh),
      if_neg (Nat.not_lt.mpr (Nat.le_of_eq hzeros.symm))]
    show (do let bones ← (List.range wireBoneSlotCount).foldlM (repackBone high target) _; _) = _
    rw [hbones]
    show (do let fingers ← (List.range fingerChannelCount).foldlM (repackFinger high target) _; _) =
      _
    rw [hfingers]
    rfl
  · have htail : writePosition + BitQuality.high.rotationLen + tailBytes ≤ high.length :=
      Nat.le_trans (by decide) hhigh
    rw [List.length_append, List.length_append, List.length_append, List.length_take,
      slice_length _ _ _ htail, List.length_drop, List.length_drop, hzeros, hfingersLen]
    omega

end BasisRust.Avatar.Repack
