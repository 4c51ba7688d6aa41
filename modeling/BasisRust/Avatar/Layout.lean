import Mathlib.Algebra.Ring.Nat
import Mathlib.Data.List.Basic

/-!
# The bit layout of an avatar payload

An avatar payload of a given quality is a fixed number of bytes: position, bone and finger
rotations, scale, body rotation, hips, and at high quality the end effectors.  The delta codec sees
it as a list of fields, each a list of bit channels.
-/

namespace BasisRust.Avatar

/-! ### Qualities and tables -/

inductive BitQuality where
  | veryLow
  | low
  | medium
  | high
  deriving DecidableEq

namespace BitQuality

def index : BitQuality → ℕ
  | veryLow => 0
  | low => 1
  | medium => 2
  | high => 3

def payloadLen : BitQuality → ℕ
  | veryLow => 74
  | low => 83
  | medium => 97
  | high => 159

def rotationLen : BitQuality → ℕ
  | veryLow => 44
  | low => 53
  | medium => 67
  | high => 94

end BitQuality

def writePosition : ℕ := 9
def writeScale : ℕ := 2
def writeRotation : ℕ := 7
def writeHipsDelta : ℕ := 5
def writeHipsRotation : ℕ := 7
def tailBytes : ℕ := writeScale + writeRotation + writeHipsDelta + writeHipsRotation
def wireBoneSlotCount : ℕ := 21
def fingerChannelCount : ℕ := 10
def rotationFieldCount : ℕ := wireBoneSlotCount + fingerChannelCount

def boneDof : List ℕ := [3, 3, 3, 3, 3, 3, 3, 3, 3, 2, 2, 2, 2, 2, 2, 2, 2, 2, 2, 1, 1]

def bpcHigh : List ℕ :=
  [12, 12, 12, 12, 12, 12, 12, 12, 12, 12, 12, 12, 12, 12, 12, 12, 12, 12, 12, 5, 5]
def bpcMedium : List ℕ := [8, 8, 8, 8, 8, 8, 8, 8, 8, 8, 8, 8, 8, 8, 8, 8, 8, 6, 6, 3, 3]
def bpcLow : List ℕ := [6, 6, 6, 6, 6, 6, 6, 6, 6, 6, 6, 6, 6, 6, 6, 6, 6, 5, 5, 3, 3]
def bpcVeryLow : List ℕ := [5, 5, 5, 5, 5, 5, 5, 5, 5, 5, 5, 5, 5, 5, 5, 5, 5, 4, 4, 2, 2]

/-- Bits per quaternion component, by bone slot. -/
def bpcTable : BitQuality → List ℕ
  | .veryLow => bpcVeryLow
  | .low => bpcLow
  | .medium => bpcMedium
  | .high => bpcHigh

def hingeBits : List ℕ := [6, 7, 9, 13]
def twistBits : List ℕ := [5, 6, 8, 12]
def singleBits : List ℕ := [4, 4, 5, 7]
def curlBits : List ℕ := [5, 6, 7, 8]
def splayBits : List ℕ := [3, 4, 5, 6]

def boneFieldWidth (quality : BitQuality) (slot : ℕ) : ℕ :=
  match boneDof.getD slot 0 with
  | 3 => 2 + 3 * (bpcTable quality).getD slot 0
  | 2 => hingeBits.getD quality.index 0 + twistBits.getD quality.index 0
  | _ => singleBits.getD quality.index 0

def fingerFieldWidth (quality : BitQuality) : ℕ :=
  curlBits.getD quality.index 0 + splayBits.getD quality.index 0

/-- The width of a rotation field: the bone slots, then the fingers. -/
def rotationFieldWidth (quality : BitQuality) (field : ℕ) : ℕ :=
  if field < wireBoneSlotCount then boneFieldWidth quality field else fingerFieldWidth quality

/-- The bit offset of a rotation field inside the rotation block. -/
def rotationFieldOffset (quality : BitQuality) (field : ℕ) : ℕ :=
  ((List.range field).map (rotationFieldWidth quality)).sum

/-! ### Channels -/

inductive ChannelKind where
  | delta
  | raw
  deriving DecidableEq

structure AvatarChannel where
  bitOffset : ℕ
  width : ℕ
  kind : ChannelKind
  deriving DecidableEq

def fieldCount : ℕ := 1 + rotationFieldCount + 5
def dirtyMaskBytes : ℕ := (fieldCount + 7) / 8

def fieldScale : ℕ := 1 + rotationFieldCount
def fieldBodyRotation : ℕ := fieldScale + 1
def fieldHipsDelta : ℕ := fieldScale + 2
def fieldHipsRotation : ℕ := fieldScale + 3
def fieldEndEffector : ℕ := fieldScale + 4

/-- `count` channels of one width and kind, one after the other. -/
def channelRun (bitOffset width count : ℕ) (kind : ChannelKind) : List AvatarChannel :=
  (List.range count).map fun i => ⟨bitOffset + i * width, width, kind⟩

def byteAlignedQuaternion (bitOffset : ℕ) : List AvatarChannel :=
  ⟨bitOffset, 8, .raw⟩ :: channelRun (bitOffset + 8) 16 3 .delta

/-- The channels of a bone slot. -/
def boneChannels (quality : BitQuality) (slot : ℕ) : List AvatarChannel :=
  let bit := writePosition * 8 + rotationFieldOffset quality slot
  match boneDof.getD slot 0 with
  | 3 => ⟨bit, 2, .raw⟩ :: channelRun (bit + 2) ((bpcTable quality).getD slot 0) 3 .delta
  | 2 =>
    let hinge := hingeBits.getD quality.index 0
    [⟨bit, hinge, .delta⟩, ⟨bit + hinge, twistBits.getD quality.index 0, .delta⟩]
  | _ => [⟨bit, singleBits.getD quality.index 0, .delta⟩]

/-- The channels of a finger; the last one also has the padding of the rotation block. -/
def fingerChannels (quality : BitQuality) (finger : ℕ) : List AvatarChannel :=
  let bit := writePosition * 8 + rotationFieldOffset quality (wireBoneSlotCount + finger)
  let curl := curlBits.getD quality.index 0
  let rotationBits :=
    rotationFieldOffset quality (rotationFieldCount - 1) + fingerFieldWidth quality
  let rotationStorageBits := quality.rotationLen * 8
  [⟨bit, curl, .delta⟩, ⟨bit + curl, splayBits.getD quality.index 0, .delta⟩] ++
    if finger = fingerChannelCount - 1 ∧ rotationBits < rotationStorageBits then
      [⟨writePosition * 8 + rotationBits, rotationStorageBits - rotationBits, .raw⟩]
    else []

/-- Position and rotation of one end effector. -/
def effectorChannels (bit : ℕ) : List AvatarChannel :=
  channelRun bit 12 3 .delta ++ ⟨bit + 36, 2, .raw⟩ :: channelRun (bit + 38) 10 3 .delta

/-- The channels of a field. -/
def fieldChannels (quality : BitQuality) (field : ℕ) : List AvatarChannel :=
  let tailStart := writePosition + quality.rotationLen
  let bodyRotation := tailStart + writeScale
  let hipsDelta := bodyRotation + writeRotation
  let hipsRotation := hipsDelta + writeHipsDelta
  if field = 0 then channelRun 0 24 3 .delta
  else if field < 1 + wireBoneSlotCount then boneChannels quality (field - 1)
  else if field < 1 + rotationFieldCount then fingerChannels quality (field - 1 - wireBoneSlotCount)
  else if field = fieldScale then [⟨tailStart * 8, writeScale * 8, .raw⟩]
  else if field = fieldBodyRotation then byteAlignedQuaternion (bodyRotation * 8)
  else if field = fieldHipsDelta then
    channelRun (hipsDelta * 8) 13 3 .delta ++
      if 3 * 13 < writeHipsDelta * 8 then
        [⟨hipsDelta * 8 + 3 * 13, writeHipsDelta * 8 - 3 * 13, .raw⟩]
      else []
  else if field = fieldHipsRotation then byteAlignedQuaternion (hipsRotation * 8)
  else if field = fieldEndEffector ∧ quality = .high then
    let effectorBase := (tailStart + tailBytes) * 8
    ⟨effectorBase, 8, .raw⟩ ::
      (List.range 4).flatMap fun effector => effectorChannels (effectorBase + 8 + effector * 68)
  else []

/-- The fields of a payload. -/
def buildLayout (quality : BitQuality) : List (List AvatarChannel) :=
  (List.range fieldCount).map (fieldChannels quality)

/-! ### The channels tile the payload -/

/-- The channels follow each other from `start` to `stop`. -/
def Contiguous : ℕ → List AvatarChannel → ℕ → Prop
  | start, [], stop => start = stop
  | start, channel :: rest, stop =>
    channel.bitOffset = start ∧ Contiguous (start + channel.width) rest stop

instance Contiguous.decidable (start : ℕ) (channels : List AvatarChannel) (stop : ℕ) :
    Decidable (Contiguous start channels stop) :=
  match channels with
  | [] => inferInstanceAs (Decidable (start = stop))
  | channel :: rest =>
    have := Contiguous.decidable (start + channel.width) rest stop
    inferInstanceAs (Decidable (channel.bitOffset = start ∧ _))

theorem layout_contiguous (quality : BitQuality) :
    Contiguous 0 (buildLayout quality).flatten (8 * quality.payloadLen) := by
  cases quality <;> decide +kernel

theorem layout_widths (quality : BitQuality) :
    ∀ channel ∈ (buildLayout quality).flatten, 0 < channel.width ∧ channel.width ≤ 24 := by
  cases quality <;> decide +kernel

section

variable {start stop : ℕ} {channels : List AvatarChannel} (h : Contiguous start channels stop)
include h

/-- A bit of a contiguous range lies in one of its channels. -/
theorem Contiguous.exists_channel {k : ℕ} (hk : start ≤ k) (hk' : k < stop) :
    ∃ channel ∈ channels, channel.bitOffset ≤ k ∧ k < channel.bitOffset + channel.width := by
  induction channels generalizing start with
  | nil =>
    have : start = stop := h
    omega
  | cons channel rest ih =>
    obtain ⟨hoff, hrest⟩ := h
    by_cases hin : k < start + channel.width
    · exact ⟨channel, .head _, by omega, by omega⟩
    · obtain ⟨c, hc, hb⟩ := ih hrest (by omega)
      exact ⟨c, .tail _ hc, hb⟩

/-- Contiguous channels stay inside their range. -/
theorem Contiguous.channel_le :
    start ≤ stop ∧ ∀ channel ∈ channels, channel.bitOffset + channel.width ≤ stop := by
  induction channels generalizing start with
  | nil => exact ⟨Nat.le_of_eq h, by simp⟩
  | cons channel rest ih =>
    obtain ⟨hoff, hrest⟩ := h
    obtain ⟨hle, hall⟩ := ih hrest
    refine ⟨by omega, fun c hc => ?_⟩
    rcases List.mem_cons.mp hc with rfl | hc
    · omega
    · exact hall c hc

/-- The widths of contiguous channels add up to the length of the range. -/
theorem Contiguous.sum_width : start + (channels.map AvatarChannel.width).sum = stop := by
  induction channels generalizing start with
  | nil => simpa [Contiguous] using h
  | cons channel rest ih =>
    have := ih h.2
    simp only [List.map_cons, List.sum_cons]
    omega

end

end BasisRust.Avatar
