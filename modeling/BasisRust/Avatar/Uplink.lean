import BasisRust.Avatar.Frames

/-!
# What the server stores of a full pose

`upsertFromChannelPayload` takes a full pose from its channel: the quality and whether additional
data follows come from the number of the channel, and the additional data is validated before the
pose is stored.
-/

namespace BasisRust.Avatar

open Library

/-! ### Channels -/

def qualityFromChannel (channel : Byte) : Byte :=
  if playerAvatarVeryLowLarge ≤ channel then (channel - playerAvatarVeryLowLarge) / 2
  else (channel - playerAvatarVeryLow) / 2

def channelHasAdditionalData (channel : Byte) : Bool :=
  if playerAvatarVeryLowLarge ≤ channel then (channel - playerAvatarVeryLowLarge) &&& 1 = 1
  else (channel - playerAvatarVeryLow) &&& 1 = 1

def BitQuality.ofCode (code : Byte) : BitQuality :=
  if code = 0 then .veryLow
  else if code = 1 then .low
  else if code = 2 then .medium
  else .high

/-! ### What the server stores -/

inductive AvatarInputError where
  | payloadTooSmall (quality : BitQuality) (got need : ℕ)
  | missingAdditionalSection
  | trailingAfterEmptySection
  | missingLinkedAvatarIndex
  | missingAdditionalSize
  | missingAdditionalMessageIndex
  | truncatedAdditionalPayload
  | trailingAfterSection
  | missingSequenceHeader
  | deltaBodyExceedsPayload
  | delta (error : DeltaError)
  deriving DecidableEq

/-- The items of the additional data; the result is the offset after the last one. -/
def additionalItems (bytes : Bytes) : ℕ → ℕ → Except AvatarInputError ℕ
  | 0, offset => .ok offset
  | count + 1, offset =>
    match bytes[offset]? with
    | none => .error .missingAdditionalSize
    | some size =>
      if size = 0 then additionalItems bytes count (offset + 1)
      else if bytes.length ≤ offset + 1 then .error .missingAdditionalMessageIndex
      else if bytes.length < offset + 2 + size.toNat then .error .truncatedAdditionalPayload
      else additionalItems bytes count (offset + 2 + size.toNat)

def validateAdditionalAvatarData (bytes : Bytes) : Except AvatarInputError Unit :=
  match bytes with
  | [] => .error .missingAdditionalSection
  | count :: rest =>
    if count = 0 then if rest.isEmpty then .ok () else .error .trailingAfterEmptySection
    else if rest.isEmpty then .error .missingLinkedAvatarIndex
    else
      match additionalItems bytes count.toNat 2 with
      | .error e => .error e
      | .ok offset => if offset = bytes.length then .ok () else .error .trailingAfterSection

structure PendingAvatarUpdate where
  incarnation : ℕ
  channel : Byte
  payload : Bytes
  deriving DecidableEq

/-- `live` is the incarnation under which the player is registered. -/
def upsertFromChannelPayload (live : Option ℕ) (channel : Byte) (payload : Bytes) :
    Except AvatarInputError (Option PendingAvatarUpdate) :=
  match live with
  | none => .ok none
  | some incarnation =>
    if payload.isEmpty then .ok none
    else
      let quality := BitQuality.ofCode (qualityFromChannel channel)
      let fixedEnd := 1 + quality.payloadLen
      if payload.length < fixedEnd then .error (.payloadTooSmall quality payload.length fixedEnd)
      else if channelHasAdditionalData channel then
        match validateAdditionalAvatarData (payload.drop fixedEnd) with
        | .error e => .error e
        | .ok () => .ok (some ⟨incarnation, channel, payload⟩)
      else .ok (some ⟨incarnation, channel, payload.take fixedEnd⟩)

end BasisRust.Avatar
