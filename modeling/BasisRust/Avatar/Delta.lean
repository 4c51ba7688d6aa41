import BasisRust.Avatar.Layout
import BasisRust.Library.BitStream

/-!
# The avatar delta codec

A delta is a dirty mask with one bit per field, followed by a bit stream: for every dirty field a
mode bit, and for every channel of the field either its raw bits or the signed difference to the
baseline as an Exp-Golomb code.  `buildDelta` writes it, `applyDelta` reads it.

Rust would stop with a panic where an index leaves a buffer; here this is the error `outOfBounds`,
so that a result `ok` says that every access was inside its buffer.  Sixty-four bit windows are
`BitVec 64`, channel values `BitVec 32`, as in the source.
-/

namespace BasisRust.Avatar

open Library

inductive DeltaError where
  | baselineTooSmall
  | currentTooSmall
  | missingDirtyMask
  | truncatedBitstream
  | truncatedCode
  | invalidPrefix
  | bodyOverrun
  | outOfBounds
  deriving DecidableEq

/-! ### Channels -/

/-- The value of a channel in a window that starts at its first byte. -/
def channelOfWindow (bytes : Bytes) (shift width : ℕ) : BitVec 32 :=
  ((gather bytes 0 0#64 >>> shift) &&& lowMask width).setWidth 32

/-- Read a channel through an eight-byte window, or near the end of the payload through the bytes
the channel spans. -/
def readChannel (payload : Bytes) (channel : AvatarChannel) : Except DeltaError (BitVec 32) :=
  let firstByte := channel.bitOffset / 8
  let bitShift := channel.bitOffset % 8
  match getRange payload firstByte 8 with
  | some bytes => .ok (channelOfWindow bytes bitShift channel.width)
  | none =>
    match getRange payload firstByte ((bitShift + channel.width + 7) / 8) with
    | some bytes => .ok (channelOfWindow bytes bitShift channel.width)
    | none => .error .outOfBounds

/-- The loop that replaces a channel bit by bit. -/
def replaceChannelBits (payload : Bytes) (bitOffset : ℕ) (value : BitVec 32) :
    ℕ → ℕ → Except DeltaError Bytes
  | _, 0 => .ok payload
  | i, count + 1 =>
    let bit := bitOffset + i
    if bit / 8 < payload.length then
      replaceChannelBits
        (if value.getLsbD i then setBitAt payload bit else clearBitAt payload bit) bitOffset value
        (i + 1) count
    else .error .outOfBounds

def replaceChannel (payload : Bytes) (channel : AvatarChannel) (value : BitVec 32) :
    Except DeltaError Bytes :=
  if channel.width = 0 then .ok payload
  else
    let firstByte := channel.bitOffset / 8
    let bitShift := channel.bitOffset % 8
    let spanBits := bitShift + channel.width
    let byteCount := (spanBits + 7) / 8
    match (if spanBits ≤ 64 then getRange payload firstByte byteCount else none) with
    | some bytes =>
      let channelMask := lowMask channel.width
      let shiftedMask := channelMask <<< bitShift
      let window := (gather bytes 0 0#64 &&& ~~~shiftedMask) |||
        ((value.setWidth 64 &&& channelMask) <<< bitShift)
      .ok (overwrite payload firstByte window byteCount)
    | none => replaceChannelBits payload channel.bitOffset value 0 channel.width

/-- Sign extension of the low `width` bits. -/
def wrapSigned (diff : BitVec 32) (width : ℕ) : BitVec 32 :=
  if 32 ≤ width then diff
  else (diff <<< (32 - width)).sshiftRight (32 - width)

/-- The zigzag code of a signed number. -/
def zigzag (value : BitVec 32) : BitVec 32 := (value <<< 1) ^^^ value.sshiftRight 31

/-- `32 - leading_zeros`. -/
def bitLength (m : BitVec 32) : ℕ := if m.toNat = 0 then 0 else m.toNat.log2 + 1

def signedEgBits (value : BitVec 32) : ℕ := 2 * bitLength (zigzag value + 1#32) - 1

/-! ### The bit writer -/

structure ResidualBitWriter where
  bytes : Bytes
  bitPosition : ℕ

namespace ResidualBitWriter

/-- One byte of `writeBits`: `bits` bits of the value at `shift`. -/
def mergeByte (byte : Byte) (value : BitVec 64) (shift bits : ℕ) : Byte :=
  let mask : Byte := ((1#16 <<< bits) - 1#16).setWidth 8
  (byte &&& ~~~(mask <<< shift)) ||| ((value.setWidth 8 &&& mask) <<< shift)

/-- The loop of `writeBits`; every round writes one bit at least. -/
def writeLoop : ℕ → Bytes → BitVec 64 → ℕ → ℕ → ℕ → Except DeltaError Bytes
  | 0, bytes, _, _, _, _ => .ok bytes
  | fuel + 1, bytes, value, byteIndex, shift, remaining =>
    if remaining = 0 then .ok bytes
    else
      let bits := min remaining (8 - shift)
      match bytes[byteIndex]? with
      | none => .error .outOfBounds
      | some byte =>
        writeLoop fuel (bytes.set byteIndex (mergeByte byte value shift bits)) (value >>> bits)
          (byteIndex + 1) 0 (remaining - bits)

def writeBits (writer : ResidualBitWriter) (value : BitVec 64) (count : ℕ) :
    Except DeltaError ResidualBitWriter := do
  let bytes ← writeLoop count writer.bytes value (writer.bitPosition / 8) (writer.bitPosition % 8)
    count
  return ⟨bytes, writer.bitPosition + count⟩

def writeBit (writer : ResidualBitWriter) (value : Bool) : Except DeltaError ResidualBitWriter :=
  writer.writeBits (if value then 1 else 0) 1

/-- Prefix zeros followed by `m` with its most significant bit first, packed for a writer that
starts with the least significant bit. -/
def egCode (m : BitVec 32) : BitVec 64 :=
  (m.reverse >>> (32 - bitLength m)).setWidth 64 <<< (bitLength m - 1)

def writeSignedEg (writer : ResidualBitWriter) (value : BitVec 32) :
    Except DeltaError ResidualBitWriter :=
  if value = 0#32 then writer.writeBit true
  else
    let m := zigzag value + 1#32
    writer.writeBits (egCode m) (2 * bitLength m - 1)

/-- The zeros that fill the last byte. -/
def writePad (writer : ResidualBitWriter) (pad : ℕ) : Except DeltaError ResidualBitWriter :=
  if 0 < pad then writer.writeBits 0#64 pad else .ok writer

end ResidualBitWriter

/-! ### The bit reader -/

structure ResidualBitReader where
  bytes : Bytes
  bitPosition : ℕ
  endBit : ℕ

namespace ResidualBitReader

def readBit (reader : ResidualBitReader) : Except DeltaError (Bool × ResidualBitReader) :=
  if reader.endBit < reader.bitPosition + 1 then .error .truncatedBitstream
  else
    match reader.bytes[reader.bitPosition / 8]? with
    | none => .error .truncatedBitstream
    | some byte =>
      .ok (byte.getLsbD (reader.bitPosition % 8),
        { reader with bitPosition := reader.bitPosition + 1 })

/-- The bits of a wide value, one by one. -/
def wideBits (bytes : Bytes) (pos : ℕ) : ℕ → ℕ → BitVec 64 → Except DeltaError (BitVec 64)
  | _, 0, value => .ok value
  | i, count + 1, value =>
    match bytes[(pos + i) / 8]? with
    | none => .error .outOfBounds
    | some byte =>
      wideBits bytes pos (i + 1) count
        (if byte.getLsbD ((pos + i) % 8) then value ||| (1#64 <<< i) else value)

def readBits (reader : ResidualBitReader) (count : ℕ) :
    Except DeltaError (BitVec 64 × ResidualBitReader) :=
  if reader.endBit < reader.bitPosition + count then .error .truncatedBitstream
  else if count = 0 then .ok (0#64, reader)
  else
    let bitShift := reader.bitPosition % 8
    let spanBits := bitShift + count
    let next : ResidualBitReader := { reader with bitPosition := reader.bitPosition + count }
    if spanBits ≤ 64 then
      match getRange reader.bytes (reader.bitPosition / 8) ((spanBits + 7) / 8) with
      | none => .error .truncatedBitstream
      | some bytes => .ok ((gather bytes 0 0#64 >>> bitShift) &&& lowMask count, next)
    else
      match wideBits reader.bytes reader.bitPosition 0 count 0#64 with
      | .error e => .error e
      | .ok value => .ok (value, next)

/-- The prefix of an Exp-Golomb code: the zeros before the first one.  More than 32 are refused, so
34 rounds are enough. -/
def readZeros : ℕ → ResidualBitReader → ℕ → Except DeltaError (ℕ × ResidualBitReader)
  | 0, _, _ => .error .invalidPrefix
  | fuel + 1, reader, zeros =>
    if reader.endBit ≤ reader.bitPosition then .error .truncatedCode
    else
      match reader.readBit with
      | .error e => .error e
      | .ok (true, next) => .ok (zeros, next)
      | .ok (false, next) =>
        if 32 < zeros + 1 then .error .invalidPrefix else readZeros fuel next (zeros + 1)

/-- The bits after the prefix, most significant first. -/
def readMantissa : ℕ → ResidualBitReader → BitVec 32 →
    Except DeltaError (BitVec 32 × ResidualBitReader)
  | 0, reader, m => .ok (m, reader)
  | count + 1, reader, m =>
    match reader.readBit with
    | .error e => .error e
    | .ok (bit, next) => readMantissa count next ((m <<< 1) ||| (if bit then 1#32 else 0#32))

def readSignedEg (reader : ResidualBitReader) : Except DeltaError (BitVec 32 × ResidualBitReader) :=
  match readZeros 34 reader 0 with
  | .error e => .error e
  | .ok (zeros, next) =>
    match readMantissa zeros next 1#32 with
    | .error e => .error e
    | .ok (m, next) =>
      let zz := m - 1#32
      .ok ((zz >>> 1) ^^^ (-(zz &&& 1#32)), next)

end ResidualBitReader

/-! ### The codec -/

/-- The dirty bit of a field. -/
def isDirty (mask : Bytes) (field : ℕ) : Bool := bitAt mask field

/-- Whether one of the channels differs from the baseline. -/
def fieldDiffers (baseline current : Bytes) : List AvatarChannel → Except DeltaError Bool
  | [] => .ok false
  | channel :: rest => do
    let a ← readChannel current channel
    let b ← readChannel baseline channel
    if a ≠ b then return true else fieldDiffers baseline current rest

/-- The dirty mask: one pass over the fields. -/
def buildMask (baseline current : Bytes) : ℕ → List (List AvatarChannel) → Bytes →
    Except DeltaError Bytes
  | _, [], mask => .ok mask
  | field, channels :: rest, mask => do
    let dirty ← fieldDiffers baseline current channels
    buildMask baseline current (field + 1) rest (if dirty then setBitAt mask field else mask)

/-- The cost of a field in residual mode and in raw mode. -/
def fieldCost (baseline current : Bytes) : List AvatarChannel → ℕ → ℕ → Except DeltaError (ℕ × ℕ)
  | [], residualBits, rawBits => .ok (residualBits, rawBits)
  | channel :: rest, residualBits, rawBits =>
    if channel.kind = .raw then
      fieldCost baseline current rest (residualBits + channel.width) (rawBits + channel.width)
    else do
      let a ← readChannel current channel
      let b ← readChannel baseline channel
      fieldCost baseline current rest
        (residualBits + signedEgBits (wrapSigned (a - b) channel.width)) (rawBits + channel.width)

def writeChannels (baseline current : Bytes) (rawMode : Bool) :
    List AvatarChannel → ResidualBitWriter → Except DeltaError ResidualBitWriter
  | [], writer => .ok writer
  | channel :: rest, writer => do
    let a ← readChannel current channel
    if rawMode ∨ channel.kind = .raw then
      let next ← writer.writeBits (a.setWidth 64) channel.width
      writeChannels baseline current rawMode rest next
    else
      let b ← readChannel baseline channel
      let next ← writer.writeSignedEg (wrapSigned (a - b) channel.width)
      writeChannels baseline current rawMode rest next

/-- One dirty field: the mode bit, then the channels. -/
def writeField (baseline current : Bytes) (channels : List AvatarChannel)
    (writer : ResidualBitWriter) : Except DeltaError ResidualBitWriter := do
  let (residualBits, rawBits) ← fieldCost baseline current channels 0 0
  let rawMode := decide (rawBits < residualBits)
  let next ← writer.writeBit rawMode
  writeChannels baseline current rawMode channels next

def writeFields (baseline current mask : Bytes) : ℕ → List (List AvatarChannel) →
    ResidualBitWriter → Except DeltaError ResidualBitWriter
  | _, [], writer => .ok writer
  | field, channels :: rest, writer =>
    if isDirty mask field then do
      let next ← writeField baseline current channels writer
      writeFields baseline current mask (field + 1) rest next
    else writeFields baseline current mask (field + 1) rest writer

/-- The dirty-mask and residual delta of `current` against a keyframe baseline. -/
def buildDelta (baseline current : Bytes) (quality : BitQuality) : Except DeltaError Bytes :=
  let payloadBytes := quality.payloadLen
  if baseline.length < payloadBytes then .error .baselineTooSmall
  else if current.length < payloadBytes then .error .currentTooSmall
  else if baseline.take payloadBytes = current.take payloadBytes then
    .ok (List.replicate dirtyMaskBytes 0#8)
  else do
    let mask ← buildMask baseline current 0 (buildLayout quality)
      (List.replicate dirtyMaskBytes 0#8)
    let bodyStartBit := dirtyMaskBytes * 8
    let writer ← writeFields baseline current mask 0 (buildLayout quality)
      ⟨mask ++ List.replicate (payloadBytes + 8) 0#8, bodyStartBit⟩
    let bodyBits := writer.bitPosition - bodyStartBit
    let pad := (8 - bodyBits % 8) % 8
    let padded ← writer.writePad pad
    return padded.bytes.take (dirtyMaskBytes + (bodyBits + 7) / 8)

def readChannels (baseline : Bytes) (rawMode : Bool) :
    List AvatarChannel → ResidualBitReader → Bytes → Except DeltaError (Bytes × ResidualBitReader)
  | [], reader, output => .ok (output, reader)
  | channel :: rest, reader, output =>
    if rawMode ∨ channel.kind = .raw then do
      let (value, next) ← reader.readBits channel.width
      let output ← replaceChannel output channel (value.setWidth 32)
      readChannels baseline rawMode rest next output
    else do
      let (diff, next) ← reader.readSignedEg
      let base ← readChannel baseline channel
      let output ← replaceChannel output channel
        ((base + diff) &&& (lowMask channel.width).setWidth 32)
      readChannels baseline rawMode rest next output

def readFields (baseline mask : Bytes) : ℕ → List (List AvatarChannel) →
    ResidualBitReader → Bytes → Except DeltaError (Bytes × ResidualBitReader)
  | _, [], reader, output => .ok (output, reader)
  | field, channels :: rest, reader, output =>
    if isDirty mask field then do
      let (rawMode, next) ← reader.readBit
      let (output, next) ← readChannels baseline rawMode channels next output
      readFields baseline mask (field + 1) rest next output
    else readFields baseline mask (field + 1) rest reader output

/-- Apply a delta to a keyframe baseline: the payload and the number of bytes the delta took. -/
def applyDelta (baseline deltaAndTrailing : Bytes) (quality : BitQuality) :
    Except DeltaError (Bytes × ℕ) :=
  let payloadBytes := quality.payloadLen
  if baseline.length < payloadBytes then .error .baselineTooSmall
  else if deltaAndTrailing.length < dirtyMaskBytes then .error .missingDirtyMask
  else do
    let mask := deltaAndTrailing.take dirtyMaskBytes
    let bodyStartBit := dirtyMaskBytes * 8
    let (output, reader) ← readFields baseline mask 0 (buildLayout quality)
      ⟨deltaAndTrailing, bodyStartBit, deltaAndTrailing.length * 8⟩ (baseline.take payloadBytes)
    let consumedBits := reader.bitPosition - bodyStartBit
    let bodyLen := dirtyMaskBytes + (consumedBits + 7) / 8
    if deltaAndTrailing.length < bodyLen then .error .bodyOverrun
    else return (output, bodyLen)

end BasisRust.Avatar
