import BasisRust.Library.Grouping
import BasisRust.Protocol.Io

/-!
# Avatar bundles

A bundle carries the avatar packets of one receiver and tick.  The packets are grouped by channel,
each group has at most 255 of them and starts with its channel, its count and the lengths of its
packets; the bodies follow one by one, or byte column by byte column for the delta channel.  The
whole is compressed.  `tryEncodeAvatarBundleSlicesWithCompression` writes a bundle,
`decodeAvatarBundle` reads it, and `BundleCacheLookup.new` computes the length before compression
from the packets alone.

The compressors are a parameter (`BundleCodec`).  The identities of the payload buffers in a cache
key are left out.
-/

namespace BasisRust.Avatar

open Library Protocol

structure AvatarBundleItem where
  originalChannel : Byte
  payload : Bytes
  deriving DecidableEq

structure AvatarBundleSlice where
  originalChannel : Byte
  payload : Bytes
  intervalPatch : Option (ℕ × Byte)
  deriving DecidableEq

structure EncodedAvatarBundle where
  bytes : Bytes
  rawLen : ℕ
  compressedLen : ℕ
  deriving DecidableEq

inductive AvatarBundleCompression where
  | lz4
  | zstdDictionary (level : ℤ)
  deriving DecidableEq

def bundleCodecLz4 : Byte := 0
def bundleCodecZstdDictionary : Byte := 1
def bundleCodecMask : Byte := 0x07
def bundleDictionaryShift : ℕ := 3
def dictionaryGeneration : Byte := 1
def deltaChannel : Byte := 30

inductive BundleError where
  | itemPayloadTooLarge
  | rawPayloadTooLarge
  | headerTooShort
  | lz4DictionaryGeneration
  | unsupportedDictionaryGeneration (generation : Byte)
  | unsupportedCodec (codec : Byte)
  | zstdRawLengthMismatch
  | rawLengthMismatch
  | zeroEntries
  | zeroLength
  | bodiesExceedGroup
  | read (error : NetReadError)
  | codec (error : String)
  deriving DecidableEq

/-- The compressors: LZ4, and zstd with the dictionary loaded.  A decompressor gets the length it
should produce. -/
structure BundleCodec where
  compress : Bytes → Bytes
  decompress : Bytes → ℕ → Except String Bytes
  zstdCompress : Bytes → ℤ → Except String Bytes
  zstdDecompress : Bytes → ℕ → Except String Bytes

/-! ### Encoding -/

/-- The payload with its interval byte patched. -/
def writeBundlePayload (item : AvatarBundleSlice) : Bytes :=
  match item.intervalPatch with
  | some (offset, value) =>
    if offset < item.payload.length then
      item.payload.take offset ++ [value] ++ item.payload.drop (offset + 1)
    else item.payload
  | none => item.payload

/-- The byte of a delta body in a column, patched. -/
def deltaByte (item : AvatarBundleSlice) (offset : ℕ) : Option Byte :=
  if offset < item.payload.length then
    some (((item.intervalPatch.filter fun patch => patch.1 = offset).map Prod.snd).getD
      (item.payload.getD offset 0))
  else none

def encodeChunk (channel : Byte) (chunk : List AvatarBundleSlice) : Except BundleError Bytes :=
  if chunk.any fun item => 65535 < item.payload.length then .error .itemPayloadTooLarge
  else
    let header := [channel, BitVec.ofNat 8 chunk.length] ++
      chunk.flatMap fun item => leBytes 2 item.payload.length
    let body :=
      if channel ≠ deltaChannel then chunk.flatMap writeBundlePayload
      else
        let maxLen := (chunk.map fun item => item.payload.length).max?.getD 0
        (List.range maxLen).flatMap fun offset => chunk.filterMap fun item => deltaByte item offset
    .ok (header ++ body)

/-- The channels of the items, in order and without repetitions. -/
def bundleChannels (items : List AvatarBundleSlice) : List Byte :=
  dedupRuns ((items.map AvatarBundleSlice.originalChannel).insertionSort (· ≤ ·))

/-- A bundle before compression. -/
def rawBundle (items : List AvatarBundleSlice) : Except BundleError Bytes := do
  let groups ← (bundleChannels items).mapM fun channel => do
    let matching := items.filter fun item => item.originalChannel = channel
    let bytes ← (chunks 255 matching).mapM (encodeChunk channel)
    return bytes.flatten
  return groups.flatten

def bundleFlags : AvatarBundleCompression → Byte
  | .lz4 => bundleCodecLz4
  | .zstdDictionary _ =>
    bundleCodecZstdDictionary ||| (dictionaryGeneration <<< bundleDictionaryShift)

variable (codec : BundleCodec)

def compressBundle (raw : Bytes) : AvatarBundleCompression → Except BundleError Bytes
  | .lz4 => .ok (codec.compress raw)
  | .zstdDictionary level => (codec.zstdCompress raw level).mapError .codec

def tryEncodeAvatarBundleSlicesWithCompression (items : List AvatarBundleSlice)
    (compression : AvatarBundleCompression) : Except BundleError EncodedAvatarBundle := do
  let raw ← rawBundle items
  if 65535 < raw.length then throw .rawPayloadTooLarge
  let compressed ← compressBundle codec raw compression
  return ⟨[bundleFlags compression] ++ leBytes 2 raw.length ++ compressed, raw.length,
    compressed.length⟩

/-! ### Decoding -/

def liftRead {α : Type} (x : Except NetReadError α) : Except BundleError α := x.mapError .read

def readLengths : ℕ → NetReader → Except BundleError (List ℕ × NetReader)
  | 0, r => .ok ([], r)
  | count + 1, r => do
    let (len, r) ← liftRead r.getU16
    if len = 0 then throw .zeroLength
    let (lengths, r) ← readLengths count r
    return (len :: lengths, r)

def readBodies (channel : Byte) :
    List ℕ → NetReader → Except BundleError (List AvatarBundleItem × NetReader)
  | [], r => .ok ([], r)
  | len :: lengths, r => do
    let (payload, r) ← liftRead (r.getBytes len)
    let (items, r) ← readBodies channel lengths r
    return (⟨channel, payload⟩ :: items, r)

/-- One byte for each body that reaches the column. -/
def readColumn (column : ℕ) :
    List ℕ → List Bytes → NetReader → Except BundleError (List Bytes × NetReader)
  | len :: lengths, body :: bodies, r =>
    if column < len then do
      let (byte, r) ← liftRead r.getU8
      let (bodies, r) ← readColumn column lengths bodies r
      return ((body ++ [byte]) :: bodies, r)
    else do
      let (bodies, r) ← readColumn column lengths bodies r
      return (body :: bodies, r)
  | _, _, r => .ok ([], r)

def readColumns (lengths : List ℕ) :
    ℕ → ℕ → List Bytes → NetReader → Except BundleError (List Bytes × NetReader)
  | 0, _, bodies, r => .ok (bodies, r)
  | count + 1, column, bodies, r => do
    let (bodies, r) ← readColumn column lengths bodies r
    readColumns lengths count (column + 1) bodies r

def readGroup (r : NetReader) : Except BundleError (List AvatarBundleItem × NetReader) := do
  let (channel, r) ← liftRead r.getU8
  let (count, r) ← liftRead r.getU8
  if count.toNat = 0 then throw .zeroEntries
  let (lengths, r) ← readLengths count.toNat r
  if r.remaining < lengths.sum then throw .bodiesExceedGroup
  if channel ≠ deltaChannel then readBodies channel lengths r
  else do
    let (bodies, r) ← readColumns lengths (lengths.max?.getD 0) 0 (lengths.map fun _ => []) r
    return (bodies.map fun payload => ⟨channel, payload⟩, r)

/-- The loop over the groups; a group takes at least two bytes, so the length of the bundle is
enough `fuel`. -/
def readGroups : ℕ → NetReader → Except BundleError (List AvatarBundleItem)
  | 0, _ => .ok []
  | fuel + 1, r =>
    if r.remaining = 0 then .ok []
    else do
      let (group, r) ← readGroup r
      let items ← readGroups fuel r
      return group ++ items

def decompressAvatarBundleZstd (compressed : Bytes) (rawLen : ℕ) : Except BundleError Bytes := do
  let raw ← (codec.zstdDecompress compressed rawLen).mapError .codec
  if raw.length ≠ rawLen then throw .zstdRawLengthMismatch
  return raw

def decompressBundle (flags : Byte) (compressed : Bytes) (rawLen : ℕ) : Except BundleError Bytes :=
  let codecId := flags &&& bundleCodecMask
  let generation := flags >>> bundleDictionaryShift
  if codecId = bundleCodecLz4 then
    if generation ≠ 0 then .error .lz4DictionaryGeneration
    else (codec.decompress compressed rawLen).mapError .codec
  else if codecId = bundleCodecZstdDictionary then
    if generation ≠ dictionaryGeneration then .error (.unsupportedDictionaryGeneration generation)
    else decompressAvatarBundleZstd codec compressed rawLen
  else .error (.unsupportedCodec codecId)

def decodeAvatarBundle (bytes : Bytes) : Except BundleError (List AvatarBundleItem) :=
  match bytes with
  | flags :: b₀ :: b₁ :: compressed => do
    let rawLen := leNat [b₀, b₁]
    let raw ← decompressBundle codec flags compressed rawLen
    if raw.length ≠ rawLen then throw .rawLengthMismatch
    readGroups raw.length (.new raw)
  | _ => .error .headerTooShort

/-! ### The precomputed length -/

/-- A packet of the server that waits for its bundle; the interval byte is always patched. -/
structure BundleAvatarSend where
  originalChannel : Byte
  payload : Bytes
  intervalOffset : ℕ
  intervalByte : Byte
  deriving DecidableEq

def BundleAvatarSend.slice (item : BundleAvatarSend) : AvatarBundleSlice :=
  ⟨item.originalChannel, item.payload, some (item.intervalOffset, item.intervalByte)⟩

structure BundleCacheLookup where
  flags : Byte
  zstdLevel : ℤ
  rawLen : ℕ
  deriving DecidableEq

/-- The items of each channel in its last group, and the length so far; a count goes from 254 back
to 0. -/
def countItem (counts : Byte → ℕ) (rawLen : ℕ) (item : BundleAvatarSend) : (Byte → ℕ) × ℕ :=
  let count := counts item.originalChannel
  (fun channel =>
    if channel = item.originalChannel then (if count = 254 then 0 else count + 1)
    else counts channel,
    (if count = 0 then rawLen + 2 else rawLen) + (2 + item.payload.length))

def countItems : (Byte → ℕ) → ℕ → List BundleAvatarSend → ℕ
  | _, rawLen, [] => rawLen
  | counts, rawLen, item :: items =>
    let next := countItem counts rawLen item
    countItems next.1 next.2 items

def BundleCacheLookup.new (items : List BundleAvatarSend) (compression : AvatarBundleCompression) :
    BundleCacheLookup :=
  ⟨bundleFlags compression,
    match compression with
    | .lz4 => 0
    | .zstdDictionary level => level,
    countItems (fun _ => 0) 0 items⟩

end BasisRust.Avatar
