import BasisRust.Library.AssocList
import BasisRust.Library.Bytes
import BasisRust.Library.Run
import BasisRust.Server.EventLoop
import Mathlib.Data.Prod.Lex
import Mathlib.Data.List.MinMax

/-!
# The image cache

`image_cache.rs` keeps the images that clients share, so that peers who were not there when an image
was sent can ask for it later.  The cache reads the opcode, the image id, chunk counts and indexes
and the pose of a payload; everything else is opaque.  A reservation evicts older images until the
new bytes fit, first those of the same owner, then those of the owner who holds most.

An operation returns the cache and its effects in order.  `none` stands for a failed `expect`, an
index out of range or a loop that does not end; that it never occurs is a theorem.

The bytes of a replay are in cells that the cache, the download governor and the senders share: a
replay payload is a handle to a cell, and the cache keeps weak handles to the cells of each image.
The heap has the cells that somebody still holds.

History that no operation reads: `lifetime` numbers the images ever stored, `saturated` records
that a subtraction was cut off at zero, `Effect.stored` records who an image was first sent to, and
`Replay.source` is the image a replay was made from.
-/

namespace BasisRust.Server

open Library

def opSpawn : Byte := 1
def opChunk : Byte := 2
def opTransform : Byte := 3
def opDespawn : Byte := 4
def opAnimationSpawn : Byte := 6
def opAnimationChunk : Byte := 7
def opServerCacheOffer : Byte := 9
def opServerCacheRequest : Byte := 10
def headerBytes : ℕ := 17
def poseBytes : ℕ := 28
def transformBytes : ℕ := headerBytes + poseBytes + 4
def maxOwnerNameBytes : ℕ := 1024
def bytesPerMegabyte : ℕ := 1024 * 1024

/-- `size_of::<Option<Bytes>>()`: four words, the option uses a niche. -/
def slotBytes : ℕ := 32

/-- The settings of the cache; the sizes are `i32`. -/
structure CacheConfig where
  imageCacheEnabled : Bool
  imageCacheMaxMegabytes : BitVec 32
  imageCacheMinimumPerOwnerMegabytes : BitVec 32
  deriving DecidableEq

/-- The sixteen bytes after the opcode. -/
abbrev ImageId := Bytes

structure CachedImage where
  owner : PeerId
  sequence : BitVec 64
  offered : List PeerId
  delivered : List PeerId
  animationDelivered : List PeerId
  spawn : Bytes
  chunks : List (Option Bytes)
  chunksHeld : ℕ
  poseOffset : ℕ
  transform : Option Bytes
  animationSpawn : Option Bytes
  animationChunks : List (Option Bytes)
  animationChunksHeld : ℕ
  replayPayloads : List ℕ
  bytes : ℕ
  lifetime : ℕ
  deriving DecidableEq

namespace CachedImage

def stillComplete (image : CachedImage) : Bool := image.chunksHeld = image.chunks.length

def animationComplete (image : CachedImage) : Bool :=
  image.animationSpawn.isSome && image.animationChunksHeld = image.animationChunks.length

/-- The spawn with the pose of the latest transform. -/
def buildSpawn (image : CachedImage) : Bytes :=
  match image.transform with
  | none => image.spawn
  | some transform =>
    let last := image.poseOffset + poseBytes
    if 0 < image.poseOffset ∧ last ≤ image.spawn.length then
      image.spawn.take image.poseOffset ++ slice transform headerBytes poseBytes ++
        image.spawn.drop last
    else image.spawn

/-- The payloads of a replay of the still. -/
def stillPayloads (image : CachedImage) : List Bytes :=
  image.buildSpawn :: image.transform.toList ++ image.chunks.filterMap id

/-- `append_animation`. -/
def animationPayloads (image : CachedImage) : List Bytes :=
  image.animationSpawn.toList ++ image.animationChunks.filterMap id

end CachedImage

/-! ### Shared cells -/

structure PayloadHeap where
  next : ℕ
  cells : List (ℕ × Option Bytes)
  deriving DecidableEq

namespace PayloadHeap

def held (heap : PayloadHeap) (handle : ℕ) : Bool := (assocGet handle heap.cells).isSome

/-- One new cell for each payload. -/
def allocate (heap : PayloadHeap) (payloads : List Bytes) : PayloadHeap × List (ℕ × Bytes) :=
  let fresh := (List.range' heap.next payloads.length).zip payloads
  (⟨heap.next + payloads.length, fresh.map (fun x => (x.1, some x.2)) ++ heap.cells⟩, fresh)

/-- Empty the cell of a weak handle, if somebody still holds it. -/
def take (heap : PayloadHeap) (handle : ℕ) : PayloadHeap :=
  if heap.held handle then { heap with cells := assocSet handle none heap.cells } else heap

def takeAll (heap : PayloadHeap) (handles : List ℕ) : PayloadHeap := handles.foldl take heap

/-- The last holder of a payload drops it. -/
def release (heap : PayloadHeap) (handle : ℕ) : PayloadHeap :=
  { heap with cells := assocErase handle heap.cells }

end PayloadHeap

/-! ### Effects -/

/-- One batch of image data for a peer. -/
structure Replay where
  recipient : PeerId
  owner : PeerId
  animation : Bool
  payloads : List (ℕ × Bytes)
  source : CachedImage
  deriving DecidableEq

inductive Effect where
  | stored (lifetime : ℕ) (original : List PeerId)
  | cacheState (owner : PeerId) (id : ImageId) (held : Bool)
  | offer (peer : PeerId) (payload : Bytes)
  | replay (r : Replay)
  deriving DecidableEq

/-! ### Reading payloads -/

/-- The bytes from `offset` on, if they are all there. -/
def getSlice (payload : Bytes) (offset n : ℕ) : Option Bytes :=
  if offset + n ≤ payload.length then some (slice payload offset n) else none

def readId (payload : Bytes) : Option ImageId := getSlice payload 1 (headerBytes - 1)

def readI32 (payload : Bytes) (offset : ℕ) : Option ℤ :=
  (getSlice payload offset 4).map fun raw => (BitVec.ofNat 32 (leNat raw)).toInt

/-- The seven-bit length at the start of `rest`: the length and the bytes it took. -/
def readLength : Bytes → ℕ → ℕ → Option (ℕ × ℕ)
  | [], _, _ => none
  | piece :: rest, shift, length =>
    if 28 < shift then none
    else
      let length := length ||| (piece &&& 0x7f).toNat <<< shift
      if piece &&& 0x80 = 0 then some (length, 1)
      else (readLength rest (shift + 7) length).map fun x => (x.1, x.2 + 1)

/-- The number of chunks of a spawn and the offset of its pose. -/
def readSpawnHeader (payload : Bytes) : Option (ℤ × ℕ) := do
  let (length, used) ← readLength (payload.drop (headerBytes + 2)) 0 0
  let offset := headerBytes + 2 + used
  if maxOwnerNameBytes < length ∨ payload.length < offset + length then none
  else
    let offset := offset + length
    let width ← readI32 payload offset
    let height ← readI32 payload (offset + 4)
    let totalBytes ← readI32 payload (offset + 8)
    if width ≤ 0 ∨ height ≤ 0 ∨ totalBytes < 0 then none
    else
      let offset := offset + 12
      let totalChunks ← readI32 payload offset
      some (totalChunks, offset + 4)

/-! ### Machine arithmetic -/

def u64Max : ℕ := 2 ^ 64 - 1

def satAdd (a b : ℕ) : ℕ := min (a + b) u64Max

def satMul (a b : ℕ) : ℕ := min (a * b) u64Max

def checkedAdd (a b : ℕ) : Option ℕ := if a + b ≤ u64Max then some (a + b) else none

def checkedMul (a b : ℕ) : Option ℕ := if a * b ≤ u64Max then some (a * b) else none

/-- A positive number of megabytes in bytes, else nothing. -/
def megabytes (n : BitVec 32) : ℕ := if 0 < n.toInt then satMul n.toNat bytesPerMegabyte else 0

def CacheConfig.cap (config : CacheConfig) : ℕ := megabytes config.imageCacheMaxMegabytes

/-! ### The cache -/

structure ImageCache where
  images : List (ImageId × CachedImage)
  totalBytes : ℕ
  sequence : BitVec 64
  heap : PayloadHeap
  lifetimes : ℕ
  saturated : Bool
  deriving DecidableEq

namespace ImageCache

def empty : ImageCache := ⟨[], 0, 0, ⟨0, []⟩, 0, false⟩

def image (s : ImageCache) (id : ImageId) : Option CachedImage := assocGet id s.images

def setImage (s : ImageCache) (id : ImageId) (image : CachedImage) : ImageCache :=
  { s with images := assocSet id image s.images }

def ownerBytes (s : ImageCache) (owner : PeerId) : ℕ :=
  ((s.images.filter fun x => x.2.owner = owner).map fun x => x.2.bytes).sum

def owners (s : ImageCache) : List PeerId := (s.images.map fun x => x.2.owner).dedup

def ownerShare (s : ImageCache) (owner : PeerId) (cap : ℕ) (config : CacheConfig) : ℕ :=
  max (cap / max (s.owners.insert owner).length 1)
    (min (megabytes config.imageCacheMinimumPerOwnerMegabytes) cap)

def oldestOwned (s : ImageCache) (owner : PeerId) (exclude : ImageId) : Option ImageId :=
  ((s.images.filter fun x => x.2.owner = owner ∧ x.1 ≠ exclude).argmin
    fun x => x.2.sequence.toNat).map Prod.fst

/-- `ties` is the order in which the temporary map lists owners that hold the same. -/
def oldestOfHeaviestOwner (s : ImageCache) (exclude : ImageId) (ties : PeerId → ℕ) :
    Option ImageId :=
  match s.owners.argmax fun owner => toLex (s.ownerBytes owner, ties owner) with
  | none => none
  | some heaviest => s.oldestOwned heaviest exclude

def dropImage (s : ImageCache) (id : ImageId) : ImageCache × List Effect :=
  match s.image id with
  | none => (s, [])
  | some image =>
    ({ s with
        images := assocErase id s.images
        heap := s.heap.takeAll image.replayPayloads
        totalBytes := s.totalBytes - image.bytes
        saturated := s.saturated || s.totalBytes < image.bytes },
      if image.stillComplete then [.cacheState image.owner id false] else [])

/-- Drop victims while the cache is over its limit; the flag says whether the new bytes fit.  The
fuel bounds the number of iterations. -/
def evictWhile (exceeds : ImageCache → Bool) (victim : ImageCache → Option ImageId) :
    ℕ → ImageCache → Option (Bool × ImageCache × List Effect)
  | 0, _ => none
  | fuel + 1, s =>
    if !exceeds s then some (true, s, [])
    else
      match victim s with
      | none => some (false, s, [])
      | some id =>
        (evictWhile exceeds victim fuel (s.dropImage id).1).map fun r =>
          (r.1, r.2.1, (s.dropImage id).2 ++ r.2.2)

def tryReserve (s : ImageCache) (owner : PeerId) (cost : ℕ) (exclude : ImageId)
    (config : CacheConfig) (ties : ℕ → PeerId → ℕ) : Option (Bool × ImageCache × List Effect) :=
  if config.cap = 0 ∨ cost = 0 ∨ config.cap < cost then some (false, s, [])
  else
    let share := s.ownerShare owner config.cap config
    if share < cost then some (false, s, [])
    else do
      let (fits, s₁, effects₁) ← evictWhile (fun s => share < satAdd (s.ownerBytes owner) cost)
        (fun s => s.oldestOwned owner exclude) (s.images.length + 1) s
      if !fits then some (false, s₁, effects₁)
      else
        let (fits, s₂, effects₂) ← evictWhile (fun s => config.cap < satAdd s.totalBytes cost)
          (fun s => s.oldestOfHeaviestOwner exclude (ties s.images.length))
          (s₁.images.length + 1) s₁
        some (fits, s₂, effects₁ ++ effects₂)

/-! ### Deliveries -/

def markOffered (s : ImageCache) (id : ImageId) (peer : PeerId) : ImageCache × List Effect :=
  match s.image id with
  | none => (s, [])
  | some image =>
    if !image.stillComplete || image.owner = peer || peer ∈ image.offered ||
        peer ∈ image.delivered then
      (s, [])
    else
      (s.setImage id { image with offered := image.offered.insert peer },
        match image.buildSpawn with
        | [] => []
        | _ :: rest => [.offer peer (opServerCacheOffer :: rest)])

/-- Register new handles with their image, and forget those nobody holds any more. -/
def register (image : CachedImage) (heap : PayloadHeap) (fresh : List (ℕ × Bytes)) : CachedImage :=
  { image with
    replayPayloads := (image.replayPayloads ++ fresh.map Prod.fst).filter fun h => heap.held h }

def request (s : ImageCache) (peer : PeerId) (payload : Bytes) (allowAnimation : Bool)
    (config : CacheConfig) : ImageCache × List Effect :=
  if !config.imageCacheEnabled || payload.length < headerBytes ||
      payload.head? ≠ some opServerCacheRequest then
    (s, [])
  else
    match readId payload with
    | none => (s, [])
    | some id =>
      match s.image id with
      | none => (s, [])
      | some image =>
        if !image.stillComplete || image.owner = peer || peer ∈ image.delivered then (s, [])
        else
          let image := { image with
            delivered := image.delivered.insert peer
            offered := image.offered.insert peer }
          let (heap, still) := s.heap.allocate image.stillPayloads
          if allowAnimation && image.animationComplete && peer ∉ image.animationDelivered then
            let image := { image with
              animationDelivered := image.animationDelivered.insert peer }
            let (heap, animation) := heap.allocate image.animationPayloads
            ({ s.setImage id (register image heap (still ++ animation)) with heap := heap },
              [.replay ⟨peer, image.owner, false, still, image⟩,
                .replay ⟨peer, image.owner, true, animation, image⟩])
          else
            ({ s.setImage id (register image heap still) with heap := heap },
              [.replay ⟨peer, image.owner, false, still, image⟩])

def deliverAnimation (s : ImageCache) (id : ImageId) (peer : PeerId) : ImageCache × List Effect :=
  match s.image id with
  | none => (s, [])
  | some image =>
    if !image.stillComplete || !image.animationComplete || peer = image.owner ||
        peer ∉ image.delivered || peer ∈ image.animationDelivered then
      (s, [])
    else
      let image := { image with animationDelivered := image.animationDelivered.insert peer }
      let (heap, fresh) := s.heap.allocate image.animationPayloads
      ({ s.setImage id (register image heap fresh) with heap := heap },
        [.replay ⟨peer, image.owner, true, fresh, image⟩])

/-- Run one operation for each item, collecting the effects. -/
def forEach {ι : Type} (f : ImageCache → ι → ImageCache × List Effect) :
    List ι → ImageCache → ImageCache × List Effect
  | [], s => (s, [])
  | i :: is, s =>
    let (s₁, effects₁) := f s i
    let (s₂, effects₂) := forEach f is s₁
    (s₂, effects₁ ++ effects₂)

/-- The peers who have the still, may see animations, and do not have this one. -/
def animationRecipients (image : CachedImage) (allowed : List PeerId) : List PeerId :=
  image.delivered.filter fun peer =>
    peer ≠ image.owner && allowed.contains peer && !image.animationDelivered.contains peer

def resumeAnimations (s : ImageCache) (allowedPeers : List PeerId) (config : CacheConfig) :
    ImageCache × List Effect :=
  if !config.imageCacheEnabled then (s, [])
  else
    let candidates := s.images.flatMap fun x =>
      if x.2.stillComplete && x.2.animationComplete then
        (animationRecipients x.2 allowedPeers).map fun peer => (x.1, peer)
      else []
    forEach (fun s c => s.deliverAnimation c.1 c.2) candidates s

def offerPeer (s : ImageCache) (peer : PeerId) (config : CacheConfig) : ImageCache × List Effect :=
  if !config.imageCacheEnabled then (s, [])
  else
    let ids := ((s.images.filter fun x => x.2.stillComplete).map fun x =>
      (x.1, x.2.sequence.toNat)).mergeSort fun x y => x.2 ≤ y.2
    forEach (fun s x => s.markOffered x.1 peer) ids s

/-! ### Uploads -/

def observeSpawn (s : ImageCache) (owner : PeerId) (payload : Bytes)
    (recipients connected : List PeerId) (config : CacheConfig) (ties : ℕ → PeerId → ℕ) :
    Option (ImageCache × List Effect) :=
  match readId payload, readSpawnHeader payload with
  | some id, some (chunkCount, poseOffset) =>
    if chunkCount ≤ 0 ∨ payload.length < poseOffset + poseBytes ∨ (s.image id).isSome then
      some (s, [])
    else
      let count := chunkCount.toNat
      match (checkedMul count slotBytes).bind (checkedAdd payload.length) with
      | none => some (s, [])
      | some cost => do
        let (fits, s, effects) ← s.tryReserve owner cost id config ties
        if !fits then some (s, effects)
        else
          let sequence := s.sequence + 1
          let original := if recipients.isEmpty then connected else recipients
          let image : CachedImage :=
            { owner, sequence
              offered := original.dedup
              delivered := original.dedup
              animationDelivered := original.dedup
              spawn := payload
              chunks := List.replicate count none
              chunksHeld := 0
              poseOffset
              transform := none
              animationSpawn := none
              animationChunks := []
              animationChunksHeld := 0
              replayPayloads := []
              bytes := cost
              lifetime := s.lifetimes }
          some ({ s.setImage id image with
              sequence
              totalBytes := s.totalBytes + cost
              lifetimes := s.lifetimes + 1 },
            effects ++ [.stored s.lifetimes original])
  | _, _ => some (s, [])

def animationChunkCountOffset : ℕ := headerBytes + 1 + 4

def observeAnimationSpawn (s : ImageCache) (owner : PeerId) (payload : Bytes)
    (config : CacheConfig) (ties : ℕ → PeerId → ℕ) : Option (ImageCache × List Effect) :=
  if payload.length < animationChunkCountOffset + 4 then some (s, [])
  else
    match readId payload, readI32 payload animationChunkCountOffset with
    | some id, some count =>
      if count ≤ 0 then some (s, [])
      else
        match s.image id with
        | none => some (s, [])
        | some image =>
          if image.owner ≠ owner || image.animationSpawn.isSome then some (s, [])
          else
            match (checkedMul count.toNat slotBytes).bind (checkedAdd payload.length) with
            | none => some (s, [])
            | some cost => do
              let (fits, s, effects) ← s.tryReserve owner cost id config ties
              if !fits then some (s, effects)
              else
                let image ← s.image id
                some ({ s.setImage id { image with
                      animationSpawn := some payload
                      animationChunks := List.replicate count.toNat none
                      bytes := image.bytes + cost } with
                    totalBytes := s.totalBytes + cost },
                  effects)
    | _, _ => some (s, [])

/-- Fill a slot; a slot out of range is a panic. -/
def fillSlot (slots : List (Option Bytes)) (index : ℕ) (payload : Bytes) :
    Option (List (Option Bytes)) :=
  if index < slots.length then some (slots.set index (some payload)) else none

/-- Store a chunk in its slot. -/
def storeChunk (image : CachedImage) (animation : Bool) (index : ℕ) (payload : Bytes) :
    Option CachedImage :=
  if animation then
    (fillSlot image.animationChunks index payload).map fun slots =>
      { image with
        animationChunks := slots
        animationChunksHeld := image.animationChunksHeld + 1
        bytes := image.bytes + payload.length }
  else
    (fillSlot image.chunks index payload).map fun slots =>
      { image with
        chunks := slots
        chunksHeld := image.chunksHeld + 1
        bytes := image.bytes + payload.length }

/-- What follows a stored chunk: a complete still is announced and offered, a complete animation
goes to the peers who have the still. -/
def announce (s : ImageCache) (id : ImageId) (owner : PeerId) (animation : Bool)
    (image : CachedImage) (connected animationAllowed : List PeerId) :
    ImageCache × List Effect :=
  if !animation && image.stillComplete then
    let (s, offers) := forEach (fun s peer => s.markOffered id peer) connected s
    (s, .cacheState owner id true :: offers)
  else if animation && image.animationComplete && image.stillComplete then
    forEach (fun s peer => s.deliverAnimation id peer)
      (animationRecipients image animationAllowed) s
  else (s, [])

def observeChunk (s : ImageCache) (owner : PeerId) (payload : Bytes) (animation : Bool)
    (connected animationAllowed : List PeerId) (config : CacheConfig) (ties : ℕ → PeerId → ℕ) :
    Option (ImageCache × List Effect) :=
  if payload.length < headerBytes + 8 then some (s, [])
  else
    match readId payload, readI32 payload headerBytes with
    | some id, some index =>
      if index < 0 then some (s, [])
      else
        match s.image id with
        | none => some (s, [])
        | some image =>
          let slots := if animation then image.animationChunks else image.chunks
          if image.owner ≠ owner || slots[index.toNat]? ≠ some none ||
              (animation && image.animationSpawn.isNone) then
            some (s, [])
          else do
            let (fits, s, effects) ← s.tryReserve owner payload.length id config ties
            if !fits then some (s, effects)
            else
              let image ← s.image id
              let image ← storeChunk image animation index.toNat payload
              let s := { s.setImage id image with totalBytes := s.totalBytes + payload.length }
              let (s, announced) := s.announce id owner animation image connected animationAllowed
              some (s, effects ++ announced)
    | _, _ => some (s, [])

/-- Any peer may move an image; the latest pose is kept. -/
def observeTransform (s : ImageCache) (payload : Bytes) (config : CacheConfig)
    (ties : ℕ → PeerId → ℕ) : Option (ImageCache × List Effect) :=
  if payload.length ≠ transformBytes then some (s, [])
  else
    match readId payload with
    | none => some (s, [])
    | some id =>
      match s.image id with
      | none => some (s, [])
      | some image =>
        if image.transform.isNone then do
          let (fits, s, effects) ← s.tryReserve image.owner transformBytes id config ties
          if !fits then some (s, effects)
          else
            let image ← s.image id
            some ({ s.setImage id { image with
                  transform := some payload
                  bytes := image.bytes + transformBytes } with
                totalBytes := s.totalBytes + transformBytes },
              effects)
        else some (s.setImage id { image with transform := some payload }, [])

def removeImage (s : ImageCache) (id : ImageId) (requester : PeerId) (ownerOnly : Bool) :
    ImageCache × List Effect :=
  if (s.image id).any fun image => !ownerOnly || image.owner = requester then s.dropImage id
  else (s, [])

def observe (s : ImageCache) (owner : PeerId) (payload : Bytes)
    (recipients connected animationAllowed : List PeerId) (allowAnimation : Bool)
    (config : CacheConfig) (ties : ℕ → PeerId → ℕ) : Option (ImageCache × List Effect) :=
  if !config.imageCacheEnabled || payload.length < headerBytes then some (s, [])
  else
    let op := payload.headD 0
    if op = opSpawn then s.observeSpawn owner payload recipients connected config ties
    else if op = opChunk then
      s.observeChunk owner payload false connected animationAllowed config ties
    else if op = opTransform then s.observeTransform payload config ties
    else if op = opServerCacheRequest then some (s.request owner payload allowAnimation config)
    else if op = opAnimationSpawn then s.observeAnimationSpawn owner payload config ties
    else if op = opAnimationChunk then
      s.observeChunk owner payload true connected animationAllowed config ties
    else if op = opDespawn then
      match readId payload with
      | none => some (s, [])
      | some id => some (s.removeImage id owner true)
    else some (s, [])

/-! ### Departures and reset -/

def forgetPeer (peer : PeerId) (image : CachedImage) : CachedImage :=
  { image with
    offered := image.offered.filter (· ≠ peer)
    delivered := image.delivered.filter (· ≠ peer)
    animationDelivered := image.animationDelivered.filter (· ≠ peer) }

def removePlayer (s : ImageCache) (peer : PeerId) : ImageCache × List Effect :=
  let owned := (s.images.filter fun x => x.2.owner = peer).map Prod.fst
  let (s, effects) := forEach dropImage owned s
  ({ s with images := s.images.map fun x => (x.1, forgetPeer peer x.2) }, effects)

def reset (s : ImageCache) : ImageCache :=
  { s with
    images := []
    heap := s.heap.takeAll (s.images.flatMap fun x => x.2.replayPayloads)
    totalBytes := 0
    sequence := 0 }

/-! ### Runs -/

/-- The operations of the cache, and the end of the last holder of a replay payload. -/
inductive Action where
  | observe (owner : PeerId) (payload : Bytes) (recipients connected animationAllowed : List PeerId)
      (allowAnimation : Bool) (config : CacheConfig) (ties : ℕ → PeerId → ℕ)
  | offerPeer (peer : PeerId) (config : CacheConfig)
  | request (peer : PeerId) (payload : Bytes) (allowAnimation : Bool) (config : CacheConfig)
  | resumeAnimations (allowedPeers : List PeerId) (config : CacheConfig)
  | removePlayer (peer : PeerId)
  | reset
  | release (handle : ℕ)

def perform (s : ImageCache) : Action → Option (ImageCache × List Effect)
  | .observe owner payload recipients connected animationAllowed allowAnimation config ties =>
    s.observe owner payload recipients connected animationAllowed allowAnimation config ties
  | .offerPeer peer config => some (s.offerPeer peer config)
  | .request peer payload allowAnimation config =>
    some (s.request peer payload allowAnimation config)
  | .resumeAnimations allowedPeers config => some (s.resumeAnimations allowedPeers config)
  | .removePlayer peer => some (s.removePlayer peer)
  | .reset => some (s.reset, [])
  | .release handle => some ({ s with heap := s.heap.release handle }, [])

/-- The operation is told that the peer may get animations. -/
def Action.permits : Action → PeerId → Bool
  | .observe owner _ _ _ animationAllowed allowAnimation _ _, peer =>
    (peer = owner && allowAnimation) || animationAllowed.contains peer
  | .request requester _ allowAnimation _, peer => peer = requester && allowAnimation
  | .resumeAnimations allowedPeers _, peer => allowedPeers.contains peer
  | _, _ => false

def Action.departs : Action → List PeerId
  | .removePlayer peer => [peer]
  | _ => []

/-- An effect in the history: the departures before it, and whether its operation permitted the
peer it goes to. -/
structure Entry where
  effect : Effect
  departures : List PeerId
  permitted : PeerId → Bool

/-- The cache with its history. -/
structure Run where
  cache : ImageCache
  departures : List PeerId
  log : List Entry

def system : System Run Action where
  init st := st = ⟨empty, [], []⟩
  step st a := (st.cache.perform a).map fun r =>
    ⟨r.1, a.departs ++ st.departures,
      st.log ++ r.2.map fun effect => ⟨effect, st.departures, a.permits⟩⟩

end ImageCache

end BasisRust.Server
