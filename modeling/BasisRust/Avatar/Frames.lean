import BasisRust.Avatar.Delta
import BasisRust.Avatar.Repack

/-!
# Avatar frames

What the server makes of an avatar update of a sender: one packet for each quality, and one delta
packet for each quality against the last keyframe.

`buildQualityPackets` and `updateOutboundDeltaState` make all of them at once; the server uses
`LazyQualityFrame` and `LazyDeltaFrame` instead, which make a packet when a receiver first asks for
it and keep it.  Lazy frames are shared (`Arc`), so they live in a `Heap` and are named by their
index there; a packet that was made is written back to the frame.

Times are in nanoseconds, counters of type `u8` are natural numbers with the saturation written out.
-/

namespace BasisRust.Avatar

open Library

abbrev PeerId := BitVec 16

/-! ### Packets -/

structure PreSerializedQuality where
  channelSmall : Byte
  channelLarge : Byte
  bytesSmall : Bytes
  bytesLarge : Bytes
  additionalData : Bytes
  deriving DecidableEq

structure PreSerializedDelta where
  bytesSmall : Bytes
  bytesLarge : Bytes
  deriving DecidableEq

def playerAvatarVeryLow : Byte := 6
def playerAvatarVeryLowLarge : Byte := 41
def deltaHeaderAdditionalData : Byte := 0x04
def deltaHeaderLargeId : Byte := 0x08

def BitQuality.code (quality : BitQuality) : Byte := BitVec.ofNat 8 quality.index

def playerAvatarChannelForQuality (quality : BitQuality) (hasAdditionalData : Bool) : Byte :=
  playerAvatarVeryLow + quality.code * 2 + if hasAdditionalData then 1 else 0

def playerAvatarLargeChannelForQuality (quality : BitQuality) (hasAdditionalData : Bool) : Byte :=
  playerAvatarVeryLowLarge + quality.code * 2 + if hasAdditionalData then 1 else 0

/-- The byte after the peer id is the place of the interval byte. -/
def preSerialize (peerId : PeerId) (outboundSequence : Byte) (quality : BitQuality)
    (payload additionalData : Bytes) : PreSerializedQuality :=
  let hasAdditional := !additionalData.isEmpty
  ⟨playerAvatarChannelForQuality quality hasAdditional,
    playerAvatarLargeChannelForQuality quality hasAdditional,
    [peerId.setWidth 8, 0, outboundSequence] ++ payload ++ additionalData,
    leBytes 2 peerId.toNat ++ [0, outboundSequence] ++ payload ++ additionalData,
    additionalData⟩

def preSerializeDelta (peerId : PeerId) (outboundSequence baseSequence : Byte)
    (quality : BitQuality) (body additionalData : Bytes) : PreSerializedDelta :=
  let header := quality.code ||| if additionalData.isEmpty then 0 else deltaHeaderAdditionalData
  ⟨[header, peerId.setWidth 8, 0, outboundSequence, baseSequence] ++ body ++ additionalData,
    [header ||| deltaHeaderLargeId] ++ leBytes 2 peerId.toNat ++
      [0, outboundSequence, baseSequence] ++ body ++ additionalData⟩

/-- The avatar payload inside a packet. -/
def packetPayload (quality : BitQuality) (packet : PreSerializedQuality) : Option Bytes :=
  getRange packet.bytesSmall 3 quality.payloadLen

/-- One value for each quality. -/
structure PerQuality (α : Type) where
  veryLow : α
  low : α
  medium : α
  high : α
  deriving DecidableEq

namespace PerQuality

variable {α : Type}

def fill (x : α) : PerQuality α := ⟨x, x, x, x⟩

def ofFn (f : BitQuality → α) : PerQuality α := ⟨f .veryLow, f .low, f .medium, f .high⟩

def get (x : PerQuality α) : BitQuality → α
  | .veryLow => x.veryLow
  | .low => x.low
  | .medium => x.medium
  | .high => x.high

def set (x : PerQuality α) (quality : BitQuality) (v : α) : PerQuality α :=
  match quality with
  | .veryLow => { x with veryLow := v }
  | .low => { x with low := v }
  | .medium => { x with medium := v }
  | .high => { x with high := v }

@[simp] theorem get_fill (x : α) (q : BitQuality) : (fill x).get q = x := by
  cases q <;> rfl

@[simp] theorem get_ofFn (f : BitQuality → α) (q : BitQuality) : (ofFn f).get q = f q := by
  cases q <;> rfl

theorem get_set (x : PerQuality α) (q q' : BitQuality) (v : α) :
    (x.set q v).get q' = if q' = q then v else x.get q' := by
  cases q <;> cases q' <;> rfl

end PerQuality

/-- Low qualities go without additional data when the configuration says so. -/
def stripAdditional (strip : Bool) (quality : BitQuality) (additionalData : Bytes) : Bytes :=
  if strip && (quality = .low || quality = .veryLow) then [] else additionalData

/-! ### All packets at once -/

def buildQualityPackets (peerId : PeerId) (outboundSequence : Byte) (inboundQuality : BitQuality)
    (payload additionalData : Bytes) (strip : Bool) :
    Except Repack.RepackError (PerQuality (Option PreSerializedQuality)) :=
  match inboundQuality with
  | .high => do
    let packet := fun quality payload => preSerialize peerId outboundSequence quality payload
      (stripAdditional strip quality additionalData)
    let repack := fun (target : BitQuality) =>
      Repack.repackHighToLowerInto payload target (List.replicate target.payloadLen 0)
    let medium ← repack .medium
    let low ← repack .low
    let veryLow ← repack .veryLow
    return ⟨some (packet .veryLow veryLow), some (packet .low low), some (packet .medium medium),
      some (packet .high payload)⟩
  | other =>
    .ok ((PerQuality.fill none).set other (some (preSerialize peerId outboundSequence other payload
      (stripAdditional strip other additionalData))))

def qualityPayloads (qualities : PerQuality (Option PreSerializedQuality)) :
    PerQuality (Option Bytes) :=
  .ofFn fun quality => (qualities.get quality).bind (packetPayload quality)

def buildDeltaPackets (peerId : PeerId) (outboundSequence baseSequence : Byte)
    (baselines current : PerQuality (Option Bytes))
    (qualities : PerQuality (Option PreSerializedQuality)) (reusableHighDelta : Option Bytes) :
    PerQuality (Option PreSerializedDelta) :=
  .ofFn fun quality => do
    let baseline ← baselines.get quality
    let current ← current.get quality
    let body ←
      match (if quality = .high then reusableHighDelta else none) with
      | some delta => some delta
      | none => (buildDelta baseline current quality).toOption
    let additionalData := ((qualities.get quality).map (·.additionalData)).getD []
    return preSerializeDelta peerId outboundSequence baseSequence quality body additionalData

/-! ### Lazy frames -/

inductive FrameError where
  | repack (error : Repack.RepackError)
  | truncated
  | missingKeyframe
  | missingHighDelta
  deriving DecidableEq

structure LazyQualityFrame where
  peerId : PeerId
  outboundSequence : Byte
  sourceQuality : BitQuality
  sourcePayload : Bytes
  additionalData : Bytes
  stripAdditionalDataAtLowQuality : Bool
  qualities : PerQuality (Option (Except Repack.RepackError (Option PreSerializedQuality)))

def validateRepackPreconditions (sourceLen : ℕ) (target : BitQuality) (outputLen : ℕ) :
    Except Repack.RepackError Unit :=
  if target = .high then .error .targetNotLower
  else if sourceLen < BitQuality.high.payloadLen then .error .highPayloadTooSmall
  else if outputLen < target.payloadLen then .error .outputTooSmall
  else .ok ()

namespace LazyQualityFrame

def new (peerId : PeerId) (outboundSequence : Byte) (sourceQuality : BitQuality)
    (payload additionalData : Bytes) (strip : Bool) : Except FrameError LazyQualityFrame := do
  if sourceQuality = .high then
    if payload.length < BitQuality.high.payloadLen then throw (.repack .highPayloadTooSmall)
    for target in [BitQuality.medium, .low, .veryLow] do
      (validateRepackPreconditions payload.length target target.payloadLen).mapError .repack
  let sourcePacket := preSerialize peerId outboundSequence sourceQuality payload
    (stripAdditional strip sourceQuality additionalData)
  match packetPayload sourceQuality sourcePacket with
  | none => .error .truncated
  | some sourcePayload =>
    .ok ⟨peerId, outboundSequence, sourceQuality, sourcePayload, sourcePacket.additionalData, strip,
      (PerQuality.fill none).set sourceQuality (some (.ok (some sourcePacket)))⟩

/-- Make the packet of a quality that was not asked for before. -/
def build (frame : LazyQualityFrame) (quality : BitQuality) :
    Except Repack.RepackError (Option PreSerializedQuality) :=
  if frame.sourceQuality ≠ .high || quality = .high then .ok none
  else do
    let repacked ← Repack.repackHighToLowerInto frame.sourcePayload quality
      (List.replicate quality.payloadLen 0)
    return some (preSerialize frame.peerId frame.outboundSequence quality repacked
      (stripAdditional frame.stripAdditionalDataAtLowQuality quality frame.additionalData))

/-- The packet of a quality, and the frame that keeps it. -/
def quality (frame : LazyQualityFrame) (quality : BitQuality) :
    Except Repack.RepackError (Option PreSerializedQuality) × LazyQualityFrame :=
  match frame.qualities.get quality with
  | some result => (result, frame)
  | none =>
    let result := frame.build quality
    (result, { frame with qualities := frame.qualities.set quality (some result) })

end LazyQualityFrame

/-- Deltas of one update; the frames are indices into the heap, and the peer id is that of the
current frame. -/
structure LazyDeltaFrame where
  peerId : PeerId
  current : ℕ
  baseline : ℕ
  outboundSequence : Byte
  baseSequence : Byte
  deltas : PerQuality (Option (Option PreSerializedDelta))

structure Heap where
  frames : List LazyQualityFrame
  deltas : List LazyDeltaFrame

namespace Heap

/-- Ask a shared frame for a quality. -/
def quality (h : Heap) (id : ℕ) (q : BitQuality) :
    Except Repack.RepackError (Option PreSerializedQuality) × Heap :=
  match h.frames[id]? with
  | none => (.ok none, h)
  | some frame =>
    ((frame.quality q).1, { h with frames := h.frames.set id (frame.quality q).2 })

def payload (h : Heap) (id : ℕ) (q : BitQuality) :
    Except Repack.RepackError (Option Bytes) × Heap :=
  (do return (← (h.quality id q).1).bind (packetPayload q), (h.quality id q).2)

/-- Make the delta of a quality that was not asked for before; any failure is `none`. -/
def buildDelta (h : Heap) (frame : LazyDeltaFrame) (q : BitQuality) :
    Option PreSerializedDelta × Heap :=
  match h.payload frame.baseline q with
  | (.error _, h) => (none, h)
  | (.ok none, h) => (none, h)
  | (.ok (some baseline), h) =>
    match h.payload frame.current q with
    | (.error _, h) => (none, h)
    | (.ok none, h) => (none, h)
    | (.ok (some current), h) =>
      match Avatar.buildDelta baseline current q with
      | .error _ => (none, h)
      | .ok body =>
        match h.quality frame.current q with
        | (.error _, h) => (none, h)
        | (.ok packet, h) =>
          (some (preSerializeDelta frame.peerId frame.outboundSequence frame.baseSequence q body
            ((packet.map (·.additionalData)).getD [])), h)

def deltaQuality (h : Heap) (id : ℕ) (q : BitQuality) : Option PreSerializedDelta × Heap :=
  match h.deltas[id]? with
  | none => (none, h)
  | some frame =>
    match frame.deltas.get q with
    | some result => (result, h)
    | none =>
      let built := h.buildDelta frame q
      (built.1, { built.2 with
        deltas :=
          built.2.deltas.set id { frame with deltas := frame.deltas.set q (some built.1) } })

def alloc (h : Heap) (frame : LazyQualityFrame) : ℕ × Heap :=
  (h.frames.length, { h with frames := h.frames ++ [frame] })

/-- `LazyDeltaFrame::new`: the high delta is there from the start. -/
def allocDelta (h : Heap) (current baseline : ℕ) (outboundSequence baseSequence : Byte)
    (highDelta : Bytes) : Except Repack.RepackError ℕ × Heap :=
  match h.quality current .high with
  | (.error e, h) => (.error e, h)
  | (.ok packet, h) =>
    let peerId := (h.frames[current]?.map (·.peerId)).getD 0
    let high := preSerializeDelta peerId outboundSequence baseSequence .high highDelta
      ((packet.map (·.additionalData)).getD [])
    (.ok h.deltas.length, { h with
      deltas := h.deltas ++ [⟨peerId, current, baseline, outboundSequence, baseSequence,
        (PerQuality.fill none).set .high (some (some high))⟩] })

end Heap

/-! ### The state of a sender -/

structure AvatarSyncConfig where
  enableDeltaCompression : Bool
  deltaKeyframeIntervalMs : ℕ
  deltaKeyframeMaxIntervalMs : ℕ
  stripAdditionalDataAtLowQuality : Bool
  deriving DecidableEq

structure PlayerAvatarState where
  peerId : PeerId
  generation : ℕ
  lastInboundSequence : Byte
  outboundSequence : Byte
  hasReceivedFirst : Bool
  qualities : PerQuality (Option PreSerializedQuality)
  keyframeQualities : PerQuality (Option PreSerializedQuality)
  keyframePayloads : PerQuality (Option Bytes)
  deltas : PerQuality (Option PreSerializedDelta)
  keyframeGeneration : ℕ
  keyframeSequence : Byte
  lastKeyframe : ℕ
  keyframeStretchShift : ℕ
  smallDeltaStreak : ℕ
  currentIsKeyframe : Bool
  lazyCurrent : Option ℕ
  lazyKeyframe : Option ℕ
  lazyDeltas : Option ℕ
  deriving DecidableEq

def smallHighDeltaBytes : ℕ := 40
def smallDeltaStreakToStretch : ℕ := 4

/-- A shift of at most eight bits is always defined, and drops what leaves the word. -/
def effectiveKeyframeIntervalMs (config : AvatarSyncConfig) (stretchShift : ℕ) : ℕ :=
  let baseMs := max config.deltaKeyframeIntervalMs 1
  let maxMs := config.deltaKeyframeMaxIntervalMs
  if maxMs ≤ baseMs || stretchShift = 0 then baseMs
  else min (baseMs * 2 ^ min stretchShift 8 % 2 ^ 64) maxMs

def saturatingSucc (n : ℕ) : ℕ := min (n + 1) 255

def updateKeyframeStretch (state : PlayerAvatarState) (config : AvatarSyncConfig)
    (highDeltaLen : ℕ) : PlayerAvatarState :=
  if smallHighDeltaBytes < highDeltaLen then
    { state with keyframeStretchShift := 0, smallDeltaStreak := 0 }
  else if effectiveKeyframeIntervalMs config (saturatingSucc state.keyframeStretchShift) =
      effectiveKeyframeIntervalMs config state.keyframeStretchShift then state
  else
    let streak := saturatingSucc state.smallDeltaStreak
    if smallDeltaStreakToStretch ≤ streak then
      { state with
        smallDeltaStreak := 0
        keyframeStretchShift := saturatingSucc state.keyframeStretchShift }
    else { state with smallDeltaStreak := streak }

/-- The interval since the last keyframe is over. -/
def keyframeDue (state : PlayerAvatarState) (config : AvatarSyncConfig) (now : ℕ) : Bool :=
  max (effectiveKeyframeIntervalMs config state.keyframeStretchShift) 1 * 1000000 ≤
    now - state.lastKeyframe

/-- What becomes of the high delta: it is good enough, or the update is a keyframe after all. -/
def highDeltaOrKeyframe (state : PlayerAvatarState) (config : AvatarSyncConfig)
    (baseline current : Option Bytes) : Option Bytes × PlayerAvatarState :=
  match baseline, current with
  | some baseline, some current =>
    match buildDelta baseline current .high with
    | .ok delta =>
      if delta.length < BitQuality.high.payloadLen then
        (some delta, updateKeyframeStretch state config delta.length)
      else (none, { state with keyframeStretchShift := 0, smallDeltaStreak := 0 })
    | .error _ => (none, { state with keyframeStretchShift := 0, smallDeltaStreak := 0 })
  | _, _ => (none, state)

/-- The first part of `update_outbound_delta_state`: the high delta, or `none` for a keyframe. -/
def eagerHighDelta (state : PlayerAvatarState) (currentPayload : Option Bytes)
    (config : AvatarSyncConfig) (now : ℕ) : Option Bytes × PlayerAvatarState :=
  if !config.enableDeltaCompression || (state.keyframePayloads.get .high).isNone ||
      keyframeDue state config now then (none, state)
  else highDeltaOrKeyframe state config (state.keyframePayloads.get .high) currentPayload

def updateOutboundDeltaState (state : PlayerAvatarState)
    (qualities : PerQuality (Option PreSerializedQuality)) (generation : ℕ)
    (config : AvatarSyncConfig) (now : ℕ) : PlayerAvatarState :=
  let currentPayloads := qualityPayloads qualities
  match eagerHighDelta state (currentPayloads.get .high) config now with
  | (none, state) =>
    { state with
      keyframeQualities := qualities
      keyframePayloads := currentPayloads
      deltas := .fill none
      keyframeGeneration := generation
      keyframeSequence := state.outboundSequence
      lastKeyframe := now
      currentIsKeyframe := true
      qualities := qualities }
  | (some highDelta, state) =>
    { state with
      deltas := buildDeltaPackets state.peerId state.outboundSequence state.keyframeSequence
        state.keyframePayloads currentPayloads qualities (some highDelta)
      currentIsKeyframe := false
      qualities := qualities }

/-- The packet the frame has from the start. -/
def lazyFrameEagerView (frame : LazyQualityFrame) : PerQuality (Option PreSerializedQuality) :=
  match frame.qualities.get frame.sourceQuality with
  | some (.ok (some packet)) => (PerQuality.fill none).set frame.sourceQuality (some packet)
  | _ => .fill none

def keyframePacket (h : Heap) (state : PlayerAvatarState) : Option PreSerializedQuality × Heap :=
  match state.lazyKeyframe with
  | none => (none, h)
  | some id =>
    match h.quality id .high with
    | (.ok packet, h) => (packet, h)
    | (.error _, h) => (none, h)

def keyframePayload (h : Heap) (state : PlayerAvatarState) :
    Except Repack.RepackError (Option Bytes) × Heap :=
  match state.lazyKeyframe with
  | none => (.ok none, h)
  | some id => h.payload id .high

/-- The first part of `update_lazy_outbound_delta_state`: the high delta, or `none` for a
keyframe. -/
def lazyHighDelta (h : Heap) (state : PlayerAvatarState) (currentPayload : Option Bytes)
    (config : AvatarSyncConfig) (now : ℕ) :
    Except Repack.RepackError (Option Bytes × PlayerAvatarState) × Heap :=
  if !config.enableDeltaCompression then (.ok (none, state), h)
  else
    let keyframe := keyframePacket h state
    if keyframe.1.isNone || keyframeDue state config now then (.ok (none, state), keyframe.2)
    else
      match keyframePayload keyframe.2 state with
      | (.error e, h) => (.error e, h)
      | (.ok baseline, h) => (.ok (highDeltaOrKeyframe state config baseline currentPayload), h)

def updateLazyOutboundDeltaState (h : Heap) (state : PlayerAvatarState) (current : ℕ)
    (currentQualities : PerQuality (Option PreSerializedQuality)) (generation : ℕ)
    (config : AvatarSyncConfig) (now : ℕ) : Except FrameError PlayerAvatarState × Heap :=
  match h.payload current .high with
  | (.error e, h) => (.error (.repack e), h)
  | (.ok currentPayload, h) =>
    match lazyHighDelta h state currentPayload config now with
    | (.error e, h) => (.error (.repack e), h)
    | (.ok (none, state), h) =>
      (.ok { state with
        keyframeQualities := currentQualities
        keyframePayloads := qualityPayloads currentQualities
        lazyKeyframe := some current
        deltas := .fill none
        lazyDeltas := none
        keyframeGeneration := generation
        keyframeSequence := state.outboundSequence
        lastKeyframe := now
        currentIsKeyframe := true
        qualities := currentQualities
        lazyCurrent := some current }, h)
    | (.ok (some highDelta, state), h) =>
      match state.lazyKeyframe with
      | none => (.error .missingKeyframe, h)
      | some baseline =>
        match h.allocDelta current baseline state.outboundSequence state.keyframeSequence
            highDelta with
        | (.error e, h) => (.error (.repack e), h)
        | (.ok id, h) =>
          (.ok { state with
            lazyDeltas := some id
            deltas := .fill none
            currentIsKeyframe := false
            qualities := currentQualities
            lazyCurrent := some current }, h)

/-! ### Updates of a sender -/

/-- An update after the checks of `upsert_from_channel_payload`: the avatar payload has the length
of its quality. -/
structure AvatarUpdate where
  inboundSequence : Byte
  quality : BitQuality
  payload : Bytes
  additionalData : Bytes
  len : payload.length = quality.payloadLen

/-- A sequence number that is not newer than the last one. -/
def AvatarUpdate.stale (u : AvatarUpdate) (state : PlayerAvatarState) : Bool :=
  let delta := u.inboundSequence - state.lastInboundSequence
  state.hasReceivedFirst && (delta = 0 || 128 ≤ delta.toNat)

/-- The fields that every accepted update sets. -/
def AvatarUpdate.received (u : AvatarUpdate) (state : PlayerAvatarState) (generation : ℕ) :
    PlayerAvatarState :=
  { state with
    lastInboundSequence := u.inboundSequence
    outboundSequence := state.outboundSequence + 1
    hasReceivedFirst := true
    generation := generation }

def initialState (peerId : PeerId) (u : AvatarUpdate)
    (qualities : PerQuality (Option PreSerializedQuality)) (frame : Option ℕ) (generation now : ℕ) :
    PlayerAvatarState where
  peerId := peerId
  generation := generation
  lastInboundSequence := u.inboundSequence
  outboundSequence := 0
  hasReceivedFirst := true
  qualities := qualities
  keyframeQualities := qualities
  keyframePayloads := qualityPayloads qualities
  deltas := .fill none
  keyframeGeneration := generation
  keyframeSequence := 0
  lastKeyframe := now
  keyframeStretchShift := 0
  smallDeltaStreak := 0
  currentIsKeyframe := true
  lazyCurrent := frame
  lazyKeyframe := frame
  lazyDeltas := none

/-- `commit_processed_updates` for one update, with lazy frames. -/
def commitLazy (peerId : PeerId) (h : Heap) (state : Option PlayerAvatarState) (u : AvatarUpdate)
    (config : AvatarSyncConfig) (generation now : ℕ) : Option PlayerAvatarState × Heap :=
  match state with
  | some state =>
    if u.stale state then (some state, h)
    else
      let state := u.received state generation
      match LazyQualityFrame.new peerId state.outboundSequence u.quality u.payload u.additionalData
          config.stripAdditionalDataAtLowQuality with
      | .error _ => (some state, h)
      | .ok frame =>
        let (id, h) := h.alloc frame
        match updateLazyOutboundDeltaState h state id (lazyFrameEagerView frame) generation config
            now with
        | (.error _, h) => (some state, h)
        | (.ok state, h) => (some state, h)
  | none =>
    match LazyQualityFrame.new peerId 0 u.quality u.payload u.additionalData
        config.stripAdditionalDataAtLowQuality with
    | .error _ => (none, h)
    | .ok frame =>
      let (id, h) := h.alloc frame
      (some (initialState peerId u (lazyFrameEagerView frame) (some id) generation now), h)

/-- The same with all packets made at once. -/
def commitEager (peerId : PeerId) (state : Option PlayerAvatarState) (u : AvatarUpdate)
    (config : AvatarSyncConfig) (generation now : ℕ) : Option PlayerAvatarState :=
  match state with
  | some state =>
    if u.stale state then some state
    else
      let state := u.received state generation
      match buildQualityPackets peerId state.outboundSequence u.quality u.payload u.additionalData
          config.stripAdditionalDataAtLowQuality with
      | .error _ => some state
      | .ok qualities => some (updateOutboundDeltaState state qualities generation config now)
  | none =>
    match buildQualityPackets peerId 0 u.quality u.payload u.additionalData
        config.stripAdditionalDataAtLowQuality with
    | .error _ => none
    | .ok qualities => some (initialState peerId u qualities none generation now)

end BasisRust.Avatar
