import BasisRust.Avatar.Frames
import BasisRust.Library.Run

/-!
# Lazy frames are the eager packets

The server's lazy frames and the eager reference run side by side on the same updates, and receivers
ask any frame that was ever made for any quality at any time.  `made` and `madeDeltas` are history:
the eager packets of the update that made each lazy frame.
-/

namespace BasisRust.Avatar

open Library

structure Lockstep where
  heap : Heap
  lazy : Option PlayerAvatarState
  eager : Option PlayerAvatarState
  made : List (PerQuality (Option PreSerializedQuality))
  madeDeltas : List (PerQuality (Option PreSerializedDelta))

namespace Lockstep

def empty : Lockstep := ⟨⟨[], []⟩, none, none, [], []⟩

inductive Action where
  | update (u : AvatarUpdate) (config : AvatarSyncConfig) (generation now : ℕ)
  | demand (id : ℕ) (q : BitQuality)
  | demandDelta (id : ℕ) (q : BitQuality)

def update (peerId : PeerId) (s : Lockstep) (u : AvatarUpdate) (config : AvatarSyncConfig)
    (generation now : ℕ) : Lockstep :=
  let result := commitLazy peerId s.heap s.lazy u config generation now
  let eager := commitEager peerId s.eager u config generation now
  { heap := result.2
    lazy := result.1
    eager := eager
    made :=
      if s.heap.frames.length < result.2.frames.length then
        s.made ++ (eager.map (·.qualities)).toList
      else s.made
    madeDeltas :=
      if s.heap.deltas.length < result.2.deltas.length then
        s.madeDeltas ++ (eager.map (·.deltas)).toList
      else s.madeDeltas }

def step (peerId : PeerId) (s : Lockstep) : Action → Option Lockstep
  | .update u config generation now => some (s.update peerId u config generation now)
  | .demand id q =>
    if id < s.heap.frames.length then some { s with heap := (s.heap.quality id q).2 } else none
  | .demandDelta id q =>
    if id < s.heap.deltas.length then some { s with heap := (s.heap.deltaQuality id q).2 } else none

def system (peerId : PeerId) : System Lockstep Action where
  init s := s = empty
  step := step peerId

end Lockstep

/-! ### Frames -/

theorem quality_fst (frame : LazyQualityFrame) (q : BitQuality) :
    (frame.quality q).1 = (frame.qualities.get q).getD (frame.build q) := by
  rw [LazyQualityFrame.quality]
  cases frame.qualities.get q <;> rfl

/-- A packet that was not there is made and kept. -/
theorem quality_snd (frame : LazyQualityFrame) (q : BitQuality) :
    (frame.quality q).2 = frame ∨ (frame.quality q).2 =
        { frame with qualities := frame.qualities.set q (some (frame.quality q).1) } := by
  rw [LazyQualityFrame.quality]
  cases frame.qualities.get q with
  | some result => exact .inl rfl
  | none => exact .inr rfl

/-- Every quality of the frame is the eager packet. -/
def FrameAgrees (frame : LazyQualityFrame) (packets : PerQuality (Option PreSerializedQuality)) :
    Prop :=
  ∀ q, (frame.quality q).1 = .ok (packets.get q)

/-- Asking for a quality changes no answer. -/
theorem FrameAgrees.quality {frame : LazyQualityFrame}
    {packets : PerQuality (Option PreSerializedQuality)} (h : FrameAgrees frame packets)
    (q : BitQuality) : FrameAgrees (frame.quality q).2 packets := by
  rcases quality_snd frame q with heq | heq
  · rw [heq]
    exact h
  · rw [heq]
    intro q'
    rw [quality_fst, PerQuality.get_set]
    by_cases hq : q' = q
    · subst hq
      rw [if_pos rfl]
      exact h q'
    · rw [if_neg hq]
      have hq' := h q'
      rw [quality_fst] at hq'
      exact hq'

theorem quality_peerId (frame : LazyQualityFrame) (q : BitQuality) :
    (frame.quality q).2.peerId = frame.peerId := by
  rcases quality_snd frame q with heq | heq
  · rw [heq]
  · rw [heq]

variable (peerId : PeerId)

theorem packetPayload_preSerialize (sequence : Byte) {q : BitQuality} {payload : Bytes}
    (additional : Bytes) (hlen : payload.length = q.payloadLen) :
    packetPayload q (preSerialize peerId sequence q payload additional) = some payload := by
  have hrange : 3 + q.payloadLen ≤
      ([peerId.setWidth 8, 0, sequence] ++ payload ++ additional).length := by
    simp only [List.length_append, List.length_cons, List.length_nil, hlen]
    omega
  show getRange ([peerId.setWidth 8, 0, sequence] ++ payload ++ additional) 3 q.payloadLen = _
  rw [getRange, if_pos hrange, slice, List.append_assoc]
  show some ((payload ++ additional).take q.payloadLen) = _
  rw [← hlen, List.take_left]

/-- The frame of an update whose payload has the right length. -/
theorem new_eq (sequence : Byte) {quality : BitQuality} {payload : Bytes} (additional : Bytes)
    (strip : Bool) (hlen : payload.length = quality.payloadLen) :
    LazyQualityFrame.new peerId sequence quality payload additional strip =
      .ok ⟨peerId, sequence, quality, payload, stripAdditional strip quality additional, strip,
        (PerQuality.fill none).set quality (some (.ok (some (preSerialize peerId sequence quality
          payload (stripAdditional strip quality additional)))))⟩ := by
  have hpayload := packetPayload_preSerialize peerId sequence
    (stripAdditional strip quality additional) hlen
  rw [LazyQualityFrame.new]
  by_cases hquality : quality = .high
  · subst hquality
    have hlong : ¬ payload.length < BitQuality.high.payloadLen := by omega
    have hvalid : ∀ target : BitQuality, target ≠ .high →
        validateRepackPreconditions payload.length target target.payloadLen = .ok () := by
      intro target htarget
      rw [validateRepackPreconditions, if_neg htarget, if_neg hlong, if_neg (Nat.lt_irrefl _)]
    rw [if_pos rfl, if_neg hlong]
    simp only [List.forIn_cons, List.forIn_nil, hvalid .medium (by decide),
      hvalid .low (by decide), hvalid .veryLow (by decide), bind, pure, Except.bind, Except.pure]
    rw [hpayload]
    rfl
  · rw [if_neg hquality]
    dsimp only
    rw [hpayload]
    rfl

theorem stripAdditional_high (strip : Bool) (additional : Bytes) :
    stripAdditional strip .high additional = additional := by
  cases strip <;> rfl

/-- A frame that is not of high quality has one packet. -/
theorem new_agrees_of_ne_high (sequence : Byte) {quality : BitQuality} (hquality : quality ≠ .high)
    (payload additional : Bytes) (strip : Bool) (packet : PreSerializedQuality) :
    FrameAgrees ⟨peerId, sequence, quality, payload, additional, strip,
        (PerQuality.fill none).set quality (some (.ok (some packet)))⟩
      ((PerQuality.fill none).set quality (some packet)) := by
  intro q
  rw [quality_fst]
  dsimp only
  rw [PerQuality.get_set, PerQuality.get_set]
  by_cases hq : q = quality
  · rw [if_pos hq, if_pos hq]
    rfl
  · rw [if_neg hq, if_neg hq, PerQuality.get_fill, PerQuality.get_fill]
    show LazyQualityFrame.build _ q = _
    rw [LazyQualityFrame.build, if_pos]
    simp [hquality]

/-- Every packet holds an avatar payload of its quality. -/
def Full (packets : PerQuality (Option PreSerializedQuality)) : Prop :=
  ∀ q packet, packets.get q = some packet → ∃ payload, packetPayload q packet = some payload

/-- **A new frame agrees** with the packets the eager builder makes of the same update. -/
theorem new_agrees (sequence : Byte) (u : AvatarUpdate) (strip : Bool) :
    ∃ frame packets,
      LazyQualityFrame.new peerId sequence u.quality u.payload u.additionalData strip = .ok frame ∧
      buildQualityPackets peerId sequence u.quality u.payload u.additionalData strip = .ok packets ∧
      FrameAgrees frame packets ∧ Full packets ∧ frame.peerId = peerId := by
  obtain ⟨inbound, quality, payload, additional, hlen⟩ := u
  by_cases hquality : quality = .high
  · subst hquality
    have hlong : BitQuality.high.payloadLen ≤ payload.length := Nat.le_of_eq hlen.symm
    obtain ⟨medium, hmedium, hmediumLen⟩ :=
      Repack.repack_ok hlong (show BitQuality.medium ≠ .high by decide)
    obtain ⟨low, hlow, hlowLen⟩ := Repack.repack_ok hlong (show BitQuality.low ≠ .high by decide)
    obtain ⟨veryLow, hveryLow, hveryLowLen⟩ :=
      Repack.repack_ok hlong (show BitQuality.veryLow ≠ .high by decide)
    have hbuild : ∀ (q : BitQuality) repacked, q ≠ .high →
        Repack.repackHighToLowerInto payload q (List.replicate q.payloadLen 0) = .ok repacked →
        ∀ qualities, LazyQualityFrame.build ⟨peerId, sequence, .high, payload,
          stripAdditional strip .high additional, strip, qualities⟩ q =
            .ok (some (preSerialize peerId sequence q repacked
              (stripAdditional strip q additional))) := by
      intro q repacked hq hrepack qualities
      rw [LazyQualityFrame.build, if_neg (by simp [hq])]
      show (do let repacked ← Repack.repackHighToLowerInto payload q _; _) = _
      rw [hrepack, stripAdditional_high]
      rfl
    refine ⟨_, ⟨some (preSerialize peerId sequence .veryLow veryLow
        (stripAdditional strip .veryLow additional)),
      some (preSerialize peerId sequence .low low (stripAdditional strip .low additional)),
      some (preSerialize peerId sequence .medium medium (stripAdditional strip .medium additional)),
      some (preSerialize peerId sequence .high payload (stripAdditional strip .high additional))⟩,
      new_eq peerId sequence additional strip hlen, ?_, ?_, ?_, rfl⟩
    · rw [buildQualityPackets]
      simp only [hmedium, hlow, hveryLow]
      rfl
    · intro q
      rw [quality_fst]
      cases q with
      | high => rfl
      | medium => exact hbuild .medium medium (by decide) hmedium _
      | low => exact hbuild .low low (by decide) hlow _
      | veryLow => exact hbuild .veryLow veryLow (by decide) hveryLow _
    · intro q packet hpacket
      cases q with
      | high =>
        cases hpacket
        exact ⟨_, packetPayload_preSerialize _ _ _ hlen⟩
      | medium =>
        cases hpacket
        exact ⟨_, packetPayload_preSerialize _ _ _ hmediumLen⟩
      | low =>
        cases hpacket
        exact ⟨_, packetPayload_preSerialize _ _ _ hlowLen⟩
      | veryLow =>
        cases hpacket
        exact ⟨_, packetPayload_preSerialize _ _ _ hveryLowLen⟩
  · refine ⟨_, (PerQuality.fill none).set quality (some _),
      new_eq peerId sequence additional strip hlen, ?_,
      new_agrees_of_ne_high peerId sequence hquality _ _ _ _, fun q packet hpacket => ?_, rfl⟩
    · cases quality with
      | high => exact absurd rfl hquality
      | _ => rfl
    · rw [PerQuality.get_set] at hpacket
      split_ifs at hpacket with hq
      · cases hpacket
        rw [hq]
        exact ⟨_, packetPayload_preSerialize _ _ _ hlen⟩
      · rw [PerQuality.get_fill] at hpacket
        cases hpacket

/-! ### The heap -/

/-- Every frame of the heap agrees with its eager packets. -/
structure HeapAgrees (peerId : PeerId) (h : Heap)
    (made : List (PerQuality (Option PreSerializedQuality))) : Prop where
  length : h.frames.length = made.length
  frame : ∀ (id : ℕ) frame packets, h.frames[id]? = some frame → made[id]? = some packets →
    FrameAgrees frame packets ∧ frame.peerId = peerId

section Heap

variable {peerId : PeerId} {h : Heap} {made : List (PerQuality (Option PreSerializedQuality))}
  {id : ℕ} {packets : PerQuality (Option PreSerializedQuality)}

section

variable (hh : HeapAgrees peerId h made)
include hh

section

variable (hid : made[id]? = some packets)
include hid

theorem HeapAgrees.get : ∃ frame, h.frames[id]? = some frame := by
  have hlt : id < made.length := (List.getElem?_eq_some_iff.mp hid).1
  rw [← hh.length] at hlt
  exact ⟨_, List.getElem?_eq_getElem hlt⟩

/-- **A demand is answered with the eager packet**, and all frames still agree. -/
theorem HeapAgrees.quality (q : BitQuality) :
    (h.quality id q).1 = .ok (packets.get q) ∧ HeapAgrees peerId (h.quality id q).2 made ∧
      (h.quality id q).2.deltas = h.deltas := by
  obtain ⟨frame, hframe⟩ := hh.get hid
  obtain ⟨hagrees, hpeer⟩ := hh.frame id frame packets hframe hid
  have heq : h.quality id q =
      ((frame.quality q).1, { h with frames := h.frames.set id (frame.quality q).2 }) := by
    rw [Heap.quality, hframe]
  rw [heq]
  refine ⟨hagrees q,
    ⟨by rw [← hh.length]; exact List.length_set, fun id' frame' packets' hf hp => ?_⟩, rfl⟩
  have hset : (h.frames.set id (frame.quality q).2)[id']? = some frame' := hf
  rw [List.getElem?_set] at hset
  by_cases hid' : id = id'
  · subst hid'
    rw [hid] at hp
    cases hp
    rw [if_pos rfl] at hset
    have hlt : id < h.frames.length := (List.getElem?_eq_some_iff.mp hframe).1
    rw [if_pos hlt] at hset
    cases hset
    exact ⟨hagrees.quality q, (quality_peerId frame q).trans hpeer⟩
  · rw [if_neg hid'] at hset
    exact hh.frame id' frame' packets' hset hp

theorem HeapAgrees.payload (q : BitQuality) :
    (h.payload id q).1 = .ok ((qualityPayloads packets).get q) ∧
      HeapAgrees peerId (h.payload id q).2 made ∧ (h.payload id q).2.deltas = h.deltas := by
  obtain ⟨hresult, hheap, hdeltas⟩ := hh.quality hid q
  refine ⟨?_, hheap, hdeltas⟩
  show (do return (← (h.quality id q).1).bind (packetPayload q)) = _
  rw [hresult, qualityPayloads, PerQuality.get_ofFn]
  rfl

end

theorem HeapAgrees.alloc {frame : LazyQualityFrame} (hframe : FrameAgrees frame packets)
    (hpeer : frame.peerId = peerId) : HeapAgrees peerId (h.alloc frame).2 (made ++ [packets]) := by
  refine ⟨?_, fun id' frame' packets' hf hp => ?_⟩
  · show (h.frames ++ [frame]).length = _
    rw [List.length_append, List.length_append, hh.length]
    rfl
  · have hf' : (h.frames ++ [frame])[id']? = some frame' := hf
    by_cases hlt : id' < made.length
    · rw [List.getElem?_append_left hlt] at hp
      rw [List.getElem?_append_left (hh.length ▸ hlt)] at hf'
      exact hh.frame id' frame' packets' hf' hp
    · rw [List.getElem?_append_right (Nat.le_of_not_lt hlt), List.getElem?_singleton] at hp
      rw [List.getElem?_append_right (hh.length ▸ Nat.le_of_not_lt hlt), List.getElem?_singleton,
        hh.length] at hf'
      split_ifs at hp hf' with hzero
      cases hp
      cases hf'
      exact ⟨hframe, hpeer⟩

end

end Heap

/-! ### Deltas -/

/-- The delta of a quality between two sets of eager packets. -/
def deltaOf (peerId : PeerId) (sequence base : Byte)
    (baseline current : PerQuality (Option PreSerializedQuality)) (q : BitQuality) :
    Option PreSerializedDelta :=
  (buildDeltaPackets peerId sequence base (qualityPayloads baseline)
    (qualityPayloads current) current
    none).get q

/-- The high delta that was made for the decision is the one that would be made again. -/
theorem buildDeltaPackets_get (sequence base : Byte)
    (baseline current : PerQuality (Option PreSerializedQuality)) {b c highDelta : Bytes}
    (hb : (qualityPayloads baseline).get .high = some b)
    (hc : (qualityPayloads current).get .high = some c)
    (hdelta : buildDelta b c .high = .ok highDelta) (q : BitQuality) :
    (buildDeltaPackets peerId sequence base (qualityPayloads baseline) (qualityPayloads current)
      current (some highDelta)).get q = deltaOf peerId sequence base baseline current q := by
  rw [deltaOf, buildDeltaPackets, buildDeltaPackets, PerQuality.get_ofFn, PerQuality.get_ofFn]
  cases q with
  | high =>
    simp [hb, hc, hdelta, Except.toOption]
  | _ => rfl

structure DeltaAgrees (peerId : PeerId) (made : List (PerQuality (Option PreSerializedQuality)))
    (frame : LazyDeltaFrame) (packets : PerQuality (Option PreSerializedDelta)) : Prop where
  peer : frame.peerId = peerId
  frames : ∃ b c, made[frame.baseline]? = some b ∧ made[frame.current]? = some c ∧
    ∀ q, packets.get q = deltaOf frame.peerId frame.outboundSequence frame.baseSequence b c q
  kept : ∀ q result, frame.deltas.get q = some result → result = packets.get q

/-- Every delta frame of the heap agrees with its eager packets. -/
structure DeltasAgree (peerId : PeerId) (made : List (PerQuality (Option PreSerializedQuality)))
    (deltas : List LazyDeltaFrame) (madeDeltas : List (PerQuality (Option PreSerializedDelta))) :
    Prop where
  length : deltas.length = madeDeltas.length
  frame : ∀ (id : ℕ) frame packets, deltas[id]? = some frame → madeDeltas[id]? = some packets →
    DeltaAgrees peerId made frame packets

section Deltas

variable {peerId : PeerId} {h : Heap} {made : List (PerQuality (Option PreSerializedQuality))}
  {madeDeltas : List (PerQuality (Option PreSerializedDelta))}

/-- A delta that is made now is the eager one. -/
theorem HeapAgrees.buildDelta (hh : HeapAgrees peerId h made) {frame : LazyDeltaFrame}
    {b c : PerQuality (Option PreSerializedQuality)} (hb : made[frame.baseline]? = some b)
    (hc : made[frame.current]? = some c) (q : BitQuality) :
    (h.buildDelta frame q).1 =
        deltaOf frame.peerId frame.outboundSequence frame.baseSequence b c q ∧
      HeapAgrees peerId (h.buildDelta frame q).2 made ∧
      (h.buildDelta frame q).2.deltas = h.deltas := by
  obtain ⟨hbase, hheap₁, hdeltas₁⟩ := hh.payload hb q
  obtain ⟨hcurrent, hheap₂, hdeltas₂⟩ := hheap₁.payload hc q
  obtain ⟨hpacket, hheap₃, hdeltas₃⟩ := hheap₂.quality hc q
  have heq₁ : h.payload frame.baseline q = (.ok ((qualityPayloads b).get q), _) :=
    Prod.ext hbase rfl
  have heq₂ : (h.payload frame.baseline q).2.payload frame.current q =
      (.ok ((qualityPayloads c).get q), _) := Prod.ext hcurrent rfl
  have heq₃ : ((h.payload frame.baseline q).2.payload frame.current q).2.quality frame.current q =
      (.ok (c.get q), _) := Prod.ext hpacket rfl
  rw [deltaOf, buildDeltaPackets, PerQuality.get_ofFn]
  -- the same failures, in the same order, on both sides
  cases hbq : (qualityPayloads b).get q with
  | none =>
    rw [hbq] at heq₁
    rw [Heap.buildDelta, heq₁]
    exact ⟨rfl, hheap₁, hdeltas₁⟩
  | some baseline =>
    rw [hbq] at heq₁
    cases hcq : (qualityPayloads c).get q with
    | none =>
      rw [hcq] at heq₂
      rw [Heap.buildDelta, heq₁]
      dsimp only
      rw [heq₂]
      exact ⟨rfl, hheap₂, hdeltas₂.trans hdeltas₁⟩
    | some current =>
      rw [hcq] at heq₂
      cases hbody : Avatar.buildDelta baseline current q with
      | error e =>
        rw [Heap.buildDelta, heq₁]
        dsimp only
        rw [heq₂]
        simp only [hbody]
        refine ⟨?_, hheap₂, hdeltas₂.trans hdeltas₁⟩
        cases q <;> simp [hbody, Except.toOption]
      | ok body =>
        rw [Heap.buildDelta, heq₁]
        dsimp only
        rw [heq₂]
        simp only [hbody]
        rw [heq₃]
        refine ⟨?_, hheap₃, hdeltas₃.trans (hdeltas₂.trans hdeltas₁)⟩
        cases q <;> simp [hbody, Except.toOption]

/-- **A demand for a delta is answered with the eager one**, and everything still agrees. -/
theorem HeapAgrees.deltaQuality (hh : HeapAgrees peerId h made)
    (hd : DeltasAgree peerId made h.deltas madeDeltas) {id : ℕ}
    {packets : PerQuality (Option PreSerializedDelta)} (hid : madeDeltas[id]? = some packets)
    (q : BitQuality) :
    (h.deltaQuality id q).1 = packets.get q ∧
      HeapAgrees peerId (h.deltaQuality id q).2 made ∧
      DeltasAgree peerId made (h.deltaQuality id q).2.deltas madeDeltas := by
  have hlt : id < h.deltas.length := by
    rw [hd.length]
    exact (List.getElem?_eq_some_iff.mp hid).1
  obtain ⟨frame, hframe⟩ : ∃ frame, h.deltas[id]? = some frame := ⟨_, List.getElem?_eq_getElem hlt⟩
  have hagrees := hd.frame id frame packets hframe hid
  obtain ⟨b, c, hb, hc, hpackets⟩ := hagrees.frames
  rw [Heap.deltaQuality, hframe]
  dsimp only
  cases hkept : frame.deltas.get q with
  | some result => exact ⟨hagrees.kept q result hkept, hh, hd⟩
  | none =>
    obtain ⟨hbuilt, hheap, hdeltas⟩ := hh.buildDelta hb hc q
    rw [← hpackets q] at hbuilt
    refine ⟨hbuilt, ⟨hheap.length, hheap.frame⟩, ?_, fun id' frame' packets' hf hp => ?_⟩
    · show ((h.buildDelta frame q).2.deltas.set id _).length = _
      rw [List.length_set, hdeltas, hd.length]
    · have hset : ((h.buildDelta frame q).2.deltas.set id
          { frame with deltas := frame.deltas.set q (some (h.buildDelta frame q).1) })[id']? =
          some frame' := hf
      rw [hdeltas, List.getElem?_set] at hset
      by_cases hid' : id = id'
      · subst hid'
        rw [hid] at hp
        cases hp
        rw [if_pos rfl, if_pos hlt] at hset
        cases hset
        refine ⟨hagrees.peer, hagrees.frames, fun q' result hq' => ?_⟩
        rw [PerQuality.get_set] at hq'
        split_ifs at hq' with heq
        · cases hq'
          rw [heq]
          exact hbuilt
        · exact hagrees.kept q' result hq'
      · rw [if_neg hid'] at hset
        exact hd.frame id' frame' packets' hset hp

theorem getElem?_append_of_some {α : Type} {l : List α} {i : ℕ} {x : α} (h : l[i]? = some x)
    (l' : List α) : (l ++ l')[i]? = some x := by
  rw [List.getElem?_append_left (List.getElem?_eq_some_iff.mp h).1]
  exact h

theorem DeltasAgree.append (hd : DeltasAgree peerId made h.deltas madeDeltas)
    (packets : PerQuality (Option PreSerializedQuality)) :
    DeltasAgree peerId (made ++ [packets]) h.deltas madeDeltas := by
  refine ⟨hd.length, fun id frame packets' hf hp => ?_⟩
  obtain ⟨hpeer, ⟨b, c, hb, hc, hpackets⟩, hkept⟩ := hd.frame id frame packets' hf hp
  exact ⟨hpeer, ⟨b, c, getElem?_append_of_some hb _, getElem?_append_of_some hc _, hpackets⟩, hkept⟩

end Deltas

/-! ### Decisions -/

/-- The two states made the same decisions. -/
structure SameDecisions (l e : PlayerAvatarState) : Prop where
  peerId : l.peerId = e.peerId
  generation : l.generation = e.generation
  lastInboundSequence : l.lastInboundSequence = e.lastInboundSequence
  outboundSequence : l.outboundSequence = e.outboundSequence
  hasReceivedFirst : l.hasReceivedFirst = e.hasReceivedFirst
  keyframeGeneration : l.keyframeGeneration = e.keyframeGeneration
  keyframeSequence : l.keyframeSequence = e.keyframeSequence
  lastKeyframe : l.lastKeyframe = e.lastKeyframe
  keyframeStretchShift : l.keyframeStretchShift = e.keyframeStretchShift
  smallDeltaStreak : l.smallDeltaStreak = e.smallDeltaStreak
  currentIsKeyframe : l.currentIsKeyframe = e.currentIsKeyframe

/-- The state with other stretch counters. -/
def PlayerAvatarState.withStretch (state : PlayerAvatarState) (stretch : ℕ × ℕ) :
    PlayerAvatarState :=
  { state with keyframeStretchShift := stretch.1, smallDeltaStreak := stretch.2 }

theorem withStretch_self (state : PlayerAvatarState) :
    state.withStretch (state.keyframeStretchShift, state.smallDeltaStreak) = state := rfl

/-- The stretch counters after an update depend only on those before it. -/
theorem updateKeyframeStretch_eq (config : AvatarSyncConfig) (len : ℕ) (stretch : ℕ × ℕ) :
    ∃ stretch', ∀ state : PlayerAvatarState,
      updateKeyframeStretch (state.withStretch stretch) config len =
        state.withStretch stretch' := by
  obtain ⟨shift, streak⟩ := stretch
  by_cases hlen : smallHighDeltaBytes < len
  · refine ⟨(0, 0), fun state => ?_⟩
    rw [updateKeyframeStretch, if_pos hlen]
    rfl
  · by_cases hsame : effectiveKeyframeIntervalMs config (saturatingSucc shift) =
        effectiveKeyframeIntervalMs config shift
    · refine ⟨(shift, streak), fun state => ?_⟩
      rw [updateKeyframeStretch, if_neg hlen]
      exact if_pos hsame
    · by_cases hstreak : smallDeltaStreakToStretch ≤ saturatingSucc streak
      · refine ⟨(saturatingSucc shift, 0), fun state => ?_⟩
        rw [updateKeyframeStretch, if_neg hlen]
        exact (if_neg hsame).trans (if_pos hstreak)
      · refine ⟨(shift, saturatingSucc streak), fun state => ?_⟩
        rw [updateKeyframeStretch, if_neg hlen]
        exact (if_neg hsame).trans (if_neg hstreak)

/-- So does the fate of the high delta. -/
theorem highDeltaOrKeyframe_eq (config : AvatarSyncConfig) (baseline current : Option Bytes)
    (stretch : ℕ × ℕ) :
    ∃ delta stretch', (∀ state : PlayerAvatarState,
      highDeltaOrKeyframe (state.withStretch stretch) config baseline current =
        (delta, state.withStretch stretch')) ∧
      ∀ d, delta = some d → ∃ b c, baseline = some b ∧ current = some c ∧
        buildDelta b c .high = .ok d := by
  cases baseline with
  | none => exact ⟨none, stretch, fun state => rfl, nofun⟩
  | some b =>
    cases current with
    | none => exact ⟨none, stretch, fun state => rfl, nofun⟩
    | some c =>
      cases hdelta : buildDelta b c .high with
      | error e =>
        refine ⟨none, (0, 0), fun state => ?_, nofun⟩
        simp only [highDeltaOrKeyframe, hdelta]
        rfl
      | ok d =>
        by_cases hlen : d.length < BitQuality.high.payloadLen
        · obtain ⟨stretch', hstretch⟩ := updateKeyframeStretch_eq config d.length stretch
          refine ⟨some d, stretch', fun state => ?_, fun d' hd' => ?_⟩
          · simp only [highDeltaOrKeyframe, hdelta]
            rw [if_pos hlen, hstretch]
          · cases hd'
            exact ⟨b, c, rfl, rfl, hdelta⟩
        · refine ⟨none, (0, 0), fun state => ?_, nofun⟩
          simp only [highDeltaOrKeyframe, hdelta]
          rw [if_neg hlen]
          rfl

/-! ### States -/

structure StateAgrees (peerId : PeerId) (made : List (PerQuality (Option PreSerializedQuality)))
    (madeDeltas : List (PerQuality (Option PreSerializedDelta))) (l e : PlayerAvatarState) :
    Prop where
  same : SameDecisions l e
  peer : e.peerId = peerId
  current : ∃ id, l.lazyCurrent = some id ∧ made[id]? = some e.qualities
  keyframe : ∃ id, l.lazyKeyframe = some id ∧ made[id]? = some e.keyframeQualities
  payloads : e.keyframePayloads = qualityPayloads e.keyframeQualities
  full : Full e.keyframeQualities
  deltas : match l.lazyDeltas with
    | none => e.deltas = .fill none
    | some id => madeDeltas[id]? = some e.deltas

section States

variable {peerId : PeerId} {h : Heap} {made : List (PerQuality (Option PreSerializedQuality))}
  {madeDeltas : List (PerQuality (Option PreSerializedDelta))} {l e : PlayerAvatarState}

/-- A keyframe packet is there if and only if its payload is. -/
theorem StateAgrees.isNone_payload (h : StateAgrees peerId made madeDeltas l e) :
    (e.keyframePayloads.get .high).isNone = (e.keyframeQualities.get .high).isNone := by
  rw [h.payloads, qualityPayloads, PerQuality.get_ofFn]
  cases hpacket : e.keyframeQualities.get .high with
  | none => rfl
  | some packet =>
    obtain ⟨payload, hpayload⟩ := h.full .high packet hpacket
    show (packetPayload .high packet).isNone = false
    rw [hpayload]
    rfl

theorem keyframeDue_eq (h : SameDecisions l e) (config : AvatarSyncConfig) (now : ℕ) :
    keyframeDue l config now = keyframeDue e config now := by
  rw [keyframeDue, keyframeDue, h.keyframeStretchShift, h.lastKeyframe]

section

variable (hs : StateAgrees peerId made madeDeltas l e)
include hs

/-- The two decide alike about keyframe and high delta. -/
theorem lazyHighDelta_eq
    (hh : HeapAgrees peerId h made) (currentPayload : Option Bytes)
    (config : AvatarSyncConfig) (now : ℕ) :
    ∃ delta stretch h',
      lazyHighDelta h l currentPayload config now = (.ok (delta, l.withStretch stretch), h') ∧
      eagerHighDelta e currentPayload config now = (delta, e.withStretch stretch) ∧
      HeapAgrees peerId h' made ∧ h'.deltas = h.deltas ∧
      ∀ d, delta = some d → ∃ b c, e.keyframePayloads.get .high = some b ∧
        currentPayload = some c ∧ buildDelta b c .high = .ok d := by
  have hl : l = l.withStretch (e.keyframeStretchShift, e.smallDeltaStreak) := by
    rw [← hs.same.keyframeStretchShift, ← hs.same.smallDeltaStreak]
    rfl
  obtain ⟨id, hid, hmade⟩ := hs.keyframe
  by_cases henabled : config.enableDeltaCompression = true
  swap
  · refine ⟨none, (e.keyframeStretchShift, e.smallDeltaStreak), h, ?_, ?_, hh, rfl,
      fun _ hd => by cases hd⟩
    · rw [lazyHighDelta, if_pos (by simp [henabled]), ← hl]
    · rw [eagerHighDelta, if_pos (by simp [henabled])]
      rfl
  obtain ⟨hpacket, hheap₁, hdeltas₁⟩ := hh.quality hmade .high
  have hkeyframe : keyframePacket h l =
      (e.keyframeQualities.get .high, (h.quality id .high).2) := by
    have heq : h.quality id .high = (.ok (e.keyframeQualities.get .high), _) := Prod.ext hpacket rfl
    rw [keyframePacket, hid]
    dsimp only
    rw [heq]
  have heager : eagerHighDelta e currentPayload config now =
      if (e.keyframeQualities.get .high).isNone || keyframeDue l config now then (none, e)
      else highDeltaOrKeyframe e config (e.keyframePayloads.get .high) currentPayload := by
    rw [eagerHighDelta, hs.isNone_payload, keyframeDue_eq hs.same]
    simp only [henabled, Bool.not_true, Bool.false_or]
  rw [lazyHighDelta, if_neg (by simp [henabled]), hkeyframe, heager]
  dsimp only
  by_cases hkey : ((e.keyframeQualities.get .high).isNone || keyframeDue l config now) = true
  · refine ⟨none, (e.keyframeStretchShift, e.smallDeltaStreak), (h.quality id .high).2, ?_,
      ?_, hheap₁, hdeltas₁, fun _ hd => by cases hd⟩
    · rw [if_pos hkey, ← hl]
    · rw [if_pos hkey]
      rfl
  · rw [if_neg hkey, if_neg hkey]
    obtain ⟨hpayload, hheap₂, hdeltas₂⟩ := hheap₁.payload hmade .high
    rw [← hs.payloads] at hpayload
    have hbaseline : keyframePayload (h.quality id .high).2 l =
        (.ok (e.keyframePayloads.get .high), ((h.quality id .high).2.payload id .high).2) := by
      rw [keyframePayload, hid]
      exact Prod.ext hpayload rfl
    obtain ⟨delta, stretch, hdelta, hsome⟩ := highDeltaOrKeyframe_eq config
      (e.keyframePayloads.get .high) currentPayload (e.keyframeStretchShift, e.smallDeltaStreak)
    refine ⟨delta, stretch, ((h.quality id .high).2.payload id .high).2, ?_, ?_, hheap₂,
      hdeltas₂.trans hdeltas₁, hsome⟩
    · rw [hbaseline]
      dsimp only
      rw [hl, hdelta]
      rfl
    · exact hdelta e

theorem StateAgrees.append (packets : PerQuality (Option PreSerializedQuality)) :
    StateAgrees peerId (made ++ [packets]) madeDeltas l e := by
  obtain ⟨id, hid, hcurrent⟩ := hs.current
  obtain ⟨id', hid', hkeyframe⟩ := hs.keyframe
  exact ⟨hs.same, hs.peer, ⟨id, hid, getElem?_append_of_some hcurrent _⟩,
    ⟨id', hid', getElem?_append_of_some hkeyframe _⟩, hs.payloads, hs.full, hs.deltas⟩

theorem StateAgrees.withStretch (stretch : ℕ × ℕ) :
    StateAgrees peerId made madeDeltas (l.withStretch stretch) (e.withStretch stretch) :=
  ⟨⟨hs.same.peerId, hs.same.generation, hs.same.lastInboundSequence, hs.same.outboundSequence,
    hs.same.hasReceivedFirst, hs.same.keyframeGeneration, hs.same.keyframeSequence,
    hs.same.lastKeyframe, rfl, rfl, hs.same.currentIsKeyframe⟩, hs.peer, hs.current, hs.keyframe,
    hs.payloads, hs.full, hs.deltas⟩

theorem StateAgrees.received (u : AvatarUpdate)
    (generation : ℕ) :
    StateAgrees peerId made madeDeltas (u.received l generation) (u.received e generation) :=
  ⟨⟨hs.same.peerId, rfl, rfl, congrArg (· + 1) hs.same.outboundSequence, rfl,
    hs.same.keyframeGeneration, hs.same.keyframeSequence, hs.same.lastKeyframe,
    hs.same.keyframeStretchShift, hs.same.smallDeltaStreak, hs.same.currentIsKeyframe⟩, hs.peer,
    hs.current, hs.keyframe, hs.payloads, hs.full, hs.deltas⟩

theorem StateAgrees.stale (u : AvatarUpdate) : u.stale l = u.stale e := by
  rw [AvatarUpdate.stale, AvatarUpdate.stale, hs.same.lastInboundSequence, hs.same.hasReceivedFirst]

end

/-- The heap has grown by the delta frame, or is as it was. -/
theorem HeapAgrees.allocDelta (hh : HeapAgrees peerId h made)
    (hd : DeltasAgree peerId made h.deltas madeDeltas) {current baseline : ℕ}
    {b c : PerQuality (Option PreSerializedQuality)} (hb : made[baseline]? = some b)
    (hc : made[current]? = some c) (sequence base : Byte) {highDelta : Bytes}
    {packets : PerQuality (Option PreSerializedDelta)}
    (hpackets : ∀ q, packets.get q = deltaOf peerId sequence base b c q)
    (hhigh : packets.get .high = some (preSerializeDelta peerId sequence base .high highDelta
      (((c.get .high).map (·.additionalData)).getD []))) :
    ∃ h', h.allocDelta current baseline sequence base highDelta = (.ok h.deltas.length, h') ∧
      HeapAgrees peerId h' made ∧ h'.frames.length = h.frames.length ∧
      h'.deltas.length = h.deltas.length + 1 ∧
      DeltasAgree peerId made h'.deltas (madeDeltas ++ [packets]) := by
  obtain ⟨hpacket, hheap, hdeltas⟩ := hh.quality hc .high
  have heq : h.quality current .high = (.ok (c.get .high), _) := Prod.ext hpacket rfl
  obtain ⟨frame, hframe⟩ := hheap.get hc
  have hpeer := (hheap.frame current frame c hframe hc).2
  have hpeerId : ((h.quality current .high).2.frames[current]?.map (·.peerId)).getD 0 = peerId := by
    rw [hframe]
    exact hpeer
  refine ⟨{ (h.quality current .high).2 with
    deltas := h.deltas ++ [⟨peerId, current, baseline, sequence, base,
      (PerQuality.fill none).set .high (some (some (preSerializeDelta peerId sequence base .high
        highDelta (((c.get .high).map (·.additionalData)).getD []))))⟩] }, ?_,
    ⟨hheap.length, hheap.frame⟩, hheap.length.trans hh.length.symm, ?_, ?_, ?_⟩
  · rw [Heap.allocDelta, heq]
    simp only [hpeerId, hdeltas]
  · exact List.length_append
  · show (h.deltas ++ [_]).length = (madeDeltas ++ [packets]).length
    rw [List.length_append, List.length_append, hd.length]
    rfl
  · intro id frame' packets' hf hp
    have hf' : (h.deltas ++ [_])[id]? = some frame' := hf
    by_cases hlt : id < madeDeltas.length
    · rw [List.getElem?_append_left hlt] at hp
      rw [List.getElem?_append_left (hd.length ▸ hlt)] at hf'
      exact hd.frame id frame' packets' hf' hp
    · rw [List.getElem?_append_right (Nat.le_of_not_lt hlt), List.getElem?_singleton] at hp
      rw [List.getElem?_append_right (hd.length ▸ Nat.le_of_not_lt hlt), List.getElem?_singleton,
        hd.length] at hf'
      split_ifs at hp hf' with hzero
      cases hp
      cases hf'
      refine ⟨rfl, ⟨b, c, hb, hc, hpackets⟩, fun q result hq => ?_⟩
      rw [PerQuality.get_set] at hq
      split_ifs at hq with hqh
      · cases hq
        rw [hqh]
        exact hhigh.symm
      · rw [PerQuality.get_fill] at hq
        cases hq

/-- Everything agrees after an update that made the frame `current`. -/
structure Updated (peerId : PeerId) (made : List (PerQuality (Option PreSerializedQuality)))
    (h h' : Heap) (madeDeltas : List (PerQuality (Option PreSerializedDelta)))
    (l e : PlayerAvatarState) : Prop where
  heap : HeapAgrees peerId h' made
  frames : h'.frames.length = h.frames.length
  deltas : ∃ madeDeltas', madeDeltas' = (if h.deltas.length < h'.deltas.length then
      madeDeltas ++ [e.deltas] else madeDeltas) ∧
    DeltasAgree peerId made h'.deltas madeDeltas' ∧ StateAgrees peerId made madeDeltas' l e

/-- **The lazy update follows the eager one.** -/
theorem updateLazyOutboundDeltaState_eq (hs : StateAgrees peerId made madeDeltas l e)
    (hh : HeapAgrees peerId h made) (hd : DeltasAgree peerId made h.deltas madeDeltas)
    {current : ℕ} {packets : PerQuality (Option PreSerializedQuality)}
    (hcurrent : made[current]? = some packets) (hfull : Full packets)
    (view : PerQuality (Option PreSerializedQuality)) (generation : ℕ)
    (config : AvatarSyncConfig) (now : ℕ) :
    ∃ l' h', updateLazyOutboundDeltaState h l current view generation config now = (.ok l', h') ∧
      Updated peerId made h h' madeDeltas l'
        (updateOutboundDeltaState e packets generation config now) := by
  obtain ⟨hpayload, hheap₁, hdeltas₁⟩ := hh.payload hcurrent .high
  have hpayload' : h.payload current .high =
      (.ok ((qualityPayloads packets).get .high), _) := Prod.ext hpayload rfl
  obtain ⟨delta, stretch, h₂, hlazy, heager, hheap₂, hdeltas₂, hsome⟩ :=
    lazyHighDelta_eq hs hheap₁ ((qualityPayloads packets).get .high) config now
  have hdeltas : h₂.deltas = h.deltas := hdeltas₂.trans hdeltas₁
  have hframes : h₂.frames.length = h.frames.length := hheap₂.length.trans hh.length.symm
  have hs₂ := hs.withStretch stretch
  rw [updateLazyOutboundDeltaState, hpayload']
  dsimp only
  rw [hlazy, updateOutboundDeltaState, heager]
  cases delta with
  | none =>
    refine ⟨_, h₂, rfl, hheap₂, hframes, madeDeltas, ?_, ?_, ?_⟩
    · rw [hdeltas, if_neg (Nat.lt_irrefl _)]
    · rw [hdeltas]
      exact hd
    · exact ⟨⟨hs₂.same.peerId, hs₂.same.generation, hs₂.same.lastInboundSequence,
        hs₂.same.outboundSequence, hs₂.same.hasReceivedFirst, rfl, hs₂.same.outboundSequence,
        rfl, rfl, rfl, rfl⟩, hs₂.peer, ⟨current, rfl, hcurrent⟩, ⟨current, rfl, hcurrent⟩, rfl,
        hfull, rfl⟩
  | some d =>
    obtain ⟨id, hid, hkeyframe⟩ := hs₂.keyframe
    obtain ⟨b, c, hb, hc, hbuild⟩ := hsome d rfl
    have hb' : (qualityPayloads e.keyframeQualities).get .high = some b := hs.payloads ▸ hb
    have hd₂ : DeltasAgree peerId made h₂.deltas madeDeltas := hdeltas ▸ hd
    have hdeltasGet : ∀ q, (buildDeltaPackets e.peerId e.outboundSequence e.keyframeSequence
        e.keyframePayloads (qualityPayloads packets) packets (some d)).get q =
        deltaOf peerId e.outboundSequence e.keyframeSequence e.keyframeQualities packets q := by
      intro q
      rw [hs.payloads, hs.peer]
      exact buildDeltaPackets_get _ _ _ _ _ hb' hc hbuild q
    have hhigh : (buildDeltaPackets e.peerId e.outboundSequence e.keyframeSequence
        e.keyframePayloads (qualityPayloads packets) packets (some d)).get .high =
        some (preSerializeDelta peerId e.outboundSequence e.keyframeSequence .high d
          (((packets.get .high).map (·.additionalData)).getD [])) := by
      rw [buildDeltaPackets, PerQuality.get_ofFn]
      simp only [hb, hc, hs.peer]
      rfl
    obtain ⟨h₃, halloc, hheap₃, hframes₃, hlength₃, hd₃⟩ := hheap₂.allocDelta hd₂ hkeyframe hcurrent
      e.outboundSequence e.keyframeSequence hdeltasGet hhigh
    have halloc' : h₂.allocDelta current id (l.withStretch stretch).outboundSequence
        (l.withStretch stretch).keyframeSequence d = (.ok h₂.deltas.length, h₃) := by
      rw [show (l.withStretch stretch).outboundSequence = e.outboundSequence from
        hs.same.outboundSequence, show (l.withStretch stretch).keyframeSequence =
        e.keyframeSequence from hs.same.keyframeSequence]
      exact halloc
    simp only [hid, halloc']
    refine ⟨_, h₃, rfl, hheap₃, hframes₃.trans hframes, _, rfl, ?_, ?_⟩
    · rw [hlength₃, hdeltas, if_pos (Nat.lt_succ_self _)]
      exact hd₃
    · rw [hlength₃, hdeltas, if_pos (Nat.lt_succ_self _)]
      refine ⟨⟨hs₂.same.peerId, hs₂.same.generation, hs₂.same.lastInboundSequence,
        hs₂.same.outboundSequence, hs₂.same.hasReceivedFirst, hs₂.same.keyframeGeneration,
        hs₂.same.keyframeSequence, hs₂.same.lastKeyframe, rfl, rfl, rfl⟩, hs₂.peer,
        ⟨current, rfl, hcurrent⟩, ⟨id, rfl, hkeyframe⟩, hs₂.payloads, hs₂.full, ?_⟩
      show (madeDeltas ++ [_])[h.deltas.length]? = _
      rw [hd.length, List.getElem?_append_right (Nat.le_refl _), Nat.sub_self]
      rfl

end States

/-! ### Runs -/

namespace Lockstep

/-- Frames, delta frames and states agree with the eager reference. -/
structure Agrees (peerId : PeerId) (s : Lockstep) : Prop where
  heap : HeapAgrees peerId s.heap s.made
  deltas : DeltasAgree peerId s.made s.heap.deltas s.madeDeltas
  state : (s.lazy = none ∧ s.eager = none) ∨
    ∃ l e, s.lazy = some l ∧ s.eager = some e ∧ StateAgrees peerId s.made s.madeDeltas l e

variable {peerId : PeerId} {s s' : Lockstep}

theorem Agrees.empty (peerId : PeerId) : Agrees peerId empty where
  heap := ⟨rfl, fun id frame packets hf => by cases hf⟩
  deltas := ⟨rfl, fun id frame packets hf => by cases hf⟩
  state := .inl ⟨rfl, rfl⟩

theorem alloc_frames (h : Heap) (frame : LazyQualityFrame) :
    h.frames.length < (h.alloc frame).2.frames.length := by
  show h.frames.length < (h.frames ++ [frame]).length
  rw [List.length_append]
  exact Nat.lt_succ_self _

theorem Agrees.first (hs : Agrees peerId s) (hlazy : s.lazy = none) (heager : s.eager = none)
    (u : AvatarUpdate) (config : AvatarSyncConfig) (generation now : ℕ) :
    Agrees peerId (s.update peerId u config generation now) := by
  obtain ⟨frame, packets, hnew, hbuild, hframe, hfull, hpeer⟩ :=
    new_agrees peerId 0 u config.stripAdditionalDataAtLowQuality
  have hresult : commitLazy peerId s.heap s.lazy u config generation now =
      (some (initialState peerId u (lazyFrameEagerView frame) (some s.heap.frames.length) generation
        now), (s.heap.alloc frame).2) := by
    rw [hlazy, commitLazy, hnew]
    rfl
  have hcommit : commitEager peerId s.eager u config generation now =
      some (initialState peerId u packets none generation now) := by
    rw [heager, commitEager, hbuild]
  have hmade : (s.made ++ [packets])[s.heap.frames.length]? = some packets := by
    rw [hs.heap.length, List.getElem?_append_right (Nat.le_refl _), Nat.sub_self]
    rfl
  have hupdate : s.update peerId u config generation now =
      ⟨(s.heap.alloc frame).2, some (initialState peerId u (lazyFrameEagerView frame)
        (some s.heap.frames.length) generation now),
        some (initialState peerId u packets none generation now), s.made ++ [packets],
        s.madeDeltas⟩ := by
    rw [update]
    simp only [hresult, hcommit]
    rw [if_pos (alloc_frames s.heap frame), if_neg (show ¬ s.heap.deltas.length <
      (s.heap.alloc frame).2.deltas.length from Nat.lt_irrefl _)]
    rfl
  rw [hupdate]
  refine ⟨hs.heap.alloc hframe hpeer, hs.deltas.append packets, .inr ⟨_, _, rfl, rfl, ?_⟩⟩
  exact ⟨⟨rfl, rfl, rfl, rfl, rfl, rfl, rfl, rfl, rfl, rfl, rfl⟩, rfl, ⟨_, rfl, hmade⟩,
    ⟨_, rfl, hmade⟩, rfl, hfull, rfl⟩

theorem Agrees.next (hs : Agrees peerId s) {l e : PlayerAvatarState} (hlazy : s.lazy = some l)
    (heager : s.eager = some e) (hstate : StateAgrees peerId s.made s.madeDeltas l e)
    (u : AvatarUpdate) (config : AvatarSyncConfig) (generation now : ℕ) :
    Agrees peerId (s.update peerId u config generation now) := by
  by_cases hstale : u.stale l = true
  · have hstale' : u.stale e = true := hstate.stale u ▸ hstale
    have hresult : commitLazy peerId s.heap s.lazy u config generation now = (some l, s.heap) := by
      rw [hlazy, commitLazy, if_pos hstale]
    have hcommit : commitEager peerId s.eager u config generation now = some e := by
      rw [heager, commitEager, if_pos hstale']
    have hupdate : s.update peerId u config generation now = s := by
      rw [update]
      simp only [hresult, hcommit]
      rw [if_neg (Nat.lt_irrefl _), if_neg (Nat.lt_irrefl _), ← hlazy, ← heager]
    rw [hupdate]
    exact hs
  · have hstale' : ¬ u.stale e = true := hstate.stale u ▸ hstale
    have hreceived := hstate.received u generation
    obtain ⟨frame, packets, hnew, hbuild, hframe, hfull, hpeer⟩ :=
      new_agrees peerId (u.received e generation).outboundSequence u
        config.stripAdditionalDataAtLowQuality
    have hmade : (s.made ++ [packets])[s.heap.frames.length]? = some packets := by
      rw [hs.heap.length, List.getElem?_append_right (Nat.le_refl _), Nat.sub_self]
      rfl
    have hd : DeltasAgree peerId (s.made ++ [packets]) (s.heap.alloc frame).2.deltas s.madeDeltas :=
      hs.deltas.append packets
    obtain ⟨l', h', hlazy', hheap', hframes', madeDeltas', hmadeDeltas, hd', hstate'⟩ :=
      updateLazyOutboundDeltaState_eq (hreceived.append packets)
        (hs.heap.alloc hframe hpeer) hd hmade
        hfull (lazyFrameEagerView frame) generation config now
    have hresult : commitLazy peerId s.heap s.lazy u config generation now = (some l', h') := by
      rw [hlazy, commitLazy, if_neg hstale]
      simp only [hreceived.same.outboundSequence, hnew]
      rw [show s.heap.alloc frame = (s.heap.frames.length, (s.heap.alloc frame).2) from rfl]
      simp only [hlazy']
    have hcommit : commitEager peerId s.eager u config generation now =
        some (updateOutboundDeltaState (u.received e generation) packets generation
          config now) := by
      rw [heager, commitEager, if_neg hstale']
      simp only [hbuild]
    have hqualities : (updateOutboundDeltaState (u.received e generation) packets generation config
        now).qualities = packets := by
      rw [updateOutboundDeltaState]
      split <;> rfl
    have hupdate : s.update peerId u config generation now = ⟨h', some l',
        some (updateOutboundDeltaState (u.received e generation) packets generation config now),
        s.made ++ [packets], madeDeltas'⟩ := by
      rw [update, hmadeDeltas]
      simp only [hresult, hcommit]
      rw [if_pos (by rw [hframes']; exact alloc_frames s.heap frame)]
      simp only [Option.map_some, Option.toList_some, hqualities]
      rfl
    rw [hupdate]
    exact ⟨hheap', hd', .inr ⟨l', _, rfl, rfl, hstate'⟩⟩

theorem Agrees.step (hs : Agrees peerId s) {a : Action} (hstep : s.step peerId a = some s') :
    Agrees peerId s' := by
  cases a with
  | update u config generation now =>
    cases hstep
    rcases hs.state with ⟨hlazy, heager⟩ | ⟨l, e, hlazy, heager, hstate⟩
    · exact hs.first hlazy heager u config generation now
    · exact hs.next hlazy heager hstate u config generation now
  | demand id q =>
    simp only [Lockstep.step] at hstep
    split_ifs at hstep with hlt
    cases hstep
    rw [hs.heap.length] at hlt
    obtain ⟨-, hheap, hdeltas⟩ := hs.heap.quality (List.getElem?_eq_getElem hlt) q
    exact ⟨hheap, hdeltas.symm ▸ hs.deltas, hs.state⟩
  | demandDelta id q =>
    simp only [Lockstep.step] at hstep
    split_ifs at hstep with hlt
    cases hstep
    rw [hs.deltas.length] at hlt
    obtain ⟨-, hheap, hdeltas⟩ := hs.heap.deltaQuality hs.deltas (List.getElem?_eq_getElem hlt) q
    exact ⟨hheap, hdeltas, hs.state⟩

/-- **Lazy frames are the eager packets.** After every run of updates and demands, any frame answers
any demand with the packet that the eager builder made for the same update, any delta frame with the
eager delta, and the lazy state has made the same decisions as the eager one; its current frame,
keyframe and deltas stand for the packets of the eager state. -/
theorem lazy_frames_eager {peerId : PeerId} {s : Lockstep}
    (h : Reachable (system peerId) (fun _ _ => True) s) :
    s.heap.frames.length = s.made.length ∧ s.heap.deltas.length = s.madeDeltas.length ∧
    (∀ (id : ℕ) packets, s.made[id]? = some packets →
      ∀ q, (s.heap.quality id q).1 = .ok (packets.get q)) ∧
    (∀ (id : ℕ) packets, s.madeDeltas[id]? = some packets →
      ∀ q, (s.heap.deltaQuality id q).1 = packets.get q) ∧
    ((s.lazy = none ∧ s.eager = none) ∨
      ∃ l e, s.lazy = some l ∧ s.eager = some e ∧ SameDecisions l e ∧
        (∃ id, l.lazyCurrent = some id ∧ ∀ q, (s.heap.quality id q).1 = .ok (e.qualities.get q)) ∧
        (∃ id, l.lazyKeyframe = some id ∧
          ∀ q, (s.heap.quality id q).1 = .ok (e.keyframeQualities.get q)) ∧
        ∀ q, (l.lazyDeltas.bind fun id => (s.heap.deltaQuality id q).1) = e.deltas.get q) := by
  have hs : Agrees peerId s := by
    induction h with
    | init h =>
      cases h
      exact .empty peerId
    | step _ _ hstep ih => exact ih.step hstep
  have hdelta : ∀ (id : ℕ) packets, s.madeDeltas[id]? = some packets →
      ∀ q, (s.heap.deltaQuality id q).1 = packets.get q := fun id packets hid q =>
    (hs.heap.deltaQuality hs.deltas hid q).1
  refine ⟨hs.heap.length, hs.deltas.length, fun id packets hid q => (hs.heap.quality hid q).1,
    hdelta, ?_⟩
  rcases hs.state with hnone | ⟨l, e, hlazy, heager, hstate⟩
  · exact .inl hnone
  · obtain ⟨id, hid, hcurrent⟩ := hstate.current
    obtain ⟨id', hid', hkeyframe⟩ := hstate.keyframe
    refine .inr
      ⟨l, e, hlazy, heager, hstate.same, ⟨id, hid, fun q => (hs.heap.quality hcurrent q).1⟩,
      ⟨id', hid', fun q => (hs.heap.quality hkeyframe q).1⟩, fun q => ?_⟩
    have hdeltas := hstate.deltas
    cases hlazyDeltas : l.lazyDeltas with
    | none =>
      rw [hlazyDeltas] at hdeltas
      rw [hdeltas, PerQuality.get_fill]
      rfl
    | some d =>
      rw [hlazyDeltas] at hdeltas
      exact hdelta d _ hdeltas q

/-- A still avatar, as an update with the given sequence number. -/
def stillUpdate (sequence : Byte) : AvatarUpdate := ⟨sequence, .high, List.replicate 159 0, [], rfl⟩

def deltaConfig : AvatarSyncConfig := ⟨true, 500, 500, true⟩

theorem lazy_frames_eager_still :
    ∃ s : Lockstep, Reachable (system 7) (fun _ _ => True) s ∧ s.madeDeltas.length = 1 ∧
      ∀ packets, s.madeDeltas[0]? = some packets →
        ∀ q, (s.heap.deltaQuality 0 q).1 = packets.get q := by
  have hrun : (runActions (system 7) empty [.update (stillUpdate 0) deltaConfig 1 0,
      .update (stillUpdate 1) deltaConfig 2 1000000, .demandDelta 0 .low]).any (fun s =>
        decide (s.madeDeltas.length = 1)) = true := by
    decide +kernel
  obtain ⟨s, hreach, hs⟩ := exists_reachable_of_free_run (.init rfl) hrun
  exact ⟨s, hreach, of_decide_eq_true hs, (lazy_frames_eager hreach).2.2.2.1 0⟩

end Lockstep

end BasisRust.Avatar
