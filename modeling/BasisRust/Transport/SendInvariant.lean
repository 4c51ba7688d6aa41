import BasisRust.Library.Window
import BasisRust.Transport.SendQueue
import Mathlib.Data.List.Perm.Basic
import Mathlib.Data.List.Range

/-!
# Conservation in the reliable send queue

Seen from one channel, every step of the send side is one of four moves of a packet (`ChannelStep`):
admission at the tail of the outgoing queue, the move into the window, the numbering of the next
packet of the window, and the release of in-flight packets.  `sendStep_channel` is this refinement,
and every fact about a single channel is proved on `ChannelStep` alone.
-/

namespace BasisRust.Transport

open Library

/-! ### One channel of the send side -/

structure SendChannel where
  accepted : List Message
  outgoing : List OutgoingReliable
  staged : List OutgoingReliable
  sent : List OutgoingReliable
  pending : List PendingReliable
  acknowledged : List ℕ
  nextSequence : ℕ

/-- What the send side holds of one channel. -/
def SendState.channel (s : SendState) (c : Byte) : SendChannel where
  accepted := s.accepted c
  outgoing := s.outgoing c
  staged := onKey c s.phase.staged
  sent := s.sent c
  pending := s.pending c
  acknowledged := s.acknowledged c
  nextSequence := s.nextSequence c

namespace SendChannel

/-- The index of the oldest packet in flight, or of the next packet if there is none. -/
def base (v : SendChannel) : ℕ :=
  match v.pending with
  | [] => v.sent.length
  | front :: _ => front.index

def capacity (v : SendChannel) : ℕ :=
  reliableWindowCapacity v.nextSequence (v.pending.head?.map fun item => item.sequence)

end SendChannel

/-- The sequence number of packet `n` of a channel. -/
def sequenceOf (c : Byte) (n : ℕ) : ℕ := (if isSequencedId c then n + 1 else n) % maxSequence

/-- The number of packets a channel can have in its window. -/
def windowWidth (c : Byte) : ℕ :=
  if isSequencedId c then defaultWindowSize + 1 else defaultWindowSize

/-- The packet of index `n`, as it stands in the in-flight queue. -/
def builtPacket (connectionNumber : BitVec 2) (c : Byte) (n : ℕ) (p : OutgoingReliable) :
    PendingReliable :=
  ⟨sequenceOf c n, reliablePacketBytes connectionNumber c (sequenceOf c n) p, n⟩

/-- What admission guarantees of a message on channel `c`. -/
structure Message.Admitted (c : Byte) (m : Message) : Prop where
  whole : m.fragmentId = none → isSequencedId c = false →
    m.payload.length + litenetlibChanneledHeaderSize ≤ litenetlibInitialMtu
  cut : ∀ id, m.fragmentId = some id → id < 65536 ∧
    litenetlibInitialMtu < m.payload.length + litenetlibChanneledHeaderSize ∧
    m.payload.length ≤ maxReliableFragmentedMessageBytes

/-- The moves a packet can make on a channel with a window of `w` packets. -/
inductive ChannelStep (connectionNumber : BitVec 2) (c : Byte) (w : ℕ) :
    SendChannel → SendChannel → Prop
  | stay (v : SendChannel) : ChannelStep connectionNumber c w v v
  | accept (v : SendChannel) (ms : List Message) (hms : ∀ m ∈ ms, m.Admitted c) :
      ChannelStep connectionNumber c w v
        { v with
          accepted := v.accepted ++ ms
          outgoing := v.outgoing ++ ms.flatMap Message.packets }
  | move (v : SendChannel) (k : ℕ) (hk : v.sent.length + k ≤ v.base + w) (hs : v.staged = []) :
      ChannelStep connectionNumber c w v
        { v with staged := v.outgoing.take k, outgoing := v.outgoing.drop k }
  | build (v : SendChannel) (p : OutgoingReliable) (rest : List OutgoingReliable)
      (hs : v.staged = p :: rest) (hn : v.nextSequence = v.sent.length % maxSequence) :
      ChannelStep connectionNumber c w v
        { v with
          staged := rest
          sent := v.sent ++ [p]
          nextSequence := (v.nextSequence + 1) % maxSequence
          pending := v.pending ++ [builtPacket connectionNumber c v.sent.length p] }
  | release (v : SendChannel) (gone kept : List PendingReliable) (hkept : kept.Sublist v.pending)
      (hperm : (gone ++ kept).Perm v.pending) :
      ChannelStep connectionNumber c w v
        { v with
          pending := kept
          acknowledged := v.acknowledged ++ gone.map fun item => item.index }

/-! ### The invariant of a channel -/

/-- What holds of a channel with a window of `w` packets in every reachable state. -/
structure ChannelSound (connectionNumber : BitVec 2) (c : Byte) (w : ℕ) (v : SendChannel) : Prop
    where
  /-- Sent, staged and queued packets are those of the accepted messages, in order. -/
  conserved : v.sent ++ v.staged ++ v.outgoing = v.accepted.flatMap Message.packets
  admitted : ∀ m ∈ v.accepted, m.Admitted c
  numbered : v.nextSequence = v.sent.length % maxSequence
  /-- Every packet sent is either in flight or acknowledged, and not both. -/
  ledger : (v.acknowledged ++ v.pending.map fun item => item.index).Perm
    (List.range v.sent.length)
  sorted : (v.pending.map fun item => item.index).Pairwise (· < ·)
  wire : ∀ item ∈ v.pending, ∃ p, v.sent[item.index]? = some p ∧
    item = builtPacket connectionNumber c item.index p
  window : v.sent.length + v.staged.length ≤ v.base + w

namespace ChannelSound

variable {cn : BitVec 2} {c : Byte} {w : ℕ} {v v' : SendChannel}

section

variable (h : ChannelSound cn c w v)
variable {kept : List PendingReliable}

variable {item : PendingReliable}

include h

theorem index_lt (hi : item ∈ v.pending) : item.index < v.sent.length := by
  obtain ⟨p, hp, -⟩ := h.wire item hi
  exact (List.getElem?_eq_some_iff.mp hp).1

theorem base_le_index (hi : item ∈ v.pending) : v.base ≤ item.index := by
  have hs := h.sorted
  rw [SendChannel.base]
  cases hp : v.pending with
  | nil => simp [hp] at hi
  | cons front rest =>
    rw [hp] at hi hs
    simp only [List.map_cons, List.pairwise_cons] at hs
    rcases List.mem_cons.mp hi with rfl | hi
    · exact le_rfl
    · exact (hs.1 _ (List.mem_map_of_mem hi)).le

theorem base_le_sent : v.base ≤ v.sent.length := by
  rw [SendChannel.base]
  cases hp : v.pending with
  | nil => exact le_rfl
  | cons front rest => exact (h.index_lt (hp ▸ .head _)).le

theorem sequence_eq (hi : item ∈ v.pending) : item.sequence = sequenceOf c item.index := by
  obtain ⟨p, -, hp⟩ := h.wire item hi
  rw [hp]
  rfl

/-- The capacity the code computes never takes the window beyond its width. -/
theorem capacity_le (hw : w ≤ windowWidth c) (hstaged : v.staged = []) :
    v.sent.length + v.capacity ≤ v.base + windowWidth c := by
  have hwin := h.window
  rw [hstaged, List.length_nil] at hwin
  rw [SendChannel.capacity, reliableWindowCapacity, h.numbered]
  cases hp : v.pending with
  | nil =>
    have hbase : v.base = v.sent.length := by rw [SendChannel.base, hp]
    have h0 : relativeSequence (v.sent.length % maxSequence) (v.sent.length % maxSequence) = 0 := by
      rw [relativeSequence_unwrap _ _ (by omega) (by omega)]
      omega
    simp only [List.head?_nil, Option.map_none, Option.getD_none, h0, hbase, windowWidth,
      defaultWindowSize]
    split_ifs <;> simp
  | cons front rest =>
    have hmem : front ∈ v.pending := hp ▸ .head _
    have hbase : v.base = front.index := by rw [SendChannel.base, hp]
    have hlt := h.index_lt hmem
    simp only [List.head?_cons, Option.map_some, Option.getD_some, h.sequence_eq hmem, sequenceOf,
      hbase] at hwin ⊢
    -- the sequenced counter holds the last number assigned, so its span is one less
    by_cases hseq : isSequencedId c = true
    · simp only [hseq, if_true, windowWidth, defaultWindowSize] at hw ⊢
      rw [relativeSequence_unwrap _ _ (by omega) (by omega)]
      split_ifs <;> omega
    · simp only [hseq, windowWidth, defaultWindowSize, Bool.false_eq_true, if_false] at hw ⊢
      rw [relativeSequence_unwrap _ _ (by omega) (by omega)]
      split_ifs <;> omega

theorem accept {ms : List Message} (hms : ∀ m ∈ ms, m.Admitted c) :
    ChannelSound cn c w
      { v with
        accepted := v.accepted ++ ms
        outgoing := v.outgoing ++ ms.flatMap Message.packets } where
  conserved := by
    simp only [List.flatMap_append, ← h.conserved, List.append_assoc]
  admitted := by
    intro m hm
    rcases List.mem_append.mp hm with hm | hm
    · exact h.admitted m hm
    · exact hms m hm
  __ := h

theorem move {k : ℕ} (hk : v.sent.length + k ≤ v.base + w) (hs : v.staged = []) :
    ChannelSound cn c w { v with staged := v.outgoing.take k, outgoing := v.outgoing.drop k } where
  conserved := by
    have hcons := h.conserved
    rw [hs, List.append_nil] at hcons
    rw [List.append_assoc, List.take_append_drop, hcons]
  __ := h
  window := by
    have htake : (v.outgoing.take k).length ≤ k := List.length_take_le k v.outgoing
    change v.sent.length + (v.outgoing.take k).length ≤ v.base + w
    omega

/-- Numbering a packet moves it from the staged list to the tail of the in-flight queue, and the
window keeps its base. -/
theorem build {p : OutgoingReliable} {rest : List OutgoingReliable}
    (hs : v.staged = p :: rest) :
    ChannelSound cn c w
      { v with
        staged := rest
        sent := v.sent ++ [p]
        nextSequence := (v.nextSequence + 1) % maxSequence
        pending := v.pending ++ [builtPacket cn c v.sent.length p] } where
  conserved := by
    have hcons := h.conserved
    rw [hs] at hcons
    simpa using hcons
  admitted := h.admitted
  numbered := by
    simp only [h.numbered, List.length_append, List.length_singleton, Nat.mod_add_mod]
  ledger := by
    have hlast : (builtPacket cn c v.sent.length p).index = v.sent.length := rfl
    simp only [List.map_append, List.map_singleton, hlast, List.length_append,
      List.length_singleton, List.range_succ]
    rw [← List.append_assoc]
    exact h.ledger.append_right _
  sorted := by
    simp only [List.map_append, List.map_singleton]
    rw [List.pairwise_append]
    refine ⟨h.sorted, List.pairwise_singleton _ _, ?_⟩
    intro a ha b hb
    obtain ⟨item, hitem, rfl⟩ := List.mem_map.mp ha
    rw [List.mem_singleton.mp hb]
    exact h.index_lt hitem
  wire := by
    intro item hitem
    rcases List.mem_append.mp hitem with hitem | hitem
    · obtain ⟨q, hq, heq⟩ := h.wire item hitem
      exact ⟨q, by rw [List.getElem?_append_left (h.index_lt hitem)]; exact hq, heq⟩
    · rw [List.mem_singleton.mp hitem]
      exact ⟨p, by simp [builtPacket], rfl⟩
  window := by
    have hwin := h.window
    simp only [hs, List.length_cons, SendChannel.base] at hwin
    simp only [SendChannel.base, List.length_append, List.length_singleton]
    cases hp : v.pending with
    | nil =>
      simp only [hp] at hwin
      simp only [List.nil_append, builtPacket]
      omega
    | cons front tail =>
      simp only [hp] at hwin
      simp only [List.cons_append]
      omega

/-- Releasing packets can only move the base of the window up. -/
theorem base_le_release (hkept : kept.Sublist v.pending) (acknowledged : List ℕ) :
    v.base ≤ SendChannel.base { v with pending := kept, acknowledged := acknowledged } := by
  cases kept with
  | nil => exact h.base_le_sent
  | cons front rest => exact h.base_le_index (hkept.subset (.head _))

theorem release {gone : List PendingReliable} (hkept : kept.Sublist v.pending)
    (hperm : (gone ++ kept).Perm v.pending) : ChannelSound cn c w
      { v with
        pending := kept
        acknowledged := v.acknowledged ++ gone.map fun item => item.index } where
  __ := h
  ledger := by
    have hmap := hperm.map fun item => item.index
    rw [List.map_append] at hmap
    rw [List.append_assoc]
    exact (hmap.append_left v.acknowledged).trans h.ledger
  sorted := h.sorted.sublist (hkept.map _)
  wire := fun item hitem => h.wire item (hkept.subset hitem)
  window := h.window.trans (Nat.add_le_add_right (h.base_le_release hkept _) _)

/-- **One move of a packet keeps the channel sound.** -/
theorem step (hstep : ChannelStep cn c w v v') : ChannelSound cn c w v' := by
  cases hstep with
  | stay => exact h
  | accept ms hms => exact h.accept hms
  | move k hk hs => exact h.move hk hs
  | build p rest hs hn => exact h.build hs
  | release gone kept hkept hperm => exact h.release hkept hperm

end

end ChannelSound

/-! ### The parts of a message -/

variable (payload : Bytes)

/-- The first `n` chunks are the first `n` chunk sizes of bytes. -/
theorem flatten_slices (size n : ℕ) :
    ((List.range n).map fun i => slice payload (i * size) size).flatten =
      payload.take (n * size) := by
  induction n with
  | zero => simp
  | succ n ih =>
    rw [List.range_succ, List.map_append, List.flatten_append, ih, Nat.succ_mul, List.take_add]
    simp [slice]

theorem length_le_fragmentParts :
    payload.length ≤ fragmentParts payload * reliableFragmentPayloadSize := by
  have hsize : reliableFragmentPayloadSize = 1014 := rfl
  rw [fragmentParts, hsize]
  omega

/-- **Reassembly.**  The chunks of a payload, one after the other, are the payload. -/
theorem chunks_flatten : (chunks payload).flatten = payload := by
  rw [chunks, flatten_slices]
  exact List.take_of_length_le (length_le_fragmentParts payload)

@[simp] theorem chunks_length : (chunks payload).length = fragmentParts payload := by
  simp [chunks]

@[simp] theorem fragmentPackets_length (id total : ℕ) :
    (fragmentPackets payload id total).length = fragmentParts payload := by
  simp [fragmentPackets]

theorem fragmentPackets_payloads (id total : ℕ) :
    (fragmentPackets payload id total).map (fun p => p.payload) = chunks payload := by
  rw [fragmentPackets, List.map_map]
  exact List.zipIdx_map_fst 0 (chunks payload)

/-- The packets of a message carry exactly its bytes. -/
theorem Message.packets_flatten (m : Message) :
    (m.packets.map fun p => p.payload).flatten = m.payload := by
  rw [Message.packets]
  cases m.fragmentId with
  | none => simp
  | some id => simp only [fragmentPackets_payloads, chunks_flatten]

theorem Message.packets_bytes (m : Message) :
    (m.packets.map fun p => p.payload.length).sum = m.payload.length := by
  have h := congrArg List.length m.packets_flatten
  rw [List.length_flatten, List.map_map] at h
  exact h

/-! ### What one step does to a channel -/

section Admission

/-- The delivery method of a channel id is the one it was made with. -/
theorem channelId_mod_four (channel : Byte) (delivery : DeliveryMethod) :
    (DeliveryMethod.channelId channel delivery).toNat % 4 = delivery.offset := by
  have hfour : (4 : Byte).toNat = 4 := rfl
  cases delivery <;>
    simp only [DeliveryMethod.channelId, DeliveryMethod.offset, BitVec.toNat_add, BitVec.toNat_mul,
      BitVec.toNat_ofNat, hfour] <;> omega

/-- What a successful round of the planning loop has checked and planned. -/
theorem planPayload_spec {channel : Byte} {delivery : DeliveryMethod} {payload : Bytes}
    {p : PlannedPayload} (h : planPayload (channel, delivery, payload) = some p) :
    p = ⟨DeliveryMethod.channelId channel delivery, payload, needsFragments delivery payload,
      if needsFragments delivery payload then fragmentParts payload else 1⟩ ∧
    isReliableDelivery delivery = true ∧
    (needsFragments delivery payload = true →
      payload.length ≤ maxReliableFragmentedMessageBytes) := by
  simp only [planPayload] at h
  generalize (if needsFragments delivery payload = true then fragmentParts payload else 1) = count
    at h ⊢
  split_ifs at h with h₁ h₂
  rw [Bool.or_eq_true, not_or] at h₁
  refine ⟨(Option.some.inj h).symm, by simpa using h₁.1, ?_⟩
  intro hfrag
  simp only [hfrag, Bool.true_and, Bool.or_eq_true, decide_eq_true_eq, not_or, not_lt] at h₂
  exact h₂.1

/-- The keyed packets of a batch, in the order they are published. -/
def batchPackets (id : ℕ) (packets : List (Byte × DeliveryMethod × Bytes)) :
    List (Byte × OutgoingReliable) :=
  (batchMessages id packets).flatMap fun x => x.2.packets.map fun p => (x.1, p)

theorem onKey_flatMap_packets (c : Byte) (xs : List (Byte × Message)) :
    onKey c (xs.flatMap fun x => x.2.packets.map fun p => (x.1, p)) =
      (onKey c xs).flatMap Message.packets := by
  induction xs with
  | nil => rfl
  | cons x xs ih =>
    obtain ⟨j, m⟩ := x
    rw [List.flatMap_cons, onKey_append, ih]
    by_cases hj : j = c
    · subst hj
      simp
    · rw [onKey_cons_of_ne hj, onKey_map_of_ne hj, List.nil_append]

section

variable {packets : List (Byte × DeliveryMethod × Bytes)} {plan : List PlannedPayload}
  (h : packets.mapM planPayload = some plan)
include h

/-- **The publishing loop** appends to every queue the packets of the batch that belong there. -/
theorem publish_spec (outgoing : Byte → List OutgoingReliable) (id : ℕ) (c : Byte) :
    (plan.foldl publish (outgoing, id)).1 c =
      outgoing c ++ (onKey c (batchMessages id packets)).flatMap Message.packets := by
  induction packets generalizing plan outgoing id with
  | nil =>
    simp only [List.mapM_nil, Option.pure_def, Option.some.injEq] at h
    subst h
    simp [batchMessages]
  | cons packet packets ih =>
    obtain ⟨channel, delivery, payload⟩ := packet
    simp only [List.mapM_cons, Option.pure_def, Option.bind_eq_bind, Option.bind_eq_some_iff,
      Option.some.injEq] at h
    obtain ⟨p, hp, plan, hplan, rfl⟩ := h
    obtain ⟨rfl, -, -⟩ := planPayload_spec hp
    rw [List.foldl_cons, batchMessages]
    cases hfrag : needsFragments delivery payload with
    | false =>
      simp only [publish, Bool.not_false, if_true, Bool.false_eq_true, if_false]
      rw [ih hplan]
      by_cases hc : DeliveryMethod.channelId channel delivery = c
      · subst hc
        simp [Message.packets]
      · rw [Function.update_of_ne (Ne.symm hc), onKey_cons_of_ne hc]
    | true =>
      simp only [publish, Bool.not_true, Bool.false_eq_true, if_false, if_true]
      rw [ih hplan]
      by_cases hc : DeliveryMethod.channelId channel delivery = c
      · subst hc
        simp [Message.packets]
      · rw [Function.update_of_ne (Ne.symm hc), onKey_cons_of_ne hc]

/-- The bytes and packets a plan reserves are those of the packets it publishes. -/
theorem plan_totals (id : ℕ) :
    (plan.map fun p => p.payload.length).sum =
        ((batchPackets id packets).map fun x => x.2.payload.length).sum ∧
      (plan.map fun p => p.fragmentCount).sum = (batchPackets id packets).length := by
  induction packets generalizing plan id with
  | nil =>
    simp only [List.mapM_nil, Option.pure_def, Option.some.injEq] at h
    subst h
    simp [batchPackets, batchMessages]
  | cons packet packets ih =>
    obtain ⟨channel, delivery, payload⟩ := packet
    simp only [List.mapM_cons, Option.pure_def, Option.bind_eq_bind, Option.bind_eq_some_iff,
      Option.some.injEq] at h
    obtain ⟨p, hp, plan, hplan, rfl⟩ := h
    obtain ⟨rfl, -, -⟩ := planPayload_spec hp
    have hbytes : ∀ m : Message, (m.packets.map ((fun x : Byte × OutgoingReliable =>
        x.2.payload.length) ∘ fun p => (DeliveryMethod.channelId channel delivery, p))).sum =
        m.payload.length := Message.packets_bytes
    cases hfrag : needsFragments delivery payload with
    | false =>
      obtain ⟨ihb, ihp⟩ := ih hplan id
      simp only [batchPackets] at ihb ihp
      simp only [batchPackets, batchMessages, hfrag, Bool.false_eq_true, if_false,
        List.flatMap_cons, List.map_append, List.map_map, List.sum_append, List.map_cons,
        List.sum_cons, List.length_append, List.length_map, hbytes, ihb, ihp]
      exact ⟨trivial, rfl⟩
    | true =>
      obtain ⟨ihb, ihp⟩ := ih hplan ((id + 1) % 65536)
      simp only [batchPackets] at ihb ihp
      simp only [batchPackets, batchMessages, hfrag, if_true,
        List.flatMap_cons, List.map_append, List.map_map, List.sum_append, List.map_cons,
        List.sum_cons, List.length_append, List.length_map, hbytes, ihb, ihp]
      exact ⟨trivial, by simp [Message.packets]⟩

/-- Every message of a planned batch meets the admission limits of its channel. -/
theorem batchMessages_admitted (id : ℕ)
    {c : Byte} {m : Message} (hm : (c, m) ∈ batchMessages id packets) : m.Admitted c := by
  induction packets generalizing plan id with
  | nil => simp [batchMessages] at hm
  | cons packet packets ih =>
    obtain ⟨channel, delivery, payload⟩ := packet
    simp only [List.mapM_cons, Option.pure_def, Option.bind_eq_bind, Option.bind_eq_some_iff,
      Option.some.injEq] at h
    obtain ⟨p, hp, plan, hplan, rfl⟩ := h
    obtain ⟨-, hrel, hmax⟩ := planPayload_spec hp
    cases hfrag : needsFragments delivery payload with
    | false =>
      simp only [batchMessages, hfrag, Bool.false_eq_true, if_false, List.mem_cons,
        Prod.mk.injEq] at hm
      obtain ⟨rfl, rfl⟩ | hm := hm
      · refine ⟨fun _ hseq => ?_, by simp⟩
        -- a reliable channel that is not sequenced may fragment, so the payload was small
        have hoff : delivery.offset ≠ 3 := by
          rw [← channelId_mod_four channel delivery]
          exact of_decide_eq_false hseq
        have hmay : mayFragment delivery = true := by
          cases delivery with
          | reliableUnordered | reliableOrdered => rfl
          | reliableSequenced => exact absurd rfl hoff
          | sequenced | unreliable => cases hrel
        simpa [needsFragments, hmay] using hfrag
      · exact ih hplan id hm
    | true =>
      simp only [batchMessages, hfrag, if_true, List.mem_cons, Prod.mk.injEq] at hm
      obtain ⟨rfl, rfl⟩ | hm := hm
      · refine ⟨by simp, fun i hi => ?_⟩
        have hi' : (id + 1) % 65536 = i := by simpa using hi
        simp only [needsFragments, Bool.and_eq_true, decide_eq_true_eq] at hfrag
        exact ⟨by omega, hfrag.1, hmax (by simp [needsFragments, hfrag])⟩
      · exact ih hplan _ hm

end

/-- **All or nothing.**  Admission either refuses a batch and changes nothing, or appends exactly
its packets, in order, and reserves exactly their bytes and number. -/
theorem enqueueReliableBatch_spec (s : SendState) (packets : List (Byte × DeliveryMethod × Bytes)) :
    enqueueReliableBatch s packets = (false, s) ∨
    ∃ nextFragmentId,
      let xs := batchPackets s.nextFragmentId packets
      let bytes := (xs.map fun x => x.2.payload.length).sum
      enqueueReliableBatch s packets = (true, { s with
        outgoing := fun c => s.outgoing c ++ onKey c xs
        nextFragmentId := nextFragmentId
        queuedBytes := s.queuedBytes + bytes
        queuedPackets := s.queuedPackets + xs.length
        accepted := fun c => s.accepted c ++ onKey c (batchMessages s.nextFragmentId packets) }) ∧
      (∀ c m, (c, m) ∈ batchMessages s.nextFragmentId packets → m.Admitted c) ∧
      (packets ≠ [] → s.queuedBytes + bytes ≤ maxQueuedReliableBytesPerPeer ∧
        s.queuedPackets + xs.length ≤ maxQueuedReliablePacketsPerPeer) := by
  cases packets with
  | nil =>
    refine .inr ⟨s.nextFragmentId, ?_⟩
    simp [enqueueReliableBatch, batchPackets, batchMessages]
  | cons packet packets =>
    generalize hall : packet :: packets = all
    have hne : all ≠ [] := by simp [← hall]
    rw [enqueueReliableBatch, if_neg (by simp [hne])]
    cases hplan : all.mapM planPayload with
    | none => exact .inl rfl
    | some plan =>
      dsimp only
      obtain ⟨hb, hp⟩ := plan_totals hplan s.nextFragmentId
      split_ifs with h₁ h₂
      · exact .inl rfl
      · exact .inl rfl
      · rw [not_or, not_lt, not_lt, hb, hp] at h₂
        have hmaxb : maxQueuedReliableBytesPerPeer = 8388608 := rfl
        have hmaxp : maxQueuedReliablePacketsPerPeer = 8192 := rfl
        refine .inr ⟨(plan.foldl publish (s.outgoing, s.nextFragmentId)).2, ?_,
          fun c m hm => batchMessages_admitted hplan _ hm, fun _ => h₂⟩
        rw [hb, hp, fetchAdd_of_lt (by omega), fetchAdd_of_lt (by omega)]
        congr 2
        funext c
        rw [publish_spec hplan, batchPackets, onKey_flatMap_packets]

end Admission

section Dispatch

/-- How many packets a pass may take from one channel when `budget` are left for the peer. -/
def takeCount (s : SendState) (outgoing : Byte → List OutgoingReliable) (c : Byte) (budget : ℕ) :
    ℕ :=
  min (min (s.channel c).capacity (outgoing c).length) budget

/-- The in-flight budget left when a pass that walks the channels in `order` comes to `c`. -/
def budgetAt (s : SendState) (outgoing : Byte → List OutgoingReliable) (c : Byte) :
    List Byte → ℕ → ℕ
  | [], _ => 0
  | d :: order, remaining =>
    if d = c then remaining
    else budgetAt s outgoing c order (remaining - takeCount s outgoing d remaining)

variable {order : List Byte} {outgoing : Byte → List OutgoingReliable}

theorem budgetAt_congr {s : SendState} {outgoing' : Byte → List OutgoingReliable} {c : Byte}
    (h : ∀ d ∈ order, outgoing d = outgoing' d) (remaining : ℕ) :
    budgetAt s outgoing c order remaining = budgetAt s outgoing' c order remaining := by
  induction order generalizing remaining with
  | nil => rfl
  | cons d order ih =>
    simp only [budgetAt, takeCount, h d (.head _)]
    rw [ih fun e he => h e (List.mem_cons_of_mem d he)]

theorem budgetAt_le (s : SendState) (outgoing : Byte → List OutgoingReliable) (c : Byte)
    (order : List Byte) (remaining : ℕ) : budgetAt s outgoing c order remaining ≤ remaining := by
  induction order generalizing remaining with
  | nil => exact Nat.zero_le _
  | cons d order ih =>
    rw [budgetAt]
    split_ifs
    · exact le_rfl
    · exact (ih _).trans (Nat.sub_le _ _)

theorem budgetAt_of_not_mem {s : SendState} {c : Byte} (h : c ∉ order) (remaining : ℕ) :
    budgetAt s outgoing c order remaining = 0 := by
  induction order generalizing remaining with
  | nil => rfl
  | cons d order ih =>
    rw [List.mem_cons, not_or] at h
    rw [budgetAt, if_neg (Ne.symm h.1), ih h.2]

/-- **The channel loop.**  From each channel a pass takes the first packets, as many as the window
of the channel and the budget left for the peer allow. -/
theorem moveQueued_spec (s : SendState) (hnodup : order.Nodup) (remaining : ℕ)
    (outgoing : Byte → List OutgoingReliable) (c : Byte) :
    let k := takeCount s outgoing c (budgetAt s outgoing c order remaining)
    onKey c (moveQueued s order remaining outgoing).1 = (outgoing c).take k ∧
      (moveQueued s order remaining outgoing).2 c = (outgoing c).drop k := by
  induction order generalizing remaining outgoing with
  | nil => simp [moveQueued, budgetAt, takeCount]
  | cons d order ih =>
    rw [List.nodup_cons] at hnodup
    by_cases h0 : remaining = 0
    · have hb := budgetAt_le s outgoing c (d :: order) remaining
      have hk : takeCount s outgoing c (budgetAt s outgoing c (d :: order) remaining) = 0 := by
        rw [takeCount]
        omega
      simp only [hk, List.take_zero, List.drop_zero, moveQueued, if_pos h0]
      exact ⟨rfl, trivial⟩
    · set queue := (outgoing d).drop (takeCount s outgoing d remaining) with hqueue
      have hmove : moveQueued s (d :: order) remaining outgoing =
          let rest := moveQueued s order (remaining - takeCount s outgoing d remaining)
            (Function.update outgoing d queue)
          (((outgoing d).take (takeCount s outgoing d remaining)).map (fun p => (d, p)) ++ rest.1,
            rest.2) := by
        have hlen : ((outgoing d).take (takeCount s outgoing d remaining)).length =
            takeCount s outgoing d remaining := by
          rw [List.length_take, takeCount]
          omega
        have hdequeue : dequeueReliableWindow (s.nextSequence d) (s.pending d) (outgoing d)
            remaining = ((outgoing d).take (takeCount s outgoing d remaining), queue) := rfl
        simp only [moveQueued, if_neg h0, hdequeue, hlen]
      have hcongr : ∀ e ∈ order, Function.update outgoing d queue e = outgoing e := by
        intro e he
        rw [Function.update_of_ne]
        intro heq
        exact hnodup.1 (heq ▸ he)
      obtain ⟨ih₁, ih₂⟩ := ih hnodup.2 (remaining - takeCount s outgoing d remaining)
        (Function.update outgoing d queue)
      rw [budgetAt_congr hcongr] at ih₁ ih₂
      simp only [hmove, onKey_append, ih₁, ih₂]
      by_cases hd : d = c
      · subst hd
        simp only [budgetAt_of_not_mem hnodup.1, onKey_map_self, Function.update_self, budgetAt,
          if_true, takeCount, Nat.min_zero, List.take_zero, List.append_nil, List.drop_zero,
          true_and]
        rfl
      · simp only [onKey_map_of_ne hd, Function.update_of_ne (Ne.symm hd), budgetAt, if_neg hd,
          List.nil_append, takeCount]
        exact ⟨trivial, trivial⟩

/-- A pass takes no more packets than the peer has budget for. -/
theorem moveQueued_length (s : SendState) (order : List Byte) (remaining : ℕ)
    (outgoing : Byte → List OutgoingReliable) :
    (moveQueued s order remaining outgoing).1.length ≤ remaining := by
  induction order generalizing remaining outgoing with
  | nil => exact Nat.zero_le _
  | cons d order ih =>
    rw [moveQueued]
    split_ifs with h0
    · exact Nat.zero_le _
    · simp only [dequeueReliableWindow, List.length_append, List.length_map]
      refine (Nat.add_le_add_left (ih _ _) _).trans ?_
      rw [List.length_take]
      omega

end Dispatch

section Acknowledgement

/-- What an acknowledgement can do: nothing, or release some packets of its channel and keep the
others in order. -/
theorem processAck_cases (s : SendState) (bytes : Bytes) :
    processAck s bytes = s ∨ ∃ gone kept, kept.Sublist (s.pending (bytes.getD 3 0)) ∧
      (gone ++ kept).Perm (s.pending (bytes.getD 3 0)) ∧
      processAck s bytes = releasePending s (bytes.getD 3 0) gone kept := by
  simp only [processAck]
  split_ifs with h₁ h₂ h₃ h₄
  · exact .inl rfl
  · exact .inl rfl
  · exact .inl rfl
  · cases (s.pending (bytes.getD 3 0)).findIdx? fun item =>
        decide (item.sequence = leNat (slice bytes 1 2)) with
    | none => exact .inl rfl
    | some ackIndex =>
      refine .inr ⟨_, _, List.drop_sublist _ _, ?_, rfl⟩
      rw [List.take_append_drop]
  · cases hq : s.pending (bytes.getD 3 0) with
    | nil => exact .inl rfl
    | cons front rest =>
      dsimp only
      split_ifs
      · exact .inl rfl
      · exact .inr ⟨_, _, List.filter_sublist, List.filter_append_perm _ _, rfl⟩

end Acknowledgement

/-! ### The counters -/

/-- The counters of the peer agree with its queues.  Between the locks of a dispatch pass or of an
acknowledgement they run ahead by what is still to be subtracted. -/
structure Counted (s : SendState) : Prop where
  bytes : s.queuedBytes = queueTotal (fun p => p.payload.length) s.outgoing + s.phase.byteDebt
  packets : s.queuedPackets = queueTotal (fun _ => 1) s.outgoing + s.phase.packetDebt
  bytesLimit : s.queuedBytes ≤ maxQueuedReliableBytesPerPeer
  packetsLimit : s.queuedPackets ≤ maxQueuedReliablePacketsPerPeer
  inFlight : s.pendingTotal = queueTotal (fun _ => 1) s.pending + s.released.sum
  /-- Whatever a pass has taken will find room in the in-flight queues. -/
  room : s.pendingTotal + s.phase.staged.length ≤ maxPendingReliablePerPeer

namespace Counted

variable {s s' : SendState}

theorem enqueue (h : Counted s) (packets : List (Byte × DeliveryMethod × Bytes)) :
    Counted (enqueueReliableBatch s packets).2 := by
  by_cases hne : packets = []
  · subst hne
    exact h
  rcases enqueueReliableBatch_spec s packets with heq | ⟨id, heq, -, hlimit⟩
  · rw [heq]
    exact h
  · rw [heq]
    obtain ⟨hb, hp⟩ := hlimit hne
    refine ⟨?_, ?_, hb, hp, h.inFlight, h.room⟩
    · simp only [h.bytes, queueTotal_append (fun c => rfl)]
      omega
    · have hcount : ∀ xs : List (Byte × OutgoingReliable), (xs.map fun _ => 1).sum = xs.length :=
        fun xs => by simp
      simp only [h.packets, queueTotal_append (fun c => rfl), hcount]
      omega

theorem move (h : Counted s) {order : List Byte} (hidle : s.phase = .idle)
    (hnodup : order.Nodup) : Counted (moveIntoWindow s order) := by
  set moved := moveQueued s order (maxPendingReliablePerPeer - s.pendingTotal) s.outgoing
    with hmoved
  have hsplit : ∀ c, s.outgoing c = onKey c moved.1 ++ moved.2 c := by
    intro c
    obtain ⟨h₁, h₂⟩ := moveQueued_spec s hnodup (maxPendingReliablePerPeer - s.pendingTotal)
      s.outgoing c
    rw [hmoved, h₁, h₂, List.take_append_drop]
  have hlen : moved.1.length ≤ maxPendingReliablePerPeer - s.pendingTotal :=
    moveQueued_length s order _ s.outgoing
  have hcount : (moved.1.map fun _ => 1).sum = moved.1.length := by simp
  have hroom := h.room
  have hb := h.bytes
  have hp := h.packets
  rw [hidle] at hroom hb hp
  simp only [DispatchPhase.byteDebt, DispatchPhase.packetDebt, DispatchPhase.staged,
    List.length_nil, Nat.add_zero] at hroom hb hp
  refine ⟨?_, ?_, h.bytesLimit, h.packetsLimit, h.inFlight, ?_⟩
  · change s.queuedBytes = queueTotal _ moved.2 + (DispatchPhase.afterMove moved.1).byteDebt
    rw [DispatchPhase.afterMove_byteDebt, hb, queueTotal_split hsplit]
    omega
  · change s.queuedPackets = queueTotal _ moved.2 + (DispatchPhase.afterMove moved.1).packetDebt
    rw [DispatchPhase.afterMove_packetDebt, hp, queueTotal_split hsplit, hcount]
    omega
  · change s.pendingTotal + (DispatchPhase.afterMove moved.1).staged.length ≤ _
    rw [DispatchPhase.afterMove_staged]
    omega

variable {rest : List (Byte × OutgoingReliable)}

section

variable (h : Counted s)
variable {xs : List (Byte × OutgoingReliable)}

include h

/-- A packet a pass has taken is never refused. -/
theorem pendingTotal_lt {x : Byte × OutgoingReliable} (hphase : s.phase = .building (x :: rest)) :
    s.pendingTotal < maxPendingReliablePerPeer := by
  have hroom := h.room
  rw [hphase] at hroom
  simp only [DispatchPhase.staged, List.length_cons] at hroom
  omega

/-- The state after one round of the building loop, in which nothing is refused. -/
theorem buildNext_eq {c : Byte} {p : OutgoingReliable}
    (hphase : s.phase = .building ((c, p) :: rest)) : buildNext s c p rest = { s with
      nextSequence := Function.update s.nextSequence c ((s.nextSequence c + 1) % maxSequence)
      sent := Function.update s.sent c (s.sent c ++ [p])
      pending := Function.update s.pending c
        (s.pending c ++ [(buildQueuedReliablePacket s c p).2])
      pendingTotal := s.pendingTotal + 1
      phase := .afterBuild rest } := by
  have hlt := h.pendingTotal_lt hphase
  have hmax : maxPendingReliablePerPeer = 4096 := rfl
  simp only [buildNext, buildQueuedReliablePacket, recordPendingReliable, ge_iff_le,
    if_neg (Nat.not_le.mpr hlt)]
  rw [fetchAdd_of_lt (by omega)]

theorem build {c : Byte} {p : OutgoingReliable} (hphase : s.phase = .building ((c, p) :: rest)) :
    Counted (buildNext s c p rest) := by
  have hroom := h.room
  have hb := h.bytes
  have hp := h.packets
  rw [hphase] at hroom hb hp
  simp only [DispatchPhase.byteDebt, DispatchPhase.packetDebt, DispatchPhase.staged,
    List.length_cons] at hroom hb hp
  rw [h.buildNext_eq hphase]
  refine ⟨by simpa using hb, by simpa using hp, h.bytesLimit, h.packetsLimit, ?_, ?_⟩
  · have hupdate := queueTotal_update (fun _ => 1) s.pending c
      (s.pending c ++ [(buildQueuedReliablePacket s c p).2])
    have hin := h.inFlight
    simp only [List.map_append, List.sum_append, List.map_cons, List.map_nil, List.sum_cons,
      List.sum_nil] at hupdate
    change s.pendingTotal + 1 = queueTotal _ (Function.update s.pending c _) + s.released.sum
    omega
  · change s.pendingTotal + 1 + (DispatchPhase.afterBuild rest).staged.length ≤ _
    rw [DispatchPhase.afterBuild_staged]
    omega

theorem ack (bytes : Bytes) : Counted (processAck s bytes) := by
  rcases processAck_cases s bytes with heq | ⟨gone, kept, -, hperm, heq⟩
  · rw [heq]
    exact h
  · rw [heq]
    refine ⟨h.bytes, h.packets, h.bytesLimit, h.packetsLimit, ?_, h.room⟩
    have hupdate := queueTotal_update (fun _ => 1) s.pending (bytes.getD 3 0) kept
    have hlen := hperm.length_eq
    have hsum : (releasePending s (bytes.getD 3 0) gone kept).released.sum =
        gone.length + s.released.sum := by
      rw [releasePending]
      cases gone <;> simp
    have hin := h.inFlight
    have hcount : ∀ xs : List PendingReliable, (xs.map fun _ => 1).sum = xs.length :=
      fun xs => by simp
    rw [hcount, hcount] at hupdate
    rw [List.length_append] at hlen
    rw [hsum]
    change s.pendingTotal = queueTotal _ (Function.update s.pending _ kept) + _
    omega

theorem settle {r : ℕ} (hr : r ∈ s.released) : Counted { s with
      released := s.released.erase r
      pendingTotal := fetchSub s.pendingTotal r } := by
  have hsum : r + (s.released.erase r).sum = s.released.sum := by
    have := (List.perm_cons_erase hr).sum_eq
    rw [this, List.sum_cons]
  have hin := h.inFlight
  have hroom := h.room
  have hmax : maxPendingReliablePerPeer = 4096 := rfl
  have hsub : fetchSub s.pendingTotal r = s.pendingTotal - r := fetchSub_of_le (by omega) (by omega)
  refine ⟨h.bytes, h.packets, h.bytesLimit, h.packetsLimit, ?_, ?_⟩
  · change fetchSub s.pendingTotal r = queueTotal _ s.pending + (s.released.erase r).sum
    omega
  · change fetchSub s.pendingTotal r + s.phase.staged.length ≤ _
    omega

theorem releaseBytes (hphase : s.phase = .taken xs) : Counted { s with
      queuedBytes := fetchSub s.queuedBytes (xs.map fun x => x.2.payload.length).sum
      phase := .bytesReleased xs } := by
  have hroom := h.room
  have hb := h.bytes
  have hp := h.packets
  have hlim := h.bytesLimit
  have hmax : maxQueuedReliableBytesPerPeer = 8388608 := rfl
  rw [hphase] at hroom hb hp
  simp only [DispatchPhase.byteDebt] at hb
  have hsub : fetchSub s.queuedBytes (xs.map fun x => x.2.payload.length).sum =
      s.queuedBytes - (xs.map fun x => x.2.payload.length).sum :=
    fetchSub_of_le (by omega) (by omega)
  refine ⟨?_, hp, ?_, h.packetsLimit, h.inFlight, hroom⟩
  · change fetchSub s.queuedBytes _ = queueTotal _ s.outgoing + 0
    omega
  · change fetchSub s.queuedBytes _ ≤ _
    omega

theorem releasePackets (hphase : s.phase = .bytesReleased xs) : Counted { s with
      queuedPackets := fetchSub s.queuedPackets xs.length
      phase := .building xs } := by
  have hroom := h.room
  have hb := h.bytes
  have hp := h.packets
  have hlim := h.packetsLimit
  have hmax : maxQueuedReliablePacketsPerPeer = 8192 := rfl
  rw [hphase] at hroom hb hp
  simp only [DispatchPhase.packetDebt] at hp
  have hsub : fetchSub s.queuedPackets xs.length = s.queuedPackets - xs.length :=
    fetchSub_of_le (by omega) (by omega)
  refine ⟨hb, ?_, h.bytesLimit, ?_, h.inFlight, hroom⟩
  · change fetchSub s.queuedPackets _ = queueTotal _ s.outgoing + 0
    omega
  · change fetchSub s.queuedPackets _ ≤ _
    omega

theorem step {a : SendAction} (hstep : sendStep s a = some s') : Counted s' := by
  cases a with simp only [sendStep] at hstep
  | enqueue packets =>
    cases hstep
    exact h.enqueue packets
  | move order =>
    simp only [Option.ite_none_right_eq_some, Option.some.injEq] at hstep
    obtain ⟨⟨hidle, hwalk⟩, rfl⟩ := hstep
    exact h.move hidle hwalk.1
  | releaseBytes =>
    split at hstep
    · cases hstep
      exact h.releaseBytes ‹_›
    · cases hstep
  | releasePackets =>
    split at hstep
    · cases hstep
      exact h.releasePackets ‹_›
    · cases hstep
  | build =>
    split at hstep
    · cases hstep
      exact h.build ‹_›
    · cases hstep
  | ack bytes =>
    cases hstep
    exact h.ack bytes
  | settle r =>
    simp only [Option.ite_none_right_eq_some, Option.some.injEq] at hstep
    obtain ⟨hr, rfl⟩ := hstep
    exact h.settle hr
  | close =>
    cases hstep
    exact ⟨h.bytes, h.packets, h.bytesLimit, h.packetsLimit, h.inFlight, h.room⟩

end

end Counted

/-! ### Refinement of the channels -/

section Refinement

variable {s s' : SendState} {w : Byte → ℕ}

theorem enqueue_channel (packets : List (Byte × DeliveryMethod × Bytes)) (c : Byte) :
    ChannelStep s.connectionNumber c (w c) (s.channel c)
      ((enqueueReliableBatch s packets).2.channel c) := by
  rcases enqueueReliableBatch_spec s packets with heq | ⟨id, heq, hadm, -⟩
  · rw [heq]
    exact .stay _
  · rw [heq]
    have hstep : ChannelStep s.connectionNumber c (w c) (s.channel c) _ :=
      .accept (s.channel c) (onKey c (batchMessages s.nextFragmentId packets))
        fun m hm => hadm c m (mem_onKey.mp hm)
    rw [← onKey_flatMap_packets] at hstep
    exact hstep

/-- The number of packets a move takes from channel `c`. -/
def moveCount (s : SendState) (order : List Byte) (c : Byte) : ℕ :=
  takeCount s s.outgoing c
    (budgetAt s s.outgoing c order (maxPendingReliablePerPeer - s.pendingTotal))

theorem move_channel {order : List Byte} (hidle : s.phase = .idle) (hnodup : order.Nodup)
    (hfit : ∀ c, (s.sent c).length + moveCount s order c ≤ (s.channel c).base + w c) (c : Byte) :
    ChannelStep s.connectionNumber c (w c) (s.channel c) ((moveIntoWindow s order).channel c) := by
  obtain ⟨h₁, h₂⟩ := moveQueued_spec s hnodup (maxPendingReliablePerPeer - s.pendingTotal)
    s.outgoing c
  have hstaged : (s.channel c).staged = [] := by
    simp [SendState.channel, hidle, DispatchPhase.staged]
  have hchannel : (moveIntoWindow s order).channel c = { s.channel c with
      staged := (s.channel c).outgoing.take (moveCount s order c)
      outgoing := (s.channel c).outgoing.drop (moveCount s order c) } := by
    simp only [SendState.channel, moveIntoWindow, DispatchPhase.afterMove_staged, h₁, h₂]
    rfl
  rw [hchannel]
  exact .move _ _ (hfit c) hstaged

theorem build_channel (hcounted : Counted s) {d : Byte} {p : OutgoingReliable}
    {rest : List (Byte × OutgoingReliable)} (hphase : s.phase = .building ((d, p) :: rest))
    (hn : ∀ c, s.nextSequence c = (s.sent c).length % maxSequence) (c : Byte) :
    ChannelStep s.connectionNumber c (w c) (s.channel c) ((buildNext s d p rest).channel c) := by
  rw [hcounted.buildNext_eq hphase]
  by_cases hc : d = c
  · subst hc
    have hstaged : (s.channel d).staged = p :: onKey d rest := by
      simp [SendState.channel, hphase, DispatchPhase.staged]
    have hbuilt : (buildQueuedReliablePacket s d p).2 =
        builtPacket s.connectionNumber d (s.sent d).length p := by
      have hseq : nextPacketSequence s d = sequenceOf d (s.sent d).length := by
        rw [nextPacketSequence, sequenceOf, hn d]
        split_ifs
        · exact Nat.mod_add_mod _ _ _
        · rfl
      rw [buildQueuedReliablePacket, builtPacket, hseq]
    have hstep : ChannelStep s.connectionNumber d (w d) (s.channel d) _ :=
      .build (s.channel d) p (onKey d rest) hstaged (hn d)
    rw [hbuilt]
    simpa [SendState.channel] using hstep
  · have hphased : s.phase.staged = (d, p) :: rest := by rw [hphase]; rfl
    have hchannel : SendState.channel { s with
        nextSequence := Function.update s.nextSequence d ((s.nextSequence d + 1) % maxSequence)
        sent := Function.update s.sent d (s.sent d ++ [p])
        pending := Function.update s.pending d
          (s.pending d ++ [(buildQueuedReliablePacket s d p).2])
        pendingTotal := s.pendingTotal + 1
        phase := .afterBuild rest } c = s.channel c := by
      simp only [SendState.channel, Function.update_of_ne (Ne.symm hc), hphased,
        DispatchPhase.afterBuild_staged, onKey_cons_of_ne hc]
    rw [hchannel]
    exact .stay _

theorem release_channel {d : Byte} {gone kept : List PendingReliable}
    (hkept : kept.Sublist (s.pending d)) (hperm : (gone ++ kept).Perm (s.pending d)) (c : Byte) :
    ChannelStep s.connectionNumber c (w c) (s.channel c)
      ((releasePending s d gone kept).channel c) := by
  by_cases hc : d = c
  · subst hc
    have hstep : ChannelStep s.connectionNumber d (w d) (s.channel d) _ :=
      .release (s.channel d) gone kept hkept hperm
    simpa [SendState.channel, releasePending] using hstep
  · have hchannel : (releasePending s d gone kept).channel c = s.channel c := by
      simp [SendState.channel, releasePending, Function.update_of_ne (Ne.symm hc)]
    rw [hchannel]
    exact .stay _

/-- **Refinement.**  Every step of the send side is, on every channel, one move of a packet. -/
theorem sendStep_channel {a : SendAction} (hcounted : Counted s)
    (hn : ∀ c, s.nextSequence c = (s.sent c).length % maxSequence)
    (hfit : ∀ order, a = .move order → s.phase = .idle →
      ∀ c, (s.sent c).length + moveCount s order c ≤ (s.channel c).base + w c)
    (hstep : sendStep s a = some s') (c : Byte) :
    ChannelStep s.connectionNumber c (w c) (s.channel c) (s'.channel c) := by
  cases a with simp only [sendStep] at hstep
  | enqueue packets =>
    cases hstep
    exact enqueue_channel packets c
  | move order =>
    simp only [Option.ite_none_right_eq_some, Option.some.injEq] at hstep
    obtain ⟨⟨hidle, hwalk⟩, rfl⟩ := hstep
    exact move_channel hidle hwalk.1 (hfit order rfl hidle) c
  | releaseBytes =>
    split at hstep
    · rename_i xs hphase
      cases hstep
      have hchannel : SendState.channel { s with
          queuedBytes := fetchSub s.queuedBytes (xs.map fun x => x.2.payload.length).sum
          phase := .bytesReleased xs } c = s.channel c := by
        simp only [SendState.channel, hphase, DispatchPhase.staged]
      rw [hchannel]
      exact .stay _
    · cases hstep
  | releasePackets =>
    split at hstep
    · rename_i xs hphase
      cases hstep
      have hchannel : SendState.channel { s with
          queuedPackets := fetchSub s.queuedPackets xs.length
          phase := .building xs } c = s.channel c := by
        simp only [SendState.channel, hphase, DispatchPhase.staged]
      rw [hchannel]
      exact .stay _
    · cases hstep
  | build =>
    split at hstep
    · rename_i hphase
      cases hstep
      exact build_channel hcounted hphase hn c
    · cases hstep
  | ack bytes =>
    cases hstep
    rcases processAck_cases s bytes with heq | ⟨gone, kept, hkept, hperm, heq⟩
    · rw [heq]
      exact .stay _
    · rw [heq]
      exact release_channel hkept hperm c
  | settle r =>
    simp only [Option.ite_none_right_eq_some, Option.some.injEq] at hstep
    obtain ⟨-, rfl⟩ := hstep
    have hchannel : SendState.channel { s with
        released := s.released.erase r
        pendingTotal := fetchSub s.pendingTotal r } c = s.channel c := by
      simp only [SendState.channel]
    rw [hchannel]
    exact .stay _
  | close =>
    cases hstep
    exact .stay _

/-- The connection number of a peer is fixed, and only an acknowledgement releases anything. -/
theorem sendStep_fixed (hcounted : Counted s) {a : SendAction} (hstep : sendStep s a = some s') :
    s'.connectionNumber = s.connectionNumber ∧
      ((∀ bytes, a ≠ .ack bytes) → s'.acknowledged = s.acknowledged) := by
  cases a with
  | enqueue packets =>
    cases hstep
    rcases enqueueReliableBatch_spec s packets with heq | ⟨id, heq, -, -⟩ <;> rw [heq]
      <;> exact ⟨rfl, fun _ => rfl⟩
  | move order =>
    simp only [sendStep, Option.ite_none_right_eq_some, Option.some.injEq] at hstep
    rw [← hstep.2]
    exact ⟨rfl, fun _ => rfl⟩
  | releaseBytes | releasePackets =>
    simp only [sendStep] at hstep
    split at hstep <;> cases hstep
    exact ⟨rfl, fun _ => rfl⟩
  | build =>
    simp only [sendStep] at hstep
    split at hstep
    · rename_i hphase
      cases hstep
      rw [hcounted.buildNext_eq hphase]
      exact ⟨rfl, fun _ => rfl⟩
    · cases hstep
  | ack bytes =>
    cases hstep
    refine ⟨?_, fun hne => absurd rfl (hne bytes)⟩
    rcases processAck_cases s bytes with heq | ⟨gone, kept, -, -, heq⟩ <;> rw [heq]
    rfl
  | settle r =>
    simp only [sendStep, Option.ite_none_right_eq_some, Option.some.injEq] at hstep
    rw [← hstep.2]
    exact ⟨rfl, fun _ => rfl⟩
  | close =>
    cases hstep
    exact ⟨rfl, fun _ => rfl⟩

end Refinement

/-! ### Runs -/

/-- The invariant of the send side, for channels with windows of `w` packets. -/
structure SendSound (connectionNumber : BitVec 2) (w : Byte → ℕ) (s : SendState) : Prop where
  number : s.connectionNumber = connectionNumber
  counted : Counted s
  channels : ∀ c, ChannelSound connectionNumber c (w c) (s.channel c)

namespace SendSound

variable {cn : BitVec 2} {w : Byte → ℕ} {s s' : SendState}

theorem init (cn : BitVec 2) (w : Byte → ℕ) : SendSound cn w (.init cn) where
  number := rfl
  counted := by
    constructor <;> simp [SendState.init, queueTotal, DispatchPhase.byteDebt,
      DispatchPhase.packetDebt, DispatchPhase.staged]
  channels := by
    intro c
    constructor <;> simp [SendState.init, SendState.channel, DispatchPhase.staged]

/-- The step lemma: what has to be known of a move is that it fits the windows. -/
theorem step {a : SendAction} (h : SendSound cn w s)
    (hfit : ∀ order, a = .move order → s.phase = .idle →
      ∀ c, (s.sent c).length + moveCount s order c ≤ (s.channel c).base + w c)
    (hstep : sendStep s a = some s') : SendSound cn w s' where
  number := (sendStep_fixed h.counted hstep).1.trans h.number
  counted := h.counted.step hstep
  channels := by
    intro c
    have hch := sendStep_channel h.counted (fun c => (h.channels c).numbered) hfit hstep c
    rw [h.number] at hch
    exact (h.channels c).step hch

/-- Every move fits the windows the code computes. -/
theorem moveCount_le (h : SendSound cn windowWidth s) (hidle : s.phase = .idle)
    (order : List Byte) (c : Byte) :
    (s.sent c).length + moveCount s order c ≤ (s.channel c).base + windowWidth c := by
  have hstaged : (s.channel c).staged = [] := by
    simp [SendState.channel, hidle, DispatchPhase.staged]
  have hcap := (h.channels c).capacity_le le_rfl hstaged
  have hle : moveCount s order c ≤ (s.channel c).capacity := by
    rw [moveCount, takeCount]
    omega
  change (s.channel c).sent.length + _ ≤ _
  omega

end SendSound

variable {cn : BitVec 2} {s : SendState}

/-- **The send side is sound in every run**, with one more place in the windows of the sequenced
channels. -/
theorem sendSound_of_reachable {ok : SendState → SendAction → Prop}
    (h : Reachable (sendSystem cn) ok s) : SendSound cn windowWidth s := by
  refine h.invariant (SendSound cn windowWidth) ?_ ?_
  · intro s hs
    rw [hs]
    exact .init cn windowWidth
  · intro s a s' hsound _ hstep
    exact hsound.step (fun order _ hidle => hsound.moveCount_le hidle order) hstep

/-! ### Windows of 128 packets -/

/-- Before a move, the numbers a sequenced channel has in flight and those it is about to get stay
below the window size.  The next number of a sequenced channel is the last one it assigned. -/
def FitsWindow (s : SendState) (order : List Byte) : Prop :=
  ∀ c, isSequencedId c = true → ∀ front ∈ (s.pending c).head?,
    relativeSequence (s.nextSequence c) front.sequence +
      (min (s.outgoing c).length
        (budgetAt s s.outgoing c order (maxPendingReliablePerPeer - s.pendingTotal)) : ℕ) <
      defaultWindowSize

/-- The steps that keep every window within 128 packets. -/
def DispatchFits (s : SendState) : SendAction → Prop
  | .move order => FitsWindow s order
  | _ => True

instance (s : SendState) (order : List Byte) : Decidable (FitsWindow s order) :=
  inferInstanceAs (Decidable (∀ _, _))

instance (s : SendState) (a : SendAction) : Decidable (DispatchFits s a) :=
  match a with
  | .move order => inferInstanceAs (Decidable (FitsWindow s order))
  | .enqueue _ | .releaseBytes | .releasePackets | .build | .ack _ | .settle _ | .close =>
    isTrue trivial

theorem capacity_le_window (v : SendChannel) : v.capacity ≤ defaultWindowSize := by
  rw [SendChannel.capacity, reliableWindowCapacity]
  split_ifs <;> omega

/-- A move that fits leaves no window wider than 128 packets. -/
theorem SendSound.moveCount_le_of_fits {order : List Byte}
    (h : SendSound cn (fun _ => defaultWindowSize) s) (hidle : s.phase = .idle)
    (hfits : FitsWindow s order) (c : Byte) :
    (s.sent c).length + moveCount s order c ≤ (s.channel c).base + defaultWindowSize := by
  have hstaged : (s.channel c).staged = [] := by
    simp [SendState.channel, hidle, DispatchPhase.staged]
  have hch := h.channels c
  have hle : moveCount s order c ≤ (s.channel c).capacity := by
    rw [moveCount, takeCount]
    omega
  cases hseq : isSequencedId c with
  | false =>
    have hwidth : windowWidth c = defaultWindowSize := by rw [windowWidth, hseq]; rfl
    have hcap := hch.capacity_le hwidth.ge hstaged
    rw [hwidth] at hcap
    change (s.channel c).sent.length + _ ≤ _
    omega
  | true =>
    cases hp : s.pending c with
    | nil =>
      have hbase : (s.channel c).base = (s.sent c).length := by
        simp only [SendChannel.base, SendState.channel, hp]
      have hcap := capacity_le_window (s.channel c)
      omega
    | cons front rest =>
      have hmem : front ∈ (s.channel c).pending := by
        change front ∈ s.pending c
        rw [hp]
        exact .head _
      have hbase : (s.channel c).base = front.index := by
        simp only [SendChannel.base, SendState.channel, hp]
      have hlt : front.index < (s.sent c).length := hch.index_lt hmem
      have hwin : (s.sent c).length + 0 ≤ front.index + defaultWindowSize := by
        have hwin := hch.window
        rw [hstaged, hbase] at hwin
        exact hwin
      have hfit := hfits c hseq front (by rw [hp]; rfl)
      have hnext : s.nextSequence c = (s.sent c).length % maxSequence := hch.numbered
      have hcount : moveCount s order c ≤ min (s.outgoing c).length
          (budgetAt s s.outgoing c order (maxPendingReliablePerPeer - s.pendingTotal)) := by
        rw [moveCount, takeCount]
        omega
      rw [defaultWindowSize] at hfit hwin ⊢
      rw [hnext, hch.sequence_eq hmem, sequenceOf, hseq, if_pos rfl,
        relativeSequence_unwrap _ _ (by omega) (by omega)] at hfit
      omega

theorem sendSound_of_fits (h : Reachable (sendSystem cn) DispatchFits s) :
    SendSound cn (fun _ => defaultWindowSize) s := by
  refine h.invariant (SendSound cn fun _ => defaultWindowSize) ?_ ?_
  · intro s hs
    rw [hs]
    exact .init cn _
  · intro s a s' hsound hok hstep
    refine hsound.step ?_ hstep
    intro order ha hidle
    subst ha
    exact hsound.moveCount_le_of_fits hidle hok

/-- The numbers of an in-flight queue increase strictly and span less than one window. -/
def InWindow (pending : List PendingReliable) : Prop :=
  pending.Pairwise fun p q => 0 < relativeSequence q.sequence p.sequence ∧
    relativeSequence q.sequence p.sequence < defaultWindowSize

theorem ChannelSound.inWindow {c : Byte} {v : SendChannel}
    (h : ChannelSound cn c defaultWindowSize v) : InWindow v.pending := by
  have hsorted := h.sorted
  rw [List.pairwise_map] at hsorted
  refine hsorted.imp_of_mem ?_
  intro p q hp hq hlt
  have hbase := h.base_le_index hp
  have hsent := h.index_lt hq
  have hwin := h.window
  rw [defaultWindowSize] at hwin
  rw [h.sequence_eq hp, h.sequence_eq hq, sequenceOf, sequenceOf, defaultWindowSize]
  split_ifs <;> rw [relativeSequence_unwrap _ _ (by omega) (by omega)] <;> omega

/-- What the send queue owes to the payloads it has admitted. -/
structure QueueConserved (s : SendState) : Prop where
  /-- The counters agree with the queues and stay within their limits; the debts are zero unless a
  dispatch pass or an acknowledgement is between two locks. -/
  counted : Counted s
  /-- On every channel the packets numbered, taken and queued are those of the admitted payloads. -/
  kept : ∀ c, s.sent c ++ onKey c s.phase.staged ++ s.outgoing c =
    (s.accepted c).flatMap Message.packets
  /-- Every numbered packet is in flight or acknowledged, exactly once. -/
  ledger : ∀ c, (s.acknowledged c ++ (s.pending c).map fun item => item.index).Perm
    (List.range (s.sent c).length)
  /-- An in-flight packet is the numbered packet it stands for. -/
  wire : ∀ c, ∀ item ∈ s.pending c, ∃ p, (s.sent c)[item.index]? = some p ∧
    item.bytes = reliablePacketBytes s.connectionNumber c item.sequence p
  /-- A packet that was taken from its queue is not refused. -/
  unrefused : ∀ c p rest, s.phase = .building ((c, p) :: rest) →
    let (built, packet) := buildQueuedReliablePacket s c p
    (recordPendingReliable built c packet).1 = true
  window : ∀ c, InWindow (s.pending c)

/-- **Conservation of the reliable send queue.**  In every run whose dispatch passes fit the
sequenced windows, nothing admitted is lost before it is acknowledged, the counters are those of the
queues, and admission is all or nothing. -/
theorem send_queue_conserved {cn : BitVec 2} {s : SendState}
    (h : Reachable (sendSystem cn) DispatchFits s) :
    QueueConserved s ∧ ∀ packets,
      enqueueReliableBatch s packets = (false, s) ∨
      (enqueueReliableBatch s packets).1 = true ∧
        ∀ c, (enqueueReliableBatch s packets).2.outgoing c =
          s.outgoing c ++ onKey c (batchPackets s.nextFragmentId packets) := by
  have hsound := sendSound_of_fits h
  have hch := hsound.channels
  constructor
  · refine ⟨hsound.counted, fun c => (hch c).conserved, fun c => (hch c).ledger, ?_, ?_,
      fun c => (hch c).inWindow⟩
    · intro c item hitem
      obtain ⟨p, hp, heq⟩ := (hch c).wire item hitem
      refine ⟨p, hp, ?_⟩
      rw [hsound.number, heq]
      rfl
    · intro c p rest hphase
      have hlt := hsound.counted.pendingTotal_lt hphase
      simp only [buildQueuedReliablePacket, recordPendingReliable, ge_iff_le,
        if_neg (Nat.not_le.mpr hlt)]
  · intro packets
    rcases enqueueReliableBatch_spec s packets with heq | ⟨id, heq, -, -⟩
    · exact .inl heq
    · exact .inr (by rw [heq]; exact ⟨rfl, fun _ => rfl⟩)

/-- One small payload for channel id 3, the sequenced id of channel 0. -/
def smallSequenced : Byte × DeliveryMethod × Bytes := (0, .reliableSequenced, [])

/-- A dispatch pass for `n` packets of channel id 3. -/
def sequencedPass (n : ℕ) : List SendAction :=
  [.enqueue (List.replicate n smallSequenced), .move [3], .releaseBytes, .releasePackets] ++
    List.replicate n .build

/-- Three packets on two channels; the first one is acknowledged, and the next pass finds the other
two in flight. -/
def twoPasses : List SendAction :=
  [.enqueue [(0, .reliableSequenced, [7#8]), (0, .reliableSequenced, [8#8]),
      (0, .reliableOrdered, [9#8, 10#8])], .move [3, 2], .releaseBytes, .releasePackets,
    .build, .build, .build, .ack (PacketProperty.ack.header 0 :: leBytes 2 1 ++ [3]), .settle 1,
    .enqueue [(0, .reliableSequenced, [11#8])], .move [2, 3], .releaseBytes,
    .releasePackets, .build]

theorem send_queue_conserved_two : ∃ s, Reachable (sendSystem 0) DispatchFits s ∧
    (s.pending 3).map (fun item => item.sequence) = [2, 3] ∧ (s.pending 2).length = 1 ∧
    QueueConserved s := by
  have hrun : ((runActions (sendSystem 0) (.init 0) twoPasses).any fun s =>
      decide ((s.pending 3).map (fun item => item.sequence) = [2, 3] ∧
        (s.pending 2).length = 1)) = true := by
    decide +kernel
  have hadmit : Admits (sendSystem 0) DispatchFits (.init 0) twoPasses := by
    decide +kernel
  obtain ⟨s, hreach, hs⟩ := exists_reachable_of_run _ hadmit (.init rfl) hrun
  obtain ⟨hthree, htwo⟩ := of_decide_eq_true hs
  exact ⟨s, hreach, hthree, htwo, (send_queue_conserved hreach).1⟩

/-- One packet in flight and 128 more behind it: the sequenced window takes them all. -/
theorem sequenced_window_overrun :
    ∃ s, Reachable (sendSystem 0) (fun _ _ => True) s ∧ ¬ QueueConserved s := by
  have hrun : ((runActions (sendSystem 0) (.init 0) (sequencedPass 1 ++ sequencedPass 128)).any
      fun s => (s.pending 3).map (fun item => item.sequence) = List.range' 1 129) = true := by
    decide +kernel
  obtain ⟨hsome, hseq⟩ := (Option.any_eq_true_iff_get _ _).mp hrun
  refine ⟨_, reachable_runActions (.of_forall (fun _ _ => trivial) _ _) (.init rfl)
    (Option.some_get hsome).symm, ?_⟩
  intro h
  have hwin := h.window 3
  have hnums := of_decide_eq_true hseq
  have hpair : (List.range' 1 129).Pairwise fun x y =>
      0 < relativeSequence y x ∧ relativeSequence y x < defaultWindowSize := by
    rw [← hnums, List.pairwise_map]
    exact hwin
  have hfirst := (List.pairwise_cons.mp hpair).1 129 (by decide)
  exact absurd hfirst (by decide)

end BasisRust.Transport

