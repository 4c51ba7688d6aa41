import BasisRust.Transport.Datagrams

/-!
# Packing is lossless

`Carries` says that a datagram is a packet on its own, or a header with an entry for each packet of
a group, every length field in range.  The receiving side reads such a datagram as its group
(`Carries.received`); the framings are lawful for it, so every packer's datagrams carry the packets
it was given, in order, and are read back as these packets (`packing_is_lossless`).
-/

namespace BasisRust.Transport

open Library

/-! ### Entries -/

theorem mergedFrame_length (packet : Bytes) : (mergedFrame packet).length = 2 + packet.length := by
  rw [mergedFrame, List.length_append, leBytes_length]

theorem leBytes_two (v : ℕ) : ∃ a b, leBytes 2 v = [a, b] := ⟨_, _, rfl⟩

/-- The plain processor reads an entry back. -/
theorem processMergedFrom_frame {packet : Bytes} (hvalid : isValidMergedPacket packet = true)
    (hplain : isNestedMergedPacket packet = false) (hlen : packet.length < 65536) (call : ℕ)
    (rest : Bytes) :
    processMergedFrom neverFails call (mergedFrame packet ++ rest) =
      (processMergedFrom neverFails (call + 1) rest).after packet .dispatched := by
  obtain ⟨a, b, hbytes⟩ := leBytes_two packet.length
  have hsize : leNat [a, b] = packet.length := by
    rw [← hbytes]
    exact leNat_leBytes_two _ hlen
  have hpos : packet.length ≠ 0 := by
    intro hzero
    rw [List.eq_nil_of_length_eq_zero hzero] at hvalid
    cases hvalid
  have htake : (packet ++ rest).take packet.length = packet := List.take_left' rfl
  have hdrop : (packet ++ rest).drop packet.length = rest := List.drop_left' rfl
  rw [mergedFrame, hbytes]
  show processMergedFrom neverFails call (a :: b :: (packet ++ rest)) = _
  rw [processMergedFrom]
  dsimp only
  rw [hsize, htake, hdrop, if_neg, if_neg (by rw [hplain]; simp), if_pos hvalid,
    if_neg (neverFails_ne call)]
  rw [List.length_append]
  omega

namespace CompactFrame

/-- The packet a frame stands for. -/
def packet (connectionNumber : BitVec 2) : CompactFrame → Bytes
  | unreliable channel payload =>
    PacketProperty.unreliable.header connectionNumber :: channel :: payload
  | raw packet => packet

/-- The frame can be read back: its channel has six bits, a raw packet is one the receiver takes,
and its length field is not truncated. -/
def Fits : CompactFrame → Prop
  | unreliable channel payload => channel &&& compactChannelMask = channel ∧ payload.length < 65536
  | raw packet => isRawCompactEntry packet = true ∧ packet.length < 65536

end CompactFrame

/-- Tag and length of an entry, before the long flag is set. -/
def taggedLength (tag : Byte) (len : ℕ) : Bytes :=
  if len ≤ 255 then [tag, BitVec.ofNat 8 len]
  else (tag ||| compactLongLengthFlag) :: leBytes 2 len

theorem taggedLength_length (tag : Byte) (len : ℕ) :
    (taggedLength tag len).length = compactEntryHeaderLen len := by
  rw [taggedLength, compactEntryHeaderLen]
  split <;> rfl

variable {tag : Byte} {payload rest : Bytes} {group : List Bytes} {connectionNumber : BitVec 2}

theorem compactPayload_short {len : Byte} (htag : tag &&& 0x80#8 = 0#8)
    (hlen : len.toNat = payload.length) :
    compactPayload tag (len :: (payload ++ rest)) = some (payload, rest) := by
  unfold compactPayload
  rw [if_neg (not_not.mpr htag)]
  dsimp only
  rw [hlen, List.take_left' rfl, List.drop_left' rfl, if_neg]
  rw [List.length_append]
  omega

theorem compactPayload_long {a b : Byte} (htag : tag &&& 0x80#8 ≠ 0#8)
    (hlen : leNat [a, b] = payload.length) (hlong : ¬payload.length ≤ 255) :
    compactPayload tag (a :: b :: (payload ++ rest)) = some (payload, rest) := by
  unfold compactPayload
  rw [if_pos htag]
  dsimp only
  rw [hlen, List.take_left' rfl, List.drop_left' rfl, if_neg]
  rw [List.length_append]
  omega

/-- An entry the validator and the processor take. -/
theorem compactEntry_of_payload {bytes : Bytes}
    (hpayload : compactPayload tag bytes = some (payload, rest))
    (hchannel : isRawTag tag = true → tag &&& 0x3f#8 = 0#8)
    (hraw : isRawTag tag = true → isRawCompactEntry payload = true) :
    compactEntry tag bytes = some (payload, rest) := by
  rw [compactEntry, if_neg (fun h => h.2 (hchannel h.1)), hpayload]
  cases htag : isRawTag tag with
  | false => rfl
  | true =>
    rw [Option.filter_some, hraw htag]
    rfl

/-- The long flag changes nothing else in a tag. -/
theorem longTag_fields (tag : Byte) :
    isRawTag (tag ||| compactLongLengthFlag) = isRawTag tag ∧
      (tag ||| compactLongLengthFlag) &&& 0x3f#8 = tag &&& 0x3f#8 ∧
      (tag ||| compactLongLengthFlag) &&& 0x80#8 ≠ 0#8 := by
  revert tag
  decide

/-- **Tag, length and payload are read back.** -/
theorem taggedLength_read (tag : Byte) (payload rest : Bytes)
    (hlow : tag &&& 0x80#8 = 0#8) (hlen : payload.length < 65536)
    (hchannel : isRawTag tag = true → tag &&& 0x3f#8 = 0#8)
    (hraw : isRawTag tag = true → isRawCompactEntry payload = true) :
    ∃ tag' len tail, taggedLength tag payload.length ++ payload ++ rest = tag' :: len :: tail ∧
      compactEntry tag' (len :: tail) = some (payload, rest) ∧ isRawTag tag' = isRawTag tag ∧
      tag' &&& 0x3f#8 = tag &&& 0x3f#8 := by
  rw [taggedLength]
  split
  · next hshort =>
    refine ⟨tag, BitVec.ofNat 8 payload.length, payload ++ rest, rfl, ?_, rfl, rfl⟩
    refine compactEntry_of_payload (compactPayload_short hlow ?_) hchannel hraw
    rw [BitVec.toNat_ofNat]
    omega
  · next hlong =>
    obtain ⟨a, b, hbytes⟩ := leBytes_two payload.length
    obtain ⟨hrawTag, hlowBits, hflag⟩ := longTag_fields tag
    refine ⟨tag ||| compactLongLengthFlag, a, b :: (payload ++ rest), ?_, ?_, hrawTag, hlowBits⟩
    · rw [hbytes]
      rfl
    · refine compactEntry_of_payload (compactPayload_long hflag ?_ hlong) ?_ ?_
      · rw [← hbytes]
        exact leNat_leBytes_two _ hlen
      · rw [hrawTag, hlowBits]
        exact hchannel
      · rw [hrawTag]
        exact hraw

theorem channelTag_fields (channel : Byte) :
    (channel &&& compactChannelMask) &&& 0x80#8 = 0#8 ∧
      isRawTag (channel &&& compactChannelMask) = false ∧
      (channel &&& compactChannelMask) &&& 0x3f#8 = channel &&& compactChannelMask := by
  revert channel
  decide

namespace CompactFrame

theorem bytes_length (frame : CompactFrame) : frame.bytes.length = frame.framedLen := by
  cases frame with
  | unreliable channel payload =>
    show (taggedLength _ payload.length ++ payload).length = _
    rw [List.length_append, taggedLength_length]
    rfl
  | raw packet =>
    show (taggedLength _ packet.length ++ packet).length = _
    rw [List.length_append, taggedLength_length]
    rfl

/-- **A frame is read back.** -/
theorem read {frame : CompactFrame} (h : frame.Fits) (connectionNumber : BitVec 2) (rest : Bytes) :
    ∃ tag len tail payload, frame.bytes ++ rest = tag :: len :: tail ∧
      compactEntry tag (len :: tail) = some (payload, rest) ∧
      compactPacket connectionNumber tag payload = frame.packet connectionNumber := by
  cases frame with
  | unreliable channel payload =>
    obtain ⟨hchannel, hlen⟩ := h
    obtain ⟨hlow, hraw, hmask⟩ := channelTag_fields channel
    obtain ⟨tag, len, tail, hbytes, hread, htag, hbits⟩ := taggedLength_read _ payload
      rest hlow hlen (by rw [hraw]; exact nofun) (by rw [hraw]; exact nofun)
    refine ⟨tag, len, tail, payload, hbytes, hread, ?_⟩
    rw [compactPacket, htag, hraw, hbits, hmask, hchannel]
    rfl
  | raw packet =>
    obtain ⟨hraw, hlen⟩ := h
    obtain ⟨tag, len, tail, hbytes, hread, htag, -⟩ := taggedLength_read
      compactRawPacketFlag packet rest (by decide) hlen (fun _ => by decide)
      (fun _ => hraw)
    refine ⟨tag, len, tail, packet, hbytes, hread, ?_⟩
    rw [compactPacket, htag]
    rfl

end CompactFrame

/-! ### What a datagram carries -/

/-- A datagram is one packet as it is, or holds an entry for each packet of a group and is within
the limit.  `leBytes 2` writes the whole of a length below `65536`, so no length field is
truncated. -/
inductive Carries (connectionNumber : BitVec 2) (limit : ℕ) : Bytes → List Bytes → Prop
  | bare (packet : Bytes) (hplain : isNestedMergedPacket packet = false) :
      Carries connectionNumber limit packet [packet]
  | merged (group : List Bytes) (hne : group ≠ [])
      (hvalid : ∀ p ∈ group, isValidMergedPacket p = true ∧ isNestedMergedPacket p = false ∧
        p.length < 65536)
      (hsmall : (PacketProperty.merged.header connectionNumber ::
        group.flatMap mergedFrame).length ≤ limit) :
      Carries connectionNumber limit
        (PacketProperty.merged.header connectionNumber :: group.flatMap mergedFrame) group
  | compact (frames : List CompactFrame) (hne : frames ≠ []) (hfits : ∀ e ∈ frames, e.Fits)
      (hsmall : (PacketProperty.compactMerged.header connectionNumber ::
        frames.flatMap CompactFrame.bytes).length ≤ limit) :
      Carries connectionNumber limit
        (PacketProperty.compactMerged.header connectionNumber ::
          frames.flatMap CompactFrame.bytes) (frames.map (CompactFrame.packet connectionNumber))

/-- The walk that dispatches these packets and nothing else. -/
def Walk.all (packets : List Bytes) : Walk := ⟨packets.map fun p => (p, .dispatched), [], false⟩

namespace Walk

theorem all_cons (packet : Bytes) (packets : List Bytes) :
    all (packet :: packets) = (all packets).after packet .dispatched := rfl

theorem dispatched_all (packets : List Bytes) : (all packets).dispatched = packets := by
  induction packets with
  | nil => rfl
  | cons packet packets ih => rw [all_cons, dispatched_after, if_pos rfl, ih]

theorem reads_all {packets : List Bytes} (hne : packets ≠ []) : (all packets).Reads 0 := by
  refine ⟨rfl, rfl, ?_, ?_⟩
  · intro e he
    obtain ⟨p, _, rfl⟩ := List.mem_map.mp he
    exact nofun
  · rw [dispatched_all, Nat.zero_add]
    exact List.length_pos_of_ne_nil hne

end Walk

theorem processMergedFrom_frames
    (hvalid : ∀ p ∈ group, isValidMergedPacket p = true ∧ isNestedMergedPacket p = false ∧
      p.length < 65536) (call : ℕ) :
    processMergedFrom neverFails call (group.flatMap mergedFrame) = .all group := by
  induction group generalizing call with
  | nil =>
    rw [List.flatMap_nil, processMergedFrom]
    · rfl
    · simp
  | cons packet group ih =>
    obtain ⟨hpacket, hplain, hlen⟩ := hvalid packet (.head _)
    rw [List.flatMap_cons, processMergedFrom_frame hpacket hplain hlen,
      ih (fun p hp => hvalid p (.tail _ hp)), Walk.all_cons]

theorem processCompactMergedFrom_frames (connectionNumber : BitVec 2) {frames : List CompactFrame}
    (hfits : ∀ e ∈ frames, e.Fits) (call : ℕ) :
    processCompactMergedFrom connectionNumber neverFails call
      (frames.flatMap CompactFrame.bytes) =
        .all (frames.map (CompactFrame.packet connectionNumber)) := by
  induction frames generalizing call with
  | nil => exact processCompactMergedFrom_nil
  | cons frame frames ih =>
    obtain ⟨tag, len, tail, payload, hbytes, hread, hpacket⟩ :=
      CompactFrame.read (hfits frame (.head _)) connectionNumber
        (frames.flatMap CompactFrame.bytes)
    rw [List.flatMap_cons, hbytes, processCompactMergedFrom_some hread,
      if_neg (neverFails_ne call), ih (fun e he => hfits e (.tail _ he)), hpacket,
      List.map_cons, Walk.all_cons]

/-- **The receiving side reads a datagram as the packets it carries.** -/
theorem Carries.received {limit : ℕ} {datagram : Bytes}
    (h : Carries connectionNumber limit datagram group) :
    receivedPackets connectionNumber datagram = group := by
  cases h with
  | bare packet hplain =>
    rw [isNestedMergedPacket] at hplain
    rw [receivedPackets]
    split
    · next heq =>
      rw [heq] at hplain
      cases hplain
    · next heq =>
      rw [heq] at hplain
      cases hplain
    · rfl
  | merged group hne hvalid hsmall =>
    have hwalk : processMergedPacket neverFails (PacketProperty.merged.header connectionNumber ::
        group.flatMap mergedFrame) = .all group := processMergedFrom_frames hvalid 0
    have hwell : isWellFormedMerged (PacketProperty.merged.header connectionNumber ::
        group.flatMap mergedFrame) = true := by
      rw [processMergedPacket_reads, hwalk]
      exact Walk.reads_all hne
    rw [receivedPackets, List.head?_cons, Option.bind_some, fromByte_header]
    dsimp only
    rw [nestedEntries_eq, unpackMerged, if_pos hwell, hwalk]
    exact Walk.dispatched_all group
  | compact frames hne hfits hsmall =>
    have hwalk : processCompactMergedPacket connectionNumber neverFails
        (PacketProperty.compactMerged.header connectionNumber ::
          frames.flatMap CompactFrame.bytes) =
            .all (frames.map (CompactFrame.packet connectionNumber)) :=
      processCompactMergedFrom_frames connectionNumber hfits 0
    have hwell : isWellFormedCompactMerged (PacketProperty.compactMerged.header connectionNumber ::
        frames.flatMap CompactFrame.bytes) = true := by
      rw [processCompactMergedPacket_reads connectionNumber, hwalk]
      exact Walk.reads_all (by simpa using hne)
    rw [receivedPackets, List.head?_cons, Option.bind_some, fromByte_header]
    dsimp only
    rw [nestedEntries_eq, unpackMerged, if_pos hwell, hwalk]
    exact Walk.dispatched_all _

/-- A datagram with several packets is within the limit. -/
theorem Carries.small {limit : ℕ} {datagram : Bytes}
    (h : Carries connectionNumber limit datagram group) (hmany : 1 < group.length) :
    datagram.length ≤ limit := by
  cases h with
  | bare packet hplain => exact absurd hmany (Nat.lt_irrefl 1)
  | merged _ _ _ hsmall | compact _ _ _ hsmall => exact hsmall

/-! ### The framings are lawful -/

section

variable {α : Type} {f : Framing α Byte} {connectionNumber : BitVec 2} {item : α → Bytes}
  {ok : α → Prop}

/-- A packet as the transport builds it: long enough for its header and not merged itself, and with
the connection's own header byte if it is unreliable. -/
structure Outbound (connectionNumber : BitVec 2) (packet : Bytes) : Prop where
  valid : isValidMergedPacket packet = true
  plain : isNestedMergedPacket packet = false
  header : ∀ header rest, packet = header :: rest →
    PacketProperty.fromByte header = some .unreliable →
      header = PacketProperty.unreliable.header connectionNumber

theorem Outbound.of_header {property : PacketProperty} {header : Byte} {rest : Bytes}
    (hproperty : PacketProperty.fromByte header = some property)
    (hlen : mergedHeaderSize property ≤ (header :: rest).length)
    (hplain : property ≠ .merged ∧ property ≠ .compactMerged)
    (hheader : property = .unreliable →
      header = PacketProperty.unreliable.header connectionNumber) :
    Outbound connectionNumber (header :: rest) := by
  refine ⟨?_, ?_, ?_⟩
  · rw [isValidMergedPacket, List.head?_cons, Option.bind_some, hproperty]
    exact decide_eq_true hlen
  · rw [isNestedMergedPacket, List.head?_cons, Option.bind_some, hproperty]
    cases property <;> first | rfl | exact absurd rfl hplain.1 | exact absurd rfl hplain.2
  · intro header' rest' heq hunreliable
    rw [← (List.cons.inj heq).1] at hunreliable ⊢
    rw [hproperty] at hunreliable
    exact hheader (Option.some.inj hunreliable)

/-- **Every packet the callers build is outbound.** -/
theorem BuiltPacket.outbound (connectionNumber : BitVec 2) (packet : BuiltPacket) :
    Outbound connectionNumber (packet.bytes connectionNumber) := by
  cases packet with
  | unreliable channel payload =>
    refine .of_header (fromByte_header .unreliable _) ?_ (by decide) (fun _ => rfl)
    exact Nat.le_add_left _ _
  | sequenced channelId sequence payload =>
    refine .of_header (fromByte_header .channeled _) ?_ (by decide) nofun
    simp [mergedHeaderSize]
    omega
  | reliable channelId sequence outgoing =>
    show Outbound _ (reliablePacketBytes connectionNumber channelId sequence outgoing)
    rw [reliablePacketBytes]
    cases outgoing.fragment with
    | none =>
      refine .of_header (fromByte_header .channeled _) ?_ (by decide) nofun
      simp [mergedHeaderSize]
      omega
    | some fragment =>
      refine .of_header (fromByte_fragmented _) ?_ (by decide) nofun
      simp [mergedHeaderSize]
      omega
  | ack channelId windowStart bits =>
    refine .of_header (fromByte_header .ack _) ?_ (by decide) nofun
    simp [mergedHeaderSize]
    omega
  | ping sequence =>
    refine .of_header (fromByte_header .ping _) ?_ (by decide) nofun
    simp [mergedHeaderSize]

theorem merged_lawful (hheader : f.header = PacketProperty.merged.header connectionNumber)
    (hlimit : f.limit < 65536) (hlen : ∀ a, f.framedLen a = 2 + (item a).length)
    (hframe : ∀ a, f.frame a = mergedFrame (item a)) (hbare : ∀ a, f.bare a = item a)
    (hok : ∀ a, ok a → Outbound connectionNumber (item a))
    (hsingle : ∀ a, ok a → f.framedLen a + 1 ≤ f.limit →
      f.single (f.header :: f.frame a) = item a ∨
        f.single (f.header :: f.frame a) = f.header :: f.frame a) :
    f.Lawful (Carries connectionNumber f.limit) item ok := by
  have hframed : ∀ a, ok a → f.framedLen a + 1 ≤ f.limit →
      isValidMergedPacket (item a) = true ∧ isNestedMergedPacket (item a) = false ∧
        (item a).length < 65536 := by
    intro a ha hsmall
    rw [hlen] at hsmall
    exact ⟨(hok a ha).valid, (hok a ha).plain, by omega⟩
  have hmap : ∀ group : List α, group.flatMap f.frame = (group.map item).flatMap mergedFrame := by
    intro group
    rw [List.flatMap_map]
    exact congrArg (fun g => group.flatMap g) (funext hframe)
  refine ⟨?_, ?_, ?_, ?_⟩
  · intro a _ _
    rw [hframe, hlen, mergedFrame_length]
  · intro a ha
    rw [hbare]
    exact .bare _ (hok a ha).plain
  · intro a ha _ hsmall
    rcases hsingle a ha hsmall with heq | heq
    · rw [heq]
      exact .bare _ (hok a ha).plain
    · have hflat : f.frame a = [item a].flatMap mergedFrame := by
        rw [hframe, List.flatMap_singleton]
      rw [heq, hheader, hflat]
      refine .merged [item a] (List.cons_ne_nil _ _) ?_ ?_
      · intro p hp
        rw [List.mem_singleton.mp hp]
        exact hframed a ha hsmall
      · rw [← hflat, hframe, List.length_cons, mergedFrame_length, ← hlen]
        exact hsmall
  · intro group hgroup hne hsmall
    rw [hheader, hmap] at hsmall ⊢
    refine .merged _ (by simpa using hne) ?_ hsmall
    intro p hp
    obtain ⟨a, ha, rfl⟩ := List.mem_map.mp hp
    exact hframed a (hgroup a ha).1 (hgroup a ha).2.2

theorem compactSingleEntry_raw {payload : Bytes} (h : isRawCompactEntry payload = true) :
    (if payload.length < litenetlibChanneledHeaderSize then none
    else
      match payload.head?.bind PacketProperty.fromByte with
      | some .channeled => some payload
      | some .ack => some payload
      | _ => none) = some payload := by
  rw [isRawCompactEntry, Bool.and_eq_true, Bool.and_eq_true, decide_eq_true_eq] at h
  obtain ⟨⟨hlength, _⟩, hproperty⟩ := h
  have hroom : ¬payload.length < litenetlibChanneledHeaderSize := Nat.not_lt.mpr hlength
  rw [if_neg hroom]
  split at hproperty
  · next heq => rw [heq]
  · next heq => rw [heq]
  · cases hproperty

/-- The packet of a datagram with one frame. -/
theorem unpackSingleCompactPacket_frame (connectionNumber : BitVec 2) {frame : CompactFrame}
    (h : frame.Fits) :
    unpackSingleCompactPacket
      (PacketProperty.compactMerged.header connectionNumber :: frame.bytes) =
        frame.packet connectionNumber := by
  obtain ⟨tag, len, tail, payload, hbytes, hread, hpacket⟩ :=
    CompactFrame.read h connectionNumber []
  rw [List.append_nil] at hbytes
  obtain ⟨hchannel, hpayload, hraw⟩ := compactEntry_some hread
  rw [unpackSingleCompactPacket, hbytes, ← hpacket]
  have hsingle : compactSingleEntry
      (PacketProperty.compactMerged.header connectionNumber :: tag :: len :: tail) =
        some (compactPacket connectionNumber tag payload) := by
    have hmask : ¬(isRawTag tag = true ∧ tag &&& compactChannelMask ≠ 0) := hchannel
    rw [compactSingleEntry, fromByte_header, if_neg (not_not.mpr rfl), if_neg hmask, hpayload,
      compactPacket]
    dsimp only
    split
    · next htag =>
      apply compactSingleEntry_raw
      cases hentry : isRawCompactEntry payload with
      | true => rfl
      | false => exact absurd ⟨htag, hentry⟩ hraw
    · rw [connectionNumberOf_header]
      rfl
  rw [hsingle]
  rfl

/-- What a compact framing makes of an item. -/
structure FramesAs (f : Framing α Byte) (connectionNumber : BitVec 2) (item : α → Bytes) (a : α)
    (frame : CompactFrame) : Prop where
  bytes : f.frame a = frame.bytes
  packet : frame.packet connectionNumber = item a
  length : f.framedLen a = frame.framedLen
  fits : f.framedLen a + 1 ≤ f.limit → frame.Fits

theorem compact_lawful (hheader : f.header = PacketProperty.compactMerged.header connectionNumber)
    (hsingle : f.single = unpackSingleCompactPacket) (frameOf : α → CompactFrame)
    (hframe : ∀ a, ok a → f.eligible a = true → FramesAs f connectionNumber item a (frameOf a))
    (hbare : ∀ a, f.bare a = item a) (hok : ∀ a, ok a → Outbound connectionNumber (item a)) :
    f.Lawful (Carries connectionNumber f.limit) item ok := by
  refine ⟨?_, ?_, ?_, ?_⟩
  · intro a ha heligible
    obtain ⟨hbytes, _, hlen, _⟩ := hframe a ha heligible
    rw [hbytes, hlen, CompactFrame.bytes_length]
  · intro a ha
    rw [hbare]
    exact .bare _ (hok a ha).plain
  · intro a ha heligible hsmall
    obtain ⟨hbytes, hpacket, _, hfits⟩ := hframe a ha heligible
    rw [hsingle, hheader, hbytes, unpackSingleCompactPacket_frame connectionNumber (hfits hsmall),
      hpacket]
    exact .bare _ (hok a ha).plain
  · intro group hgroup hne hsmall
    have hbytes : group.flatMap f.frame = (group.map frameOf).flatMap CompactFrame.bytes := by
      rw [List.flatMap_map]
      refine List.flatMap_congr ?_
      intro a ha
      exact (hframe a (hgroup a ha).1 (hgroup a ha).2.1).bytes
    have hitems : group.map item =
        (group.map frameOf).map (CompactFrame.packet connectionNumber) := by
      rw [List.map_map]
      refine List.map_congr_left ?_
      intro a ha
      exact (hframe a (hgroup a ha).1 (hgroup a ha).2.1).packet.symm
    rw [hheader, hbytes] at hsmall ⊢
    rw [hitems]
    refine .compact _ (by simpa using hne) ?_ hsmall
    intro e he
    obtain ⟨a, ha, rfl⟩ := List.mem_map.mp he
    exact (hframe a (hgroup a ha).1 (hgroup a ha).2.1).fits (hgroup a ha).2.2

end

/-! ### The packers -/

section

variable {connectionNumber : BitVec 2} {packet : Bytes}

/-- The plain form's entry is unwrapped. -/
theorem unpackSingleMergedPacket_frame (header : Byte) (hlen : packet.length < 65536) :
    unpackSingleMergedPacket (header :: mergedFrame packet) = packet := by
  obtain ⟨a, b, hbytes⟩ := leBytes_two packet.length
  have hsize : leNat [a, b] = packet.length := by
    rw [← hbytes]
    exact leNat_leBytes_two _ hlen
  rw [mergedFrame, hbytes]
  show (if packet.length < leNat [a, b] then header :: a :: b :: packet
    else packet.take (leNat [a, b])) = packet
  rw [hsize, if_neg (Nat.lt_irrefl _), List.take_length]

theorem mergedFraming_lawful (connectionNumber : BitVec 2) :
    (mergedFraming connectionNumber).Lawful (Carries connectionNumber maxMergedPacketSize) id
      (Outbound connectionNumber) := by
  have hlimit : (mergedFraming connectionNumber).limit < 65536 := by
    show 1200 < 65536
    decide
  refine merged_lawful rfl hlimit (fun _ => rfl) (fun _ => rfl) (fun _ => rfl) (fun _ h => h) ?_
  intro packet _ hsmall
  refine Or.inl (unpackSingleMergedPacket_frame _ ?_)
  have hlen : 2 + packet.length + 1 ≤ 1200 := hsmall
  omega

theorem compactUnreliableEntry_some {channel : Byte} {payload : Bytes}
    (h : compactUnreliableEntry packet = some (channel, payload)) :
    ∃ header, packet = header :: channel :: payload ∧
      PacketProperty.fromByte header = some .unreliable ∧
      channel &&& ~~~compactChannelMask = 0 := by
  match packet, h with
  | [], h => cases h
  | [_], h => cases h
  | header :: channel' :: payload', h =>
    rw [compactUnreliableEntry] at h
    split_ifs at h with hproperty hchannel
    cases h
    exact ⟨header, rfl, not_not.mp hproperty, not_not.mp hchannel⟩

theorem compactRawEntry_some {raw : Bytes} (h : compactRawEntry packet = some raw) :
    raw = packet ∧ isRawCompactEntry packet = true ∧ packet.length < 65536 := by
  rw [compactRawEntry] at h
  split_ifs at h with hlen
  rw [not_or] at hlen
  have hroom : 4 ≤ packet.length := Nat.le_of_not_lt hlen.1
  have hshort : packet.length < 65536 := Nat.lt_succ_of_le (Nat.le_of_not_lt hlen.2)
  rw [isRawCompactEntry, isNestedMergedPacket, decide_eq_true hroom]
  split at h
  · next heq =>
    rw [heq]
    exact ⟨(Option.some.inj h).symm, rfl, hshort⟩
  · next heq =>
    rw [heq]
    exact ⟨(Option.some.inj h).symm, rfl, hshort⟩
  · cases h

theorem sixBits_of_high {channel : Byte} (h : channel &&& ~~~compactChannelMask = 0) :
    channel &&& compactChannelMask = channel := by
  revert channel
  decide

/-- A frame of a packet stands for it. -/
theorem CompactFrame.of_some {frame : CompactFrame} (h : CompactFrame.of packet = some frame)
    (hpacket : Outbound connectionNumber packet) :
    frame.packet connectionNumber = packet ∧ (frame.framedLen < 65536 → frame.Fits) := by
  rw [CompactFrame.of] at h
  cases hentry : compactUnreliableEntry packet with
  | some entry =>
    obtain ⟨header, hbytes, hproperty, hchannel⟩ := compactUnreliableEntry_some hentry
    rw [hentry] at h
    cases h
    refine ⟨?_, ?_⟩
    · rw [CompactFrame.packet, ← hpacket.header header _ hbytes hproperty]
      exact hbytes.symm
    · intro hlen
      refine ⟨sixBits_of_high hchannel, ?_⟩
      exact Nat.lt_of_le_of_lt (Nat.le_add_left _ _) hlen
  | none =>
    rw [hentry] at h
    obtain ⟨raw, hraw, rfl⟩ := Option.map_eq_some_iff.mp h
    obtain ⟨rfl, hentry, hlen⟩ := compactRawEntry_some hraw
    exact ⟨rfl, fun _ => ⟨hentry, hlen⟩⟩

theorem compactFraming_lawful (connectionNumber : BitVec 2) {mtu : ℕ} (hmtu : mtu < 65536) :
    (compactFraming connectionNumber mtu).Lawful (Carries connectionNumber mtu) id
      (Outbound connectionNumber) := by
  refine compact_lawful rfl rfl (fun packet => (CompactFrame.of packet).getD (.raw [])) ?_
    (fun _ => rfl) (fun _ h => h)
  intro packet hpacket heligible
  obtain ⟨frame, hframe⟩ := Option.isSome_iff_exists.mp heligible
  obtain ⟨hitem, hfits⟩ := CompactFrame.of_some hframe hpacket
  have hlen : (compactFraming connectionNumber mtu).framedLen packet = frame.framedLen := by
    show ((CompactFrame.of packet).map CompactFrame.framedLen).getD 0 = _
    rw [hframe]
    rfl
  rw [hframe]
  refine ⟨?_, hitem, hlen, ?_⟩
  · show ((CompactFrame.of packet).map CompactFrame.bytes).getD [] = _
    rw [hframe]
    rfl
  · intro hsmall
    apply hfits
    rw [← hlen]
    exact Nat.lt_trans (Nat.lt_of_succ_le hsmall) hmtu

/-! ### The hot path -/

namespace UnreliablePacket

/-- The payload with the byte of the patch replaced. -/
def patched (packet : UnreliablePacket) : Bytes :=
  match packet.intervalPatch with
  | some (offset, value) => packet.payload.set offset value
  | none => packet.payload

/-- What the receiver should get. -/
def sent (connectionNumber : BitVec 2) (packet : UnreliablePacket) : Bytes :=
  PacketProperty.unreliable.header connectionNumber :: packet.channel :: packet.patched

theorem patched_length (packet : UnreliablePacket) :
    packet.patched.length = packet.payload.length := by
  rw [patched]
  split
  · exact List.length_set
  · rfl

theorem extend_eq (output : Bytes) (packet : UnreliablePacket) :
    extendPayloadWithPatch output packet.payload packet.intervalPatch =
      output ++ packet.patched := by
  unfold extendPayloadWithPatch patched
  cases packet.intervalPatch with
  | none => rfl
  | some patch =>
    obtain ⟨offset, value⟩ := patch
    show (if offset < packet.payload.length then _ else _) =
      output ++ packet.payload.set offset value
    split
    · rw [List.set_append_right _ _ (Nat.le_add_right _ _), Nat.add_sub_cancel_left]
    · next hout => rw [List.set_eq_of_length_le (Nat.le_of_not_lt hout)]

theorem bare_eq (connectionNumber : BitVec 2) (packet : UnreliablePacket) :
    packet.bare connectionNumber = packet.sent connectionNumber :=
  extend_eq _ packet

/-- An unreliable packet is one the receiver takes. -/
theorem sent_outbound (connectionNumber : BitVec 2) (packet : UnreliablePacket) :
    Outbound connectionNumber (packet.sent connectionNumber) := by
  refine .of_header (fromByte_header .unreliable _) ?_ (by decide) (fun _ => rfl)
  exact Nat.le_add_left _ _

theorem compactFraming_lawful (connectionNumber : BitVec 2) (mtu : ℕ) :
    (compactFraming connectionNumber mtu).Lawful (Carries connectionNumber mtu)
      (sent connectionNumber) fun _ => True := by
  refine compact_lawful rfl rfl (fun packet => .unreliable packet.channel packet.patched) ?_
    (bare_eq connectionNumber) (fun packet _ => packet.sent_outbound connectionNumber)
  intro packet _ heligible
  have hboth := Bool.and_eq_true_iff.mp heligible
  have hchannel : packet.channel &&& ~~~compactChannelMask = 0 := by simpa using hboth.1
  have hlen : packet.payload.length ≤ 65535 := of_decide_eq_true hboth.2
  refine ⟨?_, rfl, ?_, ?_⟩
  · rw [CompactFrame.bytes, packet.patched_length]
    exact extend_eq _ packet
  · rw [CompactFrame.framedLen, packet.patched_length]
    rfl
  · intro _
    refine ⟨sixBits_of_high hchannel, ?_⟩
    rw [packet.patched_length]
    exact Nat.lt_succ_of_le hlen

theorem mergedFraming_lawful (connectionNumber : BitVec 2) {mtu : ℕ} (hmtu : mtu < 65536) :
    (mergedFraming connectionNumber mtu).Lawful (Carries connectionNumber mtu)
      (sent connectionNumber) fun _ => True := by
  have hsent : ∀ packet : UnreliablePacket,
      (packet.sent connectionNumber).length = packet.payload.length + 2 := by
    intro packet
    rw [sent, List.length_cons, List.length_cons, packet.patched_length]
  refine merged_lawful rfl hmtu ?_ ?_ (bare_eq connectionNumber)
    (fun packet _ => packet.sent_outbound connectionNumber) (fun _ _ _ => Or.inr rfl)
  · intro packet
    rw [hsent]
    exact Nat.add_comm _ _
  · intro packet
    rw [mergedFrame, hsent, ← bare_eq]
    rfl

end UnreliablePacket

end

/-! ### The builder is the reference packer -/

/-- The builder holds what the packer of the plain form holds; without an entry its datagram is not
even begun. -/
structure MergedDatagramBuilder.Follows (b : MergedDatagramBuilder) (connectionNumber : BitVec 2)
    (s : PackState Byte) : Prop where
  number : b.connectionNumber = connectionNumber
  datagrams : b.datagrams = s.units
  count : b.count = s.count
  begun : 0 < s.count → b.current = s.current
  fresh : s.count = 0 → b.current = [] ∧ s.current = [PacketProperty.merged.header connectionNumber]

namespace MergedDatagramBuilder

variable {b : MergedDatagramBuilder} {connectionNumber : BitVec 2} {s : PackState Byte}

theorem Follows.reset (b : MergedDatagramBuilder) (connectionNumber : BitVec 2) :
    (b.reset connectionNumber).Follows connectionNumber (mergedFraming connectionNumber).start :=
  ⟨rfl, rfl, rfl, fun h => absurd h (Nat.lt_irrefl 0), fun _ => ⟨rfl, rfl⟩⟩

theorem Follows.seal (h : b.Follows connectionNumber s) :
    b.sealDatagram.Follows connectionNumber ((mergedFraming connectionNumber).close s) := by
  rw [sealDatagram, Framing.close, h.count]
  split
  · exact h
  · next hcount =>
    refine ⟨h.number, ?_, rfl, fun h => absurd h (Nat.lt_irrefl 0), fun _ => ⟨rfl, rfl⟩⟩
    rw [h.datagrams, h.begun (Nat.pos_of_ne_zero hcount)]
    rfl

/-- The packer's step, in the values of the plain form. -/
theorem mergedFraming_step (connectionNumber : BitVec 2) (s : PackState Byte) (packet : Bytes) :
    (mergedFraming connectionNumber).step s packet =
      let f := mergedFraming connectionNumber
      let s :=
        if 0 < s.count ∧ s.current.length + (2 + packet.length) > maxMergedPacketSize then f.close s
        else s
      if 2 + packet.length + 1 > maxMergedPacketSize then f.sendBare (f.close s) packet
      else { s with current := s.current ++ mergedFrame packet, count := s.count + 1 } := rfl

theorem Follows.push (h : b.Follows connectionNumber s) (packet : Bytes) :
    (b.push packet).Follows connectionNumber ((mergedFraming connectionNumber).step s packet) := by
  rw [MergedDatagramBuilder.push, mergedFraming_step]
  dsimp only
  -- the builder after the first test
  have hfull : (0 < b.count ∧ b.current.length + (2 + packet.length) > maxMergedPacketSize) ↔
      (0 < s.count ∧ s.current.length + (2 + packet.length) > maxMergedPacketSize) := by
    rw [h.count]
    refine and_congr_right fun hpos => ?_
    rw [h.begun hpos]
  have hfirst : (if 0 < b.count ∧ b.current.length + (2 + packet.length) > maxMergedPacketSize then
        b.sealDatagram else b).Follows connectionNumber
      (if 0 < s.count ∧ s.current.length + (2 + packet.length) > maxMergedPacketSize then
        (mergedFraming connectionNumber).close s else s) := by
    by_cases hover : 0 < s.count ∧ s.current.length + (2 + packet.length) > maxMergedPacketSize
    · rw [if_pos hover, if_pos (hfull.mpr hover)]
      exact h.seal
    · rw [if_neg hover, if_neg (fun hb => hover (hfull.mp hb))]
      exact h
  revert hfirst
  generalize (if 0 < b.count ∧ b.current.length + (2 + packet.length) > maxMergedPacketSize then
    b.sealDatagram else b) = b₁
  generalize (if 0 < s.count ∧ s.current.length + (2 + packet.length) > maxMergedPacketSize then
    (mergedFraming connectionNumber).close s else s) = s₁
  intro h₁
  split
  · -- sent bare
    have hsealed : (if 0 < b₁.count then b₁.sealDatagram else b₁) = b₁.sealDatagram := by
      split
      · rfl
      · next hzero =>
        rw [sealDatagram, if_pos (Nat.eq_zero_of_not_pos hzero)]
    have h₂ := h₁.seal
    rw [hsealed]
    refine ⟨h₂.number, ?_, h₂.count, h₂.begun, h₂.fresh⟩
    show b₁.sealDatagram.datagrams ++ [packet] = _
    rw [h₂.datagrams]
    rfl
  · refine ⟨?_, ?_, ?_, ?_, fun hzero => absurd hzero (Nat.succ_ne_zero _)⟩
    · split <;> exact h₁.number
    · split <;> exact h₁.datagrams
    · split
      · next hempty =>
        show 0 + 1 = s₁.count + 1
        rw [← h₁.count, hempty.1]
      · exact congrArg (· + 1) h₁.count
    · intro _
      by_cases hzero : s₁.count = 0
      · obtain ⟨hempty, hheader⟩ := h₁.fresh hzero
        rw [if_pos ⟨h₁.count.trans hzero, hempty⟩, hheader]
        show [PacketProperty.merged.header b₁.connectionNumber] ++ _ = _
        rw [h₁.number]
      · rw [if_neg (fun hb => hzero (h₁.count.symm.trans hb.1)),
          h₁.begun (Nat.pos_of_ne_zero hzero)]

/-- **The builder's datagrams are those of the reference packer.** -/
theorem datagramsFor_eq (b : MergedDatagramBuilder) (connectionNumber : BitVec 2)
    (packets : List Bytes) :
    b.datagramsFor connectionNumber packets = (mergedFraming connectionNumber).pack packets := by
  have hrun : ∀ (packets : List Bytes) (b : MergedDatagramBuilder) (s : PackState Byte),
      b.Follows connectionNumber s → (packets.foldl MergedDatagramBuilder.push b).Follows
        connectionNumber (packets.foldl (mergedFraming connectionNumber).step s) := by
    intro packets
    induction packets with
    | nil => exact fun _ _ h => h
    | cons packet packets ih => exact fun b s h => ih _ _ (h.push packet)
  exact (hrun packets _ _ (.reset b connectionNumber)).seal.datagrams

end MergedDatagramBuilder

/-! ### Every packer is lossless -/

/-- The datagrams are read back as the packets, in order; one with several packets is within the
limit; and every datagram is well framed, so that no length field is truncated. -/
structure Lossless (connectionNumber : BitVec 2) (limit : ℕ) (packets datagrams : List Bytes) :
    Prop where
  decoded : datagrams.flatMap (receivedPackets connectionNumber) = packets
  small : ∀ d ∈ datagrams, 1 < (receivedPackets connectionNumber d).length → d.length ≤ limit
  framed : ∀ d ∈ datagrams,
    Carries connectionNumber limit d (receivedPackets connectionNumber d)

section

variable {connectionNumber : BitVec 2} {limit : ℕ} {packets datagrams : List Bytes}

theorem Lossless.of_packed (h : Packed (Carries connectionNumber limit) datagrams packets) :
    Lossless connectionNumber limit packets datagrams := by
  have hread := fun d group (hd : Carries connectionNumber limit d group) => hd.received
  have hframed : ∀ d ∈ datagrams,
      Carries connectionNumber limit d (receivedPackets connectionNumber d) := by
    intro d hd
    obtain ⟨group, hgroup⟩ := h.exists_group d hd
    rw [hgroup.received]
    exact hgroup
  exact ⟨h.decode hread, fun d hd hmany => (hframed d hd).small hmany, hframed⟩

/-- At most one packet is sent as it is. -/
theorem Lossless.of_few (h : packets.length ≤ 1)
    (hpackets : ∀ p ∈ packets, Outbound connectionNumber p) :
    Lossless connectionNumber limit packets packets := by
  apply of_packed
  match packets, h with
  | [], _ => exact .nil
  | [packet], _ => exact .snoc .nil (.bare packet (hpackets packet (.head _)).plain)

theorem buildMergedDatagrams_lossless (hpackets : ∀ p ∈ packets, Outbound connectionNumber p) :
    Lossless connectionNumber maxMergedPacketSize packets
      (buildMergedDatagrams connectionNumber packets) := by
  rw [buildMergedDatagrams]
  split
  · next hfew => exact .of_few hfew hpackets
  · have hpacked := (mergedFraming_lawful connectionNumber).pack_packed packets hpackets
    rw [List.map_id] at hpacked
    exact .of_packed hpacked

theorem buildCompactMergedDatagrams_lossless {mtu : ℕ} (hmtu : mtu < 65536)
    (hpackets : ∀ p ∈ packets, Outbound connectionNumber p) :
    Lossless connectionNumber mtu packets
      (buildCompactMergedDatagrams connectionNumber mtu packets) := by
  rw [buildCompactMergedDatagrams]
  split
  · next hfew => exact .of_few hfew hpackets
  · have hpacked := (compactFraming_lawful connectionNumber hmtu).pack_packed packets hpackets
    rw [List.map_id] at hpacked
    exact .of_packed hpacked

theorem buildSendDatagrams_lossless (compactSend : Bool)
    (hpackets : ∀ p ∈ packets, Outbound connectionNumber p) :
    Lossless connectionNumber maxMergedPacketSize packets
      (buildSendDatagrams connectionNumber compactSend packets) := by
  rw [buildSendDatagrams]
  split
  · next hfew => exact .of_few hfew hpackets
  · dsimp only
    split
    · exact buildCompactMergedDatagrams_lossless (by decide) hpackets
    · exact buildMergedDatagrams_lossless hpackets

theorem unreliableDatagrams_lossless (compactMergeSend : Bool) {mtu : ℕ} (hmtu : mtu < 65536)
    (sends : List UnreliablePacket) :
    Lossless connectionNumber mtu (sends.map (UnreliablePacket.sent connectionNumber))
      (unreliableDatagrams connectionNumber compactMergeSend mtu sends) := by
  unfold unreliableDatagrams
  split
  · exact .of_packed .nil
  · next packet =>
    rw [UnreliablePacket.bare_eq]
    exact .of_packed (.snoc .nil (.bare _ (packet.sent_outbound connectionNumber).plain))
  · split
    · exact .of_packed ((UnreliablePacket.compactFraming_lawful connectionNumber mtu).pack_packed
        sends fun _ _ => trivial)
    · exact .of_packed ((UnreliablePacket.mergedFraming_lawful connectionNumber hmtu).pack_packed
        sends fun _ _ => trivial)

end

/-- **Datagram packing is lossless.** Whatever outbound packets are packed, and whatever payloads
the hot path is given, the datagrams of every packer are read back as exactly these packets, with
their patches applied and in the same order; a datagram with several packets is within the MTU; and
no length field is truncated. -/
theorem packing_is_lossless (connectionNumber : BitVec 2) (packets : List Bytes)
    (hpackets : ∀ p ∈ packets, Outbound connectionNumber p)
    (sends : List UnreliablePacket) (mtu : ℕ) (hmtu : mtu < 65536) :
    Lossless connectionNumber maxMergedPacketSize packets
      (buildMergedDatagrams connectionNumber packets) ∧
    Lossless connectionNumber mtu packets
      (buildCompactMergedDatagrams connectionNumber mtu packets) ∧
    (∀ compactSend, Lossless connectionNumber maxMergedPacketSize packets
      (buildSendDatagrams connectionNumber compactSend packets)) ∧
    (∀ b : MergedDatagramBuilder, Lossless connectionNumber maxMergedPacketSize packets
      (b.datagramsFor connectionNumber packets)) ∧
    ∀ compactMergeSend, Lossless connectionNumber mtu
      (sends.map (UnreliablePacket.sent connectionNumber))
      (unreliableDatagrams connectionNumber compactMergeSend mtu sends) := by
  refine ⟨buildMergedDatagrams_lossless hpackets,
    buildCompactMergedDatagrams_lossless hmtu hpackets,
    fun compactSend => buildSendDatagrams_lossless compactSend hpackets, ?_,
    fun compactMergeSend => unreliableDatagrams_lossless compactMergeSend hmtu sends⟩
  intro b
  have hpacked := (mergedFraming_lawful connectionNumber).pack_packed packets hpackets
  rw [List.map_id] at hpacked
  rw [b.datagramsFor_eq]
  exact .of_packed hpacked

def samplePackets : List BuiltPacket := [.unreliable 5 [1, 2], .reliable 2 7 ⟨[3], none⟩, .ping 4]

def sampleSends : List UnreliablePacket := [⟨5, [9, 8], some (0, 7)⟩, ⟨6, [1], some (3, 7)⟩]

/-- Three packets and two payloads, one of them with a patch that applies. -/
theorem packing_is_lossless_sample :
    (buildMergedDatagrams 1 (samplePackets.map (BuiltPacket.bytes 1))).flatMap (receivedPackets 1) =
      [[0x20, 5, 1, 2], [0x21, 7, 0, 2, 3], [0x23, 4, 0]] ∧
    (unreliableDatagrams 1 true 1200 sampleSends).flatMap (receivedPackets 1) =
      [[0x20, 5, 7, 8], [0x20, 6, 1]] := by
  have h := packing_is_lossless 1 (samplePackets.map (BuiltPacket.bytes 1)) (by
    intro p hp
    obtain ⟨packet, _, rfl⟩ := List.mem_map.mp hp
    exact packet.outbound 1) sampleSends 1200 (by decide)
  exact ⟨h.1.decoded, (h.2.2.2.2 true).decoded⟩

end BasisRust.Transport
