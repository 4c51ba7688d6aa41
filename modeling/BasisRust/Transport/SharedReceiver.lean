import BasisRust.Transport.ClientDispatch

/-!
# The shared receiver

One thread can receive for many clients.  It drops what a load sink does not need, records reliable
packets in the receive window without handling them, and forwards the others to the dispatch of the
client.

`shared_receiver_agrees`: over a merged or compact-merged datagram the shared receiver records or
forwards the same channeled packets and acknowledgements that the dispatch handles, in the same
order, except those it may lose: unfragmented packets of a sequenced delivery method on a channel
whose payload nobody needs. Both walks stop in front of the same entry.
-/

namespace BasisRust.Transport.Client

open Library

/-- The sessions of a client that decide which channels are kept. -/
structure SharedClient where
  sceneSession : Bool
  persistenceSession : Bool
  imageBenchmark : Bool
  deriving DecidableEq

namespace channels

def authIdentity : ℕ := 0
def metaData : ℕ := 1
def netIdAssign : ℕ := 22
def netIdAssigns : ℕ := 23
def scene : ℕ := 24
def deltaAvatar : ℕ := 30
def storage : ℕ := 32
def directSceneServer : ℕ := 57

end channels

/-- The channels whose packets go on to the client. -/
def SharedClient.keeps (client : SharedClient) (channel : ℕ) : Bool :=
  [channels.authIdentity, channels.metaData, channels.netIdAssign, channels.netIdAssigns,
      channels.deltaAvatar].contains channel ||
    (decide (channel = channels.scene) && client.sceneSession) ||
    (decide (channel = channels.storage) && client.persistenceSession) ||
    ([channels.scene, channels.directSceneServer].contains channel && client.imageBenchmark)

inductive SharedAct where
  /-- `mark_new` of the receive window -/
  | record (bytes : Bytes) (channelId : Byte) (sequence : ℕ)
  | forward (bytes : Bytes)
  | pong (header : Byte) (sequence : ℕ)
  | drop (reason : DropReason)
  deriving DecidableEq

/-- `shared_receiver_mark_reliable`. -/
def markReliable (bytes : Bytes) : List SharedAct :=
  if bytes.length < litenetlibChanneledHeaderSize then [.drop (unparsedReason bytes)]
  else if bytes.headD 0 &&& 0x1f#8 ≠ BitVec.ofNat 8 PacketProperty.channeled.code then []
  else if (channelIdOf bytes).toNat % 4 ≠ 0 ∧ (channelIdOf bytes).toNat % 4 ≠ 2 then []
  else [.record bytes (channelIdOf bytes) (sequenceOf bytes)]

/-- `shared_receiver_process_raw`: what it does, and whether the packet is forwarded. -/
def processRaw (client : SharedClient) (bytes : Bytes) : List SharedAct × Bool :=
  match parsePacket bytes with
  | none => ([.drop (unparsedReason bytes)], false)
  | some packet =>
    match packet.property with
    | .ack =>
      if packet.payload.length ≠ ackPayloadSize then ([.drop .invalidAckSize], false)
      else ([], true)
    | .channeled =>
      if isFragmented bytes || client.keeps ((packet.channelId.getD 0).toNat / 4) then ([], true)
      else (markReliable bytes, false)
    | _ => ([], false)

/-- What the walks do with a raw packet. -/
def rawActs (client : SharedClient) (bytes : Bytes) : List SharedAct :=
  let (acts, forward) := processRaw client bytes
  acts ++ if forward then [.forward bytes] else []

/-- The loop of `shared_receiver_process_merged`. -/
def sharedMergedFrom (client : SharedClient) (bytes : Bytes) : Walked SharedAct :=
  match bytes with
  | a :: b :: rest =>
    let size := leNat [a, b]
    if size = 0 ∨ rest.length < size then .stop [.drop .invalidMerged] bytes
    else
      let packet := rest.take size
      let property := packet.headD 0 &&& 0x1f#8
      match PacketProperty.fromByte (packet.headD 0) with
      | some .merged | some .compactMerged => .stop [.drop .invalidMerged] bytes
      | _ =>
        if property = BitVec.ofNat 8 PacketProperty.unreliable.code then
          .after (if packet.length < 2 then [.drop (unparsedReason packet)] else [])
            (sharedMergedFrom client (rest.drop size))
        else
          let pong :=
            if property = BitVec.ofNat 8 PacketProperty.ping.code ∧ 3 ≤ packet.length then
              [SharedAct.pong (packet.headD 0) (sequenceOf packet)]
            else []
          .after (rawActs client packet ++ pong) (sharedMergedFrom client (rest.drop size))
  | [] => .stop [] []
  | [a] => .stop [.drop .invalidMerged] [a]
termination_by bytes.length
decreasing_by
  all_goals
    rw [List.length_drop, List.length_cons, List.length_cons]
    omega

/-- The loop of `shared_receiver_process_compact`. -/
def sharedCompactFrom (client : SharedClient) (bytes : Bytes) : Walked SharedAct :=
  match bytes with
  | [] => .stop [] []
  | [tag] => .stop [.drop .invalidMerged] [tag]
  | tag :: len :: rest =>
    let raw := decide (tag &&& 0x40#8 ≠ 0#8)
    if raw = true ∧ tag &&& 0x3f#8 ≠ 0#8 then .stop [.drop .invalidMerged] bytes
    else
      match _h : payloadLength tag (len :: rest) with
      | none => .stop [.drop .invalidMerged] bytes
      | some (packetLen, behind) =>
        if behind.length < packetLen then .stop [.drop .invalidMerged] bytes
        else
          let packet := behind.take packetLen
          if raw = false then sharedCompactFrom client (behind.drop packetLen)
          else if packetLen < 4 ∨ (PacketProperty.fromByte (packet.headD 0) ≠ some .ack ∧
              PacketProperty.fromByte (packet.headD 0) ≠ some .channeled) then
            .stop [.drop .invalidMerged] bytes
          else .after (rawActs client packet) (sharedCompactFrom client (behind.drop packetLen))
termination_by bytes.length
decreasing_by
  all_goals
    have hlt := payloadLength_length _h
    rw [List.length_drop, List.length_cons]
    omega

/-- The walk of the shared receiver over a container. -/
def sharedProcess (client : SharedClient) (bytes : Bytes) : Walked SharedAct :=
  match bytes.head?.bind PacketProperty.fromByte with
  | some .merged => sharedMergedFrom client (bytes.drop 1)
  | some .compactMerged => sharedCompactFrom client (bytes.drop 1)
  | _ => .stop [] []

/-! ### Reliable packets -/

/-- A channeled packet or an acknowledgement that is handled. -/
structure Reliable where
  bytes : Bytes
  channelId : Byte
  sequence : ℕ
  deriving DecidableEq

/-- The packet of a call of the dispatch: every channeled packet, and an acknowledgement with a
whole window. -/
def Act.reliable : Act → Option Reliable
  | .channeled bytes channelId sequence _ _ => some ⟨bytes, channelId, sequence⟩
  | .ack bytes channelId sequence payload =>
    if payload.length = ackPayloadSize then some ⟨bytes, channelId, sequence⟩ else none
  | _ => none

/-- The packet that is recorded or forwarded. -/
def SharedAct.reliable : SharedAct → Option Reliable
  | .record bytes channelId sequence => some ⟨bytes, channelId, sequence⟩
  | .forward bytes => some ⟨bytes, channelIdOf bytes, sequenceOf bytes⟩
  | _ => none

/-- What the shared receiver lets go: a packet that no window records and no session needs. -/
def SharedClient.loses (client : SharedClient) (p : Reliable) : Bool :=
  decide (p.bytes.head?.bind PacketProperty.fromByte = some .channeled) && !isFragmented p.bytes &&
    !client.keeps (p.channelId.toNat / 4) &&
    (decide (DeliveryMethod.fromChannelId p.channelId = .sequenced) ||
      decide (DeliveryMethod.fromChannelId p.channelId = .reliableSequenced))

/-! ### One entry -/

/-- What a header says is what the packet says. -/
structure Parsed (bytes : Bytes) (packet : ParsedPacket) : Prop where
  property : bytes.head?.bind PacketProperty.fromByte = some packet.property
  length : headerLength packet.property ≤ bytes.length
  sequence : packet.property = .ack ∨ packet.property = .channeled →
    packet.sequence = some (sequenceOf bytes)
  channelId : packet.property = .ack ∨ packet.property = .channeled →
    packet.channelId = some (channelIdOf bytes)

variable {bytes : Bytes}

theorem parsed_of {packet : ParsedPacket} (h : parsePacket bytes = some packet) :
    Parsed bytes packet := by
  unfold parsePacket at h
  split at h
  · cases h
  rename_i first rest
  split at h
  · cases h
  rename_i property hproperty
  split at h
  · cases h
  rename_i hlength
  cases h
  refine ⟨hproperty, Nat.not_lt.mp hlength, ?_, ?_⟩
  all_goals
    rintro (hp | hp)
    · cases hp
      rfl
    · cases hp
      rfl

theorem unparsedReason_ne (bytes : Bytes) : unparsedReason bytes ≠ .invalidMerged := by
  unfold unparsedReason
  split
  · exact nofun
  · split
    · exact nofun
    · exact nofun

theorem fromByte_channeled (h : bytes.head?.bind PacketProperty.fromByte = some .channeled) :
    bytes.headD 0 &&& 0x1f#8 = BitVec.ofNat 8 PacketProperty.channeled.code := by
  cases bytes with
  | nil => cases h
  | cons first rest =>
    have hcode := PacketProperty.fromByte_code h
    exact BitVec.eq_of_toNat_eq (hcode.trans rfl)

theorem loses_of_not_channeled {client : SharedClient} {p : Reliable}
    (h : p.bytes.head?.bind PacketProperty.fromByte ≠ some .channeled) :
    client.loses p = false := by
  unfold SharedClient.loses
  rw [decide_eq_false h]
  rfl

/-- Where the window records nothing, the delivery is sequenced. -/
theorem sequenced_iff (channelId : Byte) : (channelId.toNat % 4 ≠ 0 ∧ channelId.toNat % 4 ≠ 2) ↔
    DeliveryMethod.fromChannelId channelId = .sequenced ∨
      DeliveryMethod.fromChannelId channelId = .reliableSequenced := by
  unfold DeliveryMethod.fromChannelId
  have hlt := Nat.mod_lt channelId.toNat (by decide : 0 < 4)
  generalize channelId.toNat % 4 = m at hlt
  interval_cases m <;> decide

/-- What two walks do with one entry. -/
structure SameActs (client : SharedClient) (acts : List Act) (shared : List SharedAct) : Prop where
  reliable : (acts.filterMap Act.reliable).filter (fun p => !client.loses p) =
    shared.filterMap SharedAct.reliable
  valid : Act.drop .invalidMerged ∉ acts
  sharedValid : SharedAct.drop .invalidMerged ∉ shared

theorem sameActs_drop {client : SharedClient} {reason reason' : DropReason}
    (h : reason ≠ .invalidMerged)
    (h' : reason' ≠ .invalidMerged) : SameActs client [.drop reason] [.drop reason'] := by
  refine ⟨rfl, ?_, ?_⟩
  · rintro (_ | ⟨_, hmem⟩)
    · exact h rfl
    · cases hmem
  · rintro (_ | ⟨_, hmem⟩)
    · exact h' rfl
    · cases hmem

section Entry

variable (client : SharedClient) {bytes : Bytes} {packet : ParsedPacket}

theorem sameActs_ack (h : Parsed bytes packet) (hack : packet.property = .ack) :
    SameActs client [.ack bytes (channelIdOf bytes) (sequenceOf bytes) packet.payload]
      (if packet.payload.length ≠ ackPayloadSize then [.drop .invalidAckSize]
        else [.forward bytes]) := by
  have hkept : client.loses ⟨bytes, channelIdOf bytes, sequenceOf bytes⟩ = false := by
    refine loses_of_not_channeled ?_
    rw [h.property, hack]
    decide
  by_cases hsize : packet.payload.length = ackPayloadSize
  · rw [if_neg (not_not.mpr hsize)]
    refine ⟨?_, by simp, by simp⟩
    simp [Act.reliable, SharedAct.reliable, hsize, hkept]
  · rw [if_pos hsize]
    refine ⟨?_, by simp, by simp⟩
    simp [Act.reliable, SharedAct.reliable, hsize]

theorem sameActs_channeled (h : Parsed bytes packet) (hchanneled : packet.property = .channeled) :
    SameActs client
      [.channeled bytes (channelIdOf bytes) (sequenceOf bytes) packet.payload (isFragmented bytes)]
      (if isFragmented bytes || client.keeps ((channelIdOf bytes).toNat / 4) then [.forward bytes]
        else markReliable bytes) := by
  have hhead : bytes.head?.bind PacketProperty.fromByte = some .channeled := by
    rw [h.property, hchanneled]
  have hloses : client.loses ⟨bytes, channelIdOf bytes, sequenceOf bytes⟩ =
      (!isFragmented bytes && !client.keeps ((channelIdOf bytes).toNat / 4) &&
        decide ((channelIdOf bytes).toNat % 4 ≠ 0 ∧ (channelIdOf bytes).toNat % 4 ≠ 2)) := by
    unfold SharedClient.loses
    rw [decide_eq_true hhead, Bool.true_and, ← Bool.decide_or]
    exact congrArg _ (decide_eq_decide.mpr (sequenced_iff _).symm)
  by_cases hkeep : (isFragmented bytes || client.keeps ((channelIdOf bytes).toNat / 4)) = true
  · rw [if_pos hkeep]
    refine ⟨?_, by simp, by simp⟩
    have hkept : client.loses ⟨bytes, channelIdOf bytes, sequenceOf bytes⟩ = false := by
      rw [hloses, ← Bool.not_or, hkeep]
      rfl
    simp [Act.reliable, SharedAct.reliable, hkept]
  · have hlength : ¬bytes.length < litenetlibChanneledHeaderSize := by
      have hheader := h.length
      rw [hchanneled] at hheader
      exact Nat.not_lt.mpr hheader
    rw [if_neg hkeep, markReliable, if_neg hlength, if_neg (not_not.mpr (fromByte_channeled hhead))]
    rw [Bool.not_eq_true] at hkeep
    rw [← Bool.not_or, hkeep, Bool.not_false, Bool.true_and] at hloses
    by_cases hmethod : (channelIdOf bytes).toNat % 4 ≠ 0 ∧ (channelIdOf bytes).toNat % 4 ≠ 2
    · rw [if_pos hmethod]
      rw [decide_eq_true hmethod] at hloses
      refine ⟨?_, by simp, by simp⟩
      simp [Act.reliable, hloses]
    · rw [if_neg hmethod]
      rw [decide_eq_false hmethod] at hloses
      refine ⟨?_, by simp, by simp⟩
      simp [Act.reliable, SharedAct.reliable, hloses]

theorem rawActs_ack (hparse : parsePacket bytes = some packet) (hack : packet.property = .ack) :
    rawActs client bytes =
      if packet.payload.length ≠ ackPayloadSize then [.drop .invalidAckSize]
      else [.forward bytes] := by
  unfold rawActs processRaw
  rw [hparse]
  dsimp only
  rw [hack]
  by_cases hsize : packet.payload.length = ackPayloadSize
  · simp [hsize]
  · simp [hsize]

theorem rawActs_channeled (hparse : parsePacket bytes = some packet)
    (hchanneled : packet.property = .channeled) :
    rawActs client bytes =
      if isFragmented bytes || client.keeps ((channelIdOf bytes).toNat / 4) then [.forward bytes]
      else markReliable bytes := by
  unfold rawActs processRaw
  rw [hparse]
  dsimp only
  rw [hchanneled, (parsed_of hparse).channelId (.inr hchanneled), Option.getD_some]
  cases isFragmented bytes || client.keeps ((channelIdOf bytes).toNat / 4)
  · simp
  · simp

/-- **The two receivers do the same with one entry.** -/
theorem sameActs_entry (bytes : Bytes) :
    SameActs client (handleEntry bytes) (rawActs client bytes) := by
  cases hparse : parsePacket bytes with
  | none =>
    unfold handleEntry rawActs processRaw
    rw [hparse]
    exact sameActs_drop (unparsedReason_ne bytes) (unparsedReason_ne bytes)
  | some packet =>
    have hparsed := parsed_of hparse
    by_cases hack : packet.property = .ack
    · rw [rawActs_ack client hparse hack, handleEntry, hparse]
      dsimp only
      rw [hack, hparsed.sequence (.inl hack), hparsed.channelId (.inl hack)]
      exact sameActs_ack client hparsed hack
    by_cases hchanneled : packet.property = .channeled
    · rw [rawActs_channeled client hparse hchanneled, handleEntry, hparse]
      dsimp only
      rw [hchanneled, hparsed.sequence (.inr hchanneled), hparsed.channelId (.inr hchanneled)]
      exact sameActs_channeled client hparsed hchanneled
    · unfold handleEntry rawActs processRaw
      rw [hparse]
      dsimp only
      cases hproperty : packet.property with
      | ack => exact absurd hproperty hack
      | channeled => exact absurd hproperty hchanneled
      | _ => exact ⟨rfl, by simp, by simp⟩

end Entry

/-! ### The walks -/

/-- What two walks do with a container. -/
structure SameWalk (client : SharedClient) (walk : Walked Act) (shared : Walked SharedAct) :
    Prop where
  reliable : (walk.acts.filterMap Act.reliable).filter (fun p => !client.loses p) =
    shared.acts.filterMap SharedAct.reliable
  left : walk.left = shared.left
  invalid : Act.drop .invalidMerged ∈ walk.acts ↔ SharedAct.drop .invalidMerged ∈ shared.acts

section Walks

variable {client : SharedClient} {walk : Walked Act} {shared : Walked SharedAct} {acts : List Act}
  {sharedActs : List SharedAct} {first : Byte}

theorem SameWalk.finish : SameWalk client (.stop [] []) (.stop [] []) :=
  ⟨rfl, rfl, by simp [Walked.stop]⟩

theorem SameWalk.invalid_at (left : Bytes) :
    SameWalk client (.stop [.drop .invalidMerged] left) (.stop [.drop .invalidMerged] left) :=
  ⟨rfl, rfl, by simp [Walked.stop]⟩

theorem SameWalk.after (h : SameWalk client walk shared) (ha : SameActs client acts sharedActs) :
    SameWalk client (.after acts walk) (.after sharedActs shared) := by
  refine ⟨?_, h.left, ?_⟩
  · rw [Walked.after_acts, Walked.after_acts, List.filterMap_append, List.filter_append,
      ha.reliable, h.reliable, List.filterMap_append]
  · rw [Walked.after_acts, Walked.after_acts, List.mem_append, List.mem_append,
      or_iff_right ha.valid, or_iff_right ha.sharedValid, h.invalid]

theorem sameActs_unreliable (channel : Byte) (payload : Bytes) :
    SameActs client [.unreliable channel payload] [] :=
  ⟨rfl, by simp, by simp⟩

/-- A pong is no reliable packet. -/
theorem SameActs.pong (h : SameActs client acts sharedActs) (header : Byte) (sequence : ℕ) :
    SameActs client acts (sharedActs ++ [.pong header sequence]) := by
  refine ⟨?_, h.valid, ?_⟩
  · rw [List.filterMap_append, h.reliable]
    exact (List.append_nil _).symm
  · rw [List.mem_append, or_iff_left (by simp)]
    exact h.sharedValid

/-- The lowest code is that of the unreliable packets. -/
theorem fromByte_unreliable (h : first &&& 0x1f#8 = 0#8) :
    PacketProperty.fromByte first = some .unreliable := by
  unfold PacketProperty.fromByte
  rw [h]
  rfl

/-- An unreliable entry that is too short is dropped by both. -/
theorem sameActs_short {entry : Bytes} (h : entry.headD 0 &&& 0x1f#8 = 0#8)
    (hshort : entry.length < 2) :
    SameActs client (handleEntry entry) [.drop (unparsedReason entry)] := by
  have hparse : parsePacket entry = none := by
    cases entry with
    | nil => rfl
    | cons first rest =>
      have hproperty : PacketProperty.fromByte first = some .unreliable := fromByte_unreliable h
      unfold parsePacket
      dsimp only
      rw [hproperty]
      exact if_pos hshort
  unfold handleEntry
  rw [hparse]
  exact sameActs_drop (unparsedReason_ne entry) (unparsedReason_ne entry)

/-- What the two loops do with an entry of a merged datagram that is no container. -/
theorem sameActs_merged (entry : Bytes) :
    SameActs client
      (if 2 ≤ entry.length ∧
        entry.headD 0 &&& 0x1f#8 = 0#8 then [.unreliable (entry.getD 1 0) (entry.drop 2)]
        else handleEntry entry)
      (if entry.headD 0 &&& 0x1f#8 = 0#8 then
        (if entry.length < 2 then [.drop (unparsedReason entry)] else [])
      else rawActs client entry ++
        if entry.headD 0 &&& 0x1f#8 = BitVec.ofNat 8 PacketProperty.ping.code ∧
          3 ≤ entry.length then
          [SharedAct.pong (entry.headD 0) (sequenceOf entry)] else []) := by
  by_cases hunreliable : entry.headD 0 &&& 0x1f#8 = 0#8
  · rw [if_pos hunreliable]
    by_cases hshort : entry.length < 2
    · rw [if_neg (fun h => absurd h.1 (Nat.not_le.mpr hshort)), if_pos hshort]
      exact sameActs_short hunreliable hshort
    · rw [if_pos ⟨Nat.not_lt.mp hshort, hunreliable⟩, if_neg hshort]
      exact sameActs_unreliable _ _
  · rw [if_neg hunreliable, if_neg (fun h => hunreliable h.2)]
    split
    · exact (sameActs_entry client entry).pong _ _
    · rw [List.append_nil]
      exact sameActs_entry client entry

theorem isContainer_of {tail : Bytes} (h : PacketProperty.fromByte first = some .merged ∨
    PacketProperty.fromByte first = some .compactMerged) : isContainer (first :: tail) = true := by
  unfold isContainer
  dsimp only [List.head?_cons, Option.bind_some]
  rcases h with h | h
  · rw [h]
  · rw [h]

theorem not_isContainer {tail : Bytes}
    (hmerged : PacketProperty.fromByte first = some .merged → False)
    (hcompact : PacketProperty.fromByte first = some .compactMerged → False) :
    ¬isContainer (first :: tail) = true := by
  unfold isContainer
  dsimp only [List.head?_cons, Option.bind_some]
  split
  · rename_i h
    exact absurd h hmerged
  · rename_i h
    exact absurd h hcompact
  · exact Bool.false_ne_true

/-- **Over a merged datagram.**  The induction is on the length, entry by entry. -/
theorem sameWalk_merged (bytes : Bytes) :
    SameWalk client (mergedFrom bytes) (sharedMergedFrom client bytes) := by
  induction hlength : bytes.length using Nat.strong_induction_on generalizing bytes with
  | _ length ih =>
    match bytes, hlength with
    | [], _ =>
      rw [mergedFrom, sharedMergedFrom]
      exact .finish
    | [a], _ =>
      rw [mergedFrom, sharedMergedFrom]
      exact .invalid_at [a]
    | a :: b :: rest, hlength =>
      rw [mergedFrom, sharedMergedFrom]
      dsimp only
      split
      · exact .invalid_at _
      rename_i hsize
      rw [not_or, Nat.not_lt] at hsize
      have hrest : SameWalk client (mergedFrom (rest.drop (leNat [a, b])))
          (sharedMergedFrom client (rest.drop (leNat [a, b]))) := by
        refine ih _ ?_ _ rfl
        rw [← hlength, List.length_drop, List.length_cons, List.length_cons]
        omega
      have hne : rest.take (leNat [a, b]) ≠ [] := by
        rw [ne_eq, List.take_eq_nil_iff, not_or]
        refine ⟨hsize.1, ?_⟩
        rintro rfl
        exact hsize.1 (Nat.le_zero.mp hsize.2)
      generalize rest.take (leNat [a, b]) = entry at hne
      obtain ⟨first, tail, rfl⟩ := List.exists_cons_of_ne_nil hne
      by_cases hcontainer : isContainer (first :: tail) = true
      · rw [if_pos hcontainer]
        split
        · exact .invalid_at _
        · exact .invalid_at _
        · rename_i hmerged hcompact
          exact absurd hcontainer (not_isContainer hmerged hcompact)
      · rw [if_neg hcontainer]
        have hstep := hrest.after (sameActs_merged (first :: tail))
        rw [apply_ite (fun acts => Walked.after acts (mergedFrom _)),
          apply_ite (fun acts => Walked.after acts (sharedMergedFrom client _))] at hstep
        convert hstep using 1
        split
        · rename_i hmerged
          exact absurd (isContainer_of (.inl hmerged)) hcontainer
        · rename_i hcompact
          exact absurd (isContainer_of (.inr hcompact)) hcontainer
        · rfl

/-- What the two loops do with a raw entry of a compact datagram. -/
theorem SameWalk.raw (h : SameWalk client walk shared) (payload : Bytes) (len : ℕ) (left : Bytes) :
    SameWalk client
      (if len < 4 then .stop [.drop .invalidMerged] left
        else
          match payload.head?.bind PacketProperty.fromByte with
          | some .ack | some .channeled => .after (handleEntry payload) walk
          | _ => .stop [.drop .invalidMerged] left)
      (if len < 4 ∨ (PacketProperty.fromByte (payload.headD 0) ≠ some .ack ∧
          PacketProperty.fromByte (payload.headD 0) ≠
            some .channeled) then .stop [.drop .invalidMerged] left
        else .after (rawActs client payload) shared) := by
  by_cases hshort : len < 4
  · rw [if_pos hshort, if_pos (.inl hshort)]
    exact .invalid_at left
  rw [if_neg hshort]
  cases payload with
  | nil =>
    rw [if_pos (Or.inr (by decide))]
    exact .invalid_at left
  | cons first tail =>
    simp only [List.head?_cons, Option.bind_some]
    split
    · rename_i hack
      rw [if_neg (not_or.mpr ⟨hshort, fun hneither => hneither.1 hack⟩)]
      exact h.after (sameActs_entry client _)
    · rename_i hchanneled
      rw [if_neg (not_or.mpr ⟨hshort, fun hneither => hneither.2 hchanneled⟩)]
      exact h.after (sameActs_entry client _)
    · rename_i hack hchanneled
      rw [if_pos (Or.inr ⟨hack, hchanneled⟩)]
      exact .invalid_at left

/-- **Over a compact datagram.** -/
theorem sameWalk_compact (bytes : Bytes) :
    SameWalk client (compactFrom bytes) (sharedCompactFrom client bytes) := by
  induction hlength : bytes.length using Nat.strong_induction_on generalizing bytes with
  | _ length ih =>
    match bytes, hlength with
    | [], _ =>
      rw [compactFrom, sharedCompactFrom]
      exact .finish
    | [tag], _ =>
      rw [compactFrom, sharedCompactFrom]
      exact .invalid_at [tag]
    | tag :: len :: rest, hlength =>
      rw [sharedCompactFrom]
      dsimp only
      split
      · rename_i hchannel
        rw [compactFrom]
        dsimp only
        rw [if_pos hchannel]
        exact .invalid_at _
      rename_i hchannel
      split
      · rename_i hnone
        rw [compactFrom]
        dsimp only
        rw [if_neg hchannel]
        split
        · exact .invalid_at _
        · rename_i hsome
          cases hnone.symm.trans hsome
      · rename_i payloadLen behind hpayload
        rw [compactFrom]
        dsimp only
        rw [if_neg hchannel]
        split
        · rename_i hnone
          cases hnone.symm.trans hpayload
        rename_i hsome
        obtain ⟨rfl, rfl⟩ := Prod.mk.inj (Option.some.inj (hpayload.symm.trans hsome))
        have hrest : SameWalk client (compactFrom (behind.drop payloadLen))
            (sharedCompactFrom client (behind.drop payloadLen)) := by
          have hlt := payloadLength_length hpayload
          rw [List.length_cons] at hlength
          refine ih _ ?_ _ rfl
          rw [List.length_drop]
          omega
        by_cases hshort : behind.length < payloadLen
        · rw [if_pos hshort, if_pos hshort]
          exact .invalid_at _
        rw [if_neg hshort, if_neg hshort]
        generalize behind.take payloadLen = payload
        by_cases hraw : decide (tag &&& 0x40#8 ≠ 0#8) = true
        · have hraw' : ¬decide (tag &&& 0x40#8 ≠ 0#8) = false := by
            rw [hraw]
            decide
          rw [if_pos hraw, if_neg hraw']
          exact hrest.raw payload _ _
        · rw [if_neg hraw, if_pos (eq_false_of_ne_true hraw)]
          exact hrest.after (sameActs_unreliable _ _)

end Walks

theorem sameWalk_container (client : SharedClient)
    (h : bytes.head?.bind PacketProperty.fromByte = some .merged ∨
      bytes.head?.bind PacketProperty.fromByte = some .compactMerged) :
    SameWalk client (handlePacket bytes) (sharedProcess client bytes) := by
  cases bytes with
  | nil => rcases h with h | h <;> cases h
  | cons first rest =>
    unfold handlePacket sharedProcess parsePacket
    rcases h with h | h
    · have hfirst : PacketProperty.fromByte first = some .merged := h
      simp only [h, hfirst, headerLength]
      exact sameWalk_merged _
    · have hfirst : PacketProperty.fromByte first = some .compactMerged := h
      simp only [h, hfirst, headerLength]
      exact sameWalk_compact _

/-- **The shared receiver agrees with the dispatch.** -/
theorem shared_receiver_agrees (client : SharedClient) (bytes : Bytes)
    (h : bytes.head?.bind PacketProperty.fromByte = some .merged ∨
      bytes.head?.bind PacketProperty.fromByte = some .compactMerged) :
    ((handlePacket bytes).acts.filterMap Act.reliable).filter (fun p => !client.loses p) =
        (sharedProcess client bytes).acts.filterMap SharedAct.reliable ∧
      (handlePacket bytes).left = (sharedProcess client bytes).left ∧
      (Act.drop .invalidMerged ∈ (handlePacket bytes).acts ↔
        SharedAct.drop .invalidMerged ∈ (sharedProcess client bytes).acts) := by
  obtain ⟨hreliable, hleft, hinvalid⟩ := sameWalk_container client h
  exact ⟨hreliable, hleft, hinvalid⟩

/-! ### Datagrams on the scene channel -/

def sink : SharedClient := ⟨false, false, false⟩

/-- A channeled packet of five bytes. -/
theorem mergedFrom_channeled (b c d e : Byte) (rest : Bytes) :
    mergedFrom (5 :: 0 :: 1 :: b :: c :: d :: e :: rest) =
      .after (handleEntry [1, b, c, d, e]) (mergedFrom rest) := by
  have hsize : ¬(leNat [5, 0] = 0 ∨ (1 :: b :: c :: d :: e :: rest).length < leNat [5, 0]) := by
    simp [leNat]
  have hentry : (1 :: b :: c :: d :: e :: rest).take (leNat [5, 0]) = [1, b, c, d, e] := rfl
  have hplain : isContainer [1, b, c, d, e] = false := rfl
  have hchanneled : ¬((1#8 &&& 0x1f#8) = 0#8) := by decide
  rw [mergedFrom]
  dsimp only
  rw [if_neg hsize, hentry, hplain, if_neg Bool.false_ne_true, if_neg fun h => hchanneled h.2]
  rfl

/-- A packet that is recorded, one that is forwarded, one that is lost, and half a length. -/
def mixedScene : Bytes :=
  [12, 5, 0, 1, 5, 0, 98, 3, 5, 0, 1, 9, 0, 6, 4, 5, 0, 1, 7, 0, 97, 3, 9]

theorem handlePacket_mixedScene : handlePacket mixedScene =
    ⟨handleEntry [1, 5, 0, 98, 3] ++ (handleEntry [1, 9, 0, 6, 4] ++
      (handleEntry [1, 7, 0, 97, 3] ++ [.drop .invalidMerged])), [9]⟩ := by
  unfold handlePacket
  rw [show parsePacket mixedScene = some ⟨.merged, 0, none, none, mixedScene.drop 1⟩ from by decide]
  show mergedFrom [5, 0, 1, 5, 0, 98, 3, 5, 0, 1, 9, 0, 6, 4, 5, 0, 1, 7, 0, 97, 3, 9] = _
  rw [mergedFrom_channeled, mergedFrom_channeled, mergedFrom_channeled, mergedFrom]
  rfl

/-- The theorem at work: the two sequences are the same but for the sequenced packet, and both walks
stop in front of the rest. -/
theorem shared_receiver_agrees_scene :
    (handlePacket mixedScene).acts.filterMap Act.reliable =
      [⟨[1, 5, 0, 98, 3], 98, 5⟩, ⟨[1, 9, 0, 6, 4], 6, 9⟩, ⟨[1, 7, 0, 97, 3], 97, 7⟩] ∧
    (sharedProcess sink mixedScene).acts.filterMap SharedAct.reliable =
      [⟨[1, 5, 0, 98, 3], 98, 5⟩, ⟨[1, 9, 0, 6, 4], 6, 9⟩] ∧
    (sharedProcess sink mixedScene).left = [9] ∧
    SharedAct.drop .invalidMerged ∈ (sharedProcess sink mixedScene).acts := by
  obtain ⟨hreliable, hleft, hinvalid⟩ := shared_receiver_agrees sink mixedScene (.inl (by decide))
  have hdispatch : (handlePacket mixedScene).acts.filterMap Act.reliable =
      [⟨[1, 5, 0, 98, 3], 98, 5⟩, ⟨[1, 9, 0, 6, 4], 6, 9⟩, ⟨[1, 7, 0, 97, 3], 97, 7⟩] := by
    rw [handlePacket_mixedScene]
    decide
  refine ⟨hdispatch, ?_, ?_, ?_⟩
  · rw [← hreliable, hdispatch]
    decide
  · rw [← hleft, handlePacket_mixedScene]
  · rw [← hinvalid, handlePacket_mixedScene]
    decide

/-- One sequenced packet on the scene channel. -/
def sequencedScene : Bytes := [12, 5, 0, 1, 7, 0, 97, 3]

/-- A load sink loses it: the dispatch handles it, and the shared receiver neither records nor
forwards. -/
theorem sequenced_packet_lost :
    (handlePacket sequencedScene).acts.filterMap Act.reliable = [⟨[1, 7, 0, 97, 3], 97, 7⟩] ∧
      (sharedProcess sink sequencedScene).acts.filterMap SharedAct.reliable = [] := by
  have hdispatch : (handlePacket sequencedScene).acts.filterMap Act.reliable =
      [⟨[1, 7, 0, 97, 3], 97, 7⟩] := by
    unfold handlePacket
    rw [show parsePacket sequencedScene = some ⟨.merged, 0, none, none, sequencedScene.drop 1⟩
      from by decide]
    show (mergedFrom [5, 0, 1, 7, 0, 97, 3]).acts.filterMap Act.reliable = _
    rw [mergedFrom_channeled, mergedFrom]
    decide
  refine ⟨hdispatch, ?_⟩
  have hmerged : sequencedScene.head?.bind PacketProperty.fromByte = some .merged := by decide
  rw [← (sameWalk_container sink (.inl hmerged)).reliable, hdispatch]
  decide

end BasisRust.Transport.Client
