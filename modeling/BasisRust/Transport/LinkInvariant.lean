import BasisRust.Transport.Windows

/-!
# The invariant of a connection

`LinkSound` is the invariant of the whole connection: both ends, and every datagram that is still in
the network.  `LinkMove` lists everything a step of the connection can do; `linkStep_move` says that
`linkStep` does nothing else, and `LinkSound.move` that every move keeps the invariant.  The results
about acknowledgements are at the end.
-/

namespace BasisRust.Transport

open Library

/-! ### The sender keeps its promises -/

section Sender

theorem getElem?_extends {α : Type} {xs ys : List α} (h : xs <+: ys) {i : ℕ} {x : α}
    (hx : xs[i]? = some x) : ys[i]? = some x := by
  obtain ⟨zs, rfl⟩ := h
  rw [List.getElem?_append_left (List.getElem?_eq_some_iff.mp hx).1, hx]

variable {cn : BitVec 2} {c : Byte} {w : ℕ} {v v' : SendChannel}

/-- What is sent stays sent, what is accepted stays accepted, and the window never moves back. -/
theorem ChannelStep.mono (h : ChannelStep cn c w v v') (hv : ChannelSound cn c w v) :
    v.sent <+: v'.sent ∧ v.accepted <+: v'.accepted ∧ v.base ≤ v'.base := by
  cases h with
  | stay | move => exact ⟨List.prefix_rfl, List.prefix_rfl, le_rfl⟩
  | accept ms hms => exact ⟨List.prefix_rfl, List.prefix_append _ _, le_rfl⟩
  | build p rest hs hn =>
    refine ⟨List.prefix_append _ _, List.prefix_rfl, ?_⟩
    rw [SendChannel.base, SendChannel.base]
    cases v.pending with
    | nil => exact le_rfl
    | cons front tail => exact le_rfl
  | release gone kept hkept hperm =>
    exact ⟨List.prefix_rfl, List.prefix_rfl, hv.base_le_release hkept _⟩

theorem windowWidth_of (hc : isSequencedId c = false) : windowWidth c = defaultWindowSize := by
  rw [windowWidth, hc]
  rfl

theorem sequenceOf_of (hc : isSequencedId c = false) (n : ℕ) :
    sequenceOf c n = n % maxSequence := by
  rw [sequenceOf, hc]
  rfl

theorem sequenceOf_lt (c : Byte) (n : ℕ) : sequenceOf c n < maxSequence := Nat.mod_lt _ (by decide)

variable {p : OutgoingReliable}

/-- The packets of an admitted message fit the wire format. -/
theorem Message.Admitted.wirePacket {m : Message} (hm : m.Admitted c)
    (hp : p ∈ m.packets) : WirePacket p := by
  obtain ⟨j, hj⟩ := List.getElem?_of_mem hp
  refine ⟨fun f hf => ?_⟩
  rcases Message.packets_cases hj with ⟨-, -, rfl⟩ | ⟨id, hid, hlt, rfl⟩
  · cases hf
  · cases hf
    obtain ⟨hid, hlarge, hbounded⟩ := hm.cut id hid
    have hparts := (CutPayload.mk hlarge hbounded).parts_le
    exact ⟨hid, show j < 65536 by omega, show fragmentParts m.payload < 65536 by omega⟩

/-- They also pass the checks of the receiver. -/
theorem Message.Admitted.wellFormed {m : Message} (hm : m.Admitted c)
    (hp : p ∈ m.packets) : (p.fragment.any fun f => fragmentMalformed f p.payload) = false := by
  obtain ⟨j, hj⟩ := List.getElem?_of_mem hp
  rcases Message.packets_cases hj with ⟨-, -, rfl⟩ | ⟨id, hid, hlt, rfl⟩
  · rfl
  · obtain ⟨-, hlarge, hbounded⟩ := hm.cut id hid
    exact (CutPayload.mk hlarge hbounded).not_malformed hlt id

/-- Every numbered packet belongs to an accepted message. -/
theorem ChannelSound.message_of_sent (hv : ChannelSound cn c w v) {n : ℕ}
    (hp : v.sent[n]? = some p) : ∃ m : Message, m.Admitted c ∧ p ∈ m.packets := by
  have hmem : p ∈ v.accepted.flatMap Message.packets := by
    rw [← hv.conserved, List.append_assoc]
    exact List.mem_append_left _ (List.mem_of_getElem? hp)
  obtain ⟨m, hm, hpm⟩ := List.mem_flatMap.mp hmem
  exact ⟨m, hv.admitted m hm, hpm⟩

theorem ChannelSound.wirePacket (hv : ChannelSound cn c w v) {n : ℕ}
    (hp : v.sent[n]? = some p) : WirePacket p := by
  obtain ⟨m, hm, hpm⟩ := hv.message_of_sent hp
  exact hm.wirePacket hpm

theorem SendSound.sendStep_mono {s s' : SendState} {a : SendAction}
    (h : SendSound cn windowWidth s) (hstep : sendStep s a = some s') (c : Byte) :
    s.sent c <+: s'.sent c ∧ s.accepted c <+: s'.accepted c ∧
      (s.channel c).base ≤ (s'.channel c).base := by
  have hch := sendStep_channel h.counted (fun c => (h.channels c).numbered)
    (fun order _ hidle => h.moveCount_le hidle order) hstep c
  rw [h.number] at hch
  exact hch.mono (h.channels c)

/-- Local steps release nothing. -/
theorem sendStep_acknowledged {s s' : SendState} (hs : Counted s) {a : SendAction}
    (ha : a.isLocal = true) (hstep : sendStep s a = some s') :
    s'.acknowledged = s.acknowledged :=
  (sendStep_fixed hs hstep).2 fun bytes heq => by
    rw [heq] at ha
    cases ha

end Sender

/-! ### The whole connection -/

/-- A data datagram carries a numbered packet, and was sent while the packet was in flight. -/
structure DataSound (cn : BitVec 2) (sent : List OutgoingReliable) (d : DataDatagram) : Prop where
  packet : ∃ p, sent[d.index]? = some p ∧
    d.bytes = reliablePacketBytes cn d.channel (sequenceOf d.channel d.index) p
  born : d.bornAt ≤ d.index + 129

variable {cn : BitVec 2} {c : Byte} {l : Link}

/-- A copy of a packet in flight, sent now. -/
theorem SendSound.dataSound {s : SendState} (h : SendSound cn windowWidth s)
    {item : PendingReliable} (hitem : item ∈ s.pending c) :
    DataSound cn (s.sent c) ⟨c, item.bytes, item.index, (s.sent c).length⟩ := by
  have hv := h.channels c
  obtain ⟨p, hp, heq⟩ := hv.wire item hitem
  have hbase := hv.base_le_index hitem
  have hwin : (s.sent c).length + (s.channel c).staged.length ≤ _ := hv.window
  have hwidth : windowWidth c ≤ 129 := by
    rw [windowWidth, defaultWindowSize]
    split_ifs <;> omega
  refine ⟨⟨p, hp, ?_⟩, ?_⟩
  · rw [heq]
    rfl
  · show (s.sent c).length ≤ item.index + 129
    omega

/-- An acknowledgement datagram is a snapshot of a window that has only moved up since. -/
structure AckDatagramSound (cn : BitVec 2) (r : RecvChannel) (a : AckDatagram) : Prop where
  channel : isSequencedId a.channel = false
  window : ∃ bits : Bytes, bits.length = ackBytes ∧
    a.bytes = buildAckPacket cn a.channel (a.base % maxSequence) bits ∧
    ShowsOnly defaultWindowSize (bitAt bits) a.base (· ∈ r.recorded)
  base_le : a.base ≤ r.ack.base
  born : a.bornAt ≤ a.base + 256

/-- The invariant of the connection. -/
structure LinkSound (cn : BitVec 2) (l : Link) : Prop where
  sender : SendSound cn windowWidth l.sender
  data : ∀ d ∈ l.data, DataSound cn (l.sender.sent d.channel) d
  acks : ∀ a ∈ l.acks, AckDatagramSound cn (l.receiver.channel a.channel) a
  ackLink : ∀ c, isSequencedId c = false → AckLink (l.sender.channel c) (l.receiver.channel c)
  ordered : l.receiver.closed = false → ∀ c,
    DeliveryMethod.fromChannelId c = .reliableOrdered → OrderedWindow (l.receiver.channel c)
  unordered : l.receiver.closed = false → ∀ c,
    DeliveryMethod.fromChannelId c = .reliableUnordered → UnorderedWindow (l.receiver.channel c)
  /-- The other channels are never acknowledged by a bitmap. -/
  quiet : ∀ c, mayFragment (DeliveryMethod.fromChannelId c) = false →
    (l.receiver.acks c).dirty = false

/-- **No false release.**  An acknowledgement datagram that has not been overtaken by too many newer
packets releases, on its own channel only, what the window it reports had recorded. -/
theorem AckDatagramSound.released {s : SendState} {r : RecvChannel} {a : AckDatagram}
    (ha : AckDatagramSound cn r a) (hs : SendSound cn windowWidth s)
    (hl : AckLink (s.channel a.channel) r)
    (halive : (s.sent a.channel).length < a.bornAt + maxDatagramAge) {n : ℕ}
    (hn : n ∈ (processAck s a.bytes).acknowledged c) :
    n ∈ s.acknowledged c ∨ (c = a.channel ∧ n ∈ r.recorded ∧ n < a.base + 128) := by
  obtain ⟨hseq, ⟨bits, hbits, hbytes, hshown⟩, hbase, hborn⟩ := ha
  have hv : ChannelSound cn a.channel defaultWindowSize (s.channel a.channel) := by
    have := hs.channels a.channel
    rwa [windowWidth_of hseq] at this
  rw [hbytes, processAck_built _ _ hseq (Nat.mod_lt _ (by decide)) hbits] at hn
  cases hp : s.pending a.channel with
  | nil =>
    rw [hp] at hn
    exact .inl hn
  | cons front rest =>
    rw [hp] at hn
    dsimp only at hn
    split_ifs at hn with hout
    · exact .inl hn
    · rw [not_or, not_lt, not_le] at hout
      by_cases hch : c = a.channel
      · rw [hch] at hn ⊢
        rw [releasePending] at hn
        simp only [Function.update_self, List.mem_append] at hn
        refine hn.imp_right fun hn => ?_
        obtain ⟨item, hitem, rfl⟩ := List.mem_map.mp hn
        obtain ⟨hmem, hack⟩ := List.mem_filter.mp hitem
        have hsent : (s.channel a.channel).sent.length < a.bornAt + 16384 := halive
        have hle := hv.base_le_sent
        obtain ⟨hrec, hlt⟩ := acknowledgedBy_sound hv hseq hshown (hbase.trans hl.behind)
          (by omega) (show (s.channel a.channel).pending = front :: rest from hp) hout
          (show item ∈ s.pending a.channel from hp ▸ hmem) hack
        exact ⟨rfl, hrec, hlt⟩
      · rw [releasePending] at hn
        simp only [Function.update_of_ne hch] at hn
        exact .inl hn

/-- A channel with a bitmap is not a sequenced one. -/
theorem not_sequenced_of_mayFragment (h : mayFragment (DeliveryMethod.fromChannelId c) = true) :
    isSequencedId c = false := by
  rw [isSequencedId, decide_eq_false_iff_not]
  intro hmod
  have hmod3 : c.toNat % 4 = 3 := hmod
  simp only [DeliveryMethod.fromChannelId, hmod3] at h
  cases h

namespace LinkSound

variable {cn : BitVec 2} {l l' : Link} {c : Byte} {s : RecvState}

theorem channelSound (h : LinkSound cn l) (hc : isSequencedId c = false) :
    ChannelSound cn c defaultWindowSize (l.sender.channel c) := by
  have := h.sender.channels c
  rwa [windowWidth_of hc] at this

theorem init (cn : BitVec 2) : LinkSound cn (.init cn) where
  sender := .init cn windowWidth
  data := by simp [Link.init]
  acks := by simp [Link.init]
  ackLink := by
    intro c _
    refine ⟨.initial _, ?_, ?_, Nat.zero_le _⟩
    · intro n hn
      cases hn
    · intro n hn
      cases hn
  ordered := by
    intro _ c _
    constructor <;>
      simp [Link.init, RecvState.init, RecvState.channel, OrderedReceiveState.initial]
  unordered := by
    intro _ c _
    constructor <;>
      simp [Link.init, RecvState.init, RecvState.channel, UnorderedReceiveState.initial]
  quiet := fun _ _ => rfl

/-- An acknowledgement in flight releases only recorded packets. -/
theorem released_of_ack (h : LinkSound cn l) {a : AckDatagram} (ha : a ∈ l.acks)
    (halive : l.alive a.channel a.bornAt = true) {n : ℕ}
    (hn : n ∈ (processAck l.sender a.bytes).acknowledged c) :
    n ∈ l.sender.acknowledged c ∨
      (n ∈ (l.receiver.channel c).recorded ∧ n < (l.receiver.channel c).ack.base + 128) := by
  have hsound := h.acks a ha
  rcases hsound.released h.sender (h.ackLink a.channel hsound.channel) (of_decide_eq_true halive)
    hn with hold | ⟨hch, hrec, hlt⟩
  · exact .inl hold
  · have hbase := hsound.base_le
    rw [hch]
    exact .inr ⟨hrec, by omega⟩

/-- A step of the sender that releases only recorded packets. -/
theorem send (h : LinkSound cn l) {s : SendState} {a : SendAction}
    (hstep : sendStep l.sender a = some s)
    (hack : ∀ c, isSequencedId c = false → ∀ n ∈ s.acknowledged c, n ∈ l.sender.acknowledged c ∨
      (n ∈ (l.receiver.channel c).recorded ∧ n < (l.receiver.channel c).ack.base + 128)) :
    LinkSound cn { l with sender := s } := by
  have hmono := h.sender.sendStep_mono hstep
  refine ⟨h.sender.step (fun order _ hidle => h.sender.moveCount_le hidle order) hstep, ?_, h.acks,
    ?_, h.ordered, h.unordered, h.quiet⟩
  · intro d hd
    obtain ⟨⟨p, hp, hbytes⟩, hborn⟩ := h.data d hd
    refine ⟨⟨p, ?_, hbytes⟩, hborn⟩
    exact getElem?_extends (hmono d.channel).1 hp
  · intro c hc
    exact (h.ackLink c hc).sender (hmono c).1.length_le (hmono c).2.2 (hack c hc)

theorem transmit (h : LinkSound cn l) {item : PendingReliable} (hitem : item ∈ l.sender.pending c) :
    LinkSound cn { l with
      data := l.data ++ [⟨c, item.bytes, item.index, (l.sender.sent c).length⟩] } := by
  refine ⟨h.sender, ?_, h.acks, h.ackLink, h.ordered, h.unordered, h.quiet⟩
  intro d hd
  rcases List.mem_append.mp hd with hd | hd
  · exact h.data d hd
  · rw [List.mem_singleton.mp hd]
    exact h.sender.dataSound hitem

/-- What a step of the receiver has to keep. -/
structure ReceiverKept (l : Link) (s : RecvState) : Prop where
  ackLink : ∀ c, isSequencedId c = false → AckLink (l.sender.channel c) (s.channel c)
  ordered : s.closed = false → ∀ c,
    DeliveryMethod.fromChannelId c = .reliableOrdered → OrderedWindow (s.channel c)
  unordered : s.closed = false → ∀ c,
    DeliveryMethod.fromChannelId c = .reliableUnordered → UnorderedWindow (s.channel c)
  quiet : ∀ c, mayFragment (DeliveryMethod.fromChannelId c) = false → (s.acks c).dirty = false
  recorded : ∀ c n, n ∈ l.receiver.recorded c → n ∈ s.recorded c
  base_le : ∀ c, (l.receiver.acks c).base ≤ (s.acks c).base

theorem receive (h : LinkSound cn l) (hs : ReceiverKept l s) :
    LinkSound cn { l with receiver := s } := by
  refine ⟨h.sender, h.data, ?_, hs.ackLink, hs.ordered, hs.unordered, hs.quiet⟩
  intro a ha
  obtain ⟨hseq, ⟨bits, hbits, hbytes, hshown⟩, hbase, hborn⟩ := h.acks a ha
  exact ⟨hseq, ⟨bits, hbits, hbytes, hshown.mono fun n hn => hs.recorded a.channel n hn⟩,
    hbase.trans (hs.base_le a.channel), hborn⟩

/-- A step of the receiver on one channel. -/
theorem receiveOn (h : LinkSound cn l) (hc : mayFragment (DeliveryMethod.fromChannelId c) = true)
    (hgrows : Grows l.receiver s) (helse : Elsewhere c l.receiver s)
    (hack : AckLink (l.sender.channel c) (s.channel c))
    (hord : s.closed = false → DeliveryMethod.fromChannelId c = .reliableOrdered →
      OrderedWindow (s.channel c))
    (hun : s.closed = false → DeliveryMethod.fromChannelId c = .reliableUnordered →
      UnorderedWindow (s.channel c)) : LinkSound cn { l with receiver := s } := by
  refine h.receive ⟨?_, ?_, ?_, ?_, hgrows.recorded, hgrows.base⟩
  · intro d hd
    by_cases hdc : d = c
    · rw [hdc]
      exact hack
    · obtain ⟨h₁, -, h₃⟩ := helse.history d hdc
      exact (h.ackLink d hd).congr h₁ h₃
  · intro hopen d hd
    by_cases hdc : d = c
    · rw [hdc] at hd ⊢
      exact hord hopen hd
    · rw [helse.channel hopen d hdc]
      exact h.ordered (helse.opened hopen) d hd
  · intro hopen d hd
    by_cases hdc : d = c
    · rw [hdc] at hd ⊢
      exact hun hopen hd
    · rw [helse.channel hopen d hdc]
      exact h.unordered (helse.opened hopen) d hd
  · intro d hd
    have hdc : d ≠ c := by
      intro heq
      rw [heq, hc] at hd
      cases hd
    have hack : s.acks d = l.receiver.acks d := (helse.history d hdc).ack
    rw [hack]
    exact h.quiet d hd

/-- What a closed session keeps. -/
theorem shut (h : LinkSound cn l) (hs : Shut l.receiver s) :
    LinkSound cn { l with receiver := s } := by
  have hclosed : s.closed ≠ false := by rw [hs.closed]; decide
  have hgrows : Grows l.receiver s := .of_eq hs.recorded hs.acks
  refine h.receive ⟨?_, fun hopen => absurd hopen hclosed, fun hopen => absurd hopen hclosed, ?_,
    hgrows.recorded, hgrows.base⟩
  · intro d hd
    exact (h.ackLink d hd).congr (hs.sameHistory d).ack (hs.sameHistory d).recorded
  · rw [hs.acks]
    exact h.quiet

end LinkSound

/-! ### What a step of the connection can do -/

/-- Everything a step of the connection can do. -/
inductive LinkMove (l : Link) : Link → Prop
  | stay : LinkMove l l
  | send {s : SendState} {a : SendAction} (hstep : sendStep l.sender a = some s)
      (hack : ∀ c, isSequencedId c = false → ∀ n ∈ s.acknowledged c,
        n ∈ l.sender.acknowledged c ∨
          (n ∈ l.receiver.recorded c ∧ n < (l.receiver.acks c).base + 128)) :
      LinkMove l { l with sender := s }
  | transmit {c : Byte} {item : PendingReliable} (hitem : item ∈ l.sender.pending c) :
      LinkMove l { l with
        data := l.data ++ [⟨c, item.bytes, item.index, (l.sender.sent c).length⟩] }
  | ordered {c : Byte} {s : RecvState} (hc : DeliveryMethod.fromChannelId c = .reliableOrdered)
      (h : OrderedSteps (CanArrive (l.sender.channel c)) c l.receiver s) :
      LinkMove l { l with receiver := s }
  | unordered {c : Byte} {q n : ℕ} {payload : Bytes} {fragment : Option ReliableFragment}
      {s s' : RecvState} (hc : DeliveryMethod.fromChannelId c = .reliableUnordered)
      (hA : CanArrive (l.sender.channel c) q n payload fragment)
      (hopen : l.receiver.closed = false)
      (h : UnorderedStep c q n payload fragment l.receiver s) (hs : s' = s ∨ s' = s.close) :
      LinkMove l { l with receiver := s' }
  | emit {c : Byte} (hc : mayFragment (DeliveryMethod.fromChannelId c) = true) :
      LinkMove l (emitAck l c)
  | shut {s : RecvState} (h : Shut l.receiver s) : LinkMove l { l with receiver := s }

/-- What is sent stays sent, and what is accepted stays accepted. -/
theorem LinkMove.sender_mono {l' : Link} (hm : LinkMove l l') (h : LinkSound cn l) (c : Byte) :
    l.sender.sent c <+: l'.sender.sent c ∧ l.sender.accepted c <+: l'.sender.accepted c := by
  cases hm with
  | send hstep hack =>
    obtain ⟨hsent, haccepted, -⟩ := h.sender.sendStep_mono hstep c
    exact ⟨hsent, haccepted⟩
  | stay | transmit | ordered | unordered | emit | shut =>
    exact ⟨List.prefix_rfl, List.prefix_rfl⟩

/-- A datagram that is alive carries a packet that can arrive. -/
theorem LinkSound.canArrive (h : LinkSound cn l) {d : DataDatagram} (hd : d ∈ l.data)
    (halive : l.alive d.channel d.bornAt = true) :
    ∃ p : OutgoingReliable, WirePacket p ∧
      d.bytes = reliablePacketBytes cn d.channel (sequenceOf d.channel d.index) p ∧
      (isSequencedId d.channel = false → CanArrive (l.sender.channel d.channel)
        (sequenceOf d.channel d.index) d.index p.payload p.fragment) := by
  obtain ⟨⟨p, hp, hbytes⟩, hborn⟩ := h.data d hd
  have hsent : (l.sender.sent d.channel).length < d.bornAt + 16384 := of_decide_eq_true halive
  refine ⟨p, (h.sender.channels d.channel).wirePacket hp, hbytes, fun hseq => ⟨?_, hp, ?_⟩⟩
  · exact sequenceOf_of hseq d.index
  · change (l.sender.sent d.channel).length < d.index + 16640
    omega

/-- The processing of a datagram is one move. -/
theorem LinkSound.deliver_move (h : LinkSound cn l) {d : DataDatagram} (hd : d ∈ l.data)
    (halive : l.alive d.channel d.bornAt = true) (turn : Turn) (drains : List Turn) :
    LinkMove l { l with receiver := processChanneled l.receiver d.index d.bytes turn drains } := by
  obtain ⟨p, hwire, hbytes, hA⟩ := h.canArrive hd halive
  have hlt := sequenceOf_lt d.channel d.index
  rw [hbytes]
  cases hm : DeliveryMethod.fromChannelId d.channel with
  | reliableOrdered =>
    have hseq := not_sequenced_of_mayFragment (c := d.channel) (by rw [hm]; rfl)
    exact .ordered hm (processChanneled_ordered hwire hm hlt (hA hseq) l.receiver turn drains)
  | reliableUnordered =>
    have hseq := not_sequenced_of_mayFragment (c := d.channel) (by rw [hm]; rfl)
    obtain ⟨s₁, hs₁, hres⟩ := processChanneled_unordered cn hwire hm hlt d.index l.receiver
      turn drains
    rcases hs₁ with rfl | ⟨hopen, hstep⟩
    · rcases hres with hres | hres <;> rw [hres]
      · exact .stay
      · exact .shut (.close rfl rfl rfl)
    · exact .unordered hm (hA hseq) hopen hstep hres
  | sequenced | reliableSequenced | unreliable =>
    rcases processChanneled_other cn hwire (by rw [hm]; rfl) hlt d.index l.receiver turn
      drains with hres | hres <;> rw [hres]
    · exact .stay
    · exact .shut (.close rfl rfl rfl)

/-- **A step of the connection is one of the moves.** -/
theorem linkStep_move {l' : Link} {a : LinkAction} (h : LinkSound cn l)
    (hstep : linkStep l a = some l') : LinkMove l l' := by
  cases a with simp only [linkStep] at hstep
  | send a =>
    simp only [Option.ite_none_right_eq_some, Option.map_eq_some_iff] at hstep
    obtain ⟨hlocal, s, hs, rfl⟩ := hstep
    refine .send hs fun c _ n hn => .inl ?_
    rwa [sendStep_acknowledged h.sender.counted hlocal hs] at hn
  | transmit c i =>
    split at hstep
    · cases hstep
    · rename_i item hitem
      cases hstep
      exact .transmit (List.mem_of_getElem? hitem)
  | deliver i turn drains =>
    split at hstep
    · cases hstep
    · rename_i d hd
      simp only [Option.ite_none_right_eq_some, Bool.and_eq_true, Option.some.injEq] at hstep
      obtain ⟨⟨halive, -⟩, rfl⟩ := hstep
      exact h.deliver_move (List.mem_of_getElem? hd) halive turn drains
  | drain c turns reject =>
    simp only [Option.ite_none_right_eq_some, Option.some.injEq] at hstep
    obtain ⟨⟨hc, -⟩, rfl⟩ := hstep
    refine .ordered hc ?_
    rw [drainOrderedChannel]
    cases hopen : l.receiver.closed with
    | true => exact .refl _
    | false =>
      have hspec := drainOrderedState_spec (CanArrive (l.sender.channel c)) l.receiver c turns hopen
      simp only [Bool.false_eq_true, if_false]
      generalize drainOrderedState l.receiver c turns = r at hspec
      obtain ⟨r, s'⟩ := r
      cases r with
      | invalidFragment => exact hspec.reject reject
      | done | eventChannelClosed => exact hspec
  | emitAck c =>
    simp only [Option.ite_none_right_eq_some, Option.some.injEq] at hstep
    obtain ⟨hdirty, rfl⟩ := hstep
    refine .emit ?_
    cases hm : mayFragment (DeliveryMethod.fromChannelId c) with
    | true => rfl
    | false =>
      rw [h.quiet c hm] at hdirty
      cases hdirty
  | deliverAck i =>
    split at hstep
    · cases hstep
    · rename_i a ha
      simp only [Option.ite_none_right_eq_some, Option.some.injEq] at hstep
      obtain ⟨halive, rfl⟩ := hstep
      exact .send (a := .ack a.bytes) rfl fun c _ n hn =>
        h.released_of_ack (List.mem_of_getElem? ha) halive hn
  | closeReceiver =>
    cases hstep
    exact .shut (.close rfl rfl rfl)
  | cleanup =>
    simp only [Option.ite_none_right_eq_some, Option.some.injEq] at hstep
    obtain ⟨hclosed, rfl⟩ := hstep
    exact .shut ⟨hclosed, rfl, rfl, rfl⟩

namespace LinkSound

variable {cn : BitVec 2} {l l' : Link} {c : Byte}

theorem emit (h : LinkSound cn l) (hc : mayFragment (DeliveryMethod.fromChannelId c) = true) :
    LinkSound cn (emitAck l c) := by
  have hseq := not_sequenced_of_mayFragment hc
  have hlink := h.ackLink c hseq
  have hkept : ∀ d, ((emitAck l c).receiver.acks d).base = (l.receiver.acks d).base ∧
      ((emitAck l c).receiver.acks d).windowStart = (l.receiver.acks d).windowStart ∧
      ((emitAck l c).receiver.acks d).bits = (l.receiver.acks d).bits := by
    intro d
    by_cases hd : d = c
    · subst hd
      simp [emitAck]
    · simp [emitAck, hd]
  refine ⟨h.sender, h.data, ?_, ?_, ?_, ?_, ?_⟩
  · intro a ha
    rcases List.mem_append.mp ha with ha | ha
    · obtain ⟨h₁, h₂, h₃, h₄⟩ := h.acks a ha
      exact ⟨h₁, h₂, h₃.trans (hkept a.channel).1.ge, h₄⟩
    · rw [List.mem_singleton.mp ha]
      refine ⟨hseq, ⟨(l.receiver.acks c).bits, hlink.sound.size, ?_, hlink.sound.shown⟩,
        (hkept c).1.ge, hlink.sent_le (h.channelSound hseq)⟩
      have hstart : (l.receiver.acks c).windowStart = (l.receiver.acks c).base % maxSequence :=
        hlink.sound.start
      rw [h.sender.number, hstart]
  · intro d hd
    obtain ⟨⟨h₁, h₂, h₃⟩, h₄, h₅, h₆⟩ := h.ackLink d hd
    obtain ⟨hb, hw, hbits⟩ := hkept d
    refine ⟨⟨?_, ?_, ?_⟩, h₄, ?_, ?_⟩
    · exact hw.trans (h₁.trans (congrArg (· % maxSequence) hb.symm))
    · exact (congrArg List.length hbits).trans h₂
    · change ShowsOnly _ (bitAt ((emitAck l c).receiver.acks d).bits)
        ((emitAck l c).receiver.acks d).base _
      rw [hb, hbits]
      exact h₃
    · intro n hn
      change _ ∧ n < ((emitAck l c).receiver.acks d).base + 128
      rw [hb]
      exact h₅ n hn
    · exact hb.le.trans h₆
  · intro hopen d hd
    exact (h.ordered hopen d hd).congr rfl rfl
  · intro hopen d hd
    exact (h.unordered hopen d hd).congr rfl rfl
  · intro d hd
    by_cases hdc : d = c
    · subst hdc
      simp [emitAck]
    · simp only [emitAck, Function.update_of_ne hdc]
      exact h.quiet d hd

/-- **Every move keeps the invariant.** -/
theorem move (h : LinkSound cn l) (hm : LinkMove l l') : LinkSound cn l' := by
  cases hm with
  | stay => exact h
  | send hstep hack => exact h.send hstep hack
  | transmit hitem => exact h.transmit hitem
  | ordered hc hsteps =>
    rename_i c s
    have hmay : mayFragment (DeliveryMethod.fromChannelId c) = true := by rw [hc]; rfl
    have hseq := not_sequenced_of_mayFragment hmay
    obtain ⟨hack, hwin⟩ := hsteps.window (h.channelSound hseq) (h.ackLink c hseq)
      (fun hopen => h.ordered hopen c hc)
    refine h.receiveOn hmay hsteps.frame.1 hsteps.frame.2 hack (fun hopen _ => hwin hopen) ?_
    intro _ hc'
    rw [hc] at hc'
    cases hc'
  | unordered hc hA hopen hstep hs =>
    rename_i c q n payload fragment s s'
    have hmay : mayFragment (DeliveryMethod.fromChannelId c) = true := by rw [hc]; rfl
    have hseq := not_sequenced_of_mayFragment hmay
    obtain ⟨hack, hwin⟩ := hstep.window hA (h.channelSound hseq) (h.ackLink c hseq)
      (h.unordered hopen c hc)
    have hsound : LinkSound cn { l with receiver := s } := by
      refine h.receiveOn hmay hstep.grows (.of_frame hstep.frame) hack
        ?_ (fun hopen _ => hwin hopen)
      intro _ hc'
      rw [hc] at hc'
      cases hc'
    rcases hs with rfl | rfl
    · exact hsound
    · exact hsound.shut (.close rfl rfl rfl)
  | emit hc => exact h.emit hc
  | shut hs => exact h.shut hs

end LinkSound

/-- **The invariant holds in every reachable state of a connection.** -/
theorem linkSound_of_reachable {ok : Link → LinkAction → Prop}
    (h : Reachable (linkSystem cn) ok l) :
    LinkSound cn l := by
  refine h.invariant (LinkSound cn) ?_ ?_
  · intro l hl
    rw [show l = .init cn from hl]
    exact .init cn
  · intro l a l' hl _ hstep
    exact hl.move (linkStep_move hl hstep)

end BasisRust.Transport
