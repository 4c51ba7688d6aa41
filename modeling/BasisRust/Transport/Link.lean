import BasisRust.Transport.ReceiveSteps

/-!
# A reliable connection over a lossy network

The send side of one peer, the receive side of the other, and the datagrams between them.  The
network may lose, duplicate, delay and reorder: a datagram once sent stays in the list and can be
delivered any number of times, in any order, or never.  The only assumption on it is that no
datagram outlives the assignment of `maxDatagramAge` newer sequence numbers on its channel.

`transmit` sends a copy of any packet in flight, which covers first transmissions and
retransmissions.  `index`, `base` and `bornAt` of a datagram are history: the index of the packet it
carries, the unwrapped start of the window it reports, and how many packets its channel had been
assigned when it was sent.
-/

namespace BasisRust.Transport

open Library

/-- The number of newer sequence numbers during which a datagram can survive. -/
def maxDatagramAge : ℕ := 16384

structure DataDatagram where
  channel : Byte
  bytes : Bytes
  index : ℕ
  bornAt : ℕ

structure AckDatagram where
  channel : Byte
  bytes : Bytes
  base : ℕ
  bornAt : ℕ

structure Link where
  sender : SendState
  receiver : RecvState
  data : List DataDatagram
  acks : List AckDatagram

def Link.init (connectionNumber : BitVec 2) : Link where
  sender := .init connectionNumber
  receiver := .init
  data := []
  acks := []

/-- The datagram has not been overtaken by too many newer packets. -/
def Link.alive (l : Link) (channel : Byte) (bornAt : ℕ) : Bool :=
  decide ((l.sender.sent channel).length < bornAt + maxDatagramAge)

/-- The local steps of the send side: all but the arrival of an acknowledgement. -/
def SendAction.isLocal : SendAction → Bool
  | .ack _ => false
  | _ => true

inductive LinkAction where
  | send (a : SendAction)
  | transmit (channel : Byte) (i : ℕ)
  | deliver (i : ℕ) (turn : Turn) (drains : List Turn)
  | drain (channel : Byte) (turns : List Turn) (reject : Turn)
  | emitAck (channel : Byte)
  | deliverAck (i : ℕ)
  | closeReceiver
  | cleanup

/-- The acknowledgement pass of the dispatch loop on one channel. -/
def emitAck (l : Link) (c : Byte) : Link :=
  let ack := l.receiver.acks c
  { l with
    receiver := { l.receiver with
      acks := Function.update l.receiver.acks c { ack with dirty := false } }
    acks := l.acks ++ [⟨c, buildAckPacket l.sender.connectionNumber c ack.windowStart ack.bits,
      ack.base, (l.sender.sent c).length⟩] }

/-- The ordered state and the assemblies of a closed session are dropped. -/
def cleanupReceiver (s : RecvState) : RecvState :=
  { s with ordered := fun _ => .initial, incoming := .empty }

def linkStep (l : Link) : LinkAction → Option Link
  | .send a =>
    if a.isLocal then (sendStep l.sender a).map fun s => { l with sender := s } else none
  | .transmit c i =>
    match (l.sender.pending c)[i]? with
    | none => none
    | some item => some { l with
        data := l.data ++ [⟨c, item.bytes, item.index, (l.sender.sent c).length⟩] }
  | .deliver i turn drains =>
    match l.data[i]? with
    | none => none
    | some d =>
      if l.alive d.channel d.bornAt && decide (drains.length ≤ maxOrderedDrainPerPeerPerPass) then
        some { l with receiver := processChanneled l.receiver d.index d.bytes turn drains }
      else none
  | .drain c turns reject =>
    if DeliveryMethod.fromChannelId c = .reliableOrdered ∧
        turns.length ≤ maxOrderedDrainPerPeerPerPass then
      some { l with receiver := drainOrderedChannel l.receiver c turns reject }
    else none
  | .emitAck c => if (l.receiver.acks c).dirty then some (emitAck l c) else none
  | .deliverAck i =>
    match l.acks[i]? with
    | none => none
    | some a =>
      if l.alive a.channel a.bornAt then some { l with sender := processAck l.sender a.bytes }
      else none
  | .closeReceiver => some { l with receiver := l.receiver.close }
  | .cleanup =>
    if l.receiver.closed then some { l with receiver := cleanupReceiver l.receiver } else none

/-- Both ends of a session and the network between them. -/
def linkSystem (connectionNumber : BitVec 2) : System Link LinkAction where
  init := fun l => l = .init connectionNumber
  step := linkStep

/-! ### Reading back a packet -/

/-- A packet whose fields fit their places on the wire. -/
structure WirePacket (p : OutgoingReliable) : Prop where
  fields : ∀ f, p.fragment = some f → f.id < 65536 ∧ f.part < 65536 ∧ f.total < 65536

variable {cn : BitVec 2} {c : Byte} {sequence : ℕ} {p : OutgoingReliable}

theorem header_unfragmented (cn : BitVec 2) :
    PacketProperty.channeled.header cn &&& 0x80#8 = 0#8 := by
  revert cn
  decide

theorem header_fragmented (cn : BitVec 2) :
    (PacketProperty.channeled.header cn ||| 0x80#8) &&& 0x80#8 ≠ 0#8 := by
  revert cn
  decide

/-- **Round trip.**  The receiver reads back the packet the sender wrote. -/
theorem parseChanneledPacket_built (hp : WirePacket p) :
    parseChanneledPacket (reliablePacketBytes cn c sequence p) = some (p.payload, p.fragment) := by
  obtain ⟨payload, fragment⟩ := p
  cases fragment with
  | none =>
    have hbytes : reliablePacketBytes cn c sequence ⟨payload, none⟩ =
        [PacketProperty.channeled.header cn, BitVec.ofNat 8 sequence,
          BitVec.ofNat 8 (sequence / 256), c] ++ payload := rfl
    have hlen : ¬ ((reliablePacketBytes cn c sequence ⟨payload, none⟩).length < 4) := by
      rw [hbytes, List.length_append]
      simp
    rw [parseChanneledPacket, litenetlibChanneledHeaderSize, if_neg hlen, if_neg]
    · rfl
    · rw [not_not]
      exact header_unfragmented cn
  | some f =>
    obtain ⟨hid, hpart, htotal⟩ := hp.fields f rfl
    have hbytes : reliablePacketBytes cn c sequence ⟨payload, some f⟩ =
        [PacketProperty.channeled.header cn ||| 0x80#8, BitVec.ofNat 8 sequence,
          BitVec.ofNat 8 (sequence / 256), c] ++
        (leBytes 2 f.id ++ leBytes 2 f.part ++ leBytes 2 f.total ++ payload) := rfl
    have hlen : (reliablePacketBytes cn c sequence ⟨payload, some f⟩).length =
        10 + payload.length := by
      rw [hbytes]
      simp only [List.length_append, leBytes_length, List.length_cons, List.length_nil]
      omega
    have hsize : litenetlibFragmentedHeaderSize = 10 := rfl
    have h₁ : leNat (slice (reliablePacketBytes cn c sequence ⟨payload, some f⟩) 4 2) = f.id :=
      leNat_leBytes_two f.id hid
    have h₂ : leNat (slice (reliablePacketBytes cn c sequence ⟨payload, some f⟩) 6 2) = f.part :=
      leNat_leBytes_two f.part hpart
    have h₃ : leNat (slice (reliablePacketBytes cn c sequence ⟨payload, some f⟩) 8 2) = f.total :=
      leNat_leBytes_two f.total htotal
    rw [parseChanneledPacket, litenetlibChanneledHeaderSize, if_neg (by omega), if_pos, hsize,
      if_neg (by omega), h₁, h₂, h₃]
    · rfl
    · exact header_fragmented cn

theorem reliablePacketBytes_channel (cn : BitVec 2) (c : Byte) (sequence : ℕ)
    (p : OutgoingReliable) : (reliablePacketBytes cn c sequence p).getD 3 0 = c := by
  obtain ⟨payload, fragment⟩ := p
  cases fragment <;> rfl

theorem reliablePacketBytes_sequence (cn : BitVec 2) (c : Byte) {sequence : ℕ}
    (h : sequence < maxSequence) (p : OutgoingReliable) :
    leNat (slice (reliablePacketBytes cn c sequence p) 1 2) = sequence := by
  have hslice : slice (reliablePacketBytes cn c sequence p) 1 2 = leBytes 2 sequence := by
    obtain ⟨payload, fragment⟩ := p
    cases fragment <;> rfl
  rw [maxSequence] at h
  rw [hslice, leNat_leBytes_two _ (by omega)]

/-- Rejecting a session leaves it as it is or closes it. -/
theorem OrderedSteps.reject {A : Arrival} {s s' : RecvState} (h : OrderedSteps A c s s')
    (turn : Turn) : OrderedSteps A c s (rejectFragmentSession s' turn) := by
  induction h with
  | refl s =>
    rw [rejectFragmentSession]
    split_ifs
    · cases hopen : s.closed with
      | true =>
        have hsame : s.close = s := by rw [RecvState.close, ← hopen]
        rw [hsame]
        exact .refl s
      | false => exact .one hopen (.shut (.close rfl rfl rfl))
    · exact .refl s
  | step hopen h _ ih => exact .step hopen h ih

/-- **A datagram on an ordered channel** makes a few ordered steps. -/
theorem processChanneled_ordered {A : Arrival} (hp : WirePacket p)
    (hc : DeliveryMethod.fromChannelId c = .reliableOrdered) (hseq : sequence < maxSequence)
    {n : ℕ} (hA : A sequence n p.payload p.fragment) (s : RecvState) (turn : Turn)
    (drains : List Turn) :
    OrderedSteps A c s
      (processChanneled s n (reliablePacketBytes cn c sequence p) turn drains) := by
  simp only [processChanneled, parseChanneledPacket_built hp, reliablePacketBytes_channel,
    reliablePacketBytes_sequence cn c hseq p, hc]
  split_ifs with hbad hlarge
  · exact (OrderedSteps.refl s).reject turn
  · exact .refl s
  · have hspec := admitReliableOrdered_spec s c hA turn drains
    generalize admitReliableOrdered s c sequence n p.payload p.fragment turn drains = r at hspec
    obtain ⟨r, s'⟩ := r
    cases r with
    | invalidFragment => exact hspec.reject turn
    | done | eventChannelClosed => exact hspec

/-- Steps of the unordered admission, possibly followed by the end of the session. -/
theorem processChanneled_unordered (cn : BitVec 2) (hp : WirePacket p)
    (hc : DeliveryMethod.fromChannelId c = .reliableUnordered) (hseq : sequence < maxSequence)
    (n : ℕ) (s : RecvState) (turn : Turn) (drains : List Turn) :
    ∃ s₁, (s₁ = s ∨ s.closed = false ∧ UnorderedStep c sequence n p.payload p.fragment s s₁) ∧
      (processChanneled s n (reliablePacketBytes cn c sequence p) turn drains = s₁ ∨
        processChanneled s n (reliablePacketBytes cn c sequence p) turn drains = s₁.close) := by
  have hreject : ∀ s₁ : RecvState, rejectFragmentSession s₁ turn = s₁ ∨
      rejectFragmentSession s₁ turn = s₁.close := by
    intro s₁
    rw [rejectFragmentSession]
    split_ifs
    · exact .inr rfl
    · exact .inl rfl
  simp only [processChanneled, parseChanneledPacket_built hp, reliablePacketBytes_channel,
    reliablePacketBytes_sequence cn c hseq p, hc]
  split_ifs with hbad hlarge
  · exact ⟨s, .inl rfl, hreject s⟩
  · exact ⟨s, .inl rfl, .inl rfl⟩
  · have hspec := admitReliableUnordered_spec s c sequence n p.payload p.fragment turn
    generalize admitReliableUnordered s c sequence n p.payload p.fragment turn = r at hspec
    obtain ⟨r, s'⟩ := r
    refine ⟨s', hspec, ?_⟩
    cases r with
    | invalidFragment => exact hreject s'
    | done | eventChannelClosed => exact .inl rfl

/-- Datagrams of the other channels do not touch the reliable receive state, unless they end the
session. -/
theorem processChanneled_other (cn : BitVec 2) (hp : WirePacket p)
    (hc : mayFragment (DeliveryMethod.fromChannelId c) = false) (hseq : sequence < maxSequence)
    (n : ℕ) (s : RecvState) (turn : Turn) (drains : List Turn) :
    processChanneled s n (reliablePacketBytes cn c sequence p) turn drains = s ∨
      processChanneled s n (reliablePacketBytes cn c sequence p) turn drains = s.close := by
  simp only [processChanneled, parseChanneledPacket_built hp, reliablePacketBytes_channel,
    reliablePacketBytes_sequence cn c hseq p]
  split_ifs with hbad hlarge
  · rw [rejectFragmentSession]
    split_ifs
    · exact .inr rfl
    · exact .inl rfl
  · exact .inl rfl
  · cases hd : DeliveryMethod.fromChannelId c with
    | reliableOrdered | reliableUnordered => rw [hd] at hc; cases hc
    | sequenced | reliableSequenced | unreliable => exact .inl rfl

end BasisRust.Transport
