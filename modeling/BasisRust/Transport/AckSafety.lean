import BasisRust.Transport.LinkInvariant

/-!
# What acknowledgements promise

Two consequences of the invariant of the connection, for every ordered and unordered channel: a
packet leaves the in-flight queue only after the receiver has recorded it, and the window never
stays stuck behind a lost acknowledgement.
-/

namespace BasisRust.Transport

open Library

/-- The receiver's own record of a number: the history and the reorder buffer of an ordered channel,
the table of an unordered one. -/
def RecvState.holds (s : RecvState) (c : Byte) (sequence : ℕ) : Bool :=
  match DeliveryMethod.fromChannelId c with
  | .reliableOrdered => (s.ordered c).isCommitted sequence ||
      (assocGet sequence (s.ordered c).future).isSome
  | .reliableUnordered => (s.unordered c).contains sequence
  | _ => false

variable {cn : BitVec 2} {ok : Link → LinkAction → Prop} {l l' : Link} {c : Byte}
  {item : PendingReliable}

/-- A recorded packet that is still in flight has not fallen out of the record. -/
theorem LinkSound.holds (h : LinkSound cn l)
    (hc : mayFragment (DeliveryMethod.fromChannelId c) = true)
    (hopen : l.receiver.closed = false) (hitem : item ∈ l.sender.pending c)
    (hrec : item.index ∈ l.receiver.recorded c) : l.receiver.holds c item.sequence = true := by
  have hseq := not_sequenced_of_mayFragment hc
  have hv := h.channelSound hseq
  have hl := h.ackLink c hseq
  have hbase := hv.base_le_index hitem
  have hwin := hv.window
  rw [defaultWindowSize] at hwin
  rw [hv.sequence_eq hitem, sequenceOf_of hseq, RecvState.holds]
  cases hm : DeliveryMethod.fromChannelId c with
  | reliableOrdered =>
    have hw := h.ordered hopen c hm
    have hcursor := hw.cursor_le_sent hl
    rw [Bool.or_eq_true]
    rcases hw.recorded item.index hrec with hlt | ⟨-, -, hfuture⟩
    · exact .inl (hw.isCommitted_of hlt (by omega))
    · exact .inr hfuture
  | reliableUnordered =>
    have hw := h.unordered hopen c hm
    refine hw.contains_of hrec fun hnext => ?_
    have hlt := hl.sent _ hnext
    omega
  | sequenced | reliableSequenced | unreliable =>
    rw [hm] at hc
    cases hc

/-! ### No false release -/

/-- A packet that is no longer in flight has been acknowledged. -/
theorem ChannelSound.acknowledged_of_gone {w w' : ℕ} {v v' : SendChannel}
    (hv : ChannelSound cn c w v) (hv' : ChannelSound cn c w' v') (hsent : v.sent <+: v'.sent)
    (hitem : item ∈ v.pending) (hgone : item ∉ v'.pending) :
    item.index ∈ v'.acknowledged ∧ item.index ∉ v.acknowledged := by
  constructor
  · have hlt := (hv.index_lt hitem).trans_le hsent.length_le
    have hmem : item.index ∈ v'.acknowledged ++ v'.pending.map fun item => item.index :=
      hv'.ledger.mem_iff.mpr (List.mem_range.mpr hlt)
    rcases List.mem_append.mp hmem with hack | hpend
    · exact hack
    · -- an item is determined by its index
      obtain ⟨other, hother, hindex⟩ := List.mem_map.mp hpend
      obtain ⟨p, hp, heq⟩ := hv.wire item hitem
      obtain ⟨p', hp', heq'⟩ := hv'.wire other hother
      rw [hindex, getElem?_extends hsent hp] at hp'
      cases hp'
      rw [hindex, ← heq] at heq'
      exact absurd (heq' ▸ hother) hgone
  · intro hack
    have hnodup : (v.acknowledged ++ v.pending.map fun item => item.index).Nodup :=
      hv.ledger.nodup_iff.mpr List.nodup_range
    exact (List.nodup_append.mp hnodup).2.2 _ hack _ (List.mem_map_of_mem hitem) rfl

/-- A move acknowledges only packets that were recorded before. -/
theorem LinkMove.released (hm : LinkMove l l') (hc : isSequencedId c = false) {n : ℕ}
    (hn : n ∈ l'.sender.acknowledged c) :
    n ∈ l.sender.acknowledged c ∨ n ∈ l.receiver.recorded c := by
  cases hm with
  | send hstep hack =>
    rcases hack c hc n hn with hn | hn
    · exact .inl hn
    · exact .inr hn.1
  | stay | transmit | ordered | unordered | emit | shut => exact .inl hn

/-- **No false release.**  Whenever a packet of an ordered or unordered channel leaves the in-flight
queue, the receiver has already recorded exactly that packet; while the session is open it is still
in the history, in the reorder buffer or in the table. -/
theorem release_recorded {a : LinkAction} (h : Reachable (linkSystem cn) ok l)
    (hstep : linkStep l a = some l') (hc : mayFragment (DeliveryMethod.fromChannelId c) = true)
    (hitem : item ∈ l.sender.pending c) (hgone : item ∉ l'.sender.pending c) :
    item.index ∈ l.receiver.recorded c ∧
      (l.receiver.closed = false → l.receiver.holds c item.sequence = true) := by
  have hl := linkSound_of_reachable h
  have hmove := linkStep_move hl hstep
  have hl' := hl.move hmove
  have hseq := not_sequenced_of_mayFragment hc
  obtain ⟨hack, hnot⟩ := (hl.channelSound hseq).acknowledged_of_gone (hl'.channelSound hseq)
    (hmove.sender_mono hl c).1 hitem hgone
  have hrec := (hmove.released hseq hack).resolve_left hnot
  exact ⟨hrec, fun hopen => hl.holds hc hopen hitem hrec⟩

/-! ### Runs -/

/-- One payload on channel id 2, sent, delivered and acknowledged. -/
def orderedExchange : List LinkAction :=
  [.send (.enqueue [(0, .reliableOrdered, [7#8])]), .send (.move [2]), .send .releaseBytes,
    .send .releasePackets, .send .build, .transmit 2 0, .deliver 0 .willing [], .emitAck 2]

theorem release_recorded_one : ∃ l l' item, Reachable (linkSystem 0) (fun _ _ => True) l ∧
    linkStep l (.deliverAck 0) = some l' ∧ item ∈ l.sender.pending 2 ∧
    item ∉ l'.sender.pending 2 ∧ item.index ∈ l.receiver.recorded 2 := by
  have hrun : ((runActions (linkSystem 0) (.init 0) orderedExchange).any fun l =>
      decide (l.sender.pending 2 = [⟨0, [1, 0, 0, 2, 7], 0⟩]) &&
        (linkStep l (.deliverAck 0)).any fun l' => decide (l'.sender.pending 2 = [])) = true := by
    decide +kernel
  obtain ⟨l, hreach, hl⟩ := exists_reachable_of_free_run (.init rfl) hrun
  rw [Bool.and_eq_true, decide_eq_true_eq, Option.any_eq_true_iff_get] at hl
  obtain ⟨hpending, hsome, hafter⟩ := hl
  have hstep := (Option.some_get hsome).symm
  rw [decide_eq_true_eq] at hafter
  have hitem : (⟨0, [1, 0, 0, 2, 7], 0⟩ : PendingReliable) ∈ l.sender.pending 2 := by
    rw [hpending]
    exact List.mem_singleton_self _
  have hgone : (⟨0, [1, 0, 0, 2, 7], 0⟩ : PendingReliable) ∉
      ((linkStep l (.deliverAck 0)).get hsome).sender.pending 2 := by
    rw [hafter]
    exact List.not_mem_nil
  exact ⟨l, _, _, hreach, hstep, hitem, hgone,
    (release_recorded hreach hstep (by decide) hitem hgone).1⟩

/-! ### No permanent stall -/

/-- A packet that the receiver has is acknowledged again, and nothing else happens. -/
theorem processChanneled_duplicate {p : OutgoingReliable} {sequence n : ℕ} {s : RecvState}
    {turn : Turn} {drains : List Turn} (hp : WirePacket p)
    (hwell : (p.fragment.any fun f => fragmentMalformed f p.payload) = false)
    (hc : mayFragment (DeliveryMethod.fromChannelId c) = true) (hseq : sequence < maxSequence)
    (hopen : s.closed = false) (hturn : turn.openAtCommit = true)
    (hholds : s.holds c sequence = true) :
    processChanneled s n (reliablePacketBytes cn c sequence p) turn drains = s.ack c sequence := by
  simp only [processChanneled, parseChanneledPacket_built hp, reliablePacketBytes_channel,
    reliablePacketBytes_sequence cn c hseq p, hc, Bool.not_true, Bool.false_or, hwell,
    decide_eq_false (Nat.not_le.mpr hseq), Bool.and_false, Bool.false_eq_true, if_false, ge_iff_le]
  rw [RecvState.holds] at hholds
  cases hm : DeliveryMethod.fromChannelId c with
  | reliableOrdered =>
    rw [hm] at hholds
    simp only [admitReliableOrdered, hopen, Bool.false_eq_true, if_false, if_pos hholds, hturn,
      if_true]
  | reliableUnordered =>
    rw [hm] at hholds
    simp only [admitReliableUnordered, hopen, Bool.false_eq_true, if_false, if_pos hholds]
  | sequenced | reliableSequenced | unreliable =>
    rw [hm] at hc
    cases hc

/-- **No permanent stall.**  If the receiver has recorded the oldest packet in flight, one more copy
of it is recognised as a duplicate and acknowledged; the acknowledgement built right after that
passes the bounds check of the sender and releases the packet. -/
theorem duplicate_releases_front {front : PendingReliable} {rest : List PendingReliable}
    (h : Reachable (linkSystem cn) ok l) (hc : mayFragment (DeliveryMethod.fromChannelId c) = true)
    (hopen : l.receiver.closed = false) (hfront : l.sender.pending c = front :: rest)
    (hrec : front.index ∈ l.receiver.recorded c) (turn : Turn) (hturn : turn.openAtCommit = true)
    (drains : List Turn) :
    let s := processChanneled l.receiver front.index front.bytes turn drains
    let ack := s.acks c
    s = l.receiver.ack c front.sequence ∧
    0 ≤ relativeSequence front.sequence (l.receiver.acks c).windowStart ∧
    ack.dirty = true ∧
    0 ≤ relativeSequence front.sequence ack.windowStart ∧
    relativeSequence front.sequence ack.windowStart < defaultWindowSize ∧
    front ∉ (processAck l.sender
      (buildAckPacket l.sender.connectionNumber c ack.windowStart ack.bits)).pending c := by
  have hl := linkSound_of_reachable h
  have hseq := not_sequenced_of_mayFragment hc
  have hv := hl.channelSound hseq
  have hlink := hl.ackLink c hseq
  have hmem : front ∈ l.sender.pending c := hfront ▸ List.mem_cons_self
  obtain ⟨p, hp, hbuilt⟩ := hv.wire front hmem
  obtain ⟨m, hm, hpm⟩ := hv.message_of_sent hp
  have hnumber : front.sequence = front.index % maxSequence := by
    rw [hv.sequence_eq hmem, sequenceOf_of hseq]
  have hbytes : front.bytes = reliablePacketBytes cn c front.sequence p := by
    rw [hbuilt]
    rfl
  have hlt : front.sequence < maxSequence := by
    rw [hnumber]
    exact Nat.mod_lt _ (by decide)
  -- the front is not below the bitmap, and at most a window above it
  have hbase := hv.base_le_index hmem
  have hbehind : (l.receiver.acks c).base ≤ _ := hlink.behind
  have hsent : _ ≤ (l.receiver.acks c).base + 256 := hlink.sent_le hv
  have hindex := hv.index_lt hmem
  obtain ⟨hsound, hnew, hset⟩ := hlink.sound.queueAck_spec hrec
    (show front.index < (l.receiver.acks c).base + 16384 by omega)
    (show (l.receiver.acks c).base < front.index + 16384 by omega)
  obtain ⟨hbit, hdirty⟩ := hset (show (l.receiver.acks c).base ≤ front.index by omega)
  rw [← hnumber] at hsound hnew hbit hdirty
  change AckSound _ (queueAck (l.receiver.acks c) front.sequence) at hsound
  change (queueAck (l.receiver.acks c) front.sequence).base =
    max (l.receiver.acks c).base (front.index - 127) at hnew
  have hack : (l.receiver.ack c front.sequence).acks c =
      queueAck (l.receiver.acks c) front.sequence := by
    simp [RecvState.ack]
  have hrel : relativeSequence front.sequence
      (queueAck (l.receiver.acks c) front.sequence).windowStart =
      front.index - (queueAck (l.receiver.acks c) front.sequence).base := by
    rw [hsound.start, hnumber, relativeSequence_unwrap _ _ (by rw [← hnumber]; omega)
      (by rw [← hnumber]; omega)]
  have hW : defaultWindowSize = 128 := rfl
  intro s ack
  have hs : s = l.receiver.ack c front.sequence := by
    change processChanneled l.receiver front.index front.bytes turn drains = _
    rw [hbytes]
    exact processChanneled_duplicate (hm.wirePacket hpm) (hm.wellFormed hpm) hc hlt hopen hturn
      (hl.holds hc hopen hmem hrec)
  have hack' : ack = queueAck (l.receiver.acks c) front.sequence := by
    rw [← hack, ← hs]
  refine ⟨hs, ?_, ?_, ?_, ?_, ?_⟩
  · have hstart : (l.receiver.acks c).windowStart = (l.receiver.acks c).base % maxSequence :=
      hlink.sound.start
    rw [hstart, hnumber, relativeSequence_unwrap _ _ (by omega) (by omega)]
    omega
  · rw [hack']
    exact hdirty
  · rw [hack', hrel]
    omega
  · rw [hack', hrel]
    omega
  · rw [hack', hsound.start]
    exact (processAck_releases_front _ hseq hsound.size hfront hnumber (by omega) (by omega)
      hbit).1

theorem duplicate_releases_front_one : ∃ l front, Reachable (linkSystem 0) (fun _ _ => True) l ∧
    l.sender.pending 2 = [front] ∧ front.index ∈ l.receiver.recorded 2 ∧
    processChanneled l.receiver front.index front.bytes .willing [] =
      l.receiver.ack 2 front.sequence := by
  have hrun : ((runActions (linkSystem 0) (.init 0) orderedExchange).any fun l =>
      decide (l.sender.pending 2 = [⟨0, [1, 0, 0, 2, 7], 0⟩]) &&
        (!l.receiver.closed && decide (l.receiver.recorded 2 = [0]))) = true := by
    decide +kernel
  obtain ⟨l, hreach, hl⟩ := exists_reachable_of_free_run (.init rfl) hrun
  simp only [Bool.and_eq_true, decide_eq_true_eq, Bool.not_eq_true'] at hl
  obtain ⟨hpending, hopen, hrec⟩ := hl
  have hmem : 0 ∈ l.receiver.recorded 2 := by
    rw [hrec]
    exact List.mem_singleton_self 0
  exact ⟨l, _, hreach, hpending, hmem,
    (duplicate_releases_front hreach (by decide) hopen hpending hmem .willing rfl []).1⟩

end BasisRust.Transport
