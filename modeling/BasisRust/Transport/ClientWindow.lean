import BasisRust.Transport.ClientReceive
import BasisRust.Transport.LinkInvariant

/-!
# The client's window keeps up with the server's sender

`WindowSound` is the invariant of one window: it shows exactly the packets of its range that were
new, and nothing that was new is above it.  `markNew_old` and `markNew_near` say what recording one
packet does to such a window.  `ClientSound` is the invariant of the whole link; seen as the
acknowledgement state of a receive channel the client's window satisfies `AckLink`, so that what a
server peer promises about its acknowledgements holds of the client's as well.

`client_window_keeps_up` is the result for every run: no packet is recorded twice or lost, an
acknowledgement names only recorded packets, and the oldest packet in flight is always one that the
window can still acknowledge.
-/

namespace BasisRust.Transport

open Library

/-! ### The bitmap -/

/-- Testing one bit with a mask. -/
theorem and_bit_ne_zero (x : BitVec 128) {k : ℕ} (hk : k < 128) :
    x &&& (1#128 <<< k) ≠ 0 ↔ x.getLsbD k = true := by
  constructor
  · intro h
    by_contra hbit
    apply h
    apply BitVec.eq_of_getLsbD_eq
    intro j hj
    rw [BitVec.getLsbD_and, getLsbD_one_shiftLeft]
    by_cases hjk : j = k
    · rw [hjk, Bool.eq_false_iff.mpr hbit]
      simp
    · simp [hjk]
  · intro hbit h
    have hread := congrArg (fun y => y.getLsbD k) h
    simp only [BitVec.getLsbD_and, getLsbD_one_shiftLeft, hbit, hk] at hread
    simp at hread

namespace ReceiveWindow

variable {R : List ℕ} {w : ReceiveWindow} {n : ℕ}

theorem renderBits_length (x : BitVec 128) (m : ℕ) : (renderBits x m).length = ackBytes := by
  induction m with
  | zero => exact List.length_replicate
  | succ m ih =>
    rw [renderBits]
    split_ifs
    · rw [setBitAt_length, ih]
    · exact ih

/-- The rendered bits are the bits of the window. -/
theorem bitAt_renderBits (x : BitVec 128) {m : ℕ} (hm : m ≤ 128) (k : ℕ) :
    bitAt (renderBits x m) k = (decide (k < m) && x.getLsbD k) := by
  induction m with
  | zero => simp [renderBits]
  | succ m ih =>
    have hbyte : m / 8 < (renderBits x m).length := by
      have hsize : ackBytes = 17 := rfl
      rw [renderBits_length, hsize]
      omega
    have hif : bitAt (renderBits x (m + 1)) k =
        (decide (k = m) && x.getLsbD m || bitAt (renderBits x m) k) := by
      rw [renderBits]
      split_ifs with hbit
      · rw [bitAt_setBitAt (by decide) _ _ _ hbyte, (and_bit_ne_zero x (by omega)).mp hbit,
          Bool.and_true]
      · rw [(and_bit_ne_zero x (by omega)).not, Bool.not_eq_true] at hbit
        rw [hbit, Bool.and_false, Bool.false_or]
    rw [hif, ih (by omega)]
    by_cases hkm : k = m
    · simp [hkm]
    · have hlt : k < m + 1 ↔ k < m := by omega
      simp [hkm, hlt]

/-- The window shows exactly the packets of its range that are in `R`, and `R` has nothing above
it. -/
structure WindowSound (R : List ℕ) (w : ReceiveWindow) : Prop where
  start : w.windowStart = w.base % maxSequence
  shown : Shows defaultWindowSize (fun r => w.received.getLsbD r) w.base (· ∈ R)
  below : ∀ n ∈ R, n < w.base + 128

namespace WindowSound

theorem initial : WindowSound [] .initial where
  start := rfl
  shown := by
    intro n _ _
    simp [ReceiveWindow.initial]
  below := by simp

section

variable (h : WindowSound R w)
include h

theorem slideOne : WindowSound R w.slideOne where
  start := by
    show (w.windowStart + 1) % maxSequence = (w.base + 1) % maxSequence
    rw [h.start, Nat.mod_add_mod]
  shown := by
    show Shows defaultWindowSize _ (w.base + 1) _
    apply h.shown.slide
    · intro n hn hmem
      have hlt := h.below n hmem
      rw [defaultWindowSize] at hn
      omega
    · intro r
      show (w.received &&& ~~~(1#128 <<< (w.windowStart % defaultWindowSize))).getLsbD r = _
      have hmod : w.windowStart % defaultWindowSize = w.base % 128 := by
        rw [h.start, maxSequence, defaultWindowSize, Nat.mod_mod_of_dvd _ (by decide)]
      rw [hmod, BitVec.getLsbD_and, BitVec.getLsbD_not, getLsbD_one_shiftLeft]
      by_cases hr : r < 128
      · by_cases heq : r = w.base % 128
        · simp [heq, defaultWindowSize]
        · simp [heq, hr, defaultWindowSize]
      · have hout : w.received.getLsbD r = false := BitVec.getLsbD_of_ge _ _ (by omega)
        simp [hout]
  below := by
    intro n hn
    have hlt := h.below n hn
    show n < w.base + 1 + 128
    omega

theorem slide (k : ℕ) :
    WindowSound R (w.slide k) ∧ (w.slide k).base = w.base + k ∧
      (w.slide k).started = w.started ∧ (w.slide k).ackDirty = w.ackDirty := by
  induction k generalizing w with
  | zero => exact ⟨h, rfl, rfl, rfl⟩
  | succ k ih =>
    obtain ⟨hs, hb, hstarted, hdirty⟩ := ih h.slideOne
    refine ⟨hs, ?_, hstarted, hdirty⟩
    rw [ReceiveWindow.slide, hb]
    show w.base + 1 + k = w.base + (k + 1)
    omega

/-- The marks of the channel do not matter. -/
theorem marked (started dirty : Bool) :
    WindowSound R { w with started := started, ackDirty := dirty } :=
  ⟨h.start, h.shown, h.below⟩

/-- **The duplicate check** on a packet of the window. -/
theorem markBit (hlo : w.base ≤ n) (hhi : n < w.base + 128) : let r := w.markBit (n % maxSequence)
    (r.1 = true ↔ n ∉ R) ∧ WindowSound (if n ∈ R then R else n :: R) r.2 ∧ r.2.base = w.base ∧
      r.2.started = w.started ∧ r.2.ackDirty = w.ackDirty := by
  have hmod : n % maxSequence % defaultWindowSize = n % 128 := by
    rw [maxSequence, defaultWindowSize, Nat.mod_mod_of_dvd _ (by decide)]
  have hlt : n % 128 < 128 := Nat.mod_lt _ (by decide)
  have hbit : w.received.getLsbD (n % 128) = true ↔ n ∈ R := h.shown n hlo hhi
  simp only [ReceiveWindow.markBit, hmod, and_bit_ne_zero _ hlt, hbit]
  by_cases hmem : n ∈ R
  · simp only [if_pos hmem]
    exact ⟨⟨(fun h => by cases h), fun hnot => absurd hmem hnot⟩, h, trivial, trivial, trivial⟩
  · simp only [if_neg hmem]
    refine ⟨⟨fun _ => hmem, fun _ => trivial⟩, ⟨h.start, ?_, ?_⟩, trivial, trivial, trivial⟩
    · have hmark : Shows defaultWindowSize
          (fun r => (w.received ||| (1#128 <<< (n % 128))).getLsbD r) w.base
          fun m => m = n ∨ m ∈ R := by
        apply h.shown.mark hlo hhi
        intro r
        show _ = (decide (r = n % 128) || w.received.getLsbD r)
        rw [BitVec.getLsbD_or, getLsbD_one_shiftLeft, Bool.or_comm]
        by_cases hr : r = n % 128
        · simp [hr, hlt]
        · simp [hr]
      exact hmark.congr fun m _ _ => List.mem_cons.symm
    · intro m hm
      rcases List.mem_cons.mp hm with heq | hm
      · rw [heq]
        exact hhi
      · exact h.below m hm

/-- A packet below the window is refused, even when it is more than half a lap old. -/
theorem markNew_old (hlt : n < w.base) (hage : w.base ≤ n + 16640) :
    w.markNew (n % maxSequence) = (false, w) := by
  have hseq : ¬ (n % maxSequence ≥ maxSequence) := by
    rw [maxSequence]
    omega
  have hrel : relativeSequence (n % maxSequence) (w.base % maxSequence) < 0 ∨
      relativeSequence (n % maxSequence) (w.base % maxSequence) ≥ 256 := by
    simp only [relativeSequence, maxSequence]
    split_ifs <;> omega
  rw [markNew, if_neg hseq]
  simp only [h.start]
  rcases hrel with hneg | hfar
  · rw [if_pos hneg]
  · rw [if_neg (by omega), if_pos (by exact hfar)]

/-- **A packet up to two windows above the base** is new unless it was recorded before; its channel
owes an acknowledgement afterwards, and the window has slid just far enough. -/
theorem markNew_near (hlo : w.base ≤ n) (hhi : n < w.base + 256) :
    let r := w.markNew (n % maxSequence)
    (r.1 = true ↔ n ∉ R) ∧ WindowSound (if n ∈ R then R else n :: R) r.2 ∧
      r.2.base = max w.base (n - 127) ∧ r.2.started = true ∧ r.2.ackDirty = true := by
  have hseq : ¬ (n % maxSequence ≥ maxSequence) := by
    rw [maxSequence]
    omega
  have hrel := relativeSequence_unwrap n w.base (by omega) (by omega)
  have hW : defaultWindowSize = 128 := rfl
  have hmarked := h.marked true true
  rw [markNew, if_neg hseq]
  simp only [h.start, hrel]
  rw [if_neg (by omega), if_neg (by omega)]
  by_cases hfar : (n : ℤ) - w.base ≥ defaultWindowSize
  · -- ahead of the window: it becomes its last number
    rw [if_pos hfar]
    obtain ⟨hs, hb, hstarted, hdirty⟩ :=
      hmarked.slide (((n : ℤ) - w.base).toNat - defaultWindowSize + 1)
    simp only [h.start] at hs hb hstarted hdirty
    obtain ⟨h₁, h₂, h₃, h₄, h₅⟩ := hs.markBit (n := n) (by omega) (by omega)
    exact ⟨h₁, h₂, by omega, h₄.trans hstarted, h₅.trans hdirty⟩
  · rw [if_neg hfar]
    simp only [h.start] at hmarked
    obtain ⟨h₁, h₂, h₃, h₄, h₅⟩ :=
      hmarked.markBit hlo (by rw [hW] at hfar; show n < w.base + 128; omega)
    exact ⟨h₁, h₂, h₃.trans (by show w.base = _; omega), h₄, h₅⟩

end

end WindowSound

/-- The window as the acknowledgement state of a receive channel. -/
def ackState (w : ReceiveWindow) : AckState where
  windowStart := w.windowStart
  bits := renderBits w.received defaultWindowSize
  dirty := w.ackDirty
  base := w.base

theorem WindowSound.ackSound (h : WindowSound R w) : AckSound (· ∈ R) w.ackState where
  start := h.start
  size := renderBits_length _ _
  shown := by
    intro m hm hm' hbit
    rw [ackState, bitAt_renderBits _ (by decide), Bool.and_eq_true] at hbit
    exact (h.shown m hm hm').mp hbit.2

end ReceiveWindow

/-! ### One channel of the link -/

/-- What the client holds of one channel. -/
structure ClientChannel where
  window : ReceiveWindow
  arrived : List ℕ
  fresh : List ℕ

namespace ClientChannel

def initial : ClientChannel := ⟨.initial, [], []⟩

/-- The `n`-th packet arrives with its number. -/
def arrive (r : ClientChannel) (n sequence : ℕ) : ClientChannel where
  window := (r.window.markNew sequence).2
  arrived := n :: r.arrived
  fresh := if (r.window.markNew sequence).1 then n :: r.fresh else r.fresh

/-- The channel as a receive channel of a server peer with the same bitmap. -/
def view (r : ClientChannel) (c : Byte) : RecvChannel :=
  { RecvState.init.channel c with
    ack := r.window.ackState
    recorded := r.fresh }

end ClientChannel

def ClientReceiver.channel (s : ClientReceiver) (c : Byte) : ClientChannel :=
  ⟨s.reliable c, s.arrived c, s.fresh c⟩

variable {c : Byte} {cn : BitVec 2} {l : ClientLink}

/-- A packet changes its own channel. -/
theorem handleChanneledPacket_channel (s : ClientReceiver) (n : ℕ) (sequence : ℕ)
    (hc : mayFragment (DeliveryMethod.fromChannelId c) = true) (d : Byte) :
    (handleChanneledPacket s n c sequence).channel d =
      if d = c then (s.channel c).arrive n sequence else s.channel d := by
  rw [handleChanneledPacket, if_pos hc]
  by_cases hd : d = c
  · rw [if_pos hd, hd]
    unfold ClientReceiver.channel ClientChannel.arrive
    dsimp only
    rw [Function.update_self, Function.update_self, Function.update_self]
  · rw [if_neg hd]
    simp [ClientReceiver.channel, hd]

/-- The client reads back the channel and the number the sender wrote. -/
theorem receivePacket_built (s : ClientReceiver) (n : ℕ) (cn : BitVec 2) (c : Byte) (m : ℕ)
    (p : OutgoingReliable) :
    receivePacket s n (reliablePacketBytes cn c (sequenceOf c m) p) =
      handleChanneledPacket s n c (sequenceOf c m) := by
  obtain ⟨payload, fragment⟩ := p
  have hlen : ¬ ((reliablePacketBytes cn c (sequenceOf c m) ⟨payload, fragment⟩).length <
      litenetlibChanneledHeaderSize) := by
    rw [litenetlibChanneledHeaderSize]
    cases fragment with
    | none | some => simp [reliablePacketBytes]; omega
  have hhead : (reliablePacketBytes cn c (sequenceOf c m) ⟨payload, fragment⟩).head?.bind
      PacketProperty.fromByte = some .channeled := by
    cases fragment with
    | none => exact fromByte_header .channeled cn
    | some f => exact fromByte_fragmented cn
  rw [receivePacket, if_neg hlen, if_pos hhead, reliablePacketBytes_channel,
    reliablePacketBytes_sequence cn c (sequenceOf_lt c m)]

/-- The client's channel against the sender's. -/
structure ClientChannelSound (c : Byte) (v : SendChannel) (r : ClientChannel) : Prop where
  window : r.window.WindowSound r.fresh
  link : AckLink v (r.view c)
  once : r.fresh.Nodup
  arrived : ∀ n, n ∈ r.fresh ↔ n ∈ r.arrived
  started : r.fresh ≠ [] → r.window.started = true

namespace ClientChannelSound

variable {cn : BitVec 2} {c : Byte} {v v' : SendChannel} {r : ClientChannel} {n : ℕ}

theorem initial (c : Byte) (v : SendChannel) (hack : v.acknowledged = []) :
    ClientChannelSound c v .initial where
  window := .initial
  link := by
    refine ⟨ReceiveWindow.WindowSound.initial.ackSound, ?_, ?_, Nat.zero_le _⟩
    · intro n hn
      cases hn
    · intro n hn
      rw [hack] at hn
      cases hn
  once := List.nodup_nil
  arrived := fun _ => Iff.rfl
  started := fun h => absurd rfl h

section

variable (h : ClientChannelSound c v r)
include h

/-- **One arrival.**  The packet is recorded now or was before; if it is not below the oldest packet
in flight, its channel owes an acknowledgement. -/
theorem arrive (hv : ChannelSound cn c defaultWindowSize v) (hlt : n < v.sent.length)
    (hage : v.sent.length ≤ n + 16640) :
    ClientChannelSound c v (r.arrive n (n % maxSequence)) ∧
    (∀ m ∈ r.fresh, m ∈ (r.arrive n (n % maxSequence)).fresh) ∧
    n ∈ (r.arrive n (n % maxSequence)).fresh ∧
    r.window.base ≤ (r.arrive n (n % maxSequence)).window.base ∧
    (v.base ≤ n → (r.arrive n (n % maxSequence)).window.ackDirty = true) := by
  have hbehind : r.window.base ≤ v.base := h.link.behind
  have hbase := hv.base_le_sent
  have hsent : v.sent.length ≤ r.window.base + 256 := h.link.sent_le hv
  have hwin := hv.window
  rw [defaultWindowSize] at hwin
  rcases Nat.lt_or_ge n r.window.base with hold | hnear
  · -- below the window: released, so recorded long ago
    have hmem : n ∈ r.fresh := (h.link.released n
      (AckLink.acknowledged_of_lt hv (by omega))).1
    have hsame : r.arrive n (n % maxSequence) = { r with arrived := n :: r.arrived } := by
      rw [ClientChannel.arrive, h.window.markNew_old hold (by omega)]
      rfl
    rw [hsame]
    refine ⟨⟨h.window, h.link, h.once, ?_, h.started⟩, fun m hm => hm, hmem, le_rfl,
      fun hle => by omega⟩
    intro m
    show m ∈ r.fresh ↔ m ∈ n :: r.arrived
    rw [List.mem_cons, ← h.arrived m]
    constructor
    · exact .inr
    · intro hm
      rcases hm with heq | hm
      · rw [heq]
        exact hmem
      · exact hm
  · obtain ⟨hnew, hsound, hmoved, hstarted, hdirty⟩ := h.window.markNew_near hnear (by omega)
    have hfresh : (r.arrive n (n % maxSequence)).fresh =
        if n ∈ r.fresh then r.fresh else n :: r.fresh := by
      show (if (r.window.markNew (n % maxSequence)).1 = true then n :: r.fresh else r.fresh) = _
      by_cases hmem : n ∈ r.fresh
      · rw [if_pos hmem, if_neg fun htrue => hnew.mp htrue hmem]
      · rw [if_neg hmem, if_pos (hnew.mpr hmem)]
    have hiff : ∀ m, m ∈ (r.arrive n (n % maxSequence)).fresh ↔ m = n ∨ m ∈ r.fresh := by
      intro m
      rw [hfresh]
      split_ifs with hmem
      · exact ⟨.inr, fun hm => hm.elim (fun heq => heq ▸ hmem) id⟩
      · exact List.mem_cons
    rw [← hfresh] at hsound
    have hbase' : (r.arrive n (n % maxSequence)).window.base = max r.window.base (n - 127) := hmoved
    refine ⟨⟨hsound, ⟨hsound.ackSound, ?_, ?_, ?_⟩, ?_, ?_, fun _ => hstarted⟩,
      fun m hm => (hiff m).mpr (.inr hm), (hiff n).mpr (.inl rfl), by omega, fun _ => hdirty⟩
    · intro m hm
      rcases (hiff m).mp hm with heq | hm
      · rw [heq]
        exact hlt
      · exact h.link.sent m hm
    · intro m hm
      obtain ⟨hrec, hm'⟩ := h.link.released m hm
      refine ⟨(hiff m).mpr (.inr hrec), ?_⟩
      have hm'' : m < r.window.base + 128 := hm'
      show m < (r.arrive n (n % maxSequence)).window.base + 128
      omega
    · show (r.arrive n (n % maxSequence)).window.base ≤ v.base
      omega
    · rw [hfresh]
      split_ifs with hmem
      · exact h.once
      · exact List.nodup_cons.mpr ⟨hmem, h.once⟩
    · intro m
      rw [hiff, h.arrived]
      exact List.mem_cons.symm

/-- The sender may number more packets and release what was recorded. -/
theorem sender (hsent : v.sent.length ≤ v'.sent.length) (hbase : v.base ≤ v'.base)
    (hack : ∀ n ∈ v'.acknowledged, n ∈ v.acknowledged ∨
      (n ∈ r.fresh ∧ n < r.window.base + 128)) : ClientChannelSound c v' r :=
  { h with link := h.link.sender hsent hbase hack }

theorem unmark (dirty : Bool) :
    ClientChannelSound c v { r with window := { r.window with ackDirty := dirty } } where
  window := h.window.marked r.window.started dirty
  link := ⟨(h.window.marked r.window.started dirty).ackSound, h.link.sent, h.link.released,
    h.link.behind⟩
  __ := h

end

end ClientChannelSound

/-! ### The whole link -/

/-- The acknowledgement as a datagram. -/
def RenderedAck.sentAt (q : RenderedAck) (bornAt : ℕ) : AckDatagram :=
  ⟨q.channel, q.bytes, q.base, bornAt⟩

/-- A rendered acknowledgement that is about to be sent is the newest of its channel, and nothing
above its window has been released. -/
structure RenderedSound (cn : BitVec 2) (l : ClientLink) (q : RenderedAck) : Prop where
  sound : AckDatagramSound cn ((l.client.channel q.channel).view q.channel) (q.sentAt 0)
  covers : ∀ n ∈ l.sender.acknowledged q.channel, n < q.base + 128
  newest : ∀ a ∈ l.acks, a.channel = q.channel → a.base ≤ q.base
  same : ∀ q' ∈ l.sending, q'.channel = q.channel → q'.base ≤ q.base

/-- The invariant of the link between the client and the server's sender. -/
structure ClientSound (cn : BitVec 2) (l : ClientLink) : Prop where
  sender : SendSound cn windowWidth l.sender
  data : ∀ d ∈ l.data, DataSound cn (l.sender.sent d.channel) d
  acks : ∀ a ∈ l.acks, AckDatagramSound cn ((l.client.channel a.channel).view a.channel) a
  sending : ∀ q ∈ l.sending, RenderedSound cn l q
  channels : ∀ c, isSequencedId c = false →
    ClientChannelSound c (l.sender.channel c) (l.client.channel c)
  /-- The other channels are never acknowledged by a bitmap. -/
  quiet : ∀ c, mayFragment (DeliveryMethod.fromChannelId c) = false →
    (l.client.reliable c).ackDirty = false

/-- A snapshot of a window stays one while the window grows. -/
theorem AckDatagramSound.grow {r r' : RecvChannel} {a : AckDatagram} (h : AckDatagramSound cn r a)
    (hrec : ∀ n ∈ r.recorded, n ∈ r'.recorded) (hbase : r.ack.base ≤ r'.ack.base) :
    AckDatagramSound cn r' a := by
  obtain ⟨hseq, ⟨bits, hbits, hbytes, hshown⟩, hle, hborn⟩ := h
  exact ⟨hseq, ⟨bits, hbits, hbytes, hshown.mono hrec⟩, hle.trans hbase, hborn⟩

namespace ClientSound

variable {cn : BitVec 2} {l l' : ClientLink} {c : Byte}

theorem channelSound (h : ClientSound cn l) (hc : isSequencedId c = false) :
    ChannelSound cn c defaultWindowSize (l.sender.channel c) := by
  have := h.sender.channels c
  rwa [windowWidth_of hc] at this

theorem init (cn : BitVec 2) : ClientSound cn (.init cn) where
  sender := .init cn windowWidth
  data := by simp [ClientLink.init]
  acks := by simp [ClientLink.init]
  sending := by simp [ClientLink.init]
  channels := fun c _ => .initial c _ rfl
  quiet := fun _ _ => rfl

section

variable (h : ClientSound cn l)
include h

/-- A step of the sender that releases only what a datagram in the network shows. -/
theorem send {s : SendState} {a : SendAction} (hstep : sendStep l.sender a = some s)
    (hack : ∀ c, ∀ n ∈ s.acknowledged c, n ∈ l.sender.acknowledged c ∨
      ∃ d ∈ l.acks, d.channel = c ∧ n ∈ l.client.fresh c ∧ n < d.base + 128) :
    ClientSound cn { l with sender := s } := by
  have hmono := h.sender.sendStep_mono hstep
  refine ⟨h.sender.step (fun order _ hidle => h.sender.moveCount_le hidle order) hstep, ?_, h.acks,
    ?_, ?_, h.quiet⟩
  · intro d hd
    obtain ⟨⟨p, hp, hbytes⟩, hborn⟩ := h.data d hd
    exact ⟨⟨p, getElem?_extends (hmono d.channel).1 hp, hbytes⟩, hborn⟩
  · intro q hq
    have hq' := h.sending q hq
    refine ⟨hq'.sound, ?_, hq'.newest, hq'.same⟩
    intro n hn
    rcases hack q.channel n hn with hold | ⟨d, hd, hch, -, hlt⟩
    · exact hq'.covers n hold
    · have hle := hq'.newest d hd hch
      omega
  · intro c hc
    refine (h.channels c hc).sender ?_ (hmono c).2.2 ?_
    · exact (hmono c).1.length_le
    intro n hn
    rcases hack c n hn with hold | ⟨d, hd, hch, hrec, hlt⟩
    · exact .inl hold
    · have hbase := (h.acks d hd).base_le
      rw [hch] at hbase
      have hle : d.base ≤ (l.client.channel c).window.base := hbase
      exact .inr ⟨hrec, by omega⟩

theorem transmit {item : PendingReliable} (hitem : item ∈ l.sender.pending c) :
    ClientSound cn { l with
      data := l.data ++ [⟨c, item.bytes, item.index, (l.sender.sent c).length⟩] } := by
  refine ⟨h.sender, ?_, h.acks, ?_, h.channels, h.quiet⟩
  · intro d hd
    rcases List.mem_append.mp hd with hd | hd
    · exact h.data d hd
    · rw [List.mem_singleton.mp hd]
      exact h.sender.dataSound hitem
  · intro q hq
    obtain ⟨h₁, h₂, h₃, h₄⟩ := h.sending q hq
    exact ⟨h₁, h₂, h₃, h₄⟩

/-- The receive windows change: one channel takes an arrival, or nothing happens. -/
theorem receive {s : ClientReceiver} (hch : ∀ c, isSequencedId c = false →
      ClientChannelSound c (l.sender.channel c) (s.channel c))
    (hgrow : ∀ c, (∀ n ∈ (l.client.channel c).fresh, n ∈ (s.channel c).fresh) ∧
      (l.client.channel c).window.base ≤ (s.channel c).window.base)
    (hquiet : ∀ c, mayFragment (DeliveryMethod.fromChannelId c) = false →
      (s.reliable c).ackDirty = false) : ClientSound cn { l with client := s } := by
  refine ⟨h.sender, h.data, ?_, ?_, hch, hquiet⟩
  · intro a ha
    exact (h.acks a ha).grow (hgrow a.channel).1 (hgrow a.channel).2
  · intro q hq
    obtain ⟨h₁, h₂, h₃, h₄⟩ := h.sending q hq
    exact ⟨h₁.grow (hgrow q.channel).1 (hgrow q.channel).2, h₂, h₃, h₄⟩

/-- **The arrival of a datagram** that is not too old. -/
theorem deliver (d : DataDatagram) (hd : DataSound cn (l.sender.sent d.channel) d)
    (halive : l.alive d.channel d.bornAt = true) :
    ClientSound cn { l with client := receivePacket l.client d.index d.bytes } := by
  obtain ⟨⟨p, hp, hbytes⟩, hborn⟩ := hd
  have hage : (l.sender.sent d.channel).length < d.bornAt + 16384 := of_decide_eq_true halive
  rw [hbytes, receivePacket_built]
  cases hc : mayFragment (DeliveryMethod.fromChannelId d.channel) with
  | false =>
    rw [handleChanneledPacket, hc]
    exact h
  | true =>
    have hseq := not_sequenced_of_mayFragment hc
    have hlt : d.index < (l.sender.channel d.channel).sent.length :=
      (List.getElem?_eq_some_iff.mp hp).1
    obtain ⟨hsound, hgrow, -, hbase, -⟩ := (h.channels d.channel hseq).arrive
      (h.channelSound hseq) hlt (by show (l.sender.sent d.channel).length ≤ _; omega)
    rw [sequenceOf_of hseq]
    apply h.receive
    · intro c hc'
      rw [handleChanneledPacket_channel _ _ _ hc]
      split_ifs with hcd
      · rw [hcd]
        exact hsound
      · exact h.channels c hc'
    · intro c
      rw [handleChanneledPacket_channel _ _ _ hc]
      split_ifs with hcd
      · rw [hcd]
        exact ⟨hgrow, hbase⟩
      · exact ⟨fun n hn => hn, le_rfl⟩
    · intro c hc'
      have hcd : c ≠ d.channel := by
        intro heq
        rw [heq, hc] at hc'
        cases hc'
      rw [handleChanneledPacket, if_pos hc]
      show (Function.update l.client.reliable d.channel _ c).ackDirty = false
      rw [Function.update_of_ne hcd]
      exact h.quiet c hc'

end

theorem mem_channelIds (c : Byte) : c ∈ channelIds := by
  apply List.mem_map.mpr
  refine ⟨c.toNat, List.mem_range.mpr c.isLt, ?_⟩
  simp

/-- **What a flush renders**: the windows of the marked channels. -/
theorem mem_flushAcks {q : RenderedAck} :
    q ∈ (Transport.flushAcks l).sending ↔ (l.client.reliable q.channel).ackDirty = true ∧
      (l.client.reliable q.channel).started = true ∧
      q.bytes = buildAckPacket l.sender.connectionNumber q.channel
        (l.client.reliable q.channel).windowStart
        (ReceiveWindow.renderBits (l.client.reliable q.channel).received defaultWindowSize) ∧
      q.base = (l.client.reliable q.channel).base := by
  have hrender : ∀ c, renderAck l.sender.connectionNumber
      (fun c => { l.client.reliable c with ackDirty := false }) c = some q ↔
      c = q.channel ∧ (l.client.reliable c).started = true ∧
      q.bytes = buildAckPacket l.sender.connectionNumber c (l.client.reliable c).windowStart
        (ReceiveWindow.renderBits (l.client.reliable c).received defaultWindowSize) ∧
      q.base = (l.client.reliable c).base := by
    intro c
    obtain ⟨channel, bytes, base⟩ := q
    rw [renderAck, ReceiveWindow.ackWindow]
    by_cases hstarted : (l.client.reliable c).started = true
    · simp only [hstarted, if_true, Option.map_some, Option.some.injEq, RenderedAck.mk.injEq,
        true_and]
      exact ⟨fun ⟨h₁, h₂, h₃⟩ => ⟨h₁, h₂.symm, h₃.symm⟩, fun ⟨h₁, h₂, h₃⟩ => ⟨h₁, h₂.symm, h₃.symm⟩⟩
    · simp [hstarted]
  show q ∈ (channelIds.filter fun c => (l.client.reliable c).ackDirty).filterMap _ ↔ _
  rw [List.mem_filterMap]
  constructor
  · rintro ⟨c, hc, hq⟩
    obtain ⟨hcq, h₁, h₂, h₃⟩ := (hrender c).mp hq
    rw [hcq] at hc h₁ h₂ h₃
    exact ⟨(List.mem_filter.mp hc).2, h₁, h₂, h₃⟩
  · rintro ⟨hdirty, h₁, h₂, h₃⟩
    exact ⟨q.channel, List.mem_filter.mpr ⟨mem_channelIds _, hdirty⟩,
      (hrender _).mpr ⟨rfl, h₁, h₂, h₃⟩⟩

theorem flushAcks (h : ClientSound cn l) : ClientSound cn (Transport.flushAcks l) := by
  refine ⟨h.sender, h.data, fun a ha => (h.acks a ha).grow (fun _ hn => hn) le_rfl, ?_, ?_,
    fun _ _ => rfl⟩
  · intro q hq
    obtain ⟨hdirty, -, hbytes, hbase⟩ := mem_flushAcks.mp hq
    have hc : mayFragment (DeliveryMethod.fromChannelId q.channel) = true := by
      by_contra hno
      rw [h.quiet q.channel (Bool.not_eq_true _ ▸ hno)] at hdirty
      cases hdirty
    have hseq := not_sequenced_of_mayFragment hc
    have hch := h.channels q.channel hseq
    have hack := hch.window.ackSound
    refine ⟨⟨hseq, ⟨_, hack.size, ?_, ?_⟩, hbase.le, Nat.zero_le _⟩, ?_, ?_, ?_⟩
    · have hstart : (l.client.reliable q.channel).windowStart =
          (l.client.reliable q.channel).base % maxSequence := hch.window.start
      show q.bytes = buildAckPacket cn q.channel (q.base % maxSequence) _
      rw [hbytes, h.sender.number, hbase, hstart]
      rfl
    · show ShowsOnly _ _ q.base _
      rw [hbase]
      exact hack.shown
    · intro n hn
      rw [hbase]
      exact (hch.link.released n hn).2
    · intro a ha hach
      have hle := (h.acks a ha).base_le
      rw [hach] at hle
      rw [hbase]
      exact hle
    · intro q' hq' hqq
      obtain ⟨-, -, -, hbase'⟩ := mem_flushAcks.mp hq'
      rw [hbase, hbase', hqq]
  · intro c hc
    exact (h.channels c hc).unmark false

/-- The oldest rendered acknowledgement goes out. -/
theorem sendAck (h : ClientSound cn l) {q : RenderedAck} {rest : List RenderedAck}
    (hq : l.sending = q :: rest) : ClientSound cn { l with
      sending := rest
      acks := l.acks ++ [q.sentAt (l.sender.sent q.channel).length] } := by
  have hsound := h.sending q (hq ▸ .head _)
  have hseq : isSequencedId q.channel = false := hsound.sound.channel
  have hv := h.channelSound hseq
  refine ⟨h.sender, h.data, ?_, ?_, h.channels, h.quiet⟩
  · intro a ha
    rcases List.mem_append.mp ha with ha | ha
    · exact h.acks a ha
    · rw [List.mem_singleton.mp ha]
      refine ⟨hseq, hsound.sound.window, hsound.sound.base_le, ?_⟩
      -- what is released is at most a window above the rendered base
      have hfront : (l.sender.channel q.channel).base ≤ q.base + 128 := by
        rcases Nat.eq_zero_or_pos (l.sender.channel q.channel).base with h0 | hpos
        · omega
        · have hlast := hsound.covers _ (AckLink.acknowledged_of_lt hv
            (n := (l.sender.channel q.channel).base - 1) (by omega))
          omega
      have hwin := hv.window
      rw [defaultWindowSize] at hwin
      show (l.sender.channel q.channel).sent.length ≤ q.base + 256
      omega
  · intro q' hq'
    obtain ⟨h₁, h₂, h₃, h₄⟩ := h.sending q' (hq ▸ List.mem_cons_of_mem q hq')
    refine ⟨h₁, h₂, ?_, ?_⟩
    · intro a ha hch
      rcases List.mem_append.mp ha with ha | ha
      · exact h₃ a ha hch
      · rw [List.mem_singleton.mp ha] at hch ⊢
        exact h₄ q (hq ▸ .head _) hch
    · intro q'' hq'' hch
      exact h₄ q'' (hq ▸ List.mem_cons_of_mem q hq'') hch

/-- A failed send drops what is left of the flush. -/
theorem sendFailed (h : ClientSound cn l) : ClientSound cn { l with sending := [] } :=
  ⟨h.sender, h.data, h.acks, nofun, h.channels, h.quiet⟩

/-- **Every step of the link keeps the invariant.** -/
theorem step {a : ClientAction} (h : ClientSound cn l) (hstep : clientStep l a = some l') :
    ClientSound cn l' := by
  cases a with simp only [clientStep] at hstep
  | send a =>
    simp only [Option.ite_none_right_eq_some, Option.map_eq_some_iff] at hstep
    obtain ⟨hlocal, s, hs, rfl⟩ := hstep
    apply h.send hs
    intro c n hn
    rw [sendStep_acknowledged h.sender.counted hlocal hs] at hn
    exact .inl hn
  | transmit c i =>
    split at hstep
    · cases hstep
    · rename_i item hitem
      cases hstep
      exact h.transmit (List.mem_of_getElem? hitem)
  | deliver i =>
    split at hstep
    · cases hstep
    · rename_i d hd
      simp only [Option.ite_none_right_eq_some, Option.some.injEq] at hstep
      obtain ⟨halive, rfl⟩ := hstep
      exact h.deliver d (h.data d (List.mem_of_getElem? hd)) halive
  | flushAcks =>
    simp only [Option.ite_none_right_eq_some, Option.some.injEq] at hstep
    obtain ⟨-, rfl⟩ := hstep
    exact h.flushAcks
  | sendAck =>
    split at hstep
    · cases hstep
    · rename_i q rest hq
      cases hstep
      exact h.sendAck hq
  | sendFailed =>
    cases hstep
    exact h.sendFailed
  | deliverAck i =>
    split at hstep
    · cases hstep
    · rename_i a ha
      simp only [Option.ite_none_right_eq_some, Option.some.injEq] at hstep
      obtain ⟨halive, rfl⟩ := hstep
      have hmem := List.mem_of_getElem? ha
      have hsound := h.acks a hmem
      have hlink := (h.channels a.channel hsound.channel).link
      apply h.send (a := .ack a.bytes) rfl
      intro c n hn
      refine (hsound.released h.sender hlink (of_decide_eq_true halive) hn).imp_right fun hrel => ?_
      obtain ⟨hch, hrec, hlt⟩ := hrel
      rw [hch]
      exact ⟨a, hmem, rfl, hrec, hlt⟩

end ClientSound

/-- **The invariant holds in every reachable state of the link.** -/
theorem clientSound_of_reachable {ok : ClientLink → ClientAction → Prop}
    (h : Reachable (clientSystem cn) ok l) : ClientSound cn l := by
  refine h.invariant (ClientSound cn) ?_ ?_
  · intro l hl
    rw [show l = .init cn from hl]
    exact .init cn
  · intro l a l' hl _ hstep
    exact hl.step hstep

/-! ### What the acknowledgements promise -/

/-- The acknowledgement shows no sequence number but those of the packets of `R`. -/
def MarksOnly (cn : BitVec 2) (c : Byte) (ack : Bytes) (R : List ℕ) : Prop :=
  ∃ windowStart bits, ack = buildAckPacket cn c windowStart bits ∧
    ∀ sequence < maxSequence, 0 ≤ relativeSequence sequence windowStart →
      relativeSequence sequence windowStart < defaultWindowSize →
      bitAt bits (sequence % defaultWindowSize) = true → ∃ n ∈ R, n % maxSequence = sequence

/-- A send side whose oldest packet in flight is `front` accepts the acknowledgement and releases
`front`. -/
def ReleasesFront (c : Byte) (ack : Bytes) (front : PendingReliable) : Prop :=
  ∀ (s : SendState) (rest : List PendingReliable), s.pending c = front :: rest →
    front ∉ (processAck s ack).pending c ∧ front.index ∈ (processAck s ack).acknowledged c

theorem AckDatagramSound.marksOnly {r : RecvChannel} {a : AckDatagram}
    (h : AckDatagramSound cn r a) :
    MarksOnly cn a.channel a.bytes r.recorded := by
  obtain ⟨-, ⟨bits, -, hbytes, hshown⟩, -, -⟩ := h
  refine ⟨a.base % maxSequence, bits, hbytes, ?_⟩
  intro sequence hlt hlo hhi hbit
  have hW : defaultWindowSize = 128 := rfl
  -- the packet of the window that has this number
  have hmod : (a.base + (relativeSequence sequence (a.base % maxSequence)).toNat) % maxSequence =
      sequence := by
    simp only [relativeSequence, maxSequence] at hlo hhi hlt ⊢
    split_ifs at hlo hhi ⊢ <;> omega
  have hres : (a.base + (relativeSequence sequence (a.base % maxSequence)).toNat) %
      defaultWindowSize = sequence % defaultWindowSize := by
    have hdvd : defaultWindowSize ∣ maxSequence := by decide
    rw [← Nat.mod_mod_of_dvd _ hdvd, hmod]
  refine ⟨_, ?_, hmod⟩
  apply hshown _ (Nat.le_add_right _ _) (by omega)
  rw [hres]
  exact hbit

namespace ClientSound

variable {cn : BitVec 2} {l l' : ClientLink} {c : Byte}

/-- A recorded packet that is still in flight is shown by the window. -/
theorem flush_releases (h : ClientSound cn l)
    (hc : mayFragment (DeliveryMethod.fromChannelId c) = true) {item : PendingReliable}
    (hitem : item ∈ l.sender.pending c) (hrec : item.index ∈ l.client.fresh c)
    (hdirty : (l.client.reliable c).ackDirty = true) :
    ∃ q ∈ (Transport.flushAcks l).sending, q.channel = c ∧ ReleasesFront c q.bytes item := by
  have hseq := not_sequenced_of_mayFragment hc
  have hv := h.channelSound hseq
  have hch := h.channels c hseq
  have hstarted : (l.client.reliable c).started = true := hch.started (List.ne_nil_of_mem hrec)
  refine ⟨⟨c, buildAckPacket l.sender.connectionNumber c (l.client.reliable c).windowStart
    (ReceiveWindow.renderBits (l.client.reliable c).received defaultWindowSize),
    (l.client.reliable c).base⟩, mem_flushAcks.mpr ⟨hdirty, hstarted, rfl, rfl⟩, rfl, ?_⟩
  intro s rest hfront
  have hlo : (l.client.reliable c).base ≤ item.index :=
    le_trans hch.link.behind (hv.base_le_index hitem)
  have hhi : item.index < (l.client.reliable c).base + 128 := hch.window.below _ hrec
  have hnumber : item.sequence = item.index % maxSequence := by
    rw [hv.sequence_eq hitem, sequenceOf_of hseq]
  have hbit : bitAt (ReceiveWindow.renderBits (l.client.reliable c).received defaultWindowSize)
      (item.index % 128) = true := by
    rw [ReceiveWindow.bitAt_renderBits _ (by decide), Bool.and_eq_true]
    exact ⟨decide_eq_true (Nat.mod_lt _ (by decide)), (hch.window.shown _ hlo hhi).mpr hrec⟩
  have hstart : (l.client.reliable c).windowStart =
      (l.client.reliable c).base % maxSequence := hch.window.start
  rw [hstart]
  exact processAck_releases_front _ hseq (ReceiveWindow.renderBits_length _ _) hfront hnumber hlo
    hhi hbit

/-- One more copy of a packet in flight is recorded, and marks its channel. -/
theorem copy_recorded (h : ClientSound cn l)
    (hc : mayFragment (DeliveryMethod.fromChannelId c) = true) {item : PendingReliable}
    (hitem : item ∈ l.sender.pending c) :
    let s := receivePacket l.client item.index item.bytes
    ClientSound cn { l with client := s } ∧ item.index ∈ s.fresh c ∧
      (s.reliable c).ackDirty = true ∧ s.ackPending = true := by
  have hseq := not_sequenced_of_mayFragment hc
  have hv := h.channelSound hseq
  obtain ⟨⟨p, hp, hbytes⟩, hborn⟩ := h.sender.dataSound hitem
  have hnear : (l.sender.sent c).length ≤ item.index + 129 := hborn
  have hbuilt : receivePacket l.client item.index item.bytes =
      handleChanneledPacket l.client item.index c (item.index % maxSequence) := by
    have hread := receivePacket_built l.client item.index cn c item.index p
    rw [sequenceOf_of hseq] at hread hbytes
    rw [← hread]
    exact congrArg _ hbytes
  have hlt := hv.index_lt hitem
  have hbase := hv.base_le_index hitem
  obtain ⟨-, -, hrec, -, hdirty⟩ := (h.channels c hseq).arrive (n := item.index) hv hlt
    (show (l.sender.sent c).length ≤ _ by omega)
  have hchannel : (receivePacket l.client item.index item.bytes).channel c =
      (l.client.channel c).arrive item.index (item.index % maxSequence) := by
    rw [hbuilt, handleChanneledPacket_channel _ _ _ hc, if_pos rfl]
  refine ⟨?_, ?_, ?_, ?_⟩
  · refine h.deliver ⟨c, item.bytes, item.index, _⟩ (h.sender.dataSound hitem) ?_
    show decide ((l.sender.sent c).length < (l.sender.sent c).length + 16384) = true
    simp
  · show item.index ∈ ((receivePacket l.client item.index item.bytes).channel c).fresh
    rw [hchannel]
    exact hrec
  · show ((receivePacket l.client item.index item.bytes).channel c).window.ackDirty = true
    rw [hchannel]
    exact hdirty hbase
  · rw [hbuilt, handleChanneledPacket, if_pos hc]

end ClientSound

/-- The runs that go on from a state of the link. -/
def clientSystemFrom (l : ClientLink) : System ClientLink ClientAction where
  init := fun l' => l' = l
  step := clientStep

/-- A recorded packet and the mark of its channel. -/
structure Owed (c : Byte) (n : ℕ) (l : ClientLink) : Prop where
  recorded : n ∈ l.client.fresh c
  dirty : (l.client.reliable c).ackDirty = true
  pending : l.client.ackPending = true

/-- Recording a packet never clears the mark. -/
theorem ReceiveWindow.markNew_dirty {w : ReceiveWindow} (h : w.ackDirty = true) (sequence : ℕ) :
    (w.markNew sequence).2.ackDirty = true := by
  have hslide : ∀ k (w : ReceiveWindow), (w.slide k).ackDirty = w.ackDirty := by
    intro k
    induction k with
    | zero => exact fun _ => rfl
    | succ k ih => exact fun w => ih w.slideOne
  have hbit : ∀ w : ReceiveWindow, (w.markBit sequence).2.ackDirty = w.ackDirty := by
    intro w
    rw [markBit]
    split_ifs <;> rfl
  simp only [markNew]
  split_ifs
  · exact h
  · exact h
  · exact h
  · rw [hbit, hslide]
  · rw [hbit]

theorem Owed.handle {n : ℕ} (h : Owed c n l) (m : ℕ) (d : Byte) (sequence : ℕ) :
    Owed c n { l with client := handleChanneledPacket l.client m d sequence } := by
  rw [handleChanneledPacket]
  split_ifs with hd
  · refine ⟨?_, ?_, rfl⟩
    · show n ∈ Function.update l.client.fresh d _ c
      by_cases hcd : c = d
      · rw [← hcd, Function.update_self]
        split_ifs
        · exact .tail _ h.recorded
        · exact h.recorded
      · rw [Function.update_of_ne hcd]
        exact h.recorded
    · show (Function.update l.client.reliable d _ c).ackDirty = true
      by_cases hcd : c = d
      · rw [← hcd, Function.update_self]
        exact ReceiveWindow.markNew_dirty h.dirty sequence
      · rw [Function.update_of_ne hcd]
        exact h.dirty
  · exact h

/-- Only a flush clears the mark of a channel. -/
theorem Owed.step {n : ℕ} {l' : ClientLink} {a : ClientAction} (h : Owed c n l)
    (ha : a ≠ .flushAcks) (hstep : clientStep l a = some l') : Owed c n l' := by
  obtain ⟨h₁, h₂, h₃⟩ := h
  cases a with simp only [clientStep] at hstep
  | send a =>
    simp only [Option.ite_none_right_eq_some, Option.map_eq_some_iff] at hstep
    obtain ⟨-, s, -, rfl⟩ := hstep
    exact ⟨h₁, h₂, h₃⟩
  | transmit | sendAck =>
    split at hstep <;> cases hstep
    exact ⟨h₁, h₂, h₃⟩
  | deliver i =>
    split at hstep
    · cases hstep
    · rename_i d hd
      simp only [Option.ite_none_right_eq_some, Option.some.injEq] at hstep
      obtain ⟨-, rfl⟩ := hstep
      rw [receivePacket]
      split_ifs
      · exact ⟨h₁, h₂, h₃⟩
      · exact Owed.handle ⟨h₁, h₂, h₃⟩ _ _ _
      · exact ⟨h₁, h₂, h₃⟩
  | flushAcks => exact absurd rfl ha
  | sendFailed =>
    cases hstep
    exact ⟨h₁, h₂, h₃⟩
  | deliverAck i =>
    split at hstep
    · cases hstep
    · simp only [Option.ite_none_right_eq_some, Option.some.injEq] at hstep
      obtain ⟨-, rfl⟩ := hstep
      exact ⟨h₁, h₂, h₃⟩

/-- **The client's window keeps up.** In every reachable state, on every ordered and unordered
channel: `mark_new` answered "new" exactly once for each packet that has arrived; an
acknowledgement, rendered or sent, marks only recorded packets; the oldest packet in flight is not
below the window; and once one more copy of it has arrived, an acknowledgement is owed until the
next flush, which then renders one that releases it. -/
theorem client_window_keeps_up {cn : BitVec 2} {ok : ClientLink → ClientAction → Prop}
    {l : ClientLink} {c : Byte} (h : Reachable (clientSystem cn) ok l)
    (hc : mayFragment (DeliveryMethod.fromChannelId c) = true) :
    ((l.client.fresh c).Nodup ∧ ∀ n, n ∈ l.client.fresh c ↔ n ∈ l.client.arrived c) ∧
    (∀ q ∈ l.sending, q.channel = c → MarksOnly cn c q.bytes (l.client.fresh c)) ∧
    (∀ a ∈ l.acks, a.channel = c → MarksOnly cn c a.bytes (l.client.fresh c)) ∧
    ∀ front rest, l.sender.pending c = front :: rest →
      (l.client.reliable c).base ≤ front.index ∧
      0 ≤ relativeSequence front.sequence (l.client.reliable c).windowStart ∧
      ∀ l', Reachable
          (clientSystemFrom { l with client := receivePacket l.client front.index front.bytes })
          (fun _ a => a ≠ .flushAcks) l' →
        l'.client.ackPending = true ∧
        (front ∈ l'.sender.pending c →
          ∃ q ∈ (flushAcks l').sending, q.channel = c ∧ ReleasesFront c q.bytes front) := by
  have hl := clientSound_of_reachable h
  have hseq := not_sequenced_of_mayFragment hc
  have hv := hl.channelSound hseq
  have hch := hl.channels c hseq
  refine ⟨⟨hch.once, hch.arrived⟩, ?_, ?_, ?_⟩
  · intro q hq hqc
    have hmarks := (hl.sending q hq).sound.marksOnly
    rw [← hqc]
    exact hmarks
  · intro a ha hac
    have hmarks := (hl.acks a ha).marksOnly
    rw [← hac]
    exact hmarks
  · intro front rest hfront
    have hmem : front ∈ l.sender.pending c := hfront ▸ List.mem_cons_self
    have hlo : (l.client.reliable c).base ≤ front.index :=
      le_trans hch.link.behind (hv.base_le_index hmem)
    have hhi := hv.index_lt hmem
    have hsent : (l.sender.channel c).sent.length ≤ (l.client.reliable c).base + 256 :=
      hch.link.sent_le hv
    refine ⟨hlo, ?_, ?_⟩
    · have hstart : (l.client.reliable c).windowStart =
          (l.client.reliable c).base % maxSequence := hch.window.start
      rw [hstart, hv.sequence_eq hmem, sequenceOf_of hseq,
        relativeSequence_unwrap _ _ (by omega) (by omega)]
      omega
    · intro l' hl'
      obtain ⟨hsound, hrec, hdirty, hpending⟩ := hl.copy_recorded hc hmem
      have hrun : ClientSound cn l' ∧ Owed c front.index l' := by
        apply hl'.invariant fun l' => ClientSound cn l' ∧ Owed c front.index l'
        · intro l₁ heq
          rw [show l₁ = _ from heq]
          exact ⟨hsound, hrec, hdirty, hpending⟩
        · intro l₁ a l₂ hinv ha hstep
          exact ⟨hinv.1.step hstep, hinv.2.step ha hstep⟩
      obtain ⟨hsound', howed⟩ := hrun
      exact ⟨howed.pending, fun hitem =>
        hsound'.flush_releases hc hitem howed.recorded howed.dirty⟩

/-- Three payloads on channel id 2.  The last one reaches the client twice and the middle one once,
and this is acknowledged; the first one is still missing. -/
def clientExchange : List ClientAction :=
  [.send (.enqueue [(0, .reliableOrdered, [7#8]), (0, .reliableOrdered, [8#8]),
      (0, .reliableOrdered, [9#8])]), .send (.move [2]), .send .releaseBytes,
    .send .releasePackets, .send .build, .send .build, .send .build, .transmit 2 2, .transmit 2 1,
    .deliver 0, .deliver 1, .deliver 0, .flushAcks, .sendAck]

/-- One more copy of the oldest packet, and the next flush renders what releases it. -/
theorem client_window_keeps_up_gap : ∃ l front, Reachable (clientSystem 0) (fun _ _ => True) l ∧
    (l.sender.pending 2).length = 3 ∧ front ∈ l.sender.pending 2 ∧ l.client.fresh 2 = [1, 2] ∧
    ∃ q ∈ (flushAcks { l with client := receivePacket l.client 0 front.bytes }).sending,
      q.channel = 2 ∧ ReleasesFront 2 q.bytes front := by
  have hrun : ((runActions (clientSystem 0) (.init 0) clientExchange).any fun l =>
      decide (l.sender.pending 2 =
        [⟨0, [1, 0, 0, 2, 7], 0⟩, ⟨1, [1, 1, 0, 2, 8], 1⟩, ⟨2, [1, 2, 0, 2, 9], 2⟩]) &&
        decide (l.client.fresh 2 = [1, 2])) = true := by
    decide +kernel
  obtain ⟨l, hreach, hl⟩ := exists_reachable_of_free_run (.init rfl) hrun
  simp only [Bool.and_eq_true, decide_eq_true_eq] at hl
  obtain ⟨hpending, hfresh⟩ := hl
  obtain ⟨-, -, -, hfront⟩ := client_window_keeps_up hreach (c := 2) (by decide)
  obtain ⟨-, -, hlater⟩ := hfront _ _ hpending
  obtain ⟨-, hflush⟩ := hlater _ (.init rfl)
  have hmem : ⟨0, [1, 0, 0, 2, 7], 0⟩ ∈ l.sender.pending 2 := by
    rw [hpending]
    exact .head _
  exact ⟨l, _, hreach, by rw [hpending]; rfl, hmem, hfresh, hflush hmem⟩

end BasisRust.Transport
