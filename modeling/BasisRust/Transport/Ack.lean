import BasisRust.Library.Window
import BasisRust.Transport.SendInvariant

/-!
# Acknowledgement windows

The receive side of a channel answers with a bitmap over a window of 128 sequence numbers.  The bits
are absolute, bit `sequence % 128`, and the window slides only as far as a newly received number
makes it.  `AckState.base` is history: how often the window has been slid, which is the unwrapped
value of `window_start`.

`AckSound R` says that the bitmap shows nothing but packets of `R`; `queueAck_spec` is what queueing
one more acknowledgement does, and `processAck_built` what the sender releases when it reads it.
-/

namespace BasisRust.Transport

open Library

/-! ### State -/

structure AckState where
  windowStart : ℕ
  bits : Bytes
  dirty : Bool
  base : ℕ
  deriving DecidableEq

def ackBytes : ℕ := (defaultWindowSize - 1) / 8 + 2

def AckState.initial : AckState := ⟨0, List.replicate ackBytes 0#8, false, 0⟩

/-- One round of the slide loop. -/
def AckState.slideOne (ack : AckState) : AckState :=
  { ack with
    bits := clearBitAt ack.bits (ack.windowStart % defaultWindowSize)
    windowStart := (ack.windowStart + 1) % maxSequence
    base := ack.base + 1 }

/-- Slide the window by `shift` numbers. -/
def AckState.slide : ℕ → AckState → AckState
  | 0, ack => ack
  | shift + 1, ack => AckState.slide shift ack.slideOne

/-- Acknowledge one sequence number. -/
def queueAck (ack : AckState) (sequence : ℕ) : AckState :=
  if sequence ≥ maxSequence then ack
  else
    let rel := relativeSequence sequence ack.windowStart
    if rel < 0 then ack
    else
      let ack := if rel ≥ defaultWindowSize then ack.slide (rel.toNat - defaultWindowSize + 1)
        else ack
      { ack with bits := setBitAt ack.bits (sequence % defaultWindowSize), dirty := true }

def buildAckPacket (connectionNumber : BitVec 2) (channelId : Byte) (windowStart : ℕ)
    (bits : Bytes) : Bytes :=
  PacketProperty.ack.header connectionNumber :: leBytes 2 windowStart ++ channelId :: bits

/-! ### What the bitmap shows -/

/-- The window is where its history says, and shows only packets of `R`. -/
structure AckSound (R : ℕ → Prop) (a : AckState) : Prop where
  start : a.windowStart = a.base % maxSequence
  size : a.bits.length = ackBytes
  shown : ShowsOnly defaultWindowSize (bitAt a.bits) a.base R

namespace AckSound

variable {R R' : ℕ → Prop} {a : AckState} {n : ℕ}

theorem initial (R : ℕ → Prop) : AckSound R .initial := by
  refine ⟨rfl, by simp [AckState.initial], ?_⟩
  intro n _ _ hbit
  rw [AckState.initial, bitAt_replicate_zero] at hbit
  cases hbit

section

variable (h : AckSound R a)
include h

theorem mono (hR : ∀ n, R n → R' n) : AckSound R' a :=
  ⟨h.start, h.size, h.shown.mono hR⟩

theorem slideOne : AckSound R a.slideOne where
  start := by
    rw [AckState.slideOne, h.start, Nat.mod_add_mod]
  size := by
    rw [AckState.slideOne, clearBitAt_length]
    exact h.size
  shown := by
    refine h.shown.slide_one ?_
    intro r
    rw [AckState.slideOne, bitAt_clearBitAt (by decide), h.start, Bool.and_comm, maxSequence,
      defaultWindowSize, Nat.mod_mod_of_dvd _ (by decide)]
    by_cases hr : r = a.base % 128 <;> simp [hr]

theorem slide (k : ℕ) : AckSound R (a.slide k) ∧ (a.slide k).base = a.base + k := by
  induction k generalizing a with
  | zero => exact ⟨h, rfl⟩
  | succ k ih =>
    obtain ⟨hs, hb⟩ := ih h.slideOne
    refine ⟨hs, ?_⟩
    rw [AckState.slide, hb, AckState.slideOne]
    change a.base + 1 + k = a.base + (k + 1)
    omega

/-- Setting the bit of a packet of the window. -/
theorem mark (hn : R n) (hlo : a.base ≤ n) (hhi : n < a.base + 128) : AckSound R { a with
      bits := setBitAt a.bits (n % maxSequence % defaultWindowSize), dirty := true } ∧
    bitAt (setBitAt a.bits (n % maxSequence % defaultWindowSize)) (n % 128) = true := by
  have hmod : n % maxSequence % defaultWindowSize = n % 128 := by
    rw [maxSequence, defaultWindowSize, Nat.mod_mod_of_dvd _ (by decide)]
  have hbyte : n % 128 / 8 < a.bits.length := by
    have hsize : ackBytes = 17 := rfl
    rw [h.size, hsize]
    omega
  rw [hmod]
  refine ⟨⟨h.start, by rw [setBitAt_length]; exact h.size, ?_⟩, ?_⟩
  · refine h.shown.mark hlo hhi hn ?_
    intro r
    rw [bitAt_setBitAt (by decide) _ _ _ hbyte]
    rfl
  · rw [bitAt_setBitAt (by decide) _ _ _ hbyte]
    simp

/-- **Queueing an acknowledgement** for packet `n`: the window slides just far enough, and unless
the packet is older than the window its bit is set. -/
theorem queueAck_spec (hn : R n) (h₁ : n < a.base + 16384) (h₂ : a.base < n + 16384) :
    AckSound R (queueAck a (n % maxSequence)) ∧
    (queueAck a (n % maxSequence)).base = max a.base (n - 127) ∧
    (a.base ≤ n → bitAt (queueAck a (n % maxSequence)).bits (n % 128) = true ∧
      (queueAck a (n % maxSequence)).dirty = true) := by
  have hlt : ¬ (n % maxSequence ≥ maxSequence) := by
    rw [maxSequence]
    omega
  simp only [queueAck, if_neg hlt, h.start, relativeSequence_unwrap n a.base h₁ h₂]
  by_cases hneg : (n : ℤ) - a.base < 0
  · simp only [if_pos hneg]
    exact ⟨h, by omega, fun hle => by omega⟩
  have hW : defaultWindowSize = 128 := rfl
  simp only [if_neg hneg]
  by_cases hfar : (n : ℤ) - a.base ≥ defaultWindowSize
  · -- the packet is ahead of the window: it becomes its last number
    obtain ⟨hs, hb⟩ := h.slide (((n : ℤ) - a.base).toNat - defaultWindowSize + 1)
    obtain ⟨hm, hbit⟩ := hs.mark hn (by omega) (by omega)
    simp only [if_pos hfar]
    exact ⟨hm, by rw [hb]; omega, fun _ => ⟨hbit, trivial⟩⟩
  · obtain ⟨hm, hbit⟩ := h.mark hn (by omega) (by omega)
    simp only [if_neg hfar]
    exact ⟨hm, by omega, fun _ => ⟨hbit, trivial⟩⟩

end

end AckSound

/-! ### What an acknowledgement releases -/

variable {c : Byte} {bits : Bytes} {rest : List PendingReliable}

/-- The acknowledgement of a window, read back by the sender. -/
theorem processAck_built (s : SendState) (cn : BitVec 2) (hc : isSequencedId c = false)
    {windowStart : ℕ} (hstart : windowStart < maxSequence) (hbits : bits.length = ackBytes) :
    processAck s (buildAckPacket cn c windowStart bits) =
      match s.pending c with
      | [] => s
      | front :: rest =>
        if relativeSequence front.sequence windowStart < 0 ∨
            relativeSequence front.sequence windowStart ≥ defaultWindowSize then s
        else releasePending s c ((front :: rest).filter (acknowledgedBy windowStart bits))
          ((front :: rest).filter fun item => !acknowledgedBy windowStart bits item) := by
  have hsplit : buildAckPacket cn c windowStart bits =
      [PacketProperty.ack.header cn, BitVec.ofNat 8 windowStart, BitVec.ofNat 8 (windowStart / 256),
        c] ++ bits := rfl
  have hsize : ackBytes = 17 := rfl
  have hlen : (buildAckPacket cn c windowStart bits).length = 21 := by
    rw [hsplit, List.length_append, hbits, hsize]
    rfl
  have hchan : (buildAckPacket cn c windowStart bits).getD 3 0 = c := rfl
  have hdrop : (buildAckPacket cn c windowStart bits).drop 4 = bits := rfl
  have hnum : leNat (slice (buildAckPacket cn c windowStart bits) 1 2) = windowStart := by
    have hslice : slice (buildAckPacket cn c windowStart bits) 1 2 = leBytes 2 windowStart := rfl
    rw [maxSequence] at hstart
    rw [hslice, leNat_leBytes_two _ (by omega)]
  have hack : ackSize c = 21 := by
    rw [ackSize, hc]
    rfl
  simp only [processAck, hchan, hlen, hack, hdrop, hnum, hc, Bool.false_eq_true, if_false,
    litenetlibChanneledHeaderSize, ne_eq, not_true_eq_false, ge_iff_le,
    if_neg (Nat.not_le.mpr hstart), show ¬ (21 < 4) from by decide]
  cases s.pending c <;> rfl

/-- **Release of the front.**  A window that covers the oldest packet in flight and shows its bit
passes the bounds check of the sender and releases it. -/
theorem processAck_releases_front {s : SendState} (cn : BitVec 2) (hc : isSequencedId c = false)
    {base : ℕ} (hbits : bits.length = ackBytes) {front : PendingReliable}
    (hfront : s.pending c = front :: rest) (hnumber : front.sequence = front.index % maxSequence)
    (hlo : base ≤ front.index) (hhi : front.index < base + 128)
    (hbit : bitAt bits (front.index % 128) = true) :
    front ∉ (processAck s (buildAckPacket cn c (base % maxSequence) bits)).pending c ∧
    front.index ∈
      (processAck s (buildAckPacket cn c (base % maxSequence) bits)).acknowledged c := by
  have hW : defaultWindowSize = 128 := rfl
  have hrel : relativeSequence front.sequence (base % maxSequence) = front.index - base := by
    rw [hnumber, relativeSequence_unwrap _ _ (by omega) (by omega)]
  have hack : acknowledgedBy (base % maxSequence) bits front = true := by
    rw [acknowledgedBy, hrel, Bool.and_eq_true, decide_eq_true_eq, hnumber, defaultWindowSize,
      maxSequence, Nat.mod_mod_of_dvd _ (by decide)]
    exact ⟨by omega, hbit⟩
  rw [processAck_built _ _ hc (Nat.mod_lt _ (by decide)) hbits, hfront]
  dsimp only
  rw [if_neg (by rw [hrel]; omega), releasePending]
  constructor
  · simp [hack]
  · simp [hack]

/-- **No false release.** A window whose bits show only packets of `R`, and that is not ahead of the
oldest packet in flight nor further behind it than half a lap and a bit, releases only packets of
`R`. -/
theorem acknowledgedBy_sound {R : ℕ → Prop} {cn : BitVec 2} {v : SendChannel}
    (hv : ChannelSound cn c defaultWindowSize v) (hc : isSequencedId c = false) {base : ℕ}
    (hshown : ShowsOnly defaultWindowSize (bitAt bits) base R) (hle : base ≤ v.base)
    (hnear : v.base < base + 32640) {front : PendingReliable} (hp : v.pending = front :: rest)
    (hfront : 0 ≤ relativeSequence front.sequence (base % maxSequence) ∧
      relativeSequence front.sequence (base % maxSequence) < defaultWindowSize)
    {item : PendingReliable} (hitem : item ∈ v.pending)
    (hack : acknowledgedBy (base % maxSequence) bits item = true) :
    R item.index ∧ item.index < base + 128 := by
  have hbase : v.base = front.index := by rw [SendChannel.base, hp]
  have hfmem : front ∈ v.pending := hp ▸ .head _
  have hseq : ∀ n, sequenceOf c n = n % maxSequence := by
    intro n
    rw [sequenceOf, hc]
    rfl
  rw [hv.sequence_eq hfmem, hseq, ← hbase] at hfront
  -- the front is less than a window above the base, and not a lap further
  have hclose : v.base < base + 128 := by
    have hrel := relativeSequence_window v.base base (by omega) (by omega) hfront.1 hfront.2
    have hW : defaultWindowSize = 128 := rfl
    omega
  have hlo := hv.base_le_index hitem
  have hhi := hv.index_lt hitem
  have hwin := hv.window
  rw [defaultWindowSize] at hwin
  rw [acknowledgedBy, hv.sequence_eq hitem, hseq, relativeSequence_unwrap _ _ (by omega) (by omega),
    Bool.and_eq_true, decide_eq_true_eq, defaultWindowSize, maxSequence,
    Nat.mod_mod_of_dvd _ (by decide)] at hack
  have hin : item.index < base + 128 := by
    have := hack.1
    omega
  exact ⟨hshown item.index (by omega) (by rw [defaultWindowSize]; exact hin) hack.2, hin⟩

end BasisRust.Transport
