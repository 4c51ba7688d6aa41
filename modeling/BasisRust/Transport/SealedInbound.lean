import BasisRust.Library.Bits
import BasisRust.Library.Window
import BasisRust.Transport.Packet

/-!
# The sealed inbound packet layer

Traffic from a client to the server can be sealed: the datagram is the header byte in clear, the
encrypted rest, a sixteen-byte tag and an eight-byte counter.  A peer accepted awaiting a seal goes
from `awaitingKey` to `active`, and `proven` is set by the first datagram that authenticates.

The cipher is a parameter (`Aead`); nothing is assumed about it here.
-/

namespace BasisRust.Transport

open Library

/-! ### The replay window -/

/-- Poly1305 tag and little-endian counter. -/
def overhead : ℕ := 24

def replayWindowSize : ℕ := 1024

structure ReplayWindow where
  highest : ℕ
  seen : List (BitVec 64)
  /-- The bitmap is an array of fixed size in the source. -/
  size : seen.length = replayWindowSize / 64

namespace ReplayWindow

def default : ReplayWindow where
  highest := 0
  seen := List.replicate (replayWindowSize / 64) 0#64
  size := by simp

def isSet (win : ReplayWindow) (counter : ℕ) : Bool := bitAt win.seen (counter % replayWindowSize)

def couldAccept (win : ReplayWindow) (counter : ℕ) : Bool :=
  decide (0 < counter) &&
    (decide (win.highest < counter) ||
      (decide (win.highest - counter < replayWindowSize) && !win.isSet counter))

/-- Clear the bits of the counters `start, …, start + count - 1`. -/
def clearRange (seen : List (BitVec 64)) : ℕ → ℕ → List (BitVec 64)
  | _, 0 => seen
  | start, count + 1 =>
    clearRange (clearBitAt seen (start % replayWindowSize)) (start + 1) count

@[simp] theorem clearRange_length (seen : List (BitVec 64)) (start count : ℕ) :
    (clearRange seen start count).length = seen.length := by
  induction count generalizing seen start with
  | zero => rfl
  | succ count ih => simp [clearRange, ih]

/-- The bitmap after the window has moved up to `counter`, before its own bit is set. -/
def advanced (win : ReplayWindow) (counter : ℕ) : List (BitVec 64) :=
  if win.highest < counter then
    if counter - win.highest ≥ replayWindowSize then List.replicate (replayWindowSize / 64) 0#64
    else clearRange win.seen (win.highest + 1) (counter - (win.highest + 1))
  else win.seen

@[simp] theorem advanced_length (win : ReplayWindow) (counter : ℕ) :
    (win.advanced counter).length = replayWindowSize / 64 := by
  unfold advanced
  split_ifs <;> simp [win.size]

def accept (win : ReplayWindow) (counter : ℕ) : ReplayWindow where
  highest := if win.highest < counter then counter else win.highest
  seen := setBitAt (win.advanced counter) (counter % replayWindowSize)
  size := by simp

/-- What `clearRange` leaves of the bitmap. -/
theorem bitAt_clearRange (seen : List (BitVec 64)) (start count r : ℕ) :
    bitAt (clearRange seen start count) r =
      (bitAt seen r && decide (∀ i < count, r ≠ (start + i) % replayWindowSize)) := by
  induction count generalizing seen start with
  | zero => simp [clearRange]
  | succ count ih =>
    rw [clearRange, ih, bitAt_clearBitAt (by norm_num), Bool.and_comm (!_), Bool.and_assoc]
    congr 1
    rw [← decide_not, ← Bool.decide_and, decide_eq_decide]
    constructor
    · rintro ⟨h0, hrest⟩ i hi
      rcases i with _ | i
      · exact h0
      · rw [show start + (i + 1) = start + 1 + i from by omega]
        exact hrest i (by omega)
    · intro h
      refine ⟨h 0 (by omega), fun i hi => ?_⟩
      rw [show start + 1 + i = start + (i + 1) from by omega]
      exact h (i + 1) (by omega)

/-- The bit of a counter lies inside the bitmap. -/
theorem bit_in_range (counter : ℕ) : counter % replayWindowSize / 64 < replayWindowSize / 64 := by
  simp only [replayWindowSize]
  omega

/-- The bitmap after `accept`, as a table of residues. -/
theorem bitAt_accept (win : ReplayWindow) (counter r : ℕ) :
    bitAt (win.accept counter).seen r =
      (decide (r = counter % replayWindowSize) || bitAt (win.advanced counter) r) := by
  have hlen : counter % replayWindowSize / 64 < (win.advanced counter).length := by
    rw [advanced_length]
    exact bit_in_range counter
  exact bitAt_setBitAt (by norm_num) _ _ _ hlen

/-- Moving up to a new highest counter and marking it clears exactly the residues in between. -/
theorem bitAt_advanced_of_lt (win : ReplayWindow) (counter r : ℕ) (hlt : win.highest < counter) :
    (decide (r = counter % replayWindowSize) || bitAt (win.advanced counter) r) =
      (decide (r = (counter + replayWindowSize) % replayWindowSize) ||
        (bitAt win.seen r &&
          decide (∀ i < counter - win.highest,
            r ≠ (win.highest + 1 + i) % replayWindowSize))) := by
  rw [Nat.add_mod_right]
  by_cases hr : r = counter % replayWindowSize
  · simp [hr]
  · simp only [hr, decide_false, Bool.false_or]
    unfold advanced
    rw [if_pos hlt]
    split_ifs with hfar
    · -- a jump of a whole window clears everything
      rw [bitAt_replicate_zero]
      symm
      rcases Nat.lt_or_ge r replayWindowSize with hr' | hr'
      · rw [Bool.and_eq_false_iff]
        refine .inr (decide_eq_false fun hall => ?_)
        have hi := hall ((r + replayWindowSize - (win.highest + 1) % replayWindowSize)
          % replayWindowSize)
        simp only [replayWindowSize] at hi hr' hfar
        have := hi (by omega)
        omega
      · rw [bitAt_of_length_le win.seen r (by
          rw [win.size]
          simp only [replayWindowSize] at hr' ⊢
          omega)]
        rfl
    · -- the loop stops before `counter`, whose residue is not `r`
      rw [bitAt_clearRange]
      congr 1
      rw [decide_eq_decide]
      constructor
      · intro hall i hi
        rcases Nat.lt_or_ge i (counter - (win.highest + 1)) with hi' | hi'
        · exact hall i hi'
        · rwa [show win.highest + 1 + i = counter from by omega]
      · intro hall i hi
        exact hall i (by omega)

end ReplayWindow

/-- **The window invariant.**  All accepted counters are at most `highest`, and the bitmap shows
which of the last 1024 counters were accepted.  The table is stated one period up, so that a window
that still starts below zero needs no case of its own. -/
structure Remembers (win : ReplayWindow) (accepted : List ℕ) : Prop where
  bounded : ∀ c ∈ accepted, c ≤ win.highest
  shows : Shows replayWindowSize (bitAt win.seen) (win.highest + 1)
    (fun m => replayWindowSize ≤ m ∧ m - replayWindowSize ∈ accepted)

namespace Remembers

theorem default : Remembers ReplayWindow.default [] where
  bounded := by simp
  shows := by
    intro n _ _
    show bitAt (List.replicate _ 0#64) _ = true ↔ _
    simp

variable {win : ReplayWindow} {accepted : List ℕ} {counter : ℕ}

/-- **No replay.**  A counter that could be accepted has not been accepted before. -/
theorem not_mem_of_couldAccept (h : Remembers win accepted) (hc : win.couldAccept counter = true) :
    counter ∉ accepted := by
  intro hmem
  have hle := h.bounded counter hmem
  simp only [ReplayWindow.couldAccept, Bool.and_eq_true, Bool.or_eq_true, decide_eq_true_eq,
    Bool.not_eq_true', ReplayWindow.isSet] at hc
  rcases hc.2 with hlt | ⟨hclose, hclear⟩
  · omega
  · have hbit := (h.shows (counter + replayWindowSize) (by omega) (by omega)).mpr
      ⟨by omega, by simpa using hmem⟩
    rw [Nat.add_mod_right, hclear] at hbit
    cases hbit

/-- Above the window nothing has been accepted. -/
theorem not_above (h : Remembers win accepted) (n : ℕ)
    (hn : win.highest + 1 + replayWindowSize ≤ n) :
    ¬ (replayWindowSize ≤ n ∧ n - replayWindowSize ∈ accepted) := by
  rintro ⟨-, hmem⟩
  have := h.bounded _ hmem
  omega

/-- **Accepting keeps the invariant.** -/
theorem accept (h : Remembers win accepted) (hc : win.couldAccept counter = true) :
    Remembers (win.accept counter) (counter :: accepted) := by
  simp only [ReplayWindow.couldAccept, Bool.and_eq_true, Bool.or_eq_true, decide_eq_true_eq] at hc
  have hset : ∀ {base : ℕ}, Shows replayWindowSize (bitAt (win.accept counter).seen) base
      (fun n => n = counter + replayWindowSize ∨
        (replayWindowSize ≤ n ∧ n - replayWindowSize ∈ accepted)) →
      Shows replayWindowSize (bitAt (win.accept counter).seen) base
        (fun m => replayWindowSize ≤ m ∧ m - replayWindowSize ∈ counter :: accepted) := by
    intro base hs
    refine hs.congr fun n _ _ => ?_
    rw [List.mem_cons]
    constructor
    · rintro (rfl | ⟨hle, hmem⟩)
      · exact ⟨by omega, .inl (by omega)⟩
      · exact ⟨hle, .inr hmem⟩
    · rintro ⟨hle, heq | hmem⟩
      · exact .inl (by omega)
      · exact .inr ⟨hle, hmem⟩
  rcases Nat.lt_or_ge win.highest counter with hlt | hge
  · have hhigh : (win.accept counter).highest = counter := if_pos hlt
    refine ⟨?_, ?_⟩
    · rw [hhigh]
      intro c hmem
      rcases List.mem_cons.mp hmem with rfl | hmem
      · exact le_rfl
      · have := h.bounded c hmem
        omega
    · rw [hhigh]
      apply hset
      have hslide := h.shows.slide (k := counter - win.highest) h.not_above (fun _ => rfl)
      rw [show win.highest + 1 + (counter - win.highest) = counter + 1 from by omega] at hslide
      refine hslide.mark (k := counter + replayWindowSize) ?_ (by omega) ?_
      · simp only [replayWindowSize]
        omega
      · intro r
        rw [ReplayWindow.bitAt_accept, ReplayWindow.bitAt_advanced_of_lt _ _ _ hlt]
  · have hhigh : (win.accept counter).highest = win.highest := if_neg (by omega)
    have hclose : win.highest - counter < replayWindowSize := by
      rcases hc.2 with hlt | hrest
      · omega
      · exact hrest.1
    refine ⟨?_, ?_⟩
    · rw [hhigh]
      intro c hmem
      rcases List.mem_cons.mp hmem with rfl | hmem
      · exact hge
      · exact h.bounded c hmem
    · rw [hhigh]
      apply hset
      refine h.shows.mark (k := counter + replayWindowSize) (by omega) (by omega) ?_
      intro r
      rw [ReplayWindow.bitAt_accept, Nat.add_mod_right, ReplayWindow.advanced, if_neg (by omega)]

end Remembers

/-! ### The window against its specification -/

/-- The windows that a run of accepted counters can lead to, the latest counter first. -/
inductive AcceptedRun : List ℕ → ReplayWindow → Prop
  | start : AcceptedRun [] .default
  | accept {run : List ℕ} {win : ReplayWindow} {counter : ℕ} (h : AcceptedRun run win)
      (hc : win.couldAccept counter = true) : AcceptedRun (counter :: run) (win.accept counter)

/-- The highest accepted counter, `0` before the first. -/
def highestAccepted (run : List ℕ) : ℕ := run.foldr max 0

/-- The counter is above the highest accepted one, or less than a window behind it. -/
def WithinWindow (run : List ℕ) (counter : ℕ) : Prop :=
  highestAccepted run < counter ∨ highestAccepted run - counter < replayWindowSize

/-- What the window is for: a positive counter of the window that was not accepted before. -/
def Acceptable (run : List ℕ) (counter : ℕ) : Prop :=
  0 < counter ∧ counter ∉ run ∧ WithinWindow run counter

/-- The state of the window after a run: it remembers the run, and knows its maximum. -/
theorem AcceptedRun.remembers {run : List ℕ} {win : ReplayWindow} (h : AcceptedRun run win) :
    Remembers win run ∧ win.highest = highestAccepted run := by
  induction h with
  | start => exact ⟨.default, rfl⟩
  | @accept run win counter _ hc ih =>
    refine ⟨ih.1.accept hc, ?_⟩
    show (if win.highest < counter then counter else win.highest) = max counter _
    rw [ih.2, highestAccepted]
    split_ifs <;> omega

theorem Remembers.couldAccept_iff {run : List ℕ} {win : ReplayWindow} (h : Remembers win run)
    (hmax : win.highest = highestAccepted run) (counter : ℕ) :
    win.couldAccept counter = true ↔ Acceptable run counter := by
  constructor
  · intro hc
    have hnew := h.not_mem_of_couldAccept hc
    simp only [ReplayWindow.couldAccept, Bool.and_eq_true, Bool.or_eq_true, decide_eq_true_eq] at hc
    refine ⟨hc.1, hnew, ?_⟩
    rw [WithinWindow, ← hmax]
    exact hc.2.imp_right And.left
  · intro hacc
    obtain ⟨hpos, hnew, hwin⟩ := hacc
    rw [WithinWindow, ← hmax] at hwin
    simp only [ReplayWindow.couldAccept, Bool.and_eq_true, Bool.or_eq_true, decide_eq_true_eq,
      Bool.not_eq_true', ReplayWindow.isSet]
    refine ⟨hpos, ?_⟩
    rcases Nat.lt_or_ge win.highest counter with hlt | hge
    · exact .inl hlt
    · have hclose : win.highest - counter < replayWindowSize := by
        rcases hwin with hlt | hclose
        · omega
        · exact hclose
      refine .inr ⟨hclose, ?_⟩
      -- the bit of a counter of the window is set only if that counter was accepted
      by_contra hbit
      rw [Bool.not_eq_false, ← Nat.add_mod_right] at hbit
      obtain ⟨-, hmem⟩ := (h.shows (counter + replayWindowSize) (by omega) (by omega)).mp hbit
      rw [Nat.add_sub_cancel] at hmem
      exact hnew hmem

/-- **The replay window equals its specification.** After every run of accepted counters, a counter
could be accepted exactly if it is positive, new and within the window; and accepting one changes
the answer for no other counter that is still within the new window.  The arithmetic of the source
never leaves its 64 bits: every difference is taken from the larger number, and `highest + 1` only
below a counter. -/
theorem couldAccept_spec {run : List ℕ} {win : ReplayWindow} (h : AcceptedRun run win) :
    (∀ counter, win.couldAccept counter = true ↔ Acceptable run counter) ∧
    ∀ a, win.couldAccept a = true → ∀ counter, counter ≠ a → WithinWindow (a :: run) counter →
      (win.accept a).couldAccept counter = win.couldAccept counter := by
  obtain ⟨hrem, hmax⟩ := h.remembers
  refine ⟨hrem.couldAccept_iff hmax, ?_⟩
  intro a ha counter hne hwin
  obtain ⟨hrem', hmax'⟩ := (h.accept ha).remembers
  rw [Bool.eq_iff_iff, hrem'.couldAccept_iff hmax', hrem.couldAccept_iff hmax]
  have hold : WithinWindow run counter := by
    have hcons : highestAccepted (a :: run) = max a (highestAccepted run) := rfl
    rw [WithinWindow, hcons] at hwin
    rw [WithinWindow]
    omega
  constructor
  · intro hacc
    exact ⟨hacc.1, fun hmem => hacc.2.1 (List.mem_cons_of_mem a hmem), hold⟩
  · intro hacc
    refine ⟨hacc.1, ?_, hwin⟩
    intro hmem
    rcases List.mem_cons.mp hmem with heq | hmem
    · exact hne heq
    · exact hacc.2.1 hmem

/-- A jump of two windows, up to the largest counter but one. -/
theorem couldAccept_spec_one :
    (ReplayWindow.default.accept 5).couldAccept 18446744073709551614 = true ∧
    ((ReplayWindow.default.accept 5).accept 18446744073709551614).couldAccept 5 = false := by
  have hrun : AcceptedRun [5] (ReplayWindow.default.accept 5) := .accept .start (by decide)
  have hnew := ((couldAccept_spec hrun).1 18446744073709551614).mpr
    ⟨by decide, by decide, .inl (by decide)⟩
  have hafter := (couldAccept_spec (hrun.accept hnew)).1 5
  refine ⟨hnew, Bool.eq_false_iff.mpr fun hc => ?_⟩
  exact (hafter.mp hc).2.1 (List.mem_cons_of_mem _ (List.mem_singleton_self 5))

/-! ### The cipher and the sealed datagram -/

/-- A detached authenticated cipher: encryption returns the ciphertext and the tag, decryption
returns `none` when the tag does not verify. -/
structure Aead (Key : Type) where
  encryptDetached : Key → (nonce aad plain : Bytes) → Bytes × Bytes
  decryptDetached : Key → (nonce aad cipher tag : Bytes) → Option Bytes

variable {Key : Type}

/-- The twelve-byte nonce of a counter. -/
def nonceOf (counter : ℕ) : Bytes := leBytes 8 counter ++ List.replicate 4 0#8

/-- A packet the key holder seals, with the counter it is sealed under. -/
structure SealedPacket where
  counter : ℕ
  header : Byte
  body : Bytes
  deriving DecidableEq

namespace SealedPacket

/-- The packet before sealing. -/
def plain (e : SealedPacket) : Bytes := e.header :: e.body

/-- The datagram on the wire. -/
def datagram (aead : Aead Key) (key : Key) (e : SealedPacket) : Bytes :=
  let sealedBody := aead.encryptDetached key (nonceOf e.counter) [e.header] e.body
  e.header :: sealedBody.1 ++ sealedBody.2 ++ leBytes 8 e.counter

end SealedPacket

/-- The counter field of a datagram longer than `overhead`, as the bits of an `i64`. -/
def counterField (packet : Bytes) : BitVec 64 :=
  BitVec.ofNat 64 (leNat (slice packet (packet.length - 8) 8))

/-- Run the cipher on a datagram with the layout of a sealed one: the header byte is the associated
data and stays in front of the plaintext. -/
def decryptDatagram (aead : Aead Key) (key : Key) (packet : Bytes) : Option Bytes :=
  if overhead < packet.length then
    let tagStart := packet.length - overhead
    let counter := counterField packet
    match aead.decryptDetached key (nonceOf counter.toNat) (packet.take 1)
        (slice packet 1 (tagStart - 1)) (slice packet tagStart 16) with
    | some body => some (packet.take 1 ++ body)
    | none => none
  else none

/-! ### The gate -/

inductive InboundSeal (Key : Type) where
  | plain
  | awaitingKey
  | active (cipher : Key) (window : ReplayWindow) (proven : Bool)

/-- What `openPacket` returns.  `counter` is a history value: the counter that the replay window
accepted, if it accepted one. -/
structure Opening (Key : Type) where
  inboundSeal : InboundSeal Key
  packet : Option Bytes
  counter : Option ℕ

namespace InboundSeal

def activate (inboundSeal : InboundSeal Key) (key : Key) : InboundSeal Key × Bool :=
  match inboundSeal with
  | awaitingKey => (active key ReplayWindow.default false, true)
  | other => (other, false)

def isProven : InboundSeal Key → Bool
  | active _ _ proven => proven
  | _ => false

/-- The five property bits of a header byte. -/
def propertyBits (header : Byte) : ℕ := (header &&& 0x1f#8).toNat

/-- Unreliable, channeled, merged and compact-merged packets. -/
def isUserData (property : ℕ) : Bool :=
  property == 0 || property == 1 || property == 12 || property == 18

/-- A datagram is tried against the cipher when it is long enough and its counter is positive as an
`i64` and acceptable to the window. -/
def authenticate (aead : Aead Key) (cipher : Key) (window : ReplayWindow) (packet : Bytes) :
    Option (ℕ × Bytes) :=
  if overhead < packet.length then
    let counter := counterField packet
    if 0 < counter.toInt ∧ window.couldAccept counter.toNat = true then
      (decryptDatagram aead cipher packet).map fun plain => (counter.toNat, plain)
    else none
  else none

/-- Before a key is proven, control datagrams can still be cleartext; after proof, only `ShutdownOk`
may be.  User packets always require a seal. -/
def openPacket (aead : Aead Key) (inboundSeal : InboundSeal Key) (packet : Bytes) : Opening Key :=
  match packet with
  | [] => ⟨inboundSeal, none, none⟩
  | header :: _ =>
    let property := propertyBits header
    let userData := isUserData property
    match inboundSeal with
    | plain => ⟨inboundSeal, some packet, none⟩
    | awaitingKey => ⟨inboundSeal, if userData then none else some packet, none⟩
    | active cipher window proven =>
      match authenticate aead cipher window packet with
      | some (counter, opened) =>
        ⟨active cipher (window.accept counter) true, some opened, some counter⟩
      | none =>
        ⟨inboundSeal, if !userData && (!proven || property == 13) then some packet else none, none⟩

variable {aead : Aead Key} {cipher : Key} {window : ReplayWindow} {packet : Bytes}

/-- A datagram that authenticates did so under an acceptable counter. -/
theorem authenticate_eq_some {counter : ℕ} {opened : Bytes}
    (h : authenticate aead cipher window packet = some (counter, opened)) :
    decryptDatagram aead cipher packet = some opened ∧ counter = (counterField packet).toNat ∧
      window.couldAccept counter = true := by
  unfold authenticate at h
  dsimp only at h
  split_ifs at h with hlen hctr
  rw [Option.map_eq_some_iff] at h
  obtain ⟨plain, hdec, heq⟩ := h
  rw [Prod.mk.injEq] at heq
  obtain ⟨rfl, rfl⟩ := heq
  exact ⟨hdec, rfl, hctr.2⟩

/-- Where the cipher refuses, so does `authenticate`. -/
theorem authenticate_of_decrypt_none (window : ReplayWindow)
    (h : decryptDatagram aead cipher packet = none) :
    authenticate aead cipher window packet = none := by
  unfold authenticate
  simp [h]

/-- What `openPacket` can do with a non-empty datagram on an active seal. -/
theorem openPacket_active_cases (aead : Aead Key) (cipher : Key) (window : ReplayWindow)
    (proven : Bool) (header : Byte) (rest : Bytes) :
    (∃ counter opened, authenticate aead cipher window (header :: rest) = some (counter, opened) ∧
      openPacket aead (active cipher window proven) (header :: rest) =
        ⟨active cipher (window.accept counter) true, some opened, some counter⟩) ∨
    (authenticate aead cipher window (header :: rest) = none ∧
      openPacket aead (active cipher window proven) (header :: rest) =
        ⟨active cipher window proven,
          if !isUserData (propertyBits header) && (!proven || propertyBits header == 13) then
            some (header :: rest) else none, none⟩) := by
  cases h : authenticate aead cipher window (header :: rest) with
  | none => exact .inr ⟨rfl, by simp [openPacket, h]⟩
  | some pair => exact .inl ⟨pair.1, pair.2, rfl, by simp [openPacket, h]⟩

end InboundSeal

end BasisRust.Transport
