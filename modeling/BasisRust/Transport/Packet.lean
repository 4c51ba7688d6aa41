import BasisRust.Library.Bytes
import Mathlib.Data.BitVec
import Mathlib.Data.Int.Notation
import Mathlib.Tactic.IntervalCases

/-!
# Packet headers of the LiteNetLib wire format

The first byte of every datagram holds a five-bit property, a two-bit connection number and the
fragment flag.  A channeled packet goes on with a sequence number of fifteen bits and a channel id,
whose residue modulo four is the delivery method.
-/

namespace BasisRust.Transport

open Library

/-! ### Constants -/

def defaultWindowSize : ℕ := 128
def maxSequence : ℕ := 32768
def litenetlibChanneledHeaderSize : ℕ := 4
def litenetlibFragmentHeaderSize : ℕ := 6
def litenetlibFragmentedHeaderSize : ℕ :=
  litenetlibChanneledHeaderSize + litenetlibFragmentHeaderSize

/-! ### Properties -/

inductive PacketProperty where
  | unreliable
  | channeled
  | ack
  | ping
  | pong
  | connectRequest
  | connectAccept
  | disconnect
  | unconnectedMessage
  | mtuCheck
  | mtuOk
  | broadcast
  | merged
  | shutdownOk
  | peerNotFound
  | invalidProtocol
  | natMessage
  | empty
  | compactMerged
  deriving DecidableEq

namespace PacketProperty

/-- The wire value of a property. -/
def code : PacketProperty → ℕ
  | unreliable => 0
  | channeled => 1
  | ack => 2
  | ping => 3
  | pong => 4
  | connectRequest => 5
  | connectAccept => 6
  | disconnect => 7
  | unconnectedMessage => 8
  | mtuCheck => 9
  | mtuOk => 10
  | broadcast => 11
  | merged => 12
  | shutdownOk => 13
  | peerNotFound => 14
  | invalidProtocol => 15
  | natMessage => 16
  | empty => 17
  | compactMerged => 18

/-- The properties in the order of their wire values. -/
def table : List PacketProperty :=
  [unreliable, channeled, ack, ping, pong, connectRequest, connectAccept, disconnect,
    unconnectedMessage, mtuCheck, mtuOk, broadcast, merged, shutdownOk, peerNotFound,
    invalidProtocol, natMessage, empty, compactMerged]

/-- The property of a header byte; the three high bits are the connection number and the fragment
flag. -/
def fromByte (value : Byte) : Option PacketProperty := table[(value &&& 0x1f#8).toNat]?

/-- What the table returns has the wire value that was looked up. -/
theorem fromByte_code {value : Byte} {p : PacketProperty} (h : fromByte value = some p) :
    (value &&& 0x1f#8).toNat = p.code := by
  unfold fromByte at h
  have hlt : (value &&& 0x1f#8).toNat < 19 := by
    have := List.getElem?_eq_some_iff.mp h
    exact this.1
  generalize (value &&& 0x1f#8).toNat = n at h hlt
  interval_cases n <;> simp [table] at h <;> subst h <;> rfl

/-- The property code in the low bits, the connection number above it. -/
def header (p : PacketProperty) (connectionNumber : BitVec 2) : Byte :=
  BitVec.ofNat 8 p.code ||| (connectionNumber.setWidth 8 <<< 5)

end PacketProperty

/-- The connection number of a header byte. -/
def connectionNumberOf (header : Byte) : BitVec 2 := ((header &&& 0x60#8) >>> 5).setWidth 2

@[simp] theorem fromByte_header (p : PacketProperty) (n : BitVec 2) :
    PacketProperty.fromByte (p.header n) = some p := by
  revert n
  cases p <;> decide

/-- The fragment flag is no part of the property. -/
theorem fromByte_fragmented (n : BitVec 2) :
    PacketProperty.fromByte (PacketProperty.channeled.header n ||| 0x80#8) = some .channeled := by
  revert n
  decide

@[simp] theorem connectionNumberOf_header (p : PacketProperty) (n : BitVec 2) :
    connectionNumberOf (p.header n) = n := by
  revert n
  cases p <;> decide

/-! ### Delivery methods -/

inductive DeliveryMethod where
  | reliableUnordered
  | sequenced
  | reliableOrdered
  | reliableSequenced
  | unreliable
  deriving DecidableEq

namespace DeliveryMethod

def fromChannelId (channelId : Byte) : DeliveryMethod :=
  match channelId.toNat % 4 with
  | 0 => reliableUnordered
  | 1 => sequenced
  | 2 => reliableOrdered
  | _ => reliableSequenced

/-- The offset of a delivery method inside the four ids of a channel. -/
def offset : DeliveryMethod → ℕ
  | reliableUnordered => 0
  | sequenced => 1
  | reliableOrdered => 2
  | reliableSequenced => 3
  | unreliable => 1

def channelId (channel : Byte) (delivery : DeliveryMethod) : Byte :=
  channel * 4 + BitVec.ofNat 8 delivery.offset

end DeliveryMethod

/-! ### Sequence numbers -/

/-- Compare sequence numbers across the wrapping sequence space. -/
def relativeSequence (seq expected : ℕ) : ℤ :=
  let diff : ℤ := (seq : ℤ) - (expected : ℤ)
  if diff ≤ -((maxSequence / 2 : ℕ) : ℤ) then diff + maxSequence
  else if diff ≥ ((maxSequence / 2 : ℕ) : ℤ) then diff - maxSequence
  else diff

/-- **Unwrapping.**  For two unwrapped numbers less than half a lap apart, the wrapped comparison is
the true difference. -/
theorem relativeSequence_unwrap (n m : ℕ) (h₁ : n < m + 16384) (h₂ : m < n + 16384) :
    relativeSequence (n % maxSequence) (m % maxSequence) = (n : ℤ) - (m : ℤ) := by
  simp only [relativeSequence, maxSequence]
  split_ifs <;> omega

/-- A comparison that lands in the window is the true difference, even for numbers that may be
almost a lap apart. -/
theorem relativeSequence_window (n m : ℕ) (h₁ : n < m + 32768) (h₂ : m < n + 32640)
    (hlo : 0 ≤ relativeSequence (n % maxSequence) (m % maxSequence))
    (hhi : relativeSequence (n % maxSequence) (m % maxSequence) < defaultWindowSize) :
    relativeSequence (n % maxSequence) (m % maxSequence) = (n : ℤ) - (m : ℤ) := by
  rw [defaultWindowSize] at hhi
  simp only [relativeSequence, maxSequence] at hlo hhi ⊢
  split_ifs at hlo hhi ⊢ <;> omega

end BasisRust.Transport
