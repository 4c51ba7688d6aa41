import BasisRust.Library.Utf8

/-!
# The byte reader and the byte writer of the protocol

`NetReader` is a position in a byte string.  A read that would pass the end is an error and says how
many bytes it needed.  `At` says which bytes are still to come; each read has one lemma, for the
case that the bytes it asks for are there.  `NetWriter` is the bytes written so far; a value that is
too long for its length field is an error.
-/

namespace BasisRust.Protocol

open Library

inductive NetReadError where
  | underflow (needed remaining : ℕ)
  | utf8
  deriving DecidableEq

structure NetReader where
  data : Bytes
  pos : ℕ
  deriving DecidableEq

namespace NetReader

def new (data : Bytes) : NetReader := ⟨data, 0⟩

def remaining (r : NetReader) : ℕ := r.data.length - r.pos

def take (r : NetReader) (len : ℕ) : Except NetReadError (Bytes × NetReader) :=
  if r.remaining < len then .error (.underflow len r.remaining)
  else .ok (slice r.data r.pos len, ⟨r.data, r.pos + len⟩)

def getU8 (r : NetReader) : Except NetReadError (Byte × NetReader) := do
  let (bytes, r) ← r.take 1
  return (bytes.headD 0, r)

def getU16 (r : NetReader) : Except NetReadError (ℕ × NetReader) := do
  let (bytes, r) ← r.take 2
  return (leNat bytes, r)

def getU64 (r : NetReader) : Except NetReadError (ℕ × NetReader) := do
  let (bytes, r) ← r.take 8
  return (leNat bytes, r)

def getBytes (r : NetReader) (len : ℕ) : Except NetReadError (Bytes × NetReader) := r.take len

/-- A string behind its length plus one; the length zero stands for the empty string. -/
def getString (r : NetReader) : Except NetReadError (Str × NetReader) := do
  let (lenPlus, r) ← r.getU16
  if lenPlus = 0 then return (.empty, r)
  let (bytes, r) ← r.take (lenPlus - 1)
  match fromUtf8 bytes with
  | some value => return (value, r)
  | none => throw .utf8

/-- The bytes that are still to come. -/
structure At (r : NetReader) (rest : Bytes) : Prop where
  le : r.pos ≤ r.data.length
  drop : r.data.drop r.pos = rest

variable {r : NetReader} {rest : Bytes} {bytes : Bytes} {byte : Byte} {v : ℕ}

theorem At.new (data : Bytes) : (new data).At data := ⟨Nat.zero_le _, rfl⟩

theorem At.remaining (h : r.At rest) : r.remaining = rest.length := by
  show r.data.length - r.pos = rest.length
  rw [← h.drop, List.length_drop]

/-- The reader `n` bytes further on. -/
def skip (r : NetReader) (n : ℕ) : NetReader := ⟨r.data, r.pos + n⟩

theorem skip_skip (r : NetReader) (m n : ℕ) : (r.skip m).skip n = r.skip (m + n) := by
  rw [skip, skip, skip, Nat.add_assoc]

theorem At.skip (h : r.At (bytes ++ rest)) : (r.skip bytes.length).At rest := by
  refine ⟨?_, ?_⟩
  · have hremaining := h.remaining
    have hle := h.le
    rw [List.length_append, NetReader.remaining] at hremaining
    show r.pos + bytes.length ≤ r.data.length
    omega
  · show r.data.drop (r.pos + bytes.length) = rest
    rw [← List.drop_drop, h.drop, List.drop_left]

theorem At.skip_one (h : r.At (byte :: rest)) : (r.skip 1).At rest := by
  have hone : r.At ([byte] ++ rest) := h
  exact hone.skip

theorem At.take_eq (h : r.At (bytes ++ rest)) :
    r.take bytes.length = .ok (bytes, r.skip bytes.length) := by
  have hremaining := h.remaining
  rw [List.length_append] at hremaining
  rw [NetReader.take, if_neg (by omega), slice, h.drop, List.take_left]
  rfl

theorem At.take_short {n : ℕ} (h : r.At rest) (hn : rest.length < n) :
    r.take n = .error (.underflow n rest.length) := by
  rw [NetReader.take, h.remaining, if_pos hn]

theorem At.take (h : r.At (bytes ++ rest)) :
    ∃ r', r.take bytes.length = .ok (bytes, r') ∧ r'.At rest :=
  ⟨_, h.take_eq, h.skip⟩

theorem At.getU8_eq (h : r.At (byte :: rest)) : r.getU8 = .ok (byte, r.skip 1) := by
  have hone : r.At ([byte] ++ rest) := h
  have htake := hone.take_eq
  show (do let (bytes, r) ← r.take [byte].length; return (bytes.headD 0, r)) = _
  rw [htake]
  rfl

theorem At.getU8_nil (h : r.At []) : r.getU8 = .error (.underflow 1 0) := by
  rw [NetReader.getU8, h.take_short Nat.zero_lt_one]
  rfl

theorem At.getU16_eq (hv : v < 65536) (h : r.At (leBytes 2 v ++ rest)) :
    r.getU16 = .ok (v, r.skip 2) := by
  have htake := h.take_eq
  rw [leBytes_length] at htake
  rw [NetReader.getU16, htake]
  show Except.ok (leNat (leBytes 2 v), _) = _
  rw [leNat_leBytes_two v hv]

theorem At.getU64_eq (hv : v < 2 ^ 64) (h : r.At (leBytes 8 v ++ rest)) :
    r.getU64 = .ok (v, r.skip 8) := by
  have htake := h.take_eq
  rw [leBytes_length] at htake
  rw [NetReader.getU64, htake]
  show Except.ok (leNat (leBytes 8 v), _) = _
  rw [leNat_leBytes 8 v (Nat.lt_of_lt_of_le hv (by decide))]

theorem At.getU8 (h : r.At (byte :: rest)) :
    ∃ r', r.getU8 = .ok (byte, r') ∧ r'.At rest :=
  ⟨_, h.getU8_eq, h.skip_one⟩

theorem At.getU16 (hv : v < 65536) (h : r.At (leBytes 2 v ++ rest)) :
    ∃ r', r.getU16 = .ok (v, r') ∧ r'.At rest :=
  ⟨_, h.getU16_eq hv, leBytes_length 2 v ▸ h.skip⟩

end NetReader

/-! ### The writer -/

inductive NetWriteError where
  | lengthOverflow (length max : ℕ)
  deriving DecidableEq

structure NetWriter where
  data : Bytes
  deriving DecidableEq

namespace NetWriter

def putBytes (w : NetWriter) (value : Bytes) : NetWriter := ⟨w.data ++ value⟩

def putU8 (w : NetWriter) (value : Byte) : NetWriter := w.putBytes [value]

def putU16 (w : NetWriter) (value : ℕ) : NetWriter := w.putBytes (leBytes 2 value)

def putU64 (w : NetWriter) (value : ℕ) : NetWriter := w.putBytes (leBytes 8 value)

/-- The length plus one, and the bytes. -/
def putString (w : NetWriter) (value : Str) : Except NetWriteError NetWriter :=
  if value.bytes = [] then .ok (w.putU16 0)
  else if value.bytes.length + 1 < 65536 then
    .ok ((w.putU16 (value.bytes.length + 1)).putBytes value.bytes)
  else .error (.lengthOverflow value.bytes.length 65534)

end NetWriter

end BasisRust.Protocol
