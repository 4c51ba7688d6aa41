import BasisRust.Library.Json
import BasisRust.Protocol.Io
import Mathlib.Tactic.Common

/-!
# Compact ids

A player's id is any string, but most ids have one of a few shapes: a UUID, a number, a `did:key`,
or hexadecimal digits.  These are written in binary with a tag and a note on the letter case, and
`readCompactId` makes the text again; every other string is written as it is.

The UUID library is a parameter.
-/

namespace BasisRust.Protocol

open Library

/-- The functions of the UUID library.  `hyphenated` and `simple` give lower-case letters. -/
structure UuidCrate where
  Uuid : Type
  parseStr : Str → Option Uuid
  hyphenated : Uuid → Ascii
  simple : Uuid → Ascii
  toBytesLe : Uuid → Bytes
  fromBytesLe : Bytes → Uuid

/-- The sixteen bytes of a UUID in little-endian order determine it. -/
structure UuidCrate.Lawful (uuids : UuidCrate) : Prop where
  length : ∀ u, (uuids.toBytesLe u).length = 16
  fromBytesLe : ∀ u, uuids.fromBytesLe (uuids.toBytesLe u) = u

def compactIdRaw : Byte := 0
def compactIdUuid : Byte := 1
def compactIdU64 : Byte := 2
def compactIdHex : Byte := 3
def compactIdDidKey : Byte := 4

/-- `did:key:` -/
def didKeyPrefix : Bytes := [0x64#8, 0x69#8, 0x64#8, 0x3a#8, 0x6b#8, 0x65#8, 0x79#8, 0x3a#8]

def isAsciiDigit (b : Byte) : Bool := 0x30 ≤ b.toNat && b.toNat ≤ 0x39
def isUpperHex (b : Byte) : Bool := 0x41 ≤ b.toNat && b.toNat ≤ 0x46
def isLowerHex (b : Byte) : Bool := 0x61 ≤ b.toNat && b.toNat ≤ 0x66
def isAsciiHexdigit (b : Byte) : Bool := isAsciiDigit b || isUpperHex b || isLowerHex b

/-! ### UUIDs -/

/-- The text of a UUID in one of the four formats. -/
def renderUuid (uuids : UuidCrate) (format : Byte) (u : uuids.Uuid) : Str :=
  if format = 1 then (uuids.hyphenated u).toUppercase.toStr
  else if format = 2 then (uuids.simple u).toStr
  else if format = 3 then (uuids.simple u).toUppercase.toStr
  else (uuids.hyphenated u).toStr

def uuidFormat (value : Str) : Byte :=
  if value.bytes.length = 36 then if value.bytes.any isUpperHex then 1 else 0
  else if value.bytes.any isUpperHex then 3 else 2

/-- The UUID whose canonical text in some format is the value. -/
def uuidOf (uuids : UuidCrate) (value : Str) : Option uuids.Uuid :=
  match uuids.parseStr value with
  | none => none
  | some uuid =>
    if (value.bytes.length = 32 ∨ value.bytes.length = 36) ∧
        renderUuid uuids (uuidFormat value) uuid = value then some uuid
    else none

/-! ### Numbers -/

/-- The number with these decimal digits, if it fits. -/
def parseU64 (digits : Bytes) : Option ℕ :=
  let n := digits.foldl (fun acc d => 10 * acc + (d.toNat - 0x30)) 0
  if n < 2 ^ 64 then some n else none

theorem jsonNumber_ascii (n : ℕ) : ∀ b ∈ jsonNumber n, b.toNat < 0x80 := by
  intro b hb
  obtain ⟨c, hc, rfl⟩ := List.mem_map.mp hb
  have hdigit := Nat.isDigit_of_mem_toDigits (by decide) (by decide) hc
  have hle : c.toNat ≤ 57 := (Char.isDigit_iff_toNat.mp hdigit).2
  rw [BitVec.toNat_ofNat]
  omega

/-- The decimal digits of a number. -/
def u64ToString (n : ℕ) : Str := (Ascii.mk (jsonNumber n) (jsonNumber_ascii n)).toStr

/-- The number whose text is the value. -/
def u64Of (value : Str) : Option ℕ :=
  if value.bytes ≠ [] ∧ value.bytes.length ≤ 20 ∧ value.bytes.all isAsciiDigit then
    match parseU64 value.bytes with
    | none => none
    | some parsed => if u64ToString parsed = value then some parsed else none
  else none

/-! ### `did:key` -/

/-- What follows the prefix, if its length fits in a byte. -/
def didKeyOf (value : Str) : Option Bytes :=
  if value.bytes.take didKeyPrefix.length = didKeyPrefix then
    let body := value.bytes.drop didKeyPrefix.length
    if body ≠ [] ∧ body.length ≤ 255 then some body else none
  else none

theorem didKeyPrefix_run : Owed.start.run didKeyPrefix = some .start := by decide

def didKey (body : Str) : Str :=
  ⟨didKeyPrefix ++ body.bytes, by rw [Owed.run_append, didKeyPrefix_run]; exact body.valid⟩

/-! ### Hexadecimal digits -/

def hexValue (b : Byte) : ℕ :=
  if isAsciiDigit b then b.toNat - 0x30
  else if isUpperHex b then b.toNat - 0x37
  else b.toNat - 0x57

/-- The bytes of pairs of digits. -/
def hexBytes : Bytes → Bytes
  | a :: b :: rest => BitVec.ofNat 8 (16 * hexValue a + hexValue b) :: hexBytes rest
  | _ => []

def hexAlphabet (upper : Bool) (n : ℕ) : Byte :=
  BitVec.ofNat 8 (if n < 10 then 0x30 + n else if upper then 0x37 + n else 0x57 + n)

def hexText (upper : Bool) (bytes : Bytes) : Bytes :=
  bytes.flatMap fun b => [hexAlphabet upper (b.toNat / 16), hexAlphabet upper (b.toNat % 16)]

theorem hexAlphabet_ascii (upper : Bool) : ∀ n < 16, (hexAlphabet upper n).toNat < 0x80 := by
  cases upper <;> decide

theorem hexText_ascii (upper : Bool) (bytes : Bytes) :
    ∀ b ∈ hexText upper bytes, b.toNat < 0x80 := by
  intro b hb
  obtain ⟨c, -, hc⟩ := List.mem_flatMap.mp hb
  have hlt : c.toNat < 256 := c.isLt
  simp only [List.mem_cons, List.not_mem_nil, or_false] at hc
  rcases hc with rfl | rfl
  · exact hexAlphabet_ascii upper _ (by omega)
  · exact hexAlphabet_ascii upper _ (by omega)

/-- Whether the digits have a capital letter, and their bytes, if they are pairs of digits of one
case. -/
def hexOf (value : Str) : Option (Bool × Bytes) :=
  if value.bytes ≠ [] ∧ value.bytes.length ≤ 510 ∧ value.bytes.length % 2 = 0 ∧
      value.bytes.all isAsciiHexdigit then
    let hasUpper := value.bytes.any isUpperHex
    let hasLower := value.bytes.any isLowerHex
    if hasUpper && hasLower then none else some (hasUpper, hexBytes value.bytes)
  else none

/-! ### The codec -/

def writeCompactId (uuids : UuidCrate) (w : NetWriter) (value : Str) :
    Except NetWriteError NetWriter :=
  match uuidOf uuids value with
  | some uuid =>
    .ok (((w.putU8 compactIdUuid).putU8 (uuidFormat value)).putBytes (uuids.toBytesLe uuid))
  | none =>
    match u64Of value with
    | some parsed => .ok ((w.putU8 compactIdU64).putU64 parsed)
    | none =>
      match didKeyOf value with
      | some body =>
        .ok (((w.putU8 compactIdDidKey).putU8 (BitVec.ofNat 8 body.length)).putBytes body)
      | none =>
        match hexOf value with
        | some (hasUpper, bytes) =>
          .ok ((((w.putU8 compactIdHex).putU8 (if hasUpper then 1 else 0)).putU8
            (BitVec.ofNat 8 bytes.length)).putBytes bytes)
        | none => (w.putU8 compactIdRaw).putString value

def readCompactId (uuids : UuidCrate) (r : NetReader) : Except NetReadError (Str × NetReader) := do
  let (tag, r) ← r.getU8
  if tag = compactIdUuid then
    let (format, r) ← r.getU8
    let (raw, r) ← r.getBytes 16
    return (renderUuid uuids format (uuids.fromBytesLe raw), r)
  else if tag = compactIdU64 then
    let (n, r) ← r.getU64
    return (u64ToString n, r)
  else if tag = compactIdHex then
    let (flags, r) ← r.getU8
    let (len, r) ← r.getU8
    let (bytes, r) ← r.getBytes len.toNat
    let upper := flags.getLsbD 0
    return ((Ascii.mk (hexText upper bytes) (hexText_ascii upper bytes)).toStr, r)
  else if tag = compactIdDidKey then
    let (len, r) ← r.getU8
    let (raw, r) ← r.getBytes len.toNat
    return (didKey (fromUtf8Lossy raw), r)
  else r.getString

/-! ### The shapes determine the text -/

variable {uuids : UuidCrate} {value : Str} {upper : Bool} {bytes : Bytes} {body : Bytes}

theorem uuidOf_some {u : uuids.Uuid} (h : uuidOf uuids value = some u) :
    renderUuid uuids (uuidFormat value) u = value := by
  unfold uuidOf at h
  split at h
  · cases h
  · split at h
    · next hrendered =>
      cases h
      exact hrendered.2
    · cases h

theorem u64Of_some {n : ℕ} (h : u64Of value = some n) : u64ToString n = value ∧ n < 2 ^ 64 := by
  unfold u64Of at h
  split at h
  · split at h
    · cases h
    · next parsed hparsed =>
      split at h
      · next heq =>
        cases h
        refine ⟨heq, ?_⟩
        unfold parseU64 at hparsed
        dsimp only at hparsed
        split at hparsed
        · next hlt =>
          cases hparsed
          exact hlt
        · cases hparsed
      · cases h
  · cases h

theorem didKeyOf_some (h : didKeyOf value = some body) :
    value.bytes = didKeyPrefix ++ body ∧ body.length ≤ 255 := by
  unfold didKeyOf at h
  dsimp only at h
  split at h
  · next hprefix =>
    split at h
    · next hbody =>
      cases h
      refine ⟨?_, hbody.2⟩
      conv_lhs => rw [← List.take_append_drop didKeyPrefix.length value.bytes, hprefix]
    · cases h
  · cases h

/-- The body of a `did:key` is a string itself. -/
theorem didKey_body (h : value.bytes = didKeyPrefix ++ body) :
    didKey (fromUtf8Lossy body) = value := by
  have hvalid := value.valid
  rw [h, Owed.run_append, didKeyPrefix_run] at hvalid
  apply Str.ext
  show didKeyPrefix ++ (fromUtf8Lossy body).bytes = _
  rw [fromUtf8Lossy_of_valid hvalid, h]

/-- A digit of the right case is in the alphabet at its value. -/
theorem hexAlphabet_hexValue (upper : Bool) : ∀ b : Byte, isAsciiHexdigit b = true →
    (isUpperHex b = true → upper = true) → (isLowerHex b = true → upper = false) →
    hexValue b < 16 ∧ hexAlphabet upper (hexValue b) = b := by
  cases upper <;> decide

theorem hexText_hexBytes {digits : Bytes} (heven : digits.length % 2 = 0)
    (hdigits : ∀ b ∈ digits, isAsciiHexdigit b = true)
    (hupper : ∀ b ∈ digits, isUpperHex b = true → upper = true)
    (hlower : ∀ b ∈ digits, isLowerHex b = true → upper = false) :
    hexText upper (hexBytes digits) = digits := by
  fun_induction hexBytes digits with
  | case1 a b rest ih =>
    simp only [List.forall_mem_cons] at hdigits hupper hlower
    obtain ⟨halt, ha⟩ := hexAlphabet_hexValue upper a hdigits.1 hupper.1 hlower.1
    obtain ⟨hblt, hb⟩ := hexAlphabet_hexValue upper b hdigits.2.1 hupper.2.1 hlower.2.1
    have hlength : rest.length % 2 = 0 := by
      rw [List.length_cons, List.length_cons] at heven
      omega
    have hpair : (BitVec.ofNat 8 (16 * hexValue a + hexValue b)).toNat =
        16 * hexValue a + hexValue b := by
      rw [BitVec.toNat_ofNat]
      omega
    show [hexAlphabet upper (_ / 16), hexAlphabet upper (_ % 16)] ++ hexText upper
      (hexBytes rest) = _
    rw [hpair, show (16 * hexValue a + hexValue b) / 16 = hexValue a by omega,
      show (16 * hexValue a + hexValue b) % 16 = hexValue b by omega, ha, hb,
      ih hlength hdigits.2.2 hupper.2.2 hlower.2.2]
    rfl
  | case2 digits hshort =>
    cases digits with
    | nil => rfl
    | cons a rest =>
      cases rest with
      | nil => cases heven
      | cons b rest => exact absurd rfl (hshort a b rest)

theorem hexBytes_length (digits : Bytes) : (hexBytes digits).length = digits.length / 2 := by
  fun_induction hexBytes digits with
  | case1 a b rest ih =>
    rw [List.length_cons, ih, List.length_cons, List.length_cons]
    omega
  | case2 digits hshort =>
    cases digits with
    | nil => rfl
    | cons a rest =>
      cases rest with
      | nil =>
        show 0 = 1 / 2
        decide
      | cons b rest => exact absurd rfl (hshort a b rest)

theorem hexOf_some (h : hexOf value = some (upper, bytes)) :
    hexText upper bytes = value.bytes ∧ bytes.length ≤ 255 := by
  unfold hexOf at h
  dsimp only at h
  split at h
  · next hshape =>
    obtain ⟨-, hlength, heven, hdigits⟩ := hshape
    rw [List.all_eq_true] at hdigits
    split at h
    · cases h
    · next hcases =>
      cases h
      refine ⟨hexText_hexBytes heven hdigits ?_ ?_, ?_⟩
      · intro b hb hupper
        exact List.any_eq_true.mpr ⟨b, hb, hupper⟩
      · intro b hb hlower
        have hany : value.bytes.any isLowerHex = true := List.any_eq_true.mpr ⟨b, hb, hlower⟩
        rw [hany, Bool.and_true] at hcases
        exact Bool.eq_false_iff.mpr hcases
      · rw [hexBytes_length]
        omega
  · cases h

/-! ### The round trip -/

/-- Reading where the bytes stand gives the value and takes them. -/
def ReadsAs (uuids : UuidCrate) (written : Bytes) (value : Str) : Prop :=
  ∀ (r : NetReader) (trailing : Bytes), r.At (written ++ trailing) →
    readCompactId uuids r = .ok (value, r.skip written.length)

theorem readsAs_uuid (hlaws : uuids.Lawful) (format : Byte) (u : uuids.Uuid) :
    ReadsAs uuids (compactIdUuid :: format :: uuids.toBytesLe u) (renderUuid uuids format u) := by
  intro r trailing h
  have hformat : (r.skip 1).At (format :: uuids.toBytesLe u ++ trailing) := NetReader.At.skip_one h
  have hraw : ((r.skip 1).skip 1).At (uuids.toBytesLe u ++ trailing) :=
    NetReader.At.skip_one hformat
  have htake := hraw.take_eq
  rw [hlaws.length] at htake
  rw [readCompactId, NetReader.At.getU8_eq h]
  show (do let (format, r) ← (r.skip 1).getU8; _) = _
  rw [NetReader.At.getU8_eq hformat]
  show (do let (raw, r) ← ((r.skip 1).skip 1).take 16; _) = _
  rw [htake]
  show Except.ok (renderUuid uuids format (uuids.fromBytesLe (uuids.toBytesLe u)), _) = _
  rw [hlaws.fromBytesLe, NetReader.skip_skip, NetReader.skip_skip, List.length_cons,
    List.length_cons, hlaws.length]

theorem readsAs_u64 {n : ℕ} (hn : n < 2 ^ 64) :
    ReadsAs uuids (compactIdU64 :: leBytes 8 n) (u64ToString n) := by
  intro r trailing h
  have hnumber : (r.skip 1).At (leBytes 8 n ++ trailing) := NetReader.At.skip_one h
  rw [readCompactId, NetReader.At.getU8_eq h]
  show (do let (n, r) ← (r.skip 1).getU64; _) = _
  rw [hnumber.getU64_eq hn]
  show Except.ok (u64ToString n, _) = _
  rw [NetReader.skip_skip, List.length_cons, leBytes_length]

/-- A byte that holds a length, and the bytes. -/
theorem getLengthBytes {r : NetReader} {trailing : Bytes} (hlength : bytes.length ≤ 255)
    (h : r.At (BitVec.ofNat 8 bytes.length :: bytes ++ trailing)) :
    r.getU8 = .ok (BitVec.ofNat 8 bytes.length, r.skip 1) ∧
      (r.skip 1).getBytes (BitVec.ofNat 8 bytes.length).toNat =
        .ok (bytes, r.skip (1 + bytes.length)) := by
  have hbytes : (r.skip 1).At (bytes ++ trailing) := NetReader.At.skip_one h
  refine ⟨NetReader.At.getU8_eq h, ?_⟩
  rw [BitVec.toNat_ofNat, Nat.mod_eq_of_lt (by omega), ← NetReader.skip_skip]
  exact hbytes.take_eq

theorem readsAs_didKey (hlength : body.length ≤ 255) :
    ReadsAs uuids (compactIdDidKey :: BitVec.ofNat 8 body.length :: body)
      (didKey (fromUtf8Lossy body)) := by
  intro r trailing h
  obtain ⟨hlen, hraw⟩ := getLengthBytes (r := r.skip 1) hlength
    (NetReader.At.skip_one h)
  rw [readCompactId, NetReader.At.getU8_eq h]
  show (do let (len, r) ← (r.skip 1).getU8; _) = _
  rw [hlen]
  show (do let (raw, r) ← ((r.skip 1).skip 1).getBytes _; _) = _
  rw [hraw]
  show Except.ok (didKey (fromUtf8Lossy body), (r.skip 1).skip (1 + body.length)) = _
  rw [NetReader.skip_skip, List.length_cons, List.length_cons, ← Nat.add_assoc, Nat.add_comm]

theorem readsAs_hex (hlength : bytes.length ≤ 255) : ReadsAs uuids
      (compactIdHex :: (if upper then 1 else 0) :: BitVec.ofNat 8 bytes.length :: bytes)
      (Ascii.mk (hexText upper bytes) (hexText_ascii upper bytes)).toStr := by
  intro r trailing h
  have hflags : (r.skip 1).At
      ((if upper then 1 else 0) :: BitVec.ofNat 8 bytes.length :: bytes ++ trailing) :=
    NetReader.At.skip_one h
  have hlengthAt : ((r.skip 1).skip 1).At (BitVec.ofNat 8 bytes.length :: bytes ++ trailing) :=
    NetReader.At.skip_one hflags
  obtain ⟨hlen, hraw⟩ := getLengthBytes hlength hlengthAt
  have hbit : (if upper then 1#8 else 0#8).getLsbD 0 = upper := by cases upper <;> rfl
  rw [readCompactId, NetReader.At.getU8_eq h]
  show (do let (flags, r) ← (r.skip 1).getU8; _) = _
  rw [NetReader.At.getU8_eq hflags]
  show (do let (len, r) ← ((r.skip 1).skip 1).getU8; _) = _
  rw [hlen]
  show (do let (bytes, r) ← (((r.skip 1).skip 1).skip 1).getBytes _; _) = _
  rw [hraw]
  show Except.ok
    ((Ascii.mk (hexText ((if upper then 1#8 else 0#8).getLsbD 0) bytes) _).toStr, _) = _
  congr 2
  · apply Str.ext
    show hexText _ bytes = hexText upper bytes
    rw [hbit]
  · show ((r.skip 1).skip 1).skip (1 + bytes.length) = _
    rw [NetReader.skip_skip, NetReader.skip_skip, List.length_cons, List.length_cons,
      List.length_cons, show 1 + (1 + (1 + bytes.length)) = bytes.length + 1 + 1 + 1 by omega]

/-- The bytes of a string. -/
def stringBytes (value : Str) : Bytes :=
  if value.bytes = [] then leBytes 2 0 else leBytes 2 (value.bytes.length + 1) ++ value.bytes

theorem putString_eq (w : NetWriter) (hlength : value.bytes.length ≤ 65534) :
    w.putString value = .ok ⟨w.data ++ stringBytes value⟩ := by
  unfold NetWriter.putString stringBytes
  by_cases hempty : value.bytes = []
  · rw [if_pos hempty, if_pos hempty]
    rfl
  · rw [if_neg hempty, if_neg hempty, if_pos (by omega), ← List.append_assoc]
    rfl

theorem getString_eq {r : NetReader} {trailing : Bytes} (hlength : value.bytes.length ≤ 65534)
    (h : r.At (stringBytes value ++ trailing)) :
    r.getString = .ok (value, r.skip (stringBytes value).length) := by
  unfold stringBytes at h ⊢
  by_cases hempty : value.bytes = []
  · rw [if_pos hempty] at h ⊢
    rw [NetReader.getString, h.getU16_eq (by decide)]
    show Except.ok (Str.empty, _) = _
    rw [leBytes_length, show Str.empty = value from Str.ext hempty.symm]
  · rw [if_neg hempty] at h ⊢
    rw [List.append_assoc] at h
    have hbytes := h.skip
    rw [leBytes_length] at hbytes
    rw [NetReader.getString, h.getU16_eq (by omega)]
    simp only [bind, Except.bind, if_neg (Nat.succ_ne_zero _), Nat.add_sub_cancel, hbytes.take_eq,
      fromUtf8_bytes, List.length_append, leBytes_length, NetReader.skip_skip]
    rfl

theorem readsAs_raw (hlength : value.bytes.length ≤ 65534) :
    ReadsAs uuids (compactIdRaw :: stringBytes value) value := by
  intro r trailing h
  rw [readCompactId, NetReader.At.getU8_eq h]
  show (r.skip 1).getString = _
  have hstring : (r.skip 1).At (stringBytes value ++ trailing) := NetReader.At.skip_one h
  rw [getString_eq hlength hstring, NetReader.skip_skip, List.length_cons, Nat.add_comm]

/-- **Compact ids.** What is written for a string is read back as that string, wherever it stands
and whatever comes after it, and exactly its bytes are taken. -/
theorem readCompactId_writeCompactId (uuids : UuidCrate) (hlaws : uuids.Lawful) (value : Str)
    (hlength : value.bytes.length ≤ 65534) (w : NetWriter) :
    ∃ written, writeCompactId uuids w value = .ok ⟨w.data ++ written⟩ ∧
      ∀ (r : NetReader) (trailing : Bytes), r.At (written ++ trailing) →
        readCompactId uuids r = .ok (value, r.skip written.length) := by
  unfold writeCompactId
  cases huuid : uuidOf uuids value with
  | some u =>
    have hreads := readsAs_uuid hlaws (uuidFormat value) u
    rw [uuidOf_some huuid] at hreads
    refine ⟨_, ?_, hreads⟩
    simp only [NetWriter.putU8, NetWriter.putBytes, List.append_assoc, List.cons_append,
      List.nil_append]
  | none =>
    cases hnumber : u64Of value with
    | some n =>
      obtain ⟨htext, hlt⟩ := u64Of_some hnumber
      have hreads := @readsAs_u64 uuids n hlt
      rw [htext] at hreads
      refine ⟨_, ?_, hreads⟩
      simp only [NetWriter.putU8, NetWriter.putU64, NetWriter.putBytes, List.append_assoc,
        List.cons_append, List.nil_append]
    | none =>
      cases hdid : didKeyOf value with
      | some body =>
        obtain ⟨hbytes, hbody⟩ := didKeyOf_some hdid
        have hreads := @readsAs_didKey uuids body hbody
        rw [didKey_body hbytes] at hreads
        refine ⟨_, ?_, hreads⟩
        simp only [NetWriter.putU8, NetWriter.putBytes, List.append_assoc, List.cons_append,
          List.nil_append]
      | none =>
        cases hhex : hexOf value with
        | some shape =>
          obtain ⟨upper, bytes⟩ := shape
          obtain ⟨htext, hbytes⟩ := hexOf_some hhex
          have hreads := @readsAs_hex uuids upper bytes hbytes
          rw [show (Ascii.mk (hexText upper bytes) (hexText_ascii upper bytes)).toStr = value from
            Str.ext htext] at hreads
          refine ⟨_, ?_, hreads⟩
          simp only [NetWriter.putU8, NetWriter.putBytes, List.append_assoc, List.cons_append,
      List.nil_append]
        | none =>
          refine ⟨_, ?_, readsAs_raw hlength⟩
          dsimp only
          rw [putString_eq _ hlength]
          simp only [NetWriter.putU8, NetWriter.putBytes, List.append_assoc, List.cons_append,
      List.nil_append]

/-! ### A UUID library -/

def dash : Byte := 0x2d#8

/-- Thirty-two digits in groups of eight, four, four, four and twelve. -/
def hyphens (digits : Bytes) : Bytes :=
  digits.take 8 ++ dash :: slice digits 8 4 ++ dash :: slice digits 12 4 ++ dash ::
    slice digits 16 4 ++ dash :: digits.drop 20

theorem hyphens_ascii {digits : Bytes} (h : ∀ b ∈ digits, b.toNat < 0x80) :
    ∀ b ∈ hyphens digits, b.toNat < 0x80 := by
  have hslice : ∀ i n, ∀ b ∈ slice digits i n, b.toNat < 0x80 := fun i n b hb =>
    h b (List.mem_of_mem_drop (List.mem_of_mem_take hb))
  have hdash : dash.toNat < 0x80 := by decide
  intro b hb
  simp only [hyphens, List.mem_append, List.mem_cons] at hb
  rcases hb with (((hb | rfl | hb) | rfl | hb) | rfl | hb) | rfl | hb
  · exact h b (List.mem_of_mem_take hb)
  · exact hdash
  · exact hslice _ _ b hb
  · exact hdash
  · exact hslice _ _ b hb
  · exact hdash
  · exact hslice _ _ b hb
  · exact hdash
  · exact h b (List.mem_of_mem_drop hb)

def parseSimple (digits : Bytes) : Option Bytes :=
  if digits.length = 32 ∧ digits.all isAsciiHexdigit then some (hexBytes digits) else none

def parseHyphenated (text : Bytes) : Option Bytes :=
  let digits := text.take 8 ++ slice text 9 4 ++ slice text 14 4 ++ slice text 19 4 ++ text.drop 24
  if text.length = 36 ∧ hyphens digits = text then parseSimple digits else none

/-- `urn:uuid:` -/
def urnPrefix : Bytes := [0x75#8, 0x72#8, 0x6e#8, 0x3a#8, 0x75#8, 0x75#8, 0x69#8, 0x64#8, 0x3a#8]

/-- Plain, in braces, or behind `urn:uuid:`. -/
def parseUuid (text : Bytes) : Option Bytes :=
  if text.length = 32 then parseSimple text
  else if text.length = 36 then parseHyphenated text
  else if text.length = 38 ∧ text.head? = some 0x7b#8 ∧ text.getLast? = some 0x7d#8 then
    parseHyphenated (slice text 1 36)
  else if text.length = 45 ∧ text.take 9 = urnPrefix then parseHyphenated (text.drop 9)
  else none

/-- The first three fields with their bytes in the other order. -/
def swapFields (u : Bytes) : Bytes :=
  (u.take 4).reverse ++ (slice u 4 2).reverse ++ (slice u 6 2).reverse ++ u.drop 8

theorem swapFields_swapFields {u : Bytes} (h : u.length = 16) :
    (swapFields u).length = 16 ∧ swapFields (swapFields u) = u := by
  match u, h with
  | [_, _, _, _, _, _, _, _, _, _, _, _, _, _, _, _], _ => exact ⟨rfl, rfl⟩

def uuidFromBytesLe (raw : Bytes) : { u : Bytes // u.length = 16 } :=
  if h : (swapFields raw).length = 16 then ⟨swapFields raw, h⟩ else ⟨List.replicate 16 0, rfl⟩

theorem uuidFromBytesLe_swapFields (u : { u : Bytes // u.length = 16 }) :
    uuidFromBytesLe (swapFields u) = u := by
  have hback := (swapFields_swapFields u.2).2
  have hlength : (swapFields (swapFields u)).length = 16 := by rw [hback]; exact u.2
  rw [uuidFromBytesLe, dif_pos hlength]
  exact Subtype.ext hback

/-- UUIDs as their sixteen bytes. -/
def uuidBytes : UuidCrate where
  Uuid := { u : Bytes // u.length = 16 }
  parseStr value :=
    match parseUuid value.bytes with
    | none => none
    | some u => if h : u.length = 16 then some ⟨u, h⟩ else none
  hyphenated u := ⟨hyphens (hexText false u), hyphens_ascii (hexText_ascii false u)⟩
  simple u := ⟨hexText false u, hexText_ascii false u⟩
  toBytesLe u := swapFields u
  fromBytesLe := uuidFromBytesLe

theorem uuidBytes_lawful : uuidBytes.Lawful :=
  ⟨fun u => (swapFields_swapFields u.2).1, uuidFromBytesLe_swapFields⟩

/-- `67E55044-10B1-426F-9247-BB680E5FE0C8` -/
def capitalUuid : Str where
  bytes := hyphens (hexText true [0x67#8, 0xe5#8, 0x50#8, 0x44#8, 0x10#8, 0xb1#8, 0x42#8, 0x6f#8,
    0x92#8, 0x47#8, 0xbb#8, 0x68#8, 0x0e#8, 0x5f#8, 0xe0#8, 0xc8#8])
  valid := by decide

/-- A UUID in capital letters, with a byte behind it. -/
theorem readCompactId_writeCompactId_capital :
    ∃ written, writeCompactId uuidBytes ⟨[]⟩ capitalUuid = .ok ⟨written⟩ ∧ written.length = 18 ∧
      readCompactId uuidBytes (.new (written ++ [7#8])) =
        .ok (capitalUuid, ⟨written ++ [7#8], 18⟩) := by
  obtain ⟨written, hwrite, hread⟩ := readCompactId_writeCompactId uuidBytes uuidBytes_lawful
    capitalUuid (by decide) ⟨[]⟩
  have hlength : written.length = 18 := by
    have hlong : (writeCompactId uuidBytes ⟨[]⟩ capitalUuid).toOption.map (·.data.length) =
        some 18 := by decide
    rw [hwrite] at hlong
    exact Option.some.inj hlong
  refine ⟨written, hwrite, hlength, ?_⟩
  rw [hread _ [7#8] (NetReader.At.new _), hlength]
  rfl

end BasisRust.Protocol
