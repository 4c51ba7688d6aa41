import BasisRust.Library.Text
import BasisRust.Storage.Files

/-!
# Legacy saves

`sql/legacy.rs` reads the BSTR v1 files of the former server: a header, a revision, the owner, the
scopes with their entries, and a checksum.  `decode` is the decoder; where the source would panic,
for an index out of range or an overflow, it gives `Halt.panic`.

The digest and the table of the general categories are those of other crates, and parameters here.

`enc` is the format: the bytes of a record whose scopes and entries are written in some order, if
every length fits in its field.
-/

namespace BasisRust.Storage

open Library

/-! ### Names -/

def maxNameBytes : ℕ := 64

/-- The general categories of characters, as far as names are concerned. -/
inductive GeneralCategory where
  | control
  | format
  | lineSeparator
  | paragraphSeparator
  | other
  deriving DecidableEq

/-- `valid_name`. -/
def validName (category : Char → GeneralCategory) (name : String) : Bool :=
  decide (utf8 name ≠ []) && decide ((utf8 name).length ≤ maxNameBytes) &&
    decide (trim name.toList = name.toList) && name.toList.all fun c => category c = .other

/-- `str::from_utf8`. -/
def strFromUtf8 (bytes : Bytes) : Option String :=
  String.fromUTF8? ⟨(bytes.map UInt8.ofBitVec).toArray⟩

/-- The digest of SHA-256. -/
structure Digest where
  bytes : Bytes
  length_eq : bytes.length = 32
  deriving DecidableEq

/-- `format!("{:x}", …)`. -/
def Digest.lowerHex (d : Digest) : String :=
  .ofList (d.bytes.flatMap fun b => [Nat.digitChar (b.toNat / 16), Nat.digitChar (b.toNat % 16)])

namespace Legacy

/-! ### The decoder -/

def maxBlob : ℕ := 18 + 256 + 2 + maxBytesPerPlayer + 32

inductive DecodeError where
  | lengthOverflow
  | truncated
  | nameLength
  | utf8
  | name
  | recordSize
  | header
  | checksum
  | negativeRevision
  | ownerLength
  | ownerHash
  | tooManyScopes
  | entryCount
  | duplicateKey
  | duplicateScope
  | trailing
  | playerLimit
  deriving DecidableEq

inductive Halt where
  | panic
  | failed (error : DecodeError)
  deriving DecidableEq

def ensure (p : Prop) [Decidable p] (error : DecodeError) : Except Halt Unit :=
  if p then .ok () else .error (.failed error)

/-- `bytes.get(start..stop)`. -/
def getRange (bytes : Bytes) (start stop : ℕ) : Option Bytes :=
  if start ≤ stop ∧ stop ≤ bytes.length then some (slice bytes start (stop - start)) else none

/-- `&bytes[start..stop]`. -/
def index (bytes : Bytes) (start stop : ℕ) : Except Halt Bytes :=
  match getRange bytes start stop with
  | some part => .ok part
  | none => .error .panic

/-- `a - b` on lengths. -/
def subtract (a b : ℕ) : Except Halt ℕ := if b ≤ a then .ok (a - b) else .error .panic

/-- `a + b` on lengths. -/
def add (a b : ℕ) : Except Halt ℕ := if a + b ≤ usizeMax then .ok (a + b) else .error .panic

/-- `i64::from_le_bytes`. -/
def asI64 (bytes : Bytes) : ℤ := (BitVec.ofNat 64 (leNat bytes)).toInt

structure Reader where
  bytes : Bytes
  pos : ℕ
  deriving DecidableEq

namespace Reader

def take (r : Reader) (length : ℕ) : Except Halt (Bytes × Reader) :=
  if usizeMax < r.pos + length then .error (.failed .lengthOverflow)
  else
    match getRange r.bytes r.pos (r.pos + length) with
    | some part => .ok (part, { r with pos := r.pos + length })
    | none => .error (.failed .truncated)

def u16 (r : Reader) : Except Halt (ℕ × Reader) := do
  let (part, r) ← r.take 2
  .ok (leNat part, r)

/-- The first of the bytes that were taken. -/
def first : Bytes → Except Halt ℕ
  | [] => .error .panic
  | b :: _ => .ok b.toNat

def text (bytes : Bytes) : Except Halt String :=
  match strFromUtf8 bytes with
  | some s => .ok s
  | none => .error (.failed .utf8)

def name (category : Char → GeneralCategory) (r : Reader) : Except Halt (String × Reader) := do
  let (part, r) ← r.take 1
  let length ← first part
  ensure (0 < length ∧ length ≤ maxNameBytes) .nameLength
  let (part, r) ← r.take length
  let name ← text part
  ensure (validName category name = true) .name
  .ok (name, r)

end Reader

section Decode

variable (sha256 : Bytes → Digest) (category : Char → GeneralCategory)

/-- The loop over the entries of a scope. -/
def readEntries : ℕ → OrderedMap String Bytes → Reader →
    Except Halt (OrderedMap String Bytes × Reader)
  | 0, values, r => .ok (values, r)
  | n + 1, values, r => do
    let (key, r) ← r.name category
    let (length, r) ← r.u16
    let (value, r) ← r.take length
    ensure (values.get key = none) .duplicateKey
    readEntries n (values.insert key value) r

/-- The loop over the scopes, with the number of entries so far. -/
def readScopes : ℕ → ℕ → OrderedMap String (OrderedMap String Bytes) → Reader →
    Except Halt (OrderedMap String (OrderedMap String Bytes) × Reader)
  | 0, _, scopes, r => .ok (scopes, r)
  | n + 1, entries, scopes, r => do
    let (scope, r) ← r.name category
    let (count, r) ← r.u16
    let entries ← add entries count
    ensure (0 < count ∧ entries ≤ 1024) .entryCount
    let (values, r) ← readEntries category count .empty r
    ensure (scopes.get scope = none) .duplicateScope
    readScopes n entries (scopes.insert scope values) r

/-- `b"BSTR\x01\0\0\0"`. -/
def header : Bytes := [0x42#8, 0x53#8, 0x54#8, 0x52#8, 0x01#8, 0x00#8, 0x00#8, 0x00#8]

def decode (blob : Bytes) (ownerKey : String) : Except Halt PlayerRecord := do
  ensure (52 ≤ blob.length ∧ blob.length ≤ maxBlob) .recordSize
  let stop ← subtract blob.length 32
  let start ← index blob 0 8
  ensure (start = header) .header
  let body ← index blob 0 stop
  let checksum ← index blob stop blob.length
  ensure ((sha256 body).bytes = checksum) .checksum
  let revision ← index blob 8 16
  ensure (0 ≤ asI64 revision) .negativeRevision
  let (ownerLength, r) ← Reader.u16 ⟨body, 16⟩
  ensure (1 ≤ ownerLength ∧ ownerLength ≤ 256) .ownerLength
  let (part, r) ← r.take ownerLength
  let owner ← Reader.text part
  ensure ((sha256 (utf8 owner)).lowerHex = ownerKey) .ownerHash
  let (count, r) ← r.u16
  ensure (count ≤ 64) .tooManyScopes
  let (scopes, r) ← readScopes category count 0 .empty r
  ensure (r.pos = stop) .trailing
  let record : PlayerRecord := ⟨owner, scopes⟩
  ensure (record.used ≤ maxBytesPerPlayer) .playerLimit
  .ok record

/-! ### The format -/

/-- The scopes in the order of a file, with their entries in its order. -/
abbrev Listing := List (String × List (String × Bytes))

/-- A listing of the scopes of a record. -/
def Lists (order : Listing) (record : PlayerRecord) : Prop :=
  ∃ scopes : List (String × OrderedMap String Bytes), scopes.Perm record.scopes.entries ∧
    List.Forall₂ (fun x y => x.1 = y.1 ∧ x.2.Perm y.2.entries) order scopes

def encName (name : String) : Bytes := leBytes 1 (utf8 name).length ++ utf8 name

def encEntry (x : String × Bytes) : Bytes := encName x.1 ++ leBytes 2 x.2.length ++ x.2

def encScope (x : String × List (String × Bytes)) : Bytes :=
  encName x.1 ++ leBytes 2 x.2.length ++ x.2.flatMap encEntry

/-- The bytes between the revision and the checksum. -/
def encBody (owner : String) (order : Listing) : Bytes :=
  leBytes 2 (utf8 owner).length ++ utf8 owner ++ leBytes 2 order.length ++ order.flatMap encScope

/-- Every length fits in the field it is written to, and the revision in an `i64`. -/
def FitsFields (revision : ℕ) (owner : String) (order : Listing) : Prop :=
  revision < 2 ^ 63 ∧ (utf8 owner).length < 65536 ∧ order.length < 65536 ∧
    ∀ x ∈ order, (utf8 x.1).length < 256 ∧ x.2.length < 65536 ∧
      ∀ y ∈ x.2, (utf8 y.1).length < 256 ∧ y.2.length < 65536

instance (revision : ℕ) (owner : String) (order : Listing) :
    Decidable (FitsFields revision owner order) :=
  inferInstanceAs (Decidable (_ ∧ _ ∧ _ ∧ ∀ x ∈ order, _))

/-- The BSTR v1 file of an owner and a listing of the scopes. -/
def enc (revision : ℕ) (owner : String) (order : Listing) : Option Bytes :=
  if FitsFields revision owner order then
    let body := header ++ leBytes 8 revision ++ encBody owner order
    some (body ++ (sha256 body).bytes)
  else none

/-- What a save may contain under an owner key. -/
structure Storable (ownerKey : String) (record : PlayerRecord) : Prop where
  owner_pos : 1 ≤ (utf8 record.owner).length
  owner_le : (utf8 record.owner).length ≤ 256
  hash : (sha256 (utf8 record.owner)).lowerHex = ownerKey
  scopes_le : record.scopes.len ≤ 64
  nonempty : ∀ x ∈ record.scopes.entries, x.2.isEmpty = false
  entries_le : record.entryCount ≤ 1024
  scopeNames : ∀ x ∈ record.scopes.entries, validName category x.1 = true
  keyNames : ∀ x ∈ record.scopes.entries, ∀ y ∈ x.2.entries, validName category y.1 = true
  used_le : record.used ≤ maxBytesPerPlayer

end Decode

end Legacy

end BasisRust.Storage
