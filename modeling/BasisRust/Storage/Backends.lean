import BasisRust.Library.Calls
import BasisRust.Storage.Files

/-!
# The backends of the player storage

`PlayerStorage` keeps the records in memory, or in files when it has a root.  `SqlStorage` keeps
them in a table, with a usage row that row triggers maintain; the operations for the two databases
differ in their locks only.  All of them ask the rate limiter first and leave the request itself to
`applyRequest`.

`Reference` is what they are for: a map from owners to records, without counters.  The total is
added up anew for every request.

The rate limiter computes with floating-point numbers and the time; it is a parameter here, the same
for all backends.  File and database operations succeed.
-/

namespace BasisRust.Storage

open Library

/-- A call of `execute` and the time it is made at. -/
structure StorageCall (τ : Type) where
  owner : String
  request : StorageRequest
  perPlayerLimit : ℕ
  totalLimit : ℕ
  now : τ

/-- The rate limiter: its state at the start, and `consume`. -/
structure Limiter (β τ : Type) where
  init : β
  consume : β → τ → String → Bool → ℕ → ℕ → Bool × β

section

variable {β τ : Type}

namespace StorageCall

def limit (call : StorageCall τ) : ℕ := min (max call.perPlayerLimit 1) maxBytesPerPlayer

/-- The reply to a call that is not carried out. -/
def refusal (call : StorageCall τ) (status : StorageStatus) : StorageReply :=
  ⟨call.request.op, call.request.id, status, 0, asI32 call.limit, [], []⟩

def isDenied (call : StorageCall τ) : Bool :=
  (utf8 call.owner).isEmpty || 4096 < (utf8 call.owner).length

def bytes (call : StorageCall τ) : ℕ :=
  if call.request.op = .set then call.request.value.length else 0

end StorageCall

def Limiter.ask (limiter : Limiter β τ) (budgets : β) (call : StorageCall τ) : Bool × β :=
  limiter.consume budgets call.now call.owner call.request.isWrite call.bytes call.limit

/-- What every `execute` begins with; `carryOut` is the rest of it. -/
def serve {σ : Type} (limiter : Limiter β τ) (budgets : σ → β) (setBudgets : σ → β → σ)
    (carryOut : σ → StorageCall τ → σ × StorageReply) (s : σ) (call : StorageCall τ) :
    σ × StorageReply :=
  if call.isDenied then (s, call.refusal .denied)
  else
    let (allowed, budgets) := limiter.ask (budgets s) call
    let s := setBudgets s budgets
    if allowed then carryOut s call else (s, call.refusal .rateLimited)

def saturatingAdd (a b : ℕ) : ℕ := min (a + b) usizeMax

/-- The reply when the total does not allow the next record. -/
def StorageReply.full (reply : StorageReply) (record : PlayerRecord) : StorageReply :=
  { reply with
    status := .full
    used := asI32 record.used }

/-! ### Memory and files -/

/-- Only the memory backend retains records; files are read on demand. -/
structure PlayerStorage (β : Type) where
  root : Option Directory
  records : List (String × PlayerRecord)
  memoryBytes : ℕ
  budgets : β

variable (digest : String → String) (serde : Serde) (limiter : Limiter β τ)

namespace PlayerStorage

def newMemory : PlayerStorage β := ⟨none, [], 0, limiter.init⟩

/-- Open an empty directory. -/
def newFile : PlayerStorage β :=
  ⟨some (restart digest serde ⟨[], none⟩ []).2.1, [], 0, limiter.init⟩

def readAccount (root : Option Directory) (owner : String) : Option PlayerRecord :=
  match root with
  | none => some (.new owner)
  | some dir =>
    match assocGet (digest owner) dir.accounts with
    | none => some (.new owner)
    | some bytes => (serde.fromSlice bytes).filter fun record => record.owner = owner

def record (s : PlayerStorage β) (owner : String) : Option PlayerRecord :=
  match assocGet owner s.records with
  | some record => some record
  | none => readAccount digest serde s.root owner

/-- Keep the next record in memory. -/
def keep (s : PlayerStorage β) (call : StorageCall τ) (record next : PlayerRecord)
    (reply : StorageReply) : PlayerStorage β × StorageReply :=
  let nextBytes := saturatingAdd (s.memoryBytes - record.storageBytes) next.storageBytes
  if quotaAllows s.memoryBytes nextBytes call.totalLimit then
    ({ s with
      memoryBytes := nextBytes
      records := assocPut call.owner (if next.scopes.isEmpty then none else some next) s.records },
      reply)
  else (s, reply.full record)

/-- Keep the next record in its file. -/
def save (s : PlayerStorage β) (dir : Directory) (call : StorageCall τ) (record next : PlayerRecord)
    (reply : StorageReply) : PlayerStorage β × StorageReply :=
  match saveAccount digest serde call.owner next call.totalLimit dir [] with
  | (.ok _, dir', _) => ({ s with root := some dir' }, reply)
  | (.error e, dir', _) =>
    ({ s with root := some dir' }, { reply with
      status := if e = .quotaExceeded then .full else .unavailable
      used := asI32 record.used })

def carryOut (s : PlayerStorage β) (call : StorageCall τ) : PlayerStorage β × StorageReply :=
  match s.record digest serde call.owner with
  | none => (s, call.refusal .unavailable)
  | some record =>
    match applyRequest record call.request call.limit with
    | (reply, none) => (s, reply)
    | (reply, some next) =>
      match s.root with
      | some dir => s.save digest serde dir call record next reply
      | none => s.keep call record next reply

def execute : PlayerStorage β → StorageCall τ → PlayerStorage β × StorageReply :=
  serve limiter budgets (fun s budgets => { s with budgets }) (carryOut digest serde)

end PlayerStorage

/-! ### Tables -/

structure SqlStorage (β : Type) where
  rows : List (String × Bytes)
  used : ℕ
  limits : β

namespace SqlStorage

def new : SqlStorage β := ⟨[], 0, limiter.init⟩

def decodeRecord (data : Option Bytes) (owner : String) : Option PlayerRecord :=
  match data with
  | some bytes => (serde.fromSlice bytes).filter fun record => record.owner = owner
  | none => some (.new owner)

def existingSize (s : SqlStorage β) (owner : String) : ℕ :=
  (assocGet owner s.rows).elim 0 List.length

/-- `INSERT` or `UPDATE` of a row, with its trigger. -/
def upsert (s : SqlStorage β) (owner : String) (payload : Bytes) : SqlStorage β :=
  { s with
    rows := assocPut owner (some payload) s.rows
    used := s.used + payload.length - s.existingSize owner }

/-- `DELETE` of a row, with its trigger. -/
def delete (s : SqlStorage β) (owner : String) : SqlStorage β :=
  { s with
    rows := assocPut owner none s.rows
    used := s.used - s.existingSize owner }

/-- The transaction of one request. -/
def operation (s : SqlStorage β) (owner : String) (request : StorageRequest)
    (limit totalLimit : ℕ) :
    SqlStorage β × Option StorageReply :=
  match decodeRecord serde (assocGet owner s.rows) owner with
  | none => (s, none)
  | some record =>
    match applyRequest record request limit with
    | (reply, none) => (s, some reply)
    | (reply, some updated) =>
      let payload := saveBytes updated
      if quotaAllows s.used (saturatingAdd (s.used - s.existingSize owner) payload.length)
        totalLimit then
        (if payload.isEmpty then s.delete owner else s.upsert owner payload, some reply)
      else (s, some (reply.full record))

def postgresOperation := @operation β serde

def sqliteOperation := @operation β serde

def carryOut (operation : SqlStorage β → String → StorageRequest → ℕ → ℕ →
    SqlStorage β × Option StorageReply) (s : SqlStorage β) (call : StorageCall τ) :
    SqlStorage β × StorageReply :=
  match operation s call.owner call.request call.limit call.totalLimit with
  | (s', some reply) => (s', reply)
  | (s', none) => (s', call.refusal .unavailable)

/-- `execute` with the operation of the pool. -/
def execute (operation : SqlStorage β → String → StorageRequest → ℕ → ℕ →
    SqlStorage β × Option StorageReply) : SqlStorage β → StorageCall τ →
      SqlStorage β × StorageReply :=
  serve limiter limits (fun s limits => { s with limits }) (carryOut operation)

end SqlStorage

/-! ### The reference -/

structure Reference (β : Type) where
  records : List (String × PlayerRecord)
  budgets : β

namespace Reference

def new : Reference β := ⟨[], limiter.init⟩

def record (s : Reference β) (owner : String) : PlayerRecord :=
  (assocGet owner s.records).getD (.new owner)

def total (s : Reference β) : ℕ := assocSum (fun record => record.toVec.length) s.records

def put (s : Reference β) (owner : String) (next : PlayerRecord) : Reference β :=
  { s with records := assocPut owner (if next.scopes.isEmpty then none else some next) s.records }

def carryOut (s : Reference β) (call : StorageCall τ) : Reference β × StorageReply :=
  match applyRequest (s.record call.owner) call.request call.limit with
  | (reply, none) => (s, reply)
  | (reply, some next) =>
    if quotaAllows s.total (s.put call.owner next).total call.totalLimit then
      (s.put call.owner next, reply)
    else (s, reply.full (s.record call.owner))

def execute : Reference β → StorageCall τ → Reference β × StorageReply :=
  serve limiter budgets (fun s budgets => { s with budgets }) carryOut

/-- The total that the call leads to is one the backends can count to: files and the usage row do
not hold more. -/
def Fits (s : Reference β) (call : StorageCall τ) : Prop :=
  ∀ next ∈ (applyRequest (s.record call.owner) call.request call.limit).2,
    (s.put call.owner next).total ≤ usizeMax

instance (s : Reference β) (call : StorageCall τ) : Decidable (s.Fits call) :=
  inferInstanceAs
    (Decidable (∀ next ∈ (applyRequest (s.record call.owner) call.request call.limit).2,
    (s.put call.owner next).total ≤ usizeMax))

end Reference

end

end BasisRust.Storage
