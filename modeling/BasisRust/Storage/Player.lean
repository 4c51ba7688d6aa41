import BasisRust.Library.Json
import BasisRust.Library.OrderedMap

/-!
# The record of a player

A player has scopes, and in each scope values under keys.  `applyRequest` is what every backend does
with a request once it has the record of the owner: it computes the reply and, for a request that
changes something, the next record.  How the record is kept and what it may cost in total is up to
the backends.
-/

namespace BasisRust.Storage

open Library

def maxBytesPerPlayer : ℕ := 1048576

structure PlayerRecord where
  owner : String
  scopes : OrderedMap String (OrderedMap String Bytes)
  deriving DecidableEq

namespace PlayerRecord

/-- The record of an owner who has nothing. -/
def new (owner : String) : PlayerRecord := ⟨owner, .empty⟩

def entryUsed (x : String × Bytes) : ℕ := 3 + (utf8 x.1).length + x.2.length

def scopeUsed (x : String × OrderedMap String Bytes) : ℕ :=
  3 + (utf8 x.1).length + x.2.sum entryUsed

def used (record : PlayerRecord) : ℕ := record.scopes.sum scopeUsed

def entryCount (record : PlayerRecord) : ℕ := record.scopes.sum fun x => x.2.len

/-- The text of a map of values. -/
def entriesText (entries : OrderedMap String Bytes) : Bytes :=
  jsonObject (entries.entries.map fun x => (x.1, jsonBytes x.2))

def scopesText (scopes : OrderedMap String (OrderedMap String Bytes)) : Bytes :=
  jsonObject (scopes.entries.map fun x => (x.1, entriesText x.2))

/-- `serde_json::to_vec` of a record. -/
def toVec (record : PlayerRecord) : Bytes :=
  jsonObject [("owner", jsonString record.owner), ("scopes", scopesText record.scopes)]

def storageBytes (record : PlayerRecord) : ℕ :=
  if record.scopes.isEmpty then 0 else record.toVec.length

/-- The value under a key. -/
def value (record : PlayerRecord) (scope key : String) : Option Bytes :=
  (record.scopes.get scope).bind fun entries => entries.get key

end PlayerRecord

/-- Existing over-quota accounts can recover by reducing their usage. -/
def quotaAllows (current next limit : ℕ) : Bool := limit = 0 || next ≤ limit || next < current

inductive StorageOp where
  | get
  | set
  | delete
  | keys
  | usage
  | clear
  deriving DecidableEq

inductive StorageStatus where
  | ok
  | notFound
  | denied
  | full
  | rateLimited
  | invalid
  | unavailable
  | busy
  | timedOut
  | notConnected
  | notAllowed
  deriving DecidableEq

structure StorageRequest where
  op : StorageOp
  id : BitVec 16
  scope : String
  key : String
  value : Bytes
  deriving DecidableEq

structure StorageReply where
  op : StorageOp
  id : BitVec 16
  status : StorageStatus
  used : ℤ
  limit : ℤ
  value : Bytes
  keys : List String
  deriving DecidableEq

/-- `as i32`. -/
def asI32 (n : ℕ) : ℤ := (BitVec.ofNat 32 n).toInt

def StorageRequest.isWrite (request : StorageRequest) : Bool :=
  request.op = .set || request.op = .delete || request.op = .clear

/-- The record after a request that changes it, or the status it is answered with at once. -/
def change (record : PlayerRecord) (request : StorageRequest) : Except StorageStatus PlayerRecord :=
  match request.op with
  | .set =>
    let entries := (record.scopes.get request.scope).getD .empty
    if (record.scopes.get request.scope).isNone && 64 ≤ record.scopes.len then .error .full
    else if (entries.get request.key).isNone && 1024 ≤ record.entryCount then .error .full
    else .ok { record with
      scopes := record.scopes.insert request.scope (entries.insert request.key request.value) }
  | .delete =>
    match record.scopes.get request.scope with
    | none => .error .notFound
    | some entries =>
      if (entries.get request.key).isNone then .error .notFound
      else if (entries.erase request.key).isEmpty then
        .ok { record with scopes := record.scopes.erase request.scope }
      else
        .ok { record with
          scopes := record.scopes.insert request.scope (entries.erase request.key) }
  | .clear =>
    if (record.scopes.get request.scope).isNone then .error .ok
    else .ok { record with scopes := record.scopes.erase request.scope }
  | .get | .keys | .usage => .error .ok

def applyRequest (record : PlayerRecord) (request : StorageRequest) (limit : ℕ) :
    StorageReply × Option PlayerRecord :=
  let reply : StorageReply := ⟨request.op, request.id, .ok, asI32 record.used, asI32 limit, [], []⟩
  match request.op with
  | .get =>
    match record.value request.scope request.key with
    | some value => ({ reply with value }, none)
    | none => ({ reply with status := .notFound }, none)
  | .keys =>
    ({ reply with keys := ((record.scopes.get request.scope).map OrderedMap.keys).getD [] }, none)
  | .usage => (reply, none)
  | .set | .delete | .clear =>
    match change record request with
    | .error status => ({ reply with status }, none)
    | .ok next =>
      if quotaAllows record.used next.used limit then
        ({ reply with used := asI32 next.used }, some next)
      else ({ reply with status := .full }, none)

end BasisRust.Storage
