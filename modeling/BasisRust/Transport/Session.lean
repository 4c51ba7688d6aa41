import BasisRust.Library.Run
import BasisRust.Transport.Packet
import Mathlib.Logic.Function.Basic

/-!
# Peer ids, sessions and addresses

The session table of the transport: the map of live peers, the map from addresses to peer ids, the
free list of ids, the set of retired ids, and the read gate of every session.  A step of the system
is one section that the source runs under the allocation lock; `recycle_peer_id` does not take that
lock, so its three accesses are three steps.

`owed` is history: one entry for every retirement whose owner has not called `recycle_peer_id` yet.
A call to `recycle_peer_id` uses up one entry, which is the assumption that each retirement is
recycled at most once.
-/

namespace BasisRust.Transport

open Library

abbrev PeerId := BitVec 16

instance : LawfulBEq PeerId := inferInstance

def maxPendingRequests : ℕ := 4096

/-- `REQUEST_TTL` in milliseconds. -/
def requestTtl : ℕ := 10000

/-! ### The table -/

structure ConnectionRequest (Addr : Type) where
  remoteAddr : Addr
  connectionNumber : BitVec 2
  connectTime : ℤ
  deriving DecidableEq

structure PendingRequestInfo where
  connectTime : ℤ
  connectionNumber : BitVec 2
  expiresAt : ℕ
  deriving DecidableEq

/-- The part of a live peer's state that identifies it.  `session` stands for the identity of the
shared state object. -/
structure Peer (Addr : Type) where
  session : ℕ
  addr : Addr
  connectionNumber : BitVec 2
  connectTime : ℤ
  deriving DecidableEq

structure SessionReadGate where
  closed : Bool
  cleanupClaimed : Bool
  deriving DecidableEq

namespace SessionReadGate

def closeAdmission (gate : SessionReadGate) : SessionReadGate := { gate with closed := true }

/-- Closes the gate; the first caller gets the cleanup. -/
def closeAndClaimCleanup (gate : SessionReadGate) : SessionReadGate × Bool :=
  if gate.cleanupClaimed then ({ gate with closed := true }, false)
  else ({ closed := true, cleanupClaimed := true }, true)

end SessionReadGate

/-- An accept that has published its session and is sending the reply. -/
structure PendingAccept (Addr : Type) where
  peer : PeerId
  session : ℕ
  remoteAddr : Addr
  deriving DecidableEq

structure SessionTable (Addr : Type) where
  peers : PeerId → Option (Peer Addr)
  byAddr : Addr → Option PeerId
  reusablePeerIds : List PeerId
  retiredPeerIds : PeerId → Bool
  allocatedPeerIds : PeerId → Bool
  nextPeerId : PeerId
  pendingRequests : List (Addr × PendingRequestInfo)
  readGate : ℕ → SessionReadGate
  /-- The number of state objects created so far. -/
  sessions : ℕ
  accepting : List (PendingAccept Addr)
  /-- Retirements that are still to be recycled by their owner. -/
  owed : List PeerId
  /-- Calls of `recycle_peer_id` that have passed the liveness check. -/
  recycleChecked : List PeerId
  /-- Calls of `recycle_peer_id` that have taken the id out of the retired set. -/
  recycleTaken : List PeerId

namespace SessionTable

variable {Addr : Type} [DecidableEq Addr]

def empty : SessionTable Addr where
  peers _ := none
  byAddr _ := none
  reusablePeerIds := []
  retiredPeerIds _ := false
  allocatedPeerIds _ := false
  nextPeerId := 0
  pendingRequests := []
  readGate _ := ⟨false, false⟩
  sessions := 0
  accepting := []
  owed := []
  recycleChecked := []
  recycleTaken := []

/-! ### Allocation -/

/-- The loop over the free list: the id found, if any, and what is left of the list. -/
def popReusable (t : SessionTable Addr) : List PeerId → Option PeerId × List PeerId
  | [] => (none, [])
  | id :: rest =>
    if (t.peers id).isNone && !t.retiredPeerIds id then (some id, rest) else t.popReusable rest

/-- The scan of `allocate_fresh_peer_id`: the id found, if any, and the counter afterwards.  The
counter wraps. -/
def scanFresh (t : SessionTable Addr) : ℕ → PeerId → Option PeerId × PeerId
  | 0, next => (none, next)
  | fuel + 1, next =>
    if !t.allocatedPeerIds next && (t.peers next).isNone && !t.retiredPeerIds next then
      (some next, next + 1)
    else t.scanFresh fuel (next + 1)

def allocatePeerId (t : SessionTable Addr) : Option PeerId × SessionTable Addr :=
  match t.popReusable t.reusablePeerIds with
  | (some id, rest) => (some id, { t with reusablePeerIds := rest })
  | (none, rest) =>
    match t.scanFresh 65536 t.nextPeerId with
    | (some id, next) =>
      (some id, { t with
        reusablePeerIds := rest
        nextPeerId := next
        allocatedPeerIds := Function.update t.allocatedPeerIds id true })
    | (none, next) => (none, { t with reusablePeerIds := rest, nextPeerId := next })

def removePendingRequest (t : SessionTable Addr) (request : ConnectionRequest Addr) :
    SessionTable Addr :=
  { t with
    pendingRequests := t.pendingRequests.filter fun entry =>
      !(decide (entry.1 = request.remoteAddr) &&
        entry.2.connectTime == request.connectTime &&
        entry.2.connectionNumber == request.connectionNumber) }

/-- The locked section of `accept_session_with_seal`; a stale or failed admission only drops the
pending request (and what the allocation went through). -/
def acceptSession (t : SessionTable Addr) (request : ConnectionRequest Addr) : SessionTable Addr :=
  let t := t.removePendingRequest request
  if (t.byAddr request.remoteAddr).isSome then t
  else
    match t.allocatePeerId with
    | (none, t) => t
    | (some id, t) =>
      let peer : Peer Addr :=
        ⟨t.sessions, request.remoteAddr, request.connectionNumber, request.connectTime⟩
      { t with
        byAddr := Function.update t.byAddr request.remoteAddr (some id)
        peers := Function.update t.peers id (some peer)
        readGate := Function.update t.readGate t.sessions ⟨false, false⟩
        sessions := t.sessions + 1
        accepting := ⟨id, t.sessions, request.remoteAddr⟩ :: t.accepting }

/-! ### Retirement -/

def retirePeerId (t : SessionTable Addr) (id : PeerId) : SessionTable Addr :=
  { t with
    retiredPeerIds := Function.update t.retiredPeerIds id true
    owed := id :: t.owed }

/-- Remove the peer and the address entry, and retire the id. -/
def removePeer (t : SessionTable Addr) (id : PeerId) (addr : Addr) : SessionTable Addr :=
  retirePeerId { t with
    peers := Function.update t.peers id none
    byAddr := Function.update t.byAddr addr none } id

def closeGate (t : SessionTable Addr) (session : ℕ) : SessionTable Addr :=
  { t with readGate := Function.update t.readGate session (t.readGate session).closeAdmission }

def claimGate (t : SessionTable Addr) (session : ℕ) : SessionTable Addr :=
  { t with readGate :=
    Function.update t.readGate session (t.readGate session).closeAndClaimCleanup.1 }

/-- The rollback of an accept whose reply could not be sent. -/
def rollbackAccept (t : SessionTable Addr) (a : PendingAccept Addr) : SessionTable Addr :=
  match t.peers a.peer with
  | none => t
  | some current =>
    if current.session = a.session then
      if (t.readGate a.session).closeAndClaimCleanup.2 then
        let t := t.claimGate a.session
        let removed := { t with peers := Function.update t.peers a.peer none }
        retirePeerId
          (if removed.byAddr a.remoteAddr = some a.peer then
            { removed with byAddr := Function.update removed.byAddr a.remoteAddr none }
          else removed) a.peer
      else t.claimGate a.session
    else t

/-- The locked section of a connect request.  `permits` says whether the event queues had room.  A
newer request from an address with a live session replaces that session. -/
def connectRequest (t : SessionTable Addr) (request : ConnectionRequest Addr) (now : ℕ)
    (permits : Bool) : SessionTable Addr :=
  let oldPeer := (t.byAddr request.remoteAddr).bind fun id => (t.peers id).map fun p => (id, p)
  let stale := match oldPeer with
    | some (_, p) => decide (request.connectTime ≤ p.connectTime)
    | none => false
  if stale then t
  else
    let pending := t.pendingRequests.filter fun entry => decide (now < entry.2.expiresAt)
    let t := { t with pendingRequests := pending }
    if (pending.any fun entry => decide (entry.1 = request.remoteAddr)) ||
        decide (maxPendingRequests ≤ pending.length) then t
    else if !permits then t
    else
      let info : PendingRequestInfo :=
        ⟨request.connectTime, request.connectionNumber, now + requestTtl⟩
      let t := { t with pendingRequests := (request.remoteAddr, info) :: pending }
      match oldPeer with
      | some (id, p) => (t.closeGate p.session).removePeer id p.addr
      | none => t

def disconnectSession (t : SessionTable Addr) (peer : PeerId) (session : ℕ) : SessionTable Addr :=
  match t.peers peer with
  | none => t
  | some state =>
    if state.session = session then
      if (t.readGate session).closeAndClaimCleanup.2 then
        (t.claimGate session).removePeer peer state.addr
      else t.claimGate session
    else t

def rejectFragmentSession (t : SessionTable Addr) (peer : PeerId) (session : ℕ)
    (permit : Bool) : SessionTable Addr :=
  if !permit then t
  else
    match t.peers peer with
    | none => t
    | some state =>
      if state.session ≠ session ∨ t.byAddr state.addr ≠ some peer ∨
          (t.readGate session).closed = true then t
      else (t.closeGate session).removePeer peer state.addr

/-- The connect time a disconnect packet carries. -/
def disconnectMatches (state : Peer Addr) (bytes : Bytes) (connectionNumber : BitVec 2) : Bool :=
  decide (9 ≤ bytes.length) && (connectionNumber == state.connectionNumber &&
    (BitVec.ofNat 64 (leNat (slice bytes 1 8))).toInt == state.connectTime)

/-- A remote `Disconnect` for the session that was looked up before the lock was taken. -/
def remoteDisconnect (t : SessionTable Addr) (remoteAddr : Addr) (peer : PeerId) (session : ℕ)
    (bytes : Bytes) (connectionNumber : BitVec 2) (permit : Bool) : SessionTable Addr :=
  if !permit then t
  else
    match t.peers peer with
    | none => t
    | some current =>
      if t.byAddr remoteAddr = some peer ∧ current.session = session ∧
          disconnectMatches current bytes connectionNumber = true then
        (t.closeGate session).removePeer peer remoteAddr
      else t

/-- One peer of the timeout scan; `expired` is the second look at the clock, under the lock. -/
def timeout (t : SessionTable Addr) (peer : PeerId) (expired permit : Bool) : SessionTable Addr :=
  if !permit then t
  else
    match t.peers peer with
    | none => t
    | some state =>
      if expired then (t.closeGate state.session).removePeer peer state.addr else t

end SessionTable

/-! ### Steps -/

inductive SessionAction (Addr : Type) where
  | accept (request : ConnectionRequest Addr)
  | acceptSent (a : PendingAccept Addr)
  | acceptFailed (a : PendingAccept Addr)
  | connectRequest (request : ConnectionRequest Addr) (now : ℕ) (permits : Bool)
  | closeSessionAdmission (session : ℕ)
  | disconnectSession (peer : PeerId) (session : ℕ)
  | rejectFragmentSession (peer : PeerId) (session : ℕ) (permit : Bool)
  | remoteDisconnect (remoteAddr : Addr) (peer : PeerId) (session : ℕ) (bytes : Bytes)
      (connectionNumber : BitVec 2) (permit : Bool)
  | timeout (peer : PeerId) (expired permit : Bool)
  | recycle (peer : PeerId)
  | recycleTake (peer : PeerId)
  | recyclePush (peer : PeerId)

variable {Addr : Type} [DecidableEq Addr]

def sessionStep (t : SessionTable Addr) : SessionAction Addr → Option (SessionTable Addr)
  | .accept request => some (t.acceptSession request)
  | .acceptSent a =>
    if a ∈ t.accepting then some { t with accepting := t.accepting.erase a } else none
  | .acceptFailed a =>
    if a ∈ t.accepting then
      some (SessionTable.rollbackAccept { t with accepting := t.accepting.erase a } a)
    else none
  | .connectRequest request now permits => some (t.connectRequest request now permits)
  | .closeSessionAdmission session => some (t.claimGate session)
  | .disconnectSession peer session => some (t.disconnectSession peer session)
  | .rejectFragmentSession peer session permit =>
    some (t.rejectFragmentSession peer session permit)
  | .remoteDisconnect remoteAddr peer session bytes connectionNumber permit =>
    some (t.remoteDisconnect remoteAddr peer session bytes connectionNumber permit)
  | .timeout peer expired permit => some (t.timeout peer expired permit)
  -- a call on a live id returns at once; any other call belongs to a retirement
  | .recycle peer =>
    if (t.peers peer).isSome then some t
    else if peer ∈ t.owed then
      some { t with owed := t.owed.erase peer, recycleChecked := peer :: t.recycleChecked }
    else none
  | .recycleTake peer =>
    if peer ∈ t.recycleChecked then
      let checked := t.recycleChecked.erase peer
      if t.retiredPeerIds peer then
        some { t with
          recycleChecked := checked
          retiredPeerIds := Function.update t.retiredPeerIds peer false
          recycleTaken := peer :: t.recycleTaken }
      else some { t with recycleChecked := checked }
    else none
  | .recyclePush peer =>
    if peer ∈ t.recycleTaken then
      some { t with
        recycleTaken := t.recycleTaken.erase peer
        reusablePeerIds :=
          if peer ∈ t.reusablePeerIds then t.reusablePeerIds else t.reusablePeerIds ++ [peer] }
    else none

def sessionSystem (Addr : Type) [DecidableEq Addr] :
    System (SessionTable Addr) (SessionAction Addr) where
  init t := t = SessionTable.empty
  step := sessionStep

/-! ### The invariant -/

/-- The ids of the free list, and those a recycle call is about to put there. -/
def SessionTable.pool (t : SessionTable Addr) : List PeerId := t.reusablePeerIds ++ t.recycleTaken

/-- The retirements that no recycle call has taken out of the retired set yet. -/
def SessionTable.outstanding (t : SessionTable Addr) : List PeerId := t.owed ++ t.recycleChecked

/-- **The session invariant.** -/
structure SessionInv (t : SessionTable Addr) : Prop where
  inverse : ∀ addr id, t.byAddr addr = some id ↔ ∃ p, t.peers id = some p ∧ p.addr = addr
  created : ∀ id p, t.peers id = some p → p.session < t.sessions
  distinct : ∀ id id' p p', t.peers id = some p → t.peers id' = some p' →
    p.session = p'.session → id = id'
  live : ∀ id p, t.peers id = some p → t.allocatedPeerIds id = true ∧ t.retiredPeerIds id = false
  retired : ∀ id, t.retiredPeerIds id = true → t.allocatedPeerIds id = true
  pooled : ∀ id ∈ t.pool,
    t.peers id = none ∧ t.retiredPeerIds id = false ∧ t.allocatedPeerIds id = true
  pool_nodup : t.pool.Nodup
  covered : ∀ id, t.allocatedPeerIds id = true →
    (t.peers id).isSome = true ∨ t.retiredPeerIds id = true ∨ id ∈ t.pool
  outstanding_retired : ∀ id ∈ t.outstanding, t.retiredPeerIds id = true
  outstanding_nodup : t.outstanding.Nodup

/-- Every session that is new in `t'` has an id that was neither live nor retired in `t`. -/
def IssuesFree (t t' : SessionTable Addr) : Prop :=
  ∀ id p, t'.peers id = some p → t.peers id ≠ some p →
    t.peers id = none ∧ t.retiredPeerIds id = false

/-- A step that issues nothing: the sessions of `t'` are sessions of `t`. -/
structure Shrinks (t t' : SessionTable Addr) : Prop where
  peers : ∀ id p, t'.peers id = some p → t.peers id = some p
  accepting : ∀ a ∈ t'.accepting, a ∈ t.accepting
  sessions : t'.sessions = t.sessions

/-- While the session of an unfinished accept is live, it carries the address of the request. -/
def AcceptInv (t : SessionTable Addr) : Prop :=
  ∀ a ∈ t.accepting, a.session < t.sessions ∧
    ∀ id p, t.peers id = some p → p.session = a.session → p.addr = a.remoteAddr

namespace Shrinks

variable {t t' : SessionTable Addr}

omit [DecidableEq Addr] in
theorem of_eq (hp : t'.peers = t.peers) (ha : t'.accepting = t.accepting)
    (hs : t'.sessions = t.sessions) : Shrinks t t' :=
  ⟨fun _ _ h => hp ▸ h, fun _ h => ha ▸ h, hs⟩

omit [DecidableEq Addr] in
theorem trans {t'' : SessionTable Addr} (h : Shrinks t t') (h' : Shrinks t' t'') : Shrinks t t'' :=
  ⟨fun id p hp => h.peers id p (h'.peers id p hp), fun a ha => h.accepting a (h'.accepting a ha),
    h'.sessions.trans h.sessions⟩

theorem removePeer (t : SessionTable Addr) (id : PeerId) (addr : Addr) :
    Shrinks t (t.removePeer id addr) := by
  refine ⟨fun x p hp => ?_, fun _ h => h, rfl⟩
  have hp : Function.update t.peers id none x = some p := hp
  by_cases hxi : x = id
  · rw [hxi, Function.update_self] at hp
    cases hp
  · rwa [Function.update_of_ne hxi] at hp

omit [DecidableEq Addr] in
theorem issuesFree (h : Shrinks t t') : IssuesFree t t' :=
  fun id p hp hne => absurd (h.peers id p hp) hne

omit [DecidableEq Addr] in
theorem acceptInv (h : Shrinks t t') (hinv : AcceptInv t) : AcceptInv t' := by
  intro a ha
  obtain ⟨hlt, haddr⟩ := hinv a (h.accepting a ha)
  exact ⟨h.sessions ▸ hlt, fun id p hp => haddr id p (h.peers id p hp)⟩

end Shrinks

namespace SessionInv

variable {t t' : SessionTable Addr} {id : PeerId} {p : Peer Addr}

omit [DecidableEq Addr] in
theorem empty : SessionInv (SessionTable.empty : SessionTable Addr) := by
  constructor <;> simp [SessionTable.empty, SessionTable.pool, SessionTable.outstanding]

omit [DecidableEq Addr] in
/-- Only the maps, the id sets and the recycle calls matter. -/
theorem of_eq (h : SessionInv t) (hpeers : t'.peers = t.peers) (haddr : t'.byAddr = t.byAddr)
    (hpool : t'.pool = t.pool) (hretired : t'.retiredPeerIds = t.retiredPeerIds)
    (hallocated : t'.allocatedPeerIds = t.allocatedPeerIds) (hsessions : t'.sessions = t.sessions)
    (hout : t'.outstanding = t.outstanding) : SessionInv t' := by
  constructor
  · rw [hpeers, haddr]; exact h.inverse
  · rw [hpeers, hsessions]; exact h.created
  · rw [hpeers]; exact h.distinct
  · rw [hpeers, hallocated, hretired]; exact h.live
  · rw [hretired, hallocated]; exact h.retired
  · rw [hpeers, hpool, hretired, hallocated]; exact h.pooled
  · rw [hpool]; exact h.pool_nodup
  · rw [hpeers, hpool, hretired, hallocated]; exact h.covered
  · rw [hout, hretired]; exact h.outstanding_retired
  · rw [hout]; exact h.outstanding_nodup

omit [DecidableEq Addr] in
theorem claimGate (h : SessionInv t) (session : ℕ) : SessionInv (t.claimGate session) :=
  h.of_eq rfl rfl rfl rfl rfl rfl rfl

omit [DecidableEq Addr] in
theorem closeGate (h : SessionInv t) (session : ℕ) : SessionInv (t.closeGate session) :=
  h.of_eq rfl rfl rfl rfl rfl rfl rfl

omit [DecidableEq Addr] in
/-- A live id has exactly the address its state carries. -/
theorem byAddr_of_live (h : SessionInv t) (hp : t.peers id = some p) :
    t.byAddr p.addr = some id :=
  (h.inverse p.addr id).mpr ⟨p, hp, rfl⟩

theorem removePeer (h : SessionInv t) (hp : t.peers id = some p) :
    SessionInv (t.removePeer id p.addr) := by
  have hlive := h.live id p hp
  have hout : id ∉ t.outstanding := by
    intro hmem
    have := h.outstanding_retired id hmem
    simp [hlive.2] at this
  have hne : ∀ {x q}, Function.update t.peers id none x = some q → x ≠ id ∧ t.peers x = some q := by
    intro x q hx
    by_cases hxi : x = id
    · rw [hxi, Function.update_self] at hx
      cases hx
    · rw [Function.update_of_ne hxi] at hx
      exact ⟨hxi, hx⟩
  constructor
  · intro addr x
    show Function.update t.byAddr p.addr none addr = some x ↔
      ∃ q, Function.update t.peers id none x = some q ∧ q.addr = addr
    constructor
    · intro hx
      by_cases ha : addr = p.addr
      · rw [ha, Function.update_self] at hx
        cases hx
      · rw [Function.update_of_ne ha] at hx
        obtain ⟨q, hq, hqa⟩ := (h.inverse addr x).mp hx
        have hxi : x ≠ id := by
          rintro rfl
          rw [hp] at hq
          injection hq with hq
          exact ha (by rw [← hqa, hq])
        exact ⟨q, by rw [Function.update_of_ne hxi, hq], hqa⟩
    · rintro ⟨q, hq, hqa⟩
      obtain ⟨hxi, hq⟩ := hne hq
      have hx := (h.inverse addr x).mpr ⟨q, hq, hqa⟩
      have ha : addr ≠ p.addr := by
        rintro rfl
        rw [h.byAddr_of_live hp] at hx
        injection hx with hx
        exact hxi hx.symm
      rw [Function.update_of_ne ha, hx]
  · intro x q hq
    exact h.created x q (hne hq).2
  · intro x y q r hq hr
    exact h.distinct x y q r (hne hq).2 (hne hr).2
  · intro x q hq
    obtain ⟨hxi, hq⟩ := hne hq
    refine ⟨(h.live x q hq).1, ?_⟩
    show Function.update t.retiredPeerIds id true x = false
    rw [Function.update_of_ne hxi]
    exact (h.live x q hq).2
  · intro x hx
    by_cases hxi : x = id
    · rw [hxi]
      exact hlive.1
    · refine h.retired x ?_
      rwa [show (t.removePeer id p.addr).retiredPeerIds x = t.retiredPeerIds x from
        Function.update_of_ne hxi _ _] at hx
  · intro x hx
    obtain ⟨hnone, hret, hall⟩ := h.pooled x hx
    have hxi : x ≠ id := by
      rintro rfl
      rw [hp] at hnone
      cases hnone
    refine ⟨?_, ?_, hall⟩
    · show Function.update t.peers id none x = none
      rw [Function.update_of_ne hxi, hnone]
    · show Function.update t.retiredPeerIds id true x = false
      rw [Function.update_of_ne hxi, hret]
  · exact h.pool_nodup
  · intro x hx
    show (Function.update t.peers id none x).isSome = true ∨
      Function.update t.retiredPeerIds id true x = true ∨ x ∈ t.pool
    by_cases hxi : x = id
    · rw [hxi, Function.update_self, Function.update_self]
      exact .inr (.inl rfl)
    · rw [Function.update_of_ne hxi, Function.update_of_ne hxi]
      exact h.covered x hx
  · intro x hx
    show Function.update t.retiredPeerIds id true x = true
    by_cases hxi : x = id
    · rw [hxi, Function.update_self]
    · rw [Function.update_of_ne hxi]
      refine h.outstanding_retired x ?_
      rcases List.mem_cons.mp hx with hx | hx
      · exact absurd hx hxi
      · exact hx
  · exact List.nodup_cons.mpr ⟨hout, h.outstanding_nodup⟩

/-- **Publication** of a new session under an id that is taken out of the pool or out of the ids
never allocated. -/
theorem publish (h : SessionInv t) {request : ConnectionRequest Addr}
    (haddr : t.byAddr request.remoteAddr = none) (hnone : t.peers id = none)
    (hretired : t.retiredPeerIds id = false)
    (hpeers : t'.peers = Function.update t.peers id (some ⟨t.sessions, request.remoteAddr,
      request.connectionNumber, request.connectTime⟩))
    (hby : t'.byAddr = Function.update t.byAddr request.remoteAddr (some id))
    (hallocated : ∀ x, t'.allocatedPeerIds x = true ↔ x = id ∨ t.allocatedPeerIds x = true)
    (hret : t'.retiredPeerIds = t.retiredPeerIds) (hsessions : t'.sessions = t.sessions + 1)
    (hout : t'.outstanding = t.outstanding) (hpool : ∀ x, x ∈ t'.pool ↔ x ≠ id ∧ x ∈ t.pool)
    (hnodup : t'.pool.Nodup) : SessionInv t' := by
  have hcase : ∀ {x q}, t'.peers x = some q →
      (x = id ∧ q.session = t.sessions ∧ q.addr = request.remoteAddr) ∨
        (x ≠ id ∧ t.peers x = some q) := by
    intro x q hx
    rw [hpeers] at hx
    by_cases hxi : x = id
    · rw [hxi, Function.update_self] at hx
      injection hx with hx
      subst hx
      exact .inl ⟨hxi, rfl, rfl⟩
    · rw [Function.update_of_ne hxi] at hx
      exact .inr ⟨hxi, hx⟩
  have hother : ∀ x, x ≠ id → t'.peers x = t.peers x := by
    intro x hxi
    rw [hpeers, Function.update_of_ne hxi]
  constructor
  · intro addr x
    rw [hby]
    constructor
    · intro hx
      by_cases ha : addr = request.remoteAddr
      · rw [ha, Function.update_self] at hx
        injection hx with hx
        subst hx
        exact ⟨_, by rw [hpeers, Function.update_self], ha.symm⟩
      · rw [Function.update_of_ne ha] at hx
        obtain ⟨q, hq, hqa⟩ := (h.inverse addr x).mp hx
        have hxi : x ≠ id := by
          rintro rfl
          rw [hnone] at hq
          cases hq
        exact ⟨q, by rw [hother x hxi, hq], hqa⟩
    · rintro ⟨q, hq, hqa⟩
      rcases hcase hq with ⟨rfl, -, hqa'⟩ | ⟨hxi, hq⟩
      · rw [← hqa, hqa', Function.update_self]
      · have hx := (h.inverse addr x).mpr ⟨q, hq, hqa⟩
        have ha : addr ≠ request.remoteAddr := by
          rintro rfl
          rw [haddr] at hx
          cases hx
        rw [Function.update_of_ne ha, hx]
  · intro x q hq
    rw [hsessions]
    rcases hcase hq with ⟨-, hs, -⟩ | ⟨-, hq⟩
    · omega
    · have := h.created x q hq
      omega
  · intro x y q r hq hr hsame
    rcases hcase hq with ⟨hxi, hs, -⟩ | ⟨hxi, hq'⟩
      <;> rcases hcase hr with ⟨hyi, hs', -⟩ | ⟨hyi, hr'⟩
    · rw [hxi, hyi]
    · have := h.created y r hr'
      omega
    · have := h.created x q hq'
      omega
    · exact h.distinct x y q r hq' hr' hsame
  · intro x q hq
    rw [hret]
    rcases hcase hq with ⟨rfl, -⟩ | ⟨-, hq⟩
    · exact ⟨(hallocated x).mpr (.inl rfl), hretired⟩
    · exact ⟨(hallocated x).mpr (.inr (h.live x q hq).1), (h.live x q hq).2⟩
  · intro x hx
    rw [hret] at hx
    exact (hallocated x).mpr (.inr (h.retired x hx))
  · intro x hx
    obtain ⟨hxi, hx⟩ := (hpool x).mp hx
    obtain ⟨hpn, hpr, hpa⟩ := h.pooled x hx
    exact ⟨by rw [hother x hxi, hpn], by rw [hret, hpr], (hallocated x).mpr (.inr hpa)⟩
  · exact hnodup
  · intro x hx
    by_cases hxi : x = id
    · refine .inl ?_
      rw [hpeers, hxi, Function.update_self]
      rfl
    · rcases (hallocated x).mp hx with hx | hx
      · exact absurd hx hxi
      · rw [hother x hxi, hret, hpool x]
        rcases h.covered x hx with hc | hc | hc
        · exact .inl hc
        · exact .inr (.inl hc)
        · exact .inr (.inr ⟨hxi, hc⟩)
  · rw [hout, hret]
    exact h.outstanding_retired
  · rw [hout]
    exact h.outstanding_nodup

omit [DecidableEq Addr] in
/-- The free list holds only ids that can be issued, so the loop takes its first element. -/
theorem popReusable_eq (h : SessionInv t) :
    t.popReusable t.reusablePeerIds =
      match t.reusablePeerIds with
      | [] => (none, [])
      | id :: rest => (some id, rest) := by
  cases hr : t.reusablePeerIds with
  | nil => rfl
  | cons id rest =>
    obtain ⟨hnone, hret, -⟩ := h.pooled id (by simp [SessionTable.pool, hr])
    simp [SessionTable.popReusable, hnone, hret]

omit [DecidableEq Addr] in
/-- What the scan finds was never allocated. -/
theorem scanFresh_some (t : SessionTable Addr) (fuel : ℕ) (start next : PeerId)
    (hscan : t.scanFresh fuel start = (some id, next)) :
    t.allocatedPeerIds id = false ∧ t.peers id = none ∧ t.retiredPeerIds id = false := by
  induction fuel generalizing start with
  | zero => cases hscan
  | succ fuel ih =>
    rw [SessionTable.scanFresh] at hscan
    split_ifs at hscan with hfree
    · cases hscan
      simpa [Bool.and_eq_true, and_assoc] using hfree
    · exact ih _ hscan

/-- **Accepting** keeps the invariant, and the id it issues was neither live nor retired. -/
theorem acceptSession (h : SessionInv t) (request : ConnectionRequest Addr) :
    SessionInv (t.acceptSession request) ∧ IssuesFree t (t.acceptSession request) := by
  have hpend : SessionInv (t.removePendingRequest request) := h.of_eq rfl rfl rfl rfl rfl rfl rfl
  unfold SessionTable.acceptSession
  dsimp only
  split_ifs with hmapped
  · exact ⟨hpend, fun x q hq hne => absurd hq hne⟩
  · have haddr : t.byAddr request.remoteAddr = none := by
      simpa [SessionTable.removePendingRequest] using hmapped
    have hissued : ∀ {id : PeerId} {p : Peer Addr} {x : PeerId} {q : Peer Addr},
        t.peers id = none → t.retiredPeerIds id = false →
        Function.update t.peers id (some p) x = some q → t.peers x ≠ some q →
        t.peers x = none ∧ t.retiredPeerIds x = false := by
      intro id p x q hnone hret hq hne
      by_cases hxi : x = id
      · rw [hxi]
        exact ⟨hnone, hret⟩
      · rw [Function.update_of_ne hxi] at hq
        exact absurd hq hne
    unfold SessionTable.allocatePeerId
    rw [popReusable_eq hpend]
    cases hr : t.reusablePeerIds with
    | cons id rest =>
      simp only [SessionTable.removePendingRequest, hr]
      have hmem : id ∈ t.pool := by simp [SessionTable.pool, hr]
      obtain ⟨hnone, hret, hall⟩ := h.pooled id hmem
      have hnodup := h.pool_nodup
      rw [SessionTable.pool, hr, List.cons_append, List.nodup_cons] at hnodup
      refine ⟨h.publish haddr hnone hret rfl rfl ?_ rfl rfl rfl ?_ hnodup.2, ?_⟩
      · intro x
        constructor
        · exact .inr
        · rintro (rfl | hx)
          · exact hall
          · exact hx
      · intro x
        show x ∈ rest ++ t.recycleTaken ↔ _
        rw [SessionTable.pool, hr, List.cons_append, List.mem_cons]
        constructor
        · intro hx
          refine ⟨?_, .inr hx⟩
          rintro rfl
          exact hnodup.1 hx
        · rintro ⟨hxi, hx | hx⟩
          · exact absurd hx hxi
          · exact hx
      · exact fun x q => hissued hnone hret
    | nil =>
      simp only [SessionTable.removePendingRequest, hr]
      generalize hscan : SessionTable.scanFresh _ _ _ = result
      obtain ⟨found, next⟩ := result
      cases found with
      | none => exact ⟨h.of_eq rfl rfl (by simp [SessionTable.pool, hr]) rfl rfl rfl rfl,
          fun x q hq hne => absurd hq hne⟩
      | some id =>
        obtain ⟨hall, hnone, hret⟩ := scanFresh_some _ _ _ _ hscan
        have hpool : id ∉ t.pool := by
          intro hmem
          have := (h.pooled id hmem).2.2
          rw [hall] at this
          cases this
        have hsame : t.pool = t.recycleTaken := by simp [SessionTable.pool, hr]
        refine ⟨h.publish haddr hnone hret rfl rfl ?_ rfl rfl rfl ?_ ?_, ?_⟩
        · intro x
          show Function.update t.allocatedPeerIds id true x = true ↔ _
          by_cases hxi : x = id
          · simp [hxi]
          · rw [Function.update_of_ne hxi]
            simp [hxi]
        · intro x
          show x ∈ t.recycleTaken ↔ _
          rw [← hsame]
          constructor
          · intro hx
            refine ⟨?_, hx⟩
            rintro rfl
            exact hpool hx
          · exact And.right
        · show t.recycleTaken.Nodup
          rw [← hsame]
          exact h.pool_nodup
        · exact fun x q => hissued hnone hret

/-- Every removal of a live session keeps the invariant and issues nothing. -/
theorem remove_ok (h : SessionInv t') (t : SessionTable Addr) (hshrinks : Shrinks t t')
    (hp : t'.peers id = some p) :
    SessionInv (t'.removePeer id p.addr) ∧ Shrinks t (t'.removePeer id p.addr) :=
  ⟨h.removePeer hp, hshrinks.trans (.removePeer t' id p.addr)⟩

omit [DecidableEq Addr] in
theorem claim_ok (h : SessionInv t) (session : ℕ) :
    SessionInv (t.claimGate session) ∧ Shrinks t (t.claimGate session) :=
  ⟨h.claimGate session, .of_eq rfl rfl rfl⟩

omit [DecidableEq Addr] in
theorem unchanged_ok (h : SessionInv t) : SessionInv t ∧ Shrinks t t := ⟨h, .of_eq rfl rfl rfl⟩

section

variable (h : SessionInv t)
include h

theorem disconnectSession_ok (peer : PeerId) (session : ℕ) :
    SessionInv (t.disconnectSession peer session) ∧
      Shrinks t (t.disconnectSession peer session) := by
  unfold SessionTable.disconnectSession
  split
  · exact h.unchanged_ok
  · rename_i state hstate
    split_ifs
    · exact (h.claimGate session).remove_ok t (.of_eq rfl rfl rfl) hstate
    · exact h.claim_ok session
    · exact h.unchanged_ok

theorem rejectFragmentSession_ok (peer : PeerId) (session : ℕ) (permit : Bool) :
    SessionInv (t.rejectFragmentSession peer session permit) ∧
      Shrinks t (t.rejectFragmentSession peer session permit) := by
  unfold SessionTable.rejectFragmentSession
  split_ifs
  · exact h.unchanged_ok
  · split
    · exact h.unchanged_ok
    · rename_i state hstate
      split_ifs
      · exact h.unchanged_ok
      · exact (h.closeGate session).remove_ok t (.of_eq rfl rfl rfl) hstate

theorem remoteDisconnect_ok (remoteAddr : Addr) (peer : PeerId) (session : ℕ) (bytes : Bytes)
    (connectionNumber : BitVec 2) (permit : Bool) :
    SessionInv (t.remoteDisconnect remoteAddr peer session bytes connectionNumber permit) ∧
      Shrinks t
        (t.remoteDisconnect remoteAddr peer session bytes connectionNumber permit) := by
  unfold SessionTable.remoteDisconnect
  split_ifs
  · exact h.unchanged_ok
  · split
    · exact h.unchanged_ok
    · rename_i current hcurrent
      split_ifs with hcheck
      · -- the address that maps to the peer is the one its state carries
        obtain ⟨q, hq, hqa⟩ := (h.inverse remoteAddr peer).mp hcheck.1
        rw [hcurrent] at hq
        injection hq with hq
        subst hq hqa
        exact (h.closeGate session).remove_ok t (.of_eq rfl rfl rfl) hcurrent
      · exact h.unchanged_ok

theorem timeout_ok (peer : PeerId) (expired permit : Bool) :
    SessionInv (t.timeout peer expired permit) ∧ Shrinks t (t.timeout peer expired permit) := by
  unfold SessionTable.timeout
  split
  · exact h.unchanged_ok
  · split
    · exact h.unchanged_ok
    · rename_i state hstate
      split_ifs
      · exact (h.closeGate state.session).remove_ok t (.of_eq rfl rfl rfl) hstate
      · exact h.unchanged_ok

theorem connectRequest_ok (request : ConnectionRequest Addr) (now : ℕ) (permits : Bool) :
    SessionInv (t.connectRequest request now permits) ∧
      Shrinks t (t.connectRequest request now permits) := by
  have hpend : ∀ pending, SessionInv { t with pendingRequests := pending } := fun pending =>
    h.of_eq rfl rfl rfl rfl rfl rfl rfl
  unfold SessionTable.connectRequest
  dsimp only
  generalize hold : ((t.byAddr request.remoteAddr).bind fun id =>
    (t.peers id).map fun p => (id, p)) = oldPeer
  split_ifs
  · exact h.unchanged_ok
  · exact ⟨hpend _, .of_eq rfl rfl rfl⟩
  · exact ⟨hpend _, .of_eq rfl rfl rfl⟩
  · cases oldPeer with
    | none => exact ⟨hpend _, .of_eq rfl rfl rfl⟩
    | some pair =>
      obtain ⟨id, p⟩ := pair
      have hp : t.peers id = some p := by
        simp only [Option.bind_eq_some_iff, Option.map_eq_some_iff, Prod.mk.injEq] at hold
        obtain ⟨x, -, q, hq, rfl, rfl⟩ := hold
        exact hq
      exact ((hpend _).closeGate p.session).remove_ok t (.of_eq rfl rfl rfl) hp

/-- The rollback of an accept: while its session is current, the request's address maps to it. -/
theorem rollbackAccept_ok (a : PendingAccept Addr)
    (haccept : ∀ p, t.peers a.peer = some p → p.session = a.session → p.addr = a.remoteAddr) :
    SessionInv (t.rollbackAccept a) ∧ Shrinks t (t.rollbackAccept a) := by
  unfold SessionTable.rollbackAccept
  split
  · exact h.unchanged_ok
  · rename_i current hcurrent
    split_ifs with hsame hclaim
    · have haddr := haccept current hcurrent hsame
      have hby : (t.claimGate a.session).byAddr a.remoteAddr = some a.peer := by
        rw [← haddr]
        exact h.byAddr_of_live hcurrent
      dsimp only
      rw [if_pos hby, ← haddr]
      exact (h.claimGate a.session).remove_ok t (.of_eq rfl rfl rfl) hcurrent
    · exact h.claim_ok a.session
    · exact h.unchanged_ok

end

end SessionInv

variable {t : SessionTable Addr}

/-- Accepting publishes a session under a number that no earlier accept has. -/
theorem AcceptInv.acceptSession (h : AcceptInv t) (hinv : SessionInv t)
    (request : ConnectionRequest Addr) : AcceptInv (t.acceptSession request) := by
  unfold SessionTable.acceptSession
  dsimp only
  split_ifs with hmapped
  · exact h
  · have hsame : ∀ {found t₁}, (t.removePendingRequest request).allocatePeerId = (found, t₁) →
        t₁.peers = t.peers ∧ t₁.sessions = t.sessions ∧ t₁.accepting = t.accepting := by
      intro found t₁ halloc
      unfold SessionTable.allocatePeerId at halloc
      split at halloc
      · cases halloc
        exact ⟨rfl, rfl, rfl⟩
      · split at halloc <;>
        · cases halloc
          exact ⟨rfl, rfl, rfl⟩
    split
    · rename_i t₁ halloc
      obtain ⟨hp, hs, ha⟩ := hsame halloc
      intro a hmem
      rw [ha] at hmem
      rw [hp, hs]
      exact h a hmem
    · rename_i id t₁ halloc
      obtain ⟨hp, hs, ha⟩ := hsame halloc
      intro a hmem
      have hcase : ∀ x p, Function.update t₁.peers id (some ⟨t₁.sessions, request.remoteAddr,
          request.connectionNumber, request.connectTime⟩) x = some p →
          (p.session = t.sessions ∧ p.addr = request.remoteAddr) ∨ t.peers x = some p := by
        intro x p hx
        by_cases hxi : x = id
        · rw [hxi, Function.update_self] at hx
          injection hx with hx
          subst hx
          exact .inl ⟨hs, rfl⟩
        · rw [Function.update_of_ne hxi, hp] at hx
          exact .inr hx
      rcases List.mem_cons.mp hmem with rfl | hmem
      · refine ⟨Nat.lt_succ_self _, fun x p hx hsess => ?_⟩
        rcases hcase x p hx with ⟨-, haddr⟩ | hold
        · exact haddr
        · have := hinv.created x p hold
          have hsess : p.session = t₁.sessions := hsess
          omega
      · rw [ha] at hmem
        obtain ⟨hlt, haddr⟩ := h a hmem
        refine ⟨?_, fun x p hx hsess => ?_⟩
        · show a.session < t₁.sessions + 1
          omega
        · rcases hcase x p hx with ⟨hnew, -⟩ | hold
          · omega
          · exact haddr x p hold hsess

/-- The three steps of `recycle_peer_id` touch neither map. -/
theorem recycle_ok {t' : SessionTable Addr} (h : SessionInv t) (peer : PeerId)
    (hstep : sessionStep t (.recycle peer) = some t' ∨ sessionStep t (.recycleTake peer) = some t' ∨
      sessionStep t (.recyclePush peer) = some t') : SessionInv t' ∧ Shrinks t t' := by
  rcases hstep with hstep | hstep | hstep
  · -- the call starts: the retirement moves from `owed` to `recycleChecked`
    simp only [sessionStep] at hstep
    split_ifs at hstep with hlive howed
    · cases hstep
      exact h.unchanged_ok
    · cases hstep
      refine ⟨?_, .of_eq rfl rfl rfl⟩
      have hperm : (t.owed.erase peer ++ peer :: t.recycleChecked).Perm t.outstanding := by
        refine List.perm_middle.trans ?_
        exact (List.perm_cons_erase howed).symm.append_right _
      exact {
        inverse := h.inverse, created := h.created, distinct := h.distinct, live := h.live,
        retired := h.retired, pooled := h.pooled, pool_nodup := h.pool_nodup, covered := h.covered
        outstanding_retired := fun id hid => h.outstanding_retired id (hperm.mem_iff.mp hid)
        outstanding_nodup := hperm.nodup_iff.mpr h.outstanding_nodup }
  · -- the id leaves the retired set and enters the pool
    simp only [sessionStep] at hstep
    split_ifs at hstep with hmem hret
    · cases hstep
      refine ⟨?_, .of_eq rfl rfl rfl⟩
      have hperm : (t.owed ++ t.recycleChecked).Perm
          (peer :: (t.owed ++ t.recycleChecked.erase peer)) := by
        refine ((List.perm_cons_erase hmem).append_left t.owed).trans ?_
        exact List.perm_middle
      have hout := hperm.nodup_iff.mp h.outstanding_nodup
      rw [List.nodup_cons] at hout
      have hfree : ∀ x, x ≠ peer →
          Function.update t.retiredPeerIds peer false x = t.retiredPeerIds x := fun x hx =>
        Function.update_of_ne hx _ _
      have hnotlive : t.peers peer = none := by
        cases hp : t.peers peer with
        | none => rfl
        | some p =>
          have := (h.live peer p hp).2
          rw [hret] at this
          cases this
      have hnotpool : peer ∉ t.pool := by
        intro hpool
        have := (h.pooled peer hpool).2.1
        rw [hret] at this
        cases this
      have hpool : (t.reusablePeerIds ++ peer :: t.recycleTaken).Perm (peer :: t.pool) :=
        List.perm_middle
      exact {
        inverse := h.inverse, created := h.created, distinct := h.distinct
        live := by
          intro x p hp
          refine ⟨(h.live x p hp).1, ?_⟩
          have hxp : x ≠ peer := by
            rintro rfl
            have hp : t.peers x = some p := hp
            rw [hnotlive] at hp
            cases hp
          exact (hfree x hxp).trans (h.live x p hp).2
        retired := by
          intro x hx
          by_cases hxp : x = peer
          · rw [hxp]
            exact h.retired peer hret
          · exact h.retired x ((hfree x hxp).symm.trans hx)
        pooled := by
          intro x hx
          rcases List.mem_cons.mp (hpool.mem_iff.mp hx) with rfl | hold
          · exact ⟨hnotlive, Function.update_self .., h.retired x hret⟩
          · have hxp : x ≠ peer := by
              rintro rfl
              exact hnotpool hold
            obtain ⟨hn, hr, ha⟩ := h.pooled x hold
            exact ⟨hn, (hfree x hxp).trans hr, ha⟩
        pool_nodup := hpool.nodup_iff.mpr (List.nodup_cons.mpr ⟨hnotpool, h.pool_nodup⟩)
        covered := by
          intro x hx
          by_cases hxp : x = peer
          · exact .inr (.inr (hpool.mem_iff.mpr (hxp ▸ .head _)))
          · rcases h.covered x hx with hc | hc | hc
            · exact .inl hc
            · exact .inr (.inl ((hfree x hxp).trans hc))
            · exact .inr (.inr (hpool.mem_iff.mpr (.tail _ hc)))
        outstanding_retired := by
          intro x hx
          have hxp : x ≠ peer := by
            rintro rfl
            exact hout.1 hx
          exact (hfree x hxp).trans
            (h.outstanding_retired x (hperm.mem_iff.mpr (.tail _ hx)))
        outstanding_nodup := hout.2 }
    · cases hstep
      -- an outstanding retirement is still in the retired set
      have := h.outstanding_retired peer (List.mem_append_right _ hmem)
      exact absurd this hret
  · -- inside the pool, from the call to the free list
    simp only [sessionStep] at hstep
    split_ifs at hstep with hmem hdup
    · -- an id in transit is not on the free list yet
      exact absurd rfl ((List.nodup_append.mp h.pool_nodup).2.2 peer hdup peer hmem)
    · cases hstep
      refine ⟨?_, .of_eq rfl rfl rfl⟩
      have hpool : (t.reusablePeerIds ++ [peer] ++ t.recycleTaken.erase peer).Perm t.pool := by
        rw [List.append_assoc]
        exact (List.perm_cons_erase hmem).symm.append_left _
      exact {
        inverse := h.inverse, created := h.created, distinct := h.distinct, live := h.live
        retired := h.retired
        pooled := fun x hx => h.pooled x (hpool.mem_iff.mp hx)
        pool_nodup := hpool.nodup_iff.mpr h.pool_nodup
        covered := by
          intro x hx
          rcases h.covered x hx with hc | hc | hc
          · exact .inl hc
          · exact .inr (.inl hc)
          · exact .inr (.inr (hpool.mem_iff.mpr hc))
        outstanding_retired := h.outstanding_retired
        outstanding_nodup := h.outstanding_nodup }

/-- Every step keeps both invariants and issues only ids that were free. -/
theorem sessionStep_ok {t' : SessionTable Addr} (h : SessionInv t) (ha : AcceptInv t)
    (action : SessionAction Addr) (hstep : sessionStep t action = some t') :
    (SessionInv t' ∧ AcceptInv t') ∧ IssuesFree t t' := by
  have hshrink : SessionInv t' ∧ Shrinks t t' →
      (SessionInv t' ∧ AcceptInv t') ∧ IssuesFree t t' := fun hok =>
    ⟨⟨hok.1, hok.2.acceptInv ha⟩, hok.2.issuesFree⟩
  have hforget : ∀ a : PendingAccept Addr,
      Shrinks t { t with accepting := t.accepting.erase a } := fun a =>
    ⟨fun _ _ hp => hp, fun _ hb => List.mem_of_mem_erase hb, rfl⟩
  have hforget' : ∀ a : PendingAccept Addr,
      SessionInv { t with accepting := t.accepting.erase a } := fun a =>
    h.of_eq rfl rfl rfl rfl rfl rfl rfl
  cases action with
  | accept request =>
    cases hstep
    exact ⟨⟨(h.acceptSession request).1, ha.acceptSession h request⟩, (h.acceptSession request).2⟩
  | acceptSent a =>
    simp only [sessionStep] at hstep
    split_ifs at hstep
    cases hstep
    exact hshrink ⟨hforget' a, hforget a⟩
  | acceptFailed a =>
    simp only [sessionStep] at hstep
    split_ifs at hstep with hmem
    cases hstep
    have hroll := (hforget' a).rollbackAccept_ok a fun p hp => (ha a hmem).2 a.peer p hp
    exact hshrink ⟨hroll.1, (hforget a).trans hroll.2⟩
  | connectRequest request now permits =>
    cases hstep
    exact hshrink (h.connectRequest_ok request now permits)
  | closeSessionAdmission session =>
    cases hstep
    exact hshrink (h.claim_ok session)
  | disconnectSession peer session =>
    cases hstep
    exact hshrink (h.disconnectSession_ok peer session)
  | rejectFragmentSession peer session permit =>
    cases hstep
    exact hshrink (h.rejectFragmentSession_ok peer session permit)
  | remoteDisconnect remoteAddr peer session bytes connectionNumber permit =>
    cases hstep
    exact hshrink (h.remoteDisconnect_ok remoteAddr peer session bytes connectionNumber permit)
  | timeout peer expired permit =>
    cases hstep
    exact hshrink (h.timeout_ok peer expired permit)
  | recycle peer => exact hshrink (recycle_ok h peer (.inl hstep))
  | recycleTake peer => exact hshrink (recycle_ok h peer (.inr (.inl hstep)))
  | recyclePush peer => exact hshrink (recycle_ok h peer (.inr (.inr hstep)))

/-- The invariants hold in every reachable table. -/
theorem sessionInv_of_reachable (ht : Reachable (sessionSystem Addr) (fun _ _ => True) t) :
    SessionInv t ∧ AcceptInv t := by
  refine Reachable.invariant (fun t => SessionInv t ∧ AcceptInv t) ?_ ?_ ht
  · rintro t rfl
    exact ⟨SessionInv.empty, by intro a ha; cases ha⟩
  · intro t a t' hinv _ hstep
    exact (sessionStep_ok hinv.1 hinv.2 a hstep).1

/-! ### The states of an id -/

inductive PeerIdState where
  | neverAllocated
  | live
  | retired
  | reusable
  deriving DecidableEq

/-- Whether an id is in a state.  An id that a recycle call has taken out of the retired set and not
yet appended to the free list counts as reusable. -/
def SessionTable.idIn (t : SessionTable Addr) (id : PeerId) : PeerIdState → Bool
  | .neverAllocated => !t.allocatedPeerIds id
  | .live => (t.peers id).isSome
  | .retired => t.retiredPeerIds id
  | .reusable => decide (id ∈ t.reusablePeerIds ∨ id ∈ t.recycleTaken)

/-- **Session identity.** After every sequence of steps the peer map and the address map are inverse
to each other, no two live ids share a session, every id is in exactly one of the four states, and
when no recycle call is under way the reusable ids are those of the free list.  In the next step, an
id that is issued was neither live nor retired, and no retirement of it was still to be recycled. -/
theorem session_identity_safe {t : SessionTable Addr}
    (ht : Reachable (sessionSystem Addr) (fun _ _ => True) t) :
    (∀ addr id, t.byAddr addr = some id ↔ ∃ p, t.peers id = some p ∧ p.addr = addr) ∧
    (∀ id id' p p', t.peers id = some p → t.peers id' = some p' → p.session = p'.session →
      id = id') ∧
    (∀ id, ∃! state, t.idIn id state = true) ∧
    (t.recycleTaken = [] → ∀ id, t.idIn id .reusable = true ↔ id ∈ t.reusablePeerIds) ∧
    (∀ action t', (sessionSystem Addr).step t action = some t' → ∀ id p, t'.peers id = some p →
      t.peers id ≠ some p →
        t.peers id = none ∧ t.idIn id .retired = false ∧ id ∉ t.owed ∧ id ∉ t.recycleChecked) := by
  obtain ⟨h, ha⟩ := sessionInv_of_reachable ht
  refine ⟨h.inverse, h.distinct, ?_, ?_, ?_⟩
  · intro id
    have hpool : (id ∈ t.reusablePeerIds ∨ id ∈ t.recycleTaken) ↔ id ∈ t.pool :=
      List.mem_append.symm
    cases hall : t.allocatedPeerIds id with
    | false =>
      refine ⟨.neverAllocated, by simp [SessionTable.idIn, hall], ?_⟩
      intro state hstate
      cases state with
      | neverAllocated => rfl
      | live =>
        obtain ⟨p, hp⟩ := Option.isSome_iff_exists.mp hstate
        have := (h.live id p hp).1
        rw [hall] at this
        cases this
      | retired =>
        have := h.retired id hstate
        rw [hall] at this
        cases this
      | reusable =>
        have := (h.pooled id (hpool.mp (of_decide_eq_true hstate))).2.2
        rw [hall] at this
        cases this
    | true =>
      rcases h.covered id hall with hlive | hret | hmem
      · refine ⟨.live, hlive, ?_⟩
        obtain ⟨p, hp⟩ := Option.isSome_iff_exists.mp hlive
        intro state hstate
        cases state with
        | neverAllocated => simp [SessionTable.idIn, hall] at hstate
        | live => rfl
        | retired =>
          have hstate : t.retiredPeerIds id = true := hstate
          rw [(h.live id p hp).2] at hstate
          cases hstate
        | reusable =>
          have := (h.pooled id (hpool.mp (of_decide_eq_true hstate))).1
          rw [hp] at this
          cases this
      · refine ⟨.retired, hret, ?_⟩
        intro state hstate
        cases state with
        | neverAllocated => simp [SessionTable.idIn, hall] at hstate
        | live =>
          obtain ⟨p, hp⟩ := Option.isSome_iff_exists.mp hstate
          have := (h.live id p hp).2
          rw [hret] at this
          cases this
        | retired => rfl
        | reusable =>
          have := (h.pooled id (hpool.mp (of_decide_eq_true hstate))).2.1
          rw [hret] at this
          cases this
      · refine ⟨.reusable, decide_eq_true (hpool.mpr hmem), ?_⟩
        obtain ⟨hnone, hret, -⟩ := h.pooled id hmem
        intro state hstate
        cases state with
        | neverAllocated => simp [SessionTable.idIn, hall] at hstate
        | live => simp [SessionTable.idIn, hnone] at hstate
        | retired => simp [SessionTable.idIn, hret] at hstate
        | reusable => rfl
  · intro htaken id
    simp [SessionTable.idIn, htaken]
  · intro action t' hstep id p hp hne
    obtain ⟨hnone, hret⟩ := (sessionStep_ok h ha action hstep).2 id p hp hne
    have hout : id ∉ t.outstanding := by
      intro hmem
      have := h.outstanding_retired id hmem
      rw [hret] at this
      cases this
    exact ⟨hnone, hret, fun hm => hout (List.mem_append_left _ hm),
      fun hm => hout (List.mem_append_right _ hm)⟩

/-- Accept, disconnect, recycle, and the accept of a second address. -/
def sampleSessionActions : List (SessionAction ℕ) :=
  [.accept ⟨10, 0, 5⟩, .acceptSent ⟨0, 0, 10⟩, .disconnectSession 0 0, .recycle 0, .recycleTake 0,
    .accept ⟨11, 0, 5⟩, .recyclePush 0]

def sampleTable : SessionTable ℕ :=
  (runActions (sessionSystem ℕ) SessionTable.empty sampleSessionActions).get (by decide +kernel)

theorem sampleTable_reachable : Reachable (sessionSystem ℕ) (fun _ _ => True) sampleTable :=
  reachable_runActions (.of_forall (fun _ _ => trivial) _ _) (.init rfl) (Option.some_get _).symm

/-- In the sample table the recycled id is reusable and the second address has an id of its own. -/
theorem session_identity_safe_sample :
    sampleTable.idIn 0 .reusable = true ∧ sampleTable.byAddr 11 = some 1 ∧
      (∃! state, sampleTable.idIn 0 state = true) ∧ ∃! state, sampleTable.idIn 1 state = true :=
  ⟨by decide +kernel, by decide +kernel, (session_identity_safe sampleTable_reachable).2.2.1 0,
    (session_identity_safe sampleTable_reachable).2.2.1 1⟩

end BasisRust.Transport

