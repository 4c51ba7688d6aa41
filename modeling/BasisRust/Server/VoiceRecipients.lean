import BasisRust.Protocol.Io
import BasisRust.Server.P2p

/-!
# The recipients of a voice

A client names those who hear it with a list of peer ids, with a list of those who do not, or with a
bit for each id.  The server keeps the current sessions of the named peers and sends each of them
every voice frame.
-/

namespace BasisRust.Server

open Library Protocol

/-! ### The messages -/

/-- The channels of the lists exist twice, with a count of one byte and of two. -/
inductive VoiceMessage where
  | list (largeCount : Bool)
  | inverted (largeCount : Bool)
  | bitfield
  deriving DecidableEq

namespace VoiceReceiversMessage

def getUsers (r : NetReader) : ℕ → Except NetReadError (List PeerId × NetReader)
  | 0 => .ok ([], r)
  | count + 1 => do
    let (user, r) ← r.getU16
    let (users, r) ← getUsers r count
    return (BitVec.ofNat 16 user :: users, r)

def getCount (r : NetReader) (largeCount : Bool) : Except NetReadError (ℕ × NetReader) :=
  if largeCount then r.getU16
  else do
    let (count, r) ← r.getU8
    return (count.toNat, r)

def deserialize (r : NetReader) (largeCount : Bool) :
    Except NetReadError (List PeerId × NetReader) := do
  let (count, r) ← getCount r largeCount
  if r.remaining / 2 < count then throw (.underflow (count * 2) r.remaining)
  getUsers r count

end VoiceReceiversMessage

/-- The ids of the bits of one byte; an id that does not fit is truncated. -/
def byteIds (byte : Byte) (baseId : ℕ) : List PeerId :=
  if byte = 0 then []
  else
    ((List.range 8).filter fun bit => byte &&& (1 <<< bit) ≠ 0).map fun bit =>
      BitVec.ofNat 16 (baseId + bit)

/-- The ids of the bits of some bytes, the first of which starts at an id. -/
def bitfieldIds : Bytes → ℕ → List PeerId
  | [], _ => []
  | byte :: bytes, baseId => byteIds byte baseId ++ bitfieldIds bytes (baseId + 8)

/-! ### The server -/

/-- The authenticated peers, the connections of the transport, and who hears whom.  A connection has
one peer id, under which its session is kept. -/
structure VoiceState where
  authenticatedPeers : List (PeerId × Option PeerSession)
  transportPeers : List (PeerId × ℕ)
  closedGates : List ℕ
  voiceRecipientSessions : List (PeerId × List PeerSession)
  voiceRecipients : List (PeerId × List PeerId)
  p2pBroker : P2pBroker
  peerOf : ℕ → PeerId
  nodup : AssocNodup authenticatedPeers
  authenticated : ∀ x ∈ authenticatedPeers, ∀ s ∈ x.2, s.peer = x.1 ∧ peerOf s.state = s.peer
  installed : ∀ x ∈ voiceRecipientSessions, ∀ s ∈ x.2, peerOf s.state = s.peer

namespace VoiceState

def tryReadLease (st : VoiceState) (session : PeerSession) : Bool := session.state ∉ st.closedGates

def isCurrentSession (st : VoiceState) (session : PeerSession) : Bool :=
  assocGet session.peer st.transportPeers = some session.state

/-- The session of an authenticated peer, if it is the current one and not about to be closed. -/
def currentSession (st : VoiceState) (id : PeerId) : Option PeerSession :=
  ((assocGet id st.authenticatedPeers).join).filter fun session =>
    st.tryReadLease session && st.isCurrentSession session

/-- What is installed for one id of a message. -/
def recipient (st : VoiceState) (peer id : PeerId) : Option PeerSession :=
  if id = peer then none else st.currentSession id

def recipientsOf (st : VoiceState) (peer : PeerId) : List PeerSession :=
  (assocGet peer st.voiceRecipientSessions).getD []

variable {st : VoiceState} {peer id : PeerId} {s : PeerSession}

theorem currentSession_spec (h : st.currentSession id = some s) :
    s.peer = id ∧ st.peerOf s.state = s.peer := by
  unfold currentSession at h
  rw [Option.filter_eq_some_iff, Option.join_eq_some_iff] at h
  exact st.authenticated _ (mem_keys_of_assocGet h.1) s rfl

theorem recipient_spec (h : st.recipient peer id = some s) :
    id ≠ peer ∧ s.peer = id ∧ st.peerOf s.state = s.peer := by
  unfold recipient at h
  split at h
  · cases h
  · exact ⟨‹_›, currentSession_spec h⟩

theorem recipientsOf_spec (h : s ∈ st.recipientsOf peer) : st.peerOf s.state = s.peer := by
  unfold recipientsOf at h
  cases hget : assocGet peer st.voiceRecipientSessions with
  | none =>
    rw [hget] at h
    cases h
  | some entry =>
    rw [hget] at h
    exact st.installed _ (mem_keys_of_assocGet hget) s h

/-- The entry stays when it has the same connections in the same order. -/
def toInstall (st : VoiceState) (peer : PeerId) (ids : List PeerId) : List PeerSession :=
  let entry := st.recipientsOf peer
  let sessions := ids.filterMap (st.recipient peer)
  let unchanged := entry.length == sessions.length &&
    (entry.zip sessions).all fun x => x.1.sameConnection x.2
  if unchanged then entry else sessions

theorem toInstall_spec (ids : List PeerId) (hs : s ∈ st.toInstall peer ids) :
    st.peerOf s.state = s.peer := by
  unfold toInstall at hs
  dsimp only at hs
  split at hs
  · exact recipientsOf_spec hs
  · obtain ⟨id, -, hrecipient⟩ := List.mem_filterMap.mp hs
    exact (recipient_spec hrecipient).2.2

def installVoiceRecipients (st : VoiceState) (peer : PeerId) (ids : List PeerId) : VoiceState :=
  { st with
    voiceRecipientSessions := assocSet peer (st.toInstall peer ids) st.voiceRecipientSessions
    voiceRecipients :=
      assocSet peer ((st.toInstall peer ids).map PeerSession.peer) st.voiceRecipients
    installed := by
      intro x hx s hs
      rcases mem_assocSet hx with rfl | hx
      · exact toInstall_spec ids hs
      · exact st.installed x hx s hs }

/-- A message that cannot be read changes nothing. -/
def updateVoiceRecipients (st : VoiceState) (peer : PeerId) (payload : Bytes)
    (largeCount inverted : Bool) : VoiceState :=
  match VoiceReceiversMessage.deserialize (.new payload) largeCount with
  | .error _ => st
  | .ok (users, _) =>
    if inverted then
      st.installVoiceRecipients peer
        ((st.authenticatedPeers.map Prod.fst).filter fun id => id ≠ peer && id ∉ users)
    else
      st.installVoiceRecipients peer
        (users.filter fun id => id ≠ peer && (assocGet id st.authenticatedPeers).isSome)

def updateVoiceRecipientsBitfield (st : VoiceState) (peer : PeerId) (payload : Bytes) :
    VoiceState :=
  if payload.length < 2 then st
  else
    let byteCount := leNat (payload.take 2)
    if payload.length < 2 + byteCount then st
    else
      st.installVoiceRecipients peer
        ((bitfieldIds (slice payload 2 byteCount) 0).filter fun id =>
          id ≠ peer && (assocGet id st.authenticatedPeers).isSome)

def receive (st : VoiceState) (peer : PeerId) (payload : Bytes) : VoiceMessage → VoiceState
  | .list largeCount => st.updateVoiceRecipients peer payload largeCount false
  | .inverted largeCount => st.updateVoiceRecipients peer payload largeCount true
  | .bitfield => st.updateVoiceRecipientsBitfield peer payload

/-- The sessions that a voice frame is sent to. -/
def relayVoiceMessage (st : VoiceState) (peer : PeerId) : List PeerSession :=
  (st.recipientsOf peer).filter fun recipient => !st.p2pBroker.isOffloaded peer recipient.peer

end VoiceState

/-! ### What the messages stand for -/

/-- The ids of a list: a count of one or two bytes, and two bytes for each id. -/
def listedIds (largeCount : Bool) (payload : Bytes) : Option (List PeerId) :=
  let start := if largeCount then 2 else 1
  let count := leNat (payload.take start)
  if payload.length < start + 2 * count then none
  else some ((List.range count).map fun i =>
    BitVec.ofNat 16 (leNat (slice payload (start + 2 * i) 2)))

/-- The bit of a number behind the byte count. -/
def bitSet (payload : Bytes) (i : ℕ) : Bool :=
  i / 8 < leNat (payload.take 2) && (payload.getD (2 + i / 8) 0).getLsbD (i % 8)

/-- Whether a peer is named by the message, if it can be read. -/
def denoted (payload : Bytes) : VoiceMessage → Option (PeerId → Bool)
  | .list largeCount => (listedIds largeCount payload).map fun users id => id ∈ users
  | .inverted largeCount => (listedIds largeCount payload).map fun users id => id ∉ users
  | .bitfield =>
    if payload.length < 2 ∨ payload.length < 2 + leNat (payload.take 2) then none
    else some fun id => bitSet payload id.toNat

/-- **The recipients are exact**: those installed are the current sessions of the other
authenticated peers that are named, each of them once, and a frame is sent to each at most once. -/
structure Exact (before after : VoiceState) (peer : PeerId) (named : PeerId → Bool) : Prop where
  mem : ∀ s, s ∈ after.recipientsOf peer ↔ before.recipient peer s.peer = some s ∧
    named s.peer = true
  nodup : (after.recipientsOf peer).Nodup
  ids : assocGet peer after.voiceRecipients = some ((after.recipientsOf peer).map PeerSession.peer)
  relayed : (after.relayVoiceMessage peer).Nodup

/-- No peer that will be installed is listed twice, and no bit beyond the ids stands for one after
truncation. -/
def Unambiguous (st : VoiceState) (peer : PeerId) (payload : Bytes) : VoiceMessage → Prop
  | .list largeCount => ∀ users, listedIds largeCount payload = some users →
      (users.filter fun id => (st.recipient peer id).isSome).Nodup
  | .inverted _ => True
  | .bitfield => ∀ i, 65536 ≤ i → bitSet payload i = true →
      st.recipient peer (BitVec.ofNat 16 i) = none

end BasisRust.Server
