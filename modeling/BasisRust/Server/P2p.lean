import BasisRust.Library.AssocList
import BasisRust.Library.Run
import BasisRust.Server.EventLoop
import Mathlib.Data.Finset.Basic

/-!
# The peer-to-peer broker

`P2pBroker` keeps the sessions by token, the tokens of each peer, and the pairs of peers whose voice
and avatar data is not relayed because they have a direct link.  Every section under the lifecycle
lock is one step; `handle_accept` and `handle_nat_introduction_request` hold one session exclusively
and change only its punching state and its endpoints, so they are one step as well.

What the handlers ask others is an argument: which peers are authenticated (a request asks twice,
the second time under the lock), the address of a peer in the transport, and the time in
milliseconds.  What a handler sends after it has released its locks is returned with the broker.
A payload that does not parse is dropped before any handler, so a signal is its sub-type and its
message.
-/

namespace BasisRust.Server

open Library

/-! ### Addresses -/

inductive IpAddr where
  | v4 (ip : BitVec 32)
  | v6 (ip : BitVec 128)
  deriving DecidableEq

inductive SocketAddr where
  | v4 (ip : BitVec 32) (port : BitVec 16)
  | v6 (ip : BitVec 128) (port : BitVec 16) (flowinfo scopeId : BitVec 32)
  deriving DecidableEq

namespace SocketAddr

def ip : SocketAddr → IpAddr
  | v4 ip _ => .v4 ip
  | v6 ip _ _ _ => .v6 ip

def port : SocketAddr → BitVec 16
  | v4 _ port => port
  | v6 _ port _ _ => port

/-- The port on `127.0.0.1`. -/
def localhost (port : BitVec 16) : SocketAddr := v4 0x7f000001 port

/-- The address behind an IPv4-mapped IPv6 address, `::ffff:a.b.c.d`. -/
def toIpv4Mapped (ip : BitVec 128) : Option (BitVec 32) :=
  if ip.extractLsb' 32 96 = 0xffff then some (ip.extractLsb' 0 32) else none

def normalized : SocketAddr → IpAddr × BitVec 16
  | v6 ip port _ _ =>
    match toIpv4Mapped ip with
    | some ip4 => (.v4 ip4, port)
    | none => (.v6 ip, port)
  | v4 ip port => (.v4 ip, port)

end SocketAddr

def sameEndpoint (a b : SocketAddr) : Bool := a.normalized = b.normalized

def predictionCount (aExternal bExternal : SocketAddr) : Byte :=
  if aExternal.ip = bExternal.ip then 0 else 32

/-! ### Sessions -/

def maxSessionsPerPeer : ℕ := 4096
def maxSessionTokenLen : ℕ := 64
def introductionBurst : ℕ := 4

/-- `INTRODUCTION_WINDOW`, in milliseconds. -/
def introductionWindow : ℕ := 250

/-- `OFFLOAD_LEASE`, in milliseconds. -/
def offloadLease : ℕ := 30 * 60 * 1000

inductive SessionState where
  | awaiting
  | readyForPunch
  | punched
  deriving DecidableEq

structure P2pSession where
  initiatorPeerId : PeerId
  targetPeerId : PeerId
  state : SessionState
  endpointAInternal : Option SocketAddr
  endpointAExternal : Option SocketAddr
  endpointBInternal : Option SocketAddr
  endpointBExternal : Option SocketAddr
  initiatorLinkUp : Bool
  targetLinkUp : Bool
  introductionWindowStarted : ℕ
  introductionSendsInWindow : ℕ
  offloadLeaseDeadline : Option ℕ
  deriving DecidableEq

def packPair (a b : PeerId) : BitVec 64 :=
  ((if a ≤ b then a else b).setWidth 64 <<< 32) ||| (if a ≤ b then b else a).setWidth 64

namespace P2pSession

def authorizes (s : P2pSession) (sender other : PeerId) : Bool :=
  (sender = s.initiatorPeerId && other = s.targetPeerId) ||
    (sender = s.targetPeerId && other = s.initiatorPeerId)

/-- The peer is the initiator or the target. -/
def participant (s : P2pSession) (p : PeerId) : Bool := s.initiatorPeerId = p || s.targetPeerId = p

def pair (s : P2pSession) : BitVec 64 := packPair s.initiatorPeerId s.targetPeerId

/-- Both sides have reported their link. -/
def linked (s : P2pSession) : Bool := s.initiatorLinkUp && s.targetLinkUp

end P2pSession

/-- `BasisP2PSignalMessage`. -/
structure P2pMessage where
  otherPlayerId : PeerId
  sessionToken : String
  ephemeralPublicKey : Option (Vector Byte 32)
  deriving DecidableEq

def p2pSubRequest : Byte := 0
def p2pSubAccept : Byte := 1
def p2pSubDecline : Byte := 2
def p2pSubCancel : Byte := 3
def p2pSubLinkLost : Byte := 4
def p2pSubServerArmed : Byte := 5
def p2pSubLinkUp : Byte := 6
def p2pSubOffloaded : Byte := 7

/-- What a handler sends: a signal to a peer, or the introduction of two endpoints. -/
inductive P2pOutput where
  | signal (peer : PeerId) (sub : Byte) (message : P2pMessage)
  | natIntroduce (aInternal aExternal : SocketAddr) (aPredictions : Byte)
      (bInternal bExternal : SocketAddr) (bPredictions : Byte) (token : String)
  deriving DecidableEq

/-- `send_sub`: a signal without a key. -/
def sendSub (peer : PeerId) (sub : Byte) (token : String) (otherPlayerId : PeerId) : P2pOutput :=
  .signal peer sub ⟨otherPlayerId, token, none⟩

/-! ### The broker -/

structure P2pBroker where
  sessions : List (String × P2pSession)
  peerSessions : List (PeerId × List String)
  offloadedPairs : Finset (BitVec 64)
  deriving DecidableEq

namespace P2pBroker

def empty : P2pBroker := ⟨[], [], ∅⟩

def session (b : P2pBroker) (token : String) : Option P2pSession := assocGet token b.sessions

/-- The tokens recorded for a peer, none when it has no entry. -/
def tokensOf (b : P2pBroker) (p : PeerId) : List String := (assocGet p b.peerSessions).getD []

def isOffloaded (b : P2pBroker) (x y : PeerId) : Bool :=
  if x = y then false else packPair x y ∈ b.offloadedPairs

def trackPeerSession (b : P2pBroker) (peer : PeerId) (token : String) : P2pBroker :=
  { b with peerSessions := assocSet peer ((b.tokensOf peer).insert token) b.peerSessions }

def untrackPeerSession (b : P2pBroker) (peer : PeerId) (token : String) : P2pBroker :=
  match assocGet peer b.peerSessions with
  | none => b
  | some tokens =>
    let rest := tokens.erase token
    { b with peerSessions := assocPut peer (if rest = [] then none else some rest) b.peerSessions }

def untrackSession (b : P2pBroker) (s : P2pSession) (token : String) : P2pBroker :=
  let b := (b.untrackPeerSession s.initiatorPeerId token).untrackPeerSession s.targetPeerId token
  { b with offloadedPairs := b.offloadedPairs.erase s.pair }

/-- Remove a session from the map and from its indexes. -/
def dropSession (b : P2pBroker) (token : String) (s : P2pSession) : P2pBroker :=
  untrackSession { b with sessions := assocErase token b.sessions } s token

/-- Replace a session in place. -/
def setSession (b : P2pBroker) (token : String) (s : P2pSession) : P2pBroker :=
  { b with sessions := assocSet token s b.sessions }

def claimSession (b : P2pBroker) (token : String) (s : P2pSession)
    (isAuthenticated : PeerId → Bool) : Option P2pBroker :=
  if !isAuthenticated s.initiatorPeerId || !isAuthenticated s.targetPeerId ||
      maxSessionsPerPeer ≤ (b.tokensOf s.initiatorPeerId).length ||
      maxSessionsPerPeer ≤ (b.tokensOf s.targetPeerId).length then
    none
  else
    match b.session token with
    | some _ => none
    | none =>
      some (((b.setSession token s).trackPeerSession s.initiatorPeerId token).trackPeerSession
        s.targetPeerId token)

def handleRequest (b : P2pBroker) (sender : PeerId) (message : P2pMessage)
    (isAuthenticated isAuthenticatedAtClaim : PeerId → Bool) (now : ℕ) :
    P2pBroker × List P2pOutput :=
  let cancel := sendSub sender p2pSubCancel message.sessionToken message.otherPlayerId
  if message.sessionToken.isEmpty || maxSessionTokenLen < message.sessionToken.utf8ByteSize ||
      message.otherPlayerId = sender then
    (b, [])
  else if !isAuthenticated message.otherPlayerId then (b, [cancel])
  else
    let session : P2pSession :=
      { initiatorPeerId := sender
        targetPeerId := message.otherPlayerId
        state := .awaiting
        endpointAInternal := none
        endpointAExternal := none
        endpointBInternal := none
        endpointBExternal := none
        initiatorLinkUp := false
        targetLinkUp := false
        introductionWindowStarted := now
        introductionSendsInWindow := 0
        offloadLeaseDeadline := none }
    match b.claimSession message.sessionToken session isAuthenticatedAtClaim with
    | none => (b, [cancel])
    | some b =>
      (b, [.signal message.otherPlayerId p2pSubRequest
            ⟨sender, message.sessionToken, message.ephemeralPublicKey⟩,
          sendSub sender p2pSubServerArmed message.sessionToken message.otherPlayerId])

def handleAccept (b : P2pBroker) (sender : PeerId) (message : P2pMessage) :
    P2pBroker × List P2pOutput :=
  match b.session message.sessionToken with
  | none => (b, [])
  | some s =>
    if s.targetPeerId ≠ sender || s.initiatorPeerId ≠ message.otherPlayerId then (b, [])
    else
      (b.setSession message.sessionToken { s with state := .readyForPunch },
        [.signal s.initiatorPeerId p2pSubAccept
          ⟨sender, message.sessionToken, message.ephemeralPublicKey⟩])

/-- Store a session one of whose links was reported.  With both links up the pair is offloaded, with
the lease of the first time they were. -/
def publishLink (b : P2pBroker) (token : String) (s : P2pSession) (now : ℕ) :
    P2pBroker × List P2pOutput :=
  if s.linked then
    let b' := b.setSession token
      { s with offloadLeaseDeadline := some (s.offloadLeaseDeadline.getD (now + offloadLease)) }
    ({ b' with offloadedPairs := insert s.pair b.offloadedPairs },
      if s.pair ∈ b.offloadedPairs then []
      else [sendSub s.initiatorPeerId p2pSubOffloaded token s.targetPeerId,
        sendSub s.targetPeerId p2pSubOffloaded token s.initiatorPeerId])
  else (b.setSession token s, [])

def handleLinkUp (b : P2pBroker) (sender : PeerId) (message : P2pMessage) (now : ℕ) :
    P2pBroker × List P2pOutput :=
  match b.session message.sessionToken with
  | none => (b, [])
  | some s =>
    if sender = s.initiatorPeerId then
      b.publishLink message.sessionToken { s with initiatorLinkUp := true } now
    else if sender = s.targetPeerId then
      b.publishLink message.sessionToken { s with targetLinkUp := true } now
    else (b, [])

/-- What a lost link leaves of a session of the pair. -/
def clearLink (s : P2pSession) : P2pSession :=
  { s with
    endpointAInternal := none
    endpointAExternal := none
    endpointBInternal := none
    endpointBExternal := none
    initiatorLinkUp := false
    targetLinkUp := false
    state := if s.state ≠ .awaiting then .readyForPunch else s.state
    offloadLeaseDeadline := none }

def clearToken (pair : BitVec 64) (b : P2pBroker) (token : String) : P2pBroker :=
  match b.session token with
  | none => b
  | some s => if s.pair ≠ pair then b else b.setSession token (clearLink s)

def handleLinkLost (b : P2pBroker) (sender : PeerId) (message : P2pMessage) :
    P2pBroker × List P2pOutput :=
  match b.session message.sessionToken with
  | none => (b, [])
  | some s =>
    if !s.authorizes sender message.otherPlayerId then (b, [])
    else
      let tokens := (b.tokensOf sender).insert message.sessionToken
      let b := tokens.foldl (clearToken s.pair) b
      ({ b with offloadedPairs := b.offloadedPairs.erase s.pair },
        [sendSub message.otherPlayerId p2pSubLinkLost message.sessionToken sender])

def removeSessionIfAuthorized (b : P2pBroker) (token : String) (sender other : PeerId) :
    Option (P2pBroker × P2pSession) :=
  match b.session token with
  | none => none
  | some s => if s.authorizes sender other then some (b.dropSession token s, s) else none

def forwardAndDrop (b : P2pBroker) (sender : PeerId) (message : P2pMessage) (sub : Byte)
    (dropSession : Bool) : P2pBroker × List P2pOutput :=
  if dropSession then
    match b.removeSessionIfAuthorized message.sessionToken sender message.otherPlayerId with
    | none => (b, [])
    | some (b, s) =>
      let target := if sender = s.initiatorPeerId then s.targetPeerId else s.initiatorPeerId
      (b, [sendSub target sub message.sessionToken sender])
  else
    match b.session message.sessionToken with
    | none => (b, [])
    | some s =>
      if !s.authorizes sender message.otherPlayerId then (b, [])
      else (b, [sendSub message.otherPlayerId sub message.sessionToken sender])

/-- An unknown sub-type is logged and dropped. -/
def handleSignal (b : P2pBroker) (sender : PeerId) (sub : Byte) (message : P2pMessage)
    (directConnectAllowed : Bool) (isAuthenticated isAuthenticatedAtClaim : PeerId → Bool)
    (now : ℕ) : P2pBroker × List P2pOutput :=
  if sub = p2pSubRequest then
    if !directConnectAllowed then
      (b, [sendSub sender p2pSubCancel message.sessionToken message.otherPlayerId])
    else b.handleRequest sender message isAuthenticated isAuthenticatedAtClaim now
  else if sub = p2pSubAccept then b.handleAccept sender message
  else if sub = p2pSubDecline then b.forwardAndDrop sender message p2pSubDecline true
  else if sub = p2pSubCancel then b.forwardAndDrop sender message p2pSubCancel true
  else if sub = p2pSubLinkLost then b.handleLinkLost sender message
  else if sub = p2pSubLinkUp then b.handleLinkUp sender message now
  else (b, [])

/-! ### Introductions -/

/-- Record the endpoint of a participant; `none` when both are known and it is neither. -/
def recordEndpoint (s : P2pSession) (localAddr remoteAddr : SocketAddr) : Option P2pSession :=
  if s.endpointAExternal = some remoteAddr then some { s with endpointAInternal := some localAddr }
  else if s.endpointBExternal = some remoteAddr then
    some { s with endpointBInternal := some localAddr }
  else if s.endpointAExternal = none then
    some { s with endpointAInternal := some localAddr, endpointAExternal := some remoteAddr }
  else if s.endpointBExternal = none then
    some { s with endpointBInternal := some localAddr, endpointBExternal := some remoteAddr }
  else none

/-- Count one introduction in the current window; the flag says whether it may be sent. -/
def countIntroduction (s : P2pSession) (now : ℕ) : P2pSession × Bool :=
  let s :=
    if introductionWindow ≤ now - s.introductionWindowStarted then
      { s with introductionWindowStarted := now, introductionSendsInWindow := 0 }
    else s
  if introductionBurst ≤ s.introductionSendsInWindow then (s, false)
  else
    ({ s with introductionSendsInWindow := s.introductionSendsInWindow + 1, state := .punched },
      true)

/-- Two endpoints behind one address see each other on the same host as `localhost`. -/
def introduce (aInternal aExternal bInternal bExternal : SocketAddr) (token : String) : P2pOutput :=
  let predictions := predictionCount aExternal bExternal
  let sameHost := predictions = 0 ∧ aInternal.ip = bInternal.ip
  .natIntroduce (if sameHost then .localhost aInternal.port else aInternal) aExternal predictions
    (if sameHost then .localhost bInternal.port else bInternal) bExternal predictions token

def handleNatIntroductionRequest (b : P2pBroker) (localAddr remoteAddr : SocketAddr)
    (token : String) (peerAddr : PeerId → Option SocketAddr) (now : ℕ) :
    P2pBroker × List P2pOutput :=
  if token.isEmpty then (b, [])
  else
    match b.session token with
    | none => (b, [])
    | some s =>
      if s.state = .awaiting then (b, [])
      else if !(peerAddr s.initiatorPeerId).any (sameEndpoint · remoteAddr) &&
          !(peerAddr s.targetPeerId).any (sameEndpoint · remoteAddr) then
        (b, [])
      else
        match recordEndpoint s localAddr remoteAddr with
        | none => (b, [])
        | some s =>
          match s.endpointAInternal, s.endpointAExternal, s.endpointBInternal,
              s.endpointBExternal with
          | some aInternal, some aExternal, some bInternal, some bExternal =>
            let (s, send) := countIntroduction s now
            (b.setSession token s,
              if send then [introduce aInternal aExternal bInternal bExternal token] else [])
          | _, _, _, _ => (b.setSession token s, [])

/-! ### Removal and maintenance -/

def removePeerToken (peer : PeerId) (acc : P2pBroker × List P2pOutput) (token : String) :
    P2pBroker × List P2pOutput :=
  match acc.1.session token with
  | none => acc
  | some s =>
    let other := if s.initiatorPeerId = peer then s.targetPeerId else s.initiatorPeerId
    (acc.1.dropSession token s, acc.2 ++ [sendSub other p2pSubCancel token peer])

def removePeer (b : P2pBroker) (peer : PeerId) : P2pBroker × List P2pOutput :=
  match assocGet peer b.peerSessions with
  | none => (b, [])
  | some tokens =>
    tokens.foldl (removePeerToken peer)
      ({ b with peerSessions := assocErase peer b.peerSessions }, [])

/-- The loop of `maintain_lifecycle`: the broker, the signals to send and the pairs that keep a
linked session. -/
structure Maintenance where
  broker : P2pBroker
  notifications : List P2pOutput
  activeOffloads : Finset (BitVec 64)

def leaseExpired (s : P2pSession) (now : ℕ) : Bool :=
  s.offloadLeaseDeadline.any (· ≤ now) && s.linked

/-- One candidate.  `connected` answers for the two peers of the session while it is looked at. -/
def maintainSession (connected : String → PeerId → Bool) (now : ℕ) (acc : Maintenance)
    (candidate : String × P2pSession) : Maintenance :=
  let token := candidate.1
  let s := candidate.2
  let initiatorConnected := connected token s.initiatorPeerId
  let targetConnected := connected token s.targetPeerId
  if !initiatorConnected || !targetConnected then
    match acc.broker.session token with
    | none => acc
    | some _ =>
      { acc with
        broker := acc.broker.dropSession token s
        notifications := acc.notifications ++
          if initiatorConnected then [sendSub s.initiatorPeerId p2pSubCancel token s.targetPeerId]
          else if targetConnected then [sendSub s.targetPeerId p2pSubCancel token s.initiatorPeerId]
          else [] }
  else if !leaseExpired s now then
    if s.linked then { acc with activeOffloads := insert s.pair acc.activeOffloads } else acc
  else
    match acc.broker.session token with
    | none => acc
    | some removed =>
      { acc with
        broker := acc.broker.dropSession token removed
        notifications := acc.notifications ++
          [sendSub s.initiatorPeerId p2pSubLinkLost token s.targetPeerId,
            sendSub s.targetPeerId p2pSubLinkLost token s.initiatorPeerId] }

def maintainLifecycle (b : P2pBroker) (connected : String → PeerId → Bool) (now : ℕ) :
    P2pBroker × List P2pOutput :=
  let result := b.sessions.foldl (maintainSession connected now) ⟨b, [], ∅⟩
  ({ result.broker with
      offloadedPairs :=
        result.broker.offloadedPairs.filter (· ∈ result.activeOffloads) ∪ result.activeOffloads },
    result.notifications)

/-! ### Runs -/

inductive Action where
  | signal (sender : PeerId) (sub : Byte) (message : P2pMessage) (directConnectAllowed : Bool)
      (isAuthenticated isAuthenticatedAtClaim : PeerId → Bool) (now : ℕ)
  | natIntroductionRequest (localAddr remoteAddr : SocketAddr) (token : String)
      (peerAddr : PeerId → Option SocketAddr) (now : ℕ)
  | removePeer (peer : PeerId)
  | maintainLifecycle (connected : String → PeerId → Bool) (now : ℕ)

def perform (b : P2pBroker) : Action → P2pBroker × List P2pOutput
  | .signal sender sub message allowed authenticated authenticatedAtClaim now =>
    b.handleSignal sender sub message allowed authenticated authenticatedAtClaim now
  | .natIntroductionRequest localAddr remoteAddr token peerAddr now =>
    b.handleNatIntroductionRequest localAddr remoteAddr token peerAddr now
  | .removePeer peer => b.removePeer peer
  | .maintainLifecycle connected now => b.maintainLifecycle connected now

/-- Any order of signals, introductions, removals and maintenance, from an empty broker. -/
def system : System P2pBroker Action where
  init b := b = empty
  step b a := some (b.perform a).1

end P2pBroker

end BasisRust.Server
