import BasisRust.Library.Run
import BasisRust.Transport.SealedInbound

/-!
# Inbound datagrams of a sealed session

`processPacket` follows a datagram from the socket to the dispatch on its property: the
server-info path, the lookup of the session, the connection number, the seal, and the unpacking of
merged and compact-merged packets into logical packets that are dispatched again.  What reaches the
dispatch is returned as a list of `Reached` values; what the dispatch then does with a packet is not
part of this module.

The session is one that was accepted awaiting a seal.  A run interleaves the key holder sealing
packets, the activation of the key, and arbitrary datagrams.  `Ideal` is the assumption on the
cipher: a datagram that decrypts under the session key is one the key holder sealed.
-/

namespace BasisRust.Transport

open Library

/-! ### Server-info queries -/

def serverInfoQueryMagic : ℕ := 0xBA515101
def serverInfoProtocolVersion : ℕ := 1
def serverInfoMinRequestBytes : ℕ := 384

def looksLikeServerInfoPayload (bytes : Bytes) : Bool :=
  decide (6 ≤ bytes.length) &&
    (leNat (slice bytes 0 4) == serverInfoQueryMagic &&
      leNat (slice bytes 4 2) == serverInfoProtocolVersion)

def serverInfoPayload (bytes : Bytes) : Option Bytes :=
  if looksLikeServerInfoPayload bytes then some bytes
  else
    match bytes with
    | [] => none
    | header :: payload =>
      if (header &&& 0x1f#8).toNat = PacketProperty.unconnectedMessage.code ∧
          looksLikeServerInfoPayload payload = true then
        some payload
      else none

/-- The payload of a query long enough to be answered; a shorter one goes on as a packet. -/
def serverInfoRequest (bytes : Bytes) : Option Bytes :=
  (serverInfoPayload bytes).filter fun payload => serverInfoMinRequestBytes ≤ payload.length

/-! ### Merged packets -/

def isNestedMergedPacket (bytes : Bytes) : Bool :=
  match bytes.head?.bind PacketProperty.fromByte with
  | some .merged => true
  | some .compactMerged => true
  | _ => false

def mergedHeaderSize : PacketProperty → ℕ
  | .unreliable => 2
  | .channeled => 4
  | .ack => 4
  | .ping => 3
  | .pong => 11
  | .connectRequest => 18
  | .connectAccept => 15
  | .disconnect => 9
  | _ => 1

def isValidMergedPacket (bytes : Bytes) : Bool :=
  match bytes.head?.bind PacketProperty.fromByte with
  | none => false
  | some property => decide (mergedHeaderSize property ≤ bytes.length)

/-- The loop of `isWellFormedMerged` over what is left of the datagram.  Every round consumes two
bytes at least, so the length is enough fuel. -/
def wellFormedMergedFrom : ℕ → Bytes → ℕ → Bool
  | _, [], validPackets => decide (0 < validPackets)
  | fuel + 1, a :: b :: rest, validPackets =>
    let size := leNat [a, b]
    if size = 0 ∨ rest.length < size then false
    else
      let packet := rest.take size
      if isNestedMergedPacket packet then wellFormedMergedFrom fuel (rest.drop size) validPackets
      else if isValidMergedPacket packet then
        wellFormedMergedFrom fuel (rest.drop size) (validPackets + 1)
      else false
  | _, _, _ => false

def isWellFormedMerged (bytes : Bytes) : Bool := wellFormedMergedFrom bytes.length (bytes.drop 1) 0

/-- The logical packets of a merged datagram, in the order in which they are processed. -/
def mergedEntriesFrom : ℕ → Bytes → List Bytes
  | fuel + 1, a :: b :: rest =>
    let size := leNat [a, b]
    if size = 0 ∨ rest.length < size then []
    else
      let packet := rest.take size
      if isNestedMergedPacket packet then mergedEntriesFrom fuel (rest.drop size)
      else if isValidMergedPacket packet then packet :: mergedEntriesFrom fuel (rest.drop size)
      else mergedEntriesFrom fuel (rest.drop size)
  | _, _ => []

/-- The payload that follows a compact tag, and what is left after it.  Lengths above one byte use
the long form, which must not be used for shorter ones. -/
def compactPayload (tag : Byte) (bytes : Bytes) : Option (Bytes × Bytes) :=
  if tag &&& 0x80#8 ≠ 0#8 then
    match bytes with
    | a :: b :: rest =>
      let len := leNat [a, b]
      if len ≤ 255 ∨ rest.length < len then none else some (rest.take len, rest.drop len)
    | _ => none
  else
    match bytes with
    | a :: rest =>
      if rest.length < a.toNat then none else some (rest.take a.toNat, rest.drop a.toNat)
    | [] => none

/-- A raw compact entry is an acknowledgement or a channeled packet. -/
def isRawCompactEntry (payload : Bytes) : Bool :=
  decide (4 ≤ payload.length) && !isNestedMergedPacket payload &&
    (match payload.head?.bind PacketProperty.fromByte with
      | some .ack => true
      | some .channeled => true
      | _ => false)

def wellFormedCompactMergedFrom : ℕ → Bytes → ℕ → Bool
  | _, [], entries => decide (0 < entries)
  | fuel + 1, tag :: len :: rest, entries =>
    let raw := decide (tag &&& 0x40#8 ≠ 0#8)
    if raw = true ∧ tag &&& 0x3f#8 ≠ 0#8 then false
    else
      match compactPayload tag (len :: rest) with
      | none => false
      | some (payload, left) =>
        if raw = true ∧
          (isRawCompactEntry payload && isValidMergedPacket payload) = false then false
        else wellFormedCompactMergedFrom fuel left (entries + 1)
  | _, _, _ => false

def isWellFormedCompactMerged (bytes : Bytes) : Bool :=
  wellFormedCompactMergedFrom bytes.length (bytes.drop 1) 0

/-- The logical packets of a compact-merged datagram: raw entries as they are, the others rebuilt as
unreliable packets. -/
def compactMergedEntriesFrom (connectionNumber : BitVec 2) : ℕ → Bytes → List Bytes
  | fuel + 1, tag :: len :: rest =>
    let raw := decide (tag &&& 0x40#8 ≠ 0#8)
    let channel := tag &&& 0x3f#8
    if raw = true ∧ channel ≠ 0#8 then []
    else
      match compactPayload tag (len :: rest) with
      | none => []
      | some (payload, left) =>
        if raw then
          if isRawCompactEntry payload then
            payload :: compactMergedEntriesFrom connectionNumber fuel left
          else []
        else
          (PacketProperty.unreliable.header connectionNumber :: channel :: payload) ::
            compactMergedEntriesFrom connectionNumber fuel left
  | _, _ => []

/-- The logical packets inside an opened packet. -/
def nestedEntries (connectionNumber : BitVec 2) (property : PacketProperty) (bytes : Bytes) :
    List Bytes :=
  match property with
  | .merged =>
    if isWellFormedMerged bytes then mergedEntriesFrom bytes.length (bytes.drop 1) else []
  | .compactMerged =>
    if isWellFormedCompactMerged bytes then
      compactMergedEntriesFrom connectionNumber bytes.length (bytes.drop 1)
    else []
  | _ => []

/-! ### The way to the dispatch -/

/-- The properties that are processed for an established session only. -/
def PacketProperty.needsPeer : PacketProperty → Bool
  | .ack => true
  | .ping => true
  | .pong => true
  | .disconnect => true
  | .mtuCheck => true
  | .mtuOk => true
  | .merged => true
  | .compactMerged => true
  | .channeled => true
  | .unreliable => true
  | _ => false

def PacketProperty.isUserData (property : PacketProperty) : Bool :=
  InboundSeal.isUserData property.code

/-- Where a datagram, or a logical packet inside one, ends up. -/
inductive Reached where
  | serverInfo (payload : Bytes)
  | packet (property : PacketProperty) (bytes : Bytes)
  deriving DecidableEq

/-- What the rest of the server answers while one datagram is processed: whether the address still
maps to this very session at the `i`-th lookup, and whether processing the `i`-th packet returns an
error, which ends the unpacking loop.  Call `0` is the datagram itself. -/
structure Surroundings where
  present : ℕ → Bool
  fails : ℕ → Bool

/-- `process_packet_for_peer` on a logical packet: there is an expected session, and the seal is not
consulted again. -/
def processNested (connectionNumber : BitVec 2) (present : Bool) (bytes : Bytes) : Option Reached :=
  match serverInfoRequest bytes with
  | some payload => some (.serverInfo payload)
  | none =>
    match bytes with
    | [] => none
    | header :: _ =>
      match PacketProperty.fromByte header with
      | none => none
      | some property =>
        if property.needsPeer && !(present && connectionNumberOf header == connectionNumber) then
          none
        else some (.packet property bytes)

/-- The unpacking loop. -/
def processEntries (connectionNumber : BitVec 2) (env : Surroundings) :
    ℕ → List Bytes → List Reached
  | _, [] => []
  | i, packet :: rest =>
    (processNested connectionNumber (env.present i) packet).toList ++
      if env.fails i then [] else processEntries connectionNumber env (i + 1) rest

/-- What becomes of one datagram. -/
structure Processed (Key : Type) where
  inboundSeal : InboundSeal Key
  counter : Option ℕ
  reached : List Reached

variable {Key : Type}

/-- `process_packet_for_peer` on a datagram from the address of the session. -/
def processPacket (aead : Aead Key) (connectionNumber : BitVec 2) (env : Surroundings)
    (inboundSeal : InboundSeal Key) (bytes : Bytes) : Processed Key :=
  match serverInfoRequest bytes with
  | some payload => ⟨inboundSeal, none, [.serverInfo payload]⟩
  | none =>
    match bytes with
    | [] => ⟨inboundSeal, none, []⟩
    | header :: _ =>
      match PacketProperty.fromByte header with
      | none => ⟨inboundSeal, none, []⟩
      | some property =>
        if property.needsPeer then
          if env.present 0 && connectionNumberOf header == connectionNumber then
            let opening := inboundSeal.openPacket aead bytes
            match opening.packet with
            | none => ⟨opening.inboundSeal, opening.counter, []⟩
            | some opened =>
              ⟨opening.inboundSeal, opening.counter, .packet property opened ::
                processEntries connectionNumber env 1
                  (nestedEntries connectionNumber property opened)⟩
          else ⟨inboundSeal, none, []⟩
        else ⟨inboundSeal, none, [.packet property bytes]⟩

/-- The packets a plain datagram stands for: itself and the logical packets inside it. -/
def contents (connectionNumber : BitVec 2) (plain : Bytes) : List Bytes :=
  plain ::
    match plain.head?.bind PacketProperty.fromByte with
    | none => []
    | some property => nestedEntries connectionNumber property plain

/-! ### Runs of a session -/

/-- A session accepted awaiting a seal.  `produced` is what the key holder has sealed and `accepted`
the counters of the datagrams that authenticated so far; both are history. -/
structure SealedSession (Key : Type) where
  inboundSeal : InboundSeal Key
  produced : List SealedPacket
  accepted : List ℕ

inductive SealedAction where
  | activate
  | produce (e : SealedPacket)
  | datagram (env : Surroundings) (bytes : Bytes)

variable (aead : Aead Key) (key : Key) (connectionNumber : BitVec 2)

def sealedStep (s : SealedSession Key) : SealedAction → Option (SealedSession Key)
  | .activate => some { s with inboundSeal := (s.inboundSeal.activate key).1 }
  | .produce e => some { s with produced := e :: s.produced }
  | .datagram env bytes =>
    let result := processPacket aead connectionNumber env s.inboundSeal bytes
    some { s with
      inboundSeal := result.inboundSeal
      accepted := result.counter.toList ++ s.accepted }

def sealedSystem : System (SealedSession Key) SealedAction where
  init s := s.inboundSeal = .awaitingKey ∧ s.produced = [] ∧ s.accepted = []
  step := sealedStep aead key connectionNumber

/-- **The ideal cipher.**  A datagram that decrypts under the session key is one that the key holder
sealed, and it decrypts to what was sealed. -/
def Ideal (s : SealedSession Key) : SealedAction → Prop
  | .datagram _ bytes => ∀ opened, decryptDatagram aead key bytes = some opened →
      ∃ e ∈ s.produced, bytes = e.datagram aead key ∧
        e.counter = (counterField bytes).toNat ∧ opened = e.plain
  | _ => True

/-! ### What reaches the dispatch -/

section

variable {aead key connectionNumber} {header : Byte} {p opened : Bytes} {s : SealedSession Key}
  {inboundSeal : InboundSeal Key}

theorem PacketProperty.isUserData_of_not_needsPeer (property : PacketProperty)
    (h : property.needsPeer = false) : property.isUserData = false := by
  cases property <;> first | rfl | cases h

variable {property : PacketProperty}

/-- The user-data test of the gate looks at the same bits as the dispatch. -/
theorem isUserData_propertyBits (h : PacketProperty.fromByte header = some property) :
    InboundSeal.isUserData (InboundSeal.propertyBits header) = property.isUserData := by
  rw [InboundSeal.propertyBits, PacketProperty.fromByte_code h, PacketProperty.isUserData]

/-- A packet that is not user data has nothing inside it. -/
theorem nestedEntries_of_not_userData (property : PacketProperty) (bytes : Bytes)
    (h : property.isUserData = false) : nestedEntries connectionNumber property bytes = [] := by
  cases property <;> first | rfl | cases h

/-- The unpacking loop dispatches entries only. -/
theorem mem_of_mem_processEntries {env : Surroundings} (entries : List Bytes) (i : ℕ)
    (h : Reached.packet property p ∈ processEntries connectionNumber env i entries) :
    p ∈ entries := by
  induction entries generalizing i with
  | nil => cases h
  | cons packet rest ih =>
    rw [processEntries, List.mem_append] at h
    rcases h with h | h
    · rw [Option.mem_toList] at h
      have hp : p = packet := by
        unfold processNested at h
        split at h
        · cases h
        · split at h
          · cases h
          · split at h
            · cases h
            · split at h
              · cases h
              · simp only [Option.some.injEq, Reached.packet.injEq] at h
                exact h.2.symm
      exact hp ▸ .head _
    · split at h
      · cases h
      · exact .tail _ (ih _ h)

/-- **The two ways through `processPacket`**: either the seal is not consulted, and then no user
data is dispatched, or the datagram goes through `openPacket`. -/
theorem processPacket_cases (aead : Aead Key) (connectionNumber : BitVec 2) (env : Surroundings)
    (inboundSeal : InboundSeal Key) (bytes : Bytes) :
    ((processPacket aead connectionNumber env inboundSeal bytes).inboundSeal = inboundSeal ∧
      (processPacket aead connectionNumber env inboundSeal bytes).counter = none ∧
      ∀ property p, Reached.packet property p ∈
        (processPacket aead connectionNumber env inboundSeal bytes).reached →
          property.isUserData = false ∧ bytes.head?.bind PacketProperty.fromByte = some property) ∨
    ∃ header rest property opening, bytes = header :: rest ∧
      PacketProperty.fromByte header = some property ∧
      opening = inboundSeal.openPacket aead bytes ∧
      processPacket aead connectionNumber env inboundSeal bytes =
        ⟨opening.inboundSeal, opening.counter,
          match opening.packet with
          | none => []
          | some opened => .packet property opened ::
              processEntries connectionNumber env 1
                (nestedEntries connectionNumber property opened)⟩ := by
  unfold processPacket
  split
  · exact .inl ⟨rfl, rfl, by simp⟩
  · split
    · exact .inl ⟨rfl, rfl, by simp⟩
    · rename_i header rest _
      split
      · exact .inl ⟨rfl, rfl, by simp⟩
      · rename_i property hprop
        split
        · split
          · refine .inr ⟨header, rest, property, _, rfl, hprop, rfl, ?_⟩
            dsimp only
            cases (inboundSeal.openPacket aead (header :: rest)).packet <;> rfl
          · exact .inl ⟨rfl, rfl, by simp⟩
        · rename_i hneeds
          refine .inl ⟨rfl, rfl, ?_⟩
          intro property' p hmem
          rw [List.mem_singleton] at hmem
          injection hmem with hp _
          subst hp
          exact ⟨PacketProperty.isUserData_of_not_needsPeer _ (by simpa using hneeds), hprop⟩

/-- The seal of a session that started awaiting its key: no key yet and nothing accepted, or the
session key with a window that remembers what was accepted. -/
def SealOk (key : Key) (inboundSeal : InboundSeal Key) (accepted : List ℕ) : Prop :=
  match inboundSeal with
  | .plain => False
  | .awaitingKey => accepted = []
  | .active cipher window _ => cipher = key ∧ Remembers window accepted

/-- **User data through the gate.**  A user-data packet that `openPacket` lets through was decrypted
under a counter that was not accepted before. -/
theorem openPacket_userData {accepted : List ℕ} {rest : Bytes}
    (hok : SealOk key inboundSeal accepted)
    (hopen : (inboundSeal.openPacket aead (header :: rest)).packet = some opened)
    (huser : InboundSeal.isUserData (InboundSeal.propertyBits header) = true) :
    decryptDatagram aead key (header :: rest) = some opened ∧
      (counterField (header :: rest)).toNat ∉ accepted ∧
      (inboundSeal.openPacket aead (header :: rest)).counter =
        some (counterField (header :: rest)).toNat := by
  cases inboundSeal with
  | plain => exact hok.elim
  | awaitingKey => simp [InboundSeal.openPacket, huser] at hopen
  | active cipher window proven =>
    obtain ⟨rfl, hrem⟩ := hok
    rcases InboundSeal.openPacket_active_cases aead cipher window proven
        header rest with ⟨counter, plain, hauth, heq⟩ | ⟨-, heq⟩
    · obtain ⟨hdec, hctr, hcould⟩ := InboundSeal.authenticate_eq_some hauth
      rw [heq] at hopen ⊢
      injection hopen with hplain
      subst hplain hctr
      exact ⟨hdec, hrem.not_mem_of_couldAccept hcould, rfl⟩
    · rw [heq] at hopen
      simp [huser] at hopen

/-- `openPacket` keeps the state of the seal right. -/
theorem openPacket_sealOk {accepted : List ℕ} (packet : Bytes)
    (hok : SealOk key inboundSeal accepted) :
    SealOk key (inboundSeal.openPacket aead packet).inboundSeal
      ((inboundSeal.openPacket aead packet).counter.toList ++ accepted) := by
  cases packet with
  | nil => simpa [InboundSeal.openPacket] using hok
  | cons header rest =>
    cases inboundSeal with
    | plain => exact hok.elim
    | awaitingKey => simpa [InboundSeal.openPacket] using hok
    | active cipher window proven =>
      obtain ⟨rfl, hrem⟩ := hok
      rcases InboundSeal.openPacket_active_cases aead cipher window proven
        header rest with ⟨counter, plain, hauth, heq⟩ | ⟨-, heq⟩
      · rw [heq]
        exact ⟨rfl, hrem.accept (InboundSeal.authenticate_eq_some hauth).2.2⟩
      · rw [heq]
        exact ⟨rfl, hrem⟩

/-- Every reachable session has its seal in order. -/
theorem sealOk_of_reachable
    (hs : Reachable (sealedSystem aead key connectionNumber) (Ideal aead key) s) :
    SealOk key s.inboundSeal s.accepted := by
  refine Reachable.invariant (fun s => SealOk key s.inboundSeal s.accepted) ?_ ?_ hs
  · rintro s ⟨hseal, -, hacc⟩
    rw [hseal]
    exact hacc
  · intro s a s' hinv _ hstep
    cases a with
    | activate =>
      cases hstep
      cases hseal : s.inboundSeal with
      | plain => rw [hseal] at hinv; exact hinv.elim
      | awaitingKey =>
        rw [hseal] at hinv
        have hacc : s.accepted = [] := hinv
        rw [InboundSeal.activate, hacc]
        exact ⟨rfl, Remembers.default⟩
      | active cipher window proven => rw [hseal] at hinv; exact hinv
    | produce e =>
      cases hstep
      exact hinv
    | datagram env bytes =>
      cases hstep
      rcases processPacket_cases aead connectionNumber env
        s.inboundSeal bytes with ⟨hseal, hctr, -⟩ | ⟨_, _, _, _, -, -, rfl, heq⟩
      · simpa only [hseal, hctr, Option.toList_none, List.nil_append] using hinv
      · simp only [heq]
        exact openPacket_sealOk bytes hinv

/-- A datagram whose header carries a user-data property. -/
def isUserDataDatagram (bytes : Bytes) : Bool :=
  match bytes with
  | [] => false
  | header :: _ => InboundSeal.isUserData (InboundSeal.propertyBits header)

/-- The head of a decrypted datagram is the header byte that travelled in clear. -/
theorem decryptDatagram_head {rest : Bytes}
    (h : decryptDatagram aead key (header :: rest) = some opened) : opened.head? = some header := by
  unfold decryptDatagram at h
  dsimp only at h
  split_ifs at h
  split at h
  · injection h with h
    rw [← h]
    rfl
  · cases h

/-- What is dispatched for a datagram that was opened lies in its content. -/
theorem mem_contents_of_reached {env : Surroundings} {property' : PacketProperty}
    (hhead : opened.head? = some header) (hprop : PacketProperty.fromByte header = some property)
    (h : Reached.packet property' p ∈ Reached.packet property opened ::
      processEntries connectionNumber env 1 (nestedEntries connectionNumber property opened)) :
    p ∈ contents connectionNumber opened := by
  rcases List.mem_cons.mp h with h | h
  · injection h with _ hp
    subst hp
    exact .head _
  · refine .tail _ ?_
    rw [hhead]
    simp only [Option.bind_some, hprop]
    exact mem_of_mem_processEntries _ _ h

/-- **Dispatched packets of an unopened or opened datagram.**  In a session whose seal is in order,
a dispatched packet is user data, or stands in a user-data datagram, only if the datagram decrypts
and its counter is new. -/
theorem reached_userData (hok : SealOk key s.inboundSeal s.accepted) (env : Surroundings)
    (bytes : Bytes) (hmem : Reached.packet property p ∈
      (processPacket aead connectionNumber env s.inboundSeal bytes).reached)
    (huser : property.isUserData = true ∨ isUserDataDatagram bytes = true) :
    ∃ opened, decryptDatagram aead key bytes = some opened ∧
      p ∈ contents connectionNumber opened ∧ (counterField bytes).toNat ∉ s.accepted ∧
      (processPacket aead connectionNumber env s.inboundSeal bytes).counter =
        some (counterField bytes).toNat := by
  rcases processPacket_cases aead connectionNumber env s.inboundSeal bytes with
    ⟨-, -, hreached⟩ | ⟨header, rest, outer, opening, rfl, hprop, rfl, heq⟩
  · -- the seal was not consulted: neither alternative of `huser` is possible
    obtain ⟨hnot, hhead⟩ := hreached property p hmem
    rcases huser with huser | huser
    · rw [hnot] at huser
      cases huser
    · cases bytes with
      | nil => cases huser
      | cons header rest =>
        have hprop : PacketProperty.fromByte header = some property := by simpa using hhead
        have hbits := isUserData_propertyBits hprop
        rw [hnot] at hbits
        simp [isUserDataDatagram, hbits] at huser
  · rw [heq] at hmem ⊢
    have hbits := isUserData_propertyBits hprop
    cases hopen : (s.inboundSeal.openPacket aead (header :: rest)).packet with
    | none =>
      rw [hopen] at hmem
      cases hmem
    | some opened =>
      simp only [hopen] at hmem
      -- a packet that is not user data itself has nothing inside it
      have houter : outer.isUserData = true := by
        by_contra hne
        have hfalse : outer.isUserData = false := by simpa using hne
        rw [nestedEntries_of_not_userData outer opened hfalse] at hmem
        simp only [processEntries, List.mem_singleton, Reached.packet.injEq] at hmem
        rcases huser with huser | huser
        · rw [hmem.1, hfalse] at huser
          cases huser
        · rw [isUserDataDatagram, hbits, hfalse] at huser
          cases huser
      obtain ⟨hdec, hnew, hctr⟩ := openPacket_userData hok hopen (by rw [hbits, houter])
      exact ⟨opened, hdec, mem_contents_of_reached (decryptDatagram_head hdec) hprop hmem,
        hnew, hctr⟩

/-- A datagram that does not decrypt leaves the seal as it was. -/
theorem processPacket_of_decrypt_none (hok : SealOk key s.inboundSeal s.accepted)
    (env : Surroundings) (bytes : Bytes) (hdec : decryptDatagram aead key bytes = none) :
    (processPacket aead connectionNumber env s.inboundSeal bytes).inboundSeal = s.inboundSeal := by
  rcases processPacket_cases aead connectionNumber env s.inboundSeal bytes with
    ⟨hseal, -, -⟩ | ⟨header, rest, outer, opening, rfl, hprop, rfl, heq⟩
  · exact hseal
  · rw [heq]
    cases hstate : s.inboundSeal with
    | plain | awaitingKey => rfl
    | active cipher window proven =>
      rw [hstate] at hok
      obtain ⟨rfl, -⟩ := hok
      have hauth := InboundSeal.authenticate_of_decrypt_none window hdec
      simp [InboundSeal.openPacket, hauth]

/-- `proven` is never reset. -/
theorem processPacket_isProven (env : Surroundings) (inboundSeal : InboundSeal Key)
    (bytes : Bytes) (h : inboundSeal.isProven = true) :
    (processPacket aead connectionNumber env inboundSeal bytes).inboundSeal.isProven = true := by
  rcases processPacket_cases aead connectionNumber env inboundSeal bytes with
    ⟨hseal, -, -⟩ | ⟨header, rest, outer, opening, rfl, hprop, rfl, heq⟩
  · rw [hseal]
    exact h
  · rw [heq]
    cases inboundSeal with
    | plain | awaitingKey => cases h
    | active cipher window proven =>
      rcases InboundSeal.openPacket_active_cases aead cipher window proven header rest with
        ⟨counter, plain, -, heq⟩ | ⟨-, heq⟩
      · rw [heq]
        rfl
      · rw [heq]
        exact h

end

/-- **Sealed sessions.** In every run of a session that was accepted awaiting a seal, with an ideal
cipher, for every next datagram: user data that reaches the dispatch is the content of a datagram
the key holder sealed under a counter that had not been accepted before; once the seal is proven it
stays so, and no user-data datagram is processed that the key holder did not seal; and a datagram
that does not authenticate leaves the window and the proven state as they were. -/
theorem sealed_session_user_data {s s' : SealedSession Key}
    (hs : Reachable (sealedSystem aead key connectionNumber) (Ideal aead key) s)
    (env : Surroundings) (bytes : Bytes) (hideal : Ideal aead key s (.datagram env bytes))
    (hstep : (sealedSystem aead key connectionNumber).step s (.datagram env bytes) = some s') :
    (∀ property p,
      Reached.packet property p ∈
        (processPacket aead connectionNumber env s.inboundSeal bytes).reached →
      property.isUserData = true →
      ∃ e ∈ s.produced, bytes = e.datagram aead key ∧ p ∈ contents connectionNumber e.plain ∧
        e.counter ∉ s.accepted ∧ s'.accepted = e.counter :: s.accepted) ∧
    (s.inboundSeal.isProven = true → s'.inboundSeal.isProven = true ∧
      (isUserDataDatagram bytes = true → (∀ e ∈ s.produced, bytes ≠ e.datagram aead key) →
        ∀ property p, Reached.packet property p ∉
          (processPacket aead connectionNumber env s.inboundSeal bytes).reached)) ∧
    (decryptDatagram aead key bytes = none → s'.inboundSeal = s.inboundSeal) := by
  have hok := sealOk_of_reachable hs
  cases hstep
  refine ⟨?_, ?_, ?_⟩
  · intro property p hmem huser
    obtain ⟨opened, hdec, hcontent, hnew, hctr⟩ := reached_userData hok env bytes hmem (.inl huser)
    obtain ⟨e, he, hbytes, hcounter, rfl⟩ := hideal opened hdec
    refine ⟨e, he, hbytes, hcontent, hcounter ▸ hnew, ?_⟩
    rw [hctr, hcounter]
    rfl
  · intro hproven
    refine ⟨processPacket_isProven env _ bytes hproven, ?_⟩
    intro huser hclear property p hmem
    obtain ⟨opened, hdec, -⟩ := reached_userData hok env bytes hmem (.inr huser)
    obtain ⟨e, he, hbytes, -⟩ := hideal opened hdec
    exact hclear e he hbytes
  · exact processPacket_of_decrypt_none hok env bytes

/-- ChaCha20-Poly1305 on one input: key of nines, counter `1`, header `1`, body `5, 6, 7`. -/
def sampleAead : Aead Bytes where
  encryptDetached key nonce aad plain :=
    if key = List.replicate 32 9#8 ∧ nonce = nonceOf 1 ∧ aad = [1#8] ∧ plain = [5#8, 6#8, 7#8] then
      ([233, 132, 59], [66, 221, 254, 59, 144, 189, 147, 209, 219, 152, 34, 81, 247, 164, 230, 20])
    else ([], [])
  decryptDetached key nonce aad cipher tag :=
    if key = List.replicate 32 9#8 ∧ nonce = nonceOf 1 ∧ aad = [1#8] ∧
        cipher = [233, 132, 59] ∧
        tag = [66, 221, 254, 59, 144, 189, 147, 209, 219, 152, 34, 81, 247, 164, 230, 20] then
      some [5, 6, 7]
    else none

def sampleKey : Bytes := List.replicate 32 9#8

def samplePacket : SealedPacket := ⟨1, 1, [5, 6, 7]⟩

/-- The session after the key holder has sealed one packet and the key was activated. -/
def sampleSession : SealedSession Bytes :=
  ⟨.active sampleKey ReplayWindow.default false, [samplePacket], []⟩

theorem sampleSession_reachable :
    Reachable (sealedSystem sampleAead sampleKey 0) (Ideal sampleAead sampleKey) sampleSession := by
  have h₀ : Reachable (sealedSystem sampleAead sampleKey 0) (Ideal sampleAead sampleKey)
      ⟨.awaitingKey, [], []⟩ := .init ⟨rfl, rfl, rfl⟩
  have h₁ : Reachable (sealedSystem sampleAead sampleKey 0) (Ideal sampleAead sampleKey)
      ⟨.awaitingKey, [samplePacket], []⟩ := .step (a := .produce samplePacket) h₀ trivial rfl
  exact .step (a := .activate) h₁ trivial rfl

theorem samplePacket_decrypts :
    decryptDatagram sampleAead sampleKey (samplePacket.datagram sampleAead sampleKey) =
      some samplePacket.plain := by
  decide +kernel

/-- The sealed packet of the sample session is dispatched, and its counter is accepted. -/
theorem sealed_session_user_data_sample :
    ∃ e ∈ sampleSession.produced,
      samplePacket.datagram sampleAead sampleKey = e.datagram sampleAead sampleKey ∧
      samplePacket.plain ∈ contents 0 e.plain ∧ e.counter ∉ sampleSession.accepted ∧
      (processPacket sampleAead 0 ⟨fun _ => true, fun _ => false⟩ sampleSession.inboundSeal
        (samplePacket.datagram sampleAead sampleKey)).counter.toList ++ [] = e.counter :: [] := by
  refine (sealed_session_user_data sampleAead sampleKey 0 sampleSession_reachable
    ⟨fun _ => true, fun _ => false⟩ (samplePacket.datagram sampleAead sampleKey) ?_ rfl).1
    .channeled samplePacket.plain ?_ rfl
  · intro opened hopened
    rw [samplePacket_decrypts] at hopened
    injection hopened with hopened
    exact ⟨samplePacket, List.mem_singleton_self _, rfl, by decide +kernel, hopened.symm⟩
  · decide +kernel

end BasisRust.Transport
