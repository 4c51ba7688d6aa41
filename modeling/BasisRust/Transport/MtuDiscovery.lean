import BasisRust.Library.Run
import BasisRust.Transport.Datagrams
import BasisRust.Transport.Fragment

/-!
# The discovery of the MTU

The server probes the sizes of `LITENETLIB_MTU_STEPS` one after the other with padded datagrams, and
takes a size for the MTU of a connection when the client has echoed the probe whose token is
pending.

The network between them loses, duplicates, delays and reorders datagrams, and carries none to the
client that is longer than the limit of the path.  Times, tokens and refused sends are arbitrary,
and whoever does not know the pending token may send the server what he likes.
-/

namespace BasisRust.Transport

open Library

def mtuProbeInterval : ℕ := 1000
def maxMtuProbeAttempts : ℕ := 4

/-! ### The server -/

structure MtuProbeState where
  nextStep : ℕ
  attempts : ℕ
  nextAt : ℕ
  pending : Option (ℕ × BitVec 64)

def mtuPacket (property : PacketProperty) (connectionNumber : BitVec 2) (mtu : ℕ)
    (token : BitVec 64) : Bytes :=
  property.header connectionNumber :: (leBytes 4 mtu ++ (leBytes 8 token.toNat ++
    (List.replicate (mtu - 17) 0 ++ leBytes 4 mtu)))

namespace MtuProbeState

def new (now : ℕ) : MtuProbeState :=
  { nextStep := 1, attempts := 0, nextAt := now + mtuProbeInterval, pending := none }

variable (s : MtuProbeState) (now : ℕ) (connectionNumber : BitVec 2)
  (token : BitVec 64) (sent : Bool)
  (bytes : Bytes)

/-- `next_packet`, with the token that the source draws. -/
def nextPacket : MtuProbeState × Option Bytes :=
  if now < s.nextAt then (s, none)
  else
    match litenetlibMtuSteps[s.nextStep]? with
    | none => (s, none)
    | some mtu =>
      if maxMtuProbeAttempts ≤ s.attempts then
        ({ s with nextStep := litenetlibMtuSteps.length, pending := none }, none)
      else
        (⟨s.nextStep, s.attempts + 1, now + mtuProbeInterval, some (mtu, token)⟩,
          some (mtuPacket .mtuCheck connectionNumber mtu token))

/-- `try_send_mtu_probe`; `sent` says whether `send` answers `Ok(true)`. -/
def trySend : MtuProbeState × Option Bytes :=
  match s.nextPacket now connectionNumber token with
  | (s', none) => (s', none)
  | (s', some packet) =>
    if sent then (s', some packet)
    else ({ s' with attempts := s'.attempts - 1, pending := s.pending }, none)

def acceptResponse : MtuProbeState × Option ℕ :=
  match s.pending with
  | none => (s, none)
  | some (mtu, token) =>
    if bytes.length ≠ mtu ∨ bytes.head? ≠ some (PacketProperty.mtuOk.header connectionNumber) ∨
        slice bytes 1 4 ≠ leBytes 4 mtu ∨ slice bytes 5 8 ≠ leBytes 8 token.toNat ∨
        (slice bytes 13 (mtu - 17)).any (· ≠ 0) ∨ bytes.drop (mtu - 4) ≠ leBytes 4 mtu then
      (s, none)
    else (⟨s.nextStep + 1, 0, now + mtuProbeInterval, none⟩, some mtu)

variable (cn : BitVec 2)

theorem trySend_cases : s.trySend now cn token sent = (s, none) ∨
    ∃ mtu, litenetlibMtuSteps[s.nextStep]? = some mtu ∧
      (s.trySend now cn token sent =
          ({ s with nextStep := litenetlibMtuSteps.length, pending := none }, none) ∨
        s.trySend now cn token sent = ({ s with nextAt := now + mtuProbeInterval }, none) ∨
        s.attempts < 4 ∧ s.trySend now cn token sent =
          (⟨s.nextStep, s.attempts + 1, now + mtuProbeInterval, some (mtu, token)⟩,
            some (mtuPacket .mtuCheck cn mtu token))) := by
  unfold trySend nextPacket
  by_cases hearly : now < s.nextAt
  · rw [if_pos hearly]
    exact .inl rfl
  rw [if_neg hearly]
  cases hstep : litenetlibMtuSteps[s.nextStep]? with
  | none => exact .inl rfl
  | some mtu =>
    refine .inr ⟨mtu, rfl, ?_⟩
    by_cases hspent : maxMtuProbeAttempts ≤ s.attempts
    · simp only [if_pos hspent, true_or]
    · simp only [if_neg hspent]
      cases sent
      · exact .inr (.inl rfl)
      · exact .inr (.inr ⟨Nat.lt_of_not_le hspent, rfl⟩)

theorem acceptResponse_cases : s.acceptResponse now cn bytes = (s, none) ∨
    ∃ mtu token, s.pending = some (mtu, token) ∧ bytes.length = mtu ∧
      slice bytes 5 8 = leBytes 8 token.toNat ∧
      s.acceptResponse now cn bytes =
        (⟨s.nextStep + 1, 0, now + mtuProbeInterval, none⟩, some mtu) := by
  unfold acceptResponse
  cases hpending : s.pending with
  | none => exact .inl rfl
  | some pending =>
    dsimp only
    split_ifs with hbad
    · exact .inl rfl
    · simp only [not_or, not_not] at hbad
      exact .inr ⟨pending.1, pending.2, rfl, hbad.1, hbad.2.2.2.1, rfl⟩

end MtuProbeState

/-! ### The client -/

/-- `mtu_probe_reply`.  The length field is an `i32`; a negative one is the length of no packet. -/
def mtuProbeReply (packet : Bytes) (connectionNumber : BitVec 2) : Option Bytes :=
  if ¬(litenetlibInitialMtu ≤ packet.length ∧ packet.length ≤ litenetlibMaxMtu) ∨
      packet.head? ≠ some (PacketProperty.mtuCheck.header connectionNumber) then none
  else if leNat (slice packet 1 4) ≠ packet.length ∨
      (slice packet 13 (packet.length - 17)).any (· ≠ 0) ∨
      packet.drop (packet.length - 4) ≠ slice packet 1 4 then none
  else some (packet.modifyHead fun b => b &&& 0xe0#8 ||| BitVec.ofNat 8 PacketProperty.mtuOk.code)

theorem mtuProbeReply_length {packet reply : Bytes} {cn : BitVec 2}
    (h : mtuProbeReply packet cn = some reply) : reply.length = packet.length := by
  unfold mtuProbeReply at h
  split_ifs at h
  obtain rfl := Option.some.inj h
  exact List.length_modifyHead

/-! ### A probe and its echo -/

theorem steps_bounds {mtu : ℕ} (h : mtu ∈ litenetlibMtuSteps) : 1024 ≤ mtu ∧ mtu ≤ 1432 := by
  revert mtu
  decide

section

variable {mtu : ℕ} (h : mtu ∈ litenetlibMtuSteps) (property : PacketProperty) (cn : BitVec 2)
  (token : BitVec 64)
include h

theorem mtuPacket_length : (mtuPacket property cn mtu token).length = mtu := by
  have hbound := (steps_bounds h).1
  simp only [mtuPacket, List.length_cons, List.length_append, leBytes_length, List.length_replicate]
  omega

/-- The padding and the size behind it; the fields in front are where a reduction finds them. -/
theorem mtuPacket_end :
    slice (mtuPacket property cn mtu token) 13 (mtu - 17) = .replicate (mtu - 17) 0 ∧
    (mtuPacket property cn mtu token).drop (mtu - 4) = leBytes 4 mtu := by
  have hbound := (steps_bounds h).1
  refine ⟨List.take_left' List.length_replicate, ?_⟩
  rw [mtuPacket, ← List.append_assoc, ← List.append_assoc, ← List.cons_append]
  refine List.drop_left' ?_
  simp only [List.length_cons, List.length_append, leBytes_length, List.length_replicate]
  omega

/-- **The client answers a probe** with the response that the server waits for. -/
theorem mtuProbeReply_mtuPacket :
    mtuProbeReply (mtuPacket .mtuCheck cn mtu token) cn =
      some (mtuPacket .mtuOk cn mtu token) := by
  have hbounds := steps_bounds h
  have hsize : mtu < 256 ^ 4 := Nat.lt_of_le_of_lt hbounds.2 (by decide)
  obtain ⟨hpadding, hend⟩ := mtuPacket_end h .mtuCheck cn token
  have hmtu : slice (mtuPacket .mtuCheck cn mtu token) 1 4 = leBytes 4 mtu := rfl
  have hheader : ∀ number, PacketProperty.mtuCheck.header number &&& 0xe0#8 |||
      BitVec.ofNat 8 PacketProperty.mtuOk.code = PacketProperty.mtuOk.header number := by decide
  rw [mtuProbeReply, mtuPacket_length h, if_neg, hmtu, hpadding, hend, if_neg]
  · simp only [mtuPacket, List.modifyHead_cons, hheader]
  · simp [leNat_leBytes 4 mtu hsize]
  · simp [litenetlibInitialMtu, litenetlibMaxMtu, hbounds, mtuPacket]

/-- **The server accepts the response** to its pending probe. -/
theorem acceptResponse_mtuPacket {s : MtuProbeState}
    (hpending : s.pending = some (mtu, token)) (now : ℕ) :
    s.acceptResponse now cn (mtuPacket .mtuOk cn mtu token) =
      (⟨s.nextStep + 1, 0, now + mtuProbeInterval, none⟩, some mtu) := by
  obtain ⟨hpadding, hend⟩ := mtuPacket_end h .mtuOk cn token
  rw [MtuProbeState.acceptResponse, hpending]
  dsimp only
  rw [mtuPacket_length h, hpadding, hend, if_neg]
  simp [mtuPacket, slice, leBytes]

end

theorem steps_sorted {n mtu mtu' : ℕ} (h : litenetlibMtuSteps[n]? = some mtu)
    (h' : litenetlibMtuSteps[n + 1]? = some mtu') : mtu ≤ mtu' := by
  obtain ⟨hlt, rfl⟩ := List.getElem?_eq_some_iff.mp h
  obtain ⟨hlt', rfl⟩ := List.getElem?_eq_some_iff.mp h'
  have hsorted : litenetlibMtuSteps.Pairwise (· ≤ ·) := by decide
  exact List.pairwise_iff_getElem.mp hsorted _ _ hlt hlt' n.lt_succ_self

/-! ### The connection -/

structure MtuDiscovery where
  connectionNumber : BitVec 2
  probe : MtuProbeState
  confirmedMtu : ℕ
  /-- The probes that were sent, and what the client has answered. -/
  probes : List Bytes
  answers : List Bytes

inductive MtuAction where
  | tick (now : ℕ) (token : BitVec 64) (sent : Bool)
  | carry (packet : Bytes)
  | receive (now : ℕ) (bytes : Bytes)

namespace MtuDiscovery

variable {limit mtu : ℕ} {token : BitVec 64} {s s' : MtuDiscovery} {a : MtuAction}

/-- The branch of `MtuOk`. -/
def receive (s : MtuDiscovery) (now : ℕ) (bytes : Bytes) : MtuDiscovery :=
  match s.probe.acceptResponse now s.connectionNumber bytes with
  | (probe, none) => { s with probe := probe }
  | (probe, some mtu) => { s with probe := probe, confirmedMtu := max mtu maxMergedPacketSize }

def step (limit : ℕ) (s : MtuDiscovery) : MtuAction → Option MtuDiscovery
  | .tick now token sent =>
    let result := s.probe.trySend now s.connectionNumber token sent
    some { s with probe := result.1, probes := s.probes ++ result.2.toList }
  | .carry packet =>
    if packet ∈ s.probes ∧ packet.length ≤ limit then
      some { s with answers := s.answers ++ (mtuProbeReply packet s.connectionNumber).toList }
    else none
  | .receive now bytes => some (s.receive now bytes)

def system (limit : ℕ) : System MtuDiscovery MtuAction where
  init s := ∃ number now, s = ⟨number, .new now, maxMergedPacketSize, [], []⟩
  step := step limit

/-- What the server receives was answered by the client, or does not name the pending token. -/
def Genuine (s : MtuDiscovery) : MtuAction → Prop
  | .receive _ bytes => bytes ∈ s.answers ∨
      ∀ mtu token, s.probe.pending = some (mtu, token) → slice bytes 5 8 ≠ leBytes 8 token.toNat
  | _ => True

/-- What holds in every reachable state.  A step of the table costs at most four probes. -/
structure Inv (limit : ℕ) (s : MtuDiscovery) : Prop where
  pending : ∀ mtu token, s.probe.pending = some (mtu, token) →
    litenetlibMtuSteps[s.probe.nextStep]? = some mtu ∧
      mtuPacket .mtuCheck s.connectionNumber mtu token ∈ s.probes
  answers : ∀ bytes ∈ s.answers, bytes.length ≤ limit
  size : ConfirmedMtu s.confirmedMtu
  carried : s.confirmedMtu ≤ max maxMergedPacketSize limit
  next : ∀ mtu, litenetlibMtuSteps[s.probe.nextStep]? = some mtu →
    s.confirmedMtu ≤ max mtu maxMergedPacketSize
  attempts : s.probe.attempts ≤ 4
  sent : s.probes.length ≤ 20
  spent : s.probe.nextStep < 6 → s.probes.length + 4 ≤ 4 * s.probe.nextStep + s.probe.attempts

theorem Inv.step (hinv : Inv limit s) (hok : Genuine s a) (hs : s.step limit a = some s') :
    Inv limit s' ∧ s.confirmedMtu ≤ s'.confirmedMtu := by
  cases a with
  | tick now token sent =>
    obtain rfl := Option.some.inj hs
    refine ⟨?_, le_rfl⟩
    obtain h | ⟨mtu, hmtu, h | h | ⟨hattempts, h⟩⟩ :=
      s.probe.trySend_cases now token sent s.connectionNumber
    all_goals rw [h]
    · simpa using hinv
    · -- The attempts are spent: the discovery ends.
      simp only [Option.toList_none, List.append_nil]
      exact { hinv with
        pending := fun _ _ hnone => by cases hnone
        next := fun _ hnone => by cases hnone
        spent := fun hlt => absurd hlt (Nat.lt_irrefl 6) }
    · simp only [Option.toList_none, List.append_nil]
      exact { hinv with }
    · have hlt : s.probe.nextStep < 6 := lt_of_getElem? hmtu
      have hspent := hinv.spent hlt
      have hlength : (s.probes ++ [mtuPacket .mtuCheck s.connectionNumber mtu token]).length =
          s.probes.length + 1 := List.length_append
      exact { hinv with
        pending := fun _ _ hsome => by
          obtain ⟨rfl, rfl⟩ := Prod.mk.inj (Option.some.inj hsome)
          exact ⟨hmtu, List.mem_concat_self⟩
        attempts := hattempts
        sent := by dsimp only [Option.toList_some]; omega
        spent := fun _ => by dsimp only [Option.toList_some]; omega }
  | carry packet =>
    unfold MtuDiscovery.step at hs
    dsimp only at hs
    split_ifs at hs with h
    obtain rfl := Option.some.inj hs
    refine ⟨{ hinv with answers := fun bytes hbytes => ?_ }, le_rfl⟩
    rcases List.mem_append.mp hbytes with hold | hnew
    · exact hinv.answers bytes hold
    · rw [mtuProbeReply_length (Option.mem_toList.mp hnew)]
      exact h.2
  | receive now bytes =>
    obtain rfl := Option.some.inj hs
    unfold receive
    obtain h | ⟨mtu, token, hpending, hlength, htoken, h⟩ :=
      s.probe.acceptResponse_cases now bytes s.connectionNumber
    · rw [h]
      exact ⟨hinv, le_rfl⟩
    have hmtu := (hinv.pending mtu token hpending).1
    have hlt : s.probe.nextStep < 6 := lt_of_getElem? hmtu
    have hspent := hinv.spent hlt
    have hattempts := hinv.attempts
    -- An echo of the pending token is an answer, so that the path has carried its length.
    have hanswered : bytes ∈ s.answers := hok.resolve_right fun hno => hno mtu token hpending htoken
    have hcarried := hinv.answers bytes hanswered
    rw [h]
    exact ⟨{
      pending := fun _ _ hnone => by cases hnone
      answers := hinv.answers
      size := .probed (List.mem_of_getElem? hmtu)
      carried := by dsimp only; omega
      next := fun mtu' hmtu' => by
        have hsorted := steps_sorted hmtu hmtu'
        dsimp only
        omega
      attempts := Nat.zero_le 4
      sent := hinv.sent
      spent := fun _ => by dsimp only; omega }, hinv.next mtu hmtu⟩

theorem inv_of_reachable (h : Reachable (system limit) Genuine s) : Inv limit s := by
  refine h.invariant (Inv limit) ?_ fun s a s' hinv hok hs => (hinv.step hok hs).1
  rintro s ⟨number, now, rfl⟩
  exact {
    pending := fun _ _ hnone => by cases hnone
    answers := fun _ hnone => by cases hnone
    size := .initial
    carried := le_max_left ..
    next := fun _ _ => le_max_right ..
    attempts := Nat.zero_le 4
    sent := Nat.zero_le 20
    spent := fun _ => le_rfl }

/-- The path carries the pending probe. -/
theorem carry_pending (hinv : Inv limit s) (hpending : s.probe.pending = some (mtu, token))
    (hlimit : mtu ≤ limit) :
    s.step limit (.carry (mtuPacket .mtuCheck s.connectionNumber mtu token)) =
      some { s with answers := s.answers ++ [mtuPacket .mtuOk s.connectionNumber mtu token] } := by
  obtain ⟨hmtu, hsent⟩ := hinv.pending mtu token hpending
  have hmem := List.mem_of_getElem? hmtu
  rw [MtuDiscovery.step, if_pos ⟨hsent, by rwa [mtuPacket_length hmem]⟩,
    mtuProbeReply_mtuPacket hmem]
  rfl

theorem receive_echo (hmem : mtu ∈ litenetlibMtuSteps)
    (hpending : s.probe.pending = some (mtu, token)) (now : ℕ) (answers : List Bytes) :
    receive { s with answers := answers } now (mtuPacket .mtuOk s.connectionNumber mtu token) =
      { s with
        probe := ⟨s.probe.nextStep + 1, 0, now + mtuProbeInterval, none⟩
        confirmedMtu := max mtu maxMergedPacketSize
        answers := answers } := by
  unfold receive
  rw [acceptResponse_mtuPacket hmem _ _ hpending]

/-- One round: the pending probe is carried, and its echo comes back. -/
theorem round (h : Reachable (system limit) Genuine s)
    (hpending : s.probe.pending = some (mtu, token)) (hlimit : mtu ≤ limit) (now : ℕ) :
    Reachable (system limit) Genuine
      { s with
        probe := ⟨s.probe.nextStep + 1, 0, now + mtuProbeInterval, none⟩
        confirmedMtu := max mtu maxMergedPacketSize
        answers := s.answers ++ [mtuPacket .mtuOk s.connectionNumber mtu token] } := by
  have hinv := inv_of_reachable h
  have hmem := List.mem_of_getElem? (hinv.pending mtu token hpending).1
  have hcarried : Reachable (system limit) Genuine _ :=
    .step (a := .carry _) h trivial (carry_pending hinv hpending hlimit)
  exact .step (a := .receive now _) hcarried (.inl List.mem_concat_self)
    (congrArg some (receive_echo hmem hpending now _))

/-- **The discovery of the MTU.** In every run, over a path that loses, duplicates and reorders, the
MTU of the connection is one the transport can pack for, no longer than the path has carried, and
never falls; at most twenty probes are sent, and where the path carries the probe that is pending,
its echo raises the MTU to the probed size. -/
theorem mtu_discovery (h : Reachable (system limit) Genuine s) :
    ConfirmedMtu s.confirmedMtu ∧ s.confirmedMtu ≤ max maxMergedPacketSize limit ∧
    s.probes.length ≤ 20 ∧
    (∀ a s', Genuine s a → s.step limit a = some s' → s.confirmedMtu ≤ s'.confirmedMtu) ∧
    ∀ mtu token, s.probe.pending = some (mtu, token) → mtu ≤ limit →
      ∃ packet s', s.step limit (.carry packet) = some s' ∧
        ∃ reply ∈ s'.answers, ∀ now,
          (s'.receive now reply).confirmedMtu = max mtu maxMergedPacketSize := by
  have hinv := inv_of_reachable h
  refine ⟨hinv.size, hinv.carried, hinv.sent, fun a s' hok hs => (hinv.step hok hs).2, ?_⟩
  intro mtu token hpending hlimit
  have hmem := List.mem_of_getElem? (hinv.pending mtu token hpending).1
  exact ⟨_, _, carry_pending hinv hpending hlimit, _, List.mem_concat_self, fun now =>
    congrArg confirmedMtu (receive_echo hmem hpending now _)⟩

/-- Two rounds over a path for 1500: the first echo leaves the MTU, the second raises it to 1392. -/
theorem mtu_discovery_probe :
    ∃ s s' : MtuDiscovery, Reachable (system 1500) Genuine s ∧
      s.probe.pending = some (1392, 9#64) ∧ s.confirmedMtu = 1200 ∧
      Reachable (system 1500) Genuine s' ∧ s'.confirmedMtu = 1392 ∧
      ConfirmedMtu s'.confirmedMtu ∧ s'.probes.length ≤ 20 := by
  have hfirst : Reachable (system 1500) Genuine _ :=
    .step (a := .tick 1000 7#64 true) (.init ⟨0, 0, rfl⟩) trivial rfl
  have hanswered := round hfirst rfl (by decide) 1100
  have hsecond : Reachable (system 1500) Genuine _ :=
    .step (a := .tick 2100 9#64 true) hanswered trivial rfl
  obtain ⟨-, -, -, -, hecho⟩ := mtu_discovery hsecond
  obtain ⟨packet, s₁, hcarry, reply, hreply, hraised⟩ := hecho 1392 9#64 rfl (by decide)
  have hcarried : Reachable (system 1500) Genuine s₁ :=
    .step (a := .carry packet) hsecond trivial hcarry
  have hreceived : Reachable (system 1500) Genuine (s₁.receive 2200 reply) :=
    .step (a := .receive 2200 reply) hcarried (.inl hreply) rfl
  obtain ⟨hsize, -, hsent, -⟩ := mtu_discovery hreceived
  exact ⟨_, _, hsecond, rfl, rfl, hreceived, (hraised 2200).trans (by decide), hsize, hsent⟩

end MtuDiscovery

end BasisRust.Transport
