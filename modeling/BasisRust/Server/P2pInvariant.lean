import BasisRust.Server.P2p
import Mathlib.Data.List.Nodup
import Mathlib.Logic.Function.Basic

/-!
# The broker's maps agree

`BrokerInv` relates the three maps of the broker as functions: the sessions by token, the tokens by
peer and the marked pairs.  There is one lemma for each way a handler changes them: a session is
claimed, replaced in place, or dropped.  `removePeer` first forgets the tokens of the peer and then
drops its sessions; in between `BrokerInv` holds of the maps with the tokens still to be visited put
back.
-/

namespace BasisRust.Server

open Library

/-! ### Pairs -/

theorem packPair_toNat (a b : PeerId) :
    (packPair a b).toNat = (min a.toNat b.toNat) * 2 ^ 32 + max a.toNat b.toNat := by
  have key : ∀ lo hi : PeerId,
      ((lo.setWidth 64 <<< 32) ||| hi.setWidth 64).toNat = lo.toNat * 2 ^ 32 + hi.toNat := by
    intro lo hi
    have hlo := lo.isLt
    have hhi := hi.isLt
    rw [BitVec.toNat_or, BitVec.toNat_shiftLeft, BitVec.toNat_setWidth, BitVec.toNat_setWidth,
      Nat.mod_eq_of_lt (by omega), Nat.mod_eq_of_lt (show hi.toNat < 2 ^ 64 by omega),
      Nat.shiftLeft_eq, Nat.mod_eq_of_lt (by omega), ← Nat.shiftLeft_eq,
      Nat.shiftLeft_add_eq_or_of_lt (by omega)]
  rw [packPair]
  by_cases h : a ≤ b
  · have hle : a.toNat ≤ b.toNat := h
    rw [if_pos h, if_pos h, key, min_eq_left hle, max_eq_right hle]
  · have hle : b.toNat ≤ a.toNat := by
      have : ¬ a.toNat ≤ b.toNat := h
      omega
    rw [if_neg h, if_neg h, key, min_eq_right hle, max_eq_left hle]

theorem packPair_comm (a b : PeerId) : packPair a b = packPair b a := by
  apply BitVec.eq_of_toNat_eq
  rw [packPair_toNat, packPair_toNat, min_comm, max_comm]

/-- Two pairs are packed to one number only when they are the same two peers. -/
theorem packPair_eq_iff {a b c d : PeerId} :
    packPair a b = packPair c d ↔ (a = c ∧ b = d) ∨ (a = d ∧ b = c) := by
  constructor
  · intro h
    have hnat := congrArg BitVec.toNat h
    rw [packPair_toNat, packPair_toNat] at hnat
    have ha := a.isLt
    have hb := b.isLt
    have hc := c.isLt
    have hd := d.isLt
    have hcases : (a.toNat = c.toNat ∧ b.toNat = d.toNat) ∨
        (a.toNat = d.toNat ∧ b.toNat = c.toNat) := by omega
    rcases hcases with ⟨h₁, h₂⟩ | ⟨h₁, h₂⟩
    · exact .inl ⟨BitVec.eq_of_toNat_eq h₁, BitVec.eq_of_toNat_eq h₂⟩
    · exact .inr ⟨BitVec.eq_of_toNat_eq h₁, BitVec.eq_of_toNat_eq h₂⟩
  · rintro (⟨rfl, rfl⟩ | ⟨rfl, rfl⟩)
    · rfl
    · exact packPair_comm a b

namespace P2pSession

theorem pair_eq_iff (s : P2pSession) (x y : PeerId) :
    s.pair = packPair x y ↔ s.authorizes x y = true := by
  simp only [pair, packPair_eq_iff, authorizes, Bool.or_eq_true, Bool.and_eq_true,
    decide_eq_true_eq]
  constructor
  · rintro (⟨h₁, h₂⟩ | ⟨h₁, h₂⟩)
    · exact .inl ⟨h₁.symm, h₂.symm⟩
    · exact .inr ⟨h₂.symm, h₁.symm⟩
  · rintro (⟨h₁, h₂⟩ | ⟨h₁, h₂⟩)
    · exact .inl ⟨h₁.symm, h₂.symm⟩
    · exact .inr ⟨h₂.symm, h₁.symm⟩

theorem participant_iff (s : P2pSession) (p : PeerId) :
    s.participant p = true ↔ s.initiatorPeerId = p ∨ s.targetPeerId = p := by
  simp [participant]

variable {s : P2pSession}

theorem participant_of_authorizes {x y : PeerId} (h : s.authorizes x y = true) :
    s.participant x = true := by
  simp only [authorizes, Bool.or_eq_true, Bool.and_eq_true, decide_eq_true_eq] at h
  rw [participant_iff]
  rcases h with ⟨h, -⟩ | ⟨h, -⟩
  · exact .inl h.symm
  · exact .inr h.symm

/-- The two sessions are of the same initiator and target. -/
def SameEnds (s s' : P2pSession) : Prop :=
  s'.initiatorPeerId = s.initiatorPeerId ∧ s'.targetPeerId = s.targetPeerId

theorem SameEnds.participant {s' : P2pSession} (h : SameEnds s s') (p : PeerId) :
    s'.participant p = s.participant p := by
  rw [P2pSession.participant, P2pSession.participant, h.1, h.2]

theorem SameEnds.pair {s' : P2pSession} (h : SameEnds s s') : s'.pair = s.pair := by
  rw [P2pSession.pair, P2pSession.pair, h.1, h.2]

end P2pSession

/-! ### The invariant -/

/-- The maps of the broker, as functions of the token and of the peer. -/
structure BrokerInv (sess : String → Option P2pSession) (toks : PeerId → List String)
    (off : Finset (BitVec 64)) : Prop where
  tokensNodup : ∀ p, (toks p).Nodup
  index : ∀ p token, token ∈ toks p ↔ ∃ s, sess token = some s ∧ s.participant p = true
  limit : ∀ p, (toks p).length ≤ maxSessionsPerPeer
  distinct : ∀ token s, sess token = some s → s.initiatorPeerId ≠ s.targetPeerId
  lease : ∀ token s, sess token = some s → s.linked = true → s.offloadLeaseDeadline.isSome = true
  marked : ∀ pair ∈ off, ∃ token s, sess token = some s ∧ s.pair = pair ∧ s.linked = true

section BrokerInv

variable {sess sess' : String → Option P2pSession} {toks : PeerId → List String}
  {off off' : Finset (BitVec 64)}

/-- Sessions are replaced in place, each by one of the same two peers. -/
theorem BrokerInv.inPlace (h : BrokerInv sess toks off)
    (hsess : ∀ token, sess' token = sess token ∨ ∃ s s', sess token = some s ∧
      sess' token = some s' ∧ s.SameEnds s' ∧
      (s'.linked = true → s'.offloadLeaseDeadline.isSome = true))
    (hmarked : ∀ pair ∈ off', ∃ token s, sess' token = some s ∧ s.pair = pair ∧
      s.linked = true) : BrokerInv sess' toks off' where
  __ := h
  index p token := by
    rw [h.index]
    rcases hsess token with heq | ⟨s, s', hs, hs', hends, -⟩
    · rw [heq]
    · rw [hs, hs']
      simp [hends.participant]
  distinct token s₁ hs₁ := by
    rcases hsess token with heq | ⟨s, s', hs, hs', hends, -⟩
    · exact h.distinct token s₁ (heq ▸ hs₁)
    · rw [hs'] at hs₁
      cases hs₁
      rw [hends.1, hends.2]
      exact h.distinct token s hs
  lease token s₁ hs₁ hlinked := by
    rcases hsess token with heq | ⟨s, s', hs, hs', -, hlease⟩
    · exact h.lease token s₁ (heq ▸ hs₁) hlinked
    · rw [hs'] at hs₁
      cases hs₁
      exact hlease hlinked
  marked := hmarked

/-- A session is removed with its index entries and the mark of its pair. -/
theorem BrokerInv.drop (h : BrokerInv sess toks off) {token : String} {s : P2pSession}
    (hs : sess token = some s) :
    BrokerInv (Function.update sess token none)
      (fun p => if s.participant p then (toks p).erase token else toks p) (off.erase s.pair) where
  tokensNodup p := by
    split_ifs
    · exact (h.tokensNodup p).erase _
    · exact h.tokensNodup p
  index p token' := by
    by_cases ht : token' = token
    · subst ht
      simp only [Function.update_self, reduceCtorEq, false_and, exists_false, iff_false]
      split_ifs with hp
      · rw [(h.tokensNodup p).mem_erase_iff]
        exact fun hmem => hmem.1 rfl
      · rw [h.index]
        rintro ⟨s', hs', hp'⟩
        rw [hs] at hs'
        cases hs'
        exact hp hp'
    · rw [Function.update_of_ne ht, ← h.index]
      split_ifs
      · rw [(h.tokensNodup p).mem_erase_iff]
        simp [ht]
      · rfl
  limit p := by
    split_ifs
    · exact le_trans List.length_erase_le (h.limit p)
    · exact h.limit p
  distinct token' s' hs' := by
    by_cases ht : token' = token
    · subst ht
      simp at hs'
    · exact h.distinct token' s' (by rwa [Function.update_of_ne ht] at hs')
  lease token' s' hs' := by
    by_cases ht : token' = token
    · subst ht
      simp at hs'
    · exact h.lease token' s' (by rwa [Function.update_of_ne ht] at hs')
  marked pair hpair := by
    obtain ⟨hne, hpair⟩ := Finset.mem_erase.mp hpair
    obtain ⟨token', s', hs', hp, hlinked⟩ := h.marked pair hpair
    refine ⟨token', s', ?_, hp, hlinked⟩
    rw [Function.update_of_ne, hs']
    -- the mark of the removed session's own pair is gone with it
    rintro rfl
    rw [hs] at hs'
    cases hs'
    exact hne hp.symm

/-- A new session is recorded for its two peers. -/
theorem BrokerInv.claim (h : BrokerInv sess toks off) {token : String} {s : P2pSession}
    (hfree : sess token = none) (hends : s.initiatorPeerId ≠ s.targetPeerId)
    (hunlinked : s.linked = false)
    (hlimit : ∀ p, s.participant p = true → (toks p).length < maxSessionsPerPeer) :
    BrokerInv (Function.update sess token (some s))
      (fun p => if s.participant p then (toks p).insert token else toks p) off := by
  have hnew : ∀ p, token ∉ toks p := by
    intro p hmem
    obtain ⟨s', hs', -⟩ := (h.index p token).mp hmem
    rw [hfree] at hs'
    cases hs'
  refine ⟨fun p => ?_, fun p token' => ?_, fun p => ?_, fun token' s' hs' => ?_,
    fun token' s' hs' hlinked => ?_, fun pair hpair => ?_⟩
  · split_ifs
    · exact (h.tokensNodup p).insert
    · exact h.tokensNodup p
  · by_cases ht : token' = token
    · subst ht
      by_cases hp : s.participant p = true
      · simp [hp]
      · simp [hp, hnew p]
    · rw [Function.update_of_ne ht, ← h.index]
      split_ifs
      · simp [List.mem_insert_iff, ht]
      · rfl
  · split_ifs with hp
    · rw [List.length_insert_of_not_mem (hnew p)]
      exact hlimit p hp
    · exact h.limit p
  · by_cases ht : token' = token
    · subst ht
      rw [Function.update_self] at hs'
      cases hs'
      exact hends
    · exact h.distinct token' s' (by rwa [Function.update_of_ne ht] at hs')
  · by_cases ht : token' = token
    · subst ht
      rw [Function.update_self] at hs'
      cases hs'
      rw [hunlinked] at hlinked
      cases hlinked
    · exact h.lease token' s' (by rwa [Function.update_of_ne ht] at hs') hlinked
  · obtain ⟨token', s', hs', hp, hlinked⟩ := h.marked pair hpair
    refine ⟨token', s', ?_, hp, hlinked⟩
    rw [Function.update_of_ne, hs']
    rintro rfl
    rw [hfree] at hs'
    cases hs'

end BrokerInv

namespace P2pBroker

/-! ### What the operations leave in the maps -/

section Views

variable (b : P2pBroker) (token : String) (s : P2pSession) (peer : PeerId)

theorem session_setSession : (b.setSession token s).session =
    Function.update b.session token (some s) := by
  funext token'
  by_cases h : token' = token
  · subst h
    simp [session, setSession]
  · simp [session, setSession, h, assocGet_set_of_ne h]

theorem tokensOf_trackPeerSession (p : PeerId) : (b.trackPeerSession peer token).tokensOf p =
    if p = peer then (b.tokensOf p).insert token else b.tokensOf p := by
  by_cases h : p = peer
  · subst h
    simp [tokensOf, trackPeerSession]
  · simp [tokensOf, trackPeerSession, h, assocGet_set_of_ne h]

theorem untrackPeerSession_sessions : (b.untrackPeerSession peer token).sessions = b.sessions := by
  rw [untrackPeerSession]
  split <;> rfl

theorem untrackPeerSession_offloadedPairs :
    (b.untrackPeerSession peer token).offloadedPairs = b.offloadedPairs := by
  rw [untrackPeerSession]
  split <;> rfl

theorem tokensOf_untrackPeerSession (p : PeerId) : (b.untrackPeerSession peer token).tokensOf p =
    if p = peer then (b.tokensOf p).erase token else b.tokensOf p := by
  rw [untrackPeerSession]
  split
  · rename_i hnone
    split_ifs with h
    · subst h
      simp [tokensOf, hnone]
    · rfl
  · rename_i tokens hsome
    rw [tokensOf, assocGet_put]
    by_cases h : p = peer
    · subst h
      by_cases hrest : tokens.erase token = []
      · simp [hrest, tokensOf, hsome]
      · simp [hrest, tokensOf, hsome]
    · simp [h, tokensOf]

theorem session_dropSession : (b.dropSession token s).session =
    Function.update b.session token none := by
  funext token'
  simp only [session, dropSession, untrackSession, untrackPeerSession_sessions]
  by_cases h : token' = token
  · subst h
    simp
  · simp [h, assocGet_erase_of_ne h, session]

theorem dropSession_sessions : (b.dropSession token s).sessions = assocErase token b.sessions := by
  simp only [dropSession, untrackSession, untrackPeerSession_sessions]

theorem offloadedPairs_dropSession :
    (b.dropSession token s).offloadedPairs = b.offloadedPairs.erase s.pair := by
  simp only [dropSession, untrackSession, untrackPeerSession_offloadedPairs]

/-- One peer after the other is the participants. -/
theorem ite_participant (hends : s.initiatorPeerId ≠ s.targetPeerId) (p : PeerId)
    (f : List String → List String) (l : List String) :
    (if p = s.targetPeerId then f (if p = s.initiatorPeerId then f l else l)
      else if p = s.initiatorPeerId then f l else l) = if s.participant p then f l else l := by
  simp only [P2pSession.participant_iff]
  by_cases hi : p = s.initiatorPeerId <;> by_cases ht : p = s.targetPeerId <;> simp_all [eq_comm]

/-- Untracking a session of one peer with itself erases the token once. -/
theorem tokensOf_dropSession (hends : s.initiatorPeerId ≠ s.targetPeerId) (p : PeerId) :
    (b.dropSession token s).tokensOf p =
      if s.participant p then (b.tokensOf p).erase token else b.tokensOf p := by
  have hbase : ∀ q, tokensOf { b with sessions := assocErase token b.sessions } q = b.tokensOf q :=
    fun _ => rfl
  have hview : (b.dropSession token s).tokensOf p =
      ((untrackPeerSession { b with sessions := assocErase token b.sessions } s.initiatorPeerId
        token).untrackPeerSession s.targetPeerId token).tokensOf p := rfl
  rw [hview, tokensOf_untrackPeerSession, tokensOf_untrackPeerSession, hbase]
  exact ite_participant s hends p (fun l => l.erase token) _

end Views

structure Inv (b : P2pBroker) : Prop where
  nodup : AssocNodup b.sessions
  maps : BrokerInv b.session b.tokensOf b.offloadedPairs

theorem empty_inv : empty.Inv where
  nodup := AssocNodup.nil
  maps := by
    refine ⟨fun _ => List.nodup_nil, ?_, fun _ => Nat.zero_le _, ?_, ?_, ?_⟩ <;>
      simp [empty, session, tokensOf]

theorem setSession_nodup {b : P2pBroker} (h : AssocNodup b.sessions) (token : String)
    (s : P2pSession) : AssocNodup (b.setSession token s).sessions :=
  h.put token (some s)

variable {s : P2pSession} {token : String} (pair : BitVec 64)

/-- Dropping a session keeps the invariant of the maps. -/
theorem Inv.dropSession {b : P2pBroker} (h : b.Inv) (hs : b.session token = some s) :
    (b.dropSession token s).Inv where
  nodup := by
    rw [dropSession_sessions]
    exact h.nodup.erase token
  maps := by
    have hdrop := h.maps.drop hs
    rw [session_dropSession, offloadedPairs_dropSession]
    have htoks : (b.dropSession token s).tokensOf =
        fun p => if s.participant p then (b.tokensOf p).erase token else b.tokensOf p :=
      funext fun p => tokensOf_dropSession b token s (h.maps.distinct token s hs) p
    rw [htoks]
    exact hdrop

/-! ### Claims -/

theorem Inv.claimSession {b b' : P2pBroker} (h : b.Inv) {isAuthenticated : PeerId → Bool}
    (hends : s.initiatorPeerId ≠ s.targetPeerId) (hunlinked : s.linked = false)
    (hclaim : b.claimSession token s isAuthenticated = some b') :
    b'.Inv ∧ b.session token = none ∧ b'.session = Function.update b.session token (some s) := by
  rw [P2pBroker.claimSession] at hclaim
  split_ifs at hclaim with hguard
  split at hclaim
  · cases hclaim
  · rename_i hfree
    simp only [Bool.or_eq_true, Bool.not_eq_true', decide_eq_true_eq, not_or, not_le] at hguard
    cases hclaim
    have hsess : (((b.setSession token s).trackPeerSession s.initiatorPeerId
        token).trackPeerSession s.targetPeerId token).session =
        Function.update b.session token (some s) := session_setSession b token s
    refine ⟨⟨setSession_nodup h.nodup token s, ?_⟩, hfree, hsess⟩
    have hlimit : ∀ p, s.participant p = true → (b.tokensOf p).length < maxSessionsPerPeer := by
      intro p hp
      rcases (s.participant_iff p).mp hp with rfl | rfl
      · exact hguard.1.2
      · exact hguard.2
    have hclaimed := h.maps.claim hfree hends hunlinked hlimit
    have htoks : (((b.setSession token s).trackPeerSession s.initiatorPeerId
        token).trackPeerSession s.targetPeerId token).tokensOf =
        fun p => if s.participant p then (b.tokensOf p).insert token else b.tokensOf p := by
      funext p
      have hbase : (b.setSession token s).tokensOf p = b.tokensOf p := rfl
      rw [tokensOf_trackPeerSession, tokensOf_trackPeerSession, hbase]
      exact ite_participant s hends p (fun l => l.insert token) _
    rw [hsess, htoks]
    exact hclaimed

/-! ### Steps of one handler -/

/-- A link flag that is up in `o'` was reported (`r`) or was up in `o` for the same two peers. -/
def FlagsFrom (r : PeerId → Prop) (o o' : Option P2pSession) : Prop :=
  ∀ s', o' = some s' →
    (s'.initiatorLinkUp = true → r s'.initiatorPeerId ∨
      ∃ s, o = some s ∧ s.SameEnds s' ∧ s.initiatorLinkUp = true) ∧
    (s'.targetLinkUp = true → r s'.targetPeerId ∨
      ∃ s, o = some s ∧ s.SameEnds s' ∧ s.targetLinkUp = true)

theorem FlagsFrom.of_eq_or_none {r : PeerId → Prop} {o o' : Option P2pSession}
    (h : o' = o ∨ o' = none) : FlagsFrom r o o' := by
  rintro s' rfl
  rcases h with h | h
  · subst h
    exact ⟨fun hup => .inr ⟨s', rfl, ⟨rfl, rfl⟩, hup⟩, fun hup => .inr ⟨s', rfl, ⟨rfl, rfl⟩, hup⟩⟩
  · cases h

theorem FlagsFrom.down {r : PeerId → Prop} {o : Option P2pSession}
    (hi : s.initiatorLinkUp = false) (ht : s.targetLinkUp = false) : FlagsFrom r o (some s) := by
  intro s' hs'
  cases hs'
  constructor
  · intro hup
    rw [hi] at hup
    cases hup
  · intro hup
    rw [ht] at hup
    cases hup

/-- What every handler does: it keeps the invariant, and raises only the flags that are reported
to it. -/
structure Keeps (r : String → PeerId → Prop) (b b' : P2pBroker) : Prop where
  inv : b'.Inv
  flags : ∀ token, FlagsFrom (r token) (b.session token) (b'.session token)

theorem Keeps.refl {b : P2pBroker} (h : b.Inv) (r : String → PeerId → Prop) : Keeps r b b :=
  ⟨h, fun _ => .of_eq_or_none (.inl rfl)⟩

section

variable {r : String → PeerId → Prop} {b : P2pBroker} (h : b.Inv) {token : String}
include h

section

variable (hs : b.session token = some s)
include hs

/-- A handler that replaces the session of one token by one of the same two peers. -/
theorem Keeps.replace {s' : P2pSession} {off : Finset (BitVec 64)} (hends : s.SameEnds s')
    (hlease : s'.linked = true → s'.offloadLeaseDeadline.isSome = true)
    (hmono : s.linked = true → s'.linked = true)
    (hoff : ∀ pair ∈ off, pair ∈ b.offloadedPairs ∨ (pair = s.pair ∧ s'.linked = true))
    (hflags : FlagsFrom (r token) (some s) (some s')) :
    Keeps r b { b.setSession token s' with offloadedPairs := off } where
  inv := by
    refine ⟨setSession_nodup h.nodup token s', ?_⟩
    have hsess : ({ b.setSession token s' with offloadedPairs := off } : P2pBroker).session =
        Function.update b.session token (some s') := session_setSession b token s'
    rw [hsess]
    refine h.maps.inPlace (fun token' => ?_) fun pair hpair => ?_
    · by_cases ht : token' = token
      · subst ht
        exact .inr ⟨s, s', hs, Function.update_self .., hends, hlease⟩
      · exact .inl (Function.update_of_ne ht _ _)
    · rcases hoff pair hpair with hold | ⟨rfl, hlinked⟩
      · obtain ⟨token', s₁, hs₁, hp, hlinked⟩ := h.maps.marked pair hold
        by_cases ht : token' = token
        · subst ht
          rw [hs] at hs₁
          cases hs₁
          exact ⟨token', s', Function.update_self .., hends.pair.trans hp, hmono hlinked⟩
        · exact ⟨token', s₁, (Function.update_of_ne ht _ _).trans hs₁, hp, hlinked⟩
      · exact ⟨token, s', Function.update_self .., hends.pair, hlinked⟩
  flags token' := by
    have hsess : ({ b.setSession token s' with offloadedPairs := off } : P2pBroker).session =
        Function.update b.session token (some s') := session_setSession b token s'
    rw [hsess]
    by_cases ht : token' = token
    · subst ht
      rw [hs, Function.update_self]
      exact hflags
    · rw [Function.update_of_ne ht]
      exact .of_eq_or_none (.inl rfl)

/-- A handler that touches only the punching state, the endpoints and the window of a session. -/
theorem Keeps.touch {s' : P2pSession} (hends : s.SameEnds s')
    (hi : s'.initiatorLinkUp = s.initiatorLinkUp) (ht : s'.targetLinkUp = s.targetLinkUp)
    (hlease : s'.offloadLeaseDeadline = s.offloadLeaseDeadline) :
    Keeps r b (b.setSession token s') := by
  have hlinked : s'.linked = s.linked := by rw [P2pSession.linked, P2pSession.linked, hi, ht]
  refine Keeps.replace h hs hends ?_ (fun hl => hlinked.trans hl) (fun _ hp => .inl hp) ?_
  · rw [hlinked, hlease]
    exact h.maps.lease token s hs
  · rintro s₁ hs₁
    cases hs₁
    exact ⟨fun hup => .inr ⟨s, rfl, hends, hi ▸ hup⟩, fun hup => .inr ⟨s, rfl, hends, ht ▸ hup⟩⟩

theorem Keeps.drop : Keeps r b (b.dropSession token s) where
  inv := h.dropSession hs
  flags token' := by
    rw [session_dropSession]
    by_cases ht : token' = token
    · subst ht
      exact .of_eq_or_none (.inr (Function.update_self ..))
    · exact .of_eq_or_none (.inl (Function.update_of_ne ht _ _))

end

end

variable {b : P2pBroker} {r : String → PeerId → Prop}

theorem handleRequest_keeps (h : b.Inv) (sender : PeerId) (message : P2pMessage)
    (isAuthenticated isAuthenticatedAtClaim : PeerId → Bool) (now : ℕ) :
    Keeps r b
      (b.handleRequest sender message isAuthenticated isAuthenticatedAtClaim now).1 := by
  rw [handleRequest]
  split_ifs with hguard
  · exact .refl h r
  · exact .refl h r
  · dsimp only
    split
    · exact .refl h r
    · rename_i b' hclaim
      have hne : sender ≠ message.otherPlayerId := by
        rintro rfl
        simp at hguard
      obtain ⟨hinv, -, hsess⟩ := h.claimSession hne rfl hclaim
      refine ⟨hinv, fun token => ?_⟩
      rw [hsess]
      by_cases ht : token = message.sessionToken
      · subst ht
        rw [Function.update_self]
        exact .down rfl rfl
      · exact .of_eq_or_none (.inl (Function.update_of_ne ht _ _))

theorem handleAccept_keeps (h : b.Inv) (sender : PeerId) (message : P2pMessage) :
    Keeps r b (b.handleAccept sender message).1 := by
  rw [handleAccept]
  split
  · exact .refl h r
  · rename_i s hs
    split_ifs
    · exact .refl h r
    · exact .touch h hs ⟨rfl, rfl⟩ rfl rfl rfl

theorem forwardAndDrop_keeps (h : b.Inv) (sender : PeerId) (message : P2pMessage) (sub : Byte)
    (dropSession : Bool) : Keeps r b (b.forwardAndDrop sender message sub dropSession).1 := by
  rw [forwardAndDrop, removeSessionIfAuthorized]
  split_ifs
  · cases hs : b.session message.sessionToken with
    | none => exact .refl h r
    | some s =>
      dsimp only
      by_cases hauth : s.authorizes sender message.otherPlayerId = true
      · rw [if_pos hauth]
        exact .drop h hs
      · rw [if_neg hauth]
        exact .refl h r
  · split
    · exact .refl h r
    · split_ifs <;> exact .refl h r

/-- The session is stored with one more flag raised. -/
theorem publishLink_keeps (h : b.Inv) {s' : P2pSession} (now : ℕ) (hs : b.session token = some s)
    (hends : s.SameEnds s') (hmono : s.linked = true → s'.linked = true)
    (hflags : FlagsFrom (r token) (some s) (some s')) :
    Keeps r b (b.publishLink token s' now).1 := by
  rw [publishLink]
  by_cases hlinked : s'.linked = true
  · rw [if_pos hlinked]
    refine Keeps.replace h hs hends (fun _ => rfl) (fun _ => hlinked) ?_ ?_
    · intro pair hpair
      rcases Finset.mem_insert.mp hpair with hp | hp
      · exact .inr ⟨hp.trans hends.pair, hlinked⟩
      · exact .inl hp
    · intro s₁ hs₁
      cases hs₁
      exact hflags s' rfl
  · rw [if_neg hlinked]
    exact Keeps.replace h hs hends (fun hl => absurd hl hlinked) hmono (fun _ hp => .inl hp) hflags

theorem handleLinkUp_keeps (h : b.Inv) (sender : PeerId) (message : P2pMessage) (now : ℕ)
    (hr : r message.sessionToken sender) : Keeps r b (b.handleLinkUp sender message now).1 := by
  rw [handleLinkUp]
  split
  · exact .refl h r
  · rename_i s hs
    split_ifs with hi ht
    · subst hi
      refine publishLink_keeps h now hs ⟨rfl, rfl⟩ ?_ ?_
      · simp [P2pSession.linked]
      · intro s₁ hs₁
        cases hs₁
        exact ⟨fun _ => .inl hr, fun hup => .inr ⟨s, rfl, ⟨rfl, rfl⟩, hup⟩⟩
    · subst ht
      refine publishLink_keeps h now hs ⟨rfl, rfl⟩ ?_ ?_
      · simp +contextual [P2pSession.linked]
      · intro s₁ hs₁
        cases hs₁
        exact ⟨fun hup => .inr ⟨s, rfl, ⟨rfl, rfl⟩, hup⟩, fun _ => .inl hr⟩
    · exact .refl h r

theorem recordEndpoint_ends {s' : P2pSession} {localAddr remoteAddr : SocketAddr}
    (h : recordEndpoint s localAddr remoteAddr = some s') :
    s.SameEnds s' ∧ s'.initiatorLinkUp = s.initiatorLinkUp ∧ s'.targetLinkUp = s.targetLinkUp ∧
      s'.offloadLeaseDeadline = s.offloadLeaseDeadline := by
  rw [recordEndpoint] at h
  split_ifs at h <;> (cases h; exact ⟨⟨rfl, rfl⟩, rfl, rfl, rfl⟩)

theorem countIntroduction_ends (s : P2pSession) (now : ℕ) :
    s.SameEnds (countIntroduction s now).1 ∧
      (countIntroduction s now).1.initiatorLinkUp = s.initiatorLinkUp ∧
      (countIntroduction s now).1.targetLinkUp = s.targetLinkUp ∧
      (countIntroduction s now).1.offloadLeaseDeadline = s.offloadLeaseDeadline := by
  rw [countIntroduction]
  by_cases hw : introductionWindow ≤ now - s.introductionWindowStarted
  · rw [if_pos hw]
    split_ifs <;> exact ⟨⟨rfl, rfl⟩, rfl, rfl, rfl⟩
  · rw [if_neg hw]
    split_ifs <;> exact ⟨⟨rfl, rfl⟩, rfl, rfl, rfl⟩

theorem handleNatIntroductionRequest_keeps (h : b.Inv) (localAddr remoteAddr : SocketAddr)
    (token : String) (peerAddr : PeerId → Option SocketAddr) (now : ℕ) :
    Keeps r b (b.handleNatIntroductionRequest localAddr remoteAddr token peerAddr now).1 := by
  rw [handleNatIntroductionRequest]
  split_ifs
  · exact .refl h r
  split
  · exact .refl h r
  rename_i s hs
  split_ifs
  · exact .refl h r
  · exact .refl h r
  split
  · exact .refl h r
  rename_i s' hrec
  obtain ⟨hends, hi, ht, hlease⟩ := recordEndpoint_ends hrec
  split
  · obtain ⟨hends', hi', ht', hlease'⟩ := countIntroduction_ends s' now
    exact .touch h hs ⟨hends'.1.trans hends.1, hends'.2.trans hends.2⟩ (hi'.trans hi)
      (ht'.trans ht) (hlease'.trans hlease)
  · exact .touch h hs hends hi ht hlease

/-! ### A lost link -/

/-- What a lost link of the pair leaves of any session. -/
def clearPair (pair : BitVec 64) (s : P2pSession) : P2pSession :=
  if s.pair = pair then clearLink s else s

theorem clearPair_ends (s : P2pSession) : s.SameEnds (clearPair pair s) := by
  rw [clearPair]
  split_ifs
  · exact ⟨rfl, rfl⟩
  · exact ⟨rfl, rfl⟩

theorem clearPair_idem (s : P2pSession) : clearPair pair (clearPair pair s) = clearPair pair s := by
  by_cases hp : s.pair = pair
  · have hp' : (clearLink s).pair = pair := hp
    have hclear : clearPair pair s = clearLink s := if_pos hp
    rw [hclear, clearPair, if_pos hp']
    cases hst : s.state <;> simp [clearLink, hst]
  · have hclear : clearPair pair s = s := if_neg hp
    rw [hclear, hclear]

theorem session_clearToken (b : P2pBroker) (token token' : String) :
    (clearToken pair b token).session token' =
      if token' = token then (b.session token).map (clearPair pair) else b.session token' := by
  rw [clearToken]
  cases hs : b.session token with
  | none =>
    by_cases ht : token' = token
    · simp [ht, hs]
    · simp [ht]
  | some s =>
    dsimp only
    by_cases hp : s.pair = pair
    · rw [if_neg (not_not.mpr hp), session_setSession]
      by_cases ht : token' = token
      · simp [ht, clearPair, hp]
      · simp [ht]
    · rw [if_pos hp]
      by_cases ht : token' = token
      · simp [ht, hs, clearPair, hp]
      · simp [ht]

theorem clearToken_frame (b : P2pBroker) (token : String) :
    (clearToken pair b token).tokensOf = b.tokensOf ∧
      (clearToken pair b token).offloadedPairs = b.offloadedPairs ∧
      (AssocNodup b.sessions → AssocNodup (clearToken pair b token).sessions) := by
  rw [clearToken]
  split
  · exact ⟨rfl, rfl, id⟩
  · split_ifs
    · exact ⟨rfl, rfl, id⟩
    · exact ⟨rfl, rfl, fun h => setSession_nodup h _ _⟩

/-- Clearing a list of tokens clears the sessions of the pair among them. -/
theorem session_foldl_clearToken (tokens : List String) (b : P2pBroker) (token : String) :
    (tokens.foldl (clearToken pair) b).session token =
      if token ∈ tokens then (b.session token).map (clearPair pair) else b.session token := by
  induction tokens generalizing b with
  | nil => simp
  | cons t tokens ih =>
    rw [List.foldl_cons, ih, session_clearToken]
    by_cases ht : token = t
    · subst ht
      rw [if_pos rfl, if_pos List.mem_cons_self]
      split_ifs
      · rw [Option.map_map,
          show clearPair pair ∘ clearPair pair = clearPair pair from funext (clearPair_idem pair)]
      · rfl
    · rw [if_neg ht]
      simp [ht]

theorem foldl_clearToken_frame (tokens : List String) (b : P2pBroker) :
    (tokens.foldl (clearToken pair) b).tokensOf = b.tokensOf ∧
      (tokens.foldl (clearToken pair) b).offloadedPairs = b.offloadedPairs ∧
      (AssocNodup b.sessions → AssocNodup (tokens.foldl (clearToken pair) b).sessions) := by
  induction tokens generalizing b with
  | nil => exact ⟨rfl, rfl, id⟩
  | cons t tokens ih =>
    obtain ⟨htoks, hoff, hnodup⟩ := ih (clearToken pair b t)
    obtain ⟨htoks', hoff', hnodup'⟩ := clearToken_frame pair b t
    exact ⟨htoks.trans htoks', hoff.trans hoff', fun h => hnodup (hnodup' h)⟩

/-- An authorised LINK_LOST clears every session of the pair, under whatever token: the sender is
one of the two peers, so its index has them all. -/
theorem handleLinkLost_spec (h : b.Inv) {sender : PeerId} {message : P2pMessage}
    (hs : b.session message.sessionToken = some s)
    (hauth : s.authorizes sender message.otherPlayerId = true) :
    (b.handleLinkLost sender message).1.session =
      (fun token => (b.session token).map (clearPair s.pair)) ∧
      (b.handleLinkLost sender message).1.tokensOf = b.tokensOf ∧
      (b.handleLinkLost sender message).1.offloadedPairs = b.offloadedPairs.erase s.pair ∧
      AssocNodup (b.handleLinkLost sender message).1.sessions := by
  rw [handleLinkLost, hs]
  dsimp only
  rw [if_neg (by rw [hauth]; simp)]
  obtain ⟨htoks, hoff, hnodup⟩ :=
    foldl_clearToken_frame s.pair ((b.tokensOf sender).insert message.sessionToken) b
  refine ⟨?_, htoks, by rw [hoff], hnodup h.nodup⟩
  funext token
  refine (session_foldl_clearToken s.pair _ b token).trans ?_
  split_ifs with hmem
  · rfl
  · cases hs' : b.session token with
    | none => rfl
    | some s' =>
      have hp : s'.pair ≠ s.pair := by
        intro hp
        have hsender : s'.participant sender = true := by
          rw [(s.pair_eq_iff sender message.otherPlayerId).mpr hauth] at hp
          exact P2pSession.participant_of_authorizes ((s'.pair_eq_iff _ _).mp hp)
        exact hmem (List.mem_insert_of_mem ((h.maps.index sender token).mpr ⟨s', hs', hsender⟩))
      simp [clearPair, hp]

theorem clearPair_of_pair {pair : BitVec 64} (h : (clearPair pair s).pair = pair) :
    clearPair pair s = clearLink s := by
  rw [(clearPair_ends pair s).pair] at h
  exact if_pos h

theorem handleLinkLost_keeps (h : b.Inv) (sender : PeerId) (message : P2pMessage) :
    Keeps r b (b.handleLinkLost sender message).1 := by
  cases hs : b.session message.sessionToken with
  | none =>
    rw [handleLinkLost, hs]
    exact .refl h r
  | some s =>
    by_cases hauth : s.authorizes sender message.otherPlayerId = true
    · obtain ⟨hsess, htoks, hoff, hnodup⟩ := handleLinkLost_spec h hs hauth
      have hflags : ∀ s₁ : P2pSession, clearPair s.pair s₁ = s₁ ∨
          clearPair s.pair s₁ = clearLink s₁ := by
        intro s₁
        rw [clearPair]
        split_ifs
        · exact .inr rfl
        · exact .inl rfl
      refine ⟨⟨hnodup, ?_⟩, fun token => ?_⟩
      · rw [hsess, htoks, hoff]
        refine h.maps.inPlace (fun token => ?_) fun pair hpair => ?_
        · cases hs₁ : b.session token with
          | none => exact .inl rfl
          | some s₁ =>
            refine .inr ⟨s₁, clearPair s.pair s₁, rfl, rfl, clearPair_ends _ _, fun hlinked => ?_⟩
            rcases hflags s₁ with heq | heq
            · rw [heq] at hlinked ⊢
              exact h.maps.lease token s₁ hs₁ hlinked
            · rw [heq] at hlinked
              cases hlinked
        · obtain ⟨hne, hpair⟩ := Finset.mem_erase.mp hpair
          obtain ⟨token, s₁, hs₁, hp, hlinked⟩ := h.maps.marked pair hpair
          have hkept : clearPair s.pair s₁ = s₁ := if_neg (by rw [hp]; exact hne)
          exact ⟨token, s₁, by rw [hs₁, Option.map_some, hkept], hp, hlinked⟩
      · rw [hsess]
        dsimp only
        cases hs₁ : b.session token with
        | none => exact .of_eq_or_none (.inr rfl)
        | some s₁ =>
          rw [Option.map_some]
          rcases hflags s₁ with heq | heq
          · rw [heq]
            exact .of_eq_or_none (.inl rfl)
          · rw [heq]
            exact .down rfl rfl
    · rw [handleLinkLost, hs]
      dsimp only
      rw [if_pos (by simp [hauth])]
      exact .refl h r

/-! ### Removing a peer -/

/-- The loop of `removePeer` with the tokens still to be visited put back into the index. -/
structure Removing (peer : PeerId) (rest : List String) (b : P2pBroker) : Prop where
  nodup : AssocNodup b.sessions
  forgotten : b.tokensOf peer = []
  maps : BrokerInv b.session (Function.update b.tokensOf peer rest) b.offloadedPairs

theorem Removing.step {peer : PeerId} {rest : List String} {acc : P2pBroker × List P2pOutput}
    (h : Removing peer (token :: rest) acc.1) :
    Removing peer rest (removePeerToken peer acc token).1 ∧
      ∀ token', (removePeerToken peer acc token).1.session token' = acc.1.session token' ∨
        (removePeerToken peer acc token).1.session token' = none := by
  have hmem : token ∈ Function.update acc.1.tokensOf peer (token :: rest) peer := by
    rw [Function.update_self]
    exact .head _
  obtain ⟨s, hs, hp⟩ := (h.maps.index peer token).mp hmem
  have hends := h.maps.distinct token s hs
  rw [removePeerToken, hs]
  refine ⟨⟨?_, ?_, ?_⟩, fun token' => ?_⟩
  · rw [dropSession_sessions]
    exact h.nodup.erase token
  · rw [tokensOf_dropSession _ _ _ hends, if_pos hp, h.forgotten]
    rfl
  · have hdrop := h.maps.drop hs
    rw [session_dropSession, offloadedPairs_dropSession]
    have htoks : Function.update (acc.1.dropSession token s).tokensOf peer rest = fun p =>
        if s.participant p then (Function.update acc.1.tokensOf peer (token :: rest) p).erase token
        else Function.update acc.1.tokensOf peer (token :: rest) p := by
      funext p
      by_cases hpeer : p = peer
      · subst hpeer
        simp [hp]
      · rw [Function.update_of_ne hpeer, Function.update_of_ne hpeer,
          tokensOf_dropSession _ _ _ hends]
    rw [htoks]
    exact hdrop
  · rw [session_dropSession]
    by_cases ht : token' = token
    · subst ht
      exact .inr (Function.update_self ..)
    · exact .inl (Function.update_of_ne ht _ _)

theorem Removing.foldl {peer : PeerId} {rest : List String} (acc : P2pBroker × List P2pOutput)
    (h : Removing peer rest acc.1) :
    Removing peer [] (rest.foldl (removePeerToken peer) acc).1 ∧
      ∀ token, (rest.foldl (removePeerToken peer) acc).1.session token = acc.1.session token ∨
        (rest.foldl (removePeerToken peer) acc).1.session token = none := by
  induction rest generalizing acc with
  | nil => exact ⟨h, fun _ => .inl rfl⟩
  | cons t rest ih =>
    obtain ⟨hstep, hsess⟩ := h.step
    obtain ⟨hrest, hsess'⟩ := ih _ hstep
    refine ⟨hrest, fun token => ?_⟩
    rcases hsess' token with heq | hnone
    · rcases hsess token with heq' | hnone'
      · exact .inl (heq.trans heq')
      · exact .inr (heq.trans hnone')
    · exact .inr hnone

theorem removePeer_keeps (h : b.Inv) (peer : PeerId) : Keeps r b (b.removePeer peer).1 := by
  rw [removePeer]
  split
  · exact .refl h r
  · rename_i tokens htokens
    have hstart : Removing peer tokens
        { b with peerSessions := assocErase peer b.peerSessions } := by
      refine ⟨h.nodup, ?_, ?_⟩
      · simp [tokensOf]
      · have htoks : Function.update
            (tokensOf { b with peerSessions := assocErase peer b.peerSessions }) peer tokens =
            b.tokensOf := by
          funext p
          by_cases hp : p = peer
          · subst hp
            simp [tokensOf, htokens]
          · simp [tokensOf, hp, assocGet_erase_of_ne hp]
        rw [htoks]
        exact h.maps
    obtain ⟨hend, hsess⟩ :=
      Removing.foldl ({ b with peerSessions := assocErase peer b.peerSessions }, []) hstart
    refine ⟨⟨hend.nodup, ?_⟩, fun token => .of_eq_or_none (hsess token)⟩
    have hmaps := hend.maps
    rw [← hend.forgotten, Function.update_eq_self] at hmaps
    exact hmaps

/-! ### Maintenance -/

/-- Both peers are connected and the lease, if it counts, has not expired. -/
def healthy (connected : String → PeerId → Bool) (now : ℕ) (token : String) (s : P2pSession) :
    Bool :=
  connected token s.initiatorPeerId && connected token s.targetPeerId && !leaseExpired s now

variable (connected : String → PeerId → Bool) (now : ℕ)

theorem maintainSession_spec {acc : Maintenance} (hs : acc.broker.session token = some s) :
    (maintainSession connected now acc (token, s)).broker =
        (if healthy connected now token s then acc.broker else acc.broker.dropSession token s) ∧
      (maintainSession connected now acc (token, s)).activeOffloads =
        if healthy connected now token s && s.linked then insert s.pair acc.activeOffloads
        else acc.activeOffloads := by
  rw [maintainSession, healthy]
  dsimp only
  rw [hs]
  cases hi : connected token s.initiatorPeerId <;> cases ht : connected token s.targetPeerId <;>
    cases hl : leaseExpired s now <;> cases hk : s.linked <;> simp

theorem foldl_maintainSession (l : List (String × P2pSession)) (acc : Maintenance)
    (h : acc.broker.Inv) (hl : AssocNodup l) (hsub : ∀ x ∈ l, acc.broker.session x.1 = some x.2) :
    (l.foldl (maintainSession connected now) acc).broker.Inv ∧
      (∀ token, (l.foldl (maintainSession connected now) acc).broker.session token =
        if (assocGet token l).any (fun s => !healthy connected now token s) then none
        else acc.broker.session token) ∧
      ∀ pair, pair ∈ (l.foldl (maintainSession connected now) acc).activeOffloads ↔
        pair ∈ acc.activeOffloads ∨ ∃ x ∈ l, healthy connected now x.1 x.2 = true ∧
          x.2.linked = true ∧ x.2.pair = pair := by
  induction l generalizing acc with
  | nil => exact ⟨h, fun token => by simp, fun pair => by simp⟩
  | cons x l ih =>
    obtain ⟨t, s⟩ := x
    have hl' := List.nodup_cons.mp hl
    have hs : acc.broker.session t = some s := hsub _ (.head _)
    obtain ⟨hbroker, hactive⟩ := maintainSession_spec connected now hs
    have hinv : (maintainSession connected now acc (t, s)).broker.Inv := by
      rw [hbroker]
      split_ifs
      · exact h
      · exact h.dropSession hs
    have hsess : ∀ token, (maintainSession connected now acc (t, s)).broker.session token =
        if token = t ∧ healthy connected now t s = false then none
        else acc.broker.session token := by
      intro token
      rw [hbroker]
      by_cases hh : healthy connected now t s = true
      · simp [hh]
      · rw [if_neg hh, session_dropSession]
        by_cases ht : token = t
        · simp [ht, hh]
        · simp [ht]
    have hsub' : ∀ x ∈ l, (maintainSession connected now acc (t, s)).broker.session x.1 =
        some x.2 := by
      intro x hx
      have hne : x.1 ≠ t := fun heq => hl'.1 (List.mem_map.mpr ⟨x, hx, heq⟩)
      rw [hsess, if_neg (fun hc => hne hc.1)]
      exact hsub x (.tail _ hx)
    obtain ⟨hrest, hsess', hactive'⟩ := ih _ hinv hl'.2 hsub'
    rw [List.foldl_cons]
    refine ⟨hrest, fun token => ?_, fun pair => ?_⟩
    · rw [hsess', hsess, assocGet]
      by_cases ht : t = token
      · subst ht
        rw [assocGet_eq_none hl'.1]
        simp
      · rw [if_neg ht, if_neg (show ¬(token = t ∧ _) from fun hc => ht hc.1.symm)]
    · rw [hactive', hactive]
      by_cases hh : (healthy connected now t s && s.linked) = true
      · have hh' := hh
        rw [Bool.and_eq_true] at hh'
        rw [if_pos hh]
        simp only [List.exists_mem_cons_iff, Finset.mem_insert]
        constructor
        · rintro ((rfl | hp) | hp)
          · exact .inr (.inl ⟨hh'.1, hh'.2, rfl⟩)
          · exact .inl hp
          · exact .inr (.inr hp)
        · rintro (hp | ⟨-, -, hp⟩ | hp)
          · exact .inl (.inr hp)
          · exact .inl (.inl hp.symm)
          · exact .inr hp
      · have hh' : ¬(healthy connected now t s = true ∧ s.linked = true) := by
          rwa [Bool.and_eq_true] at hh
        rw [if_neg hh]
        simp only [List.exists_mem_cons_iff]
        constructor
        · rintro (hp | hp)
          · exact .inl hp
          · exact .inr (.inr hp)
        · rintro (hp | ⟨h₁, h₂, -⟩ | hp)
          · exact .inl hp
          · exact absurd ⟨h₁, h₂⟩ hh'
          · exact .inr hp

/-- **Maintenance** keeps the healthy sessions, and marks exactly the pairs that have a linked one
among them. -/
theorem maintainLifecycle_spec (h : b.Inv) :
    (b.maintainLifecycle connected now).1.Inv ∧
      (∀ token, (b.maintainLifecycle connected now).1.session token =
        (b.session token).filter (healthy connected now token)) ∧
      ∀ pair, pair ∈ (b.maintainLifecycle connected now).1.offloadedPairs ↔
        ∃ token s, (b.maintainLifecycle connected now).1.session token = some s ∧
          s.linked = true ∧ s.pair = pair := by
  obtain ⟨hinv, hsess, hactive⟩ := foldl_maintainSession connected now b.sessions
    ⟨b, [], ∅⟩ h h.nodup fun x hx => h.nodup.get_of_mem hx
  have hfilter : ∀ token, (b.maintainLifecycle connected now).1.session token =
      (b.session token).filter (healthy connected now token) := by
    intro token
    refine (hsess token).trans ?_
    show (if (b.session token).any _ then none else b.session token) = _
    cases b.session token with
    | none => rfl
    | some s => cases hh : healthy connected now token s <;> simp [Option.filter, hh]
  have hoff : ∀ pair, pair ∈ (b.maintainLifecycle connected now).1.offloadedPairs ↔
      ∃ token s, (b.maintainLifecycle connected now).1.session token = some s ∧
        s.linked = true ∧ s.pair = pair := by
    intro pair
    have hmem : pair ∈ (b.maintainLifecycle connected now).1.offloadedPairs ↔
        pair ∈ (b.sessions.foldl (maintainSession connected now) ⟨b, [], ∅⟩).activeOffloads := by
      simp only [maintainLifecycle, Finset.mem_union, Finset.mem_filter]
      exact ⟨fun hp => hp.elim And.right id, .inr⟩
    rw [hmem, hactive]
    simp only [hfilter, Option.filter_eq_some_iff]
    constructor
    · rintro (hp | ⟨x, hx, hh, hlinked, hp⟩)
      · simp at hp
      · exact ⟨x.1, x.2, ⟨h.nodup.get_of_mem hx, hh⟩, hlinked, hp⟩
    · rintro ⟨token, s, ⟨hs, hh⟩, hlinked, hp⟩
      exact .inr ⟨(token, s), mem_keys_of_assocGet hs, hh, hlinked, hp⟩
  refine ⟨⟨hinv.nodup, ?_⟩, hfilter, hoff⟩
  refine hinv.maps.inPlace (fun _ => .inl rfl) fun pair hpair => ?_
  obtain ⟨token, s, hs, hlinked, hp⟩ := (hoff pair).mp hpair
  exact ⟨token, s, hs, hp, hlinked⟩

theorem maintainLifecycle_keeps (h : b.Inv) : Keeps r b (b.maintainLifecycle connected now).1 := by
  obtain ⟨hinv, hsess, -⟩ := maintainLifecycle_spec connected now h
  refine ⟨hinv, fun token => .of_eq_or_none ?_⟩
  rw [hsess]
  cases b.session token with
  | none => exact .inl rfl
  | some s =>
    cases hh : healthy connected now token s
    · exact .inr (by simp [Option.filter, hh])
    · exact .inl (by simp [Option.filter, hh])

end P2pBroker

end BasisRust.Server

