import BasisRust.Server.P2pInvariant

/-!
# Pairs are offloaded only over a claimed link

The maps of the broker agree after every sequence of steps.  `flagsReported_run` follows one pair
from a lost link on: a flag of the pair that is up was reported since.
-/

namespace BasisRust.Server

open Library

namespace P2pBroker

variable {b b' : P2pBroker} {s : P2pSession}

/-- The action is the LINK_UP of a peer on a token. -/
def Action.reports : Action → String → PeerId → Prop
  | .signal sender sub message _ _ _ _, token, p =>
    sender = p ∧ sub = p2pSubLinkUp ∧ message.sessionToken = token
  | _, _, _ => False

theorem handleSignal_keeps (h : b.Inv) (sender : PeerId) (sub : Byte) (message : P2pMessage)
    (directConnectAllowed : Bool)
    (isAuthenticated isAuthenticatedAtClaim : PeerId → Bool) (now : ℕ) :
    Keeps (fun token p => sender = p ∧ sub = p2pSubLinkUp ∧ message.sessionToken = token) b
      (b.handleSignal sender sub message directConnectAllowed isAuthenticated
        isAuthenticatedAtClaim now).1 := by
  rw [handleSignal]
  split_ifs with h₀ hallowed h₁ h₂ h₃ h₄ h₅
  · exact .refl h _
  · exact handleRequest_keeps h _ _ _ _ _
  · exact handleAccept_keeps h _ _
  · exact forwardAndDrop_keeps h _ _ _ _
  · exact forwardAndDrop_keeps h _ _ _ _
  · exact handleLinkLost_keeps h _ _
  · exact handleLinkUp_keeps h _ _ _ ⟨rfl, h₅, rfl⟩
  · exact .refl h _

theorem perform_keeps (h : b.Inv) (a : Action) : Keeps a.reports b (b.perform a).1 := by
  cases a with
  | signal sender sub message allowed authenticated authenticatedAtClaim now =>
    exact handleSignal_keeps h sender sub message allowed authenticated authenticatedAtClaim now
  | natIntroductionRequest localAddr remoteAddr token peerAddr now =>
    exact handleNatIntroductionRequest_keeps h localAddr remoteAddr token peerAddr now
  | removePeer peer => exact removePeer_keeps h peer
  | maintainLifecycle connected now => exact maintainLifecycle_keeps connected now h

theorem inv_of_reachable (h : Reachable system (fun _ _ => True) b) : b.Inv := by
  refine Reachable.invariant Inv ?_ ?_ h
  · rintro b rfl
    exact empty_inv
  · intro b a b' hinv _ hstep
    cases hstep
    exact (perform_keeps hinv a).inv

/-! ### Reports since a lost link -/

/-- Every link flag of the pair that is up was reported. -/
def FlagsReported (pair : BitVec 64) (reported : String → PeerId → Prop) (b : P2pBroker) : Prop :=
  ∀ token s, b.session token = some s → s.pair = pair →
    (s.initiatorLinkUp = true → reported token s.initiatorPeerId) ∧
      (s.targetLinkUp = true → reported token s.targetPeerId)

theorem FlagsReported.step {pair : BitVec 64} {reported r : String → PeerId → Prop}
    (h : FlagsReported pair reported b) (hk : Keeps r b b') :
    FlagsReported pair (fun token p => reported token p ∨ r token p) b' := by
  intro token s' hs' hp
  obtain ⟨hi, ht⟩ := hk.flags token s' hs'
  refine ⟨fun hup => ?_, fun hup => ?_⟩
  · rcases hi hup with hr | ⟨s, hs, hends, hup₀⟩
    · exact .inr hr
    · rw [hends.1]
      exact .inl ((h token s hs (hends.pair.symm.trans hp)).1 hup₀)
  · rcases ht hup with hr | ⟨s, hs, hends, hup₀⟩
    · exact .inr hr
    · rw [hends.2]
      exact .inl ((h token s hs (hends.pair.symm.trans hp)).2 hup₀)

/-- The peer has sent LINK_UP on the token in one of the steps. -/
def Reported (as : List Action) (token : String) (p : PeerId) : Prop := ∃ a ∈ as, a.reports token p

theorem flagsReported_run {pair : BitVec 64} {reported : String → PeerId → Prop} {as : List Action}
    (hinv : b.Inv) (h : FlagsReported pair reported b) (hrun : runActions system b as = some b') :
    b'.Inv ∧ FlagsReported pair (fun token p => reported token p ∨ Reported as token p) b' := by
  induction as generalizing b reported with
  | nil =>
    cases hrun
    refine ⟨hinv, fun token s hs hp => ?_⟩
    exact ⟨fun hup => .inl ((h token s hs hp).1 hup), fun hup => .inl ((h token s hs hp).2 hup)⟩
  | cons a as ih =>
    have hk := perform_keeps hinv a
    obtain ⟨hinv', hflags⟩ := ih hk.inv (h.step hk) hrun
    have hmono : ∀ token p, ((reported token p ∨ a.reports token p) ∨ Reported as token p) →
        reported token p ∨ Reported (a :: as) token p := by
      rintro token p ((hr | hr) | ⟨a', ha', hr⟩)
      · exact .inl hr
      · exact .inr ⟨a, .head _, hr⟩
      · exact .inr ⟨a', .tail _ ha', hr⟩
    refine ⟨hinv', fun token s hs hp => ?_⟩
    exact ⟨fun hup => hmono _ _ ((hflags token s hs hp).1 hup),
      fun hup => hmono _ _ ((hflags token s hs hp).2 hup)⟩

/-- Right after a lost link no flag of the pair is up. -/
theorem handleLinkLost_flags (h : b.Inv) {sender : PeerId} {message : P2pMessage}
    (hs : b.session message.sessionToken = some s)
    (hauth : s.authorizes sender message.otherPlayerId = true) :
    FlagsReported s.pair (fun _ _ => False) (b.handleLinkLost sender message).1 := by
  intro token s' hs' hp
  obtain ⟨hsess, -⟩ := handleLinkLost_spec h hs hauth
  rw [hsess] at hs'
  obtain ⟨s₀, -, rfl⟩ := Option.map_eq_some_iff.mp hs'
  rw [clearPair_of_pair hp]
  exact ⟨fun hup => (by cases hup), fun hup => (by cases hup)⟩

/-! ### The broker's contract -/

theorem isOffloaded_iff (b : P2pBroker) (x y : PeerId) :
    b.isOffloaded x y = true ↔ x ≠ y ∧ packPair x y ∈ b.offloadedPairs := by
  rw [isOffloaded]
  split_ifs with h
  · simp [h]
  · simp [h]

/-- A marked pair has a linked session. -/
theorem Inv.linked_of_offloaded (h : b.Inv) {x y : PeerId} (hoff : b.isOffloaded x y = true) :
    ∃ token s, b.session token = some s ∧ s.authorizes x y = true ∧ s.linked = true := by
  obtain ⟨-, hmem⟩ := (b.isOffloaded_iff x y).mp hoff
  obtain ⟨token, s, hs, hp, hlinked⟩ := h.maps.marked _ hmem
  exact ⟨token, s, hs, (s.pair_eq_iff x y).mp hp, hlinked⟩

theorem handleSignal_of_stranger {sender : PeerId} {message : P2pMessage}
    (hs : b.session message.sessionToken = some s) (hp : s.participant sender = false) (sub : Byte)
    (allowed : Bool) (isAuthenticated isAuthenticatedAtClaim : PeerId → Bool) (now : ℕ) :
    (b.handleSignal sender sub message allowed isAuthenticated isAuthenticatedAtClaim now).1 =
      b := by
  have hauth : s.authorizes sender message.otherPlayerId = false := by
    cases hc : s.authorizes sender message.otherPlayerId with
    | false => rfl
    | true => exact absurd (P2pSession.participant_of_authorizes hc) (by simp [hp])
  have hends : ¬ (s.initiatorPeerId = sender ∨ s.targetPeerId = sender) := by
    rw [← s.participant_iff, hp]
    simp
  rw [not_or] at hends
  rw [handleSignal]
  split_ifs
  · rfl
  · -- the token is taken, so the claim fails
    rw [handleRequest]
    split_ifs
    · rfl
    · rfl
    · simp [claimSession, hs]
  · simp [handleAccept, hs, hends.2]
  · simp [forwardAndDrop, removeSessionIfAuthorized, hs, hauth]
  · simp [forwardAndDrop, removeSessionIfAuthorized, hs, hauth]
  · simp [handleLinkLost, hs, hauth]
  · simp [handleLinkUp, hs, Ne.symm hends.1, Ne.symm hends.2]
  · rfl

/-- A healthy linked session: the lease it must have has not run out. -/
theorem healthy_linked_iff {connected : String → PeerId → Bool} {now : ℕ} {token : String}
    (hlinked : s.linked = true) (hlease : s.offloadLeaseDeadline.isSome = true) :
    healthy connected now token s = true ↔ connected token s.initiatorPeerId = true ∧
      connected token s.targetPeerId = true ∧ ∃ d, s.offloadLeaseDeadline = some d ∧ now < d := by
  obtain ⟨d, hd⟩ := Option.isSome_iff_exists.mp hlease
  simp [healthy, leaseExpired, hd, hlinked, and_assoc]

theorem Inv.offloaded_after_maintain (h : b.Inv) (connected : String → PeerId → Bool) (now : ℕ)
    (x y : PeerId) :
    (b.maintainLifecycle connected now).1.isOffloaded x y = true ↔
      ∃ token s, (b.maintainLifecycle connected now).1.session token = some s ∧
        s.authorizes x y = true ∧ s.linked = true ∧ connected token s.initiatorPeerId = true ∧
        connected token s.targetPeerId = true ∧ ∃ d, s.offloadLeaseDeadline = some d ∧ now < d := by
  obtain ⟨hinv, hsess, hoff⟩ := maintainLifecycle_spec connected now h
  rw [isOffloaded_iff, hoff]
  constructor
  · rintro ⟨-, token, s, hs, hlinked, hp⟩
    have hs₀ := hs
    rw [hsess, Option.filter_eq_some_iff] at hs₀
    exact ⟨token, s, hs, (s.pair_eq_iff x y).mp hp, hlinked,
      (healthy_linked_iff hlinked (hinv.maps.lease token s hs hlinked)).mp hs₀.2⟩
  · rintro ⟨token, s, hs, hauth, hlinked, -⟩
    refine ⟨?_, token, s, hs, hlinked, (s.pair_eq_iff x y).mpr hauth⟩
    have hdistinct := hinv.maps.distinct token s hs
    rintro rfl
    simp only [P2pSession.authorizes, Bool.or_eq_true, Bool.and_eq_true, decide_eq_true_eq] at hauth
    rcases hauth with ⟨h₁, h₂⟩ | ⟨h₁, h₂⟩
    · exact hdistinct (h₁.symm.trans h₂)
    · exact hdistinct (h₂.symm.trans h₁)

/-- **The broker is consistent in every reachable state.**  A token is recorded for a peer exactly
when it has a session of that peer, and no peer has more than the limit.  A pair is offloaded only
while one of its sessions has both links up.  A signal on a session from a peer that is no
participant leaves the broker as it is.  After an authorised LINK_LOST the pair is not offloaded
before both peers have sent LINK_UP on one token.  Maintenance keeps the sessions of connected peers
whose lease has not expired, and leaves marked exactly the pairs with a linked one. -/
theorem p2p_broker_consistent (h : Reachable system (fun _ _ => True) b) :
    (∀ p token, token ∈ b.tokensOf p ↔
      ∃ s, b.session token = some s ∧ (s.initiatorPeerId = p ∨ s.targetPeerId = p)) ∧
    (∀ p, (b.tokensOf p).Nodup ∧ (b.tokensOf p).length ≤ maxSessionsPerPeer) ∧
    (∀ x y, b.isOffloaded x y = true → ∃ token s, b.session token = some s ∧
      s.authorizes x y = true ∧ s.initiatorLinkUp = true ∧ s.targetLinkUp = true) ∧
    (∀ sender sub message allowed authenticated authenticatedAtClaim now s,
      b.session message.sessionToken = some s → s.initiatorPeerId ≠ sender →
      s.targetPeerId ≠ sender →
      (b.handleSignal sender sub message allowed authenticated authenticatedAtClaim now).1 = b) ∧
    (∀ sender message allowed authenticated authenticatedAtClaim now s as b',
      b.session message.sessionToken = some s →
      s.authorizes sender message.otherPlayerId = true →
      runActions system b (.signal sender p2pSubLinkLost message allowed authenticated
        authenticatedAtClaim now :: as) = some b' →
      b'.isOffloaded sender message.otherPlayerId = true →
      ∃ token, Reported as token sender ∧ Reported as token message.otherPlayerId) ∧
    ∀ connected now,
      (∀ token, (b.maintainLifecycle connected now).1.session token =
        (b.session token).filter (healthy connected now token)) ∧
      ∀ x y, (b.maintainLifecycle connected now).1.isOffloaded x y = true ↔
        ∃ token s, (b.maintainLifecycle connected now).1.session token = some s ∧
          s.authorizes x y = true ∧ s.linked = true ∧ connected token s.initiatorPeerId = true ∧
          connected token s.targetPeerId = true ∧
          ∃ d, s.offloadLeaseDeadline = some d ∧ now < d := by
  have hinv := inv_of_reachable h
  refine ⟨fun p token => ?_, fun p => ⟨hinv.maps.tokensNodup p, hinv.maps.limit p⟩,
    fun x y hoff => ?_, ?_, ?_, fun connected now => ⟨?_, hinv.offloaded_after_maintain _ _⟩⟩
  · simp only [hinv.maps.index, P2pSession.participant_iff]
  · obtain ⟨token, s, hs, hauth, hlinked⟩ := hinv.linked_of_offloaded hoff
    exact ⟨token, s, hs, hauth, (Bool.and_eq_true _ _).mp hlinked⟩
  · intro sender sub message allowed authenticated authenticatedAtClaim now s hs hi ht
    exact handleSignal_of_stranger hs (by simp [P2pSession.participant, hi, ht]) _ _ _ _ _
  · intro sender message allowed authenticated authenticatedAtClaim now s as b' hs hauth hrun hoff
    have hlost : handleSignal b sender p2pSubLinkLost message allowed authenticated
        authenticatedAtClaim now = b.handleLinkLost sender message := rfl
    have hinv₁ : (b.handleLinkLost sender message).1.Inv :=
      (handleLinkLost_keeps (r := fun _ _ => False) hinv sender message).inv
    simp only [runActions, system, perform, hlost] at hrun
    obtain ⟨hinv', hflags⟩ := flagsReported_run hinv₁ (handleLinkLost_flags hinv hs hauth) hrun
    obtain ⟨token, s', hs', hauth', hlinked⟩ := hinv'.linked_of_offloaded hoff
    have hp : s'.pair = s.pair :=
      ((s'.pair_eq_iff _ _).mpr hauth').trans ((s.pair_eq_iff _ _).mpr hauth).symm
    obtain ⟨hi, ht⟩ := hflags token s' hs' hp
    rw [P2pSession.linked, Bool.and_eq_true] at hlinked
    have hri : Reported as token s'.initiatorPeerId := (hi hlinked.1).resolve_left id
    have hrt : Reported as token s'.targetPeerId := (ht hlinked.2).resolve_left id
    simp only [P2pSession.authorizes, Bool.or_eq_true, Bool.and_eq_true, decide_eq_true_eq]
      at hauth'
    rcases hauth' with ⟨h₁, h₂⟩ | ⟨h₁, h₂⟩
    · rw [h₁, h₂]
      exact ⟨token, hri, hrt⟩
    · rw [h₁, h₂]
      exact ⟨token, hrt, hri⟩
  · exact (maintainLifecycle_spec connected now hinv).2.1

/-- A request, its acceptance and the two reports of the link. -/
def linkedRun : List Action :=
  let send sender sub other : Action :=
    .signal sender sub ⟨other, "t", none⟩ true (fun _ => true) (fun _ => true) 0
  [send 1 p2pSubRequest 2, send 2 p2pSubAccept 1, send 1 p2pSubLinkUp 2, send 2 p2pSubLinkUp 1]

theorem p2p_broker_consistent_linked :
    ∃ b, Reachable system (fun _ _ => True) b ∧ b.isOffloaded 1 2 = true ∧
      ∃ token s, b.session token = some s ∧ s.authorizes 1 2 = true ∧
        s.initiatorLinkUp = true ∧ s.targetLinkUp = true := by
  have hrun : (runActions system empty linkedRun).any (fun b => b.isOffloaded 1 2) = true := by
    decide +kernel
  obtain ⟨b, hb, hoff⟩ := exists_reachable_of_free_run (.init rfl) hrun
  exact ⟨b, hb, hoff, (p2p_broker_consistent hb).2.2.1 1 2 hoff⟩

end P2pBroker

end BasisRust.Server
