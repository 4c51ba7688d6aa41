import BasisRust.Server.VoiceRecipients
import Mathlib.Data.List.Pairwise

/-!
# Who hears a voice

An installation keeps the sessions of the ids it is given, in their order
(`recipientsOf_install`), so that everything depends on the ids that the three decoders produce.
-/

namespace BasisRust.Server

open Library Protocol

/-! ### Installation -/

namespace VoiceState

variable {st : VoiceState} {peer : PeerId}

/-- Sessions of the same connections are the same sessions. -/
theorem eq_of_sameConnection {peerOf : ℕ → PeerId} {old new : List PeerSession}
    (hold : ∀ s ∈ old, peerOf s.state = s.peer) (hnew : ∀ s ∈ new, peerOf s.state = s.peer)
    (hlength : old.length = new.length)
    (hall : ∀ x ∈ old.zip new, x.1.sameConnection x.2 = true) : old = new := by
  induction old generalizing new with
  | nil => exact (List.length_eq_zero_iff.mp hlength.symm).symm
  | cons s old ih =>
    cases new with
    | nil => cases hlength
    | cons t new =>
      have hstate : s.state = t.state := eq_of_beq (hall (s, t) (.head _))
      have hpeer : s.peer = t.peer := by
        rw [← hold s (.head _), ← hnew t (.head _), hstate]
      have hst : s = t := by
        obtain ⟨p, n⟩ := s
        obtain ⟨q, m⟩ := t
        cases hstate
        cases hpeer
        rfl
      rw [hst, ih (fun u hu => hold u (.tail _ hu))
        (fun u hu => hnew u (.tail _ hu)) (Nat.succ.inj hlength)
        fun x hx => hall x (.tail _ hx)]

theorem toInstall_eq (st : VoiceState) (peer : PeerId) (ids : List PeerId) :
    st.toInstall peer ids = ids.filterMap (st.recipient peer) := by
  unfold toInstall
  dsimp only
  split
  · rename_i hunchanged
    rw [Bool.and_eq_true, beq_iff_eq, List.all_eq_true] at hunchanged
    refine eq_of_sameConnection (fun s hs => recipientsOf_spec hs) (fun s hs => ?_) hunchanged.1
      hunchanged.2
    obtain ⟨id, -, hrecipient⟩ := List.mem_filterMap.mp hs
    exact (recipient_spec hrecipient).2.2
  · rfl

/-- **What an installation keeps.** -/
theorem recipientsOf_install (st : VoiceState) (peer : PeerId) (ids : List PeerId) :
    (st.installVoiceRecipients peer ids).recipientsOf peer = ids.filterMap (st.recipient peer) := by
  rw [← toInstall_eq]
  show (assocGet peer (assocSet peer _ _)).getD [] = _
  rw [assocGet_set_self]
  rfl

theorem mem_recipients {ids : List PeerId} {s : PeerSession} :
    s ∈ ids.filterMap (st.recipient peer) ↔ st.recipient peer s.peer = some s ∧ s.peer ∈ ids := by
  rw [List.mem_filterMap]
  constructor
  · rintro ⟨id, hid, hs⟩
    obtain rfl := (recipient_spec hs).2.1
    exact ⟨hs, hid⟩
  · rintro ⟨hs, hid⟩
    exact ⟨_, hid, hs⟩

/-- Ids that are no candidates may be left out before. -/
theorem filterMap_candidates (st : VoiceState) (peer : PeerId) (ids : List PeerId) :
    (ids.filter fun id => id ≠ peer && (assocGet id st.authenticatedPeers).isSome).filterMap
        (st.recipient peer) = ids.filterMap (st.recipient peer) := by
  rw [List.filterMap_filter]
  apply List.filterMap_congr
  intro id _
  split
  · rfl
  · rename_i hnot
    cases hrecipient : st.recipient peer id with
    | none => rfl
    | some s =>
      refine absurd ?_ hnot
      unfold recipient at hrecipient
      split at hrecipient
      · cases hrecipient
      · rename_i hne
        unfold currentSession at hrecipient
        rw [Option.filter_eq_some_iff, Option.join_eq_some_iff] at hrecipient
        rw [hrecipient.1, Bool.and_eq_true, decide_eq_true_iff]
        exact ⟨hne, rfl⟩

/-- Exactness is about the list that is kept; the ids and the relays follow it. -/
theorem exact_install_iff (st : VoiceState) (peer : PeerId) (ids : List PeerId)
    (named : PeerId → Bool) :
    Exact st (st.installVoiceRecipients peer ids) peer named ↔
      (∀ s, st.recipient peer s.peer = some s → (s.peer ∈ ids ↔ named s.peer = true)) ∧
        (ids.filterMap (st.recipient peer)).Nodup := by
  have hkept := recipientsOf_install st peer ids
  constructor
  · intro h
    refine ⟨fun s hs => ?_, hkept ▸ h.nodup⟩
    have hmem := h.mem s
    rw [hkept, mem_recipients, and_congr_right_iff] at hmem
    exact hmem hs
  · rintro ⟨hmem, hnodup⟩
    refine ⟨fun s => ?_, hkept ▸ hnodup, ?_, ?_⟩
    · rw [hkept, mem_recipients, and_congr_right_iff]
      exact hmem s
    · rw [hkept, ← toInstall_eq]
      exact assocGet_set_self _ _ _
    · unfold relayVoiceMessage
      rw [hkept]
      exact hnodup.filter _

end VoiceState

/-- Without the entries that are mapped to nothing, a list has repetitions exactly when its image
has. -/
theorem nodup_filterMap_iff {α β : Type} {f : α → Option β}
    (hinj : ∀ a a' b, f a = some b → f a' = some b → a = a') (xs : List α) :
    (xs.filterMap f).Nodup ↔ (xs.filter fun a => (f a).isSome).Nodup := by
  induction xs with
  | nil => simp
  | cons a xs ih =>
    cases hfa : f a with
    | none => rw [List.filterMap_cons_none hfa, List.filter_cons_of_neg (by simp [hfa]), ih]
    | some b =>
      rw [List.filterMap_cons_some hfa, List.filter_cons_of_pos (by simp [hfa]), List.nodup_cons,
        List.nodup_cons, ih]
      refine and_congr_left fun _ => not_congr ?_
      rw [List.mem_filterMap, List.mem_filter]
      constructor
      · rintro ⟨a', ha', hfa'⟩
        obtain rfl := hinj a a' b hfa hfa'
        exact ⟨ha', by rw [hfa]; rfl⟩
      · rintro ⟨ha, -⟩
        exact ⟨a, ha, hfa⟩

/-! ### The lists -/

section

variable (payload : Bytes) (pos : ℕ)

theorem getU16_eq :
    NetReader.getU16 ⟨payload, pos⟩ =
      if payload.length - pos < 2 then .error (.underflow 2 (payload.length - pos))
      else .ok (leNat (slice payload pos 2), ⟨payload, pos + 2⟩) := by
  unfold NetReader.getU16 NetReader.take NetReader.remaining
  dsimp only
  split <;> rfl

theorem getUsers_eq {count : ℕ} (h : pos + 2 * count ≤ payload.length) :
    VoiceReceiversMessage.getUsers ⟨payload, pos⟩ count =
      .ok ((List.range count).map
        (fun i => BitVec.ofNat 16 (leNat (slice payload (pos + 2 * i) 2))),
        ⟨payload, pos + 2 * count⟩) := by
  induction count generalizing pos with
  | zero => rfl
  | succ count ih =>
    have hrest := ih (pos + 2) (by omega)
    have hpos : ∀ i, pos + 2 + 2 * i = pos + 2 * (i + 1) := fun i => by omega
    rw [VoiceReceiversMessage.getUsers, getU16_eq, if_neg (by omega)]
    show (VoiceReceiversMessage.getUsers ⟨payload, pos + 2⟩ count >>= _) = _
    rw [hrest, List.range_succ_eq_map, List.map_cons, List.map_map]
    simp only [hpos]
    rfl

theorem getCount_eq (largeCount : Bool) :
    VoiceReceiversMessage.getCount (.new payload) largeCount =
      if payload.length < (if largeCount then 2 else 1) then
        .error (.underflow (if largeCount then 2 else 1) payload.length)
      else
        .ok (leNat (payload.take (if largeCount then 2 else 1)),
          ⟨payload, if largeCount then 2 else 1⟩) := by
  cases largeCount with
  | true =>
    show NetReader.getU16 ⟨payload, 0⟩ = _
    rw [getU16_eq, Nat.sub_zero, Nat.zero_add]
    rfl
  | false =>
    cases payload with
    | nil => rfl
    | cons byte payload =>
      have hone : ¬(byte :: payload).length < 1 := by simp
      unfold VoiceReceiversMessage.getCount
      rw [if_neg Bool.false_ne_true, (NetReader.At.new (byte :: payload)).getU8_eq]
      show Except.ok (byte.toNat, _) = if (byte :: payload).length < 1 then _ else _
      rw [if_neg hone]
      rfl

/-- **The decoder of the lists** reads a list when its bytes are there. -/
theorem deserialize_eq (largeCount : Bool) :
    match listedIds largeCount payload with
    | none => ∃ e, VoiceReceiversMessage.deserialize (.new payload) largeCount = .error e
    | some users => ∃ r,
        VoiceReceiversMessage.deserialize (.new payload) largeCount = .ok (users, r) := by
  unfold listedIds VoiceReceiversMessage.deserialize
  rw [getCount_eq]
  dsimp only
  generalize hstart : (if largeCount then 2 else 1) = start
  by_cases hshort : payload.length < start
  · rw [if_pos hshort, if_pos (by omega)]
    exact ⟨_, rfl⟩
  · rw [if_neg hshort]
    generalize hcount : leNat (payload.take start) = count
    have hremaining : (⟨payload, start⟩ : NetReader).remaining = payload.length - start := rfl
    by_cases hfew : payload.length < start + 2 * count
    · rw [if_pos hfew]
      refine ⟨.underflow (count * 2) (payload.length - start), ?_⟩
      simp only [bind, Except.bind]
      rw [if_pos (by omega)]
      rfl
    · rw [if_neg hfew]
      refine ⟨⟨payload, start + 2 * count⟩, ?_⟩
      simp only [bind, Except.bind]
      rw [if_neg (by omega)]
      exact getUsers_eq payload start (by omega)

end

/-! ### The bits -/

/-- The numbers of the bits that are set, from the number of the first bit on. -/
def setBits : Bytes → ℕ → List ℕ
  | [], _ => []
  | byte :: bytes, base =>
    ((List.range 8).filter fun bit => byte.getLsbD bit).map (base + ·) ++ setBits bytes (base + 8)

theorem byteIds_eq (byte : Byte) (base : ℕ) :
    byteIds byte base =
      (((List.range 8).filter fun bit => byte.getLsbD bit).map (base + ·)).map
        (BitVec.ofNat 16) := by
  have hbit : ∀ byte : Byte, ((List.range 8).filter fun bit => byte &&& (1 <<< bit) ≠ 0) =
      (List.range 8).filter fun bit => byte.getLsbD bit := by
    decide +kernel
  unfold byteIds
  rw [hbit, List.map_map]
  split
  · rename_i hzero
    subst hzero
    rfl
  · rfl

theorem bitfieldIds_eq (bytes : Bytes) (base : ℕ) :
    bitfieldIds bytes base = (setBits bytes base).map (BitVec.ofNat 16) := by
  induction bytes generalizing base with
  | nil => rfl
  | cons byte bytes ih => rw [bitfieldIds, setBits, List.map_append, byteIds_eq, ih]

theorem mem_setBits {bytes : Bytes} {base i : ℕ} :
    i ∈ setBits bytes base ↔ base ≤ i ∧ (i - base) / 8 < bytes.length ∧
      (bytes.getD ((i - base) / 8) 0).getLsbD ((i - base) % 8) = true := by
  induction bytes generalizing base with
  | nil => simp [setBits]
  | cons byte bytes ih =>
    have hfirst : i ∈ ((List.range 8).filter fun bit => byte.getLsbD bit).map (base + ·) ↔
        base ≤ i ∧ i < base + 8 ∧ byte.getLsbD (i - base) = true := by
      simp only [List.mem_map, List.mem_filter, List.mem_range]
      constructor
      · rintro ⟨bit, ⟨hlt, hset⟩, rfl⟩
        exact ⟨by omega, by omega, by rwa [Nat.add_sub_cancel_left]⟩
      · rintro ⟨hle, hlt, hset⟩
        exact ⟨i - base, ⟨by omega, hset⟩, by omega⟩
    rw [setBits, List.mem_append, hfirst, ih]
    by_cases hlt : i < base + 8
    · -- the bit is in the first byte, if it is not before it
      have hnot : ¬base + 8 ≤ i := by omega
      by_cases hle : base ≤ i
      · have hdiv : (i - base) / 8 = 0 := by omega
        have hmod : (i - base) % 8 = i - base := by omega
        simp [hle, hlt, hnot, hdiv, hmod]
      · simp [hle, hnot]
    · have hle : base + 8 ≤ i := by omega
      have hdiv : (i - base) / 8 = (i - (base + 8)) / 8 + 1 := by omega
      have hmod : (i - base) % 8 = (i - (base + 8)) % 8 := by omega
      simp [hle, hlt, hdiv, hmod, show base ≤ i by omega]

theorem le_of_mem_setBits {bytes : Bytes} {base i : ℕ} (h : i ∈ setBits bytes base) : base ≤ i :=
  (mem_setBits.mp h).1

theorem nodup_setBits (bytes : Bytes) (base : ℕ) : (setBits bytes base).Nodup := by
  induction bytes generalizing base with
  | nil => exact List.nodup_nil
  | cons byte bytes ih =>
    rw [setBits]
    refine List.Nodup.append ?_ (ih _) fun i hi hi' => ?_
    · exact (List.nodup_range.filter _).map fun _ _ heq => Nat.add_left_cancel heq
    · obtain ⟨bit, hbit, rfl⟩ := List.mem_map.mp hi
      have hlt := List.mem_range.mp (List.mem_filter.mp hbit).1
      have := le_of_mem_setBits hi'
      omega

namespace VoiceState

variable {st : VoiceState} {peer : PeerId} {payload : Bytes}

variable (st peer) in
/-- The sessions of some bits are those of the ids they stand for, unless a bit beyond the ids gets
a session by truncation. -/
theorem bits_iff {bits : List ℕ} (hbits : bits.Nodup) (named : PeerId → Bool)
    (hnamed : ∀ id, named id = true ↔ id.toNat ∈ bits) :
    ((∀ s, st.recipient peer s.peer = some s →
          (s.peer ∈ bits.map (BitVec.ofNat 16) ↔ named s.peer = true)) ∧
        ((bits.map (BitVec.ofNat 16)).filterMap (st.recipient peer)).Nodup) ↔
      ∀ i ∈ bits, 65536 ≤ i → st.recipient peer (BitVec.ofNat 16 i) = none := by
  rw [List.filterMap_map, List.Nodup, List.pairwise_filterMap]
  constructor
  · rintro ⟨hmem, hnodup⟩ i hi hle
    cases hrecipient : st.recipient peer (BitVec.ofNat 16 i) with
    | none => rfl
    | some s =>
      -- the id is named by a bit of its own too, and gets two sessions
      have hid : s.peer = BitVec.ofNat 16 i := (recipient_spec hrecipient).2.1
      have hnamed' : s.peer.toNat ∈ bits := by
        refine (hnamed _).mp ((hmem s (hid ▸ hrecipient)).mp ?_)
        rw [hid]
        exact List.mem_map_of_mem hi
      have hne : s.peer.toNat ≠ i := by
        have := s.peer.isLt
        omega
      have hsymm : Std.Symm fun a b : ℕ =>
          ∀ x, (st.recipient peer ∘ BitVec.ofNat 16) a = some x →
            ∀ y, (st.recipient peer ∘ BitVec.ofNat 16) b = some y → x ≠ y :=
        ⟨fun a b hab x hx y hy => (hab y hy x hx).symm⟩
      have hboth := hnodup.forall hnamed' hi hne
      refine absurd rfl (hboth s ?_ s hrecipient)
      show st.recipient peer (BitVec.ofNat 16 s.peer.toNat) = some s
      rw [BitVec.ofNat_toNat, BitVec.setWidth_eq, hid]
      exact hrecipient
  · intro hnone
    have hlt : ∀ i ∈ bits, ∀ s, st.recipient peer (BitVec.ofNat 16 i) = some s →
        s.peer.toNat = i := by
      intro i hi s hs
      have hbound : i < 65536 := by
        by_contra hge
        rw [hnone i hi (Nat.le_of_not_lt hge)] at hs
        cases hs
      rw [(recipient_spec hs).2.1, BitVec.toNat_ofNat]
      exact Nat.mod_eq_of_lt hbound
    refine ⟨fun s hs => ?_, hbits.imp_of_mem fun {a b} ha hb hne x hx y hy heq => ?_⟩
    · rw [hnamed, List.mem_map]
      constructor
      · rintro ⟨i, hi, hid⟩
        rwa [hlt i hi s (hid ▸ hs)]
      · intro hi
        exact ⟨_, hi, by rw [BitVec.ofNat_toNat, BitVec.setWidth_eq]⟩
    · rw [← hlt a ha x hx, ← hlt b hb y hy, heq] at hne
      exact hne rfl

/-! ### The three forms -/

theorem exact_list_iff (users : List PeerId) :
    Exact st (st.installVoiceRecipients peer
        (users.filter fun id => id ≠ peer && (assocGet id st.authenticatedPeers).isSome)) peer
        (fun id => id ∈ users) ↔
      (users.filter fun id => (st.recipient peer id).isSome).Nodup := by
  have hinj : ∀ a a' s, st.recipient peer a = some s → st.recipient peer a' = some s → a = a' :=
    fun a a' s ha ha' => (recipient_spec ha).2.1.symm.trans (recipient_spec ha').2.1
  rw [exact_install_iff, filterMap_candidates, nodup_filterMap_iff hinj]
  refine and_iff_right fun s hs => ?_
  have hmem : s ∈ users.filterMap (st.recipient peer) ↔ s.peer ∈ users := by
    rw [mem_recipients, and_iff_right hs]
  rw [decide_eq_true_iff, ← hmem, ← filterMap_candidates st peer users, mem_recipients,
    and_iff_right hs]

theorem exact_inverted (users : List PeerId) :
    Exact st (st.installVoiceRecipients peer
      ((st.authenticatedPeers.map Prod.fst).filter fun id => id ≠ peer && id ∉ users)) peer
      (fun id => id ∉ users) := by
  have hinj : ∀ a a' s, st.recipient peer a = some s → st.recipient peer a' = some s → a = a' :=
    fun a a' s ha ha' => (recipient_spec ha).2.1.symm.trans (recipient_spec ha').2.1
  rw [exact_install_iff, nodup_filterMap_iff hinj]
  have hkeys : (st.authenticatedPeers.map Prod.fst).Nodup := st.nodup
  refine ⟨fun s hs => ?_, (hkeys.filter _).filter _⟩
  have hkey : s.peer ∈ st.authenticatedPeers.map Prod.fst := by
    unfold recipient at hs
    split at hs
    · cases hs
    · unfold currentSession at hs
      rw [Option.filter_eq_some_iff, Option.join_eq_some_iff] at hs
      exact List.mem_map_of_mem (mem_keys_of_assocGet hs.1)
  simp [hkey, (recipient_spec hs).1]

theorem exact_bitfield_iff (hlength : 2 + leNat (payload.take 2) ≤ payload.length) :
    Exact st (st.installVoiceRecipients peer
        ((bitfieldIds (slice payload 2 (leNat (payload.take 2))) 0).filter fun id =>
          id ≠ peer && (assocGet id st.authenticatedPeers).isSome)) peer
        (fun id => bitSet payload id.toNat) ↔
      ∀ i, 65536 ≤ i → bitSet payload i = true → st.recipient peer (BitVec.ofNat 16 i) = none := by
  have hbits : ∀ i, i ∈ setBits (slice payload 2 (leNat (payload.take 2))) 0 ↔
      bitSet payload i = true := by
    intro i
    rw [mem_setBits, slice_length _ _ _ hlength, Nat.sub_zero]
    unfold bitSet
    rw [Bool.and_eq_true, decide_eq_true_iff, and_iff_right (Nat.zero_le i)]
    refine and_congr_right fun hlt => ?_
    rw [slice, List.getD_eq_getElem?_getD, List.getElem?_take_of_lt hlt, List.getElem?_drop,
      ← List.getD_eq_getElem?_getD]
  rw [exact_install_iff, filterMap_candidates, bitfieldIds_eq]
  have hiff := bits_iff st peer (nodup_setBits (slice payload 2 (leNat (payload.take 2))) 0)
    (fun id => bitSet payload id.toNat) fun id => (hbits id.toNat).symm
  refine Iff.trans ?_ (hiff.trans ?_)
  · refine and_congr_left fun _ => forall_congr' fun s => forall_congr' fun hs => ?_
    rw [← and_iff_right (a := st.recipient peer s.peer = some s) hs (b := s.peer ∈ List.filter _ _),
      ← mem_recipients, filterMap_candidates, mem_recipients, and_iff_right hs]
  · exact ⟨fun h i hle hset => h i ((hbits i).mpr hset) hle, fun h i hi hle =>
      h i hle ((hbits i).mp hi)⟩

/-! ### Every message -/

theorem receive_list (st : VoiceState) (peer : PeerId) (payload : Bytes)
    (largeCount inverted : Bool) :
    st.updateVoiceRecipients peer payload largeCount inverted =
      match listedIds largeCount payload with
      | none => st
      | some users =>
        if inverted then
          st.installVoiceRecipients peer
            ((st.authenticatedPeers.map Prod.fst).filter fun id => id ≠ peer && id ∉ users)
        else
          st.installVoiceRecipients peer
            (users.filter fun id => id ≠ peer && (assocGet id st.authenticatedPeers).isSome) := by
  have hread := deserialize_eq payload largeCount
  unfold updateVoiceRecipients
  cases hlisted : listedIds largeCount payload with
  | none =>
    rw [hlisted] at hread
    obtain ⟨e, heq⟩ := hread
    rw [heq]
  | some users =>
    rw [hlisted] at hread
    obtain ⟨r, heq⟩ := hread
    rw [heq]

/-- A message that stands for nothing changes nothing. -/
theorem receive_unreadable {message : VoiceMessage} (h : denoted payload message = none) :
    st.receive peer payload message = st := by
  cases message with
  | list largeCount | inverted largeCount =>
    show st.updateVoiceRecipients peer payload largeCount _ = st
    rw [receive_list, Option.map_eq_none_iff.mp h]
  | bitfield =>
    show st.updateVoiceRecipientsBitfield peer payload = st
    change (if payload.length < 2 ∨ payload.length < 2 + leNat (payload.take 2) then none
      else some fun id : PeerId => bitSet payload id.toNat) = none at h
    split at h
    · rename_i hshort
      unfold updateVoiceRecipientsBitfield
      rcases hshort with hshort | hshort
      · rw [if_pos hshort]
      · split
        · rfl
        · exact if_pos hshort
    · cases h

theorem exact_receive_iff {message : VoiceMessage} {named : PeerId → Bool}
    (h : denoted payload message = some named) :
    Exact st (st.receive peer payload message) peer named ↔
      Unambiguous st peer payload message := by
  cases message with
  | list largeCount =>
    obtain ⟨users, hlisted, rfl⟩ := Option.map_eq_some_iff.mp h
    show Exact st (st.updateVoiceRecipients peer payload largeCount false) peer _ ↔ _
    rw [receive_list, hlisted]
    refine (exact_list_iff users).trans ?_
    constructor
    · intro hnodup users' husers'
      rw [hlisted] at husers'
      cases husers'
      exact hnodup
    · exact fun hall => hall users hlisted
  | inverted largeCount =>
    obtain ⟨users, hlisted, rfl⟩ := Option.map_eq_some_iff.mp h
    show Exact st (st.updateVoiceRecipients peer payload largeCount true) peer _ ↔ _
    rw [receive_list, hlisted]
    exact iff_of_true (exact_inverted users) trivial
  | bitfield =>
    show Exact st (st.updateVoiceRecipientsBitfield peer payload) peer _ ↔ _
    change (if payload.length < 2 ∨ payload.length < 2 + leNat (payload.take 2) then none
      else some fun id : PeerId => bitSet payload id.toNat) = some named at h
    split at h
    · cases h
    · rename_i hlong
      cases h
      obtain ⟨htwo, hall⟩ := not_or.mp hlong
      unfold updateVoiceRecipientsBitfield
      rw [if_neg htwo]
      dsimp only
      rw [if_neg hall]
      exact exact_bitfield_iff (Nat.le_of_not_lt hall)

/-- Exact recipients of the same peers are the same. -/
theorem Exact.perm {after after' : VoiceState} {named named' : PeerId → Bool}
    (h : Exact st after peer named) (h' : Exact st after' peer named')
    (hsame : ∀ id, (st.recipient peer id).isSome = true → named id = named' id) :
    (after.recipientsOf peer).Perm (after'.recipientsOf peer) := by
  rw [List.perm_ext_iff_of_nodup h.nodup h'.nodup]
  intro s
  rw [h.mem, h'.mem, and_congr_right_iff]
  intro hs
  rw [hsame s.peer (by rw [hs]; rfl)]

/-- **The recipients of a voice are those that the message names**, each of them once, exactly when
the message is unambiguous; then the form of the message does not matter, and a message that cannot
be read changes nothing. -/
theorem voice_recipients_exact (st : VoiceState) (peer : PeerId) (payload : Bytes)
    (message : VoiceMessage) :
    (denoted payload message = none → st.receive peer payload message = st) ∧
      (∀ named, denoted payload message = some named →
        (Exact st (st.receive peer payload message) peer named ↔
          Unambiguous st peer payload message)) ∧
      ∀ payload' message' named named', denoted payload message = some named →
        denoted payload' message' = some named' →
        (∀ id, (st.recipient peer id).isSome = true → named id = named' id) →
        Unambiguous st peer payload message → Unambiguous st peer payload' message' →
        ((st.receive peer payload message).recipientsOf peer).Perm
          ((st.receive peer payload' message').recipientsOf peer) := by
  refine ⟨receive_unreadable, fun named h => exact_receive_iff h,
    fun payload' message' named named' h h' hsame hclear hclear' => ?_⟩
  exact Exact.perm ((exact_receive_iff h).mpr hclear) ((exact_receive_iff h').mpr hclear') hsame

/-- The server with the current sessions of the peers 0, 1 and 2. -/
def threePeers : VoiceState where
  authenticatedPeers := [(0, some ⟨0, 0⟩), (1, some ⟨1, 1⟩), (2, some ⟨2, 2⟩)]
  transportPeers := [(0, 0), (1, 1), (2, 2)]
  closedGates := []
  voiceRecipientSessions := []
  voiceRecipients := []
  p2pBroker := .empty
  peerOf state := BitVec.ofNat 16 state
  nodup := by
    unfold AssocNodup
    decide
  authenticated := by decide
  installed := by decide

theorem voice_recipients_exact_two :
    Exact threePeers (threePeers.receive 0 [2, 1, 0, 2, 0] (.list false)) 0
        (fun id : PeerId => id ∈ [1, 2]) ∧
      ((threePeers.receive 0 [2, 1, 0, 2, 0] (.list false)).recipientsOf 0).Perm
        ((threePeers.receive 0 [1, 0, 6] .bitfield).recipientsOf 0) ∧
      threePeers.receive 0 [2, 1, 0, 2] (.list false) = threePeers := by
  have hlisted : listedIds false [2, 1, 0, 2, 0] = some [1, 2] := by decide
  have hnamed : denoted [2, 1, 0, 2, 0] (.list false) =
      some fun id : PeerId => decide (id ∈ [1, 2]) := by
    simp only [denoted, hlisted, Option.map_some]
  have hclear : Unambiguous threePeers 0 [2, 1, 0, 2, 0] (.list false) := by
    intro users husers
    rw [hlisted] at husers
    cases husers
    decide
  have hbits : Unambiguous threePeers 0 [1, 0, 6] .bitfield := by
    intro i hle hset
    have hfew : i / 8 < 1 := by
      have hset := (Bool.and_eq_true _ _).mp hset
      exact of_decide_eq_true hset.1
    omega
  refine ⟨((voice_recipients_exact threePeers 0 _ _).2.1 _ hnamed).mpr hclear,
    (voice_recipients_exact threePeers 0 _ _).2.2 [1, 0, 6] .bitfield _ _ hnamed rfl
      ?_ hclear hbits,
    (voice_recipients_exact threePeers 0 _ _).1 (by decide)⟩
  intro id hid
  by_cases hone : id = 1
  · subst hone
    decide
  · by_cases htwo : id = 2
    · subst htwo
      decide
    · have hnone : threePeers.recipient 0 id = none := by
        unfold recipient currentSession
        split
        · rfl
        · rename_i hzero
          have hget : assocGet id threePeers.authenticatedPeers = none := by
            apply assocGet_eq_none
            simp only [threePeers, List.map_cons, List.map_nil, List.mem_cons, List.not_mem_nil,
              or_false, not_or]
            exact ⟨hzero, hone, htwo⟩
          rw [hget]
          rfl
      rw [hnone] at hid
      cases hid

/-- A bitfield of 8193 bytes in which only the bit 65537 is set. -/
def wideBitfield : Bytes := 1 :: 32 :: (List.replicate 8192 0 ++ [2])

theorem voice_recipients_exact_repeated :
    (¬ Exact threePeers (threePeers.receive 0 [2, 1, 0, 1, 0] (.list false)) 0
        (fun id : PeerId => id ∈ [1]) ∧
      (threePeers.receive 0 [2, 1, 0, 1, 0] (.list false)).relayVoiceMessage 0 =
        [⟨1, 1⟩, ⟨1, 1⟩]) ∧
    ∃ named, denoted wideBitfield .bitfield = some named ∧ named 1 = false ∧
      ¬ Exact threePeers (threePeers.receive 0 wideBitfield .bitfield) 0 named := by
  refine ⟨⟨fun h => ?_, by decide +kernel⟩, ?_⟩
  · have hnodup := h.nodup
    revert hnodup
    decide +kernel
  · have hcount : leNat (wideBitfield.take 2) = 8193 := rfl
    have hlength : wideBitfield.length = 8195 := by
      rw [wideBitfield, List.length_cons, List.length_cons, List.length_append,
        List.length_replicate]
      rfl
    have hset : bitSet wideBitfield 65537 = true := by
      have hbyte : wideBitfield.getD (2 + 65537 / 8) 0 = 2 := by
        rw [show 2 + 65537 / 8 = 8192 + 1 + 1 from rfl, wideBitfield, List.getD_cons_succ,
          List.getD_cons_succ, List.getD_eq_getElem?_getD,
          List.getElem?_append_right (by rw [List.length_replicate]), List.length_replicate,
          Nat.sub_self]
        rfl
      unfold bitSet
      rw [hcount, hbyte]
      rfl
    refine ⟨fun id => bitSet wideBitfield id.toNat, ?_, ?_, ?_⟩
    · unfold denoted
      rw [hcount, hlength]
      rfl
    · show bitSet wideBitfield 1 = false
      unfold bitSet
      rw [hcount]
      rfl
    · have hnamed : denoted wideBitfield .bitfield =
          some fun id => bitSet wideBitfield id.toNat := by
        unfold denoted
        rw [hcount, hlength]
        rfl
      rw [exact_receive_iff hnamed]
      intro hclear
      have hnone := hclear 65537 (by decide) hset
      revert hnone
      decide

end VoiceState

end BasisRust.Server
