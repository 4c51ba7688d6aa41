import BasisRust.Library.Segments
import BasisRust.Transport.LinkInvariant

/-!
# The packets of a channel as a stream of messages

The packets a channel numbers are the packets of its accepted messages, one message after the other,
so packet `startOf Message.packets ms k + j` is packet `j` of message `k`.  A receiver whose cursor
is there has joined exactly the first `j` parts of message `k`, and nothing of any other message:
this is `Joining`.  `Joining.insert` is what inserting the next part does.
-/

namespace BasisRust.Transport

open Library

variable {cn : BitVec 2} {c : Byte} {w : ℕ} {v : SendChannel} {ms ms' : List Message} {m : Message}
  {k j n id : ℕ}

/-- Packet `j` of message `k` is where the segments say. -/
theorem ChannelSound.sent_getElem? (hv : ChannelSound cn c w v) {p : OutgoingReliable}
    (hp : v.sent[n]? = some p) : (v.accepted.flatMap Message.packets)[n]? = some p := by
  rw [← hv.conserved, List.append_assoc]
  exact getElem?_extends (List.prefix_append _ _) hp

/-- The packet at a place inside a message, read off the stream. -/
theorem packet_cases {p : OutgoingReliable} (hm : ms[k]? = some m) (hj : j < m.packets.length)
    (hp : (ms.flatMap Message.packets)[startOf Message.packets ms k + j]? = some p) :
    (m.fragmentId = none ∧ j = 0 ∧ p = ⟨m.payload, none⟩) ∨
    ∃ id, m.fragmentId = some id ∧ j < fragmentParts m.payload ∧
      p = ⟨partOf m.payload j, some ⟨id, j, fragmentParts m.payload⟩⟩ := by
  rw [getElem?_segment hm hj] at hp
  exact Message.packets_cases hp

theorem Message.packets_length_of_whole (h : m.fragmentId = none) : m.packets.length = 1 := by
  rw [Message.packets_length, h]

theorem Message.packets_length_of_cut (h : m.fragmentId = some id) :
    m.packets.length = fragmentParts m.payload := by
  rw [Message.packets_length, h]

theorem Message.Admitted.packets_pos (hm : m.Admitted c) : 0 < m.packets.length := by
  cases hid : m.fragmentId with
  | none =>
    rw [Message.packets_length_of_whole hid]
    exact one_pos
  | some id =>
    obtain ⟨-, hlarge, hbounded⟩ := hm.cut id hid
    have htwo := (CutPayload.mk hlarge hbounded).two_le_parts
    rw [Message.packets_length_of_cut hid]
    omega

/-- The assemblies of a channel that has joined the first `j` parts of message `k`. -/
def Joining (ms : List Message) (k j : ℕ) (assembly : ℕ → Option IncomingFragmentAssembly) : Prop :=
  (j = 0 ∧ ∀ id, assembly id = none) ∨
  (0 < j ∧ ∃ m id a, ms[k]? = some m ∧ m.fragmentId = some id ∧ j < fragmentParts m.payload ∧
    assembly id = some a ∧ Assembling m.payload j a ∧ ∀ other, other ≠ id → assembly other = none)

namespace Joining

variable {s s' : IncomingFragmentState} {assembly : ℕ → Option IncomingFragmentAssembly}

theorem mono (h : Joining ms k j assembly) (hms : ms <+: ms') : Joining ms' k j assembly := by
  refine h.imp_right fun hjoin => ?_
  obtain ⟨hj, m, id, a, hm, hrest⟩ := hjoin
  exact ⟨hj, m, id, a, getElem?_extends hms hm, hrest⟩

theorem none_of_zero (h : Joining ms k 0 assembly) (id : ℕ) : assembly id = none := by
  rcases h with h | h
  · exact h.2 id
  · exact absurd h.1 (Nat.lt_irrefl 0)

/-- What was joined of the message at the cursor. -/
theorem of_message (h : Joining ms k j assembly) (hm : ms[k]? = some m)
    (hid : m.fragmentId = some id) (hj : 0 < j) :
    ∃ a, assembly id = some a ∧ Assembling m.payload j a ∧
      ∀ other, other ≠ id → assembly other = none := by
  rcases h with h | h
  · omega
  · obtain ⟨-, m', id', a, hm', hid', -, ha⟩ := h
    rw [hm, Option.some.injEq] at hm'
    subst hm'
    rw [hid, Option.some.injEq] at hid'
    subst hid'
    exact ⟨a, ha⟩

/-- The message a packet at the cursor belongs to. -/
theorem message_of_packet (h : Joining ms k j assembly) (hadm : ∀ m ∈ ms, m.Admitted c)
    {p : OutgoingReliable}
    (hp : (ms.flatMap Message.packets)[startOf Message.packets ms k + j]? = some p) :
    ∃ m, ms[k]? = some m ∧ m.Admitted c ∧ j < m.packets.length := by
  rcases h with ⟨rfl, -⟩ | ⟨-, m, id, a, hm, hid, hj, -⟩
  · have hlt := (List.getElem?_eq_some_iff.mp hp).1
    have hk : k < ms.length := by
      rcases Nat.lt_or_ge k ms.length with hk | hk
      · exact hk
      · rw [startOf, List.take_of_length_le hk] at hlt
        omega
    have hm : ms[k]? = some ms[k] := List.getElem?_eq_getElem hk
    have hmadm := hadm _ (List.mem_of_getElem? hm)
    exact ⟨ms[k], hm, hmadm, hmadm.packets_pos⟩
  · refine ⟨m, hm, hadm m (List.mem_of_getElem? hm), ?_⟩
    rw [Message.packets_length_of_cut hid]
    exact hj

/-- Taking a budget token changes nothing that was joined. -/
theorem token (h : Joining ms k j (s.get c)) (f : ReliableFragment) :
    Joining ms k j ((s.takeCompletionBudget c f).2.get c) := by
  have hnone : ∀ id, s.get c id = none → (s.takeCompletionBudget c f).2.get c id = none := by
    intro id hid
    rcases s.takeCompletionBudget_get c c f id with heq | ⟨-, -, a, ha, -⟩
    · rw [heq, hid]
    · rw [hid] at ha
      cases ha
  rcases h with ⟨hj, hall⟩ | ⟨hj, m, id, a, hm, hid, hlt, ha, hasm, hothers⟩
  · exact .inl ⟨hj, fun id => hnone id (hall id)⟩
  · rcases s.takeCompletionBudget_get c c f id with heq | ⟨-, -, a', ha', heq⟩
    · exact .inr ⟨hj, m, id, a, hm, hid, hlt, heq.trans ha, hasm,
        fun other hne => hnone other (hothers other hne)⟩
    · rw [ha, Option.some.injEq] at ha'
      subst ha'
      exact .inr ⟨hj, m, id, _, hm, hid, hlt, heq, hasm.of_budgets _,
        fun other hne => hnone other (hothers other hne)⟩

/-- **Inserting the next part.**  It is never invalid: it joins the earlier parts, or completes the
message, or a limit refuses it and nothing changes. -/
theorem insert {incoming : IncomingFragmentState} {answers : ReserveAnswers} {buffered : ℕ → Bool}
    {r : Except FragmentInsertError (Option (Bytes × ℕ))}
    (h : Joining ms k j (s.get c)) (hm : ms[k]? = some m) (hadm : m.Admitted c)
    (hid : m.fragmentId = some id) (hj : j < fragmentParts m.payload) (hinc : incoming = s ∨
      incoming = (s.takeCompletionBudget c ⟨id, j, fragmentParts m.payload⟩).2)
    (hins : incoming.insert c ⟨id, j, fragmentParts m.payload⟩ (partOf m.payload j) answers
      buffered = (r, s')) :
    (r = .ok none ∧ j + 1 < fragmentParts m.payload ∧ Joining ms k (j + 1) (s'.get c)) ∨
    (∃ b, r = .ok (some (m.payload, b)) ∧ j + 1 = fragmentParts m.payload ∧
      ∀ id, s'.get c id = none) ∨
    (∃ e, r = .error e ∧ e ≠ .invalid ∧ Joining ms k j (s'.get c)) := by
  obtain ⟨-, hlarge, hbounded⟩ := hadm.cut id hid
  have hcut := CutPayload.mk hlarge hbounded
  have htwo := hcut.two_le_parts
  have hjoin : Joining ms k j (incoming.get c) := by
    rcases hinc with rfl | rfl
    · exact h
    · exact h.token _
  have hframe : ∀ other, other ≠ id → s'.get c other = incoming.get c other := by
    intro other hne
    have hget := incoming.insert_get_of_ne c c ⟨id, j, fragmentParts m.payload⟩
      (partOf m.payload j) answers buffered other (fun h => hne h.2)
    rwa [hins] at hget
  rcases Nat.eq_zero_or_pos j with rfl | hpos
  · have hnone := hjoin.none_of_zero
    rcases @IncomingFragmentState.insert_first incoming c m.payload id answers buffered
      (hnone id) hcut with ⟨e, he, heq⟩ | ⟨s₁, a, heq, ha, hasm⟩
    · rw [hins, Prod.mk.injEq] at heq
      rw [heq.1, heq.2]
      exact .inr (.inr ⟨e, rfl, he, hjoin⟩)
    · rw [hins, Prod.mk.injEq] at heq
      rw [← heq.2] at ha
      refine .inl ⟨heq.1, by omega, .inr ⟨one_pos, m, id, a, hm, hid, by omega, ha, hasm, ?_⟩⟩
      intro other hne
      rw [hframe other hne, hnone]
  · obtain ⟨a, ha, hasm, hothers⟩ := hjoin.of_message hm hid hpos
    rcases @IncomingFragmentState.insert_next incoming c m.payload id j a answers buffered ha hasm
      hcut hj with ⟨hlt, s₁, a', heq, ha', hasm'⟩ | ⟨hlast, s₁, heq, hgone⟩
    · rw [hins, Prod.mk.injEq] at heq
      rw [← heq.2] at ha'
      refine .inl ⟨heq.1, hlt, .inr ⟨by omega, m, id, a', hm, hid, hlt, ha', hasm', ?_⟩⟩
      intro other hne
      rw [hframe other hne, hothers other hne]
    · rw [hins, Prod.mk.injEq] at heq
      rw [← heq.2] at hgone
      refine .inr (.inl ⟨_, heq.1, hlast, fun other => ?_⟩)
      by_cases hne : other = id
      · rw [hne, hgone]
      · rw [hframe other hne, hothers other hne]

end Joining
end BasisRust.Transport
