import BasisRust.Transport.Stream

/-!
# Ordered delivery is an exact prefix

`Progress ms r k j` says where the receiver of an ordered channel is in the stream of the accepted
messages `ms`: it has handed over the first `k` of them and has committed `j` packets of the next
one.  Every step of the receive side keeps the receiver at some such place, whatever the network
delivers, so what has been handed over is always a prefix of what was accepted
(`ordered_delivery_exact`).
-/

namespace BasisRust.Transport

open Library

variable {cn : BitVec 2} {c : Byte} {v : SendChannel} {ms ms' : List Message} {m : Message}
  {r r' : RecvChannel} {k j n q : ℕ} {x : RetainedOrderedMessage} {o : Option ℕ}
  {future : List (ℕ × RetainedOrderedMessage)}

/-! ### Where the receiver is -/

/-- A buffered entry is packet `n` of the stream. -/
def IsPacket (ms : List Message) (n : ℕ) (x : RetainedOrderedMessage) : Prop :=
  (ms.flatMap Message.packets)[n]? = some ⟨x.payload, x.fragment⟩

/-- A buffered entry is message `k`, joined from its `j + 1` parts. -/
def IsJoined (ms : List Message) (k j : ℕ) (x : RetainedOrderedMessage) : Prop :=
  ∃ m id, ms[k]? = some m ∧ m.fragmentId = some id ∧ j + 1 = fragmentParts m.payload ∧
    x.payload = m.payload ∧ x.fragment = none

/-- Message `k` is complete but nobody has taken it: it waits at the cursor. -/
structure Held (ms : List Message) (r : RecvChannel) (k j : ℕ) : Prop where
  empty : ∀ id, r.assembly id = none
  entry : ∃ x, assocGet (r.ordered.cursor % maxSequence) r.ordered.future = some x ∧
    IsJoined ms k j x

/-- The receiver has handed over the first `k` messages and committed `j` packets of the next. -/
structure Progress (ms : List Message) (r : RecvChannel) (k j : ℕ) : Prop where
  cursor : r.ordered.cursor = startOf Message.packets ms k + j
  le : k ≤ ms.length
  handed : (r.handed.map fun h => h.payload) = (ms.take k).map fun m => m.payload
  joined : Joining ms k j r.assembly ∨ Held ms r k j
  waiting : ∀ q x, assocGet q r.ordered.future = some x → ∃ n, r.ordered.cursor ≤ n ∧
    n < r.ordered.cursor + 128 ∧ q = n % maxSequence ∧
    (IsPacket ms n x ∨ (n = r.ordered.cursor ∧ IsJoined ms k j x ∧ ∀ id, r.assembly id = none))

/-- A complete message can only wait at the cursor, not arrive there. -/
theorem Held.atCursor (h : Held ms r k j) (hat : AtCursor v r q x o future) :
    o = none ∧ IsJoined ms k j x := by
  obtain ⟨y, hy, hjoined⟩ := h.entry
  cases o with
  | some n =>
    have hgone := hat.gone
    rw [(hat.arrived n rfl).2.1, hy] at hgone
    cases hgone
  | none =>
    have hx := (hat.waited rfl).2
    rw [hy, Option.some.injEq] at hx
    exact ⟨rfl, hx ▸ hjoined⟩

namespace Progress

section

variable (h : Progress ms r k j)
include h

theorem prefix_handed : (r.handed.map fun h => h.payload) <+: ms.map fun m => m.payload := by
  rw [h.handed]
  exact (List.take_prefix k ms).map _

/-- Only the ordered state, the assemblies and what was handed over matter. -/
theorem congr (hord : r'.ordered = r.ordered) (hasm : r'.assembly = r.assembly)
    (hhand : r'.handed = r.handed) : Progress ms r' k j := by
  obtain ⟨h₁, h₂, h₃, h₄, h₅⟩ := h
  refine ⟨by rw [hord]; exact h₁, h₂, by rw [hhand]; exact h₃, ?_, by rw [hord, hasm]; exact h₅⟩
  rw [hasm]
  refine h₄.imp_right fun hheld => ⟨by rw [hasm]; exact hheld.empty, ?_⟩
  rw [hord]
  exact hheld.entry

theorem mono (hms : ms <+: ms') : Progress ms' r k j where
  cursor := by
    rw [startOf_extends hms h.le]
    exact h.cursor
  le := h.le.trans hms.length_le
  handed := by
    obtain ⟨zs, rfl⟩ := hms
    rw [List.take_append_of_le_length h.le]
    exact h.handed
  joined := by
    rcases h.joined with hjoin | ⟨hempty, x, hx, m, id, hm, hrest⟩
    · exact .inl (hjoin.mono hms)
    · exact .inr ⟨hempty, x, hx, m, id, getElem?_extends hms hm, hrest⟩
  waiting := by
    intro q x hx
    obtain ⟨n, hlo, hhi, hq, hkind⟩ := h.waiting q x hx
    refine ⟨n, hlo, hhi, hq, ?_⟩
    rcases hkind with hpacket | ⟨hn, ⟨m, id, hm, hrest⟩, hempty⟩
    · obtain ⟨zs, rfl⟩ := hms
      refine .inl ?_
      rw [IsPacket, List.flatMap_append]
      exact getElem?_extends (List.prefix_append _ _) hpacket
    · exact .inr ⟨hn, ⟨m, id, getElem?_extends hms hm, hrest⟩, hempty⟩

/-- The message a packet at the cursor belongs to. -/
theorem message_of_packet (hadm : ∀ m ∈ ms, m.Admitted c) (hx : IsPacket ms r.ordered.cursor x) :
    ∃ m, ms[k]? = some m ∧ m.Admitted c ∧ j < m.packets.length := by
  rw [IsPacket, h.cursor] at hx
  rcases h.joined with hjoin | ⟨-, y, -, m, id, hm, hid, hj, -⟩
  · exact hjoin.message_of_packet hadm hx
  · refine ⟨m, hm, hadm m (List.mem_of_getElem? hm), ?_⟩
    rw [Message.packets_length_of_cut hid]
    omega

end

/-- The packet at the cursor is a whole message, possibly joined from parts. -/
structure Whole (ms : List Message) (r : RecvChannel) (k j : ℕ) (x : RetainedOrderedMessage)
    (m : Message) : Prop where
  message : ms[k]? = some m
  payload : x.payload = m.payload
  last : j + 1 = m.packets.length
  empty : ∀ id, r.assembly id = none

/-- The packet at the cursor is the next part of the message that is being joined. -/
structure Part (c : Byte) (ms : List Message) (r : RecvChannel) (k j : ℕ)
    (x : RetainedOrderedMessage) (f : ReliableFragment) (m : Message) (id : ℕ) : Prop where
  message : ms[k]? = some m
  admitted : m.Admitted c
  cut : m.fragmentId = some id
  lt : j < fragmentParts m.payload
  payload : x.payload = partOf m.payload j
  fields : f = ⟨id, j, fragmentParts m.payload⟩
  joining : Joining ms k j r.assembly

section

variable (h : Progress ms r k j)
include h

/-- The packet at the cursor is the next one of the stream, or a message that was joined before. -/
theorem kind_atCursor
    (hsent : ∀ (n : ℕ) p, v.sent[n]? = some p → (ms.flatMap Message.packets)[n]? = some p)
    (hat : AtCursor v r q x o future) :
    IsPacket ms r.ordered.cursor x ∨ (IsJoined ms k j x ∧ ∀ id, r.assembly id = none) := by
  cases o with
  | some n =>
    obtain ⟨hn, -, hget⟩ := hat.arrived n rfl
    rw [hn] at hget
    exact .inl (hsent _ _ hget)
  | none =>
    obtain ⟨i, hlo, hhi, hq, hkind⟩ := h.waiting _ x (hat.waited rfl).2
    have hi : i = r.ordered.cursor := eq_of_mod_eq_of_close (p := maxSequence)
      (by rw [maxSequence]; omega) (by rw [maxSequence]; omega) hq.symm
    rw [hi] at hkind
    exact hkind.imp_right fun hjoined => hjoined.2

/-- **What the packet at the cursor is.** -/
theorem atCursor (hadm : ∀ m ∈ ms, m.Admitted c)
    (hsent : ∀ (n : ℕ) p, v.sent[n]? = some p → (ms.flatMap Message.packets)[n]? = some p)
    (hat : AtCursor v r q x o future) :
    (x.fragment = none ∧ ∃ m, Whole ms r k j x m) ∨
      ∃ f, x.fragment = some f ∧ ∃ m id, Part c ms r k j x f m id := by
  rcases h.kind_atCursor hsent hat with
    hpacket | ⟨⟨m, id, hm, hid, hlast, hpayload, hfrag⟩, hempty⟩
  · obtain ⟨m, hm, hmadm, hj⟩ := h.message_of_packet hadm hpacket
    rw [IsPacket, h.cursor] at hpacket
    rcases packet_cases hm hj hpacket with ⟨hid, rfl, heq⟩ | ⟨id, hid, hlt, heq⟩
    · rw [OutgoingReliable.mk.injEq] at heq
      refine .inl ⟨heq.2, m, hm, heq.1, (Message.packets_length_of_whole hid).symm, ?_⟩
      rcases h.joined with hjoin | hheld
      · exact hjoin.none_of_zero
      · exact hheld.empty
    · rw [OutgoingReliable.mk.injEq] at heq
      refine .inr ⟨_, heq.2, m, id, hm, hmadm, hid, hlt, heq.1, rfl, ?_⟩
      rcases h.joined with hjoin | hheld
      · exact hjoin
      · obtain ⟨-, -, -, -, -, -, -, hfrag⟩ := hheld.atCursor hat
        rw [hfrag] at heq
        cases heq.2
  · refine .inl ⟨hfrag, m, hm, hpayload, ?_, hempty⟩
    rw [Message.packets_length_of_cut hid]
    exact hlast

theorem whole_atCursor (hadm : ∀ m ∈ ms, m.Admitted c)
    (hsent : ∀ (n : ℕ) p, v.sent[n]? = some p → (ms.flatMap Message.packets)[n]? = some p)
    (hat : AtCursor v r q x o future) (hx : x.fragment = none) : ∃ m, Whole ms r k j x m := by
  rcases h.atCursor hadm hsent hat with ⟨-, hwhole⟩ | ⟨f, hf, -⟩
  · exact hwhole
  · rw [hx] at hf
    cases hf

theorem part_atCursor (hadm : ∀ m ∈ ms, m.Admitted c)
    (hsent : ∀ (n : ℕ) p, v.sent[n]? = some p → (ms.flatMap Message.packets)[n]? = some p)
    (hat : AtCursor v r q x o future) {f : ReliableFragment} (hx : x.fragment = some f) :
    ∃ m id, Part c ms r k j x f m id := by
  rcases h.atCursor hadm hsent hat with ⟨hnone, -⟩ | ⟨f', hf, hpart⟩
  · rw [hx] at hnone
    cases hnone
  · rw [hx, Option.some.injEq] at hf
    rw [hf]
    exact hpart

variable (hgone : assocGet (r.ordered.cursor % maxSequence) future = none)
  (hothers : ∀ q, q ≠ r.ordered.cursor % maxSequence →
    assocGet q future = assocGet q r.ordered.future)
include hgone hothers

/-- What waits behind the cursor when the entry at the cursor is gone. -/
theorem waiting_ahead (hx : assocGet q future = some x) :
    ∃ n, r.ordered.cursor < n ∧ n < r.ordered.cursor + 128 ∧ q = n % maxSequence ∧
      IsPacket ms n x := by
  have hne : q ≠ r.ordered.cursor % maxSequence := by
    intro heq
    rw [heq, hgone] at hx
    cases hx
  rw [hothers q hne] at hx
  obtain ⟨n, hlo, hhi, hq, hkind⟩ := h.waiting q x hx
  have hn : n ≠ r.ordered.cursor := fun heq => hne (heq ▸ hq)
  refine ⟨n, by omega, hhi, hq, ?_⟩
  rcases hkind with hpacket | hjoined
  · exact hpacket
  · exact absurd hjoined.1 hn

theorem commitPart (hjoin : Joining ms k (j + 1) r'.assembly)
    (hord : r'.ordered = OrderedReceiveState.commit { r.ordered with future := future } q)
    (hhand : r'.handed = r.handed) : Progress ms r' k (j + 1) := by
  have hcursor : r'.ordered.cursor = r.ordered.cursor + 1 := by rw [hord]; rfl
  have hfuture : r'.ordered.future = future := by rw [hord]; rfl
  refine ⟨?_, h.le, by rw [hhand]; exact h.handed, .inl hjoin, ?_⟩
  · rw [hcursor, h.cursor, Nat.add_assoc]
  · intro q x hx
    rw [hfuture] at hx
    obtain ⟨n, hlo, hhi, hq, hpacket⟩ := h.waiting_ahead hgone hothers hx
    rw [hcursor]
    exact ⟨n, by omega, by omega, hq, .inl hpacket⟩

/-- **Commit the last packet of a message** and hand the message over. -/
theorem commitMessage {i : ℕ} {payload : Bytes} {b : Bool} (hm : ms[k]? = some m)
    (hlast : j + 1 = m.packets.length) (hpayload : payload = m.payload)
    (hempty : ∀ id, r'.assembly id = none)
    (hord : r'.ordered = OrderedReceiveState.commit { r.ordered with future := future } q)
    (hhand : r'.handed = r.handed ++ [⟨i, payload, b⟩]) : Progress ms r' (k + 1) 0 := by
  have hcursor : r'.ordered.cursor = r.ordered.cursor + 1 := by rw [hord]; rfl
  have hfuture : r'.ordered.future = future := by rw [hord]; rfl
  refine ⟨?_, (List.getElem?_eq_some_iff.mp hm).1, ?_, .inl (.inl ⟨rfl, hempty⟩), ?_⟩
  · rw [hcursor, h.cursor, startOf_succ hm, ← hlast]
    rfl
  · rw [hhand, List.map_append, h.handed, List.take_add_one, hm, hpayload, List.map_append]
    rfl
  · intro q x hx
    rw [hfuture] at hx
    obtain ⟨n, hlo, hhi, hq, hpacket⟩ := h.waiting_ahead hgone hothers hx
    rw [hcursor]
    exact ⟨n, by omega, by omega, hq, .inl hpacket⟩

/-- **Put an entry at the cursor**, which stays where it is. -/
theorem keep {y : RetainedOrderedMessage}
    (hjoined : Joining ms k j r'.assembly ∨ (IsJoined ms k j y ∧ ∀ id, r'.assembly id = none))
    (hy : IsPacket ms r.ordered.cursor y ∨ (IsJoined ms k j y ∧ ∀ id, r'.assembly id = none))
    (hord : r'.ordered = { r.ordered with
      future := assocSet (r.ordered.cursor % maxSequence) y future })
    (hhand : r'.handed = r.handed) : Progress ms r' k j := by
  have hcursor : r'.ordered.cursor = r.ordered.cursor := by rw [hord]
  have hfuture : r'.ordered.future =
      assocSet (r.ordered.cursor % maxSequence) y future := by rw [hord]
  refine ⟨hcursor.trans h.cursor, h.le, by rw [hhand]; exact h.handed, ?_, ?_⟩
  · refine hjoined.imp_right fun hj => ⟨hj.2, y, ?_, hj.1⟩
    rw [hcursor, hfuture, assocGet_set_self]
  · intro q x hx
    rw [hfuture] at hx
    rw [hcursor]
    by_cases hq : q = r.ordered.cursor % maxSequence
    · rw [hq, assocGet_set_self, Option.some.injEq] at hx
      subst hx
      exact ⟨r.ordered.cursor, le_rfl, by omega, hq,
        hy.imp_right fun hj => ⟨rfl, hj.1, hj.2⟩⟩
    · rw [assocGet_set_of_ne hq] at hx
      obtain ⟨n, hlo, hhi, hqn, hpacket⟩ := h.waiting_ahead hgone hothers hx
      exact ⟨n, by omega, by omega, hqn, .inl hpacket⟩

end

/-- Only a budget token moved. -/
theorem token {s : RecvState} (h : Progress ms (s.channel c) k j) (f : ReliableFragment) :
    Progress ms (({ s with incoming := (s.incoming.takeCompletionBudget c f).2 } :
      RecvState).channel c) k j := by
  have hempty : (∀ id, s.incoming.get c id = none) →
      ∀ id, (s.incoming.takeCompletionBudget c f).2.get c id = none := by
    intro hall
    have hjoin : Joining [] 0 0 (s.incoming.get c) := .inl ⟨rfl, hall⟩
    exact (hjoin.token f).none_of_zero
  refine ⟨h.cursor, h.le, h.handed, ?_, ?_⟩
  · rcases h.joined with hjoin | hheld
    · exact .inl (hjoin.token f)
    · exact .inr ⟨hempty hheld.empty, hheld.entry⟩
  · intro q x hx
    obtain ⟨n, hlo, hhi, hq, hkind⟩ := h.waiting q x hx
    exact ⟨n, hlo, hhi, hq, hkind.imp_right fun hj => ⟨hj.1, hj.2.1, hempty hj.2.2⟩⟩

/-- The assemblies were left as they were, and nothing waits at the cursor. -/
theorem rejoin (h : Progress ms r k j)
    (hgone : assocGet (r.ordered.cursor % maxSequence) r.ordered.future = none)
    (hjoin : Joining ms k j r'.assembly) (hord : r'.ordered = r.ordered)
    (hhand : r'.handed = r.handed) : Progress ms r' k j := by
  refine ⟨by rw [hord]; exact h.cursor, h.le, by rw [hhand]; exact h.handed, .inl hjoin, ?_⟩
  intro q x hx
  rw [hord] at hx ⊢
  obtain ⟨n, hlo, hhi, hq, hpacket⟩ := h.waiting_ahead hgone (fun _ _ => rfl) hx
  exact ⟨n, hlo.le, hhi, hq, .inl hpacket⟩

/-- What the insertion of the part at the cursor does. -/
theorem Part.insert {s : RecvState} {f : ReliableFragment} {id : ℕ}
    {incoming incoming' : IncomingFragmentState} {answers : ReserveAnswers} {buffered : ℕ → Bool}
    {result : Except FragmentInsertError (Option (Bytes × ℕ))}
    (h : Part c ms (s.channel c) k j x f m id)
    (hinc : incoming = s.incoming ∨ incoming = (s.incoming.takeCompletionBudget c f).2)
    (hins : incoming.insert c f x.payload answers buffered = (result, incoming')) :
    (result = .ok none ∧ j + 1 < fragmentParts m.payload ∧ Joining ms k (j + 1) (incoming'.get c)) ∨
    (∃ b, result = .ok (some (m.payload, b)) ∧ j + 1 = fragmentParts m.payload ∧
      ∀ id, incoming'.get c id = none) ∨
    (∃ e, result = .error e ∧ e ≠ .invalid ∧ Joining ms k j (incoming'.get c)) := by
  rw [h.fields] at hinc hins
  rw [h.payload] at hins
  exact h.joining.insert h.message h.admitted h.cut h.lt hinc hins

/-- **A packet ahead of the cursor** is kept. -/
theorem store (h : Progress ms r k j) {y : RetainedOrderedMessage} (hlo : r.ordered.cursor < n)
    (hhi : n < r.ordered.cursor + 128) (hy : IsPacket ms n y) (hord : r'.ordered = { r.ordered with
      future := assocSet (n % maxSequence) y r.ordered.future })
    (hasm : r'.assembly = r.assembly) (hhand : r'.handed = r.handed) : Progress ms r' k j := by
  have hcursor : r'.ordered.cursor = r.ordered.cursor := by rw [hord]
  have hfuture : r'.ordered.future = assocSet (n % maxSequence) y r.ordered.future := by rw [hord]
  refine ⟨hcursor.trans h.cursor, h.le, by rw [hhand]; exact h.handed, ?_, ?_⟩
  · rw [hasm]
    refine h.joined.imp_right fun hheld => ⟨by rw [hasm]; exact hheld.empty, ?_⟩
    rw [hcursor, hfuture, assocGet_set_of_ne
      (OrderedWindow.key_ne le_rfl (by omega) hlo.le (by omega) (by omega))]
    exact hheld.entry
  · intro q x hx
    rw [hfuture] at hx
    rw [hcursor, hasm]
    by_cases hq : q = n % maxSequence
    · rw [hq, assocGet_set_self, Option.some.injEq] at hx
      subst hx
      exact ⟨n, hlo.le, hhi, hq, .inl hy⟩
    · rw [assocGet_set_of_ne hq] at hx
      exact h.waiting q x hx

end Progress

/-! ### Steps -/

section Steps

variable {s s' : RecvState}

/-- **A step of the receive side** moves the receiver to another place of the stream, or closes the
session without handing anything over. -/
theorem OrderedStep.progress (h : OrderedStep (CanArrive v) c s s')
    (hv : ChannelSound cn c defaultWindowSize v) (hl : AckLink v (s.channel c))
    (hw : OrderedWindow (s.channel c)) (hp : Progress v.accepted (s.channel c) k j) :
    Shut s s' ∨ ∃ k j, Progress v.accepted (s'.channel c) k j := by
  have hle := hw.cursor_le_sent hl
  have hge := hw.sent_le hl hv
  have hsent : ∀ (n : ℕ) p, v.sent[n]? = some p →
      (v.accepted.flatMap Message.packets)[n]? = some p := fun n p => hv.sent_getElem?
  cases h with
  | reack q n payload fragment hA hdup =>
    rw [channel_ack]
    exact .inr ⟨k, j, hp.congr rfl rfl rfl⟩
  | store q n payload fragment hA hfresh hfuture hlo hhi =>
    have hlt := hA.lt
    obtain ⟨rfl, hget, hnear⟩ := hA
    have hexp := hw.expected
    change (s.ordered c).expected = _ at hexp
    rw [hexp] at hlo hhi
    have hahead : maxOrderedReorderAhead = 127 := rfl
    have hrel := relativeSequence_window n (s.channel c).ordered.cursor (by omega) (by omega)
      (by omega) (by rw [defaultWindowSize]; omega)
    rw [channel_record, channel_ack, channel_retain]
    exact .inr ⟨k, j, hp.store (by omega) (by omega) (hsent n _ hget) rfl rfl rfl⟩
  | shut h => exact .inl h
  | token f => exact .inr ⟨k, j, hp.token f⟩
  | handWhole b hsrc hx =>
    obtain ⟨future, hat, hch, -⟩ := hsrc.atCursor hv hl hw
    obtain ⟨m, hwhole⟩ := hp.whole_atCursor hv.admitted hsent hat hx
    rw [channel_recordNew, channel_hand, channel_ack, channel_commitOrdered, hch]
    exact .inr ⟨k + 1, 0, hp.commitMessage hat.gone hat.others hwhole.message hwhole.last
      hwhole.payload hwhole.empty rfl rfl⟩
  | keepWhole hsrc hx =>
    obtain ⟨future, hat, hch, -⟩ := hsrc.atCursor hv hl hw
    rename_i q x s₀
    have hsame : (⟨x.payload, none, x.budgets⟩ : RetainedOrderedMessage) = x := by rw [← hx]
    rw [channel_retain, hch, hsame, hat.number]
    refine .inr ⟨k, j, hp.keep hat.gone hat.others ?_ (hp.kind_atCursor hsent hat) rfl rfl⟩
    exact hp.joined.imp_right fun hheld => ⟨(hheld.atCursor hat).2, hheld.empty⟩
  | storePart hsrc hx hinc hins =>
    obtain ⟨future, hat, hch, -⟩ := hsrc.atCursor hv hl hw
    obtain ⟨m, id, hpart⟩ := hp.part_atCursor hv.admitted hsent hat hx
    rename_i q x o s₀ f incoming incoming' answers buffered
    rcases hpart.insert hinc hins with ⟨-, -, hjoin⟩ | ⟨b, heq, -⟩ | ⟨e, heq, -⟩
    · refine .inr ⟨k, j + 1, ?_⟩
      refine hp.commitPart hat.gone hat.others (q := q) ?_ ?_ ?_
      all_goals cases o <;>
        simp only [channel_ackNew_none, channel_ackNew_some, channel_commitOrdered,
          channel_incoming, hch]
      all_goals exact hjoin
    · cases heq
    · cases heq
  | handPart b hsrc hx hinc hins =>
    obtain ⟨future, hat, hch, -⟩ := hsrc.atCursor hv hl hw
    obtain ⟨m, id, hpart⟩ := hp.part_atCursor hv.admitted hsent hat hx
    rename_i q x o s₀ f incoming incoming' answers buffered payload budgets
    rcases hpart.insert hinc hins with ⟨heq, -⟩ | ⟨b', heq, hlast, hempty⟩ | ⟨e, heq, -⟩
    · cases heq
    · cases heq
      rw [channel_recordNew, channel_hand, channel_ack, channel_commitOrdered,
        channel_incoming, hch]
      refine .inr ⟨k + 1, 0, ?_⟩
      refine hp.commitMessage hat.gone hat.others hpart.message ?_ rfl hempty rfl rfl
      rw [Message.packets_length_of_cut hpart.cut]
      exact hlast
    · cases heq
  | keepPart hsrc hx hinc hins =>
    obtain ⟨future, hat, hch, -⟩ := hsrc.atCursor hv hl hw
    obtain ⟨m, id, hpart⟩ := hp.part_atCursor hv.admitted hsent hat hx
    rename_i q x o s₀ f incoming incoming' answers buffered payload budgets
    rcases hpart.insert hinc hins with ⟨heq, -⟩ | ⟨b', heq, hlast, hempty⟩ | ⟨e, heq, -⟩
    · cases heq
    · cases heq
      have hjoined : IsJoined v.accepted k j ⟨m.payload, none, budgets⟩ :=
        ⟨m, id, hpart.message, hpart.cut, hlast, rfl, rfl⟩
      refine .inr ⟨k, j, ?_⟩
      refine hp.keep (y := ⟨m.payload, none, budgets⟩) hat.gone hat.others (.inr ⟨hjoined, ?_⟩)
        (.inr ⟨hjoined, ?_⟩) ?_ ?_
      all_goals cases o <;>
        simp only [channel_ackNew_none, channel_ackNew_some, channel_retain, channel_incoming, hch,
          hat.number]
      all_goals exact hempty
    · cases heq
  | refuseNew hsrc hx hinc hins =>
    obtain ⟨future, hat, -, -⟩ := hsrc.atCursor hv hl hw
    obtain ⟨m, id, hpart⟩ := hp.part_atCursor hv.admitted hsent hat hx
    rcases hpart.insert hinc hins with ⟨heq, -⟩ | ⟨b', heq, -⟩ | ⟨e, -, -, hjoin⟩
    · cases heq
    · cases heq
    · rw [channel_incoming]
      have hgone := hat.gone
      rw [(hat.arrived _ rfl).2.1] at hgone
      exact .inr ⟨k, j, hp.rejoin hgone hjoin rfl rfl⟩
  | refuseBuffered hsrc hx hins =>
    obtain ⟨future, hat, hch, -⟩ := hsrc.atCursor hv hl hw
    obtain ⟨m, id, hpart⟩ := hp.part_atCursor hv.admitted hsent hat hx
    rename_i q x s₀ f incoming' answers buffered e
    rcases hpart.insert (.inl rfl) hins with ⟨heq, -⟩ | ⟨b', heq, -⟩ | ⟨e, -, -, hjoin⟩
    · cases heq
    · cases heq
    · rw [channel_retain, channel_incoming, hch, hat.number]
      refine .inr ⟨k, j, hp.keep hat.gone hat.others (.inl hjoin) (.inl ?_) rfl rfl⟩
      rcases hp.kind_atCursor hsent hat with hpacket | ⟨⟨m, id, -, -, -, -, hnone⟩, -⟩
      · rw [IsPacket, hx] at hpacket
        exact hpacket
      · rw [hx] at hnone
        cases hnone
  | dropPart hsrc hx hb =>
    obtain ⟨future, hat, hch, -⟩ := hsrc.atCursor hv hl hw
    exact absurd hb (hw.budget _ _ (hat.waited rfl).2 (by rw [hx]; exact Option.some_ne_none _))

/-- What was handed over is a prefix of what was accepted; while the session is open, the receiver
has a place in the stream. -/
structure InOrder (ms : List Message) (s : RecvState) (c : Byte) : Prop where
  handed : ((s.handed c).map fun h => h.payload) <+: ms.map fun m => m.payload
  progress : s.closed = false → ∃ k j, Progress ms (s.channel c) k j

theorem InOrder.of_progress (h : Progress ms (s.channel c) k j) : InOrder ms s c :=
  ⟨h.prefix_handed, fun _ => ⟨k, j, h⟩⟩

theorem InOrder.mono (h : InOrder ms s c) (hms : ms <+: ms') : InOrder ms' s c := by
  refine ⟨h.handed.trans (hms.map _), fun hopen => ?_⟩
  obtain ⟨k, j, hp⟩ := h.progress hopen
  exact ⟨k, j, hp.mono hms⟩

/-- The session was closed, or the channel was left alone. -/
theorem InOrder.frame (h : InOrder ms s c) (hhist : s'.handed c = s.handed c)
    (hopen : s'.closed = false → s.closed = false ∧ (s'.channel c).ordered = (s.channel c).ordered ∧
      (s'.channel c).assembly = (s.channel c).assembly) : InOrder ms s' c := by
  refine ⟨by rw [hhist]; exact h.handed, fun hopen' => ?_⟩
  obtain ⟨hopen₀, hord, hasm⟩ := hopen hopen'
  obtain ⟨k, j, hp⟩ := h.progress hopen₀
  exact ⟨k, j, hp.congr hord hasm hhist⟩

theorem OrderedSteps.inOrder (h : OrderedSteps (CanArrive v) c s s')
    (hv : ChannelSound cn c defaultWindowSize v) (hl : AckLink v (s.channel c))
    (hw : s.closed = false → OrderedWindow (s.channel c)) (hin : InOrder v.accepted s c) :
    InOrder v.accepted s' c := by
  induction h with
  | refl s => exact hin
  | step hopen hstep _ ih =>
    obtain ⟨hl', hw'⟩ := hstep.window hv hl (hw hopen)
    refine ih hl' hw' ?_
    obtain ⟨k, j, hp⟩ := hin.progress hopen
    rcases hstep.progress hv hl (hw hopen) hp with hshut | ⟨k', j', hp'⟩
    · refine hin.frame (congrFun hshut.handed c) fun hopen' => ?_
      rw [hshut.closed] at hopen'
      cases hopen'
    · exact .of_progress hp'

end Steps

/-! ### Runs -/

section Runs

variable {l l' : Link} {ok : Link → LinkAction → Prop}

/-- **Every move keeps every ordered channel in order.** -/
theorem LinkMove.inOrder (hm : LinkMove l l') (hl : LinkSound cn l)
    (hc : DeliveryMethod.fromChannelId c = .reliableOrdered)
    (h : InOrder (l.sender.accepted c) l.receiver c) :
    InOrder (l'.sender.accepted c) l'.receiver c := by
  refine InOrder.mono ?_ (hm.sender_mono hl c).2
  have hother : ∀ {d s}, c ≠ d → Elsewhere d l.receiver s → InOrder (l.sender.accepted c) s c := by
    intro d s hdc helse
    refine h.frame (helse.history c hdc).handed fun hopen => ⟨helse.opened hopen, ?_, ?_⟩ <;>
      rw [helse.channel hopen c hdc]
  cases hm with
  | stay | send | transmit => exact h
  | emit hd => exact h.frame rfl fun hopen => ⟨hopen, rfl, rfl⟩
  | shut hs =>
    refine h.frame (congrFun hs.handed c) fun hopen => ?_
    rw [show _ = true from hs.closed] at hopen
    cases hopen
  | ordered hd hsteps =>
    rename_i d s
    by_cases hdc : c = d
    · subst hdc
      have hseq := not_sequenced_of_mayFragment (c := c) (by rw [hc]; rfl)
      exact hsteps.inOrder (hl.channelSound hseq) (hl.ackLink c hseq)
        (fun hopen => hl.ordered hopen c hc) h
    · exact hother hdc hsteps.frame.2
  | unordered hd hA hopen hstep hs =>
    rename_i d q n payload fragment s s'
    have hdc : c ≠ d := by
      intro heq
      rw [← heq, hc] at hd
      cases hd
    have hframe := hother hdc (.of_frame hstep.frame)
    rcases hs with rfl | rfl
    · exact hframe
    · exact hframe.frame rfl nofun

/-- The payloads the event queue got on a channel. -/
def RecvState.eventQueue (s : RecvState) (c : Byte) : List Bytes :=
  ((s.handed c).filter fun h => h.queued).map fun h => h.payload

/-- **Ordered delivery is an exact prefix.**  In every state a connection can reach, over a network
that loses, duplicates, delays and reorders datagrams, what an ordered channel has handed over is a
prefix of what was accepted on it; where no payload went to the realtime handler instead, it is what
the event queue got. -/
theorem ordered_delivery_exact (h : Reachable (linkSystem cn) ok l)
    (hc : DeliveryMethod.fromChannelId c = .reliableOrdered) :
    (((l.receiver.handed c).map fun h => h.payload) <+:
      (l.sender.accepted c).map fun m => m.payload) ∧
    ((∀ x ∈ l.receiver.handed c, x.queued = true) →
      l.receiver.eventQueue c <+: (l.sender.accepted c).map fun m => m.payload) := by
  have hin : InOrder (l.sender.accepted c) l.receiver c := by
    refine h.invariant_of (fun l => InOrder (l.sender.accepted c) l.receiver c)
      (fun l hl => linkSound_of_reachable hl) ?_ ?_
    · intro l hl
      rw [show l = .init cn from hl]
      refine .of_progress (k := 0) (j := 0) ⟨rfl, Nat.zero_le _, rfl, .inl (.inl ⟨rfl, ?_⟩), ?_⟩
      · intro id
        rfl
      · intro q x hx
        cases hx
    · intro l a l' hl hin _ hstep
      exact (linkStep_move hl hstep).inOrder hl hc hin
  refine ⟨hin.handed, fun hqueued => ?_⟩
  rw [RecvState.eventQueue, List.filter_eq_self.mpr hqueued]
  exact hin.handed

/-- Two payloads on channel id 2; the second one arrives first and waits in the buffer. -/
def reorderedExchange : List LinkAction :=
  [.send (.enqueue [(0, .reliableOrdered, [7#8]), (0, .reliableOrdered, [8#8])]),
    .send (.move [2]), .send .releaseBytes, .send .releasePackets, .send .build, .send .build,
    .transmit 2 1, .transmit 2 0, .deliver 0 .willing [], .deliver 1 .willing [.willing]]

theorem ordered_delivery_exact_two : ∃ l, Reachable (linkSystem 0) (fun _ _ => True) l ∧
    l.receiver.eventQueue 2 = [[7], [8]] ∧
    l.receiver.eventQueue 2 <+: (l.sender.accepted 2).map fun m => m.payload := by
  have hrun : ((runActions (linkSystem 0) (.init 0) reorderedExchange).any fun l =>
      decide (l.receiver.eventQueue 2 = [[7], [8]]) &&
        decide (∀ x ∈ l.receiver.handed 2, x.queued = true)) = true := by
    decide +kernel
  obtain ⟨l, hreach, hl⟩ := exists_reachable_of_free_run (.init rfl) hrun
  simp only [Bool.and_eq_true, decide_eq_true_eq] at hl
  exact ⟨l, hreach, hl.1, (ordered_delivery_exact hreach (by decide)).2 hl.2⟩

end Runs
end BasisRust.Transport
