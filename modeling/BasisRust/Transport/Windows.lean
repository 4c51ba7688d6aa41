import BasisRust.Transport.Link

/-!
# Four windows that stay together

On an ordered or unordered channel four windows move independently: the packets in flight at the
sender, the cursor of the receiver with its history of committed numbers, the reorder buffer (or the
table of the unordered channel), and the acknowledgement bitmap.  The invariants here keep them
within a few hundred numbers of each other, in unwrapped numbering, so that every comparison modulo
`maxSequence` and every residue modulo 128 in the code means what it should.
-/

namespace BasisRust.Transport

open Library

/-! ### Operations seen from their channel -/

/-- The record with the new packet, if there is one. -/
def withNew (o : Option ℕ) (recorded : List ℕ) : List ℕ :=
  match o with
  | none => recorded
  | some n => n :: recorded

section Views

variable (s : RecvState) (c : Byte) (q : ℕ)

@[simp] theorem channel_ack :
    (s.ack c q).channel c = { s.channel c with ack := queueAck (s.channel c).ack q } := by
  simp [RecvState.channel, RecvState.ack]

@[simp] theorem channel_record (n : ℕ) :
    (s.record c n).channel c = { s.channel c with recorded := n :: (s.channel c).recorded } := by
  simp [RecvState.channel, RecvState.record]

@[simp] theorem channel_hand (h : Handed) :
    (s.hand c h).channel c = { s.channel c with handed := (s.channel c).handed ++ [h] } := by
  simp [RecvState.channel, RecvState.hand]

@[simp] theorem channel_commitOrdered :
    (s.commitOrdered c q).channel c =
      { s.channel c with ordered := (s.channel c).ordered.commit q } := by
  simp [RecvState.channel, RecvState.commitOrdered]

@[simp] theorem channel_commitUnordered :
    (s.commitUnordered c q).channel c =
      { s.channel c with unordered := (s.channel c).unordered.commit q } := by
  simp [RecvState.channel, RecvState.commitUnordered]

@[simp] theorem channel_setFuture (future : List (ℕ × RetainedOrderedMessage)) :
    (s.setFuture c future).channel c =
      { s.channel c with ordered := { (s.channel c).ordered with future := future } } := by
  simp [RecvState.channel, RecvState.setFuture]

@[simp] theorem channel_retain (m : RetainedOrderedMessage) :
    (s.retain c q m).channel c = { s.channel c with ordered := { (s.channel c).ordered with
        future := assocSet q m (s.channel c).ordered.future } } := by
  simp [RecvState.channel, RecvState.retain, RecvState.setFuture]

@[simp] theorem channel_recordNew (o : Option ℕ) :
    (recordNew s c o).channel c =
      { s.channel c with recorded := withNew o (s.channel c).recorded } := by
  cases o with
  | none => rfl
  | some n => exact channel_record s c n

theorem channel_ackNew_none : (ackNew s c q none).channel c = s.channel c := rfl

theorem channel_ackNew_some (n : ℕ) : (ackNew s c q (some n)).channel c = { s.channel c with
      ack := queueAck (s.channel c).ack q
      recorded := n :: (s.channel c).recorded } := by
  rw [ackNew, channel_record, channel_ack]

@[simp] theorem channel_incoming (incoming : IncomingFragmentState) :
    ({ s with incoming := incoming } : RecvState).channel c =
      { s.channel c with assembly := incoming.get c } := rfl

end Views

/-! ### The in-flight queue and the bitmap -/

/-- The acknowledgement bitmap of the receiver against the in-flight queue of the sender. -/
structure AckLink (v : SendChannel) (r : RecvChannel) : Prop where
  sound : AckSound (· ∈ r.recorded) r.ack
  sent : ∀ n ∈ r.recorded, n < v.sent.length
  released : ∀ n ∈ v.acknowledged, n ∈ r.recorded ∧ n < r.ack.base + 128
  behind : r.ack.base ≤ v.base

namespace AckLink

variable {cn : BitVec 2} {c : Byte} {v v' : SendChannel} {r r' : RecvChannel} {n : ℕ}

/-- Every packet below the base of the in-flight queue has been acknowledged. -/
theorem acknowledged_of_lt (hv : ChannelSound cn c defaultWindowSize v) (hn : n < v.base) :
    n ∈ v.acknowledged := by
  have hmem : n ∈ v.acknowledged ++ v.pending.map fun item => item.index :=
    hv.ledger.mem_iff.mpr (List.mem_range.mpr (hn.trans_le hv.base_le_sent))
  rcases List.mem_append.mp hmem with h | h
  · exact h
  · obtain ⟨item, hitem, rfl⟩ := List.mem_map.mp h
    exact absurd (hv.base_le_index hitem) (by omega)

section

variable (h : AckLink v r)
include h

section

variable (hv : ChannelSound cn c defaultWindowSize v)
include hv

/-- The base of the in-flight queue is at most one window ahead of the bitmap. -/
theorem base_le : v.base ≤ r.ack.base + 128 := by
  rcases Nat.eq_zero_or_pos v.base with h0 | hpos
  · omega
  · have hlast := (h.released _ (acknowledged_of_lt hv (n := v.base - 1) (by omega))).2
    omega

theorem sent_le : v.sent.length ≤ r.ack.base + 256 := by
  have hwin := hv.window
  have hbase := h.base_le hv
  rw [defaultWindowSize] at hwin
  omega

/-- Queueing an acknowledgement for a recorded packet near the top. -/
theorem ack (hn : n ∈ r.recorded) (hnear : v.sent.length < n + 16384) :
    AckLink v { r with ack := queueAck r.ack (n % maxSequence) } := by
  have hlt := h.sent n hn
  have hsent := h.sent_le hv
  have hbehind := h.behind
  have hle := hv.base_le_sent
  have hwin := hv.window
  rw [defaultWindowSize] at hwin
  obtain ⟨hsound, hbase, -⟩ := h.sound.queueAck_spec hn (by omega) (by omega)
  refine ⟨hsound, h.sent, ?_, ?_⟩
  · intro m hm
    obtain ⟨h₁, h₂⟩ := h.released m hm
    refine ⟨h₁, ?_⟩
    change m < (queueAck r.ack (n % maxSequence)).base + 128
    rw [hbase]
    omega
  · change (queueAck r.ack (n % maxSequence)).base ≤ v.base
    rw [hbase]
    omega

end

/-- One more packet is recorded, or one that was recorded before. -/
theorem record (hn : n < v.sent.length) (hrec : ∀ k, k ∈ r'.recorded ↔ k = n ∨ k ∈ r.recorded)
    (hack : r'.ack = r.ack) : AckLink v r' where
  sound := by
    rw [hack]
    exact h.sound.mono fun k hk => (hrec k).mpr (.inr hk)
  sent := by
    intro k hk
    rcases (hrec k).mp hk with rfl | hk
    · exact hn
    · exact h.sent k hk
  released := by
    intro k hk
    rw [hack]
    exact ⟨(hrec k).mpr (.inr (h.released k hk).1), (h.released k hk).2⟩
  behind := by
    rw [hack]
    exact h.behind

/-- Only the bitmap and the record of the receiver matter. -/
theorem congr (hack : r'.ack = r.ack) (hrec : r'.recorded = r.recorded) : AckLink v r' := by
  obtain ⟨h₁, h₂, h₃, h₄⟩ := h
  refine ⟨?_, ?_, ?_, ?_⟩
  · rw [hack, hrec]
    exact h₁
  · rw [hrec]
    exact h₂
  · rw [hack, hrec]
    exact h₃
  · rw [hack]
    exact h₄

/-- One more packet is recorded and acknowledged. -/
theorem recordAck (hv : ChannelSound cn c defaultWindowSize v) (hn : n < v.sent.length)
    (hnear : v.sent.length < n + 16384) (hrec : ∀ k, k ∈ r'.recorded ↔ k = n ∨ k ∈ r.recorded)
    (hack : r'.ack = queueAck r.ack (n % maxSequence)) : AckLink v r' := by
  have hrecord : AckLink v { r' with ack := r.ack } := h.record hn hrec rfl
  have hstep := hrecord.ack hv ((hrec n).mpr (.inl rfl)) hnear
  exact hstep.congr hack rfl

/-- The sender may number more packets and release what was recorded. -/
theorem sender (hsent : v.sent.length ≤ v'.sent.length) (hbase : v.base ≤ v'.base)
    (hack : ∀ n ∈ v'.acknowledged, n ∈ v.acknowledged ∨
      (n ∈ r.recorded ∧ n < r.ack.base + 128)) : AckLink v' r where
  sound := h.sound
  sent := fun n hn => (h.sent n hn).trans_le hsent
  released := by
    intro n hn
    rcases hack n hn with hn | hn
    · exact h.released n hn
    · exact hn
  behind := h.behind.trans hbase

end

end AckLink

/-! ### The ordered window -/

/-- The receive state of an ordered channel. -/
structure OrderedWindow (r : RecvChannel) : Prop where
  expected : r.ordered.expected = r.ordered.cursor % maxSequence
  /-- The last 128 committed numbers are in the history. -/
  history : ∀ m, m < r.ordered.cursor → r.ordered.cursor ≤ m + 128 →
    r.ordered.committed (m % 128) = some (m % maxSequence)
  /-- Nothing else is. -/
  committed : ∀ i q, r.ordered.committed i = some q →
    ∃ m, m < r.ordered.cursor ∧ r.ordered.cursor ≤ m + 128 ∧ m % 128 = i ∧ q = m % maxSequence
  future : ∀ q x, assocGet q r.ordered.future = some x →
    ∃ n, r.ordered.cursor ≤ n ∧ n < r.ordered.cursor + 128 ∧ q = n % maxSequence ∧ n ∈ r.recorded
  recorded : ∀ n ∈ r.recorded, n < r.ordered.cursor ∨
    (r.ordered.cursor ≤ n ∧ n < r.ordered.cursor + 128 ∧
      (assocGet (n % maxSequence) r.ordered.future).isSome)
  done : ∀ n, n < r.ordered.cursor → n ∈ r.recorded
  budget : ∀ q x, assocGet q r.ordered.future = some x → x.fragment ≠ none → x.budgets ≠ 0

namespace OrderedWindow

variable {cn : BitVec 2} {c : Byte} {v : SendChannel} {r r' : RecvChannel} {n : ℕ}
  {future : List (ℕ × RetainedOrderedMessage)}

section

variable (h : OrderedWindow r)
include h

/-- Only the ordered state and the record matter. -/
theorem congr (hord : r'.ordered = r.ordered) (hrec : r'.recorded = r.recorded) :
    OrderedWindow r' := by
  obtain ⟨h₁, h₂, h₃, h₄, h₅, h₆, h₇⟩ := h
  refine ⟨?_, ?_, ?_, ?_, ?_, ?_, ?_⟩
  all_goals first | rw [hord, hrec] | rw [hord]
  all_goals assumption

theorem lt_of_recorded (hn : n ∈ r.recorded) : n < r.ordered.cursor + 128 := by
  rcases h.recorded n hn with h | h
  · omega
  · exact h.2.1

theorem cursor_le_sent (hl : AckLink v r) : r.ordered.cursor ≤ v.sent.length := by
  rcases Nat.eq_zero_or_pos r.ordered.cursor with h0 | hpos
  · omega
  · have hlast := hl.sent _ (h.done (r.ordered.cursor - 1) (by omega))
    omega

/-- The cursor is at most two windows behind the newest packet. -/
theorem sent_le (hl : AckLink v r) (hv : ChannelSound cn c defaultWindowSize v) :
    v.sent.length ≤ r.ordered.cursor + 256 := by
  have hwin := hv.window
  rw [defaultWindowSize] at hwin
  rcases Nat.eq_zero_or_pos v.base with h0 | hpos
  · omega
  · have hack := AckLink.acknowledged_of_lt hv (n := v.base - 1) (by omega)
    have hlt := h.lt_of_recorded (hl.released _ hack).1
    omega

/-- A number that is in the history belongs to a committed packet of this lap. -/
theorem of_isCommitted (h₁ : n < r.ordered.cursor + 16384) (h₂ : r.ordered.cursor < n + 16640)
    (hc : r.ordered.isCommitted (n % maxSequence) = true) :
    n < r.ordered.cursor ∧ r.ordered.cursor ≤ n + 128 := by
  obtain ⟨m, hm, hm', -, hq⟩ := h.committed _ _ (of_decide_eq_true hc)
  have hnm : n = m := eq_of_mod_eq_of_close (p := maxSequence) (by rw [maxSequence]; omega)
    (by rw [maxSequence]; omega) hq
  rw [hnm]
  exact ⟨hm, hm'⟩

/-- A number that is in the reorder buffer belongs to a recorded packet of this lap. -/
theorem of_future (h₁ : n < r.ordered.cursor + 16384) (h₂ : r.ordered.cursor < n + 16640)
    (hf : (assocGet (n % maxSequence) r.ordered.future).isSome) :
    r.ordered.cursor ≤ n ∧ n < r.ordered.cursor + 128 ∧ n ∈ r.recorded := by
  obtain ⟨x, hx⟩ := Option.isSome_iff_exists.mp hf
  obtain ⟨m, hm, hm', hq, hrec⟩ := h.future _ _ hx
  have hnm : n = m := eq_of_mod_eq_of_close (p := maxSequence) (by rw [maxSequence]; omega)
    (by rw [maxSequence]; omega) hq
  rw [hnm]
  exact ⟨hm, hm', hrec⟩

theorem isCommitted_of (h₁ : n < r.ordered.cursor) (h₂ : r.ordered.cursor ≤ n + 128) :
    r.ordered.isCommitted (n % maxSequence) = true := by
  refine decide_eq_true ?_
  rw [defaultWindowSize, maxSequence, Nat.mod_mod_of_dvd _ (by decide)]
  exact h.history n h₁ h₂

end

/-- Two numbers of the window of the buffer have different keys. -/
theorem key_ne {K m n : ℕ} (hm : K ≤ m) (hm' : m < K + 256) (hn : K ≤ n) (hn' : n < K + 256)
    (hne : m ≠ n) : m % maxSequence ≠ n % maxSequence := by
  intro h
  exact hne (eq_of_mod_eq_of_close (p := maxSequence) (by rw [maxSequence]; omega)
    (by rw [maxSequence]; omega) h)

/-- **Commit.**  The packet at the cursor is recorded and leaves the buffer, if it was there. -/
theorem commit (h : OrderedWindow r) {recorded : List ℕ}
    (hgone : assocGet (r.ordered.cursor % maxSequence) future = none)
    (hfut : ∀ q, q ≠ r.ordered.cursor % maxSequence →
      assocGet q future = assocGet q r.ordered.future)
    (hrec : ∀ n, n ∈ recorded ↔ n = r.ordered.cursor ∨ n ∈ r.recorded)
    (hord : r'.ordered = OrderedReceiveState.commit { r.ordered with future := future }
      (r.ordered.cursor % maxSequence)) (hrec' : r'.recorded = recorded) :
    OrderedWindow r' := by
  set K := r.ordered.cursor with hK
  have hcursor : r'.ordered.cursor = K + 1 := by rw [hord, hK]; rfl
  have hfuture : r'.ordered.future = future := by rw [hord]; rfl
  have hcommitted : r'.ordered.committed =
      Function.update r.ordered.committed (K % 128) (some (K % maxSequence)) := by
    rw [hord]
    simp only [OrderedReceiveState.commit, defaultWindowSize, maxSequence,
      Nat.mod_mod_of_dvd K (show 128 ∣ 32768 by decide)]
  have hkey : ∀ q x, assocGet q future = some x →
      q ≠ K % maxSequence ∧ assocGet q r.ordered.future = some x := by
    intro q x hx
    have hne : q ≠ K % maxSequence := by
      intro heq
      rw [heq, hgone] at hx
      cases hx
    exact ⟨hne, hfut q hne ▸ hx⟩
  refine ⟨?_, ?_, ?_, ?_, ?_, ?_, ?_⟩
  · rw [hcursor, hord]
    simp only [OrderedReceiveState.commit, Nat.mod_add_mod]
  · intro m hm hm'
    rw [hcursor] at hm hm'
    rw [hcommitted]
    by_cases heq : m = K
    · rw [heq, Function.update_self]
    · have hres : m % 128 ≠ K % 128 := fun hmod => heq (eq_of_mod_eq_of_close (p := 128)
        (by omega) (by omega) hmod)
      rw [Function.update_of_ne hres]
      exact h.history m (by omega) (by omega)
  · intro i q hq
    rw [hcommitted] at hq
    rw [hcursor]
    by_cases hi : i = K % 128
    · rw [hi, Function.update_self, Option.some.injEq] at hq
      exact ⟨K, by omega, by omega, hi.symm, hq.symm⟩
    · rw [Function.update_of_ne hi] at hq
      obtain ⟨m, hm, hm', hmi, hmq⟩ := h.committed i q hq
      refine ⟨m, by omega, ?_, hmi, hmq⟩
      -- the number that falls out of the history has the residue that was overwritten
      by_contra hold
      refine hi ?_
      rw [← hmi, show K = m + 128 from by omega, Nat.add_mod_right]
  · intro q x hx
    rw [hfuture] at hx
    obtain ⟨hne, hx⟩ := hkey q x hx
    obtain ⟨n, hn, hn', hq, hnrec⟩ := h.future q x hx
    have hnK : n ≠ K := fun heq => hne (heq ▸ hq)
    rw [hcursor, hrec']
    exact ⟨n, by omega, by omega, hq, (hrec n).mpr (.inr hnrec)⟩
  · intro n hn
    rw [hrec', hrec] at hn
    rw [hcursor, hfuture]
    rcases hn with heq | hn
    · exact .inl (by omega)
    · rcases h.recorded n hn with hlt | ⟨hge, hlt, hsome⟩
      · exact .inl (by omega)
      · by_cases heq : n = K
        · exact .inl (by omega)
        · refine .inr ⟨by omega, by omega, ?_⟩
          rw [hfut _ (key_ne hge (by omega) le_rfl (by omega) heq)]
          exact hsome
  · intro n hn
    rw [hcursor] at hn
    rw [hrec', hrec]
    by_cases heq : n = K
    · exact .inl heq
    · exact .inr (h.done n (by omega))
  · intro q x hx
    rw [hfuture] at hx
    exact h.budget q x (hkey q x hx).2

/-- **Retain.**  A packet of the window is recorded and kept, or kept again. -/
theorem retain (h : OrderedWindow r) {recorded : List ℕ} {m : RetainedOrderedMessage}
    (hlo : r.ordered.cursor ≤ n) (hhi : n < r.ordered.cursor + 128)
    (hset : assocGet (n % maxSequence) future = some m)
    (hfut : ∀ q, q ≠ n % maxSequence → assocGet q future = assocGet q r.ordered.future)
    (hm : m.fragment ≠ none → m.budgets ≠ 0) (hrec : ∀ k, k ∈ recorded ↔ k = n ∨ k ∈ r.recorded)
    (hord : r'.ordered = { r.ordered with future := future }) (hrec' : r'.recorded = recorded) :
    OrderedWindow r' := by
  have hcursor : r'.ordered.cursor = r.ordered.cursor := by rw [hord]
  have hfuture : r'.ordered.future = future := by rw [hord]
  have hcommitted : r'.ordered.committed = r.ordered.committed := by rw [hord]
  refine ⟨?_, ?_, ?_, ?_, ?_, ?_, ?_⟩
  · rw [hcursor, hord]
    exact h.expected
  · rw [hcursor, hcommitted]
    exact h.history
  · rw [hcursor, hcommitted]
    exact h.committed
  · intro q x hx
    rw [hfuture] at hx
    rw [hcursor, hrec']
    by_cases hq : q = n % maxSequence
    · exact ⟨n, hlo, hhi, hq, (hrec n).mpr (.inl rfl)⟩
    · rw [hfut q hq] at hx
      obtain ⟨k, hk, hk', hkq, hkrec⟩ := h.future q x hx
      exact ⟨k, hk, hk', hkq, (hrec k).mpr (.inr hkrec)⟩
  · intro k hk
    rw [hrec', hrec] at hk
    rw [hcursor, hfuture]
    by_cases hkn : k = n
    · rw [hkn, hset]
      exact .inr ⟨hlo, hhi, rfl⟩
    · rcases h.recorded k (hk.resolve_left hkn) with hlt | ⟨hge, hlt, hsome⟩
      · exact .inl hlt
      · refine .inr ⟨hge, hlt, ?_⟩
        rw [hfut _ (key_ne hge (by omega) hlo (by omega) hkn)]
        exact hsome
  · intro k hk
    rw [hcursor] at hk
    rw [hrec', hrec]
    exact .inr (h.done k hk)
  · intro q x hx hfrag
    rw [hfuture] at hx
    by_cases hq : q = n % maxSequence
    · rw [hq, hset, Option.some.injEq] at hx
      rw [← hx] at hfrag ⊢
      exact hm hfrag
    · rw [hfut q hq] at hx
      exact h.budget q x hx hfrag

end OrderedWindow

/-! ### Ordered steps keep the windows -/

/-- The packets that can arrive on a channel: numbered packets that are not too old. -/
def CanArrive (v : SendChannel) : Arrival := fun q n payload fragment =>
  q = n % maxSequence ∧ v.sent[n]? = some ⟨payload, fragment⟩ ∧ v.sent.length < n + 16640

section OrderedSteps

variable {cn : BitVec 2} {c : Byte} {v : SendChannel} {s s₀ s' : RecvState} {q : ℕ}
  {x : RetainedOrderedMessage} {o : Option ℕ}

theorem CanArrive.lt {n : ℕ} {payload : Bytes} {fragment : Option ReliableFragment}
    (h : CanArrive v q n payload fragment) : n < v.sent.length :=
  (List.getElem?_eq_some_iff.mp h.2.1).1

/-- The packet at the cursor, wherever it comes from. -/
structure AtCursor (v : SendChannel) (r : RecvChannel) (q : ℕ) (x : RetainedOrderedMessage)
    (o : Option ℕ) (future : List (ℕ × RetainedOrderedMessage)) : Prop where
  number : q = r.ordered.cursor % maxSequence
  gone : assocGet (r.ordered.cursor % maxSequence) future = none
  others : ∀ k, k ≠ r.ordered.cursor % maxSequence → assocGet k future = assocGet k r.ordered.future
  arrived : ∀ n, o = some n → n = r.ordered.cursor ∧ future = r.ordered.future ∧
    v.sent[n]? = some ⟨x.payload, x.fragment⟩
  waited : o = none → r.ordered.cursor ∈ r.recorded ∧
    assocGet (r.ordered.cursor % maxSequence) r.ordered.future = some x
  lt : r.ordered.cursor < v.sent.length

theorem Source.atCursor (h : Source (CanArrive v) s c q x o s₀)
    (hv : ChannelSound cn c defaultWindowSize v) (hl : AckLink v (s.channel c))
    (hw : OrderedWindow (s.channel c)) :
    ∃ future, AtCursor v (s.channel c) q x o future ∧ s₀.channel c =
      { s.channel c with ordered := { (s.channel c).ordered with future := future } } ∧
      s₀.closed = s.closed := by
  have hle := hw.cursor_le_sent hl
  have hge := hw.sent_le hl hv
  cases h with
  | arrival _ n _ hA hfresh hfuture hq =>
    have hlt := hA.lt
    obtain ⟨rfl, hget, hnear⟩ := hA
    have hexp := hw.expected
    change (s.ordered c).expected = _ at hexp
    rw [hexp] at hq
    have hrel := relativeSequence_window n (s.channel c).ordered.cursor (by omega) (by omega)
      (by rw [hq]) (by rw [hq]; decide)
    have hn : n = (s.channel c).ordered.cursor := by omega
    refine ⟨(s.ordered c).future, ⟨by rw [hn], by rw [← hn]; exact hfuture, fun _ _ => rfl, ?_,
      fun h => (by cases h), (by rw [← hn]; exact hlt)⟩, rfl, rfl⟩
    intro k hk
    cases hk
    exact ⟨hn, rfl, hget⟩
  | buffered x hx =>
    have hexp := hw.expected
    change (s.ordered c).expected = _ at hexp
    rw [hexp] at hx ⊢
    change assocGet _ (s.channel c).ordered.future = some x at hx
    have hrec : (s.channel c).ordered.cursor ∈ (s.channel c).recorded :=
      (hw.of_future (by omega) (by omega) (by rw [hx]; rfl)).2.2
    refine ⟨_, ⟨rfl, assocGet_erase_self _ _, fun k hk => assocGet_erase_of_ne hk _,
      fun n hn => (by cases hn), fun _ => ⟨hrec, hx⟩, hl.sent _ hrec⟩, channel_setFuture s c _, rfl⟩

/-- The record after a step at the cursor. -/
theorem AtCursor.recorded {r : RecvChannel} {future : List (ℕ × RetainedOrderedMessage)}
    (h : AtCursor v r q x o future) (k : ℕ) :
    k ∈ withNew o r.recorded ↔ k = r.ordered.cursor ∨ k ∈ r.recorded := by
  cases o with
  | none =>
    constructor
    · exact .inr
    · intro hk
      rcases hk with rfl | hk
      · exact (h.waited rfl).1
      · exact hk
  | some n =>
    rw [(h.arrived n rfl).1]
    exact List.mem_cons

/-- **Ordered steps keep the windows together.** -/
theorem OrderedStep.window (h : OrderedStep (CanArrive v) c s s')
    (hv : ChannelSound cn c defaultWindowSize v) (hl : AckLink v (s.channel c))
    (hw : OrderedWindow (s.channel c)) :
    AckLink v (s'.channel c) ∧ (s'.closed = false → OrderedWindow (s'.channel c)) := by
  have hle := hw.cursor_le_sent hl
  have hge := hw.sent_le hl hv
  cases h with
  | reack q n payload fragment hA hdup =>
    have hlt := hA.lt
    obtain ⟨rfl, -, hnear⟩ := hA
    have hrec : n ∈ (s.channel c).recorded ∧ (s.channel c).ordered.cursor ≤ n + 128 := by
      rcases hdup with hdup | hdup
      · obtain ⟨h₁, h₂⟩ := hw.of_isCommitted (by omega) (by omega) hdup
        exact ⟨hw.done n h₁, h₂⟩
      · obtain ⟨h₁, -, h₃⟩ := hw.of_future (by omega) (by omega) hdup
        exact ⟨h₃, by omega⟩
    rw [channel_ack]
    exact ⟨hl.ack hv hrec.1 (by omega), fun _ => hw.congr rfl rfl⟩
  | store q n payload fragment hA hfresh hfuture hlo hhi =>
    have hlt := hA.lt
    obtain ⟨rfl, -, hnear⟩ := hA
    have hexp := hw.expected
    change (s.ordered c).expected = _ at hexp
    rw [hexp] at hlo hhi
    have hahead : maxOrderedReorderAhead = 127 := rfl
    have hrel := relativeSequence_window n (s.channel c).ordered.cursor (by omega) (by omega)
      (by omega) (by rw [defaultWindowSize]; omega)
    rw [channel_record, channel_ack, channel_retain]
    constructor
    · exact hl.recordAck hv hlt (by omega) (fun k => List.mem_cons) rfl
    · intro _
      exact hw.retain (n := n) (by omega) (by omega) (assocGet_set_self _ _ _)
        (fun k hk => assocGet_set_of_ne hk _ _) (by simp) (fun k => List.mem_cons) rfl rfl
  | shut h =>
    refine ⟨hl.congr (congrFun h.acks c) (congrFun h.recorded c), ?_⟩
    intro hopen
    rw [h.closed] at hopen
    cases hopen
  | token | refuseNew => exact ⟨hl.congr rfl rfl, fun _ => hw.congr rfl rfl⟩
  | handWhole b hsrc hx =>
    obtain ⟨future, hat, hch, -⟩ := hsrc.atCursor hv hl hw
    rw [channel_recordNew, channel_hand, channel_ack, channel_commitOrdered, hch, hat.number]
    exact ⟨hl.recordAck hv hat.lt (by omega) hat.recorded rfl,
      fun _ => hw.commit hat.gone hat.others hat.recorded rfl rfl⟩
  | keepWhole hsrc hx =>
    obtain ⟨future, hat, hch, -⟩ := hsrc.atCursor hv hl hw
    rw [channel_retain, hch, hat.number]
    exact ⟨hl.congr rfl rfl, fun _ => hw.retain le_rfl (by omega) (assocGet_set_self _ _ _)
      (fun k hk => (assocGet_set_of_ne hk _ _).trans (hat.others k hk)) (fun h => absurd rfl h)
      hat.recorded rfl rfl⟩
  | storePart hsrc hx hinc hins =>
    obtain ⟨future, hat, hch, -⟩ := hsrc.atCursor hv hl hw
    rename_i q x o s₀ f incoming incoming' answers buffered
    have hrec := hat.recorded
    have hcommit : ({ s₀ with incoming := incoming' } : RecvState).channel c =
        { s.channel c with
          ordered := { (s.channel c).ordered with future := future }
          assembly := incoming'.get c } := by
      rw [channel_incoming, hch]
    cases o with
    | none =>
      rw [channel_ackNew_none, channel_commitOrdered, hcommit, hat.number]
      exact ⟨hl.congr rfl rfl, fun _ => hw.commit hat.gone hat.others hrec rfl rfl⟩
    | some n =>
      rw [channel_ackNew_some, channel_commitOrdered, hcommit, hat.number]
      exact ⟨hl.recordAck hv hat.lt (by omega) hrec rfl,
        fun _ => hw.commit hat.gone hat.others hrec rfl rfl⟩
  | handPart b hsrc hx hinc hins =>
    obtain ⟨future, hat, hch, -⟩ := hsrc.atCursor hv hl hw
    rw [channel_recordNew, channel_hand, channel_ack, channel_commitOrdered, channel_incoming, hch,
      hat.number]
    exact ⟨hl.recordAck hv hat.lt (by omega) hat.recorded rfl,
      fun _ => hw.commit hat.gone hat.others hat.recorded rfl rfl⟩
  | keepPart hsrc hx hinc hins =>
    obtain ⟨future, hat, hch, -⟩ := hsrc.atCursor hv hl hw
    rename_i q x o s₀ f incoming incoming' answers buffered payload budgets
    have hrec := hat.recorded
    cases o with
    | none =>
      rw [channel_ackNew_none, channel_retain, channel_incoming, hch, hat.number]
      exact ⟨hl.congr rfl rfl, fun _ => hw.retain le_rfl (by omega) (assocGet_set_self _ _ _)
        (fun k hk => (assocGet_set_of_ne hk _ _).trans (hat.others k hk)) (fun h => absurd rfl h)
        hrec rfl rfl⟩
    | some n =>
      rw [channel_ackNew_some, channel_retain, channel_incoming, hch, hat.number]
      exact ⟨hl.recordAck hv hat.lt (by omega) hrec rfl,
        fun _ => hw.retain le_rfl (by omega) (assocGet_set_self _ _ _)
          (fun k hk => (assocGet_set_of_ne hk _ _).trans (hat.others k hk)) (fun h => absurd rfl h)
          hrec rfl rfl⟩
  | refuseBuffered hsrc hx hins =>
    obtain ⟨future, hat, hch, -⟩ := hsrc.atCursor hv hl hw
    rw [channel_retain, channel_incoming, hch, hat.number]
    exact ⟨hl.congr rfl rfl, fun _ => hw.retain le_rfl (by omega) (assocGet_set_self _ _ _)
      (fun k hk => (assocGet_set_of_ne hk _ _).trans (hat.others k hk)) (fun _ => one_ne_zero)
      hat.recorded rfl rfl⟩
  | dropPart hsrc hx hb =>
    obtain ⟨future, hat, hch, -⟩ := hsrc.atCursor hv hl hw
    exact absurd hb (hw.budget _ _ (hat.waited rfl).2 (by rw [hx]; exact Option.some_ne_none _))

theorem OrderedSteps.window (h : OrderedSteps (CanArrive v) c s s')
    (hv : ChannelSound cn c defaultWindowSize v) (hl : AckLink v (s.channel c))
    (hw : s.closed = false → OrderedWindow (s.channel c)) :
    AckLink v (s'.channel c) ∧ (s'.closed = false → OrderedWindow (s'.channel c)) := by
  induction h with
  | refl s => exact ⟨hl, hw⟩
  | step hopen hstep _ ih =>
    obtain ⟨hl', hw'⟩ := hstep.window hv hl (hw hopen)
    exact ih hl' hw'

end OrderedSteps

/-! ### The unordered window -/

namespace UnorderedReceiveState

/-- **The commit loop stops.**  It makes some number of rounds, over contained numbers only, and it
ends either because the next number is not contained or because the fuel is spent. -/
theorem advance_spec (fuel : ℕ) (st : UnorderedReceiveState) :
    ∃ k ≤ fuel, (st.advance fuel).received = st.received ∧
      (st.advance fuel).cursor = st.cursor + k ∧
      (st.expected < maxSequence → (st.advance fuel).expected = (st.expected + k) % maxSequence) ∧
      (∀ i < k, st.expected < maxSequence → st.contains ((st.expected + i) % maxSequence) = true) ∧
      (k < fuel → (st.advance fuel).contains (st.advance fuel).expected = false) := by
  induction fuel generalizing st with
  | zero =>
    refine ⟨0, le_rfl, rfl, rfl, ?_, by simp, by simp⟩
    intro h
    rw [Nat.add_zero, Nat.mod_eq_of_lt h]
    rfl
  | succ fuel ih =>
    rw [advance]
    split_ifs with hc
    · obtain ⟨k, hk, hrec, hcur, hexp, hall, hstop⟩ := ih
        { st with expected := (st.expected + 1) % maxSequence, cursor := st.cursor + 1 }
      have hlt : (st.expected + 1) % maxSequence < maxSequence := Nat.mod_lt _ (by decide)
      refine ⟨k + 1, by omega, hrec, hcur.trans (Nat.add_right_comm st.cursor 1 k), ?_, ?_,
        fun h => hstop (by omega)⟩
      · intro _
        rw [hexp hlt, Nat.mod_add_mod, Nat.add_assoc, Nat.add_comm 1 k]
      · intro i hi hst
        cases i with
        | zero =>
          rw [Nat.add_zero, Nat.mod_eq_of_lt hst]
          exact hc
        | succ i =>
          have := hall i (by omega) hlt
          rw [Nat.mod_add_mod, Nat.add_assoc, Nat.add_comm 1 i] at this
          exact this
    · refine ⟨0, by omega, rfl, rfl, ?_, by simp, fun _ => by simpa using hc⟩
      intro h
      rw [Nat.add_zero, Nat.mod_eq_of_lt h]

/-- 128 rounds are enough in every state: a longer run of contained numbers would need two numbers
in one place of the table. -/
theorem advance_stops (st : UnorderedReceiveState) (h : st.expected < maxSequence) :
    (st.advance defaultWindowSize).contains (st.advance defaultWindowSize).expected = false := by
  obtain ⟨k, hk, hrec, -, hexp, hall, hstop⟩ := advance_spec defaultWindowSize st
  rcases Nat.lt_or_ge k defaultWindowSize with hlt | hge
  · exact hstop hlt
  · have hkW : k = 128 := le_antisymm hk hge
    have hfirst := of_decide_eq_true (hall 0 (by omega) h)
    rw [Nat.add_zero, Nat.mod_eq_of_lt h] at hfirst
    rw [contains, decide_eq_false_iff_not, hrec, hexp h, hkW]
    simp only [defaultWindowSize, maxSequence] at hfirst h ⊢
    rw [Nat.mod_mod_of_dvd _ (by decide), Nat.add_mod_right, hfirst, Option.some.injEq]
    omega

theorem advance_of_stopped {st : UnorderedReceiveState} (h : st.contains st.expected = false)
    (fuel : ℕ) : st.advance fuel = st := by
  cases fuel with
  | zero => rfl
  | succ fuel => rw [advance, if_neg (by rw [h]; decide)]

theorem advance_add (a b : ℕ) (st : UnorderedReceiveState) :
    st.advance (a + b) = (st.advance a).advance b := by
  induction a generalizing st with
  | zero => rw [Nat.zero_add, advance]
  | succ a ih =>
    rw [Nat.add_right_comm, advance, advance]
    split_ifs with hc
    · exact ih _
    · exact (advance_of_stopped (by simpa using hc) b).symm

/-- The loop of the source, which has no bound on its rounds, ends where 128 rounds end. -/
theorem advance_eq_of_le {st : UnorderedReceiveState} (h : st.expected < maxSequence) {fuel : ℕ}
    (hfuel : defaultWindowSize ≤ fuel) : st.advance fuel = st.advance defaultWindowSize := by
  obtain ⟨k, rfl⟩ := Nat.exists_eq_add_of_le hfuel
  rw [advance_add]
  exact advance_of_stopped (advance_stops st h) k

end UnorderedReceiveState

/-- The receive state of an unordered channel. -/
structure UnorderedWindow (r : RecvChannel) : Prop where
  expected : r.unordered.expected = r.unordered.cursor % maxSequence
  /-- A place of the table holds the newest recorded number with its residue. -/
  slot : ∀ i q, r.unordered.received i = some q →
    ∃ m ∈ r.recorded, m % 128 = i ∧ q = m % maxSequence ∧ m + 128 ∉ r.recorded
  held : ∀ m ∈ r.recorded, m + 128 ∉ r.recorded →
    r.unordered.received (m % 128) = some (m % maxSequence)
  done : ∀ n, n < r.unordered.cursor → n ∈ r.recorded
  /-- The cursor is on the first packet that has not been received. -/
  first : r.unordered.cursor ∉ r.recorded
  bound : ∀ n ∈ r.recorded, n < r.unordered.cursor + 128

namespace UnorderedWindow

variable {cn : BitVec 2} {c : Byte} {v : SendChannel} {r r' : RecvChannel} {n : ℕ}

section

variable (h : UnorderedWindow r)
include h

theorem congr (hun : r'.unordered = r.unordered) (hrec : r'.recorded = r.recorded) :
    UnorderedWindow r' := by
  obtain ⟨h₁, h₂, h₃, h₄, h₅, h₆⟩ := h
  refine ⟨?_, ?_, ?_, ?_, ?_, ?_⟩
  all_goals first | rw [hun, hrec] | rw [hun]
  all_goals assumption

theorem cursor_le_sent (hl : AckLink v r) : r.unordered.cursor ≤ v.sent.length := by
  rcases Nat.eq_zero_or_pos r.unordered.cursor with h0 | hpos
  · omega
  · have hlast := hl.sent _ (h.done (r.unordered.cursor - 1) (by omega))
    omega

theorem sent_le (hl : AckLink v r) (hv : ChannelSound cn c defaultWindowSize v) :
    v.sent.length ≤ r.unordered.cursor + 256 := by
  have hwin := hv.window
  rw [defaultWindowSize] at hwin
  rcases Nat.eq_zero_or_pos v.base with h0 | hpos
  · omega
  · have hack := AckLink.acknowledged_of_lt hv (n := v.base - 1) (by omega)
    have hlt := h.bound _ (hl.released _ hack).1
    omega

/-- A number that is in the table belongs to a recorded packet of this lap. -/
theorem of_contains (h₁ : n < r.unordered.cursor + 16384) (h₂ : r.unordered.cursor < n + 16640)
    (hc : r.unordered.contains (n % maxSequence) = true) :
    n ∈ r.recorded ∧ r.unordered.cursor ≤ n + 128 := by
  obtain ⟨m, hm, -, hq, hnew⟩ := h.slot _ _ (of_decide_eq_true hc)
  have hlo : r.unordered.cursor ≤ m + 128 := by
    by_contra hlt
    exact hnew (h.done _ (by omega))
  have hhi := h.bound m hm
  have hnm : n = m := eq_of_mod_eq_of_close (p := maxSequence) (by rw [maxSequence]; omega)
    (by rw [maxSequence]; omega) hq
  rw [hnm]
  exact ⟨hm, hlo⟩

theorem contains_of (hn : n ∈ r.recorded) (hnew : n + 128 ∉ r.recorded) :
    r.unordered.contains (n % maxSequence) = true := by
  refine decide_eq_true ?_
  rw [defaultWindowSize, maxSequence, Nat.mod_mod_of_dvd _ (by decide)]
  exact h.held n hn hnew

/-- **Commit.**  A new packet of the window is recorded, and the cursor moves to the first packet
that is still missing. -/
theorem commit (hlo : r.unordered.cursor ≤ n) (hhi : n < r.unordered.cursor + 128)
    (hnew : n ∉ r.recorded) (hun : r'.unordered = r.unordered.commit (n % maxSequence))
    (hrec : r'.recorded = n :: r.recorded) : UnorderedWindow r' := by
  set K := r.unordered.cursor with hK
  set st : UnorderedReceiveState := { r.unordered with
    received := Function.update r.unordered.received (n % 128) (some (n % maxSequence)) } with hst
  have hcommit : r'.unordered = st.advance defaultWindowSize := by
    rw [hun, hst]
    simp only [UnorderedReceiveState.commit, defaultWindowSize, maxSequence,
      Nat.mod_mod_of_dvd n (show 128 ∣ 32768 by decide)]
  have hmem : ∀ k, k ∈ r'.recorded ↔ k = n ∨ k ∈ r.recorded := by
    intro k
    rw [hrec]
    exact List.mem_cons
  have hbound : ∀ k, k ∈ r'.recorded → k < K + 128 := by
    intro k hk
    rcases (hmem k).mp hk with rfl | hk
    · exact hhi
    · exact h.bound k hk
  have hdone : ∀ k, k < K → k ∈ r'.recorded := fun k hk => (hmem k).mpr (.inr (h.done k hk))
  -- the table after the new entry
  have hslot : ∀ i q, st.received i = some q →
      ∃ m ∈ r'.recorded, m % 128 = i ∧ q = m % maxSequence ∧ m + 128 ∉ r'.recorded := by
    intro i q hq
    by_cases hi : i = n % 128
    · rw [hst, hi] at hq
      simp only [Function.update_self, Option.some.injEq] at hq
      refine ⟨n, (hmem n).mpr (.inl rfl), hi.symm, hq.symm, fun hn => ?_⟩
      have := hbound _ hn
      omega
    · rw [hst] at hq
      simp only [Function.update_of_ne hi] at hq
      obtain ⟨m, hm, hmi, hmq, hmnew⟩ := h.slot i q hq
      refine ⟨m, (hmem m).mpr (.inr hm), hmi, hmq, fun hn => ?_⟩
      rcases (hmem _).mp hn with heq | hn
      · exact hi (by rw [← heq, Nat.add_mod_right, hmi])
      · exact hmnew hn
  have hheld : ∀ m ∈ r'.recorded, m + 128 ∉ r'.recorded →
      st.received (m % 128) = some (m % maxSequence) := by
    intro m hm hmnew
    rw [hst]
    by_cases hres : m % 128 = n % 128
    · have hmn : m = n := by
        have hlt := hbound m hm
        by_contra hne
        rcases Nat.lt_or_ge (m + 128) K with hold | hnear
        · exact hmnew (hdone _ hold)
        · rcases Nat.lt_or_ge m n with hlt' | hge'
          · refine hmnew ((hmem _).mpr (.inl ?_))
            omega
          · omega
      rw [hmn]
      simp only [Function.update_self]
    · simp only [Function.update_of_ne hres]
      rcases (hmem m).mp hm with rfl | hm
      · exact absurd rfl hres
      · exact h.held m hm fun hn => hmnew ((hmem _).mpr (.inr hn))
  -- on the way of the loop, a contained number is a recorded one
  have hcontains : ∀ k, K ≤ k → k ≤ K + 128 →
      (st.contains (k % maxSequence) = true ↔ k ∈ r'.recorded) := by
    intro k hk hk'
    constructor
    · intro hc
      obtain ⟨m, hm, -, hq, hmnew⟩ := hslot _ _ (of_decide_eq_true hc)
      have hmlo : K ≤ m + 128 := by
        by_contra hlt
        exact hmnew (hdone _ (by omega))
      have hmhi := hbound m hm
      have hkm : k = m := eq_of_mod_eq_of_close (p := maxSequence) (by rw [maxSequence]; omega)
        (by rw [maxSequence]; omega) hq
      rw [hkm]
      exact hm
    · intro hkrec
      refine decide_eq_true ?_
      rw [defaultWindowSize, maxSequence, Nat.mod_mod_of_dvd _ (by decide)]
      refine hheld k hkrec fun hn => ?_
      have := hbound _ hn
      omega
  obtain ⟨k, hk, hreceived, hcursor, hexpected, hall, -⟩ := st.advance_spec defaultWindowSize
  have hstop := st.advance_stops (by
    rw [hst]
    change r.unordered.expected < maxSequence
    rw [h.expected]
    exact Nat.mod_lt _ (by decide))
  have hexp₀ : st.expected = K % maxSequence := h.expected
  have hlt₀ : st.expected < maxSequence := by
    rw [hexp₀]
    exact Nat.mod_lt _ (by decide)
  have hcur₀ : st.cursor = K := rfl
  rw [defaultWindowSize] at hk
  have hexp₁ : (st.advance defaultWindowSize).expected = (K + k) % maxSequence := by
    rw [hexpected hlt₀, hexp₀, Nat.mod_add_mod]
  have hdone' : ∀ m, m < K + k → m ∈ r'.recorded := by
    intro m hm
    rcases Nat.lt_or_ge m K with hlt | hge
    · exact hdone m hlt
    · have hc := hall (m - K) (by omega) hlt₀
      rw [hexp₀, Nat.mod_add_mod, show K + (m - K) = m from by omega] at hc
      exact (hcontains m hge (by omega)).mp hc
  refine ⟨?_, ?_, ?_, ?_, ?_, ?_⟩
  · rw [hcommit, hcursor, hexp₁, hcur₀]
  · rw [hcommit, hreceived]
    exact hslot
  · rw [hcommit, hreceived]
    exact hheld
  · rw [hcommit, hcursor, hcur₀]
    exact hdone'
  · rw [hcommit, hcursor, hcur₀]
    intro hn
    have hc := (hcontains (K + k) (by omega) (by omega)).mpr hn
    have hstop' : st.contains ((K + k) % maxSequence) = false := by
      rw [← hexp₁, ← hstop, UnorderedReceiveState.contains, UnorderedReceiveState.contains,
        hreceived]
    rw [hstop'] at hc
    cases hc
  · rw [hcommit, hcursor, hcur₀]
    intro m hm
    have := hbound m hm
    omega

end

end UnorderedWindow

variable {fragment : Option ReliableFragment}

/-- A fresh packet is a new packet of the window, and at distance zero it is the one at the
cursor. -/
theorem Fresh.isNew {cn : BitVec 2} {c : Byte} {v : SendChannel} {s : RecvState} {q n : ℕ}
    {payload : Bytes} (h : Fresh s c q) (hA : CanArrive v q n payload fragment)
    (hv : ChannelSound cn c defaultWindowSize v) (hl : AckLink v (s.channel c))
    (hw : UnorderedWindow (s.channel c)) :
    (s.channel c).unordered.cursor ≤ n ∧ n < (s.channel c).unordered.cursor + 128 ∧
      n ∉ (s.channel c).recorded ∧
      (relativeSequence q (s.unordered c).expected = 0 → n = (s.channel c).unordered.cursor) := by
  have hle := hw.cursor_le_sent hl
  have hge := hw.sent_le hl hv
  have hlt := hA.lt
  obtain ⟨rfl, -, hnear⟩ := hA
  obtain ⟨hcontains, hlo, hhi⟩ := h
  have hexp := hw.expected
  change (s.unordered c).expected = _ at hexp
  rw [hexp] at hlo hhi ⊢
  have hrel := relativeSequence_window n (s.channel c).unordered.cursor (by omega) (by omega)
    hlo hhi
  rw [defaultWindowSize] at hhi
  refine ⟨by omega, by omega, fun hrec => ?_, fun hzero => by omega⟩
  have htable := hw.contains_of hrec fun hn => by
    have := hw.bound _ hn
    omega
  rw [show (s.channel c).unordered.contains (n % maxSequence) = false from hcontains] at htable
  cases htable

/-- **Unordered steps keep the windows together.** -/
theorem UnorderedStep.window {cn : BitVec 2} {c : Byte} {v : SendChannel} {s s' : RecvState}
    {q n : ℕ} {payload : Bytes} (h : UnorderedStep c q n payload fragment s s')
    (hA : CanArrive v q n payload fragment) (hv : ChannelSound cn c defaultWindowSize v)
    (hl : AckLink v (s.channel c)) (hw : UnorderedWindow (s.channel c)) :
    AckLink v (s'.channel c) ∧ (s'.closed = false → UnorderedWindow (s'.channel c)) := by
  have hle := hw.cursor_le_sent hl
  have hge := hw.sent_le hl hv
  have hlt := hA.lt
  have hnew := fun hfresh : Fresh s c q => hfresh.isNew hA hv hl hw
  obtain ⟨rfl, -, hnear⟩ := hA
  have hcommit : ∀ incoming : IncomingFragmentState, Fresh s c (n % maxSequence) →
      AckLink v ((commitAndAck { s with incoming := incoming } c (n % maxSequence) n).channel c) ∧
      UnorderedWindow
        ((commitAndAck { s with incoming := incoming } c (n % maxSequence) n).channel c) := by
    intro incoming hfresh
    obtain ⟨h₁, h₂, h₃, -⟩ := hnew hfresh
    rw [commitAndAck, channel_record, channel_ack, channel_commitUnordered, channel_incoming]
    exact ⟨hl.recordAck hv hlt (by omega) (fun k => List.mem_cons) rfl, hw.commit h₁ h₂ h₃ rfl rfl⟩
  cases h with
  | stay => exact ⟨hl, fun _ => hw⟩
  | reack hdup =>
    obtain ⟨hrec, hlo⟩ := hw.of_contains (by omega) (by omega) hdup
    rw [channel_ack]
    exact ⟨hl.ack hv hrec (by omega), fun _ => hw.congr rfl rfl⟩
  | shut h =>
    refine ⟨hl.congr (congrFun h.acks c) (congrFun h.recorded c), ?_⟩
    intro hopen
    rw [h.closed] at hopen
    cases hopen
  | token | refuse => exact ⟨hl.congr rfl rfl, fun _ => hw.congr rfl rfl⟩
  | takeWhole b hfresh hf =>
    obtain ⟨hl', hw'⟩ := hcommit s.incoming hfresh
    rw [channel_hand]
    exact ⟨hl'.congr rfl rfl, fun _ => hw'.congr rfl rfl⟩
  | takePart hfresh hf hedge hins =>
    obtain ⟨hl', hw'⟩ := hcommit _ hfresh
    exact ⟨hl', fun _ => hw'⟩
  | finish b hfresh hf hedge hins =>
    obtain ⟨hl', hw'⟩ := hcommit _ hfresh
    rw [channel_hand]
    exact ⟨hl'.congr rfl rfl, fun _ => hw'.congr rfl rfl⟩

end BasisRust.Transport
