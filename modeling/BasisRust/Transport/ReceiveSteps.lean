import BasisRust.Transport.Receive

/-!
# What the receive side can do

`OrderedStep` and `UnorderedStep` list everything one admission or one drain round can do to the
receive state, guards included.  `admitReliableOrdered_spec`, `drainOrderedState_spec` and
`admitReliableUnordered_spec` say that the code does nothing else; every invariant of the receive
side is then proved by cases on these steps, without looking at the code again.
-/

namespace BasisRust.Transport

open Library

/-! ### Ordered channels -/

/-- The packets that may arrive: number, index, payload and fragment fields. -/
abbrev Arrival := ℕ → ℕ → Bytes → Option ReliableFragment → Prop

/-- Where the packet at the cursor comes from: it has just arrived, or it waits in the reorder
buffer, from which it is taken. -/
inductive Source (A : Arrival) (s : RecvState) (c : Byte) :
    ℕ → RetainedOrderedMessage → Option ℕ → RecvState → Prop
  | arrival (q n : ℕ) (x : RetainedOrderedMessage) (hA : A q n x.payload x.fragment)
      (hfresh : (s.ordered c).isCommitted q = false)
      (hfuture : assocGet q (s.ordered c).future = none)
      (hq : relativeSequence q (s.ordered c).expected = 0) : Source A s c q x (some n) s
  | buffered (x : RetainedOrderedMessage)
      (hx : assocGet (s.ordered c).expected (s.ordered c).future = some x) :
      Source A s c (s.ordered c).expected x none
        (s.setFuture c (assocErase (s.ordered c).expected (s.ordered c).future))

/-- Record the packet if it has just arrived. -/
def recordNew (s : RecvState) (c : Byte) : Option ℕ → RecvState
  | none => s
  | some n => s.record c n

/-- Acknowledge and record the packet if it has just arrived. -/
def ackNew (s : RecvState) (c : Byte) (q : ℕ) : Option ℕ → RecvState
  | none => s
  | some n => (s.ack c q).record c n

/-- The session was found closed: nothing was handed over, recorded or acknowledged. -/
structure Shut (s s' : RecvState) : Prop where
  closed : s'.closed = true
  acks : s'.acks = s.acks
  handed : s'.handed = s.handed
  recorded : s'.recorded = s.recorded

variable {s s' : RecvState} {A : Arrival} {q n : ℕ} {fragment : Option ReliableFragment} {c : Byte}
  {payload : Bytes}

theorem Shut.close (h₁ : s'.acks = s.acks) (h₂ : s'.handed = s.handed)
    (h₃ : s'.recorded = s.recorded) : Shut s s'.close :=
  ⟨rfl, h₁, h₂, h₃⟩

/-- Everything an admission or a drain round can do on an ordered channel. -/
inductive OrderedStep (A : Arrival) (c : Byte) (s : RecvState) : RecvState → Prop
  /-- A duplicate is acknowledged again. -/
  | reack (q n : ℕ) (payload : Bytes) (fragment : Option ReliableFragment)
      (hA : A q n payload fragment) (hdup : (s.ordered c).isCommitted q = true ∨
        (assocGet q (s.ordered c).future).isSome = true) : OrderedStep A c s (s.ack c q)
  /-- A packet ahead of the cursor is kept. -/
  | store (q n : ℕ) (payload : Bytes) (fragment : Option ReliableFragment)
      (hA : A q n payload fragment)
      (hfresh : (s.ordered c).isCommitted q = false)
      (hfuture : assocGet q (s.ordered c).future = none)
      (hlo : 0 < relativeSequence q (s.ordered c).expected)
      (hhi : relativeSequence q (s.ordered c).expected ≤ maxOrderedReorderAhead) :
      OrderedStep A c s (((s.retain c q ⟨payload, fragment, 1⟩).ack c q).record c n)
  | shut {s' : RecvState} (h : Shut s s') : OrderedStep A c s s'
  /-- Only a budget token moved. -/
  | token (f : ReliableFragment) :
      OrderedStep A c s { s with incoming := (s.incoming.takeCompletionBudget c f).2 }
  /-- The packet at the cursor is a whole message and is handed over. -/
  | handWhole {q : ℕ} {x : RetainedOrderedMessage} {o : Option ℕ} {s₀ : RecvState} (b : Bool)
      (hsrc : Source A s c q x o s₀) (hx : x.fragment = none) :
      OrderedStep A c s (recordNew (((s₀.commitOrdered c q).ack c q).hand c
        ⟨(s.ordered c).cursor, x.payload, b⟩) c o)
  /-- It is a whole message, nobody takes it, and it goes back to the buffer. -/
  | keepWhole {q : ℕ} {x : RetainedOrderedMessage} {s₀ : RecvState}
      (hsrc : Source A s c q x none s₀) (hx : x.fragment = none) :
      OrderedStep A c s (s₀.retain c q ⟨x.payload, none, x.budgets⟩)
  /-- It is a part and joins its assembly. -/
  | storePart {q : ℕ} {x : RetainedOrderedMessage} {o : Option ℕ} {s₀ : RecvState}
      {f : ReliableFragment} {incoming incoming' : IncomingFragmentState}
      {answers : ReserveAnswers} {buffered : ℕ → Bool}
      (hsrc : Source A s c q x o s₀) (hx : x.fragment = some f)
      (hinc : incoming = s.incoming ∨ incoming = (s.incoming.takeCompletionBudget c f).2)
      (hins : incoming.insert c f x.payload answers buffered = (.ok none, incoming')) :
      OrderedStep A c s (ackNew (({ s₀ with incoming := incoming' } : RecvState).commitOrdered c q)
        c q o)
  /-- It is the last part, and the message is handed over. -/
  | handPart {q : ℕ} {x : RetainedOrderedMessage} {o : Option ℕ} {s₀ : RecvState}
      {f : ReliableFragment} {incoming incoming' : IncomingFragmentState}
      {answers : ReserveAnswers} {buffered : ℕ → Bool} {payload : Bytes} {budgets : ℕ} (b : Bool)
      (hsrc : Source A s c q x o s₀) (hx : x.fragment = some f)
      (hinc : incoming = s.incoming ∨ incoming = (s.incoming.takeCompletionBudget c f).2)
      (hins : incoming.insert c f x.payload answers buffered =
        (.ok (some (payload, budgets)), incoming')) :
      OrderedStep A c s (recordNew (((({ s₀ with incoming := incoming' } : RecvState).commitOrdered
        c q).ack c q).hand c ⟨(s.ordered c).cursor, payload, b⟩) c o)
  /-- It is the last part, nobody takes the message, and the message waits in the buffer. -/
  | keepPart {q : ℕ} {x : RetainedOrderedMessage} {o : Option ℕ} {s₀ : RecvState}
      {f : ReliableFragment} {incoming incoming' : IncomingFragmentState}
      {answers : ReserveAnswers} {buffered : ℕ → Bool} {payload : Bytes} {budgets : ℕ}
      (hsrc : Source A s c q x o s₀) (hx : x.fragment = some f)
      (hinc : incoming = s.incoming ∨ incoming = (s.incoming.takeCompletionBudget c f).2)
      (hins : incoming.insert c f x.payload answers buffered =
        (.ok (some (payload, budgets)), incoming')) :
      OrderedStep A c s (ackNew (({ s₀ with incoming := incoming' } : RecvState).retain c q
        ⟨payload, none, budgets⟩) c q o)
  /-- It is a part that has just arrived and cannot join its assembly. -/
  | refuseNew {q n : ℕ} {x : RetainedOrderedMessage} {f : ReliableFragment}
      {incoming incoming' : IncomingFragmentState} {answers : ReserveAnswers}
      {buffered : ℕ → Bool} {e : FragmentInsertError}
      (hsrc : Source A s c q x (some n) s) (hx : x.fragment = some f)
      (hinc : incoming = s.incoming ∨ incoming = (s.incoming.takeCompletionBudget c f).2)
      (hins : incoming.insert c f x.payload answers buffered = (.error e, incoming')) :
      OrderedStep A c s { s with incoming := incoming' }
  /-- It is a part of the buffer that cannot join its assembly, and goes back. -/
  | refuseBuffered {q : ℕ} {x : RetainedOrderedMessage} {s₀ : RecvState} {f : ReliableFragment}
      {incoming' : IncomingFragmentState} {answers : ReserveAnswers} {buffered : ℕ → Bool}
      {e : FragmentInsertError}
      (hsrc : Source A s c q x none s₀) (hx : x.fragment = some f)
      (hins : s.incoming.insert c f x.payload answers buffered = (.error e, incoming')) :
      OrderedStep A c s (({ s₀ with incoming := incoming' } : RecvState).retain c q
        ⟨x.payload, some f, 1⟩)
  /-- A part without its budget token is dropped from the buffer. -/
  | dropPart {q : ℕ} {x : RetainedOrderedMessage} {s₀ : RecvState} {f : ReliableFragment}
      (hsrc : Source A s c q x none s₀) (hx : x.fragment = some f) (hb : x.budgets = 0) :
      OrderedStep A c s s₀

/-- Steps in a row, each taken while the session is open. -/
inductive OrderedSteps (A : Arrival) (c : Byte) : RecvState → RecvState → Prop
  | refl (s : RecvState) : OrderedSteps A c s s
  | step {s s₁ s₂ : RecvState} (hopen : s.closed = false) (h : OrderedStep A c s s₁)
      (hs : OrderedSteps A c s₁ s₂) : OrderedSteps A c s s₂

theorem OrderedSteps.one (hopen : s.closed = false) (h : OrderedStep A c s s') :
    OrderedSteps A c s s' :=
  .step hopen h (.refl s')

/-- What the delivery attempt can answer. -/
theorem deliver_spec (s : RecvState) (c : Byte) (q : ℕ) (payload : Bytes) (turn : Turn) :
    (∃ b, deliverOrderedEventWithRealtime s c q payload turn =
      (.delivered, ((s.commitOrdered c q).ack c q).hand c ⟨(s.ordered c).cursor, payload, b⟩)) ∨
    ∃ d, d ≠ Delivery.delivered ∧
      (deliverOrderedEventWithRealtime s c q payload turn = (d, s) ∨
        deliverOrderedEventWithRealtime s c q payload turn = (d, s.close)) := by
  have hcommit : (∃ b, commitAndHand s c q payload turn =
      (.delivered, ((s.commitOrdered c q).ack c q).hand c ⟨(s.ordered c).cursor, payload, b⟩)) ∨
      ∃ d, d ≠ Delivery.delivered ∧ (commitAndHand s c q payload turn = (d, s) ∨
        commitAndHand s c q payload turn = (d, s.close)) := by
    rw [commitAndHand]
    split_ifs
    · exact .inl ⟨_, rfl⟩
    · exact .inr ⟨.blocked, by decide, .inr rfl⟩
  rw [deliverOrderedEventWithRealtime]
  cases turn.queue <;> dsimp only <;> split_ifs <;> first
    | exact hcommit
    | exact .inr ⟨.blocked, by decide, .inl rfl⟩
    | exact .inr ⟨.blocked, by decide, .inr rfl⟩
    | exact .inr ⟨.channelClosed, by decide, .inl rfl⟩

/-- The three ends of the second half of a drain round. -/
theorem drainDeliver_spec (s : RecvState) (c : Byte) (q : ℕ) (payload : Bytes) (budgets : ℕ)
    (turn : Turn) (hopen : s.closed = false) :
    (∃ b, drainDeliver s c q payload budgets turn =
      (.again, ((s.commitOrdered c q).ack c q).hand c ⟨(s.ordered c).cursor, payload, b⟩)) ∨
    (∃ r, drainDeliver s c q payload budgets turn =
      (.stop r, s.retain c q ⟨payload, none, budgets⟩)) ∨
    ∃ r, drainDeliver s c q payload budgets turn = (.stop r, s.close) := by
  rw [drainDeliver]
  split_ifs
  · exact .inr (.inr ⟨_, rfl⟩)
  · rcases deliver_spec s c q payload turn with ⟨b, heq⟩ | ⟨d, hd, heq | heq⟩
    · exact .inl ⟨b, by rw [heq]⟩
    · cases d with
      | delivered => exact absurd rfl hd
      | blocked | channelClosed =>
        simp only [heq, hopen, Bool.false_or]
        split_ifs
        · exact .inr (.inr ⟨_, rfl⟩)
        · exact .inr (.inl ⟨_, rfl⟩)
    · cases d with
      | delivered => exact absurd rfl hd
      | blocked | channelClosed =>
        simp only [heq, RecvState.close, Bool.true_or, if_true]
        exact .inr (.inr ⟨_, rfl⟩)

/-- **A drain round** is one step, and goes on only while the session is open. -/
theorem drainRound_spec (A : Arrival) (s : RecvState) (c : Byte) (turn : Turn)
    (hopen : s.closed = false) :
    ((drainRound s c turn).2 = s ∨ OrderedStep A c s (drainRound s c turn).2) ∧
      ((drainRound s c turn).1 = .again → (drainRound s c turn).2.closed = false) := by
  simp only [drainRound]
  cases hx : assocGet (s.ordered c).expected (s.ordered c).future with
  | none => exact ⟨.inl rfl, by simp⟩
  | some x =>
    have hsrc := Source.buffered (A := A) (s := s) (c := c) x hx
    set s₀ := s.setFuture c (assocErase (s.ordered c).expected (s.ordered c).future) with hs₀
    have hcursor : (s₀.ordered c).cursor = (s.ordered c).cursor := by
      simp [hs₀, RecvState.setFuture]
    have hopen₀ : s₀.closed = false := hopen
    dsimp only
    cases hfrag : x.fragment with
    | none =>
      dsimp only
      rcases drainDeliver_spec s₀ c (s.ordered c).expected x.payload x.budgets turn hopen₀ with
        ⟨b, heq⟩ | ⟨r, heq⟩ | ⟨r, heq⟩
      · rw [heq, hcursor]
        exact ⟨.inr (.handWhole b hsrc hfrag), fun _ => hopen⟩
      · rw [heq]
        exact ⟨.inr (.keepWhole hsrc hfrag), by simp⟩
      · rw [heq]
        exact ⟨.inr (.shut (.close rfl rfl rfl)), by simp⟩
    | some f =>
      dsimp only
      by_cases hb : x.budgets = 0
      · rw [if_pos hb]
        exact ⟨.inr (.dropPart hsrc hfrag hb), by simp⟩
      · rw [if_neg hb]
        have hinc : s₀.incoming = s.incoming := rfl
        rw [hinc]
        generalize hins : s.incoming.insert c f x.payload turn.answers
          (bufferedFragmentParts (s₀.ordered c) f) = inserted
        obtain ⟨result, incoming'⟩ := inserted
        dsimp only
        rcases result with (_ | _ | _) | _ | ⟨payload, budgets⟩
        iterate 3 exact ⟨.inr (.refuseBuffered hsrc hfrag hins), by simp⟩
        · dsimp only
          split_ifs
          · exact ⟨.inr (.storePart hsrc hfrag (.inl rfl) hins), fun _ => hopen⟩
          · exact ⟨.inr (.shut (.close rfl rfl rfl)), by simp⟩
        · dsimp only
          rcases drainDeliver_spec { s₀ with incoming := incoming' } c (s.ordered c).expected
            payload budgets turn hopen₀ with ⟨b, heq⟩ | ⟨r, heq⟩ | ⟨r, heq⟩
          · rw [heq]
            change (_ ∨ OrderedStep A c s
              (RecvState.hand _ c ⟨(s₀.ordered c).cursor, payload, b⟩)) ∧ _
            rw [hcursor]
            exact ⟨.inr (.handPart b hsrc hfrag (.inl rfl) hins), fun _ => hopen⟩
          · rw [heq]
            exact ⟨.inr (.keepPart hsrc hfrag (.inl rfl) hins), by simp⟩
          · rw [heq]
            exact ⟨.inr (.shut (.close rfl rfl rfl)), by simp⟩

theorem drainOrderedState_spec (A : Arrival) (s : RecvState) (c : Byte) (turns : List Turn)
    (hopen : s.closed = false) : OrderedSteps A c s (drainOrderedState s c turns).2 := by
  induction turns generalizing s with
  | nil => exact .refl s
  | cons turn turns ih =>
    obtain ⟨hstep, hagain⟩ := drainRound_spec A s c turn hopen
    rw [drainOrderedState]
    generalize drainRound s c turn = round at hstep hagain
    obtain ⟨r, s'⟩ := round
    have hone : ∀ {s''}, OrderedSteps A c s' s'' → OrderedSteps A c s s'' := by
      intro s'' hrest
      rcases hstep with heq | hstep
      · rw [← heq]
        exact hrest
      · exact .step hopen hstep hrest
    cases r with
    | again => exact hone (ih s' (hagain rfl))
    | stop r => exact hone (.refl s')

/-- **Admission on an ordered channel** is a few steps in a row. -/
theorem admitReliableOrdered_spec (s : RecvState) (c : Byte) (hA : A q n payload fragment)
    (turn : Turn) (drains : List Turn) :
    OrderedSteps A c s (admitReliableOrdered s c q n payload fragment turn drains).2 := by
  simp only [admitReliableOrdered]
  cases hopen : s.closed with
  | true => exact .refl s
  | false =>
    simp only [Bool.false_eq_true, if_false]
    split_ifs with hdup hcommit hzero hahead
    · exact .one hopen (.reack q n payload fragment hA (by simpa using hdup))
    · exact .one hopen (.shut (.close rfl rfl rfl))
    · -- the packet the cursor waits for
      simp only [Bool.or_eq_true, not_or, Bool.not_eq_true, Option.isSome_eq_false_iff,
        Option.isNone_iff_eq_none] at hdup
      cases fragment with
      | none =>
        have hsrc := Source.arrival (A := A) (s := s) (c := c) q n
          ⟨payload, none, 0⟩ hA hdup.1 hdup.2 hzero
        dsimp only
        rw [admitExpected]
        split_ifs
        · exact .one hopen (.shut (.close rfl rfl rfl))
        · rcases deliver_spec s c q payload turn with ⟨b, heq⟩ | ⟨d, hd, heq | heq⟩
          · rw [heq]
            exact .step hopen (.handWhole b hsrc rfl) (drainOrderedState_spec A _ c drains hopen)
          · cases d with
            | delivered => exact absurd rfl hd
            | blocked | channelClosed =>
              rw [heq]
              exact .refl s
          · cases d with
            | delivered => exact absurd rfl hd
            | blocked | channelClosed =>
              rw [heq]
              exact .one hopen (.shut (.close rfl rfl rfl))
      | some f =>
        have hsrc := Source.arrival (A := A) (s := s) (c := c) q n
          ⟨payload, some f, 0⟩ hA hdup.1 hdup.2 hzero
        dsimp only
        rw [admitExpectedFragment]
        dsimp only
        by_cases hreserve : (!((s.incoming.takeCompletionBudget c f).1 || turn.reserve)) = true
        · rw [if_pos hreserve]
          exact .one hopen (.token f)
        · rw [if_neg hreserve]
          generalize hins : (s.incoming.takeCompletionBudget c f).2.insert c f payload turn.answers
            (bufferedFragmentParts (s.ordered c) f) = inserted
          obtain ⟨result, incoming'⟩ := inserted
          rcases result with (_ | _ | _) | _ | ⟨joined, budgets⟩
          iterate 3 exact .one hopen (.refuseNew hsrc rfl (.inr rfl) hins)
          · dsimp only
            split_ifs
            · exact .step hopen (.storePart hsrc rfl (.inr rfl) hins)
                (drainOrderedState_spec A _ c drains hopen)
            · exact .one hopen (.shut (.close rfl rfl rfl))
          · dsimp only
            split_ifs
            · exact .one hopen (.shut (.close rfl rfl rfl))
            · rcases deliver_spec { s with incoming := incoming' } c q joined turn with
                ⟨b, heq⟩ | ⟨d, hd, heq | heq⟩
              · rw [heq]
                exact .step hopen (.handPart b hsrc rfl (.inr rfl) hins)
                  (drainOrderedState_spec A _ c drains hopen)
              · cases d with
                | delivered => exact absurd rfl hd
                | blocked | channelClosed =>
                  rw [heq]
                  dsimp only
                  split_ifs
                  · exact .one hopen (.shut (.close rfl rfl rfl))
                  · exact .one hopen (.keepPart hsrc rfl (.inr rfl) hins)
              · cases d with
                | delivered => exact absurd rfl hd
                | blocked | channelClosed =>
                  rw [heq]
                  simp only [RecvState.close, Bool.true_or, if_true]
                  exact .one hopen (.shut ⟨rfl, rfl, rfl, rfl⟩)
    · simp only [Bool.or_eq_true, not_or, Bool.not_eq_true, Option.isSome_eq_false_iff,
        Option.isNone_iff_eq_none] at hdup
      dsimp only
      rw [admitAhead]
      split_ifs
      · exact .refl s
      · exact .refl s
      · exact .one hopen (.store q n payload fragment hA hdup.1 hdup.2 hahead.1 hahead.2)
      · exact .one hopen (.shut (.close rfl rfl rfl))
    · exact .refl s

/-! ### Unordered channels -/

/-- What is checked before a new packet of an unordered channel is taken. -/
structure Fresh (s : RecvState) (c : Byte) (q : ℕ) : Prop where
  fresh : (s.unordered c).contains q = false
  lo : 0 ≤ relativeSequence q (s.unordered c).expected
  hi : relativeSequence q (s.unordered c).expected < defaultWindowSize

/-- Everything the admission of packet `n`, with number `q`, can do on an unordered channel. -/
inductive UnorderedStep (c : Byte) (q n : ℕ) (payload : Bytes) (fragment : Option ReliableFragment)
    (s : RecvState) : RecvState → Prop
  | stay : UnorderedStep c q n payload fragment s s
  | reack (hdup : (s.unordered c).contains q = true) :
      UnorderedStep c q n payload fragment s (s.ack c q)
  | shut {s' : RecvState} (h : Shut s s') : UnorderedStep c q n payload fragment s s'
  | token (f : ReliableFragment) : UnorderedStep c q n payload fragment s
      { s with incoming := (s.incoming.takeCompletionBudget c f).2 }
  | takeWhole (b : Bool) (h : Fresh s c q) (hf : fragment = none) :
      UnorderedStep c q n payload fragment s ((commitAndAck s c q n).hand c ⟨n, payload, b⟩)
  | takePart {f : ReliableFragment} {incoming' : IncomingFragmentState} {answers : ReserveAnswers}
      {buffered : ℕ → Bool} (h : Fresh s c q) (hf : fragment = some f)
      (hedge : relativeSequence q (s.unordered c).expected = 0)
      (hins : (s.incoming.takeCompletionBudget c f).2.insert c f payload answers buffered =
        (.ok none, incoming')) :
      UnorderedStep c q n payload fragment s (commitAndAck { s with incoming := incoming' } c q n)
  | finish {f : ReliableFragment} {incoming' : IncomingFragmentState} {answers : ReserveAnswers}
      {buffered : ℕ → Bool} {joined : Bytes} {budgets : ℕ} (b : Bool) (h : Fresh s c q)
      (hf : fragment = some f) (hedge : relativeSequence q (s.unordered c).expected = 0)
      (hins : (s.incoming.takeCompletionBudget c f).2.insert c f payload answers buffered =
        (.ok (some (joined, budgets)), incoming')) :
      UnorderedStep c q n payload fragment s
        ((commitAndAck { s with incoming := incoming' } c q n).hand c ⟨n, joined, b⟩)
  | refuse {f : ReliableFragment} {incoming' : IncomingFragmentState} {answers : ReserveAnswers}
      {buffered : ℕ → Bool} {e : FragmentInsertError} (h : Fresh s c q) (hf : fragment = some f)
      (hedge : relativeSequence q (s.unordered c).expected = 0)
      (hins : (s.incoming.takeCompletionBudget c f).2.insert c f payload answers buffered =
        (.error e, incoming')) :
      UnorderedStep c q n payload fragment s { s with incoming := incoming' }

/-- **Admission on an unordered channel** is one step, taken while the session is open. -/
theorem admitReliableUnordered_spec (s : RecvState) (c : Byte) (q n : ℕ) (payload : Bytes)
    (fragment : Option ReliableFragment) (turn : Turn) :
    (admitReliableUnordered s c q n payload fragment turn).2 = s ∨ s.closed = false ∧
      UnorderedStep c q n payload fragment s
        (admitReliableUnordered s c q n payload fragment turn).2 := by
  simp only [admitReliableUnordered]
  cases hopen : s.closed with
  | true => exact .inl rfl
  | false =>
    refine .inr ⟨rfl, ?_⟩
    simp only [Bool.false_eq_true, if_false]
    by_cases hdup : (s.unordered c).contains q = true
    · rw [if_pos hdup]
      exact .reack hdup
    rw [if_neg hdup]
    by_cases hout : relativeSequence q (s.unordered c).expected < 0 ∨
        relativeSequence q (s.unordered c).expected ≥ defaultWindowSize
    · rw [if_pos hout]
      exact .stay
    rw [if_neg hout]
    rw [not_or, not_lt, not_le] at hout
    have hfresh : Fresh s c q := ⟨by simpa using hdup, hout.1, hout.2⟩
    cases fragment with
    | none =>
      dsimp only
      rw [admitUnorderedWhole]
      split_ifs
      · exact .stay
      · exact .shut (.close rfl rfl rfl)
      · exact .stay
      · exact .takeWhole _ hfresh rfl
    | some f =>
      dsimp only
      by_cases hedge : relativeSequence q (s.unordered c).expected ≠ 0
      · rw [if_pos hedge]
        exact .stay
      rw [if_neg hedge]
      rw [not_not] at hedge
      rw [admitUnorderedFragment]
      cases turn.queue with
      | full | closed => exact .stay
      | free =>
        dsimp only
        by_cases hreserve : (!((s.incoming.takeCompletionBudget c f).1 || turn.reserve)) = true
        · rw [if_pos hreserve]
          exact .token f
        rw [if_neg hreserve]
        generalize hins : (s.incoming.takeCompletionBudget c f).2.insert c f payload turn.answers
          (fun _ => false) = inserted
        obtain ⟨result, incoming'⟩ := inserted
        match result, hins with
        | .error .invalid, hins => exact .refuse hfresh rfl hedge hins
        | .error .limit, hins => exact .refuse hfresh rfl hedge hins
        | .error .budget, hins => exact .refuse hfresh rfl hedge hins
        | .ok none, hins => exact .takePart hfresh rfl hedge hins
        | .ok (some (joined, budgets)), hins =>
          dsimp only
          split_ifs
          · exact .shut (.close rfl rfl rfl)
          · exact .finish _ hfresh rfl hedge hins

/-! ### One channel of the receive side -/

structure RecvChannel where
  ordered : OrderedReceiveState
  unordered : UnorderedReceiveState
  ack : AckState
  assembly : ℕ → Option IncomingFragmentAssembly
  handed : List Handed
  recorded : List ℕ

/-- What the receive side holds of one channel. -/
def RecvState.channel (s : RecvState) (c : Byte) : RecvChannel where
  ordered := s.ordered c
  unordered := s.unordered c
  ack := s.acks c
  assembly := s.incoming.get c
  handed := s.handed c
  recorded := s.recorded c

/-- What survives of a channel when the session is closed. -/
structure SameHistory (r r' : RecvChannel) : Prop where
  ack : r'.ack = r.ack
  handed : r'.handed = r.handed
  recorded : r'.recorded = r.recorded

theorem Shut.sameHistory (h : Shut s s') (d : Byte) :
    SameHistory (s.channel d) (s'.channel d) :=
  ⟨congrFun h.acks d, congrFun h.handed d, congrFun h.recorded d⟩

/-! ### Frames -/

/-- The two states differ at most on channel `c`. -/
structure OnlyOn (c : Byte) (s s' : RecvState) : Prop where
  closed : s'.closed = s.closed
  channel : ∀ d, d ≠ c → s'.channel d = s.channel d

namespace OnlyOn

variable {c : Byte} {s s' s'' : RecvState}

theorem refl (s : RecvState) : OnlyOn c s s := ⟨rfl, fun _ _ => rfl⟩

theorem trans (h₁ : OnlyOn c s s') (h₂ : OnlyOn c s' s'') : OnlyOn c s s'' :=
  ⟨h₂.closed.trans h₁.closed, fun d hd => (h₂.channel d hd).trans (h₁.channel d hd)⟩

section

variable (h : OnlyOn c s s')
include h

theorem ack (q : ℕ) : OnlyOn c s (s'.ack c q) := by
  refine h.trans ⟨rfl, fun d hd => ?_⟩
  simp [RecvState.channel, RecvState.ack, hd]

theorem record (n : ℕ) : OnlyOn c s (s'.record c n) := by
  refine h.trans ⟨rfl, fun d hd => ?_⟩
  simp [RecvState.channel, RecvState.record, hd]

theorem hand (x : Handed) : OnlyOn c s (s'.hand c x) := by
  refine h.trans ⟨rfl, fun d hd => ?_⟩
  simp [RecvState.channel, RecvState.hand, hd]

theorem commitOrdered (q : ℕ) : OnlyOn c s (s'.commitOrdered c q) := by
  refine h.trans ⟨rfl, fun d hd => ?_⟩
  simp [RecvState.channel, RecvState.commitOrdered, hd]

theorem commitUnordered (q : ℕ) : OnlyOn c s (s'.commitUnordered c q) := by
  refine h.trans ⟨rfl, fun d hd => ?_⟩
  simp [RecvState.channel, RecvState.commitUnordered, hd]

theorem setFuture (future : List (ℕ × RetainedOrderedMessage)) :
    OnlyOn c s (s'.setFuture c future) := by
  refine h.trans ⟨rfl, fun d hd => ?_⟩
  simp [RecvState.channel, RecvState.setFuture, hd]

theorem retain (q : ℕ) (m : RetainedOrderedMessage) : OnlyOn c s (s'.retain c q m) := h.setFuture _

theorem recordNew (o : Option ℕ) : OnlyOn c s (recordNew s' c o) := by
  cases o with
  | none => exact h
  | some n => exact h.record n

theorem ackNew (q : ℕ) (o : Option ℕ) : OnlyOn c s (ackNew s' c q o) := by
  cases o with
  | none => exact h
  | some n => exact (h.ack q).record n

theorem incoming {incoming' : IncomingFragmentState}
    (hget : ∀ d, d ≠ c → incoming'.get d = s'.incoming.get d) :
    OnlyOn c s { s' with incoming := incoming' } := by
  refine h.trans ⟨rfl, fun d hd => ?_⟩
  simp only [RecvState.channel, hget d hd]

end

theorem source {A : Arrival} {q : ℕ} {x : RetainedOrderedMessage} {o : Option ℕ}
    (h : Source A s c q x o s') :
    OnlyOn c s s' := by
  cases h with
  | arrival => exact .refl s
  | buffered => exact (OnlyOn.refl s).setFuture _

end OnlyOn

theorem token_assembly_of_ne (incoming : IncomingFragmentState) {d : Byte} (hd : d ≠ c)
    (f : ReliableFragment) : (incoming.takeCompletionBudget c f).2.get d = incoming.get d := by
  funext id
  rcases incoming.takeCompletionBudget_get c d f id with h | h
  · exact h
  · exact absurd h.1 hd

/-- An insertion, with or without its token taken before, leaves the other channels alone. -/
theorem insert_assembly_of_ne {incoming incoming₁ incoming' : IncomingFragmentState}
    {f : ReliableFragment} {answers : ReserveAnswers} {buffered : ℕ → Bool}
    {r : Except FragmentInsertError (Option (Bytes × ℕ))}
    (hinc : incoming₁ = incoming ∨ incoming₁ = (incoming.takeCompletionBudget c f).2)
    (hins : incoming₁.insert c f payload answers buffered = (r, incoming')) (d : Byte)
    (hd : d ≠ c) :
    incoming'.get d = incoming.get d := by
  have hframe : ∀ id, incoming'.get d id = incoming₁.get d id := by
    intro id
    have h := incoming₁.insert_get_of_ne c d f payload answers buffered id (fun h => hd h.1)
    rwa [hins] at h
  funext id
  rw [hframe]
  rcases hinc with rfl | rfl
  · rfl
  · rw [token_assembly_of_ne _ hd]

/-- The source of a packet has the assemblies of the state it comes from. -/
theorem Source.incoming_eq {s₀ : RecvState} {x : RetainedOrderedMessage} {o : Option ℕ}
    (h : Source A s c q x o s₀) : s₀.incoming = s.incoming := by
  cases h <;> rfl

/-- **Frame.**  A step on one ordered channel leaves the other channels as they are, or closes the
session. -/
theorem OrderedStep.frame (h : OrderedStep A c s s') : OnlyOn c s s' ∨ Shut s s' := by
  cases h with
  | reack q n payload fragment => exact .inl ((OnlyOn.refl s).ack q)
  | store q n payload fragment => exact .inl ((((OnlyOn.refl s).retain _ _).ack q).record n)
  | shut h => exact .inr h
  | token f => exact .inl ((OnlyOn.refl s).incoming fun d hd => token_assembly_of_ne _ hd f)
  | handWhole b hsrc hx =>
    exact .inl (((((OnlyOn.source hsrc).commitOrdered _).ack _).hand _).recordNew _)
  | keepWhole hsrc hx => exact .inl ((OnlyOn.source hsrc).retain _ _)
  | storePart hsrc hx hinc hins =>
    have hget := insert_assembly_of_ne hinc hins
    rw [← hsrc.incoming_eq] at hget
    exact .inl ((((OnlyOn.source hsrc).incoming hget).commitOrdered _).ackNew _ _)
  | handPart b hsrc hx hinc hins =>
    have hget := insert_assembly_of_ne hinc hins
    rw [← hsrc.incoming_eq] at hget
    exact .inl
      (((((OnlyOn.source hsrc).incoming hget).commitOrdered _).ack _).hand _ |>.recordNew _)
  | keepPart hsrc hx hinc hins =>
    have hget := insert_assembly_of_ne hinc hins
    rw [← hsrc.incoming_eq] at hget
    exact .inl ((((OnlyOn.source hsrc).incoming hget).retain _ _).ackNew _ _)
  | refuseNew hsrc hx hinc hins =>
    have hget := insert_assembly_of_ne hinc hins
    exact .inl ((OnlyOn.refl s).incoming hget)
  | refuseBuffered hsrc hx hins =>
    have hget := insert_assembly_of_ne (.inl rfl) hins
    rw [← hsrc.incoming_eq] at hget
    exact .inl (((OnlyOn.source hsrc).incoming hget).retain _ _)
  | dropPart hsrc hx hb => exact .inl (OnlyOn.source hsrc)

theorem UnorderedStep.frame (h : UnorderedStep c q n payload fragment s s') :
    OnlyOn c s s' ∨ Shut s s' := by
  cases h with
  | stay => exact .inl (.refl s)
  | reack hdup => exact .inl ((OnlyOn.refl s).ack q)
  | shut h => exact .inr h
  | token f => exact .inl ((OnlyOn.refl s).incoming fun d hd => token_assembly_of_ne _ hd f)
  | takeWhole b h hf =>
    exact .inl (((((OnlyOn.refl s).commitUnordered q).ack q).record n).hand _)
  | takePart h hf hedge hins =>
    have hget := insert_assembly_of_ne (.inr rfl) hins
    exact .inl (((((OnlyOn.refl s).incoming hget).commitUnordered q).ack q).record n)
  | finish b h hf hedge hins =>
    have hget := insert_assembly_of_ne (.inr rfl) hins
    exact .inl ((((((OnlyOn.refl s).incoming hget).commitUnordered q).ack q).record n).hand _)
  | refuse h hf hedge hins =>
    have hget := insert_assembly_of_ne (.inr rfl) hins
    exact .inl ((OnlyOn.refl s).incoming hget)

/-! ### Growth -/

theorem AckState.base_le_slide (k : ℕ) (a : AckState) : a.base ≤ (a.slide k).base := by
  induction k generalizing a with
  | zero => exact le_rfl
  | succ k ih =>
    rw [AckState.slide]
    exact (Nat.le_succ a.base).trans (ih a.slideOne)

theorem base_le_queueAck (a : AckState) (q : ℕ) : a.base ≤ (queueAck a q).base := by
  rw [queueAck]
  by_cases hlarge : q ≥ maxSequence
  · rw [if_pos hlarge]
  rw [if_neg hlarge]
  dsimp only
  generalize (relativeSequence q a.windowStart).toNat - defaultWindowSize + 1 = shift
  split_ifs
  · exact Nat.le_refl a.base
  · exact AckState.base_le_slide shift a
  · exact Nat.le_refl a.base

/-- Records and acknowledgement windows only move forward. -/
structure Grows (s s' : RecvState) : Prop where
  recorded : ∀ c n, n ∈ s.recorded c → n ∈ s'.recorded c
  base : ∀ c, (s.acks c).base ≤ (s'.acks c).base

namespace Grows

variable {c : Byte} {s s' s'' : RecvState}

theorem of_eq (h₁ : s'.recorded = s.recorded) (h₂ : s'.acks = s.acks) : Grows s s' :=
  ⟨fun c n hn => by rw [h₁]; exact hn, fun c => by rw [h₂]⟩

theorem trans (h₁ : Grows s s') (h₂ : Grows s' s'') : Grows s s'' :=
  ⟨fun c n hn => h₂.recorded c n (h₁.recorded c n hn), fun c => (h₁.base c).trans (h₂.base c)⟩

section

variable (h : Grows s s')
include h

theorem ack (c : Byte) (q : ℕ) : Grows s (s'.ack c q) := by
  refine h.trans ⟨fun _ _ hn => hn, fun d => ?_⟩
  by_cases hd : d = c
  · subst hd
    simpa [RecvState.ack] using base_le_queueAck _ q
  · simp [RecvState.ack, hd]

theorem record (c : Byte) (n : ℕ) : Grows s (s'.record c n) := by
  refine h.trans ⟨fun d k hk => ?_, fun _ => le_rfl⟩
  by_cases hd : d = c
  · subst hd
    simp [RecvState.record, hk]
  · simpa [RecvState.record, hd] using hk

theorem hand (c : Byte) (x : Handed) : Grows s (s'.hand c x) :=
  h.trans (.of_eq rfl rfl)

theorem commitOrdered (c : Byte) (q : ℕ) : Grows s (s'.commitOrdered c q) :=
  h.trans (.of_eq rfl rfl)

theorem commitUnordered (c : Byte) (q : ℕ) : Grows s (s'.commitUnordered c q) :=
  h.trans (.of_eq rfl rfl)

theorem retain (c : Byte) (q : ℕ) (m : RetainedOrderedMessage) :
    Grows s (s'.retain c q m) :=
  h.trans (.of_eq rfl rfl)

theorem incoming (incoming : IncomingFragmentState) :
    Grows s { s' with incoming := incoming } :=
  h.trans (.of_eq rfl rfl)

theorem recordNew (c : Byte) (o : Option ℕ) : Grows s (recordNew s' c o) := by
  cases o with
  | none => exact h
  | some n => exact h.record c n

theorem ackNew (c : Byte) (q : ℕ) (o : Option ℕ) : Grows s (ackNew s' c q o) := by
  cases o with
  | none => exact h
  | some n => exact (h.ack c q).record c n

end

theorem source {A : Arrival} {q : ℕ} {x : RetainedOrderedMessage} {o : Option ℕ}
    (h : Source A s c q x o s') : Grows s s' := by
  cases h <;> exact .of_eq rfl rfl

end Grows

theorem OrderedStep.grows (h : OrderedStep A c s s') : Grows s s' := by
  have hrefl : Grows s s := .of_eq rfl rfl
  cases h with
  | reack q n payload fragment => exact hrefl.ack c q
  | store q n payload fragment => exact ((hrefl.retain c q _).ack c q).record c n
  | shut h => exact .of_eq h.recorded h.acks
  | token | refuseNew => exact hrefl.incoming _
  | handWhole b hsrc hx =>
    exact ((((Grows.source hsrc).commitOrdered c _).ack c _).hand c _).recordNew c _
  | keepWhole hsrc hx => exact (Grows.source hsrc).retain c _ _
  | storePart hsrc hx hinc hins =>
    exact (((Grows.source hsrc).incoming _).commitOrdered c _).ackNew c _ _
  | handPart b hsrc hx hinc hins =>
    exact (((((Grows.source hsrc).incoming _).commitOrdered c _).ack c _).hand c _).recordNew c _
  | keepPart hsrc hx hinc hins =>
    exact (((Grows.source hsrc).incoming _).retain c _ _).ackNew c _ _
  | refuseBuffered hsrc hx hins => exact ((Grows.source hsrc).incoming _).retain c _ _
  | dropPart hsrc hx hb => exact Grows.source hsrc

theorem UnorderedStep.grows (h : UnorderedStep c q n payload fragment s s') : Grows s s' := by
  have hrefl : Grows s s := .of_eq rfl rfl
  cases h with
  | stay => exact hrefl
  | reack hdup => exact hrefl.ack c q
  | shut h => exact .of_eq h.recorded h.acks
  | token | refuse => exact hrefl.incoming _
  | takeWhole b h hf =>
    exact (((hrefl.commitUnordered c q).ack c q).record c n).hand c _
  | takePart h hf hedge hins =>
    exact (((hrefl.incoming _).commitUnordered c q).ack c q).record c n
  | finish b h hf hedge hins =>
    exact ((((hrefl.incoming _).commitUnordered c q).ack c q).record c n).hand c _

/-! ### Whole admissions -/

/-- The other channels are left alone: completely while the session is open, and in what they have
handed over, recorded and acknowledged in any case. -/
structure Elsewhere (c : Byte) (s s' : RecvState) : Prop where
  opened : s'.closed = false → s.closed = false
  history : ∀ d, d ≠ c → SameHistory (s.channel d) (s'.channel d)
  channel : s'.closed = false → ∀ d, d ≠ c → s'.channel d = s.channel d

namespace Elsewhere

variable {c : Byte} {s s' s'' : RecvState}

theorem refl (s : RecvState) : Elsewhere c s s := ⟨id, fun _ _ => ⟨rfl, rfl, rfl⟩, fun _ _ _ => rfl⟩

theorem of_frame (h : OnlyOn c s s' ∨ Shut s s') : Elsewhere c s s' := by
  rcases h with h | h
  · refine ⟨fun hopen => h.closed ▸ hopen, fun d hd => ?_, fun _ => h.channel⟩
    rw [h.channel d hd]
    exact ⟨rfl, rfl, rfl⟩
  · have hclosed : s'.closed ≠ false := by rw [h.closed]; decide
    exact ⟨fun hopen => absurd hopen hclosed, fun d _ => h.sameHistory d, fun hopen =>
      absurd hopen hclosed⟩

theorem trans (h₁ : Elsewhere c s s') (h₂ : Elsewhere c s' s'') : Elsewhere c s s'' where
  opened := fun hopen => h₁.opened (h₂.opened hopen)
  history := fun d hd => by
    obtain ⟨ha, hh, hr⟩ := h₁.history d hd
    obtain ⟨ha', hh', hr'⟩ := h₂.history d hd
    exact ⟨ha'.trans ha, hh'.trans hh, hr'.trans hr⟩
  channel := fun hopen d hd =>
    (h₂.channel hopen d hd).trans (h₁.channel (h₂.opened hopen) d hd)

end Elsewhere

/-- The steps of one admission leave the other channels alone and only move forward. -/
theorem OrderedSteps.frame (h : OrderedSteps A c s s') : Grows s s' ∧ Elsewhere c s s' := by
  induction h with
  | refl s => exact ⟨.of_eq rfl rfl, .refl s⟩
  | step _ hstep _ ih => exact ⟨hstep.grows.trans ih.1, (Elsewhere.of_frame hstep.frame).trans ih.2⟩

end BasisRust.Transport
