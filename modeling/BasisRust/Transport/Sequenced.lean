import BasisRust.Library.Run
import BasisRust.Transport.Receive
import BasisRust.Transport.SendInvariant

/-!
# Reliable sequenced channels

A reliable sequenced packet is compared with the newest sequence of its channel, recorded if it is
newer, answered with an acknowledgement of the newest sequence, and handed over.  With room in the
event queue the record is made under a lock that is released before the answer is sent and the
packet is handed over; other receive workers go on in between.  So the processing of a packet is
three steps: `arrive` up to the release of the lock, `sendAck`, and `handOver`.  With a full queue
the realtime handler is asked while the lock is held, and `arrive` hands the packet over itself.

`index` is the number of a packet in the sender's numbering, `newest` the number of the packet whose
sequence is recorded, and `handed` what was handed over; these are history.
-/

namespace BasisRust.Transport

open Library

/-! ### State -/

/-- A packet whose processing has left the lock: it is to be answered, and handed over if
`deliver`. -/
structure SequencedReply where
  channel : Byte
  index : ℕ
  payload : Bytes
  ackSequence : ℕ
  deliver : Bool
  deriving DecidableEq

structure SequencedState where
  sequences : Byte → ℕ
  replying : List SequencedReply
  handing : List SequencedReply
  acks : List Bytes
  newest : Byte → ℕ
  handed : Byte → List Handed

namespace SequencedState

def initial : SequencedState := ⟨fun _ => 0, [], [], [], fun _ => 0, fun _ => []⟩

/-- The packets between the release of the lock and their end. -/
def inFlight (s : SequencedState) : List SequencedReply := s.replying ++ s.handing

def record (s : SequencedState) (channel : Byte) (index : ℕ) : SequencedState :=
  { s with
    sequences := Function.update s.sequences channel (index % maxSequence)
    newest := Function.update s.newest channel index }

def reply (s : SequencedState) (r : SequencedReply) : SequencedState :=
  { s with replying := s.replying ++ [r] }

def hand (s : SequencedState) (r : SequencedReply) (queued : Bool) : SequencedState :=
  { s with
    handed := Function.update s.handed r.channel
      (s.handed r.channel ++ [⟨r.index, r.payload, queued⟩]) }

end SequencedState

/-! ### The steps -/

/-- The acknowledged sequence and whether the packet is new; `none` for a sequence out of range. -/
def queueReliableSequencedAck (s : SequencedState) (channelId : Byte) (index : ℕ) :
    Option ((ℕ × Bool) × SequencedState) :=
  let sequence := index % maxSequence
  if sequence ≥ maxSequence then none
  else
    let current := s.sequences channelId
    if relativeSequence sequence current > 0 then some ((sequence, true), s.record channelId index)
    else some ((current, false), s)

def buildReliableSequencedAck (connectionNumber : BitVec 2) (channelId : Byte) (sequence : ℕ) :
    Bytes :=
  PacketProperty.ack.header connectionNumber :: leBytes 2 sequence ++ [channelId]

/-- A packet that finds the event queue full; `realtime` is the answer of the realtime handler. -/
def arriveFull (s : SequencedState) (channel : Byte) (index : ℕ) (payload : Bytes)
    (realtime : Bool) : SequencedState :=
  let sequence := index % maxSequence
  let current := s.sequences channel
  if relativeSequence sequence current ≤ 0 then s.reply ⟨channel, index, payload, current, false⟩
  else if realtime then
    let r : SequencedReply := ⟨channel, index, payload, sequence, false⟩
    ((s.record channel index).hand r false).reply r
  else s

/-- A packet that has reserved a place in the event queue. -/
def arriveFree (s : SequencedState) (channel : Byte) (index : ℕ) (payload : Bytes) :
    SequencedState :=
  match queueReliableSequencedAck s channel index with
  | none => { s with handing := s.handing ++ [⟨channel, index, payload, 0, true⟩] }
  | some ((ackSequence, isNew), s) => s.reply ⟨channel, index, payload, ackSequence, isNew⟩

inductive SequencedAction where
  | arrive (channel : Byte) (index : ℕ) (payload : Bytes) (queue : QueueAnswer)
      (current realtime : Bool)
  | sendAck (r : SequencedReply) (sent : Bool)
  | handOver (r : SequencedReply) (realtime : Bool)

/-- One step of one of the receive workers.  A socket error ends the processing of the packet. -/
def sequencedStep (connectionNumber : BitVec 2) (s : SequencedState) :
    SequencedAction → Option SequencedState
  | .arrive channel index payload queue current realtime =>
    match queue with
    | .closed => some s
    | .full => if current then some (arriveFull s channel index payload realtime) else some s
    | .free => if current then some (arriveFree s channel index payload) else some s
  | .sendAck r sent =>
    if r ∈ s.replying then
      let s := { s with replying := s.replying.erase r }
      if sent then
        some { s with
          acks := buildReliableSequencedAck connectionNumber r.channel r.ackSequence :: s.acks
          handing := if r.deliver then s.handing ++ [r] else s.handing }
      else some s
    else none
  | .handOver r realtime =>
    if r ∈ s.handing then some ({ s with handing := s.handing.erase r }.hand r (!realtime))
    else none

def sequencedSystem (connectionNumber : BitVec 2) : System SequencedState SequencedAction where
  init s := s = .initial
  step := sequencedStep connectionNumber

/-! ### The conditions on a run -/

/-- A packet that arrives is less than half a lap from the newest one. -/
def Near (s : SequencedState) : SequencedAction → Prop
  | .arrive channel index _ _ _ _ =>
    s.newest channel < index + 16384 ∧ index < s.newest channel + 16384
  | _ => True

/-- A newer packet is recorded only when no packet of its channel waits to be handed over. -/
def Serial (s : SequencedState) : SequencedAction → Prop
  | .arrive channel index _ queue current realtime =>
    s.newest channel < index → current = true → queue = .free ∨ queue = .full ∧ realtime = true →
      ∀ r ∈ s.inFlight, r.deliver = true → r.channel ≠ channel
  | _ => True

instance (s : SequencedState) (a : SequencedAction) : Decidable (Near s a) :=
  match a with
  | .arrive _ _ _ _ _ _ => inferInstanceAs (Decidable (_ ∧ _))
  | .sendAck _ _ | .handOver _ _ => isTrue trivial

instance (s : SequencedState) (a : SequencedAction) : Decidable (Serial s a) :=
  match a with
  | .arrive channel index _ queue current realtime =>
    inferInstanceAs (Decidable (s.newest channel < index → current = true →
      queue = .free ∨ queue = .full ∧ realtime = true →
        ∀ r ∈ s.inFlight, r.deliver = true → r.channel ≠ channel))
  | .sendAck _ _ | .handOver _ _ => isTrue trivial

/-! ### What every run keeps -/

variable {cn : BitVec 2} {s s' : SequencedState} {c : Byte} {n : ℕ} {payload : Bytes}
  {r : SequencedReply}

/-- The recorded sequence is that of the newest packet; the packets handed over have increasing
numbers; and at most one packet of a channel waits to be handed over, newer than all of them. -/
structure SequencedOk (s : SequencedState) : Prop where
  tracked : ∀ c, s.sequences c = s.newest c % maxSequence
  increasing : ∀ c, (s.handed c).Pairwise fun a b => a.index < b.index
  bounded : ∀ c, ∀ h ∈ s.handed c, h.index ≤ s.newest c
  waiting : ∀ r ∈ s.inFlight, r.deliver = true →
    r.index ≤ s.newest r.channel ∧ ∀ h ∈ s.handed r.channel, h.index < r.index
  alone : s.inFlight.Pairwise fun r q =>
    r.deliver = true → q.deliver = true → r.channel ≠ q.channel
  handing : ∀ r ∈ s.handing, r.deliver = true

theorem mem_inFlight_reply (q : SequencedReply) :
    q ∈ (s.reply r).inFlight ↔ q = r ∨ q ∈ s.inFlight := by
  simp only [SequencedState.inFlight, SequencedState.reply, List.mem_append, List.mem_singleton]
  tauto

theorem inFlight_reply_perm : (s.reply r).inFlight.Perm (r :: s.inFlight) := by
  have hmove := (List.perm_append_singleton r s.replying).append_right s.handing
  exact hmove

/-- The relation of `alone` does not depend on the order. -/
theorem alone_symm : ∀ r q : SequencedReply,
    (r.deliver = true → q.deliver = true → r.channel ≠ q.channel) →
      q.deliver = true → r.deliver = true → q.channel ≠ r.channel :=
  fun _ _ h hq hr heq => h hr hq heq.symm

/-- Near the newest packet, a packet is new for the code if and only if its number is larger. -/
theorem relativeSequence_pos (h : SequencedOk s)
    (hnear : s.newest c < n + 16384 ∧ n < s.newest c + 16384) :
    relativeSequence (n % maxSequence) (s.sequences c) > 0 ↔ s.newest c < n := by
  rw [h.tracked, relativeSequence_unwrap n (s.newest c) hnear.2 hnear.1]
  omega

namespace SequencedOk

theorem initial : SequencedOk .initial :=
  ⟨fun _ => rfl, fun _ => .nil, fun _ => nofun, nofun, .nil, nofun⟩

section

variable (h : SequencedOk s)
include h

theorem record (hnew : s.newest c < n) : SequencedOk (s.record c n) := by
  have hnewest : ∀ d, s.newest d ≤ (s.record c n).newest d := by
    intro d
    show s.newest d ≤ Function.update s.newest c n d
    by_cases hd : d = c
    · rw [hd, Function.update_self]
      exact hnew.le
    · rw [Function.update_of_ne hd]
  refine ⟨?_, h.increasing, ?_, ?_, h.alone, h.handing⟩
  · intro d
    show Function.update s.sequences c (n % maxSequence) d =
      Function.update s.newest c n d % maxSequence
    by_cases hd : d = c
    · rw [hd, Function.update_self, Function.update_self]
    · rw [Function.update_of_ne hd, Function.update_of_ne hd]
      exact h.tracked d
  · intro d p hp
    exact (h.bounded d p hp).trans (hnewest d)
  · intro r hr hdeliver
    obtain ⟨hle, hlt⟩ := h.waiting r hr hdeliver
    exact ⟨hle.trans (hnewest r.channel), hlt⟩

theorem reply_quiet (hr : r.deliver = false) : SequencedOk (s.reply r) := by
  refine ⟨h.tracked, h.increasing, h.bounded, ?_, ?_, h.handing⟩
  · intro q hq hdeliver
    rcases (mem_inFlight_reply q).mp hq with heq | hq
    · rw [heq, hr] at hdeliver
      cases hdeliver
    · exact h.waiting q hq hdeliver
  · refine (inFlight_reply_perm.pairwise_iff fun {r q} => alone_symm r q).mpr ?_
    refine List.pairwise_cons.mpr ⟨?_, h.alone⟩
    intro q _ hdeliver
    rw [hr] at hdeliver
    cases hdeliver

/-- A packet that is to be handed over joins those in flight. -/
theorem reply_deliver (hle : r.index ≤ s.newest r.channel)
    (hlt : ∀ p ∈ s.handed r.channel, p.index < r.index)
    (hserial : ∀ q ∈ s.inFlight, q.deliver = true → q.channel ≠ r.channel) :
    SequencedOk (s.reply r) := by
  refine ⟨h.tracked, h.increasing, h.bounded, ?_, ?_, h.handing⟩
  · intro q hq hdeliver
    rcases (mem_inFlight_reply q).mp hq with heq | hq
    · rw [heq]
      exact ⟨hle, hlt⟩
    · exact h.waiting q hq hdeliver
  · refine (inFlight_reply_perm.pairwise_iff fun {r q} => alone_symm r q).mpr ?_
    refine List.pairwise_cons.mpr ⟨?_, h.alone⟩
    intro q hq _ hdeliver heq
    exact hserial q hq hdeliver heq.symm

/-- A packet is handed over while no other of its channel waits. -/
theorem hand (hle : r.index ≤ s.newest r.channel)
    (hlt : ∀ p ∈ s.handed r.channel, p.index < r.index)
    (hserial : ∀ q ∈ s.inFlight, q.deliver = true → q.channel ≠ r.channel) (queued : Bool) :
    SequencedOk (s.hand r queued) := by
  have hother : ∀ d, d ≠ r.channel → (s.hand r queued).handed d = s.handed d :=
    fun d hd => Function.update_of_ne hd _ _
  have hown : (s.hand r queued).handed r.channel =
      s.handed r.channel ++ [⟨r.index, r.payload, queued⟩] := Function.update_self _ _ _
  refine ⟨h.tracked, ?_, ?_, ?_, h.alone, h.handing⟩
  · intro d
    by_cases hd : d = r.channel
    · rw [hd, hown]
      refine List.pairwise_append.mpr ⟨h.increasing _, List.pairwise_singleton _ _, ?_⟩
      intro p hp q hq
      rw [List.mem_singleton.mp hq]
      exact hlt p hp
    · rw [hother d hd]
      exact h.increasing d
  · intro d p hp
    by_cases hd : d = r.channel
    · rw [hd, hown] at hp
      rw [hd]
      rcases List.mem_append.mp hp with hp | hp
      · exact h.bounded _ p hp
      · rw [List.mem_singleton.mp hp]
        exact hle
    · rw [hother d hd] at hp
      exact h.bounded d p hp
  · intro q hq hdeliver
    rw [hother q.channel (hserial q hq hdeliver)]
    exact h.waiting q hq hdeliver

/-- Nothing but the packets in flight changes, and none is added. -/
theorem of_subperm (hsequences : s'.sequences = s.sequences)
    (hnewest : s'.newest = s.newest) (hhanded : s'.handed = s.handed)
    (hsub : s'.inFlight.Subperm s.inFlight) (hhanding : ∀ r ∈ s'.handing, r.deliver = true) :
    SequencedOk s' := by
  refine ⟨?_, ?_, ?_, ?_, ?_, hhanding⟩
  · rw [hsequences, hnewest]
    exact h.tracked
  · rw [hhanded]
    exact h.increasing
  · rw [hhanded, hnewest]
    exact h.bounded
  · rw [hhanded, hnewest]
    exact fun r hr => h.waiting r (hsub.subset hr)
  · obtain ⟨l, hperm, hsublist⟩ := hsub
    exact (hperm.pairwise_iff fun {r q} => alone_symm r q).mp (h.alone.sublist hsublist)

theorem arrive {queue : QueueAnswer} {current realtime : Bool}
    (hnear : Near s (.arrive c n payload queue current realtime))
    (hserial : Serial s (.arrive c n payload queue current realtime))
    (hstep : sequencedStep cn s (.arrive c n payload queue current realtime) = some s') :
    SequencedOk s' := by
  have hpos := relativeSequence_pos h hnear
  have hbelow : s.newest c < n → ∀ p ∈ s.handed c, p.index < n :=
    fun hnew p hp => Nat.lt_of_le_of_lt (h.bounded c p hp) hnew
  have hself : Function.update s.newest c n c = n := Function.update_self _ _ _
  cases queue with
  | closed =>
    cases hstep
    exact h
  | full =>
    cases current with
    | false =>
      cases hstep
      exact h
    | true =>
      cases hstep
      rw [arriveFull]
      dsimp only
      split
      · exact h.reply_quiet rfl
      · next hgt =>
        have hnew := hpos.mp (not_le.mp hgt)
        split
        · next hrealtime =>
          have hnone := hserial hnew rfl (Or.inr ⟨rfl, hrealtime⟩)
          have hhanded := (h.record hnew).hand (r := ⟨c, n, payload, n % maxSequence, false⟩)
            (Nat.le_of_eq hself.symm) (hbelow hnew) hnone false
          exact hhanded.reply_quiet rfl
        · exact h
  | free =>
    cases current with
    | false =>
      cases hstep
      exact h
    | true =>
      cases hstep
      have hrange : ¬n % maxSequence ≥ maxSequence := Nat.not_le.mpr (Nat.mod_lt _ (by decide))
      rw [arriveFree, queueReliableSequencedAck]
      dsimp only
      rw [if_neg hrange]
      by_cases hgt : relativeSequence (n % maxSequence) (s.sequences c) > 0
      · have hnew := hpos.mp hgt
        have hnone := hserial hnew rfl (Or.inl rfl)
        rw [if_pos hgt]
        exact (h.record hnew).reply_deliver (Nat.le_of_eq hself.symm) (hbelow hnew) hnone
      · rw [if_neg hgt]
        exact h.reply_quiet rfl

theorem step {a : SequencedAction} (hnear : Near s a) (hserial : Serial s a)
    (hstep : sequencedStep cn s a = some s') : SequencedOk s' := by
  cases a with
  | arrive c n payload queue current realtime => exact h.arrive hnear hserial hstep
  | sendAck r sent =>
    rw [sequencedStep] at hstep
    split at hstep
    · next hmem =>
      have hperm := (List.perm_cons_erase hmem).append_right s.handing
      have hless : (s.replying.erase r ++ s.handing).Subperm s.inFlight :=
        (List.sublist_cons_self r _).subperm.trans hperm.symm.subperm
      dsimp only at hstep
      split at hstep
      · cases hstep
        cases hdeliver : r.deliver with
        | false => exact h.of_subperm rfl rfl rfl hless h.handing
        | true =>
          refine h.of_subperm rfl rfl rfl ?_ ?_
          · have hmove : (s.replying.erase r ++ (s.handing ++ [r])).Perm
                (r :: (s.replying.erase r ++ s.handing)) := by
              rw [← List.append_assoc]
              exact List.perm_append_singleton _ _
            exact (hmove.trans hperm.symm).subperm
          · intro q hq
            rcases List.mem_append.mp hq with hq | hq
            · exact h.handing q hq
            · rw [List.mem_singleton.mp hq]
              exact hdeliver
      · cases hstep
        exact h.of_subperm rfl rfl rfl hless h.handing
    · cases hstep
  | handOver r realtime =>
    rw [sequencedStep] at hstep
    split at hstep
    · next hmem =>
      cases hstep
      have hdeliver := h.handing r hmem
      have hmemFlight : r ∈ s.inFlight := List.mem_append_right _ hmem
      obtain ⟨hle, hlt⟩ := h.waiting r hmemFlight hdeliver
      have hperm : s.inFlight.Perm (r :: (s.replying ++ s.handing.erase r)) :=
        ((List.perm_cons_erase hmem).append_left s.replying).trans List.perm_middle
      have hless : (s.replying ++ s.handing.erase r).Subperm s.inFlight :=
        (List.sublist_cons_self r _).subperm.trans hperm.symm.subperm
      have hrest := (hperm.pairwise_iff fun {r q} => alone_symm r q).mp h.alone
      have hnone := (List.pairwise_cons.mp hrest).1
      have hgone : SequencedOk { s with handing := s.handing.erase r } :=
        h.of_subperm rfl rfl rfl hless fun q hq => h.handing q (List.mem_of_mem_erase hq)
      exact hgone.hand hle hlt (fun q hq hq' heq => hnone q hq hdeliver hq' heq.symm) _
    · cases hstep

end

end SequencedOk

theorem sequencedOk_of_reachable
    (h : Reachable (sequencedSystem cn) (fun s a => Near s a ∧ Serial s a) s) : SequencedOk s := by
  refine h.invariant SequencedOk ?_ ?_
  · intro s hs
    have hinit : s = .initial := hs
    rw [hinit]
    exact .initial
  · intro s a s' hok hcond hstep
    exact hok.step hcond.1 hcond.2 hstep

/-! ### The answer to a packet -/

/-- **An arrival** is answered with the newest number there is then, or not at all; and a newer
packet that finds the queue full and is not consumed leaves everything as it was. -/
theorem SequencedOk.answered (h : SequencedOk s) {queue : QueueAnswer} {current realtime : Bool}
    (hnear : Near s (.arrive c n payload queue current realtime))
    (hstep : sequencedStep cn s (.arrive c n payload queue current realtime) = some s') :
    (s'.inFlight = s.inFlight ∨ ∃ r, s'.inFlight = s.replying ++ [r] ++ s.handing ∧ r.channel = c ∧
      n ≤ s'.newest c ∧ r.ackSequence = s'.newest c % maxSequence ∧
      r.ackSequence = s'.sequences c) ∧
    (queue = .full → realtime = false → s.newest c < n → s' = s) := by
  have hpos := relativeSequence_pos h hnear
  cases queue with
  | closed =>
    cases hstep
    exact ⟨Or.inl rfl, nofun⟩
  | full =>
    cases current with
    | false =>
      cases hstep
      exact ⟨Or.inl rfl, fun _ _ _ => rfl⟩
    | true =>
      cases hstep
      rw [arriveFull]
      dsimp only
      split
      · next hle =>
        have hold : ¬s.newest c < n := fun hnew => absurd (hpos.mpr hnew) (not_lt.mpr hle)
        exact ⟨Or.inr ⟨_, rfl, rfl, Nat.le_of_not_lt hold, h.tracked c, rfl⟩,
          fun _ _ hnew => absurd hnew hold⟩
      · split
        · next hrealtime =>
          refine ⟨Or.inr ⟨_, rfl, rfl, ?_, ?_, ?_⟩, fun _ hfalse _ => ?_⟩
          · exact Nat.le_of_eq (Function.update_self c n s.newest).symm
          · show n % maxSequence = Function.update s.newest c n c % maxSequence
            rw [Function.update_self]
          · exact (Function.update_self c (n % maxSequence) s.sequences).symm
          · rw [hrealtime] at hfalse
            cases hfalse
        · exact ⟨Or.inl rfl, fun _ _ _ => rfl⟩
  | free =>
    refine ⟨?_, nofun⟩
    cases current with
    | false =>
      cases hstep
      exact Or.inl rfl
    | true =>
      cases hstep
      have hrange : ¬n % maxSequence ≥ maxSequence := Nat.not_le.mpr (Nat.mod_lt _ (by decide))
      refine Or.inr ?_
      rw [arriveFree, queueReliableSequencedAck]
      dsimp only
      rw [if_neg hrange]
      by_cases hgt : relativeSequence (n % maxSequence) (s.sequences c) > 0
      · rw [if_pos hgt]
        refine ⟨_, rfl, rfl, ?_, ?_, ?_⟩
        · exact Nat.le_of_eq (Function.update_self c n s.newest).symm
        · show n % maxSequence = Function.update s.newest c n c % maxSequence
          rw [Function.update_self]
        · exact (Function.update_self c (n % maxSequence) s.sequences).symm
      · rw [if_neg hgt]
        exact ⟨_, rfl, rfl, Nat.le_of_not_lt fun hnew => hgt (hpos.mpr hnew), h.tracked c, rfl⟩

/-- An arrival sends no acknowledgement itself, and no recorded number goes back. -/
theorem SequencedOk.arrive_frame (h : SequencedOk s) {queue : QueueAnswer}
    {current realtime : Bool} (hnear : Near s (.arrive c n payload queue current realtime))
    (hstep : sequencedStep cn s (.arrive c n payload queue current realtime) = some s') :
    s'.acks = s.acks ∧ ∀ d, s.newest d ≤ s'.newest d := by
  have hpos := relativeSequence_pos h hnear
  have hrecord : s.newest c < n → ∀ d, s.newest d ≤ (s.record c n).newest d := by
    intro hnew d
    show s.newest d ≤ Function.update s.newest c n d
    by_cases hd : d = c
    · rw [hd, Function.update_self]
      exact hnew.le
    · rw [Function.update_of_ne hd]
  cases queue with
  | closed =>
    cases hstep
    exact ⟨rfl, fun _ => le_rfl⟩
  | full =>
    cases current with
    | false =>
      cases hstep
      exact ⟨rfl, fun _ => le_rfl⟩
    | true =>
      cases hstep
      rw [arriveFull]
      dsimp only
      split
      · exact ⟨rfl, fun _ => le_rfl⟩
      · next hgt =>
        split
        · exact ⟨rfl, hrecord (hpos.mp (not_le.mp hgt))⟩
        · exact ⟨rfl, fun _ => le_rfl⟩
  | free =>
    cases current with
    | false =>
      cases hstep
      exact ⟨rfl, fun _ => le_rfl⟩
    | true =>
      cases hstep
      have hrange : ¬n % maxSequence ≥ maxSequence := Nat.not_le.mpr (Nat.mod_lt _ (by decide))
      rw [arriveFree, queueReliableSequencedAck]
      dsimp only
      rw [if_neg hrange]
      by_cases hgt : relativeSequence (n % maxSequence) (s.sequences c) > 0
      · rw [if_pos hgt]
        exact ⟨rfl, hrecord (hpos.mp hgt)⟩
      · rw [if_neg hgt]
        exact ⟨rfl, fun _ => le_rfl⟩

/-- Every answer, on its way or sent, names a number that was recorded. -/
structure AnswersOk (cn : BitVec 2) (s : SequencedState) : Prop where
  inFlight : ∀ r ∈ s.inFlight,
    ∃ m, m ≤ s.newest r.channel ∧ r.ackSequence = m % maxSequence
  acks : ∀ ack ∈ s.acks,
    ∃ c m, m ≤ s.newest c ∧ ack = buildReliableSequencedAck cn c (m % maxSequence)

theorem AnswersOk.step (h : AnswersOk cn s) (hok : SequencedOk s) {a : SequencedAction}
    (hnear : Near s a) (hstep : sequencedStep cn s a = some s') : AnswersOk cn s' := by
  cases a with
  | arrive c n payload queue current realtime =>
    obtain ⟨hacks, hnewest⟩ := hok.arrive_frame hnear hstep
    have hold : ∀ r ∈ s.inFlight,
        ∃ m, m ≤ s'.newest r.channel ∧ r.ackSequence = m % maxSequence := by
      intro r hr
      obtain ⟨m, hm, hack⟩ := h.inFlight r hr
      exact ⟨m, hm.trans (hnewest r.channel), hack⟩
    constructor
    · rcases (hok.answered hnear hstep).1 with hsame | ⟨q, hflight, hchannel, _, hack, _⟩
      · rw [hsame]
        exact hold
      · intro r hr
        rw [hflight, List.mem_append, List.mem_append, List.mem_singleton] at hr
        rcases hr with (hr | hr) | hr
        · exact hold r (List.mem_append_left _ hr)
        · rw [hr, hchannel]
          exact ⟨_, le_rfl, hack⟩
        · exact hold r (List.mem_append_right _ hr)
    · intro ack hmem
      rw [hacks] at hmem
      obtain ⟨c, m, hm, hack⟩ := h.acks ack hmem
      exact ⟨c, m, hm.trans (hnewest c), hack⟩
  | sendAck r sent =>
    rw [sequencedStep] at hstep
    split at hstep
    · next hmem =>
      obtain ⟨m, hm, hack⟩ := h.inFlight r (List.mem_append_left _ hmem)
      have hless : ∀ q ∈ s.replying.erase r ++ s.handing, q ∈ s.inFlight := by
        intro q hq
        rcases List.mem_append.mp hq with hq | hq
        · exact List.mem_append_left _ (List.mem_of_mem_erase hq)
        · exact List.mem_append_right _ hq
      dsimp only at hstep
      split at hstep
      · cases hstep
        constructor
        · intro q hq
          apply h.inFlight q
          rcases List.mem_append.mp hq with hq | hq
          · exact hless q (List.mem_append_left _ hq)
          · dsimp only at hq
            split at hq
            · rcases List.mem_append.mp hq with hq | hq
              · exact List.mem_append_right _ hq
              · rw [List.mem_singleton.mp hq]
                exact List.mem_append_left _ hmem
            · exact List.mem_append_right _ hq
        · intro ack hmem
          rcases List.mem_cons.mp hmem with heq | hmem
          · exact ⟨r.channel, m, hm, by rw [heq, hack]⟩
          · exact h.acks ack hmem
      · cases hstep
        exact ⟨fun q hq => h.inFlight q (hless q hq), h.acks⟩
    · cases hstep
  | handOver r realtime =>
    rw [sequencedStep] at hstep
    split at hstep
    · cases hstep
      refine ⟨?_, h.acks⟩
      intro q hq
      apply h.inFlight q
      rcases List.mem_append.mp hq with hq | hq
      · exact List.mem_append_left _ hq
      · exact List.mem_append_right _ (List.mem_of_mem_erase hq)
    · cases hstep

theorem answersOk_of_reachable
    (h : Reachable (sequencedSystem cn) (fun s a => Near s a ∧ Serial s a) s) :
    AnswersOk cn s := by
  refine h.invariant_of (AnswersOk cn) (fun _ => sequencedOk_of_reachable) ?_ ?_
  · intro s hs
    have hinit : s = .initial := hs
    rw [hinit]
    exact ⟨nofun, nofun⟩
  · intro s a s' hok hanswers hcond hstep
    exact hanswers.step hok hcond.1 hstep

/-! ### The sender -/

section

variable {item : PendingReliable} {front rest : List PendingReliable}

/-- In a queue with increasing numbers, the packets up to one and those after it. -/
theorem filter_index_of_sorted
    (hsorted : (front ++ item :: rest).Pairwise fun p q => p.index < q.index) :
    (front ++ item :: rest).filter (fun p => p.index ≤ item.index) = front ++ [item] ∧
      (front ++ item :: rest).filter (fun p => item.index < p.index) = rest := by
  obtain ⟨_, hrest, hcross⟩ := List.pairwise_append.mp hsorted
  obtain ⟨hafter, _⟩ := List.pairwise_cons.mp hrest
  have hfront : ∀ p ∈ front, p.index < item.index := fun p hp => hcross p hp _ (.head _)
  constructor
  · rw [List.filter_append, List.filter_eq_self.mpr, List.filter_cons_of_pos,
      List.filter_eq_nil_iff.mpr]
    · intro p hp
      simpa using hafter p hp
    · simp
    · intro p hp
      simpa using (hfront p hp).le
  · rw [List.filter_append, List.filter_eq_nil_iff.mpr, List.filter_cons_of_neg,
      List.filter_eq_self.mpr]
    · rfl
    · intro p hp
      simpa using hafter p hp
    · simp
    · intro p hp
      simpa using (hfront p hp).le

/-- Two packets in flight on a sequenced channel have different sequence numbers. -/
theorem ChannelSound.sequence_ne {v : SendChannel} (h : ChannelSound cn c (windowWidth c) v)
    {p q : PendingReliable} (hp : p ∈ v.pending) (hq : q ∈ v.pending) (hlt : p.index < q.index) :
    p.sequence ≠ q.sequence := by
  have hbase := h.base_le_index hp
  have hsent := h.index_lt hq
  have hwindow := h.window
  have hwidth : windowWidth c ≤ 129 := by
    rw [windowWidth, defaultWindowSize]
    split <;> decide
  rw [h.sequence_eq hp, h.sequence_eq hq, sequenceOf, sequenceOf, maxSequence]
  split <;> omega

theorem processAck_sequenced (s : SendState) (hc : isSequencedId c = true) {sequence : ℕ}
    (hsequence : sequence < maxSequence) :
    processAck s (buildReliableSequencedAck cn c sequence) =
      match (s.pending c).findIdx? fun item => item.sequence = sequence with
      | none => s
      | some ackIndex =>
        releasePending s c ((s.pending c).take (ackIndex + 1))
          ((s.pending c).drop (ackIndex + 1)) := by
  have hread : leNat (slice (buildReliableSequencedAck cn c sequence) 1 2) = sequence := by
    have hlt : sequence < 65536 := Nat.lt_trans hsequence (by decide)
    exact leNat_leBytes_two sequence hlt
  have hsize : (buildReliableSequencedAck cn c sequence).length = ackSize c := by
    rw [ackSize, if_pos hc]
    rfl
  have hchannel : (buildReliableSequencedAck cn c sequence).getD 3 0 = c := rfl
  have hlength : ¬(buildReliableSequencedAck cn c sequence).length <
      litenetlibChanneledHeaderSize := by
    show ¬4 < 4
    decide
  rw [processAck, if_neg hlength]
  dsimp only
  rw [hchannel, if_neg (not_not.mpr hsize), hread, if_neg (Nat.not_le.mpr hsequence)]
  exact if_pos hc

/-- **An acknowledgement of a sequenced channel releases the packets up to the one it names**, and
nothing if it names none. -/
theorem SendSound.sequenced_released {s : SendState} (h : SendSound cn windowWidth s)
    (hc : isSequencedId c = true) (number : BitVec 2) {sequence : ℕ}
    (hsequence : sequence < maxSequence) :
    (∀ item ∈ s.pending c, item.sequence = sequence →
      (processAck s (buildReliableSequencedAck number c sequence)).pending c =
          (s.pending c).filter (fun p => item.index < p.index) ∧
        (processAck s (buildReliableSequencedAck number c sequence)).acknowledged c =
          s.acknowledged c ++
            ((s.pending c).filter fun p => p.index ≤ item.index).map fun p => p.index) ∧
    ((∀ item ∈ s.pending c, item.sequence ≠ sequence) →
      processAck s (buildReliableSequencedAck number c sequence) = s) := by
  have hch := h.channels c
  rw [processAck_sequenced s hc hsequence]
  constructor
  · intro item hitem hnamed
    obtain ⟨front, rest, hsplit⟩ := List.append_of_mem hitem
    have hsorted : (s.pending c).Pairwise fun p q => p.index < q.index :=
      List.pairwise_map.mp hch.sorted
    rw [hsplit] at hsorted
    obtain ⟨hbefore, hafter⟩ := filter_index_of_sorted hsorted
    have hfirst : ∀ p ∈ front, p.sequence ≠ sequence := by
      intro p hp
      have hmem : p ∈ s.pending c := by
        rw [hsplit]
        exact List.mem_append_left _ hp
      have hlt := (List.pairwise_append.mp hsorted).2.2 p hp item (.head _)
      rw [← hnamed]
      exact hch.sequence_ne hmem hitem hlt
    have hfind : (s.pending c).findIdx? (fun item => item.sequence = sequence) =
        some front.length := by
      have hnone : front.findIdx? (fun item => item.sequence = sequence) = none :=
        List.findIdx?_eq_none_iff.mpr fun p hp => decide_eq_false (hfirst p hp)
      rw [hsplit, List.findIdx?_append, hnone, List.findIdx?_cons, decide_eq_true hnamed]
      simp
    have htake : (s.pending c).take (front.length + 1) = front ++ [item] := by
      rw [hsplit, List.take_length_add_append]
      rfl
    have hdrop : (s.pending c).drop (front.length + 1) = rest := by
      rw [hsplit, List.drop_length_add_append]
      rfl
    rw [hfind]
    dsimp only
    rw [htake, hdrop, hsplit, hbefore, hafter]
    exact ⟨Function.update_self _ _ _, Function.update_self _ _ _⟩
  · intro hnone
    have hfind : (s.pending c).findIdx? (fun item => item.sequence = sequence) = none :=
      List.findIdx?_eq_none_iff.mpr fun p hp => decide_eq_false (hnone p hp)
    rw [hfind]

end

/-! ### The channels -/

/-- **Reliable sequenced channels.** In every run in which packets arrive near the newest one and no
newer packet is recorded while one of its channel waits to be handed over, the packets of a channel
are handed over in the strict order of their numbers; a packet is answered with the newest number
recorded, or not at all, and every acknowledgement sent names a recorded number; and a newer packet
that finds the queue full and is not consumed is neither recorded nor answered.  On the other side,
in every run, an acknowledgement releases exactly the packets up to the one it names. -/
theorem sequenced_channels {sender : SendState} {ok : SendState → SendAction → Prop}
    {number : BitVec 2} (hr : Reachable (sequencedSystem cn) (fun s a => Near s a ∧ Serial s a) s)
    (hs : Reachable (sendSystem number) ok sender) :
    (∀ c, (s.handed c).Pairwise fun a b => a.index < b.index) ∧
      (∀ c n payload queue current realtime s',
      Near s (.arrive c n payload queue current realtime) →
      (sequencedSystem cn).step s (.arrive c n payload queue current realtime) = some s' →
      (s'.inFlight = s.inFlight ∨ ∃ r, s'.inFlight = s.replying ++ [r] ++ s.handing ∧
        r.channel = c ∧ n ≤ s'.newest c ∧ r.ackSequence = s'.newest c % maxSequence ∧
        r.ackSequence = s'.sequences c) ∧
      (queue = .full → realtime = false → s.newest c < n → s' = s)) ∧
    (∀ ack ∈ s.acks,
      ∃ c m, m ≤ s.newest c ∧ ack = buildReliableSequencedAck cn c (m % maxSequence)) ∧
    ∀ c sequence, isSequencedId c = true → sequence < maxSequence →
      (∀ item ∈ sender.pending c, item.sequence = sequence →
        (processAck sender (buildReliableSequencedAck cn c sequence)).pending c =
            (sender.pending c).filter (fun p => item.index < p.index) ∧
          (processAck sender (buildReliableSequencedAck cn c sequence)).acknowledged c =
            sender.acknowledged c ++
              ((sender.pending c).filter fun p => p.index ≤ item.index).map fun p => p.index) ∧
      ((∀ item ∈ sender.pending c, item.sequence ≠ sequence) →
        processAck sender (buildReliableSequencedAck cn c sequence) = sender) := by
  have hok := sequencedOk_of_reachable hr
  refine ⟨hok.increasing, ?_, (answersOk_of_reachable hr).acks, ?_⟩
  · intro c n payload queue current realtime s' hnear hstep
    have hsequenced : sequencedStep cn s (.arrive c n payload queue current realtime) = some s' :=
      hstep
    exact hok.answered hnear hsequenced
  · intro c sequence hc hsequence
    exact (sendSound_of_reachable hs).sequenced_released hc cn hsequence

/-- Two packets of channel id 3, the second first dropped for a full queue. -/
def retriedPacket : List SequencedAction :=
  let first : SequencedReply := ⟨3, 1, [10], 1, true⟩
  let second : SequencedReply := ⟨3, 2, [20], 2, true⟩
  [.arrive 3 1 [10] .free true false, .sendAck first true, .handOver first false,
    .arrive 3 2 [20] .full true false, .arrive 3 2 [20] .free true false, .sendAck second true,
    .handOver second false]

/-- The two packets are handed over in order, and the sender has released the first. -/
theorem sequenced_channels_two : ∃ (s : SequencedState) (sender : SendState),
    (s.handed 3).map (fun h => h.index) = [1, 2] ∧
      ((s.handed 3).Pairwise fun a b => a.index < b.index) ∧
    (sender.pending 3).map (fun item => item.sequence) = [1] ∧
    (processAck sender (buildReliableSequencedAck 0 3 1)).acknowledged 3 =
      sender.acknowledged 3 ++ ((sender.pending 3).filter fun p => p.index ≤ 0).map
        fun p => p.index := by
  have hadmit : Admits (sequencedSystem 0) (fun s a => Near s a ∧ Serial s a) .initial
      retriedPacket := by decide
  have hrun : ((runActions (sequencedSystem 0) .initial retriedPacket).any fun s =>
      (s.handed 3).map (fun h => h.index) = [1, 2]) = true := by decide
  obtain ⟨s, hreach, horder⟩ := exists_reachable_of_run (fun s a => Near s a ∧ Serial s a) hadmit
    (.init rfl) hrun
  have hsend : ((runActions (sendSystem 0) (.init 0) (sequencedPass 1)).any fun s =>
      (s.pending 3).map (fun item => (item.sequence, item.index)) = [(1, 0)]) = true := by
    decide +kernel
  obtain ⟨sender, hsender, hpending⟩ := exists_reachable_of_free_run (.init rfl) hsend
  have h := sequenced_channels hreach hsender
  have hlist := of_decide_eq_true hpending
  obtain ⟨item, hitem, hpair⟩ := List.map_eq_singleton_iff.mp hlist
  obtain ⟨hsequence, hindex⟩ := Prod.mk.inj hpair
  have hmem : item ∈ sender.pending 3 := by
    rw [hitem]
    exact List.mem_singleton_self item
  have hreleased :=
    ((h.2.2.2 3 1 (by decide) (by decide)).1 item hmem hsequence).2
  refine ⟨s, sender, of_decide_eq_true horder, h.1 3, ?_, ?_⟩
  · rw [hitem]
    exact congrArg (fun n => [n]) hsequence
  · rw [hindex] at hreleased
    exact hreleased

/-- Two packets of channel id 3, recorded by two workers before either hands its packet over. -/
def racingWorkers : List SequencedAction :=
  let first : SequencedReply := ⟨3, 1, [10], 1, true⟩
  let second : SequencedReply := ⟨3, 2, [20], 2, true⟩
  [.arrive 3 1 [10] .free true false, .arrive 3 2 [20] .free true false, .sendAck first true,
    .sendAck second true, .handOver second false, .handOver first false]

/-- **Without that condition the order is lost**: the second packet is handed over first. -/
theorem sequenced_out_of_order :
    ∃ s, Reachable (sequencedSystem 0) Near s ∧
      ¬(s.handed 3).Pairwise fun a b => a.index < b.index := by
  have hadmit : Admits (sequencedSystem 0) Near .initial racingWorkers := by decide
  have hrun : ((runActions (sequencedSystem 0) .initial racingWorkers).any fun s =>
      (s.handed 3).map (fun h => h.index) = [2, 1]) = true := by decide
  obtain ⟨s, hreach, horder⟩ := exists_reachable_of_run Near hadmit (.init rfl) hrun
  refine ⟨s, hreach, ?_⟩
  intro hpairwise
  have hindices := List.pairwise_map.mpr hpairwise
  rw [of_decide_eq_true horder] at hindices
  exact absurd hindices (by decide)

end BasisRust.Transport
