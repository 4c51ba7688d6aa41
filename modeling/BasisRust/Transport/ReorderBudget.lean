import BasisRust.Library.Ledger
import Mathlib.Data.Nat.Notation
import Mathlib.Logic.Function.Basic

/-!
# The reorder budget

All peers share one budget for the packets and bytes they retain out of order.  A reservation is a
token that is charged to the whole and to its peer; dropping the token, or shrinking it, gives the
charge back.  Every operation runs under one lock.

`asserted` is history: whether every subtraction so far has stayed at or above zero, as the debug
assertions of the source demand.

`Accounts` says that the counters are exactly the charges of the live tokens and within their
limits.  A step of the program that takes some tokens and leaves others is described by
`Exchanges`, which holds whatever other tokens are live, so that steps can be put together.
-/

namespace BasisRust.Transport

open Library

variable {P : Type} [DecidableEq P]

def orderedReorderEntryOverhead : ℕ := 128

/-- The largest `usize`. -/
def usizeMax : ℕ := 2 ^ 64 - 1

/-! ### State -/

structure ReorderBudgetLimits where
  packets : ℕ
  bytes : ℕ
  peerPackets : ℕ
  peerBytes : ℕ
  deriving DecidableEq

def ReorderBudgetLimits.default : ReorderBudgetLimits where
  packets := 65536
  bytes := 64 * 1024 * 1024
  peerPackets := 4096
  peerBytes := 512 * 1024

structure ReorderBudgetUsage where
  retainedPackets : ℕ
  retainedBytes : ℕ
  highWaterPackets : ℕ
  highWaterBytes : ℕ
  deriving DecidableEq

structure PeerReorderUsage where
  retainedPackets : ℕ
  retainedBytes : ℕ
  deriving DecidableEq

structure ReorderBudget (P : Type) where
  usage : ReorderBudgetUsage
  limits : ReorderBudgetLimits
  peers : P → PeerReorderUsage
  asserted : Bool

def ReorderBudget.init (limits : ReorderBudgetLimits) : ReorderBudget P :=
  ⟨⟨0, 0, 0, 0⟩, limits, fun _ => ⟨0, 0⟩, true⟩

structure ReorderBudgetToken (P : Type) where
  peer : P
  chargedBytes : ℕ
  deriving DecidableEq

namespace ReorderBudget

/-! ### Operations -/

/-- Reserve a packet of `payloadBytes` bytes for a peer. -/
def tryReserve (b : ReorderBudget P) (peer : P) (payloadBytes : ℕ) :
    Option (ReorderBudgetToken P × ReorderBudget P) :=
  let chargedBytes := payloadBytes + orderedReorderEntryOverhead
  let used := b.peers peer
  if chargedBytes > usizeMax then none
  else if b.usage.retainedPackets ≥ b.limits.packets ∨
      b.usage.retainedBytes + chargedBytes > usizeMax ∨
      b.usage.retainedBytes + chargedBytes > b.limits.bytes ∨
      used.retainedPackets ≥ b.limits.peerPackets ∨
      used.retainedBytes + chargedBytes > usizeMax ∨
      used.retainedBytes + chargedBytes > b.limits.peerBytes then none
  else
    let packets := b.usage.retainedPackets + 1
    let bytes := b.usage.retainedBytes + chargedBytes
    some (⟨peer, chargedBytes⟩, { b with
      usage := ⟨packets, bytes, max b.usage.highWaterPackets packets,
        max b.usage.highWaterBytes bytes⟩
      peers := Function.update b.peers peer
        ⟨used.retainedPackets + 1, used.retainedBytes + chargedBytes⟩ })

/-- Take packets and bytes off the counters. -/
def release (b : ReorderBudget P) (peer : P) (packets bytes : ℕ) : ReorderBudget P :=
  let used := b.peers peer
  { b with
    usage := { b.usage with
      retainedPackets := b.usage.retainedPackets - packets
      retainedBytes := b.usage.retainedBytes - bytes }
    peers := Function.update b.peers peer
      ⟨used.retainedPackets - packets, used.retainedBytes - bytes⟩
    asserted := b.asserted && (decide (packets ≤ b.usage.retainedPackets) &&
      decide (bytes ≤ b.usage.retainedBytes) && decide (packets ≤ used.retainedPackets) &&
      decide (bytes ≤ used.retainedBytes)) }

@[simp] theorem release_limits (b : ReorderBudget P) (peer : P) (packets bytes : ℕ) :
    (b.release peer packets bytes).limits = b.limits := rfl

/-- Shrink a token to what a payload needs. -/
def shrinkToPayloadBytes (b : ReorderBudget P) (token : ReorderBudgetToken P) (payloadBytes : ℕ) :
    ReorderBudgetToken P × ReorderBudget P :=
  let targetBytes := payloadBytes + orderedReorderEntryOverhead
  if targetBytes > usizeMax ∨ targetBytes ≥ token.chargedBytes then (token, b)
  else (⟨token.peer, targetBytes⟩, b.release token.peer 0 (token.chargedBytes - targetBytes))

/-- Drop a token. -/
def drop (b : ReorderBudget P) (token : ReorderBudgetToken P) : ReorderBudget P :=
  b.release token.peer 1 token.chargedBytes

/-! ### What the counters count -/

inductive Counter (P : Type) where
  | packets
  | bytes
  | peerPackets (peer : P)
  | peerBytes (peer : P)

def counts (b : ReorderBudget P) : Counter P → ℕ
  | .packets => b.usage.retainedPackets
  | .bytes => b.usage.retainedBytes
  | .peerPackets peer => (b.peers peer).retainedPackets
  | .peerBytes peer => (b.peers peer).retainedBytes

def limitOf (limits : ReorderBudgetLimits) : Counter P → ℕ
  | .packets => limits.packets
  | .bytes => limits.bytes
  | .peerPackets _ => limits.peerPackets
  | .peerBytes _ => limits.peerBytes

/-- What a token is charged to. -/
def charge (token : ReorderBudgetToken P) : Counter P → ℕ
  | .packets => 1
  | .bytes => token.chargedBytes
  | .peerPackets peer => if token.peer = peer then 1 else 0
  | .peerBytes peer => if token.peer = peer then token.chargedBytes else 0

/-- The counters are the charges of the live tokens and within their limits, and no subtraction has
gone below zero. -/
structure Accounts (b : ReorderBudget P) (live : Multiset (ReorderBudgetToken P)) : Prop where
  balanced : Balanced charge b.counts live
  bounded : ∀ k, b.counts k ≤ limitOf b.limits k
  asserted : b.asserted = true

/-- The step from `b` to `b'` takes the tokens `before` and leaves the tokens `after`. -/
structure Exchanges (b : ReorderBudget P) (before : Multiset (ReorderBudgetToken P))
    (b' : ReorderBudget P) (after : Multiset (ReorderBudgetToken P)) : Prop where
  accounts : ∀ others, b.Accounts (before + others) → b'.Accounts (after + others)
  limits : b'.limits = b.limits

variable {b b' b'' : ReorderBudget P} {live : Multiset (ReorderBudgetToken P)}
  {token : ReorderBudgetToken P} {peer : P} {n : ℕ}

theorem Accounts.init (limits : ReorderBudgetLimits) :
    (ReorderBudget.init limits : ReorderBudget P).Accounts 0 where
  balanced := by
    intro k
    cases k <;> rfl
  bounded := by
    intro k
    cases k <;> exact Nat.zero_le _
  asserted := rfl

/-! ### The operations keep the accounts -/

theorem tryReserve_eq_some (h : b.tryReserve peer n = some (token, b')) :
    token = ⟨peer, n + orderedReorderEntryOverhead⟩ ∧ b'.limits = b.limits ∧
    b'.asserted = b.asserted ∧ (∀ k, b'.counts k = b.counts k + charge token k) ∧
    ∀ k, charge token k ≠ 0 → b.counts k + charge token k ≤ limitOf b.limits k := by
  simp only [tryReserve] at h
  split_ifs at h with hlarge hfull
  cases h
  rw [not_or, not_or, not_or, not_or, not_or] at hfull
  obtain ⟨h₁, -, h₂, h₃, -, h₄⟩ := hfull
  refine ⟨rfl, rfl, rfl, ?_, ?_⟩
  · intro k
    cases k with
    | packets | bytes => rfl
    | peerPackets p | peerBytes p =>
      by_cases hp : peer = p
      · subst hp
        simp [counts, charge]
      · simp [counts, charge, hp, Ne.symm hp]
  · intro k hk
    cases k with
    | packets | bytes =>
      simp only [counts, charge, limitOf]
      omega
    | peerPackets p | peerBytes p =>
      by_cases hp : peer = p
      · subst hp
        simp only [counts, charge, limitOf, if_true]
        omega
      · exact absurd (if_neg hp) hk

theorem release_counts (b : ReorderBudget P) (token : ReorderBudgetToken P) (k : Counter P) :
    (b.drop token).counts k = b.counts k - charge token k := by
  cases k with
  | packets | bytes => rfl
  | peerPackets p | peerBytes p =>
    by_cases hp : token.peer = p
    · subst hp
      simp [drop, release, counts, charge]
    · simp [drop, release, counts, charge, hp, Ne.symm hp]

namespace Exchanges

variable {T T' T'' : Multiset (ReorderBudgetToken P)}

theorem refl (b : ReorderBudget P) (T : Multiset (ReorderBudgetToken P)) : Exchanges b T b T :=
  ⟨fun _ h => h, rfl⟩

theorem trans (h : Exchanges b T b' T') (h' : Exchanges b' T' b'' T'') : Exchanges b T b'' T'' :=
  ⟨fun others hb => h'.accounts others (h.accounts others hb), h'.limits.trans h.limits⟩

theorem of_eq {T₁ T₁' : Multiset (ReorderBudgetToken P)} (h : Exchanges b T b' T')
    (hT : T₁ = T) (hT' : T₁' = T') : Exchanges b T₁ b' T₁' := by
  rw [hT, hT']
  exact h

/-- Tokens that take no part in a step. -/
theorem frame (h : Exchanges b T b' T') (F : Multiset (ReorderBudgetToken P)) :
    Exchanges b (T + F) b' (T' + F) where
  accounts := by
    intro others hb
    rw [add_assoc] at hb ⊢
    exact h.accounts (F + others) hb
  limits := h.limits

theorem tryReserve (h : b.tryReserve peer n = some (token, b')) : Exchanges b 0 b' {token} := by
  obtain ⟨-, hlimits, hasserted, hcounts, hroom⟩ := tryReserve_eq_some h
  refine ⟨?_, hlimits⟩
  intro others hb
  rw [zero_add] at hb
  rw [Multiset.singleton_add]
  refine ⟨hb.balanced.add hcounts, ?_, hasserted.trans hb.asserted⟩
  intro k
  rw [hcounts k, hlimits]
  by_cases hk : charge token k = 0
  · rw [hk, Nat.add_zero]
    exact hb.bounded k
  · exact hroom k hk

theorem drop (b : ReorderBudget P) (token : ReorderBudgetToken P) :
    Exchanges b {token} (b.drop token) 0 := by
  refine ⟨?_, rfl⟩
  intro others hb
  rw [Multiset.singleton_add] at hb
  rw [zero_add]
  have hle : ∀ k, charge token k ≤ b.counts k := hb.balanced.charge_le (Multiset.mem_cons_self _ _)
  refine ⟨hb.balanced.remove (release_counts b token), ?_, ?_⟩
  · intro k
    rw [release_counts]
    exact (Nat.sub_le _ _).trans (hb.bounded k)
  · have h₁ := hle .packets
    have h₂ := hle .bytes
    have h₃ := hle (.peerPackets token.peer)
    have h₄ := hle (.peerBytes token.peer)
    simp only [counts, charge, if_true] at h₁ h₂ h₃ h₄
    simp [ReorderBudget.drop, release, hb.asserted, h₁, h₂, h₃, h₄]

/-- **Shrinking** a token gives back the difference. -/
theorem shrink (b : ReorderBudget P) (token : ReorderBudgetToken P) (n : ℕ) :
    Exchanges b {token} (b.shrinkToPayloadBytes token n).2
      {(b.shrinkToPayloadBytes token n).1} := by
  simp only [shrinkToPayloadBytes]
  split_ifs with hsame
  · exact refl b {token}
  · rw [not_or, not_lt, not_le] at hsame
    obtain ⟨-, hlt⟩ := hsame
    refine ⟨?_, release_limits _ _ _ _⟩
    intro others hb
    rw [Multiset.singleton_add] at hb ⊢
    have hle : ∀ k, charge token k ≤ b.counts k :=
      hb.balanced.charge_le (Multiset.mem_cons_self _ _)
    have hbytes := hle .bytes
    have hpeer := hle (.peerBytes token.peer)
    simp only [counts, charge, if_true] at hbytes hpeer
    refine ⟨hb.balanced.exchange ?_, ?_, ?_⟩
    · intro k
      cases k with
      | packets => simp only [counts, charge, release, Nat.sub_zero]
      | bytes =>
        show b.usage.retainedBytes - _ + token.chargedBytes = b.usage.retainedBytes + _
        simp only [charge]
        omega
      | peerPackets p =>
        by_cases hp : token.peer = p
        · subst hp
          simp [counts, charge, release]
        · simp [counts, charge, release, hp, Ne.symm hp]
      | peerBytes p =>
        by_cases hp : token.peer = p
        · subst hp
          simp only [counts, charge, release, Function.update_self, if_true]
          omega
        · simp [counts, charge, release, hp, Ne.symm hp]
    · intro k
      rw [release_limits]
      refine le_trans ?_ (hb.bounded k)
      cases k with
      | packets | bytes =>
        simp only [counts, release]
        exact Nat.sub_le _ _
      | peerPackets p | peerBytes p =>
        by_cases hp : p = token.peer
        · subst hp
          simp only [counts, release, Function.update_self]
          exact Nat.sub_le _ _
        · simp [counts, release, hp]
    · simp only [release, hb.asserted, Bool.true_and, Bool.and_eq_true, decide_eq_true_eq]
      omega

end Exchanges

/-! ### Several tokens -/

/-- Drop tokens one after another. -/
def dropAll (b : ReorderBudget P) (tokens : List (ReorderBudgetToken P)) : ReorderBudget P :=
  tokens.foldl drop b

theorem Exchanges.dropAll (b : ReorderBudget P) (tokens : List (ReorderBudgetToken P)) :
    Exchanges b (tokens : Multiset (ReorderBudgetToken P)) (b.dropAll tokens) 0 := by
  induction tokens generalizing b with
  | nil => exact .refl b 0
  | cons token tokens ih =>
    have hfirst := (Exchanges.drop b token).frame (tokens : Multiset (ReorderBudgetToken P))
    rw [zero_add, Multiset.singleton_add, Multiset.cons_coe] at hfirst
    exact hfirst.trans (ih (b.drop token))

/-- Shrink every token of a list of slots. -/
def shrinkAll (b : ReorderBudget P) (payloadBytes : ℕ) :
    List (Option (ReorderBudgetToken P)) → List (Option (ReorderBudgetToken P)) × ReorderBudget P
  | [] => ([], b)
  | none :: slots =>
    let rest := b.shrinkAll payloadBytes slots
    (none :: rest.1, rest.2)
  | some token :: slots =>
    let first := b.shrinkToPayloadBytes token payloadBytes
    let rest := first.2.shrinkAll payloadBytes slots
    (some first.1 :: rest.1, rest.2)

/-- Reserve a token for every slot that wants one, until a reservation fails.  The answer says
whether all went well. -/
def reserveSlots (b : ReorderBudget P) (peer : P) (payloadBytes : ℕ) :
    List Bool → Bool × List (Option (ReorderBudgetToken P)) × ReorderBudget P
  | [] => (true, [], b)
  | false :: wanted =>
    let rest := b.reserveSlots peer payloadBytes wanted
    (rest.1, none :: rest.2.1, rest.2.2)
  | true :: wanted =>
    match b.tryReserve peer payloadBytes with
    | none => (false, [], b)
    | some (token, b') =>
      let rest := b'.reserveSlots peer payloadBytes wanted
      (rest.1, some token :: rest.2.1, rest.2.2)

/-- The tokens in a list of slots. -/
def tokensOf (slots : List (Option (ReorderBudgetToken P))) : Multiset (ReorderBudgetToken P) :=
  (slots.reduceOption : List (ReorderBudgetToken P))

omit [DecidableEq P] in
@[simp] theorem tokensOf_some (slots : List (Option (ReorderBudgetToken P))) :
    tokensOf (some token :: slots) = {token} + tokensOf slots := rfl

theorem Exchanges.shrinkAll (b : ReorderBudget P) (n : ℕ)
    (slots : List (Option (ReorderBudgetToken P))) :
    Exchanges b (tokensOf slots) (b.shrinkAll n slots).2 (tokensOf (b.shrinkAll n slots).1) := by
  induction slots generalizing b with
  | nil => exact .refl b 0
  | cons slot slots ih =>
    cases slot with
    | none => exact ih b
    | some token =>
      rw [tokensOf_some]
      have hfirst := (Exchanges.shrink b token n).frame (tokensOf slots)
      have hrest := (ih (b.shrinkToPayloadBytes token n).2).frame
        {(b.shrinkToPayloadBytes token n).1}
      rw [add_comm, add_comm (tokensOf _)] at hrest
      exact hfirst.trans hrest

theorem Exchanges.reserveSlots (b : ReorderBudget P) (peer : P) (n : ℕ) (wanted : List Bool) :
    Exchanges b 0 (b.reserveSlots peer n wanted).2.2
      (tokensOf (b.reserveSlots peer n wanted).2.1) := by
  induction wanted generalizing b with
  | nil => exact .refl b 0
  | cons w wanted ih =>
    cases w with
    | false => exact ih b
    | true =>
      rw [ReorderBudget.reserveSlots]
      cases h : b.tryReserve peer n with
      | none => exact .refl b 0
      | some r =>
        have hrest := (ih r.2).frame {r.1}
        rw [zero_add, add_comm (tokensOf _)] at hrest
        exact (Exchanges.tryReserve h).trans hrest

theorem reserveSlots_wanted {wanted : List Bool} (b : ReorderBudget P)
    (h : (b.reserveSlots peer n wanted).1 = false) : true ∈ wanted := by
  induction wanted generalizing b with
  | nil => cases h
  | cons w wanted ih =>
    cases w with
    | false => exact List.mem_cons_of_mem false (ih b h)
    | true => exact .head _

/-- When all goes well, the slots that hold a token are those that want one. -/
theorem reserveSlots_isSome {wanted : List Bool} (b : ReorderBudget P)
    (h : (b.reserveSlots peer n wanted).1 = true) :
    (b.reserveSlots peer n wanted).2.1.map Option.isSome = wanted := by
  induction wanted generalizing b with
  | nil => rfl
  | cons w wanted ih =>
    cases w with
    | false =>
      show false :: _ = false :: _
      rw [ih b h]
    | true =>
      rw [reserveSlots] at h ⊢
      cases hreserve : b.tryReserve peer n with
      | none =>
        rw [hreserve] at h
        cases h
      | some r =>
        rw [hreserve] at h
        show true :: _ = true :: _
        rw [ih r.2 h]

/-! ### A reservation that is given up -/

/-- What tokens charge a counter with. -/
def chargeOf (tokens : Multiset (ReorderBudgetToken P)) (k : Counter P) : ℕ :=
  (tokens.map fun token => charge token k).sum

theorem dropAll_counts (b : ReorderBudget P) (tokens : List (ReorderBudgetToken P))
    (k : Counter P) :
    (b.dropAll tokens).counts k = b.counts k - chargeOf (tokens : Multiset _) k := by
  induction tokens generalizing b with
  | nil => rfl
  | cons token tokens ih =>
    show ((b.drop token).dropAll tokens).counts k = _
    rw [ih, release_counts, chargeOf, chargeOf, ← Multiset.cons_coe, Multiset.map_cons,
      Multiset.sum_cons, Nat.sub_sub]

theorem reserveSlots_counts (b : ReorderBudget P) (peer : P) (n : ℕ) (wanted : List Bool)
    (k : Counter P) : (b.reserveSlots peer n wanted).2.2.counts k =
      b.counts k + chargeOf (tokensOf (b.reserveSlots peer n wanted).2.1) k := by
  induction wanted generalizing b with
  | nil => rfl
  | cons w wanted ih =>
    cases w with
    | false => exact ih b
    | true =>
      rw [ReorderBudget.reserveSlots]
      cases h : b.tryReserve peer n with
      | none => rfl
      | some r =>
        obtain ⟨token, b'⟩ := r
        obtain ⟨-, -, -, hcounts, -⟩ := tryReserve_eq_some h
        dsimp only
        rw [ih, hcounts, tokensOf_some, chargeOf, chargeOf, Multiset.map_add, Multiset.sum_add,
          Multiset.map_singleton, Multiset.sum_singleton, Nat.add_assoc]

/-- Reserving slots and giving them all up again leaves the counters as they were. -/
theorem giveUp_counts {metadata : ReorderBudgetToken P} {peer : P} {n m : ℕ}
    (h : b.tryReserve peer m = some (metadata, b')) (wanted : List Bool) (k : Counter P) :
    (((b'.reserveSlots peer n wanted).2.2.dropAll
      (b'.reserveSlots peer n wanted).2.1.reduceOption).drop metadata).counts k = b.counts k := by
  obtain ⟨-, -, -, hcounts, -⟩ := tryReserve_eq_some h
  rw [release_counts, dropAll_counts, reserveSlots_counts, tokensOf, Nat.add_sub_cancel, hcounts,
    Nat.add_sub_cancel]

/-- Which slots hold a token does not change. -/
theorem shrinkAll_isSome (b : ReorderBudget P) (n : ℕ)
    (slots : List (Option (ReorderBudgetToken P))) :
    (b.shrinkAll n slots).1.map Option.isSome = slots.map Option.isSome := by
  induction slots generalizing b with
  | nil => rfl
  | cons slot slots ih =>
    cases slot with
    | none =>
      show false :: _ = false :: _
      rw [ih]
    | some token =>
      show true :: _ = true :: _
      rw [ih]

omit [DecidableEq P] in
/-- Taking the token of a slot. -/
theorem tokensOf_take {slots : List (Option (ReorderBudgetToken P))} {i : ℕ}
    (h : slots[i]? = some (some token)) :
    tokensOf slots = {token} + tokensOf (slots.set i none) := by
  induction slots generalizing i with
  | nil => cases h
  | cons slot slots ih =>
    cases i with
    | zero =>
      cases h
      rfl
    | succ i =>
      have hrest := ih (i := i) h
      cases slot with
      | none => exact hrest
      | some first =>
        rw [List.set_cons_succ, tokensOf_some, tokensOf_some, hrest]
        exact add_left_comm _ _ _

end ReorderBudget

end BasisRust.Transport
