import BasisRust.Transport.BudgetedFragments

/-!
# The reorder budget over whole runs

The tokens of all peers: those in the `future` maps of their ordered channels, those of their
fragment assemblies, and the loose ones that some call holds while it moves them.  Calls of all
peers come in any order.

`step_exchanges` says that a call takes the live tokens and leaves the live tokens; so the accounts
of the budget hold in every reachable state (`Reachable.inv`), and `reorder_budget_conserved` reads
off what that means.
-/

namespace BasisRust.Transport

open Library ReorderBudget

variable {P : Type} [DecidableEq P]

/-! ### State and steps -/

/-- What a peer retains: its fragments, and the packets of its ordered channels that wait for an
older one, by channel and sequence. -/
structure PeerRetained (P : Type) where
  fragments : BudgetedFragments P
  future : List ((Byte × ℕ) × ReorderBudgetToken P)

def PeerRetained.empty : PeerRetained P := ⟨.empty, []⟩

/-- `loose` are the tokens that are in no structure. -/
structure ReorderState (P : Type) where
  budget : ReorderBudget P
  peers : List (P × PeerRetained P)
  loose : List (ReorderBudgetToken P)

/-- The calls.  A loose token is named by its place. -/
inductive ReorderAction (P : Type) where
  | reserve (peer : P) (payloadBytes : ℕ)
  | drop (i : ℕ)
  | shrink (i payloadBytes : ℕ)
  | retain (peer : P) (channelId : Byte) (sequence i : ℕ)
  | takeFuture (peer : P) (channelId : Byte) (sequence : ℕ)
  | insert (peer : P) (channelId : Byte) (fragment : ReliableFragment) (payload : Bytes) (i : ℕ)
      (alreadyBuffered : List Bool)
  | takeCompletion (peer : P) (channelId : Byte) (fragment : ReliableFragment)
  | clear (peer : P)

/-- The tokens of an assembly, in a list. -/
def BudgetedAssembly.tokenList (a : BudgetedAssembly P) : List (ReorderBudgetToken P) :=
  a.metadataBudget :: (a.budgets ++ a.completionBudgets.reduceOption)

/-- The tokens of a peer, in a list. -/
def PeerRetained.tokenList (r : PeerRetained P) : List (ReorderBudgetToken P) :=
  r.fragments.assemblies.flatMap (fun x => x.2.tokenList) ++ r.future.map Prod.snd

/-- The tokens a call gives back, in a list. -/
def returnedList : InsertResult P → List (ReorderBudgetToken P)
  | .error (_, _, budget) => [budget]
  | .ok none => []
  | .ok (some (_, budgets)) => budgets

namespace ReorderState

def init (limits : ReorderBudgetLimits) : ReorderState P := ⟨.init limits, [], []⟩

def retained (s : ReorderState P) (peer : P) : PeerRetained P := (assocGet peer s.peers).getD .empty

def step (s : ReorderState P) : ReorderAction P → ReorderState P
  | .reserve peer payloadBytes =>
    match s.budget.tryReserve peer payloadBytes with
    | none => s
    | some (token, budget) => { s with budget := budget, loose := token :: s.loose }
  | .drop i =>
    match s.loose[i]? with
    | none => s
    | some token => { s with budget := s.budget.drop token, loose := s.loose.eraseIdx i }
  | .shrink i payloadBytes =>
    match s.loose[i]? with
    | none => s
    | some token =>
      let shrunk := s.budget.shrinkToPayloadBytes token payloadBytes
      { s with budget := shrunk.2, loose := s.loose.set i shrunk.1 }
  | .retain peer channelId sequence i =>
    match s.loose[i]? with
    | none => s
    | some token =>
      let r := s.retained peer
      -- an entry that is replaced gives its token back
      let replaced := (assocGet (channelId, sequence) r.future).toList
      { budget := s.budget.dropAll replaced
        peers := assocSet peer
          { r with future := assocSet (channelId, sequence) token r.future } s.peers
        loose := s.loose.eraseIdx i }
  | .takeFuture peer channelId sequence =>
    let r := s.retained peer
    let taken := (assocGet (channelId, sequence) r.future).toList
    { s with
      peers := assocSet peer { r with future := assocErase (channelId, sequence) r.future } s.peers
      loose := taken ++ s.loose }
  | .insert peer channelId fragment payload i alreadyBuffered =>
    match s.loose[i]? with
    | none => s
    | some token =>
      let r := s.retained peer
      let x := r.fragments.insert channelId fragment payload token s.budget peer alreadyBuffered
      { budget := x.2.2
        peers := assocSet peer { r with fragments := x.2.1 } s.peers
        loose := returnedList x.1 ++ s.loose.eraseIdx i }
  | .takeCompletion peer channelId fragment =>
    let r := s.retained peer
    let x := r.fragments.takeCompletionBudget channelId fragment
    { s with
      peers := assocSet peer { r with fragments := x.2 } s.peers
      loose := x.1.toList ++ s.loose }
  | .clear peer =>
    { s with
      budget := s.budget.dropAll (s.retained peer).tokenList
      peers := assocErase peer s.peers }

/-- The states after any sequence of calls. -/
inductive Reachable (limits : ReorderBudgetLimits) : ReorderState P → Prop
  | init : Reachable limits (init limits)
  | step {s : ReorderState P} (h : Reachable limits s) (action : ReorderAction P) :
      Reachable limits (s.step action)

end ReorderState

/-! ### The live tokens -/

namespace PeerRetained

/-- The tokens of a peer. -/
def tokens (r : PeerRetained P) : Multiset (ReorderBudgetToken P) :=
  r.fragments.tokens + holdings (fun token => {token}) r.future

omit [DecidableEq P] in
theorem coe_tokenList (r : PeerRetained P) :
    (r.tokenList : Multiset (ReorderBudgetToken P)) = r.tokens := by
  have hassembly : ∀ a : BudgetedAssembly P,
      (a.tokenList : Multiset (ReorderBudgetToken P)) = a.tokens := by
    intro a
    rw [BudgetedAssembly.tokenList, BudgetedAssembly.tokens, ← Multiset.cons_coe,
      ← Multiset.coe_add, ← Multiset.singleton_add, add_assoc]
    rfl
  have hfragments : ∀ l : List ((Byte × ℕ) × BudgetedAssembly P),
      (l.flatMap (fun x => x.2.tokenList) : Multiset (ReorderBudgetToken P)) =
        holdings BudgetedAssembly.tokens l := by
    intro l
    induction l with
    | nil => rfl
    | cons x l ih => rw [List.flatMap_cons, ← Multiset.coe_add, ih, hassembly, holdings_cons]
  have hfuture : ∀ l : List ((Byte × ℕ) × ReorderBudgetToken P),
      (l.map Prod.snd : Multiset (ReorderBudgetToken P)) = holdings (fun token => {token}) l := by
    intro l
    induction l with
    | nil => rfl
    | cons x l ih =>
      rw [List.map_cons, ← Multiset.cons_coe, ih, holdings_cons, Multiset.singleton_add]
  rw [tokenList, tokens, ← Multiset.coe_add, hfragments, hfuture]
  rfl

end PeerRetained

namespace ReorderState

/-- The live tokens. -/
def live (s : ReorderState P) : Multiset (ReorderBudgetToken P) :=
  (s.loose : Multiset (ReorderBudgetToken P)) + holdings PeerRetained.tokens s.peers

/-- Every peer's tables are sound. -/
structure Tables (s : ReorderState P) : Prop where
  peers : AssocNodup s.peers
  fragments : ∀ peer, (s.retained peer).fragments.forget.Sound
  future : ∀ peer, AssocNodup (s.retained peer).future

/-- The accounts of the budget hold, and the tables are sound. -/
structure Inv (limits : ReorderBudgetLimits) (s : ReorderState P) : Prop where
  accounts : s.budget.Accounts s.live
  limits : s.budget.limits = limits
  tables : s.Tables

variable {s : ReorderState P} {limits : ReorderBudgetLimits} {peer : P}
  {token : ReorderBudgetToken P} {i : ℕ} {l : List (ReorderBudgetToken P)}

/-- The tokens of one peer and of the others. -/
theorem live_split (hs : AssocNodup s.peers) (peer : P) :
    s.live = (s.loose : Multiset _) + ((s.retained peer).tokens +
      holdings PeerRetained.tokens (assocErase peer s.peers)) := by
  rw [live, hs.holdings_split PeerRetained.tokens peer, retained]
  cases assocGet peer s.peers <;> rfl

theorem live_set (b : ReorderBudget P) (r : PeerRetained P) (loose : List (ReorderBudgetToken P)) :
    live ⟨b, assocSet peer r s.peers, loose⟩ = (loose : Multiset _) + (r.tokens +
      holdings PeerRetained.tokens (assocErase peer s.peers)) := by
  rw [live, assocSet, holdings_cons]

theorem retained_set (b : ReorderBudget P) (r : PeerRetained P)
    (loose : List (ReorderBudgetToken P)) (other : P) :
    retained ⟨b, assocSet peer r s.peers, loose⟩ other =
      if other = peer then r else s.retained other := by
  rw [retained]
  split_ifs with h
  · rw [h, assocGet_set_self]
    rfl
  · rw [assocGet_set_of_ne h]
    rfl

omit [DecidableEq P] in
theorem coe_loose (h : l[i]? = some token) :
    (l : Multiset (ReorderBudgetToken P)) = {token} + (l.eraseIdx i : List _) := by
  have hsplit := coe_map_of_getElem? id h
  rwa [List.map_id, List.map_id, ← Multiset.singleton_add] at hsplit

omit [DecidableEq P] in
theorem coe_loose_set (h : l[i]? = some token) (token' : ReorderBudgetToken P) :
    ((l.set i token' : List _) : Multiset (ReorderBudgetToken P)) =
      {token'} + (l.eraseIdx i : List _) := by
  have hsplit := coe_map_set id h token'
  rwa [List.map_id, List.map_id, ← Multiset.singleton_add] at hsplit

omit [DecidableEq P] in
theorem coe_returnedList (r : InsertResult P) :
    (returnedList r : Multiset (ReorderBudgetToken P)) = BudgetedFragments.returned r := by
  rcases r with ⟨e, p, t⟩ | ⟨_ | ⟨m, ts⟩⟩ <;> rfl

omit [DecidableEq P] in
theorem coe_toList (o : Option (ReorderBudgetToken P)) :
    (o.toList : Multiset (ReorderBudgetToken P)) = o.elim 0 fun token => {token} := by
  cases o <;> rfl

omit [DecidableEq P] in
theorem nodup_of_sound {f : BudgetedFragments P} (h : f.forget.Sound) :
    AssocNodup f.assemblies := by
  have hkeys := h.books.nodup
  rw [AssocNodup, BudgetedFragments.forget, List.map_map] at hkeys
  exact hkeys

/-- **A call takes the live tokens and leaves the live tokens.** -/
theorem step_exchanges (h : s.Tables) (action : ReorderAction P) :
    Exchanges s.budget s.live (s.step action).budget (s.step action).live := by
  cases action with simp only [step]
  | reserve peer n =>
    cases hreserve : s.budget.tryReserve peer n with
    | none => exact .refl _ _
    | some r =>
      obtain ⟨token, b'⟩ := r
      have hnew := (Exchanges.tryReserve hreserve).frame s.live
      refine hnew.of_eq (zero_add _).symm ?_
      rw [live, ← Multiset.cons_coe, ← Multiset.singleton_add, add_assoc]
      rfl
  | drop i =>
    cases hloose : s.loose[i]? with
    | none => exact .refl _ _
    | some token =>
      have hdrop := (Exchanges.drop s.budget token).frame
        ((s.loose.eraseIdx i : Multiset _) + holdings PeerRetained.tokens s.peers)
      refine hdrop.of_eq ?_ (zero_add _).symm
      rw [live, coe_loose hloose, add_assoc]
  | shrink i n =>
    cases hloose : s.loose[i]? with
    | none => exact .refl _ _
    | some token =>
      have hshrink := (Exchanges.shrink s.budget token n).frame
        ((s.loose.eraseIdx i : Multiset _) + holdings PeerRetained.tokens s.peers)
      refine hshrink.of_eq ?_ ?_
      · rw [live, coe_loose hloose, add_assoc]
      · rw [live, coe_loose_set hloose, add_assoc]
  | retain peer c sequence i =>
    cases hloose : s.loose[i]? with
    | none => exact .refl _ _
    | some token =>
      dsimp only
      have hfuture := (h.future peer).holdings_split (fun token => {token}) (c, sequence)
      have hdrop := (Exchanges.dropAll s.budget
        (assocGet (c, sequence) (s.retained peer).future).toList).frame
        ({token} + (s.loose.eraseIdx i : Multiset _) + ((s.retained peer).fragments.tokens +
          holdings (fun token => {token}) (assocErase (c, sequence) (s.retained peer).future) +
          holdings PeerRetained.tokens (assocErase peer s.peers)))
      refine hdrop.of_eq ?_ ?_
      · rw [live_split h.peers peer, coe_loose hloose, PeerRetained.tokens, hfuture, coe_toList]
        ac_rfl
      · rw [live_set, PeerRetained.tokens, assocSet, holdings_cons, zero_add]
        ac_rfl
  | takeFuture peer c sequence =>
    have hfuture := (h.future peer).holdings_split (fun token => {token}) (c, sequence)
    refine (Exchanges.refl s.budget s.live).of_eq rfl ?_
    rw [live_set, live_split h.peers peer, PeerRetained.tokens, PeerRetained.tokens, hfuture,
      ← Multiset.coe_add, coe_toList]
    ac_rfl
  | insert peer c f payload i buffered =>
    cases hloose : s.loose[i]? with
    | none => exact .refl _ _
    | some token =>
      dsimp only
      have hinsert := (BudgetedFragments.insert_exchanges (nodup_of_sound (h.fragments peer)) c f
        payload token s.budget peer buffered).frame ((s.loose.eraseIdx i : Multiset _) +
          (holdings (fun token => {token}) (s.retained peer).future +
            holdings PeerRetained.tokens (assocErase peer s.peers)))
      refine hinsert.of_eq ?_ ?_
      · rw [live_split h.peers peer, coe_loose hloose, PeerRetained.tokens]
        ac_rfl
      · rw [live_set, PeerRetained.tokens, ← Multiset.coe_add, coe_returnedList]
        ac_rfl
  | takeCompletion peer c f =>
    have htake := BudgetedFragments.takeCompletionBudget_tokens
      (nodup_of_sound (h.fragments peer)) c f
    refine (Exchanges.refl s.budget s.live).of_eq rfl ?_
    rw [live_set, live_split h.peers peer, PeerRetained.tokens, PeerRetained.tokens, htake,
      ← Multiset.coe_add, coe_toList]
    ac_rfl
  | clear peer =>
    have hdrop := (Exchanges.dropAll s.budget (s.retained peer).tokenList).frame
      ((s.loose : Multiset _) + holdings PeerRetained.tokens (assocErase peer s.peers))
    refine hdrop.of_eq ?_ (zero_add _).symm
    rw [live_split h.peers peer, PeerRetained.coe_tokenList]
    ac_rfl

/-- Another record for one peer. -/
theorem Tables.set (h : s.Tables) {fragments : BudgetedFragments P}
    {future : List ((Byte × ℕ) × ReorderBudgetToken P)} (hfragments : fragments.forget.Sound)
    (hfuture : AssocNodup future) (b : ReorderBudget P) (loose : List (ReorderBudgetToken P)) :
    Tables ⟨b, assocSet peer ⟨fragments, future⟩ s.peers, loose⟩ where
  peers := h.peers.put peer (some ⟨fragments, future⟩)
  fragments := by
    intro other
    rw [retained_set]
    split_ifs
    · exact hfragments
    · exact h.fragments other
  future := by
    intro other
    rw [retained_set]
    split_ifs
    · exact hfuture
    · exact h.future other

/-- **A call** keeps the tables sound. -/
theorem Tables.step (h : s.Tables) (action : ReorderAction P) : (s.step action).Tables := by
  have hsame : ∀ b loose, Tables (⟨b, s.peers, loose⟩ : ReorderState P) :=
    fun b loose => ⟨h.peers, h.fragments, h.future⟩
  cases action with
  | reserve peer n =>
    simp only [ReorderState.step]
    cases s.budget.tryReserve peer n with
    | none => exact h
    | some r => exact hsame _ _
  | drop i | shrink i =>
    simp only [ReorderState.step]
    cases s.loose[i]? with
    | none => exact h
    | some token => exact hsame _ _
  | retain peer c sequence i =>
    simp only [ReorderState.step]
    cases s.loose[i]? with
    | none => exact h
    | some token =>
      exact h.set (h.fragments peer) ((h.future peer).put (c, sequence) (some token)) _ _
  | takeFuture peer c sequence =>
    exact h.set (h.fragments peer) ((h.future peer).erase (c, sequence)) _ _
  | insert peer c f payload i buffered =>
    simp only [ReorderState.step]
    cases s.loose[i]? with
    | none => exact h
    | some token =>
      obtain ⟨answers, -, hstate⟩ :=
        (s.retained peer).fragments.insert_forget c f payload token s.budget peer buffered
      refine h.set ?_ (h.future peer) _ _
      rw [← hstate]
      exact (h.fragments peer).insert c f payload answers _
  | takeCompletion peer c f =>
    refine h.set ?_ (h.future peer) _ _
    have hforget := (s.retained peer).fragments.takeCompletionBudget_forget c f
    have hsound := (h.fragments peer).takeCompletionBudget c f
    rw [hforget] at hsound
    exact hsound
  | clear peer =>
    have hget : ∀ other, (s.step (.clear peer)).retained other =
        if other = peer then .empty else s.retained other := by
      intro other
      show (assocGet other (assocErase peer s.peers)).getD .empty = _
      split_ifs with heq
      · rw [heq, assocGet_erase_self]
        rfl
      · rw [assocGet_erase_of_ne heq]
        rfl
    refine ⟨h.peers.erase peer, ?_, ?_⟩
    · intro other
      rw [hget]
      split_ifs
      · exact .empty
      · exact h.fragments other
    · intro other
      rw [hget]
      split_ifs
      · exact .nil
      · exact h.future other

/-- **The invariant** holds in every reachable state. -/
theorem Reachable.inv (h : Reachable limits s) : Inv limits s := by
  induction h with
  | init => exact ⟨.init limits, rfl, .nil, fun _ => .empty, fun _ => .nil⟩
  | @step s _ action ih =>
    have hstep := step_exchanges ih.tables action
    refine ⟨?_, hstep.limits.trans ih.limits, ih.tables.step action⟩
    have haccounts := hstep.accounts 0
    rw [add_zero, add_zero] at haccounts
    exact haccounts ih.accounts

end ReorderState

/-! ### What the accounts say -/

open ReorderState in
/-- **Conservation.** After any calls of any peers, the totals are the sums over the live tokens,
and the usage of a peer the sums over its live tokens; nothing exceeds its limit, no release has
gone below zero, a reservation that fails changes nothing, and a peer without tokens uses
nothing. -/
theorem reorder_budget_conserved {limits : ReorderBudgetLimits} {s : ReorderState P}
    (h : Reachable limits s) :
    let b := s.budget
    (b.usage.retainedPackets = s.live.card ∧
      b.usage.retainedBytes = (s.live.map fun token => token.chargedBytes).sum) ∧
    (∀ peer, (b.peers peer).retainedPackets = (s.live.filter fun token => token.peer = peer).card ∧
      (b.peers peer).retainedBytes =
        ((s.live.filter fun token => token.peer = peer).map fun token => token.chargedBytes).sum) ∧
    (b.usage.retainedPackets ≤ limits.packets ∧ b.usage.retainedBytes ≤ limits.bytes ∧
      ∀ peer, (b.peers peer).retainedPackets ≤ limits.peerPackets ∧
        (b.peers peer).retainedBytes ≤ limits.peerBytes) ∧
    b.asserted = true ∧
    (∀ peer n, b.tryReserve peer n = none → s.step (.reserve peer n) = s) ∧
    ∀ peer, (∀ token ∈ s.live, token.peer ≠ peer) → b.peers peer = ⟨0, 0⟩ := by
  have hinv := h.inv
  have hbalanced := hinv.accounts.balanced
  have hbounded := hinv.accounts.bounded
  rw [hinv.limits] at hbounded
  refine ⟨⟨?_, hbalanced .bytes⟩, ?_, ⟨hbounded .packets, hbounded .bytes, ?_⟩,
    hinv.accounts.asserted, ?_, ?_⟩
  · have hpackets := hbalanced .packets
    simpa [charge, counts] using hpackets
  · intro peer
    have hpackets := hbalanced (.peerPackets peer)
    have hbytes := hbalanced (.peerBytes peer)
    simp only [counts, charge, sum_map_ite] at hpackets hbytes
    refine ⟨?_, hbytes⟩
    rw [hpackets, Multiset.map_const', Multiset.sum_replicate]
    exact Nat.mul_one _
  · intro peer
    exact ⟨hbounded (.peerPackets peer), hbounded (.peerBytes peer)⟩
  · intro peer n hnone
    rw [ReorderState.step, hnone]
  · intro peer hgone
    have hzero : ∀ k, (∀ token ∈ s.live, charge token k = 0) → s.budget.counts k = 0 :=
      fun k hk => hbalanced.eq_zero hk
    have hpackets := hzero (.peerPackets peer) fun token ht => if_neg (hgone token ht)
    have hbytes := hzero (.peerBytes peer) fun token ht => if_neg (hgone token ht)
    simp only [counts] at hpackets hbytes
    cases hused : s.budget.peers peer with
    | mk packets bytes =>
      rw [hused] at hpackets hbytes
      exact congrArg₂ PeerReorderUsage.mk hpackets hbytes

open ReorderState in
/-- Of two peers, the first one gets a message of two parts, the second of which takes the token
that the first one reserved for it; the second peer drops its token. -/
theorem reorder_budget_conserved_two :
    ∃ s : ReorderState ℕ, Reachable .default s ∧ s.budget.usage.retainedPackets = 2 ∧
      s.budget.peers 2 = ⟨0, 0⟩ := by
  have hinit : Reachable .default (ReorderState.init .default : ReorderState ℕ) := .init
  have hopened := (hinit.step (.reserve 1 3)).step (.insert 1 2 ⟨7, 0, 2⟩ [1, 2, 3] 0 [])
  have htaken := (hopened.step (.reserve 2 20)).step (.takeCompletion 1 2 ⟨7, 1, 2⟩)
  have hcompleted := htaken.step (.insert 1 2 ⟨7, 1, 2⟩ [4] 0 [])
  have hdropped := hcompleted.step (.drop 2)
  obtain ⟨⟨hpackets, -⟩, -, -, -, -, hgone⟩ := reorder_budget_conserved hdropped
  exact ⟨_, hdropped, hpackets.trans (by decide +kernel), hgone 2 (by decide +kernel)⟩

end BasisRust.Transport
