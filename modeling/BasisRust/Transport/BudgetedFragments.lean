import BasisRust.Transport.FragmentInvariant
import BasisRust.Transport.ReorderBudget

/-!
# The reassembly and its budget tokens

`BudgetedFragments` is the reassembly state with the tokens it holds: an assembly has a token for
its own memory, one for every part it stores, and tokens put aside for parts that are still to come.

`forget` leaves the tokens out and arrives at `IncomingFragmentState`; `insert_forget` says that a
call is one of the calls there, with the answers the budget gave, and `insert_exchanges` where the
tokens go.
-/

namespace BasisRust.Transport

open Library ReorderBudget

variable {P : Type} [DecidableEq P]

/-! ### State -/

/-- The size of an `Option<Bytes>`. -/
def optionBytesSize : ℕ := 32

structure BudgetedAssembly (P : Type) where
  total : ℕ
  parts : List (Option Bytes)
  received : ℕ
  bytes : ℕ
  reservedBytes : ℕ
  fragmentSize : Option ℕ
  metadataBudget : ReorderBudgetToken P
  budgets : List (ReorderBudgetToken P)
  completionBudgets : List (Option (ReorderBudgetToken P))

/-- `asserted` is history: whether no subtraction has gone below zero. -/
structure BudgetedFragments (P : Type) where
  assemblies : List ((Byte × ℕ) × BudgetedAssembly P)
  bytes : ℕ
  reservedBytes : ℕ
  asserted : Bool

def BudgetedFragments.empty : BudgetedFragments P := ⟨[], 0, 0, true⟩

/-- A refused fragment comes back with its token. -/
abbrev InsertResult (P : Type) :=
  Except (FragmentInsertError × Bytes × ReorderBudgetToken P)
    (Option (Bytes × List (ReorderBudgetToken P)))

namespace BudgetedFragments

/-! ### Operations -/

/-- Take the token put aside for a part, if there is one. -/
def takeCompletionBudget (s : BudgetedFragments P) (channelId : Byte)
    (fragment : ReliableFragment) : Option (ReorderBudgetToken P) × BudgetedFragments P :=
  match assocGet (channelId, fragment.id) s.assemblies with
  | none => (none, s)
  | some assembly =>
    match assembly.completionBudgets.getD fragment.part none with
    | none => (none, s)
    | some token =>
      (some token, { s with
        assemblies := assocSet (channelId, fragment.id)
          { assembly with
            completionBudgets := assembly.completionBudgets.set fragment.part none }
          s.assemblies })

/-- Find the assembly of a fragment or open one.  What was reserved for an assembly that is not
opened after all is dropped. -/
def openAssembly (s : BudgetedFragments P) (channelId : Byte) (fragment : ReliableFragment)
    (payload : Bytes) (reorder : ReorderBudget P) (peer : P) (alreadyBuffered : List Bool) :
    Except FragmentInsertError (BudgetedFragments P × BudgetedAssembly P) × ReorderBudget P :=
  match assocGet (channelId, fragment.id) s.assemblies with
  | some assembly => (.ok (s, assembly), reorder)
  | none =>
    if s.assemblies.length ≥ maxIncomingFragmentAssemblies then (.error .limit, reorder)
    else
      let finalPart := decide (fragment.part + 1 = fragment.total)
      let minimumMessageBytes := if finalPart then 1 else (fragment.total - 1) * payload.length + 1
      if minimumMessageBytes > maxIncomingFragmentBytesPerPeer then (.error .invalid, reorder)
      else
        let reservedBytes :=
          if finalPart then maxIncomingFragmentBytesPerPeer
          else min (fragment.total * payload.length) maxIncomingFragmentBytesPerPeer
        if s.reservedBytes + reservedBytes > maxIncomingFragmentBytesPerPeer then
          (.error .limit, reorder)
        else
          match reorder.tryReserve peer (optionBytesSize * fragment.total) with
          | none => (.error .budget, reorder)
          | some (metadataBudget, reorder) =>
            let reservedPartBytes := if finalPart then maxFragmentPayload else payload.length
            let wanted := (List.range fragment.total).map fun i =>
              !(decide (i = fragment.part) || alreadyBuffered.getD i false)
            let completion := reorder.reserveSlots peer reservedPartBytes wanted
            if !completion.1 then
              (.error .budget,
                (completion.2.2.dropAll completion.2.1.reduceOption).drop metadataBudget)
            else
              let assembly : BudgetedAssembly P :=
                { total := fragment.total
                  parts := List.replicate fragment.total none
                  received := 0
                  bytes := 0
                  reservedBytes := reservedBytes
                  fragmentSize := none
                  metadataBudget := metadataBudget
                  budgets := []
                  completionBudgets := completion.2.1 }
              (.ok ({ s with
                assemblies := assocSet (channelId, fragment.id) assembly s.assemblies
                reservedBytes := s.reservedBytes + reservedBytes }, assembly), completion.2.2)

/-- The size rule.  The first full part fixes the size, and every token that is put aside shrinks to
it. -/
def checkPartSize (reorder : ReorderBudget P) (assembly : BudgetedAssembly P)
    (fragment : ReliableFragment) (payload : Bytes) :
    Option (BudgetedAssembly P × ReorderBudget P) :=
  if fragment.part + 1 ≠ fragment.total then
    match assembly.fragmentSize with
    | some size => if size ≠ payload.length then none else some (assembly, reorder)
    | none =>
      if assembly.parts.zipIdx.any (fun x => decide (x.2 + 1 ≠ fragment.total) &&
            x.1.any fun p => decide (p.length ≠ payload.length)) ||
          (assembly.parts.getLast?.join.any fun p => decide (p.length > payload.length)) then none
      else if (assembly.total - 1) * payload.length + 1 > maxIncomingFragmentBytesPerPeer then none
      else
        let shrunk := reorder.shrinkAll payload.length assembly.completionBudgets
        some ({ assembly with
          reservedBytes := min (assembly.total * payload.length) maxIncomingFragmentBytesPerPeer
          fragmentSize := some payload.length
          completionBudgets := shrunk.1 }, shrunk.2)
  else if assembly.fragmentSize.any fun size => decide (payload.length > size) then none
  else some (assembly, reorder)

/-- The token that is kept for a part: the one put aside for it if there is one, else the
caller's. -/
def keepToken (reorder : ReorderBudget P) (reservation : Option (ReorderBudgetToken P))
    (payload : Bytes) (budget : ReorderBudgetToken P) :
    ReorderBudgetToken P × ReorderBudget P :=
  match reservation with
  | some reservation => (reorder.drop budget).shrinkToPayloadBytes reservation payload.length
  | none => (budget, reorder)

/-- Put a part into its assembly, and take the assembly out when it is complete. -/
def insertPart (s : BudgetedFragments P) (channelId : Byte) (fragment : ReliableFragment)
    (payload : Bytes) (budget : ReorderBudgetToken P) (reorder : ReorderBudget P)
    (assembly : BudgetedAssembly P) : InsertResult P × BudgetedFragments P × ReorderBudget P :=
  let key := (channelId, fragment.id)
  if assembly.total ≠ fragment.total then (.error (.invalid, payload, budget), s, reorder)
  else
    match assembly.parts.getD fragment.part none with
    | some existing =>
      if existing ≠ payload then (.error (.invalid, payload, budget), s, reorder)
      else (.ok none, s, reorder.drop budget)
    | none =>
      match checkPartSize reorder assembly fragment payload with
      | none => (.error (.invalid, payload, budget), s, reorder)
      | some (sized, reorder) =>
        let reservedBytes := s.reservedBytes - (assembly.reservedBytes - sized.reservedBytes)
        let asserted := s.asserted && (decide (sized.reservedBytes ≤ assembly.reservedBytes) &&
          decide (assembly.reservedBytes - sized.reservedBytes ≤ s.reservedBytes))
        if sized.bytes + payload.length > maxIncomingFragmentBytesPerPeer then
          (.error (.invalid, payload, budget), { s with
            assemblies := assocSet key sized s.assemblies
            reservedBytes := reservedBytes
            asserted := asserted }, reorder)
        else
          let kept := keepToken reorder (sized.completionBudgets.getD fragment.part none) payload
            budget
          let filled := { sized with
            bytes := sized.bytes + payload.length
            received := sized.received + 1
            parts := sized.parts.set fragment.part (some payload)
            budgets := sized.budgets ++ [kept.1]
            completionBudgets := sized.completionBudgets.set fragment.part none }
          if filled.received ≠ filled.total then
            (.ok none, { s with
              assemblies := assocSet key filled s.assemblies
              bytes := s.bytes + payload.length
              reservedBytes := reservedBytes
              asserted := asserted }, kept.2)
          else
            (.ok (some ((filled.parts.map fun p => p.getD []).flatten, filled.budgets)),
              { s with
                assemblies := assocErase key s.assemblies
                bytes := s.bytes + payload.length - filled.bytes
                reservedBytes := reservedBytes - filled.reservedBytes
                asserted := asserted && (decide (filled.bytes ≤ s.bytes + payload.length) &&
                  decide (filled.reservedBytes ≤ reservedBytes)) },
              (kept.2.drop filled.metadataBudget).dropAll filled.completionBudgets.reduceOption)

/-- Insert a fragment with its token. -/
def insert (s : BudgetedFragments P) (channelId : Byte) (fragment : ReliableFragment)
    (payload : Bytes) (budget : ReorderBudgetToken P) (reorder : ReorderBudget P) (peer : P)
    (alreadyBuffered : List Bool) : InsertResult P × BudgetedFragments P × ReorderBudget P :=
  if fragmentMalformed fragment payload then (.error (.invalid, payload, budget), s, reorder)
  else
    match openAssembly s channelId fragment payload reorder peer alreadyBuffered with
    | (.error e, reorder) => (.error (e, payload, budget), s, reorder)
    | (.ok (s', assembly), reorder) =>
      insertPart s' channelId fragment payload budget reorder assembly

end BudgetedFragments

/-! ### The tokens left out -/

def BudgetedAssembly.forget (a : BudgetedAssembly P) : IncomingFragmentAssembly where
  total := a.total
  parts := a.parts
  received := a.received
  bytes := a.bytes
  reservedBytes := a.reservedBytes
  fragmentSize := a.fragmentSize
  completionBudgets := a.completionBudgets.map Option.isSome

namespace BudgetedFragments

def forget (s : BudgetedFragments P) : IncomingFragmentState where
  assemblies := s.assemblies.map fun x => (x.1, x.2.forget)
  bytes := s.bytes
  reservedBytes := s.reservedBytes

/-- A result without its tokens. -/
def forgetResult : InsertResult P → Except FragmentInsertError (Option Bytes)
  | .error (e, _, _) => .error e
  | .ok none => .ok none
  | .ok (some (message, _)) => .ok (some message)

/-- A result of the reassembly without the count of tokens. -/
def messageOf : Except FragmentInsertError (Option (Bytes × ℕ)) →
    Except FragmentInsertError (Option Bytes)
  | .error e => .error e
  | .ok none => .ok none
  | .ok (some (message, _)) => .ok (some message)

variable {x : Except FragmentInsertError (Option (Bytes × ℕ))}

theorem messageOf_none (h : messageOf x = .ok none) : x = .ok none := by
  rcases x with e | ⟨_ | m⟩
  · cases h
  · rfl
  · cases h

theorem messageOf_some {message : Bytes} (h : messageOf x = .ok (some message)) :
    ∃ n, x = .ok (some (message, n)) := by
  rcases x with e | ⟨_ | m⟩
  · cases h
  · cases h
  · cases h
    exact ⟨m.2, rfl⟩

variable {s : BudgetedFragments P} {c : Byte} {f : ReliableFragment} {payload : Bytes}
  {a : BudgetedAssembly P} {b : ReorderBudget P} {peer : P}

/-- The assembly of a channel under a fragment id. -/
def get (s : BudgetedFragments P) (channelId : Byte) (id : ℕ) : Option (BudgetedAssembly P) :=
  assocGet (channelId, id) s.assemblies

omit [DecidableEq P] in
theorem forget_get (s : BudgetedFragments P) (key : Byte × ℕ) :
    assocGet key s.forget.assemblies = (assocGet key s.assemblies).map BudgetedAssembly.forget :=
  assocGet_map s.assemblies BudgetedAssembly.forget key

omit [DecidableEq P] in
theorem map_forget_erase (key : Byte × ℕ) (l : List ((Byte × ℕ) × BudgetedAssembly P)) :
    (assocErase key l).map (fun x => (x.1, x.2.forget)) =
      assocErase key (l.map fun x => (x.1, x.2.forget)) := by
  simp only [assocErase, List.filter_map, Function.comp_def]

omit [DecidableEq P] in
theorem map_forget_set (key : Byte × ℕ) (a : BudgetedAssembly P)
    (l : List ((Byte × ℕ) × BudgetedAssembly P)) :
    (assocSet key a l).map (fun x => (x.1, x.2.forget)) =
      assocSet key a.forget (l.map fun x => (x.1, x.2.forget)) := by
  rw [assocSet, assocSet, List.map_cons, map_forget_erase]

omit [DecidableEq P] in
theorem isSome_getD (slots : List (Option (ReorderBudgetToken P))) (i : ℕ) :
    (slots.map Option.isSome).getD i false = (slots.getD i none).isSome := by
  rw [List.getD_eq_getElem?_getD, List.getD_eq_getElem?_getD, List.getElem?_map]
  cases slots[i]? <;> rfl

omit [DecidableEq P] in
/-- **Taking a token** without the tokens. -/
theorem takeCompletionBudget_forget (s : BudgetedFragments P) (c : Byte) (f : ReliableFragment) :
    s.forget.takeCompletionBudget c f =
      ((s.takeCompletionBudget c f).1.isSome, (s.takeCompletionBudget c f).2.forget) := by
  simp only [IncomingFragmentState.takeCompletionBudget, takeCompletionBudget, forget_get]
  cases assocGet (c, f.id) s.assemblies with
  | none => rfl
  | some a =>
    have hslot : a.forget.completionBudgets.getD f.part false =
        (a.completionBudgets.getD f.part none).isSome := isSome_getD a.completionBudgets f.part
    simp only [Option.map_some, hslot]
    cases a.completionBudgets.getD f.part none with
    | none => rfl
    | some token =>
      simp only [Option.isSome_some, if_true, forget, map_forget_set]
      simp only [BudgetedAssembly.forget, List.map_set, Option.isSome_none]

/-- **Opening an assembly** without the tokens, with the answers of the budget. -/
theorem openAssembly_forget (s : BudgetedFragments P) (c : Byte) (f : ReliableFragment)
    (payload : Bytes) (b : ReorderBudget P) (peer : P) (buffered : List Bool) :
    ∃ answers, s.forget.openAssembly c f payload answers (fun i => buffered.getD i false) =
      (s.openAssembly c f payload b peer buffered).1.map fun x => (x.1.forget, x.2.forget) := by
  simp only [IncomingFragmentState.openAssembly, openAssembly, forget_get]
  cases assocGet (c, f.id) s.assemblies with
  | some a => exact ⟨⟨true, fun _ => true⟩, rfl⟩
  | none =>
    have hlength : s.forget.assemblies.length = s.assemblies.length := List.length_map _
    have hreserved : s.forget.reservedBytes = s.reservedBytes := rfl
    simp only [Option.map_none, hlength, hreserved]
    generalize (if decide (f.part + 1 = f.total) = true then 1 else _) = minimum
    generalize (if decide (_ + 1 = _) = true then maxIncomingFragmentBytesPerPeer else _) = reserved
    generalize (if decide (_ + 1 = _) = true then maxFragmentPayload else _) = partBytes
    by_cases hmany : s.assemblies.length ≥ maxIncomingFragmentAssemblies
    · exact ⟨⟨true, fun _ => true⟩, by rw [if_pos hmany, if_pos hmany]; rfl⟩
    by_cases hlarge : minimum > maxIncomingFragmentBytesPerPeer
    · refine ⟨⟨true, fun _ => true⟩, ?_⟩
      rw [if_neg hmany, if_neg hmany, if_pos hlarge, if_pos hlarge]
      rfl
    by_cases hreserve : s.reservedBytes + reserved > maxIncomingFragmentBytesPerPeer
    · refine ⟨⟨true, fun _ => true⟩, ?_⟩
      rw [if_neg hmany, if_neg hmany, if_neg hlarge, if_neg hlarge, if_pos hreserve,
        if_pos hreserve]
      rfl
    simp only [if_neg hmany, if_neg hlarge, if_neg hreserve]
    cases hmeta : b.tryReserve peer (optionBytesSize * f.total) with
    | none => exact ⟨⟨false, fun _ => false⟩, rfl⟩
    | some r =>
      dsimp only
      generalize hwanted : (List.range f.total).map (fun i =>
        !(decide (i = f.part) || buffered.getD i false)) = wanted
      refine ⟨⟨true, fun _ => (r.2.reserveSlots peer partBytes wanted).1⟩, ?_⟩
      dsimp only
      cases hfilled : (r.2.reserveSlots peer partBytes wanted).1 with
      | false =>
        -- some slot that wants a token has none
        have hmem := reserveSlots_wanted r.2 hfilled
        rw [← hwanted, List.mem_map] at hmem
        obtain ⟨i, hi, hneed⟩ := hmem
        have hall : ((List.range f.total).all fun i =>
            decide (i = f.part) || buffered.getD i false || false) = false := by
          rw [List.all_eq_false]
          refine ⟨i, hi, ?_⟩
          rw [Bool.or_false, Bool.not_eq_true]
          exact (Bool.not_eq_true' _).mp hneed
        rw [hall]
        rfl
      | true =>
        have hall : ((List.range f.total).all fun i =>
            decide (i = f.part) || buffered.getD i false || true) = true := by
          rw [List.all_eq_true]
          exact fun i _ => Bool.or_true _
        have hslots := reserveSlots_isSome r.2 hfilled
        rw [hall]
        simp only [Bool.not_true, Bool.false_eq_true, if_false, Except.map, forget, map_forget_set]
        simp only [BudgetedAssembly.forget, hslots]

/-- **The size rule** without the tokens. -/
theorem checkPartSize_forget (b : ReorderBudget P) (a : BudgetedAssembly P) (f : ReliableFragment)
    (payload : Bytes) : IncomingFragmentState.checkPartSize a.forget f payload =
      (checkPartSize b a f payload).map fun x => x.1.forget := by
  have hsize : a.forget.fragmentSize = a.fragmentSize := rfl
  have hparts : a.forget.parts = a.parts := rfl
  have htotal : a.forget.total = a.total := rfl
  simp only [IncomingFragmentState.checkPartSize, checkPartSize, hsize, hparts, htotal]
  by_cases hfull : f.part + 1 ≠ f.total
  · simp only [if_pos hfull]
    cases a.fragmentSize with
    | some size =>
      dsimp only
      split_ifs <;> rfl
    | none =>
      dsimp only
      generalize (a.parts.zipIdx.any (fun x => decide (x.2 + 1 ≠ f.total) &&
        x.1.any fun p => decide (p.length ≠ payload.length)) ||
        a.parts.getLast?.join.any fun p => decide (p.length > payload.length)) = other
      split_ifs
      · rfl
      · rfl
      · simp only [Option.map_some, BudgetedAssembly.forget, shrinkAll_isSome]
  · simp only [if_neg hfull]
    split_ifs <;> rfl

/-- **Inserting a part** without the tokens. -/
theorem insertPart_forget (s : BudgetedFragments P) (c : Byte) (f : ReliableFragment)
    (payload : Bytes) (budget : ReorderBudgetToken P) (b : ReorderBudget P)
    (a : BudgetedAssembly P) :
    messageOf (s.forget.insertPart c f payload a.forget).1 =
        forgetResult (s.insertPart c f payload budget b a).1 ∧
      (s.forget.insertPart c f payload a.forget).2 =
        (s.insertPart c f payload budget b a).2.1.forget := by
  simp only [IncomingFragmentState.insertPart, insertPart, checkPartSize_forget b]
  rw [show a.forget.total = a.total from rfl, show a.forget.parts = a.parts from rfl]
  split_ifs with htotal
  · exact ⟨rfl, rfl⟩
  cases a.parts.getD f.part none with
  | some existing =>
    dsimp only
    split_ifs <;> exact ⟨rfl, rfl⟩
  | none =>
    cases checkPartSize b a f payload with
    | none => exact ⟨rfl, rfl⟩
    | some r =>
      obtain ⟨sized, b'⟩ := r
      simp only [Option.map_some]
      rw [show sized.forget.bytes = sized.bytes from rfl,
        show sized.forget.received = sized.received from rfl,
        show sized.forget.total = sized.total from rfl]
      split_ifs
      · refine ⟨rfl, ?_⟩
        simp only [forget, map_forget_set]
        rfl
      · refine ⟨rfl, ?_⟩
        simp only [forget, map_forget_set]
        simp only [BudgetedAssembly.forget, List.map_set, Option.isSome_none]
      · refine ⟨rfl, ?_⟩
        simp only [forget, map_forget_erase]
        rfl

/-- **Inserting a fragment** without the tokens, with the answers of the budget. -/
theorem insert_forget (s : BudgetedFragments P) (c : Byte) (f : ReliableFragment)
    (payload : Bytes) (budget : ReorderBudgetToken P) (b : ReorderBudget P) (peer : P)
    (buffered : List Bool) :
    ∃ answers, let r := s.forget.insert c f payload answers (fun i => buffered.getD i false)
      messageOf r.1 = forgetResult (s.insert c f payload budget b peer buffered).1 ∧
        r.2 = (s.insert c f payload budget b peer buffered).2.1.forget := by
  obtain ⟨answers, hopen⟩ := s.openAssembly_forget c f payload b peer buffered
  refine ⟨answers, ?_⟩
  simp only [IncomingFragmentState.insert, insert, hopen]
  split_ifs
  · exact ⟨rfl, rfl⟩
  · cases hr : s.openAssembly c f payload b peer buffered with
    | mk result b' =>
      cases result with
      | error e => exact ⟨rfl, rfl⟩
      | ok x => exact insertPart_forget x.1 c f payload budget b' x.2

end BudgetedFragments

/-! ### Where the tokens go -/

/-- The tokens an assembly holds. -/
def BudgetedAssembly.tokens (a : BudgetedAssembly P) : Multiset (ReorderBudgetToken P) :=
  {a.metadataBudget} + (a.budgets : Multiset (ReorderBudgetToken P)) + tokensOf a.completionBudgets

namespace BudgetedFragments

/-- The tokens all assemblies hold. -/
def tokens (s : BudgetedFragments P) : Multiset (ReorderBudgetToken P) :=
  holdings BudgetedAssembly.tokens s.assemblies

/-- The tokens a call gives back to its caller. -/
def returned : InsertResult P → Multiset (ReorderBudgetToken P)
  | .error (_, _, budget) => {budget}
  | .ok none => 0
  | .ok (some (_, budgets)) => budgets

variable {s : BudgetedFragments P} {c : Byte} {f : ReliableFragment} {payload : Bytes}
  {a : BudgetedAssembly P} {b b' : ReorderBudget P} {peer : P} {budget : ReorderBudgetToken P}

omit [DecidableEq P] in
theorem tokens_get (hs : AssocNodup s.assemblies) (h : assocGet (c, f.id) s.assemblies = some a) :
    s.tokens = a.tokens + holdings BudgetedAssembly.tokens (assocErase (c, f.id) s.assemblies) := by
  rw [tokens, hs.holdings_split BudgetedAssembly.tokens (c, f.id), h]
  rfl

omit [DecidableEq P] in
theorem tokensOf_getD (slots : List (Option (ReorderBudgetToken P))) (i : ℕ) :
    tokensOf slots = (slots.getD i none).elim 0 (fun token => {token}) +
      tokensOf (slots.set i none) := by
  rw [List.getD_eq_getElem?_getD]
  cases h : slots[i]? with
  | none =>
    rw [List.set_eq_of_length_le (List.getElem?_eq_none_iff.mp h)]
    exact (zero_add _).symm
  | some slot =>
    cases slot with
    | none =>
      have hset : slots.set i none = slots := by
        obtain ⟨hi, hval⟩ := List.getElem?_eq_some_iff.mp h
        rw [← hval, List.set_getElem_self]
      rw [hset]
      exact (zero_add _).symm
    | some token => exact tokensOf_take h

omit [DecidableEq P] in
/-- Taking a token hands it to the caller. -/
theorem takeCompletionBudget_tokens (hs : AssocNodup s.assemblies) (c : Byte)
    (f : ReliableFragment) :
    s.tokens = (s.takeCompletionBudget c f).1.elim 0 (fun token => {token}) +
      (s.takeCompletionBudget c f).2.tokens := by
  simp only [takeCompletionBudget]
  cases h : assocGet (c, f.id) s.assemblies with
  | none => exact (zero_add _).symm
  | some a =>
    dsimp only
    have hslot := tokensOf_getD a.completionBudgets f.part
    cases htoken : a.completionBudgets.getD f.part none with
    | none => exact (zero_add _).symm
    | some token =>
      rw [htoken] at hslot
      rw [tokens_get hs h, BudgetedAssembly.tokens, hslot, tokens, assocSet, holdings_cons,
        BudgetedAssembly.tokens]
      simp only [Option.elim_some]
      ac_rfl

/-- Shrinking when the size is fixed. -/
theorem checkPartSize_exchanges {sized : BudgetedAssembly P}
    (h : checkPartSize b a f payload = some (sized, b')) :
    Exchanges b a.tokens b' sized.tokens := by
  have hsame : (a, b) = (sized, b') → Exchanges b a.tokens b' sized.tokens := by
    intro heq
    cases heq
    exact .refl b _
  rw [checkPartSize] at h
  by_cases hfull : f.part + 1 ≠ f.total
  · rw [if_pos hfull] at h
    cases hsize : a.fragmentSize with
    | some size =>
      rw [hsize] at h
      dsimp only at h
      split_ifs at h
      exact hsame (Option.some.inj h)
    | none =>
      rw [hsize] at h
      dsimp only at h
      split_ifs at h
      cases h
      have hshrunk := (Exchanges.shrinkAll b payload.length a.completionBudgets).frame
        ({a.metadataBudget} + (a.budgets : Multiset (ReorderBudgetToken P)))
      exact hshrunk.of_eq (add_comm _ _) (add_comm _ _)
  · rw [if_neg hfull] at h
    split_ifs at h
    exact hsame (Option.some.inj h)

/-- Keeping one of two tokens. -/
theorem keepToken_exchanges (b : ReorderBudget P) (reservation : Option (ReorderBudgetToken P))
    (payload : Bytes) (budget : ReorderBudgetToken P) :
    Exchanges b (reservation.elim 0 (fun token => {token}) + {budget})
      (keepToken b reservation payload budget).2 {(keepToken b reservation payload budget).1} := by
  cases reservation with
  | none => exact (Exchanges.refl b {budget}).of_eq (zero_add _) rfl
  | some token =>
    have hdrop := (Exchanges.drop b budget).frame {token}
    rw [zero_add] at hdrop
    exact (hdrop.trans (.shrink _ token payload.length)).of_eq (add_comm _ _) rfl

theorem insertPart_exchanges (hs : AssocNodup s.assemblies)
    (hget : assocGet (c, f.id) s.assemblies = some a) (payload : Bytes)
    (budget : ReorderBudgetToken P) (b : ReorderBudget P) :
    Exchanges b (s.tokens + {budget}) (s.insertPart c f payload budget b a).2.2
      ((s.insertPart c f payload budget b a).2.1.tokens +
        returned (s.insertPart c f payload budget b a).1) := by
  simp only [insertPart]
  split_ifs with htotal
  · exact .refl b _
  cases a.parts.getD f.part none with
  | some existing =>
    dsimp only
    split_ifs
    · exact .refl b _
    · have hdrop := (Exchanges.drop b budget).frame s.tokens
      exact hdrop.of_eq (add_comm _ _) (add_comm _ _)
  | none =>
    cases hcheck : checkPartSize b a f payload with
    | none => exact .refl b _
    | some r =>
      obtain ⟨sized, b'⟩ := r
      dsimp only
      have hsized := (checkPartSize_exchanges hcheck).frame
        (holdings BudgetedAssembly.tokens (assocErase (c, f.id) s.assemblies) + {budget})
      rw [tokens_get hs hget, add_assoc]
      generalize hrest : holdings BudgetedAssembly.tokens (assocErase (c, f.id) s.assemblies) = rest
        at hsized ⊢
      -- the part's token joins the assembly's
      generalize hkept : keepToken b' (sized.completionBudgets.getD f.part none) payload budget =
        kept
      have hkeep : Exchanges b (a.tokens + (rest + {budget})) kept.2
          ({sized.metadataBudget} +
            ((sized.budgets ++ [kept.1] : List (ReorderBudgetToken P)) :
              Multiset (ReorderBudgetToken P)) +
            tokensOf (sized.completionBudgets.set f.part none) + rest) := by
        refine hsized.trans ?_
        have hone := (keepToken_exchanges b' (sized.completionBudgets.getD f.part none) payload
          budget).frame ({sized.metadataBudget} +
            (sized.budgets : Multiset (ReorderBudgetToken P)) +
            tokensOf (sized.completionBudgets.set f.part none) + rest)
        rw [hkept] at hone
        refine hone.of_eq ?_ ?_
        · rw [BudgetedAssembly.tokens, tokensOf_getD sized.completionBudgets f.part]
          ac_rfl
        · rw [← Multiset.coe_add, Multiset.coe_singleton]
          ac_rfl
      split_ifs
      · refine hsized.of_eq rfl ?_
        rw [tokens, assocSet, holdings_cons, add_assoc, hrest]
        rfl
      · refine hkeep.of_eq rfl ?_
        rw [tokens, assocSet, holdings_cons, hrest]
        exact add_zero _
      · -- the message is complete: the assembly's own tokens are dropped
        have hmeta := (Exchanges.drop kept.2 sized.metadataBudget).frame
          (((sized.budgets ++ [kept.1] : List (ReorderBudgetToken P)) :
              Multiset (ReorderBudgetToken P)) +
            tokensOf (sized.completionBudgets.set f.part none) + rest)
        have hslots := (Exchanges.dropAll (kept.2.drop sized.metadataBudget)
          (sized.completionBudgets.set f.part none).reduceOption).frame
          (rest + ((sized.budgets ++ [kept.1] : List (ReorderBudgetToken P)) :
              Multiset (ReorderBudgetToken P)))
        refine ((hkeep.trans (hmeta.of_eq ?_ rfl)).trans (hslots.of_eq ?_ rfl)).of_eq rfl ?_
        · ac_rfl
        · rw [zero_add, tokensOf]
          ac_rfl
        · rw [zero_add, ← hrest]
          rfl

/-- **The tokens of an assembly that is opened, or not.** -/
theorem openAssembly_exchanges (hs : AssocNodup s.assemblies) (c : Byte) (f : ReliableFragment)
    (payload : Bytes) (b : ReorderBudget P) (peer : P) (buffered : List Bool) :
    match s.openAssembly c f payload b peer buffered with
    | (.error _, b') => Exchanges b 0 b' 0
    | (.ok (s', a), b') => Exchanges b s.tokens b' s'.tokens ∧ AssocNodup s'.assemblies ∧
        assocGet (c, f.id) s'.assemblies = some a := by
  simp only [openAssembly]
  cases hget : assocGet (c, f.id) s.assemblies with
  | some a => exact ⟨.refl b _, hs, hget⟩
  | none =>
    dsimp only
    generalize (if decide (f.part + 1 = f.total) = true then 1 else _) = minimum
    generalize (if decide (_ + 1 = _) = true then maxIncomingFragmentBytesPerPeer else _) = reserved
    generalize (if decide (_ + 1 = _) = true then maxFragmentPayload else _) = partBytes
    by_cases hmany : s.assemblies.length ≥ maxIncomingFragmentAssemblies
    · rw [if_pos hmany]
      exact .refl b 0
    by_cases hlarge : minimum > maxIncomingFragmentBytesPerPeer
    · rw [if_neg hmany, if_pos hlarge]
      exact .refl b 0
    by_cases hreserve : s.reservedBytes + reserved > maxIncomingFragmentBytesPerPeer
    · rw [if_neg hmany, if_neg hlarge, if_pos hreserve]
      exact .refl b 0
    rw [if_neg hmany, if_neg hlarge, if_neg hreserve]
    cases hmeta : b.tryReserve peer (optionBytesSize * f.total) with
    | none => exact .refl b 0
    | some r =>
      obtain ⟨metadata, b₁⟩ := r
      dsimp only
      generalize (List.range f.total).map (fun i =>
        !(decide (i = f.part) || buffered.getD i false)) = wanted
      have hslots := (Exchanges.reserveSlots b₁ peer partBytes wanted).frame {metadata}
      rw [zero_add] at hslots
      have hall := (Exchanges.tryReserve hmeta).trans hslots
      generalize hcompletion : b₁.reserveSlots peer partBytes wanted = completion at hall ⊢
      split_ifs with hfilled
      · have hdrop :=
          (Exchanges.dropAll completion.2.2 completion.2.1.reduceOption).frame {metadata}
        rw [zero_add] at hdrop
        exact (hall.trans hdrop).trans (.drop _ metadata)
      · refine ⟨?_, hs.put (c, f.id) (some _), assocGet_set_self _ _ _⟩
        have hopened := hall.frame s.tokens
        refine hopened.of_eq (zero_add _).symm ?_
        rw [tokens, tokens, assocSet, holdings_cons,
          hs.holdings_split BudgetedAssembly.tokens (c, f.id), hget, BudgetedAssembly.tokens]
        simp only [Option.elim_none, zero_add, Multiset.coe_nil, add_zero]
        ac_rfl

/-- **The tokens of a call.**  Those of the state and the caller's are those of the new state and
those that are given back. -/
theorem insert_exchanges (hs : AssocNodup s.assemblies) (c : Byte) (f : ReliableFragment)
    (payload : Bytes) (budget : ReorderBudgetToken P) (b : ReorderBudget P) (peer : P)
    (buffered : List Bool) :
    Exchanges b (s.tokens + {budget}) (s.insert c f payload budget b peer buffered).2.2
      ((s.insert c f payload budget b peer buffered).2.1.tokens +
        returned (s.insert c f payload budget b peer buffered).1) := by
  have hopen := openAssembly_exchanges hs c f payload b peer buffered
  simp only [insert]
  split_ifs
  · exact .refl b _
  · cases hr : s.openAssembly c f payload b peer buffered with
    | mk result b₁ =>
      rw [hr] at hopen
      cases result with
      | error e =>
        exact (hopen.frame (s.tokens + {budget})).of_eq (zero_add _).symm (zero_add _).symm
      | ok x =>
        obtain ⟨hopened, hnodup, hget⟩ := hopen
        exact (hopened.frame {budget}).trans (insertPart_exchanges hnodup hget payload budget b₁)

end BudgetedFragments

end BasisRust.Transport

