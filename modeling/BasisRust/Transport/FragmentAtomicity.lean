import BasisRust.Transport.BudgetedFragments
import Mathlib.Algebra.Order.BigOperators.Group.List

/-!
# A call of the reassembly happens or does not

`Reassembly` is a peer's reassembly under any sequence of calls, with the parts that each open
assembly has accepted, in the order in which they came.  The budget is whatever it is when a call is
made.
-/

namespace BasisRust.Transport

open Library ReorderBudget

/-! ### The parts that are there -/

/-- The parts that are there, each with its place. -/
def presentFrom (k : ℕ) (parts : List (Option Bytes)) : List (Bytes × ℕ) :=
  (parts.zipIdx k).filterMap fun x => x.1.map fun p => (p, x.2)

def presentParts (parts : List (Option Bytes)) : List (Bytes × ℕ) := presentFrom 0 parts

theorem presentFrom_some (k : ℕ) (p : Bytes) (parts : List (Option Bytes)) :
    presentFrom k (some p :: parts) = (p, k) :: presentFrom (k + 1) parts := rfl

variable {parts : List (Option Bytes)}

theorem presentFrom_set {i : ℕ} (h : parts[i]? = some none) (p : Bytes) (k : ℕ) :
    (presentFrom k parts ++ [(p, k + i)]).Perm (presentFrom k (parts.set i (some p))) := by
  induction parts generalizing i k with
  | nil => cases h
  | cons q parts ih =>
    cases i with
    | zero =>
      cases h
      exact List.perm_append_singleton _ _
    | succ i =>
      have hrest := ih (i := i) h (k + 1)
      rw [Nat.add_assoc, Nat.add_comm 1 i] at hrest
      rw [List.set_cons_succ]
      cases q with
      | none => exact hrest
      | some q => exact hrest.cons (q, k)

theorem presentFrom_empty (k n : ℕ) : presentFrom k (List.replicate n none) = [] := by
  induction n generalizing k with
  | zero => rfl
  | succ n ih => exact ih (k + 1)

theorem presentFrom_full (k : ℕ) (h : parts.countP Option.isSome = parts.length) :
    presentFrom k parts = (parts.map fun p => p.getD []).zipIdx k := by
  induction parts generalizing k with
  | nil => rfl
  | cons p parts ih =>
    have hle : parts.countP Option.isSome ≤ parts.length := List.countP_le_length
    rw [List.countP_cons, List.length_cons] at h
    cases p with
    | none =>
      simp only [Option.isSome_none, Bool.false_eq_true, if_false] at h
      omega
    | some p =>
      simp only [Option.isSome_some, if_true] at h
      rw [presentFrom_some, ih (k + 1) (by omega)]
      rfl

namespace IncomingFragmentState

variable {s : IncomingFragmentState} {c : Byte} {f : ReliableFragment} {payload : Bytes}

/-- The parts that the assembly of a key stores. -/
def storedParts (s : IncomingFragmentState) (c : Byte) (id : ℕ) : List (Bytes × ℕ) :=
  (s.get c id).elim [] fun a => presentParts a.parts

/-- A part of the assembly of a key is there. -/
def partThere (s : IncomingFragmentState) (c : Byte) (f : ReliableFragment) : Bool :=
  (s.get c f.id).any fun a => (a.parts.getD f.part none).isSome

theorem partThere_eq_false {a : IncomingFragmentAssembly} (hget : s.get c f.id = some a)
    (h : a.parts[f.part]? = some none) : s.partThere c f = false := by
  rw [partThere, hget, Option.any_some, List.getD_eq_getElem?_getD, h]
  rfl

/-- **A part that is accepted** is there already, or it is stored, or it completes the message. -/
theorem Sound.insert_ok (hs : s.Sound) {answers : ReserveAnswers} {buffered : ℕ → Bool}
    {o : Option (Bytes × ℕ)} (h : (s.insert c f payload answers buffered).1 = .ok o) :
    (o = none ∧ s.partThere c f = true ∧ (s.insert c f payload answers buffered).2 = s) ∨
    (o = none ∧ s.partThere c f = false ∧ (s.storedParts c f.id ++ [(payload, f.part)]).Perm
      ((s.insert c f payload answers buffered).2.storedParts c f.id)) ∨
    ∃ (pieces : List Bytes) (n : ℕ), o = some (pieces.flatten, n) ∧ pieces.length = f.total ∧
      (s.storedParts c f.id ++ [(payload, f.part)]).Perm pieces.zipIdx ∧
      (s.insert c f payload answers buffered).2.get c f.id = none := by
  rcases hs.insert_cases c f payload answers buffered with
    ⟨e, heq, -⟩ | ⟨s₁, a, hreceived, hpart, houtcome, hwhere⟩
  · rw [heq] at h
    cases h
  · have htotal : a.total = f.total := insertPart_total (hpart ▸ h)
    -- what was stored before, in an old assembly or in a new one
    have hold : s.storedParts c f.id = presentParts a.parts := by
      rcases hwhere with hsame | ⟨hnew, -, -, hempty⟩
      · rw [storedParts, ← hsame, hreceived.get]
        rfl
      · rw [storedParts, hnew, hempty]
        exact (presentFrom_empty 0 f.total).symm
    have habsent : a.parts[f.part]? = some none → s.partThere c f = false := by
      intro hnone
      rcases hwhere with hsame | ⟨hnew, -⟩
      · rw [hsame] at hreceived
        exact partThere_eq_false hreceived.get hnone
      · rw [partThere, hnew]
        rfl
    have hset : ∀ a' : IncomingFragmentAssembly, PartStored f payload a a' →
        (s.storedParts c f.id ++ [(payload, f.part)]).Perm (presentParts a'.parts) := by
      intro a' hstored
      have hperm := presentFrom_set hstored.absent payload 0
      rw [Nat.zero_add, ← hstored.parts] at hperm
      rw [hold]
      exact hperm
    generalize s.insert c f payload answers buffered = r at h houtcome hwhere ⊢
    cases houtcome with
    | refused hsame => cases h
    | duplicate hdup =>
      cases h
      rcases hwhere with hsame | ⟨-, -, hnone, -⟩
      · rw [hsame] at hreceived ⊢
        refine .inl ⟨rfl, ?_, rfl⟩
        rw [partThere, hreceived.get, Option.any_some, List.getD_eq_getElem?_getD, hdup]
        rfl
      · rw [hnone] at hdup
        cases hdup
    | @stored a' hstored hmore =>
      cases h
      refine .inr (.inl ⟨rfl, habsent hstored.absent, (hset a' hstored).trans (.of_eq ?_)⟩)
      rw [storedParts, get_set, if_pos ⟨rfl, rfl⟩]
      rfl
    | @complete a' hstored hfull =>
      cases h
      refine .inr (.inr ⟨_, _, rfl, ?_, ?_, ?_⟩)
      · rw [List.length_map, hstored.counted.length, hstored.total, htotal]
      · have hall : a'.parts.countP Option.isSome = a'.parts.length := by
          rw [← hstored.counted.received, hfull, hstored.counted.length]
        rw [← presentFrom_full 0 hall]
        exact hset a' hstored
      · rw [get_erase, if_pos ⟨rfl, rfl⟩]

end IncomingFragmentState

variable {P : Type} [DecidableEq P]

namespace BudgetedFragments

variable {s s₁ : BudgetedFragments P} {c : Byte} {f : ReliableFragment} {payload : Bytes}
  {a sized : BudgetedAssembly P} {b b' : ReorderBudget P} {peer : P}
  {budget : ReorderBudgetToken P}

/-! ### A part that is refused -/

/-- The size rule changes nothing, or it fixes the size. -/
theorem checkPartSize_cases (h : checkPartSize b a f payload = some (sized, b')) :
    sized.bytes = a.bytes ∧
      ((sized = a ∧ b' = b) ∨
        (a.fragmentSize = none ∧ sized.fragmentSize = some payload.length)) := by
  have hsame : (a, b) = (sized, b') → sized.bytes = a.bytes ∧ ((sized = a ∧ b' = b) ∨
      (a.fragmentSize = none ∧ sized.fragmentSize = some payload.length)) := by
    intro heq
    cases heq
    exact ⟨rfl, .inl ⟨rfl, rfl⟩⟩
  rw [checkPartSize] at h
  by_cases hfull : f.part + 1 ≠ f.total
  · rw [if_pos hfull] at h
    cases hsize : a.fragmentSize with
    | some size =>
      rw [hsize] at h
      dsimp only at h
      split_ifs at h
      rw [hsize] at hsame
      exact hsame (Option.some.inj h)
    | none =>
      rw [hsize] at h
      dsimp only at h
      split_ifs at h
      cases h
      exact ⟨rfl, .inr ⟨rfl, rfl⟩⟩
  · rw [if_neg hfull] at h
    split_ifs at h
    exact hsame (Option.some.inj h)

/-- What the size rule does to an assembly that is ready for the part. -/
theorem checkPartSize_bounds {s₀ : IncomingFragmentState}
    (hr : IncomingFragmentState.Received s₀ s.forget c f payload a.forget)
    (hwell : fragmentMalformed f payload = false) (htotal : a.total = f.total)
    (habsent : a.parts.getD f.part none = none)
    (h : checkPartSize b a f payload = some (sized, b')) :
    sized.reservedBytes ≤ a.reservedBytes ∧
      ((sized = a ∧ b' = b) ∨ sized.bytes + payload.length ≤ maxIncomingFragmentBytesPerPeer) := by
  obtain ⟨-, hpart, hpayload⟩ := IncomingFragmentState.not_malformed_bounds hwell
  have hnone : a.forget.parts[f.part]? = some none := by
    have hlt : f.part < a.parts.length := by
      rw [show a.parts.length = a.total from hr.counted.length, htotal]
      exact hpart
    rw [List.getD_eq_getElem?_getD, List.getElem?_eq_getElem hlt, Option.getD_some] at habsent
    show a.parts[f.part]? = some none
    rw [List.getElem?_eq_getElem hlt, habsent]
  have hforget := checkPartSize_forget b a f payload
  rw [h] at hforget
  obtain ⟨hbytes, hcases⟩ := checkPartSize_cases h
  rcases IncomingFragmentAssembly.checkPartSize_outcome hr.counted htotal hnone
    hr.rule hpayload with
    hcheck | ⟨reserved, size, hcheck, hle, hsame, -⟩
  · rw [hcheck] at hforget
    cases hforget
  · rw [hcheck] at hforget
    have heq := Option.some.inj hforget
    have hreserved : sized.reservedBytes = reserved :=
      (congrArg IncomingFragmentAssembly.reservedBytes heq).symm
    have hsize : sized.fragmentSize = size :=
      (congrArg IncomingFragmentAssembly.fragmentSize heq).symm
    refine ⟨hreserved.trans_le hle, ?_⟩
    rcases hcases with hunchanged | ⟨hopen, hfixed⟩
    · exact .inl hunchanged
    · refine .inr ?_
      rcases hsame with ⟨-, hsize'⟩ | hfits
      · have hsome : some payload.length = a.fragmentSize := by
          rw [← hfixed, hsize, hsize']
          rfl
        rw [hopen] at hsome
        cases hsome
      · rw [hbytes]
        exact hfits

/-- The states agree on every assembly and on the counters. -/
structure Same (s s' : BudgetedFragments P) : Prop where
  get : ∀ c id, s'.get c id = s.get c id
  bytes : s'.bytes = s.bytes
  reserved : s'.reservedBytes = s.reservedBytes

omit [DecidableEq P] in
theorem Same.refl (s : BudgetedFragments P) : Same s s := ⟨fun _ _ => rfl, rfl, rfl⟩

/-- **A part** keeps the subtractions above zero, and leaves everything as it was if it is
refused. -/
theorem insertPart_safe {s₀ : IncomingFragmentState}
    (hr : IncomingFragmentState.Received s₀ s.forget c f payload a.forget)
    (hget : s.get c f.id = some a) (hwell : fragmentMalformed f payload = false)
    (budget : ReorderBudgetToken P) (b : ReorderBudget P) :
    let x := s.insertPart c f payload budget b a
    x.2.1.asserted = s.asserted ∧
      ∀ e, x.1 = .error e → e = (.invalid, payload, budget) ∧ x.2.2 = b ∧ Same s x.2.1 := by
  simp only [insertPart]
  split_ifs with htotal
  · exact ⟨rfl, fun e he => ⟨(Except.error.inj he).symm, rfl, .refl s⟩⟩
  rw [ne_eq, not_not] at htotal
  cases habsent : a.parts.getD f.part none with
  | some existing =>
    dsimp only
    split_ifs
    · exact ⟨rfl, fun e he => ⟨(Except.error.inj he).symm, rfl, .refl s⟩⟩
    · exact ⟨rfl, fun e he => by cases he⟩
  | none =>
    cases hcheck : checkPartSize b a f payload with
    | none => exact ⟨rfl, fun e he => ⟨(Except.error.inj he).symm, rfl, .refl s⟩⟩
    | some r =>
      obtain ⟨sized, b'⟩ := r
      obtain ⟨hreserved, hsame⟩ := checkPartSize_bounds hr hwell htotal habsent hcheck
      obtain ⟨hbytes, -⟩ := checkPartSize_cases hcheck
      obtain ⟨hbytes_le, hreserved_le⟩ := hr.books.part_le hr.get
      have hbytes_le' : a.bytes ≤ s.bytes := hbytes_le
      have hreserved_le' : a.reservedBytes ≤ s.reservedBytes := hreserved_le
      have hfirst : (s.asserted && (decide (sized.reservedBytes ≤ a.reservedBytes) &&
          decide (a.reservedBytes - sized.reservedBytes ≤ s.reservedBytes))) = s.asserted := by
        rw [decide_eq_true hreserved, decide_eq_true (by omega), Bool.and_self, Bool.and_true]
      dsimp only
      split_ifs with hlarge hmore
      · rcases hsame with ⟨heq, hb⟩ | hfits
        · rw [heq] at hfirst ⊢
          refine ⟨hfirst, fun e he => ⟨(Except.error.inj he).symm, hb, ?_, rfl, ?_⟩⟩
          · intro d id
            rw [get, get]
            by_cases hkey : (d, id) = (c, f.id)
            · rw [hkey, assocGet_set_self]
              exact hget.symm
            · exact assocGet_set_of_ne hkey a s.assemblies
          · show s.reservedBytes - (a.reservedBytes - a.reservedBytes) = s.reservedBytes
            omega
        · exact absurd hfits (Nat.not_le_of_lt hlarge)
      · exact ⟨hfirst, fun e he => by cases he⟩
      · refine ⟨?_, fun e he => by cases he⟩
        rw [hfirst, hbytes, decide_eq_true (by omega), decide_eq_true (by omega), Bool.and_self,
          Bool.and_true]

/-- **Finding or opening an assembly.**  One that is not opened after all leaves the counters of the
budget as they were. -/
theorem openAssembly_cases (s : BudgetedFragments P) (c : Byte) (f : ReliableFragment)
    (payload : Bytes) (b : ReorderBudget P) (peer : P) (buffered : List Bool) :
    (∃ a, s.get c f.id = some a ∧ s.openAssembly c f payload b peer buffered = (.ok (s, a), b)) ∨
    (s.get c f.id = none ∧ ∃ e b', s.openAssembly c f payload b peer buffered = (.error e, b') ∧
      ∀ k, b'.counts k = b.counts k) ∨
    (s.get c f.id = none ∧ ∃ s₁ a b', s.openAssembly c f payload b peer buffered =
      (.ok (s₁, a), b') ∧ s₁.get c f.id = some a ∧ s₁.asserted = s.asserted) := by
  simp only [openAssembly, get]
  cases hget : assocGet (c, f.id) s.assemblies with
  | some a => exact .inl ⟨a, rfl, rfl⟩
  | none =>
    right
    dsimp only
    generalize (if decide (f.part + 1 = f.total) = true then 1 else _) = minimum
    generalize (if decide (_ + 1 = _) = true then maxIncomingFragmentBytesPerPeer else _) = reserved
    generalize (if decide (_ + 1 = _) = true then maxFragmentPayload else _) = partBytes
    split_ifs
    · exact .inl ⟨rfl, _, b, rfl, fun _ => rfl⟩
    · exact .inl ⟨rfl, _, b, rfl, fun _ => rfl⟩
    · exact .inl ⟨rfl, _, b, rfl, fun _ => rfl⟩
    · cases hmeta : b.tryReserve peer (optionBytesSize * f.total) with
      | none => exact .inl ⟨rfl, _, b, rfl, fun _ => rfl⟩
      | some r =>
        dsimp only
        split_ifs
        · exact .inl ⟨rfl, _, _, rfl, giveUp_counts hmeta _⟩
        · exact .inr ⟨rfl, _, _, _, rfl, assocGet_set_self _ _ _, rfl⟩

/-- The assembly of a call, ready for its part. -/
theorem received_of_open (hs : s.forget.Sound) (hwell : fragmentMalformed f payload = false)
    {buffered : List Bool}
    (hopen : s.openAssembly c f payload b peer buffered = (.ok (s₁, a), b')) :
    IncomingFragmentState.Received s.forget s₁.forget c f payload a.forget ∧
      (s₁.forget = s.forget ∨ (s₁.forget.insertPart c f payload a.forget).1 = .ok none) := by
  obtain ⟨answers, hforget⟩ := s.openAssembly_forget c f payload b peer buffered
  rw [hopen] at hforget
  obtain ⟨hreceived, hwhere⟩ := hs.received hwell hforget
  exact ⟨hreceived, hwhere.imp_right fun h => h.2.1⟩

/-- **A fragment that is refused** leaves every assembly, every counter and the budget as they
were, and comes back with its token; one whose assembly is open is refused as invalid only. -/
theorem insert_safe (hs : s.forget.Sound) (c : Byte) (f : ReliableFragment) (payload : Bytes)
    (budget : ReorderBudgetToken P) (b : ReorderBudget P) (peer : P) (buffered : List Bool) :
    let x := s.insert c f payload budget b peer buffered
    x.2.1.asserted = s.asserted ∧
      ∀ e p t, x.1 = .error (e, p, t) → p = payload ∧ t = budget ∧ Same s x.2.1 ∧
        (∀ k, x.2.2.counts k = b.counts k) ∧ ((s.get c f.id).isSome = true → e = .invalid) := by
  simp only [insert]
  cases hwell : fragmentMalformed f payload with
  | true =>
    refine ⟨rfl, fun e p t he => ?_⟩
    cases he
    exact ⟨rfl, rfl, .refl s, fun _ => rfl, fun _ => rfl⟩
  | false =>
    rw [if_neg (by decide)]
    rcases s.openAssembly_cases c f payload b peer buffered with
      ⟨a, hget, hopen⟩ | ⟨hget, e, b', hopen, hcounts⟩ | ⟨hget, s₁, a, b', hopen, hget₁, hasserted⟩
    · obtain ⟨hreceived, -⟩ := received_of_open hs hwell hopen
      obtain ⟨hsafe, herror⟩ := insertPart_safe hreceived hget hwell budget b
      rw [hopen]
      refine ⟨hsafe, fun e p t he => ?_⟩
      obtain ⟨heq, hb, hsame⟩ := herror _ he
      cases heq
      exact ⟨rfl, rfl, hsame, fun k => by rw [hb], fun _ => rfl⟩
    · rw [hopen]
      refine ⟨rfl, fun e p t he => ?_⟩
      cases he
      refine ⟨rfl, rfl, .refl s, hcounts, ?_⟩
      intro hsome
      rw [hget] at hsome
      cases hsome
    · -- the first part of a new assembly is never refused
      obtain ⟨hreceived, hwhere⟩ := received_of_open hs hwell hopen
      obtain ⟨hsafe, -⟩ := insertPart_safe hreceived hget₁ hwell budget b'
      rw [hopen]
      refine ⟨hsafe.trans hasserted, fun e p t he => ?_⟩
      rcases hwhere with hsame | hok
      · have hfound := hreceived.get
        rw [hsame, IncomingFragmentState.get, forget_get] at hfound
        rw [get] at hget
        rw [hget] at hfound
        cases hfound
      · have hresult := (s₁.insertPart_forget c f payload budget b' a).1
        have he' : (s₁.insertPart c f payload budget b' a).1 = .error (e, p, t) := he
        rw [hok, he'] at hresult
        cases hresult

end BudgetedFragments

/-! ### Runs -/

/-- A peer's reassembly, and as history what the open assembly of each key has accepted. -/
structure Reassembly (P : Type) where
  fragments : BudgetedFragments P
  accepted : Byte × ℕ → List (Bytes × ℕ)

namespace Reassembly

def init : Reassembly P := ⟨.empty, fun _ => []⟩

/-- What a call adds to the history. -/
def acceptedAfter (r : Reassembly P) (c : Byte) (f : ReliableFragment) (payload : Bytes) :
    InsertResult P → Byte × ℕ → List (Bytes × ℕ)
  | .error _ => r.accepted
  | .ok none =>
    if r.fragments.forget.partThere c f then r.accepted
    else Function.update r.accepted (c, f.id) (r.accepted (c, f.id) ++ [(payload, f.part)])
  | .ok (some _) => Function.update r.accepted (c, f.id) []

def insert (r : Reassembly P) (c : Byte) (f : ReliableFragment) (payload : Bytes)
    (budget : ReorderBudgetToken P) (b : ReorderBudget P) (peer : P) (buffered : List Bool) :
    Reassembly P :=
  let x := r.fragments.insert c f payload budget b peer buffered
  ⟨x.2.1, r.acceptedAfter c f payload x.1⟩

def take (r : Reassembly P) (c : Byte) (f : ReliableFragment) : Reassembly P :=
  { r with fragments := (r.fragments.takeCompletionBudget c f).2 }

/-- The states after any sequence of calls. -/
inductive Reachable : Reassembly P → Prop
  | init : Reachable init
  | insert {r : Reassembly P} (h : Reachable r) (c : Byte) (f : ReliableFragment)
      (payload : Bytes) (budget : ReorderBudgetToken P) (b : ReorderBudget P) (peer : P)
      (buffered : List Bool) : Reachable (r.insert c f payload budget b peer buffered)
  | take {r : Reassembly P} (h : Reachable r) (c : Byte) (f : ReliableFragment) :
      Reachable (r.take c f)

/-- The counters are right, and what an assembly has accepted is what it stores. -/
structure Inv (r : Reassembly P) : Prop where
  sound : r.fragments.forget.Sound
  asserted : r.fragments.asserted = true
  kept : ∀ c id, (r.accepted (c, id)).Perm (r.fragments.forget.storedParts c id)

variable {r : Reassembly P}

omit [DecidableEq P] in
theorem Inv.init : Inv (init : Reassembly P) := ⟨.empty, rfl, fun _ _ => .refl _⟩

/-- **A call** keeps the invariant. -/
theorem Inv.insert (h : Inv r) (c : Byte) (f : ReliableFragment) (payload : Bytes)
    (budget : ReorderBudgetToken P) (b : ReorderBudget P) (peer : P) (buffered : List Bool) :
    Inv (r.insert c f payload budget b peer buffered) := by
  obtain ⟨answers, hresult, hstate⟩ := r.fragments.insert_forget c f payload budget b peer buffered
  obtain ⟨hasserted, herror⟩ :=
    BudgetedFragments.insert_safe h.sound c f payload budget b peer buffered
  have hsound := h.sound.insert c f payload answers fun i => buffered.getD i false
  refine ⟨hstate ▸ hsound, hasserted.trans h.asserted, ?_⟩
  intro d id
  -- the assemblies of the other keys are not touched
  have hother : (d, id) ≠ (c, f.id) → (r.fragments.insert c f payload budget b peer
      buffered).2.1.forget.storedParts d id = r.fragments.forget.storedParts d id := by
    intro hne
    rw [← hstate, IncomingFragmentState.storedParts, IncomingFragmentState.storedParts,
      IncomingFragmentState.insert_get_of_ne]
    intro heq
    exact hne (by rw [heq.1, heq.2])
  have hkept := h.kept d id
  show (r.acceptedAfter c f payload (r.fragments.insert c f payload budget b peer buffered).1
    (d, id)).Perm ((r.fragments.insert c f payload budget b peer
      buffered).2.1.forget.storedParts d id)
  cases hx : (r.fragments.insert c f payload budget b peer buffered).1 with
  | error e =>
    obtain ⟨-, -, hsame, -⟩ := herror e.1 e.2.1 e.2.2 hx
    refine hkept.trans (.of_eq ?_)
    rw [IncomingFragmentState.storedParts, IncomingFragmentState.storedParts,
      IncomingFragmentState.get, IncomingFragmentState.get, BudgetedFragments.forget_get,
      BudgetedFragments.forget_get]
    rw [show assocGet (d, id) _ = _ from (hsame.get d id).symm]
    rfl
  | ok o =>
    rw [hx] at hresult
    cases o with
    | none =>
      have hok := BudgetedFragments.messageOf_none hresult
      rcases h.sound.insert_ok hok with
        ⟨-, hthere, hsame⟩ | ⟨-, hthere, hperm⟩ | ⟨pieces, n, heq, -⟩
      · rw [acceptedAfter, hthere, if_pos rfl, ← hstate, hsame]
        exact hkept
      · rw [acceptedAfter, hthere, if_neg (by decide)]
        by_cases hkey : (d, id) = (c, f.id)
        · cases hkey
          rw [Function.update_self, ← hstate]
          exact (hkept.append_right _).trans hperm
        · rw [Function.update_of_ne hkey, hother hkey]
          exact hkept
      · cases heq
    | some m =>
      obtain ⟨n, hok⟩ := BudgetedFragments.messageOf_some hresult
      rcases h.sound.insert_ok hok with ⟨heq, -⟩ | ⟨heq, -⟩ | ⟨pieces, n, -, -, -, hgone⟩
      · cases heq
      · cases heq
      · rw [acceptedAfter]
        by_cases hkey : (d, id) = (c, f.id)
        · cases hkey
          rw [Function.update_self, ← hstate, IncomingFragmentState.storedParts, hgone]
          exact .refl _
        · rw [Function.update_of_ne hkey, hother hkey]
          exact hkept

omit [DecidableEq P] in
/-- **Taking a token** keeps the invariant. -/
theorem Inv.take (h : Inv r) (c : Byte) (f : ReliableFragment) : Inv (r.take c f) := by
  have hforget := r.fragments.takeCompletionBudget_forget c f
  have hstate : (r.fragments.forget.takeCompletionBudget c f).2 =
      (r.take c f).fragments.forget := by
    rw [hforget]
    rfl
  refine ⟨hstate ▸ h.sound.takeCompletionBudget c f, ?_, ?_⟩
  · show (r.fragments.takeCompletionBudget c f).2.asserted = true
    rw [BudgetedFragments.takeCompletionBudget]
    split
    · exact h.asserted
    · split
      · exact h.asserted
      · exact h.asserted
  · intro d id
    refine (h.kept d id).trans (.of_eq ?_)
    rw [← hstate, IncomingFragmentState.storedParts, IncomingFragmentState.storedParts]
    rcases r.fragments.forget.takeCompletionBudget_get c d f id with heq | ⟨-, -, a, hget, heq⟩
    · rw [heq]
    · rw [heq, hget]
      rfl

theorem Reachable.inv (h : Reachable r) : Inv r := by
  induction h with
  | init => exact .init
  | insert _ c f payload budget b peer buffered ih =>
    exact ih.insert c f payload budget b peer buffered
  | take _ c f ih => exact ih.take c f

end Reassembly

omit [DecidableEq P] in
theorem assocSum_forget (w : IncomingFragmentAssembly → ℕ)
    (l : List ((Byte × ℕ) × BudgetedAssembly P)) :
    assocSum w (l.map fun x => (x.1, x.2.forget)) = (l.map fun x => w x.2.forget).sum := by
  rw [assocSum, List.map_map]
  rfl

/-- **Reassembly in any reachable state.**  The counters are the sums over the assemblies and within
their limits; a fragment that is refused changes nothing, comes back with its token, and is invalid
if its assembly is open; a message that is completed is the concatenation of its parts, in whatever
order they came. -/
theorem fragment_assembly {r : Reassembly P} (h : r.Reachable) :
    let s := r.fragments
    s.bytes = (s.assemblies.map fun x => IncomingFragmentAssembly.storedBytes x.2.parts).sum ∧
    s.reservedBytes = (s.assemblies.map fun x => x.2.reservedBytes).sum ∧
    s.reservedBytes ≤ maxIncomingFragmentBytesPerPeer ∧ s.bytes ≤ s.reservedBytes ∧
    s.assemblies.length ≤ maxIncomingFragmentAssemblies ∧
    (∀ x ∈ s.assemblies, x.2.received = x.2.parts.countP Option.isSome ∧
      x.2.bytes = IncomingFragmentAssembly.storedBytes x.2.parts ∧
      x.2.bytes ≤ x.2.reservedBytes) ∧
    s.asserted = true ∧
    ∀ (c : Byte) (f : ReliableFragment) (payload : Bytes) (budget : ReorderBudgetToken P)
      (b : ReorderBudget P) (peer : P) (buffered : List Bool),
      let x := s.insert c f payload budget b peer buffered
      (∀ e p t, x.1 = .error (e, p, t) → p = payload ∧ t = budget ∧ s.Same x.2.1 ∧
        (∀ k, x.2.2.counts k = b.counts k) ∧ ((s.get c f.id).isSome = true → e = .invalid)) ∧
      ∀ message tokens, x.1 = .ok (some (message, tokens)) →
        ∃ pieces : List Bytes, message = pieces.flatten ∧ pieces.length = f.total ∧
          (r.accepted (c, f.id) ++ [(payload, f.part)]).Perm pieces.zipIdx := by
  have hinv := h.inv
  have hbooks := hinv.sound.books
  have hsound : ∀ x ∈ r.fragments.assemblies, x.2.forget.Sound := by
    intro x hx
    exact hinv.sound.sound (x.1, x.2.forget) (List.mem_map_of_mem hx)
  have hbytes : r.fragments.bytes =
      (r.fragments.assemblies.map fun x => x.2.bytes).sum :=
    hbooks.bytes.trans (assocSum_forget _ _)
  have hreserved : r.fragments.reservedBytes =
      (r.fragments.assemblies.map fun x => x.2.reservedBytes).sum :=
    hbooks.reserved.trans (assocSum_forget _ _)
  have hstored : r.fragments.assemblies.map (fun x => x.2.bytes) =
      r.fragments.assemblies.map fun x => IncomingFragmentAssembly.storedBytes x.2.parts := by
    apply List.map_congr_left
    intro x hx
    exact (hsound x hx).counted.bytes
  have hlength : r.fragments.forget.assemblies.length = r.fragments.assemblies.length :=
    List.length_map _
  refine ⟨hstored ▸ hbytes, hreserved, hbooks.limit, ?_, hlength ▸ hbooks.few, ?_,
    hinv.asserted, ?_⟩
  · rw [hbytes, hreserved]
    apply List.sum_le_sum
    intro x hx
    exact (hsound x hx).bytes_le
  · intro x hx
    exact ⟨(hsound x hx).counted.received, (hsound x hx).counted.bytes, (hsound x hx).bytes_le⟩
  · intro c f payload budget b peer buffered
    refine ⟨(BudgetedFragments.insert_safe hinv.sound c f payload budget b peer buffered).2, ?_⟩
    intro message tokens hx
    obtain ⟨answers, hresult, -⟩ := r.fragments.insert_forget c f payload budget b peer buffered
    rw [hx] at hresult
    obtain ⟨n, hok⟩ := BudgetedFragments.messageOf_some hresult
    rcases hinv.sound.insert_ok hok with ⟨heq, -⟩ | ⟨heq, -⟩ | ⟨pieces, m, heq, hlen, hperm, -⟩
    · cases heq
    · cases heq
    · cases heq
      exact ⟨pieces, rfl, hlen, ((hinv.kept c f.id).append_right _).trans hperm⟩

/-- The last part comes first. -/
theorem fragment_assembly_swapped :
    ∃ pieces : List Bytes, [1, 2, 3] = pieces.flatten ∧ pieces.length = 2 ∧
      ([([3], 1), ([1, 2], 0)] : List (Bytes × ℕ)).Perm pieces.zipIdx := by
  have hreachable := (Reassembly.Reachable.init (P := Unit)).insert 0 ⟨7, 1, 2⟩ [3] ⟨(), 129⟩
    (.init .default) () []
  obtain ⟨-, -, -, -, -, -, -, hcalls⟩ := fragment_assembly hreachable
  exact (hcalls 0 ⟨7, 0, 2⟩ [1, 2] ⟨(), 130⟩ (.init .default) () []).2 _ _ rfl

end BasisRust.Transport
