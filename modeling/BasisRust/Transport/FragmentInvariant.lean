import BasisRust.Transport.Fragment

/-!
# The books of the reassembly

`IncomingFragmentState` counts the bytes it stores and the bytes it has reserved.
`IncomingFragmentState.Sound` is the invariant: the counters are the sums over the assemblies, every
assembly counts its parts and bytes, and never stores more than it has reserved.

`insertPart_outcome` lists what inserting a part can do: refuse it and change nothing, recognise a
duplicate, store the part in its place, or complete the message, which is then the concatenation of
the parts.  `Sound.insert_cases` is the same for a whole call.
-/

namespace BasisRust.Transport

open Library

namespace IncomingFragmentAssembly

/-- The bytes of the parts that are there. -/
def storedBytes (parts : List (Option Bytes)) : ℕ := (parts.map fun p => (p.getD []).length).sum

/-- Before a full part has arrived: only the last part can be there, and the whole limit is
reserved. -/
structure Unsized (a : IncomingFragmentAssembly) : Prop where
  open_size : a.fragmentSize = none
  empty : ∀ i, i + 1 < a.total → a.parts[i]? = some none
  bytes : a.bytes ≤ maxFragmentPayload

/-- After a full part has fixed the size: no part is larger, and the reservation covers all of
them. -/
structure Sized (a : IncomingFragmentAssembly) (size : ℕ) : Prop where
  fixed_size : a.fragmentSize = some size
  le : ∀ p, some p ∈ a.parts → p.length ≤ size
  reserved : a.reservedBytes = min (a.total * size) maxIncomingFragmentBytesPerPeer
  bytes : a.bytes ≤ maxIncomingFragmentBytesPerPeer

/-- The counters of an assembly count its parts. -/
structure Counted (a : IncomingFragmentAssembly) : Prop where
  two : 2 ≤ a.total
  length : a.parts.length = a.total
  received : a.received = a.parts.countP Option.isSome
  bytes : a.bytes = storedBytes a.parts

/-- An assembly in the table: some part is missing, and its size rule holds. -/
structure Sound (a : IncomingFragmentAssembly) : Prop where
  counted : a.Counted
  incomplete : a.received < a.total
  rule : (a.Unsized ∧ a.reservedBytes = maxIncomingFragmentBytesPerPeer) ∨ ∃ size, a.Sized size

variable {a : IncomingFragmentAssembly} {size : ℕ} {parts : List (Option Bytes)} {i : ℕ}

theorem storedBytes_le (h : ∀ p, some p ∈ parts → p.length ≤ size) :
    storedBytes parts ≤ parts.length * size := by
  induction parts with
  | nil => exact Nat.zero_le _
  | cons p parts ih =>
    have htail := ih fun q hq => h q (List.mem_cons_of_mem p hq)
    have hhead : (p.getD []).length ≤ size := by
      cases p with
      | none => exact Nat.zero_le _
      | some q => exact h q (.head _)
    rw [storedBytes, List.map_cons, List.sum_cons, List.length_cons, Nat.succ_mul]
    rw [storedBytes] at htail
    omega

/-- An assembly never stores more than it has reserved. -/
theorem Sound.bytes_le (h : a.Sound) : a.bytes ≤ a.reservedBytes := by
  rcases h.rule with ⟨hunsized, hreserved⟩ | ⟨size, hsized⟩
  · have hle := hunsized.bytes
    have hmax : maxFragmentPayload = 1422 := rfl
    have hlimit : maxIncomingFragmentBytesPerPeer = 131072 := rfl
    omega
  · have hle := storedBytes_le hsized.le
    rw [← h.counted.bytes, h.counted.length] at hle
    rw [hsized.reserved]
    exact le_min hle hsized.bytes

theorem storedBytes_set (h : parts[i]? = some none) (p : Bytes) :
    storedBytes (parts.set i (some p)) = storedBytes parts + p.length := by
  induction parts generalizing i with
  | nil => cases h
  | cons q parts ih =>
    cases i with
    | zero =>
      cases h
      simp [storedBytes, Nat.add_comm]
    | succ i =>
      have hrest := ih (i := i) h
      show (q.getD []).length + storedBytes (parts.set i (some p)) =
        (q.getD []).length + storedBytes parts + p.length
      omega

theorem countP_set (h : parts[i]? = some none) (p : Bytes) :
    (parts.set i (some p)).countP Option.isSome = parts.countP Option.isSome + 1 := by
  induction parts generalizing i with
  | nil => cases h
  | cons q parts ih =>
    cases i with
    | zero =>
      cases h
      simp
    | succ i =>
      have hrest := ih (i := i) h
      rw [List.set_cons_succ, List.countP_cons, List.countP_cons, hrest]
      omega

/-- Storing a part keeps the counters right. -/
theorem Counted.store (h : a.Counted) (hnone : a.parts[i]? = some none) (p : Bytes) (reserved : ℕ)
    (size : Option ℕ) (tokens : List Bool) : Counted { a with
      parts := a.parts.set i (some p)
      received := a.received + 1
      bytes := a.bytes + p.length
      reservedBytes := reserved
      fragmentSize := size
      completionBudgets := tokens } where
  two := h.two
  length := by
    show (a.parts.set i (some p)).length = a.total
    rw [List.length_set, h.length]
  received := by
    show a.received + 1 = (a.parts.set i (some p)).countP Option.isSome
    rw [countP_set hnone, h.received]
  bytes := by
    show a.bytes + p.length = storedBytes (a.parts.set i (some p))
    rw [storedBytes_set hnone, h.bytes]

theorem storedBytes_empty (h : ∀ p ∈ parts, p = none) : storedBytes parts = 0 := by
  apply List.sum_eq_zero
  intro n hn
  obtain ⟨p, hp, rfl⟩ := List.mem_map.mp hn
  rw [h p hp]
  rfl

/-- What is known of an assembly when a part is put into it.  An assembly that was opened for a full
part has only that much reserved. -/
def RuleFor (a : IncomingFragmentAssembly) (f : ReliableFragment) (payload : Bytes) : Prop :=
  (a.Unsized ∧ (a.reservedBytes = maxIncomingFragmentBytesPerPeer ∨
    (f.part + 1 ≠ f.total ∧
      a.reservedBytes = min (a.total * payload.length) maxIncomingFragmentBytesPerPeer))) ∨
    ∃ size, a.Sized size

/-- **The size rule.**  It refuses the part, or the assembly with the part satisfies the rule again,
has not reserved more than before, and is not too large if it was changed. -/
theorem checkPartSize_outcome {f : ReliableFragment} {payload : Bytes} (hcounted : a.Counted)
    (htotal : a.total = f.total) (hnone : a.parts[f.part]? = some none)
    (hrule : a.RuleFor f payload) (hpayload : payload.length ≤ maxFragmentPayload) :
    IncomingFragmentState.checkPartSize a f payload = none ∨
    ∃ reserved size, IncomingFragmentState.checkPartSize a f payload =
        some { a with reservedBytes := reserved, fragmentSize := size } ∧
      reserved ≤ a.reservedBytes ∧
      ((reserved = a.reservedBytes ∧ size = a.fragmentSize) ∨
        a.bytes + payload.length ≤ maxIncomingFragmentBytesPerPeer) ∧
      ∀ received tokens, a.bytes + payload.length ≤ maxIncomingFragmentBytesPerPeer →
        let a' : IncomingFragmentAssembly :=
          ⟨a.total, a.parts.set f.part (some payload), received, a.bytes + payload.length,
            reserved, size, tokens⟩
        (a'.Unsized ∧ reserved = maxIncomingFragmentBytesPerPeer) ∨ ∃ size, a'.Sized size := by
  have hmax : maxFragmentPayload = 1422 := rfl
  have hlimit : maxIncomingFragmentBytesPerPeer = 131072 := rfl
  have hlt : f.part < a.total := by
    rw [← hcounted.length]
    exact (List.getElem?_eq_some_iff.mp hnone).1
  have hset : ∀ p, some p ∈ a.parts.set f.part (some payload) → p = payload ∨ some p ∈ a.parts := by
    intro p hp
    rcases List.mem_or_eq_of_mem_set hp with hp | hp
    · exact .inr hp
    · exact .inl (Option.some.inj hp)
  -- where the assembly is not changed, the old rule holds of the new part
  have hsame : ∀ size, a.Sized size → payload.length ≤ size → ∀ received tokens,
      a.bytes + payload.length ≤ maxIncomingFragmentBytesPerPeer → Sized ⟨a.total,
        a.parts.set f.part (some payload), received, a.bytes + payload.length, a.reservedBytes,
        a.fragmentSize, tokens⟩ size := by
    intro size hsized hle received tokens hfits
    refine ⟨hsized.fixed_size, ?_, hsized.reserved, hfits⟩
    intro p hp
    rcases hset p hp with heq | hp
    · rw [heq]
      exact hle
    · exact hsized.le p hp
  by_cases hfull : f.part + 1 ≠ f.total
  · rcases hrule with ⟨hunsized, hreserved⟩ | ⟨size, hsized⟩
    · -- the first full part fixes the size
      have hcheck : IncomingFragmentState.checkPartSize a f payload = if
          a.parts.zipIdx.any (fun x => decide (x.2 + 1 ≠ f.total) &&
            x.1.any fun p => decide (p.length ≠ payload.length)) ||
          (a.parts.getLast?.join.any fun p => decide (p.length > payload.length)) then none
          else if (a.total - 1) * payload.length + 1 > maxIncomingFragmentBytesPerPeer then none
          else some { a with
            reservedBytes := min (a.total * payload.length) maxIncomingFragmentBytesPerPeer
            fragmentSize := some payload.length } := by
        simp only [IncomingFragmentState.checkPartSize, if_pos hfull, hunsized.open_size]
      rw [hcheck]
      split_ifs with hbad hlarge
      · exact .inl rfl
      · exact .inl rfl
      · have hbytes := hunsized.bytes
        refine .inr ⟨_, _, rfl, ?_, .inr (by omega), ?_⟩
        · rcases hreserved with heq | ⟨-, heq⟩
          · rw [heq]
            exact min_le_right _ _
          · exact heq.ge
        · intro received tokens hfits
          refine .inr ⟨payload.length, rfl, ?_, rfl, hfits⟩
          intro p hp
          rcases hset p hp with heq | hp
          · rw [heq]
          · -- an older part can only be the last one, which was compared
            rw [Bool.or_eq_true, not_or] at hbad
            obtain ⟨i, hi⟩ := List.getElem?_of_mem hp
            have hilt : i < a.parts.length := (List.getElem?_eq_some_iff.mp hi).1
            have hlast : i + 1 = a.total := by
              by_contra hne
              rw [hunsized.empty i (by rw [hcounted.length] at hilt; omega)] at hi
              cases hi
            have hget : a.parts.getLast?.join = some p := by
              rw [List.getLast?_eq_getElem?, hcounted.length, show a.total - 1 = i by omega, hi]
              rfl
            have hle := hbad.2
            rw [hget, Option.any_some, decide_eq_true_eq, not_lt] at hle
            exact hle
    · have hcheck : IncomingFragmentState.checkPartSize a f payload =
          if size ≠ payload.length then none else some a := by
        simp only [IncomingFragmentState.checkPartSize, if_pos hfull, hsized.fixed_size]
      rw [hcheck]
      split_ifs with hsize
      · exact .inl rfl
      · rw [ne_eq, not_not] at hsize
        exact .inr ⟨a.reservedBytes, a.fragmentSize, rfl, le_rfl, .inl ⟨rfl, rfl⟩,
          fun received tokens hfits =>
            .inr ⟨size, hsame size hsized hsize.ge received tokens hfits⟩⟩
  · have hcheck : IncomingFragmentState.checkPartSize a f payload =
        if a.fragmentSize.any fun size => decide (payload.length > size) then none else some a := by
      simp only [IncomingFragmentState.checkPartSize, if_neg hfull]
    rw [hcheck]
    split_ifs with hbad
    · exact .inl rfl
    refine .inr ⟨a.reservedBytes, a.fragmentSize, rfl, le_rfl, .inl ⟨rfl, rfl⟩, ?_⟩
    intro received tokens hfits
    rcases hrule with ⟨hunsized, hreserved⟩ | ⟨size, hsized⟩
    · -- the last part comes first: nothing else is there
      have hreserved' : a.reservedBytes = maxIncomingFragmentBytesPerPeer := by
        rcases hreserved with heq | ⟨hne, -⟩
        · exact heq
        · exact absurd hne hfull
      rw [ne_eq, not_not] at hfull
      have hempty : ∀ p ∈ a.parts, p = none := by
        intro p hp
        obtain ⟨i, hi⟩ := List.getElem?_of_mem hp
        have hilt : i < a.parts.length := (List.getElem?_eq_some_iff.mp hi).1
        rw [hcounted.length] at hilt
        by_cases hlast : i + 1 = a.total
        · rw [show i = f.part by omega, hnone] at hi
          exact (Option.some.inj hi).symm
        · rw [hunsized.empty i (by omega)] at hi
          exact (Option.some.inj hi).symm
      have hzero : a.bytes = 0 := by
        rw [hcounted.bytes]
        exact storedBytes_empty hempty
      refine .inl ⟨⟨hunsized.open_size, ?_, ?_⟩, hreserved'⟩
      · intro i hi
        show (a.parts.set f.part (some payload))[i]? = some none
        have hi' : i + 1 < a.total := hi
        rw [List.getElem?_set_ne (by omega)]
        exact hunsized.empty i hi
      · show a.bytes + payload.length ≤ maxFragmentPayload
        omega
    · rw [hsized.fixed_size, Option.any_some, decide_eq_true_eq, not_lt] at hbad
      exact .inr ⟨size, hsame size hsized hbad received tokens hfits⟩

end IncomingFragmentAssembly

/-! ### What inserting a part can do -/

/-- `a'` is the assembly `a` with one more part. -/
structure PartStored (f : ReliableFragment) (payload : Bytes) (a a' : IncomingFragmentAssembly) :
    Prop where
  counted : a'.Counted
  rule : (a'.Unsized ∧ a'.reservedBytes = maxIncomingFragmentBytesPerPeer) ∨ ∃ size, a'.Sized size
  absent : a.parts[f.part]? = some none
  total : a'.total = a.total
  parts : a'.parts = a.parts.set f.part (some payload)
  received : a'.received = a.received + 1
  bytes : a'.bytes = a.bytes + payload.length
  reserved : a'.reservedBytes ≤ a.reservedBytes

open IncomingFragmentState in
/-- The outcomes of inserting a part into assembly `a`: it is refused and the assemblies stay as
they are, it is there already, it is stored, or it completes the message. -/
inductive InsertOutcome (s : IncomingFragmentState) (c : Byte) (f : ReliableFragment)
    (payload : Bytes) (a : IncomingFragmentAssembly) :
    Except FragmentInsertError (Option (Bytes × ℕ)) × IncomingFragmentState → Prop
  | refused {assemblies : List ((Byte × ℕ) × IncomingFragmentAssembly)}
      (h : assemblies = s.assemblies ∨ assemblies = assocSet (c, f.id) a s.assemblies) :
      InsertOutcome s c f payload a (.error .invalid, { s with assemblies := assemblies })
  | duplicate (h : a.parts[f.part]? = some (some payload)) :
      InsertOutcome s c f payload a (.ok none, s)
  | stored {a' : IncomingFragmentAssembly} (h : PartStored f payload a a')
      (hopen : a'.received < a'.total) : InsertOutcome s c f payload a
      (.ok none, ⟨assocSet (c, f.id) a' s.assemblies, s.bytes + payload.length,
        s.reservedBytes - (a.reservedBytes - a'.reservedBytes)⟩)
  | complete {a' : IncomingFragmentAssembly} (h : PartStored f payload a a')
      (hfull : a'.received = a'.total) : InsertOutcome s c f payload a
      (.ok (some ((a'.parts.map fun p => p.getD []).flatten, a'.received)),
        ⟨assocErase (c, f.id) s.assemblies, s.bytes + payload.length - a'.bytes,
          s.reservedBytes - (a.reservedBytes - a'.reservedBytes) - a'.reservedBytes⟩)

namespace IncomingFragmentState

variable {s : IncomingFragmentState} {c : Byte} {f : ReliableFragment} {payload : Bytes}
  {a : IncomingFragmentAssembly}

/-- **Inserting a part** does one of the four things. -/
theorem insertPart_outcome (hcounted : a.Counted) (hopen : a.received < a.total)
    (hrule : a.RuleFor f payload) (hpart : f.part < f.total)
    (hpayload : payload.length ≤ maxFragmentPayload) :
    InsertOutcome s c f payload a (s.insertPart c f payload a) := by
  rw [insertPart]
  by_cases htotal : a.total ≠ f.total
  · rw [if_pos htotal]
    exact .refused (.inl rfl)
  rw [if_neg htotal]
  rw [ne_eq, not_not] at htotal
  have hlt : f.part < a.parts.length := by
    rw [hcounted.length, htotal]
    exact hpart
  have hget : a.parts[f.part]? = some (a.parts.getD f.part none) := by
    rw [List.getD_eq_getElem?_getD, List.getElem?_eq_getElem hlt]
    rfl
  cases hexisting : a.parts.getD f.part none with
  | some existing =>
    rw [hexisting] at hget
    dsimp only
    split_ifs with hne
    · exact .refused (.inl rfl)
    · rw [ne_eq, not_not] at hne
      exact .duplicate (hne ▸ hget)
  | none =>
    rw [hexisting] at hget
    dsimp only
    rcases IncomingFragmentAssembly.checkPartSize_outcome hcounted htotal hget hrule hpayload with
      hcheck | ⟨reserved, size, hcheck, hle, hunchanged, hafter⟩
    · rw [hcheck]
      exact .refused (.inl rfl)
    · have hstored : a.bytes + payload.length ≤ maxIncomingFragmentBytesPerPeer →
          PartStored f payload a ⟨a.total, a.parts.set f.part (some payload), a.received + 1,
            a.bytes + payload.length, reserved, size, a.completionBudgets.set f.part false⟩ :=
        fun hfits => ⟨hcounted.store hget payload reserved size _, hafter _ _ hfits, hget,
          rfl, rfl, rfl, rfl, hle⟩
      rw [hcheck]
      dsimp only
      split_ifs with hlarge hdone
      · -- too large: the assembly was not changed
        rcases hunchanged with ⟨hreserved, hsize⟩ | hfits
        · rw [hreserved, hsize, Nat.sub_self, Nat.sub_zero]
          exact .refused (.inr rfl)
        · omega
      · refine .stored (hstored (by omega)) ?_
        show a.received + 1 < a.total
        omega
      · rw [ne_eq, not_not] at hdone
        exact .complete (hstored (by omega)) hdone

/-! ### The whole table -/

/-- An assembly with no parts yet. -/
structure Fresh (f : ReliableFragment) (payload : Bytes) (a : IncomingFragmentAssembly) : Prop where
  total : a.total = f.total
  parts : a.parts = List.replicate f.total none
  received : a.received = 0
  bytes : a.bytes = 0
  open_size : a.fragmentSize = none
  reserved : a.reservedBytes =
    if f.part + 1 = f.total then maxIncomingFragmentBytesPerPeer
    else min (f.total * payload.length) maxIncomingFragmentBytesPerPeer
  fits : f.part + 1 ≠ f.total → (f.total - 1) * payload.length + 1 ≤ maxIncomingFragmentBytesPerPeer

namespace Fresh

theorem counted (h : Fresh f payload a) (htwo : 2 ≤ f.total) : a.Counted where
  two := by
    rw [h.total]
    exact htwo
  length := by
    rw [h.parts, List.length_replicate, h.total]
  received := by
    rw [h.received, h.parts, List.countP_replicate]
    rfl
  bytes := by
    rw [h.bytes, h.parts, IncomingFragmentAssembly.storedBytes_empty]
    exact fun p hp => List.eq_of_mem_replicate hp

theorem rule (h : Fresh f payload a) : a.RuleFor f payload := by
  refine .inl ⟨⟨h.open_size, ?_, ?_⟩, ?_⟩
  · intro i hi
    rw [h.total] at hi
    rw [h.parts, List.getElem?_replicate, if_pos (by omega)]
  · rw [h.bytes]
    exact Nat.zero_le _
  · rw [h.reserved, h.total]
    by_cases hfinal : f.part + 1 = f.total
    · rw [if_pos hfinal]
      exact .inl rfl
    · rw [if_neg hfinal]
      exact .inr ⟨hfinal, rfl⟩

/-- The first part of a new assembly is stored. -/
theorem insertPart_ok (h : Fresh f payload a) (htwo : 2 ≤ f.total)
    (hpayload : payload.length ≤ maxFragmentPayload) (s : IncomingFragmentState) :
    (s.insertPart c f payload a).1 = .ok none := by
  have hmax : maxFragmentPayload = 1422 := rfl
  have hlimit : maxIncomingFragmentBytesPerPeer = 131072 := rfl
  have hnone : a.parts.getD f.part none = none := by
    rw [h.parts, List.getD_eq_getElem?_getD, List.getElem?_replicate]
    split_ifs <;> rfl
  obtain ⟨sized, hcheck, htotal, hreceived, hbytes⟩ : ∃ sized,
    checkPartSize a f payload = some sized ∧
      sized.total = a.total ∧ sized.received = a.received ∧ sized.bytes = a.bytes := by
    rw [checkPartSize]
    by_cases hfinal : f.part + 1 = f.total
    · rw [if_neg (not_not.mpr hfinal), h.open_size]
      exact ⟨a, rfl, rfl, rfl, rfl⟩
    · have hfits := h.fits hfinal
      have hother : a.parts.zipIdx.any (fun x => decide (x.2 + 1 ≠ f.total) &&
          x.1.any fun p => decide (p.length ≠ payload.length)) = false := by
        rw [List.any_eq_false]
        intro x hx
        have hx1 : x.1 ∈ a.parts := List.fst_mem_of_mem_zipIdx hx
        rw [h.parts] at hx1
        rw [List.eq_of_mem_replicate hx1]
        simp
      have hlast : (a.parts.getLast?.join.any fun p => decide (p.length > payload.length)) =
          false := by
        rw [h.parts, List.getLast?_replicate]
        split_ifs <;> rfl
      rw [if_pos hfinal, h.open_size]
      dsimp only
      rw [hother, hlast, Bool.or_false, if_neg (by decide), h.total, if_neg (by omega)]
      exact ⟨_, rfl, rfl, rfl, rfl⟩
  have hfits : ¬ (sized.bytes + payload.length > maxIncomingFragmentBytesPerPeer) := by
    rw [hbytes, h.bytes]
    omega
  have hmore : sized.received + 1 ≠ sized.total := by
    rw [hreceived, htotal, h.received, h.total]
    omega
  simp only [insertPart, h.total, ne_eq, not_true_eq_false, if_false, hnone, hcheck, hfits, hmore,
    not_false_eq_true, if_true]

end Fresh

/-- The counters are the sums over the assemblies, and within their limits. -/
structure Books (s : IncomingFragmentState) : Prop where
  nodup : AssocNodup s.assemblies
  few : s.assemblies.length ≤ maxIncomingFragmentAssemblies
  bytes : s.bytes = assocSum (fun a => a.bytes) s.assemblies
  reserved : s.reservedBytes = assocSum (fun a => a.reservedBytes) s.assemblies
  limit : s.reservedBytes ≤ maxIncomingFragmentBytesPerPeer

namespace Books

variable {a' : IncomingFragmentAssembly}

theorem length_erase (h : Books s) (key : Byte × ℕ) :
    (assocErase key s.assemblies).length + (assocGet key s.assemblies).elim 0 (fun _ => 1) =
      s.assemblies.length := by
  have hone : ∀ l : List ((Byte × ℕ) × IncomingFragmentAssembly),
      assocSum (fun _ => 1) l = l.length := by
    intro l
    induction l with
    | nil => rfl
    | cons x l ih =>
      rw [assocSum_cons, ih, List.length_cons, Nat.add_comm]
  have hsum := h.nodup.sum_erase (fun _ => 1) key
  rwa [hone, hone] at hsum

/-- An assembly of the table is part of the sums. -/
theorem part_le (h : Books s) (hget : s.get c f.id = some a) :
    a.bytes ≤ s.bytes ∧ a.reservedBytes ≤ s.reservedBytes := by
  rw [get] at hget
  have hbytes := h.nodup.sum_erase (fun a => a.bytes) (c, f.id)
  have hreserved := h.nodup.sum_erase (fun a => a.reservedBytes) (c, f.id)
  rw [hget, ← h.bytes] at hbytes
  rw [hget, ← h.reserved] at hreserved
  simp only [Option.elim] at hbytes hreserved
  omega

/-- An assembly is put into the table, for another one or for none. -/
theorem put (h : Books s) {bytes reserved : ℕ} (a' : IncomingFragmentAssembly)
    (hfew : (s.get c f.id).isSome = true ∨ s.assemblies.length < maxIncomingFragmentAssemblies)
    (hbytes : bytes + (s.get c f.id).elim 0 (fun a => a.bytes) = s.bytes + a'.bytes)
    (hreserved : reserved + (s.get c f.id).elim 0 (fun a => a.reservedBytes) =
      s.reservedBytes + a'.reservedBytes)
    (hlimit : reserved ≤ maxIncomingFragmentBytesPerPeer) :
    Books ⟨assocSet (c, f.id) a' s.assemblies, bytes, reserved⟩ where
  nodup := h.nodup.put (c, f.id) (some a')
  few := by
    have hlength := h.length_erase (c, f.id)
    have hold := h.few
    rw [get] at hfew
    show (assocErase (c, f.id) s.assemblies).length + 1 ≤ _
    cases hget : assocGet (c, f.id) s.assemblies with
    | none =>
      rw [hget] at hfew hlength
      simp only [Option.elim, Option.isSome_none, Bool.false_eq_true, false_or] at hfew hlength
      omega
    | some a =>
      rw [hget] at hlength
      simp only [Option.elim] at hlength
      omega
  bytes := by
    have hsum := h.nodup.sum_put (fun a => a.bytes) (c, f.id) (some a')
    rw [← h.bytes] at hsum
    rw [get] at hbytes
    show bytes = assocSum _ (assocPut (c, f.id) (some a') s.assemblies)
    simp only [Option.elim] at hsum hbytes
    omega
  reserved := by
    have hsum := h.nodup.sum_put (fun a => a.reservedBytes) (c, f.id) (some a')
    rw [← h.reserved] at hsum
    rw [get] at hreserved
    show reserved = assocSum _ (assocPut (c, f.id) (some a') s.assemblies)
    simp only [Option.elim] at hsum hreserved
    omega
  limit := hlimit

/-- An assembly is taken out of the table. -/
theorem erase (h : Books s) (hget : s.get c f.id = some a) {bytes reserved : ℕ}
    (hbytes : bytes + a.bytes = s.bytes)
    (hreserved : reserved + a.reservedBytes = s.reservedBytes) :
    Books ⟨assocErase (c, f.id) s.assemblies, bytes, reserved⟩ where
  nodup := h.nodup.erase (c, f.id)
  few := by
    have hlength := h.length_erase (c, f.id)
    have hold := h.few
    show (assocErase (c, f.id) s.assemblies).length ≤ _
    omega
  bytes := by
    have hsum := h.nodup.sum_erase (fun a => a.bytes) (c, f.id)
    rw [get] at hget
    rw [← h.bytes, hget] at hsum
    simp only [Option.elim] at hsum
    show bytes = assocSum _ (assocErase (c, f.id) s.assemblies)
    omega
  reserved := by
    have hsum := h.nodup.sum_erase (fun a => a.reservedBytes) (c, f.id)
    rw [get] at hget
    rw [← h.reserved, hget] at hsum
    simp only [Option.elim] at hsum
    show reserved = assocSum _ (assocErase (c, f.id) s.assemblies)
    omega
  limit := by
    have hold := h.limit
    show reserved ≤ _
    omega

end Books

/-- The books are right, and every assembly is sound. -/
structure Sound (s : IncomingFragmentState) : Prop where
  books : s.Books
  sound : ∀ x ∈ s.assemblies, x.2.Sound

theorem Sound.of_get (h : s.Sound) (hget : s.get c f.id = some a) : a.Sound :=
  h.sound _ (mem_keys_of_assocGet hget)

theorem Sound.empty : IncomingFragmentState.empty.Sound where
  books := ⟨AssocNodup.nil, Nat.zero_le _, rfl, rfl, Nat.zero_le _⟩
  sound := nofun

/-- **Finding or opening an assembly.** -/
theorem openAssembly_outcome (s : IncomingFragmentState) (c : Byte) (f : ReliableFragment)
    (payload : Bytes) (answers : ReserveAnswers) (buffered : ℕ → Bool) :
    (∃ a, s.get c f.id = some a ∧ s.openAssembly c f payload answers buffered = .ok (s, a)) ∨
    (s.get c f.id = none ∧ ∃ e, s.openAssembly c f payload answers buffered = .error e) ∨
    (s.get c f.id = none ∧ s.assemblies.length < maxIncomingFragmentAssemblies ∧
      ∃ a, Fresh f payload a ∧
        s.reservedBytes + a.reservedBytes ≤ maxIncomingFragmentBytesPerPeer ∧
        s.openAssembly c f payload answers buffered = .ok
          (⟨assocSet (c, f.id) a s.assemblies, s.bytes, s.reservedBytes + a.reservedBytes⟩,
            a)) := by
  cases hget : s.get c f.id with
  | some a =>
    refine .inl ⟨a, rfl, ?_⟩
    rw [get] at hget
    rw [openAssembly, hget]
  | none =>
    right
    rw [get] at hget
    rw [openAssembly, hget]
    dsimp only
    generalize hmin : (if decide (f.part + 1 = f.total) = true then 1
      else (f.total - 1) * payload.length + 1) = minimum
    generalize hres : (if decide (f.part + 1 = f.total) = true then maxIncomingFragmentBytesPerPeer
      else min (f.total * payload.length) maxIncomingFragmentBytesPerPeer) = reserved
    simp only [decide_eq_true_eq] at hmin hres
    split_ifs with hmany hlarge hreserve hmeta hpart
    · exact .inl ⟨rfl, _, rfl⟩
    · exact .inl ⟨rfl, _, rfl⟩
    · exact .inl ⟨rfl, _, rfl⟩
    · exact .inl ⟨rfl, _, rfl⟩
    · exact .inl ⟨rfl, _, rfl⟩
    · refine .inr ⟨rfl, Nat.lt_of_not_le hmany, _, ⟨rfl, rfl, rfl, rfl, rfl, hres.symm, ?_⟩,
        Nat.le_of_not_lt hreserve, rfl⟩
      intro hne
      rw [if_neg hne] at hmin
      omega

/-- An assembly that is put into the table, or found there, when a part arrives. -/
structure Received (s s₁ : IncomingFragmentState) (c : Byte) (f : ReliableFragment)
    (payload : Bytes) (a : IncomingFragmentAssembly) : Prop where
  books : s₁.Books
  others : ∀ x ∈ s₁.assemblies, x = ((c, f.id), a) ∨ x ∈ s.assemblies
  get : s₁.get c f.id = some a
  counted : a.Counted
  incomplete : a.received < a.total
  rule : a.RuleFor f payload

/-- **After a part** the table is sound again. -/
theorem InsertOutcome.sound {s₁ : IncomingFragmentState}
    {r : Except FragmentInsertError (Option (Bytes × ℕ)) × IncomingFragmentState}
    (h : InsertOutcome s₁ c f payload a r) (hs : s.Sound) (ha : Received s s₁ c f payload a)
    (hkept : s₁ = s ∨ r.1 = .ok none) (hnew : s₁ = s ∨ a.parts[f.part]? = some none) :
    r.2.Sound := by
  obtain ⟨hbytes_le, hreserved_le⟩ := ha.books.part_le ha.get
  have hothers : ∀ x ∈ assocErase (c, f.id) s₁.assemblies, x.2.Sound := by
    intro x hx
    have hmem := List.mem_filter.mp hx
    rcases ha.others x hmem.1 with heq | hold
    · rw [heq] at hmem
      simp at hmem
    · exact hs.sound x hold
  have hlimit := ha.books.limit
  cases h with
  | refused hsame =>
    rcases hkept with rfl | hok
    · rcases hsame with rfl | rfl
      · exact hs
      · refine ⟨ha.books.put a (.inl (by rw [ha.get]; rfl)) (by rw [ha.get]; rfl)
          (by rw [ha.get]; rfl) hlimit, ?_⟩
        intro x hx
        rcases List.mem_cons.mp hx with heq | hx
        · rw [heq]
          exact hs.of_get ha.get
        · exact hothers x hx
    · cases hok
  | duplicate hdup =>
    rcases hnew with rfl | hnone
    · exact hs
    · rw [hnone] at hdup
      cases hdup
  | stored hstored hopen =>
    have hb := hstored.bytes
    have hr := hstored.reserved
    refine ⟨ha.books.put _ (.inl (by rw [ha.get]; rfl)) ?_ ?_ (by omega), ?_⟩
    · rw [ha.get]
      simp only [Option.elim]
      omega
    · rw [ha.get]
      simp only [Option.elim]
      omega
    · intro x hx
      rcases List.mem_cons.mp hx with heq | hx
      · rw [heq]
        exact ⟨hstored.counted, hopen, hstored.rule⟩
      · exact hothers x hx
  | complete hstored hfull =>
    have hb := hstored.bytes
    have hr := hstored.reserved
    exact ⟨ha.books.erase ha.get (by omega) (by omega), hothers⟩

/-- An accepted part has the total of its assembly. -/
theorem insertPart_total {o : Option (Bytes × ℕ)} (h : (s.insertPart c f payload a).1 = .ok o) :
    a.total = f.total := by
  by_contra hne
  rw [insertPart, if_pos hne] at h
  cases h

theorem not_malformed_bounds (h : fragmentMalformed f payload = false) :
    2 ≤ f.total ∧ f.part < f.total ∧ payload.length ≤ maxFragmentPayload := by
  simp only [fragmentMalformed, Bool.or_eq_false_iff, decide_eq_false_iff_not] at h
  omega

/-- The assembly that was found or opened is ready for the part, and a new one stores it. -/
theorem Sound.received (hs : s.Sound) {answers : ReserveAnswers} {buffered : ℕ → Bool}
    {s₁ : IncomingFragmentState} (hwell : fragmentMalformed f payload = false)
    (hopen : s.openAssembly c f payload answers buffered = .ok (s₁, a)) :
    Received s s₁ c f payload a ∧ (s₁ = s ∨ (s.get c f.id = none ∧
      (s₁.insertPart c f payload a).1 = .ok none ∧ a.parts[f.part]? = some none ∧
      a.parts = List.replicate f.total none)) := by
  obtain ⟨htwo, hpart, hpayload⟩ := not_malformed_bounds hwell
  rcases s.openAssembly_outcome c f payload answers buffered with
    ⟨a', hget, h⟩ | ⟨hget, e, h⟩ | ⟨hget, hfew, a', hfresh, hlimit, h⟩
  · rw [h] at hopen
    cases hopen
    have hsound := hs.of_get hget
    have hrule : a.RuleFor f payload := hsound.rule.imp_left fun h => ⟨h.1, .inl h.2⟩
    exact ⟨⟨hs.books, fun x hx => .inr hx, hget, hsound.counted, hsound.incomplete, hrule⟩,
      .inl rfl⟩
  · rw [h] at hopen
    cases hopen
  · rw [h] at hopen
    cases hopen
    have hincomplete : a.received < a.total := by
      rw [hfresh.received, hfresh.total]
      omega
    have hnone : a.parts[f.part]? = some none := by
      rw [hfresh.parts, List.getElem?_replicate, if_pos hpart]
    refine ⟨⟨?_, ?_, ?_, hfresh.counted htwo, hincomplete, hfresh.rule⟩,
      .inr ⟨hget, hfresh.insertPart_ok htwo hpayload _, hnone, hfresh.parts⟩⟩
    · refine hs.books.put a (.inr hfew) ?_ ?_ hlimit
      · rw [hget, hfresh.bytes]
        rfl
      · rw [hget]
        rfl
    · intro x hx
      rcases List.mem_cons.mp hx with heq | hx
      · exact .inl heq
      · exact .inr (List.mem_filter.mp hx).1
    · rw [get_set, if_pos ⟨rfl, rfl⟩]

/-- **One call.**  It refuses the fragment and leaves everything as it was, or it inserts the part
into an assembly that was there, or into a new one, which then stores it. -/
theorem Sound.insert_cases (hs : s.Sound) (c : Byte) (f : ReliableFragment) (payload : Bytes)
    (answers : ReserveAnswers) (buffered : ℕ → Bool) :
    (∃ e, s.insert c f payload answers buffered = (.error e, s) ∧
      ((s.get c f.id).isSome = true → e = .invalid)) ∨
    ∃ s₁ a, Received s s₁ c f payload a ∧
      s.insert c f payload answers buffered = s₁.insertPart c f payload a ∧
      InsertOutcome s₁ c f payload a (s.insert c f payload answers buffered) ∧
      (s₁ = s ∨ (s.get c f.id = none ∧ (s.insert c f payload answers buffered).1 = .ok none ∧
        a.parts[f.part]? = some none ∧ a.parts = List.replicate f.total none)) := by
  rw [insert]
  cases hwell : fragmentMalformed f payload with
  | true => exact .inl ⟨.invalid, if_pos rfl, fun _ => rfl⟩
  | false =>
    obtain ⟨-, hpart, hpayload⟩ := not_malformed_bounds hwell
    rw [if_neg (by decide)]
    cases hopen : s.openAssembly c f payload answers buffered with
    | error e =>
      refine .inl ⟨e, rfl, ?_⟩
      intro hsome
      rcases s.openAssembly_outcome c f payload answers buffered with
        ⟨a, -, h⟩ | ⟨hget, -⟩ | ⟨hget, -⟩
      · rw [h] at hopen
        cases hopen
      · rw [hget] at hsome
        cases hsome
      · rw [hget] at hsome
        cases hsome
    | ok r =>
      obtain ⟨s₁, a⟩ := r
      obtain ⟨hreceived, hwhere⟩ := hs.received hwell hopen
      exact .inr ⟨s₁, a, hreceived, rfl, insertPart_outcome hreceived.counted
        hreceived.incomplete hreceived.rule hpart hpayload, hwhere⟩

/-- **Inserting a fragment keeps the table sound.** -/
theorem Sound.insert (hs : s.Sound) (c : Byte) (f : ReliableFragment) (payload : Bytes)
    (answers : ReserveAnswers) (buffered : ℕ → Bool) :
    (s.insert c f payload answers buffered).2.Sound := by
  rcases hs.insert_cases c f payload answers buffered with
    ⟨e, heq, -⟩ | ⟨s₁, a, hreceived, -, houtcome, hwhere⟩
  · rw [heq]
    exact hs
  · refine InsertOutcome.sound houtcome hs hreceived ?_ ?_
    · exact hwhere.imp_right fun h => h.2.1
    · exact hwhere.imp_right fun h => h.2.2.1

/-- Taking a token out of an assembly. -/
theorem Sound.takeCompletionBudget (hs : s.Sound) (c : Byte) (f : ReliableFragment) :
    (s.takeCompletionBudget c f).2.Sound := by
  simp only [IncomingFragmentState.takeCompletionBudget]
  cases hget : assocGet (c, f.id) s.assemblies with
  | none => exact hs
  | some a =>
    dsimp only
    split_ifs
    · have hget' : s.get c f.id = some a := hget
      have hsound := hs.of_get hget'
      refine ⟨hs.books.put _ (.inl (by rw [hget']; rfl)) (by rw [hget']; rfl) (by rw [hget']; rfl)
        hs.books.limit, ?_⟩
      intro x hx
      rcases List.mem_cons.mp hx with heq | hx
      · rw [heq]
        obtain ⟨⟨h₁, h₂, h₃, h₄⟩, h₅, h₆⟩ := hsound
        refine ⟨⟨h₁, h₂, h₃, h₄⟩, h₅, ?_⟩
        rcases h₆ with ⟨⟨h₆, h₇, h₈⟩, h₉⟩ | ⟨size, h₆, h₇, h₈, h₉⟩
        · exact .inl ⟨⟨h₆, h₇, h₈⟩, h₉⟩
        · exact .inr ⟨size, h₆, h₇, h₈, h₉⟩
      · exact hs.sound x (List.mem_filter.mp hx).1
    · exact hs

end IncomingFragmentState

end BasisRust.Transport
