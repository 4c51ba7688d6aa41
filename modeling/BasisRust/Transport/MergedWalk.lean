import BasisRust.Transport.Inbound

/-!
# The processors of merged datagrams

`processMergedPacket` and `processCompactMergedPacket` walk over a datagram that
`isWellFormedMerged` or `isWellFormedCompactMerged` has let through.  A processor is written with
its own tests: it can stop in front of an entry it cannot read, and the plain one skips entries that
are nested or invalid.  `Walk` is the record of it: what was done with each entry, what is left of
the datagram where the walk ended, and whether it ended because processing an entry failed.
-/

namespace BasisRust.Transport

open Library

/-! ### The processors -/

/-- What became of an entry.  Only a dispatched one has an effect. -/
inductive Disposition where
  | dispatched
  | nested
  | invalid
  deriving DecidableEq

/-- `left` begins with the entry in front of which the walk ended. -/
structure Walk where
  entries : List (Bytes × Disposition)
  left : Bytes
  failed : Bool
  deriving DecidableEq

def Walk.stop (left : Bytes) : Walk := ⟨[], left, false⟩

def Walk.after (walk : Walk) (packet : Bytes) (disposition : Disposition) : Walk :=
  { walk with entries := (packet, disposition) :: walk.entries }

/-- The packets that reached `process_packet_for_peer`. -/
def Walk.dispatched (walk : Walk) : List Bytes :=
  (walk.entries.filter fun e => e.2 = .dispatched).map Prod.fst

/-- The loop of `processMergedPacket`; `fails i` says whether processing the `i`-th dispatched
packet returns an error. -/
def processMergedFrom (fails : ℕ → Bool) (call : ℕ) (bytes : Bytes) : Walk :=
  match bytes with
  | a :: b :: rest =>
    let size := leNat [a, b]
    if size = 0 ∨ rest.length < size then .stop bytes
    else
      let packet := rest.take size
      if isNestedMergedPacket packet then
        (processMergedFrom fails call (rest.drop size)).after packet .nested
      else if isValidMergedPacket packet then
        if fails call then ⟨[(packet, .dispatched)], rest.drop size, true⟩
        else (processMergedFrom fails (call + 1) (rest.drop size)).after packet .dispatched
      else (processMergedFrom fails call (rest.drop size)).after packet .invalid
  | _ => .stop bytes
termination_by bytes.length
decreasing_by
  all_goals
    rw [List.length_drop, List.length_cons, List.length_cons]
    omega

def processMergedPacket (fails : ℕ → Bool) (bytes : Bytes) : Walk :=
  processMergedFrom fails 0 (bytes.drop 1)

/-- A payload is followed by less than what it was read from. -/
theorem compactPayload_length {tag : Byte} {bytes payload left : Bytes}
    (h : compactPayload tag bytes = some (payload, left)) : left.length < bytes.length := by
  unfold compactPayload at h
  split_ifs at h
  · cases bytes with
    | nil => cases h
    | cons a bytes =>
      cases bytes with
      | nil => cases h
      | cons b rest =>
        dsimp only at h
        split_ifs at h
        rw [← (Prod.mk.inj (Option.some.inj h)).2, List.length_drop, List.length_cons,
          List.length_cons]
        omega
  · cases bytes with
    | nil => cases h
    | cons a rest =>
      dsimp only at h
      split_ifs at h
      rw [← (Prod.mk.inj (Option.some.inj h)).2, List.length_drop, List.length_cons]
      omega

/-- The raw flag of a compact tag. -/
def isRawTag (tag : Byte) : Bool := decide (tag &&& 0x40#8 ≠ 0#8)

/-- The loop of `processCompactMergedPacket`. -/
def processCompactMergedFrom (connectionNumber : BitVec 2) (fails : ℕ → Bool) (call : ℕ)
    (bytes : Bytes) : Walk :=
  match bytes with
  | tag :: len :: rest =>
    let isRaw := isRawTag tag
    let channel := tag &&& 0x3f#8
    if isRaw = true ∧ channel ≠ 0#8 then .stop bytes
    else
      match _hpayload : compactPayload tag (len :: rest) with
      | none => .stop bytes
      | some (payload, left) =>
        if isRaw = true ∧ isRawCompactEntry payload = false then .stop bytes
        else
          let packet :=
            if isRaw then payload
            else PacketProperty.unreliable.header connectionNumber :: channel :: payload
          if fails call then ⟨[(packet, .dispatched)], left, true⟩
          else
            (processCompactMergedFrom connectionNumber fails (call + 1) left).after packet
              .dispatched
  | _ => .stop bytes
termination_by bytes.length
decreasing_by
  have hlt := compactPayload_length _hpayload
  rw [List.length_cons]
  omega

def processCompactMergedPacket (connectionNumber : BitVec 2) (fails : ℕ → Bool) (bytes : Bytes) :
    Walk :=
  processCompactMergedFrom connectionNumber fails 0 (bytes.drop 1)

/-- What an opened packet is unpacked to; `none` when it is rejected. -/
def unpackMerged (connectionNumber : BitVec 2) (fails : ℕ → Bool) (property : PacketProperty)
    (bytes : Bytes) : Option Walk :=
  match property with
  | .merged =>
    if isWellFormedMerged bytes then some (processMergedPacket fails bytes) else none
  | .compactMerged =>
    if isWellFormedCompactMerged bytes then
      some (processCompactMergedPacket connectionNumber fails bytes)
    else none
  | _ => none

/-! ### One entry of the compact form -/

section

variable {connectionNumber : BitVec 2} {fails : ℕ → Bool} {call : ℕ} {tag len : Byte}
  {rest payload left : Bytes}

/-- The entry after a tag, as the processor and the validator read it. -/
def compactEntry (tag : Byte) (bytes : Bytes) : Option (Bytes × Bytes) :=
  if isRawTag tag = true ∧ tag &&& 0x3f#8 ≠ 0#8 then none
  else (compactPayload tag bytes).filter fun e => !isRawTag tag || isRawCompactEntry e.1

/-- The packet an entry stands for. -/
def compactPacket (connectionNumber : BitVec 2) (tag : Byte) (payload : Bytes) : Bytes :=
  if isRawTag tag then payload
  else PacketProperty.unreliable.header connectionNumber :: (tag &&& 0x3f#8) :: payload

theorem compactEntry_none (h : compactEntry tag rest = none) :
    (isRawTag tag = true ∧ tag &&& 0x3f#8 ≠ 0#8) ∨
      ∀ payload left, compactPayload tag rest = some (payload, left) →
        isRawTag tag = true ∧ isRawCompactEntry payload = false := by
  rw [compactEntry] at h
  split_ifs at h with hchannel
  · exact Or.inl hchannel
  · refine Or.inr ?_
    intro payload left hpayload
    rw [hpayload] at h
    simpa using h

theorem compactEntry_some (h : compactEntry tag rest = some (payload, left)) :
    ¬(isRawTag tag = true ∧ tag &&& 0x3f#8 ≠ 0#8) ∧
      compactPayload tag rest = some (payload, left) ∧
      ¬(isRawTag tag = true ∧ isRawCompactEntry payload = false) := by
  rw [compactEntry] at h
  split_ifs at h with hchannel
  obtain ⟨hpayload, hraw⟩ := Option.filter_eq_some_iff.mp h
  refine ⟨hchannel, hpayload, ?_⟩
  intro hrefused
  rw [hrefused.1, hrefused.2] at hraw
  cases hraw

/-- The induction along the entries. -/
theorem compactInduction {motive : Bytes → Prop} (nil : motive []) (single : ∀ tag, motive [tag])
    (refused : ∀ tag len rest, compactEntry tag (len :: rest) = none → motive (tag :: len :: rest))
    (entry : ∀ tag len rest payload left, compactEntry tag (len :: rest) = some (payload, left) →
      motive left → motive (tag :: len :: rest)) (bytes : Bytes) : motive bytes := by
  induction hlength : bytes.length using Nat.strong_induction_on generalizing bytes with
  | _ length ih =>
    match bytes, hlength with
    | [], _ => exact nil
    | [tag], _ => exact single tag
    | tag :: len :: rest, hlength =>
      cases hread : compactEntry tag (len :: rest) with
      | none => exact refused tag len rest hread
      | some read =>
        have hlt := compactPayload_length (compactEntry_some hread).2.1
        rw [List.length_cons] at hlength
        exact entry tag len rest read.1 read.2 hread (ih _ (by omega) _ rfl)

theorem processCompactMergedFrom_nil :
    processCompactMergedFrom connectionNumber fails call [] = .stop [] := by
  rw [processCompactMergedFrom]
  exact nofun

theorem processCompactMergedFrom_single :
    processCompactMergedFrom connectionNumber fails call [tag] = .stop [tag] := by
  rw [processCompactMergedFrom]
  exact nofun

theorem processCompactMergedFrom_none (h : compactEntry tag (len :: rest) = none) :
    processCompactMergedFrom connectionNumber fails call (tag :: len :: rest) =
      .stop (tag :: len :: rest) := by
  rw [processCompactMergedFrom]
  dsimp only
  rcases compactEntry_none h with hchannel | hpayload
  · rw [if_pos hchannel]
  · split
    · rfl
    · split
      · rfl
      · next payload left heq =>
        rw [if_pos (hpayload payload left heq)]

theorem processCompactMergedFrom_some (h : compactEntry tag (len :: rest) = some (payload, left)) :
    processCompactMergedFrom connectionNumber fails call (tag :: len :: rest) =
      if fails call then ⟨[(compactPacket connectionNumber tag payload, .dispatched)], left, true⟩
      else
        (processCompactMergedFrom connectionNumber fails (call + 1) left).after
          (compactPacket connectionNumber tag payload) .dispatched := by
  obtain ⟨hchannel, hpayload, hraw⟩ := compactEntry_some h
  rw [processCompactMergedFrom]
  dsimp only
  rw [if_neg hchannel]
  split
  · next heq =>
    rw [hpayload] at heq
    cases heq
  · next payload' left' heq =>
    rw [hpayload] at heq
    cases heq
    rw [if_neg hraw]
    rfl

/-- A raw entry has room for its header, so the validator's last test adds nothing. -/
theorem isValidMergedPacket_of_raw (h : isRawCompactEntry payload = true) :
    isValidMergedPacket payload = true := by
  rw [isRawCompactEntry, Bool.and_eq_true, Bool.and_eq_true, decide_eq_true_eq] at h
  obtain ⟨⟨hlength, _⟩, hproperty⟩ := h
  rw [isValidMergedPacket]
  split at hproperty
  · next heq =>
    rw [heq]
    exact decide_eq_true hlength
  · next heq =>
    rw [heq]
    exact decide_eq_true hlength
  · cases hproperty

theorem wellFormedCompactMergedFrom_none (h : compactEntry tag (len :: rest) = none)
    (fuel n : ℕ) : wellFormedCompactMergedFrom fuel (tag :: len :: rest) n = false := by
  cases fuel with
  | zero => rfl
  | succ fuel =>
    have htag : decide (tag &&& 0x40#8 ≠ 0#8) = isRawTag tag := rfl
    rw [wellFormedCompactMergedFrom, htag]
    rcases compactEntry_none h with hchannel | hpayload
    · rw [if_pos hchannel]
    · split
      · rfl
      · cases hread : compactPayload tag (len :: rest) with
        | none => rfl
        | some read =>
          obtain ⟨hraw, hentry⟩ := hpayload read.1 read.2 hread
          dsimp only
          rw [if_pos ⟨hraw, by rw [hentry]; rfl⟩]

theorem wellFormedCompactMergedFrom_some
    (h : compactEntry tag (len :: rest) = some (payload, left)) (fuel n : ℕ) :
    wellFormedCompactMergedFrom (fuel + 1) (tag :: len :: rest) n =
      wellFormedCompactMergedFrom fuel left (n + 1) := by
  obtain ⟨hchannel, hpayload, hraw⟩ := compactEntry_some h
  have htag : decide (tag &&& 0x40#8 ≠ 0#8) = isRawTag tag := rfl
  rw [wellFormedCompactMergedFrom, htag, if_neg hchannel, hpayload]
  dsimp only
  rw [if_neg]
  rintro ⟨htag, hboth⟩
  cases hentry : isRawCompactEntry payload with
  | false => exact hraw ⟨htag, hentry⟩
  | true =>
    rw [hentry, isValidMergedPacket_of_raw hentry] at hboth
    cases hboth

theorem compactMergedEntriesFrom_none (h : compactEntry tag (len :: rest) = none) (fuel : ℕ) :
    compactMergedEntriesFrom connectionNumber fuel (tag :: len :: rest) = [] := by
  cases fuel with
  | zero => rfl
  | succ fuel =>
    have htag : decide (tag &&& 0x40#8 ≠ 0#8) = isRawTag tag := rfl
    rw [compactMergedEntriesFrom, htag]
    rcases compactEntry_none h with hchannel | hpayload
    · rw [if_pos hchannel]
    · split
      · rfl
      · cases hread : compactPayload tag (len :: rest) with
        | none => rfl
        | some read =>
          obtain ⟨hraw, hentry⟩ := hpayload read.1 read.2 hread
          dsimp only
          rw [if_pos hraw, hentry]
          rfl

theorem compactMergedEntriesFrom_some
    (h : compactEntry tag (len :: rest) = some (payload, left)) (fuel : ℕ) :
    compactMergedEntriesFrom connectionNumber (fuel + 1) (tag :: len :: rest) =
      compactPacket connectionNumber tag payload ::
        compactMergedEntriesFrom connectionNumber fuel left := by
  obtain ⟨hchannel, hpayload, hraw⟩ := compactEntry_some h
  have htag : decide (tag &&& 0x40#8 ≠ 0#8) = isRawTag tag := rfl
  rw [compactMergedEntriesFrom, htag, if_neg hchannel, hpayload]
  dsimp only
  rw [compactPacket]
  split
  · next hyes =>
    rw [if_pos]
    cases hentry : isRawCompactEntry payload with
    | false => exact absurd ⟨hyes, hentry⟩ hraw
    | true => rfl
  · rfl

end

/-! ### A failing entry cuts the walk -/

/-- No entry fails. -/
def neverFails : ℕ → Bool := fun _ => false

theorem neverFails_ne (call : ℕ) : ¬neverFails call = true := nofun

/-- `walk` is `whole` up to an entry that failed, or all of it. -/
structure Walk.CutOf (walk whole : Walk) : Prop where
  entries : walk.entries <+: whole.entries
  unfailed : walk.failed = false → walk = whole

namespace Walk

theorem CutOf.refl (walk : Walk) : walk.CutOf walk := ⟨List.prefix_rfl, fun _ => rfl⟩

theorem CutOf.after {walk whole : Walk} (h : walk.CutOf whole) (packet : Bytes)
    (disposition : Disposition) :
    (walk.after packet disposition).CutOf (whole.after packet disposition) := by
  refine ⟨(List.prefix_cons_inj _).mpr h.entries, ?_⟩
  intro hfailed
  rw [h.unfailed hfailed]

theorem CutOf.fail (whole : Walk) (packet left : Bytes) :
    Walk.CutOf ⟨[(packet, .dispatched)], left, true⟩ (whole.after packet .dispatched) :=
  ⟨(List.prefix_cons_inj _).mpr (List.nil_prefix), nofun⟩

end Walk

theorem processMergedFrom_cut (fails : ℕ → Bool) (call call' : ℕ) (bytes : Bytes) :
    (processMergedFrom fails call bytes).CutOf (processMergedFrom neverFails call' bytes) := by
  fun_induction processMergedFrom fails call bytes generalizing call' with
  | case1 call a b rest size hstop =>
    rw [processMergedFrom, if_pos hstop]
    exact .refl _
  | case2 call a b rest size hstop packet hnested ih =>
    rw [processMergedFrom, if_neg hstop, if_pos hnested]
    exact (ih call').after _ _
  | case3 call a b rest size hstop packet hnested hvalid hfails =>
    rw [processMergedFrom, if_neg hstop, if_neg hnested, if_pos hvalid]
    exact .fail _ _ _
  | case4 call a b rest size hstop packet hnested hvalid hfails ih =>
    rw [processMergedFrom, if_neg hstop, if_neg hnested, if_pos hvalid]
    exact (ih (call' + 1)).after _ _
  | case5 call a b rest size hstop packet hnested hvalid ih =>
    rw [processMergedFrom, if_neg hstop, if_neg hnested, if_neg hvalid]
    exact (ih call').after _ _
  | case6 call bytes hshort =>
    rw [processMergedFrom]
    · exact .refl _
    · exact hshort

variable (connectionNumber : BitVec 2)

theorem processCompactMergedFrom_cut (fails : ℕ → Bool) (call call' : ℕ) (bytes : Bytes) :
    (processCompactMergedFrom connectionNumber fails call bytes).CutOf
      (processCompactMergedFrom connectionNumber neverFails call' bytes) := by
  induction bytes using compactInduction generalizing call call' with
  | nil =>
    rw [processCompactMergedFrom_nil, processCompactMergedFrom_nil]
    exact .refl _
  | single tag =>
    rw [processCompactMergedFrom_single, processCompactMergedFrom_single]
    exact .refl _
  | refused tag len rest h =>
    rw [processCompactMergedFrom_none h, processCompactMergedFrom_none h]
    exact .refl _
  | entry tag len rest payload left h ih =>
    rw [processCompactMergedFrom_some h, processCompactMergedFrom_some h,
      if_neg (neverFails_ne call')]
    split
    · exact .fail _ _ _
    · exact (ih (call + 1) (call' + 1)).after _ _

/-! ### The validators -/

/-- The walk read the datagram to its end: every entry was dispatched or is nested, and at least one
was dispatched, the `n` before the walk included. -/
structure Walk.Reads (walk : Walk) (n : ℕ) : Prop where
  left : walk.left = []
  unfailed : walk.failed = false
  valid : ∀ e ∈ walk.entries, e.2 ≠ .invalid
  some_dispatched : 0 < n + walk.dispatched.length

namespace Walk

variable (walk : Walk)

theorem dispatched_after (packet : Bytes) (disposition : Disposition) :
    (walk.after packet disposition).dispatched =
      if disposition = .dispatched then packet :: walk.dispatched else walk.dispatched := by
  unfold dispatched after
  cases disposition <;> rfl

theorem reads_stop (left : Bytes) (n : ℕ) : (stop left).Reads n ↔ left = [] ∧ 0 < n :=
  ⟨fun h => ⟨h.left, h.some_dispatched⟩, fun h => ⟨h.1, rfl, nofun, h.2⟩⟩

theorem reads_after_nested (packet : Bytes) (n : ℕ) :
    (walk.after packet .nested).Reads n ↔ walk.Reads n := by
  have hdispatched := walk.dispatched_after packet .nested
  rw [if_neg (by decide)] at hdispatched
  constructor
  · intro h
    refine ⟨h.left, h.unfailed, fun e he => h.valid e (.tail _ he), ?_⟩
    rw [← hdispatched]
    exact h.some_dispatched
  · intro h
    refine ⟨h.left, h.unfailed, ?_, ?_⟩
    · intro e he
      rcases List.mem_cons.mp he with heq | he
      · rw [heq]
        exact nofun
      · exact h.valid e he
    · rw [hdispatched]
      exact h.some_dispatched

theorem reads_after_dispatched (packet : Bytes) (n : ℕ) :
    (walk.after packet .dispatched).Reads n ↔ walk.Reads (n + 1) := by
  have hdispatched := walk.dispatched_after packet .dispatched
  rw [if_pos rfl] at hdispatched
  constructor
  · intro h
    refine ⟨h.left, h.unfailed, fun e he => h.valid e (.tail _ he), ?_⟩
    omega
  · intro h
    refine ⟨h.left, h.unfailed, ?_, ?_⟩
    · intro e he
      rcases List.mem_cons.mp he with heq | he
      · rw [heq]
        exact nofun
      · exact h.valid e he
    · rw [hdispatched, List.length_cons]
      omega

theorem not_reads_after_invalid (packet : Bytes) (n : ℕ) :
    ¬(walk.after packet .invalid).Reads n :=
  fun h => h.valid _ (.head _) rfl

end Walk

theorem exists_fuel {b : Byte} {bytes : Bytes} {fuel : ℕ} (h : (b :: bytes).length ≤ fuel) :
    ∃ k, fuel = k + 1 := Nat.exists_eq_add_one.mpr (Nat.zero_lt_of_lt h)

/-- **The plain validator reads what the plain processor reads.** -/
theorem wellFormedMergedFrom_iff (fuel call n : ℕ) (bytes : Bytes) (hfuel : bytes.length ≤ fuel) :
    wellFormedMergedFrom fuel bytes n = true ↔
      (processMergedFrom neverFails call bytes).Reads n := by
  generalize hfails : neverFails = fails
  fun_induction processMergedFrom fails call bytes generalizing fuel n with
  | case1 call a b rest size hstop =>
    rw [Walk.reads_stop]
    cases fuel with
    | zero => exact ⟨nofun, nofun⟩
    | succ fuel =>
      rw [wellFormedMergedFrom, if_pos hstop]
      exact ⟨nofun, nofun⟩
  | case2 call a b rest size hstop packet hnested ih =>
    obtain ⟨fuel, rfl⟩ := exists_fuel hfuel
    rw [Walk.reads_after_nested, wellFormedMergedFrom, if_neg hstop, if_pos hnested]
    exact ih fuel n (by simp at hfuel ⊢; omega)
  | case3 call a b rest size hstop packet hnested hvalid hcall =>
    rw [← hfails] at hcall
    cases hcall
  | case4 call a b rest size hstop packet hnested hvalid hcall ih =>
    obtain ⟨fuel, rfl⟩ := exists_fuel hfuel
    rw [Walk.reads_after_dispatched, wellFormedMergedFrom, if_neg hstop, if_neg hnested,
      if_pos hvalid]
    exact ih fuel (n + 1) (by simp at hfuel ⊢; omega)
  | case5 call a b rest size hstop packet hnested hvalid ih =>
    obtain ⟨fuel, rfl⟩ := exists_fuel hfuel
    rw [wellFormedMergedFrom, if_neg hstop, if_neg hnested, if_neg hvalid]
    exact ⟨nofun, fun h => absurd h (Walk.not_reads_after_invalid _ _ _)⟩
  | case6 call bytes hshort =>
    rw [Walk.reads_stop]
    cases bytes with
    | nil =>
      cases fuel <;> simp [wellFormedMergedFrom]
    | cons a bytes =>
      cases bytes with
      | nil => cases fuel <;> exact ⟨nofun, nofun⟩
      | cons b rest => exact (hshort a b rest rfl).elim

/-- **The compact validator reads what the compact processor reads.** -/
theorem wellFormedCompactMergedFrom_iff (fuel call n : ℕ) (bytes : Bytes)
    (hfuel : bytes.length ≤ fuel) :
    wellFormedCompactMergedFrom fuel bytes n = true ↔
      (processCompactMergedFrom connectionNumber neverFails call bytes).Reads n := by
  induction bytes using compactInduction generalizing fuel call n with
  | nil =>
    rw [processCompactMergedFrom_nil, Walk.reads_stop]
    cases fuel <;> simp [wellFormedCompactMergedFrom]
  | single tag =>
    rw [processCompactMergedFrom_single, Walk.reads_stop]
    cases fuel <;> exact ⟨nofun, nofun⟩
  | refused tag len rest h =>
    rw [processCompactMergedFrom_none h, Walk.reads_stop, wellFormedCompactMergedFrom_none h]
    exact ⟨nofun, nofun⟩
  | entry tag len rest payload left h ih =>
    have hlt := compactPayload_length (compactEntry_some h).2.1
    rw [List.length_cons] at hfuel hlt
    obtain ⟨fuel, rfl⟩ : ∃ k, fuel = k + 1 := Nat.exists_eq_add_one.mpr (by omega)
    rw [processCompactMergedFrom_some h, if_neg (neverFails_ne call), Walk.reads_after_dispatched,
      wellFormedCompactMergedFrom_some h]
    exact ih fuel (call + 1) (n + 1) (by simp at hfuel; omega)

/-! ### Validators and processors agree -/

/-- Which entries the plain processor passes over as nested. -/
theorem processMergedFrom_nested (fails : ℕ → Bool) (call : ℕ) (bytes : Bytes) :
    ∀ e ∈ (processMergedFrom fails call bytes).entries,
      e.2 = .nested ↔ isNestedMergedPacket e.1 = true := by
  fun_induction processMergedFrom fails call bytes with
  | case1 => exact nofun
  | case2 call a b rest size hstop packet hnested ih =>
    intro e he
    rcases List.mem_cons.mp he with heq | he
    · rw [heq]
      exact ⟨fun _ => hnested, fun _ => rfl⟩
    · exact ih e he
  | case3 call a b rest size hstop packet hnested hvalid hcall =>
    intro e he
    rw [List.mem_singleton.mp he]
    exact ⟨nofun, fun h => absurd h hnested⟩
  | case4 call a b rest size hstop packet hnested hvalid hcall ih
  | case5 call a b rest size hstop packet hnested hvalid ih =>
    intro e he
    rcases List.mem_cons.mp he with heq | he
    · rw [heq]
      exact ⟨nofun, fun h => absurd h hnested⟩
    · exact ih e he
  | case6 => exact nofun

/-- The compact processor dispatches every entry it reads. -/
theorem processCompactMergedFrom_dispatched (fails : ℕ → Bool) (call : ℕ) (bytes : Bytes) :
    ∀ e ∈ (processCompactMergedFrom connectionNumber fails call bytes).entries,
      e.2 = .dispatched := by
  induction bytes using compactInduction generalizing call with
  | nil =>
    rw [processCompactMergedFrom_nil]
    exact nofun
  | single tag =>
    rw [processCompactMergedFrom_single]
    exact nofun
  | refused tag len rest h =>
    rw [processCompactMergedFrom_none h]
    exact nofun
  | entry tag len rest payload left h ih =>
    rw [processCompactMergedFrom_some h]
    intro e he
    split at he
    · rw [List.mem_singleton.mp he]
    · rcases List.mem_cons.mp he with heq | he
      · rw [heq]
      · exact ih (call + 1) e he

/-- What `nestedEntries` unpacks is what the plain processor dispatches. -/
theorem mergedEntriesFrom_eq (fuel call : ℕ) (bytes : Bytes) (hfuel : bytes.length ≤ fuel) :
    mergedEntriesFrom fuel bytes = (processMergedFrom neverFails call bytes).dispatched := by
  generalize hfails : neverFails = fails
  fun_induction processMergedFrom fails call bytes generalizing fuel with
  | case1 call a b rest size hstop =>
    cases fuel with
    | zero => rfl
    | succ fuel =>
      rw [mergedEntriesFrom, if_pos hstop]
      rfl
  | case2 call a b rest size hstop packet hnested ih =>
    obtain ⟨fuel, rfl⟩ := exists_fuel hfuel
    rw [mergedEntriesFrom, if_neg hstop, if_pos hnested, Walk.dispatched_after]
    exact ih fuel (by simp at hfuel ⊢; omega)
  | case3 call a b rest size hstop packet hnested hvalid hcall =>
    rw [← hfails] at hcall
    cases hcall
  | case4 call a b rest size hstop packet hnested hvalid hcall ih =>
    obtain ⟨fuel, rfl⟩ := exists_fuel hfuel
    rw [mergedEntriesFrom, if_neg hstop, if_neg hnested, if_pos hvalid, Walk.dispatched_after,
      if_pos rfl, ih fuel (by simp at hfuel ⊢; omega)]
  | case5 call a b rest size hstop packet hnested hvalid ih =>
    obtain ⟨fuel, rfl⟩ := exists_fuel hfuel
    rw [mergedEntriesFrom, if_neg hstop, if_neg hnested, if_neg hvalid, Walk.dispatched_after]
    exact ih fuel (by simp at hfuel ⊢; omega)
  | case6 call bytes hshort =>
    cases bytes with
    | nil => cases fuel <;> rfl
    | cons a bytes =>
      cases bytes with
      | nil => cases fuel <;> rfl
      | cons b rest => exact (hshort a b rest rfl).elim

/-- And so for the compact form. -/
theorem compactMergedEntriesFrom_eq (fuel call : ℕ) (bytes : Bytes) (hfuel : bytes.length ≤ fuel) :
    compactMergedEntriesFrom connectionNumber fuel bytes =
      (processCompactMergedFrom connectionNumber neverFails call bytes).dispatched := by
  induction bytes using compactInduction generalizing fuel call with
  | nil =>
    rw [processCompactMergedFrom_nil]
    cases fuel <;> rfl
  | single tag =>
    rw [processCompactMergedFrom_single]
    cases fuel <;> rfl
  | refused tag len rest h =>
    rw [processCompactMergedFrom_none h, compactMergedEntriesFrom_none h]
    rfl
  | entry tag len rest payload left h ih =>
    have hlt := compactPayload_length (compactEntry_some h).2.1
    rw [List.length_cons] at hfuel hlt
    obtain ⟨fuel, rfl⟩ : ∃ k, fuel = k + 1 := Nat.exists_eq_add_one.mpr (by omega)
    rw [processCompactMergedFrom_some h, if_neg (neverFails_ne call), Walk.dispatched_after,
      if_pos rfl, compactMergedEntriesFrom_some h, ih fuel (call + 1) (by simp at hfuel; omega)]

theorem processMergedPacket_reads (bytes : Bytes) :
    isWellFormedMerged bytes = true ↔ (processMergedPacket neverFails bytes).Reads 0 :=
  wellFormedMergedFrom_iff bytes.length 0 0 (bytes.drop 1) (by simp)

theorem processCompactMergedPacket_reads (bytes : Bytes) :
    isWellFormedCompactMerged bytes = true ↔
      (processCompactMergedPacket connectionNumber neverFails bytes).Reads 0 :=
  wellFormedCompactMergedFrom_iff connectionNumber bytes.length 0 0 (bytes.drop 1) (by simp)

/-- **The way to the dispatch unpacks what the processors dispatch.** -/
theorem nestedEntries_eq (property : PacketProperty) (bytes : Bytes) :
    nestedEntries connectionNumber property bytes =
      ((unpackMerged connectionNumber neverFails property bytes).map Walk.dispatched).getD [] := by
  cases property with
  | merged =>
    rw [nestedEntries, unpackMerged]
    split
    · exact mergedEntriesFrom_eq _ 0 _ (by simp)
    · rfl
  | compactMerged =>
    rw [nestedEntries, unpackMerged]
    split
    · exact compactMergedEntriesFrom_eq connectionNumber _ 0 _ (by simp)
    · rfl
  | _ => rfl

/-- A datagram that is unpacked has a walk that reads it to the end, and its own is that walk or a
cut of it. -/
theorem unpackMerged_some {connectionNumber : BitVec 2} {fails : ℕ → Bool}
    {property : PacketProperty} {bytes : Bytes} {walk : Walk}
    (h : unpackMerged connectionNumber fails property bytes = some walk) :
    ∃ whole, unpackMerged connectionNumber neverFails property bytes = some whole ∧
      whole.Reads 0 ∧ walk.CutOf whole := by
  cases property with
  | merged =>
    rw [unpackMerged] at h ⊢
    split at h
    · next hwell =>
      rw [if_pos hwell, ← Option.some.inj h]
      exact ⟨_, rfl, (processMergedPacket_reads bytes).mp hwell, processMergedFrom_cut _ _ _ _⟩
    · cases h
  | compactMerged =>
    rw [unpackMerged] at h ⊢
    split at h
    · next hwell =>
      rw [if_pos hwell, ← Option.some.inj h]
      exact ⟨_, rfl, (processCompactMergedPacket_reads connectionNumber bytes).mp hwell,
        processCompactMergedFrom_cut _ _ _ _ _⟩
    · cases h
  | _ => cases h

/-- **The validators agree with the processors.** A validator accepts a datagram if and only if the
processor, when no entry fails, reads it to the end, with every entry dispatched or, in the plain
form, nested, and at least one dispatched.  So a datagram is rejected with no entry dispatched, or
it is read to its end, unless processing an entry fails, where the walk is cut. -/
theorem merged_validators_agree (connectionNumber : BitVec 2) (bytes : Bytes) :
    (isWellFormedMerged bytes = true ↔
      let walk := processMergedPacket neverFails bytes
      walk.left = [] ∧ walk.failed = false ∧ walk.dispatched ≠ [] ∧
        ∀ e ∈ walk.entries,
          e.2 = if isNestedMergedPacket e.1 = true then .nested else .dispatched) ∧
    (isWellFormedCompactMerged bytes = true ↔
      let walk := processCompactMergedPacket connectionNumber neverFails bytes
      walk.left = [] ∧ walk.failed = false ∧ walk.dispatched ≠ [] ∧
        ∀ e ∈ walk.entries, e.2 = .dispatched) ∧
    ∀ fails property walk, unpackMerged connectionNumber fails property bytes = some walk →
      ∃ whole, unpackMerged connectionNumber neverFails property bytes = some whole ∧
        whole.left = [] ∧ walk.entries <+: whole.entries ∧
        (walk.failed = false → walk = whole) := by
  refine ⟨?_, ?_, ?_⟩
  · have hnested := processMergedFrom_nested neverFails 0 (bytes.drop 1)
    rw [processMergedPacket_reads]
    constructor
    · intro h
      refine ⟨h.left, h.unfailed, ?_, ?_⟩
      · apply List.ne_nil_of_length_pos
        simpa using h.some_dispatched
      · intro e he
        have hvalid := h.valid e he
        have hiff := hnested e he
        split
        · next hyes => exact hiff.mpr hyes
        · next hno =>
          cases hdisposition : e.2 with
          | dispatched => rfl
          | nested => exact absurd (hiff.mp hdisposition) hno
          | invalid => exact absurd hdisposition hvalid
    · intro h
      refine ⟨h.1, h.2.1, ?_, ?_⟩
      · intro e he
        rw [h.2.2.2 e he]
        split <;> exact nofun
      · simpa using List.length_pos_of_ne_nil h.2.2.1
  · rw [processCompactMergedPacket_reads connectionNumber]
    constructor
    · intro h
      refine ⟨h.left, h.unfailed, ?_, processCompactMergedFrom_dispatched _ _ _ _⟩
      apply List.ne_nil_of_length_pos
      simpa using h.some_dispatched
    · intro h
      refine ⟨h.1, h.2.1, ?_, ?_⟩
      · intro e he
        rw [h.2.2.2 e he]
        exact nofun
      · simpa using List.length_pos_of_ne_nil h.2.2.1
  · intro fails property walk hwalk
    obtain ⟨whole, hwhole, hreads, hcut⟩ := unpackMerged_some hwalk
    exact ⟨whole, hwhole, hreads.left, hcut.entries, hcut.unfailed⟩

/-- Three packets; processing the second one fails. -/
def failingSample : Bytes := [12, 2, 0, 0, 7, 2, 0, 0, 8, 2, 0, 0, 9]

/-- An accepted datagram is walked up to the entry that fails. -/
theorem merged_validators_agree_failing : ∃ whole,
    unpackMerged 0 neverFails .merged failingSample = some whole ∧ whole.left = [] ∧
    [([0, 7], .dispatched), ([0, 8], Disposition.dispatched)] <+: whole.entries := by
  have hwalk : unpackMerged 0 (fun call => decide (call = 1)) .merged failingSample =
      some ⟨[([0, 7], .dispatched), ([0, 8], .dispatched)], [2, 0, 0, 9], true⟩ := by
    show (if isWellFormedMerged failingSample then
      some (processMergedFrom _ 0 [2, 0, 0, 7, 2, 0, 0, 8, 2, 0, 0, 9]) else none) = _
    rw [if_pos (by decide), processMergedFrom]
    show some ((processMergedFrom _ 1 [2, 0, 0, 8, 2, 0, 0, 9]).after _ _) = _
    rw [processMergedFrom]
    rfl
  obtain ⟨-, -, hcut⟩ := merged_validators_agree 0 failingSample
  obtain ⟨whole, hwhole, hleft, hprefix, -⟩ := hcut _ _ _ hwalk
  exact ⟨whole, hwhole, hleft, hprefix⟩

/-- A nested entry in front of an unreliable packet. -/
def nestedSample : Bytes := [12, 1, 0, 12, 2, 0, 0, 7]

/-- Not every entry of an accepted datagram is dispatched: a nested one is passed over. -/
theorem merged_validator_accepts_nested :
    ¬∀ bytes, isWellFormedMerged bytes = true ↔
      let walk := processMergedPacket neverFails bytes
      walk.left = [] ∧ walk.failed = false ∧ ∀ e ∈ walk.entries, e.2 = .dispatched := by
  intro h
  have hall := ((h nestedSample).mp (by decide)).2.2
  have hmem : ([12], Disposition.nested) ∈
      (processMergedPacket neverFails nestedSample).entries := by
    show _ ∈ (processMergedFrom neverFails 0 [1, 0, 12, 2, 0, 0, 7]).entries
    rw [processMergedFrom, if_neg (by decide), if_pos (by decide)]
    exact List.mem_cons_self
  cases hall _ hmem

end BasisRust.Transport
