import BasisRust.Library.AssocList
import BasisRust.Transport.SendInvariant

/-!
# Reassembly of fragmented messages

A peer keeps the parts of the fragmented messages it is receiving in `IncomingFragmentState`, one
assembly for each pair of channel id and fragment id.  Opening an assembly needs memory budgets that
are shared by all peers; whether they are granted is the environment's answer (`ReserveAnswers`).

The second half is the specification for a sender that cuts messages as `fragmentPackets` does and a
receiver that inserts the parts in order: `Assembling` says how far an assembly has come,
`insert_first` and `insert_next` that no part of such a message is ever invalid, and that the last
part gives back the message.
-/

namespace BasisRust.Transport

open Library

/-! ### State -/

def maxIncomingFragmentAssemblies : ℕ := 4
def maxIncomingFragmentBytesPerPeer : ℕ := 128 * 1024

/-- The largest of the MTU steps. -/
def litenetlibMaxMtu : ℕ := 1432

def maxFragmentPayload : ℕ := litenetlibMaxMtu - litenetlibFragmentedHeaderSize

/-- An assembly.  `completionBudgets` tells for which parts a budget token is still put aside. -/
structure IncomingFragmentAssembly where
  total : ℕ
  parts : List (Option Bytes)
  received : ℕ
  bytes : ℕ
  reservedBytes : ℕ
  fragmentSize : Option ℕ
  completionBudgets : List Bool
  deriving DecidableEq

structure IncomingFragmentState where
  assemblies : List ((Byte × ℕ) × IncomingFragmentAssembly)
  bytes : ℕ
  reservedBytes : ℕ
  deriving DecidableEq

def IncomingFragmentState.empty : IncomingFragmentState := ⟨[], 0, 0⟩

inductive FragmentInsertError where
  | invalid
  | limit
  | budget
  deriving DecidableEq

/-- What the shared reorder budget answers while an assembly is opened. -/
structure ReserveAnswers where
  metadata : Bool
  part : ℕ → Bool

/-- The checks on a fragment that do not depend on the state. -/
def fragmentMalformed (fragment : ReliableFragment) (payload : Bytes) : Bool :=
  decide (fragment.total < 2) || decide (fragment.total > maxIncomingFragmentParts) ||
    decide (fragment.part ≥ fragment.total) || payload.isEmpty ||
    decide (payload.length > maxFragmentPayload)

namespace IncomingFragmentState

/-- Take the budget token put aside for a part, if there is one. -/
def takeCompletionBudget (s : IncomingFragmentState) (channelId : Byte)
    (fragment : ReliableFragment) : Bool × IncomingFragmentState :=
  match assocGet (channelId, fragment.id) s.assemblies with
  | none => (false, s)
  | some assembly =>
    if assembly.completionBudgets.getD fragment.part false then
      (true, { s with
        assemblies := assocSet (channelId, fragment.id)
          { assembly with
            completionBudgets := assembly.completionBudgets.set fragment.part false }
          s.assemblies })
    else (false, s)

/-- Find the assembly of a fragment or open one. -/
def openAssembly (s : IncomingFragmentState) (channelId : Byte) (fragment : ReliableFragment)
    (payload : Bytes) (answers : ReserveAnswers) (alreadyBuffered : ℕ → Bool) :
    Except FragmentInsertError (IncomingFragmentState × IncomingFragmentAssembly) :=
  match assocGet (channelId, fragment.id) s.assemblies with
  | some assembly => .ok (s, assembly)
  | none =>
    if s.assemblies.length ≥ maxIncomingFragmentAssemblies then .error .limit
    else
      let finalPart := decide (fragment.part + 1 = fragment.total)
      let minimumMessageBytes := if finalPart then 1 else (fragment.total - 1) * payload.length + 1
      if minimumMessageBytes > maxIncomingFragmentBytesPerPeer then .error .invalid
      else
        let reservedBytes :=
          if finalPart then maxIncomingFragmentBytesPerPeer
          else min (fragment.total * payload.length) maxIncomingFragmentBytesPerPeer
        if s.reservedBytes + reservedBytes > maxIncomingFragmentBytesPerPeer then .error .limit
        else if !answers.metadata then .error .budget
        else if !(List.range fragment.total).all fun i =>
            decide (i = fragment.part) || alreadyBuffered i || answers.part i then .error .budget
        else
          let assembly : IncomingFragmentAssembly :=
            { total := fragment.total
              parts := List.replicate fragment.total none
              received := 0
              bytes := 0
              reservedBytes := reservedBytes
              fragmentSize := none
              completionBudgets := (List.range fragment.total).map fun i =>
                !(decide (i = fragment.part) || alreadyBuffered i) }
          .ok ({ s with
            assemblies := assocSet (channelId, fragment.id) assembly s.assemblies
            reservedBytes := s.reservedBytes + reservedBytes }, assembly)

/-- The size rule: all parts but the last have one size, the last is not larger.  `none` is an
invalid fragment; the first full part fixes the size and the reservation. -/
def checkPartSize (assembly : IncomingFragmentAssembly) (fragment : ReliableFragment)
    (payload : Bytes) : Option IncomingFragmentAssembly :=
  if fragment.part + 1 ≠ fragment.total then
    match assembly.fragmentSize with
    | some size => if size ≠ payload.length then none else some assembly
    | none =>
      if assembly.parts.zipIdx.any (fun x => decide (x.2 + 1 ≠ fragment.total) &&
            x.1.any fun p => decide (p.length ≠ payload.length)) ||
          (assembly.parts.getLast?.join.any fun p => decide (p.length > payload.length)) then none
      else if (assembly.total - 1) * payload.length + 1 > maxIncomingFragmentBytesPerPeer then none
      else some { assembly with
        reservedBytes := min (assembly.total * payload.length) maxIncomingFragmentBytesPerPeer
        fragmentSize := some payload.length }
  else if assembly.fragmentSize.any fun size => decide (payload.length > size) then none
  else some assembly

/-- Put a part into its assembly, and take the assembly out when it is complete. -/
def insertPart (s : IncomingFragmentState) (channelId : Byte) (fragment : ReliableFragment)
    (payload : Bytes) (assembly : IncomingFragmentAssembly) :
    Except FragmentInsertError (Option (Bytes × ℕ)) × IncomingFragmentState :=
  let key := (channelId, fragment.id)
  if assembly.total ≠ fragment.total then (.error .invalid, s)
  else
    match assembly.parts.getD fragment.part none with
    | some existing => if existing ≠ payload then (.error .invalid, s) else (.ok none, s)
    | none =>
      match checkPartSize assembly fragment payload with
      | none => (.error .invalid, s)
      | some sized =>
        let reservedBytes := s.reservedBytes - (assembly.reservedBytes - sized.reservedBytes)
        if sized.bytes + payload.length > maxIncomingFragmentBytesPerPeer then
          (.error .invalid, { s with
            assemblies := assocSet key sized s.assemblies
            reservedBytes := reservedBytes })
        else
          let filled := { sized with
            bytes := sized.bytes + payload.length
            received := sized.received + 1
            parts := sized.parts.set fragment.part (some payload)
            completionBudgets := sized.completionBudgets.set fragment.part false }
          if filled.received ≠ filled.total then
            (.ok none, { s with
              assemblies := assocSet key filled s.assemblies
              bytes := s.bytes + payload.length
              reservedBytes := reservedBytes })
          else
            (.ok (some ((filled.parts.map fun p => p.getD []).flatten, filled.received)),
              { s with
                assemblies := assocErase key s.assemblies
                bytes := s.bytes + payload.length - filled.bytes
                reservedBytes := reservedBytes - filled.reservedBytes })

/-- Insert a fragment; a complete message comes back with the number of budget tokens it holds. -/
def insert (s : IncomingFragmentState) (channelId : Byte) (fragment : ReliableFragment)
    (payload : Bytes) (answers : ReserveAnswers) (alreadyBuffered : ℕ → Bool) :
    Except FragmentInsertError (Option (Bytes × ℕ)) × IncomingFragmentState :=
  if fragmentMalformed fragment payload then (.error .invalid, s)
  else
    match openAssembly s channelId fragment payload answers alreadyBuffered with
    | .error e => (.error e, s)
    | .ok (s', assembly) => insertPart s' channelId fragment payload assembly

/-- The assembly of a channel under a fragment id. -/
def get (s : IncomingFragmentState) (channelId : Byte) (id : ℕ) : Option IncomingFragmentAssembly :=
  assocGet (channelId, id) s.assemblies

end IncomingFragmentState

/-! ### Frames -/

namespace IncomingFragmentState

variable {s s' : IncomingFragmentState} {c d : Byte} {f : ReliableFragment} {payload : Bytes}
  {id : ℕ}

theorem get_set (s : IncomingFragmentState) (c d : Byte) (i id : ℕ)
    (a : IncomingFragmentAssembly) (b r : ℕ) :
    get ⟨assocSet (c, i) a s.assemblies, b, r⟩ d id =
      if d = c ∧ id = i then some a else s.get d id := by
  by_cases h : d = c ∧ id = i
  · obtain ⟨rfl, rfl⟩ := h
    simp [get]
  · rw [if_neg h, get, get]
    exact assocGet_set_of_ne (by simpa [Prod.ext_iff] using h) _ _

theorem get_erase (s : IncomingFragmentState) (c d : Byte) (i id : ℕ) (b r : ℕ) :
    get ⟨assocErase (c, i) s.assemblies, b, r⟩ d id =
      if d = c ∧ id = i then none else s.get d id := by
  by_cases h : d = c ∧ id = i
  · obtain ⟨rfl, rfl⟩ := h
    simp [get]
  · rw [if_neg h, get, get]
    exact assocGet_erase_of_ne (by simpa [Prod.ext_iff] using h) _

/-- Taking a token changes nothing but the token. -/
theorem takeCompletionBudget_get (s : IncomingFragmentState) (c d : Byte)
    (f : ReliableFragment) (id : ℕ) :
    ((s.takeCompletionBudget c f).2.get d id = s.get d id) ∨
      (d = c ∧ id = f.id ∧ ∃ a, s.get d id = some a ∧ (s.takeCompletionBudget c f).2.get d id =
        some { a with completionBudgets := a.completionBudgets.set f.part false }) := by
  simp only [takeCompletionBudget]
  cases ha : assocGet (c, f.id) s.assemblies with
  | none => exact .inl rfl
  | some a =>
    dsimp only
    split_ifs
    · rw [get_set]
      split_ifs with h
      · obtain ⟨rfl, rfl⟩ := h
        exact .inr ⟨rfl, rfl, a, ha, rfl⟩
      · exact .inl rfl
    · exact .inl rfl

/-- **Frame.**  Inserting a fragment touches only the assembly with its key. -/
theorem insert_get_of_ne (s : IncomingFragmentState) (c d : Byte) (f : ReliableFragment)
    (payload : Bytes) (answers : ReserveAnswers) (buffered : ℕ → Bool) (id : ℕ)
    (h : ¬ (d = c ∧ id = f.id)) :
    (s.insert c f payload answers buffered).2.get d id = s.get d id := by
  have hpart : ∀ (t : IncomingFragmentState) (a : IncomingFragmentAssembly),
      (t.insertPart c f payload a).2.get d id = t.get d id := by
    intro t a
    rw [insertPart]
    split_ifs
    · rfl
    · split
      · split_ifs <;> rfl
      · split
        · rfl
        · dsimp only
          split_ifs <;> simp only [get_set, get_erase, if_neg h]
  rw [insert]
  split_ifs
  · rfl
  · cases hopen : s.openAssembly c f payload answers buffered with
    | error e => rfl
    | ok r =>
      obtain ⟨t, a⟩ := r
      have ht : t.get d id = s.get d id := by
        simp only [openAssembly] at hopen
        split at hopen
        · cases hopen
          rfl
        · generalize (if decide (f.part + 1 = f.total) = true then 1
            else (f.total - 1) * payload.length + 1) = minimum at hopen
          generalize (if decide (f.part + 1 = f.total) = true then maxIncomingFragmentBytesPerPeer
            else min (f.total * payload.length) maxIncomingFragmentBytesPerPeer) = reserved at hopen
          split_ifs at hopen
          cases hopen
          rw [get_set, if_neg h]
      exact (hpart t a).trans ht

end IncomingFragmentState

/-! ### Messages that are cut as the sender does -/

/-- Part `j` of a payload. -/
def partOf (payload : Bytes) (j : ℕ) : Bytes :=
  slice payload (j * reliableFragmentPayloadSize) reliableFragmentPayloadSize

theorem chunks_getElem? {payload : Bytes} {j : ℕ} (h : j < fragmentParts payload) :
    (chunks payload)[j]? = some (partOf payload j) := by
  simp [chunks, h, partOf]

theorem partOf_length (payload : Bytes) (j : ℕ) :
    (partOf payload j).length = min reliableFragmentPayloadSize
      (payload.length - j * reliableFragmentPayloadSize) := by
  simp [partOf, slice]

/-- The sizes at which a payload is cut. -/
structure CutPayload (payload : Bytes) : Prop where
  large : litenetlibInitialMtu < payload.length + litenetlibChanneledHeaderSize
  bounded : payload.length ≤ maxReliableFragmentedMessageBytes

namespace CutPayload

variable {payload : Bytes} {j : ℕ}

theorem two_le_parts (h : CutPayload payload) : 2 ≤ fragmentParts payload := by
  have hl := h.large
  simp only [litenetlibInitialMtu, litenetlibChanneledHeaderSize] at hl
  have hsize : reliableFragmentPayloadSize = 1014 := rfl
  rw [fragmentParts, hsize]
  omega

theorem parts_le (h : CutPayload payload) : fragmentParts payload ≤ 128 := by
  have hb := h.bounded
  have hmax : maxReliableFragmentedMessageBytes = 129792 := rfl
  have hsize : reliableFragmentPayloadSize = 1014 := rfl
  rw [fragmentParts, hsize]
  omega

/-- All parts but the last are full. -/
theorem full_part (hj : j + 1 < fragmentParts payload) : (partOf payload j).length = 1014 := by
  have hsize : reliableFragmentPayloadSize = 1014 := rfl
  rw [fragmentParts, hsize] at hj
  rw [partOf_length, hsize]
  omega

theorem part_pos (hj : j < fragmentParts payload) : 0 < (partOf payload j).length := by
  have hsize : reliableFragmentPayloadSize = 1014 := rfl
  rw [fragmentParts, hsize] at hj
  rw [partOf_length, hsize]
  omega

theorem part_le (payload : Bytes) (j : ℕ) : (partOf payload j).length ≤ 1014 := by
  have hsize : reliableFragmentPayloadSize = 1014 := rfl
  rw [partOf_length, hsize]
  omega

theorem not_malformed (h : CutPayload payload) (hj : j < fragmentParts payload) (id : ℕ) :
    fragmentMalformed ⟨id, j, fragmentParts payload⟩ (partOf payload j) = false := by
  have h2 := h.two_le_parts
  have h128 := h.parts_le
  have hpos := part_pos hj
  have hle := part_le payload j
  have hne : (partOf payload j).isEmpty = false := by
    cases hp : partOf payload j with
    | nil => simp [hp] at hpos
    | cons b bs => rfl
  have hmax : maxFragmentPayload = 1422 := rfl
  have hparts : maxIncomingFragmentParts = 128 := rfl
  simp only [fragmentMalformed, hne, Bool.or_false, Bool.or_eq_false_iff]
  refine ⟨⟨⟨decide_eq_false ?_, decide_eq_false ?_⟩, decide_eq_false ?_⟩, decide_eq_false ?_⟩ <;>
    omega

end CutPayload

/-- **The packets of a message**, one by one. -/
theorem Message.packets_cases {m : Message} {j : ℕ} {p : OutgoingReliable}
    (h : m.packets[j]? = some p) :
    (m.fragmentId = none ∧ j = 0 ∧ p = ⟨m.payload, none⟩) ∨
    ∃ id, m.fragmentId = some id ∧ j < fragmentParts m.payload ∧
      p = ⟨partOf m.payload j, some ⟨id, j, fragmentParts m.payload⟩⟩ := by
  rw [Message.packets] at h
  cases hid : m.fragmentId with
  | none =>
    rw [hid, List.getElem?_singleton, Option.ite_none_right_eq_some, Option.some.injEq] at h
    exact .inl ⟨rfl, h.1, h.2.symm⟩
  | some id =>
    refine .inr ⟨id, rfl, ?_⟩
    simp only [hid, fragmentPackets, List.getElem?_map, List.getElem?_zipIdx, Option.map_map,
      Option.map_eq_some_iff, Nat.zero_add, Function.comp_apply] at h
    obtain ⟨chunk, hchunk, rfl⟩ := h
    have hlt : j < fragmentParts m.payload := by
      have := (List.getElem?_eq_some_iff.mp hchunk).1
      simpa [chunks] using this
    rw [chunks_getElem? hlt, Option.some.injEq] at hchunk
    rw [← hchunk]
    exact ⟨hlt, rfl⟩

theorem Message.packets_length (m : Message) : m.packets.length =
    match m.fragmentId with
    | none => 1
    | some _ => fragmentParts m.payload := by
  rw [Message.packets]
  cases m.fragmentId with
  | none => rfl
  | some id => simp [fragmentPackets, chunks]

/-- The assembly holds exactly the first `j` parts of `payload`. -/
structure Assembling (payload : Bytes) (j : ℕ) (a : IncomingFragmentAssembly) : Prop where
  total : a.total = fragmentParts payload
  parts : a.parts = ((chunks payload).take j).map some ++
    List.replicate (fragmentParts payload - j) none
  received : a.received = j
  bytes : a.bytes ≤ j * 1014
  size : a.fragmentSize = if j = 0 then none else some 1014

namespace Assembling

variable {payload : Bytes} {j id : ℕ} {a : IncomingFragmentAssembly}

/-- The budget tokens of an assembly do not matter for what it holds. -/
theorem of_budgets (h : Assembling payload j a) (tokens : List Bool) :
    Assembling payload j { a with completionBudgets := tokens } :=
  ⟨h.total, h.parts, h.received, h.bytes, h.size⟩

theorem take_length (hj : j ≤ fragmentParts payload) :
    (((chunks payload).take j).map some).length = j := by
  simp [hj]

section

variable (h : Assembling payload j a)
include h

theorem parts_next (hj : j < fragmentParts payload) : a.parts.getD j none = none := by
  rw [h.parts, List.getD_eq_getElem?_getD, List.getElem?_append_right (by simp),
    take_length hj.le, List.getElem?_replicate]
  split_ifs <;> rfl

theorem parts_set (hj : j < fragmentParts payload) :
    a.parts.set j (some (partOf payload j)) = ((chunks payload).take (j + 1)).map some ++
      List.replicate (fragmentParts payload - (j + 1)) none := by
  have htake : (chunks payload).take (j + 1) = (chunks payload).take j ++ [partOf payload j] := by
    rw [List.take_add_one, chunks_getElem? hj]
    rfl
  have hrep : List.replicate (fragmentParts payload - j) (none : Option Bytes) =
      none :: List.replicate (fragmentParts payload - (j + 1)) none := by
    rw [show fragmentParts payload - j = fragmentParts payload - (j + 1) + 1 from by omega]
    rfl
  rw [h.parts, htake, hrep, List.set_append_right _ _ (by simp), take_length hj.le,
    Nat.sub_self, List.set_cons_zero, List.map_append, List.append_assoc]
  rfl

/-- The size rule accepts the next part. -/
theorem checkPartSize_next (hcut : CutPayload payload) (hj : j < fragmentParts payload) :
    ∃ sized, IncomingFragmentState.checkPartSize a ⟨id, j, fragmentParts payload⟩
        (partOf payload j) = some sized ∧
      sized.total = a.total ∧ sized.parts = a.parts ∧ sized.received = a.received ∧
      sized.bytes = a.bytes ∧ sized.fragmentSize = some 1014 := by
  have h2 := hcut.two_le_parts
  have h128 := hcut.parts_le
  have hsize := h.size
  by_cases hlast : j + 1 = fragmentParts payload
  · -- the last part, after at least one full one
    have hj0 : j ≠ 0 := by omega
    rw [if_neg hj0] at hsize
    have hle := CutPayload.part_le payload j
    have hany : (a.fragmentSize.any fun size => decide ((partOf payload j).length > size)) =
        false := by
      rw [hsize, Option.any_some, decide_eq_false_iff_not]
      omega
    refine ⟨a, ?_, rfl, rfl, rfl, rfl, hsize⟩
    simp only [IncomingFragmentState.checkPartSize, ne_eq, hlast, not_true_eq_false, if_false, hany,
      Bool.false_eq_true]
  · have hfull := @CutPayload.full_part payload j (by omega)
    by_cases hj0 : j = 0
    · -- the first part fixes the size
      subst hj0
      have hempty : a.parts = List.replicate (fragmentParts payload) none := by
        simpa using h.parts
      have hmax : maxIncomingFragmentBytesPerPeer = 131072 := rfl
      have hnone : a.parts.zipIdx.any (fun x => decide (x.2 + 1 ≠ fragmentParts payload) &&
          x.1.any fun p => decide (p.length ≠ 1014)) = false := by
        rw [List.any_eq_false]
        intro x hx
        have hx1 : x.1 ∈ a.parts := List.fst_mem_of_mem_zipIdx hx
        rw [hempty] at hx1
        rw [List.eq_of_mem_replicate hx1]
        simp
      have hlastNone : (a.parts.getLast?.join.any fun p => decide (p.length > 1014)) = false := by
        rw [hempty, List.getLast?_replicate]
        split_ifs <;> rfl
      have hmin : ¬ ((a.total - 1) * 1014 + 1 > maxIncomingFragmentBytesPerPeer) := by
        rw [h.total, hmax]
        omega
      rw [if_pos rfl] at hsize
      refine ⟨{ a with
        reservedBytes := min (a.total * 1014) maxIncomingFragmentBytesPerPeer
        fragmentSize := some 1014 }, ?_, rfl, rfl, rfl, rfl, rfl⟩
      simp only [IncomingFragmentState.checkPartSize, ne_eq, hlast, not_false_eq_true, if_true,
        hsize, hfull, hlastNone, Bool.or_false, hmin, if_false]
      simp only [ne_eq] at hnone
      rw [hnone]
      rfl
    · rw [if_neg hj0] at hsize
      refine ⟨a, ?_, rfl, rfl, rfl, rfl, hsize⟩
      simp only [IncomingFragmentState.checkPartSize, ne_eq, hlast, not_false_eq_true, if_true,
        hsize, hfull, not_true_eq_false, if_false]

/-- **The next part.**  Part `j` of the message goes into its place; the last part takes the
assembly out and returns the message. -/
theorem insertPart_next (hcut : CutPayload payload) (hj : j < fragmentParts payload)
    (s : IncomingFragmentState) (c : Byte) :
    (j + 1 < fragmentParts payload ∧ ∃ s' a',
      s.insertPart c ⟨id, j, fragmentParts payload⟩ (partOf payload j) a = (.ok none, s') ∧
      s'.get c id = some a' ∧ Assembling payload (j + 1) a') ∨
    (j + 1 = fragmentParts payload ∧ ∃ s',
      s.insertPart c ⟨id, j, fragmentParts payload⟩ (partOf payload j) a =
        (.ok (some (payload, fragmentParts payload)), s') ∧ s'.get c id = none) := by
  obtain ⟨sized, hsized, htotal, hparts, hreceived, hbytes, hsize⟩ :=
    @checkPartSize_next payload j id a h hcut hj
  have hle := CutPayload.part_le payload j
  have h128 := hcut.parts_le
  have hab := h.bytes
  have hmax : maxIncomingFragmentBytesPerPeer = 131072 := rfl
  have hfits : ¬ (sized.bytes + (partOf payload j).length > maxIncomingFragmentBytesPerPeer) := by
    rw [hbytes, hmax]
    omega
  have hset : sized.parts.set j (some (partOf payload j)) = _ := hparts ▸ h.parts_set hj
  simp only [IncomingFragmentState.insertPart, h.total, ne_eq, not_true_eq_false, if_false,
    h.parts_next hj, hsized, hfits, hset, htotal, hreceived, h.received]
  by_cases hlast : j + 1 = fragmentParts payload
  · refine .inr ⟨hlast, ?_⟩
    have hjoin : (((((chunks payload).take (fragmentParts payload)).map some ++
        List.replicate (fragmentParts payload - fragmentParts payload) none).map
          fun p : Option Bytes => p.getD []).flatten) = payload := by
      rw [List.take_of_length_le (by simp), Nat.sub_self, List.replicate_zero, List.append_nil,
        List.map_map, show ((fun p : Option Bytes => p.getD []) ∘ some) = fun p => p from rfl,
        List.map_id', chunks_flatten]
    simp only [hlast, not_true_eq_false, if_false, hjoin]
    refine ⟨_, rfl, ?_⟩
    rw [IncomingFragmentState.get_erase, if_pos ⟨rfl, rfl⟩]
  · refine .inl ⟨by omega, ?_⟩
    simp only [hlast, not_false_eq_true, if_true]
    refine ⟨_, _, rfl, by rw [IncomingFragmentState.get_set, if_pos ⟨rfl, rfl⟩], ?_⟩
    refine ⟨rfl, rfl, rfl, ?_, ?_⟩
    · change sized.bytes + (partOf payload j).length ≤ (j + 1) * 1014
      omega
    · rw [if_neg (by omega)]
      exact hsize

end

end Assembling

namespace IncomingFragmentState

variable {s : IncomingFragmentState} {c : Byte} {payload : Bytes} {id j : ℕ}
  {a : IncomingFragmentAssembly} {answers : ReserveAnswers} {buffered : ℕ → Bool}

/-- Inserting a later part of a message whose earlier parts are all there. -/
theorem insert_next (hget : s.get c id = some a) (h : Assembling payload j a)
    (hcut : CutPayload payload) (hj : j < fragmentParts payload) :
    (j + 1 < fragmentParts payload ∧ ∃ s' a',
      s.insert c ⟨id, j, fragmentParts payload⟩ (partOf payload j) answers buffered =
        (.ok none, s') ∧ s'.get c id = some a' ∧ Assembling payload (j + 1) a') ∨
    (j + 1 = fragmentParts payload ∧ ∃ s',
      s.insert c ⟨id, j, fragmentParts payload⟩ (partOf payload j) answers buffered =
        (.ok (some (payload, fragmentParts payload)), s') ∧ s'.get c id = none) := by
  have hopen : s.openAssembly c ⟨id, j, fragmentParts payload⟩ (partOf payload j) answers
      buffered = .ok (s, a) := by
    rw [get] at hget
    simp only [openAssembly, hget]
  have hinsert : s.insert c ⟨id, j, fragmentParts payload⟩ (partOf payload j) answers buffered =
      s.insertPart c ⟨id, j, fragmentParts payload⟩ (partOf payload j) a := by
    simp only [insert, hcut.not_malformed hj id, Bool.false_eq_true, if_false, hopen]
  rw [hinsert]
  exact h.insertPart_next hcut hj s c

/-- Inserting the first part of a message opens its assembly, unless a limit or a budget says no;
then nothing changes. -/
theorem insert_first (hget : s.get c id = none) (hcut : CutPayload payload) :
    (∃ e, e ≠ .invalid ∧
      s.insert c ⟨id, 0, fragmentParts payload⟩ (partOf payload 0) answers buffered =
        (.error e, s)) ∨
    ∃ s' a', s.insert c ⟨id, 0, fragmentParts payload⟩ (partOf payload 0) answers buffered =
      (.ok none, s') ∧ s'.get c id = some a' ∧ Assembling payload 1 a' := by
  have h2 := hcut.two_le_parts
  have h128 := hcut.parts_le
  have hmax : maxIncomingFragmentBytesPerPeer = 131072 := rfl
  have hfull := @CutPayload.full_part payload 0 (by omega)
  have hnotfinal : ¬ (0 + 1 = fragmentParts payload) := by omega
  rw [get] at hget
  simp only [insert, hcut.not_malformed (show 0 < fragmentParts payload by omega) id,
    Bool.false_eq_true, if_false, openAssembly, hget, hnotfinal, decide_false, hfull]
  by_cases h₁ : s.assemblies.length ≥ maxIncomingFragmentAssemblies
  · rw [if_pos h₁]
    exact .inl ⟨.limit, by decide, rfl⟩
  rw [if_neg h₁, if_neg (by rw [hmax]; omega)]
  generalize min (fragmentParts payload * 1014) maxIncomingFragmentBytesPerPeer = reserved
  by_cases h₂ : s.reservedBytes + reserved > maxIncomingFragmentBytesPerPeer
  · rw [if_pos h₂]
    exact .inl ⟨.limit, by decide, rfl⟩
  rw [if_neg h₂]
  by_cases h₃ : (!answers.metadata) = true
  · rw [if_pos h₃]
    exact .inl ⟨.budget, by decide, rfl⟩
  rw [if_neg h₃]
  by_cases h₄ : (!(List.range (fragmentParts payload)).all fun i =>
      decide (i = 0) || buffered i || answers.part i) = true
  · rw [if_pos h₄]
    exact .inl ⟨.budget, by decide, rfl⟩
  rw [if_neg h₄]
  dsimp only
  refine .inr ?_
  have hnew : Assembling payload 0
      { total := fragmentParts payload
        parts := List.replicate (fragmentParts payload) none
        received := 0
        bytes := 0
        reservedBytes := reserved
        fragmentSize := none
        completionBudgets := (List.range (fragmentParts payload)).map fun i =>
          !(decide (i = 0) || buffered i) } :=
    ⟨rfl, by simp, rfl, le_rfl, rfl⟩
  rcases @Assembling.insertPart_next payload 0 id _ hnew hcut (by omega) _ c with h | h
  · exact h.2
  · omega

end IncomingFragmentState
end BasisRust.Transport
