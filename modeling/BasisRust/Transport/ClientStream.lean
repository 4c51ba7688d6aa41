import BasisRust.Library.Segments
import BasisRust.Transport.ClientFragmentsBooks
import Mathlib.Data.List.GetD

/-!
# A stream of cut payloads on its way to the client

The first half counts: which messages are open after some arrivals, and how far apart two messages
can be while a part of the earlier one is missing and a part of the later one is there
(`StreamSizes.Windowed.close`).  The second half is the stream itself: `Legal.packetPayload_eq` is
the packet at a place of the stream, and `Holds` says that an assembly of the client has the parts
of a message that have come in.
-/

namespace BasisRust.Transport

open Library
open IncomingFragmentAssembly (storedBytes)

/-! ### Arrivals -/

namespace StreamSizes

variable {z : StreamSizes} {arrived : List PartArrival} {a : PartArrival} {i i' j j' : ℕ}

theorem mem_arrivedParts :
    j ∈ z.arrivedParts arrived i ↔ j < z.parts i ∧ (i, j) ∈ arrived.map PartArrival.slot := by
  simp [arrivedParts]

theorem length_arrivedParts_le (z : StreamSizes) (arrived : List PartArrival) (i : ℕ) :
    (z.arrivedParts arrived i).length ≤ z.parts i := by
  have hle := List.length_filter_le (fun j => decide ((i, j) ∈ arrived.map PartArrival.slot))
    (List.range (z.parts i))
  rw [List.length_range] at hle
  exact hle

theorem isComplete_iff :
    z.isComplete arrived i = true ↔ ∀ j < z.parts i, (i, j) ∈ arrived.map PartArrival.slot := by
  have hall := List.length_filter_eq_length_iff
    (p := fun j => decide ((i, j) ∈ arrived.map PartArrival.slot)) (l := List.range (z.parts i))
  rw [List.length_range] at hall
  have hle := z.length_arrivedParts_le arrived i
  rw [isComplete, decide_eq_true_eq, show z.parts i ≤ (z.arrivedParts arrived i).length ↔
    (z.arrivedParts arrived i).length = z.parts i by omega]
  exact hall.trans (by simp)

theorem mem_completeMessages : i ∈ z.completeMessages arrived ↔
    i < z.sizes.length ∧ ∀ j < z.parts i, (i, j) ∈ arrived.map PartArrival.slot := by
  rw [completeMessages, List.mem_filter, List.mem_range, isComplete_iff]

theorem nodup_completeMessages (z : StreamSizes) (arrived : List PartArrival) :
    (z.completeMessages arrived).Nodup :=
  List.nodup_range.filter _

theorem nodup_openMessages (z : StreamSizes) (arrived : List PartArrival) :
    (z.openMessages arrived).Nodup :=
  List.nodup_range.filter _

theorem mem_openMessages : i ∈ z.openMessages arrived ↔
    i < z.sizes.length ∧ (∃ j < z.parts i, (i, j) ∈ arrived.map PartArrival.slot) ∧
      ∃ j < z.parts i, (i, j) ∉ arrived.map PartArrival.slot := by
  have hpos : 0 < (z.arrivedParts arrived i).length ↔
      ∃ j < z.parts i, (i, j) ∈ arrived.map PartArrival.slot := by
    rw [List.length_pos_iff_exists_mem]
    exact exists_congr fun j => mem_arrivedParts
  have hmissing : ¬ z.isComplete arrived i = true ↔
      ∃ j < z.parts i, (i, j) ∉ arrived.map PartArrival.slot := by
    rw [isComplete_iff]
    simp only [not_forall, exists_prop]
  rw [openMessages, List.mem_filter, List.mem_range, Bool.and_eq_true, decide_eq_true_eq, hpos,
    Bool.not_eq_true', ← hmissing, Bool.not_eq_true]

theorem mem_slots_cons : (i, j) ∈ (a :: arrived).map PartArrival.slot ↔
    (i, j) = a.slot ∨ (i, j) ∈ arrived.map PartArrival.slot := by
  rw [List.map_cons, List.mem_cons]

/-- An arrival says nothing of the other messages. -/
theorem mem_slots_of_ne (h : i ≠ a.message) :
    (i, j) ∈ (a :: arrived).map PartArrival.slot ↔ (i, j) ∈ arrived.map PartArrival.slot := by
  rw [mem_slots_cons]
  refine or_iff_right ?_
  intro heq
  exact h (congrArg Prod.fst heq)

theorem mem_openMessages_of_ne (h : i ≠ a.message) :
    i ∈ z.openMessages (a :: arrived) ↔ i ∈ z.openMessages arrived := by
  simp only [mem_openMessages, mem_slots_of_ne h]

theorem lastTime_cons_self (a : PartArrival) (arrived : List PartArrival) :
    PartArrival.lastTime (a :: arrived) a.message = a.time := by
  simp [PartArrival.lastTime]

theorem lastTime_of_ne (h : i ≠ a.message) :
    PartArrival.lastTime (a :: arrived) i = PartArrival.lastTime arrived i := by
  simp [PartArrival.lastTime, Ne.symm h]

/-! ### The window -/

/-- Everything 128 places before something that is there is there too. -/
def Windowed (z : StreamSizes) (arrived : List PartArrival) : Prop :=
  ∀ a ∈ arrived, ∀ i < z.sizes.length, ∀ j < z.parts i,
    z.position i j + defaultWindowSize ≤ z.position a.message a.part →
      (i, j) ∈ arrived.map PartArrival.slot

theorem Windowed.cons (h : z.Windowed arrived) (hnext : z.Next arrived a) :
    z.Windowed (a :: arrived) := by
  intro b hb i hi j hj hle
  rw [mem_slots_cons]
  rcases List.mem_cons.mp hb with rfl | hb
  · exact .inr (hnext.window i hi j hj hle)
  · exact .inr (h b hb i hi j hj hle)

theorem position_succ (i j : ℕ) : z.position (i + 1) j = z.position i (z.parts i) + j := by
  simp [position, List.range_succ]

/-- Messages of two parts or more are that far apart. -/
theorem position_far (htwo : ∀ k < z.sizes.length, 2 ≤ z.parts k) {n : ℕ}
    (h : i + n ≤ z.sizes.length) : z.position i 0 + 2 * n ≤ z.position (i + n) 0 := by
  induction n with
  | zero => exact le_rfl
  | succ n ih =>
    have hn := ih (by omega)
    have hparts := htwo (i + n) (by omega)
    rw [← Nat.add_assoc, position_succ]
    simp only [position, Nat.add_zero] at hn ⊢
    omega

/-- **Close together.**  If a part of a message is missing and a part of a later one is there, then
fewer than 65 messages lie between. -/
theorem Windowed.close (h : z.Windowed arrived) (htwo : ∀ k < z.sizes.length, 2 ≤ z.parts k)
    (hlt : i < i') (hi' : i' < z.sizes.length) (hj : j < z.parts i)
    (hmissing : (i, j) ∉ arrived.map PartArrival.slot)
    (hthere : (i', j') ∈ arrived.map PartArrival.slot) :
    i' < i + 65 := by
  by_contra hfar
  obtain ⟨a, ha, hslot⟩ := List.mem_map.mp hthere
  cases hslot
  have hdist := z.position_far htwo (i := i + 1) (n := a.message - (i + 1)) (by omega)
  rw [show i + 1 + (a.message - (i + 1)) = a.message by omega, position_succ] at hdist
  refine hmissing (h a ha i (by omega) j hj ?_)
  simp only [position, defaultWindowSize] at hdist ⊢
  omega

end StreamSizes

/-! ### The packets of a stream -/

namespace FragmentStream

variable {s : FragmentStream} {arrived arrivals : List PartArrival} {a : PartArrival} {i j : ℕ}

/-- The key of a message in the client. -/
def key (s : FragmentStream) (i : ℕ) : Byte × ℕ := (s.channelId, (s.lastFragmentId + i + 1) % 65536)

theorem batchMessages_getElem? {payloads : List Bytes} {channel : Byte} {delivery : DeliveryMethod}
    (hdelivery : mayFragment delivery = true) (hcut : ∀ p ∈ payloads, CutPayload p) (id i : ℕ) :
    ((batchMessages id (payloads.map fun p => (channel, delivery, p))).map Prod.snd)[i]? =
      payloads[i]?.map fun p => ⟨p, some ((id + i + 1) % 65536)⟩ := by
  induction payloads generalizing id i with
  | nil => rfl
  | cons p payloads ih =>
    have hneeds : needsFragments delivery p = true := by
      rw [needsFragments, hdelivery, Bool.and_true, decide_eq_true_eq]
      exact (hcut p (.head _)).large
    rw [List.map_cons, batchMessages, if_pos hneeds]
    cases i with
    | zero => rfl
    | succ i =>
      rw [List.map_cons, List.getElem?_cons_succ, List.getElem?_cons_succ,
        ih (fun q hq => hcut q (List.mem_cons_of_mem p hq))]
      have hid : ((id + 1) % 65536 + i + 1) % 65536 = (id + (i + 1) + 1) % 65536 := by
        omega
      rw [hid]

theorem getElem?_payload (hi : i < s.sizes.sizes.length) : s.payloads[i]? = some (s.payload i) := by
  have hlt : i < s.payloads.length := by
    simpa [sizes] using hi
  rw [payload, List.getD_eq_getElem?_getD, List.getElem?_eq_getElem hlt]
  rfl

theorem size_eq (i : ℕ) : s.sizes.sizes.getD i 0 = (s.payload i).length :=
  List.getD_map s.payloads [] List.length

theorem parts_eq (i : ℕ) : s.sizes.parts i = fragmentParts (s.payload i) := by
  rw [StreamSizes.parts, size_eq]
  rfl

theorem partBytes_eq (i j : ℕ) : s.sizes.partBytes i j = (partOf (s.payload i) j).length := by
  rw [StreamSizes.partBytes, size_eq, partOf_length]

section

variable (h : s.Legal arrivals)
include h

theorem Legal.cutPayload (hi : i < s.sizes.sizes.length) :
    CutPayload (s.payload i) :=
  h.cut _ (List.mem_of_getElem? (getElem?_payload hi))

theorem Legal.two_le_parts : ∀ i < s.sizes.sizes.length, 2 ≤ s.sizes.parts i := by
  intro i hi
  rw [parts_eq]
  exact (h.cutPayload hi).two_le_parts

theorem Legal.getElem?_messages (hi : i < s.sizes.sizes.length) :
    s.messages[i]? = some ⟨s.payload i, some (s.key i).2⟩ := by
  rw [messages, batchMessages_getElem? h.delivery h.cut, getElem?_payload hi]
  rfl

/-- Where the packets of a message start. -/
theorem Legal.startOf_eq (hi : i ≤ s.sizes.sizes.length) :
    startOf Message.packets s.messages i = s.sizes.position i 0 := by
  induction i with
  | zero => rfl
  | succ i ih =>
    rw [startOf_succ (h.getElem?_messages hi), ih (by omega), Message.packets_length,
      StreamSizes.position_succ, parts_eq]
    rfl

/-- **A packet of the stream**: the header of the fragment and the part. -/
theorem Legal.packetPayload_eq (hi : i < s.sizes.sizes.length) (hj : j < s.sizes.parts i) :
    s.packetPayload (s.sizes.position i j) =
      leBytes 2 (s.key i).2 ++ leBytes 2 j ++ leBytes 2 (s.sizes.parts i) ++
        partOf (s.payload i) j := by
  have hmessage := h.getElem?_messages hi
  have hlength : j < (Message.packets ⟨s.payload i, some (s.key i).2⟩).length := by
    rw [Message.packets_length, ← parts_eq]
    exact hj
  have hplace : s.sizes.position i j = startOf Message.packets s.messages i + j := by
    rw [h.startOf_eq hi.le]
    rfl
  have hpacket : s.packets[s.sizes.position i j]? =
      some ⟨partOf (s.payload i) j, some ⟨(s.key i).2, j, fragmentParts (s.payload i)⟩⟩ := by
    rw [packets, hplace, getElem?_segment hmessage hlength, List.getElem?_eq_getElem hlength]
    rcases Message.packets_cases (List.getElem?_eq_getElem hlength) with ⟨hnone, -⟩ | hcut
    · cases hnone
    · obtain ⟨id, hid, -, heq⟩ := hcut
      cases hid
      rw [heq]
  rw [packetPayload, hpacket, parts_eq]
  rfl

end

/-! ### What an assembly holds -/

/-- The assembly holds the parts of message `i` that have come in. -/
structure Holds (s : FragmentStream) (arrived : List PartArrival) (i : ℕ)
    (entry : FragmentAssembly) : Prop where
  counted : entry.Counted
  total : entry.total = s.sizes.parts i
  parts : entry.parts = (List.range (s.sizes.parts i)).map fun j =>
    if (i, j) ∈ arrived.map PartArrival.slot then some (partOf (s.payload i) j) else none
  sized : ∀ size, entry.fragmentSize = some size → size = 1014
  unsized : entry.fragmentSize = none →
    ∀ j, j + 1 < s.sizes.parts i → (i, j) ∉ arrived.map PartArrival.slot

theorem storedBytes_filter (l : List ℕ) (there : ℕ → Prop) [DecidablePred there] (f : ℕ → Bytes) :
    storedBytes (l.map fun j => if there j then some (f j) else none) =
      ((l.filter fun j => decide (there j)).map fun j => (f j).length).sum := by
  induction l with
  | nil => rfl
  | cons j l ih =>
    simp only [storedBytes, List.map_cons, List.sum_cons] at ih ⊢
    rw [ih]
    by_cases h : there j
    · simp [h]
    · simp [h]

theorem countP_filter (l : List ℕ) (there : ℕ → Prop) [DecidablePred there] (f : ℕ → Bytes) :
    (l.map fun j => if there j then some (f j) else none).countP Option.isSome =
      (l.filter fun j => decide (there j)).length := by
  induction l with
  | nil => rfl
  | cons j l ih =>
    rw [List.map_cons, List.countP_cons, ih]
    by_cases h : there j
    · simp [h]
    · simp [h]

namespace Holds

variable {entry : FragmentAssembly}

section

variable (h : s.Holds arrived i entry)
include h

theorem bytes_eq : entry.bytes = s.sizes.arrivedBytes arrived i := by
  rw [h.counted.bytes, h.parts, storedBytes_filter, StreamSizes.arrivedBytes,
    StreamSizes.arrivedParts]
  congr 1
  apply List.map_congr_left
  intro j _
  exact (partBytes_eq i j).symm

theorem received_eq : entry.received = (s.sizes.arrivedParts arrived i).length := by
  rw [h.counted.received, h.parts, countP_filter]
  rfl

theorem place (hj : j < s.sizes.parts i) :
    entry.parts[j]? = some (if (i, j) ∈ arrived.map PartArrival.slot then
      some (partOf (s.payload i) j) else none) := by
  rw [h.parts, List.getElem?_map, List.getElem?_range hj]
  rfl

/-- Arrivals of other messages do not matter. -/
theorem other (hne : i ≠ a.message) : s.Holds (a :: arrived) i entry where
  __ := h
  parts := by
    simp only [StreamSizes.mem_slots_of_ne hne]
    exact h.parts
  unsized := by
    intro hnone j hj
    rw [StreamSizes.mem_slots_of_ne hne]
    exact h.unsized hnone j hj

end

/-- An assembly that was opened for a part of the message. -/
theorem opened (hnew : ∀ j < s.sizes.parts i, (i, j) ∉ arrived.map PartArrival.slot) (j now : ℕ) :
    s.Holds arrived i (.opened j (s.sizes.parts i) (partOf (s.payload i) j) now) where
  counted := .opened _ _ _ _
  total := rfl
  parts := by
    have hnone : ∀ j ∈ List.range (s.sizes.parts i),
        (if (i, j) ∈ arrived.map PartArrival.slot then some (partOf (s.payload i) j) else none) =
          none :=
      fun j hj => if_neg (hnew j (List.mem_range.mp hj))
    rw [List.map_congr_left hnone, List.map_const', List.length_range]
    rfl
  sized := by
    intro size hsize
    by_cases hj : j + 1 < s.sizes.parts i
    · simp only [FragmentAssembly.opened, if_pos hj, Option.some.injEq] at hsize
      rw [← hsize]
      rw [parts_eq] at hj
      exact CutPayload.full_part hj
    · simp only [FragmentAssembly.opened, if_neg hj] at hsize
      cases hsize
  unsized := fun _ j hj => hnew j (Nat.lt_of_succ_lt hj)

/-- A part of the message fits its assembly. -/
theorem conflict (h : s.Holds arrived i entry) (hj : j < s.sizes.parts i) :
    entry.conflict j (s.sizes.parts i) (partOf (s.payload i) j) = none := by
  have hle := CutPayload.part_le (s.payload i)
  rw [FragmentAssembly.conflict, if_neg (fun hne => hne h.total)]
  by_cases hfull : j + 1 < s.sizes.parts i
  · have hlength : (partOf (s.payload i) j).length = 1014 :=
      CutPayload.full_part (by rw [← parts_eq]; exact hfull)
    have hsize : (entry.fragmentSize.any fun size => decide (size ≠ 1014)) = false := by
      cases hsize : entry.fragmentSize with
      | none => rfl
      | some size => simp [h.sized size hsize]
    have hlast : ((entry.parts.getD (s.sizes.parts i - 1) none).any fun last =>
        decide (last.length > 1014)) = false := by
      rw [List.getD_eq_getElem?_getD, h.place (Nat.sub_one_lt_of_lt hj), Option.getD_some]
      split_ifs
      · have := hle (s.sizes.parts i - 1)
        simp [this]
      · rfl
    rw [if_pos hfull, hlength, hsize, hlast, Bool.and_false]
    rfl
  · have hsize : (entry.fragmentSize.any fun size =>
        decide ((partOf (s.payload i) j).length > size)) = false := by
      cases hsize : entry.fragmentSize with
      | none => rfl
      | some size => simp [h.sized size hsize, hle j]
    rw [if_neg hfull, hsize]
    rfl

/-- **Storing a part** that was missing. -/
theorem put (h : s.Holds arrived a.message entry) (hpart : a.part < s.sizes.parts a.message)
    (hnew : a.slot ∉ arrived.map PartArrival.slot) (now : ℕ) : s.Holds (a :: arrived) a.message
      (entry.put a.part (s.sizes.parts a.message) (partOf (s.payload a.message) a.part) now) where
  counted := by
    refine h.counted.put ?_ _ _ _
    exact (h.place hpart).trans (congrArg some (if_neg hnew))
  total := h.total
  parts := by
    apply List.ext_getElem?
    intro j
    show (entry.parts.set a.part _)[j]? = _
    rw [List.getElem?_set, List.getElem?_map]
    by_cases hj : j < s.sizes.parts a.message
    · rw [List.getElem?_range hj, Option.map_some]
      by_cases heq : a.part = j
      · subst heq
        have hlt : a.part < entry.parts.length := by
          rw [h.counted.length, h.total]
          exact hpart
        rw [if_pos rfl, if_pos hlt, if_pos (StreamSizes.mem_slots_cons.mpr (.inl rfl))]
      · have hslot : (a.message, j) ∈ (a :: arrived).map PartArrival.slot ↔
            (a.message, j) ∈ arrived.map PartArrival.slot := by
          rw [StreamSizes.mem_slots_cons]
          exact or_iff_right fun hslot => heq (congrArg Prod.snd hslot).symm
        rw [if_neg heq, h.place hj]
        simp only [hslot]
    · have hnone : (List.range (s.sizes.parts a.message))[j]? = none := by
        rw [List.getElem?_eq_none_iff, List.length_range]
        exact not_lt.mp hj
      have hpast : entry.parts[j]? = none := by
        rw [h.parts, List.getElem?_map, hnone]
        rfl
      rw [if_neg (by omega), hpast, hnone]
      rfl
  sized := by
    intro size hsize
    by_cases hfull : a.part + 1 < s.sizes.parts a.message
    · simp only [FragmentAssembly.put, if_pos hfull, Option.some.injEq] at hsize
      rw [← hsize]
      rw [parts_eq] at hfull
      exact CutPayload.full_part hfull
    · simp only [FragmentAssembly.put, if_neg hfull] at hsize
      exact h.sized size hsize
  unsized := by
    intro hsize j hj
    by_cases hfull : a.part + 1 < s.sizes.parts a.message
    · simp only [FragmentAssembly.put, if_pos hfull] at hsize
      cases hsize
    · simp only [FragmentAssembly.put, if_neg hfull] at hsize
      rw [StreamSizes.mem_slots_cons, not_or]
      refine ⟨?_, h.unsized hsize j hj⟩
      intro hslot
      have hpart : j = a.part := congrArg Prod.snd hslot
      omega

/-- All parts together are the payload. -/
theorem assembled (h : s.Holds arrived i entry) (hall : s.sizes.isComplete arrived i = true) :
    entry.parts.all Option.isSome = true ∧
      (entry.parts.map fun bytes => bytes.getD []).flatten = s.payload i := by
  have hparts : entry.parts = (chunks (s.payload i)).map some := by
    rw [h.parts, chunks, List.map_map, ← parts_eq]
    apply List.map_congr_left
    intro j hj
    rw [if_pos (StreamSizes.isComplete_iff.mp hall j (List.mem_range.mp hj))]
    rfl
  rw [hparts]
  refine ⟨by simp, ?_⟩
  rw [List.map_map, show ((fun p : Option Bytes => p.getD []) ∘ some) = fun p => p from rfl,
    List.map_id', chunks_flatten]

end Holds

end FragmentStream
end BasisRust.Transport

