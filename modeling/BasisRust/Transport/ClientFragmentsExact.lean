import BasisRust.Transport.ClientStream
import Mathlib.Data.List.Nodup

/-!
# Which legal streams the client accepts

`Tracks` ties the client to the arrivals: it holds one assembly for each open message, under a key
of its own.  `Tracks.step` is one arrival and `Tracks.run` a run: as long as the limits leave room
every answer is the right one, and the first packet for which there is no room is refused.

The limits are chosen for one window of packets.  An assembly may hold parts from before the window
as well, so that a legal stream can reach both of them.
-/

namespace BasisRust.Transport

open Library

namespace FragmentStream

variable {s : FragmentStream} {arrived arrivals : List PartArrival} {a : PartArrival} {i j : ℕ}

/-! ### Following the stream -/

/-- The client holds the open messages, each under its key. -/
structure Tracks (s : FragmentStream) (arrived : List PartArrival)
    (r : ReliableFragmentReassembler) : Prop where
  sound : r.Sound
  windowed : s.sizes.Windowed arrived
  keys : ∀ key entry, r.get key = some entry → ∃ i ∈ s.sizes.openMessages arrived, key = s.key i
  entry : ∀ i ∈ s.sizes.openMessages arrived, ∃ entry, r.get (s.key i) = some entry ∧
    s.Holds arrived i entry ∧ entry.updatedAt = PartArrival.lastTime arrived i

/-- The fragment ids of messages that are close together differ. -/
theorem key_ne (s : FragmentStream) {i i' : ℕ} (hlt : i < i') (hclose : i' < i + 65) :
    s.key i ≠ s.key i' := by
  intro heq
  have hid : (s.lastFragmentId + i + 1) % 65536 = (s.lastFragmentId + i' + 1) % 65536 :=
    congrArg Prod.snd heq
  omega

namespace Tracks

variable {r r' : ReliableFragmentReassembler} {entry : FragmentAssembly} {i' : ℕ}

theorem empty : s.Tracks [] .empty where
  sound := .empty
  windowed := nofun
  keys := nofun
  entry := by
    intro i hi
    obtain ⟨-, ⟨j, -, hj⟩, -⟩ := StreamSizes.mem_openMessages.mp hi
    cases hj

section

variable (h : s.Tracks arrived r)
include h

section

variable (hlegal : s.Legal arrivals)
include hlegal

theorem key_injective (hi : i ∈ s.sizes.openMessages arrived)
    (hi' : i' ∈ s.sizes.openMessages arrived) (heq : s.key i = s.key i') : i = i' := by
  obtain ⟨hlt, ⟨j, -, hthere⟩, k, hk, hmissing⟩ := StreamSizes.mem_openMessages.mp hi
  obtain ⟨hlt', ⟨j', -, hthere'⟩, k', hk', hmissing'⟩ := StreamSizes.mem_openMessages.mp hi'
  rcases Nat.lt_trichotomy i i' with hless | rfl | hless
  · have hclose := h.windowed.close hlegal.two_le_parts hless hlt' hk hmissing hthere'
    exact absurd heq (s.key_ne hless hclose)
  · rfl
  · have hclose := h.windowed.close hlegal.two_le_parts hless hlt hk' hmissing' hthere
    exact absurd heq.symm (s.key_ne hless hclose)

/-- The other open messages have keys of their own. -/
theorem key_ne_arriving (hnext : s.sizes.Next arrived a) (hi : i ∈ s.sizes.openMessages arrived)
    (hne : i ≠ a.message) : s.key i ≠ s.key a.message := by
  obtain ⟨hlt, ⟨j, -, hthere⟩, k, hk, hmissing⟩ := StreamSizes.mem_openMessages.mp hi
  rcases Nat.lt_or_gt_of_ne hne with hless | hless
  · have hmissing' : (i, k) ∉ (a :: arrived).map PartArrival.slot := by
      rw [StreamSizes.mem_slots_of_ne hne]
      exact hmissing
    have hclose := (h.windowed.cons hnext).close hlegal.two_le_parts hless hnext.message hk
      hmissing' (StreamSizes.mem_slots_cons.mpr (.inl rfl))
    exact s.key_ne hless hclose
  · have hclose := h.windowed.close hlegal.two_le_parts hless hlt hnext.part hnext.firstCopy hthere
    exact (s.key_ne hless hclose).symm

theorem perm_keys : (r.entries.map Prod.fst).Perm ((s.sizes.openMessages arrived).map s.key) := by
  have hopen : ((s.sizes.openMessages arrived).map s.key).Nodup := by
    refine List.Nodup.map_on ?_ (s.sizes.nodup_openMessages arrived)
    intro i hi i' hi' heq
    exact h.key_injective hlegal hi hi' heq
  apply (List.perm_ext_iff_of_nodup h.sound.nodup hopen).mpr
  intro key
  rw [mem_keys_iff, List.mem_map]
  constructor
  · rintro ⟨entry, hget⟩
    obtain ⟨i, hi, heq⟩ := h.keys key entry hget
    exact ⟨i, hi, heq.symm⟩
  · rintro ⟨i, hi, rfl⟩
    obtain ⟨entry, hget, -⟩ := h.entry i hi
    exact ⟨entry, hget⟩

theorem length_eq : r.entries.length = (s.sizes.openMessages arrived).length := by
  have hperm := (h.perm_keys hlegal).length_eq
  rwa [List.length_map, List.length_map] at hperm

theorem bytes_eq : r.bytes = s.sizes.openBytes arrived := by
  rw [h.sound.bytes, h.sound.nodup.sum_eq_keys, ((h.perm_keys hlegal).map _).sum_eq,
    StreamSizes.openBytes, List.map_map]
  congr 1
  apply List.map_congr_left
  intro i hi
  obtain ⟨entry, hget, hholds, -⟩ := h.entry i hi
  have hget' : assocGet (s.key i) r.entries = some entry := hget
  rw [Function.comp_apply, hget', Option.elim, hholds.bytes_eq]

end

theorem expired_eq (hnext : s.sizes.Next arrived a) : r.expired a.time = [] := by
  rw [ReliableFragmentReassembler.expired, List.map_eq_nil_iff, List.filter_eq_nil_iff]
  intro x hx
  have hget : r.get x.1 = some x.2 := h.sound.nodup.get_of_mem hx
  obtain ⟨i, hi, heq⟩ := h.keys _ _ hget
  obtain ⟨entry, hentry, -, hupdated⟩ := h.entry i hi
  rw [heq, hentry, Option.some.injEq] at hget
  have hle := hnext.inTime i hi
  rw [← hget, decide_eq_true_eq, hupdated]
  exact not_lt.mpr hle

/-- A message that is not open has no assembly. -/
theorem get_none (hlegal : s.Legal arrivals)
    (hnext : s.sizes.Next arrived a) (hclosed : a.message ∉ s.sizes.openMessages arrived) :
    r.get (s.key a.message) = none := by
  cases hget : r.get (s.key a.message) with
  | none => rfl
  | some entry =>
    obtain ⟨i, hi, heq⟩ := h.keys _ _ hget
    have hne : i ≠ a.message := fun him => hclosed (him ▸ hi)
    exact absurd heq.symm (h.key_ne_arriving hlegal hnext hi hne)

end

/-- Of a message that is not open, nothing has come in. -/
theorem nothing_of_closed (hnext : s.sizes.Next arrived a)
    (hclosed : a.message ∉ s.sizes.openMessages arrived) :
    ∀ j < s.sizes.parts a.message, (a.message, j) ∉ arrived.map PartArrival.slot := by
  intro j hj hthere
  exact hclosed (StreamSizes.mem_openMessages.mpr
    ⟨hnext.message, ⟨j, hj, hthere⟩, a.part, hnext.part, hnext.firstCopy⟩)

/-- The state after an arrival, from what is read in it. -/
theorem next (h : s.Tracks arrived r) (hlegal : s.Legal arrivals) (hnext : s.sizes.Next arrived a)
    (hsound : r'.Sound) (hholds : s.Holds (a :: arrived) a.message entry)
    (hupdated : entry.updatedAt = a.time) (hget : ∀ key, r'.get key = if key = s.key a.message then
      if s.sizes.isComplete (a :: arrived) a.message then none else some entry
      else r.get key) : s.Tracks (a :: arrived) r' where
  sound := hsound
  windowed := h.windowed.cons hnext
  keys := by
    intro key entry' hkey
    rw [hget] at hkey
    split_ifs at hkey with hown hcomplete
    · refine ⟨a.message, StreamSizes.mem_openMessages.mpr ⟨hnext.message, ?_, ?_⟩, hown⟩
      · exact ⟨a.part, hnext.part, StreamSizes.mem_slots_cons.mpr (.inl rfl)⟩
      · rw [StreamSizes.isComplete_iff] at hcomplete
        simpa only [not_forall, exists_prop] using hcomplete
    · obtain ⟨i, hi, heq⟩ := h.keys key entry' hkey
      have hne : i ≠ a.message := fun him => hown (him ▸ heq)
      exact ⟨i, (StreamSizes.mem_openMessages_of_ne hne).mpr hi, heq⟩
  entry := by
    intro i hi
    rw [hget]
    by_cases hne : i = a.message
    · subst hne
      have hopen : ¬ s.sizes.isComplete (a :: arrived) a.message = true := by
        obtain ⟨-, -, j, hj, hmissing⟩ := StreamSizes.mem_openMessages.mp hi
        exact fun hcomplete => hmissing (StreamSizes.isComplete_iff.mp hcomplete j hj)
      rw [if_pos rfl, if_neg hopen]
      exact ⟨entry, rfl, hholds, hupdated.trans (StreamSizes.lastTime_cons_self a arrived).symm⟩
    · have hi' := (StreamSizes.mem_openMessages_of_ne hne).mp hi
      obtain ⟨entry', hentry', hholds', hupdated'⟩ := h.entry i hi'
      rw [if_neg (h.key_ne_arriving hlegal hnext hi' hne)]
      exact ⟨entry', hentry', hholds'.other hne,
        hupdated'.trans (StreamSizes.lastTime_of_ne hne).symm⟩

end Tracks

/-! ### One arrival -/

/-- The answer to a packet that is not refused. -/
def answer (s : FragmentStream) (arrived : List PartArrival) (a : PartArrival) : FragmentResult :=
  if s.sizes.isComplete (a :: arrived) a.message then .complete (s.payload a.message) else .pending

theorem Holds.full_iff {entry : FragmentAssembly} (h : s.Holds arrived i entry) :
    entry.received = entry.total ↔ s.sizes.isComplete arrived i = true := by
  have hle := s.sizes.length_arrivedParts_le arrived i
  rw [h.received_eq, h.total, StreamSizes.isComplete, decide_eq_true_eq]
  omega

section Step

open ReliableFragmentReassembler

variable {r r₀ : ReliableFragmentReassembler} {entry : FragmentAssembly}

section

variable (h : s.Tracks arrived r) (hlegal : s.Legal arrivals) (hnext : s.sizes.Next arrived a)
include h hlegal hnext

/-- **Storing a legal part** that the byte limit allows, in an assembly that may have been opened
for it just now. -/
theorem Tracks.store (hsound : r₀.Sound)
    (hother : ∀ key, key ≠ s.key a.message → r₀.get key = r.get key)
    (hown : r₀.get (s.key a.message) = some entry) (hholds : s.Holds arrived a.message entry)
    (hroom : r₀.bytes + s.sizes.partBytes a.message a.part ≤ maxReassemblyBytes) :
    ∃ r', r₀.store (s.key a.message) entry a.part (s.sizes.parts a.message)
      (partOf (s.payload a.message) a.part) a.time = (s.answer arrived a, r') ∧
      s.Tracks (a :: arrived) r' := by
  have hput := hholds.put hnext.part hnext.firstCopy a.time
  have hplace : entry.parts[a.part]? = some none :=
    (hholds.place hnext.part).trans (congrArg some (if_neg hnext.firstCopy))
  have hsound' := hsound.store hown hplace (s.sizes.parts a.message)
    (partOf (s.payload a.message) a.part) a.time
  have hfits : ¬ (r₀.bytes + (partOf (s.payload a.message) a.part).length >
      maxReassemblyBytes) := by
    rw [← partBytes_eq]
    exact not_lt.mpr hroom
  by_cases hcomplete : s.sizes.isComplete (a :: arrived) a.message = true
  · -- the last missing part
    obtain ⟨hall, hflat⟩ := hput.assembled hcomplete
    have hstore := store_complete (s.key a.message) hfits (hput.full_iff.mpr hcomplete) hall
    rw [hflat] at hstore
    rw [hstore] at hsound' ⊢
    refine ⟨_, by rw [answer, if_pos hcomplete], h.next hlegal hnext hsound' hput rfl ?_⟩
    intro key
    rw [remove_get, if_pos hcomplete]
    split_ifs with hkey
    · rfl
    · rw [get_bytes, insertEntry_get, if_neg hkey, hother key hkey]
  · have hstore := store_pending (s.key a.message) hfits
      fun hfull => hcomplete (hput.full_iff.mp hfull)
    rw [hstore] at hsound' ⊢
    refine ⟨_, by rw [answer, if_neg hcomplete], h.next hlegal hnext hsound' hput rfl ?_⟩
    intro key
    rw [get_bytes, insertEntry_get, if_neg hcomplete]
    split_ifs with hkey
    · rfl
    · exact hother key hkey

/-- The header of a legal packet is read back, and nothing has expired. -/
theorem Tracks.push_eq :
    r.push s.channelId (s.packetPayload (s.sizes.position a.message a.part)) a.time =
      r.accept (s.key a.message) a.part (s.sizes.parts a.message)
        (partOf (s.payload a.message) a.part) a.time := by
  have hcut := hlegal.cutPayload hnext.message
  have h2 := hlegal.two_le_parts a.message hnext.message
  have h128 : s.sizes.parts a.message ≤ 128 := by
    rw [parts_eq]
    exact hcut.parts_le
  have hpart := hnext.part
  have hpos : 0 < (partOf (s.payload a.message) a.part).length :=
    CutPayload.part_pos (by rw [← parts_eq]; exact hnext.part)
  have hle := CutPayload.part_le (s.payload a.message) a.part
  have hid : (s.key a.message).2 < 65536 := Nat.mod_lt _ (by decide)
  have hbounds : partOutOfBounds a.part (s.sizes.parts a.message)
      (partOf (s.payload a.message) a.part) = false := by
    have hmax : litenetlibMaxMtu - 10 = 1422 := rfl
    have hparts : maxReassemblyParts = 128 := rfl
    have hne : (partOf (s.payload a.message) a.part).isEmpty = false := by
      rw [List.isEmpty_eq_false_iff]
      exact List.ne_nil_of_length_pos hpos
    simp only [partOutOfBounds, hne, hmax, hparts, Bool.or_false]
    simp only [Bool.or_eq_false_iff, Bool.not_eq_false', Bool.and_eq_true, decide_eq_true_eq,
      decide_eq_false_iff_not]
    omega
  rw [hlegal.packetPayload_eq hnext.message hnext.part, push, h.expired_eq hnext]
  generalize hheader : leBytes 2 (s.key a.message).2 ++ leBytes 2 a.part ++
    leBytes 2 (s.sizes.parts a.message) = header
  have hread : ∀ data : Bytes, slice (header ++ data) 0 2 = leBytes 2 (s.key a.message).2 ∧
      slice (header ++ data) 2 2 = leBytes 2 a.part ∧
      slice (header ++ data) 4 2 = leBytes 2 (s.sizes.parts a.message) ∧
      (header ++ data).drop 6 = data ∧ (header ++ data).length = 6 + data.length := by
    intro data
    rw [← hheader]
    refine ⟨rfl, rfl, rfl, rfl, ?_⟩
    simp only [List.length_append, leBytes_length]
  obtain ⟨h₁, h₂, h₃, h₄, hlength⟩ := hread (partOf (s.payload a.message) a.part)
  dsimp only
  rw [List.isEmpty_nil, Bool.not_true, if_neg Bool.false_ne_true, if_neg (by omega), h₁, h₂, h₃, h₄,
    leNat_leBytes_two _ hid, leNat_leBytes_two _ (by omega), leNat_leBytes_two _ (by omega),
    hbounds, if_neg Bool.false_ne_true]
  rfl

/-- **One arrival.**  While there is room the client answers as it should and holds the open
messages again; otherwise it refuses the packet. -/
theorem Tracks.step :
    (s.sizes.Room arrived a ∧ ∃ r', r.push s.channelId
        (s.packetPayload (s.sizes.position a.message a.part)) a.time = (s.answer arrived a, r') ∧
      s.Tracks (a :: arrived) r') ∨
    (¬ s.sizes.Room arrived a ∧ (r.push s.channelId
        (s.packetPayload (s.sizes.position a.message a.part)) a.time).1 = .invalid) := by
  have hbytes := h.bytes_eq hlegal
  have hlength := h.length_eq hlegal
  rw [h.push_eq hlegal hnext, accept]
  by_cases hopen : a.message ∈ s.sizes.openMessages arrived
  · obtain ⟨entry, hget, hholds, -⟩ := h.entry a.message hopen
    have hplace : entry.parts.getD a.part none = none := by
      rw [List.getD_eq_getElem?_getD, hholds.place hnext.part]
      exact if_neg hnext.firstCopy
    simp only [hget, hholds.conflict hnext.part, hplace]
    by_cases hroom : r.bytes + s.sizes.partBytes a.message a.part ≤ maxReassemblyBytes
    · refine .inl ⟨⟨.inl hopen, hbytes ▸ hroom⟩, ?_⟩
      exact h.store hlegal hnext h.sound (fun _ _ => rfl) hget hholds hroom
    · refine .inr ⟨fun room => hroom (hbytes ▸ room.bytes), ?_⟩
      rw [partBytes_eq, not_le] at hroom
      rw [ReliableFragmentReassembler.store, if_pos hroom]
      rfl
  · have hget := h.get_none hlegal hnext hopen
    have hholds := Holds.opened (Tracks.nothing_of_closed hnext hopen) a.part a.time
    have hzero : r.bytes + (r.get (s.key a.message)).elim 0 FragmentAssembly.bytes =
        r.bytes + 0 := by
      rw [hget]
      rfl
    simp only [hget]
    by_cases hcount : r.entries.length ≥ maxReassemblies
    · rw [if_pos hcount]
      refine .inr ⟨?_, rfl⟩
      intro room
      rcases room.count with hin | hless
      · exact hopen hin
      · omega
    · rw [if_neg hcount]
      have hsound := h.sound.set hholds.counted hzero
      have hown := insertEntry_get_self r (s.key a.message) (.opened a.part
        (s.sizes.parts a.message) (partOf (s.payload a.message) a.part) a.time)
      by_cases hroom : r.bytes + s.sizes.partBytes a.message a.part ≤ maxReassemblyBytes
      · refine .inl ⟨⟨.inr (by omega), hbytes ▸ hroom⟩, ?_⟩
        refine h.store hlegal hnext hsound ?_ hown hholds hroom
        intro key hkey
        rw [get_bytes, insertEntry_get, if_neg hkey]
      · refine .inr ⟨fun room => hroom (hbytes ▸ room.bytes), ?_⟩
        rw [partBytes_eq, not_le] at hroom
        rw [ReliableFragmentReassembler.store]
        exact congrArg Prod.fst (if_pos hroom)

end

/-! ### A run -/

/-- The answers to a stream of which nothing is refused. -/
def answers (s : FragmentStream) : List PartArrival → List PartArrival → List FragmentResult
  | _, [] => []
  | arrived, a :: arrivals => s.answer arrived a :: s.answers (a :: arrived) arrivals

/-- **A run.**  If there is always room the client answers as it should, otherwise it refuses a
packet. -/
theorem Tracks.run {all : List PartArrival} (h : s.Tracks arrived r) (hlegal : s.Legal all)
    (hnext : StreamSizes.EachArrival s.sizes.Next arrived arrivals) :
    (StreamSizes.EachArrival s.sizes.Room arrived arrivals ∧
      (r.pushAll (arrivals.map s.call)).1 = s.answers arrived arrivals) ∨
    (¬ StreamSizes.EachArrival s.sizes.Room arrived arrivals ∧
      .invalid ∈ (r.pushAll (arrivals.map s.call)).1) := by
  induction arrivals generalizing arrived r with
  | nil => exact .inl ⟨trivial, rfl⟩
  | cons a arrivals ih =>
    obtain ⟨hnext, hrest⟩ := hnext
    rw [List.map_cons, pushAll, call]
    rcases h.step hlegal hnext with ⟨hroom, r', hpush, htracks⟩ | ⟨hfull, hinvalid⟩
    · simp only [hpush]
      rcases ih htracks hrest with ⟨hfits, hresults⟩ | ⟨hfull, hinvalid⟩
      · exact .inl ⟨⟨hroom, hfits⟩, congrArg _ hresults⟩
      · exact .inr ⟨fun hall => hfull hall.2, .tail _ hinvalid⟩
    · refine .inr ⟨fun hall => hfull hall.1, ?_⟩
      simp only [hinvalid]
      exact .head _

end Step

theorem invalid_notMem_answers (s : FragmentStream) (arrived arrivals : List PartArrival) :
    .invalid ∉ s.answers arrived arrivals := by
  induction arrivals generalizing arrived with
  | nil => exact List.not_mem_nil
  | cons a arrivals ih =>
    rw [answers, List.mem_cons, not_or, answer]
    refine ⟨?_, ih _⟩
    split_ifs
    · exact nofun
    · exact nofun

/-! ### Every message once -/

/-- An arrival completes its message or none. -/
theorem completeMessages_cons (hnext : s.sizes.Next arrived a) :
    (s.sizes.completeMessages (a :: arrived)).Perm
      (if s.sizes.isComplete (a :: arrived) a.message then
        a.message :: s.sizes.completeMessages arrived
      else s.sizes.completeMessages arrived) := by
  have hnodup := s.sizes.nodup_completeMessages
  have hnew : a.message ∉ s.sizes.completeMessages arrived := by
    rw [StreamSizes.mem_completeMessages]
    exact fun hall => hnext.firstCopy (hall.2 a.part hnext.part)
  have hother : ∀ i, i ≠ a.message → (i ∈ s.sizes.completeMessages (a :: arrived) ↔
      i ∈ s.sizes.completeMessages arrived) := by
    intro i hne
    simp only [StreamSizes.mem_completeMessages, StreamSizes.mem_slots_of_ne hne]
  have hown : a.message ∈ s.sizes.completeMessages (a :: arrived) ↔
      s.sizes.isComplete (a :: arrived) a.message = true := by
    rw [StreamSizes.mem_completeMessages, StreamSizes.isComplete_iff]
    exact and_iff_right hnext.message
  split_ifs with hcomplete
  · apply (List.perm_ext_iff_of_nodup (hnodup _) (List.nodup_cons.mpr ⟨hnew, hnodup _⟩)).mpr
    intro i
    rw [List.mem_cons]
    by_cases hne : i = a.message
    · subst hne
      simp [hown, hcomplete]
    · simp [hne, hother i hne]
  · apply (List.perm_ext_iff_of_nodup (hnodup _) (hnodup _)).mpr
    intro i
    by_cases hne : i = a.message
    · subst hne
      simp [hown, hcomplete, hnew]
    · exact hother i hne

/-- The messages completed in a run are those that are complete after it and were not before. -/
theorem completions_answers (hnext : StreamSizes.EachArrival s.sizes.Next arrived arrivals) :
    (completions arrivals (s.answers arrived arrivals) ++
      (s.sizes.completeMessages arrived).map fun i => (i, s.payload i)).Perm
      ((s.sizes.completeMessages (arrivals.reverse ++ arrived)).map fun i => (i, s.payload i)) := by
  induction arrivals generalizing arrived with
  | nil => exact List.Perm.refl _
  | cons a arrivals ih =>
    obtain ⟨hnext, hrest⟩ := hnext
    have hih := ih hrest
    have hcons := (completeMessages_cons hnext).map fun i => (i, s.payload i)
    rw [List.reverse_cons, List.append_assoc, List.singleton_append]
    refine List.Perm.trans ?_ hih
    rw [answers, answer]
    split_ifs at hcons ⊢ with hcomplete
    · rw [completions]
      refine List.Perm.trans ?_ (hcons.symm.append_left _)
      exact List.perm_middle.symm
    · exact hcons.symm.append_left _

/-- A legal stream that does not fit is refused. -/
theorem Legal.refused (hlegal : s.Legal arrivals) (hfull : ¬ s.Fits arrivals) :
    .invalid ∈ s.results arrivals := by
  rcases Tracks.empty.run hlegal hlegal.arrivals with ⟨hfits, -⟩ | ⟨-, hinvalid⟩
  · exact absurd hfits hfull
  · exact hinvalid

/-- A legal stream is accepted if and only if it fits. -/
theorem Legal.accepted_iff (hlegal : s.Legal arrivals) : s.Accepted arrivals ↔ s.Fits arrivals := by
  constructor
  · intro haccepted
    by_contra hfull
    exact haccepted.valid (hlegal.refused hfull)
  · intro hfits
    rcases Tracks.empty.run hlegal hlegal.arrivals with ⟨-, hresults⟩ | ⟨hfull, -⟩
    · have hresults : s.results arrivals = s.answers [] arrivals := hresults
      have honce := completions_answers hlegal.arrivals
      have hnone : s.sizes.completeMessages [] = [] := by
        apply List.eq_nil_iff_forall_not_mem.mpr
        intro i hi
        obtain ⟨hlt, hall⟩ := StreamSizes.mem_completeMessages.mp hi
        have htwo := hlegal.two_le_parts i hlt
        exact absurd (hall 0 (by omega)) List.not_mem_nil
      have horder : (s.sizes.completeMessages (arrivals.reverse ++ [])).Perm
          (s.sizes.completeMessages arrivals) := by
        apply (List.perm_ext_iff_of_nodup (s.sizes.nodup_completeMessages _)
          (s.sizes.nodup_completeMessages _)).mpr
        intro i
        simp [StreamSizes.mem_completeMessages]
      rw [hnone, List.map_nil, List.append_nil] at honce
      refine ⟨?_, ?_⟩
      · rw [hresults]
        exact s.invalid_notMem_answers [] arrivals
      · rw [hresults]
        exact honce.trans (horder.map _)
    · exact absurd hfits hfull

end FragmentStream

/-! ### Streams of one size -/

namespace FragmentStream

/-- Payloads of one size, sent on a new connection. -/
def uniform (count size : ℕ) : FragmentStream where
  connectionNumber := 0
  channel := 1
  delivery := .reliableOrdered
  lastFragmentId := 0
  nextSequence := 0
  payloads := List.replicate count (List.replicate size 0)

section Uniform

variable {count size i : ℕ} {arrived : List PartArrival}

theorem uniform_sizes : (uniform count size).sizes = ⟨List.replicate count size⟩ := by
  simp [uniform, sizes]

theorem uniform_length : (uniform count size).sizes.sizes.length = count := by
  simp [uniform_sizes]

theorem uniform_size (h : i < count) : (uniform count size).sizes.sizes.getD i 0 = size := by
  simp [uniform_sizes, h]

theorem uniform_parts (size : ℕ) (h : i < count) :
    (uniform count size).sizes.parts i = (size + 1013) / 1014 := by
  rw [StreamSizes.parts, uniform_size h]
  rfl

theorem uniform_position (h : i ≤ count) (j : ℕ) :
    (uniform count size).sizes.position i j = i * ((size + 1013) / 1014) + j := by
  have hparts : ∀ k ∈ List.range i,
      (uniform count size).sizes.parts k = (size + 1013) / 1014 :=
    fun k hk => uniform_parts size (lt_of_lt_of_le (List.mem_range.mp hk) h)
  rw [StreamSizes.position, List.map_congr_left hparts]
  simp

theorem uniform_cut (h₁ : 1020 < size) (h₂ : size ≤ 129792) :
    ∀ payload ∈ (uniform count size).payloads, CutPayload payload := by
  intro payload hpayload
  rw [List.eq_of_mem_replicate hpayload]
  refine ⟨?_, ?_⟩
  · rw [List.length_replicate, litenetlibInitialMtu, litenetlibChanneledHeaderSize]
    omega
  · rw [List.length_replicate]
    exact h₂

/-- A legal arrival at the start of time, in numbers. -/
theorem uniform_next {n m p : ℕ} (hn : (size + 1013) / 1014 = n) (hm : m < count) (hp : p < n)
    (hnew : (m, p) ∉ arrived.map PartArrival.slot)
    (hwindow : ∀ i < count, ∀ j < n, i * n + j + 128 ≤ m * n + p →
      (i, j) ∈ arrived.map PartArrival.slot) :
    (uniform count size).sizes.Next arrived ⟨m, p, 0⟩ where
  message := by
    rw [uniform_length]
    exact hm
  part := by
    rw [uniform_parts _ hm, hn]
    exact hp
  firstCopy := hnew
  window := by
    intro i hi j hj hle
    rw [uniform_length] at hi
    rw [uniform_parts _ hi, hn] at hj
    rw [uniform_position hi.le, uniform_position hm.le, hn] at hle
    exact hwindow i hi j hj hle
  inTime := by
    intro i _
    show 0 - _ ≤ fragmentExpiry
    omega

end Uniform
end FragmentStream

/-! ### The verdict -/

open ReliableFragmentReassembler in
/-- **The client's reassembly.**  On a legal stream no packet is refused and every message is
completed once with the sender's bytes, if and only if the limits are not reached.  After every list
of calls the byte counter is the number of bytes held, and the next call touches no assembly but its
own and the expired ones. -/
theorem client_reassembly (s : FragmentStream) (arrivals : List PartArrival)
    (hlegal : s.Legal arrivals) :
    (s.Accepted arrivals ↔ s.Fits arrivals) ∧
    ∀ calls : List Push,
      let r := (ReliableFragmentReassembler.empty.pushAll calls).2
      r.bytes = r.heldBytes ∧
      ∀ (channelId : Byte) (payload : Bytes) (now : ℕ) (key : Byte × ℕ),
        ¬ (6 < payload.length ∧ key = ownKey channelId payload) → key ∉ r.expired now →
          (r.push channelId payload now).2.get key = r.get key := by
  refine ⟨hlegal.accepted_iff, ?_⟩
  intro calls
  have hsound := Sound.empty.pushAll calls
  refine ⟨hsound.bytes_eq, ?_⟩
  intro channelId payload now key hown hexpired
  exact push_get hsound hown hexpired

/-- Two messages of two parts whose packets come in mixed up. -/
theorem client_reassembly_mixed :
    (FragmentStream.uniform 2 1021).Accepted [⟨1, 1, 0⟩, ⟨0, 0, 0⟩, ⟨1, 0, 5⟩, ⟨0, 1, 9⟩] := by
  have hlegal : (FragmentStream.uniform 2 1021).Legal
      [⟨1, 1, 0⟩, ⟨0, 0, 0⟩, ⟨1, 0, 5⟩, ⟨0, 1, 9⟩] := by
    refine ⟨rfl, FragmentStream.uniform_cut (by decide) (by decide), ?_⟩
    rw [FragmentStream.uniform_sizes]
    decide
  refine (client_reassembly _ _ hlegal).1.mpr ?_
  rw [FragmentStream.Fits, FragmentStream.uniform_sizes]
  decide

/-! ### Streams that reach the limits -/

namespace StreamSizes

variable {P : List PartArrival → PartArrival → Prop} {arrived : List PartArrival}

theorem eachArrival_append (xs ys : List PartArrival) :
    EachArrival P arrived (xs ++ ys) ↔
      EachArrival P arrived xs ∧ EachArrival P (xs.reverse ++ arrived) ys := by
  induction xs generalizing arrived with
  | nil => exact (and_iff_right trivial).symm
  | cons a xs ih =>
    rw [List.cons_append, EachArrival, EachArrival, ih, and_assoc, List.reverse_cons,
      List.append_assoc, List.singleton_append]

/-- A stream given by its `k`-th arrival. -/
theorem eachArrival_range (f : ℕ → PartArrival) (n : ℕ) :
    EachArrival P [] ((List.range n).map f) ↔ ∀ k < n, P ((List.range k).map f).reverse (f k) := by
  induction n with
  | zero => simp [EachArrival]
  | succ n ih =>
    rw [List.range_succ, List.map_append, eachArrival_append, ih, List.append_nil]
    simp only [List.map_cons, List.map_nil, EachArrival, and_true, Nat.lt_succ_iff_lt_or_eq]
    constructor
    · intro h k hk
      rcases hk with hk | rfl
      · exact h.1 k hk
      · exact h.2
    · intro h
      exact ⟨fun k hk => h k (.inl hk), h n (.inr rfl)⟩

theorem mem_slots_range {f : ℕ → PartArrival} {k i j : ℕ} :
    (i, j) ∈ ((List.range k).map f).reverse.map PartArrival.slot ↔
      ∃ m < k, (f m).slot = (i, j) := by
  simp [List.mem_map]

end StreamSizes

namespace FragmentStream

/-- The first parts of 65 messages of two parts each. -/
def firstParts : List PartArrival := (List.range 65).map fun k => ⟨k, 0, 0⟩

/-- The first 127 parts of a message of 128 parts, then 53 parts of the next one. -/
def missingLast : List PartArrival :=
  (List.range 180).map fun k => if k < 127 then ⟨0, k, 0⟩ else ⟨1, k - 127, 0⟩

theorem firstParts_slots {k i j : ℕ} : (i, j) ∈ ((List.range k).map fun k =>
    (⟨k, 0, 0⟩ : PartArrival)).reverse.map PartArrival.slot ↔ i < k ∧ j = 0 := by
  rw [StreamSizes.mem_slots_range]
  simp only [PartArrival.slot, Prod.mk.injEq]
  exact ⟨fun ⟨m, hm, hi, hj⟩ => ⟨hi ▸ hm, hj.symm⟩, fun ⟨hi, hj⟩ => ⟨i, hi, rfl, hj.symm⟩⟩

theorem firstParts_legal : (uniform 65 1021).Legal firstParts where
  delivery := rfl
  cut := uniform_cut (by decide) (by decide)
  arrivals := by
    rw [firstParts, StreamSizes.eachArrival_range]
    intro k hk
    apply uniform_next rfl hk
    · decide
    · rw [firstParts_slots]
      omega
    · intro i hi j hj hle
      rw [firstParts_slots]
      omega

theorem missingLast_slots {k i j : ℕ} : (i, j) ∈ ((List.range k).map fun k =>
    if k < 127 then (⟨0, k, 0⟩ : PartArrival) else ⟨1, k - 127, 0⟩).reverse.map PartArrival.slot ↔
      (i = 0 ∧ j < 127 ∧ j < k) ∨ (i = 1 ∧ j + 127 < k) := by
  rw [StreamSizes.mem_slots_range]
  constructor
  · rintro ⟨m, hm, hslot⟩
    split_ifs at hslot
    · simp only [PartArrival.slot, Prod.mk.injEq] at hslot
      omega
    · simp only [PartArrival.slot, Prod.mk.injEq] at hslot
      omega
  · rintro (⟨rfl, hj, hk⟩ | ⟨rfl, hk⟩)
    · exact ⟨j, hk, by rw [if_pos hj]; rfl⟩
    · refine ⟨j + 127, hk, ?_⟩
      rw [if_neg (by omega), Nat.add_sub_cancel]
      rfl

theorem missingLast_legal : (uniform 2 129792).Legal missingLast where
  delivery := rfl
  cut := uniform_cut (by decide) le_rfl
  arrivals := by
    rw [missingLast, StreamSizes.eachArrival_range]
    intro k hk
    rcases Nat.lt_or_ge k 127 with hfirst | hsecond
    · rw [if_pos hfirst]
      apply uniform_next rfl Nat.zero_lt_two
      · show k < 128
        omega
      · rw [missingLast_slots]
        omega
      · intro i hi j hj hle
        rw [missingLast_slots]
        omega
    · rw [if_neg (not_lt.mpr hsecond)]
      apply uniform_next rfl Nat.one_lt_two
      · show k - 127 < 128
        omega
      · rw [missingLast_slots]
        omega
      · intro i hi j hj hle
        rw [missingLast_slots]
        omega

/-- The 65th assembly is one too many. -/
theorem firstParts_full : ¬ (uniform 65 1021).Fits firstParts := by
  intro hfits
  rw [Fits, firstParts, StreamSizes.eachArrival_range] at hfits
  have hopen : ∀ i, i ∈ (uniform 65 1021).sizes.openMessages
      ((List.range 64).map fun k => (⟨k, 0, 0⟩ : PartArrival)).reverse ↔ i < 64 := by
    intro i
    simp only [StreamSizes.mem_openMessages, firstParts_slots, uniform_length]
    constructor
    · rintro ⟨-, ⟨j, -, hi, -⟩, -⟩
      exact hi
    · intro hi
      have hparts := uniform_parts 1021 (show i < 65 by omega)
      exact ⟨by omega, ⟨0, by omega, hi, rfl⟩, 1, by omega, by omega⟩
  rcases (hfits 64 (by decide)).count with hin | hless
  · exact absurd ((hopen 64).mp hin) (by decide)
  · have hsub : List.range 64 ⊆ (uniform 65 1021).sizes.openMessages
        ((List.range 64).map fun k => (⟨k, 0, 0⟩ : PartArrival)).reverse :=
      fun i hi => (hopen i).mpr (List.mem_range.mp hi)
    have hle := (List.nodup_range.subperm hsub).length_le
    rw [List.length_range] at hle
    exact absurd (Nat.lt_of_le_of_lt hle hless) (by decide)

/-- The 180th part is more than the bytes allow. -/
theorem missingLast_overflows {z : StreamSizes} (hlength : z.sizes.length = 2)
    (hsize : ∀ i < 2, z.sizes.getD i 0 = 129792) :
    ¬ StreamSizes.EachArrival z.Room [] missingLast := by
  intro hfits
  rw [missingLast, StreamSizes.eachArrival_range] at hfits
  have hroom := hfits 179 (by decide)
  rw [if_neg (show ¬ 179 < 127 by decide)] at hroom
  have hbytes := hroom.bytes
  generalize harrived : ((List.range 179).map fun k =>
    if k < 127 then (⟨0, k, 0⟩ : PartArrival) else ⟨1, k - 127, 0⟩).reverse = arrived at hbytes
  have hthere : ∀ i j, (i, j) ∈ arrived.map PartArrival.slot ↔
      (i = 0 ∧ j < 127) ∨ (i = 1 ∧ j < 52) := by
    intro i j
    rw [← harrived, missingLast_slots]
    omega
  have hparts : ∀ i < 2, z.parts i = 128 := by
    intro i hi
    rw [StreamSizes.parts, hsize i hi]
    rfl
  have hopen : (z.openMessages arrived).Perm [0, 1] := by
    apply (List.perm_ext_iff_of_nodup (z.nodup_openMessages arrived) (by decide)).mpr
    intro i
    simp only [StreamSizes.mem_openMessages, hthere, hlength, List.mem_cons, List.not_mem_nil,
      or_false]
    constructor
    · omega
    · intro hi
      have hparts := hparts i (by omega)
      exact ⟨by omega, ⟨0, by omega, by omega⟩, 127, by omega, by omega⟩
  have hmessage : ∀ i < 2, ∀ n ≤ 127, (∀ j, (i, j) ∈ arrived.map PartArrival.slot ↔ j < n) →
      z.arrivedBytes arrived i = n * 1014 := by
    intro i hi n hn hj
    have hparts := hparts i hi
    have hperm : (z.arrivedParts arrived i).Perm (List.range n) := by
      apply (List.perm_ext_iff_of_nodup (List.nodup_range.filter _) List.nodup_range).mpr
      intro j
      rw [← StreamSizes.arrivedParts, StreamSizes.mem_arrivedParts, hj, List.mem_range]
      omega
    have hfull : ∀ j ∈ List.range n, z.partBytes i j = 1014 := by
      intro j hj
      have hlt := List.mem_range.mp hj
      have hfragment : reliableFragmentPayloadSize = 1014 := rfl
      rw [StreamSizes.partBytes, hsize i hi, hfragment]
      omega
    rw [StreamSizes.arrivedBytes, (hperm.map _).sum_eq, List.map_congr_left hfull]
    simp
  have hfirst := hmessage 0 (by decide) 127 le_rfl (by simp [hthere])
  have hsecond := hmessage 1 (by decide) 52 (by decide) (by simp [hthere])
  have hlast : z.partBytes 1 (179 - 127) = 1014 := by
    rw [StreamSizes.partBytes, hsize 1 Nat.one_lt_two]
    rfl
  have hmax : maxReassemblyBytes = 182016 := rfl
  rw [StreamSizes.openBytes, (hopen.map _).sum_eq, List.map_cons, List.map_cons, List.map_nil,
    List.sum_cons, List.sum_cons, List.sum_nil, hfirst, hsecond, hlast, hmax] at hbytes
  omega

end FragmentStream

/-- **Legal streams that are refused**: 65 messages of two parts, and two messages of 128 parts. -/
theorem legal_streams_refused :
    (FragmentStream.uniform 65 1021).Legal FragmentStream.firstParts ∧
    .invalid ∈ (FragmentStream.uniform 65 1021).results FragmentStream.firstParts ∧
    (FragmentStream.uniform 2 129792).Legal FragmentStream.missingLast ∧
    .invalid ∈ (FragmentStream.uniform 2 129792).results FragmentStream.missingLast := by
  refine ⟨FragmentStream.firstParts_legal, ?_, FragmentStream.missingLast_legal, ?_⟩
  · exact FragmentStream.firstParts_legal.refused FragmentStream.firstParts_full
  · apply FragmentStream.missingLast_legal.refused
    exact FragmentStream.missingLast_overflows FragmentStream.uniform_length
      fun i hi => FragmentStream.uniform_size hi

end BasisRust.Transport
