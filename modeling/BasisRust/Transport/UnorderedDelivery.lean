import BasisRust.Transport.Stream

/-!
# Unordered delivery is exactly once

On an unordered channel whole messages may be taken anywhere in the window, but parts only at the
cursor.  So the cursor has a place in the stream of the accepted messages (`Edge`), everything that
was recorded beyond it is a whole message, and what was handed over is remembered by the index of
its last packet, which is recorded at the same time (`HandedOnce`).
-/

namespace BasisRust.Transport

open Library

variable {cn : BitVec 2} {c : Byte} {v : SendChannel} {ms ms' : List Message} {m : Message}
  {r r' : RecvChannel} {i k j n q : ℕ}

/-! ### What was handed over -/

/-- Message `i` was handed over. -/
def HandedAt (ms : List Message) (handed : List Handed) (i : ℕ) : Prop :=
  ∃ x ∈ handed, x.index + 1 = startOf Message.packets ms (i + 1)

/-- Every payload handed over is an accepted message, taken with its last packet, and no packet was
taken twice. -/
structure HandedOnce (ms : List Message) (r : RecvChannel) : Prop where
  message : ∀ x ∈ r.handed, ∃ i m, ms[i]? = some m ∧ x.payload = m.payload ∧
    x.index + 1 = startOf Message.packets ms (i + 1)
  recorded : ∀ x ∈ r.handed, x.index ∈ r.recorded
  nodup : (r.handed.map fun x => x.index).Nodup

namespace HandedOnce

section

variable (h : HandedOnce ms r)
include h

theorem congr (hhand : r'.handed = r.handed) (hrec : ∀ n ∈ r.recorded, n ∈ r'.recorded) :
    HandedOnce ms r' := by
  obtain ⟨h₁, h₂, h₃⟩ := h
  refine ⟨?_, ?_, ?_⟩ <;> rw [hhand]
  · exact h₁
  · exact fun x hx => hrec _ (h₂ x hx)
  · exact h₃

theorem mono (hms : ms <+: ms') : HandedOnce ms' r := by
  refine ⟨fun x hx => ?_, h.recorded, h.nodup⟩
  obtain ⟨i, m, hm, hpayload, hindex⟩ := h.message x hx
  refine ⟨i, m, getElem?_extends hms hm, hpayload, ?_⟩
  rw [startOf_extends hms (List.getElem?_eq_some_iff.mp hm).1, hindex]

/-- One more message is handed over, with a packet that was not recorded before. -/
theorem hand {x : Handed} (hm : ms[i]? = some m) (hpayload : x.payload = m.payload)
    (hindex : x.index + 1 = startOf Message.packets ms (i + 1)) (hnew : x.index ∉ r.recorded)
    (hhand : r'.handed = r.handed ++ [x]) (hrec : r'.recorded = x.index :: r.recorded) :
    HandedOnce ms r' := by
  refine ⟨?_, ?_, ?_⟩ <;> rw [hhand]
  · intro y hy
    rcases List.mem_append.mp hy with hy | hy
    · exact h.message y hy
    · rw [List.mem_singleton.mp hy]
      exact ⟨i, m, hm, hpayload, hindex⟩
  · intro y hy
    rw [hrec]
    rcases List.mem_append.mp hy with hy | hy
    · exact .tail _ (h.recorded y hy)
    · rw [List.mem_singleton.mp hy]
      exact .head _
  · rw [List.map_append, List.nodup_append]
    refine ⟨h.nodup, List.nodup_singleton _, ?_⟩
    intro a ha b hb heq
    obtain ⟨y, hy, rfl⟩ := List.mem_map.mp ha
    rw [List.map_singleton, List.mem_singleton] at hb
    rw [hb] at heq
    exact hnew (heq ▸ h.recorded y hy)

/-- **At most once.**  The payloads handed over are, with multiplicities, among those accepted. -/
theorem subperm : (r.handed.map fun x => x.payload).Subperm (ms.map fun m => m.payload) := by
  choose! place m hplace using h.message
  have hnodup : (r.handed.map place).Nodup := by
    rw [List.nodup_iff_pairwise_ne, List.pairwise_map]
    have hindex := h.nodup
    rw [List.nodup_iff_pairwise_ne, List.pairwise_map] at hindex
    refine hindex.imp_of_mem ?_
    intro x y hx hy hne heq
    have h₁ := (hplace x hx).2.2
    have h₂ := (hplace y hy).2.2
    rw [heq] at h₁
    omega
  have hsub : (r.handed.map place).Subperm (List.range ms.length) := by
    refine hnodup.subperm fun i hi => ?_
    obtain ⟨x, hx, rfl⟩ := List.mem_map.mp hi
    exact List.mem_range.mpr (List.getElem?_eq_some_iff.mp (hplace x hx).1).1
  obtain ⟨places, hperm, hsub⟩ := hsub
  have hmap : ((r.handed.map place).map fun i => (ms[i]?.map fun m => m.payload).getD []).Subperm
      ((List.range ms.length).map fun i => (ms[i]?.map fun m => m.payload).getD []) :=
    ⟨places.map _, hperm.map _, hsub.map _⟩
  have hleft : (r.handed.map place).map (fun i => (ms[i]?.map fun m => m.payload).getD []) =
      r.handed.map fun x => x.payload := by
    rw [List.map_map]
    refine List.map_congr_left fun x hx => ?_
    obtain ⟨hm, hpayload, -⟩ := hplace x hx
    rw [Function.comp_apply, hm, hpayload]
    rfl
  have hright : (List.range ms.length).map (fun i => (ms[i]?.map fun m => m.payload).getD []) =
      ms.map fun m => m.payload := by
    refine List.ext_getElem (by simp) fun i h₁ h₂ => ?_
    simp only [List.length_map, List.length_range] at h₁
    simp [h₁]
  rwa [hleft, hright] at hmap

end

end HandedOnce

/-! ### Where the cursor is -/

/-- Packet `n` of the stream is a whole message. -/
def IsWhole (ms : List Message) (n : ℕ) : Prop :=
  ∃ p, (ms.flatMap Message.packets)[n]? = some p ∧ p.fragment = none

/-- Packet `n` belongs to a message that was handed over. -/
def IsHanded (ms : List Message) (handed : List Handed) (n : ℕ) : Prop :=
  ∃ i < ms.length, startOf Message.packets ms i ≤ n ∧ n < startOf Message.packets ms (i + 1) ∧
    HandedAt ms handed i

/-- The cursor is at packet `j` of message `k`. -/
structure Edge (ms : List Message) (r : RecvChannel) (k j : ℕ) : Prop where
  cursor : r.unordered.cursor = startOf Message.packets ms k + j
  le : k ≤ ms.length
  joining : Joining ms k j r.assembly
  /-- Only whole messages were taken beyond the cursor. -/
  ahead : ∀ n ∈ r.recorded, r.unordered.cursor ≤ n → IsWhole ms n
  /-- What was recorded is in a message that was handed over, or among the parts joined so far. -/
  kept : ∀ n ∈ r.recorded, IsHanded ms r.handed n ∨
    (startOf Message.packets ms k ≤ n ∧ n < startOf Message.packets ms k + j)

theorem IsWhole.mono (h : IsWhole ms n) (hms : ms <+: ms') : IsWhole ms' n := by
  obtain ⟨p, hp, hfrag⟩ := h
  obtain ⟨zs, rfl⟩ := hms
  refine ⟨p, ?_, hfrag⟩
  rw [List.flatMap_append]
  exact getElem?_extends (List.prefix_append _ _) hp

/-- The message of a whole packet. -/
theorem IsWhole.message {p : OutgoingReliable}
    (hp : (ms.flatMap Message.packets)[n]? = some p) (hfrag : p.fragment = none) :
    ∃ i m, ms[i]? = some m ∧ m.fragmentId = none ∧ p.payload = m.payload ∧
      n = startOf Message.packets ms i ∧ startOf Message.packets ms (i + 1) = n + 1 := by
  obtain ⟨i, m, j, hm, hj, rfl⟩ := exists_segment (List.getElem?_eq_some_iff.mp hp).1
  rcases packet_cases hm hj hp with ⟨hid, rfl, rfl⟩ | ⟨id, hid, -, rfl⟩
  · refine ⟨i, m, hm, hid, rfl, rfl, ?_⟩
    rw [startOf_succ hm, Message.packets_length_of_whole hid, Nat.add_zero]
  · cases hfrag

/-- A run of whole packets from the start of a message ends at the start of a message. -/
theorem exists_start_of_whole (hadm : ∀ m ∈ ms, m.Admitted c) (hk : k ≤ ms.length) {e : ℕ}
    (hle : startOf Message.packets ms k ≤ e)
    (hall : ∀ n, startOf Message.packets ms k ≤ n → n < e → IsWhole ms n) :
    ∃ i ≤ ms.length, e = startOf Message.packets ms i := by
  obtain ⟨d, rfl⟩ := Nat.exists_eq_add_of_le hle
  clear hle
  induction d generalizing k with
  | zero => exact ⟨k, hk, rfl⟩
  | succ d ih =>
    obtain ⟨p, hp, hfrag⟩ := hall _ le_rfl (by omega)
    have hjoin : Joining ms k 0 fun _ => none := .inl ⟨rfl, fun _ => rfl⟩
    obtain ⟨m, hm, -, hpos⟩ := hjoin.message_of_packet hadm hp
    have hnext : startOf Message.packets ms (k + 1) = startOf Message.packets ms k + 1 := by
      rcases packet_cases hm hpos hp with ⟨hid, -⟩ | ⟨id, -, -, rfl⟩
      · rw [startOf_succ hm, Message.packets_length_of_whole hid]
      · cases hfrag
    have hrest := ih (k := k + 1) (List.getElem?_eq_some_iff.mp hm).1 (by
      intro n hn hn'
      exact hall n (by omega) (by omega))
    rw [hnext, show startOf Message.packets ms k + 1 + d =
      startOf Message.packets ms k + (d + 1) from by omega] at hrest
    exact hrest

/-- Where the cursor goes when one more packet is recorded. -/
theorem UnorderedWindow.cursor_after (hw : UnorderedWindow r) (hw' : UnorderedWindow r')
    (hrec : r'.recorded = n :: r.recorded) :
    (n ≠ r.unordered.cursor → r'.unordered.cursor = r.unordered.cursor) ∧
    (n = r.unordered.cursor → r.unordered.cursor < r'.unordered.cursor ∧
      ∀ i, r.unordered.cursor < i → i < r'.unordered.cursor → i ∈ r.recorded) := by
  have hdone : ∀ i, i < r'.unordered.cursor → i = n ∨ i ∈ r.recorded := by
    intro i hi
    exact List.mem_cons.mp (hrec ▸ hw'.done i hi)
  have hfirst : r'.unordered.cursor ≠ n ∧ r'.unordered.cursor ∉ r.recorded := by
    have := hw'.first
    rw [hrec, List.mem_cons, not_or] at this
    exact this
  have hge : r.unordered.cursor ≤ r'.unordered.cursor := by
    by_contra hlt
    exact hfirst.2 (hw.done _ (by omega))
  constructor
  · intro hne
    by_contra hdiff
    rcases hdone r.unordered.cursor (by omega) with heq | hmem
    · exact hne heq.symm
    · exact hw.first hmem
  · intro heq
    refine ⟨by have := hfirst.1; omega, fun i hlo hhi => ?_⟩
    exact (hdone i hhi).resolve_left (by omega)

namespace Edge

theorem congr (h : Edge ms r k j) (hun : r'.unordered = r.unordered)
    (hasm : r'.assembly = r.assembly) (hhand : r'.handed = r.handed)
    (hrec : r'.recorded = r.recorded) : Edge ms r' k j := by
  obtain ⟨h₁, h₂, h₃, h₄, h₅⟩ := h
  exact ⟨by rw [hun]; exact h₁, h₂, by rw [hasm]; exact h₃, by rw [hun, hrec]; exact h₄,
    by rw [hrec, hhand]; exact h₅⟩

theorem mono (h : Edge ms r k j) (hms : ms <+: ms') : Edge ms' r k j := by
  have hstart : ∀ i, i ≤ ms.length → startOf Message.packets ms' i = startOf Message.packets ms i :=
    fun i hi => startOf_extends hms hi
  refine ⟨?_, h.le.trans hms.length_le, h.joining.mono hms, fun n hn hle =>
    (h.ahead n hn hle).mono hms, ?_⟩
  · rw [hstart k h.le]
    exact h.cursor
  · intro n hn
    rw [hstart k h.le]
    refine (h.kept n hn).imp_left fun hhanded => ?_
    obtain ⟨i, hi, hlo, hhi, x, hx, hindex⟩ := hhanded
    refine ⟨i, hi.trans_le hms.length_le, ?_, ?_, x, hx, ?_⟩
    · rw [hstart i hi.le]
      exact hlo
    · rw [hstart (i + 1) hi]
      exact hhi
    · rw [hstart (i + 1) hi]
      exact hindex

/-- The parts of a channel change only by what `Joining` allows. -/
theorem rejoin (h : Edge ms r k j) (hun : r'.unordered = r.unordered)
    (hjoin : Joining ms k j r'.assembly) (hhand : r'.handed = r.handed)
    (hrec : r'.recorded = r.recorded) : Edge ms r' k j :=
  ⟨by rw [hun]; exact h.cursor, h.le, hjoin, by rw [hun, hrec]; exact h.ahead,
    by rw [hrec, hhand]; exact h.kept⟩

/-- A message that was handed over stays so. -/
theorem isHanded_append {handed : List Handed} {x : Handed} (h : IsHanded ms handed n) :
    IsHanded ms (handed ++ [x]) n := by
  obtain ⟨i, hi, hlo, hhi, y, hy, hindex⟩ := h
  exact ⟨i, hi, hlo, hhi, y, List.mem_append_left _ hy, hindex⟩

/-- **A whole message** is taken anywhere in the window. -/
theorem takeWhole (h : Edge ms r k j) (hadm : ∀ m ∈ ms, m.Admitted c) (hw : UnorderedWindow r)
    (hw' : UnorderedWindow r') {p : OutgoingReliable} {b : Bool}
    (hp : (ms.flatMap Message.packets)[n]? = some p) (hfrag : p.fragment = none)
    (hasm : r'.assembly = r.assembly) (hhand : r'.handed = r.handed ++ [⟨n, p.payload, b⟩])
    (hrec : r'.recorded = n :: r.recorded) : ∃ k j, Edge ms r' k j := by
  obtain ⟨hstay, hmove⟩ := hw.cursor_after hw' hrec
  obtain ⟨i, m, hm, hid, -, hn, hnext⟩ := IsWhole.message hp hfrag
  have hnew : IsHanded ms r'.handed n := by
    refine ⟨i, (List.getElem?_eq_some_iff.mp hm).1, hn.ge, by omega, ⟨n, p.payload, b⟩, ?_,
      hnext.symm⟩
    rw [hhand]
    exact List.mem_append_right _ (.head _)
  have hkept : ∀ l ∈ r.recorded, IsHanded ms r'.handed l ∨
      (startOf Message.packets ms k ≤ l ∧ l < startOf Message.packets ms k + j) := by
    intro l hl
    rw [hhand]
    exact (h.kept l hl).imp_left isHanded_append
  have hahead : ∀ l ∈ r'.recorded, r.unordered.cursor ≤ l → IsWhole ms l := by
    intro l hl hle
    rcases List.mem_cons.mp (hrec ▸ hl) with rfl | hl
    · exact ⟨p, hp, hfrag⟩
    · exact h.ahead l hl hle
  by_cases heq : n = r.unordered.cursor
  · -- the cursor passes this message and all whole ones that follow
    obtain ⟨hlt, hpassed⟩ := hmove heq
    have hpc := hp
    rw [heq, h.cursor] at hpc
    obtain ⟨m', hm', -, hj⟩ := h.joining.message_of_packet hadm hpc
    have hj0 : j = 0 := by
      rcases packet_cases hm' hj hpc with ⟨-, hj0, -⟩ | ⟨id, -, -, rfl⟩
      · exact hj0
      · cases hfrag
    subst hj0
    have hcursor := h.cursor
    rw [Nat.add_zero] at hcursor
    obtain ⟨k', hk', hend⟩ := exists_start_of_whole hadm h.le (e := r'.unordered.cursor)
      (by omega) (by
        intro l hlo hhi
        by_cases hl : l = n
        · rw [hl]
          exact ⟨p, hp, hfrag⟩
        · exact h.ahead l (hpassed l (by omega) hhi) (by omega))
    refine ⟨k', 0, hend, hk', .inl ⟨rfl, ?_⟩, fun l hl hle => hahead l hl (by omega), ?_⟩
    · rw [hasm]
      exact h.joining.none_of_zero
    · intro l hl
      rcases List.mem_cons.mp (hrec ▸ hl) with rfl | hl
      · exact .inl hnew
      · rcases hkept l hl with hhanded | hpart
        · exact .inl hhanded
        · omega
  · have hcursor := hstay heq
    refine ⟨k, j, by rw [hcursor]; exact h.cursor, h.le, by rw [hasm]; exact h.joining,
      fun l hl hle => hahead l hl (by omega), ?_⟩
    intro l hl
    rcases List.mem_cons.mp (hrec ▸ hl) with rfl | hl
    · exact .inl hnew
    · exact hkept l hl

/-- **A part that joins the others** is taken at the cursor. -/
theorem takePart (h : Edge ms r k j) (hw : UnorderedWindow r) (hw' : UnorderedWindow r')
    {id : ℕ} (hm : ms[k]? = some m) (hid : m.fragmentId = some id)
    (hj : j + 1 < fragmentParts m.payload) (hjoin : Joining ms k (j + 1) r'.assembly)
    (hhand : r'.handed = r.handed)
    (hrec : r'.recorded = r.unordered.cursor :: r.recorded) : Edge ms r' k (j + 1) := by
  obtain ⟨hlt, hpassed⟩ := (hw.cursor_after hw' hrec).2 rfl
  -- the next packet is a part, and parts are not taken beyond the cursor
  have hcursor : r'.unordered.cursor = r.unordered.cursor + 1 := by
    by_contra hne
    have hnext := h.ahead _ (hpassed (r.unordered.cursor + 1) (by omega) (by omega)) (by omega)
    obtain ⟨p, hp, hfrag⟩ := hnext
    rw [h.cursor, Nat.add_assoc] at hp
    have hlen : j + 1 < m.packets.length := by
      rw [Message.packets_length_of_cut hid]
      exact hj
    rcases packet_cases hm hlen hp with ⟨hnone, -⟩ | ⟨id', -, -, rfl⟩
    · rw [hid] at hnone
      cases hnone
    · cases hfrag
  have hstart := h.cursor
  refine ⟨by omega, h.le, hjoin, ?_, ?_⟩
  · intro l hl hle
    rcases List.mem_cons.mp (hrec ▸ hl) with rfl | hl
    · omega
    · exact h.ahead l hl (by omega)
  · intro l hl
    rw [hhand]
    rcases List.mem_cons.mp (hrec ▸ hl) with rfl | hl
    · exact .inr ⟨by omega, by omega⟩
    · refine (h.kept l hl).imp_right fun hpart => ⟨hpart.1, by omega⟩

/-- **The last part** completes its message. -/
theorem finish (h : Edge ms r k j) (hadm : ∀ m ∈ ms, m.Admitted c) (hw : UnorderedWindow r)
    (hw' : UnorderedWindow r') {id : ℕ} {b : Bool} (hm : ms[k]? = some m)
    (hid : m.fragmentId = some id) (hj : j + 1 = fragmentParts m.payload)
    (hempty : ∀ id, r'.assembly id = none)
    (hhand : r'.handed = r.handed ++ [⟨r.unordered.cursor, m.payload, b⟩])
    (hrec : r'.recorded = r.unordered.cursor :: r.recorded) : ∃ k j, Edge ms r' k j := by
  obtain ⟨hlt, hpassed⟩ := (hw.cursor_after hw' hrec).2 rfl
  have hk := (List.getElem?_eq_some_iff.mp hm).1
  have hnext : startOf Message.packets ms (k + 1) = r.unordered.cursor + 1 := by
    rw [startOf_succ hm, Message.packets_length_of_cut hid, ← hj, h.cursor, Nat.add_assoc]
  have hstart := h.cursor
  have hnew : HandedAt ms r'.handed k := by
    refine ⟨⟨r.unordered.cursor, m.payload, b⟩, ?_, hnext.symm⟩
    rw [hhand]
    exact List.mem_append_right _ (.head _)
  obtain ⟨k', hk', hend⟩ := exists_start_of_whole hadm (show k + 1 ≤ ms.length from hk)
    (e := r'.unordered.cursor) (by omega) fun l hlo hhi =>
      h.ahead l (hpassed l (by omega) hhi) (by omega)
  refine ⟨k', 0, hend, hk', .inl ⟨rfl, hempty⟩, ?_, ?_⟩
  · intro l hl hle
    rcases List.mem_cons.mp (hrec ▸ hl) with rfl | hl
    · omega
    · exact h.ahead l hl (by omega)
  · intro l hl
    refine .inl ?_
    rcases List.mem_cons.mp (hrec ▸ hl) with rfl | hl
    · exact ⟨k, hk, by omega, by omega, hnew⟩
    · rcases h.kept l hl with hhanded | hpart
      · rw [hhand]
        exact isHanded_append hhanded
      · exact ⟨k, hk, hpart.1, by omega, hnew⟩

end Edge

/-! ### Steps -/

section Steps

variable {s s' : RecvState} {payload : Bytes} {fragment : Option ReliableFragment}

/-- What holds of an unordered channel; the cursor has a place in the stream while the session is
open. -/
structure OnceSound (ms : List Message) (s : RecvState) (c : Byte) : Prop where
  handed : HandedOnce ms (s.channel c)
  edge : s.closed = false → ∃ k j, Edge ms (s.channel c) k j

theorem OnceSound.mono (h : OnceSound ms s c) (hms : ms <+: ms') : OnceSound ms' s c := by
  refine ⟨h.handed.mono hms, fun hopen => ?_⟩
  obtain ⟨k, j, hedge⟩ := h.edge hopen
  exact ⟨k, j, hedge.mono hms⟩

/-- The session was closed, or the channel was left alone. -/
theorem OnceSound.frame (h : OnceSound ms s c) (hhist : s'.handed c = s.handed c)
    (hrec : s'.recorded c = s.recorded c) (hopen : s'.closed = false → s.closed = false ∧
      (s'.channel c).unordered = (s.channel c).unordered ∧
      (s'.channel c).assembly = (s.channel c).assembly) : OnceSound ms s' c := by
  refine ⟨h.handed.congr hhist fun n hn => ?_, fun hopen' => ?_⟩
  · change n ∈ s'.recorded c
    rw [hrec]
    exact hn
  · obtain ⟨hopen₀, hun, hasm⟩ := hopen hopen'
    obtain ⟨k, j, hedge⟩ := h.edge hopen₀
    exact ⟨k, j, hedge.congr hun hasm hhist hrec⟩

/-- The part at the cursor, and what its insertion does. -/
theorem Edge.insert {k j : ℕ} {incoming' : IncomingFragmentState} {f : ReliableFragment}
    {answers : ReserveAnswers} {buffered : ℕ → Bool}
    {result : Except FragmentInsertError (Option (Bytes × ℕ))}
    (h : Edge v.accepted (s.channel c) k j) (hv : ChannelSound cn c defaultWindowSize v)
    (hA : CanArrive v q (s.channel c).unordered.cursor payload (some f))
    (hins : (s.incoming.takeCompletionBudget c f).2.insert c f payload answers buffered =
      (result, incoming')) :
    ∃ m id, v.accepted[k]? = some m ∧ m.fragmentId = some id ∧
      ((result = .ok none ∧ j + 1 < fragmentParts m.payload ∧
        Joining v.accepted k (j + 1) (incoming'.get c)) ∨
      (∃ b, result = .ok (some (m.payload, b)) ∧ j + 1 = fragmentParts m.payload ∧
        ∀ id, incoming'.get c id = none) ∨
      (∃ e, result = .error e ∧ e ≠ .invalid ∧ Joining v.accepted k j (incoming'.get c))) := by
  have hp := hv.sent_getElem? hA.2.1
  rw [h.cursor] at hp
  obtain ⟨m, hm, hadm, hj⟩ := h.joining.message_of_packet hv.admitted hp
  rcases packet_cases hm hj hp with ⟨-, -, heq⟩ | ⟨id, hid, hlt, heq⟩
  · cases heq
  · cases heq
    exact ⟨m, id, hm, hid, h.joining.insert hm hadm hid hlt (.inr rfl) hins⟩

/-- **A step of the receive side** keeps an unordered channel exactly once. -/
theorem UnorderedStep.onceSound (h : UnorderedStep c q n payload fragment s s')
    (hopen : s.closed = false) (hA : CanArrive v q n payload fragment)
    (hv : ChannelSound cn c defaultWindowSize v) (hl : AckLink v (s.channel c))
    (hw : UnorderedWindow (s.channel c)) (hon : OnceSound v.accepted s c) :
    OnceSound v.accepted s' c := by
  have hwin := (h.window hA hv hl hw).2
  obtain ⟨k, j, hedge⟩ := hon.edge hopen
  cases h with
  | stay => exact hon
  | reack hdup => exact hon.frame rfl rfl fun hopen => ⟨hopen, by rw [channel_ack], rfl⟩
  | shut h =>
    refine hon.frame (congrFun h.handed c) (congrFun h.recorded c) fun hopen' => ?_
    rw [h.closed] at hopen'
    cases hopen'
  | token f =>
    refine ⟨hon.handed.congr rfl fun _ hn => hn, fun _ => ⟨k, j, ?_⟩⟩
    exact hedge.rejoin rfl (hedge.joining.token f) rfl rfl
  | takeWhole b hfresh hf =>
    have hw' := hwin hopen
    have hp := hv.sent_getElem? hA.2.1
    obtain ⟨-, -, hnew, -⟩ := hfresh.isNew hA hv hl hw
    obtain ⟨i, m, hm, hid, hpayload, hn, hnext⟩ := IsWhole.message hp hf
    constructor
    · refine hon.handed.hand (x := ⟨n, payload, b⟩) hm hpayload hnext.symm hnew ?_ ?_
      all_goals simp only [channel_hand, commitAndAck, channel_record, channel_ack,
        channel_commitUnordered]
    · intro _
      refine hedge.takeWhole hv.admitted hw hw' hp hf (n := n) (b := b) ?_ ?_ ?_
      all_goals simp only [channel_hand, commitAndAck, channel_record, channel_ack,
        channel_commitUnordered]
  | takePart hfresh hf hedge₀ hins =>
    have hw' := hwin hopen
    obtain ⟨-, -, hnew, hn⟩ := hfresh.isNew hA hv hl hw
    have hn := hn hedge₀
    subst hf
    rw [hn] at hA
    obtain ⟨m, id, hm, hid, ⟨-, hlt, hjoin⟩ | ⟨b, heq, -⟩ | ⟨e, heq, -⟩⟩ := hedge.insert hv hA hins
    · constructor
      · refine hon.handed.congr ?_ ?_
        all_goals simp only [commitAndAck, channel_record, channel_ack, channel_commitUnordered,
          channel_incoming]
        exact fun l hl => .tail _ hl
      · intro _
        refine ⟨k, j + 1, hedge.takePart hw hw' hm hid hlt ?_ ?_ ?_⟩
        all_goals simp only [commitAndAck, channel_record, channel_ack, channel_commitUnordered,
          channel_incoming]
        · exact hjoin
        · rw [hn]
    · cases heq
    · cases heq
  | finish b hfresh hf hedge₀ hins =>
    have hw' := hwin hopen
    obtain ⟨-, -, hnew, hn⟩ := hfresh.isNew hA hv hl hw
    have hn := hn hedge₀
    subst hf
    rw [hn] at hA
    obtain ⟨m, id, hm, hid, ⟨heq, -⟩ | ⟨b', heq, hlast, hempty⟩ | ⟨e, heq, -⟩⟩ :=
      hedge.insert hv hA hins
    · cases heq
    · cases heq
      have hnext : n + 1 = startOf Message.packets v.accepted (k + 1) := by
        rw [startOf_succ hm, Message.packets_length_of_cut hid, ← hlast, hn, hedge.cursor,
          Nat.add_assoc]
      constructor
      · refine hon.handed.hand (x := ⟨n, m.payload, b⟩) hm rfl hnext hnew ?_ ?_
        all_goals simp only [channel_hand, commitAndAck, channel_record, channel_ack,
          channel_commitUnordered, channel_incoming]
      · intro _
        refine hedge.finish hv.admitted hw hw' (b := b) hm hid hlast ?_ ?_ ?_
        all_goals simp only [channel_hand, commitAndAck, channel_record, channel_ack,
          channel_commitUnordered, channel_incoming]
        · exact hempty
        · rw [hn]
        · rw [hn]
    · cases heq
  | refuse hfresh hf hedge₀ hins =>
    obtain ⟨-, -, -, hn⟩ := hfresh.isNew hA hv hl hw
    have hn := hn hedge₀
    subst hf
    rw [hn] at hA
    obtain ⟨m, id, hm, hid, ⟨heq, -⟩ | ⟨b', heq, -⟩ | ⟨e, -, -, hjoin⟩⟩ := hedge.insert hv hA hins
    · cases heq
    · cases heq
    · exact ⟨hon.handed.congr rfl fun _ hn => hn, fun _ => ⟨k, j, hedge.rejoin rfl hjoin rfl rfl⟩⟩

end Steps

/-! ### Runs -/

section Runs

variable {l l' : Link} {ok : Link → LinkAction → Prop}

/-- **Every move keeps every unordered channel exactly once.** -/
theorem LinkMove.onceSound (hm : LinkMove l l') (hl : LinkSound cn l)
    (hc : DeliveryMethod.fromChannelId c = .reliableUnordered)
    (h : OnceSound (l.sender.accepted c) l.receiver c) :
    OnceSound (l'.sender.accepted c) l'.receiver c := by
  refine OnceSound.mono ?_ (hm.sender_mono hl c).2
  have hother : ∀ {d s}, c ≠ d → Elsewhere d l.receiver s →
      OnceSound (l.sender.accepted c) s c := by
    intro d s hdc helse
    obtain ⟨-, hhand, hrec⟩ := helse.history c hdc
    refine h.frame hhand hrec fun hopen => ⟨helse.opened hopen, ?_, ?_⟩ <;>
      rw [helse.channel hopen c hdc]
  cases hm with
  | stay | send | transmit => exact h
  | emit hd => exact h.frame rfl rfl fun hopen => ⟨hopen, rfl, rfl⟩
  | shut hs =>
    refine h.frame (congrFun hs.handed c) (congrFun hs.recorded c) fun hopen => ?_
    rw [show _ = true from hs.closed] at hopen
    cases hopen
  | ordered hd hsteps =>
    refine hother ?_ hsteps.frame.2
    intro heq
    rw [← heq, hc] at hd
    cases hd
  | unordered hd hA hopen hstep hs =>
    rename_i d q n payload fragment s s'
    have hsound : OnceSound (l.sender.accepted c) s c := by
      by_cases hdc : c = d
      · subst hdc
        have hseq := not_sequenced_of_mayFragment (c := c) (by rw [hc]; rfl)
        exact hstep.onceSound hopen hA (hl.channelSound hseq) (hl.ackLink c hseq)
          (hl.unordered hopen c hc) h
      · exact hother hdc (.of_frame hstep.frame)
    rcases hs with rfl | rfl
    · exact hsound
    · exact hsound.frame rfl rfl nofun

theorem onceSound_of_reachable (h : Reachable (linkSystem cn) ok l)
    (hc : DeliveryMethod.fromChannelId c = .reliableUnordered) :
    OnceSound (l.sender.accepted c) l.receiver c := by
  refine h.invariant_of (fun l => OnceSound (l.sender.accepted c) l.receiver c)
    (fun l hl => linkSound_of_reachable hl) ?_ ?_
  · intro l hl
    rw [show l = .init cn from hl]
    refine ⟨⟨?_, ?_, List.nodup_nil⟩, fun _ => ⟨0, 0, rfl, Nat.zero_le _, .inl ⟨rfl, ?_⟩, ?_, ?_⟩⟩
    · intro x hx
      cases hx
    · intro x hx
      cases hx
    · intro id
      rfl
    · intro n hn
      cases hn
    · intro n hn
      cases hn
  · intro l a l' hl hon _ hstep
    exact (linkStep_move hl hstep).onceSound hl hc hon

/-- Packet `n` is a part that its assembly holds. -/
def IsAssembled (ms : List Message) (r : RecvChannel) (n : ℕ) : Prop :=
  ∃ i m id a j, ms[i]? = some m ∧ m.fragmentId = some id ∧ n = startOf Message.packets ms i + j ∧
    r.assembly id = some a ∧ a.parts[j]? = some (some (partOf m.payload j))

theorem Assembling.part_of_lt {payload : Bytes} {a : IncomingFragmentAssembly} {i j : ℕ}
    (h : Assembling payload j a) (hi : i < j) (hj : j ≤ fragmentParts payload) :
    a.parts[i]? = some (some (partOf payload i)) := by
  have hlen : i < (((chunks payload).take j).map some).length := by
    rw [Assembling.take_length hj]
    exact hi
  rw [h.parts, List.getElem?_append_left hlen, List.getElem?_map, List.getElem?_take_of_lt hi,
    chunks_getElem? (hi.trans_le hj)]
  rfl

theorem Edge.isAssembled (h : Edge ms r k j) (hlo : startOf Message.packets ms k ≤ n)
    (hhi : n < startOf Message.packets ms k + j) : IsAssembled ms r n := by
  rcases h.joining with ⟨rfl, -⟩ | ⟨-, m, id, a, hm, hid, hj, ha, hasm, -⟩
  · omega
  · exact ⟨k, m, id, a, n - startOf Message.packets ms k, hm, hid, by omega, ha,
      hasm.part_of_lt (by omega) hj.le⟩

/-- What an unordered channel guarantees. -/
structure DeliveredOnce (l : Link) (c : Byte) : Prop where
  /-- Every payload handed over was accepted, and no accepted payload is handed over twice. -/
  once : ((l.receiver.handed c).map fun x => x.payload).Subperm
    ((l.sender.accepted c).map fun m => m.payload)
  /-- The bitmap shows only recorded packets, and only these are released. -/
  shown : ∀ n, (l.receiver.acks c).base ≤ n → n < (l.receiver.acks c).base + defaultWindowSize →
    bitAt (l.receiver.acks c).bits (n % defaultWindowSize) = true → n ∈ l.receiver.recorded c
  released : ∀ n ∈ l.sender.acknowledged c, n ∈ l.receiver.recorded c
  /-- A recorded packet was not dropped: its message was handed over, or its part is kept. -/
  kept : l.receiver.closed = false → ∀ n ∈ l.receiver.recorded c,
    IsHanded (l.sender.accepted c) (l.receiver.handed c) n ∨
      IsAssembled (l.sender.accepted c) (l.receiver.channel c) n
  /-- The cursor is on the first packet that has not been received. -/
  first : l.receiver.closed = false →
    (l.receiver.unordered c).expected = (l.receiver.unordered c).cursor % maxSequence ∧
    (∀ n < (l.receiver.unordered c).cursor, n ∈ l.receiver.recorded c) ∧
    (l.receiver.unordered c).cursor ∉ l.receiver.recorded c
  /-- The loop of the commit step stops by itself after at most 128 rounds. -/
  stops : l.receiver.closed = false → ∀ sequence fuel, defaultWindowSize ≤ fuel →
    UnorderedReceiveState.advance fuel { l.receiver.unordered c with
      received := Function.update (l.receiver.unordered c).received
        (sequence % defaultWindowSize) (some sequence) } =
      (l.receiver.unordered c).commit sequence

/-- **Unordered delivery is exactly once.**  In every state a connection can reach, no payload of an
unordered channel was handed over twice or made up, and no packet was acknowledged whose payload or
part is lost. -/
theorem unordered_delivery_once (h : Reachable (linkSystem cn) ok l)
    (hc : DeliveryMethod.fromChannelId c = .reliableUnordered) : DeliveredOnce l c := by
  have hl := linkSound_of_reachable h
  have hon := onceSound_of_reachable h hc
  have hseq := not_sequenced_of_mayFragment (c := c) (by rw [hc]; rfl)
  have hlink := hl.ackLink c hseq
  refine ⟨hon.handed.subperm, fun n hlo hhi hbit => hlink.sound.shown n hlo hhi hbit,
    fun n hn => (hlink.released n hn).1, ?_, ?_, ?_⟩
  · intro hopen n hn
    obtain ⟨k, j, hedge⟩ := hon.edge hopen
    exact (hedge.kept n hn).imp_right fun hpart => hedge.isAssembled hpart.1 hpart.2
  · intro hopen
    have hw := hl.unordered hopen c hc
    exact ⟨hw.expected, hw.done, hw.first⟩
  · intro hopen sequence fuel hfuel
    have hexp : (l.receiver.unordered c).expected =
        (l.receiver.unordered c).cursor % maxSequence := (hl.unordered hopen c hc).expected
    refine UnorderedReceiveState.advance_eq_of_le ?_ hfuel
    change (l.receiver.unordered c).expected < maxSequence
    rw [hexp]
    exact Nat.mod_lt _ (by decide)

/-- Two payloads on channel id 0; the second one arrives first, and twice. -/
def unorderedExchange : List LinkAction :=
  [.send (.enqueue [(0, .reliableUnordered, [7#8]), (0, .reliableUnordered, [8#8])]),
    .send (.move [0]), .send .releaseBytes, .send .releasePackets, .send .build, .send .build,
    .transmit 0 1, .transmit 0 0, .deliver 0 .willing [], .deliver 0 .willing [],
    .deliver 1 .willing []]

theorem unordered_delivery_once_two : ∃ l, Reachable (linkSystem 0) (fun _ _ => True) l ∧
    (l.receiver.handed 0).map (fun x => x.payload) = [[8], [7]] ∧ DeliveredOnce l 0 := by
  have hrun : ((runActions (linkSystem 0) (.init 0) unorderedExchange).any fun l =>
      (l.receiver.handed 0).map (fun x => x.payload) = [[8], [7]]) = true := by
    decide +kernel
  obtain ⟨l, hreach, hl⟩ := exists_reachable_of_free_run (.init rfl) hrun
  exact ⟨l, hreach, of_decide_eq_true hl, unordered_delivery_once hreach (by decide)⟩

end Runs
end BasisRust.Transport
