import BasisRust.Transport.ClientFragments

/-!
# The books of the client's reassembly

Whatever is pushed, `ReliableFragmentReassembler.bytes` is the number of bytes held, and a call of
`push` touches no assembly but the one of its fragment and those that have expired.

`push_outcome` lists what a call can do; `Sound` is the invariant, and `push_get` the frame.
-/

namespace BasisRust.Transport

open Library
open IncomingFragmentAssembly (storedBytes storedBytes_set storedBytes_empty countP_set)

/-! ### One assembly -/

namespace FragmentAssembly

variable {entry : FragmentAssembly} {part total now : ℕ} {data : Bytes}

/-- The counters of an assembly count its parts. -/
structure Counted (entry : FragmentAssembly) : Prop where
  length : entry.parts.length = entry.total
  received : entry.received = entry.parts.countP Option.isSome
  bytes : entry.bytes = storedBytes entry.parts

theorem Counted.opened (part total : ℕ) (data : Bytes) (now : ℕ) :
    (opened part total data now).Counted where
  length := List.length_replicate
  received := by
    apply Eq.symm
    apply List.countP_eq_zero.mpr
    intro place hplace
    simp [List.eq_of_mem_replicate hplace]
  bytes := (storedBytes_empty fun _ hp => List.eq_of_mem_replicate hp).symm

theorem Counted.put (h : entry.Counted) (hnone : entry.parts[part]? = some none) (total : ℕ)
    (data : Bytes) (now : ℕ) : (entry.put part total data now).Counted where
  length := by
    simp [FragmentAssembly.put, h.length]
  received := by
    simp [FragmentAssembly.put, countP_set hnone, h.received]
  bytes := by
    simp [FragmentAssembly.put, storedBytes_set hnone, h.bytes]

theorem total_of_conflict (h : entry.conflict part total data = none) : entry.total = total := by
  by_contra hne
  rw [conflict, if_pos hne] at h
  cases h

theorem Counted.getElem?_none (h : entry.Counted) (hpart : part < entry.total)
    (hnone : entry.parts.getD part none = none) : entry.parts[part]? = some none := by
  have hlt : part < entry.parts.length := by
    rw [h.length]
    exact hpart
  rw [List.getD_eq_getElem?_getD, List.getElem?_eq_getElem hlt] at hnone
  rw [List.getElem?_eq_getElem hlt]
  exact congrArg some hnone

end FragmentAssembly

namespace ReliableFragmentReassembler

variable {r : ReliableFragmentReassembler} {key key' : Byte × ℕ} {entry : FragmentAssembly}
  {channelId : Byte} {payload data : Bytes} {part total now : ℕ}

/-! ### Reading after an update -/

@[simp] theorem invalid_get (reason : String) : (r.invalid reason).2.get key = r.get key := rfl

theorem insertEntry_get :
    (r.insertEntry key entry).get key' = if key' = key then some entry else r.get key' :=
  assocGet_put key key' (some entry) r.entries

theorem insertEntry_get_self (r : ReliableFragmentReassembler) (key : Byte × ℕ)
    (entry : FragmentAssembly) : (r.insertEntry key entry).get key = some entry := by
  rw [insertEntry_get, if_pos rfl]

/-- The other fields are not read. -/
@[simp] theorem get_bytes (bytes : ℕ) : get { r with bytes := bytes } key = r.get key := rfl

theorem remove_get : (r.remove key).get key' = if key' = key then none else r.get key' := by
  rw [remove]
  cases hget : r.get key with
  | none =>
    split_ifs with h
    · rw [h]
      exact hget
    · rfl
  | some entry => exact assocGet_put key key' none r.entries

theorem foldl_remove_get (keys : List (Byte × ℕ)) :
    (keys.foldl remove r).get key' = if key' ∈ keys then none else r.get key' := by
  induction keys generalizing r with
  | nil => simp
  | cons key keys ih =>
    rw [List.foldl_cons, ih, remove_get]
    by_cases h : key' = key
    · simp [h]
    · simp [h]

theorem store_pending (key : Byte × ℕ) (hfits : ¬ (r.bytes + data.length > maxReassemblyBytes))
    (h : (entry.put part total data now).received ≠ (entry.put part total data now).total) :
    r.store key entry part total data now = (.pending,
      { r.insertEntry key (entry.put part total data now) with
        bytes := r.bytes + data.length }) := by
  rw [store, if_neg hfits]
  exact if_pos h

theorem store_complete (key : Byte × ℕ) (hfits : ¬ (r.bytes + data.length > maxReassemblyBytes))
    (h : (entry.put part total data now).received = (entry.put part total data now).total)
    (hall : (entry.put part total data now).parts.all Option.isSome = true) :
    r.store key entry part total data now =
      (.complete (((entry.put part total data now).parts.map fun bytes => bytes.getD []).flatten),
        remove { r.insertEntry key (entry.put part total data now) with
          bytes := r.bytes + data.length } key) := by
  rw [store, if_neg hfits]
  exact (if_neg (not_not.mpr h)).trans (if_pos hall)

theorem store_get_of_ne (h : key' ≠ key) :
    (r.store key entry part total data now).2.get key' = r.get key' := by
  rw [store]
  dsimp only
  split_ifs
  · rw [invalid_get, remove_get, if_neg h]
  · rw [get_bytes, insertEntry_get, if_neg h]
  · rw [remove_get, if_neg h, get_bytes, insertEntry_get, if_neg h]
  · rw [invalid_get, get_bytes, insertEntry_get, if_neg h]

/-! ### The invariant -/

/-- The counters are right. -/
structure Sound (r : ReliableFragmentReassembler) : Prop where
  nodup : AssocNodup r.entries
  counted : ∀ key entry, r.get key = some entry → entry.Counted
  bytes : r.bytes = assocSum FragmentAssembly.bytes r.entries

namespace Sound

theorem empty : Sound .empty where
  nodup := AssocNodup.nil
  counted := nofun
  bytes := rfl

section

variable (h : r.Sound)
include h

/-- The byte counter is the number of bytes held. -/
theorem bytes_eq : r.bytes = r.heldBytes := by
  rw [h.bytes, heldBytes, assocSum, assocSum]
  congr 1
  apply List.map_congr_left
  intro x hx
  exact (h.counted x.1 x.2 (h.nodup.get_of_mem hx)).bytes

theorem setError (error : Option String) : Sound { r with lastError := error } where
  __ := h

theorem remove (key : Byte × ℕ) : (r.remove key).Sound := by
  cases hget : r.get key with
  | none =>
    rw [ReliableFragmentReassembler.remove, hget]
    exact h
  | some entry =>
    have hsum := h.nodup.sum_erase FragmentAssembly.bytes key
    have hget' : assocGet key r.entries = some entry := hget
    rw [hget', Option.elim, ← h.bytes] at hsum
    refine ⟨?_, ?_, ?_⟩
    · rw [ReliableFragmentReassembler.remove, hget]
      exact h.nodup.erase key
    · intro key' entry' hentry
      rw [remove_get] at hentry
      split_ifs at hentry
      exact h.counted key' entry' hentry
    · rw [ReliableFragmentReassembler.remove, hget]
      show r.bytes - entry.bytes = assocSum FragmentAssembly.bytes (assocErase key r.entries)
      omega

theorem foldl_remove (keys : List (Byte × ℕ)) : (keys.foldl .remove r).Sound := by
  induction keys generalizing r with
  | nil => exact h
  | cons key keys ih => exact ih (h.remove key)

/-- Putting in an assembly, with the counter moved by the difference. -/
theorem set (hentry : entry.Counted) {bytes : ℕ}
    (hbytes : bytes + (r.get key).elim 0 FragmentAssembly.bytes = r.bytes + entry.bytes) :
    Sound { r.insertEntry key entry with bytes := bytes } where
  nodup := h.nodup.put key (some entry)
  counted := by
    intro key' entry' hget
    rw [get_bytes, insertEntry_get] at hget
    split_ifs at hget
    · cases hget
      exact hentry
    · exact h.counted key' entry' hget
  bytes := by
    have hsum := h.nodup.sum_put FragmentAssembly.bytes key (some entry)
    rw [← h.bytes] at hsum
    simp only [assocPut, Option.elim] at hsum
    simp only [get, Option.elim] at hbytes
    show bytes = assocSum FragmentAssembly.bytes (assocSet key entry r.entries)
    omega

theorem store (hget : r.get key = some entry) (hnone : entry.parts[part]? = some none) (total : ℕ)
    (data : Bytes) (now : ℕ) : (r.store key entry part total data now).2.Sound := by
  have hput : Sound { r.insertEntry key (entry.put part total data now) with
      bytes := r.bytes + data.length } := by
    refine h.set ((h.counted key entry hget).put hnone total data now) ?_
    rw [hget]
    show r.bytes + data.length + entry.bytes = r.bytes + (entry.bytes + data.length)
    omega
  rw [ReliableFragmentReassembler.store]
  dsimp only
  split_ifs
  · exact (h.remove key).setError _
  · exact hput
  · exact hput.remove key
  · exact hput.setError _

end

end Sound

/-! ### What a call can do -/

/-- The outcomes of a call: assemblies have expired, the fragment is refused with or without its
assembly, it is there already, or it is stored in an assembly that was open or is opened for it. -/
inductive PushOutcome (r : ReliableFragmentReassembler) (channelId : Byte) (payload : Bytes)
    (now : ℕ) : FragmentResult × ReliableFragmentReassembler → Prop
  | expired (h : r.expired now ≠ []) (reason : String) :
      PushOutcome r channelId payload now (((r.expired now).foldl remove r).invalid reason)
  | refused (reason : String) : PushOutcome r channelId payload now (r.invalid reason)
  | dropped (hlong : 6 < payload.length) (reason : String) :
      PushOutcome r channelId payload now ((r.remove (ownKey channelId payload)).invalid reason)
  | duplicate : PushOutcome r channelId payload now (.duplicate, r)
  | stored (hlong : 6 < payload.length) {entry : FragmentAssembly} {part total : ℕ} {data : Bytes}
      (hget : r.get (ownKey channelId payload) = some entry)
      (hnone : entry.parts[part]? = some none) : PushOutcome r channelId payload now
        (r.store (ownKey channelId payload) entry part total data now)
  | opened (hlong : 6 < payload.length) {part total : ℕ} {data : Bytes}
      (hget : r.get (ownKey channelId payload) = none) (hpart : part < total) :
      PushOutcome r channelId payload now
        ((r.insertEntry (ownKey channelId payload)
            (FragmentAssembly.opened part total data now)).store (ownKey channelId payload)
          (FragmentAssembly.opened part total data now) part total data now)

theorem part_lt_of_bounds (h : ¬ partOutOfBounds part total data = true) : part < total := by
  by_contra hge
  exact h (by simp [partOutOfBounds, not_lt.mp hge])

theorem accept_outcome (hsound : r.Sound) (hlong : 6 < payload.length) (hpart : part < total) :
    PushOutcome r channelId payload now
      (r.accept (ownKey channelId payload) part total data now) := by
  rw [accept]
  cases hget : r.get (ownKey channelId payload) with
  | none =>
    dsimp only
    split_ifs
    · exact .refused _
    · exact .opened hlong hget hpart
  | some entry =>
    dsimp only
    cases hconflict : entry.conflict part total data with
    | some reason => exact .dropped hlong reason
    | none =>
      dsimp only
      cases hplace : entry.parts.getD part none with
      | some existing =>
        dsimp only
        split_ifs
        · exact .duplicate
        · exact .dropped hlong _
      | none =>
        have htotal := FragmentAssembly.total_of_conflict hconflict
        refine .stored hlong hget ?_
        exact (hsound.counted _ _ hget).getElem?_none (by rw [htotal]; exact hpart) hplace

/-- **What a call does** is one of the six things. -/
theorem push_outcome (hsound : r.Sound) (channelId : Byte) (payload : Bytes) (now : ℕ) :
    PushOutcome r channelId payload now (r.push channelId payload now) := by
  rw [push]
  dsimp only
  split_ifs with hexpired hshort hbounds
  · refine .expired ?_ _
    intro hnil
    rw [hnil] at hexpired
    cases hexpired
  · exact .refused _
  · exact .refused _
  · exact accept_outcome hsound (not_le.mp hshort) (part_lt_of_bounds hbounds)

theorem Sound.push (h : r.Sound) (channelId : Byte) (payload : Bytes) (now : ℕ) :
    (r.push channelId payload now).2.Sound := by
  have hcases := push_outcome h channelId payload now
  generalize r.push channelId payload now = outcome at hcases ⊢
  cases hcases with
  | expired _ reason => exact (h.foldl_remove _).setError _
  | refused reason => exact h.setError _
  | dropped _ reason => exact (h.remove _).setError _
  | duplicate => exact h
  | stored _ hget hnone => exact h.store hget hnone _ _ _
  | @opened _ part total data hget hpart =>
    have hopened := FragmentAssembly.Counted.opened part total data now
    have hbytes : r.bytes + (r.get (ownKey channelId payload)).elim 0 FragmentAssembly.bytes =
        r.bytes + 0 := by
      rw [hget]
      rfl
    have hset : Sound (r.insertEntry (ownKey channelId payload)
        (FragmentAssembly.opened part total data now)) := h.set hopened hbytes
    refine hset.store ?_ ?_ _ _ _
    · rw [insertEntry_get_self]
    · simp [FragmentAssembly.opened, hpart]

/-- **Frame.**  A call touches only the assembly of its fragment and the expired ones. -/
theorem push_get (h : r.Sound) (hown : ¬ (6 < payload.length ∧ key' = ownKey channelId payload))
    (hexpired : key' ∉ r.expired now) :
    (r.push channelId payload now).2.get key' = r.get key' := by
  have hcases := push_outcome h channelId payload now
  generalize r.push channelId payload now = outcome at hcases ⊢
  cases hcases with
  | expired _ reason => rw [invalid_get, foldl_remove_get, if_neg hexpired]
  | refused reason => rfl
  | dropped hlong reason => rw [invalid_get, remove_get, if_neg fun heq => hown ⟨hlong, heq⟩]
  | duplicate => rfl
  | stored hlong hget hnone => rw [store_get_of_ne fun heq => hown ⟨hlong, heq⟩]
  | opened hlong hget hpart =>
    have hne : key' ≠ ownKey channelId payload := fun heq => hown ⟨hlong, heq⟩
    rw [store_get_of_ne hne, insertEntry_get, if_neg hne]

/-- The counters are right after every list of calls. -/
theorem Sound.pushAll (h : r.Sound) (calls : List Push) : (r.pushAll calls).2.Sound := by
  induction calls generalizing r with
  | nil => exact h
  | cons call calls ih => exact ih (h.push call.channelId call.payload call.now)

end ReliableFragmentReassembler
end BasisRust.Transport

