import Mathlib.Data.List.Basic
import Mathlib.Data.Nat.Notation

/-!
# Packing items into bounded units

A packer goes through a list of items and appends the framed form of each to the unit it has open.
When the next item would make the unit longer than a limit it closes the unit and opens another; an
item that fits into no unit, or is not eligible for one, is sent bare.  A unit that holds one item
only may be rewritten when it is closed.

`Framing` says how items are framed, and `Framing.pack` is the packer.  `Packed carries units items`
says that the units carry the items, one group each, in order; `Framing.pack_packed` is that this
holds of what a lawful framing packs, whatever the order and the sizes of the items.
-/

namespace BasisRust.Library

/-! ### Units that carry items -/

/-- The units carry the items in order, each unit its own group. -/
inductive Packed {δ γ : Type} (carries : δ → List γ → Prop) : List δ → List γ → Prop
  | nil : Packed carries [] []
  | snoc {units : List δ} {items group : List γ} {unit : δ} (hunits : Packed carries units items)
      (hunit : carries unit group) : Packed carries (units ++ [unit]) (items ++ group)

namespace Packed

variable {δ γ : Type} {carries : δ → List γ → Prop} {units : List δ} {items : List γ}

/-- **Round trip.** -/
theorem decode (h : Packed carries units items) {read : δ → List γ}
    (hread : ∀ unit group, carries unit group → read unit = group) : units.flatMap
      read = items := by
  induction h with
  | nil => rfl
  | snoc _ hunit ih => rw [List.flatMap_append, ih, List.flatMap_singleton, hread _ _ hunit]

theorem exists_group (h : Packed carries units items) :
    ∀ unit ∈ units, ∃ group, carries unit group := by
  induction h with
  | nil => exact nofun
  | snoc _ hunit ih =>
    intro unit hmem
    rcases List.mem_append.mp hmem with hmem | hmem
    · exact ih unit hmem
    · exact ⟨_, List.mem_singleton.mp hmem ▸ hunit⟩

end Packed

/-! ### The packer -/

/-- `single` rewrites a unit that holds one item; `closesOversized` says whether an item too large
for any unit closes the open one first. -/
structure Framing (α β : Type) where
  header : β
  limit : ℕ
  eligible : α → Bool
  framedLen : α → ℕ
  frame : α → List β
  bare : α → List β
  single : List β → List β
  closesOversized : Bool

/-- The closed units, the open one and the number of items in it. -/
structure PackState (β : Type) where
  units : List (List β)
  current : List β
  count : ℕ

namespace Framing

variable {α β γ : Type} (f : Framing α β)

def start : PackState β := ⟨[], [f.header], 0⟩

def close (s : PackState β) : PackState β :=
  if s.count = 0 then s
  else ⟨s.units ++ [if s.count = 1 then f.single s.current else s.current], [f.header], 0⟩

def sendBare (s : PackState β) (item : α) : PackState β :=
  { s with units := s.units ++ [f.bare item] }

def step (s : PackState β) (item : α) : PackState β :=
  if f.eligible item then
    let s := if 0 < s.count ∧ s.current.length + f.framedLen item > f.limit then f.close s else s
    if f.framedLen item + 1 > f.limit then
      f.sendBare (if f.closesOversized then f.close s else s) item
    else { s with current := s.current ++ f.frame item, count := s.count + 1 }
  else f.sendBare (f.close s) item

def pack (items : List α) : List (List β) := (f.close (items.foldl f.step f.start)).units

/-- What a framing owes: the items in a unit are carried by it, and an item sent bare is carried. -/
structure Lawful (carries : List β → List γ → Prop) (item : α → γ) (ok : α → Prop) : Prop where
  length : ∀ a, ok a → f.eligible a = true → (f.frame a).length = f.framedLen a
  bare : ∀ a, ok a → carries (f.bare a) [item a]
  single : ∀ a, ok a → f.eligible a = true → f.framedLen a + 1 ≤ f.limit →
    carries (f.single (f.header :: f.frame a)) [item a]
  many : ∀ group : List α, (∀ a ∈ group, ok a ∧ f.eligible a = true ∧ f.framedLen a + 1 ≤ f.limit) →
    group ≠ [] → (f.header :: group.flatMap f.frame).length ≤ f.limit →
    carries (f.header :: group.flatMap f.frame) (group.map item)

/-- The open unit holds these items, and is within the limit. -/
structure Open (ok : α → Prop) (s : PackState β) (pending : List α) : Prop where
  current : s.current = f.header :: pending.flatMap f.frame
  count : s.count = pending.length
  fits : pending ≠ [] → s.current.length ≤ f.limit
  items : ∀ a ∈ pending, ok a ∧ f.eligible a = true ∧ f.framedLen a + 1 ≤ f.limit

/-- **The invariant**: the closed units carry the items before those in the open one. -/
def Holds (carries : List β → List γ → Prop) (item : α → γ) (ok : α → Prop) (s : PackState β)
    (items : List γ) : Prop :=
  ∃ done pending, Packed carries s.units done ∧ f.Open ok s pending ∧
    items = done ++ pending.map item

variable {f} {carries : List β → List γ → Prop} {item : α → γ} {ok : α → Prop} {s : PackState β}
  {items : List γ}

theorem holds_start : f.Holds carries item ok f.start [] :=
  ⟨[], [], .nil, ⟨rfl, rfl, fun h => absurd rfl h, nofun⟩, rfl⟩

section

variable (law : f.Lawful carries item ok) (h : f.Holds carries item ok s items)
include law h

/-- Closing the unit moves its items to the closed ones. -/
theorem Lawful.close :
    f.Holds carries item ok (f.close s) items ∧ (f.close s).count = 0 ∧
      (f.close s).current = [f.header] := by
  obtain ⟨done, pending, hunits, hopen, hitems⟩ := h
  rw [Framing.close]
  split
  · next hzero =>
    have hnil : pending = [] := List.eq_nil_of_length_eq_zero (hopen.count.symm.trans hzero)
    refine ⟨⟨done, pending, hunits, hopen, hitems⟩, hzero, ?_⟩
    rw [hopen.current, hnil]
    rfl
  · next hcount =>
    refine ⟨⟨items, [], ?_, ⟨rfl, rfl, fun h => absurd rfl h, nofun⟩, (List.append_nil _).symm⟩,
      rfl, rfl⟩
    rw [hitems]
    refine .snoc hunits ?_
    match pending, hopen with
    | [], hopen => exact absurd hopen.count hcount
    | [a], hopen =>
      obtain ⟨hok, heligible, hlen⟩ := hopen.items a (.head _)
      have hone : s.count = 1 := hopen.count
      rw [if_pos hone, hopen.current, List.flatMap_singleton]
      exact law.single a hok heligible hlen
    | a :: b :: rest, hopen =>
      have hmany : s.count ≠ 1 := by
        rw [hopen.count, List.length_cons, List.length_cons]
        omega
      have hfits := hopen.fits (List.cons_ne_nil _ _)
      rw [if_neg hmany, hopen.current]
      rw [hopen.current] at hfits
      exact law.many _ hopen.items (List.cons_ne_nil _ _) hfits

/-- An item is sent bare when no unit is open. -/
theorem Lawful.sendBare (hcount : s.count = 0) {a : α} (ha : ok a) :
    f.Holds carries item ok (f.sendBare s a) (items ++ [item a]) := by
  obtain ⟨done, pending, hunits, hopen, hitems⟩ := h
  have hnil : pending = [] := List.eq_nil_of_length_eq_zero (hopen.count.symm.trans hcount)
  subst hnil
  refine ⟨done ++ [item a], [], .snoc hunits (law.bare a ha), ?_, ?_⟩
  · exact ⟨hopen.current, hopen.count, fun h => absurd rfl h, nofun⟩
  · rw [hitems]
    simp

/-- An item that fits is framed into the open unit. -/
theorem Lawful.add {a : α}
    (ha : ok a) (heligible : f.eligible a = true) (hlen : f.framedLen a + 1 ≤ f.limit)
    (hfits : 0 < s.count → s.current.length + f.framedLen a ≤ f.limit) :
    f.Holds carries item ok
      { s with current := s.current ++ f.frame a, count := s.count + 1 } (items ++ [item a]) := by
  obtain ⟨done, pending, hunits, hopen, hitems⟩ := h
  refine ⟨done, pending ++ [a], hunits, ⟨?_, ?_, ?_, ?_⟩, ?_⟩
  · show s.current ++ f.frame a = _
    rw [hopen.current, List.flatMap_append, List.flatMap_singleton]
    rfl
  · show s.count + 1 = _
    rw [hopen.count, List.length_append]
    rfl
  · intro _
    show (s.current ++ f.frame a).length ≤ f.limit
    rw [List.length_append, law.length a ha heligible]
    cases pending with
    | nil =>
      rw [hopen.current]
      show 1 + f.framedLen a ≤ f.limit
      omega
    | cons b pending =>
      apply hfits
      rw [hopen.count]
      exact Nat.succ_pos _
  · intro b hb
    rcases List.mem_append.mp hb with hb | hb
    · exact hopen.items b hb
    · rw [List.mem_singleton.mp hb]
      exact ⟨ha, heligible, hlen⟩
  · rw [hitems, List.map_append, List.append_assoc]
    rfl

end

theorem Open.current_pos {pending : List α} (h : f.Open ok s pending) : 1 ≤ s.current.length := by
  rw [h.current]
  exact Nat.succ_pos _

theorem Lawful.step (law : f.Lawful carries item ok) (h : f.Holds carries item ok s items) {a : α}
    (ha : ok a) : f.Holds carries item ok (f.step s a) (items ++ [item a]) := by
  rw [Framing.step]
  split
  · next heligible =>
    -- the unit after the first test: closed, or with room left
    obtain ⟨s', hs', h', hroom⟩ : ∃ s', s' =
        (if 0 < s.count ∧ s.current.length + f.framedLen a > f.limit then f.close s else s) ∧
        f.Holds carries item ok s' items ∧
        (0 < s'.count → s'.current.length + f.framedLen a ≤ f.limit) := by
      refine ⟨_, rfl, ?_⟩
      split
      · obtain ⟨hclosed, hcount, -⟩ := law.close h
        exact ⟨hclosed, fun hpos => absurd hcount (Nat.ne_of_gt hpos)⟩
      · next hfits =>
        refine ⟨h, ?_⟩
        intro hpos
        exact Nat.le_of_not_lt fun hlt => hfits ⟨hpos, hlt⟩
    dsimp only
    rw [← hs']
    split
    · next hlarge =>
      have hpos : 1 ≤ s'.current.length := by
        obtain ⟨_, _, _, hopen, _⟩ := h'
        exact hopen.current_pos
      split
      · obtain ⟨hclosed, hcount, -⟩ := law.close h'
        exact law.sendBare hclosed hcount ha
      · -- a unit with room for this item would be larger than the limit
        refine law.sendBare h' ?_ ha
        by_contra hne
        have := hroom (Nat.pos_of_ne_zero hne)
        omega
    · next hsmall => exact law.add h' ha heligible (Nat.le_of_not_lt hsmall) hroom
  · obtain ⟨hclosed, hcount, -⟩ := law.close h
    exact law.sendBare hclosed hcount ha

theorem Lawful.foldl (law : f.Lawful carries item ok) (as : List α) (has : ∀ a ∈ as, ok a)
    (h : f.Holds carries item ok s items) :
    f.Holds carries item ok (as.foldl f.step s) (items ++ as.map item) := by
  induction as generalizing s items with
  | nil =>
    rw [List.map_nil, List.append_nil]
    exact h
  | cons a as ih =>
    have hstep := law.step h (has a (.head _))
    have hrun := ih (fun b hb => has b (.tail _ hb)) hstep
    rw [List.append_assoc] at hrun
    exact hrun

/-- **What is packed carries the items.** -/
theorem Lawful.pack_packed (law : f.Lawful carries item ok) (as : List α) (has : ∀ a ∈ as, ok a) :
    Packed carries (f.pack as) (as.map item) := by
  obtain ⟨hclosed, hcount, -⟩ := law.close (law.foldl as has holds_start)
  obtain ⟨done, pending, hunits, hopen, hitems⟩ := hclosed
  have hnil : pending = [] := List.eq_nil_of_length_eq_zero (hopen.count.symm.trans hcount)
  subst hnil
  rw [List.map_nil, List.append_nil] at hitems
  rw [← List.nil_append (as.map item), hitems]
  exact hunits

end Framing

end BasisRust.Library
