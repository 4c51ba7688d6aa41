import BasisRust.Library.AssocList
import Mathlib.Order.Lattice

/-!
# Ordered maps

A map that keeps its keys in order, as a list of entries with increasing keys.  Reads are those of
the association list; `OrderedMap.perm_insert` and `OrderedMap.perm_of_get` say what an update does
to the entries, up to their order, and so to every sum over them.
-/

namespace BasisRust.Library

/-- A map with its entries in the order of the keys. -/
structure OrderedMap (κ α : Type) [LinearOrder κ] where
  entries : List (κ × α)
  sorted : entries.Pairwise fun x y => x.1 < y.1
  deriving DecidableEq

theorem OrderedMap.ext {κ α : Type} [LinearOrder κ] {m n : OrderedMap κ α}
    (h : m.entries = n.entries) : m = n := by
  cases m
  cases n
  cases h
  rfl

namespace OrderedMap

variable {κ α : Type} [LinearOrder κ]

def empty : OrderedMap κ α := ⟨[], .nil⟩

instance : Inhabited (OrderedMap κ α) := ⟨empty⟩

def get (m : OrderedMap κ α) (k : κ) : Option α := assocGet k m.entries

def isEmpty (m : OrderedMap κ α) : Bool := m.entries.isEmpty

def len (m : OrderedMap κ α) : ℕ := m.entries.length

def keys (m : OrderedMap κ α) : List κ := m.entries.map Prod.fst

/-- Put an entry at its place. -/
def insertEntry (k : κ) (x : α) : List (κ × α) → List (κ × α)
  | [] => [(k, x)]
  | (j, y) :: l =>
    if k < j then (k, x) :: (j, y) :: l
    else if k = j then (k, x) :: l
    else (j, y) :: insertEntry k x l

variable {k : κ} {x : α} {l : List (κ × α)}

theorem mem_insertEntry {y : κ × α} (h : y ∈ insertEntry k x l) : y = (k, x) ∨ y ∈ l := by
  induction l with
  | nil => exact .inl (List.mem_singleton.mp h)
  | cons z l ih =>
    obtain ⟨j, z⟩ := z
    rw [insertEntry] at h
    split_ifs at h with hlt heq
    · exact List.mem_cons.mp h
    · exact (List.mem_cons.mp h).imp_right (List.mem_cons_of_mem _)
    · rcases List.mem_cons.mp h with h | h
      · exact .inr (h ▸ .head _)
      · exact (ih h).imp_right (List.mem_cons_of_mem _)

theorem sorted_insertEntry (h : l.Pairwise fun x y => x.1 < y.1) :
    (insertEntry k x l).Pairwise fun x y => x.1 < y.1 := by
  induction l with
  | nil => exact List.pairwise_singleton _ _
  | cons z l ih =>
    obtain ⟨j, z⟩ := z
    obtain ⟨hhead, htail⟩ := List.pairwise_cons.mp h
    rw [insertEntry]
    split_ifs with hlt heq
    · refine List.pairwise_cons.mpr ⟨?_, h⟩
      intro y hy
      rcases List.mem_cons.mp hy with rfl | hy
      · exact hlt
      · exact hlt.trans (hhead y hy)
    · subst heq
      exact List.pairwise_cons.mpr ⟨hhead, htail⟩
    · refine List.pairwise_cons.mpr ⟨?_, ih htail⟩
      intro y hy
      rcases mem_insertEntry hy with rfl | hy
      · exact lt_of_le_of_ne (not_lt.mp hlt) (Ne.symm heq)
      · exact hhead y hy

def insert (m : OrderedMap κ α) (k : κ) (x : α) : OrderedMap κ α :=
  ⟨insertEntry k x m.entries, sorted_insertEntry m.sorted⟩

def erase (m : OrderedMap κ α) (k : κ) : OrderedMap κ α :=
  ⟨assocErase k m.entries, m.sorted.sublist List.filter_sublist⟩

/-! ### The entries after an update -/

theorem nodup (m : OrderedMap κ α) : AssocNodup m.entries :=
  List.pairwise_map.mpr (m.sorted.imp fun h => h.ne)

variable {m : OrderedMap κ α}

theorem perm_of_get (h : m.get k = some x) : m.entries.Perm ((k, x) :: (m.erase k).entries) :=
  m.nodup.perm_of_get h

theorem perm_insert (m : OrderedMap κ α) (k : κ) (x : α) :
    (m.insert k x).entries.Perm ((k, x) :: (m.erase k).entries) := by
  obtain ⟨entries, hsorted⟩ := m
  show (insertEntry k x entries).Perm ((k, x) :: assocErase k entries)
  induction entries with
  | nil => exact .refl _
  | cons z l ih =>
    obtain ⟨j, z⟩ := z
    obtain ⟨hhead, htail⟩ := List.pairwise_cons.mp hsorted
    have hkeep : k ≤ j → assocErase k l = l := by
      intro hle
      refine List.filter_eq_self.mpr ?_
      intro y hy
      exact decide_eq_true (hle.trans_lt (hhead y hy)).ne'
    rw [insertEntry, assocErase_cons]
    rcases lt_trichotomy k j with hlt | heq | hgt
    · rw [if_pos hlt, if_neg hlt.ne', hkeep hlt.le]
    · rw [if_neg heq.not_lt, if_pos heq, if_pos heq.symm, hkeep heq.le]
    · rw [if_neg hgt.not_gt, if_neg hgt.ne', if_neg hgt.ne]
      exact ((ih htail).cons _).trans (List.Perm.swap _ _ _)

theorem erase_of_get_none (h : m.get k = none) : (m.erase k).entries = m.entries := by
  refine List.filter_eq_self.mpr ?_
  intro x hx
  refine decide_eq_true ?_
  rintro rfl
  obtain ⟨y, hy⟩ := assocGet_isSome_of_mem hx
  rw [show assocGet x.1 m.entries = none from h] at hy
  cases hy

/-! ### Reads -/

theorem get_erase_self (m : OrderedMap κ α) (k : κ) : (m.erase k).get k = none :=
  assocGet_erase_self _ _

theorem get_erase_of_ne {k' : κ} (h : k' ≠ k) : (m.erase k).get k' = m.get k' :=
  assocGet_erase_of_ne h _

theorem mem_iff_get : (k, x) ∈ m.entries ↔ m.get k = some x :=
  ⟨m.nodup.get_of_mem, mem_keys_of_assocGet⟩

theorem mem_insert {y : κ × α} :
    y ∈ (m.insert k x).entries ↔ y = (k, x) ∨ y ∈ (m.erase k).entries :=
  (m.perm_insert k x).mem_iff.trans List.mem_cons

theorem get_insert_self (m : OrderedMap κ α) (k : κ) (x : α) : (m.insert k x).get k = some x :=
  mem_iff_get.mp (mem_insert.mpr (.inl rfl))

theorem get_insert_of_ne {k' : κ} (h : k' ≠ k) (x : α) : (m.insert k x).get k' = m.get k' := by
  rw [← show (m.erase k).get k' = m.get k' from get_erase_of_ne h]
  apply Option.ext
  intro y
  show (m.insert k x).get k' = some y ↔ (m.erase k).get k' = some y
  rw [← mem_iff_get, ← mem_iff_get, mem_insert]
  refine or_iff_right ?_
  intro heq
  exact h (Prod.mk.inj heq).1

theorem mem_keys : k ∈ m.keys ↔ ∃ x, m.get k = some x := by
  constructor
  · intro h
    obtain ⟨⟨_, x⟩, hmem, rfl⟩ := List.mem_map.mp h
    exact ⟨x, mem_iff_get.mp hmem⟩
  · rintro ⟨x, hx⟩
    exact List.mem_map.mpr ⟨(k, x), mem_iff_get.mpr hx, rfl⟩

/-- Two maps are equal if their entries are, up to the order. -/
theorem eq_of_perm {n : OrderedMap κ α} (h : m.entries.Perm n.entries) : m = n := by
  refine OrderedMap.ext (h.eq_of_pairwise ?_ m.sorted n.sorted)
  intro x y _ _ hxy hyx
  exact absurd hyx hxy.not_gt

/-- Two maps are equal if all reads are. -/
theorem ext_get {n : OrderedMap κ α} (h : ∀ k, m.get k = n.get k) : m = n := by
  refine eq_of_perm ((List.perm_ext_iff_of_nodup ?_ ?_).mpr ?_)
  · exact m.sorted.imp fun hlt heq => hlt.ne (congrArg Prod.fst heq)
  · exact n.sorted.imp fun hlt heq => hlt.ne (congrArg Prod.fst heq)
  · rintro ⟨k, x⟩
    rw [mem_iff_get, mem_iff_get, h]

theorem get_insert (m : OrderedMap κ α) (k k' : κ) (x : α) :
    (m.insert k x).get k' = if k' = k then some x else m.get k' := by
  split
  · rename_i heq
    rw [heq, get_insert_self]
  · rename_i hne
    rw [get_insert_of_ne hne]

theorem insert_of_get (h : m.get k = some x) : m.insert k x = m := by
  apply ext_get
  intro k'
  rw [get_insert]
  split_ifs with hk
  · rw [hk, h]
  · rfl

theorem get_erase (m : OrderedMap κ α) (k k' : κ) :
    (m.erase k).get k' = if k' = k then none else m.get k' := by
  split
  · rename_i heq
    rw [heq, get_erase_self]
  · rename_i hne
    rw [get_erase_of_ne hne]

theorem erase_insert (m : OrderedMap κ α) (k : κ) (x : α) : (m.insert k x).erase k = m.erase k := by
  apply ext_get
  intro k'
  rw [get_erase, get_erase, get_insert]
  split_ifs <;> rfl

theorem erase_of_none (h : m.get k = none) : m.erase k = m := OrderedMap.ext (erase_of_get_none h)

theorem insert_insert (m : OrderedMap κ α) (k : κ) (x y : α) :
    (m.insert k x).insert k y = m.insert k y := by
  apply ext_get
  intro k'
  rw [get_insert, get_insert, get_insert]
  split_ifs <;> rfl

/-- The entries with a property. -/
def filter (p : κ × α → Bool) (m : OrderedMap κ α) : OrderedMap κ α :=
  ⟨m.entries.filter p, m.sorted.sublist List.filter_sublist⟩

theorem get_filter {p : κ × α → Bool} :
    (m.filter p).get k = some x ↔ m.get k = some x ∧ p (k, x) = true := by
  rw [← mem_iff_get, ← mem_iff_get]
  exact List.mem_filter

/-- A new entry gets a place among the others. -/
theorem exists_insert_new (h : m.get k = none) (x : α) :
    ∃ l r, m.entries = l ++ r ∧ (m.insert k x).entries = l ++ (k, x) :: r := by
  obtain ⟨entries, hsorted⟩ := m
  show ∃ l r, entries = l ++ r ∧ insertEntry k x entries = l ++ (k, x) :: r
  replace h : assocGet k entries = none := h
  induction entries with
  | nil => exact ⟨[], [], rfl, rfl⟩
  | cons z entries ih =>
    obtain ⟨j, y⟩ := z
    rw [assocGet] at h
    split_ifs at h with hne
    obtain ⟨l, r, hentries, hinsert⟩ := ih (List.pairwise_cons.mp hsorted).2 h
    rw [insertEntry]
    split_ifs with hlt heq
    · exact ⟨[], _, rfl, rfl⟩
    · exact absurd heq.symm hne
    · exact ⟨(j, y) :: l, r, by rw [hentries, List.cons_append], by rw [hinsert, List.cons_append]⟩

/-- Change every value. -/
def mapValues {β : Type} (f : α → β) (m : OrderedMap κ α) : OrderedMap κ β where
  entries := m.entries.map fun x => (x.1, f x.2)
  sorted := List.pairwise_map.mpr m.sorted

theorem get_mapValues {β : Type} (f : α → β) (m : OrderedMap κ α) (k : κ) :
    (m.mapValues f).get k = (m.get k).map f :=
  assocGet_map m.entries f k

theorem keys_mapValues {β : Type} (f : α → β) (m : OrderedMap κ α) :
    (m.mapValues f).keys = m.keys := by
  show (m.entries.map fun x => (x.1, f x.2)).map Prod.fst = m.entries.map Prod.fst
  rw [List.map_map]
  rfl

/-- Putting in the changed entries of a map, one by one, gives the changed map. -/
theorem foldl_insert {β : Type} (f : α → β) (m : OrderedMap κ α) :
    m.entries.foldl (fun n x => n.insert x.1 (f x.2)) empty = m.mapValues f := by
  have hget : ∀ (l : List (κ × α)) (n : OrderedMap κ β), AssocNodup l → ∀ k,
      (l.foldl (fun n x => n.insert x.1 (f x.2)) n).get k =
        ((assocGet k l).map f).or (n.get k) := by
    intro l
    induction l with
    | nil =>
      intro n _ k
      rfl
    | cons x l ih =>
      intro n hl k
      obtain ⟨hx, hrest⟩ := List.nodup_cons.mp hl
      rw [List.foldl_cons, ih _ hrest, get_insert, assocGet]
      by_cases hk : k = x.1
      · subst hk
        rw [if_pos rfl, assocGet_eq_none hx]
        simp
      · rw [if_neg hk]
        simp [Ne.symm hk]
  apply ext_get
  intro k
  rw [hget m.entries empty m.nodup k, get_mapValues]
  cases h : m.get k with
  | none => rw [show assocGet k m.entries = none from h]; rfl
  | some x => rw [show assocGet k m.entries = some x from h]; rfl

/-- Entries that are put in one after the other, no key twice. -/
def Inserts : List (κ × α) → OrderedMap κ α → OrderedMap κ α → Prop
  | [], m, m' => m' = m
  | x :: l, m, m' => m.get x.1 = none ∧ Inserts l (m.insert x.1 x.2) m'

theorem perm_insert_new (h : m.get k = none) (x : α) :
    (m.insert k x).entries.Perm ((k, x) :: m.entries) := by
  have hperm := m.perm_insert k x
  rwa [erase_of_get_none h] at hperm

/-- **Entries put in** are, in any order, those that are new. -/
theorem inserts_iff {m' : OrderedMap κ α} : Inserts l m m' ↔ m'.entries.Perm (l ++ m.entries) := by
  induction l generalizing m with
  | nil => exact ⟨fun h => h ▸ .refl _, eq_of_perm⟩
  | cons x l ih =>
    obtain ⟨k, x⟩ := x
    have hmove : (l ++ (k, x) :: m.entries).Perm ((k, x) :: l ++ m.entries) := List.perm_middle
    constructor
    · intro h
      exact (ih.mp h.2).trans (((perm_insert_new h.1 x).append_left l).trans hmove)
    · intro h
      -- the key is in the map once
      have hnodup : AssocNodup ((k, x) :: l ++ m.entries) := (h.map Prod.fst).nodup_iff.mp m'.nodup
      have hfresh : m.get k = none := by
        apply assocGet_eq_none
        intro hk
        refine (List.nodup_cons.mp hnodup).1 ?_
        show k ∈ (l ++ m.entries).map Prod.fst
        rw [List.map_append]
        exact List.mem_append_right _ hk
      exact ⟨hfresh, ih.mpr (h.trans (((perm_insert_new hfresh x).append_left l).trans hmove).symm)⟩

/-! ### Sums over the entries -/

/-- The sum of a weight over all entries. -/
def sum (w : κ × α → ℕ) (m : OrderedMap κ α) : ℕ := (m.entries.map w).sum

theorem sum_insert (w : κ × α → ℕ) (m : OrderedMap κ α) (k : κ) (x : α) :
    (m.insert k x).sum w = w (k, x) + (m.erase k).sum w :=
  ((m.perm_insert k x).map w).sum_eq

theorem sum_of_get (w : κ × α → ℕ) (h : m.get k = some x) :
    m.sum w = w (k, x) + (m.erase k).sum w :=
  ((perm_of_get h).map w).sum_eq

theorem sum_of_none (w : κ × α → ℕ) (h : m.get k = none) : m.sum w = (m.erase k).sum w := by
  rw [sum, sum, erase_of_get_none h]

theorem len_eq_sum (m : OrderedMap κ α) : m.len = m.sum fun _ => 1 := by
  show m.entries.length = (m.entries.map fun _ => 1).sum
  rw [List.map_const', List.sum_replicate_nat, Nat.mul_one]

theorem len_insert (m : OrderedMap κ α) (k : κ) (x : α) :
    (m.insert k x).len = 1 + (m.erase k).len := by
  rw [len_eq_sum, sum_insert, ← len_eq_sum]

theorem len_of_get (h : m.get k = some x) : m.len = 1 + (m.erase k).len := by
  rw [len_eq_sum, sum_of_get _ h, ← len_eq_sum]

theorem len_of_none (h : m.get k = none) : m.len = (m.erase k).len := by
  rw [len_eq_sum, sum_of_none _ h, ← len_eq_sum]

theorem isEmpty_iff_len (m : OrderedMap κ α) : m.isEmpty = true ↔ m.len = 0 :=
  List.isEmpty_iff_length_eq_zero

end OrderedMap

end BasisRust.Library
