import Mathlib.Algebra.BigOperators.Group.List.Basic
import Mathlib.Algebra.Ring.Nat
import Mathlib.Data.List.Sort

/-!
# Grouping a list by a key

`dedupRuns` drops every element that equals its neighbour, `chunks n` cuts a list into pieces of at
most `n` elements, and `groupBy f keys` puts the elements of a list together that have the same key,
one group after the other.  For a strictly increasing list of all keys, `groupBy` is a stable sort:
a permutation (`groupBy_perm`) in the order of the keys (`groupBy_pairwise`) that keeps the order of
the elements of each key (`groupBy_filter`).
-/

namespace BasisRust.Library

/-! ### Runs of equal elements -/

section Runs

variable {α : Type} [DecidableEq α]

/-- Drop an element that equals its successor. -/
def dedupRuns : List α → List α
  | [] => []
  | [x] => [x]
  | x :: y :: l => if x = y then dedupRuns (y :: l) else x :: dedupRuns (y :: l)

theorem mem_dedupRuns (l : List α) (a : α) : a ∈ dedupRuns l ↔ a ∈ l := by
  induction l with
  | nil => exact Iff.rfl
  | cons x l ih =>
    cases l with
    | nil => exact Iff.rfl
    | cons y l =>
      rw [dedupRuns]
      by_cases h : x = y
      · subst h
        rw [if_pos rfl, ih]
        simp
      · rw [if_neg h, List.mem_cons, ih]
        exact List.mem_cons.symm

/-- The runs of a sorted list are all different. -/
theorem dedupRuns_nodup {r : α → α → Prop} (hanti : ∀ a b, r a b → r b a → a = b) {l : List α}
    (h : l.Pairwise r) : (dedupRuns l).Pairwise fun a b => r a b ∧ a ≠ b := by
  induction l with
  | nil => exact .nil
  | cons x l ih =>
    cases l with
    | nil => exact List.pairwise_singleton _ _
    | cons y l =>
      obtain ⟨hx, hl⟩ := List.pairwise_cons.mp h
      rw [dedupRuns]
      by_cases hxy : x = y
      · rw [if_pos hxy]
        exact ih hl
      · rw [if_neg hxy]
        refine List.pairwise_cons.mpr ⟨fun a ha => ?_, ih hl⟩
        have ha' : a ∈ y :: l := (mem_dedupRuns _ a).mp ha
        refine ⟨hx a ha', ?_⟩
        rintro rfl
        -- the head is not below its successor, so it does not come back later
        rcases List.mem_cons.mp ha' with hay | hal
        · exact hxy hay
        · exact hxy (hanti x y (hx y (.head _)) ((List.pairwise_cons.mp hl).1 x hal))

end Runs

/-! ### Chunks -/

section Chunks

variable {α : Type} {n : ℕ}

/-- The pieces of `n` elements, the last one maybe shorter. -/
def chunks (n : ℕ) (l : List α) : List (List α) :=
  (List.range ((l.length + n - 1) / n)).map fun i => (l.drop (i * n)).take n

theorem chunks_take (n m : ℕ) (l : List α) :
    ((List.range m).map fun i => (l.drop (i * n)).take n).flatten = l.take (m * n) := by
  induction m with
  | zero => simp
  | succ m ih =>
    rw [List.range_succ, List.map_append, List.flatten_append, ih, Nat.succ_mul, List.take_add]
    simp

theorem chunks_flatten (hn : 0 < n) (l : List α) : (chunks n l).flatten = l := by
  rw [chunks, chunks_take]
  apply List.take_of_length_le
  have hdiv := Nat.div_add_mod (l.length + n - 1) n
  have hmod := Nat.mod_lt (l.length + n - 1) hn
  rw [Nat.mul_comm]
  omega

theorem mem_chunks (hn : 0 < n) {l c : List α} (hc : c ∈ chunks n l) : c ≠ [] ∧ c.length ≤ n := by
  obtain ⟨i, hi, rfl⟩ := List.mem_map.mp hc
  rw [List.mem_range] at hi
  have hlt : i * n < l.length := by
    have hmul : (i + 1) * n ≤ l.length + n - 1 := (Nat.le_div_iff_mul_le hn).mp hi
    rw [Nat.succ_mul] at hmul
    omega
  constructor
  · apply List.ne_nil_of_length_pos
    rw [List.length_take, List.length_drop]
    omega
  · rw [List.length_take]
    exact Nat.min_le_left _ _

theorem mem_of_mem_chunks {l c : List α} (hc : c ∈ chunks n l) {x : α} (hx : x ∈ c) : x ∈ l := by
  obtain ⟨i, -, rfl⟩ := List.mem_map.mp hc
  exact List.mem_of_mem_drop (List.mem_of_mem_take hx)

/-- The number of chunks of a list with that many elements. -/
def chunkCount (n len : ℕ) : ℕ := (len + n - 1) / n

theorem length_chunks (n : ℕ) (l : List α) : (chunks n l).length = chunkCount n l.length := by
  rw [chunks, List.length_map, List.length_range, chunkCount]

/-- One more element starts a chunk when the chunks before it are full. -/
theorem chunkCount_succ (hn : 0 < n) (len : ℕ) :
    chunkCount n (len + 1) = chunkCount n len + if len % n = 0 then 1 else 0 := by
  have hsplit : len = n * (len / n) + len % n := (Nat.div_add_mod len n).symm
  have hmod : len % n < n := Nat.mod_lt len hn
  have hcount : ∀ q m, m ≤ n → chunkCount n (n * q + m) = q + if m = 0 then 0 else 1 := by
    intro q m hm
    rw [chunkCount]
    by_cases hzero : m = 0
    · subst hzero
      rw [if_pos rfl, show n * q + 0 + n - 1 = n * q + (n - 1) from by omega,
        Nat.mul_add_div hn, Nat.div_eq_of_lt (by omega)]
    · rw [if_neg hzero, show n * q + m + n - 1 = n * (q + 1) + (m - 1) from by
        rw [Nat.mul_succ]; omega, Nat.mul_add_div hn, Nat.div_eq_of_lt (by omega)]
  rw [hsplit, Nat.add_assoc, hcount _ _ (by omega), hcount _ _ (by omega), Nat.mul_add_mod,
    Nat.mod_mod]
  by_cases hzero : len % n = 0
  · rw [if_pos hzero, if_pos hzero, if_neg (by omega)]
  · rw [if_neg hzero, if_neg hzero, if_neg (by omega)]

end Chunks

/-! ### Groups -/

section Groups

variable {α κ : Type} [DecidableEq κ]

/-- The elements of each key in turn. -/
def groupBy (f : α → κ) (keys : List κ) (l : List α) : List α :=
  keys.flatMap fun k => l.filter fun x => f x = k

variable (f : α → κ)

theorem groupBy_cons (k : κ) (keys : List κ) (l : List α) :
    groupBy f (k :: keys) l = (l.filter fun x => f x = k) ++ groupBy f keys l :=
  List.flatMap_cons

variable {k : κ} {keys : List κ}

/-- The elements of a key that is not asked for do not matter. -/
theorem groupBy_filter_ne (hk : k ∉ keys) (l : List α) :
    groupBy f keys (l.filter fun x => f x ≠ k) = groupBy f keys l := by
  rw [groupBy, groupBy]
  apply List.flatMap_congr
  intro j hj
  rw [List.filter_filter]
  apply List.filter_congr
  intro x _
  have hne : k ≠ j := fun h => hk (h ▸ hj)
  by_cases hx : f x = j
  · simp [hx, Ne.symm hne]
  · simp [hx]

theorem groupBy_perm (hkeys : keys.Nodup) {l : List α} (hl : ∀ x ∈ l, f x ∈ keys) :
    (groupBy f keys l).Perm l := by
  induction keys generalizing l with
  | nil =>
    cases l with
    | nil => exact .nil
    | cons x l => exact absurd (hl x (.head _)) List.not_mem_nil
  | cons k keys ih =>
    obtain ⟨hk, hkeys⟩ := List.nodup_cons.mp hkeys
    have hrest := ih hkeys (l := l.filter fun x => f x ≠ k) fun x hx => by
      obtain ⟨hx, hne⟩ := List.mem_filter.mp hx
      exact (List.mem_cons.mp (hl x hx)).resolve_left (of_decide_eq_true hne)
    rw [groupBy_filter_ne f hk] at hrest
    rw [groupBy_cons]
    refine (hrest.append_left _).trans ?_
    have hsplit := List.filter_append_perm (fun x => decide (f x = k)) l
    simpa using hsplit

/-- **Within a key the order is kept.** -/
theorem groupBy_filter (hkeys : keys.Nodup) {l : List α} (hl : ∀ x ∈ l, f x ∈ keys) :
    ((groupBy f keys l).filter fun x => f x = k) = l.filter fun x => f x = k := by
  induction keys generalizing l with
  | nil =>
    cases l with
    | nil => rfl
    | cons x l => exact absurd (hl x (.head _)) List.not_mem_nil
  | cons j keys ih =>
    obtain ⟨hj, hkeys⟩ := List.nodup_cons.mp hkeys
    have hrest := ih hkeys (l := l.filter fun x => f x ≠ j) fun x hx => by
      obtain ⟨hx, hne⟩ := List.mem_filter.mp hx
      exact (List.mem_cons.mp (hl x hx)).resolve_left (of_decide_eq_true hne)
    rw [groupBy_filter_ne f hj] at hrest
    rw [groupBy_cons, List.filter_append, hrest, List.filter_filter, List.filter_filter]
    by_cases hkj : k = j
    · subst hkj
      simp
    · have hfirst : (l.filter fun x => decide (f x = k) && decide (f x = j)) = [] := by
        rw [List.filter_eq_nil_iff]
        intro x _
        by_cases hx : f x = k
        · simp [hx, hkj]
        · simp [hx]
      rw [hfirst, List.nil_append]
      apply List.filter_congr
      intro x _
      by_cases hx : f x = k
      · simp [hx, hkj]
      · simp [hx]

/-- **In the order of the keys.** -/
theorem groupBy_pairwise {r : κ → κ → Prop} (hrefl : ∀ k, r k k) (hkeys : keys.Pairwise r)
    (l : List α) : (groupBy f keys l).Pairwise fun x y => r (f x) (f y) := by
  have hkey : ∀ {k x}, x ∈ l.filter (fun x => f x = k) → f x = k := fun hx =>
    of_decide_eq_true (List.mem_filter.mp hx).2
  refine List.pairwise_flatMap.mpr ⟨fun k _ => ?_, hkeys.imp fun hr x hx y hy => ?_⟩
  · apply List.pairwise_of_forall_mem_list
    intro x hx y hy
    rw [hkey hx, hkey hy]
    exact hrefl k
  · rw [hkey hx, hkey hy]
    exact hr

/-- A sum over different keys, when one of its terms grows. -/
theorem sum_map_add_at (hkeys : keys.Nodup) (hk : k ∈ keys) (w : κ → ℕ) (d : ℕ) :
    (keys.map fun j => w j + if j = k then d else 0).sum = (keys.map w).sum + d := by
  induction keys with
  | nil => cases hk
  | cons j keys ih =>
    obtain ⟨hj, hkeys⟩ := List.nodup_cons.mp hkeys
    rw [List.map_cons, List.sum_cons, List.map_cons, List.sum_cons]
    by_cases hjk : j = k
    · subst hjk
      have hsame : (keys.map fun i => w i + if i = j then d else 0) = keys.map w := by
        apply List.map_congr_left
        intro i hi
        have hne : i ≠ j := fun h => hj (h ▸ hi)
        rw [if_neg hne, Nat.add_zero]
      rw [hsame, if_pos rfl]
      omega
    · rw [if_neg hjk, ih hkeys ((List.mem_cons.mp hk).resolve_left (Ne.symm hjk))]
      omega

end Groups

end BasisRust.Library
