import Mathlib.Data.List.Nodup
import Mathlib.Logic.Relation

/-!
# Depth-first search

A search through a graph with one list of visited nodes for all branches.  It stops at a node that
it looks for, and does something when it leaves a node.  The fuel bounds the depth.
-/

namespace BasisRust.Library

section

variable {κ σ : Type}

/-- Visits one after the other, up to the first that finds something. -/
def visitAll (visit : κ → List κ × σ → Option (Bool × List κ × σ)) :
    List κ → List κ × σ → Option (Bool × List κ × σ)
  | [], st => some (false, st)
  | x :: xs, st =>
    match visit x st with
    | some (false, st) => visitAll visit xs st
    | r => r

theorem visitAll_singleton (visit : κ → List κ × σ → Option (Bool × List κ × σ)) (x : κ)
    (st : List κ × σ) : visitAll visit [x] st = visit x st := by
  rw [visitAll]
  cases visit x st with
  | none => rfl
  | some r =>
    obtain ⟨found, st'⟩ := r
    cases found <;> rfl

variable [DecidableEq κ] (children : κ → List κ) (stop : κ → Bool) (leave : κ → σ → σ)

def visit : ℕ → κ → List κ × σ → Option (Bool × List κ × σ)
  | 0, _, _ => none
  | fuel + 1, x, (visited, s) =>
    if stop x then some (true, visited, s)
    else if x ∈ visited then some (false, visited, s)
    else
      match visitAll (visit fuel) (children x) (x :: visited, s) with
      | some (false, visited, s) => some (false, visited, leave x s)
      | r => r

/-- A way from one of the nodes. -/
def Reaches (starts : List κ) (y : κ) : Prop :=
  ∃ x ∈ starts, Relation.ReflTransGen (fun a b => b ∈ children a) x y

/-- A search from some nodes has left the nodes `order`, in that order, unless it has found
something. -/
structure Explored (starts : List κ) (st : List κ × σ) (r : Bool × List κ × σ) (order : List κ) :
    Prop where
  visited : ∀ x, x ∈ r.2.1 ↔ x ∈ order ∨ x ∈ st.1
  fresh : ∀ x ∈ order, x ∉ st.1
  nodup : order.Nodup
  reached : ∀ x ∈ order, Reaches children starts x
  found : r.1 = true → ∃ y, stop y = true ∧ Reaches children starts y
  starts_visited : r.1 = false → ∀ x ∈ starts, x ∈ r.2.1 ∧ stop x = false
  closed : r.1 = false → ∀ x ∈ order, stop x = false ∧ ∀ y ∈ children x, y ∈ r.2.1
  left : r.1 = false → r.2.2 = order.foldl (fun s x => leave x s) st.2

end

section

variable {κ σ : Type} {children : κ → List κ} {stop : κ → Bool} {leave : κ → σ → σ}
  {starts : List κ} {st st' : List κ × σ} {r : Bool × List κ × σ} {x y : κ} {order order' : List κ}
  {fuel : ℕ}

/-! ### Ways -/

theorem Reaches.of_mem (h : x ∈ starts) : Reaches children starts x := ⟨x, h, .refl⟩

theorem Reaches.mono {starts' : List κ} (hsub : starts ⊆ starts') (h : Reaches children starts y) :
    Reaches children starts' y := by
  obtain ⟨x, hx, hxy⟩ := h
  exact ⟨x, hsub hx, hxy⟩

/-- A way from a child is a way from the node. -/
theorem Reaches.of_children (h : Reaches children (children x) y) : Reaches children [x] y := by
  obtain ⟨z, hz, hzy⟩ := h
  exact ⟨x, List.mem_singleton_self x, hzy.head hz⟩

/-- **A closed set** with the first nodes has all that can be reached. -/
theorem Reaches.mem_of_closed {S : List κ} (hstarts : ∀ x ∈ starts, x ∈ S)
    (hclosed : ∀ x ∈ S, ∀ y ∈ children x, y ∈ S) (h : Reaches children starts y) : y ∈ S := by
  obtain ⟨x, hx, hxy⟩ := h
  induction hxy with
  | refl => exact hstarts x hx
  | tail _ hyz ih => exact hclosed _ ih _ hyz

/-! ### What a search has done -/

theorem Explored.nil : Explored children stop leave [] st (false, st) [] where
  visited _ := ⟨.inr, fun h => h.resolve_left List.not_mem_nil⟩
  fresh := nofun
  nodup := .nil
  reached := nofun
  found := nofun
  starts_visited := nofun
  closed := nofun
  left _ := rfl

/-- The search ends at the first node. -/
theorem Explored.cons_found (h : Explored children stop leave [x] st (true, st') order)
    (xs : List κ) : Explored children stop leave (x :: xs) st (true, st') order := by
  have hsub : [x] ⊆ x :: xs := List.cons_subset_cons x (List.nil_subset xs)
  refine ⟨h.visited, h.fresh, h.nodup, fun y hy => (h.reached y hy).mono hsub, fun _ => ?_,
    ?_, ?_, ?_⟩
  · obtain ⟨y, hstop, hy⟩ := h.found rfl
    exact ⟨y, hstop, hy.mono hsub⟩
  · exact nofun
  · exact nofun
  · exact nofun

/-- The search goes on after the first node. -/
theorem Explored.cons {xs : List κ} (h : Explored children stop leave [x] st (false, st') order)
    (hrest : Explored children stop leave xs st' r order') :
    Explored children stop leave (x :: xs) st r (order ++ order') := by
  have hsub : [x] ⊆ x :: xs := List.cons_subset_cons x (List.nil_subset xs)
  have hlater : ∀ y, y ∈ st'.1 → y ∈ r.2.1 := fun y hy => (hrest.visited y).mpr (.inr hy)
  refine ⟨fun y => ?_, fun y hy => ?_, ?_, fun y hy => ?_, fun hfound => ?_, fun hnone => ?_,
    fun hnone => ?_, fun hnone => ?_⟩
  · rw [hrest.visited y, h.visited y, List.mem_append]
    tauto
  · rcases List.mem_append.mp hy with hy | hy
    · exact h.fresh y hy
    · exact fun hst => hrest.fresh y hy ((h.visited y).mpr (.inr hst))
  · refine List.Nodup.append h.nodup hrest.nodup fun y hy hy' => ?_
    exact hrest.fresh y hy' ((h.visited y).mpr (.inl hy))
  · rcases List.mem_append.mp hy with hy | hy
    · exact (h.reached y hy).mono hsub
    · exact (hrest.reached y hy).mono (List.subset_cons_self x xs)
  · obtain ⟨y, hstop, hy⟩ := hrest.found hfound
    exact ⟨y, hstop, hy.mono (List.subset_cons_self x xs)⟩
  · intro y hy
    rcases List.mem_cons.mp hy with rfl | hy
    · obtain ⟨hvisited, hstop⟩ := h.starts_visited rfl y (List.mem_singleton_self y)
      exact ⟨hlater y hvisited, hstop⟩
    · exact hrest.starts_visited hnone y hy
  · intro y hy
    rcases List.mem_append.mp hy with hy | hy
    · obtain ⟨hstop, hchildren⟩ := h.closed rfl y hy
      exact ⟨hstop, fun z hz => hlater z (hchildren z hz)⟩
    · exact hrest.closed hnone y hy
  · rw [List.foldl_append, ← h.left rfl]
    exact hrest.left hnone

theorem Explored.stopped (hstop : stop x = true) :
    Explored children stop leave [x] st (true, st) [] where
  visited _ := ⟨.inr, fun h => h.resolve_left List.not_mem_nil⟩
  fresh := nofun
  nodup := .nil
  reached := nofun
  found _ := ⟨x, hstop, .of_mem (List.mem_singleton_self x)⟩
  starts_visited := nofun
  closed := nofun
  left := nofun

theorem Explored.old (hstop : stop x = false) (hx : x ∈ st.1) :
    Explored children stop leave [x] st (false, st) [] where
  visited _ := ⟨.inr, fun h => h.resolve_left List.not_mem_nil⟩
  fresh := nofun
  nodup := .nil
  reached := nofun
  found := nofun
  starts_visited _ y hy := by
    rw [List.mem_singleton.mp hy]
    exact ⟨hx, hstop⟩
  closed := nofun
  left _ := rfl

variable {s : σ} {visited : List κ}

/-- Below a new node something is found. -/
theorem Explored.node_found (hx : x ∉ visited)
    (h : Explored children stop leave (children x) (x :: visited, s) (true, st') order) :
    Explored children stop leave [x] (visited, s) (true, st') (x :: order) := by
  refine ⟨fun y => ?_, fun y hy => ?_, ?_, fun y hy => ?_, fun _ => ?_, ?_, ?_, ?_⟩
  · rw [h.visited y, List.mem_cons, List.mem_cons]
    tauto
  · rcases List.mem_cons.mp hy with rfl | hy
    · exact hx
    · exact fun hv => h.fresh y hy (List.mem_cons_of_mem x hv)
  · exact List.nodup_cons.mpr ⟨fun hmem => h.fresh x hmem (.head _), h.nodup⟩
  · rcases List.mem_cons.mp hy with rfl | hy
    · exact .of_mem (List.mem_singleton_self y)
    · exact (h.reached y hy).of_children
  · obtain ⟨y, hstop, hy⟩ := h.found rfl
    exact ⟨y, hstop, hy.of_children⟩
  · exact nofun
  · exact nofun
  · exact nofun

/-- **A new node** is left after its children. -/
theorem Explored.node {s' : σ} {visited' : List κ} (hstop : stop x = false) (hx : x ∉ visited)
    (h : Explored children stop leave (children x) (x :: visited, s) (false, visited', s') order) :
    Explored children stop leave [x] (visited, s) (false, visited', leave x s') (order ++ [x]) := by
  have hself : x ∈ visited' := (h.visited x).mpr (.inr (.head _))
  refine ⟨fun y => ?_, fun y hy => ?_, ?_, fun y hy => ?_, nofun,
    fun _ => ?_, fun _ => ?_, fun _ => ?_⟩
  · show y ∈ visited' ↔ _
    rw [h.visited y, List.mem_append, List.mem_singleton, List.mem_cons]
    tauto
  · rcases List.mem_append.mp hy with hy | hy
    · exact fun hv => h.fresh y hy (List.mem_cons_of_mem x hv)
    · rw [List.mem_singleton.mp hy]
      exact hx
  · refine List.Nodup.append h.nodup (List.nodup_singleton x) fun y hy hy' => ?_
    rw [List.mem_singleton.mp hy'] at hy
    exact h.fresh x hy (.head _)
  · rcases List.mem_append.mp hy with hy | hy
    · exact (h.reached y hy).of_children
    · exact .of_mem hy
  · intro y hy
    rw [List.mem_singleton.mp hy]
    exact ⟨hself, hstop⟩
  · intro y hy
    rcases List.mem_append.mp hy with hy | hy
    · exact h.closed rfl y hy
    · rw [List.mem_singleton.mp hy]
      exact ⟨hstop, fun z hz => (h.starts_visited rfl z hz).1⟩
  · rw [List.foldl_append, ← h.left rfl]
    rfl

theorem visitAll_explored {visitOne : κ → List κ × σ → Option (Bool × List κ × σ)}
    (hone : ∀ x st r, visitOne x st = some r → ∃ order, Explored children stop leave [x] st r order)
    (h : visitAll visitOne starts st = some r) :
    ∃ order, Explored children stop leave starts st r order := by
  induction starts generalizing st with
  | nil =>
    cases h
    exact ⟨[], .nil⟩
  | cons x xs ih =>
    rw [visitAll] at h
    cases hvisit : visitOne x st with
    | none =>
      rw [hvisit] at h
      cases h
    | some first =>
      obtain ⟨order, hfirst⟩ := hone x st first hvisit
      obtain ⟨found, st'⟩ := first
      rw [hvisit] at h
      cases found with
      | true =>
        cases h
        exact ⟨order, hfirst.cons_found xs⟩
      | false =>
        obtain ⟨order', hrest⟩ := ih h
        exact ⟨order ++ order', hfirst.cons hrest⟩

variable [DecidableEq κ] {nodes : List κ}

/-- **Every visit that ends** has explored what is below its node. -/
theorem visit_explored (h : visit children stop leave fuel x st = some r) :
    ∃ order, Explored children stop leave [x] st r order := by
  induction fuel generalizing x st r with
  | zero => cases h
  | succ fuel ih =>
    obtain ⟨visited, s⟩ := st
    rw [visit] at h
    cases hstop : stop x with
    | true =>
      rw [hstop, if_pos rfl] at h
      cases h
      exact ⟨[], .stopped hstop⟩
    | false =>
      rw [hstop, if_neg Bool.false_ne_true] at h
      by_cases hx : x ∈ visited
      · rw [if_pos hx] at h
        cases h
        exact ⟨[], .old hstop hx⟩
      · rw [if_neg hx] at h
        cases hall : visitAll (visit children stop leave fuel) (children x) (x :: visited, s) with
        | none =>
          rw [hall] at h
          cases h
        | some below =>
          obtain ⟨order, hbelow⟩ := visitAll_explored (fun _ _ _ hvisit => ih hvisit) hall
          obtain ⟨found, visited', s'⟩ := below
          rw [hall] at h
          cases found with
          | true =>
            cases h
            exact ⟨x :: order, hbelow.node_found hx⟩
          | false =>
            cases h
            exact ⟨order ++ [x], hbelow.node hstop hx⟩

/-! ### Fuel -/

/-- The nodes that are not visited. -/
def unvisited (nodes visited : List κ) : List κ := nodes.filter fun x => x ∉ visited

theorem length_unvisited_le {visited' : List κ} (h : ∀ x ∈ visited, x ∈ visited') :
    (unvisited nodes visited').length ≤ (unvisited nodes visited).length := by
  refine List.Sublist.length_le (List.monotone_filter_right nodes fun x hx => ?_)
  rw [decide_eq_true_eq] at hx ⊢
  exact fun hmem => hx (h x hmem)

theorem length_unvisited_cons_lt (hnode : x ∈ nodes) (hx : x ∉ visited) :
    (unvisited nodes (x :: visited)).length < (unvisited nodes visited).length := by
  have hfilter : unvisited nodes (x :: visited) =
      (unvisited nodes visited).filter fun y => y ≠ x := by
    rw [unvisited, unvisited, List.filter_filter]
    refine List.filter_congr fun y _ => ?_
    rw [Bool.eq_iff_iff]
    simp [not_or]
  rw [hfilter, List.length_filter_lt_length_iff_exists]
  exact ⟨x, List.mem_filter.mpr ⟨hnode, decide_eq_true hx⟩, by simp⟩

theorem visitAll_isSome_of (hone : ∀ x st, (unvisited nodes st.1).length < fuel →
      (visit children stop leave fuel x st).isSome = true)
    (hfuel : (unvisited nodes st.1).length < fuel) :
    (visitAll (visit children stop leave fuel) starts st).isSome = true := by
  induction starts generalizing st with
  | nil => rfl
  | cons x xs ih =>
    obtain ⟨r, hr⟩ := Option.isSome_iff_exists.mp (hone x st hfuel)
    obtain ⟨order, hexplored⟩ := visit_explored hr
    obtain ⟨found, st'⟩ := r
    rw [visitAll, hr]
    cases found with
    | true => rfl
    | false =>
      refine ih (Nat.lt_of_le_of_lt (length_unvisited_le fun y hy => ?_) hfuel)
      exact (hexplored.visited y).mpr (.inr hy)

theorem visit_isSome (hnodes : ∀ x, children x ≠ [] → x ∈ nodes)
    (hfuel : (unvisited nodes st.1).length < fuel) :
    (visit children stop leave fuel x st).isSome = true := by
  induction fuel generalizing x st with
  | zero => exact absurd hfuel (Nat.not_lt_zero _)
  | succ fuel ih =>
    obtain ⟨visited, s⟩ := st
    rw [visit]
    split_ifs with hstop hx
    · rfl
    · rfl
    · have hall :
        (visitAll (visit children stop leave fuel) (children x) (x :: visited, s)).isSome =
          true := by
        by_cases hchildren : children x = []
        · rw [hchildren]
          rfl
        · refine visitAll_isSome_of (fun y st' hst' => ih hst') ?_
          have hlt := length_unvisited_cons_lt (hnodes x hchildren) hx
          exact Nat.lt_of_lt_of_le hlt (Nat.le_of_lt_succ hfuel)
      obtain ⟨⟨found, visited', s'⟩, hr⟩ := Option.isSome_iff_exists.mp hall
      rw [hr]
      cases found <;> rfl

/-- **Enough fuel**: more than there are nodes with children. -/
theorem visitAll_isSome (hnodes : ∀ x, children x ≠ [] → x ∈ nodes) (hfuel : nodes.length < fuel) :
    (visitAll (visit children stop leave fuel) starts st).isSome = true :=
  visitAll_isSome_of (fun _ _ h => visit_isSome hnodes h)
    (Nat.lt_of_le_of_lt (List.length_filter_le _ _) hfuel)

/-! ### A search from scratch -/

/-- **A search** that has visited nothing before. -/
theorem search_spec {s' : σ} {found : Bool}
    (h : visitAll (visit children stop leave fuel) starts ([], s) = some (found, visited, s')) :
    (found = true ↔ ∃ y, stop y = true ∧ Reaches children starts y) ∧
      (found = false → ∃ order : List κ, order.Nodup ∧
        (∀ y, y ∈ order ↔ Reaches children starts y) ∧
          s' = order.foldl (fun s x => leave x s) s) := by
  obtain ⟨order, hexplored⟩ := visitAll_explored (fun _ _ _ hvisit => visit_explored hvisit) h
  have horder : ∀ y, y ∈ visited ↔ y ∈ order := fun y =>
    (hexplored.visited y).trans (or_iff_left List.not_mem_nil)
  have hall : found = false → ∀ y, Reaches children starts y → y ∈ order := by
    intro hnone y hy
    refine hy.mem_of_closed (fun x hx => ?_) (fun x hx z hz => ?_)
    · exact (horder x).mp (hexplored.starts_visited hnone x hx).1
    · exact (horder z).mp ((hexplored.closed hnone x hx).2 z hz)
  refine ⟨⟨fun hfound => hexplored.found hfound, fun hreach => ?_⟩, fun hnone => ?_⟩
  · obtain ⟨y, hstop, hy⟩ := hreach
    cases hfound : found with
    | true => rfl
    | false =>
      have hno := (hexplored.closed hfound y (hall hfound y hy)).1
      rw [hstop] at hno
      cases hno
  · exact ⟨order, hexplored.nodup, fun y => ⟨hexplored.reached y, hall hnone y⟩,
      hexplored.left hnone⟩

end

end BasisRust.Library
