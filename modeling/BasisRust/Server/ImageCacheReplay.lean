import BasisRust.Server.ImageCacheDelivery

/-!
# Replays are delivered once and cancelled with their image

`HandlesInv` follows the cells of the replay payloads: a cell is untouched while its image is
cached, and the image then has its weak handle; once the image is gone the cell is empty.  Handles
that nobody holds may be pruned at any time.
-/

namespace BasisRust.Server

open Library

/-- What the cell of a handle holds: nothing if nobody holds the cell any more. -/
def PayloadHeap.cell (heap : PayloadHeap) (handle : ℕ) : Option (Option Bytes) :=
  assocGet handle heap.cells

/-- The payloads of a replay: handle, contents and the lifetime of the image. -/
def Effect.made : Effect → List (ℕ × Bytes × ℕ)
  | .replay r => r.payloads.map fun x => (x.1, x.2, r.source.lifetime)
  | _ => []

namespace ImageCache

/-! ### Cells -/

theorem held_iff (heap : PayloadHeap) (handle : ℕ) :
    heap.held handle = true ↔ heap.cell handle ≠ none := by
  rw [PayloadHeap.held, PayloadHeap.cell, Option.isSome_iff_ne_none]

theorem cell_take (heap : PayloadHeap) (handle h : ℕ) :
    (heap.take handle).cell h =
      if h = handle then (heap.cell h).map fun _ => none else heap.cell h := by
  rw [PayloadHeap.take]
  by_cases hheld : heap.held handle = true
  · rw [if_pos hheld]
    by_cases hh : h = handle
    · subst hh
      obtain ⟨c, hc⟩ := Option.ne_none_iff_exists'.mp ((held_iff heap h).mp hheld)
      rw [if_pos rfl, hc]
      exact assocGet_set_self _ _ _
    · rw [if_neg hh]
      exact assocGet_set_of_ne hh _ _
  · rw [if_neg hheld]
    split_ifs with hh
    · subst hh
      rw [held_iff, not_not] at hheld
      rw [hheld]
      rfl
    · rfl

theorem cell_takeAll (heap : PayloadHeap) (handles : List ℕ) (h : ℕ) :
    (heap.takeAll handles).cell h =
      if h ∈ handles then (heap.cell h).map fun _ => none else heap.cell h := by
  induction handles generalizing heap with
  | nil => simp [PayloadHeap.takeAll]
  | cons handle handles ih =>
    have hstep : heap.takeAll (handle :: handles) = (heap.take handle).takeAll handles := rfl
    rw [hstep, ih, cell_take]
    by_cases hh : h = handle
    · subst hh
      rw [if_pos rfl, if_pos List.mem_cons_self]
      split_ifs
      · rw [Option.map_map]
        rfl
      · rfl
    · rw [if_neg hh]
      simp [hh]

theorem takeAll_next (heap : PayloadHeap) (handles : List ℕ) :
    (heap.takeAll handles).next = heap.next := by
  induction handles generalizing heap with
  | nil => rfl
  | cons handle handles ih =>
    have hstep : heap.takeAll (handle :: handles) = (heap.take handle).takeAll handles := rfl
    rw [hstep, ih, PayloadHeap.take]
    split_ifs <;> rfl

/-- `heap'` is `heap` with new cells. -/
structure Extends (heap heap' : PayloadHeap) (fresh : List (ℕ × Bytes)) : Prop where
  next : heap.next ≤ heap'.next
  old : ∀ h, h < heap.next → heap'.cell h = heap.cell h
  cells : ∀ x ∈ fresh, heap.next ≤ x.1 ∧ x.1 < heap'.next ∧ heap'.cell x.1 = some (some x.2)
  nodup : (fresh.map Prod.fst).Nodup
  bound : ∀ h, heap'.cell h ≠ none → heap.cell h = none → h < heap'.next

theorem Extends.trans {heap₁ heap₂ heap₃ : PayloadHeap} {fresh₁ fresh₂ : List (ℕ × Bytes)}
    (h₁ : Extends heap₁ heap₂ fresh₁) (h₂ : Extends heap₂ heap₃ fresh₂) :
    Extends heap₁ heap₃ (fresh₁ ++ fresh₂) where
  next := le_trans h₁.next h₂.next
  old h hh := (h₂.old h (lt_of_lt_of_le hh h₁.next)).trans (h₁.old h hh)
  cells x hx := by
    rcases List.mem_append.mp hx with hx | hx
    · obtain ⟨hlo, hhi, hcell⟩ := h₁.cells x hx
      exact ⟨hlo, lt_of_lt_of_le hhi h₂.next, (h₂.old _ hhi).trans hcell⟩
    · obtain ⟨hlo, hhi, hcell⟩ := h₂.cells x hx
      exact ⟨le_trans h₁.next hlo, hhi, hcell⟩
  nodup := by
    rw [List.map_append]
    refine List.nodup_append.mpr ⟨h₁.nodup, h₂.nodup, fun a ha b hb heq => ?_⟩
    obtain ⟨x, hx, rfl⟩ := List.mem_map.mp ha
    obtain ⟨y, hy, rfl⟩ := List.mem_map.mp hb
    have hx' := (h₁.cells x hx).2.1
    have hy' := (h₂.cells y hy).1
    omega
  bound h hnew hold := by
    by_cases hmid : heap₂.cell h = none
    · exact h₂.bound h hnew hmid
    · exact lt_of_lt_of_le (h₁.bound h hmid hold) h₂.next

theorem assocGet_fresh (n : ℕ) (payloads : List Bytes) (cells : List (ℕ × Option Bytes)) (h : ℕ) :
    assocGet h ((((List.range' n payloads.length).zip payloads).map fun x => (x.1, some x.2)) ++
      cells) =
      if n ≤ h ∧ h < n + payloads.length then some (payloads[h - n]?) else assocGet h cells := by
  induction payloads generalizing n with
  | nil =>
    rw [if_neg (by simp)]
    rfl
  | cons b payloads ih =>
    rw [List.length_cons, List.range'_succ, List.zip_cons_cons, List.map_cons, List.cons_append,
      assocGet, ih]
    by_cases hn : n = h
    · subst hn
      rw [if_pos rfl, if_pos (by omega)]
      simp
    · rw [if_neg hn]
      by_cases hrange : n + 1 ≤ h ∧ h < n + 1 + payloads.length
      · rw [if_pos hrange, if_pos (by omega), show h - n = h - (n + 1) + 1 by omega]
        simp
      · rw [if_neg hrange, if_neg (by omega)]

theorem allocate_extends (heap : PayloadHeap) (payloads : List Bytes) :
    Extends heap (heap.allocate payloads).1 (heap.allocate payloads).2 := by
  have hcell : ∀ h, (heap.allocate payloads).1.cell h =
      if heap.next ≤ h ∧ h < heap.next + payloads.length then some (payloads[h - heap.next]?)
      else heap.cell h := fun h => assocGet_fresh heap.next payloads heap.cells h
  refine ⟨Nat.le_add_right _ _, fun h hh => ?_, fun x hx => ?_, ?_, fun h hnew hold => ?_⟩
  · rw [hcell, if_neg (by omega)]
  · obtain ⟨i, hi, hget⟩ := List.mem_iff_getElem.mp hx
    have hlen : i < payloads.length := by
      simp only [PayloadHeap.allocate, List.length_zip, List.length_range'] at hi
      omega
    simp only [PayloadHeap.allocate, List.getElem_zip, List.getElem_range', Nat.one_mul] at hget
    subst hget
    refine ⟨by simp, by simp [PayloadHeap.allocate]; omega, ?_⟩
    rw [hcell, if_pos (by simp; omega)]
    simp [List.getElem?_eq_getElem hlen]
  · have hmap : (heap.allocate payloads).2.map Prod.fst =
        List.range' heap.next payloads.length := by
      rw [PayloadHeap.allocate]
      exact List.map_fst_zip (by simp)
    rw [hmap]
    exact List.nodup_range'
  · rw [hcell] at hnew
    split_ifs at hnew with hrange
    · exact hrange.2
    · exact absurd hold hnew

/-! ### Handles of the replays -/

def made (log : List Entry) : List (ℕ × Bytes × ℕ) := log.flatMap fun e => e.effect.made

theorem made_append (log es : List Entry) : made (log ++ es) = made log ++ made es :=
  List.flatMap_append

structure HandlesInv (img : ImageId → Option CachedImage) (heap : PayloadHeap) (lifetimes : ℕ)
    (log : List Entry) : Prop where
  cells_lt : ∀ h, heap.cell h ≠ none → h < heap.next
  made_lt : ∀ x ∈ made log, x.1 < heap.next
  lifetime_lt : ∀ x ∈ made log, x.2.2 < lifetimes
  nodup : ((made log).map Prod.fst).Nodup
  registered : ∀ id image, img id = some image → ∀ h ∈ image.replayPayloads,
    ∃ bytes, (h, bytes, image.lifetime) ∈ made log
  live : ∀ id image, img id = some image → ∀ h bytes, (h, bytes, image.lifetime) ∈ made log →
    heap.cell h = none ∨ (heap.cell h = some (some bytes) ∧ h ∈ image.replayPayloads)
  gone : ∀ h bytes lifetime, (h, bytes, lifetime) ∈ made log →
    (∀ id image, img id = some image → image.lifetime ≠ lifetime) →
      heap.cell h = none ∨ heap.cell h = some none

section HandlesInv

variable {img img' : ImageId → Option CachedImage} {heap heap' : PayloadHeap} {lifetimes : ℕ}
  {d : List PeerId} {log log' : List Entry}

/-- A handle belongs to one lifetime. -/
theorem HandlesInv.unique (h : HandlesInv img heap lifetimes log) {x y : ℕ × Bytes × ℕ}
    (hx : x ∈ made log) (hy : y ∈ made log) (heq : x.1 = y.1) : x = y :=
  List.inj_on_of_nodup_map h.nodup hx hy heq

/-- What the invariant reads of an image. -/
def core (image : CachedImage) : ℕ × List ℕ := (image.lifetime, image.replayPayloads)

section

variable (h : HandlesInv img heap lifetimes log)
variable {id : ImageId} {image : CachedImage}

include h

/-- Images change in what the invariant does not read; nothing is replayed. -/
theorem HandlesInv.view
    (hview : ∀ id, (img' id).map core = (img id).map core) (hmade : made log' = made log) :
    HandlesInv img' heap lifetimes log' := by
  have hback : ∀ {img₁ img₂ : ImageId → Option CachedImage},
      (∀ id, (img₁ id).map core = (img₂ id).map core) → ∀ id image, img₁ id = some image →
      ∃ image₀, img₂ id = some image₀ ∧ image₀.lifetime = image.lifetime ∧
        image₀.replayPayloads = image.replayPayloads := by
    intro img₁ img₂ hview id image himage
    have hid := hview id
    rw [himage, Option.map_some] at hid
    obtain ⟨image₀, himage₀, hcore⟩ := Option.map_eq_some_iff.mp hid.symm
    simp only [core, Prod.mk.injEq] at hcore
    exact ⟨image₀, himage₀, hcore⟩
  refine ⟨h.cells_lt, ?_, ?_, ?_, ?_, ?_, ?_⟩
  · rw [hmade]
    exact h.made_lt
  · rw [hmade]
    exact h.lifetime_lt
  · rw [hmade]
    exact h.nodup
  · intro id image himage
    obtain ⟨image₀, himage₀, hl, hp⟩ := hback hview id image himage
    rw [hmade, ← hl, ← hp]
    exact h.registered id image₀ himage₀
  · intro id image himage
    obtain ⟨image₀, himage₀, hl, hp⟩ := hback hview id image himage
    rw [hmade, ← hl, ← hp]
    exact h.live id image₀ himage₀
  · intro handle bytes lifetime hmem hnone
    rw [hmade] at hmem
    refine h.gone handle bytes lifetime hmem fun id image himage heq => ?_
    obtain ⟨image₀, himage₀, hl, -⟩ := hback (fun id => (hview id).symm) id image himage
    exact hnone id image₀ himage₀ (hl.trans heq)

/-- One image changes in what the invariant does not read. -/
theorem HandlesInv.touch {image' : CachedImage} (himage : img id = some image)
    (himg' : ∀ id', img' id' = if id' = id then some image' else img id')
    (hcore : core image' = core image) (hmade : made log' = made log) :
    HandlesInv img' heap lifetimes log' := by
  refine h.view (fun id' => ?_) hmade
  rw [himg']
  split_ifs with hid
  · rw [hid, himage, Option.map_some, Option.map_some, hcore]
  · rfl

/-- An image is removed, and its cells are emptied. -/
theorem HandlesInv.drop (himage : img id = some image)
    (hinj : ∀ id' image', img id' = some image' → image'.lifetime = image.lifetime → id' = id)
    (himg' : ∀ id', img' id' = if id' = id then none else img id') (hmade : made log' = made log) :
    HandlesInv img' (heap.takeAll image.replayPayloads) lifetimes log' := by
  have hold : ∀ id' image', img' id' = some image' → img id' = some image' ∧ id' ≠ id := by
    intro id' image' himage'
    rw [himg'] at himage'
    split_ifs at himage' with hid
    exact ⟨himage', hid⟩
  refine ⟨fun h' hne => ?_, ?_, ?_, ?_, ?_, ?_, ?_⟩
  · rw [takeAll_next]
    refine h.cells_lt h' fun hnone => hne ?_
    rw [cell_takeAll, hnone]
    split_ifs <;> rfl
  · rw [hmade, takeAll_next]
    exact h.made_lt
  · rw [hmade]
    exact h.lifetime_lt
  · rw [hmade]
    exact h.nodup
  · intro id' image' himage'
    rw [hmade]
    exact h.registered id' image' (hold id' image' himage').1
  · intro id' image' himage' handle bytes hmem
    rw [hmade] at hmem
    obtain ⟨himage₀, hid⟩ := hold id' image' himage'
    have hnot : handle ∉ image.replayPayloads := by
      intro hin
      obtain ⟨bytes', hmem'⟩ := h.registered id image himage handle hin
      have heq := h.unique hmem hmem' rfl
      simp only [Prod.mk.injEq] at heq
      exact hid (hinj id' image' himage₀ heq.2.2)
    rw [cell_takeAll, if_neg hnot]
    exact h.live id' image' himage₀ handle bytes hmem
  · intro handle bytes lifetime hmem hnone
    rw [hmade] at hmem
    rw [cell_takeAll]
    by_cases hlife : lifetime = image.lifetime
    · subst hlife
      rcases h.live id image himage handle bytes hmem with hcell | ⟨hcell, hin⟩
      · rw [hcell]
        split_ifs
        · exact .inl rfl
        · exact .inl rfl
      · rw [if_pos hin, hcell]
        exact .inr rfl
    · have hcell := h.gone handle bytes lifetime hmem fun id' image' himage' heq => by
        by_cases hid : id' = id
        · subst hid
          rw [himage] at himage'
          cases himage'
          exact hlife heq.symm
        · exact hnone id' image' (by rw [himg', if_neg hid]; exact himage') heq
      rcases hcell with hcell | hcell
      · rw [hcell]
        split_ifs
        · exact .inl rfl
        · exact .inl rfl
      · rw [hcell]
        split_ifs
        · exact .inr rfl
        · exact .inr rfl

theorem HandlesInv.store (hfree : img id = none)
    (himg' : ∀ id', img' id' = if id' = id then some image else img id')
    (hl : image.lifetime = lifetimes) (hp : image.replayPayloads = [])
    (hmade : made log' = made log) : HandlesInv img' heap (lifetimes + 1) log' := by
  have hcases : ∀ id' image', img' id' = some image' → image' = image ∨ img id' = some image' := by
    intro id' image' himage'
    rw [himg'] at himage'
    split_ifs at himage' with hid
    · cases himage'
      exact .inl rfl
    · exact .inr himage'
  refine ⟨h.cells_lt, ?_, ?_, ?_, ?_, ?_, ?_⟩
  · rw [hmade]
    exact h.made_lt
  · rw [hmade]
    exact fun x hx => Nat.lt_succ_of_lt (h.lifetime_lt x hx)
  · rw [hmade]
    exact h.nodup
  · intro id' image' himage' handle hin
    rw [hmade]
    rcases hcases id' image' himage' with rfl | hold
    · rw [hp] at hin
      cases hin
    · exact h.registered id' image' hold handle hin
  · intro id' image' himage' handle bytes hmem
    rw [hmade] at hmem
    rcases hcases id' image' himage' with rfl | hold
    · have := h.lifetime_lt _ hmem
      simp only at this
      omega
    · exact h.live id' image' hold handle bytes hmem
  · intro handle bytes lifetime hmem hnone
    rw [hmade] at hmem
    refine h.gone handle bytes lifetime hmem fun id' image' himage' heq => ?_
    refine hnone id' image' ?_ heq
    rw [himg', if_neg]
    · exact himage'
    · rintro rfl
      rw [hfree] at himage'
      cases himage'

/-- New payloads are made and registered; handles that nobody holds are pruned. -/
theorem HandlesInv.deliver {image' : CachedImage} {fresh : List (ℕ × Bytes)}
    (himage : img id = some image) (hlt : image.lifetime < lifetimes)
    (hinj : ∀ id' image₁, img id' = some image₁ → image₁.lifetime = image.lifetime → id' = id)
    (himg' : ∀ id', img' id' = if id' = id then some image' else img id')
    (hl : image'.lifetime = image.lifetime) (hp : ∀ handle, handle ∈ image'.replayPayloads ↔
      (handle ∈ image.replayPayloads ∨ handle ∈ fresh.map Prod.fst) ∧ heap'.held handle = true)
    (hext : Extends heap heap' fresh)
    (hmade : made log' = made log ++ fresh.map fun x => (x.1, x.2, image.lifetime)) :
    HandlesInv img' heap' lifetimes log' := by
  have hcases : ∀ id' image₁, img' id' = some image₁ →
      (id' = id ∧ image₁ = image') ∨ (id' ≠ id ∧ img id' = some image₁) := by
    intro id' image₁ himage₁
    rw [himg'] at himage₁
    split_ifs at himage₁ with hid
    · cases himage₁
      exact .inl ⟨hid, rfl⟩
    · exact .inr ⟨hid, himage₁⟩
  have hold : ∀ x ∈ made log, heap'.cell x.1 = heap.cell x.1 := fun x hx =>
    hext.old x.1 (h.made_lt x hx)
  refine ⟨fun handle hne => ?_, fun x hx => ?_, fun x hx => ?_, ?_, ?_, ?_, ?_⟩
  · by_cases hcell : heap.cell handle = none
    · exact hext.bound handle hne hcell
    · exact lt_of_lt_of_le (h.cells_lt handle hcell) hext.next
  · rw [hmade] at hx
    rcases List.mem_append.mp hx with hx | hx
    · exact lt_of_lt_of_le (h.made_lt x hx) hext.next
    · obtain ⟨y, hy, rfl⟩ := List.mem_map.mp hx
      exact (hext.cells y hy).2.1
  · rw [hmade] at hx
    rcases List.mem_append.mp hx with hx | hx
    · exact h.lifetime_lt x hx
    · obtain ⟨y, hy, rfl⟩ := List.mem_map.mp hx
      exact hlt
  · rw [hmade, List.map_append, List.map_map]
    refine List.nodup_append.mpr ⟨h.nodup, hext.nodup, fun a ha b hb heq => ?_⟩
    obtain ⟨x, hx, rfl⟩ := List.mem_map.mp ha
    obtain ⟨y, hy, rfl⟩ := List.mem_map.mp hb
    have hx' := h.made_lt x hx
    have hy' := (hext.cells y hy).1
    simp only [Function.comp_apply] at heq
    omega
  · intro id' image₁ himage₁ handle hin
    rw [hmade]
    rcases hcases id' image₁ himage₁ with ⟨-, rfl⟩ | ⟨-, himage₀⟩
    · rw [hl]
      rcases ((hp handle).mp hin).1 with hin | hin
      · obtain ⟨bytes, hmem⟩ := h.registered id image himage handle hin
        exact ⟨bytes, List.mem_append_left _ hmem⟩
      · obtain ⟨x, hx, rfl⟩ := List.mem_map.mp hin
        exact ⟨x.2, List.mem_append_right _ (List.mem_map.mpr ⟨x, hx, rfl⟩)⟩
    · obtain ⟨bytes, hmem⟩ := h.registered id' image₁ himage₀ handle hin
      exact ⟨bytes, List.mem_append_left _ hmem⟩
  · intro id' image₁ himage₁ handle bytes hmem
    rw [hmade] at hmem
    rcases hcases id' image₁ himage₁ with ⟨-, rfl⟩ | ⟨hid, himage₀⟩
    · rw [hl] at hmem
      rcases List.mem_append.mp hmem with hmem | hmem
      · rw [hold _ hmem]
        rcases h.live id image himage handle bytes hmem with hcell | ⟨hcell, hin⟩
        · exact .inl hcell
        · refine .inr ⟨hcell, (hp handle).mpr ⟨.inl hin, ?_⟩⟩
          rw [held_iff, hold _ hmem, hcell]
          simp
      · obtain ⟨x, hx, heq⟩ := List.mem_map.mp hmem
        simp only [Prod.mk.injEq] at heq
        obtain ⟨rfl, rfl, -⟩ := heq
        have hcell := (hext.cells x hx).2.2
        refine .inr ⟨hcell, (hp x.1).mpr ⟨.inr (List.mem_map_of_mem hx), ?_⟩⟩
        rw [held_iff, hcell]
        simp
    · rcases List.mem_append.mp hmem with hmem | hmem
      · rw [hold _ hmem]
        exact h.live id' image₁ himage₀ handle bytes hmem
      · obtain ⟨x, hx, heq⟩ := List.mem_map.mp hmem
        simp only [Prod.mk.injEq] at heq
        exact absurd (hinj id' image₁ himage₀ heq.2.2.symm) hid
  · intro handle bytes lifetime hmem hnone
    rw [hmade] at hmem
    rcases List.mem_append.mp hmem with hmem | hmem
    · rw [hold _ hmem]
      refine h.gone handle bytes lifetime hmem fun id' image₀ himage₀ heq => ?_
      by_cases hid : id' = id
      · subst hid
        rw [himage] at himage₀
        cases himage₀
        exact hnone id' image' (by rw [himg', if_pos rfl]) (hl.trans heq)
      · exact hnone id' image₀ (by rw [himg', if_neg hid]; exact himage₀) heq
    · obtain ⟨x, hx, heq⟩ := List.mem_map.mp hmem
      simp only [Prod.mk.injEq] at heq
      exact absurd (hl.trans heq.2.2) (hnone id image' (by rw [himg', if_pos rfl]))

/-- All images are removed at once. -/
theorem HandlesInv.clear {handles : List ℕ}
    (hall : ∀ id image, img id = some image → ∀ handle ∈ image.replayPayloads, handle ∈ handles) :
    HandlesInv (fun _ => none) (heap.takeAll handles) lifetimes log := by
  refine ⟨fun handle hne => ?_, fun x hx => ?_, h.lifetime_lt, h.nodup, fun id image hi => ?_,
    fun id image hi => ?_, fun handle bytes lifetime hmem _ => ?_⟩
  · rw [takeAll_next]
    refine h.cells_lt handle fun hnone => hne ?_
    rw [cell_takeAll, hnone]
    split_ifs <;> rfl
  · rw [takeAll_next]
    exact h.made_lt x hx
  · cases hi
  · cases hi
  · rw [cell_takeAll]
    by_cases hlive : ∃ id image, img id = some image ∧ image.lifetime = lifetime
    · obtain ⟨id, image, himage, rfl⟩ := hlive
      rcases h.live id image himage handle bytes hmem with hcell | ⟨hcell, hin⟩
      · rw [hcell]
        split_ifs
        · exact .inl rfl
        · exact .inl rfl
      · rw [if_pos (hall id image himage handle hin), hcell]
        exact .inr rfl
    · have hgone := h.gone handle bytes lifetime hmem fun id image himage heq =>
        hlive ⟨id, image, himage, heq⟩
      rcases hgone with hcell | hcell
      · rw [hcell]
        split_ifs
        · exact .inl rfl
        · exact .inl rfl
      · rw [hcell]
        split_ifs
        · exact .inr rfl
        · exact .inr rfl

/-- The last holder of a payload drops it. -/
theorem HandlesInv.release (handle : ℕ) : HandlesInv img (heap.release handle) lifetimes log := by
  have hcell : ∀ h', (heap.release handle).cell h' = none ∨
      (heap.release handle).cell h' = heap.cell h' := by
    intro h'
    by_cases hh : h' = handle
    · subst hh
      exact .inl (assocGet_erase_self _ _)
    · exact .inr (assocGet_erase_of_ne hh _)
  refine ⟨fun h' hne => ?_, h.made_lt, h.lifetime_lt, h.nodup, h.registered,
    fun id image himage h' bytes hmem => ?_, fun h' bytes lifetime hmem hnone => ?_⟩
  · rcases hcell h' with hnone | hsame
    · exact absurd hnone hne
    · exact h.cells_lt h' (hsame ▸ hne)
  · rcases hcell h' with hnone | hsame
    · exact .inl hnone
    · rw [hsame]
      exact h.live id image himage h' bytes hmem
  · rcases hcell h' with hnone' | hsame
    · exact .inl hnone'
    · rw [hsame]
      exact h.gone h' bytes lifetime hmem hnone

end

end HandlesInv

/-! ### Moves -/

section Moves

variable {cap : ℕ} {permits : PeerId → Bool} {s s' : ImageCache} {effects : List Effect}
  {d : List PeerId} {log : List Entry}

theorem made_effects (log : List Entry) (effects : List Effect) :
    made (log ++ effects.map (entryOf d permits)) = made log ++ effects.flatMap Effect.made := by
  rw [made_append, made, made, List.flatMap_map]
  rfl

theorem made_quiet {effects : List Effect} (h : ∀ e ∈ effects, Effect.Quiet e) :
    made (log ++ effects.map (entryOf d permits)) = made log := by
  have hnil : effects.flatMap Effect.made = [] := by
    refine List.flatMap_eq_nil_iff.mpr fun e he => ?_
    cases e with
    | replay r => exact absurd rfl ((h _ he).2 r)
    | stored | cacheState | offer => rfl
  rw [made_effects, hnil, List.append_nil]

theorem mem_register {image : CachedImage} {heap : PayloadHeap} {fresh : List (ℕ × Bytes)}
    {handle : ℕ} : handle ∈ (register image heap fresh).replayPayloads ↔
      (handle ∈ image.replayPayloads ∨ handle ∈ fresh.map Prod.fst) ∧ heap.held handle = true := by
  rw [register, List.mem_filter, List.mem_append]

theorem HandlesInv.move (hdelivery : DeliveryInv s.image s.lifetimes d log)
    (h : HandlesInv s.image s.heap s.lifetimes log) (hmove : Move cap permits s effects s') :
    HandlesInv s'.image s'.heap s'.lifetimes (log ++ effects.map (entryOf d permits)) := by
  have hinj : ∀ {id image}, s.image id = some image → ∀ id' image', s.image id' = some image' →
      image'.lifetime = image.lifetime → id' = id := fun himage id' image' himage' heq =>
    hdelivery.lifetime_inj id' _ image' _ himage' himage heq
  cases hmove with
  | @drop id image himage =>
    have hquiet : made (log ++ (s.dropImage id).2.map (entryOf d permits)) = made log :=
      made_quiet (dropImage_quiet s id)
    have hdrop := h.drop himage (hinj himage) (image_dropImage s id) hquiet
    have hheap : (s.dropImage id).1.heap = s.heap.takeAll image.replayPayloads ∧
        (s.dropImage id).1.lifetimes = s.lifetimes := by
      rw [dropImage, himage]
      exact ⟨rfl, rfl⟩
    rw [hheap.1, hheap.2]
    exact hdrop
  | @store id owner payload count poseOffset original hfree hcost =>
    refine h.store hfree (fun id' => image_setImage s id id' _) rfl rfl ?_
    rw [made_effects]
    exact List.append_nil _
  | @grow id image image' cost himage hgrows hcost =>
    rw [List.map_nil, List.append_nil]
    cases hgrows <;> exact h.touch himage (fun id' => image_setImage s id id' _) rfl rfl
  | @pose id image payload himage hlength htransform =>
    rw [List.map_nil, List.append_nil]
    exact h.touch himage (fun id' => image_setImage s id id' _) rfl rfl
  | @offer id image peer _ himage heffects =>
    refine h.touch himage (fun id' => image_setImage s id id' _) rfl (made_quiet fun e he => ?_)
    obtain ⟨payload, rfl⟩ := heffects e he
    exact ⟨fun _ _ h => (by cases h), fun _ h => (by cases h)⟩
  | notice owner id held =>
    refine h.view (fun _ => rfl) ?_
    rw [made_effects]
    exact List.append_nil _
  | @still id image peer himage hstill howner hnew =>
    refine h.deliver himage (hdelivery.lifetime_lt id image himage) (hinj himage)
      (fun id' => image_setImage s id id' _) rfl (fun handle => mem_register)
      (allocate_extends s.heap image.stillPayloads) ?_
    rw [made_effects]
    exact congrArg (made log ++ ·) (List.append_nil _)
  | @both id image peer heap₁ heap₂ still animation himage hstill howner hnew hanimation
      hanimationNew hpermit h₁ h₂ =>
    have hext₁ := allocate_extends s.heap image.stillPayloads
    have hext₂ := allocate_extends heap₁ image.animationPayloads
    rw [h₁] at hext₁
    rw [h₂] at hext₂
    refine h.deliver himage (hdelivery.lifetime_lt id image himage) (hinj himage)
      (fun id' => image_setImage s id id' _) rfl (fun handle => mem_register)
      (hext₁.trans hext₂) ?_
    rw [made_effects, List.map_append]
    exact congrArg (fun l => made log ++ (_ ++ l)) (List.append_nil _)
  | @animation id image peer himage hstill hanimation howner hdelivered hnew hpermit =>
    refine h.deliver himage (hdelivery.lifetime_lt id image himage) (hinj himage)
      (fun id' => image_setImage s id id' _) rfl (fun handle => mem_register)
      (allocate_extends s.heap image.animationPayloads) ?_
    rw [made_effects]
    exact congrArg (made log ++ ·) (List.append_nil _)

end Moves

/-! ### Runs -/

/-- Accounts, marks and cells agree with the history. -/
structure ReplayInv (s : ImageCache) (d : List PeerId) (log : List Entry) : Prop where
  accounts : Accounts s
  delivery : DeliveryInv s.image s.lifetimes d log
  handles : HandlesInv s.image s.heap s.lifetimes log

theorem empty_replayInv : ReplayInv empty [] [] where
  accounts := empty_accounts
  delivery := by
    refine ⟨?_, ?_, ?_, ?_, ?_, ?_, ?_, ?_, ?_, ?_, ?_, ?_, ?_⟩ <;>
      simp [empty, image, keys, Original]
  handles := by
    refine ⟨?_, ?_, ?_, ?_, ?_, ?_, ?_⟩ <;> simp [empty, image, made, PayloadHeap.cell]

theorem ReplayInv.moves {cap : ℕ} {permits : PeerId → Bool} {s s' : ImageCache}
    {effects : List Effect} {d : List PeerId} {log : List Entry} (h : ReplayInv s d log)
    (hmoves : Moves cap permits s effects s') :
    ReplayInv s' d (log ++ effects.map (entryOf d permits)) :=
  hmoves.invariant (fun s log => ReplayInv s d log) (entryOf d permits)
    (fun _ _ _ _ hmove hinv => ⟨hinv.accounts.move hmove, hinv.delivery.move hinv.accounts hmove,
      hinv.handles.move hinv.delivery hmove⟩) h

theorem image_forget (s : ImageCache) (peer : PeerId) (id : ImageId) :
    image { s with images := s.images.map fun x => (x.1, forgetPeer peer x.2) } id =
      (s.image id).map (forgetPeer peer) :=
  assocGet_map s.images (forgetPeer peer) id

theorem ReplayInv.perform {s s' : ImageCache} {d : List PeerId} {log : List Entry}
    {effects : List Effect} (h : ReplayInv s d log) {a : Action}
    (hs' : s.perform a = some (s', effects)) :
    ReplayInv s' (a.departs ++ d) (log ++ effects.map (entryOf d a.permits)) := by
  have haccounts := (h.accounts.perform hs').1
  cases hc : a.config? with
  | some c =>
    obtain ⟨s₁, effects₁, heq, hmoves⟩ := perform_moves s hc
    rw [hs'] at heq
    cases heq
    have hdeparts : a.departs = [] := by
      cases a with
      | removePlayer => cases hc
      | _ => rfl
    rw [hdeparts]
    exact h.moves hmoves
  | none =>
    cases a with
    | removePlayer peer =>
      obtain ⟨s₁, hmoves, heq⟩ := removePlayer_moves s peer 0 (Action.removePlayer peer).permits
      rw [ImageCache.perform, Option.some.injEq] at hs'
      have hs₁ : s' = { s₁ with images := s₁.images.map fun x => (x.1, forgetPeer peer x.2) } := by
        rw [← heq, hs']
      have heffects : (s.removePlayer peer).2 = effects := by rw [hs']
      rw [heffects] at hmoves
      have hinv := h.moves hmoves
      refine ⟨haccounts, ?_, ?_⟩
      · rw [hs₁]
        exact hinv.delivery.forget peer (image_forget s₁ peer)
      · rw [hs₁]
        refine hinv.handles.view (fun id => ?_) rfl
        rw [image_forget, Option.map_map]
        rfl
    | reset =>
      cases hs'
      rw [List.map_nil, List.append_nil]
      refine ⟨haccounts, h.delivery.view fun id image' hi => (by cases hi), ?_⟩
      refine h.handles.clear fun id image himage handle hin => ?_
      exact List.mem_flatMap.mpr ⟨(id, image), mem_keys_of_assocGet himage, hin⟩
    | release handle =>
      cases hs'
      rw [List.map_nil, List.append_nil]
      exact ⟨haccounts, h.delivery, h.handles.release handle⟩
    | observe | offerPeer | request | resumeAnimations => cases hc

theorem replayInv_of_reachable {ok : Run → Action → Prop} {st : Run}
    (h : Reachable system ok st) : ReplayInv st.cache st.departures st.log := by
  refine Reachable.invariant (fun st => ReplayInv st.cache st.departures st.log) ?_ ?_ h
  · rintro st rfl
    exact empty_replayInv
  · intro st a st' hinv _ hstep
    obtain ⟨⟨s', effects⟩, hs', rfl⟩ := Option.map_eq_some_iff.mp hstep
    exact hinv.perform hs'

/-- **The replay discipline.** In every run no two replays of the still, and no two of the
animation, have the same image lifetime, peer and stay.  A replay never goes to the owner or, in the
stay in which it was first sent the image, to an original recipient; it has all chunks, in order
after the spawn and the transform; and an animation is permitted and comes after the still.  While
an image is cached the payloads made for it are untouched, and as soon as it is removed they are
empty. -/
theorem image_replay_discipline {st : Run} (h : Reachable system (fun _ _ => True) st) :
    (keys false st.log).Nodup ∧ (keys true st.log).Nodup ∧
      (∀ e ∈ st.log, ∀ r, e.effect = .replay r →
      r.recipient ≠ r.source.owner ∧ ¬ Original st.log (e.key r) ∧ Sound e.permitted r) ∧
    (∀ n e r, st.log[n]? = some e → e.effect = .replay r → r.animation = true →
      e.key r ∈ keys false (st.log.take n)) ∧
    ∀ e ∈ st.log, ∀ r, e.effect = .replay r → ∀ x ∈ r.payloads,
      ((∃ id image, st.cache.image id = some image ∧ image.lifetime = r.source.lifetime) →
        st.cache.heap.cell x.1 = none ∨ st.cache.heap.cell x.1 = some (some x.2)) ∧
      ((∀ id image, st.cache.image id = some image → image.lifetime ≠ r.source.lifetime) →
        st.cache.heap.cell x.1 = none ∨ st.cache.heap.cell x.1 = some none) := by
  have hinv := replayInv_of_reachable h
  refine ⟨hinv.delivery.nodup false, hinv.delivery.nodup true, fun e he r hr => ?_,
    fun n e r hn hr hkind => ?_, fun e he r hr x hx => ?_⟩
  · have hsound := hinv.delivery.sound e he r hr
    exact ⟨hsound.recipient, hinv.delivery.notOriginal e he r hr, hsound⟩
  · refine hinv.delivery.ordered n e _ hn ?_
    rw [Entry.replayKey, hr]
    exact if_pos hkind
  · have hmade : (x.1, x.2, r.source.lifetime) ∈ made st.log := by
      refine List.mem_flatMap.mpr ⟨e, he, ?_⟩
      rw [hr]
      exact List.mem_map.mpr ⟨x, hx, rfl⟩
    refine ⟨?_, fun hnone => hinv.handles.gone x.1 x.2 _ hmade hnone⟩
    rintro ⟨id, image, himage, hlife⟩
    rw [← hlife] at hmade
    rcases hinv.handles.live id image himage x.1 x.2 hmade with hcell | ⟨hcell, -⟩
    · exact .inl hcell
    · exact .inr hcell

/-- The upload of an image, a request of a peer who came later, and the despawn. -/
def cancelledReplay : List Action :=
  smallUpload ++
    [.request 9 (opServerCacheRequest :: List.replicate 16 0) false smallConfig,
      .observe 7 (opDespawn :: List.replicate 16 0) [] [7, 8, 9] [] false smallConfig fun _ _ => 0]

theorem image_replay_discipline_cancelled :
    ∃ st, Reachable system (fun _ _ => True) st ∧ keys false st.log = [(0, 9, 0)] ∧
      st.cache.heap.cell 0 = some none ∧ (keys false st.log).Nodup := by
  have hrun : (runActions system ⟨empty, [], []⟩ cancelledReplay).any
      (fun st => decide (keys false st.log = [(0, 9, 0)] ∧ st.cache.heap.cell 0 = some none)) =
        true := by
    decide +kernel
  obtain ⟨st, hst, hend⟩ := exists_reachable_of_free_run (.init rfl) hrun
  have hend' := of_decide_eq_true hend
  exact ⟨st, hst, hend'.1, hend'.2, (image_replay_discipline hst).1⟩

end ImageCache

end BasisRust.Server
