import BasisRust.Server.ImageCacheAccounting
import Mathlib.Algebra.Order.BigOperators.Group.List
import Mathlib.Algebra.Order.Group.Nat
import Mathlib.Data.List.Dedup
import Mathlib.Data.List.Nodup
import Mathlib.Data.List.Perm.Subperm

/-!
# What a refused reservation evicts

`try_reserve` turns a cost down before it evicts anything when the cost alone exceeds the owner's
share.  It does not ask whether the image that is being extended, which is never a victim, leaves
room beside it: then the loops evict other images first and refuse afterwards.

An owner's images go in the order of their numbers, so a refusal is decided by sums over the newest
images of each owner.  `Wasteful` states the condition in these sums.
-/

namespace BasisRust.Server

open Library

namespace ImageCache

/-! ### Positions -/

section Position

variable {α : Type} [DecidableEq α] {items items' : List α} {x y : α}

/-- The first position of an item. -/
def position (items : List α) (x : α) : ℕ := items.idxOf x

theorem position_inj (hx : x ∈ items) (h : position items x = position items y) : x = y :=
  (List.idxOf_inj hx).mp h

theorem position_le_of_sublist (hsublist : items.Sublist items') (hnodup : items'.Nodup)
    (hx : x ∈ items) (hy : y ∈ items) (h : position items x ≤ position items y) :
    position items' x ≤ position items' y := by
  have hordered : items'.Pairwise fun a b => position items' a < position items' b := by
    rw [List.pairwise_iff_getElem]
    intro i j hi hj hij
    rw [position, position, hnodup.idxOf_getElem, hnodup.idxOf_getElem]
    exact hij
  rcases Nat.lt_or_eq_of_le h with hlt | heq
  · have hpair := (List.pairwise_iff_getElem.mp (hordered.sublist hsublist)) _ _
      (List.idxOf_lt_length_of_mem hx) (List.idxOf_lt_length_of_mem hy) hlt
    rw [List.getElem_idxOf, List.getElem_idxOf] at hpair
    exact hpair.le
  · rw [position_inj hx heq]

end Position

/-! ### Sums of bytes -/

/-- The bytes of some images. -/
def bytesOf (items : List (ImageId × CachedImage)) : ℕ := (items.map fun x => x.2.bytes).sum

variable {items : List (ImageId × CachedImage)}

theorem bytesOf_le_of_subset {items' : List (ImageId × CachedImage)} (hnodup : items.Nodup)
    (h : items ⊆ items') : bytesOf items ≤ bytesOf items' := by
  obtain ⟨middle, hperm, hsublist⟩ := hnodup.subperm h
  calc bytesOf items = bytesOf middle := (hperm.map _).sum_eq.symm
    _ ≤ bytesOf items' := (hsublist.map _).sum_le_sum fun _ _ => Nat.zero_le _

theorem bytes_le_bytesOf {x : ImageId × CachedImage} (h : x ∈ items) : x.2.bytes ≤ bytesOf items :=
  List.single_le_sum (fun _ _ => Nat.zero_le _) _ (List.mem_map_of_mem h)

/-- The place of an image in the order of eviction: by its number, and in a tie as listed. -/
def evictionRank (s : ImageCache) (x : ImageId × CachedImage) : ℕ ×ₗ ℕ :=
  toLex (x.2.sequence.toNat, position s.images x)

/-- The bytes of an image and of the later images of its owner. -/
def bytesFrom (s : ImageCache) (x : ImageId × CachedImage) : ℕ :=
  bytesOf (s.images.filter fun y =>
    y.2.owner = x.2.owner ∧ s.evictionRank x ≤ s.evictionRank y)

/-- The images that no eviction reaches before the extended image `kept` stands alone: they are of
other owners, who hold no more than `kept` from them on. -/
def Stays (s : ImageCache) (kept : CachedImage) (owner : PeerId) (cost share : ℕ)
    (x : ImageId × CachedImage) : Prop :=
  x.2.owner ≠ kept.owner ∧ s.bytesFrom x ≤ kept.bytes ∧
    (x.2.owner = owner → s.bytesFrom x + cost ≤ share)

/-- The images that an eviction may reach; one that ties with `kept` may go or stay. -/
def MayGo (s : ImageCache) (kept : CachedImage) (owner : PeerId) (cost share : ℕ)
    (x : ImageId × CachedImage) : Prop :=
  x.2.owner = kept.owner ∨ kept.bytes ≤ s.bytesFrom x ∨
    (x.2.owner = owner ∧ share < s.bytesFrom x + cost)

instance (s : ImageCache) (kept : CachedImage) (owner : PeerId) (cost share : ℕ) :
    DecidablePred (s.Stays kept owner cost share) := fun x => by
  unfold Stays
  infer_instance

/-- The reservation passes the first tests and is refused after it has evicted a victim: either the
extended image and the new bytes exceed the share of their owner, who has another image, or some
image may go and even without it the images that stay leave no room below the cap. -/
def Wasteful (s : ImageCache) (owner : PeerId) (cost : ℕ) (exclude : ImageId)
    (config : CacheConfig) : Prop :=
  let share := s.ownerShare owner config.cap config
  0 < cost ∧ cost ≤ share ∧
    ∃ kept, s.image exclude = some kept ∧ ∃ victim ∈ s.images, victim.1 ≠ exclude ∧
      ((kept.owner = owner ∧ share < kept.bytes + cost ∧ victim.2.owner = owner) ∨
        ((kept.owner = owner → kept.bytes + cost ≤ share) ∧
          s.MayGo kept owner cost share victim ∧
          config.cap < kept.bytes +
            bytesOf (s.images.filter fun x => x ≠ victim ∧ s.Stays kept owner cost share x) +
            cost))

/-! ### What evictions leave -/

theorem evictionRank_inj {s : ImageCache} {x y : ImageId × CachedImage} (hx : x ∈ s.images)
    (h : s.evictionRank x = s.evictionRank y) : x = y :=
  position_inj hx (congrArg (fun rank => (ofLex rank).2) h)

/-- The cache `t` is what is left of `s`: the newest images of every owner, and the excluded image
if there is one. -/
structure Trimmed (s : ImageCache) (exclude : ImageId) (t : ImageCache) : Prop where
  accounts : Accounts t
  sublist : t.images.Sublist s.images
  newest : ∀ x ∈ t.images, ∀ y ∈ s.images, y.2.owner = x.2.owner → x.1 ≠ exclude →
    y.1 ≠ exclude → s.evictionRank x ≤ s.evictionRank y → y ∈ t.images
  keeps : ∀ x ∈ s.images, x.1 = exclude → x ∈ t.images

theorem Accounts.nodup_images {s : ImageCache} (hs : Accounts s) : s.images.Nodup :=
  List.Nodup.of_map Prod.fst hs.nodup

theorem Accounts.total_eq {s : ImageCache} (hs : Accounts s) : s.totalBytes = bytesOf s.images :=
  hs.total

theorem ownerBytes_eq (s : ImageCache) (owner : PeerId) :
    s.ownerBytes owner = bytesOf (s.images.filter fun x => x.2.owner = owner) := rfl

theorem images_dropImage {s : ImageCache} {id : ImageId} {image : CachedImage}
    (h : s.image id = some image) : (s.dropImage id).1.images = assocErase id s.images := by
  rw [dropImage, h]

variable {s t : ImageCache} {exclude id : ImageId} {owner : PeerId} {x y : ImageId × CachedImage}
  {victim : ImageCache → Option ImageId} {fuel : ℕ} {s' : ImageCache} {fits : Bool}
  {exceeds : ImageCache → Bool}

theorem Trimmed.refl (hs : Accounts s) : Trimmed s exclude s where
  accounts := hs
  sublist := List.Sublist.refl _
  newest _ _ _ hy _ _ _ _ := hy
  keeps _ hx _ := hx

/-- The image is the first of its owner to be evicted. -/
structure Oldest (s : ImageCache) (exclude : ImageId) (t : ImageCache) (x : ImageId × CachedImage) :
    Prop where
  mem : x ∈ t.images
  ne : x.1 ≠ exclude
  first : ∀ y ∈ t.images, y.2.owner = x.2.owner → y.1 ≠ exclude →
    s.evictionRank x ≤ s.evictionRank y

theorem Trimmed.oldestOwned (h : Trimmed s exclude t) (hs : Accounts s)
    (hid : t.oldestOwned owner exclude = some id) :
    ∃ x, Oldest s exclude t x ∧ x.1 = id ∧ x.2.owner = owner := by
  rw [ImageCache.oldestOwned, Option.map_eq_some_iff] at hid
  obtain ⟨x, hx, rfl⟩ := hid
  have hsublist := (List.filter_sublist (p := fun x =>
    decide (x.2.owner = owner ∧ x.1 ≠ exclude)) (l := t.images)).trans h.sublist
  have hmem := List.mem_filter.mp (List.argmin_mem hx)
  obtain ⟨howner, hne⟩ := of_decide_eq_true hmem.2
  refine ⟨x, ⟨hmem.1, hne, fun y hy hyowner hyne => ?_⟩, rfl, howner⟩
  have hymem : y ∈ t.images.filter fun x => x.2.owner = owner ∧ x.1 ≠ exclude :=
    List.mem_filter.mpr ⟨hy, decide_eq_true ⟨hyowner.trans howner, hyne⟩⟩
  have hle := List.le_of_mem_argmin hymem hx
  rw [evictionRank, evictionRank, Prod.Lex.toLex_le_toLex]
  rcases Nat.lt_or_eq_of_le hle with hlt | heq
  · exact .inl hlt
  · exact .inr ⟨heq, position_le_of_sublist hsublist hs.nodup_images (List.argmin_mem hx) hymem
      (List.index_of_argmin hx hymem heq.ge)⟩

theorem oldestOwned_none (h : t.oldestOwned owner exclude = none) (hx : x ∈ t.images)
    (howner : x.2.owner = owner) : x.1 = exclude := by
  rw [oldestOwned, Option.map_eq_none_iff, List.argmin_eq_none, List.filter_eq_nil_iff] at h
  by_contra hne
  exact h x hx (decide_eq_true ⟨howner, hne⟩)

theorem mem_dropImage (ht : Accounts t) (hx : x ∈ t.images) :
    y ∈ (t.dropImage x.1).1.images ↔ y ∈ t.images ∧ y ≠ x := by
  rw [images_dropImage (ht.nodup.get_of_mem hx), assocErase, List.mem_filter, decide_eq_true_eq]
  refine and_congr_right fun hy => not_congr ⟨fun hkey => ?_, congrArg Prod.fst⟩
  have himage := ht.nodup.get_of_mem hy
  rw [hkey, ht.nodup.get_of_mem hx, Option.some.injEq] at himage
  exact Prod.ext hkey himage.symm

section

variable (h : Trimmed s exclude t)
include h

/-- **Evicting the oldest image of an owner** leaves the newest ones. -/
theorem Trimmed.drop (hx : Oldest s exclude t x) : Trimmed s exclude (t.dropImage x.1).1 := by
  have himage : t.image x.1 = some x.2 := h.accounts.nodup.get_of_mem hx.mem
  have hmem : ∀ y, y ∈ (t.dropImage x.1).1.images ↔ y ∈ t.images ∧ y ≠ x :=
    fun y => mem_dropImage h.accounts hx.mem
  refine ⟨h.accounts.drop himage, ?_, ?_, ?_⟩
  · rw [images_dropImage himage]
    exact List.filter_sublist.trans h.sublist
  · intro y hy z hz howner hyne hzne hle
    obtain ⟨hyt, hyx⟩ := (hmem y).mp hy
    refine (hmem z).mpr ⟨h.newest y hyt z hz howner hyne hzne hle, fun hzx => hyx ?_⟩
    -- were `z` the evicted image, `y` would be as old as it
    rw [hzx] at hle howner
    have hback := hx.first y hyt howner.symm hyne
    exact evictionRank_inj (h.sublist.subset hyt) (le_antisymm hle hback)
  · intro y hy hyexclude
    refine (hmem y).mpr ⟨h.keeps y hy hyexclude, fun hyx => hx.ne ?_⟩
    rw [← hyx, hyexclude]

/-- Fewer images than before: one has gone. -/
theorem Trimmed.exists_evicted (hs : Accounts s) (hlt : t.images.length < s.images.length) :
    ∃ x ∈ s.images, x ∉ t.images ∧ x.1 ≠ exclude := by
  by_contra hnone
  have hsubset : s.images ⊆ t.images := by
    intro x hx
    by_contra hgone
    exact hnone ⟨x, hx, hgone, fun hexclude => hgone (h.keeps x hx hexclude)⟩
  have hle := (hs.nodup_images.subperm hsubset).length_le
  omega

/-- What an owner holds from an image on is still there with the image. -/
theorem Trimmed.bytesFrom_le (hs : Accounts s) (hx : x ∈ t.images)
    (hother : ∀ y ∈ s.images, y.2.owner = x.2.owner → y.1 ≠ exclude) :
    s.bytesFrom x ≤ t.ownerBytes x.2.owner := by
  rw [bytesFrom, ownerBytes_eq]
  refine bytesOf_le_of_subset (hs.nodup_images.filter _) fun y hy => ?_
  obtain ⟨hys, hrest⟩ := List.mem_filter.mp hy
  obtain ⟨howner, hle⟩ := of_decide_eq_true hrest
  exact List.mem_filter.mpr ⟨h.newest x hx y hys howner (hother x (h.sublist.subset hx) rfl)
    (hother y hys howner) hle, decide_eq_true howner⟩

/-- The oldest image of an owner comes before all that the owner holds. -/
theorem Trimmed.le_bytesFrom (hx : Oldest s exclude t x)
    (hother : ∀ y ∈ s.images, y.2.owner = x.2.owner → y.1 ≠ exclude) :
    t.ownerBytes x.2.owner ≤ s.bytesFrom x := by
  rw [bytesFrom, ownerBytes_eq]
  refine bytesOf_le_of_subset (h.accounts.nodup_images.filter _) fun y hy => ?_
  obtain ⟨hyt, howner⟩ := List.mem_filter.mp hy
  have howner := of_decide_eq_true howner
  have hys := h.sublist.subset hyt
  exact List.mem_filter.mpr
    ⟨hys, decide_eq_true ⟨howner, hx.first y hyt howner (hother y hys howner)⟩⟩

end

/-! ### The turns of the two loops -/

variable {kept : CachedImage} {cost share : ℕ}

theorem eq_kept (hs : Accounts s) (hkept : s.image exclude = some kept) (hx : x ∈ s.images)
    (hexclude : x.1 = exclude) : x = (exclude, kept) := by
  have himage := hs.nodup.get_of_mem hx
  rw [hexclude, show assocGet exclude s.images = some kept from hkept, Option.some.injEq] at himage
  exact Prod.ext hexclude himage.symm

theorem ne_exclude_of_owner (hs : Accounts s) (hkept : s.image exclude = some kept)
    (hx : x ∈ s.images) (howner : x.2.owner ≠ kept.owner) : x.1 ≠ exclude := by
  intro hexclude
  rw [eq_kept hs hkept hx hexclude] at howner
  exact howner rfl

/-- **A turn of the first loop**: its victim may go, and is none of those that stay. -/
theorem Trimmed.ownVictim (h : Trimmed s exclude t) (hs : Accounts s)
    (hkept : s.image exclude = some kept) (hover : share < t.ownerBytes owner + cost)
    (hx : Oldest s exclude t x) (howner : x.2.owner = owner) :
    s.MayGo kept owner cost share x ∧ ¬ s.Stays kept owner cost share x := by
  by_cases hsame : x.2.owner = kept.owner
  · exact ⟨.inl hsame, fun hstays => hstays.1 hsame⟩
  · have hle := h.le_bytesFrom hx fun y hy hyowner =>
      ne_exclude_of_owner hs hkept hy (by rwa [hyowner])
    rw [howner] at hle
    refine ⟨.inr (.inr ⟨howner, by omega⟩), fun hstays => ?_⟩
    have hroom := hstays.2.2 howner
    omega

theorem mem_owners (hx : x ∈ t.images) : x.2.owner ∈ t.owners :=
  List.mem_dedup.mpr (List.mem_map.mpr ⟨x, hx, rfl⟩)

variable {ties : PeerId → ℕ}

theorem argmax_owners_le {heaviest : PeerId}
    (h : t.owners.argmax (fun owner => toLex (t.ownerBytes owner, ties owner)) = some heaviest)
    (hx : x ∈ t.images) :
    toLex (t.ownerBytes x.2.owner, ties x.2.owner) ≤
      toLex (t.ownerBytes heaviest, ties heaviest) :=
  List.le_of_mem_argmax (f := fun owner => toLex (t.ownerBytes owner, ties owner))
    (mem_owners hx) h

theorem oldestOfHeaviestOwner_some (h : t.oldestOfHeaviestOwner exclude ties = some id) :
    ∃ heaviest, t.oldestOwned heaviest exclude = some id ∧ ∀ x ∈ t.images,
      toLex (t.ownerBytes x.2.owner, ties x.2.owner) ≤
        toLex (t.ownerBytes heaviest, ties heaviest) := by
  rw [oldestOfHeaviestOwner] at h
  split at h
  · cases h
  · rename_i heaviest hheaviest
    exact ⟨heaviest, h, fun x hx => argmax_owners_le hheaviest hx⟩

theorem oldestOfHeaviestOwner_none (h : t.oldestOfHeaviestOwner exclude ties = none)
    (hne : t.images ≠ []) :
    ∃ y ∈ t.images, t.oldestOwned y.2.owner exclude = none ∧ ∀ x ∈ t.images,
      t.ownerBytes x.2.owner ≤ t.ownerBytes y.2.owner := by
  rw [oldestOfHeaviestOwner] at h
  split at h
  · rename_i hheaviest
    obtain ⟨x, hx⟩ := List.exists_mem_of_ne_nil _ hne
    rw [List.argmax_eq_none] at hheaviest
    have howner := mem_owners hx
    rw [hheaviest] at howner
    cases howner
  · rename_i heaviest hheaviest
    have hmem : heaviest ∈ t.owners := List.argmax_mem hheaviest
    obtain ⟨y, hy, hyowner⟩ := List.mem_map.mp (List.mem_dedup.mp hmem)
    have hyowner : y.2.owner = heaviest := hyowner
    rw [← hyowner] at h hheaviest
    refine ⟨y, hy, h, fun x hx => ?_⟩
    have hle := argmax_owners_le hheaviest hx
    rw [Prod.Lex.toLex_le_toLex] at hle
    rcases hle with hlt | ⟨heq, -⟩
    · exact hlt.le
    · exact heq.le

/-- **A turn of the second loop**: its victim may go, and is one of those that stay only if the map
lists its owner before the owner of the extended image. -/
theorem Trimmed.heaviestVictim (h : Trimmed s exclude t) (hs : Accounts s)
    (hkept : s.image exclude = some kept) (owner : PeerId) (cost share : ℕ)
    (hid : t.oldestOfHeaviestOwner exclude ties = some id) :
    ∃ x, Oldest s exclude t x ∧ x.1 = id ∧ s.MayGo kept owner cost share x ∧
      (s.Stays kept owner cost share x → ties kept.owner ≤ ties x.2.owner) := by
  obtain ⟨heaviest, hoid, hmax⟩ := oldestOfHeaviestOwner_some hid
  obtain ⟨x, hx, rfl, howner⟩ := h.oldestOwned hs hoid
  refine ⟨x, hx, rfl, ?_⟩
  by_cases hsame : x.2.owner = kept.owner
  · exact ⟨.inl hsame, fun hstays => absurd hsame hstays.1⟩
  · have hle := h.le_bytesFrom hx fun y hy hyowner =>
      ne_exclude_of_owner hs hkept hy (by rwa [hyowner])
    have hmem : (exclude, kept) ∈ t.images := h.keeps _ (mem_keys_of_assocGet hkept) rfl
    have hkeptBytes : kept.bytes ≤ t.ownerBytes kept.owner :=
      bytes_le_bytesOf (List.mem_filter.mpr ⟨hmem, decide_eq_true rfl⟩)
    have hover := hmax _ hmem
    rw [← howner, Prod.Lex.toLex_le_toLex] at hover
    dsimp only at hover
    refine ⟨.inr (.inl ?_), fun hstays => ?_⟩
    · omega
    · have hstaysBytes := hstays.2.1
      omega

/-- An owner of one image at most holds no more than that image. -/
theorem ownerBytes_le_of_only (ht : Accounts t) (hkept : t.image exclude = some kept)
    (honly : ∀ x ∈ t.images, x.2.owner = owner → x.1 = exclude) :
    t.ownerBytes owner ≤ kept.bytes := by
  have hone : bytesOf [(exclude, kept)] = kept.bytes := Nat.add_zero _
  rw [ownerBytes_eq, ← hone]
  refine bytesOf_le_of_subset (ht.nodup_images.filter _) fun x hx => ?_
  obtain ⟨hxt, hxowner⟩ := List.mem_filter.mp hx
  exact List.mem_singleton.mpr
    (eq_kept ht hkept hxt (honly x hxt (of_decide_eq_true hxowner)))

theorem ownerBytes_alone (ht : Accounts t)
    (honly : ∀ x ∈ t.images, x.2.owner = owner → x.1 = exclude) (hpos : 0 < t.ownerBytes owner) :
    ∃ kept, t.image exclude = some kept ∧ kept.owner = owner ∧ t.ownerBytes owner ≤ kept.bytes := by
  have hheld : t.images.filter (fun x => x.2.owner = owner) ≠ [] := by
    intro hempty
    rw [ownerBytes_eq, hempty] at hpos
    cases hpos
  obtain ⟨y, hmem⟩ := List.exists_mem_of_ne_nil _ hheld
  obtain ⟨hy, hyowner⟩ := List.mem_filter.mp hmem
  have howner := of_decide_eq_true hyowner
  have himage : t.image exclude = some y.2 := by
    rw [← honly y hy howner]
    exact ht.nodup.get_of_mem hy
  exact ⟨y.2, himage, howner, ownerBytes_le_of_only ht himage honly⟩

/-- **The first loop finds no victim**: the extended image alone takes too much of the share. -/
theorem ownRefusal (ht : Accounts t) (hover : share < t.ownerBytes owner + cost)
    (hcost : cost ≤ share) (hnone : t.oldestOwned owner exclude = none) :
    ∃ kept, t.image exclude = some kept ∧ kept.owner = owner ∧ share < kept.bytes + cost := by
  obtain ⟨kept, hkept, howner, hle⟩ := ownerBytes_alone ht
    (fun x hx howner => oldestOwned_none hnone hx howner) (by omega)
  exact ⟨kept, hkept, howner, by omega⟩

/-- **The second loop finds no victim**: the extended image is the only one of its owner, and no
owner holds more. -/
theorem heaviestRefusal (ht : Accounts t) {cap : ℕ} (hover : cap < t.totalBytes + cost)
    (hcost : cost ≤ cap) (hnone : t.oldestOfHeaviestOwner exclude ties = none) :
    ∃ kept, t.image exclude = some kept ∧ ∀ x ∈ t.images, x.1 ≠ exclude →
      x.2.owner ≠ kept.owner ∧ t.ownerBytes x.2.owner ≤ kept.bytes := by
  have hne : t.images ≠ [] := by
    intro hempty
    rw [ht.total_eq, hempty] at hover
    exact absurd hover (by simp [bytesOf]; omega)
  obtain ⟨y, hy, hold, hmax⟩ := oldestOfHeaviestOwner_none hnone hne
  have hexclude : y.1 = exclude := oldestOwned_none hold hy rfl
  have himage : t.image exclude = some y.2 := by
    rw [← hexclude]
    exact ht.nodup.get_of_mem hy
  refine ⟨y.2, himage, fun x hx hxne => ⟨fun howner => hxne (oldestOwned_none hold hx howner), ?_⟩⟩
  exact (hmax x hx).trans
    (ownerBytes_le_of_only ht himage fun z hz howner => oldestOwned_none hold hz howner)

/-! ### The two loops -/

variable {effects : List Effect}

/-- What holds before an eviction loop and after each of its turns holds at its end, where either
the bytes fit or there is no victim. -/
theorem evictWhile_rule (Inv : ImageCache → Prop)
    (hdrop : ∀ t id, Inv t → exceeds t = true → victim t = some id → Inv (t.dropImage id).1)
    {s : ImageCache} (hs : Inv s)
    (h : evictWhile exceeds victim fuel s = some (fits, s', effects)) :
    Inv s' ∧ (fits = true → exceeds s' = false) ∧
      (fits = false → exceeds s' = true ∧ victim s' = none) := by
  induction fuel generalizing s effects with
  | zero => cases h
  | succ fuel ih =>
    rw [evictWhile] at h
    cases hexceeds : exceeds s with
    | false =>
      rw [hexceeds] at h
      cases h
      exact ⟨hs, fun _ => hexceeds, fun hfits => (by cases hfits)⟩
    | true =>
      cases hvictim : victim s with
      | none =>
        rw [hexceeds, hvictim] at h
        cases h
        exact ⟨hs, fun hfits => (by cases hfits), fun _ => ⟨hexceeds, hvictim⟩⟩
      | some id =>
        rw [hexceeds, hvictim] at h
        obtain ⟨⟨fits', s'', effects'⟩, hrest, heq⟩ := Option.map_eq_some_iff.mp h
        cases heq
        exact ih (hdrop s id hs hexceeds hvictim) hrest

/-- A loop that evicts nothing changes nothing. -/
theorem evictWhile_unchanged
    (hvictim : ∀ s id, victim s = some id → ∃ image, s.image id = some image) {s : ImageCache}
    (h : evictWhile exceeds victim fuel s = some (fits, s', effects)) :
    (s' = s ∧ effects = []) ∨ s'.images.length < s.images.length := by
  induction fuel generalizing s effects with
  | zero => cases h
  | succ fuel ih =>
    rw [evictWhile] at h
    cases hexceeds : exceeds s with
    | false =>
      rw [hexceeds] at h
      cases h
      exact .inl ⟨rfl, rfl⟩
    | true =>
      cases hid : victim s with
      | none =>
        rw [hexceeds, hid] at h
        cases h
        exact .inl ⟨rfl, rfl⟩
      | some id =>
        rw [hexceeds, hid] at h
        obtain ⟨⟨fits', s'', effects'⟩, hrest, heq⟩ := Option.map_eq_some_iff.mp h
        cases heq
        obtain ⟨image, himage⟩ := hvictim s id hid
        have hlt := dropImage_length himage
        refine .inr ?_
        rcases ih hrest with ⟨rfl, -⟩ | hshorter
        · exact hlt
        · exact hshorter.trans hlt

/-- The first loop of a reservation. -/
def evictOwn (s : ImageCache) (owner : PeerId) (cost : ℕ) (exclude : ImageId) (share : ℕ) :
    Option (Bool × ImageCache × List Effect) :=
  evictWhile (fun t => share < satAdd (t.ownerBytes owner) cost)
    (fun t => t.oldestOwned owner exclude) (s.images.length + 1) s

/-- The second loop of a reservation. -/
def evictHeaviest (cost : ℕ) (exclude : ImageId) (cap : ℕ) (ties : ℕ → PeerId → ℕ) (fuel : ℕ)
    (s : ImageCache) : Option (Bool × ImageCache × List Effect) :=
  evictWhile (fun t => cap < satAdd t.totalBytes cost)
    (fun t => t.oldestOfHeaviestOwner exclude (ties t.images.length)) fuel s

/-- The outcome of an eviction loop that started in `s`. -/
structure Outcome (s : ImageCache) (fits : Bool) (s' : ImageCache) (effects : List Effect)
    (Inv Room : ImageCache → Prop) (victim : ImageCache → Option ImageId) : Prop where
  inv : Inv s'
  room : fits = true → Room s'
  refused : fits = false → ¬ Room s' ∧ victim s' = none
  unchanged : (s' = s ∧ effects = []) ∨ s'.images.length < s.images.length

theorem evictWhile_outcome (Inv : ImageCache → Prop) {bound : ℕ} {size : ImageCache → ℕ}
    (h : evictWhile (fun t => bound < satAdd (size t) cost) victim fuel s =
      some (fits, s', effects))
    (hbound : bound < u64Max)
    (hvictim : ∀ t id, victim t = some id → ∃ image, t.image id = some image)
    (hdrop : ∀ t id, Inv t → bound < size t + cost → victim t = some id → Inv (t.dropImage id).1)
    (hs : Inv s) : Outcome s fits s' effects Inv (fun t => size t + cost ≤ bound) victim := by
  have hover : ∀ n, bound < satAdd n cost ↔ ¬ n + cost ≤ bound := fun n => by
    rw [← satAdd_le_iff hbound, not_le]
  obtain ⟨hinv, hroom, hrefused⟩ := evictWhile_rule Inv
    (fun t id ht hexceeds => hdrop t id ht
      (not_le.mp ((hover _).mp (of_decide_eq_true hexceeds)))) hs h
  refine ⟨hinv, fun hfits => ?_, fun hfits => ?_, evictWhile_unchanged hvictim h⟩
  · have hle := of_decide_eq_false (hroom hfits)
    rw [hover, not_not] at hle
    exact hle
  · obtain ⟨hexceeds, hnone⟩ := hrefused hfits
    exact ⟨(hover _).mp (of_decide_eq_true hexceeds), hnone⟩

theorem ownerShare_le (s : ImageCache) (owner : PeerId) (cap : ℕ) (config : CacheConfig) :
    s.ownerShare owner cap config ≤ cap :=
  max_le (Nat.div_le_self _ _) (min_le_right _ _)

theorem tryReserve_eq (s : ImageCache) (owner : PeerId) (cost : ℕ) (exclude : ImageId)
    (config : CacheConfig) (ties : ℕ → PeerId → ℕ) :
    s.tryReserve owner cost exclude config ties =
      if cost = 0 ∨ s.ownerShare owner config.cap config < cost then some (false, s, [])
      else
        (s.evictOwn owner cost exclude (s.ownerShare owner config.cap config)).bind fun r =>
          if r.1 then
            (r.2.1.evictHeaviest cost exclude config.cap ties (r.2.1.images.length + 1)).map
              fun q => (q.1, q.2.1, r.2.2 ++ q.2.2)
          else some (false, r.2.1, r.2.2) := by
  have hle := s.ownerShare_le owner config.cap config
  rw [tryReserve]
  by_cases hfirst : config.cap = 0 ∨ cost = 0 ∨ config.cap < cost
  · rw [if_pos hfirst, if_pos (by omega)]
  · rw [if_neg hfirst]
    dsimp only
    by_cases hshare : s.ownerShare owner config.cap config < cost
    · rw [if_pos hshare, if_pos (.inr hshare)]
    · rw [if_neg hshare, if_neg (by omega)]
      show Option.bind (s.evictOwn owner cost exclude (s.ownerShare owner config.cap config)) _ = _
      refine congrArg _ (funext fun r => ?_)
      obtain ⟨fits, s₁, effects₁⟩ := r
      cases fits with
      | false => rfl
      | true =>
        show Option.bind
          (s₁.evictHeaviest cost exclude config.cap ties (s₁.images.length + 1)) _ = _
        cases s₁.evictHeaviest cost exclude config.cap ties (s₁.images.length + 1) <;> rfl

/-! ### A refusal after evictions is wasteful -/

theorem Trimmed.image_eq (h : Trimmed s exclude t) (hs : Accounts s)
    (hkept : t.image exclude = some kept) : s.image exclude = some kept :=
  hs.nodup.get_of_mem (h.sublist.subset (mem_keys_of_assocGet hkept))

/-- What is left when the second loop finds no victim stays. -/
theorem Trimmed.stays (h : Trimmed s exclude t) (hs : Accounts s)
    (hkept : s.image exclude = some kept) (hshare : t.ownerBytes owner + cost ≤ share)
    (hx : x ∈ t.images) (howner : x.2.owner ≠ kept.owner)
    (hle : t.ownerBytes x.2.owner ≤ kept.bytes) : s.Stays kept owner cost share x := by
  have hbytes := h.bytesFrom_le hs hx fun y hy hyowner =>
    ne_exclude_of_owner hs hkept hy (by rwa [hyowner])
  refine ⟨howner, hbytes.trans hle, fun hxowner => ?_⟩
  rw [hxowner] at hbytes
  omega

theorem ownerBytes_mono (hs' : Accounts s') (h : s'.images ⊆ s.images) (owner : PeerId) :
    s'.ownerBytes owner ≤ s.ownerBytes owner := by
  rw [ownerBytes_eq, ownerBytes_eq]
  refine bytesOf_le_of_subset (hs'.nodup_images.filter _) fun x hx => ?_
  obtain ⟨hmem, howner⟩ := List.mem_filter.mp hx
  exact List.mem_filter.mpr ⟨h hmem, howner⟩

theorem dropImage_subset (s : ImageCache) (id : ImageId) :
    (s.dropImage id).1.images ⊆ s.images := by
  rw [dropImage]
  cases s.image id with
  | none => exact List.Subset.refl _
  | some image => exact List.filter_sublist.subset

/-- What has gone from the cache has some property. -/
def Gone (s t : ImageCache) (P : ImageId × CachedImage → Prop) : Prop :=
  ∀ x ∈ s.images, x ∉ t.images → P x

theorem Gone.drop {P : ImageId × CachedImage → Prop} (h : Gone s t P) (ht : Accounts t)
    (hx : x ∈ t.images) (hP : P x) : Gone s (t.dropImage x.1).1 P := by
  intro y hy hgone
  rw [mem_dropImage ht hx, not_and_not_right] at hgone
  by_cases hyt : y ∈ t.images
  · rw [hgone hyt]
    exact hP
  · exact h y hy hyt

theorem Gone.refl (s : ImageCache) (P : ImageId × CachedImage → Prop) : Gone s s P :=
  fun _ hx hgone => absurd hx hgone

section Refusal

variable {config : CacheConfig} {fits : Bool} {s' s₁ : ImageCache}
  {effects effects₁ : List Effect} {ties : ℕ → PeerId → ℕ}

theorem share_lt (s : ImageCache) (owner : PeerId) (config : CacheConfig) :
    s.ownerShare owner config.cap config < u64Max :=
  lt_of_le_of_lt (s.ownerShare_le owner config.cap config) (cap_lt config)

/-- The first loop refuses after an eviction. -/
theorem wasteful_of_evictOwn (hs : Accounts s) (hpos : 0 < cost)
    (hcost : cost ≤ s.ownerShare owner config.cap config)
    (h : s.evictOwn owner cost exclude (s.ownerShare owner config.cap config) =
      some (false, s', effects)) :
    (s' = s ∧ effects = []) ∨ s.Wasteful owner cost exclude config := by
  have hout :=
    evictWhile_outcome (fun t => Trimmed s exclude t ∧ Gone s t fun x => x.2.owner = owner) h
    (share_lt s owner config) (fun _ _ hid => (oldestOwned_spec hid).1)
    (fun t id ht _ hid => by
      obtain ⟨x, hx, rfl, howner⟩ := ht.1.oldestOwned hs hid
      exact ⟨ht.1.drop hx, ht.2.drop ht.1.accounts hx.mem howner⟩)
    ⟨.refl hs, .refl s _⟩
  obtain ⟨hover, hnone⟩ := hout.refused rfl
  obtain ⟨kept, hkept, howner, hkeptShare⟩ :=
    ownRefusal hout.inv.1.accounts (not_le.mp hover) hcost hnone
  refine hout.unchanged.imp id fun hshorter => ?_
  obtain ⟨victim, hvictim, hgone, hne⟩ := hout.inv.1.exists_evicted hs hshorter
  exact ⟨hpos, hcost, kept, hout.inv.1.image_eq hs hkept, victim, hvictim, hne,
    .inl ⟨howner, hkeptShare, hout.inv.2 victim hvictim hgone⟩⟩

/-- The bytes left when the second loop refuses are among those that stay. -/
theorem Trimmed.total_le (h : Trimmed s exclude t) (hs : Accounts s)
    (hkept : s.image exclude = some kept) (hshare : t.ownerBytes owner + cost ≤ share)
    (hleft : ∀ x ∈ t.images, x.1 ≠ exclude →
      x.2.owner ≠ kept.owner ∧ t.ownerBytes x.2.owner ≤ kept.bytes)
    {victim : ImageId × CachedImage} (hgone : victim ∉ t.images) :
    t.totalBytes ≤ kept.bytes +
      bytesOf (s.images.filter fun x => x ≠ victim ∧ s.Stays kept owner cost share x) := by
  rw [h.accounts.total_eq]
  have hcons : kept.bytes +
      bytesOf (s.images.filter fun x => x ≠ victim ∧ s.Stays kept owner cost share x) =
      bytesOf ((exclude, kept) ::
        s.images.filter fun x => x ≠ victim ∧ s.Stays kept owner cost share x) :=
    (List.sum_cons).symm
  rw [hcons]
  refine bytesOf_le_of_subset h.accounts.nodup_images fun x hx => ?_
  by_cases hexclude : x.1 = exclude
  · rw [eq_kept hs hkept (h.sublist.subset hx) hexclude]
    exact .head _
  · obtain ⟨howner, hle⟩ := hleft x hx hexclude
    refine .tail _ (List.mem_filter.mpr ⟨h.sublist.subset hx, decide_eq_true
      ⟨fun heq => hgone (heq ▸ hx), h.stays hs hkept hshare hx howner hle⟩⟩)

/-- The second loop refuses, and one of the two has evicted an image. -/
theorem wasteful_of_evictHeaviest (hs : Accounts s) (hpos : 0 < cost)
    (hcost : cost ≤ s.ownerShare owner config.cap config)
    (h₁ : s.evictOwn owner cost exclude (s.ownerShare owner config.cap config) =
      some (true, s₁, effects₁))
    (h : s₁.evictHeaviest cost exclude config.cap ties (s₁.images.length + 1) =
      some (false, s', effects)) :
    (s' = s ∧ effects₁ ++ effects = []) ∨ s.Wasteful owner cost exclude config := by
  have hcap := hcost.trans (s.ownerShare_le owner config.cap config)
  have hshareLt := share_lt s owner config
  generalize hshare : s.ownerShare owner config.cap config = share at h₁ hcost hshareLt
  -- the extended image is known from the state in which the second loop ends
  have htrim₁ :=
    (evictWhile_outcome (Trimmed s exclude) h₁ hshareLt (fun _ _ hid => (oldestOwned_spec hid).1)
    (fun t id ht _ hid => by
      obtain ⟨x, hx, rfl, -⟩ := ht.oldestOwned hs hid
      exact ht.drop hx) (.refl hs)).inv
  have htrim := evictWhile_outcome (Trimmed s exclude) h (cap_lt config)
    (fun _ _ hid => (oldestOfHeaviestOwner_spec hid).1)
    (fun t id ht _ hid => by
      obtain ⟨heaviest, hoid, -⟩ := oldestOfHeaviestOwner_some hid
      obtain ⟨x, hx, rfl, -⟩ := ht.oldestOwned hs hoid
      exact ht.drop hx) htrim₁
  obtain ⟨hover, hnone⟩ := htrim.refused rfl
  obtain ⟨kept, hkept', hleft⟩ := heaviestRefusal htrim.inv.accounts (not_le.mp hover) hcap hnone
  have hkept := htrim.inv.image_eq hs hkept'
  -- with it, whatever has gone may go
  have hout₁ :=
    evictWhile_outcome (fun t => Trimmed s exclude t ∧ Gone s t (s.MayGo kept owner cost share))
    h₁ hshareLt (fun _ _ hid => (oldestOwned_spec hid).1)
    (fun t id ht hexceeds hid => by
      obtain ⟨x, hx, rfl, howner⟩ := ht.1.oldestOwned hs hid
      exact ⟨ht.1.drop hx,
        ht.2.drop ht.1.accounts hx.mem (ht.1.ownVictim hs hkept hexceeds hx howner).1⟩)
    ⟨.refl hs, .refl s _⟩
  have hout := evictWhile_outcome
    (fun t => Trimmed s exclude t ∧ Gone s t (s.MayGo kept owner cost share) ∧
      t.ownerBytes owner + cost ≤ share) h (cap_lt config) (fun _ _ hid =>
        (oldestOfHeaviestOwner_spec hid).1)
    (fun t id ht _ hid => by
      obtain ⟨x, hx, rfl, hmay, -⟩ := ht.1.heaviestVictim hs hkept owner cost share hid
      have hdrop := ht.1.drop hx
      have hmono := ownerBytes_mono hdrop.accounts (dropImage_subset t x.1) owner
      exact ⟨hdrop, ht.2.1.drop ht.1.accounts hx.mem hmay, by have := ht.2.2; omega⟩)
    ⟨hout₁.inv.1, hout₁.inv.2, hout₁.room rfl⟩
  obtain ⟨htrimmed, hgone, hroom⟩ := hout.inv
  have hwasteful : s'.images.length < s.images.length → s.Wasteful owner cost exclude config := by
    intro hshorter
    obtain ⟨victim, hvictim, hvictimGone, hne⟩ := htrimmed.exists_evicted hs hshorter
    have htotal := htrimmed.total_le hs hkept hroom hleft hvictimGone
    rw [Wasteful, hshare]
    refine ⟨hpos, hcost, kept, hkept, victim, hvictim, hne, .inr ⟨fun howner => ?_,
      hgone victim hvictim hvictimGone, by omega⟩⟩
    have hkeptBytes : kept.bytes ≤ s'.ownerBytes kept.owner :=
      bytes_le_bytesOf (List.mem_filter.mpr ⟨mem_keys_of_assocGet hkept', decide_eq_true rfl⟩)
    rw [howner] at hkeptBytes
    omega
  rcases hout₁.unchanged with ⟨rfl, rfl⟩ | hshorter₁
  · exact hout.unchanged.imp id hwasteful
  · refine .inr (hwasteful ?_)
    rcases hout.unchanged with ⟨rfl, -⟩ | hshorter
    · exact hshorter₁
    · exact hshorter.trans hshorter₁

/-- **A reservation that is refused and has evicted an image is wasteful.** -/
theorem wasteful_of_refused (hs : Accounts s)
    (h : s.tryReserve owner cost exclude config ties = some (false, s', effects)) :
    (s' = s ∧ effects = []) ∨ s.Wasteful owner cost exclude config := by
  rw [tryReserve_eq] at h
  by_cases hfirst : cost = 0 ∨ s.ownerShare owner config.cap config < cost
  · rw [if_pos hfirst] at h
    cases h
    exact .inl ⟨rfl, rfl⟩
  · rw [if_neg hfirst] at h
    have hpos : 0 < cost := by omega
    have hcost : cost ≤ s.ownerShare owner config.cap config := by omega
    obtain ⟨⟨fits₁, s₁, effects₁⟩, h₁, hrest⟩ := Option.bind_eq_some_iff.mp h
    cases fits₁ with
    | false =>
      cases hrest
      exact wasteful_of_evictOwn hs hpos hcost h₁
    | true =>
      obtain ⟨⟨fits₂, s₂, effects₂⟩, h₂, heq⟩ := Option.map_eq_some_iff.mp hrest
      cases heq
      exact wasteful_of_evictHeaviest hs hpos hcost h₁ h₂

end Refusal

/-! ### A wasteful reservation is refused after an eviction -/

section Wasteful

variable {config : CacheConfig} {cap : ℕ} {victim : ImageId × CachedImage}

/-- An eviction loop with enough fuel has an outcome. -/
theorem evictOwn_isSome (s : ImageCache) (owner : PeerId) (cost : ℕ) (exclude : ImageId)
    (share : ℕ) : ∃ fits s' effects,
      s.evictOwn owner cost exclude share = some (fits, s', effects) := by
  obtain ⟨fits, s', effects, h, -⟩ := evictWhile_spec 0 (fun _ => false)
    (fun t => share < satAdd (t.ownerBytes owner) cost) (fun t => t.oldestOwned owner exclude)
    exclude (fun _ _ h => oldestOwned_spec h) (s.images.length + 1) s (Nat.lt_succ_self _)
  exact ⟨fits, s', effects, h⟩

theorem evictHeaviest_isSome (s : ImageCache) (cost : ℕ) (exclude : ImageId) (cap : ℕ)
    (ties : ℕ → PeerId → ℕ) {fuel : ℕ} (hfuel : s.images.length < fuel) : ∃ fits s' effects,
      s.evictHeaviest cost exclude cap ties fuel = some (fits, s', effects) := by
  obtain ⟨fits, s', effects, h, -⟩ := evictWhile_spec 0 (fun _ => false)
    (fun t => cap < satAdd t.totalBytes cost)
    (fun t => t.oldestOfHeaviestOwner exclude (ties t.images.length)) exclude
    (fun _ _ h => oldestOfHeaviestOwner_spec h) fuel s hfuel
  exact ⟨fits, s', effects, h⟩

/-- **The second loop refuses** when images that stay leave no room, and the map always lists the
owner of the extended image last. -/
theorem Trimmed.evictHeaviest_refuses (h : Trimmed s exclude t) (hs : Accounts s)
    (hkept : s.image exclude = some kept) (owner : PeerId) (cost share : ℕ) {fuel : ℕ}
    (ties : ℕ → PeerId → ℕ) (staying : List (ImageId × CachedImage)) (hcap : cap < u64Max)
    (hfuel : t.images.length < fuel) (hnodup : staying.Nodup)
    (hstaying : ∀ x ∈ staying, x ∈ t.images ∧ (x.1 ≠ exclude → s.Stays kept owner cost share x))
    (hover : cap < bytesOf staying + cost)
    (hties : ∀ n ≤ t.images.length, ∀ p ≠ kept.owner, ties n p < ties n kept.owner) :
    ∃ t' effects, t.evictHeaviest cost exclude cap ties fuel = some (false, t', effects) ∧
      ((t' = t ∧ effects = []) ∨ t'.images.length < t.images.length) ∧ Trimmed s exclude t' ∧
      t'.oldestOfHeaviestOwner exclude (ties t'.images.length) = none ∧
      cap < t'.totalBytes + cost := by
  obtain ⟨fits, t', effects, heq⟩ := t.evictHeaviest_isSome cost exclude cap ties hfuel
  have hout :=
    evictWhile_outcome (fun u => Trimmed s exclude u ∧ staying ⊆ u.images ∧ u.images ⊆ t.images) heq
    hcap (fun _ _ hid => (oldestOfHeaviestOwner_spec hid).1)
    (fun u id hu _ hid => by
      obtain ⟨htrimmed, hsubset, hleft⟩ := hu
      have hlength := (htrimmed.accounts.nodup_images.subperm hleft).length_le
      obtain ⟨x, hx, rfl, -, hties'⟩ := htrimmed.heaviestVictim hs hkept owner cost share hid
      refine ⟨htrimmed.drop hx, fun y hy => ?_, fun y hy => hleft (dropImage_subset u x.1 hy)⟩
      refine (mem_dropImage htrimmed.accounts hx.mem).mpr ⟨hsubset hy, fun hyx => ?_⟩
      rw [hyx] at hy
      have hstays := (hstaying x hy).2 hx.ne
      have hlast := hties _ hlength x.2.owner hstays.1
      have hlisted := hties' hstays
      omega)
    ⟨h, fun x hx => (hstaying x hx).1, List.Subset.refl _⟩
  have hfull : ¬ t'.totalBytes + cost ≤ cap := by
    have hle := bytesOf_le_of_subset hnodup hout.inv.2.1
    rw [hout.inv.1.accounts.total_eq]
    omega
  cases fits with
  | true => exact absurd (hout.room rfl) hfull
  | false =>
    exact ⟨t', effects, heq, hout.unchanged, hout.inv.1, (hout.refused rfl).2, not_le.mp hfull⟩

section

variable (hs : Accounts s)
include hs

section

variable (hkept : s.image exclude = some kept)
include hkept

/-- The first loop evicts no image that stays. -/
theorem evictOwn_keeps (hshare : share < u64Max) (hcost : cost ≤ share)
    (hroom : kept.owner = owner → kept.bytes + cost ≤ share) :
    ∃ s₁ effects₁, s.evictOwn owner cost exclude share = some (true, s₁, effects₁) ∧
      ((s₁ = s ∧ effects₁ = []) ∨ s₁.images.length < s.images.length) ∧ Trimmed s exclude s₁ ∧
      (∀ x ∈ s.images, s.Stays kept owner cost share x → x ∈ s₁.images) ∧
      s₁.ownerBytes owner + cost ≤ share := by
  obtain ⟨fits, s₁, effects₁, heq⟩ := s.evictOwn_isSome owner cost exclude share
  have hout := evictWhile_outcome
    (fun t => Trimmed s exclude t ∧ Gone s t fun x => ¬ s.Stays kept owner cost share x) heq hshare
    (fun _ _ hid => (oldestOwned_spec hid).1)
    (fun t id ht hexceeds hid => by
      obtain ⟨x, hx, rfl, howner⟩ := ht.1.oldestOwned hs hid
      exact ⟨ht.1.drop hx,
        ht.2.drop ht.1.accounts hx.mem (ht.1.ownVictim hs hkept hexceeds hx howner).2⟩)
    ⟨.refl hs, .refl s _⟩
  cases fits with
  | true =>
    refine ⟨s₁, effects₁, heq, hout.unchanged, hout.inv.1, fun x hx hstays => ?_, hout.room rfl⟩
    by_contra hgone
    exact hout.inv.2 x hx hgone hstays
  | false =>
    obtain ⟨hover, hnone⟩ := hout.refused rfl
    obtain ⟨kept', hkept', howner, hfull⟩ :=
      ownRefusal hout.inv.1.accounts (not_le.mp hover) hcost hnone
    have hsame := hout.inv.1.image_eq hs hkept'
    rw [hkept, Option.some.injEq] at hsame
    rw [← hsame] at howner hfull
    have := hroom howner
    omega

/-- The images of an owner whose images all stay are worth no more than the extended image. -/
theorem ownerBytes_le_kept (hall : ∀ x ∈ s.images, x.1 ≠ exclude → s.Stays kept owner cost share x)
    (p : PeerId) : s.ownerBytes p ≤ kept.bytes := by
  cases hid : s.oldestOwned p exclude with
  | none =>
    rcases Nat.eq_zero_or_pos (s.ownerBytes p) with hzero | hpos
    · omega
    · obtain ⟨kept', hkept', -, hle⟩ :=
        ownerBytes_alone hs (fun x hx howner => oldestOwned_none hid hx howner) hpos
      rw [hkept, Option.some.injEq] at hkept'
      rwa [hkept']
  | some id =>
    have hrefl : Trimmed s exclude s := .refl hs
    obtain ⟨x, hx, -, rfl⟩ := hrefl.oldestOwned hs hid
    have hstays := hall x hx.mem hx.ne
    exact (hrefl.le_bytesFrom hx fun y hy hyowner =>
      ne_exclude_of_owner hs hkept hy (by rw [hyowner]; exact hstays.1)).trans hstays.2.1

/-- Some image neither stays nor is extended: listing the owner of the extended image last, the
second loop evicts it and refuses. -/
theorem evictHeaviest_of_not_stays (hcap : cap < u64Max) (hcost : cost ≤ cap) {s₁ : ImageCache}
    (htrimmed : Trimmed s exclude s₁)
    (hstay : ∀ x ∈ s.images, s.Stays kept owner cost share x → x ∈ s₁.images)
    (hroom : s₁.ownerBytes owner + cost ≤ share) (hover : cap < kept.bytes +
      bytesOf (s.images.filter fun x => x ≠ victim ∧ s.Stays kept owner cost share x) + cost)
    (hx : x ∈ s.images) (hne : x.1 ≠ exclude) (hgoes : ¬ s.Stays kept owner cost share x) :
    ∃ ties s' effects, s₁.evictHeaviest cost exclude cap ties (s₁.images.length + 1) =
      some (false, s', effects) ∧ s'.images.length < s.images.length := by
  have hkeptMem : (exclude, kept) ∈ s.images := mem_keys_of_assocGet hkept
  obtain ⟨s', effects, heq, hunchanged, htrim, hnone, hfull⟩ :=
    htrimmed.evictHeaviest_refuses hs hkept owner cost share
      (fun _ p => if p = kept.owner then 1 else 0)
      ((exclude, kept) :: s.images.filter fun x => x ≠ victim ∧ s.Stays kept owner cost share x)
      hcap (Nat.lt_succ_self _)
      (by
        refine List.nodup_cons.mpr ⟨fun hmem => ?_, hs.nodup_images.filter _⟩
        exact (of_decide_eq_true (List.mem_filter.mp hmem).2).2.1 rfl)
      (by
        intro y hy
        rcases List.mem_cons.mp hy with rfl | hy
        · exact ⟨htrimmed.keeps _ hkeptMem rfl, fun hyne => absurd rfl hyne⟩
        · obtain ⟨hys, hrest⟩ := List.mem_filter.mp hy
          have hstays := (of_decide_eq_true hrest).2
          exact ⟨hstay y hys hstays, fun _ => hstays⟩)
      (by rw [bytesOf, List.map_cons, List.sum_cons]; exact hover)
      (fun _ _ p hp => by simp [hp])
  refine ⟨_, s', effects, heq, ?_⟩
  have hle : s'.images.length ≤ s.images.length := htrim.sublist.length_le
  refine lt_of_le_of_ne hle fun hlength => ?_
  -- were nothing evicted, the image would be left, and so be one that stays
  have hsame : s'.images = s.images := htrim.sublist.eq_of_length hlength
  obtain ⟨kept', hkept', hleft⟩ := heaviestRefusal htrim.accounts hfull hcost hnone
  have hsameKept := htrim.image_eq hs hkept'
  rw [hkept, Option.some.injEq] at hsameKept
  rw [← hsameKept] at hleft
  have hx' : x ∈ s'.images := hsame ▸ hx
  obtain ⟨howner, hbytes⟩ := hleft x hx' hne
  have hroom' : s'.ownerBytes owner + cost ≤ share := by
    have hsublist : s'.images ⊆ s₁.images := by
      rw [hsame]
      have hlen : s₁.images.length = s.images.length := by
        have h₁ := htrimmed.sublist.length_le
        rcases hunchanged with ⟨rfl, -⟩ | hshorter
        · exact hlength
        · omega
      rw [htrimmed.sublist.eq_of_length hlen]
      exact List.Subset.refl _
    have := ownerBytes_mono htrim.accounts hsublist owner
    omega
  exact hgoes (htrim.stays hs hkept hroom' hx' howner hbytes)

end

/-- The images but one. -/
theorem bytesOf_without (owner : PeerId) (cost share : ℕ) {w : ImageId × CachedImage}
    (hvictim : victim ∈ s.images) (hkept : s.image exclude = some kept) (hne : victim.1 ≠ exclude)
    (hbytes : w.2.bytes ≤ victim.2.bytes) :
    kept.bytes + bytesOf (s.images.filter fun x => x ≠ victim ∧ s.Stays kept owner cost share x) ≤
      bytesOf (s.images.filter fun x => x ≠ w) := by
  have hkeptMem : (exclude, kept) ∈ s.images := mem_keys_of_assocGet hkept
  have hupper : bytesOf s.images ≤ bytesOf (w :: s.images.filter fun x => x ≠ w) := by
    refine bytesOf_le_of_subset hs.nodup_images fun x hx => ?_
    by_cases hxw : x = w
    · rw [hxw]
      exact .head _
    · exact .tail _ (List.mem_filter.mpr ⟨hx, decide_eq_true hxw⟩)
  have hlower : bytesOf ((exclude, kept) :: victim ::
      s.images.filter fun x => x ≠ victim ∧ s.Stays kept owner cost share x) ≤
      bytesOf s.images := by
    refine bytesOf_le_of_subset ?_ ?_
    · refine List.nodup_cons.mpr ⟨fun hmem => ?_, List.nodup_cons.mpr ⟨fun hmem => ?_,
        hs.nodup_images.filter _⟩⟩
      · rcases List.mem_cons.mp hmem with heq | hmem
        · exact hne (congrArg Prod.fst heq).symm
        · exact (of_decide_eq_true (List.mem_filter.mp hmem).2).2.1 rfl
      · exact (of_decide_eq_true (List.mem_filter.mp hmem).2).1 rfl
    · intro x hx
      rcases List.mem_cons.mp hx with rfl | hx
      · exact hkeptMem
      rcases List.mem_cons.mp hx with rfl | hx
      · exact hvictim
      · exact List.mem_of_mem_filter hx
  simp only [bytesOf, List.map_cons, List.sum_cons] at hupper hlower ⊢
  omega

/-- Every other image stays, but the victim ties with the extended image: listing its owner last
once, the second loop evicts an image of that owner, and then refuses. -/
theorem evictHeaviest_of_tie (hkept : s.image exclude = some kept) (hcap : cap < u64Max)
    (hall : ∀ x ∈ s.images, x.1 ≠ exclude → s.Stays kept owner cost share x)
    (hvictim : victim ∈ s.images) (hne : victim.1 ≠ exclude)
    (hties : kept.bytes ≤ s.bytesFrom victim) (hover : cap < kept.bytes +
      bytesOf (s.images.filter fun x => x ≠ victim ∧ s.Stays kept owner cost share x) + cost) :
    ∃ ties s' effects, s.evictHeaviest cost exclude cap ties (s.images.length + 1) =
      some (false, s', effects) ∧ s'.images.length < s.images.length := by
  have hrefl : Trimmed s exclude s := .refl hs
  have hvictimOwner := (hall victim hvictim hne).1
  let ties : ℕ → PeerId → ℕ := fun n p =>
    if n = s.images.length then (if p = victim.2.owner then 1 else 0)
    else (if p = kept.owner then 1 else 0)
  -- the victim's owner is chosen
  have hheaviest : s.oldestOfHeaviestOwner exclude (ties s.images.length) =
      s.oldestOwned victim.2.owner exclude := by
    rw [oldestOfHeaviestOwner]
    split
    · rename_i hnone
      rw [List.argmax_eq_none] at hnone
      have howner := mem_owners hvictim
      rw [hnone] at howner
      cases howner
    · rename_i heaviest hmax
      have hle := argmax_owners_le hmax hvictim
      rw [Prod.Lex.toLex_le_toLex] at hle
      have hbound := ownerBytes_le_kept hs hkept hall heaviest
      have hholds := hrefl.bytesFrom_le hs hvictim fun y hy hyowner =>
        ne_exclude_of_owner hs hkept hy (by rwa [hyowner])
      have hone : 1 ≤ ties s.images.length heaviest := by
        have htie : ties s.images.length victim.2.owner = 1 := by simp [ties]
        omega
      have heq : heaviest = victim.2.owner := by
        by_contra hother
        simp [ties, hother] at hone
      rw [heq]
  have hfilter : ∃ id, s.oldestOwned victim.2.owner exclude = some id := by
    cases hid : s.oldestOwned victim.2.owner exclude with
    | some id => exact ⟨id, rfl⟩
    | none => exact absurd (oldestOwned_none hid hvictim rfl) hne
  obtain ⟨id, hid⟩ := hfilter
  obtain ⟨w, hw, rfl, hwowner⟩ := hrefl.oldestOwned hs hid
  -- an older image that ties as well has no bytes
  have hbytes : w.2.bytes ≤ victim.2.bytes := by
    by_cases hsame : w = victim
    · rw [hsame]
    · have hwstays := (hall w hw.mem hw.ne).2.1
      have hsum : bytesOf (w :: s.images.filter fun y =>
          y.2.owner = victim.2.owner ∧ s.evictionRank victim ≤ s.evictionRank y) ≤
          s.bytesFrom w := by
        have hrank := hw.first victim hvictim hwowner.symm hne
        refine bytesOf_le_of_subset (List.nodup_cons.mpr ⟨fun hmem => hsame ?_,
          hs.nodup_images.filter _⟩) fun y hy => ?_
        · have hback := (of_decide_eq_true (List.mem_filter.mp hmem).2).2
          exact evictionRank_inj hw.mem (le_antisymm hrank hback)
        · rcases List.mem_cons.mp hy with rfl | hy
          · exact List.mem_filter.mpr ⟨hw.mem, decide_eq_true ⟨rfl, le_rfl⟩⟩
          · obtain ⟨hys, hrest⟩ := List.mem_filter.mp hy
            obtain ⟨hyowner, hle⟩ := of_decide_eq_true hrest
            exact List.mem_filter.mpr
              ⟨hys, decide_eq_true ⟨hyowner.trans hwowner.symm, hrank.trans hle⟩⟩
      have hcons : w.2.bytes + s.bytesFrom victim ≤ s.bytesFrom w := hsum
      omega
  have hstill := bytesOf_without hs owner cost share hvictim hkept hne hbytes
  have himage : s.image w.1 = some w.2 := hs.nodup.get_of_mem hw.mem
  have hshorter := dropImage_length himage
  obtain ⟨s', effects, heq, hunchanged, -⟩ :=
    (hrefl.drop hw).evictHeaviest_refuses hs hkept owner cost share ties
      (s.images.filter fun x => x ≠ w) hcap hshorter (hs.nodup_images.filter _)
      (by
        intro y hy
        obtain ⟨hys, hyw⟩ := List.mem_filter.mp hy
        exact ⟨(mem_dropImage hs hw.mem).mpr ⟨hys, of_decide_eq_true hyw⟩, hall y hys⟩)
      (by omega)
      (fun n hn p hp => by
        have hlt : n ≠ s.images.length := by omega
        simp [ties, hlt, hp])
  have hexceeds : decide (cap < satAdd s.totalBytes cost) = true := by
    refine decide_eq_true (not_le.mp fun hle => ?_)
    have hroom := (satAdd_le_iff hcap).mp hle
    have htotal := bytesOf_le_of_subset (hs.nodup_images.filter fun x => x ≠ w)
      (List.filter_sublist.subset : _ ⊆ s.images)
    rw [hs.total_eq] at hroom
    omega
  refine ⟨ties, s', (s.dropImage w.1).2 ++ effects, ?_, ?_⟩
  · rw [evictHeaviest, evictWhile, hexceeds, hheaviest, hid]
    exact Option.map_eq_some_iff.mpr ⟨_, heq, rfl⟩
  · rcases hunchanged with ⟨rfl, -⟩ | hless
    · exact hshorter
    · exact hless.trans hshorter

/-- **A wasteful reservation**: for some order of the temporary map it is refused and an image has
gone. -/
theorem exists_refused_of_wasteful (hwasteful : s.Wasteful owner cost exclude config) :
    ∃ ties s' effects, s.tryReserve owner cost exclude config ties = some (false, s', effects) ∧
      s'.images.length < s.images.length := by
  obtain ⟨hpos, hcost, kept, hkept, victim, hvictim, hne, hcase⟩ := hwasteful
  have hcap := hcost.trans (s.ownerShare_le owner config.cap config)
  have hshareLt := share_lt s owner config
  have hfirst : ¬ (cost = 0 ∨ s.ownerShare owner config.cap config < cost) := by omega
  simp only [tryReserve_eq, if_neg hfirst]
  generalize s.ownerShare owner config.cap config = share at *
  rcases hcase with ⟨howner, hfull, hvictimOwner⟩ | ⟨hroom, hmay, hover⟩
  · -- the first loop evicts all other images of the owner
    obtain ⟨fits, s₁, effects₁, h₁⟩ := s.evictOwn_isSome owner cost exclude share
    have hout :=
      evictWhile_outcome (Trimmed s exclude) h₁ hshareLt (fun _ _ hid => (oldestOwned_spec hid).1)
      (fun t id ht _ hid => by
        obtain ⟨x, hx, rfl, -⟩ := ht.oldestOwned hs hid
        exact ht.drop hx) (.refl hs)
    have hkeptMem : (exclude, kept) ∈ s₁.images := hout.inv.keeps _ (mem_keys_of_assocGet hkept) rfl
    have hkeptBytes : kept.bytes ≤ s₁.ownerBytes owner :=
      bytes_le_bytesOf (List.mem_filter.mpr ⟨hkeptMem, decide_eq_true howner⟩)
    cases fits with
    | true =>
      have hle := hout.room rfl
      omega
    | false =>
      refine ⟨fun _ _ => 0, s₁, effects₁, by rw [h₁]; rfl, ?_⟩
      refine hout.unchanged.resolve_left fun hsame => hne ?_
      obtain ⟨rfl, -⟩ := hsame
      exact oldestOwned_none (hout.refused rfl).2 hvictim hvictimOwner
  · obtain ⟨s₁, effects₁, h₁, hunchanged, htrimmed, hstay, hroom₁⟩ :=
      evictOwn_keeps hs hkept hshareLt hcost hroom
    by_cases hall : ∀ x ∈ s.images, x.1 ≠ exclude → s.Stays kept owner cost share x
    · -- the first loop evicts nothing
      have hsame : s₁ = s := by
        rcases hunchanged with ⟨hsame, -⟩ | hshorter
        · exact hsame
        · obtain ⟨x, hx, hgone, hxne⟩ := htrimmed.exists_evicted hs hshorter
          exact absurd (hstay x hx (hall x hx hxne)) hgone
      have hstays := hall victim hvictim hne
      have hties : kept.bytes ≤ s.bytesFrom victim := by
        rcases hmay with howner | hle | ⟨howner, hlt⟩
        · exact absurd howner hstays.1
        · exact hle
        · have := hstays.2.2 howner
          omega
      obtain ⟨ties, s', effects, h₂, hshorter⟩ :=
        evictHeaviest_of_tie hs hkept (cap_lt config) hall hvictim hne hties hover
      refine ⟨ties, s', effects₁ ++ effects, ?_, hshorter⟩
      rw [h₁, hsame]
      exact Option.map_eq_some_iff.mpr ⟨_, h₂, rfl⟩
    · obtain ⟨x, hx, hxne, hgoes⟩ : ∃ x ∈ s.images, x.1 ≠ exclude ∧
          ¬ s.Stays kept owner cost share x := by
        by_contra hnone
        refine hall fun x hx hxne => ?_
        by_contra hgoes
        exact hnone ⟨x, hx, hxne, hgoes⟩
      obtain ⟨ties, s', effects, h₂, hshorter⟩ := evictHeaviest_of_not_stays hs hkept
        (cap_lt config) hcap htrimmed hstay hroom₁ hover hx hxne hgoes
      refine ⟨ties, s', effects₁ ++ effects, ?_, hshorter⟩
      rw [h₁]
      exact Option.map_eq_some_iff.mpr ⟨_, h₂, rfl⟩

end

end Wasteful

/-! ### Reachable caches -/

/-- **What a refused reservation evicts.**  In every cache that a run reaches, and for every owner,
cost and image: a refused reservation leaves the cache as it was and queues no notice, in whatever
order the temporary map lists the owners, if and only if the reservation is not wasteful. -/
theorem refused_reservation {ok : Run → Action → Prop} {st : Run} (h : Reachable system ok st)
    (owner : PeerId) (cost : ℕ) (exclude : ImageId) (config : CacheConfig) :
    (∀ ties s' effects,
      st.cache.tryReserve owner cost exclude config ties = some (false, s', effects) →
        s' = st.cache ∧ effects = []) ↔
      ¬ st.cache.Wasteful owner cost exclude config := by
  have hs := accounts_of_reachable h
  constructor
  · intro hunchanged hwasteful
    obtain ⟨ties, s', effects, hrefused, hshorter⟩ := exists_refused_of_wasteful hs hwasteful
    have hsame := (hunchanged ties s' effects hrefused).1
    rw [hsame] at hshorter
    exact lt_irrefl _ hshorter
  · intro hnot ties s' effects hrefused
    exact (wasteful_of_refused hs hrefused).resolve_right hnot

/-- One megabyte, for every owner. -/
def sharedConfig : CacheConfig := ⟨true, 1, 1⟩

/-- An image without its chunk, with the id of sixteen twos. -/
def secondSpawn : Bytes :=
  opSpawn :: List.replicate 16 2 ++ [8, 0, 0] ++ leBytes 4 1 ++ leBytes 4 1 ++ leBytes 4 3 ++
    leBytes 4 1 ++ List.replicate poseBytes 0

/-- A complete image of one player, and a lighter one of another. -/
def sharedUpload : List Action :=
  [.observe 7 smallSpawn [] [7, 8] [] false sharedConfig fun _ _ => 0,
    .observe 7 smallChunk [] [7, 8] [] false sharedConfig fun _ _ => 0,
    .observe 8 secondSpawn [] [7, 8] [] false sharedConfig fun _ _ => 0]

/-- The heavier image is extended beyond what the lighter one leaves, and that one stays. -/
theorem refused_reservation_shared :
    ∃ st, Reachable system (UnderConfig sharedConfig) st ∧ st.cache.totalBytes = 220 ∧
      (st.cache.tryReserve 7 1048402 (List.replicate 16 0) sharedConfig fun _ _ => 0).any
        (fun r => !r.1) = true ∧
      ∀ ties s' effects,
        st.cache.tryReserve 7 1048402 (List.replicate 16 0) sharedConfig ties =
          some (false, s', effects) → s' = st.cache ∧ effects = [] := by
  have hok : Admits system (UnderConfig sharedConfig) ⟨empty, [], []⟩ sharedUpload :=
    ⟨fun c hc => by cases hc; rfl, fun _ _ => ⟨fun c hc => by cases hc; rfl, fun _ _ =>
      ⟨fun c hc => by cases hc; rfl, fun _ _ => trivial⟩⟩⟩
  have hrun : (runActions system ⟨empty, [], []⟩ sharedUpload).any
      (fun st => decide (st.cache.totalBytes = 220 ∧
        (st.cache.tryReserve 7 1048402 (List.replicate 16 0) sharedConfig fun _ _ => 0).any
          (fun r => !r.1) = true ∧
        (∀ kept ∈ st.cache.image (List.replicate 16 0), kept.owner = 7 ∧ kept.bytes = 124) ∧
        ∀ x ∈ st.cache.images, x.1 = List.replicate 16 0 ∨
          x.2.owner = 8 ∧ st.cache.bytesFrom x = 96)) = true := by
    decide +kernel
  obtain ⟨st, hst, hfacts⟩ := exists_reachable_of_run _ hok (.init rfl) hrun
  obtain ⟨htotal, hrefused, hfirst, hothers⟩ := of_decide_eq_true hfacts
  refine ⟨st, hst, htotal, hrefused, (refused_reservation hst _ _ _ _).mpr ?_⟩
  rintro ⟨-, -, kept, hkept, victim, hvictim, hne, hgoes⟩
  obtain ⟨howner, hbytes⟩ := hfirst kept hkept
  obtain ⟨hother, hheld⟩ := (hothers victim hvictim).resolve_left hne
  rcases hgoes with ⟨-, -, hown⟩ | ⟨-, hown | hheavy | ⟨hown, -⟩, -⟩
  · exact absurd (hother.symm.trans hown) (by decide)
  · exact absurd (hother.symm.trans (hown.trans howner)) (by decide)
  · omega
  · exact absurd (hother.symm.trans hown) (by decide)

/-- An image of twenty thousand chunks with the id of sixteen ones. -/
def largeSpawn : Bytes :=
  opSpawn :: List.replicate 16 1 ++ [7, 0, 0] ++ leBytes 4 1 ++ leBytes 4 1 ++ leBytes 4 3 ++
    leBytes 4 20000 ++ List.replicate poseBytes 0

/-- An animation of as many chunks for it. -/
def largeAnimation : Bytes :=
  opAnimationSpawn :: List.replicate 16 1 ++ [0] ++ leBytes 4 3 ++ leBytes 4 20000 ++ [0]

/-- A complete small image and a large one, of one player. -/
def largeUpload : List Action :=
  smallUpload ++ [.observe 7 largeSpawn [] [7, 8] [] false smallConfig fun _ _ => 0]

/-- The large image is to be extended by an animation that can never fit beside it: the small image
is evicted, the eviction is announced, and then the animation is refused. -/
theorem refused_reservation_wasteful :
    ∃ st, Reachable system (UnderConfig smallConfig) st ∧
      ¬ ∀ ties s' effects,
        st.cache.tryReserve 7 (largeAnimation.length + 20000 * slotBytes) (List.replicate 16 1)
          smallConfig ties = some (false, s', effects) → s' = st.cache ∧ effects = [] := by
  have hok : Admits system (UnderConfig smallConfig) ⟨empty, [], []⟩ largeUpload :=
    ⟨fun c hc => by cases hc; rfl, fun _ _ => ⟨fun c hc => by cases hc; rfl, fun _ _ =>
      ⟨fun c hc => by cases hc; rfl, fun _ _ => trivial⟩⟩⟩
  have hrun : (runActions system ⟨empty, [], []⟩ largeUpload).any
      (fun st => (st.cache.tryReserve 7 (largeAnimation.length + 20000 * slotBytes)
          (List.replicate 16 1) smallConfig fun _ _ => 0).any
        fun r => !r.1 && decide (r.2.2 = [.cacheState 7 (List.replicate 16 0) false])) = true := by
    decide +kernel
  obtain ⟨st, hst, hrefused⟩ := exists_reachable_of_run _ hok (.init rfl) hrun
  refine ⟨st, hst, fun hunchanged => ?_⟩
  obtain ⟨⟨fits, s', effects⟩, hr, hfacts⟩ := (Option.any_eq_true _ _).mp hrefused
  obtain ⟨hfits, heffects⟩ := Bool.and_eq_true_iff.mp hfacts
  have hfits : fits = false := by simpa using hfits
  rw [hfits] at hr
  have hnone := (hunchanged _ s' effects hr).2
  rw [show effects = _ from of_decide_eq_true heffects] at hnone
  cases hnone

end ImageCache

end BasisRust.Server
