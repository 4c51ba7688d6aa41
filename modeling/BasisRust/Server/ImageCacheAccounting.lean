import BasisRust.Server.ImageCacheMoves

/-!
# The image cache counts its bytes

`CachedImage.cost` is what an image costs, read off its contents.  `Accounts` says that every image
is charged exactly that, that the total is the sum of the charges, and that no subtraction was ever
cut off.
-/

namespace BasisRust.Server

open Library

/-! ### Slots -/

/-- The number of filled slots. -/
def filledSlots (slots : List (Option Bytes)) : ℕ := slots.countP Option.isSome

/-- The bytes in the filled slots. -/
def heldBytes (slots : List (Option Bytes)) : ℕ :=
  (slots.map fun slot => slot.elim 0 List.length).sum

variable {slots : List (Option Bytes)}

theorem filledSlots_set {index : ℕ} (payload : Bytes) (h : slots[index]? = some none) :
    filledSlots (slots.set index (some payload)) = filledSlots slots + 1 := by
  induction slots generalizing index with
  | nil => simp at h
  | cons slot slots ih =>
    cases index with
    | zero =>
      simp only [List.getElem?_cons_zero, Option.some.injEq] at h
      subst h
      simp [filledSlots]
    | succ index =>
      have hrest := ih (by simpa using h)
      simp only [filledSlots, List.set_cons_succ, List.countP_cons] at hrest ⊢
      omega

theorem heldBytes_set {index : ℕ} (payload : Bytes) (h : slots[index]? = some none) :
    heldBytes (slots.set index (some payload)) = heldBytes slots + payload.length := by
  induction slots generalizing index with
  | nil => simp at h
  | cons slot slots ih =>
    cases index with
    | zero =>
      simp only [List.getElem?_cons_zero, Option.some.injEq] at h
      subst h
      simp [heldBytes, Nat.add_comm]
    | succ index =>
      have hrest := ih (by simpa using h)
      simp only [heldBytes, List.set_cons_succ, List.map_cons, List.sum_cons] at hrest ⊢
      omega

theorem filledSlots_replicate (n : ℕ) : filledSlots (List.replicate n none) = 0 := by
  simp [filledSlots, List.countP_replicate]

theorem heldBytes_replicate (n : ℕ) : heldBytes (List.replicate n none) = 0 := by
  simp [heldBytes]

/-! ### The cost of an image -/

/-- The spawn, the slot backbone, the held chunks, the transform and the same for the animation. -/
def CachedImage.cost (image : CachedImage) : ℕ :=
  image.spawn.length + image.chunks.length * slotBytes + heldBytes image.chunks +
    image.transform.elim 0 List.length +
    image.animationSpawn.elim 0 List.length + image.animationChunks.length * slotBytes +
    heldBytes image.animationChunks

structure CachedImage.Counted (image : CachedImage) : Prop where
  bytes : image.bytes = image.cost
  chunksHeld : image.chunksHeld = filledSlots image.chunks
  animationChunksHeld : image.animationChunksHeld = filledSlots image.animationChunks
  animationEmpty : image.animationSpawn = none → image.animationChunks = []
  transformLength : ∀ transform, image.transform = some transform →
    transform.length = transformBytes

namespace ImageCache

variable {image : CachedImage}

theorem Grows.counted {image' : CachedImage} {cost : ℕ} (h : Grows image image' cost)
    (hc : image.Counted) : image'.Counted ∧ image'.bytes = image.bytes + cost := by
  have hbytes := hc.bytes
  rw [CachedImage.cost] at hbytes
  cases h with
  | animationSpawn payload count hnone =>
    have hempty := hc.animationEmpty hnone
    refine ⟨⟨?_, hc.chunksHeld, ?_, fun h => (by cases h), hc.transformLength⟩, rfl⟩
    · simp only [CachedImage.cost, hempty, hnone, Option.elim, List.length_replicate,
        heldBytes_replicate, List.length_nil, hbytes]
      simp [heldBytes]
      omega
    · rw [hc.animationChunksHeld, hempty]
      exact (filledSlots_replicate count).symm
  | chunk index payload hslot =>
    refine ⟨⟨?_, ?_, hc.animationChunksHeld, hc.animationEmpty, hc.transformLength⟩, rfl⟩
    · simp only [CachedImage.cost, List.length_set, heldBytes_set payload hslot, hbytes]
      omega
    · rw [filledSlots_set payload hslot, hc.chunksHeld]
  | animationChunk index payload hslot hspawn =>
    refine ⟨⟨?_, hc.chunksHeld, ?_, fun h => ?_, hc.transformLength⟩, rfl⟩
    · simp only [CachedImage.cost, List.length_set, heldBytes_set payload hslot, hbytes]
      omega
    · rw [filledSlots_set payload hslot, hc.animationChunksHeld]
    · have hnone : image.animationSpawn = none := h
      rw [hnone] at hspawn
      cases hspawn
  | transform payload hlength hnone =>
    refine ⟨⟨?_, hc.chunksHeld, hc.animationChunksHeld, hc.animationEmpty, ?_⟩, rfl⟩
    · simp only [CachedImage.cost, hnone, Option.elim, hlength, hbytes]
      omega
    · intro transform htransform
      cases htransform
      exact hlength

/-! ### The invariant -/

/-- The part that does not depend on the configuration. -/
structure Accounts (s : ImageCache) : Prop where
  nodup : AssocNodup s.images
  counted : ∀ id image, s.image id = some image → image.Counted
  total : s.totalBytes = assocSum CachedImage.bytes s.images
  exact : s.saturated = false

theorem empty_accounts : Accounts empty where
  nodup := AssocNodup.nil
  counted := nofun
  total := rfl
  exact := rfl

variable {cap : ℕ} {permits : PeerId → Bool} {s s' : ImageCache} {effects : List Effect}
  {id : ImageId}

theorem image_setImage (s : ImageCache) (id id' : ImageId) (image : CachedImage) :
    (s.setImage id image).image id' = if id' = id then some image else s.image id' :=
  assocGet_put id id' (some image) s.images

section

variable (h : Accounts s)
include h

/-- No image is charged more than the total. -/
theorem Accounts.bytes_le (himage : s.image id = some image) : image.bytes ≤ s.totalBytes := by
  have hsum := h.nodup.sum_erase CachedImage.bytes id
  rw [show assocGet id s.images = some image from himage] at hsum
  simp only [Option.elim] at hsum
  rw [h.total]
  omega

theorem Accounts.drop (himage : s.image id = some image) : Accounts (s.dropImage id).1 where
  nodup := by
    rw [dropImage, himage]
    exact h.nodup.erase id
  counted id' image' himage' := by
    rw [image_dropImage] at himage'
    split_ifs at himage'
    exact h.counted id' image' himage'
  total := by
    have hsum := h.nodup.sum_erase CachedImage.bytes id
    rw [show assocGet id s.images = some image from himage] at hsum
    rw [dropImage, himage]
    simp only [Option.elim] at hsum ⊢
    rw [h.total]
    omega
  exact := by
    rw [dropImage, himage]
    simp [h.exact, h.bytes_le himage]

/-- An image is stored or replaced, and the total follows its charge. -/
theorem Accounts.set {cost : ℕ} (hcounted : image.Counted)
    (hbytes : image.bytes = (s.image id).elim 0 CachedImage.bytes + cost)
    (hs' : s'.images = (s.setImage id image).images) (htotal : s'.totalBytes = s.totalBytes + cost)
    (hexact : s'.saturated = s.saturated) : Accounts s' where
  nodup := by
    rw [hs']
    exact h.nodup.put id (some image)
  counted id' image' himage' := by
    have hview : s'.image id' = (s.setImage id image).image id' := by
      rw [ImageCache.image, hs']
      rfl
    rw [hview, image_setImage] at himage'
    split_ifs at himage'
    · cases himage'
      exact hcounted
    · exact h.counted id' image' himage'
  total := by
    have hsum := h.nodup.sum_put CachedImage.bytes id (some image)
    have himages : s'.images = assocPut id (some image) s.images := hs'
    have hview : (assocGet id s.images).elim 0 CachedImage.bytes =
        (s.image id).elim 0 CachedImage.bytes := rfl
    rw [hview] at hsum
    simp only [Option.elim] at hsum hbytes
    rw [htotal, himages, h.total]
    omega
  exact := hexact.trans h.exact

/-- Replacing an image by one of the same contents. -/
theorem Accounts.touch {image' : CachedImage} (himage : s.image id = some image)
    (hs' : s'.images = (s.setImage id image').images) (htotal : s'.totalBytes = s.totalBytes)
    (hexact : s'.saturated = s.saturated) (hbytes : image'.bytes = image.bytes)
    (hcounted : image.Counted → image'.Counted) : Accounts s' := by
  have hc := hcounted (h.counted id image himage)
  have hcost : image'.bytes = (s.image id).elim 0 CachedImage.bytes + 0 := by
    rw [himage]
    exact hbytes
  exact h.set hc hcost hs' htotal hexact

theorem Accounts.move (hmove : Move cap permits s effects s') : Accounts s' := by
  cases hmove with
  | drop himage => exact h.drop himage
  | store owner payload count poseOffset original hfree hcost =>
    refine h.set ?_ ?_ rfl rfl rfl
    · refine ⟨?_, (filledSlots_replicate count).symm, rfl, fun _ => rfl, nofun⟩
      simp [CachedImage.cost, heldBytes]
    · rw [hfree]
      exact (Nat.zero_add _).symm
  | grow himage hgrows hcost =>
    obtain ⟨hcounted, hbytes⟩ := hgrows.counted (h.counted _ _ himage)
    exact h.set hcounted (by rw [hbytes, himage]; rfl) rfl rfl rfl
  | @pose id image payload himage hlength htransform =>
    refine h.touch himage rfl rfl rfl rfl fun hc => ⟨?_, hc.chunksHeld, hc.animationChunksHeld,
      hc.animationEmpty, ?_⟩
    · obtain ⟨t, ht⟩ := Option.isSome_iff_exists.mp htransform
      have hbytes := hc.bytes
      simp only [CachedImage.cost, ht, Option.elim, hc.transformLength t ht] at hbytes
      simp only [CachedImage.cost, Option.elim, hlength, hbytes]
    · intro t ht
      cases ht
      exact hlength
  | notice owner id held => exact h
  | offer _ himage | still himage | both himage | animation himage =>
    exact h.touch himage rfl rfl rfl rfl fun hc => ⟨hc.bytes, hc.chunksHeld,
      hc.animationChunksHeld, hc.animationEmpty, hc.transformLength⟩

theorem Accounts.moves (hmoves : Moves cap permits s effects s') : Accounts s' := by
  induction hmoves with
  | nil s => exact h
  | cons hmove _ ih => exact ih (h.move hmove)

end

/-- No move goes over the cap. -/
theorem totalBytes_move (h : s.totalBytes ≤ cap) (hmove : Move cap permits s effects s') :
    s'.totalBytes ≤ cap := by
  cases hmove with
  | drop himage =>
    rw [dropImage, himage]
    exact le_trans (Nat.sub_le _ _) h
  | store _ _ _ _ _ _ hcost | grow _ _ hcost => exact hcost
  | pose | offer | notice | still | both | animation => exact h

theorem totalBytes_moves (h : s.totalBytes ≤ cap) (hmoves : Moves cap permits s effects s') :
    s'.totalBytes ≤ cap := by
  induction hmoves with
  | nil s => exact h
  | cons hmove _ ih => exact ih (totalBytes_move h hmove)

theorem Accounts.forget (h : Accounts s) (peer : PeerId) :
    Accounts { s with images := s.images.map fun x => (x.1, forgetPeer peer x.2) } where
  nodup := by
    have hkeys : (s.images.map fun x => (x.1, forgetPeer peer x.2)).map Prod.fst =
        s.images.map Prod.fst := by
      rw [List.map_map]
      rfl
    rw [AssocNodup, hkeys]
    exact h.nodup
  counted id image himage := by
    rw [ImageCache.image, assocGet_map, Option.map_eq_some_iff] at himage
    obtain ⟨image₀, himage₀, rfl⟩ := himage
    have hc := h.counted id image₀ himage₀
    exact ⟨hc.bytes, hc.chunksHeld, hc.animationChunksHeld, hc.animationEmpty, hc.transformLength⟩
  total := by
    have hsum : assocSum CachedImage.bytes (s.images.map fun x => (x.1, forgetPeer peer x.2)) =
        assocSum CachedImage.bytes s.images := by
      simp [assocSum, Function.comp_def, forgetPeer]
    rw [hsum]
    exact h.total
  exact := h.exact

theorem Accounts.reset (h : Accounts s) : Accounts s.reset where
  nodup := AssocNodup.nil
  counted := nofun
  total := rfl
  exact := h.exact

/-! ### Runs -/

/-- No operation fails, in any state. -/
theorem perform_isSome (s : ImageCache) (a : Action) : (s.perform a).isSome = true := by
  cases hconfig : a.config? with
  | some config =>
    obtain ⟨s', effects, heq, -⟩ := perform_moves s hconfig
    rw [heq]
    rfl
  | none =>
    cases a with
    | observe => cases hconfig
    | offerPeer | request | resumeAnimations | removePlayer | reset | release => rfl

/-- **One operation** keeps the accounts, and the bound if it is under the same configuration. -/
theorem Accounts.perform (h : Accounts s) {a : Action} (hs' : s.perform a = some (s', effects)) :
    Accounts s' ∧ ∀ cap, (∀ c, a.config? = some c → c.cap = cap) → s.totalBytes ≤ cap →
      s'.totalBytes ≤ cap := by
  cases hc : a.config? with
  | some c =>
    obtain ⟨s₁, effects₁, heq, hmoves⟩ := perform_moves s hc
    rw [hs'] at heq
    cases heq
    refine ⟨h.moves hmoves, fun cap hcap hbound => ?_⟩
    rw [← hcap c rfl] at hbound ⊢
    exact totalBytes_moves hbound hmoves
  | none =>
    cases a with
    | removePlayer peer =>
      have hs₁ : s' = (s.removePlayer peer).1 := by
        rw [ImageCache.perform, Option.some.injEq] at hs'
        rw [hs']
      refine ⟨?_, fun cap _ hbound => ?_⟩
      · obtain ⟨s₁, hmoves, heq⟩ := removePlayer_moves s peer 0 (fun _ => false)
        rw [hs₁, heq]
        exact (h.moves hmoves).forget peer
      · obtain ⟨s₁, hmoves, heq⟩ := removePlayer_moves s peer cap (fun _ => false)
        have hle : s₁.totalBytes ≤ cap := totalBytes_moves hbound hmoves
        rw [hs₁, heq]
        exact hle
    | reset =>
      cases hs'
      exact ⟨h.reset, fun cap _ _ => Nat.zero_le cap⟩
    | release handle =>
      cases hs'
      exact ⟨⟨h.nodup, h.counted, h.total, h.exact⟩, fun _ _ hbound => hbound⟩
    | observe | offerPeer | request | resumeAnimations => cases hc

/-- The accounts are right in every run, under whatever configurations. -/
theorem accounts_of_reachable {ok : Run → Action → Prop} {st : Run}
    (h : Reachable system ok st) : Accounts st.cache := by
  refine Reachable.invariant (fun st => Accounts st.cache) ?_ ?_ h
  · rintro st rfl
    exact empty_accounts
  · intro st a st' hinv _ hstep
    obtain ⟨⟨s', effects⟩, hs', rfl⟩ := Option.map_eq_some_iff.mp hstep
    exact (hinv.perform hs').1

/-- The run uses one configuration throughout. -/
def UnderConfig (config : CacheConfig) (_ : Run) (a : Action) : Prop :=
  ∀ c, a.config? = some c → c = config

theorem totalBytes_of_reachable {config : CacheConfig} {st : Run}
    (h : Reachable system (UnderConfig config) st) : st.cache.totalBytes ≤ config.cap := by
  refine Reachable.invariant_of (fun st => st.cache.totalBytes ≤ config.cap)
    (fun _ => accounts_of_reachable) ?_ ?_ h
  · rintro st rfl
    exact Nat.zero_le _
  · intro st a st' haccounts hinv hok hstep
    obtain ⟨⟨s', effects⟩, hs', rfl⟩ := Option.map_eq_some_iff.mp hstep
    exact (haccounts.perform hs').2 config.cap (fun c hc => by rw [hok c hc]) hinv

/-- **The accounting of the cache.** In every run under one configuration the total is the sum of
the images' bytes and within the cap, every image is charged for exactly what it holds, its counters
are the numbers of its filled slots, and no subtraction was cut off.  In every state whatsoever,
every operation answers (its loops end and its `expect` calls succeed), and a reservation leaves the
image it is for as it is. -/
theorem image_cache_accounting {config : CacheConfig} {st : Run}
    (h : Reachable system (UnderConfig config) st) :
    st.cache.totalBytes = (st.cache.images.map fun x => x.2.bytes).sum ∧
    st.cache.totalBytes ≤ config.cap ∧
    (∀ id image, st.cache.image id = some image → image.bytes = image.cost ∧
      image.chunksHeld = filledSlots image.chunks ∧
      image.animationChunksHeld = filledSlots image.animationChunks) ∧
    st.cache.saturated = false ∧
    (∀ (s : ImageCache) (a : Action), (s.perform a).isSome = true) ∧
    ∀ (s : ImageCache) (owner : PeerId) (cost : ℕ) (exclude : ImageId) (c : CacheConfig)
      (ties : ℕ → PeerId → ℕ), ∃ fits s' effects,
        s.tryReserve owner cost exclude c ties = some (fits, s', effects) ∧
        s'.image exclude = s.image exclude := by
  have hinv := accounts_of_reachable h
  refine ⟨hinv.total, totalBytes_of_reachable h, fun id image himage => ?_, hinv.exact,
    perform_isSome, ?_⟩
  · have hc := hinv.counted id image himage
    exact ⟨hc.bytes, hc.chunksHeld, hc.animationChunksHeld⟩
  · intro s owner cost exclude c ties
    obtain ⟨fits, s', effects, heq, -, hkeep, -⟩ :=
      tryReserve_spec (fun _ => false) s owner cost exclude c ties
    exact ⟨fits, s', effects, heq, hkeep⟩

/-- One megabyte for everybody. -/
def smallConfig : CacheConfig := ⟨true, 1, 0⟩

/-- An image of one chunk with the id of sixteen zeros. -/
def smallSpawn : Bytes :=
  opSpawn :: List.replicate 16 0 ++ [7, 0, 0] ++ leBytes 4 1 ++ leBytes 4 1 ++ leBytes 4 3 ++
    leBytes 4 1 ++ List.replicate poseBytes 0

def smallChunk : Bytes := opChunk :: List.replicate 16 0 ++ leBytes 4 0 ++ leBytes 4 3 ++ [1, 2, 3]

def smallUpload : List Action :=
  [.observe 7 smallSpawn [] [7, 8] [] false smallConfig fun _ _ => 0,
    .observe 7 smallChunk [] [7, 8] [] false smallConfig fun _ _ => 0]

theorem image_cache_accounting_upload :
    ∃ st, Reachable system (UnderConfig smallConfig) st ∧ st.cache.totalBytes = 124 ∧
      st.cache.totalBytes = (st.cache.images.map fun x => x.2.bytes).sum := by
  have hok : Admits system (UnderConfig smallConfig) ⟨empty, [], []⟩ smallUpload :=
    ⟨fun c hc => by cases hc; rfl, fun _ _ => ⟨fun c hc => by cases hc; rfl, fun _ _ => trivial⟩⟩
  have hrun : (runActions system ⟨empty, [], []⟩ smallUpload).any
      (fun st => decide (st.cache.totalBytes = 124)) = true := by
    decide +kernel
  obtain ⟨st, hst, htotal⟩ := exists_reachable_of_run _ hok (.init rfl) hrun
  exact ⟨st, hst, of_decide_eq_true htotal, (image_cache_accounting hst).1⟩

end ImageCache

end BasisRust.Server

