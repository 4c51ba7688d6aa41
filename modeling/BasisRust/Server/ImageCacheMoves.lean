import BasisRust.Server.ImageCache

/-!
# What the operations of the image cache do

Every operation is a sequence of a few kinds of moves: an image is dropped, stored, extended, moved
or offered, and its still or its animation is replayed.  `perform_moves` says so for all of them,
and that none of them fails: the eviction loops end, because each turn drops an image, and they
never drop the image that the reservation is for.  The invariants of the cache are then statements
about single moves.
-/

namespace BasisRust.Server

open Library

namespace ImageCache

/-! ### Moves -/

/-- A stored image gets one more part, at a cost. -/
inductive Grows (image : CachedImage) : CachedImage → ℕ → Prop where
  | animationSpawn (payload : Bytes) (count : ℕ) (h : image.animationSpawn = none) :
      Grows image
        { image with
          animationSpawn := some payload
          animationChunks := List.replicate count none
          bytes := image.bytes + (payload.length + count * slotBytes) }
        (payload.length + count * slotBytes)
  | chunk (index : ℕ) (payload : Bytes) (h : image.chunks[index]? = some none) :
      Grows image
        { image with
          chunks := image.chunks.set index (some payload)
          chunksHeld := image.chunksHeld + 1
          bytes := image.bytes + payload.length }
        payload.length
  | animationChunk (index : ℕ) (payload : Bytes) (h : image.animationChunks[index]? = some none)
      (hspawn : image.animationSpawn.isSome = true) :
      Grows image
        { image with
          animationChunks := image.animationChunks.set index (some payload)
          animationChunksHeld := image.animationChunksHeld + 1
          bytes := image.bytes + payload.length }
        payload.length
  | transform (payload : Bytes) (hlength : payload.length = transformBytes)
      (h : image.transform = none) :
      Grows image
        { image with transform := some payload, bytes := image.bytes + transformBytes }
        transformBytes

/-- The image after its still was requested. -/
def markStill (image : CachedImage) (peer : PeerId) : CachedImage :=
  { image with
    delivered := image.delivered.insert peer
    offered := image.offered.insert peer }

/-- The image after its animation was delivered. -/
def markAnimation (image : CachedImage) (peer : PeerId) : CachedImage :=
  { image with animationDelivered := image.animationDelivered.insert peer }

inductive Move (cap : ℕ) (permits : PeerId → Bool) (s : ImageCache) :
    List Effect → ImageCache → Prop where
  | drop {id : ImageId} {image : CachedImage} (h : s.image id = some image) :
      Move cap permits s (s.dropImage id).2 (s.dropImage id).1
  | store {id : ImageId} (owner : PeerId) (payload : Bytes) (count poseOffset : ℕ)
      (original : List PeerId) (h : s.image id = none)
      (hcost : s.totalBytes + (payload.length + count * slotBytes) ≤ cap) :
      Move cap permits s [.stored s.lifetimes original]
        { s.setImage id
            { owner
              sequence := s.sequence + 1
              offered := original.dedup
              delivered := original.dedup
              animationDelivered := original.dedup
              spawn := payload
              chunks := List.replicate count none
              chunksHeld := 0
              poseOffset
              transform := none
              animationSpawn := none
              animationChunks := []
              animationChunksHeld := 0
              replayPayloads := []
              bytes := payload.length + count * slotBytes
              lifetime := s.lifetimes } with
          sequence := s.sequence + 1
          totalBytes := s.totalBytes + (payload.length + count * slotBytes)
          lifetimes := s.lifetimes + 1 }
  | grow {id : ImageId} {image image' : CachedImage} {cost : ℕ} (h : s.image id = some image)
      (hgrows : Grows image image' cost) (hcost : s.totalBytes + cost ≤ cap) :
      Move cap permits s [] { s.setImage id image' with totalBytes := s.totalBytes + cost }
  | pose {id : ImageId} {image : CachedImage} (payload : Bytes) (h : s.image id = some image)
      (hlength : payload.length = transformBytes) (htransform : image.transform.isSome = true) :
      Move cap permits s [] (s.setImage id { image with transform := some payload })
  | offer {id : ImageId} {image : CachedImage} (peer : PeerId) {effects : List Effect}
      (h : s.image id = some image) (heffects : ∀ e ∈ effects, ∃ payload, e = .offer peer payload) :
      Move cap permits s effects
        (s.setImage id { image with offered := image.offered.insert peer })
  | notice (owner : PeerId) (id : ImageId) (held : Bool) :
      Move cap permits s [.cacheState owner id held] s
  | still {id : ImageId} {image : CachedImage} {peer : PeerId} (h : s.image id = some image)
      (hstill : image.stillComplete = true) (howner : image.owner ≠ peer)
      (hnew : peer ∉ image.delivered) :
      Move cap permits s
        [.replay ⟨peer, image.owner, false, (s.heap.allocate image.stillPayloads).2,
          markStill image peer⟩]
        { s.setImage id (register (markStill image peer) (s.heap.allocate image.stillPayloads).1
            (s.heap.allocate image.stillPayloads).2) with
          heap := (s.heap.allocate image.stillPayloads).1 }
  | both {id : ImageId} {image : CachedImage} {peer : PeerId} {heap₁ heap₂ : PayloadHeap}
      {still animation : List (ℕ × Bytes)} (h : s.image id = some image)
      (hstill : image.stillComplete = true) (howner : image.owner ≠ peer)
      (hnew : peer ∉ image.delivered) (hanimation : image.animationComplete = true)
      (hanimationNew : peer ∉ image.animationDelivered) (hpermit : permits peer = true)
      (h₁ : s.heap.allocate image.stillPayloads = (heap₁, still))
      (h₂ : heap₁.allocate image.animationPayloads = (heap₂, animation)) :
      Move cap permits s
        [.replay ⟨peer, image.owner, false, still, markAnimation (markStill image peer) peer⟩,
          .replay ⟨peer, image.owner, true, animation, markAnimation (markStill image peer) peer⟩]
        { s.setImage id (register (markAnimation (markStill image peer) peer) heap₂
            (still ++ animation)) with
          heap := heap₂ }
  | animation {id : ImageId} {image : CachedImage} {peer : PeerId} (h : s.image id = some image)
      (hstill : image.stillComplete = true) (hanimation : image.animationComplete = true)
      (howner : image.owner ≠ peer) (hdelivered : peer ∈ image.delivered)
      (hnew : peer ∉ image.animationDelivered) (hpermit : permits peer = true) :
      Move cap permits s
        [.replay ⟨peer, image.owner, true, (s.heap.allocate image.animationPayloads).2,
          markAnimation image peer⟩]
        { s.setImage id (register (markAnimation image peer)
            (s.heap.allocate image.animationPayloads).1
            (s.heap.allocate image.animationPayloads).2) with
          heap := (s.heap.allocate image.animationPayloads).1 }

/-- A sequence of moves with all their effects. -/
inductive Moves (cap : ℕ) (permits : PeerId → Bool) :
    ImageCache → List Effect → ImageCache → Prop where
  | nil (s : ImageCache) : Moves cap permits s [] s
  | cons {s₁ s₂ s₃ : ImageCache} {effects₁ effects₂ : List Effect}
      (h₁ : Move cap permits s₁ effects₁ s₂) (h₂ : Moves cap permits s₂ effects₂ s₃) :
      Moves cap permits s₁ (effects₁ ++ effects₂) s₃

section Moves

variable {cap : ℕ} {permits : PeerId → Bool} {s s' s₁ s₂ s₃ : ImageCache}
  {effects effects₁ effects₂ : List Effect} {id exclude : ImageId} {image : CachedImage}
  {peer : PeerId}

theorem Move.moves (h : Move cap permits s effects s') : Moves cap permits s effects s' := by
  have hcons := Moves.cons h (.nil s')
  rwa [List.append_nil] at hcons

theorem Moves.trans (h₁ : Moves cap permits s₁ effects₁ s₂)
    (h₂ : Moves cap permits s₂ effects₂ s₃) : Moves cap permits s₁ (effects₁ ++ effects₂) s₃ := by
  induction h₁ with
  | nil s => exact h₂
  | cons h _ ih =>
    rw [List.append_assoc]
    exact .cons h (ih h₂)

/-- The invariant rule for sequences of moves, with the effects appended to a history. -/
theorem Moves.invariant {ι : Type} (Inv : ImageCache → List ι → Prop) (f : Effect → ι)
    (hmove : ∀ s effects s' log, Move cap permits s effects s' → Inv s log →
      Inv s' (log ++ effects.map f))
    (h : Moves cap permits s effects s') {log : List ι} (hs : Inv s log) :
    Inv s' (log ++ effects.map f) := by
  induction h generalizing log with
  | nil s =>
    rw [List.map_nil, List.append_nil]
    exact hs
  | cons h _ ih =>
    rw [List.map_append, ← List.append_assoc]
    exact ih (hmove _ _ _ _ h hs)

/-- A loop over items is a sequence of moves when each of its turns is. -/
theorem forEach_moves {ι : Type} {f : ImageCache → ι → ImageCache × List Effect} {items : List ι}
    (hf : ∀ s, ∀ i ∈ items, Moves cap permits s (f s i).2 (f s i).1) (s : ImageCache) :
    Moves cap permits s (forEach f items s).2 (forEach f items s).1 := by
  induction items generalizing s with
  | nil => exact .nil s
  | cons i items ih =>
    rw [forEach]
    exact (hf s i (.head _)).trans
      (ih (fun s j hj => hf s j (.tail _ hj)) _)

/-! ### Eviction -/

theorem image_dropImage (s : ImageCache) (id id' : ImageId) :
    (s.dropImage id).1.image id' = if id' = id then none else s.image id' := by
  rw [dropImage]
  cases h : s.image id with
  | none =>
    by_cases hid : id' = id
    · rw [if_pos hid, hid, h]
    · rw [if_neg hid]
  | some image =>
    by_cases hid : id' = id
    · simp [hid, ImageCache.image]
    · simp [hid, ImageCache.image, assocGet_erase_of_ne hid]

theorem dropImage_length {s : ImageCache} (h : s.image id = some image) :
    (s.dropImage id).1.images.length < s.images.length := by
  rw [dropImage, h]
  have hmem : (id, image) ∈ s.images := mem_keys_of_assocGet h
  exact List.length_filter_lt_length_iff_exists.mpr ⟨_, hmem, by simp⟩

theorem oldestOwned_spec {s : ImageCache} {owner : PeerId}
    (h : s.oldestOwned owner exclude = some id) :
    (∃ image, s.image id = some image) ∧ id ≠ exclude := by
  rw [oldestOwned, Option.map_eq_some_iff] at h
  obtain ⟨x, hx, rfl⟩ := h
  have hmem := List.argmin_mem hx
  rw [List.mem_filter] at hmem
  have hne : x.1 ≠ exclude := by
    have := hmem.2
    simp only [decide_eq_true_eq] at this
    exact this.2
  exact ⟨assocGet_isSome_of_mem hmem.1, hne⟩

theorem oldestOfHeaviestOwner_spec {s : ImageCache} {ties : PeerId → ℕ}
    (h : s.oldestOfHeaviestOwner exclude ties = some id) :
    (∃ image, s.image id = some image) ∧ id ≠ exclude := by
  rw [oldestOfHeaviestOwner] at h
  split at h
  · cases h
  · exact oldestOwned_spec h

/-- **An eviction loop ends**: with one turn more than there are images it has a result, it has
only dropped images other than the excluded one, and a success means the limit is met. -/
theorem evictWhile_spec (cap : ℕ) (permits : PeerId → Bool) (exceeds : ImageCache → Bool)
    (victim : ImageCache → Option ImageId) (exclude : ImageId)
    (hvictim : ∀ s id, victim s = some id → (∃ image, s.image id = some image) ∧ id ≠ exclude)
    (fuel : ℕ) (s : ImageCache) (hfuel : s.images.length < fuel) :
    ∃ fits s' effects, evictWhile exceeds victim fuel s = some (fits, s', effects) ∧
      Moves cap permits s effects s' ∧ s'.image exclude = s.image exclude ∧
      (fits = true → exceeds s' = false) := by
  induction fuel generalizing s with
  | zero => omega
  | succ fuel ih =>
    rw [evictWhile]
    cases hexceeds : exceeds s with
    | false => exact ⟨true, s, [], rfl, .nil s, rfl, fun _ => hexceeds⟩
    | true =>
      cases hv : victim s with
      | none => exact ⟨false, s, [], rfl, .nil s, rfl, nofun⟩
      | some id =>
        obtain ⟨⟨image, himage⟩, hne⟩ := hvictim s id hv
        have hlt := dropImage_length himage
        obtain ⟨fits, s', effects, heq, hmoves, hkeep, hmet⟩ := ih (s.dropImage id).1 (by omega)
        refine ⟨fits, s', (s.dropImage id).2 ++ effects, ?_, .cons (.drop himage) hmoves, ?_, hmet⟩
        · simp [heq]
        · rw [hkeep, image_dropImage, if_neg (Ne.symm hne)]

theorem cap_lt (config : CacheConfig) : config.cap < u64Max := by
  rw [CacheConfig.cap, megabytes]
  have hlt := config.imageCacheMaxMegabytes.isLt
  split_ifs
  · simp only [satMul, bytesPerMegabyte, u64Max]
    omega
  · simp [u64Max]

theorem satAdd_le_iff {a b limit : ℕ} (h : limit < u64Max) :
    satAdd a b ≤ limit ↔ a + b ≤ limit := by
  rw [satAdd]
  omega

/-- **A reservation** always answers, drops only other images than the one it is for, and on
success leaves room for the new bytes. -/
theorem tryReserve_spec (permits : PeerId → Bool) (s : ImageCache) (owner : PeerId) (cost : ℕ)
    (exclude : ImageId) (config : CacheConfig) (ties : ℕ → PeerId → ℕ) :
    ∃ fits s' effects, s.tryReserve owner cost exclude config ties = some (fits, s', effects) ∧
      Moves config.cap permits s effects s' ∧ s'.image exclude = s.image exclude ∧
      (fits = true → s'.totalBytes + cost ≤ config.cap) := by
  have hno : ∀ s : ImageCache, ∃ fits s' effects,
      some (false, s, ([] : List Effect)) = some (fits, s', effects) ∧
        Moves config.cap permits s effects s' ∧ s'.image exclude = s.image exclude ∧
        (fits = true → s'.totalBytes + cost ≤ config.cap) :=
    fun s => ⟨false, s, [], rfl, .nil s, rfl, nofun⟩
  rw [tryReserve]
  split_ifs
  · exact hno s
  dsimp only
  split_ifs
  · exact hno s
  obtain ⟨fits₁, s₁, effects₁, heq₁, hmoves₁, hkeep₁, -⟩ :=
    evictWhile_spec config.cap permits
      (fun s' => decide (s.ownerShare owner config.cap config < satAdd (s'.ownerBytes owner) cost))
      (fun s => s.oldestOwned owner exclude) exclude (fun _ _ h => oldestOwned_spec h)
      (s.images.length + 1) s (Nat.lt_succ_self _)
  rw [heq₁]
  cases fits₁ with
  | false => exact ⟨false, s₁, effects₁, rfl, hmoves₁, hkeep₁, nofun⟩
  | true =>
    obtain ⟨fits₂, s₂, effects₂, heq₂, hmoves₂, hkeep₂, hmet⟩ :=
      evictWhile_spec config.cap permits
        (fun s => decide (config.cap < satAdd s.totalBytes cost))
        (fun s => s.oldestOfHeaviestOwner exclude (ties s.images.length)) exclude
        (fun _ _ h => oldestOfHeaviestOwner_spec h) (s₁.images.length + 1) s₁ (Nat.lt_succ_self _)
    refine ⟨fits₂, s₂, effects₁ ++ effects₂, ?_, hmoves₁.trans hmoves₂, hkeep₂.trans hkeep₁, ?_⟩
    · simp [heq₂]
    · intro hfits
      have hle := hmet hfits
      rw [decide_eq_false_iff_not, not_lt] at hle
      exact (satAdd_le_iff (cap_lt config)).mp hle

/-! ### Deliveries -/

theorem markOffered_moves (s : ImageCache) (id : ImageId) (peer : PeerId) :
    Moves cap permits s (s.markOffered id peer).2 (s.markOffered id peer).1 := by
  rw [markOffered]
  cases h : s.image id with
  | none => exact .nil s
  | some image =>
    dsimp only
    split_ifs
    · exact .nil s
    · refine (Move.offer peer h ?_).moves
      cases image.buildSpawn with
      | nil | cons => simp

theorem deliverAnimation_moves (s : ImageCache) (id : ImageId) (hpermit : permits peer = true) :
    Moves cap permits s (s.deliverAnimation id peer).2 (s.deliverAnimation id peer).1 := by
  rw [deliverAnimation]
  cases h : s.image id with
  | none => exact .nil s
  | some image =>
    dsimp only
    split_ifs with hguard
    · exact .nil s
    · simp only [Bool.or_eq_true, Bool.not_eq_true', decide_eq_true_eq, not_or,
        Bool.not_eq_false, not_not] at hguard
      obtain ⟨⟨⟨⟨hstill, hanimation⟩, howner⟩, hdelivered⟩, hnew⟩ := hguard
      exact (Move.animation h hstill hanimation (Ne.symm howner) hdelivered hnew hpermit).moves

theorem request_moves (s : ImageCache) (payload : Bytes) {allowAnimation : Bool}
    (config : CacheConfig) (hpermit : allowAnimation = true → permits peer = true) :
    Moves cap permits s (s.request peer payload allowAnimation config).2
      (s.request peer payload allowAnimation config).1 := by
  rw [request]
  split_ifs
  · exact .nil s
  cases readId payload with
  | none => exact .nil s
  | some id =>
    dsimp only
    cases h : s.image id with
    | none => exact .nil s
    | some image =>
      dsimp only
      split_ifs with hguard hanim
      · exact .nil s
      · simp only [Bool.or_eq_true, Bool.not_eq_true', decide_eq_true_eq, not_or,
          Bool.not_eq_false] at hguard
        simp only [Bool.and_eq_true, decide_eq_true_eq] at hanim
        obtain ⟨⟨hstill, howner⟩, hnew⟩ := hguard
        exact (Move.both h hstill howner hnew hanim.1.2 hanim.2 (hpermit hanim.1.1) rfl rfl).moves
      · simp only [Bool.or_eq_true, Bool.not_eq_true', decide_eq_true_eq, not_or,
          Bool.not_eq_false] at hguard
        obtain ⟨⟨hstill, howner⟩, hnew⟩ := hguard
        exact (Move.still h hstill howner hnew).moves

theorem permits_of_animationRecipients {allowed : List PeerId}
    (h : peer ∈ animationRecipients image allowed) : allowed.contains peer = true := by
  rw [animationRecipients, List.mem_filter] at h
  simp only [Bool.and_eq_true] at h
  exact h.2.1.2

theorem resumeAnimations_moves (s : ImageCache) (allowedPeers : List PeerId) (config : CacheConfig)
    (hpermit : ∀ peer, allowedPeers.contains peer = true → permits peer = true) :
    Moves cap permits s (s.resumeAnimations allowedPeers config).2
      (s.resumeAnimations allowedPeers config).1 := by
  rw [resumeAnimations]
  split_ifs
  · exact .nil s
  · refine forEach_moves (fun s c hc => deliverAnimation_moves s c.1 (hpermit c.2 ?_)) s
    obtain ⟨x, -, hx⟩ := List.mem_flatMap.mp hc
    split_ifs at hx
    · obtain ⟨peer, hpeer, rfl⟩ := List.mem_map.mp hx
      exact permits_of_animationRecipients hpeer
    · cases hx

theorem offerPeer_moves (s : ImageCache) (peer : PeerId) (config : CacheConfig) :
    Moves cap permits s (s.offerPeer peer config).2 (s.offerPeer peer config).1 := by
  rw [offerPeer]
  split_ifs
  · exact .nil s
  · exact forEach_moves (fun s x _ => markOffered_moves s x.1 peer) s

variable {animationAllowed : List PeerId}

theorem announce_moves (s : ImageCache) (id : ImageId) (owner : PeerId) (animation : Bool)
    (image : CachedImage) (connected : List PeerId)
    (hpermit : ∀ peer, animationAllowed.contains peer = true → permits peer = true) :
    Moves cap permits s (s.announce id owner animation image connected animationAllowed).2
      (s.announce id owner animation image connected animationAllowed).1 := by
  rw [announce]
  split_ifs
  · exact Moves.cons (.notice owner id true)
      (forEach_moves (fun s peer _ => markOffered_moves s id peer) s)
  · exact forEach_moves (fun s peer hpeer =>
      deliverAnimation_moves s id (hpermit peer (permits_of_animationRecipients hpeer))) s
  · exact .nil s

/-! ### Uploads -/

/-- The operation answers, by a sequence of moves. -/
def Answers (cap : ℕ) (permits : PeerId → Bool) (s : ImageCache)
    (o : Option (ImageCache × List Effect)) : Prop :=
  ∃ s' effects, o = some (s', effects) ∧ Moves cap permits s effects s'

theorem Answers.nothing (s : ImageCache) : Answers cap permits s (some (s, [])) :=
  ⟨s, [], rfl, .nil s⟩

theorem Answers.of_moves {r : ImageCache × List Effect} (h : Moves cap permits s r.2 r.1) :
    Answers cap permits s (some r) :=
  ⟨r.1, r.2, rfl, h⟩

/-- An operation that reserves and then goes on: without room it has only evicted. -/
theorem Answers.reserve {owner : PeerId} {cost : ℕ} {config : CacheConfig} {ties : ℕ → PeerId → ℕ}
    {f : Bool × ImageCache × List Effect → Option (ImageCache × List Effect)}
    (hno : ∀ s' effects, f (false, s', effects) = some (s', effects))
    (hf : ∀ s' effects, s'.image exclude = s.image exclude →
      s'.totalBytes + cost ≤ config.cap →
      ∃ s'' effects', f (true, s', effects) = some (s'', effects ++ effects') ∧
        Moves config.cap permits s' effects' s'') :
    Answers config.cap permits s (s.tryReserve owner cost exclude config ties >>= f) := by
  obtain ⟨fits, s₁, effects, heq, hmoves, hkeep, hroom⟩ :=
    tryReserve_spec permits s owner cost exclude config ties
  rw [heq]
  cases fits with
  | false => exact ⟨s₁, effects, hno s₁ effects, hmoves⟩
  | true =>
    obtain ⟨s₂, effects', hf', hmoves'⟩ := hf s₁ effects hkeep (hroom rfl)
    exact ⟨s₂, effects ++ effects', hf', hmoves.trans hmoves'⟩

theorem checked_cost {length count cost : ℕ}
    (h : (checkedMul count slotBytes).bind (checkedAdd length) = some cost) :
    cost = length + count * slotBytes := by
  rw [checkedMul] at h
  split_ifs at h
  · rw [Option.bind_some, checkedAdd] at h
    split_ifs at h
    cases h
    rfl
  · cases h

theorem observeSpawn_answers (s : ImageCache) (owner : PeerId) (payload : Bytes)
    (recipients connected : List PeerId) (config : CacheConfig) (ties : ℕ → PeerId → ℕ) :
    Answers config.cap permits s
      (s.observeSpawn owner payload recipients connected config ties) := by
  rw [observeSpawn]
  split
  · rename_i id chunkCount poseOffset _ _
    by_cases hguard : chunkCount ≤ 0 ∨ payload.length < poseOffset + poseBytes ∨
        (s.image id).isSome = true
    · rw [if_pos hguard]
      exact .nothing s
    rw [if_neg hguard]
    dsimp only
    split
    · exact .nothing s
    · rename_i cost hcost
      have hcost := checked_cost hcost
      subst hcost
      refine Answers.reserve (fun _ _ => rfl) fun s' effects hkeep hroom => ?_
      have hfree : s'.image id = none := by
        rw [hkeep]
        simpa using (not_or.mp (not_or.mp hguard).2).2
      exact ⟨_, _, rfl, (Move.store owner payload chunkCount.toNat poseOffset _ hfree hroom).moves⟩
  · exact .nothing s

theorem observeAnimationSpawn_answers (s : ImageCache) (owner : PeerId) (payload : Bytes)
    (config : CacheConfig) (ties : ℕ → PeerId → ℕ) :
    Answers config.cap permits s (s.observeAnimationSpawn owner payload config ties) := by
  rw [observeAnimationSpawn]
  split_ifs
  · exact .nothing s
  split
  · rename_i id count _ _
    split_ifs
    · exact .nothing s
    cases himage : s.image id with
    | none => exact .nothing s
    | some image =>
      dsimp only
      split_ifs with hguard
      · exact .nothing s
      split
      · exact .nothing s
      · rename_i cost hcost
        have hcost := checked_cost hcost
        subst hcost
        refine Answers.reserve (fun _ _ => rfl) fun s' effects hkeep hroom => ?_
        rw [himage] at hkeep
        have hnone : image.animationSpawn = none := by
          simp only [Bool.or_eq_true, not_or, Bool.not_eq_true, Option.isSome_eq_false_iff,
            Option.isNone_iff_eq_none] at hguard
          exact hguard.2
        refine ⟨_, [], ?_,
          (Move.grow hkeep (.animationSpawn payload count.toNat hnone) hroom).moves⟩
        simp [hkeep]
  · exact .nothing s

theorem fillSlot_of_empty {slots : List (Option Bytes)} {index : ℕ} (payload : Bytes)
    (h : slots[index]? = some none) :
    fillSlot slots index payload = some (slots.set index (some payload)) := by
  obtain ⟨hlt, -⟩ := List.getElem?_eq_some_iff.mp h
  rw [fillSlot, if_pos hlt]

theorem storeChunk_grows {animation : Bool} {index : ℕ} (payload : Bytes)
    (hslot : (if animation then image.animationChunks else image.chunks)[index]? = some none)
    (hspawn : animation = true → image.animationSpawn.isSome = true) :
    ∃ image', storeChunk image animation index payload = some image' ∧
      Grows image image' payload.length := by
  cases animation with
  | true =>
    have hslot' : image.animationChunks[index]? = some none := hslot
    refine ⟨_, ?_, .animationChunk index payload hslot' (hspawn rfl)⟩
    rw [storeChunk, if_pos rfl, fillSlot_of_empty payload hslot']
    rfl
  | false =>
    have hslot' : image.chunks[index]? = some none := hslot
    refine ⟨_, ?_, .chunk index payload hslot'⟩
    rw [storeChunk, if_neg (by decide), fillSlot_of_empty payload hslot']
    rfl

theorem observeChunk_answers (s : ImageCache) (owner : PeerId) (payload : Bytes) (animation : Bool)
    (connected : List PeerId) (config : CacheConfig) (ties : ℕ → PeerId → ℕ)
    (hpermit : ∀ peer, animationAllowed.contains peer = true → permits peer = true) :
    Answers config.cap permits s
      (s.observeChunk owner payload animation connected animationAllowed config ties) := by
  rw [observeChunk]
  by_cases hlength : payload.length < headerBytes + 8
  · rw [if_pos hlength]
    exact .nothing s
  rw [if_neg hlength]
  split
  · rename_i id index _ _
    by_cases hindex : index < 0
    · rw [if_pos hindex]
      exact .nothing s
    rw [if_neg hindex]
    cases himage : s.image id with
    | none => exact .nothing s
    | some image =>
      dsimp only
      by_cases hguard : (image.owner ≠ owner ∨
          (if animation then image.animationChunks else image.chunks)[index.toNat]? ≠ some none) ∨
          (animation = true ∧ image.animationSpawn.isNone = true)
      · rw [if_pos (by simpa using hguard)]
        exact .nothing s
      · rw [if_neg (by simpa using hguard)]
        simp only [not_or, not_not] at hguard
        obtain ⟨⟨-, hslot⟩, hspawn⟩ := hguard
        have hsome : animation = true → image.animationSpawn.isSome = true := by
          intro hanim
          cases hs : image.animationSpawn with
          | some x => rfl
          | none => exact absurd ⟨hanim, by rw [hs]; rfl⟩ hspawn
        obtain ⟨image', hstore, hgrows⟩ := storeChunk_grows payload hslot hsome
        refine Answers.reserve (fun _ _ => rfl) fun s' effects hkeep hroom => ?_
        rw [himage] at hkeep
        refine ⟨_, _, ?_, Moves.cons (Move.grow hkeep hgrows hroom)
          (announce_moves _ id owner animation image' connected hpermit)⟩
        simp [hkeep, hstore]
  · exact .nothing s

theorem observeTransform_answers (s : ImageCache) (payload : Bytes) (config : CacheConfig)
    (ties : ℕ → PeerId → ℕ) :
    Answers config.cap permits s (s.observeTransform payload config ties) := by
  rw [observeTransform]
  split_ifs with hlength
  · exact .nothing s
  rw [ne_eq, not_not] at hlength
  cases readId payload with
  | none => exact .nothing s
  | some id =>
    dsimp only
    cases himage : s.image id with
    | none => exact .nothing s
    | some image =>
      dsimp only
      split_ifs with hfirst
      · refine Answers.reserve (fun _ _ => rfl) fun s' effects hkeep hroom => ?_
        rw [himage] at hkeep
        have hnone : image.transform = none := Option.isNone_iff_eq_none.mp hfirst
        refine ⟨_, [], ?_, (Move.grow hkeep (.transform payload hlength hnone) hroom).moves⟩
        simp [hkeep]
      · refine .of_moves (Move.pose payload himage hlength ?_).moves
        cases ht : image.transform with
        | some x => rfl
        | none => exact absurd (by rw [ht]; rfl) hfirst

theorem removeImage_moves (s : ImageCache) (id : ImageId) (requester : PeerId) (ownerOnly : Bool) :
    Moves cap permits s (s.removeImage id requester ownerOnly).2
      (s.removeImage id requester ownerOnly).1 := by
  rw [removeImage]
  split_ifs with h
  · cases himage : s.image id with
    | none =>
      rw [himage] at h
      cases h
    | some image => exact (Move.drop himage).moves
  · exact .nil s

theorem dropImage_moves (s : ImageCache) (id : ImageId) :
    Moves cap permits s (s.dropImage id).2 (s.dropImage id).1 := by
  cases himage : s.image id with
  | none =>
    rw [dropImage, himage]
    exact .nil s
  | some image => exact (Move.drop himage).moves

theorem observe_answers (s : ImageCache) (owner : PeerId) (payload : Bytes)
    (recipients connected : List PeerId) {allowAnimation : Bool}
    (config : CacheConfig) (ties : ℕ → PeerId → ℕ)
    (howner : allowAnimation = true → permits owner = true)
    (hpermit : ∀ peer, animationAllowed.contains peer = true → permits peer = true) :
    Answers config.cap permits s (s.observe owner payload recipients connected animationAllowed
      allowAnimation config ties) := by
  rw [observe]
  split_ifs
  · exact .nothing s
  dsimp only
  split_ifs
  · exact observeSpawn_answers s owner payload recipients connected config ties
  · exact observeChunk_answers s owner payload false connected config ties hpermit
  · exact observeTransform_answers s payload config ties
  · exact .of_moves (request_moves s payload config howner)
  · exact observeAnimationSpawn_answers s owner payload config ties
  · exact observeChunk_answers s owner payload true connected config ties hpermit
  · split
    · exact .nothing s
    · exact .of_moves (removeImage_moves s _ owner true)
  · exact .nothing s

end Moves

/-! ### All operations -/

/-- The operation is not a departure, a reset or the end of a payload. -/
def Action.config? : Action → Option CacheConfig
  | .observe _ _ _ _ _ _ config _ => some config
  | .offerPeer _ config => some config
  | .request _ _ _ config => some config
  | .resumeAnimations _ config => some config
  | _ => none

/-- **Uploads and deliveries answer by a sequence of moves.** -/
theorem perform_moves (s : ImageCache) {a : Action} {config : CacheConfig}
    (h : a.config? = some config) : Answers config.cap a.permits s (s.perform a) := by
  cases a with
  | observe owner payload recipients connected animationAllowed allowAnimation config' ties =>
    cases h
    refine observe_answers s owner payload recipients connected _ ties (fun hallow => ?_)
      fun peer hpeer => ?_
    · simp [Action.permits, hallow]
    · simp only [Action.permits, hpeer, Bool.or_true]
  | offerPeer peer config' =>
    cases h
    exact .of_moves (offerPeer_moves s peer _)
  | request peer payload allowAnimation config' =>
    cases h
    exact .of_moves (request_moves s payload _ fun hallow => by simp [Action.permits, hallow])
  | resumeAnimations allowedPeers config' =>
    cases h
    exact .of_moves (resumeAnimations_moves s allowedPeers _ fun peer hpeer => hpeer)
  | removePlayer | reset | release => cases h

/-- A departure drops the images of the peer and then forgets it everywhere. -/
theorem removePlayer_moves (s : ImageCache) (peer : PeerId) (cap : ℕ) (permits : PeerId → Bool) :
    ∃ s', Moves cap permits s (s.removePlayer peer).2 s' ∧ (s.removePlayer peer).1 =
      { s' with images := s'.images.map fun x => (x.1, forgetPeer peer x.2) } :=
  ⟨_, forEach_moves (fun s id _ => dropImage_moves s id) s, rfl⟩

end ImageCache

end BasisRust.Server
