import BasisRust.Server.ImageCacheAccounting
import Mathlib.Data.List.Dedup

/-!
# Who was sent which image

A replay is known by its key: the lifetime of the image, the peer, and the stay of the peer, which
is the number of departures of that id before it.  `DeliveryInv` ties the three sets of an image to
the history of its lifetime and of the current stays: whoever was sent the still or the animation,
or was sent the image at first, is in the sets, and whoever has the still but not the animation was
sent the still by the cache.
-/

namespace BasisRust.Server

open Library

namespace ImageCache

/-! ### Keys -/

/-- The lifetime of an image, a peer and its stay. -/
abbrev Key := ℕ × PeerId × ℕ

def Entry.key (e : Entry) (r : Replay) : Key :=
  (r.source.lifetime, r.recipient, e.departures.count r.recipient)

/-- The key of a replay of the still or of the animation. -/
def Entry.replayKey (animation : Bool) (e : Entry) : Option Key :=
  match e.effect with
  | .replay r => if r.animation = animation then some (e.key r) else none
  | _ => none

def keys (animation : Bool) (log : List Entry) : List Key :=
  log.filterMap (Entry.replayKey animation)

/-- The peer was one of those the image was first sent to, in this stay. -/
def Original (log : List Entry) (k : Key) : Prop :=
  ∃ e ∈ log, ∃ original, e.effect = .stored k.1 original ∧ k.2.1 ∈ original ∧
    e.departures.count k.2.1 = k.2.2

/-- An effect that neither stores nor replays an image. -/
def Effect.Quiet (e : Effect) : Prop :=
  (∀ lifetime original, e ≠ .stored lifetime original) ∧ ∀ r, e ≠ .replay r

theorem keys_append (animation : Bool) (log es : List Entry) :
    keys animation (log ++ es) = keys animation log ++ keys animation es :=
  List.filterMap_append

theorem replayKey_quiet {e : Entry} (h : Effect.Quiet e.effect) (animation : Bool) :
    e.replayKey animation = none := by
  rw [Entry.replayKey]
  split
  · rename_i r hr
    exact absurd hr (h.2 r)
  · rfl

theorem keys_quiet {es : List Entry} (h : ∀ e ∈ es, Effect.Quiet e.effect) (animation : Bool) :
    keys animation es = [] :=
  List.filterMap_eq_nil_iff.mpr fun e he => replayKey_quiet (h e he) animation

theorem original_append_quiet {log es : List Entry}
    (h : ∀ e ∈ es, Effect.Quiet e.effect) (k : Key) :
    Original (log ++ es) k ↔ Original log k := by
  constructor
  · rintro ⟨e, he, original, heffect, hrest⟩
    rcases List.mem_append.mp he with hlog | hes
    · exact ⟨e, hlog, original, heffect, hrest⟩
    · exact absurd heffect ((h e hes).1 _ _)
  · rintro ⟨e, he, hrest⟩
    exact ⟨e, List.mem_append_left _ he, hrest⟩

theorem original_append_replay {log : List Entry} {r : Replay} {d : List PeerId}
    {permits : PeerId → Bool} (k : Key) :
    Original (log ++ [⟨.replay r, d, permits⟩]) k ↔ Original log k := by
  constructor
  · rintro ⟨e, he, original, heffect, hrest⟩
    rcases List.mem_append.mp he with hlog | hes
    · exact ⟨e, hlog, original, heffect, hrest⟩
    · rw [List.mem_singleton] at hes
      subst hes
      cases heffect
  · rintro ⟨e, he, hrest⟩
    exact ⟨e, List.mem_append_left _ he, hrest⟩

/-! ### Contents of a replay -/

/-- **What a replay consists of**: the spawn, the transform if there is one, and all chunks in
order; an animation likewise, and only for a peer the operation permits. -/
structure Sound (permitted : PeerId → Bool) (r : Replay) : Prop where
  owner : r.owner = r.source.owner
  recipient : r.recipient ≠ r.source.owner
  still : ∃ chunks : List Bytes, r.source.chunks = chunks.map some ∧ (r.animation = false →
    r.payloads.map Prod.snd = r.source.buildSpawn :: r.source.transform.toList ++ chunks)
  animation : r.animation = true → permitted r.recipient = true ∧
    ∃ (spawn : Bytes) (chunks : List Bytes), r.source.animationSpawn = some spawn ∧
      r.source.animationChunks = chunks.map some ∧ r.payloads.map Prod.snd = spawn :: chunks

theorem slots_complete {slots : List (Option Bytes)} (h : filledSlots slots = slots.length) :
    slots = (slots.filterMap id).map some := by
  have hall : ∀ slot ∈ slots, slot.isSome = true := List.countP_eq_length.mp h
  induction slots with
  | nil => rfl
  | cons slot slots ih =>
    have hslot := hall slot (.head _)
    have hrest : ∀ slot ∈ slots, slot.isSome = true := fun x hx =>
      hall x (.tail _ hx)
    obtain ⟨bytes, rfl⟩ := Option.isSome_iff_exists.mp hslot
    have htail := ih (List.countP_eq_length.mpr hrest) hrest
    have hcons : (some bytes :: slots).filterMap id = bytes :: slots.filterMap id := rfl
    rw [hcons, List.map_cons, ← htail]

theorem chunks_complete {image : CachedImage} (h : image.Counted)
    (hstill : image.stillComplete = true) :
    image.chunks = (image.chunks.filterMap id).map some := by
  refine slots_complete ?_
  rw [← h.chunksHeld]
  exact of_decide_eq_true hstill

theorem animation_complete {image : CachedImage} (h : image.Counted)
    (hanimation : image.animationComplete = true) :
    ∃ spawn, image.animationSpawn = some spawn ∧
      image.animationChunks = (image.animationChunks.filterMap id).map some := by
  rw [CachedImage.animationComplete, Bool.and_eq_true] at hanimation
  obtain ⟨spawn, hspawn⟩ := Option.isSome_iff_exists.mp hanimation.1
  refine ⟨spawn, hspawn, slots_complete ?_⟩
  rw [← h.animationChunksHeld]
  exact of_decide_eq_true hanimation.2

theorem allocate_payloads (heap : PayloadHeap) (payloads : List Bytes) :
    (heap.allocate payloads).2.map Prod.snd = payloads := by
  rw [PayloadHeap.allocate]
  exact List.map_snd_zip (by simp)

theorem sound_still {image : CachedImage} (source : CachedImage) {peer : PeerId}
    (permits : PeerId → Bool) (heap : PayloadHeap) (h : image.Counted)
    (hstill : image.stillComplete = true)
    (howner : image.owner ≠ peer) (hsource : source.owner = image.owner)
    (hchunks : source.chunks = image.chunks) (hspawn : source.buildSpawn = image.buildSpawn)
    (htransform : source.transform = image.transform) :
    Sound permits ⟨peer, image.owner, false, (heap.allocate image.stillPayloads).2, source⟩ where
  owner := hsource.symm
  recipient hpeer := howner (hpeer.trans hsource).symm
  still := by
    refine ⟨image.chunks.filterMap id, hchunks.trans (chunks_complete h hstill), fun _ => ?_⟩
    rw [allocate_payloads, CachedImage.stillPayloads, hspawn, htransform]
  animation := nofun

theorem sound_animation {image : CachedImage} (source : CachedImage) {peer : PeerId}
    {permits : PeerId → Bool} (heap : PayloadHeap) (h : image.Counted)
    (hstill : image.stillComplete = true)
    (hanimation : image.animationComplete = true) (howner : image.owner ≠ peer)
    (hpermit : permits peer = true) (hsource : source.owner = image.owner)
    (hchunks : source.chunks = image.chunks) (hspawn : source.animationSpawn = image.animationSpawn)
    (hslots : source.animationChunks = image.animationChunks) :
    Sound permits
      ⟨peer, image.owner, true, (heap.allocate image.animationPayloads).2, source⟩ where
  owner := hsource.symm
  recipient hpeer := howner (hpeer.trans hsource).symm
  still := ⟨_, hchunks.trans (chunks_complete h hstill), nofun⟩
  animation _ := by
    obtain ⟨spawn, hsome, hfull⟩ := animation_complete h hanimation
    refine ⟨hpermit, spawn, image.animationChunks.filterMap id, hspawn.trans hsome,
      hslots.trans hfull, ?_⟩
    rw [allocate_payloads, CachedImage.animationPayloads, hsome]
    rfl

/-! ### The invariant -/

/-- The images by id, the number of lifetimes so far, the departures and the history. -/
structure DeliveryInv (img : ImageId → Option CachedImage) (lifetimes : ℕ) (d : List PeerId)
    (log : List Entry) : Prop where
  lifetime_lt : ∀ id image, img id = some image → image.lifetime < lifetimes
  lifetime_inj : ∀ id id' image image', img id = some image → img id' = some image' →
    image.lifetime = image'.lifetime → id = id'
  keys_lifetime : ∀ animation, ∀ k ∈ keys animation log, k.1 < lifetimes
  original_lifetime : ∀ k, Original log k → k.1 < lifetimes
  stays : ∀ e ∈ log, ∀ p, e.departures.count p ≤ d.count p
  still_marked : ∀ id image p, img id = some image →
    (image.lifetime, p, d.count p) ∈ keys false log → p ∈ image.delivered
  animation_marked : ∀ id image p, img id = some image →
    (image.lifetime, p, d.count p) ∈ keys true log → p ∈ image.animationDelivered
  original_marked : ∀ id image p, img id = some image →
    Original log (image.lifetime, p, d.count p) → p ∈ image.delivered ∧ p ∈ image.animationDelivered
  still_sent : ∀ id image p, img id = some image → p ∈ image.delivered →
    p ∉ image.animationDelivered → (image.lifetime, p, d.count p) ∈ keys false log
  nodup : ∀ animation, (keys animation log).Nodup
  ordered : ∀ n e k, log[n]? = some e → e.replayKey true = some k → k ∈ keys false (log.take n)
  notOriginal : ∀ e ∈ log, ∀ r, e.effect = .replay r → ¬ Original log (e.key r)
  sound : ∀ e ∈ log, ∀ r, e.effect = .replay r → Sound e.permitted r

section DeliveryInv

variable {img img' : ImageId → Option CachedImage} {lifetimes : ℕ} {d : List PeerId}
  {log : List Entry}

section

variable (h : DeliveryInv img lifetimes d log)
include h

/-- Images disappear, or change in what the invariant does not read. -/
theorem DeliveryInv.view
    (hview : ∀ id image', img' id = some image' → ∃ image, img id = some image ∧
      image'.lifetime = image.lifetime ∧ image'.delivered = image.delivered ∧
      image'.animationDelivered = image.animationDelivered) :
    DeliveryInv img' lifetimes d log where
  lifetime_lt id image' himage' := by
    obtain ⟨image, himage, hl, -⟩ := hview id image' himage'
    rw [hl]
    exact h.lifetime_lt id image himage
  lifetime_inj id₁ id₂ image₁ image₂ h₁ h₂ heq := by
    obtain ⟨image₁', himage₁, hl₁, -⟩ := hview id₁ image₁ h₁
    obtain ⟨image₂', himage₂, hl₂, -⟩ := hview id₂ image₂ h₂
    exact h.lifetime_inj id₁ id₂ _ _ himage₁ himage₂ (hl₁.symm.trans (heq.trans hl₂))
  __ := h
  still_marked id image' p himage' := by
    obtain ⟨image, himage, hl, hd, -⟩ := hview id image' himage'
    rw [hl, hd]
    exact h.still_marked id image p himage
  animation_marked id image' p himage' := by
    obtain ⟨image, himage, hl, -, ha⟩ := hview id image' himage'
    rw [hl, ha]
    exact h.animation_marked id image p himage
  original_marked id image' p himage' := by
    obtain ⟨image, himage, hl, hd, ha⟩ := hview id image' himage'
    rw [hl, hd, ha]
    exact h.original_marked id image p himage
  still_sent id image' p himage' := by
    obtain ⟨image, himage, hl, hd, ha⟩ := hview id image' himage'
    rw [hl, hd, ha]
    exact h.still_sent id image p himage

/-- One image changes in what the invariant does not read. -/
theorem DeliveryInv.touch {id : ImageId} {image image' : CachedImage} (himage : img id = some image)
    (himg' : ∀ id', img' id' = if id' = id then some image' else img id')
    (hl : image'.lifetime = image.lifetime) (hd : image'.delivered = image.delivered)
    (ha : image'.animationDelivered = image.animationDelivered) :
    DeliveryInv img' lifetimes d log := by
  refine h.view fun id' image₁ himage₁ => ?_
  rw [himg'] at himage₁
  split_ifs at himage₁ with hid
  · cases himage₁
    subst hid
    exact ⟨image, himage, hl, hd, ha⟩
  · exact ⟨image₁, himage₁, rfl, rfl, rfl⟩

/-- Effects that say nothing about images are added to the history. -/
theorem DeliveryInv.quiet {es : List Entry} (hquiet : ∀ e ∈ es, Effect.Quiet e.effect)
    (hd : ∀ e ∈ es, e.departures = d) : DeliveryInv img lifetimes d (log ++ es) := by
  have hkeys : ∀ animation, keys animation (log ++ es) = keys animation log := by
    intro animation
    rw [keys_append, keys_quiet hquiet, List.append_nil]
  refine ⟨h.lifetime_lt, h.lifetime_inj, fun a => ?_, fun k hk => ?_, fun e he p => ?_,
    fun id image p hi => ?_, fun id image p hi => ?_, fun id image p hi ho => ?_,
    fun id image p hi => ?_, fun a => ?_, fun n e k hn hk => ?_, fun e he r hr => ?_,
    fun e he r hr => ?_⟩
  · rw [hkeys]
    exact h.keys_lifetime a
  · exact h.original_lifetime k ((original_append_quiet hquiet k).mp hk)
  · rcases List.mem_append.mp he with hlog | hes
    · exact h.stays e hlog p
    · rw [hd e hes]
  · rw [hkeys]
    exact h.still_marked id image p hi
  · rw [hkeys]
    exact h.animation_marked id image p hi
  · exact h.original_marked id image p hi ((original_append_quiet hquiet _).mp ho)
  · rw [hkeys]
    exact h.still_sent id image p hi
  · rw [hkeys]
    exact h.nodup a
  · rcases Nat.lt_or_ge n log.length with hlt | hge
    · rw [List.getElem?_append_left hlt] at hn
      rw [List.take_append_of_le_length hlt.le]
      exact h.ordered n e k hn hk
    · rw [List.getElem?_append_right hge] at hn
      rw [replayKey_quiet (hquiet e (List.mem_of_getElem? hn))] at hk
      cases hk
  · rcases List.mem_append.mp he with hlog | hes
    · rw [original_append_quiet hquiet]
      exact h.notOriginal e hlog r hr
    · exact absurd hr ((hquiet e hes).2 r)
  · rcases List.mem_append.mp he with hlog | hes
    · exact h.sound e hlog r hr
    · exact absurd hr ((hquiet e hes).2 r)

end

/-- An image after one of them was stored or changed. -/
theorem image_cases {id id' : ImageId} {image image' : CachedImage}
    (himg' : ∀ id', img' id' = if id' = id then some image else img id')
    (hi : img' id' = some image') :
    (id' = id ∧ image' = image) ∨ (id' ≠ id ∧ img id' = some image') := by
  rw [himg'] at hi
  split_ifs at hi with hid
  · cases hi
    exact .inl ⟨hid, rfl⟩
  · exact .inr ⟨hid, hi⟩

/-- A new image, first sent to some peers. -/
theorem DeliveryInv.store (h : DeliveryInv img lifetimes d log) {id : ImageId} {image : CachedImage}
    {original : List PeerId} {permits : PeerId → Bool}
    (himg' : ∀ id', img' id' = if id' = id then some image else img id')
    (hl : image.lifetime = lifetimes) (hd : ∀ p, p ∈ image.delivered ↔ p ∈ original)
    (ha : ∀ p, p ∈ image.animationDelivered ↔ p ∈ original) :
    DeliveryInv img' (lifetimes + 1) d (log ++ [⟨.stored lifetimes original, d, permits⟩]) := by
  have hkeys : ∀ animation,
      keys animation (log ++ [⟨.stored lifetimes original, d, permits⟩]) = keys animation log := by
    intro animation
    rw [keys_append]
    exact List.append_nil _
  -- only keys of the new lifetime get an original recipient
  have horiginal : ∀ k, Original (log ++ [⟨.stored lifetimes original, d, permits⟩]) k →
      Original log k ∨ (k.1 = lifetimes ∧ k.2.1 ∈ original) := by
    rintro k ⟨e, he, o, heffect, hmem, hcount⟩
    rcases List.mem_append.mp he with hlog | hes
    · exact .inl ⟨e, hlog, o, heffect, hmem, hcount⟩
    · rw [List.mem_singleton] at hes
      subst hes
      cases heffect
      exact .inr ⟨rfl, hmem⟩
  have hcases := fun id' image' => @image_cases img img' id id' image image' himg'
  refine ⟨fun id' image' hi => ?_, fun id₁ id₂ image₁ image₂ h₁ h₂ heq => ?_, fun a k hk => ?_,
    fun k hk => ?_, fun e he p => ?_, fun id' image' p hi hk => ?_, fun id' image' p hi hk => ?_,
    fun id' image' p hi ho => ?_, fun id' image' p hi hin hout => ?_, fun a => ?_,
    fun n e k hn hk => ?_, fun e he r hr => ?_, fun e he r hr => ?_⟩
  · rcases hcases id' image' hi with ⟨-, rfl⟩ | ⟨-, hold⟩
    · omega
    · exact Nat.lt_succ_of_lt (h.lifetime_lt id' image' hold)
  · rcases hcases id₁ image₁ h₁ with ⟨rfl, rfl⟩ | ⟨-, hold₁⟩
    · rcases hcases id₂ image₂ h₂ with ⟨rfl, -⟩ | ⟨-, hold₂⟩
      · rfl
      · have := h.lifetime_lt id₂ image₂ hold₂
        omega
    · rcases hcases id₂ image₂ h₂ with ⟨-, rfl⟩ | ⟨-, hold₂⟩
      · have := h.lifetime_lt id₁ image₁ hold₁
        omega
      · exact h.lifetime_inj id₁ id₂ image₁ image₂ hold₁ hold₂ heq
  · rw [hkeys] at hk
    exact Nat.lt_succ_of_lt (h.keys_lifetime a k hk)
  · rcases horiginal k hk with hold | ⟨hnew, -⟩
    · exact Nat.lt_succ_of_lt (h.original_lifetime k hold)
    · omega
  · rcases List.mem_append.mp he with hlog | hes
    · exact h.stays e hlog p
    · rw [List.mem_singleton] at hes
      rw [hes]
  · rw [hkeys] at hk
    rcases hcases id' image' hi with ⟨-, rfl⟩ | ⟨-, hold⟩
    · have := h.keys_lifetime false _ hk
      exact absurd this (by simp [hl])
    · exact h.still_marked id' image' p hold hk
  · rw [hkeys] at hk
    rcases hcases id' image' hi with ⟨-, rfl⟩ | ⟨-, hold⟩
    · have := h.keys_lifetime true _ hk
      exact absurd this (by simp [hl])
    · exact h.animation_marked id' image' p hold hk
  · rcases hcases id' image' hi with ⟨-, rfl⟩ | ⟨-, hold⟩
    · rcases horiginal _ ho with hold | ⟨-, hmem⟩
      · exact absurd (h.original_lifetime _ hold) (by simp [hl])
      · exact ⟨(hd p).mpr hmem, (ha p).mpr hmem⟩
    · rcases horiginal _ ho with hold' | ⟨hnew, -⟩
      · exact h.original_marked id' image' p hold hold'
      · have := h.lifetime_lt id' image' hold
        simp only at hnew
        omega
  · rw [hkeys]
    rcases hcases id' image' hi with ⟨-, rfl⟩ | ⟨-, hold⟩
    · exact absurd ((ha p).mpr ((hd p).mp hin)) hout
    · exact h.still_sent id' image' p hold hin hout
  · rw [hkeys]
    exact h.nodup a
  · rcases getElem?_append_singleton hn with ⟨hlt, hold⟩ | ⟨-, rfl⟩
    · rw [List.take_append_of_le_length hlt.le]
      exact h.ordered n e k hold hk
    · cases hk
  · rcases List.mem_append.mp he with hlog | hes
    · intro ho
      rcases horiginal _ ho with hold | ⟨hnew, -⟩
      · exact h.notOriginal e hlog r hr hold
      · have hkey : e.key r ∈ keys r.animation log :=
          List.mem_filterMap.mpr ⟨e, hlog, by simp [Entry.replayKey, hr]⟩
        have := h.keys_lifetime _ _ hkey
        omega
    · rw [List.mem_singleton] at hes
      subst hes
      cases hr
  · rcases List.mem_append.mp he with hlog | hes
    · exact h.sound e hlog r hr
    · rw [List.mem_singleton] at hes
      subst hes
      cases hr

theorem replayKey_replay (r : Replay) (d : List PeerId) (permits : PeerId → Bool)
    (animation : Bool) : Entry.replayKey animation ⟨.replay r, d, permits⟩ =
      if r.animation = animation then some (r.source.lifetime, r.recipient, d.count r.recipient)
      else none := rfl

/-- **A replay of the still or of the animation**, to a peer who was not marked for it. -/
theorem DeliveryInv.replay (h : DeliveryInv img lifetimes d log) {id : ImageId}
    {image : CachedImage} (image' : CachedImage) {r : Replay} {permits : PeerId → Bool}
    (himage : img id = some image)
    (himg' : ∀ id', img' id' = if id' = id then some image' else img id')
    (hl : image'.lifetime = image.lifetime) (hsource : r.source.lifetime = image.lifetime)
    (hd : ∀ p, p ∈ image'.delivered ↔ p ∈ image.delivered ∨ (r.animation = false ∧ p = r.recipient))
    (ha : ∀ p, p ∈ image'.animationDelivered ↔
      p ∈ image.animationDelivered ∨ (r.animation = true ∧ p = r.recipient))
    (hnew : r.animation = false → r.recipient ∉ image.delivered)
    (hnewAnimation : r.animation = true →
      r.recipient ∈ image.delivered ∧ r.recipient ∉ image.animationDelivered)
    (hsound : Sound permits r) :
    DeliveryInv img' lifetimes d (log ++ [⟨.replay r, d, permits⟩]) := by
  have hkeys : ∀ animation, keys animation (log ++ [⟨.replay r, d, permits⟩]) =
      keys animation log ++ if r.animation = animation then
        [(image.lifetime, r.recipient, d.count r.recipient)] else [] := by
    intro animation
    rw [keys_append, keys, keys, List.filterMap_cons, List.filterMap_nil, replayKey_replay, hsource]
    split_ifs <;> rfl
  have hsent : ∀ animation k, k ∈ keys animation (log ++ [⟨.replay r, d, permits⟩]) →
      k ∈ keys animation log ∨
        (r.animation = animation ∧ k = (image.lifetime, r.recipient, d.count r.recipient)) := by
    intro animation k hk
    rw [hkeys] at hk
    rcases List.mem_append.mp hk with hold | hsingle
    · exact .inl hold
    · split_ifs at hsingle with hkind
      · exact .inr ⟨hkind, List.mem_singleton.mp hsingle⟩
      · cases hsingle
  have hcases := fun id' image₁ => @image_cases img img' id id' image' image₁ himg'
  have hother : ∀ id' image₁, id' ≠ id → img id' = some image₁ → image₁.lifetime ≠ image.lifetime :=
    fun id' image₁ hid himage₁ heq => hid (h.lifetime_inj id' id image₁ image himage₁ himage heq)
  have hnotOriginal : ¬ Original log (image.lifetime, r.recipient, d.count r.recipient) := by
    intro ho
    have hmarked := h.original_marked id image r.recipient himage ho
    cases hkind : r.animation with
    | false => exact hnew hkind hmarked.1
    | true => exact (hnewAnimation hkind).2 hmarked.2
  refine ⟨fun id' image₁ hi => ?_, fun id₁ id₂ image₁ image₂ h₁ h₂ heq => ?_, fun a k hk => ?_,
    fun k hk => ?_, fun e he p => ?_, fun id' image₁ p hi hk => ?_, fun id' image₁ p hi hk => ?_,
    fun id' image₁ p hi ho => ?_, fun id' image₁ p hi hin hout => ?_, fun a => ?_,
    fun n e k hn hk => ?_, fun e he r' hr => ?_, fun e he r' hr => ?_⟩
  · rcases hcases id' image₁ hi with ⟨-, rfl⟩ | ⟨-, hold⟩
    · rw [hl]
      exact h.lifetime_lt id image himage
    · exact h.lifetime_lt id' image₁ hold
  · rcases hcases id₁ image₁ h₁ with ⟨rfl, rfl⟩ | ⟨hid₁, hold₁⟩
    · rcases hcases id₂ image₂ h₂ with ⟨rfl, -⟩ | ⟨hid₂, hold₂⟩
      · rfl
      · exact absurd (heq.symm.trans hl) (hother id₂ image₂ hid₂ hold₂)
    · rcases hcases id₂ image₂ h₂ with ⟨-, rfl⟩ | ⟨-, hold₂⟩
      · exact absurd (heq.trans hl) (hother id₁ image₁ hid₁ hold₁)
      · exact h.lifetime_inj id₁ id₂ image₁ image₂ hold₁ hold₂ heq
  · rcases hsent a k hk with hold | ⟨-, heq⟩
    · exact h.keys_lifetime a k hold
    · rw [heq]
      exact h.lifetime_lt id image himage
  · exact h.original_lifetime k ((original_append_replay k).mp hk)
  · rcases List.mem_append.mp he with hlog | hes
    · exact h.stays e hlog p
    · rw [List.mem_singleton] at hes
      rw [hes]
  · rcases hsent _ _ hk with hold' | ⟨hkind, heq⟩
    · rcases hcases id' image₁ hi with ⟨-, rfl⟩ | ⟨-, hold⟩
      · rw [hl] at hold'
        exact (hd p).mpr (.inl (h.still_marked id image p himage hold'))
      · exact h.still_marked id' image₁ p hold hold'
    · rw [Prod.mk.injEq, Prod.mk.injEq] at heq
      rcases hcases id' image₁ hi with ⟨-, rfl⟩ | ⟨hid, hold⟩
      · exact (hd p).mpr (.inr ⟨hkind, heq.2.1⟩)
      · exact absurd heq.1 (hother id' image₁ hid hold)
  · rcases hsent _ _ hk with hold' | ⟨hkind, heq⟩
    · rcases hcases id' image₁ hi with ⟨-, rfl⟩ | ⟨-, hold⟩
      · rw [hl] at hold'
        exact (ha p).mpr (.inl (h.animation_marked id image p himage hold'))
      · exact h.animation_marked id' image₁ p hold hold'
    · rw [Prod.mk.injEq, Prod.mk.injEq] at heq
      rcases hcases id' image₁ hi with ⟨-, rfl⟩ | ⟨hid, hold⟩
      · exact (ha p).mpr (.inr ⟨hkind, heq.2.1⟩)
      · exact absurd heq.1 (hother id' image₁ hid hold)
  · have ho' := (original_append_replay _).mp ho
    rcases hcases id' image₁ hi with ⟨-, rfl⟩ | ⟨-, hold⟩
    · rw [hl] at ho'
      obtain ⟨h₁, h₂⟩ := h.original_marked id image p himage ho'
      exact ⟨(hd p).mpr (.inl h₁), (ha p).mpr (.inl h₂)⟩
    · exact h.original_marked id' image₁ p hold ho'
  · rw [hkeys]
    rcases hcases id' image₁ hi with ⟨-, rfl⟩ | ⟨-, hold⟩
    · rw [hl]
      rw [ha] at hout
      rcases (hd p).mp hin with hin | ⟨hkind, rfl⟩
      · exact List.mem_append_left _
          (h.still_sent id image p himage hin fun hmem => hout (.inl hmem))
      · rw [if_pos hkind]
        exact List.mem_append_right _ (.head _)
    · exact List.mem_append_left _ (h.still_sent id' image₁ p hold hin hout)
  · rw [hkeys]
    split_ifs with hkind
    · refine List.nodup_append.mpr ⟨h.nodup a, by simp, fun x hx y hy heq => ?_⟩
      rw [List.mem_singleton] at hy
      subst heq hy
      subst hkind
      cases hkind' : r.animation with
      | false =>
        rw [hkind'] at hx
        exact hnew hkind' (h.still_marked id image _ himage hx)
      | true =>
        rw [hkind'] at hx
        exact (hnewAnimation hkind').2 (h.animation_marked id image _ himage hx)
    · rw [List.append_nil]
      exact h.nodup a
  · rcases getElem?_append_singleton hn with ⟨hlt, hold⟩ | ⟨rfl, rfl⟩
    · rw [List.take_append_of_le_length hlt.le]
      exact h.ordered n e k hold hk
    · rw [List.take_left']
      · rw [replayKey_replay] at hk
        split_ifs at hk with hkind
        cases hk
        rw [hsource]
        obtain ⟨hin, hout⟩ := hnewAnimation hkind
        exact h.still_sent id image _ himage hin hout
      · rfl
  · rw [original_append_replay]
    rcases List.mem_append.mp he with hlog | hes
    · exact h.notOriginal e hlog r' hr
    · rw [List.mem_singleton] at hes
      subst hes
      cases hr
      rw [Entry.key, hsource]
      exact hnotOriginal
  · rcases List.mem_append.mp he with hlog | hes
    · exact h.sound e hlog r' hr
    · rw [List.mem_singleton] at hes
      subst hes
      cases hr
      exact hsound

/-- A peer departs: a new stay of its id begins with empty marks. -/
theorem DeliveryInv.forget (h : DeliveryInv img lifetimes d log) (peer : PeerId)
    (himg' : ∀ id, img' id = (img id).map (forgetPeer peer)) :
    DeliveryInv img' lifetimes (peer :: d) log := by
  have hview : ∀ id image', img' id = some image' →
      ∃ image, img id = some image ∧ image' = forgetPeer peer image := by
    intro id image' himage'
    rw [himg'] at himage'
    obtain ⟨image, himage, rfl⟩ := Option.map_eq_some_iff.mp himage'
    exact ⟨image, himage, rfl⟩
  have hcount : ∀ p, p ≠ peer → (peer :: d).count p = d.count p := fun p hp =>
    List.count_cons_of_ne (Ne.symm hp)
  -- no entry is of the stay that begins now
  have hkeys : ∀ animation l, (l, peer, (peer :: d).count peer) ∉ keys animation log := by
    intro animation l hmem
    obtain ⟨e, he, hkey⟩ := List.mem_filterMap.mp hmem
    have hstays := h.stays e he peer
    rw [Entry.replayKey] at hkey
    split at hkey
    · split_ifs at hkey
      rw [Entry.key, Option.some.injEq, Prod.mk.injEq, Prod.mk.injEq] at hkey
      obtain ⟨-, hpeer, hstay⟩ := hkey
      rw [hpeer, List.count_cons_self] at hstay
      omega
    · cases hkey
  have horiginal : ∀ l, ¬ Original log (l, peer, (peer :: d).count peer) := by
    rintro l ⟨e, he, original, -, -, hstay⟩
    have hstays := h.stays e he peer
    rw [List.count_cons_self] at hstay
    simp only at hstay
    omega
  have hdelivered : ∀ image p, p ∈ (forgetPeer peer image).delivered ↔
      p ∈ image.delivered ∧ p ≠ peer := fun image p => by simp [forgetPeer]
  have hanimation : ∀ image p, p ∈ (forgetPeer peer image).animationDelivered ↔
      p ∈ image.animationDelivered ∧ p ≠ peer := fun image p => by simp [forgetPeer]
  refine ⟨fun id image' hi => ?_, fun id₁ id₂ image₁ image₂ h₁ h₂ heq => ?_, h.keys_lifetime,
    h.original_lifetime, fun e he p => ?_, fun id image' p hi hk => ?_, fun id image' p hi hk => ?_,
    fun id image' p hi ho => ?_, fun id image' p hi hin hout => ?_, h.nodup, h.ordered,
    h.notOriginal, h.sound⟩
  · obtain ⟨image, himage, rfl⟩ := hview id image' hi
    exact h.lifetime_lt id image himage
  · obtain ⟨image₁', himage₁, rfl⟩ := hview id₁ image₁ h₁
    obtain ⟨image₂', himage₂, rfl⟩ := hview id₂ image₂ h₂
    exact h.lifetime_inj id₁ id₂ _ _ himage₁ himage₂ heq
  · exact le_trans (h.stays e he p) (List.count_le_count_cons)
  · obtain ⟨image, himage, rfl⟩ := hview id image' hi
    by_cases hp : p = peer
    · subst hp
      exact absurd hk (hkeys false _)
    · rw [hcount p hp] at hk
      exact (hdelivered image p).mpr ⟨h.still_marked id image p himage hk, hp⟩
  · obtain ⟨image, himage, rfl⟩ := hview id image' hi
    by_cases hp : p = peer
    · subst hp
      exact absurd hk (hkeys true _)
    · rw [hcount p hp] at hk
      exact (hanimation image p).mpr ⟨h.animation_marked id image p himage hk, hp⟩
  · obtain ⟨image, himage, rfl⟩ := hview id image' hi
    by_cases hp : p = peer
    · subst hp
      exact absurd ho (horiginal _)
    · rw [hcount p hp] at ho
      obtain ⟨h₁, h₂⟩ := h.original_marked id image p himage ho
      exact ⟨(hdelivered image p).mpr ⟨h₁, hp⟩, (hanimation image p).mpr ⟨h₂, hp⟩⟩
  · obtain ⟨image, himage, rfl⟩ := hview id image' hi
    obtain ⟨hin, hp⟩ := (hdelivered image p).mp hin
    rw [hcount p hp]
    exact h.still_sent id image p himage hin fun hmem => hout ((hanimation image p).mpr ⟨hmem, hp⟩)

end DeliveryInv

/-! ### Moves -/

section Moves

variable {cap : ℕ} {permits : PeerId → Bool} {s s' : ImageCache} {effects : List Effect}
  {d : List PeerId} {log : List Entry}

/-- An effect as an entry of the history. -/
def entryOf (d : List PeerId) (permits : PeerId → Bool) (effect : Effect) : Entry :=
  ⟨effect, d, permits⟩

theorem DeliveryInv.quietEffects {img : ImageId → Option CachedImage} {lifetimes : ℕ}
    (h : DeliveryInv img lifetimes d log) (hquiet : ∀ e ∈ effects, Effect.Quiet e) :
    DeliveryInv img lifetimes d (log ++ effects.map (entryOf d permits)) := by
  refine h.quiet ?_ ?_
  · intro e he
    obtain ⟨effect, heffect, rfl⟩ := List.mem_map.mp he
    exact hquiet effect heffect
  · intro e he
    obtain ⟨effect, -, rfl⟩ := List.mem_map.mp he
    rfl

theorem dropImage_quiet (s : ImageCache) (id : ImageId) :
    ∀ e ∈ (s.dropImage id).2, Effect.Quiet e := by
  intro e he
  rw [dropImage] at he
  split at he
  · cases he
  · split_ifs at he
    · rw [List.mem_singleton] at he
      subst he
      exact ⟨fun _ _ h => (by cases h), fun _ h => (by cases h)⟩
    · cases he

/-- **Every move keeps the marks in step with the history.** -/
theorem DeliveryInv.move (haccounts : Accounts s) (h : DeliveryInv s.image s.lifetimes d log)
    (hmove : Move cap permits s effects s') :
    DeliveryInv s'.image s'.lifetimes d (log ++ effects.map (entryOf d permits)) := by
  cases hmove with
  | @drop id image himage =>
    refine DeliveryInv.quietEffects ?_ (dropImage_quiet s id)
    have hlifetimes : (s.dropImage id).1.lifetimes = s.lifetimes := by
      rw [dropImage]
      split <;> rfl
    rw [hlifetimes]
    refine h.view fun id' image' himage' => ?_
    rw [image_dropImage] at himage'
    split_ifs at himage'
    exact ⟨image', himage', rfl, rfl, rfl⟩
  | @store id owner payload count poseOffset original hfree hcost =>
    exact h.store (fun id' => image_setImage s id id' _) rfl (fun p => List.mem_dedup)
      fun p => List.mem_dedup
  | @grow id image image' cost himage hgrows hcost =>
    rw [List.map_nil, List.append_nil]
    cases hgrows <;> exact h.touch himage (fun id' => image_setImage s id id' _) rfl rfl rfl
  | @pose id image payload himage hlength htransform =>
    rw [List.map_nil, List.append_nil]
    exact h.touch himage (fun id' => image_setImage s id id' _) rfl rfl rfl
  | @offer id image peer _ himage heffects =>
    refine DeliveryInv.quietEffects ?_ ?_
    · exact h.touch himage (fun id' => image_setImage s id id' _) rfl rfl rfl
    · intro e he
      obtain ⟨payload, rfl⟩ := heffects e he
      exact ⟨fun _ _ h => (by cases h), fun _ h => (by cases h)⟩
  | notice owner id held =>
    refine h.quietEffects ?_
    intro e he
    rw [List.mem_singleton] at he
    subst he
    exact ⟨fun _ _ h => (by cases h), fun _ h => (by cases h)⟩
  | @still id image peer himage hstill howner hnew =>
    have hcounted := haccounts.counted id image himage
    exact h.replay _ himage (fun id' => image_setImage s id id' _) rfl rfl
      (fun p => by simp [register, markStill, or_comm]) (fun p => by simp [register, markStill])
      (fun _ => hnew) (fun hkind => by cases hkind)
      (sound_still _ permits s.heap hcounted hstill howner rfl rfl rfl rfl)
  | @both id image peer heap₁ heap₂ still animation himage hstill howner hnew hanimation
      hanimationNew hpermit h₁ h₂ =>
    have hcounted := haccounts.counted id image himage
    have hsound₁ := sound_still (markAnimation (markStill image peer) peer) permits s.heap hcounted
      hstill howner rfl rfl rfl rfl
    have hsound₂ := sound_animation (markAnimation (markStill image peer) peer) heap₁ hcounted
      hstill hanimation howner hpermit rfl rfl rfl rfl
    rw [h₁] at hsound₁
    rw [h₂] at hsound₂
    -- the still first, with the image marked for it, and then the animation
    have hfirst := h.replay (markStill image peer) himage
      (fun id' => image_setImage s id id' (markStill image peer)) rfl rfl
      (fun p => by simp [markStill, or_comm]) (fun p => by simp [markStill])
      (fun _ => hnew) (fun hkind => by cases hkind) hsound₁
    have himage₁ : (s.setImage id (markStill image peer)).image id =
        some (markStill image peer) := by
      rw [image_setImage, if_pos rfl]
    have hview : ∀ id', (s.setImage id (register (markAnimation (markStill image peer) peer) heap₂
        (still ++ animation))).image id' =
        if id' = id then some (register (markAnimation (markStill image peer) peer) heap₂
          (still ++ animation)) else (s.setImage id (markStill image peer)).image id' := by
      intro id'
      rw [image_setImage, image_setImage]
      by_cases hid : id' = id
      · rw [if_pos hid, if_pos hid]
      · rw [if_neg hid, if_neg hid, if_neg hid]
    have hsecond := hfirst.replay _ himage₁ hview rfl rfl
      (fun p => by simp [register, markAnimation])
      (fun p => by simp [register, markAnimation, or_comm]) (fun hkind => by cases hkind)
      (fun _ => ⟨by simp [markStill], hanimationNew⟩) hsound₂
    rw [List.append_assoc] at hsecond
    exact hsecond
  | @animation id image peer himage hstill hanimation howner hdelivered hnew hpermit =>
    have hcounted := haccounts.counted id image himage
    exact h.replay _ himage (fun id' => image_setImage s id id' _) rfl rfl
      (fun p => by simp [register, markAnimation])
      (fun p => by simp [register, markAnimation, or_comm])
      (fun hkind => by cases hkind) (fun _ => ⟨hdelivered, hnew⟩)
      (sound_animation _ s.heap hcounted hstill hanimation howner hpermit rfl rfl rfl rfl)

end Moves

end ImageCache

end BasisRust.Server

