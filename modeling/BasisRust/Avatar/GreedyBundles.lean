import BasisRust.Avatar.Bundle

/-!
# Greedy bundling

`emitGreedyAvatarBundles` cuts the avatar packets of a receiver into bundles.  From a cursor it
takes as many packets as should compress to the wire budget by the ratio seen so far; a bundle that
turns out too large is tried once more with fewer packets, and when nothing helps the rest is sent
as it is.

What the encoder answers to each call is a parameter, and so is the ratio estimate, which is in
floating point (`BundleEnv`).  A bundle is sent with the packets in it, as history.

`Bundled` says that what was sent are bundles of consecutive ranges; `emitLoop_bundled` is the
loop's specification, and `greedy_bundling_is_exact` says that every packet is sent exactly once.
-/

namespace BasisRust.Avatar

open Library

/-! ### State -/

/-- `items` is history: the packets of a bundle. -/
inductive OutboundAvatarSend where
  | borrowed (channel : Byte) (payload : Bytes) (patch : ℕ × Byte)
  | owned (channel : Byte) (payload : Bytes) (items : List BundleAvatarSend)
  deriving DecidableEq

def compressedAvatarBundleChannel : Byte := 52

structure BundleConfig where
  bundleMinMessages : ℕ
  bundleMinBytes : ℕ
  enableBundleZstd : Bool
  bundleZstdDeltaBundles : Bool
  bundleZstdLevel : ℤ

/-- The encoder, by the number of the call, and the ratio estimate: the raw lengths to aim at, first
and after a bundle of these compressed and raw lengths was too large, and the estimate after a
bundle, with the weight of the observation in tenths. -/
structure BundleEnv (ρ : Type) where
  encode : ℕ → List AvatarBundleSlice → AvatarBundleCompression → Option EncodedAvatarBundle
  targetRaw : ρ → ℕ
  retryTargetRaw : ℕ → ℕ → ℕ
  updateBundleRatio : ρ → ℕ → ℕ → ℕ → ρ

/-! ### The loop -/

def entrySize (item : BundleAvatarSend) : ℕ := 3 + item.payload.length

/-- How many packets fit into a raw length, at least one. -/
def pickCount (targetRaw : ℕ) (first : Bool) (rawAccum : ℕ) : List BundleAvatarSend → ℕ
  | [] => 0
  | item :: items =>
    if !first && decide (rawAccum + entrySize item > targetRaw) then 0
    else pickCount targetRaw false (rawAccum + entrySize item) items + 1

def range (bundle : List BundleAvatarSend) (start stop : ℕ) : List BundleAvatarSend :=
  (bundle.take stop).drop start

def pickBundleChunkEnd (bundle : List BundleAvatarSend) (cursor hardEnd targetRaw : ℕ) : ℕ :=
  cursor + pickCount targetRaw true 0 (range bundle cursor hardEnd)

/-- Where the second attempt ends: by its raw length, or at three quarters of the first one. -/
def retryChunkEnd (bundle : List BundleAvatarSend) (cursor chunkEnd retryTargetRaw : ℕ) : ℕ :=
  let retryEnd := pickBundleChunkEnd bundle cursor chunkEnd retryTargetRaw
  if retryEnd ≥ chunkEnd then cursor + max ((chunkEnd - cursor) * 3 / 4) 1 else retryEnd

def bundleRangeRawLen (items : List BundleAvatarSend) : ℕ := (items.map entrySize).sum

inductive BundleEmit where
  | emitted (rawLen compressedLen : ℕ)
  | overshot (rawLen compressedLen : ℕ)

def compressionFor (config : BundleConfig) (items : List BundleAvatarSend) :
    AvatarBundleCompression :=
  let deltaOnly := items.all fun item => decide (item.originalChannel = deltaChannel)
  if config.enableBundleZstd && (config.bundleZstdDeltaBundles || !deltaOnly) then
    .zstdDictionary config.bundleZstdLevel
  else .lz4

variable {ρ : Type} (env : BundleEnv ρ) (config : BundleConfig) (wireBudget : ℕ)

/-- Encode a range, and send it if it is not too large. -/
def tryEmitBundleRange (call : ℕ) (items : List BundleAvatarSend)
    (direct : List OutboundAvatarSend) : Option (BundleEmit × List OutboundAvatarSend) :=
  match env.encode call (items.map BundleAvatarSend.slice) (compressionFor config items) with
  | none => none
  | some encoded =>
    if encoded.bytes.length > wireBudget then
      some (.overshot encoded.rawLen encoded.compressedLen, direct)
    else
      some (.emitted encoded.rawLen encoded.compressedLen,
        direct ++ [.owned compressedAvatarBundleChannel encoded.bytes items])

theorem pickCount_le (targetRaw : ℕ) (first : Bool) (rawAccum : ℕ)
    (items : List BundleAvatarSend) : pickCount targetRaw first rawAccum items ≤ items.length := by
  induction items generalizing first rawAccum with
  | nil => exact Nat.le_refl 0
  | cons item items ih =>
    rw [pickCount]
    split_ifs
    · exact Nat.zero_le _
    · exact Nat.succ_le_succ (ih false _)

theorem pickBundleChunkEnd_le {bundle : List BundleAvatarSend} {cursor hardEnd targetRaw : ℕ}
    (h : cursor < pickBundleChunkEnd bundle cursor hardEnd targetRaw) :
    pickBundleChunkEnd bundle cursor hardEnd targetRaw ≤ min hardEnd bundle.length := by
  have hle := pickCount_le targetRaw true 0 (range bundle cursor hardEnd)
  have hlength : (range bundle cursor hardEnd).length = min hardEnd bundle.length - cursor := by
    rw [range, List.length_drop, List.length_take]
  rw [pickBundleChunkEnd] at h ⊢
  omega

theorem retryChunkEnd_le {bundle : List BundleAvatarSend} {cursor chunkEnd target : ℕ}
    (h : cursor < chunkEnd) : retryChunkEnd bundle cursor chunkEnd target ≤ chunkEnd := by
  rw [retryChunkEnd]
  split_ifs <;> omega

/-- Where the loop starts, and what it leaves: the packets sent, the cursor and the estimate. -/
structure LoopState (ρ : Type) where
  direct : List OutboundAvatarSend
  cursor : ℕ
  ratio : ρ

/-- The loop over the chunks.  Every turn that goes on has moved the cursor. -/
def emitLoop (bundle : List BundleAvatarSend) (call : ℕ) (s : LoopState ρ) : LoopState ρ :=
  if bundle.length - s.cursor < config.bundleMinMessages then s
  else
    let chunkEnd := pickBundleChunkEnd bundle s.cursor bundle.length (env.targetRaw s.ratio)
    if _hchunk : chunkEnd ≤ s.cursor then s
    else if bundleRangeRawLen (range bundle s.cursor chunkEnd) < config.bundleMinBytes then s
    else
      match tryEmitBundleRange env config wireBudget call (range bundle s.cursor chunkEnd)
          s.direct with
      | none => s
      | some (.emitted rawLen compressedLen, direct) =>
        emitLoop bundle (call + 1)
          ⟨direct, chunkEnd, env.updateBundleRatio s.ratio compressedLen rawLen 3⟩
      | some (.overshot rawLen compressedLen, _) =>
        let ratio := env.updateBundleRatio s.ratio compressedLen rawLen 7
        let retryEnd := retryChunkEnd bundle s.cursor chunkEnd
          (env.retryTargetRaw compressedLen rawLen)
        if _hretry : retryEnd ≤ s.cursor then { s with ratio := ratio }
        else if bundleRangeRawLen (range bundle s.cursor retryEnd) < config.bundleMinBytes then
          { s with ratio := ratio }
        else
          match tryEmitBundleRange env config wireBudget (call + 1)
              (range bundle s.cursor retryEnd) s.direct with
          | some (.emitted rawLen compressedLen, direct) =>
            emitLoop bundle (call + 2)
              ⟨direct, retryEnd, env.updateBundleRatio ratio compressedLen rawLen 5⟩
          | _ => { s with ratio := ratio }
termination_by bundle.length - s.cursor
decreasing_by
  · have hle := pickBundleChunkEnd_le (Nat.lt_of_not_le _hchunk)
    exact Nat.sub_lt_sub_left (by omega) (Nat.lt_of_not_le _hchunk)
  · have hle := pickBundleChunkEnd_le (Nat.lt_of_not_le _hchunk)
    exact Nat.sub_lt_sub_left (by omega) (Nat.lt_of_not_le _hretry)

/-- Bundle what can be bundled and send the rest as it is.  The buffer is left empty. -/
def emitGreedyAvatarBundles (direct : List OutboundAvatarSend) (bundle : List BundleAvatarSend)
    (ratio : ρ) : List OutboundAvatarSend × List BundleAvatarSend × ρ :=
  if bundle.isEmpty then (direct, bundle, ratio)
  else
    let s := emitLoop env config wireBudget bundle 0 ⟨direct, 0, ratio⟩
    let tail := (bundle.drop s.cursor).map fun item =>
      .borrowed item.originalChannel item.payload (item.intervalOffset, item.intervalByte)
    (s.direct ++ tail, [], s.ratio)

/-! ### What is sent -/

/-- The packets in what was sent. -/
def OutboundAvatarSend.packets : OutboundAvatarSend → List BundleAvatarSend
  | .borrowed channel payload patch => [⟨channel, payload, patch.1, patch.2⟩]
  | .owned _ _ items => items

/-- Bundles of consecutive ranges from one cursor to another, each an encoding of its packets within
the wire budget. -/
inductive Bundled (bundle : List BundleAvatarSend) : ℕ → List OutboundAvatarSend → ℕ → Prop
  | nil (cursor : ℕ) : Bundled bundle cursor [] cursor
  | cons {cursor next stop : ℕ} {rest : List OutboundAvatarSend} (call : ℕ)
      (encoded : EncodedAvatarBundle) (hnext : cursor < next) (hbound : next ≤ bundle.length)
      (hencode : env.encode call ((range bundle cursor next).map BundleAvatarSend.slice)
        (compressionFor config (range bundle cursor next)) = some encoded)
      (hfits : encoded.bytes.length ≤ wireBudget) (hrest : Bundled bundle next rest stop) :
      Bundled bundle cursor (.owned compressedAvatarBundleChannel encoded.bytes
        (range bundle cursor next) :: rest) stop

variable {env config wireBudget} {bundle : List BundleAvatarSend} {cursor stop : ℕ}
  {sent : List OutboundAvatarSend}

theorem tryEmitBundleRange_emitted {call rawLen compressedLen : ℕ} {items : List BundleAvatarSend}
    {direct direct' : List OutboundAvatarSend}
    (h : tryEmitBundleRange env config wireBudget call items direct =
      some (.emitted rawLen compressedLen, direct')) :
    ∃ encoded, env.encode call (items.map BundleAvatarSend.slice) (compressionFor config items) =
        some encoded ∧ encoded.bytes.length ≤ wireBudget ∧
      direct' = direct ++ [.owned compressedAvatarBundleChannel encoded.bytes items] := by
  rw [tryEmitBundleRange] at h
  cases hencode : env.encode call (items.map BundleAvatarSend.slice)
    (compressionFor config items) with
  | none =>
    rw [hencode] at h
    cases h
  | some encoded =>
    rw [hencode] at h
    dsimp only at h
    split_ifs at h with hlarge
    · cases (Prod.mk.inj (Option.some.inj h)).1
    exact ⟨encoded, rfl, Nat.le_of_not_lt hlarge, (Prod.mk.inj (Option.some.inj h)).2.symm⟩

/-- One more bundle in front. -/
theorem Bundled.step {call rawLen compressedLen next : ℕ}
    {direct direct' final : List OutboundAvatarSend}
    (h : tryEmitBundleRange env config wireBudget call (range bundle cursor next) direct =
      some (.emitted rawLen compressedLen, direct'))
    (hnext : cursor < next) (hbound : next ≤ bundle.length)
    (hrest : ∃ sent, final = direct' ++ sent ∧
      Bundled env config wireBudget bundle next sent stop) :
    ∃ sent, final = direct ++ sent ∧ Bundled env config wireBudget bundle cursor sent stop := by
  obtain ⟨encoded, hencode, hfits, hdirect⟩ := tryEmitBundleRange_emitted h
  obtain ⟨sent, hfinal, hsent⟩ := hrest
  refine ⟨_, ?_, .cons call encoded hnext hbound hencode hfits hsent⟩
  rw [hfinal, hdirect, List.append_assoc]
  rfl

/-- Nothing more is bundled. -/
theorem Bundled.stay (direct : List OutboundAvatarSend) (cursor : ℕ) :
    ∃ sent, direct = direct ++ sent ∧ Bundled env config wireBudget bundle cursor sent cursor :=
  ⟨[], (List.append_nil direct).symm, .nil cursor⟩

/-- **The loop** appends bundles of consecutive ranges, from the cursor it starts with to the one it
ends with. -/
theorem emitLoop_bundled (env : BundleEnv ρ) (config : BundleConfig) (wireBudget : ℕ)
    (bundle : List BundleAvatarSend) (call : ℕ) (s : LoopState ρ) :
    ∃ sent, (emitLoop env config wireBudget bundle call s).direct = s.direct ++ sent ∧
      Bundled env config wireBudget bundle s.cursor sent
        (emitLoop env config wireBudget bundle call s).cursor := by
  fun_induction emitLoop env config wireBudget bundle call s with
  | case1 | case2 | case3 | case4 | case6 | case7 | case9 => exact Bundled.stay _ _
  | case5 call s _ chunkEnd hchunk _ rawLen compressedLen direct hemit ih =>
    -- the first attempt fits
    have hle := pickBundleChunkEnd_le (Nat.lt_of_not_le hchunk)
    exact Bundled.step hemit (Nat.lt_of_not_le hchunk) (hle.trans (Nat.min_le_right _ _)) ih
  | case8 call s _ chunkEnd hchunk _ _ _ _ _ ratio retryEnd hretry _ rawLen compressedLen direct
      hemit ih =>
    -- the second one does
    have hle := pickBundleChunkEnd_le (Nat.lt_of_not_le hchunk)
    have hshorter : retryEnd ≤ chunkEnd := retryChunkEnd_le (Nat.lt_of_not_le hchunk)
    exact Bundled.step hemit (Nat.lt_of_not_le hretry)
      (hshorter.trans (hle.trans (Nat.min_le_right _ _))) ih

/-- Each bundle is an encoding of its packets, at least one, within the budget. -/
theorem Bundled.encoded (h : Bundled env config wireBudget bundle cursor sent stop) :
    ∀ send ∈ sent, ∃ items call encoded, items ≠ [] ∧
      send = .owned compressedAvatarBundleChannel encoded.bytes items ∧
      env.encode call (items.map BundleAvatarSend.slice) (compressionFor config items) =
        some encoded ∧ encoded.bytes.length ≤ wireBudget := by
  induction h with
  | nil => exact nofun
  | @cons cursor next stop rest call encoded hnext hbound hencode hfits _ ih =>
    intro send hsend
    rcases List.mem_cons.mp hsend with heq | hrest
    · refine ⟨_, call, encoded, ?_, heq, hencode, hfits⟩
      apply List.ne_nil_of_length_pos
      rw [range, List.length_drop, List.length_take]
      omega
    · exact ih send hrest

/-- **The packets in the bundles** are those between the cursors, each once and in order. -/
theorem Bundled.packets (h : Bundled env config wireBudget bundle cursor sent stop) :
    sent.flatMap OutboundAvatarSend.packets ++ bundle.drop stop = bundle.drop cursor := by
  induction h with
  | nil cursor => rfl
  | @cons cursor next stop rest call encoded hnext hbound _ _ _ ih =>
    rw [List.flatMap_cons, List.append_assoc, ih]
    show range bundle cursor next ++ bundle.drop next = bundle.drop cursor
    rw [range, List.drop_take]
    have hdrop : bundle.drop next = (bundle.drop cursor).drop (next - cursor) := by
      rw [List.drop_drop, Nat.add_sub_cancel' hnext.le]
    rw [hdrop, List.take_append_drop]

/-- A packet that is sent as it is. -/
def BundleAvatarSend.borrowed (item : BundleAvatarSend) : OutboundAvatarSend :=
  .borrowed item.originalChannel item.payload (item.intervalOffset, item.intervalByte)

theorem packets_borrowed (items : List BundleAvatarSend) :
    (items.map BundleAvatarSend.borrowed).flatMap OutboundAvatarSend.packets = items := by
  induction items with
  | nil => rfl
  | cons item items ih =>
    rw [List.map_cons, List.flatMap_cons, ih]
    rfl

/-- **Greedy bundling is exact.** Whatever the encoder answers, and whatever the estimate, what is
sent are bundles of consecutive ranges, each not empty, an encoding of its packets and within the
wire budget, and then the rest as it is; every packet is in it once, in order; and the buffer is
empty. -/
theorem greedy_bundling_is_exact (env : BundleEnv ρ) (config : BundleConfig) (wireBudget : ℕ)
    (direct : List OutboundAvatarSend) (bundle : List BundleAvatarSend) (ratio : ρ) :
    ∃ bundles stop,
      (emitGreedyAvatarBundles env config wireBudget direct bundle ratio).1 =
        direct ++ (bundles ++ (bundle.drop stop).map BundleAvatarSend.borrowed) ∧
      (∀ send ∈ bundles, ∃ items call encoded, items ≠ [] ∧
        send = .owned compressedAvatarBundleChannel encoded.bytes items ∧
        env.encode call (items.map BundleAvatarSend.slice) (compressionFor config items) =
          some encoded ∧ encoded.bytes.length ≤ wireBudget) ∧
      (bundles ++ (bundle.drop stop).map BundleAvatarSend.borrowed).flatMap
        OutboundAvatarSend.packets = bundle ∧
      (emitGreedyAvatarBundles env config wireBudget direct bundle ratio).2.1 = [] := by
  rw [emitGreedyAvatarBundles]
  cases bundle with
  | nil => exact ⟨[], 0, (List.append_nil direct).symm, nofun, rfl, rfl⟩
  | cons item items =>
    obtain ⟨sent, hdirect, hsent⟩ :=
      emitLoop_bundled env config wireBudget (item :: items) 0 ⟨direct, 0, ratio⟩
    rw [if_neg (by simp)]
    generalize emitLoop env config wireBudget (item :: items) 0 ⟨direct, 0, ratio⟩ = s
      at hdirect hsent ⊢
    obtain ⟨direct', stop, ratio'⟩ := s
    refine ⟨sent, stop, ?_, hsent.encoded, ?_, rfl⟩
    · have hdirect' : direct' = direct ++ sent := hdirect
      rw [← List.append_assoc, ← hdirect']
      rfl
    · rw [List.flatMap_append, packets_borrowed]
      exact hsent.packets

end BasisRust.Avatar
