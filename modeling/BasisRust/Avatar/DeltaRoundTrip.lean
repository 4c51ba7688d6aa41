import BasisRust.Avatar.DeltaBits

/-!
# Decoding a delta undoes encoding it

The bit stream of a delta is a function of the two payloads (`fieldStream`, `fieldsStream`): the
encoder writes exactly this stream, and the decoder, started on it, replaces the channels of the
dirty fields by those of the current payload.  A clean field has the same channels in both payloads,
and the channels tile the payload, so the result is the current payload.
-/

namespace BasisRust.Avatar

open Library

section

variable (baseline current : Bytes)

/-! ### The stream of a delta -/

/-- The signed difference of a channel to the baseline. -/
def residual (channel : AvatarChannel) : BitVec 32 :=
  wrapSigned (channelValue current channel - channelValue baseline channel) channel.width

def residualCost (channel : AvatarChannel) : ℕ :=
  if channel.kind = .raw then channel.width else signedEgBits (residual baseline current channel)

/-- A field is written raw when that is shorter. -/
def rawModeOf (channels : List AvatarChannel) : Bool :=
  decide ((channels.map AvatarChannel.width).sum <
    (channels.map (residualCost baseline current)).sum)

def channelStream (rawMode : Bool) (channel : AvatarChannel) : List Bool :=
  if rawMode ∨ channel.kind = .raw then wordBits (channelValue current channel) channel.width
  else egBits (zigzag (residual baseline current channel) + 1#32)

def fieldStream (channels : List AvatarChannel) : List Bool :=
  rawModeOf baseline current channels ::
    channels.flatMap (channelStream baseline current (rawModeOf baseline current channels))

/-- The streams of the dirty fields, from field number `field` on. -/
def fieldsStream (mask : Bytes) : ℕ → List (List AvatarChannel) → List Bool
  | _, [] => []
  | field, channels :: rest =>
    (if isDirty mask field then fieldStream baseline current channels else []) ++
      fieldsStream mask (field + 1) rest

/-- Whether a field differs from the baseline. -/
def differs (channels : List AvatarChannel) : Bool :=
  channels.any fun channel =>
    decide (channelValue current channel ≠ channelValue baseline channel)

end

/-- What the codec relies on for a channel: it lies inside both payloads and is not wider than a
residual can be. -/
structure ChannelOk (baseline current : Bytes) (channel : AvatarChannel) : Prop where
  inBaseline : channel.Inside baseline
  inCurrent : channel.Inside current
  pos : 0 < channel.width
  le : channel.width ≤ 24

variable {baseline current : Bytes} {channel : AvatarChannel} {channels : List AvatarChannel}
  {quality : BitQuality}

namespace ChannelOk

variable {channel : AvatarChannel}

theorem codeNe (h : ChannelOk baseline current channel) :
    (zigzag (residual baseline current channel) + 1#32).toNat ≠ 0 := by
  have hle := h.le
  rw [residual, toNat_zigzag_succ _ _ h.pos (by omega)]
  omega

theorem value_high (h : ChannelOk baseline current channel) (i : ℕ) (hi : channel.width ≤ i) :
    (channelValue current channel).getLsbD i = false := by
  rw [channelValue_getLsbD h.inCurrent, decide_eq_false (by omega), Bool.false_and]

end ChannelOk

theorem channelStream_length (h : ChannelOk baseline current channel) (rawMode : Bool) :
    (channelStream baseline current rawMode channel).length =
      if rawMode then channel.width else residualCost baseline current channel := by
  unfold channelStream residualCost
  cases rawMode with
  | true => simp
  | false =>
    by_cases hraw : channel.kind = .raw
    · simp [hraw]
    · simp [hraw, egBits_length h.codeNe, signedEgBits]

/-- The mode with fewer bits is the one that is used. -/
theorem fieldStream_length_le (h : ∀ channel ∈ channels, ChannelOk baseline current channel) :
    (fieldStream baseline current channels).length ≤
      1 + (channels.map AvatarChannel.width).sum := by
  have hlen : (channels.flatMap (channelStream baseline current
      (rawModeOf baseline current channels))).length =
      if rawModeOf baseline current channels then (channels.map AvatarChannel.width).sum
      else (channels.map (residualCost baseline current)).sum := by
    rw [List.length_flatMap]
    have hmap : ∀ rawMode,
      channels.map (fun c => (channelStream baseline current rawMode c).length) =
        channels.map (fun c => if rawMode then c.width else residualCost baseline current c) :=
      fun rawMode => List.map_congr_left fun c hc => channelStream_length (h c hc) rawMode
    rw [hmap]
    split_ifs <;> simp_all
  rw [fieldStream, List.length_cons, hlen]
  by_cases hmode : rawModeOf baseline current channels = true
  · rw [if_pos hmode]
    omega
  · rw [if_neg hmode]
    have : ¬ (channels.map AvatarChannel.width).sum <
        (channels.map (residualCost baseline current)).sum := by
      simpa [rawModeOf] using hmode
    omega

variable {fields : List (List AvatarChannel)}

theorem fieldsStream_length_le (mask : Bytes) (field : ℕ)
    (h : ∀ channel ∈ fields.flatten, ChannelOk baseline current channel) :
    (fieldsStream baseline current mask field fields).length ≤
      fields.length + (fields.flatten.map AvatarChannel.width).sum := by
  induction fields generalizing field with
  | nil => simp [fieldsStream]
  | cons channels rest ih =>
    rw [List.flatten_cons] at h
    have hfield := fieldStream_length_le fun c hc => h c (List.mem_append_left _ hc)
    have hrest := ih (field + 1) fun c hc => h c (List.mem_append_right _ hc)
    rw [fieldsStream, List.length_append, List.length_cons, List.flatten_cons, List.map_append,
      List.sum_append]
    split_ifs
    · omega
    · rw [List.length_nil]
      omega

/-! ### Encoding -/

theorem fieldCost_spec (h : ∀ channel ∈ channels, ChannelOk baseline current channel)
    (residualBits rawBits : ℕ) :
    fieldCost baseline current channels residualBits rawBits =
      .ok (residualBits + (channels.map (residualCost baseline current)).sum,
        rawBits + (channels.map AvatarChannel.width).sum) := by
  induction channels generalizing residualBits rawBits with
  | nil => simp [fieldCost]
  | cons channel rest ih =>
    have hrest := ih fun c hc => h c (.tail _ hc)
    have hchannel := h channel (.head _)
    unfold fieldCost
    rw [List.map_cons, List.sum_cons, List.map_cons,
      List.sum_cons, ← Nat.add_assoc, ← Nat.add_assoc]
    by_cases hraw : channel.kind = .raw
    · rw [if_pos hraw, hrest, residualCost, if_pos hraw]
    · rw [if_neg hraw, readChannel_eq hchannel.inCurrent, readChannel_eq hchannel.inBaseline,
        residualCost, if_neg hraw, residual]
      exact hrest _ _

theorem wordBits_setWidth (value : BitVec 32) (count : ℕ) (h : count ≤ 32) :
    wordBits (value.setWidth 64) count = wordBits value count := by
  unfold wordBits
  refine List.map_congr_left fun i hi => ?_
  have hi : i < count := by simpa using hi
  rw [BitVec.getLsbD_setWidth, decide_eq_true (show i < 64 from by omega), Bool.true_and]

theorem writeChannels_spec (rawMode : Bool)
    (h : ∀ channel ∈ channels, ChannelOk baseline current channel) (writer : ResidualBitWriter)
    (hfit : writer.bitPosition +
      (channels.flatMap (channelStream baseline current rawMode)).length ≤
        8 * writer.bytes.length) :
    ∃ writer', writeChannels baseline current rawMode channels writer = .ok writer' ∧
      Wrote writer writer' (channels.flatMap (channelStream baseline current rawMode)) := by
  induction channels generalizing writer with
  | nil => exact ⟨writer, rfl, .nil writer⟩
  | cons channel rest ih =>
    have hchannel := h channel (.head _)
    have hle := hchannel.le
    rw [List.flatMap_cons, List.length_append] at hfit
    -- the channel itself, in either form
    have hone : ∃ next, (if rawMode ∨ channel.kind = .raw then
          writer.writeBits ((channelValue current channel).setWidth 64) channel.width
        else writer.writeSignedEg (residual baseline current channel)) = .ok next ∧
        Wrote writer next (channelStream baseline current rawMode channel) := by
      unfold channelStream at hfit ⊢
      by_cases hraw : rawMode ∨ channel.kind = .raw
      · simp only [if_pos hraw] at hfit ⊢
        rw [wordBits_length] at hfit
        obtain ⟨next, heq, hwrote⟩ := writeBits_spec writer
          ((channelValue current channel).setWidth 64) channel.width (by omega)
        rw [wordBits_setWidth _ _ (show channel.width ≤ 32 from by omega)] at hwrote
        exact ⟨next, heq, hwrote⟩
      · simp only [if_neg hraw] at hfit ⊢
        refine writeSignedEg_spec writer _ hchannel.codeNe ?_
        rw [egBits_length hchannel.codeNe] at hfit
        unfold signedEgBits
        omega
    obtain ⟨next, heq, hwrote⟩ := hone
    obtain ⟨writer', heq', hwrote'⟩ := ih (fun c hc => h c (.tail _ hc)) next (by
      rw [hwrote.position, hwrote.length]
      omega)
    refine ⟨writer', ?_, hwrote.trans hwrote'⟩
    unfold writeChannels
    rw [readChannel_eq hchannel.inCurrent]
    by_cases hraw : rawMode ∨ channel.kind = .raw
    · rw [if_pos hraw] at heq
      simp only [bind, Except.bind, if_pos hraw, heq, heq']
    · rw [if_neg hraw, residual] at heq
      simp only [bind, Except.bind, if_neg hraw, readChannel_eq hchannel.inBaseline, heq, heq']

theorem writeField_spec (h : ∀ channel ∈ channels, ChannelOk baseline current channel)
    (writer : ResidualBitWriter)
    (hfit : writer.bitPosition + (fieldStream baseline current channels).length ≤
      8 * writer.bytes.length) :
    ∃ writer', writeField baseline current channels writer = .ok writer' ∧
      Wrote writer writer' (fieldStream baseline current channels) := by
  rw [fieldStream, List.length_cons] at hfit
  obtain ⟨next, heq, hwrote⟩ :=
    writeBit_spec writer (rawModeOf baseline current channels) (by omega)
  have hpos := hwrote.position
  obtain ⟨writer', heq', hwrote'⟩ := writeChannels_spec (rawModeOf baseline current channels) h next
    (by
      rw [hpos, hwrote.length, List.length_singleton]
      omega)
  refine ⟨writer', ?_, hwrote.trans hwrote'⟩
  unfold writeField
  rw [fieldCost_spec h]
  simp only [bind, Except.bind, Nat.zero_add]
  rw [show decide ((channels.map AvatarChannel.width).sum <
    (channels.map (residualCost baseline current)).sum) = rawModeOf baseline current channels
      from rfl, heq]
  exact heq'

/-- **The encoder writes the stream.** -/
theorem writeFields_spec (mask : Bytes) (field : ℕ)
    (h : ∀ channel ∈ fields.flatten, ChannelOk baseline current channel)
    (writer : ResidualBitWriter)
    (hfit : writer.bitPosition + (fieldsStream baseline current mask field fields).length ≤
      8 * writer.bytes.length) :
    ∃ writer', writeFields baseline current mask field fields writer = .ok writer' ∧
      Wrote writer writer' (fieldsStream baseline current mask field fields) := by
  induction fields generalizing field writer with
  | nil => exact ⟨writer, rfl, .nil writer⟩
  | cons channels rest ih =>
    rw [List.flatten_cons] at h
    have hrest := fun c hc => h c (List.mem_append_right _ hc)
    unfold writeFields
    rw [fieldsStream, List.length_append] at hfit
    rw [fieldsStream]
    by_cases hdirty : isDirty mask field = true
    · rw [if_pos hdirty] at hfit ⊢
      obtain ⟨next, heq, hwrote⟩ := writeField_spec
        (fun c hc => h c (List.mem_append_left _ hc)) writer (by omega)
      obtain ⟨writer', heq', hwrote'⟩ := ih (field + 1) hrest next (by
        rw [hwrote.position, hwrote.length]
        omega)
      refine ⟨writer', ?_, by rw [if_pos hdirty]; exact hwrote.trans hwrote'⟩
      simp only [bind, Except.bind, heq, heq']
    · rw [if_neg hdirty] at hfit ⊢
      rw [if_neg hdirty]
      exact ih (field + 1) hrest writer (by simpa using hfit)

theorem fieldDiffers_spec (h : ∀ channel ∈ channels, ChannelOk baseline current channel) :
    fieldDiffers baseline current channels = .ok (differs baseline current channels) := by
  induction channels with
  | nil => rfl
  | cons channel rest ih =>
    have hchannel := h channel (.head _)
    unfold fieldDiffers
    rw [readChannel_eq hchannel.inCurrent, readChannel_eq hchannel.inBaseline, differs,
      List.any_cons]
    simp only [bind, Except.bind]
    by_cases hne : channelValue current channel ≠ channelValue baseline channel
    · rw [if_pos hne, decide_eq_true hne]
      rfl
    · rw [if_neg hne, decide_eq_false hne, Bool.false_or]
      exact ih fun c hc => h c (.tail _ hc)

/-- **The dirty mask** has the bits of the fields that differ. -/
theorem buildMask_spec (field : ℕ)
    (h : ∀ channel ∈ fields.flatten, ChannelOk baseline current channel) (mask : Bytes)
    (hfit : field + fields.length ≤ 8 * mask.length) :
    ∃ mask', buildMask baseline current field fields mask = .ok mask' ∧
      mask'.length = mask.length ∧ (∀ f, f < field → bitAt mask' f = bitAt mask f) ∧
      ∀ i channels, fields[i]? = some channels →
        bitAt mask' (field + i) =
          (bitAt mask (field + i) || differs baseline current channels) := by
  induction fields generalizing field mask with
  | nil => exact ⟨mask, rfl, rfl, fun _ _ => rfl, by simp⟩
  | cons channels rest ih =>
    rw [List.flatten_cons] at h
    rw [List.length_cons] at hfit
    have hset : ∀ f, bitAt
      (if differs baseline current channels then setBitAt mask field else mask) f
        = (bitAt mask f || (decide (f = field) && differs baseline current channels)) := by
      intro f
      split_ifs with hd
      · rw [bitAt_setBitAt (by omega) _ _ _ (by omega), hd, Bool.and_true, Bool.or_comm]
      · simp [hd]
    obtain ⟨mask', heq, hlen, hbefore, hafter⟩ := ih (field + 1)
      (fun c hc => h c (List.mem_append_right _ hc))
      (if differs baseline current channels then setBitAt mask field else mask) (by
        split_ifs
        · rw [setBitAt_length]
          omega
        · omega)
    refine ⟨mask', ?_, ?_, ?_, ?_⟩
    · unfold buildMask
      rw [fieldDiffers_spec fun c hc => h c (List.mem_append_left _ hc)]
      simp only [bind, Except.bind, heq]
    · rw [hlen]
      split_ifs <;> simp
    · intro f hf
      rw [hbefore f (by omega), hset, decide_eq_false (by omega), Bool.false_and, Bool.or_false]
    · intro i chs hi
      cases i with
      | zero =>
        have hchs : chs = channels := by simpa using hi.symm
        rw [hchs, Nat.add_zero, hbefore field (by omega), hset, decide_eq_true rfl, Bool.true_and]
      | succ i =>
        rw [List.getElem?_cons_succ] at hi
        rw [show field + (i + 1) = field + 1 + i from by omega, hafter i chs hi, hset,
          decide_eq_false (by omega), Bool.false_and, Bool.or_false]

/-! ### Decoding -/

/-- `output'` is `output` with some bits replaced by those of `current`. -/
structure Toward (current output output' : Bytes) : Prop where
  length : output'.length = output.length
  bits : ∀ k, bitAt output' k = bitAt current k ∨ bitAt output' k = bitAt output k

/-- The bits of a channel are those of the current payload. -/
def Restored (current output : Bytes) (channel : AvatarChannel) : Prop :=
  ∀ k, channel.bitOffset ≤ k → k < channel.bitOffset + channel.width →
    bitAt output k = bitAt current k

theorem Toward.refl (current output : Bytes) : Toward current output output :=
  ⟨rfl, fun _ => .inr rfl⟩

theorem Toward.trans {o₁ o₂ o₃ : Bytes} (h : Toward current o₁ o₂) (h' : Toward current o₂ o₃) :
    Toward current o₁ o₃ := by
  refine ⟨h'.length.trans h.length, fun k => ?_⟩
  rcases h'.bits k with hk | hk
  · exact .inl hk
  · rw [hk]
    exact h.bits k

theorem Restored.mono {output output' : Bytes} (h : Restored current output channel)
    (ht : Toward current output output') : Restored current output' channel := by
  intro k hk hk'
  rcases ht.bits k with hb | hb
  · exact hb
  · rw [hb, h k hk hk']

/-- Replacing a channel by its current value. -/
theorem replaceChannel_restores {output : Bytes} (h : ChannelOk baseline current channel)
    (hin : channel.Inside output) :
    ∃ output', replaceChannel output channel (channelValue current channel) = .ok output' ∧
      Toward current output output' ∧ Restored current output' channel := by
  obtain ⟨output', heq, hlen, hbits⟩ := replaceChannel_spec (channelValue current channel) hin h.pos
  have hrestored : Restored current output' channel := by
    intro k hk hk'
    rw [hbits k, if_pos ⟨hk, hk'⟩, channelValue_getLsbD h.inCurrent, decide_eq_true (by omega),
      Bool.true_and]
    congr 1
    omega
  refine ⟨output', heq, ⟨hlen, fun k => ?_⟩, hrestored⟩
  by_cases hk : channel.bitOffset ≤ k ∧ k < channel.bitOffset + channel.width
  · exact .inl (hrestored k hk.1 hk.2)
  · rw [hbits k, if_neg hk]
    exact .inr rfl

theorem AvatarChannel.Inside.of_length {payload payload' : Bytes} (h : channel.Inside payload)
    (hlen : payload'.length = payload.length) :
    channel.Inside payload' :=
  ⟨h.1, hlen ▸ h.2⟩

theorem readChannels_spec (rawMode : Bool)
    (h : ∀ channel ∈ channels, ChannelOk baseline current channel) (reader : ResidualBitReader)
    (output : Bytes) (hin : ∀ channel ∈ channels, channel.Inside output)
    (hnext : Next reader (channels.flatMap (channelStream baseline current rawMode))) :
    ∃ output', readChannels baseline rawMode channels reader output =
        .ok (output', reader.skip
          (channels.flatMap (channelStream baseline current rawMode)).length) ∧
      Toward current output output' ∧ ∀ channel ∈ channels, Restored current output' channel := by
  induction channels generalizing reader output with
  | nil => exact ⟨output, rfl, .refl _ _, by simp⟩
  | cons channel rest ih =>
    have hchannel := h channel (.head _)
    have hle := hchannel.le
    rw [List.flatMap_cons, Next.append] at hnext
    obtain ⟨output₁, heq₁, htoward, hrestored⟩ :=
      replaceChannel_restores hchannel (hin channel (.head _))
    obtain ⟨output', heq', htoward', hrestored'⟩ := ih
      (fun c hc => h c (.tail _ hc))
      (reader.skip (channelStream baseline current rawMode channel).length) output₁
      (fun c hc => (hin c (.tail _ hc)).of_length htoward.length) hnext.2
    refine ⟨output', ?_, htoward.trans htoward', ?_⟩
    · rw [List.flatMap_cons, List.length_append, ← skip_skip, ← heq', readChannels]
      have hone := hnext.1
      unfold channelStream at hone ⊢
      by_cases hraw : rawMode ∨ channel.kind = .raw
      · simp only [if_pos hraw] at hone ⊢
        obtain ⟨word, hread, hword⟩ :=
          readBits_spec hchannel.pos (by omega) hchannel.value_high hone
        simp only [bind, Except.bind, hread, hword, heq₁, wordBits_length]
      · simp only [if_neg hraw] at hone ⊢
        rw [readSignedEg_spec hchannel.codeNe hone]
        have hvalue := wrapSigned_restores (channelValue current channel)
          (channelValue baseline channel) channel.width hchannel.pos (by omega) hchannel.value_high
        simp only [bind, Except.bind, readChannel_eq hchannel.inBaseline, residual, hvalue, heq₁]
    · intro c hc
      rcases List.mem_cons.mp hc with rfl | hc
      · exact hrestored.mono htoward'
      · exact hrestored' c hc

/-- **The decoder reads the stream back.** -/
theorem readFields_spec (mask : Bytes) (field : ℕ)
    (h : ∀ channel ∈ fields.flatten, ChannelOk baseline current channel)
    (reader : ResidualBitReader) (output : Bytes)
    (hin : ∀ channel ∈ fields.flatten, channel.Inside output)
    (hnext : Next reader (fieldsStream baseline current mask field fields)) :
    ∃ output', readFields baseline mask field fields reader output =
        .ok (output', reader.skip (fieldsStream baseline current mask field fields).length) ∧
      Toward current output output' ∧ ∀ i channels, fields[i]? = some channels →
        isDirty mask (field + i) = true → ∀ channel ∈ channels,
          Restored current output' channel := by
  induction fields generalizing field reader output with
  | nil => exact ⟨output, rfl, .refl _ _, by simp⟩
  | cons channels rest ih =>
    rw [List.flatten_cons] at h hin
    have hrest := fun c hc => h c (List.mem_append_right _ hc)
    rw [fieldsStream, Next.append] at hnext
    unfold readFields
    by_cases hdirty : isDirty mask field = true
    · rw [if_pos hdirty] at hnext
      obtain ⟨hfield, hnext⟩ := hnext
      rw [fieldStream, ← List.singleton_append, Next.append] at hfield
      obtain ⟨output₁, heq₁, htoward, hrestored⟩ := readChannels_spec _
        (fun c hc => h c (List.mem_append_left _ hc)) (reader.skip 1) output
        (fun c hc => hin c (List.mem_append_left _ hc)) hfield.2
      rw [skip_skip] at heq₁
      have hlen : 1 + (channels.flatMap (channelStream baseline current
          (rawModeOf baseline current channels))).length =
          (fieldStream baseline current channels).length := by
        rw [fieldStream, List.length_cons, Nat.add_comm]
      rw [hlen] at heq₁
      obtain ⟨output', heq', htoward', hrestored'⟩ := ih (field + 1) hrest
        (reader.skip (fieldStream baseline current channels).length) output₁
        (fun c hc => (hin c (List.mem_append_right _ hc)).of_length htoward.length) hnext
      refine ⟨output', ?_, htoward.trans htoward', ?_⟩
      · rw [if_pos hdirty, fieldsStream, if_pos hdirty, List.length_append, ← skip_skip, ← heq',
          readBit_spec hfield.1]
        simp only [bind, Except.bind, heq₁]
      · intro i chs hi hd c hc
        cases i with
        | zero =>
          have hchs : chs = channels := by simpa using hi.symm
          exact (hrestored c (hchs ▸ hc)).mono htoward'
        | succ i =>
          rw [List.getElem?_cons_succ] at hi
          rw [show field + (i + 1) = field + 1 + i from by omega] at hd
          exact hrestored' i chs hi hd c hc
    · rw [if_neg hdirty] at hnext
      obtain ⟨output', heq', htoward', hrestored'⟩ := ih (field + 1) hrest reader output
        (fun c hc => hin c (List.mem_append_right _ hc)) hnext.2
      refine ⟨output', ?_, htoward', ?_⟩
      · rw [if_neg hdirty, heq', fieldsStream, if_neg hdirty, List.nil_append]
      · intro i chs hi hd
        cases i with
        | zero => exact absurd hd hdirty
        | succ i =>
          rw [List.getElem?_cons_succ] at hi
          rw [show field + (i + 1) = field + 1 + i from by omega] at hd
          exact hrestored' i chs hi hd

/-! ### The round trip -/

theorem layout_channelOk (hb : quality.payloadLen ≤ baseline.length)
    (hc : quality.payloadLen ≤ current.length) :
    ∀ channel ∈ (buildLayout quality).flatten, ChannelOk baseline current channel := by
  intro channel hmem
  have hin := (layout_contiguous quality).channel_le.2 channel hmem
  have hwidth := layout_widths quality channel hmem
  exact ⟨⟨by omega, by omega⟩, ⟨by omega, by omega⟩, hwidth.1, hwidth.2⟩

@[simp] theorem buildLayout_length (quality : BitQuality) :
    (buildLayout quality).length = fieldCount := by
  simp [buildLayout]

/-- Every bit of the payload lies in a channel of some field. -/
theorem exists_field_channel (quality : BitQuality) {k : ℕ} (hk : k < 8 * quality.payloadLen) :
    ∃ (i : ℕ) (channels : List AvatarChannel), (buildLayout quality)[i]? = some channels ∧
      ∃ channel ∈ channels, channel.bitOffset ≤ k ∧ k < channel.bitOffset + channel.width := by
  obtain ⟨channel, hmem, hin⟩ := (layout_contiguous quality).exists_channel (Nat.zero_le k) hk
  obtain ⟨channels, hchannels, hmem⟩ := List.mem_flatten.mp hmem
  obtain ⟨i, hi⟩ := List.mem_iff_getElem?.mp hchannels
  exact ⟨i, channels, hi, channel, hmem, hin⟩

/-- What a delta is: a mask whose clear bits belong to fields that have not changed, and the stream
of the other fields, padded to a whole byte. -/
structure Encodes (baseline current : Bytes) (quality : BitQuality) (delta : Bytes) : Prop where
  length : delta.length = dirtyMaskBytes +
    ((fieldsStream baseline current (delta.take dirtyMaskBytes) 0
      (buildLayout quality)).length + 7) / 8
  holds : Holds delta (dirtyMaskBytes * 8)
    (fieldsStream baseline current (delta.take dirtyMaskBytes) 0 (buildLayout quality))
  clean : ∀ i channels, (buildLayout quality)[i]? = some channels →
    isDirty (delta.take dirtyMaskBytes) i = false → ∀ channel ∈ channels,
      Restored current (baseline.take quality.payloadLen) channel

/-- The bits of a byte string survive what is appended to it. -/
theorem agree_append (bytes trailing : Bytes) (stop : ℕ) (hstop : stop ≤ 8 * bytes.length) :
    Agree bytes (bytes ++ trailing) 0 stop := by
  intro k _ hk
  rw [bitAt_append, if_pos (by omega)]

/-- **The decoder on a delta**, whatever follows it. -/
theorem applyDelta_of_encodes {delta : Bytes} (trailing : Bytes)
    (hb : quality.payloadLen ≤ baseline.length) (hc : quality.payloadLen ≤ current.length)
    (h : Encodes baseline current quality delta) :
    applyDelta baseline (delta ++ trailing) quality =
      .ok (current.take quality.payloadLen, delta.length) := by
  have hok := layout_channelOk hb hc
  have hmaskLen : dirtyMaskBytes = 5 := rfl
  have hlen : (baseline.take quality.payloadLen).length = quality.payloadLen := by
    rw [List.length_take]
    omega
  have hin : ∀ channel ∈ (buildLayout quality).flatten,
      channel.Inside (baseline.take quality.payloadLen) := fun channel hmem =>
    ⟨(hok channel hmem).inBaseline.1, by
      rw [hlen]
      exact (layout_contiguous quality).channel_le.2 channel hmem⟩
  obtain ⟨hlength, hholds, hclean⟩ := h
  have htake : (delta ++ trailing).take dirtyMaskBytes = delta.take dirtyMaskBytes :=
    List.take_append_of_le_length (by omega)
  generalize delta.take dirtyMaskBytes = mask at hlength hholds hclean htake
  generalize hstream : fieldsStream baseline current mask 0 (buildLayout quality) = stream
    at hlength hholds
  have hagree := agree_append delta trailing (dirtyMaskBytes * 8 + stream.length) (by omega)
  have hfits : dirtyMaskBytes * 8 + stream.length ≤ (delta ++ trailing).length * 8 := by
    rw [List.length_append]
    omega
  obtain ⟨output, heq, htoward, hrestored⟩ := readFields_spec mask 0 hok
    ⟨delta ++ trailing, dirtyMaskBytes * 8, (delta ++ trailing).length * 8⟩
    (baseline.take quality.payloadLen) hin
    ⟨by rw [hstream]; exact hfits, by simp [Nat.mul_comm],
      hstream ▸ Agree.holds (fun k hk hk' => hagree k (by omega) hk') hholds⟩
  have hout : output = current.take quality.payloadLen := by
    have hlen' : output.length = quality.payloadLen := htoward.length.trans hlen
    refine eq_of_bitAt (by rw [hlen', List.length_take]; omega) fun k hk => ?_
    rw [hlen'] at hk
    rw [bitAt_take _ _ _ hk]
    obtain ⟨i, channels, hi, channel, hmem, hlo, hhi⟩ := exists_field_channel quality hk
    cases hdirty : isDirty mask i with
    | true => exact hrestored i channels hi (by simpa using hdirty) channel hmem k hlo hhi
    | false => exact ((hclean i channels hi hdirty channel hmem).mono htoward) k hlo hhi
  unfold applyDelta
  rw [if_neg (by omega), if_neg (by rw [List.length_append]; omega)]
  simp only [bind, Except.bind, htake, heq, hstream, skip_position, Nat.add_sub_cancel_left, hout]
  rw [if_neg (by rw [List.length_append]; omega), ← hlength]
  rfl

/-- Without dirty fields there is no stream. -/
theorem fieldsStream_clean (baseline current mask : Bytes) (field : ℕ)
    (fields : List (List AvatarChannel))
    (h : ∀ f, isDirty mask f = false) : fieldsStream baseline current mask field fields = [] := by
  induction fields generalizing field with
  | nil => rfl
  | cons channels rest ih => simp [fieldsStream, h, ih]

/-- Channels with equal values have equal bits. -/
theorem restored_of_value_eq (h : ChannelOk baseline current channel)
    (hin : channel.bitOffset + channel.width ≤ 8 * quality.payloadLen)
    (heq : channelValue current channel = channelValue baseline channel) :
    Restored current (baseline.take quality.payloadLen) channel := by
  intro k hk hk'
  have hcur := channelValue_getLsbD h.inCurrent (k - channel.bitOffset)
  have hbase := channelValue_getLsbD h.inBaseline (k - channel.bitOffset)
  rw [heq, hbase, decide_eq_true (by omega), Bool.true_and, Bool.true_and,
    show channel.bitOffset + (k - channel.bitOffset) = k from by omega] at hcur
  rw [bitAt_take _ _ _ (by omega), hcur]

/-- **The encoder makes a delta**, and every access is inside its buffer. -/
theorem buildDelta_encodes (quality : BitQuality) (hb : quality.payloadLen ≤ baseline.length)
    (hc : quality.payloadLen ≤ current.length) :
    ∃ delta, buildDelta baseline current quality = .ok delta ∧
      Encodes baseline current quality delta := by
  have hok := layout_channelOk hb hc
  have hmaskLen : dirtyMaskBytes = 5 := rfl
  unfold buildDelta
  dsimp only
  rw [if_neg (by omega), if_neg (by omega)]
  by_cases hsame : baseline.take quality.payloadLen = current.take quality.payloadLen
  · -- equal payloads: a clear mask and no stream
    rw [if_pos hsame]
    have htake : (List.replicate dirtyMaskBytes 0#8).take dirtyMaskBytes =
        List.replicate dirtyMaskBytes 0#8 := List.take_of_length_le (by simp)
    have hstream := fieldsStream_clean baseline current
      (List.replicate dirtyMaskBytes 0#8) 0 (buildLayout quality) fun f => bitAt_replicate_zero _ _
    refine ⟨_, rfl, ?_, ?_, ?_⟩
    · rw [htake, hstream]
      simp
    · rw [htake, hstream]
      trivial
    · intro i channels hi _ channel hmem k hk hk'
      have hin := (layout_contiguous quality).channel_le.2 channel
        (List.mem_flatten_of_mem (List.mem_of_getElem? hi) hmem)
      rw [hsame, bitAt_take _ _ _ (by omega)]
  · rw [if_neg hsame]
    obtain ⟨mask, hmask, hlen, -, hbits⟩ := buildMask_spec 0 hok (List.replicate dirtyMaskBytes 0#8)
      (by simp [hmaskLen, fieldCount, rotationFieldCount, wireBoneSlotCount, fingerChannelCount])
    rw [List.length_replicate] at hlen
    -- the buffer is large enough for the stream and its padding
    have hstreamLe := fieldsStream_length_le mask 0 hok
    have hsum := (layout_contiguous quality).sum_width
    have hcount : fieldCount = 37 := rfl
    rw [buildLayout_length, hcount] at hstreamLe
    obtain ⟨writer, hwriter, hwrote⟩ := writeFields_spec mask 0 hok
      ⟨mask ++ List.replicate (quality.payloadLen + 8) 0#8, dirtyMaskBytes * 8⟩ (by
        simp only [List.length_append, List.length_replicate]
        omega)
    generalize hstream : fieldsStream baseline current mask 0 (buildLayout quality) = stream
      at hwrote hstreamLe
    have hposition : writer.bitPosition = dirtyMaskBytes * 8 + stream.length := hwrote.position
    have hbytes : writer.bytes.length = dirtyMaskBytes + (quality.payloadLen + 8) := by
      rw [hwrote.length, List.length_append, List.length_replicate, hlen]
    obtain ⟨padded, hpadded, hpaddedLen, hagree⟩ := writePad_spec writer
      ((8 - stream.length % 8) % 8) (by omega)
    refine ⟨padded.bytes.take (dirtyMaskBytes + (stream.length + 7) / 8), ?_, ?_⟩
    · simp only [bind, Except.bind, hmask, hwriter, hposition, Nat.add_sub_cancel_left, hpadded]
      rfl
    · have hcut : ∀ k, k < dirtyMaskBytes * 8 + stream.length →
          bitAt (padded.bytes.take (dirtyMaskBytes + (stream.length + 7) / 8)) k =
            bitAt writer.bytes k := by
        intro k hk
        rw [bitAt_take _ _ _ (by omega), hagree k (by omega) (by omega)]
      generalize hdelta : padded.bytes.take (dirtyMaskBytes + (stream.length + 7) / 8) = delta
        at hcut
      have hdeltaLen : delta.length = dirtyMaskBytes + (stream.length + 7) / 8 := by
        rw [← hdelta, List.length_take]
        omega
      have htake : delta.take dirtyMaskBytes = mask := by
        refine eq_of_bitAt (by rw [List.length_take, hlen]; omega) fun k hk => ?_
        rw [List.length_take] at hk
        rw [bitAt_take _ _ _ (by omega), hcut k (by omega),
          hwrote.before k (by omega) (show k < dirtyMaskBytes * 8 from by omega), bitAt_append,
          if_pos (by omega)]
      refine ⟨?_, ?_, ?_⟩
      · rw [htake, hstream, hdeltaLen]
      · rw [htake, hstream]
        exact Agree.holds (fun k _ hk' => hcut k hk') hwrote.bits
      · intro i channels hi hclear channel hmem
        rw [htake] at hclear
        have hchannel := List.mem_flatten_of_mem (List.mem_of_getElem? hi) hmem
        refine restored_of_value_eq (hok channel hchannel)
          ((layout_contiguous quality).channel_le.2 channel hchannel) ?_
        have hbit := hbits i channels hi
        rw [Nat.zero_add, show bitAt mask i = false from hclear, bitAt_replicate_zero,
          Bool.false_or] at hbit
        by_contra hne
        have : differs baseline current channels = true :=
          List.any_eq_true.mpr ⟨channel, hmem, decide_eq_true hne⟩
        rw [this] at hbit
        cases hbit

/-- **The round trip.**  For payloads of at least the length of the format, the delta is built, and
decoding it, with any bytes after it, gives the current payload and consumes exactly the delta. -/
theorem applyDelta_buildDelta (quality : BitQuality) (baseline current trailing : Bytes)
    (hb : quality.payloadLen ≤ baseline.length) (hc : quality.payloadLen ≤ current.length) :
    ∃ delta, buildDelta baseline current quality = .ok delta ∧
      applyDelta baseline (delta ++ trailing) quality =
        .ok (current.take quality.payloadLen, delta.length) := by
  obtain ⟨delta, hbuild, hencodes⟩ := buildDelta_encodes quality hb hc
  exact ⟨delta, hbuild, applyDelta_of_encodes trailing hb hc hencodes⟩

/-- Two payloads of the lowest quality that differ in every bit. -/
theorem applyDelta_buildDelta_inverted :
    ∃ delta, buildDelta (List.replicate 74 0#8) (List.replicate 74 255#8) .veryLow = .ok delta ∧
      applyDelta (List.replicate 74 0#8) (delta ++ [7#8]) .veryLow =
        .ok ((List.replicate 74 255#8).take 74, delta.length) :=
  applyDelta_buildDelta .veryLow (List.replicate 74 0#8) (List.replicate 74 255#8) [7#8]
    (by decide) (by decide)

end BasisRust.Avatar
