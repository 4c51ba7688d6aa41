import BasisRust.Avatar.DeltaBits
import BasisRust.Library.LocalRead

/-!
# Decoding a delta is total and local

Each read ends in an error of the stream or takes bits that are there, and only these decide the
result.  The fields outside the dirty set keep all their bits (`Kept`).
-/

namespace BasisRust.Avatar

open Library ResidualBitReader

/-! ### The bits that come next -/

/-- The next `n` bits of both readers are there and are the same; both read to the end of their
bytes. -/
structure SameBits (n : ℕ) (r t : ResidualBitReader) : Prop where
  sized : r.endBit = 8 * r.bytes.length
  sized' : t.endBit = 8 * t.bytes.length
  position : t.bitPosition = r.bitPosition
  left : r.bitPosition + n ≤ r.endBit
  left' : t.bitPosition + n ≤ t.endBit
  agree : Agree r.bytes t.bytes r.bitPosition (r.bitPosition + n)

variable {n : ℕ} {r : ResidualBitReader} {fields : List (List AvatarChannel)}

theorem SameBits.refl (h : r.endBit = 8 * r.bytes.length) (hleft : r.bitPosition + n ≤ r.endBit) :
    SameBits n r r :=
  ⟨h, h, rfl, hleft, hleft, fun _ _ _ => rfl⟩

theorem sameBits_append {m : ℕ} {t : ResidualBitReader} :
    SameBits (m + n) r t ↔ SameBits m r t ∧ SameBits n (r.skip m) (t.skip m) := by
  constructor
  · rintro ⟨hsized, hsized', hposition, hleft, hleft', hagree⟩
    refine ⟨⟨hsized, hsized', hposition, by omega, by omega, ?_⟩, hsized, hsized', ?_, ?_, ?_, ?_⟩
    · intro k hk hk'
      exact hagree k hk (by omega)
    · rw [skip_position, skip_position, hposition]
    · rw [skip_position, skip_endBit]
      omega
    · rw [skip_position, skip_endBit]
      omega
    · intro k hk hk'
      rw [skip_position] at hk hk'
      exact hagree k (by omega) (by omega)
  · rintro ⟨⟨hsized, hsized', hposition, hleft, hleft', hagree⟩, hrest⟩
    have hend := hrest.left
    have hend' := hrest.left'
    rw [skip_position, skip_endBit] at hend hend'
    refine ⟨hsized, hsized', hposition, by omega, by omega, ?_⟩
    intro k hk hk'
    by_cases hfirst : k < r.bitPosition + m
    · exact hagree k hk hfirst
    · exact hrest.agree k (by rw [skip_position]; omega) (by rw [skip_position]; omega)

/-- The bit stream as a source. -/
def bitSource : Source ResidualBitReader where
  skip := ResidualBitReader.skip
  Same := SameBits
  skip_zero _ := rfl
  skip_skip r m n := skip_skip r m n
  same_left h := .refl h.sized h.left
  same_append := sameBits_append

/-- The error that stands for an index outside its buffer. -/
def Fault (e : DeltaError) : Prop := e = .outOfBounds

/-- Local on the bit stream, with a result that has `Q`. -/
def LocalBits {α : Type} (op : ResidualBitReader → Except DeltaError (α × ResidualBitReader))
    (Q : α → Prop) : Prop :=
  Local bitSource Fault op Q

/-! ### Reads -/

theorem readBit_eq (hsized : r.endBit = 8 * r.bytes.length) (hleft : r.bitPosition + 1 ≤ r.endBit) :
    r.readBit = .ok (bitAt r.bytes r.bitPosition, r.skip 1) := by
  have hidx : r.bitPosition / 8 < r.bytes.length := by omega
  have hget := List.getElem?_eq_getElem hidx
  unfold readBit
  rw [if_neg (by omega), hget]
  dsimp only
  rw [bitAt_eq_getElem hget rfl]
  rfl

/-- A read that refuses an exhausted stream and takes the next bit else. -/
theorem nextBit_local {op : ResidualBitReader → Except DeltaError (Bool × ResidualBitReader)}
    {e : DeltaError} (he : ¬Fault e) (hempty : ∀ r, r.endBit < r.bitPosition + 1 → op r = .error e)
    (hop : ∀ r, r.bitPosition + 1 ≤ r.endBit → op r = r.readBit) :
    LocalBits op fun _ => True := by
  intro r hr
  by_cases hleft : r.bitPosition + 1 ≤ r.endBit
  · refine .inr ⟨bitAt r.bytes r.bitPosition, 1, trivial, .refl hr.sized hleft, ?_⟩
    intro t ht
    have hagree := ht.agree r.bitPosition le_rfl (Nat.lt_succ_self _)
    rw [hop t ht.left', readBit_eq ht.sized' ht.left', ht.position, hagree]
    rfl
  · exact .inl ⟨e, hempty r (by omega), he⟩

theorem readBit_local : LocalBits readBit fun _ => True := by
  refine nextBit_local (e := .truncatedBitstream) nofun ?_ fun _ _ => rfl
  intro r h
  exact if_pos h

/-- **Reading bits** that are there. -/
theorem readBits_eq {count : ℕ} (hcount : count ≤ 57) (hsized : r.endBit = 8 * r.bytes.length)
    (hleft : r.bitPosition + count ≤ r.endBit) :
    ∃ value, r.readBits count = .ok (value, r.skip count) ∧ ∀ i, value.getLsbD i =
      (decide (i < count) && bitAt r.bytes (r.bitPosition + i)) := by
  unfold readBits getRange
  dsimp only
  rw [if_neg (by omega)]
  by_cases hzero : count = 0
  · rw [if_pos hzero, hzero]
    refine ⟨0#64, rfl, ?_⟩
    intro i
    rw [BitVec.getLsbD_zero, decide_eq_false (Nat.not_lt_zero i), Bool.false_and]
  have hrange : r.bitPosition / 8 + (r.bitPosition % 8 + count + 7) / 8 ≤ r.bytes.length := by omega
  rw [if_neg hzero, if_pos (by omega), if_pos hrange]
  refine ⟨_, rfl, ?_⟩
  intro i
  rw [BitVec.getLsbD_and, BitVec.getLsbD_ushiftRight, getLsbD_lowMask, getLsbD_gather]
  by_cases hi : i < count
  · rw [bitAt_slice _ _ _ _ (by omega),
      show 8 * (r.bitPosition / 8) + (r.bitPosition % 8 + i - 0 * 8) = r.bitPosition + i by omega]
    simp [hi, show i < 64 by omega, show r.bitPosition % 8 + i < 64 by omega]
  · simp [hi]

theorem readBits_local {count : ℕ} (hcount : count ≤ 57) :
    LocalBits (fun r => r.readBits count) fun _ => True := by
  intro r hr
  by_cases hleft : r.bitPosition + count ≤ r.endBit
  · obtain ⟨value, -, hvalue⟩ := readBits_eq hcount hr.sized hleft
    refine .inr ⟨value, count, trivial, .refl hr.sized hleft, ?_⟩
    intro t ht
    obtain ⟨value', hread, hvalue'⟩ := readBits_eq hcount ht.sized' ht.left'
    have hsame : value' = value := by
      apply BitVec.eq_of_getLsbD_eq
      intro i _
      rw [hvalue, hvalue', ht.position]
      by_cases hi : i < count
      · rw [ht.agree _ (Nat.le_add_right _ _) (Nat.add_lt_add_left hi _)]
      · rw [decide_eq_false hi, Bool.false_and, Bool.false_and]
    show t.readBits count = _
    rw [hread, hsame]
    rfl
  · exact .inl ⟨_, if_pos (by omega), nofun⟩

/-! ### Exp-Golomb codes -/

/-- One turn of the loop over the prefix. -/
def prefixBit (r : ResidualBitReader) : Except DeltaError (Bool × ResidualBitReader) :=
  if r.endBit ≤ r.bitPosition then .error .truncatedCode else r.readBit

theorem prefixBit_local : LocalBits prefixBit fun _ => True := by
  refine nextBit_local (e := .truncatedCode) nofun ?_ ?_
  · intro r h
    exact if_pos (by omega)
  · intro r h
    exact if_neg (by omega)

theorem readZeros_succ (fuel : ℕ) (r : ResidualBitReader) (zeros : ℕ) :
    readZeros (fuel + 1) r zeros = (prefixBit r).bind fun p =>
      if p.1 then .ok (zeros, p.2)
      else if 32 < zeros + 1 then .error .invalidPrefix else readZeros fuel p.2 (zeros + 1) := by
  rw [readZeros, prefixBit]
  split
  · rfl
  · rcases readBit r with e | ⟨bit, next⟩
    · rfl
    · cases bit <;> rfl

theorem readZeros_local (fuel zeros : ℕ) :
    LocalBits (fun r => readZeros fuel r zeros) fun _ => True := by
  induction fuel generalizing zeros with
  | zero => exact Local.error nofun
  | succ fuel ih =>
    refine Local.congr (Local.bind (f := fun (bit : Bool) next => if bit then .ok (zeros, next)
      else if 32 < zeros + 1 then .error .invalidPrefix else readZeros fuel next (zeros + 1))
      prefixBit_local ?_) fun r => readZeros_succ fuel r zeros
    intro bit _
    cases bit with
    | true => exact Local.pure trivial
    | false =>
      simp only [Bool.false_eq_true, if_false]
      by_cases hlong : 32 < zeros + 1
      · simp only [if_pos hlong]
        exact Local.error nofun
      · simp only [if_neg hlong]
        exact ih (zeros + 1)

/-- The loop ends within the rounds it has: more make no difference. -/
theorem readZeros_fuel (fuel : ℕ) {rounds zeros : ℕ} (h : 33 ≤ rounds + zeros)
    (hrounds : 0 < rounds)
    (r : ResidualBitReader) : readZeros (rounds + fuel) r zeros = readZeros rounds r zeros := by
  induction rounds generalizing zeros r with
  | zero => exact absurd hrounds (Nat.lt_irrefl 0)
  | succ rounds ih =>
    rw [Nat.add_right_comm, readZeros_succ, readZeros_succ]
    congr 1
    funext p
    by_cases hlong : 32 < zeros + 1
    · rw [if_pos hlong, if_pos hlong]
    · rw [if_neg hlong, if_neg hlong, ih (by omega) (by omega)]

theorem readMantissa_local (count : ℕ) (m : BitVec 32) :
    LocalBits (fun r => readMantissa count r m) fun _ => True := by
  induction count generalizing m with
  | zero => exact Local.pure trivial
  | succ count ih =>
    refine Local.congr (Local.bind (f := fun (bit : Bool) next =>
      readMantissa count next ((m <<< 1) ||| (if bit then 1#32 else 0#32))) readBit_local
      fun bit _ => ih _) ?_
    intro r
    rw [readMantissa]
    rcases readBit r with e | ⟨bit, next⟩ <;> rfl

theorem readSignedEg_local : LocalBits readSignedEg fun _ => True := by
  refine Local.congr (Local.bind (f := fun zeros next =>
    (readMantissa zeros next 1#32).bind fun p =>
      .ok (((p.1 - 1#32) >>> 1) ^^^ (-((p.1 - 1#32) &&& 1#32)), p.2))
    (readZeros_local 34 0) ?_) ?_
  · intro zeros _
    exact Local.bind (f := fun (m : BitVec 32) next =>
      .ok (((m - 1#32) >>> 1) ^^^ (-((m - 1#32) &&& 1#32)), next)) (readMantissa_local zeros 1#32)
      fun _ _ => Local.pure trivial
  · intro r
    rw [readSignedEg]
    rcases readZeros 34 r 0 with e | ⟨zeros, next⟩
    · rfl
    · dsimp only [Except.bind]
      rcases readMantissa zeros next 1#32 with e | ⟨m, next'⟩ <;> rfl

/-! ### Fields -/

/-- The bit belongs to the channel. -/
def AvatarChannel.Covers (channel : AvatarChannel) (k : ℕ) : Prop :=
  channel.bitOffset ≤ k ∧ k < channel.bitOffset + channel.width

/-- Only bits of the channels are written. -/
structure Kept (channels : List AvatarChannel) (output output' : Bytes) : Prop where
  length : output'.length = output.length
  bits : ∀ k, (∀ channel ∈ channels, ¬channel.Covers k) → bitAt output' k = bitAt output k

theorem Kept.refl (channels : List AvatarChannel) (output : Bytes) : Kept channels output output :=
  ⟨rfl, fun _ _ => rfl⟩

theorem Kept.trans {first second : List AvatarChannel} {o₁ o₂ o₃ : Bytes} (h : Kept first o₁ o₂)
    (h' : Kept second o₂ o₃) : Kept (first ++ second) o₁ o₃ := by
  refine ⟨h'.length.trans h.length, ?_⟩
  intro k hk
  rw [h'.bits k fun channel hmem => hk channel (List.mem_append_right _ hmem)]
  exact h.bits k fun channel hmem => hk channel (List.mem_append_left _ hmem)

/-- What the decoder needs of a channel. -/
structure Writable (baseline output : Bytes) (channel : AvatarChannel) : Prop where
  pos : 0 < channel.width
  inBaseline : channel.Inside baseline
  inOutput : channel.Inside output

variable {baseline : Bytes} {output mask : Bytes} {channel : AvatarChannel}
  {channels : List AvatarChannel} {quality : BitQuality}

theorem Writable.of_length {output' : Bytes} (h : Writable baseline output channel)
    (hlength : output'.length = output.length) :
    Writable baseline output' channel :=
  ⟨h.pos, h.inBaseline, h.inOutput.1, hlength ▸ h.inOutput.2⟩

theorem replaceChannel_kept (h : Writable baseline output channel) (value : BitVec 32) :
    ∃ output', replaceChannel output channel value = .ok output' ∧
      Kept [channel] output output' := by
  obtain ⟨output', heq, hlength, hbits⟩ := replaceChannel_spec value h.inOutput h.pos
  refine ⟨output', heq, hlength, ?_⟩
  intro k hk
  rw [hbits k]
  exact if_neg (hk channel (.head _))

/-- The value of a channel as the decoder reads it. -/
def channelRead (baseline : Bytes) (rawMode : Bool) (channel : AvatarChannel)
    (reader : ResidualBitReader) : Except DeltaError (BitVec 32 × ResidualBitReader) :=
  if rawMode ∨ channel.kind = .raw then
    (reader.readBits channel.width).bind fun p => .ok (p.1.setWidth 32, p.2)
  else
    reader.readSignedEg.bind fun p =>
      .ok ((channelValue baseline channel + p.1) &&& (lowMask channel.width).setWidth 32, p.2)

theorem channelRead_local (baseline : Bytes) (rawMode : Bool) (hwidth : channel.width ≤ 57) :
    LocalBits (channelRead baseline rawMode channel) fun _ => True := by
  by_cases hraw : rawMode ∨ channel.kind = .raw
  · refine Local.congr (Local.bind (f := fun (x : BitVec 64) next => .ok (x.setWidth 32, next))
      (readBits_local hwidth) fun _ _ => Local.pure trivial) ?_
    intro r
    exact if_pos hraw
  · refine Local.congr (Local.bind (f := fun (x : BitVec 32) next =>
      .ok ((channelValue baseline channel + x) &&& (lowMask channel.width).setWidth 32, next))
      readSignedEg_local fun _ _ => Local.pure trivial) ?_
    intro r
    exact if_neg hraw

theorem readChannels_cons {rawMode : Bool} (rest : List AvatarChannel)
    (h : Writable baseline output channel) (r : ResidualBitReader) :
    readChannels baseline rawMode (channel :: rest) r output =
      (channelRead baseline rawMode channel r).bind fun p =>
        (replaceChannel output channel p.1).bind fun next =>
          readChannels baseline rawMode rest p.2 next := by
  rw [readChannels, channelRead]
  split
  · rcases r.readBits channel.width with e | ⟨value, next⟩ <;> rfl
  · rw [readChannel_eq h.inBaseline]
    rcases r.readSignedEg with e | ⟨value, next⟩ <;> rfl

theorem readChannels_local (rawMode : Bool)
    (h : ∀ channel ∈ channels, Writable baseline output channel) :
    LocalBits (fun r => readChannels baseline rawMode channels r output)
      (Kept channels output) := by
  induction channels generalizing output with
  | nil => exact Local.pure (.refl _ _)
  | cons channel rest ih =>
    have hchannel := h channel (.head _)
    have hwidth : channel.width ≤ 57 := Nat.le_trans hchannel.inBaseline.1 (by decide)
    refine Local.congr (Local.bind (channelRead_local baseline rawMode hwidth)
      (f := fun (x : BitVec 32) next => (replaceChannel output channel x).bind fun output' =>
        readChannels baseline rawMode rest next output') ?_)
      fun r => readChannels_cons rest hchannel r
    intro value _
    obtain ⟨output', heq, hkept⟩ := replaceChannel_kept hchannel value
    rw [heq]
    refine Local.mono (ih fun c hc => (h c (.tail _ hc)).of_length hkept.length) ?_
    intro output'' hkept'
    exact hkept.trans hkept'

/-- The channels of the dirty fields. -/
def dirtyChannels (mask : Bytes) : ℕ → List (List AvatarChannel) → List AvatarChannel
  | _, [] => []
  | field, channels :: rest =>
    if isDirty mask field then channels ++ dirtyChannels mask (field + 1) rest
    else dirtyChannels mask (field + 1) rest

theorem dirtyChannels_subset (mask : Bytes) (field : ℕ) (fields : List (List AvatarChannel)) :
    ∀ channel ∈ dirtyChannels mask field fields, channel ∈ fields.flatten := by
  induction fields generalizing field with
  | nil => exact fun _ hmem => hmem
  | cons channels rest ih =>
    intro channel hmem
    rw [dirtyChannels] at hmem
    rw [List.flatten_cons, List.mem_append]
    split at hmem
    · rcases List.mem_append.mp hmem with hmem | hmem
      · exact .inl hmem
      · exact .inr (ih _ channel hmem)
    · exact .inr (ih _ channel hmem)

/-- **All fields.**  The bits outside the dirty fields stay. -/
theorem readFields_local (mask : Bytes) (field : ℕ)
    (h : ∀ channel ∈ fields.flatten, Writable baseline output channel) :
    LocalBits (fun r => readFields baseline mask field fields r output)
      (Kept (dirtyChannels mask field fields) output) := by
  induction fields generalizing field output with
  | nil => exact Local.pure (.refl _ _)
  | cons channels rest ih =>
    rw [List.flatten_cons] at h
    have hrest := fun c hc => h c (List.mem_append_right _ hc)
    by_cases hdirty : isDirty mask field = true
    · rw [dirtyChannels, if_pos hdirty]
      refine Local.congr (Local.bind (f := fun (rawMode : Bool) next =>
        (readChannels baseline rawMode channels next output).bind fun p =>
          readFields baseline mask (field + 1) rest p.2 p.1) readBit_local ?_) ?_
      · intro rawMode _
        refine Local.bind (f := fun (output' : Bytes) next =>
          readFields baseline mask (field + 1) rest next output')
          (readChannels_local rawMode fun c hc => h c (List.mem_append_left _ hc)) ?_
        intro output' hkept
        refine Local.mono (ih (field + 1) fun c hc => (hrest c hc).of_length hkept.length) ?_
        intro output'' hkept'
        exact hkept.trans hkept'
      · intro r
        rw [readFields, if_pos hdirty]
        rcases r.readBit with e | ⟨rawMode, next⟩
        · rfl
        · dsimp only [bind, Except.bind]
    · rw [dirtyChannels, if_neg hdirty]
      refine Local.congr (ih (field + 1) hrest) ?_
      intro r
      rw [readFields, if_neg hdirty]

/-! ### Clean fields -/

/-- Contiguous channels do not overlap. -/
theorem Contiguous.pairwise {start stop : ℕ} (h : Contiguous start channels stop) :
    channels.Pairwise (fun a b => a.bitOffset + a.width ≤ b.bitOffset) ∧
      ∀ channel ∈ channels, start ≤ channel.bitOffset := by
  induction channels generalizing start with
  | nil => exact ⟨.nil, nofun⟩
  | cons channel rest ih =>
    obtain ⟨hoffset, hrest⟩ := h
    obtain ⟨hpairwise, hge⟩ := ih hrest
    refine ⟨List.pairwise_cons.mpr ⟨?_, hpairwise⟩, ?_⟩
    · intro c hc
      rw [hoffset]
      exact hge c hc
    · intro c hc
      rcases List.mem_cons.mp hc with rfl | hc
      · exact Nat.le_of_eq hoffset.symm
      · exact Nat.le_trans (Nat.le_add_right _ _) (hge c hc)

/-- The channels of a clean field do not overlap those of the dirty fields. -/
theorem clean_apart {field i : ℕ}
    (h : fields.flatten.Pairwise fun a b => a.bitOffset + a.width ≤ b.bitOffset)
    (hi : fields[i]? = some channels) (hclean : isDirty mask (field + i) = false)
    {dirty clean : AvatarChannel} (hdirty : dirty ∈ dirtyChannels mask field fields)
    (hmem : clean ∈ channels) :
    dirty.bitOffset + dirty.width ≤ clean.bitOffset ∨
      clean.bitOffset + clean.width ≤ dirty.bitOffset := by
  induction fields generalizing field i with
  | nil => cases hi
  | cons head rest ih =>
    rw [List.flatten_cons, List.pairwise_append] at h
    obtain ⟨-, hpairwise, hcross⟩ := h
    rw [dirtyChannels] at hdirty
    cases i with
    | zero =>
      cases hi
      rw [Nat.add_zero] at hclean
      rw [if_neg (by rw [hclean]; exact Bool.false_ne_true)] at hdirty
      exact .inr (hcross clean hmem dirty (dirtyChannels_subset _ _ _ dirty hdirty))
    | succ i =>
      rw [List.getElem?_cons_succ] at hi
      rw [← Nat.add_assoc, Nat.add_right_comm] at hclean
      have hin : clean ∈ rest.flatten :=
        List.mem_flatten.mpr ⟨channels, List.mem_of_getElem? hi, hmem⟩
      split at hdirty
      · rcases List.mem_append.mp hdirty with hdirty | hdirty
        · exact .inl (hcross dirty hdirty clean hin)
        · exact ih hpairwise hi hclean hdirty
      · exact ih hpairwise hi hclean hdirty

/-! ### The decoder -/

/-- What a decoded frame is. -/
structure DecodedFrame (baseline delta : Bytes) (quality : BitQuality) (output : Bytes)
    (consumed : ℕ) : Prop where
  length : output.length = quality.payloadLen
  within : consumed ≤ delta.length
  clean : ∀ field channels, (buildLayout quality)[field]? = some channels →
    isDirty (delta.take dirtyMaskBytes) field = false → ∀ channel ∈ channels,
      ∃ value, readChannel output channel = .ok value ∧ readChannel baseline channel = .ok value
  trailing : ∀ trailing,
    applyDelta baseline (delta.take consumed ++ trailing) quality = .ok (output, consumed)

theorem layout_writable (hb : quality.payloadLen ≤ baseline.length)
    (ho : output.length = quality.payloadLen) :
    ∀ channel ∈ (buildLayout quality).flatten, Writable baseline output channel := by
  intro channel hmem
  have hin := (layout_contiguous quality).channel_le.2 channel hmem
  have hwidth := layout_widths quality channel hmem
  exact ⟨hwidth.1, ⟨by omega, by omega⟩, ⟨by omega, by omega⟩⟩

/-- The value of a channel only depends on its bits. -/
theorem readChannel_congr {payload payload' : Bytes} (h : channel.Inside payload)
    (h' : channel.Inside payload')
    (hbits : ∀ k, channel.Covers k → bitAt payload' k = bitAt payload k) :
    ∃ value, readChannel payload' channel = .ok value ∧
      readChannel payload channel = .ok value := by
  obtain ⟨value, heq, hvalue⟩ := readChannel_getLsbD h
  obtain ⟨value', heq', hvalue'⟩ := readChannel_getLsbD h'
  have hsame : value' = value := by
    apply BitVec.eq_of_getLsbD_eq
    intro i _
    rw [hvalue, hvalue']
    by_cases hi : i < channel.width
    · rw [hbits _ ⟨Nat.le_add_right _ _, Nat.add_lt_add_left hi _⟩]
    · rw [decide_eq_false hi, Bool.false_and, Bool.false_and]
  exact ⟨value, by rw [heq', hsame], heq⟩

/-- What the decoder does after its checks, given the mask. -/
theorem applyDelta_eq {bytes : Bytes} (hb : ¬baseline.length < quality.payloadLen)
    (hlength : dirtyMaskBytes ≤ bytes.length) (hmask : bytes.take dirtyMaskBytes = mask) :
    applyDelta baseline bytes quality =
      (readFields baseline mask 0 (buildLayout quality)
        ⟨bytes, dirtyMaskBytes * 8, bytes.length * 8⟩ (baseline.take quality.payloadLen)).bind
      fun p => if bytes.length < dirtyMaskBytes + (p.2.bitPosition - dirtyMaskBytes * 8 + 7) / 8
        then .error .bodyOverrun
        else .ok (p.1, dirtyMaskBytes + (p.2.bitPosition - dirtyMaskBytes * 8 + 7) / 8) := by
  rw [applyDelta, if_neg hb, if_neg (Nat.not_lt.mpr hlength), hmask]
  rfl

/-- Bytes with the mask and the bits that were taken are enough. -/
theorem applyDelta_of_reads {delta bytes : Bytes} (hb : ¬baseline.length < quality.payloadLen)
    (hreads : Reads bitSource (fun r => readFields baseline mask 0 (buildLayout quality) r
      (baseline.take quality.payloadLen)) ⟨delta, dirtyMaskBytes * 8, delta.length * 8⟩ output n)
    (hlength : dirtyMaskBytes + (n + 7) / 8 ≤ bytes.length)
    (hmask : bytes.take dirtyMaskBytes = mask)
    (hagree : Agree delta bytes (dirtyMaskBytes * 8) (dirtyMaskBytes * 8 + n)) :
    applyDelta baseline bytes quality = .ok (output, dirtyMaskBytes + (n + 7) / 8) := by
  have hrun := hreads.result ⟨bytes, dirtyMaskBytes * 8, bytes.length * 8⟩
    ⟨Nat.mul_comm _ _, Nat.mul_comm _ _, rfl, hreads.here.left, by dsimp only; omega, hagree⟩
  rw [applyDelta_eq hb (by omega) hmask, hrun]
  show (if bytes.length < dirtyMaskBytes + (dirtyMaskBytes * 8 + n - dirtyMaskBytes * 8 + 7) / 8
    then Except.error DeltaError.bodyOverrun
    else .ok (output, dirtyMaskBytes + (dirtyMaskBytes * 8 + n - dirtyMaskBytes * 8 + 7) / 8)) = _
  rw [Nat.add_sub_cancel_left, if_neg (by omega)]

/-- **The decoder is total and local.**  On any bytes it ends in an error of the stream, never in an
access outside a buffer, or in a frame as described; and its loop over a prefix ends by itself. -/
theorem applyDelta_total (baseline delta : Bytes) (quality : BitQuality) :
    ((∃ e, applyDelta baseline delta quality = .error e ∧ e ≠ .outOfBounds) ∨
      ∃ output consumed, applyDelta baseline delta quality = .ok (output, consumed) ∧
        DecodedFrame baseline delta quality output consumed) ∧
    ∀ fuel r, readZeros (34 + fuel) r 0 = readZeros 34 r 0 := by
  refine ⟨?_, fun fuel r => readZeros_fuel fuel (by decide) (by decide) r⟩
  by_cases hb : baseline.length < quality.payloadLen
  · exact .inl ⟨.baselineTooSmall, if_pos hb, fun h => nomatch h⟩
  by_cases hmask : delta.length < dirtyMaskBytes
  · refine .inl ⟨.missingDirtyMask, ?_, fun h => nomatch h⟩
    rw [applyDelta, if_neg hb, if_pos hmask]
  have hmaskLen : dirtyMaskBytes = 5 := rfl
  have htake : (baseline.take quality.payloadLen).length = quality.payloadLen := by
    rw [List.length_take]
    omega
  have hwritable := layout_writable (Nat.not_lt.mp hb) htake
  rcases readFields_local (delta.take dirtyMaskBytes) 0 hwritable
    ⟨delta, dirtyMaskBytes * 8, delta.length * 8⟩
    (.refl (Nat.mul_comm _ _) (by dsimp only; omega)) with
    ⟨e, herror, hfault⟩ | ⟨output, n, hkept, hreads⟩
  · refine .inl ⟨e, ?_, hfault⟩
    dsimp only at herror
    rw [applyDelta_eq hb (Nat.not_lt.mp hmask) rfl, herror]
    rfl
  have hleft : dirtyMaskBytes * 8 + n ≤ delta.length * 8 := hreads.here.left
  refine .inr ⟨output, _, applyDelta_of_reads hb hreads (by omega) rfl fun _ _ _ => rfl,
    hkept.length.trans htake, by omega, ?_, ?_⟩
  · intro field channels hfield hclean channel hmem
    have hin : channel ∈ (buildLayout quality).flatten :=
      List.mem_flatten.mpr ⟨channels, List.mem_of_getElem? hfield, hmem⟩
    obtain ⟨-, hbaseline, houtput⟩ := hwritable channel hin
    have hstop := (layout_contiguous quality).channel_le.2 channel hin
    refine readChannel_congr hbaseline ⟨houtput.1, hkept.length ▸ houtput.2⟩ ?_
    rintro k ⟨hlow, hhigh⟩
    rw [hkept.bits k ?_, bitAt_take _ _ _ (by omega)]
    rintro dirty hdirty ⟨hlow', hhigh'⟩
    have hapart := clean_apart (layout_contiguous quality).pairwise.1 hfield
      (by rwa [Nat.zero_add]) hdirty hmem
    omega
  · intro trailing
    have hlength : (delta.take (dirtyMaskBytes + (n + 7) / 8)).length =
        dirtyMaskBytes + (n + 7) / 8 := by
      rw [List.length_take]
      omega
    refine applyDelta_of_reads hb hreads ?_ ?_ ?_
    · rw [List.length_append, hlength]
      exact Nat.le_add_right _ _
    · rw [List.take_append_of_le_length (by omega), List.take_take, Nat.min_eq_left (by omega)]
    · intro k hk hk'
      rw [bitAt_append, hlength, if_pos (by omega), bitAt_take _ _ _ (by omega)]

end BasisRust.Avatar
