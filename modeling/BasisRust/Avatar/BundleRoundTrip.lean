import BasisRust.Avatar.Bundle
import Mathlib.Data.Nat.Cast.Basic

/-!
# A bundle decodes to what was put in

`groupBytes` is what one group looks like on the wire.  The encoder writes one group for each chunk
of each channel (`rawBundle_eq`), the decoder reads a group back (`readGroup_spec`) and so all of
them (`readGroups_spec`).  The groups together are the items in the order of their channels, with
the order within a channel kept.  The same groups have the length that the cache lookup computes
(`countItems_eq`).
-/

namespace BasisRust.Avatar

open Library Protocol

/-! ### Patched payloads -/

/-- The payload with the byte at the patch's offset replaced. -/
def AvatarBundleSlice.patchedPayload (item : AvatarBundleSlice) : Bytes :=
  match item.intervalPatch with
  | some (offset, value) => item.payload.set offset value
  | none => item.payload

/-- What the decoder should return for the item. -/
def AvatarBundleSlice.patched (item : AvatarBundleSlice) : AvatarBundleItem :=
  ⟨item.originalChannel, item.patchedPayload⟩

@[simp] theorem length_patchedPayload (item : AvatarBundleSlice) :
    item.patchedPayload.length = item.payload.length := by
  rw [AvatarBundleSlice.patchedPayload]
  split <;> simp

theorem writeBundlePayload_eq (item : AvatarBundleSlice) :
    writeBundlePayload item = item.patchedPayload := by
  rw [writeBundlePayload, AvatarBundleSlice.patchedPayload]
  cases item.intervalPatch with
  | none => rfl
  | some patch =>
    obtain ⟨offset, value⟩ := patch
    show (if offset < item.payload.length then _ else _) = item.payload.set offset value
    by_cases h : offset < item.payload.length
    · rw [if_pos h, List.set_eq_take_append_cons_drop, if_pos h, List.append_assoc]
      rfl
    · rw [if_neg h, List.set_eq_of_length_le (Nat.le_of_not_lt h)]

theorem deltaByte_eq (item : AvatarBundleSlice) (offset : ℕ) :
    deltaByte item offset = item.patchedPayload[offset]? := by
  rw [deltaByte, AvatarBundleSlice.patchedPayload]
  by_cases h : offset < item.payload.length
  · rw [if_pos h]
    cases item.intervalPatch with
    | none => simp [h]
    | some patch =>
      obtain ⟨i, value⟩ := patch
      show _ = (item.payload.set i value)[offset]?
      rw [List.getElem?_set]
      by_cases hi : i = offset
      · subst hi
        simp [Option.filter, h]
      · simp [Option.filter, hi, h]
  · rw [if_neg h]
    cases item.intervalPatch with
    | none =>
      show none = item.payload[offset]?
      rw [List.getElem?_eq_none (Nat.le_of_not_lt h)]
    | some patch =>
      show none = (item.payload.set patch.1 patch.2)[offset]?
      rw [List.getElem?_eq_none]
      rw [List.length_set]
      exact Nat.le_of_not_lt h

/-! ### Columns -/

/-- The bytes of the columns from `column` on, `count` of them. -/
def columns (bodies : List Bytes) : ℕ → ℕ → Bytes
  | _, 0 => []
  | column, count + 1 =>
    (bodies.filterMap fun body => body[column]?) ++ columns bodies (column + 1) count

theorem columns_eq_flatMap (bodies : List Bytes) (column count : ℕ) :
    columns bodies column count =
      (List.range' column count).flatMap fun k => bodies.filterMap fun body => body[k]? := by
  induction count generalizing column with
  | zero => rfl
  | succ count ih => rw [columns, ih, List.range'_succ, List.flatMap_cons]

theorem column_length (bodies : List Bytes) (k : ℕ) :
    (bodies.map fun body => (body.take (k + 1)).length).sum =
      (bodies.map fun body => (body.take k).length).sum +
        (bodies.filterMap fun body => body[k]?).length := by
  induction bodies with
  | nil => rfl
  | cons body bodies ih =>
    rw [List.map_cons, List.sum_cons, List.map_cons, List.sum_cons, ih, List.length_take,
      List.length_take, List.filterMap_cons]
    by_cases h : k < body.length
    · rw [List.getElem?_eq_getElem h]
      simp only [List.length_cons]
      omega
    · rw [List.getElem?_eq_none (Nat.le_of_not_lt h)]
      dsimp only
      omega

theorem columns_length (bodies : List Bytes) (column count : ℕ) :
    (bodies.map fun body => (body.take column).length).sum + (columns bodies column count).length =
      (bodies.map fun body => (body.take (column + count)).length).sum := by
  induction count generalizing column with
  | zero => rfl
  | succ count ih =>
    have hstep := column_length bodies column
    have hrest := ih (column + 1)
    rw [columns, List.length_append, show column + (count + 1) = column + 1 + count from by omega]
    omega

/-- The longest length of a list. -/
def maxLength (bodies : List Bytes) : ℕ := (bodies.map List.length).max?.getD 0

variable {bodies : List Bytes} (channel : Byte) {compression : AvatarBundleCompression}

theorem length_le_maxLength {body : Bytes} (h : body ∈ bodies) :
    body.length ≤ maxLength bodies :=
  List.le_max?_getD_of_mem (List.mem_map_of_mem h)

theorem map_take_maxLength (bodies : List Bytes) :
    (bodies.map fun body => body.take (maxLength bodies)) = bodies := by
  conv_rhs => rw [← List.map_id bodies]
  apply List.map_congr_left
  intro body hbody
  exact List.take_of_length_le (length_le_maxLength hbody)

/-- All columns together have the bytes of the bodies. -/
theorem length_all_columns (bodies : List Bytes) :
    (columns bodies 0 (maxLength bodies)).length = (bodies.map List.length).sum := by
  have h := columns_length bodies 0 (maxLength bodies)
  have hall : (bodies.map fun body => (body.take (0 + maxLength bodies)).length) =
      bodies.map List.length := by
    apply List.map_congr_left
    intro body hbody
    rw [List.take_of_length_le (by rw [Nat.zero_add]; exact length_le_maxLength hbody)]
  have hzero : (bodies.map fun body => (body.take 0).length).sum = 0 := by
    rw [List.sum_eq_zero]
    intro n hn
    obtain ⟨body, -, rfl⟩ := List.mem_map.mp hn
    rfl
  rw [hall, hzero] at h
  omega

/-! ### Groups on the wire -/

def groupBytes (channel : Byte) (bodies : List Bytes) : Bytes :=
  [channel, BitVec.ofNat 8 bodies.length] ++ (bodies.flatMap fun body => leBytes 2 body.length) ++
    if channel ≠ deltaChannel then bodies.flatten else columns bodies 0 (maxLength bodies)

theorem length_groupBytes (bodies : List Bytes) :
    (groupBytes channel bodies).length = 2 + (bodies.map fun body => 2 + body.length).sum := by
  have hheader : (bodies.flatMap fun body => leBytes 2 body.length).length = 2 * bodies.length := by
    simp [List.length_flatMap, Nat.mul_comm]
  have hbody : (if channel ≠ deltaChannel then bodies.flatten
      else columns bodies 0 (maxLength bodies)).length = (bodies.map List.length).sum := by
    split_ifs
    · exact List.length_flatten
    · exact length_all_columns bodies
  have hsum : (bodies.map fun body => 2 + body.length).sum =
      2 * bodies.length + (bodies.map List.length).sum := by
    rw [List.sum_map_add]
    simp [Nat.mul_comm]
  rw [groupBytes, List.length_append, List.length_append, hheader, hbody, hsum]
  simp only [List.length_cons, List.length_nil]
  omega

theorem encodeChunk_eq {chunk : List AvatarBundleSlice}
    (h : ∀ item ∈ chunk, item.payload.length ≤ 65535) :
    encodeChunk channel chunk =
      .ok (groupBytes channel (chunk.map AvatarBundleSlice.patchedPayload)) := by
  have hany : (chunk.any fun item => decide (65535 < item.payload.length)) = false := by
    rw [List.any_eq_false]
    intro item hitem
    simpa using h item hitem
  have hlengths : (chunk.map fun item => item.payload.length) =
      (chunk.map AvatarBundleSlice.patchedPayload).map List.length := by
    rw [List.map_map]
    apply List.map_congr_left
    intro item _
    exact (length_patchedPayload item).symm
  have hcolumns : ((List.range (maxLength (chunk.map AvatarBundleSlice.patchedPayload))).flatMap
      fun offset => chunk.filterMap fun item => deltaByte item offset) =
      columns (chunk.map AvatarBundleSlice.patchedPayload) 0
        (maxLength (chunk.map AvatarBundleSlice.patchedPayload)) := by
    rw [columns_eq_flatMap, ← List.range_eq_range']
    apply List.flatMap_congr
    intro offset _
    rw [List.filterMap_map]
    apply List.filterMap_congr
    intro item _
    exact deltaByte_eq item offset
  have hwrite : writeBundlePayload = AvatarBundleSlice.patchedPayload := by
    funext item
    exact writeBundlePayload_eq item
  rw [encodeChunk, if_neg (by rw [hany]; simp)]
  simp only [hlengths]
  rw [← maxLength, hcolumns, groupBytes, List.length_map, List.flatMap_map, hwrite]
  simp only [length_patchedPayload, List.flatMap_def]

/-! ### Reading a group back -/

variable {r : NetReader} {rest : Bytes} {sends : List BundleAvatarSend} {raw compressed : Bytes}

theorem readLengths_spec (hbodies : ∀ body ∈ bodies, body ≠ [] ∧ body.length ≤ 65535)
    (h : r.At ((bodies.flatMap fun body => leBytes 2 body.length) ++ rest)) :
    ∃ r', readLengths bodies.length r = .ok (bodies.map List.length, r') ∧ r'.At rest := by
  induction bodies generalizing r with
  | nil => exact ⟨r, rfl, h⟩
  | cons body bodies ih =>
    obtain ⟨hne, hle⟩ := hbodies body (.head _)
    rw [List.flatMap_cons, List.append_assoc] at h
    obtain ⟨r₁, hget, hr₁⟩ := h.getU16 (Nat.lt_succ_of_le hle)
    obtain ⟨r₂, hrest, hr₂⟩ := ih (fun b hb => hbodies b (.tail _ hb)) hr₁
    refine ⟨r₂, ?_, hr₂⟩
    have hpos : body.length ≠ 0 := fun hzero => hne (List.eq_nil_of_length_eq_zero hzero)
    rw [List.length_cons, readLengths, hget]
    show (if body.length = 0 then _ else _) = _
    rw [if_neg hpos, hrest]
    rfl

theorem readBodies_spec (h : r.At (bodies.flatten ++ rest)) :
    ∃ r', readBodies channel (bodies.map List.length) r =
      .ok (bodies.map fun body => ⟨channel, body⟩, r') ∧ r'.At rest := by
  induction bodies generalizing r with
  | nil => exact ⟨r, rfl, h⟩
  | cons body bodies ih =>
    rw [List.flatten_cons, List.append_assoc] at h
    obtain ⟨r₁, hget, hr₁⟩ := h.take
    obtain ⟨r₂, hrest, hr₂⟩ := ih hr₁
    refine ⟨r₂, ?_, hr₂⟩
    rw [List.map_cons, readBodies, NetReader.getBytes, hget]
    show (do let x ← readBodies channel (bodies.map List.length) r₁; _) = _
    rw [hrest]
    rfl

/-- A column is put behind the columns before it. -/
theorem readColumn_spec (column : ℕ)
    (h : r.At ((bodies.filterMap fun body => body[column]?) ++ rest)) :
    ∃ r', readColumn column (bodies.map List.length) (bodies.map fun body => body.take column) r =
      .ok (bodies.map fun body => body.take (column + 1), r') ∧ r'.At rest := by
  induction bodies generalizing r with
  | nil => exact ⟨r, rfl, h⟩
  | cons body bodies ih =>
    rw [List.filterMap_cons] at h
    rw [List.map_cons, List.map_cons, List.map_cons, readColumn]
    by_cases hlt : column < body.length
    · rw [List.getElem?_eq_getElem hlt] at h
      obtain ⟨r₁, hget, hr₁⟩ := h.getU8
      obtain ⟨r₂, hrest, hr₂⟩ := ih hr₁
      refine ⟨r₂, ?_, hr₂⟩
      rw [if_pos hlt, hget]
      show (do let x ← readColumn column _ _ r₁; _) = _
      rw [hrest, List.take_add_one, List.getElem?_eq_getElem hlt]
      rfl
    · rw [List.getElem?_eq_none (Nat.le_of_not_lt hlt)] at h
      obtain ⟨r₁, hrest, hr₁⟩ := ih h
      refine ⟨r₁, ?_, hr₁⟩
      rw [if_neg hlt, hrest, List.take_of_length_le (Nat.le_of_not_lt hlt),
        List.take_of_length_le (by omega)]
      rfl

theorem readColumns_spec (count column : ℕ) (h : r.At (columns bodies column count ++ rest)) :
    ∃ r', readColumns (bodies.map List.length) count column
        (bodies.map fun body => body.take column) r =
      .ok (bodies.map fun body => body.take (column + count), r') ∧ r'.At rest := by
  induction count generalizing column r with
  | zero => exact ⟨r, rfl, h⟩
  | succ count ih =>
    rw [columns, List.append_assoc] at h
    obtain ⟨r₁, hcolumn, hr₁⟩ := readColumn_spec column h
    obtain ⟨r₂, hrest, hr₂⟩ := ih (column + 1) hr₁
    refine ⟨r₂, ?_, hr₂⟩
    rw [readColumns, hcolumn]
    show readColumns _ count (column + 1) _ r₁ = _
    rw [hrest, show column + 1 + count = column + (count + 1) from by omega]

/-- **A group is read back.** -/
theorem readGroup_spec (hne : bodies ≠ []) (hcount : bodies.length ≤ 255)
    (hbodies : ∀ body ∈ bodies, body ≠ [] ∧ body.length ≤ 65535)
    (h : r.At (groupBytes channel bodies ++ rest)) :
    ∃ r', readGroup r = .ok (bodies.map fun body => ⟨channel, body⟩, r') ∧ r'.At rest := by
  have hpos : 0 < bodies.length := List.length_pos_iff.mpr hne
  have htoNat : (BitVec.ofNat 8 bodies.length).toNat = bodies.length := by
    rw [BitVec.toNat_ofNat]
    exact Nat.mod_eq_of_lt (by omega)
  rw [groupBytes, List.append_assoc, List.append_assoc] at h
  obtain ⟨r₁, hchannel, hr₁⟩ := h.getU8
  obtain ⟨r₂, hget, hr₂⟩ := NetReader.At.getU8 hr₁
  obtain ⟨r₃, hlengths, hr₃⟩ := readLengths_spec hbodies hr₂
  have hremaining : ¬ r₃.remaining < (bodies.map List.length).sum := by
    rw [hr₃.remaining, List.length_append]
    have hbody : (if channel ≠ deltaChannel then bodies.flatten
        else columns bodies 0 (maxLength bodies)).length = (bodies.map List.length).sum := by
      split_ifs
      · exact List.length_flatten
      · exact length_all_columns bodies
    omega
  simp only [readGroup, hchannel, hget, liftRead, Except.mapError, bind, Except.bind, htoNat,
    hlengths, if_neg hremaining, if_neg (Nat.ne_of_gt hpos)]
  by_cases hdelta : channel = deltaChannel
  · rw [if_neg (not_not.mpr hdelta)] at hr₃ ⊢
    obtain ⟨r₄, hcolumns, hr₄⟩ := readColumns_spec _ 0 hr₃
    refine ⟨r₄, ?_, hr₄⟩
    have hempty : ((bodies.map List.length).map fun _ => ([] : Bytes)) =
        bodies.map fun body => body.take 0 := by
      rw [List.map_map]
      rfl
    rw [hempty, ← maxLength, hcolumns, Nat.zero_add, map_take_maxLength]
    rfl
  · rw [if_pos hdelta] at hr₃ ⊢
    exact readBodies_spec channel hr₃

/-! ### The groups of a bundle -/

/-- A channel and the bodies of one group. -/
structure Group where
  channel : Byte
  bodies : List Bytes

def Group.bytes (g : Group) : Bytes := groupBytes g.channel g.bodies

def Group.items (g : Group) : List AvatarBundleItem := g.bodies.map fun body => ⟨g.channel, body⟩

/-- The decoder accepts the group. -/
structure Group.Fits (g : Group) : Prop where
  ne : g.bodies ≠ []
  count : g.bodies.length ≤ 255
  body : ∀ body ∈ g.bodies, body ≠ [] ∧ body.length ≤ 65535

theorem readGroups_spec {groups : List Group} (hgroups : ∀ g ∈ groups, g.Fits) {fuel : ℕ}
    (hfuel : groups.length ≤ fuel) (h : r.At (groups.flatMap Group.bytes)) :
    readGroups fuel r = .ok (groups.flatMap Group.items) := by
  induction groups generalizing r fuel with
  | nil =>
    cases fuel with
    | zero => rfl
    | succ fuel =>
      have hremaining : r.remaining = 0 := h.remaining
      rw [readGroups, if_pos hremaining]
      rfl
  | cons g groups ih =>
    cases fuel with
    | zero => cases hfuel
    | succ fuel =>
      obtain ⟨hne, hcount, hbody⟩ := hgroups g (.head _)
      have hlength : g.bytes.length ≠ 0 := by
        rw [Group.bytes, length_groupBytes]
        omega
      have hremaining : r.remaining ≠ 0 := by
        rw [h.remaining, List.flatMap_cons, List.length_append]
        omega
      rw [List.flatMap_cons] at h
      obtain ⟨r', hgroup, hr'⟩ := readGroup_spec g.channel hne hcount hbody h
      have hrest := ih (fun g' hg' => hgroups g' (.tail _ hg'))
        (Nat.le_of_succ_le_succ hfuel) hr'
      rw [readGroups, if_neg hremaining, hgroup]
      show (do let items ← readGroups fuel r'; _) = _
      rw [hrest]
      rfl

/-- The groups the encoder writes. -/
def bundleGroups (items : List AvatarBundleSlice) : List Group :=
  (bundleChannels items).flatMap fun channel =>
    (chunks 255 (items.filter fun item => item.originalChannel = channel)).map fun chunk =>
      ⟨channel, chunk.map AvatarBundleSlice.patchedPayload⟩

theorem mapM_ok {α β ε : Type} {f : α → Except ε β} {g : α → β} {l : List α}
    (h : ∀ x ∈ l, f x = .ok (g x)) : l.mapM f = .ok (l.map g) := by
  induction l with
  | nil => rfl
  | cons x l ih =>
    rw [List.mapM_cons, h x (.head _), ih fun y hy => h y (.tail _ hy)]
    rfl

theorem rawBundle_eq {items : List AvatarBundleSlice}
    (h : ∀ item ∈ items, item.payload.length ≤ 65535) :
    rawBundle items = .ok ((bundleGroups items).flatMap Group.bytes) := by
  have hchannel : ∀ channel, (do
      let bytes ← (chunks 255 (items.filter fun item => item.originalChannel = channel)).mapM
        (encodeChunk channel)
      return bytes.flatten) =
      (.ok ((chunks 255 (items.filter fun item => item.originalChannel = channel)).flatMap
        fun chunk => groupBytes channel (chunk.map AvatarBundleSlice.patchedPayload)) :
        Except BundleError Bytes) := by
    intro channel
    rw [mapM_ok fun chunk hchunk => encodeChunk_eq channel fun item hitem =>
      h item (List.mem_filter.mp (mem_of_mem_chunks hchunk hitem)).1]
    rfl
  rw [rawBundle, mapM_ok fun channel _ => hchannel channel]
  show Except.ok _ = _
  rw [bundleGroups, List.flatMap_assoc]
  simp only [List.flatMap_def, List.map_map]
  rfl

theorem bundleGroups_fits {items : List AvatarBundleSlice}
    (h : ∀ item ∈ items, item.payload ≠ [] ∧ item.payload.length ≤ 65535) :
    ∀ g ∈ bundleGroups items, g.Fits := by
  intro g hg
  obtain ⟨channel, -, hg⟩ := List.mem_flatMap.mp hg
  obtain ⟨chunk, hchunk, rfl⟩ := List.mem_map.mp hg
  obtain ⟨hne, hcount⟩ := mem_chunks (by decide) hchunk
  refine ⟨fun hnil => hne (List.map_eq_nil_iff.mp hnil), ?_, fun body hbody => ?_⟩
  · show (chunk.map AvatarBundleSlice.patchedPayload).length ≤ 255
    rw [List.length_map]
    exact hcount
  · obtain ⟨item, hitem, rfl⟩ := List.mem_map.mp hbody
    obtain ⟨hpayload, hle⟩ := h item (List.mem_filter.mp (mem_of_mem_chunks hchunk hitem)).1
    rw [length_patchedPayload]
    refine ⟨fun hnil => hpayload ?_, hle⟩
    apply List.eq_nil_of_length_eq_zero
    rw [← length_patchedPayload, hnil]
    rfl

/-- The items of all groups are the patched items, one channel after the other. -/
theorem bundleGroups_items (items : List AvatarBundleSlice) :
    (bundleGroups items).flatMap Group.items =
      groupBy AvatarBundleItem.originalChannel (bundleChannels items)
        (items.map AvatarBundleSlice.patched) := by
  rw [bundleGroups, List.flatMap_assoc, groupBy]
  apply List.flatMap_congr
  intro channel _
  have hchunk : ∀ chunk ∈ chunks 255 (items.filter fun item => item.originalChannel = channel),
      Group.items ⟨channel, chunk.map AvatarBundleSlice.patchedPayload⟩ =
        chunk.map AvatarBundleSlice.patched := by
    intro chunk hchunk
    rw [Group.items, List.map_map]
    apply List.map_congr_left
    intro item hitem
    have hitem' := List.mem_filter.mp (mem_of_mem_chunks hchunk hitem)
    show (⟨channel, item.patchedPayload⟩ : AvatarBundleItem) = ⟨item.originalChannel, _⟩
    rw [of_decide_eq_true hitem'.2]
  rw [List.flatMap_map, List.flatMap_congr hchunk, List.flatMap_def, ← List.map_flatten,
    chunks_flatten (by decide), List.filter_map]
  rfl

/-! ### The channels -/

theorem bundleChannels_pairwise (items : List AvatarBundleSlice) :
    (bundleChannels items).Pairwise fun a b => a ≤ b ∧ a ≠ b :=
  dedupRuns_nodup (fun _ _ => BitVec.le_antisymm) (List.pairwise_insertionSort _ _)

theorem bundleChannels_nodup (items : List AvatarBundleSlice) : (bundleChannels items).Nodup :=
  (bundleChannels_pairwise items).imp fun h => h.2

theorem mem_bundleChannels {items : List AvatarBundleSlice} {item : AvatarBundleSlice}
    (h : item ∈ items) : item.originalChannel ∈ bundleChannels items := by
  rw [bundleChannels, mem_dedupRuns, List.mem_insertionSort]
  exact List.mem_map_of_mem h

/-! ### The length -/

/-- The items of a channel so far. -/
def channelCount (items : List BundleAvatarSend) (channel : Byte) : ℕ :=
  (items.map BundleAvatarSend.originalChannel).count channel

/-- The lengths of groups and items so far, over a list of all channels. -/
def groupedLength (channels : List Byte) (items : List BundleAvatarSend) : ℕ :=
  2 * (channels.map fun channel => chunkCount 255 (channelCount items channel)).sum +
    (items.map fun item => 2 + item.payload.length).sum

theorem channelCount_append (items : List BundleAvatarSend) (item : BundleAvatarSend)
    (channel : Byte) :
    channelCount (items ++ [item]) channel =
      channelCount items channel + if channel = item.originalChannel then 1 else 0 := by
  rw [channelCount, List.map_append, List.count_append, channelCount, List.map_singleton,
    List.count_singleton]
  by_cases h : channel = item.originalChannel
  · simp [h]
  · simp [h, Ne.symm h]

/-- One more item opens a group when its channel's groups are full. -/
theorem groupedLength_append {channels : List Byte} (hchannels : channels.Nodup)
    (items : List BundleAvatarSend) {item : BundleAvatarSend}
    (hitem : item.originalChannel ∈ channels) :
    groupedLength channels (items ++ [item]) =
      groupedLength channels items +
        (if channelCount items item.originalChannel % 255 = 0 then 2 else 0) +
        (2 + item.payload.length) := by
  have hcounts : (channels.map fun channel =>
      chunkCount 255 (channelCount (items ++ [item]) channel)) =
      channels.map fun channel => chunkCount 255 (channelCount items channel) +
        if channel = item.originalChannel then
          (if channelCount items item.originalChannel % 255 = 0 then 1 else 0) else 0 := by
    apply List.map_congr_left
    intro channel _
    rw [channelCount_append]
    by_cases h : channel = item.originalChannel
    · subst h
      rw [if_pos rfl, if_pos rfl, chunkCount_succ (by decide)]
    · rw [if_neg h, if_neg h]
      rfl
  rw [groupedLength, groupedLength, hcounts, sum_map_add_at hchannels hitem, List.map_append,
    List.sum_append]
  by_cases h : channelCount items item.originalChannel % 255 = 0
  · rw [if_pos h, if_pos h]
    simp only [List.map_cons, List.map_nil, List.sum_cons, List.sum_nil]
    omega
  · rw [if_neg h, if_neg h]
    simp only [List.map_cons, List.map_nil, List.sum_cons, List.sum_nil]
    omega

/-- The lookup's loop keeps the counts modulo 255 and the length so far. -/
theorem countItems_spec {channels : List Byte} (hchannels : channels.Nodup)
    (done items : List BundleAvatarSend) (hitems : ∀ item ∈ items, item.originalChannel ∈ channels)
    (counts : Byte → ℕ) (hcounts : ∀ channel, counts channel = channelCount done channel % 255) :
    countItems counts (groupedLength channels done) items =
      groupedLength channels (done ++ items) := by
  induction items generalizing done counts with
  | nil => rw [countItems, List.append_nil]
  | cons item items ih =>
    have hnext : ∀ channel, (countItem counts (groupedLength channels done) item).1 channel =
        channelCount (done ++ [item]) channel % 255 := by
      intro channel
      rw [channelCount_append]
      show (if channel = item.originalChannel then _ else counts channel) = _
      by_cases h : channel = item.originalChannel
      · rw [if_pos h, if_pos h, hcounts, h]
        split_ifs with hlast
        · omega
        · omega
      · rw [if_neg h, if_neg h, hcounts, Nat.add_zero]
    have hlen : (countItem counts (groupedLength channels done) item).2 =
        groupedLength channels (done ++ [item]) := by
      rw [groupedLength_append hchannels done (hitems item (.head _))]
      show (if counts item.originalChannel = 0 then _ else _) + _ = _
      rw [hcounts]
      split_ifs
      · rfl
      · rfl
    rw [countItems, hlen, ih (done ++ [item]) (fun x hx => hitems x (.tail _ hx))
      _ hnext, List.append_assoc]
    rfl

/-- **The length the lookup computes.** -/
theorem countItems_eq {channels : List Byte} (hchannels : channels.Nodup)
    {items : List BundleAvatarSend} (hitems : ∀ item ∈ items, item.originalChannel ∈ channels) :
    countItems (fun _ => 0) 0 items = groupedLength channels items := by
  have hempty : groupedLength channels [] = 0 := by
    have hzero :
        (channels.map fun channel => chunkCount 255 (channelCount [] channel)).sum = 0 := by
      apply List.sum_eq_zero
      intro n hn
      obtain ⟨channel, -, rfl⟩ := List.mem_map.mp hn
      show chunkCount 255 0 = 0
      decide
    rw [groupedLength, hzero]
    rfl
  have hspec := countItems_spec hchannels [] items hitems (fun _ => 0) fun _ => rfl
  rw [hempty] at hspec
  exact hspec

/-- The sends are the items, before patching. -/
def SameItems (sends : List BundleAvatarSend) (items : List AvatarBundleSlice) : Prop :=
  (sends.map fun send => (send.originalChannel, send.payload)) =
    items.map fun item => (item.originalChannel, item.payload)

theorem SameItems.channels {items : List AvatarBundleSlice} (h : SameItems sends items) :
    sends.map BundleAvatarSend.originalChannel = items.map AvatarBundleSlice.originalChannel := by
  have hfst := congrArg (List.map Prod.fst) h
  rw [List.map_map, List.map_map] at hfst
  exact hfst

theorem SameItems.lengths {items : List AvatarBundleSlice} (h : SameItems sends items) :
    (sends.map fun send => 2 + send.payload.length) =
      items.map fun item => 2 + item.payload.length := by
  have hsnd := congrArg (List.map fun x => 2 + x.2.length) h
  rw [List.map_map, List.map_map] at hsnd
  exact hsnd

theorem length_bundleGroups (items : List AvatarBundleSlice) :
    (bundleGroups items).length = ((bundleChannels items).map fun channel =>
      chunkCount 255 ((items.map AvatarBundleSlice.originalChannel).count channel)).sum := by
  rw [bundleGroups, List.length_flatMap]
  congr 1
  apply List.map_congr_left
  intro channel _
  rw [List.length_map, length_chunks, List.count, List.countP_map, List.countP_eq_length_filter]
  rfl

/-- A permutation of the items has the same bytes. -/
theorem sum_bundleGroups (items : List AvatarBundleSlice) :
    ((bundleGroups items).map fun g => (g.bodies.map fun body => 2 + body.length).sum).sum =
      (items.map fun item => 2 + item.payload.length).sum := by
  have hperm := groupBy_perm AvatarBundleItem.originalChannel (bundleChannels_nodup items)
    (l := items.map AvatarBundleSlice.patched) (by
      intro x hx
      obtain ⟨item, hitem, rfl⟩ := List.mem_map.mp hx
      exact mem_bundleChannels hitem)
  rw [← bundleGroups_items] at hperm
  have hsum := (hperm.map fun item => 2 + item.payload.length).sum_eq
  rw [List.map_map] at hsum
  have hitems : (items.map ((fun item : AvatarBundleItem => 2 + item.payload.length) ∘
      AvatarBundleSlice.patched)) = items.map fun item => 2 + item.payload.length := by
    apply List.map_congr_left
    intro item _
    show 2 + item.patchedPayload.length = _
    rw [length_patchedPayload]
  rw [hitems, List.map_flatMap, List.flatMap_def, List.sum_flatten, List.map_map] at hsum
  rw [← hsum]
  congr 1
  apply List.map_congr_left
  intro g _
  show _ = ((g.bodies.map fun body => (⟨g.channel, body⟩ : AvatarBundleItem)).map
    fun item => 2 + item.payload.length).sum
  rw [List.map_map]
  rfl

/-- **The lookup computes the length before compression.** -/
theorem lookup_rawLen {items : List AvatarBundleSlice} (h : SameItems sends items) :
    countItems (fun _ => 0) 0 sends = ((bundleGroups items).flatMap Group.bytes).length := by
  have hmem : ∀ send ∈ sends, send.originalChannel ∈ bundleChannels items := by
    intro send hsend
    have hchannel : send.originalChannel ∈ sends.map BundleAvatarSend.originalChannel :=
      List.mem_map_of_mem hsend
    rw [h.channels] at hchannel
    obtain ⟨item, hitem, heq⟩ := List.mem_map.mp hchannel
    rw [← heq]
    exact mem_bundleChannels hitem
  have hbytes : ((bundleGroups items).map fun g => g.bytes.length).sum =
      2 * (bundleGroups items).length +
        ((bundleGroups items).map fun g => (g.bodies.map fun body => 2 + body.length).sum).sum := by
    simp only [Group.bytes, length_groupBytes]
    rw [List.sum_map_add]
    simp [Nat.mul_comm]
  rw [countItems_eq (bundleChannels_nodup items) hmem, groupedLength, h.lengths,
    List.length_flatMap, hbytes, sum_bundleGroups, length_bundleGroups]
  simp only [channelCount, h.channels]

/-! ### The round trip -/

/-- What the bundle relies on: a decompressor that is given the length of the raw bytes undoes the
compressor. -/
structure BundleCodec.RoundTrips (codec : BundleCodec) : Prop where
  lz4 : ∀ raw, codec.decompress (codec.compress raw) raw.length = .ok raw
  zstd : ∀ raw level compressed, codec.zstdCompress raw level = .ok compressed →
    codec.zstdDecompress compressed raw.length = .ok raw

variable {codec : BundleCodec}

theorem decompressBundle_compressBundle (hcodec : codec.RoundTrips)
    (h : compressBundle codec raw compression = .ok compressed) :
    decompressBundle codec (bundleFlags compression) compressed raw.length = .ok raw := by
  cases compression with
  | lz4 =>
    cases h
    show (codec.decompress (codec.compress raw) raw.length).mapError _ = _
    rw [hcodec.lz4]
    rfl
  | zstdDictionary level =>
    have hzstd : codec.zstdCompress raw level = .ok compressed := by
      rw [compressBundle] at h
      cases hc : codec.zstdCompress raw level with
      | error e =>
        rw [hc] at h
        cases h
      | ok c =>
        rw [hc] at h
        cases h
        rfl
    have hflags : bundleFlags (.zstdDictionary level) = 9 := by
      show bundleCodecZstdDictionary ||| (dictionaryGeneration <<< bundleDictionaryShift) = 9
      decide
    have hcodecId : (9 : Byte) &&& bundleCodecMask = bundleCodecZstdDictionary := by decide
    have hgeneration : (9 : Byte) >>> bundleDictionaryShift = dictionaryGeneration := by decide
    rw [hflags, decompressBundle]
    simp only [hcodecId, hgeneration]
    rw [if_neg (by decide), if_pos trivial, if_neg (not_not.mpr rfl), decompressAvatarBundleZstd,
      hcodec.zstd raw level compressed hzstd]
    show (if raw.length ≠ raw.length then _ else _) = _
    rw [if_neg (not_not.mpr rfl)]
    rfl

theorem encode_eq {items : List AvatarBundleSlice} (hraw : rawBundle items = .ok raw)
    (hlen : raw.length ≤ 65535) (h : compressBundle codec raw compression = .ok compressed) :
    tryEncodeAvatarBundleSlicesWithCompression codec items compression =
      .ok ⟨[bundleFlags compression] ++ leBytes 2 raw.length ++ compressed, raw.length,
        compressed.length⟩ := by
  rw [tryEncodeAvatarBundleSlicesWithCompression, hraw]
  show (if 65535 < raw.length then _ else _) = _
  rw [if_neg (Nat.not_lt.mpr hlen), h]
  rfl

theorem decodeAvatarBundle_eq {flags : Byte} (hlen : raw.length ≤ 65535)
    (h : decompressBundle codec flags compressed raw.length = .ok raw) :
    decodeAvatarBundle codec ([flags] ++ leBytes 2 raw.length ++ compressed) =
      readGroups raw.length (.new raw) := by
  have hrawLen : leNat (leBytes 2 raw.length) = raw.length :=
    leNat_leBytes_two _ (Nat.lt_succ_of_le hlen)
  show (do
    let raw' ← decompressBundle codec flags compressed (leNat (leBytes 2 raw.length))
    if raw'.length ≠ leNat (leBytes 2 raw.length) then throw BundleError.rawLengthMismatch
    readGroups raw'.length (.new raw')) = _
  rw [hrawLen, h]
  show (if raw.length ≠ raw.length then _ else _) = _
  rw [if_neg (not_not.mpr rfl)]

theorem length_groups_le (groups : List Group) :
    groups.length ≤ (groups.flatMap Group.bytes).length := by
  induction groups with
  | nil => exact Nat.le_refl 0
  | cons g groups ih =>
    have hg : 0 < g.bytes.length := by
      rw [Group.bytes, length_groupBytes]
      omega
    rw [List.flatMap_cons, List.length_append, List.length_cons]
    omega

/-- **Decoding undoes encoding.**  Items with payloads that are not empty and whose length fits its
field make a bundle whose length before compression is the one the lookup computes.  If that length
fits, and the compressor succeeds, then the bundle decodes to the patched items: a permutation of
them, in the order of their channels, with the order within each channel kept. -/
theorem avatar_bundle_round_trip (hcodec : codec.RoundTrips) (items : List AvatarBundleSlice)
    (compression : AvatarBundleCompression)
    (hitems : ∀ item ∈ items, item.payload ≠ [] ∧ item.payload.length ≤ 65535) :
    ∃ raw, rawBundle items = .ok raw ∧
      (∀ sends, SameItems sends items →
        (BundleCacheLookup.new sends compression).rawLen = raw.length) ∧
      (65535 < raw.length → tryEncodeAvatarBundleSlicesWithCompression codec items compression =
        .error .rawPayloadTooLarge) ∧
      (raw.length ≤ 65535 → ∀ compressed, compressBundle codec raw compression = .ok compressed →
        ∃ encoded decoded,
          tryEncodeAvatarBundleSlicesWithCompression codec items compression = .ok encoded ∧
          encoded.rawLen = raw.length ∧
          decodeAvatarBundle codec encoded.bytes = .ok decoded ∧
          decoded.Perm (items.map AvatarBundleSlice.patched) ∧
          (decoded.Pairwise fun x y => x.originalChannel ≤ y.originalChannel) ∧
          ∀ channel, (decoded.filter fun x => x.originalChannel = channel) =
            (items.map AvatarBundleSlice.patched).filter fun x => x.originalChannel = channel) := by
  have hraw := rawBundle_eq fun item hitem => (hitems item hitem).2
  have hkeys : ∀ x ∈ items.map AvatarBundleSlice.patched,
      x.originalChannel ∈ bundleChannels items := by
    intro x hx
    obtain ⟨item, hitem, rfl⟩ := List.mem_map.mp hx
    exact mem_bundleChannels hitem
  have hnodup := bundleChannels_nodup items
  refine ⟨_, hraw, fun sends hsends => lookup_rawLen hsends, fun hlarge => ?_,
    fun hlen compressed hcompressed => ?_⟩
  · rw [tryEncodeAvatarBundleSlicesWithCompression, hraw]
    show (if 65535 < _ then _ else _) = _
    rw [if_pos hlarge]
    rfl
  · refine ⟨_, _, encode_eq hraw hlen hcompressed, rfl, ?_, groupBy_perm _ hnodup hkeys,
      groupBy_pairwise _ (fun _ => BitVec.le_refl _)
        ((bundleChannels_pairwise items).imp fun h => h.1) _,
      fun channel => groupBy_filter _ hnodup hkeys⟩
    rw [decodeAvatarBundle_eq hlen (decompressBundle_compressBundle hcodec hcompressed),
      readGroups_spec (bundleGroups_fits hitems) (length_groups_le _) (.new _), bundleGroups_items]

/-- The header of an LZ4 block that holds all its bytes as literals. -/
def literalsHeader (len : ℕ) : Bytes :=
  if len < 15 then [BitVec.ofNat 8 (16 * len)]
  else 0xF0 :: List.replicate ((len - 15) / 255) 255 ++ [BitVec.ofNat 8 ((len - 15) % 255)]

/-- The header of a zstd frame without magic number that holds its bytes as one raw block. -/
def rawBlockHeader (len : ℕ) : Bytes := [0x00, 0x38] ++ leBytes 3 (8 * len + 1)

/-- What both compressors do with bytes they cannot make smaller. -/
def storedCodec : BundleCodec where
  compress raw := literalsHeader raw.length ++ raw
  decompress block rawLen := .ok (block.drop (literalsHeader rawLen).length)
  zstdCompress raw _ := .ok (rawBlockHeader raw.length ++ raw)
  zstdDecompress frame rawLen := .ok (frame.drop (rawBlockHeader rawLen).length)

theorem storedCodec_roundTrips : storedCodec.RoundTrips where
  lz4 raw := congrArg Except.ok List.drop_left
  zstd raw level compressed h := by
    cases h
    exact congrArg Except.ok List.drop_left

def mixedItems : List AvatarBundleSlice :=
  [⟨30, [1, 2, 3], some (0, 9)⟩, ⟨6, [5, 6], none⟩, ⟨30, [7], some (0, 8)⟩]

theorem avatar_bundle_round_trip_mixed :
    ∃ encoded decoded,
      tryEncodeAvatarBundleSlicesWithCompression storedCodec mixedItems .lz4 = .ok encoded ∧
      encoded.rawLen = 16 ∧
      decodeAvatarBundle storedCodec encoded.bytes = .ok decoded ∧
      decoded.Perm (mixedItems.map AvatarBundleSlice.patched) := by
  obtain ⟨raw, hraw, -, -, hok⟩ := avatar_bundle_round_trip storedCodec_roundTrips mixedItems .lz4
    (by decide)
  have hrun : rawBundle mixedItems = .ok [6, 1, 2, 0, 5, 6, 30, 2, 3, 0, 1, 0, 9, 8, 2, 3] := by
    decide
  rw [hrun] at hraw
  cases hraw
  obtain ⟨encoded, decoded, hencode, hlen, hdecode, hperm, -, -⟩ := hok (by decide) _ rfl
  exact ⟨encoded, decoded, hencode, hlen, hdecode, hperm⟩

end BasisRust.Avatar
