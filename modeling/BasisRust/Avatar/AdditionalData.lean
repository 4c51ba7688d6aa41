import BasisRust.Avatar.Uplink
import BasisRust.Protocol.Io

/-!
# Additional avatar data

A pose may carry additional data: a count, the linked avatar index, and the items.  There is a
writer of this section, a reader that makes a message of it, and the check of the server, which only
walks over it.
-/

namespace BasisRust.Avatar

open Library Protocol

structure AdditionalAvatarData where
  messageIndex : Byte
  data : Bytes
  deriving DecidableEq

namespace AdditionalAvatarData

/-- The index is only written when there is data. -/
def serialize (item : AdditionalAvatarData) (w : NetWriter) : Except NetWriteError NetWriter :=
  if 255 < item.data.length then .error (.lengthOverflow item.data.length 255)
  else
    let w := w.putU8 (BitVec.ofNat 8 item.data.length)
    if 0 < item.data.length then .ok ((w.putU8 item.messageIndex).putBytes item.data) else .ok w

def deserialize (r : NetReader) : Except NetReadError (AdditionalAvatarData × NetReader) := do
  let (len, r) ← r.getU8
  if len = 0 then return (⟨0, []⟩, r)
  let (messageIndex, r) ← r.getU8
  let (data, r) ← r.getBytes len.toNat
  return (⟨messageIndex, data⟩, r)

end AdditionalAvatarData

structure LocalAvatarSyncMessage where
  dataQualityLevel : Byte
  array : Bytes
  additionalAvatarDatas : List AdditionalAvatarData
  linkedAvatarIndex : Byte
  deriving DecidableEq

namespace LocalAvatarSyncMessage

/-- The quality is not written: the channel says it, and whether there is additional data. -/
def serializeForChannel (message : LocalAvatarSyncMessage) (w : NetWriter)
    (hasAdditionalData : Bool) : Except NetWriteError NetWriter :=
  let w := w.putBytes message.array
  if hasAdditionalData then
    let count := message.additionalAvatarDatas.length
    if 255 < count then .error (.lengthOverflow count 255)
    else
      message.additionalAvatarDatas.foldlM (fun w item => item.serialize w)
        ((w.putU8 (BitVec.ofNat 8 count)).putU8 message.linkedAvatarIndex)
  else .ok w

/-- The writer for a message behind a pose: there is no linked index without items. -/
def serialize (message : LocalAvatarSyncMessage) (w : NetWriter) :
    Except NetWriteError NetWriter :=
  let w := (w.putU8 message.dataQualityLevel).putBytes message.array
  let count := message.additionalAvatarDatas.length
  if 255 < count then .error (.lengthOverflow count 255)
  else
    let w := w.putU8 (BitVec.ofNat 8 count)
    if message.additionalAvatarDatas.isEmpty then .ok w
    else
      message.additionalAvatarDatas.foldlM (fun w item => item.serialize w)
        (w.putU8 message.linkedAvatarIndex)

def readItems : ℕ → NetReader → Except NetReadError (List AdditionalAvatarData × NetReader)
  | 0, r => .ok ([], r)
  | count + 1, r => do
    let (item, r) ← AdditionalAvatarData.deserialize r
    let (items, r) ← readItems count r
    return (item :: items, r)

def deserialize (r : NetReader) : Except NetReadError (LocalAvatarSyncMessage × NetReader) := do
  let (dataQualityLevel, r) ← r.getU8
  let (array, r) ← r.getBytes (BitQuality.ofCode dataQualityLevel).payloadLen
  let (count, r) ← r.getU8
  let minimumBytes := count.toNat + if 0 < count.toNat then 1 else 0
  if r.remaining < minimumBytes then throw (.underflow minimumBytes r.remaining)
  let (linkedAvatarIndex, r) ← if 0 < count.toNat then r.getU8 else pure (0, r)
  let (additionalAvatarDatas, r) ← readItems count.toNat r
  return (⟨dataQualityLevel, array, additionalAvatarDatas, linkedAvatarIndex⟩, r)

end LocalAvatarSyncMessage

/-! ### What a section says -/

def parseItem : Bytes → Option (AdditionalAvatarData × Bytes)
  | [] => none
  | len :: rest =>
    if len = 0 then some (⟨0, []⟩, rest)
    else
      match rest with
      | [] => none
      | messageIndex :: rest =>
        if rest.length < len.toNat then none
        else some (⟨messageIndex, rest.take len.toNat⟩, rest.drop len.toNat)

def parseItems : ℕ → Bytes → Option (List AdditionalAvatarData × Bytes)
  | 0, bytes => some ([], bytes)
  | count + 1, bytes => do
    let (item, rest) ← parseItem bytes
    let (items, rest) ← parseItems count rest
    return (item :: items, rest)

/-- The linked avatar index and the items; there is no index without items. -/
def parseSection : Bytes → Option (Byte × List AdditionalAvatarData × Bytes)
  | [] => none
  | count :: rest =>
    if count = 0 then some (0, [], rest)
    else
      match rest with
      | [] => none
      | linked :: rest => (parseItems count.toNat rest).map fun p => (linked, p.1, p.2)

variable {item : AdditionalAvatarData} {items : List AdditionalAvatarData} {r : NetReader}
  {level : Byte} {message : LocalAvatarSyncMessage}

/-- An item takes one byte at least. -/
theorem parseItem_length {bytes rest : Bytes} (h : parseItem bytes = some (item, rest)) :
    rest.length + 1 ≤ bytes.length := by
  unfold parseItem at h
  split at h
  · cases h
  · split at h
    · cases h
      exact Nat.le_refl _
    · split at h
      · cases h
      · split at h
        · cases h
        · cases h
          rw [List.length_drop, List.length_cons, List.length_cons]
          omega

theorem parseItems_length {count : ℕ} {bytes rest : Bytes}
    (h : parseItems count bytes = some (items, rest)) : rest.length + count ≤ bytes.length := by
  induction count generalizing bytes items with
  | zero =>
    cases h
    exact Nat.le_refl _
  | succ count ih =>
    rw [parseItems] at h
    obtain ⟨⟨item, middle⟩, hitem, h⟩ := Option.bind_eq_some_iff.mp h
    obtain ⟨⟨items', rest'⟩, hitems, h⟩ := Option.bind_eq_some_iff.mp h
    cases h
    have hone := parseItem_length hitem
    have hmany := ih hitems
    omega

/-! ### The reader -/

/-- A reader follows a parser: it stands where the parser leaves off, or fails where the parser
does. -/
def Follows {α : Type} (parsed : Option (α × Bytes)) (read : Except NetReadError (α × NetReader)) :
    Prop :=
  match parsed with
  | some (x, rest) => ∃ r, read = .ok (x, r) ∧ r.At rest
  | none => ∃ e, read = .error e

theorem deserializeItem_spec {bytes : Bytes} (h : r.At bytes) :
    Follows (parseItem bytes) (AdditionalAvatarData.deserialize r) := by
  cases bytes with
  | nil =>
    refine ⟨.underflow 1 0, ?_⟩
    rw [AdditionalAvatarData.deserialize, h.getU8_nil]
    rfl
  | cons len rest =>
    unfold parseItem
    rw [AdditionalAvatarData.deserialize, h.getU8_eq]
    dsimp only
    by_cases hzero : len = 0
    · rw [if_pos hzero]
      refine ⟨r.skip 1, ?_, h.skip_one⟩
      show (if len = 0 then _ else _) = _
      rw [if_pos hzero]
      rfl
    rw [if_neg hzero]
    show Follows _ (if len = 0 then _ else do let (messageIndex, r) ← (r.skip 1).getU8; _)
    rw [if_neg hzero]
    cases rest with
    | nil =>
      refine ⟨.underflow 1 0, ?_⟩
      rw [h.skip_one.getU8_nil]
      rfl
    | cons messageIndex rest =>
      rw [h.skip_one.getU8_eq]
      dsimp only
      by_cases hshort : rest.length < len.toNat
      · rw [if_pos hshort]
        refine ⟨.underflow len.toNat rest.length, ?_⟩
        show (do let (data, r) ← ((r.skip 1).skip 1).take len.toNat; _) = _
        rw [h.skip_one.skip_one.take_short hshort]
        rfl
      · rw [if_neg hshort]
        have hat := h.skip_one.skip_one
        rw [← List.take_append_drop len.toNat rest] at hat
        obtain ⟨r', htake, hr'⟩ := hat.take
        rw [List.length_take, Nat.min_eq_left (Nat.not_lt.mp hshort)] at htake
        refine ⟨r', ?_, hr'⟩
        show (do let (data, r) ← ((r.skip 1).skip 1).take len.toNat; _) = _
        rw [htake]
        rfl

theorem readItems_spec (count : ℕ) {bytes : Bytes} (h : r.At bytes) :
    Follows (parseItems count bytes) (LocalAvatarSyncMessage.readItems count r) := by
  induction count generalizing r bytes with
  | zero => exact ⟨r, rfl, h⟩
  | succ count ih =>
    have hitem := deserializeItem_spec h
    rw [parseItems, LocalAvatarSyncMessage.readItems]
    cases hparsed : parseItem bytes with
    | none =>
      rw [hparsed] at hitem
      obtain ⟨e, he⟩ := hitem
      exact ⟨e, by rw [he]; rfl⟩
    | some p =>
      obtain ⟨item, middle⟩ := p
      rw [hparsed] at hitem
      obtain ⟨r', hr', hat⟩ := hitem
      have hrest := ih hat
      rw [hr']
      dsimp only [bind, Option.bind, Except.bind]
      cases hparsed' : parseItems count middle with
      | none =>
        rw [hparsed'] at hrest
        obtain ⟨e, he⟩ := hrest
        exact ⟨e, by rw [he]⟩
      | some p =>
        obtain ⟨items, rest⟩ := p
        rw [hparsed'] at hrest
        obtain ⟨r'', hr'', hat'⟩ := hrest
        exact ⟨r'', by rw [hr'']; rfl, hat'⟩

/-- **The reader** of a message follows the section behind the quality and the pose. -/
theorem deserialize_spec {array bytes : Bytes}
    (harray : array.length = (BitQuality.ofCode level).payloadLen)
    (h : r.At (level :: (array ++ bytes))) :
    Follows ((parseSection bytes).map fun p => (⟨level, array, p.2.1, p.1⟩, p.2.2))
      (LocalAvatarSyncMessage.deserialize r) := by
  obtain ⟨r₁, hr₁, hat₁⟩ := h.skip_one.take
  rw [LocalAvatarSyncMessage.deserialize, h.getU8_eq]
  show Follows _ (do let (array, r) ← (r.skip 1).take (BitQuality.ofCode level).payloadLen; _)
  rw [← harray, hr₁]
  show Follows _ (do let (count, r) ← r₁.getU8; _)
  cases bytes with
  | nil =>
    refine ⟨.underflow 1 0, ?_⟩
    rw [hat₁.getU8_nil]
    rfl
  | cons count rest =>
    rw [hat₁.getU8_eq]
    have hat₂ := hat₁.skip_one
    show Follows _
      (if (r₁.skip 1).remaining < count.toNat + (if 0 < count.toNat then 1 else 0) then _
      else _)
    rw [hat₂.remaining]
    unfold parseSection
    dsimp only
    by_cases hzero : count = 0
    · rw [if_pos hzero, hzero]
      exact ⟨r₁.skip 1, rfl, hat₂⟩
    have hpos : 0 < count.toNat := by
      rcases Nat.eq_zero_or_pos count.toNat with hcount | hcount
      · exact absurd (BitVec.eq_of_toNat_eq hcount) hzero
      · exact hcount
    rw [if_neg hzero, if_pos hpos]
    by_cases hshort : rest.length < count.toNat + 1
    · rw [if_pos hshort]
      have hnone : ∀ p, (match rest with
          | [] => none
          | linked :: rest => (parseItems count.toNat rest).map fun p => (linked, p.1, p.2)) ≠
          some p := by
        intro p hp
        cases rest with
        | nil => cases hp
        | cons linked rest =>
          obtain ⟨⟨items, left⟩, hparsed, -⟩ := Option.map_eq_some_iff.mp hp
          have hlength := parseItems_length hparsed
          rw [List.length_cons] at hshort
          omega
      rw [Option.eq_none_iff_forall_ne_some.mpr hnone]
      exact ⟨_, rfl⟩
    · rw [if_neg hshort]
      cases rest with
      | nil => exact absurd (Nat.zero_lt_succ _) hshort
      | cons linked rest =>
        have hitems := readItems_spec count.toNat hat₂.skip_one
        simp only [if_pos hpos]
        rw [hat₂.getU8_eq]
        dsimp only [bind, Except.bind]
        cases hparsed : parseItems count.toNat rest with
        | none =>
          rw [hparsed] at hitems
          obtain ⟨e, he⟩ := hitems
          exact ⟨e, by rw [he]⟩
        | some p =>
          rw [hparsed] at hitems
          obtain ⟨r', hr', hat'⟩ := hitems
          exact ⟨r', by rw [hr']; rfl, hat'⟩

/-! ### The check of the server -/

/-- A walk ends where the parser leaves off, or fails where the parser does. -/
def Walks (bytes : Bytes) (parsed : Option (List AdditionalAvatarData × Bytes))
    (walk : Except AvatarInputError ℕ) : Prop :=
  match parsed with
  | some (_, rest) => walk = .ok (bytes.length - rest.length) ∧ rest.length ≤ bytes.length
  | none => ∃ e, walk = .error e

theorem Walks.cons {bytes : Bytes} {parsed : Option (List AdditionalAvatarData × Bytes)}
    {walk : Except AvatarInputError ℕ} (item : AdditionalAvatarData) (h : Walks bytes parsed walk) :
    Walks bytes (parsed.bind fun p => some (item :: p.1, p.2)) walk := by
  cases parsed with
  | none => exact h
  | some p => exact h

/-- The walk over the items follows the parser. -/
theorem additionalItems_spec (bytes : Bytes) (count : ℕ) {offset : ℕ} (h : offset ≤ bytes.length) :
    Walks bytes (parseItems count (bytes.drop offset)) (additionalItems bytes count offset) := by
  induction count generalizing offset with
  | zero =>
    refine ⟨?_, ?_⟩
    · rw [additionalItems, List.length_drop, Nat.sub_sub_self h]
    · rw [List.length_drop]
      exact Nat.sub_le _ _
  | succ count ih =>
    rw [additionalItems, parseItems]
    by_cases hend : bytes.length ≤ offset
    · rw [List.getElem?_eq_none hend, List.drop_of_length_le hend]
      exact ⟨_, rfl⟩
    have hlt : offset < bytes.length := Nat.not_le.mp hend
    rw [List.getElem?_eq_getElem hlt, List.drop_eq_getElem_cons hlt]
    unfold parseItem
    dsimp only
    by_cases hzero : bytes[offset] = 0
    · rw [if_pos hzero, if_pos hzero]
      exact (ih hlt).cons _
    rw [if_neg hzero, if_neg hzero]
    by_cases hindex : bytes.length ≤ offset + 1
    · rw [if_pos hindex, List.drop_of_length_le hindex]
      exact ⟨_, rfl⟩
    have hlt' : offset + 1 < bytes.length := Nat.not_le.mp hindex
    rw [if_neg hindex, List.drop_eq_getElem_cons hlt']
    dsimp only
    rw [List.length_drop, List.drop_drop]
    by_cases hshort : bytes.length < offset + 2 + bytes[offset].toNat
    · rw [if_pos hshort, if_pos (by omega)]
      exact ⟨_, rfl⟩
    · rw [if_neg hshort, if_neg (by omega)]
      have hrest := @ih (offset + 2 + bytes[offset].toNat) (by omega)
      exact hrest.cons _

/-- **The check** accepts a section with nothing behind it. -/
theorem validate_iff (bytes : Bytes) :
    validateAdditionalAvatarData bytes = .ok () ↔
      ∃ linked items, parseSection bytes = some (linked, items, []) := by
  unfold validateAdditionalAvatarData parseSection
  cases bytes with
  | nil => exact ⟨nofun, (fun ⟨_, _, h⟩ => nomatch h)⟩
  | cons count rest =>
    dsimp only
    by_cases hzero : count = 0
    · rw [if_pos hzero, if_pos hzero]
      cases rest with
      | nil => exact ⟨fun _ => ⟨0, [], rfl⟩, fun _ => rfl⟩
      | cons byte rest => exact ⟨nofun, (fun ⟨_, _, h⟩ => nomatch h)⟩
    rw [if_neg hzero, if_neg hzero]
    cases rest with
    | nil => exact ⟨nofun, (fun ⟨_, _, h⟩ => nomatch h)⟩
    | cons linked rest =>
      have hitems := @additionalItems_spec (count :: linked :: rest) count.toNat 2
        (Nat.le_add_left _ _)
      rw [show (count :: linked :: rest).drop 2 = rest from rfl] at hitems
      rw [if_neg (by exact Bool.false_ne_true)]
      dsimp only
      cases hparsed : parseItems count.toNat rest with
      | none =>
        rw [hparsed] at hitems
        obtain ⟨e, he⟩ := hitems
        rw [he]
        exact ⟨nofun, (fun ⟨_, _, h⟩ => nomatch h)⟩
      | some p =>
        obtain ⟨items, left⟩ := p
        rw [hparsed] at hitems
        obtain ⟨hwalk, hle⟩ := hitems
        rw [hwalk]
        dsimp only [Option.map]
        constructor
        · intro h
          split at h
          · next heq =>
            have hleft : left = [] := List.eq_nil_of_length_eq_zero (by
              rw [List.length_cons] at heq hle
              omega)
            rw [hleft]
            exact ⟨linked, items, rfl⟩
          · cases h
        · rintro ⟨linked', items', h⟩
          cases h
          exact if_pos rfl

/-! ### The writer -/

/-- What is written for an item. -/
def itemBytes (item : AdditionalAvatarData) : Bytes :=
  BitVec.ofNat 8 item.data.length ::
    if 0 < item.data.length then item.messageIndex :: item.data else []

/-- An item as it is read back: without data it has lost its index. -/
def AdditionalAvatarData.onWire (item : AdditionalAvatarData) : AdditionalAvatarData :=
  if item.data = [] then ⟨0, []⟩ else item

theorem serializeItem_eq (h : item.data.length ≤ 255) (w : NetWriter) :
    item.serialize w = .ok ⟨w.data ++ itemBytes item⟩ := by
  rw [AdditionalAvatarData.serialize, if_neg (Nat.not_lt.mpr h), itemBytes]
  dsimp only
  split
  · simp only [NetWriter.putU8, NetWriter.putBytes, List.append_assoc, List.cons_append,
      List.nil_append]
  · rfl

theorem parseItem_itemBytes (h : item.data.length ≤ 255) (rest : Bytes) :
    parseItem (itemBytes item ++ rest) = some (item.onWire, rest) := by
  have hlen : (BitVec.ofNat 8 item.data.length).toNat = item.data.length := by
    rw [BitVec.toNat_ofNat]
    omega
  unfold itemBytes AdditionalAvatarData.onWire
  by_cases hdata : item.data = []
  · rw [if_pos hdata, hdata]
    rfl
  have hpos : 0 < item.data.length := List.length_pos_of_ne_nil hdata
  have hne : ¬BitVec.ofNat 8 item.data.length = 0 := by
    intro hzero
    rw [hzero] at hlen
    exact absurd hlen (Nat.ne_of_lt hpos)
  rw [if_pos hpos, if_neg hdata]
  show (if BitVec.ofNat 8 item.data.length = 0 then _ else
    if (item.data ++ rest).length < (BitVec.ofNat 8 item.data.length).toNat then none else
      some (_, _)) = _
  rw [if_neg hne, hlen, List.length_append, if_neg (by omega)]
  show some (AdditionalAvatarData.mk item.messageIndex ((item.data ++ rest).take item.data.length),
    (item.data ++ rest).drop item.data.length) = _
  rw [List.take_left, List.drop_left]

theorem parseItems_flatMap (h : ∀ item ∈ items, item.data.length ≤ 255) (rest : Bytes) :
    parseItems items.length (items.flatMap itemBytes ++ rest) =
      some (items.map AdditionalAvatarData.onWire, rest) := by
  induction items with
  | nil => rfl
  | cons item items ih =>
    rw [List.flatMap_cons, List.append_assoc, List.length_cons, parseItems,
      parseItem_itemBytes (h item (.head _))]
    show (parseItems items.length (items.flatMap itemBytes ++ rest)).bind _ = _
    rw [ih fun other hother => h other (.tail _ hother)]
    rfl

theorem foldlM_serialize (w : NetWriter) (h : ∀ item ∈ items, item.data.length ≤ 255) :
    items.foldlM (fun w item => item.serialize w) w = .ok ⟨w.data ++ items.flatMap itemBytes⟩ := by
  induction items generalizing w with
  | nil =>
    rw [List.flatMap_nil, List.append_nil]
    rfl
  | cons item items ih =>
    rw [List.foldlM_cons, serializeItem_eq (h item (.head _))]
    show items.foldlM _ _ = _
    rw [ih _ fun other hother => h other (.tail _ hother), List.flatMap_cons,
      List.append_assoc]

/-- An item that does not fit stops the writer. -/
theorem foldlM_serialize_error (w : NetWriter) (h : ¬∀ item ∈ items, item.data.length ≤ 255) :
    ∃ e, items.foldlM (fun w item => item.serialize w) w = .error e := by
  induction items generalizing w with
  | nil => exact absurd nofun h
  | cons item items ih =>
    rw [List.foldlM_cons]
    by_cases hitem : item.data.length ≤ 255
    · rw [serializeItem_eq hitem]
      refine ih _ fun hall => h fun other hother => ?_
      rcases List.mem_cons.mp hother with rfl | hother
      · exact hitem
      · exact hall other hother
    · rw [AdditionalAvatarData.serialize, if_pos (Nat.not_le.mp hitem)]
      exact ⟨_, rfl⟩

namespace LocalAvatarSyncMessage

/-- The lengths fit in their bytes. -/
structure Fits (message : LocalAvatarSyncMessage) : Prop where
  count : message.additionalAvatarDatas.length ≤ 255
  items : ∀ item ∈ message.additionalAvatarDatas, item.data.length ≤ 255

/-- The section of a message. -/
def sectionBytes (message : LocalAvatarSyncMessage) : Bytes :=
  BitVec.ofNat 8 message.additionalAvatarDatas.length :: message.linkedAvatarIndex ::
    message.additionalAvatarDatas.flatMap itemBytes

/-- The message as it is read back. -/
def onWire (message : LocalAvatarSyncMessage) : LocalAvatarSyncMessage :=
  { message with
    additionalAvatarDatas := message.additionalAvatarDatas.map AdditionalAvatarData.onWire }

end LocalAvatarSyncMessage

open LocalAvatarSyncMessage

theorem serializeForChannel_section (h : message.Fits) (w : NetWriter) :
    message.serializeForChannel w true = .ok ⟨w.data ++ message.array ++ message.sectionBytes⟩ := by
  show (if 255 < message.additionalAvatarDatas.length then _ else _) = _
  rw [if_neg (Nat.not_lt.mpr h.count), foldlM_serialize _ h.items]
  simp only [NetWriter.putU8, NetWriter.putBytes, sectionBytes, List.append_assoc, List.cons_append,
    List.nil_append]

theorem serializeForChannel_error (h : ¬message.Fits) (w : NetWriter) :
    ∃ e, message.serializeForChannel w true = .error e := by
  show ∃ e, (if 255 < message.additionalAvatarDatas.length then _ else _) = Except.error e
  by_cases hcount : 255 < message.additionalAvatarDatas.length
  · rw [if_pos hcount]
    exact ⟨_, rfl⟩
  · rw [if_neg hcount]
    exact foldlM_serialize_error _ fun hitems => h ⟨Nat.not_lt.mp hcount, hitems⟩

theorem parseSection_section (h : message.Fits) (hne : message.additionalAvatarDatas ≠ [])
    (trailing : Bytes) :
    parseSection (message.sectionBytes ++ trailing) =
      some (message.linkedAvatarIndex, message.onWire.additionalAvatarDatas, trailing) := by
  have hlen : (BitVec.ofNat 8 message.additionalAvatarDatas.length).toNat =
      message.additionalAvatarDatas.length := by
    have hcount := h.count
    rw [BitVec.toNat_ofNat]
    omega
  have hpos : 0 < message.additionalAvatarDatas.length := List.length_pos_of_ne_nil hne
  have hnonzero : ¬BitVec.ofNat 8 message.additionalAvatarDatas.length = 0 := by
    intro hzero
    rw [hzero] at hlen
    exact absurd hlen (Nat.ne_of_lt hpos)
  show (if BitVec.ofNat 8 message.additionalAvatarDatas.length = 0 then _ else
    (parseItems (BitVec.ofNat 8 message.additionalAvatarDatas.length).toNat
      (message.additionalAvatarDatas.flatMap itemBytes ++ trailing)).map _) = _
  rw [if_neg hnonzero, hlen, parseItems_flatMap h.items]
  rfl

/-! ### Agreement -/

/-- What is written for a message on a channel passes the check, if there is a section, and is read
back completely, behind the quality, as the message. -/
def RoundTrips (message : LocalAvatarSyncMessage) (hasAdditionalData : Bool) : Prop :=
  ∃ bytes r, message.serializeForChannel ⟨[]⟩ hasAdditionalData = .ok ⟨message.array ++ bytes⟩ ∧
    (hasAdditionalData = true → validateAdditionalAvatarData bytes = .ok ()) ∧
    LocalAvatarSyncMessage.deserialize
      (.new (message.dataQualityLevel :: (message.array ++ bytes))) = .ok (message, r) ∧
    r.remaining = 0

/-- The pose of a message that is read has the length of its quality. -/
theorem deserialize_array {bytes : Bytes}
    (h : LocalAvatarSyncMessage.deserialize (.new (level :: bytes)) = .ok (message, r)) :
    message.array.length = (BitQuality.ofCode level).payloadLen := by
  have hat := NetReader.At.new (level :: bytes)
  by_cases hshort : bytes.length < (BitQuality.ofCode level).payloadLen
  · rw [LocalAvatarSyncMessage.deserialize, hat.getU8_eq] at h
    change (do
      let (array, r) ← ((NetReader.new (level :: bytes)).skip 1).take
        (BitQuality.ofCode level).payloadLen
      _) = _ at h
    rw [hat.skip_one.take_short hshort] at h
    cases h
  · have harray : (bytes.take (BitQuality.ofCode level).payloadLen).length =
        (BitQuality.ofCode level).payloadLen := List.length_take_of_le (Nat.not_lt.mp hshort)
    have hread := @deserialize_spec (.new (level :: bytes)) level
      (bytes.take (BitQuality.ofCode level).payloadLen)
      (bytes.drop (BitQuality.ofCode level).payloadLen) harray (by
        rw [List.take_append_drop]
        exact hat)
    cases hparsed : parseSection (bytes.drop (BitQuality.ofCode level).payloadLen) with
    | none =>
      rw [hparsed] at hread
      obtain ⟨e, he⟩ := hread
      rw [he] at h
      cases h
    | some p =>
      rw [hparsed] at hread
      obtain ⟨r', hr', -⟩ := hread
      rw [hr'] at h
      cases h
      exact harray

/-- Reading loses nothing but the indices of items without data. -/
theorem onWire_eq_self_iff (message : LocalAvatarSyncMessage) : message.onWire = message ↔
    ∀ item ∈ message.additionalAvatarDatas, item.data = [] → item.messageIndex = 0 := by
  have hmap : message.onWire = message ↔
      message.additionalAvatarDatas.map AdditionalAvatarData.onWire =
        message.additionalAvatarDatas.map id := by
    rw [List.map_id]
    constructor
    · intro h
      exact congrArg additionalAvatarDatas h
    · intro h
      rw [onWire, h]
  rw [hmap, List.map_inj_left]
  refine forall₂_congr fun item _ => ?_
  rw [AdditionalAvatarData.onWire]
  split_ifs with hdata
  · obtain ⟨index, data⟩ := item
    cases hdata
    exact ⟨fun h _ => (congrArg AdditionalAvatarData.messageIndex h).symm,
      fun h => by rw [show index = 0 from h rfl]; rfl⟩
  · exact ⟨fun _ h => absurd h hdata, fun _ => rfl⟩

/-- Without a section there is nothing for the reader. -/
theorem not_roundTrips_pose (message : LocalAvatarSyncMessage) : ¬RoundTrips message false := by
  rintro ⟨bytes, r, hwrite, -, hread, -⟩
  have hpose : message.array ++ bytes = message.array ++ [] := by
    rw [List.append_nil]
    injection hwrite with hwrite
    injection hwrite with hwrite
    exact hwrite.symm
  have harray := deserialize_array hread
  have hspec := deserialize_spec harray
    (NetReader.At.new (message.dataQualityLevel :: (message.array ++ [])))
  rw [hpose] at hread
  obtain ⟨e, he⟩ := hspec
  rw [he] at hread
  cases hread

/-- A section with items that fit is accepted and read back, whatever follows. -/
theorem section_agrees (hfits : message.Fits) (hne : message.additionalAvatarDatas ≠ [])
    (harray : message.array.length = (BitQuality.ofCode message.dataQualityLevel).payloadLen)
    (w : NetWriter) :
    ∃ bytes, message.serializeForChannel w true = .ok ⟨w.data ++ message.array ++ bytes⟩ ∧
      validateAdditionalAvatarData bytes = .ok () ∧
      ∀ trailing, ∃ r, LocalAvatarSyncMessage.deserialize
          (.new (message.dataQualityLevel :: (message.array ++ (bytes ++ trailing)))) =
        .ok (message.onWire, r) ∧ r.At trailing := by
  refine ⟨_, serializeForChannel_section hfits w, (validate_iff _).mpr ?_, ?_⟩
  · have hsection := parseSection_section hfits hne []
    rw [List.append_nil] at hsection
    exact ⟨_, _, hsection⟩
  · intro trailing
    have hread := deserialize_spec harray
      (NetReader.At.new (message.dataQualityLevel ::
        (message.array ++ (message.sectionBytes ++ trailing))))
    rw [parseSection_section hfits hne trailing] at hread
    exact hread

/-- The check accepts exactly what the reader takes completely. -/
theorem validate_iff_deserialize {array : Bytes} (bytes : Bytes)
    (harray : array.length = (BitQuality.ofCode level).payloadLen) :
    validateAdditionalAvatarData bytes = .ok () ↔
      ∃ message r, LocalAvatarSyncMessage.deserialize (.new (level :: (array ++ bytes))) =
        .ok (message, r) ∧ r.remaining = 0 := by
  have hread := deserialize_spec harray (NetReader.At.new (level :: (array ++ bytes)))
  rw [validate_iff]
  cases hparsed : parseSection bytes with
  | none =>
    rw [hparsed] at hread
    obtain ⟨e, he⟩ := hread
    rw [he]
    exact ⟨(fun ⟨_, _, h⟩ => nomatch h), (fun ⟨_, _, h, _⟩ => nomatch h)⟩
  | some p =>
    obtain ⟨linked, items, rest⟩ := p
    rw [hparsed] at hread
    obtain ⟨r, hr, hat⟩ := hread
    constructor
    · rintro ⟨linked', items', h⟩
      cases h
      exact ⟨_, r, hr, hat.remaining⟩
    · rintro ⟨message, r', h, hremaining⟩
      rw [hr] at h
      cases h
      rw [hat.remaining] at hremaining
      have hnil : rest = [] := List.eq_nil_of_length_eq_zero hremaining
      exact ⟨linked, items, by rw [hnil]⟩

/-- **When a message goes there and back.** -/
theorem roundTrips_iff (message : LocalAvatarSyncMessage) (hasAdditionalData : Bool) :
    RoundTrips message hasAdditionalData ↔
      hasAdditionalData = true ∧ message.additionalAvatarDatas ≠ [] ∧ message.Fits ∧
      message.array.length = (BitQuality.ofCode message.dataQualityLevel).payloadLen ∧
      ∀ item ∈ message.additionalAvatarDatas, item.data = [] → item.messageIndex = 0 := by
  constructor
  · intro h
    cases hasAdditionalData with
    | false => exact absurd h (not_roundTrips_pose message)
    | true =>
    obtain ⟨bytes, r, hwrite, hvalid, hread, -⟩ := h
    have hfits : message.Fits := by
      by_contra hnot
      obtain ⟨e, he⟩ := serializeForChannel_error hnot ⟨[]⟩
      rw [he] at hwrite
      cases hwrite
    have harray := deserialize_array hread
    rw [serializeForChannel_section hfits, List.nil_append] at hwrite
    injection hwrite with hwrite
    injection hwrite with hwrite
    obtain rfl : message.sectionBytes = bytes := List.append_cancel_left hwrite
    have hne : message.additionalAvatarDatas ≠ [] := by
      intro hnil
      have hempty := hvalid rfl
      rw [sectionBytes, hnil] at hempty
      cases hempty
    refine ⟨rfl, hne, hfits, harray, (onWire_eq_self_iff message).mp ?_⟩
    obtain ⟨bytes', hwrite', -, hback⟩ := section_agrees hfits hne harray ⟨[]⟩
    rw [serializeForChannel_section hfits] at hwrite'
    injection hwrite' with hwrite'
    injection hwrite' with hwrite'
    obtain rfl : message.sectionBytes = bytes' := List.append_cancel_left hwrite'
    obtain ⟨r', hr', -⟩ := hback []
    rw [List.append_nil, hread] at hr'
    injection hr' with hr'
    exact (congrArg Prod.fst hr').symm
  · rintro ⟨rfl, hne, hfits, harray, hindices⟩
    obtain ⟨bytes, hwrite, hvalid, hback⟩ := section_agrees hfits hne harray ⟨[]⟩
    obtain ⟨r, hr, hat⟩ := hback []
    rw [List.append_nil, (onWire_eq_self_iff message).mpr hindices] at hr
    exact ⟨bytes, r, hwrite, fun _ => hvalid, hr, hat.remaining⟩

/-- **The three agree** exactly when there is a section with at least one item.  Apart from that the
lengths must fit in their bytes, the pose must have the length of its quality, and an item without
data, whose index is not written, must have the index zero.  A message with items that fit passes
the check and is read back but for such indices, whatever follows; without a section only the pose
is written; and the check accepts exactly what the reader takes completely. -/
theorem additional_data_agree (message : LocalAvatarSyncMessage) (hasAdditionalData : Bool)
    (w : NetWriter) :
    (RoundTrips message hasAdditionalData ↔
      hasAdditionalData = true ∧ message.additionalAvatarDatas ≠ [] ∧ message.Fits ∧
      message.array.length = (BitQuality.ofCode message.dataQualityLevel).payloadLen ∧
      ∀ item ∈ message.additionalAvatarDatas, item.data = [] → item.messageIndex = 0) ∧
    message.serializeForChannel w false = .ok ⟨w.data ++ message.array⟩ ∧
    (¬message.Fits → ∃ e, message.serializeForChannel w true = .error e) ∧
    (message.Fits → message.additionalAvatarDatas ≠ [] →
      message.array.length = (BitQuality.ofCode message.dataQualityLevel).payloadLen →
      ∃ bytes, message.serializeForChannel w true = .ok ⟨w.data ++ message.array ++ bytes⟩ ∧
        validateAdditionalAvatarData bytes = .ok () ∧
        ∀ trailing, ∃ r, LocalAvatarSyncMessage.deserialize
            (.new (message.dataQualityLevel :: (message.array ++ (bytes ++ trailing)))) =
          .ok (message.onWire, r) ∧ r.At trailing) ∧
    ∀ (level : Byte) (array bytes : Bytes), array.length = (BitQuality.ofCode level).payloadLen →
      (validateAdditionalAvatarData bytes = .ok () ↔
        ∃ message r, LocalAvatarSyncMessage.deserialize (.new (level :: (array ++ bytes))) =
          .ok (message, r) ∧ r.remaining = 0) :=
  ⟨roundTrips_iff message hasAdditionalData, rfl, fun h => serializeForChannel_error h w,
    fun hfits hne harray => section_agrees hfits hne harray w,
    fun _ _ bytes harray => validate_iff_deserialize bytes harray⟩

/-- A message with a pose of zeros in the lowest quality. -/
def zeroMessage (items : List AdditionalAvatarData) : LocalAvatarSyncMessage :=
  ⟨0, List.replicate 74 0, items, 3⟩

/-- Two items, one of them without data. -/
theorem additional_data_agree_two :
    (∃ bytes, (zeroMessage [⟨5, [7, 8]⟩, ⟨9, []⟩]).serializeForChannel ⟨[]⟩ true =
        .ok ⟨List.replicate 74 0 ++ bytes⟩ ∧
      validateAdditionalAvatarData bytes = .ok () ∧
      ∃ r, LocalAvatarSyncMessage.deserialize
          (.new (0 :: (List.replicate 74 0 ++ (bytes ++ [1])))) =
        .ok (zeroMessage [⟨5, [7, 8]⟩, ⟨0, []⟩], r) ∧ r.At [1]) ∧
    RoundTrips (zeroMessage [⟨5, [7, 8]⟩, ⟨0, []⟩]) true ∧
    validateAdditionalAvatarData [2, 3, 2, 5, 7, 8, 0] = .ok () := by
  obtain ⟨-, -, -, hsection, hcheck⟩ :=
    additional_data_agree (zeroMessage [⟨5, [7, 8]⟩, ⟨9, []⟩]) true ⟨[]⟩
  refine ⟨?_, ?_, ?_⟩
  · obtain ⟨bytes, hwrite, hvalid, hback⟩ := hsection ⟨by decide, by decide⟩
      (List.cons_ne_nil _ _) List.length_replicate
    obtain ⟨r, hread, hat⟩ := hback [1]
    exact ⟨bytes, hwrite, hvalid, r, hread, hat⟩
  · exact (additional_data_agree _ true ⟨[]⟩).1.mpr ⟨rfl, List.cons_ne_nil _ _,
      ⟨by decide, by decide⟩, List.length_replicate, by decide⟩
  · exact (hcheck 0 (List.replicate 74 0) _ List.length_replicate).mpr
      ⟨zeroMessage [⟨5, [7, 8]⟩, ⟨0, []⟩], _, rfl, rfl⟩

/-- Where they do not agree: without items the linked index is written all the same, which the check
refuses and the reader leaves, and the other writer omits it; an item without data loses its index;
and a pose alone is no message for the reader. -/
theorem additional_data_disagree :
    ¬RoundTrips (zeroMessage []) true ∧
    (zeroMessage []).serializeForChannel ⟨[]⟩ true = .ok ⟨List.replicate 74 0 ++ [0, 3]⟩ ∧
    validateAdditionalAvatarData [0, 3] = .error .trailingAfterEmptySection ∧
    LocalAvatarSyncMessage.deserialize (.new (0 :: (List.replicate 74 0 ++ [0, 3]))) =
      .ok (⟨0, List.replicate 74 0, [], 0⟩, ⟨0 :: (List.replicate 74 0 ++ [0, 3]), 76⟩) ∧
    (zeroMessage []).serialize ⟨[]⟩ = .ok ⟨0 :: (List.replicate 74 0 ++ [0])⟩ ∧
    validateAdditionalAvatarData [0] = .ok () ∧
    (zeroMessage [⟨5, []⟩]).serializeForChannel ⟨[]⟩ true =
      .ok ⟨List.replicate 74 0 ++ [1, 3, 0]⟩ ∧
    LocalAvatarSyncMessage.deserialize (.new (0 :: (List.replicate 74 0 ++ [1, 3, 0]))) =
      .ok (zeroMessage [⟨0, []⟩], ⟨0 :: (List.replicate 74 0 ++ [1, 3, 0]), 78⟩) ∧
    (zeroMessage []).serializeForChannel ⟨[]⟩ false = .ok ⟨List.replicate 74 0⟩ ∧
    LocalAvatarSyncMessage.deserialize (.new (0 :: List.replicate 74 0)) =
      .error (.underflow 1 0) :=
  ⟨fun h => ((roundTrips_iff _ _).mp h).2.1 rfl, by decide +kernel⟩

end BasisRust.Avatar
