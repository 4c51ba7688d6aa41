import BasisRust.Storage.Legacy
import Mathlib.Algebra.Order.BigOperators.Group.List

/-!
# What the legacy decoder accepts

`Reads r b r'` says that the bytes `b` come next and that `r'` is behind them; every reader is
characterised by the bytes it accepts, and these are put together by `reads_append`.
-/

namespace BasisRust.Storage

open Library

theorem toBitVec_map_ofBitVec (bytes : Bytes) :
    (bytes.map UInt8.ofBitVec).map UInt8.toBitVec = bytes := by
  rw [List.map_map]
  exact List.map_id bytes

/-- **A string from bytes** is the one with these bytes. -/
theorem strFromUtf8_iff {bytes : Bytes} {s : String} :
    strFromUtf8 bytes = some s ↔ utf8 s = bytes := by
  rw [strFromUtf8, String.fromUTF8?]
  constructor
  · intro h
    split_ifs at h with hvalid
    rw [← Option.some.inj h]
    exact toBitVec_map_ofBitVec bytes
  · intro h
    have hbytes : (⟨(bytes.map UInt8.ofBitVec).toArray⟩ : ByteArray) = s.toByteArray := by
      rw [← h, utf8, List.map_map]
      exact ByteArray.ext (congrArg List.toArray (List.map_id s.toByteArray.data.toList))
    rw [dif_pos (hbytes ▸ s.isValidUTF8)]
    refine congrArg some (String.toByteArray_inj.mp ?_)
    exact hbytes

theorem leBytes_leNat (bytes : Bytes) : leBytes bytes.length (leNat bytes) = bytes := by
  induction bytes with
  | nil => rfl
  | cons b bytes ih =>
    have hlow : BitVec.ofNat 8 (b.toNat + 256 * leNat bytes) = b := by
      apply BitVec.eq_of_toNat_eq
      rw [BitVec.toNat_ofNat]
      have hb := b.isLt
      omega
    have hhigh : (b.toNat + 256 * leNat bytes) / 256 = leNat bytes := by
      have hb := b.isLt
      omega
    rw [List.length_cons, leNat, leBytes, hlow, hhigh, ih]

namespace Legacy

variable {sha256 : Bytes → Digest} {category : Char → GeneralCategory}

/-! ### Computations -/

section Except

variable {α β : Type} {x : Except Halt α} {f : α → Except Halt β} {y : β}

theorem bind_ok : (x >>= f) = .ok y ↔ ∃ a, x = .ok a ∧ f a = .ok y := by
  cases x with
  | error e => exact ⟨nofun, fun h => by obtain ⟨a, ha, -⟩ := h; cases ha⟩
  | ok a => exact ⟨fun h => ⟨a, rfl, h⟩, fun h => by obtain ⟨b, hb, hf⟩ := h; cases hb; exact hf⟩

theorem ensure_ok {p : Prop} [Decidable p] {error : DecodeError} {f : Unit → Except Halt β} :
    (ensure p error >>= f) = .ok y ↔ p ∧ f () = .ok y := by
  rw [ensure]
  split_ifs with hp
  · exact ⟨fun h => ⟨hp, h⟩, fun h => h.2⟩
  · exact ⟨nofun, fun h => absurd h.1 hp⟩

/-- A computation that does not panic. -/
def Total (x : Except Halt α) : Prop := x ≠ .error .panic

theorem Total.ok {a : α} : Total (Except.ok a : Except Halt α) := by
  intro h
  cases h

theorem Total.failed {e : DecodeError} : Total (Except.error (.failed e) : Except Halt α) := by
  intro h
  cases h

theorem Total.bind (hx : Total x) (hf : ∀ a, x = .ok a → Total (f a)) : Total (x >>= f) := by
  cases x with
  | error e =>
    intro h
    cases h
    exact hx rfl
  | ok a => exact hf a rfl

theorem Total.ensure {p : Prop} [Decidable p] {error : DecodeError} {f : Unit → Except Halt β}
    (hf : p → Total (f ())) : Total (ensure p error >>= f) := by
  rw [Legacy.ensure]
  split_ifs with hp
  · exact hf hp
  · exact .failed

end Except

/-! ### Readers -/

namespace Reader

variable {r r' r'' : Reader} {b c : Bytes} {n : ℕ} {name : String}

/-- A reader inside bytes whose length is a `usize`. -/
structure Good (r : Reader) : Prop where
  pos_le : r.pos ≤ r.bytes.length
  length_le : r.bytes.length ≤ usizeMax

/-- The bytes that come next, and the reader behind them. -/
def Reads (r : Reader) (b : Bytes) (r' : Reader) : Prop :=
  b <+: r.bytes.drop r.pos ∧ r' = ⟨r.bytes, r.pos + b.length⟩

theorem reads_nil : r.Reads [] r' ↔ r' = r := ⟨fun h => h.2, fun h => ⟨List.nil_prefix, h⟩⟩

theorem reads_append : r.Reads (b ++ c) r'' ↔ ∃ r', r.Reads b r' ∧ r'.Reads c r'' := by
  constructor
  · rintro ⟨⟨rest, hrest⟩, hr''⟩
    refine ⟨⟨r.bytes, r.pos + b.length⟩, ⟨⟨c ++ rest, ?_⟩, rfl⟩, ⟨rest, ?_⟩, ?_⟩
    · rw [← hrest, List.append_assoc]
    · rw [← List.drop_drop, ← hrest, List.append_assoc, List.drop_left]
    · rw [hr'', List.length_append, Nat.add_assoc]
  · rintro ⟨r', ⟨⟨rest, hrest⟩, hr'⟩, ⟨rest', hrest'⟩, hr''⟩
    subst hr'
    refine ⟨⟨rest', ?_⟩, ?_⟩
    · rw [← List.drop_drop, ← hrest, List.drop_left] at hrest'
      rw [← hrest, List.append_assoc, hrest']
    · rw [hr'', List.length_append, Nat.add_assoc]

theorem Reads.length_le (h : r.Reads b r') (hr : r.Good) : r.pos + b.length ≤ r.bytes.length := by
  have hle := h.1.length_le
  have hpos := hr.pos_le
  rw [List.length_drop] at hle
  omega

theorem Reads.good (h : r.Reads b r') (hr : r.Good) : r'.Good := by
  have hle := h.length_le hr
  rw [h.2]
  exact ⟨hle, hr.length_le⟩

theorem take_iff (hr : r.Good) : r.take n = .ok (b, r') ↔ b.length = n ∧ r.Reads b r' := by
  have hpos := hr.pos_le
  have hlength := hr.length_le
  rw [take]
  split_ifs with hover
  · refine ⟨nofun, fun h => ?_⟩
    have hle := h.2.length_le hr
    omega
  · rw [getRange]
    split_ifs with hrange
    · rw [Nat.add_sub_cancel_left]
      have htake : (slice r.bytes r.pos n).length = n := slice_length _ _ _ hrange.2
      constructor
      · intro h
        cases h
        refine ⟨htake, List.take_prefix _ _, ?_⟩
        rw [htake]
      · rintro ⟨hb, hprefix, hr'⟩
        have hslice : slice r.bytes r.pos n = b := by
          rw [List.prefix_iff_eq_take.mp hprefix, hb]
          rfl
        rw [hslice, hr', hb]
    · refine ⟨nofun, fun h => ?_⟩
      have hle := h.2.length_le hr
      exact absurd ⟨by omega, by omega⟩ hrange

theorem u16_iff (hr : r.Good) : r.u16 = .ok (n, r') ↔ n < 65536 ∧ r.Reads (leBytes 2 n) r' := by
  rw [u16, bind_ok]
  constructor
  · rintro ⟨⟨part, r₁⟩, htake, hn⟩
    obtain ⟨hlength, hreads⟩ := (take_iff hr).mp htake
    cases hn
    have hlt := leNat_lt part
    have hpart := leBytes_leNat part
    rw [hlength] at hlt hpart
    exact ⟨hlt, hpart.symm ▸ hreads⟩
  · rintro ⟨hn, hreads⟩
    refine ⟨(leBytes 2 n, r'), (take_iff hr).mpr ⟨leBytes_length 2 n, hreads⟩, ?_⟩
    show Except.ok (leNat (leBytes 2 n), r') = _
    rw [leNat_leBytes_two n hn]

theorem text_iff : text b = .ok name ↔ utf8 name = b := by
  rw [← strFromUtf8_iff, text]
  cases strFromUtf8 b with
  | none => exact ⟨nofun, nofun⟩
  | some s =>
    exact ⟨fun h => congrArg some (Except.ok.inj h), fun h => congrArg _ (Option.some.inj h)⟩

theorem length_of_validName (h : validName category name = true) :
    0 < (utf8 name).length ∧ (utf8 name).length ≤ maxNameBytes := by
  rw [validName, Bool.and_eq_true, Bool.and_eq_true, Bool.and_eq_true, decide_eq_true_eq,
    decide_eq_true_eq] at h
  exact ⟨List.length_pos_iff.mpr h.1.1.1, h.1.1.2⟩

theorem name_iff (hr : r.Good) : r.name category = .ok (name, r') ↔
    validName category name = true ∧ r.Reads (encName name) r' := by
  rw [Reader.name, bind_ok, encName, reads_append]
  constructor
  · rintro ⟨⟨part, r₁⟩, htake, h⟩
    obtain ⟨hlength, hreads⟩ := (take_iff hr).mp htake
    obtain ⟨x, rfl⟩ := List.length_eq_one_iff.mp hlength
    obtain ⟨-, h⟩ := ensure_ok.mp h
    obtain ⟨⟨part, r₂⟩, htake₂, h⟩ := bind_ok.mp h
    obtain ⟨hlength₂, hreads₂⟩ := (take_iff (hreads.good hr)).mp htake₂
    obtain ⟨s, hs, h⟩ := bind_ok.mp h
    obtain ⟨hvalid, h⟩ := ensure_ok.mp h
    cases h
    have hbytes := text_iff.mp hs
    refine ⟨hvalid, r₁, ?_, hbytes ▸ hreads₂⟩
    have hone : leBytes 1 (utf8 name).length = [x] := by
      rw [hbytes, hlength₂]
      exact leBytes_leNat [x]
    rwa [hone]
  · rintro ⟨hvalid, r₁, hreads, hreads₂⟩
    obtain ⟨hpos, hle⟩ := length_of_validName hvalid
    have hlt : (utf8 name).length < 256 := lt_of_le_of_lt hle (by decide)
    refine ⟨(_, r₁), (take_iff hr).mpr ⟨leBytes_length 1 _, hreads⟩, ?_⟩
    have hfirst : (BitVec.ofNat 8 (utf8 name).length).toNat = (utf8 name).length :=
      Nat.mod_eq_of_lt hlt
    refine bind_ok.mpr ⟨(utf8 name).length, congrArg Except.ok hfirst, ?_⟩
    refine ensure_ok.mpr ⟨⟨hpos, hle⟩, bind_ok.mpr ⟨(utf8 name, r'), ?_, ?_⟩⟩
    · exact (take_iff (hreads.good hr)).mpr ⟨rfl, hreads₂⟩
    · exact bind_ok.mpr ⟨name, text_iff.mpr rfl, ensure_ok.mpr ⟨hvalid, rfl⟩⟩

end Reader

/-! ### The loops -/

section Loops

variable {r r' : Reader} {n entries : ℕ} {values values' : OrderedMap String Bytes}
  {scopes scopes' : OrderedMap String (OrderedMap String Bytes)}

/-- An entry that can be read back. -/
def EntryOk (category : Char → GeneralCategory) (x : String × Bytes) : Prop :=
  validName category x.1 = true ∧ x.2.length < 65536

/-- A scope that can be read back, but for the bound on all entries. -/
def ScopeOk (category : Char → GeneralCategory) (x : String × List (String × Bytes)) : Prop :=
  validName category x.1 = true ∧ 0 < x.2.length ∧ ∀ y ∈ x.2, EntryOk category y

theorem readEntries_succ (hr : r.Good) :
    readEntries category (n + 1) values r = .ok (values', r') ↔ ∃ x r₁, EntryOk category x ∧
      r.Reads (encEntry x) r₁ ∧ values.get x.1 = none ∧
        readEntries category n (values.insert x.1 x.2) r₁ = .ok (values', r') := by
  rw [readEntries, bind_ok]
  constructor
  · rintro ⟨⟨key, r₁⟩, hkey, h⟩
    obtain ⟨hvalid, hreads₁⟩ := (Reader.name_iff hr).mp hkey
    have hr₁ := hreads₁.good hr
    obtain ⟨⟨length, r₂⟩, hlength, h⟩ := bind_ok.mp h
    obtain ⟨hfits, hreads₂⟩ := (Reader.u16_iff hr₁).mp hlength
    obtain ⟨⟨value, r₃⟩, hvalue, h⟩ := bind_ok.mp h
    obtain ⟨hsize, hreads₃⟩ := (Reader.take_iff (hreads₂.good hr₁)).mp hvalue
    obtain ⟨hfresh, hrest⟩ := ensure_ok.mp h
    subst hsize
    refine ⟨(key, value), r₃, ⟨hvalid, hfits⟩, ?_, hfresh, hrest⟩
    exact Reader.reads_append.mpr ⟨r₂, Reader.reads_append.mpr ⟨r₁, hreads₁, hreads₂⟩, hreads₃⟩
  · rintro ⟨⟨key, value⟩, r₃, ⟨hvalid, hfits⟩, hreads, hfresh, h⟩
    obtain ⟨r₂, hreads₁₂, hreads₃⟩ := Reader.reads_append.mp hreads
    obtain ⟨r₁, hreads₁, hreads₂⟩ := Reader.reads_append.mp hreads₁₂
    have hr₁ := hreads₁.good hr
    refine ⟨(key, r₁), (Reader.name_iff hr).mpr ⟨hvalid, hreads₁⟩, ?_⟩
    refine bind_ok.mpr ⟨(_, r₂), (Reader.u16_iff hr₁).mpr ⟨hfits, hreads₂⟩, ?_⟩
    refine bind_ok.mpr ⟨(value, r₃), ?_, ensure_ok.mpr ⟨hfresh, h⟩⟩
    exact (Reader.take_iff (hreads₂.good hr₁)).mpr ⟨rfl, hreads₃⟩

/-- **The entries of a scope**, as many as are counted. -/
theorem readEntries_iff (hr : r.Good) :
    readEntries category n values r = .ok (values', r') ↔ ∃ l : List (String × Bytes),
      l.length = n ∧ (∀ x ∈ l, EntryOk category x) ∧ OrderedMap.Inserts l values values' ∧
        r.Reads (l.flatMap encEntry) r' := by
  induction n generalizing values r with
  | zero =>
    rw [readEntries]
    constructor
    · intro h
      cases h
      exact ⟨[], rfl, nofun, rfl, Reader.reads_nil.mpr rfl⟩
    · rintro ⟨l, hl, -, hinserts, hreads⟩
      rw [List.length_eq_zero_iff.mp hl] at hinserts hreads
      rw [show values' = values from hinserts, Reader.reads_nil.mp hreads]
  | succ n ih =>
    rw [readEntries_succ hr]
    constructor
    · rintro ⟨x, r₁, hx, hreads, hfresh, h⟩
      obtain ⟨l, hl, hok, hinserts, hrest⟩ := (ih (hreads.good hr)).mp h
      refine ⟨x :: l, congrArg Nat.succ hl, List.forall_mem_cons.mpr ⟨hx, hok⟩,
        ⟨hfresh, hinserts⟩, ?_⟩
      rw [List.flatMap_cons]
      exact Reader.reads_append.mpr ⟨r₁, hreads, hrest⟩
    · rintro ⟨l, hl, hok, hinserts, hreads⟩
      cases l with
      | nil => cases hl
      | cons x l =>
        rw [List.flatMap_cons] at hreads
        obtain ⟨r₁, hreads, hrest⟩ := Reader.reads_append.mp hreads
        obtain ⟨hx, hok⟩ := List.forall_mem_cons.mp hok
        refine ⟨x, r₁, hx, hreads, hinserts.1, (ih (hreads.good hr)).mpr ?_⟩
        exact ⟨l, Nat.succ.inj hl, hok, hinserts.2, hrest⟩

theorem ite_ok {ε α : Type} {p : Prop} [Decidable p] {x y : α} {e : ε} :
    (if p then Except.ok x else .error e) = .ok y ↔ p ∧ x = y := by
  split_ifs with h
  · exact ⟨fun heq => ⟨h, Except.ok.inj heq⟩, fun heq => congrArg _ heq.2⟩
  · exact ⟨nofun, fun heq => absurd heq.1 h⟩

theorem add_ok {a b c : ℕ} : add a b = .ok c ↔ a + b ≤ usizeMax ∧ a + b = c := ite_ok

theorem readScopes_succ (hr : r.Good) :
    readScopes category (n + 1) entries scopes r = .ok (scopes', r') ↔ ∃ x values r₁,
      ScopeOk category x ∧ entries + x.2.length ≤ 1024 ∧ x.2.Perm values.entries ∧
        r.Reads (encScope x) r₁ ∧ scopes.get x.1 = none ∧
          readScopes category n (entries + x.2.length) (scopes.insert x.1 values) r₁ =
            .ok (scopes', r') := by
  rw [readScopes, bind_ok]
  constructor
  · rintro ⟨⟨scope, r₁⟩, hscope, h⟩
    obtain ⟨hvalid, hreads₁⟩ := (Reader.name_iff hr).mp hscope
    have hr₁ := hreads₁.good hr
    obtain ⟨⟨count, r₂⟩, hcount, h⟩ := bind_ok.mp h
    obtain ⟨-, hreads₂⟩ := (Reader.u16_iff hr₁).mp hcount
    obtain ⟨total, htotal, h⟩ := bind_ok.mp h
    obtain ⟨-, rfl⟩ := add_ok.mp htotal
    obtain ⟨⟨hpos, hmost⟩, h⟩ := ensure_ok.mp h
    obtain ⟨⟨values, r₃⟩, hvalues, h⟩ := bind_ok.mp h
    obtain ⟨l, rfl, hok, hinserts, hreads₃⟩ := (readEntries_iff (hreads₂.good hr₁)).mp hvalues
    obtain ⟨hfresh, h⟩ := ensure_ok.mp h
    have hperm := OrderedMap.inserts_iff.mp hinserts
    rw [show (OrderedMap.empty : OrderedMap String Bytes).entries = [] from rfl,
      List.append_nil] at hperm
    refine ⟨(scope, l), values, r₃, ⟨hvalid, hpos, hok⟩, hmost, hperm.symm, ?_, hfresh, h⟩
    exact Reader.reads_append.mpr ⟨r₂, Reader.reads_append.mpr ⟨r₁, hreads₁, hreads₂⟩, hreads₃⟩
  · rintro ⟨⟨scope, l⟩, values, r₃, ⟨hvalid, hpos, hok⟩, hmost, hperm, hreads, hfresh, h⟩
    obtain ⟨r₂, hreads₁₂, hreads₃⟩ := Reader.reads_append.mp hreads
    obtain ⟨r₁, hreads₁, hreads₂⟩ := Reader.reads_append.mp hreads₁₂
    have hr₁ := hreads₁.good hr
    have hlength : l.length < 65536 := by
      have hle : entries + l.length ≤ 1024 := hmost
      omega
    have hsum : entries + l.length ≤ usizeMax := hmost.trans (by decide)
    refine ⟨(scope, r₁), (Reader.name_iff hr).mpr ⟨hvalid, hreads₁⟩, ?_⟩
    refine bind_ok.mpr ⟨(l.length, r₂), (Reader.u16_iff hr₁).mpr ⟨hlength, hreads₂⟩, ?_⟩
    refine bind_ok.mpr
      ⟨entries + l.length, add_ok.mpr ⟨hsum, rfl⟩, ensure_ok.mpr ⟨⟨hpos, hmost⟩, ?_⟩⟩
    refine bind_ok.mpr ⟨(values, r₃), ?_, ensure_ok.mpr ⟨hfresh, h⟩⟩
    refine (readEntries_iff (hreads₂.good hr₁)).mpr ⟨l, rfl, hok, ?_, hreads₃⟩
    refine OrderedMap.inserts_iff.mpr ?_
    rw [show (OrderedMap.empty : OrderedMap String Bytes).entries = [] from rfl, List.append_nil]
    exact hperm.symm

/-- **The scopes**, as many as are counted, with at most 1024 entries together. -/
theorem readScopes_iff (hr : r.Good) (hentries : entries ≤ 1024) :
    readScopes category n entries scopes r = .ok (scopes', r') ↔
      ∃ (order : Listing) (maps : List (String × OrderedMap String Bytes)),
        order.length = n ∧ (∀ x ∈ order, ScopeOk category x) ∧
        entries + (order.map fun x => x.2.length).sum ≤ 1024 ∧
        List.Forall₂ (fun x y => x.1 = y.1 ∧ x.2.Perm y.2.entries) order maps ∧
        OrderedMap.Inserts maps scopes scopes' ∧ r.Reads (order.flatMap encScope) r' := by
  induction n generalizing entries scopes r with
  | zero =>
    rw [readScopes]
    constructor
    · intro h
      cases h
      exact ⟨[], [], rfl, nofun, hentries, .nil, rfl,
        Reader.reads_nil.mpr rfl⟩
    · rintro ⟨order, maps, hlength, -, -, hforall, hinserts, hreads⟩
      obtain rfl := List.length_eq_zero_iff.mp hlength
      cases hforall
      rw [show scopes' = scopes from hinserts, Reader.reads_nil.mp hreads]
  | succ n ih =>
    rw [readScopes_succ hr]
    constructor
    · rintro ⟨x, values, r₁, hx, hmost, hperm, hreads, hfresh, h⟩
      obtain ⟨order, maps, hlength, hok, hsum, hforall, hinserts, hrest⟩ :=
        (ih (hreads.good hr) hmost).mp h
      refine ⟨x :: order, (x.1, values) :: maps, congrArg Nat.succ hlength,
        List.forall_mem_cons.mpr ⟨hx, hok⟩, ?_, .cons ⟨rfl, hperm⟩ hforall, ⟨hfresh, hinserts⟩, ?_⟩
      · rwa [List.map_cons, List.sum_cons, ← Nat.add_assoc]
      · rw [List.flatMap_cons]
        exact Reader.reads_append.mpr ⟨r₁, hreads, hrest⟩
    · rintro ⟨order, maps, hlength, hok, hsum, hforall, hinserts, hreads⟩
      cases hforall with
      | nil => cases hlength
      | @cons x y order maps hxy hforall =>
        rw [List.flatMap_cons] at hreads
        obtain ⟨r₁, hreads, hrest⟩ := Reader.reads_append.mp hreads
        obtain ⟨hx, hok⟩ := List.forall_mem_cons.mp hok
        rw [List.map_cons, List.sum_cons, ← Nat.add_assoc] at hsum
        have hmost : entries + x.2.length ≤ 1024 := (Nat.le_add_right _ _).trans hsum
        refine ⟨x, y.2, r₁, hx, hmost, hxy.2, hreads, ?_, (ih (hreads.good hr) hmost).mpr ?_⟩
        · rw [hxy.1]
          exact hinserts.1
        · rw [hxy.1]
          exact ⟨order, maps, Nat.succ.inj hlength, hok, hsum, hforall, hinserts.2, hrest⟩

end Loops

/-! ### Listings -/

theorem forall₂_map_eq {α β γ : Type} {R : α → β → Prop} {f : α → γ} {g : β → γ} {l : List α}
    {m : List β} (h : List.Forall₂ R l m) (hR : ∀ x y, R x y → f x = g y) : l.map f = m.map g := by
  induction h with
  | nil => rfl
  | cons hxy _ ih => rw [List.map_cons, List.map_cons, hR _ _ hxy, ih]

theorem forall₂_forall_iff {α β : Type} {R : α → β → Prop} {P : α → Prop} {Q : β → Prop}
    {l : List α} {m : List β} (h : List.Forall₂ R l m) (hR : ∀ x y, R x y → (P x ↔ Q y)) :
    (∀ x ∈ l, P x) ↔ ∀ y ∈ m, Q y := by
  induction h with
  | nil => exact ⟨nofun, nofun⟩
  | cons hxy _ ih => rw [List.forall_mem_cons, List.forall_mem_cons, hR _ _ hxy, ih]

section Listings

variable {order : Listing} {record : PlayerRecord} {owner : String} {revision : ℕ} {blob : Bytes}
  {ownerKey : String}

section

variable (h : Lists order record)
include h

/-- What is added up over a listing. -/
theorem Lists.sum_eq {f : String × List (String × Bytes) → ℕ}
    {g : String × OrderedMap String Bytes → ℕ}
    (hfg : ∀ name l (m : OrderedMap String Bytes), l.Perm m.entries → f (name, l) = g (name, m)) :
    (order.map f).sum = record.scopes.sum g := by
  obtain ⟨maps, hperm, hforall⟩ := h
  rw [OrderedMap.sum, ← (hperm.map g).sum_eq]
  refine congrArg List.sum (forall₂_map_eq hforall ?_)
  rintro ⟨name, l⟩ ⟨name', m⟩ ⟨rfl, hentries⟩
  exact hfg name l m hentries

theorem Lists.length_eq : order.length = record.scopes.len := by
  obtain ⟨maps, hperm, hforall⟩ := h
  rw [hforall.length_eq, hperm.length_eq]
  rfl

theorem Lists.entryCount :
    (order.map fun x => x.2.length).sum = record.entryCount :=
  h.sum_eq fun _ _ _ hperm => hperm.length_eq

/-- What holds of all scopes of a listing. -/
theorem Lists.forall_iff {P : String × List (String × Bytes) → Prop}
    {Q : String × OrderedMap String Bytes → Prop}
    (hPQ : ∀ name l (m : OrderedMap String Bytes), l.Perm m.entries → (P (name, l) ↔ Q (name, m))) :
    (∀ x ∈ order, P x) ↔ ∀ y ∈ record.scopes.entries, Q y := by
  obtain ⟨maps, hperm, hforall⟩ := h
  refine (forall₂_forall_iff hforall (Q := Q) ?_).trans ?_
  · rintro ⟨name, l⟩ ⟨name', m⟩ ⟨rfl, hentries⟩
    exact hPQ name l m hentries
  · exact forall_congr' fun y => imp_congr_left hperm.mem_iff

/-- **The scopes of a record** are those of a listing that can be read back. -/
theorem Lists.scopes_iff : (∀ x ∈ order, ScopeOk category x) ↔
    ∀ y ∈ record.scopes.entries, validName category y.1 = true ∧ y.2.isEmpty = false ∧
      ∀ z ∈ y.2.entries, EntryOk category z := by
  apply h.forall_iff
  intro name l m hperm
  have hpos : 0 < l.length ↔ m.isEmpty = false := by
    rw [hperm.length_eq, ← Bool.not_eq_true, OrderedMap.isEmpty_iff_len]
    exact Nat.pos_iff_ne_zero
  have hentries : (∀ y ∈ l, EntryOk category y) ↔ ∀ z ∈ m.entries, EntryOk category z :=
    forall_congr' fun y => imp_congr_left hperm.mem_iff
  exact and_congr_right' (and_congr hpos hentries)

end

theorem length_encEntry (x : String × Bytes) : (encEntry x).length = PlayerRecord.entryUsed x := by
  rw [encEntry, encName, List.length_append, List.length_append, List.length_append, leBytes_length,
    leBytes_length, PlayerRecord.entryUsed]
  omega

theorem length_encScope (x : String × List (String × Bytes)) : (encScope x).length =
    3 + (utf8 x.1).length + (x.2.map PlayerRecord.entryUsed).sum := by
  have hentries : (x.2.flatMap encEntry).length = (x.2.map PlayerRecord.entryUsed).sum := by
    rw [List.length_flatMap]
    exact congrArg List.sum (List.map_congr_left fun y _ => length_encEntry y)
  rw [encScope, encName, List.length_append, List.length_append, List.length_append, leBytes_length,
    leBytes_length, hentries]
  omega

/-- **What `used` counts** are the bytes of the scopes. -/
theorem Lists.length_scopes (h : Lists order record) :
    (order.flatMap encScope).length = record.used := by
  rw [List.length_flatMap]
  apply h.sum_eq
  intro name l m hperm
  rw [length_encScope, PlayerRecord.scopeUsed, OrderedMap.sum, (hperm.map _).sum_eq]

theorem length_encBody (h : Lists order record) (owner : String) :
    (encBody owner order).length = 4 + (utf8 owner).length + record.used := by
  rw [encBody, List.length_append, List.length_append, List.length_append, leBytes_length,
    leBytes_length, h.length_scopes]
  omega

theorem enc_iff : enc sha256 revision owner order = some blob ↔
    FitsFields revision owner order ∧
      blob = (header ++ leBytes 8 revision ++ encBody owner order) ++
        (sha256 (header ++ leBytes 8 revision ++ encBody owner order)).bytes := by
  rw [enc]
  split_ifs with h
  · exact ⟨fun heq => ⟨h, (Option.some.inj heq).symm⟩, fun heq => congrArg some heq.2.symm⟩
  · exact ⟨nofun, fun heq => absurd heq.1 h⟩

theorem length_enc (h : Lists order record) (hblob : enc sha256 revision owner order = some blob) :
    blob.length = 52 + (utf8 owner).length + record.used := by
  obtain ⟨-, hbytes⟩ := enc_iff.mp hblob
  rw [hbytes, List.length_append, List.length_append, List.length_append, Digest.length_eq,
    length_encBody h, leBytes_length]
  show 8 + 8 + (4 + (utf8 owner).length + record.used) + 32 = _
  omega

/-- **A save that may be stored** has a file that is not too large. -/
theorem Storable.length_le (h : Storable sha256 category ownerKey record)
    (hlists : Lists order record) (hblob : enc sha256 revision record.owner order = some blob) :
    blob.length ≤ maxBlob := by
  have howner := h.owner_le
  have hused := h.used_le
  rw [length_enc hlists hblob, maxBlob]
  omega

theorem Storable.scopeOk (h : Storable sha256 category ownerKey record)
    (hlists : Lists order record)
    (hvalues : ∀ x ∈ record.scopes.entries, ∀ y ∈ x.2.entries, y.2.length < 65536) :
    ∀ x ∈ order, ScopeOk category x := by
  refine hlists.scopes_iff.mpr fun y hy => ⟨h.scopeNames y hy, h.nonempty y hy, fun z hz => ?_⟩
  exact ⟨h.keyNames y hy z hz, hvalues y hy z hz⟩

theorem FitsFields.values (h : FitsFields revision owner order) (hlists : Lists order record) :
    ∀ x ∈ record.scopes.entries, ∀ y ∈ x.2.entries, y.2.length < 65536 := by
  refine (hlists.forall_iff (P := fun x => ∀ y ∈ x.2, y.2.length < 65536) ?_).mp
    fun x hx y hy => ((h.2.2.2 x hx).2.2 y hy).2
  intro name l m hperm
  exact forall_congr' fun y => imp_congr_left hperm.mem_iff

theorem Storable.fitsFields (h : Storable sha256 category ownerKey record)
    (hlists : Lists order record) (hrevision : revision < 2 ^ 63)
    (hvalues : ∀ x ∈ record.scopes.entries, ∀ y ∈ x.2.entries, y.2.length < 65536) :
    FitsFields revision record.owner order := by
  have howner := h.owner_le
  have hscopes := h.scopes_le
  have hentries := h.entries_le
  rw [← hlists.length_eq] at hscopes
  rw [← hlists.entryCount] at hentries
  have hok := h.scopeOk hlists hvalues
  have hname : ∀ name, validName category name = true → (utf8 name).length < 256 := by
    intro name hvalid
    have hle := (Reader.length_of_validName hvalid).2
    rw [maxNameBytes] at hle
    omega
  refine ⟨hrevision, by omega, by omega, fun x hx => ⟨hname _ (hok x hx).1, ?_, fun y hy => ?_⟩⟩
  · have hle : x.2.length ≤ (order.map fun x => x.2.length).sum :=
      List.single_le_sum (fun _ _ => Nat.zero_le _) _ (List.mem_map_of_mem hx)
    omega
  · exact ⟨hname _ ((hok x hx).2.2 y hy).1, ((hok x hx).2.2 y hy).2⟩

end Listings

/-! ### The decoder -/

section Decode

variable {blob body : Bytes} {ownerKey : String} {record : PlayerRecord} {revision : ℕ}
  {order : Listing} {bytes : Bytes}

theorem index_ok {part : Bytes} {start stop : ℕ} : index bytes start stop = .ok part ↔
    (start ≤ stop ∧ stop ≤ bytes.length) ∧ slice bytes start (stop - start) = part := by
  rw [index, getRange]
  split_ifs with h
  · exact ⟨fun heq => ⟨h, Except.ok.inj heq⟩, fun heq => congrArg _ heq.2⟩
  · exact ⟨nofun, fun heq => absurd heq.1 h⟩

theorem subtract_ok {a b c : ℕ} : subtract a b = .ok c ↔ b ≤ a ∧ a - b = c := ite_ok

theorem asI64_nonneg (h : bytes.length = 8) : 0 ≤ asI64 bytes ↔ leNat bytes < 2 ^ 63 := by
  have hlt : leNat bytes < 2 ^ 64 := by
    have hlt := leNat_lt bytes
    rwa [h] at hlt
  rw [asI64, BitVec.toInt_eq_toNat_cond, BitVec.toNat_ofNat, Nat.mod_eq_of_lt hlt]
  split_ifs with hsmall
  · exact ⟨fun _ => by omega, fun _ => by omega⟩
  · exact ⟨fun _ => by omega, fun _ => by omega⟩

/-- The part of the decoder behind the revision. -/
def decodeBody (sha256 : Bytes → Digest) (category : Char → GeneralCategory) (body : Bytes)
    (ownerKey : String) : Except Halt PlayerRecord := do
  let (ownerLength, r) ← Reader.u16 ⟨body, 16⟩
  ensure (1 ≤ ownerLength ∧ ownerLength ≤ 256) .ownerLength
  let (part, r) ← r.take ownerLength
  let owner ← Reader.text part
  ensure ((sha256 (utf8 owner)).lowerHex = ownerKey) .ownerHash
  let (count, r) ← r.u16
  ensure (count ≤ 64) .tooManyScopes
  let (scopes, r) ← readScopes category count 0 .empty r
  ensure (r.pos = body.length) .trailing
  let record : PlayerRecord := ⟨owner, scopes⟩
  ensure (record.used ≤ maxBytesPerPlayer) .playerLimit
  .ok record

theorem reads_all (hbody : 16 ≤ body.length) {part : Bytes} {r : Reader} :
    (Reader.mk body 16).Reads part r ∧ r.pos = body.length ↔
      body.drop 16 = part ∧ r = ⟨body, body.length⟩ := by
  constructor
  · rintro ⟨⟨hlead, rfl⟩, hpos⟩
    have hpos : 16 + part.length = body.length := hpos
    have hlength : (body.drop 16).length = body.length - 16 := List.length_drop
    have hpart : part = body.drop 16 := hlead.eq_of_length (by
      show part.length = (body.drop 16).length
      omega)
    exact ⟨hpart.symm, by rw [hpos]⟩
  · rintro ⟨rfl, rfl⟩
    refine ⟨⟨List.prefix_rfl, ?_⟩, rfl⟩
    rw [List.length_drop, Nat.add_sub_cancel' hbody]

/-- **Behind the revision** the decoder accepts the owner and a listing of the scopes. -/
theorem decodeBody_iff (hbody : 16 ≤ body.length) (hsize : body.length ≤ usizeMax) :
    decodeBody sha256 category body ownerKey = .ok record ↔
      Storable sha256 category ownerKey record ∧
        ∃ order, Lists order record ∧ FitsFields 0 record.owner order ∧
          body.drop 16 = encBody record.owner order := by
  have hr : (Reader.mk body 16).Good := ⟨hbody, hsize⟩
  rw [decodeBody, bind_ok]
  constructor
  · rintro ⟨⟨ownerLength, r₁⟩, hlength, h⟩
    obtain ⟨-, hreads₁⟩ := (Reader.u16_iff hr).mp hlength
    have hr₁ := hreads₁.good hr
    obtain ⟨howner, h⟩ := ensure_ok.mp h
    obtain ⟨⟨part, r₂⟩, hpart, h⟩ := bind_ok.mp h
    obtain ⟨hpartLength, hreads₂⟩ := (Reader.take_iff hr₁).mp hpart
    have hr₂ := hreads₂.good hr₁
    obtain ⟨owner, htext, h⟩ := bind_ok.mp h
    have hbytes := Reader.text_iff.mp htext
    obtain ⟨hhash, h⟩ := ensure_ok.mp h
    obtain ⟨⟨count, r₃⟩, hcount, h⟩ := bind_ok.mp h
    obtain ⟨-, hreads₃⟩ := (Reader.u16_iff hr₂).mp hcount
    obtain ⟨hscopes, h⟩ := ensure_ok.mp h
    obtain ⟨⟨scopes, r₄⟩, hread, h⟩ := bind_ok.mp h
    obtain ⟨order, maps, hcounted, hok, hsum, hforall, hinserts, hreads₄⟩ :=
      (readScopes_iff (hreads₃.good hr₂) (Nat.zero_le _)).mp hread
    obtain ⟨hpos, h⟩ := ensure_ok.mp h
    obtain ⟨hused, hrecord⟩ := ensure_ok.mp h
    obtain rfl := Except.ok.inj hrecord
    subst hbytes hpartLength hcounted
    have hperm := OrderedMap.inserts_iff.mp hinserts
    rw [show (OrderedMap.empty : OrderedMap String (OrderedMap String Bytes)).entries = [] from rfl,
      List.append_nil] at hperm
    have hlists : Lists order ⟨owner, scopes⟩ := ⟨maps, hperm.symm, hforall⟩
    have hscope := hlists.scopes_iff.mp hok
    rw [Nat.zero_add, hlists.entryCount] at hsum
    have hstorable : Storable sha256 category ownerKey ⟨owner, scopes⟩ :=
      ⟨howner.1, howner.2, hhash, hlists.length_eq ▸ hscopes, fun x hx => (hscope x hx).2.1, hsum,
        fun x hx => (hscope x hx).1, fun x hx y hy => ((hscope x hx).2.2 y hy).1, hused⟩
    have hreads : (Reader.mk body 16).Reads (encBody owner order) r₄ :=
      Reader.reads_append.mpr ⟨r₃, Reader.reads_append.mpr ⟨r₂, Reader.reads_append.mpr
        ⟨r₁, hreads₁, hreads₂⟩, hreads₃⟩, hreads₄⟩
    refine ⟨hstorable, order, hlists, ?_, ((reads_all hbody).mp ⟨hreads, hpos⟩).1⟩
    exact hstorable.fitsFields hlists (by decide) fun x hx y hy => ((hscope x hx).2.2 y hy).2
  · rintro ⟨hstorable, order, hlists, hfits, hdrop⟩
    obtain ⟨owner, scopes⟩ := record
    obtain ⟨hreads, hpos⟩ := (reads_all hbody).mpr ⟨hdrop, rfl⟩
    obtain ⟨r₃, hreads₁₂₃, hreads₄⟩ := Reader.reads_append.mp hreads
    obtain ⟨r₂, hreads₁₂, hreads₃⟩ := Reader.reads_append.mp hreads₁₂₃
    obtain ⟨r₁, hreads₁, hreads₂⟩ := Reader.reads_append.mp hreads₁₂
    have hr₁ := hreads₁.good hr
    have hr₂ := hreads₂.good hr₁
    refine ⟨((utf8 owner).length, r₁), (Reader.u16_iff hr).mpr ⟨hfits.2.1, hreads₁⟩, ?_⟩
    refine ensure_ok.mpr ⟨⟨hstorable.owner_pos, hstorable.owner_le⟩, ?_⟩
    refine bind_ok.mpr ⟨(utf8 owner, r₂), (Reader.take_iff hr₁).mpr ⟨rfl, hreads₂⟩, ?_⟩
    refine bind_ok.mpr ⟨owner, Reader.text_iff.mpr rfl, ensure_ok.mpr ⟨hstorable.hash, ?_⟩⟩
    refine bind_ok.mpr ⟨(order.length, r₃), (Reader.u16_iff hr₂).mpr ⟨hfits.2.2.1, hreads₃⟩, ?_⟩
    refine ensure_ok.mpr ⟨hlists.length_eq ▸ hstorable.scopes_le, ?_⟩
    refine bind_ok.mpr
      ⟨(scopes, _), ?_, ensure_ok.mpr ⟨hpos, ensure_ok.mpr ⟨hstorable.used_le, rfl⟩⟩⟩
    have hsum : 0 + (order.map fun x => x.2.length).sum ≤ 1024 := by
      rw [Nat.zero_add, hlists.entryCount]
      exact hstorable.entries_le
    have hok := hstorable.scopeOk hlists (hfits.values hlists)
    obtain ⟨maps, hperm, hforall⟩ := hlists
    refine (readScopes_iff (hreads₃.good hr₂) (Nat.zero_le _)).mpr
      ⟨order, maps, rfl, hok, hsum, hforall, OrderedMap.inserts_iff.mpr ?_, hreads₄⟩
    rw [show (OrderedMap.empty : OrderedMap String (OrderedMap String Bytes)).entries = [] from rfl,
      List.append_nil]
    exact hperm.symm

theorem slice_zero (bytes : Bytes) (n : ℕ) : slice bytes 0 n = bytes.take n := rfl

theorem take_sixteen (bytes : Bytes) : bytes.take 16 = slice bytes 0 8 ++ slice bytes 8 8 :=
  List.take_add (i := 8) (j := 8)

/-- **The frame of a file**: the header and the revision in front, the checksum at the end. -/
theorem decode_split : decode sha256 category blob ownerKey = .ok record ↔
    blob.length ≤ maxBlob ∧ ∃ body revision, revision < 2 ^ 63 ∧ 20 ≤ body.length ∧
      body.take 16 = header ++ leBytes 8 revision ∧ blob = body ++ (sha256 body).bytes ∧
        decodeBody sha256 category body ownerKey = .ok record := by
  rw [decode, ensure_ok]
  constructor
  · rintro ⟨⟨hleast, hmost⟩, h⟩
    obtain ⟨stop, hstop, h⟩ := bind_ok.mp h
    obtain ⟨-, hstop⟩ := subtract_ok.mp hstop
    obtain ⟨start, hstart, h⟩ := bind_ok.mp h
    obtain ⟨-, hstart⟩ := index_ok.mp hstart
    obtain ⟨hheader, h⟩ := ensure_ok.mp h
    obtain ⟨body, hbody, h⟩ := bind_ok.mp h
    obtain ⟨-, hbody⟩ := index_ok.mp hbody
    obtain ⟨checksum, hchecksum, h⟩ := bind_ok.mp h
    obtain ⟨-, hchecksum⟩ := index_ok.mp hchecksum
    obtain ⟨hdigest, h⟩ := ensure_ok.mp h
    obtain ⟨revision, hrevision, h⟩ := bind_ok.mp h
    obtain ⟨hrange, hrevision⟩ := index_ok.mp hrevision
    obtain ⟨hnonneg, h⟩ := ensure_ok.mp h
    rw [Nat.sub_zero, slice_zero] at hbody
    have hlength : body.length = stop := by
      rw [← hbody, List.length_take]
      omega
    have hrevisionLength : revision.length = 8 := by
      rw [← hrevision]
      exact slice_length _ _ _ hrange.2
    have hbytes : leBytes 8 (leNat revision) = revision := by
      have hround := leBytes_leNat revision
      rwa [hrevisionLength] at hround
    refine ⟨hmost, body, leNat revision, (asI64_nonneg hrevisionLength).mp hnonneg, by omega,
      ?_, ?_, ?_⟩
    · rw [hbytes, ← hheader, ← hstart, ← hrevision, ← hbody, List.take_take,
        Nat.min_eq_left (by omega), take_sixteen]
    · have hrest : checksum = blob.drop stop := by
        rw [← hchecksum, slice, List.take_of_length_le]
        rw [List.length_drop]
      rw [hdigest, hrest, ← hbody, List.take_append_drop]
    · rw [← hlength] at h
      exact h
  · rintro ⟨hmost, body, revision, hrevision, hleast, htake, rfl, h⟩
    have hlength : (body ++ (sha256 body).bytes).length = body.length + 32 := by
      rw [List.length_append, Digest.length_eq]
    have hsixteen : (body ++ (sha256 body).bytes).take 16 = header ++ leBytes 8 revision := by
      rw [List.take_append_of_le_length (by omega), htake]
    rw [take_sixteen] at hsixteen
    have hparts := List.append_inj hsixteen (slice_length _ 0 8 (by omega))
    refine ⟨⟨by omega, hmost⟩, bind_ok.mpr ⟨body.length, subtract_ok.mpr ⟨by omega, by omega⟩, ?_⟩⟩
    refine bind_ok.mpr
      ⟨header, index_ok.mpr ⟨⟨by omega, by omega⟩, hparts.1⟩, ensure_ok.mpr ⟨rfl, ?_⟩⟩
    refine bind_ok.mpr ⟨body, index_ok.mpr ⟨⟨by omega, by omega⟩, ?_⟩, ?_⟩
    · rw [Nat.sub_zero, slice_zero, List.take_left]
    refine bind_ok.mpr ⟨(sha256 body).bytes, index_ok.mpr ⟨⟨by omega, le_rfl⟩, ?_⟩,
      ensure_ok.mpr ⟨rfl, ?_⟩⟩
    · rw [slice, List.drop_left, List.take_of_length_le (by rw [Digest.length_eq]; omega)]
    refine bind_ok.mpr ⟨leBytes 8 revision, index_ok.mpr ⟨⟨by omega, by omega⟩, hparts.2⟩, ?_⟩
    refine ensure_ok.mpr ⟨(asI64_nonneg (leBytes_length 8 revision)).mpr ?_, h⟩
    rw [leNat_leBytes 8 revision (hrevision.trans (by decide))]
    exact hrevision

/-- **What the decoder accepts.** -/
theorem decode_iff : decode sha256 category blob ownerKey = .ok record ↔
    Storable sha256 category ownerKey record ∧ ∃ revision order, Lists order record ∧
      enc sha256 revision record.owner order = some blob := by
  rw [decode_split]
  constructor
  · rintro ⟨hmost, body, revision, hrevision, hleast, htake, rfl, h⟩
    have hsize : body.length ≤ usizeMax := by
      rw [List.length_append, maxBlob, maxBytesPerPlayer] at hmost
      rw [usizeMax]
      omega
    obtain ⟨hstorable, order, hlists, hfits, hdrop⟩ := (decodeBody_iff (by omega) hsize).mp h
    refine ⟨hstorable, revision, order, hlists, enc_iff.mpr ⟨⟨hrevision, hfits.2⟩, ?_⟩⟩
    rw [← htake, ← hdrop, List.take_append_drop]
  · rintro ⟨hstorable, revision, order, hlists, henc⟩
    have hmost := hstorable.length_le hlists henc
    obtain ⟨hfits, hblob⟩ := enc_iff.mp henc
    have hfront : (header ++ leBytes 8 revision).length = 16 := by
      rw [List.length_append, leBytes_length]
      rfl
    have hlength : (header ++ leBytes 8 revision ++ encBody record.owner order).length =
        16 + (4 + (utf8 record.owner).length + record.used) := by
      rw [List.length_append, hfront, length_encBody hlists]
    refine ⟨hmost, _, revision, hfits.1, by omega, ?_, hblob, ?_⟩
    · rw [← hfront, List.take_left]
    · have hsize : 16 + (4 + (utf8 record.owner).length + record.used) ≤ usizeMax := by
        have howner := hstorable.owner_le
        have hused := hstorable.used_le
        rw [maxBytesPerPlayer] at hused
        rw [usizeMax]
        omega
      refine (decodeBody_iff (by omega) (by omega)).mpr
        ⟨hstorable, order, hlists, ⟨by decide, hfits.2⟩, ?_⟩
      rw [← hfront, List.drop_left]

/-! ### No panic -/

variable {r : Reader}

theorem take_total (n : ℕ) : Total (r.take n) := by
  rw [Reader.take]
  split_ifs
  · exact .failed
  · cases getRange r.bytes r.pos (r.pos + n) with
    | none => exact .failed
    | some part => exact .ok

theorem u16_total : Total r.u16 := (take_total 2).bind fun _ _ => .ok

theorem text_total (bytes : Bytes) : Total (Reader.text bytes) := by
  rw [Reader.text]
  cases strFromUtf8 bytes with
  | none => exact .failed
  | some s => exact .ok

theorem name_total (hr : r.Good) : Total (r.name category) := by
  refine (take_total 1).bind fun ⟨part, r₁⟩ htake => ?_
  obtain ⟨hlength, -⟩ := (Reader.take_iff hr).mp htake
  obtain ⟨x, rfl⟩ := List.length_eq_one_iff.mp hlength
  refine Total.bind .ok fun length _ => .ensure fun _ => ?_
  refine (take_total length).bind fun ⟨part, r₂⟩ _ => ?_
  exact (text_total part).bind fun s _ => .ensure fun _ => .ok

theorem readEntries_total (hr : r.Good) (n : ℕ) (values : OrderedMap String Bytes) :
    Total (readEntries category n values r) := by
  induction n generalizing values r with
  | zero => exact .ok
  | succ n ih =>
    refine (name_total hr).bind fun ⟨key, r₁⟩ hkey => ?_
    have hr₁ := ((Reader.name_iff hr).mp hkey).2.good hr
    refine u16_total.bind fun ⟨length, r₂⟩ hlength => ?_
    have hr₂ := ((Reader.u16_iff hr₁).mp hlength).2.good hr₁
    refine (take_total length).bind fun ⟨value, r₃⟩ hvalue => .ensure fun _ => ?_
    exact ih (((Reader.take_iff hr₂).mp hvalue).2.good hr₂) _

/-- The sum of the entries stays far below a `usize`. -/
theorem readScopes_total (hr : r.Good) (n : ℕ) {entries : ℕ} (hentries : entries ≤ 1024)
    (scopes : OrderedMap String (OrderedMap String Bytes)) :
    Total (readScopes category n entries scopes r) := by
  induction n generalizing entries scopes r with
  | zero => exact .ok
  | succ n ih =>
    refine (name_total hr).bind fun ⟨scope, r₁⟩ hscope => ?_
    have hr₁ := ((Reader.name_iff hr).mp hscope).2.good hr
    refine u16_total.bind fun ⟨count, r₂⟩ hcount => ?_
    obtain ⟨hlt, hreads⟩ := (Reader.u16_iff hr₁).mp hcount
    have hr₂ := hreads.good hr₁
    have hadd : Total (add entries count) := by
      rw [add, if_pos (by rw [usizeMax]; omega)]
      exact .ok
    refine hadd.bind fun total _ => .ensure fun hcounts => ?_
    refine (readEntries_total hr₂ count .empty).bind fun ⟨values, r₃⟩ hvalues => .ensure fun _ => ?_
    obtain ⟨l, -, -, -, hreads₃⟩ := (readEntries_iff hr₂).mp hvalues
    exact ih (hreads₃.good hr₂) hcounts.2 _

theorem index_total {start stop : ℕ} (h : start ≤ stop ∧ stop ≤ bytes.length) :
    Total (index bytes start stop) := by
  rw [index, getRange, if_pos h]
  exact .ok

/-- **No index is out of range** and no sum overflows. -/
theorem decode_total (blob : Bytes) (ownerKey : String) :
    Total (decode sha256 category blob ownerKey) := by
  refine .ensure fun hlength => ?_
  have hsubtract : Total (subtract blob.length 32) := by
    rw [subtract, if_pos (by omega)]
    exact .ok
  refine hsubtract.bind fun stop hstop => ?_
  obtain ⟨-, hstop⟩ := subtract_ok.mp hstop
  refine (index_total ⟨by omega, by omega⟩).bind fun start _ => .ensure fun _ => ?_
  refine (index_total ⟨by omega, by omega⟩).bind fun body hbody => ?_
  refine (index_total ⟨by omega, le_rfl⟩).bind fun checksum _ => .ensure fun _ => ?_
  refine (index_total ⟨by omega, by omega⟩).bind fun revision _ => .ensure fun _ => ?_
  obtain ⟨-, hbody⟩ := index_ok.mp hbody
  have hlengthBody : body.length = stop := by
    rw [← hbody]
    exact slice_length _ _ _ (by omega)
  have hr : (Reader.mk body 16).Good := by
    refine ⟨?_, ?_⟩
    · show 16 ≤ body.length
      omega
    · show body.length ≤ usizeMax
      have hmost := hlength.2
      rw [maxBlob, maxBytesPerPlayer] at hmost
      rw [usizeMax]
      omega
  refine u16_total.bind fun ⟨ownerLength, r₁⟩ hread => .ensure fun _ => ?_
  have hr₁ := ((Reader.u16_iff hr).mp hread).2.good hr
  refine (take_total ownerLength).bind fun ⟨part, r₂⟩ hpart => ?_
  have hr₂ := ((Reader.take_iff hr₁).mp hpart).2.good hr₁
  refine (text_total part).bind fun owner _ => .ensure fun _ => ?_
  refine u16_total.bind fun ⟨count, r₃⟩ hcount => .ensure fun _ => ?_
  have hr₃ := ((Reader.u16_iff hr₂).mp hcount).2.good hr₂
  refine (readScopes_total hr₃ count (Nat.zero_le _) .empty).bind fun ⟨scopes, r₄⟩ _ => ?_
  exact .ensure fun _ => .ensure fun _ => .ok

/-- **Legacy decoding.** The decoder does not panic; it accepts exactly the files of the records
that may be stored, in any order and with any revision, and gives the record back; and no file of
such a record is too large, whatever the lengths of its values that the format can write. -/
theorem legacy_decode (sha256 : Bytes → Digest) (category : Char → GeneralCategory) :
    (∀ blob ownerKey, decode sha256 category blob ownerKey ≠ .error .panic) ∧
    (∀ blob ownerKey record, decode sha256 category blob ownerKey = .ok record ↔
      Storable sha256 category ownerKey record ∧ ∃ revision order, Lists order record ∧
        enc sha256 revision record.owner order = some blob) ∧
    ∀ ownerKey record revision order, Storable sha256 category ownerKey record →
      Lists order record → revision < 2 ^ 63 →
      (∀ x ∈ record.scopes.entries, ∀ y ∈ x.2.entries, y.2.length < 65536) →
        ∃ blob, enc sha256 revision record.owner order = some blob ∧ blob.length ≤ maxBlob ∧
          decode sha256 category blob ownerKey = .ok record := by
  refine ⟨decode_total, fun _ _ _ => decode_iff, ?_⟩
  intro ownerKey record revision order hstorable hlists hrevision hvalues
  have hfits := hstorable.fitsFields hlists hrevision hvalues
  refine ⟨_, if_pos hfits, ?_, ?_⟩
  · exact hstorable.length_le hlists (if_pos hfits)
  · exact decode_iff.mpr ⟨hstorable, revision, order, hlists, if_pos hfits⟩

/-- A save with one value. -/
def fixtureRecord : PlayerRecord :=
  ⟨"a", ⟨[("s", ⟨[("k", [0x07#8])], List.pairwise_singleton _ _⟩)], List.pairwise_singleton _ _⟩⟩

/-- The digests of the owner of the sample, and of its file at revision five. -/
def fixtureDigest (bytes : Bytes) : Digest :=
  if bytes = [0x61#8] then
    ⟨[0xca#8, 0x97#8, 0x81#8, 0x12#8, 0xca#8, 0x1b#8, 0xbd#8, 0xca#8, 0xfa#8, 0xc2#8, 0x31#8,
      0xb3#8, 0x9a#8, 0x23#8, 0xdc#8, 0x4d#8, 0xa7#8, 0x86#8, 0xef#8, 0xf8#8, 0x14#8, 0x7c#8,
      0x4e#8, 0x72#8, 0xb9#8, 0x80#8, 0x77#8, 0x85#8, 0xaf#8, 0xee#8, 0x48#8, 0xbb#8], rfl⟩
  else
    ⟨[0x93#8, 0x3c#8, 0xed#8, 0x5d#8, 0x93#8, 0x17#8, 0xf2#8, 0x23#8, 0x47#8, 0x2e#8, 0x6f#8,
      0x17#8, 0xc0#8, 0x79#8, 0xf3#8, 0x60#8, 0xcd#8, 0xad#8, 0xe0#8, 0x98#8, 0xba#8, 0x3d#8,
      0x7a#8, 0xc2#8, 0xee#8, 0xe6#8, 0xcb#8, 0x82#8, 0x39#8, 0x09#8, 0x1e#8, 0x4e#8], rfl⟩

theorem fixture_storable : Storable fixtureDigest (fun _ => .other)
    "ca978112ca1bbdcafac231b39a23dc4da786eff8147c4e72b9807785afee48bb" fixtureRecord :=
  ⟨by decide +kernel, by decide +kernel, by decide +kernel, by decide +kernel, by decide +kernel,
    by decide +kernel, by decide +kernel, by decide +kernel, by decide +kernel⟩

theorem fixture_lists : Lists [("s", [("k", [0x07#8])])] fixtureRecord :=
  ⟨fixtureRecord.scopes.entries, .refl _, .cons ⟨rfl, .refl _⟩ .nil⟩

/-- The file of the sample is accepted under the digest of its owner. -/
theorem exists_fixtureBlob : ∃ blob,
    enc fixtureDigest 5 "a" [("s", [("k", [0x07#8])])] = some blob ∧ blob.length = 62 ∧
      decode fixtureDigest (fun _ => .other) blob
        "ca978112ca1bbdcafac231b39a23dc4da786eff8147c4e72b9807785afee48bb" = .ok fixtureRecord := by
  have hused : fixtureRecord.used = 9 := by decide +kernel
  have howner : (utf8 fixtureRecord.owner).length = 1 := by decide +kernel
  have henc : enc fixtureDigest 5 "a" [("s", [("k", [0x07#8])])] =
      some _ := if_pos (by decide +kernel)
  refine ⟨_, henc, ?_, decode_iff.mpr ⟨fixture_storable, 5, _, fixture_lists, henc⟩⟩
  have hlength := length_enc fixture_lists henc
  rw [hused] at hlength
  rw [hlength]
  exact congrArg (52 + · + 9) howner

theorem legacy_decode_fixture : ∃ blob,
    enc fixtureDigest 5 "a" [("s", [("k", [0x07#8])])] = some blob ∧ blob.length ≤ maxBlob ∧
      decode fixtureDigest (fun _ => .other) blob
        "ca978112ca1bbdcafac231b39a23dc4da786eff8147c4e72b9807785afee48bb" = .ok fixtureRecord := by
  exact (legacy_decode fixtureDigest fun _ => .other).2.2 _ _ 5 _ fixture_storable
    fixture_lists (by decide)
    (by decide +kernel)

end Decode

end Legacy

end BasisRust.Storage
