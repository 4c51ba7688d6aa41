import BasisRust.Library.Bytes
import Mathlib.Algebra.BigOperators.Group.List.Basic
import Mathlib.Data.String.Basic

/-!
# Compact JSON

The text that a compact JSON writer produces for strings, byte arrays, numbers and objects, as
bytes. Two facts are needed about it: how long it is (`length_jsonSeq_cons`), and that it can be
read back, in the form of `Delimited`: a text followed by a delimiter determines the value and what
comes after it.
-/

namespace BasisRust.Library

/-- The bytes of a text. -/
def utf8 (s : String) : Bytes := s.toByteArray.data.toList.map UInt8.toBitVec

theorem utf8_injective : Function.Injective utf8 := by
  intro s t h
  have hmap : s.toByteArray.data.toList = t.toByteArray.data.toList := by
    refine List.map_injective_iff.mpr ?_ h
    intro a b hab
    exact UInt8.toBitVec_inj.mp hab
  rw [← String.toByteArray_inj]
  exact ByteArray.ext (Array.toList_inj.mp hmap)

/-! ### The writer -/

def jsonQuote : Byte := 0x22#8
def jsonBackslash : Byte := 0x5c#8
def jsonComma : Byte := 0x2c#8

def hexDigit (n : ℕ) : Byte := BitVec.ofNat 8 (if n < 10 then 0x30 + n else 0x57 + n)

/-- A byte inside a string: quotes, backslashes and control characters are escaped. -/
def jsonEscape (b : Byte) : Bytes :=
  if b = jsonQuote then [jsonBackslash, jsonQuote]
  else if b = jsonBackslash then [jsonBackslash, jsonBackslash]
  else if b = 0x08#8 then [jsonBackslash, 0x62#8]
  else if b = 0x09#8 then [jsonBackslash, 0x74#8]
  else if b = 0x0a#8 then [jsonBackslash, 0x6e#8]
  else if b = 0x0c#8 then [jsonBackslash, 0x66#8]
  else if b = 0x0d#8 then [jsonBackslash, 0x72#8]
  else if b.toNat < 0x20 then
    [jsonBackslash, 0x75#8, 0x30#8, 0x30#8, hexDigit (b.toNat / 16), hexDigit (b.toNat % 16)]
  else [b]

def jsonString (s : String) : Bytes := jsonQuote :: (utf8 s).flatMap jsonEscape ++ [jsonQuote]

def jsonNumber (n : ℕ) : Bytes := (Nat.toDigits 10 n).map fun c => BitVec.ofNat 8 c.toNat

/-- Items with commas between them and a closing bracket. -/
def jsonSeq (close : Byte) : List Bytes → Bytes
  | [] => [close]
  | x :: xs => x ++ xs.flatMap (jsonComma :: ·) ++ [close]

def jsonBytes (v : Bytes) : Bytes := 0x5b#8 :: jsonSeq 0x5d#8 (v.map fun b => jsonNumber b.toNat)

def jsonField (x : String × Bytes) : Bytes := jsonString x.1 ++ 0x3a#8 :: x.2

def jsonObject (fields : List (String × Bytes)) : Bytes :=
  0x7b#8 :: jsonSeq 0x7d#8 (fields.map jsonField)

/-! ### Lengths -/

/-- Every item costs its own length and one byte, for the comma or the bracket after it. -/
theorem length_jsonSeq_cons (close : Byte) (x : Bytes) (xs : List Bytes) :
    (jsonSeq close (x :: xs)).length = ((x :: xs).map fun y => y.length + 1).sum := by
  have htail : (xs.flatMap (jsonComma :: ·)).length = (xs.map fun y => y.length + 1).sum := by
    rw [List.length_flatMap]
    rfl
  show (x ++ xs.flatMap (jsonComma :: ·) ++ [close]).length = _
  rw [List.length_append, List.length_append, htail, List.map_cons, List.sum_cons,
    List.length_singleton]
  omega

theorem length_jsonObject_map {α : Type} (f : α → String × Bytes) {l : List α} (h : l ≠ []) :
    (jsonObject (l.map f)).length = 1 + (l.map fun x => (jsonField (f x)).length + 1).sum := by
  obtain ⟨x, xs, rfl⟩ := List.exists_cons_of_ne_nil h
  show (0x7b#8 :: jsonSeq 0x7d#8 (((x :: xs).map f).map jsonField)).length = _
  rw [List.map_map, List.map_cons, List.length_cons, length_jsonSeq_cons,
    Nat.add_comm, ← List.map_cons, List.map_map]
  rfl

theorem jsonObject_pair (k l : String) (x y : Bytes) :
    jsonObject [(k, x), (l, y)] =
      0x7b#8 :: (jsonString k ++ 0x3a#8 :: (x ++ jsonComma :: (jsonString l ++ 0x3a#8 ::
        (y ++ [0x7d#8])))) := by
  simp [jsonObject, jsonSeq, jsonField]

/-! ### Reading back -/

/-- A text in front of one of the delimiters `D` determines the value. -/
def Delimited {α : Type} (D : Byte → Prop) (enc : α → Bytes) : Prop :=
  ∀ a b c d x y, D c → D d → enc a ++ c :: x = enc b ++ d :: y → a = b ∧ c :: x = d :: y

/-- The byte that an escaped text begins with. -/
def jsonUnescape : Bytes → Option (Byte × Bytes)
  | [] => none
  | b :: rest =>
    if b = jsonBackslash then
      match rest with
      | [] => none
      | c :: rest =>
        if c = 0x62#8 then some (0x08#8, rest)
        else if c = 0x74#8 then some (0x09#8, rest)
        else if c = 0x6e#8 then some (0x0a#8, rest)
        else if c = 0x66#8 then some (0x0c#8, rest)
        else if c = 0x72#8 then some (0x0d#8, rest)
        else if c = 0x75#8 then
          match rest with
          | _ :: _ :: high :: low :: rest =>
            some (BitVec.ofNat 8 ((high.toNat - 0x30) * 16 +
              (if low.toNat < 0x3a then low.toNat - 0x30 else low.toNat - 0x57)), rest)
          | _ => none
        else some (c, rest)
    else some (b, rest)

theorem jsonUnescape_escape (b : Byte) (x : Bytes) :
    jsonUnescape (jsonEscape b ++ x) = some (b, x) := by
  have hhex : ∀ b : Byte, b.toNat < 0x20 →
      BitVec.ofNat 8 (((hexDigit (b.toNat / 16)).toNat - 0x30) * 16 +
        (if (hexDigit (b.toNat % 16)).toNat < 0x3a then (hexDigit (b.toNat % 16)).toNat - 0x30
          else (hexDigit (b.toNat % 16)).toNat - 0x57)) = b := by
    decide +kernel
  unfold jsonEscape
  split_ifs with hq hb h8 h9 ha hc hd hsmall
  · subst hq; rfl
  · subst hb; rfl
  · subst h8; rfl
  · subst h9; rfl
  · subst ha; rfl
  · subst hc; rfl
  · subst hd; rfl
  · show some (BitVec.ofNat 8 _, x) = some (b, x)
    rw [hhex b hsmall]
  · show (if b = jsonBackslash then _ else some (b, x)) = _
    rw [if_neg hb]

theorem jsonEscape_ne_quote (b : Byte) : ∃ c r, jsonEscape b = c :: r ∧ c ≠ jsonQuote := by
  by_cases hq : b = jsonQuote
  · subst hq
    exact ⟨jsonBackslash, [jsonQuote], rfl, by decide⟩
  · unfold jsonEscape
    rw [if_neg hq]
    split_ifs
    all_goals first
      | exact ⟨_, _, rfl, hq⟩
      | exact ⟨_, _, rfl, by decide⟩

theorem escaped_determines (l m : Bytes) : ∀ x y,
    l.flatMap jsonEscape ++ jsonQuote :: x = m.flatMap jsonEscape ++ jsonQuote :: y →
      l = m ∧ x = y := by
  induction l generalizing m with
  | nil =>
    intro x y h
    cases m with
    | nil =>
      rw [List.flatMap_nil, List.nil_append, List.nil_append, List.cons.injEq] at h
      exact ⟨rfl, h.2⟩
    | cons b m =>
      obtain ⟨c, r, hescape, hne⟩ := jsonEscape_ne_quote b
      rw [List.flatMap_nil, List.nil_append, List.flatMap_cons, hescape, List.cons_append,
        List.cons_append, List.cons.injEq] at h
      exact absurd h.1.symm hne
  | cons a l ih =>
    intro x y h
    cases m with
    | nil =>
      obtain ⟨c, r, hescape, hne⟩ := jsonEscape_ne_quote a
      rw [List.flatMap_nil, List.nil_append, List.flatMap_cons, hescape, List.cons_append,
        List.cons_append, List.cons.injEq] at h
      exact absurd h.1 hne
    | cons b m =>
      rw [List.flatMap_cons, List.flatMap_cons, List.append_assoc, List.append_assoc] at h
      have hread := congrArg jsonUnescape h
      rw [jsonUnescape_escape, jsonUnescape_escape, Option.some.injEq, Prod.mk.injEq] at hread
      obtain ⟨hl, hx⟩ := ih m x y hread.2
      exact ⟨by rw [hread.1, hl], hx⟩

theorem delimited_jsonString (D : Byte → Prop) : Delimited D jsonString := by
  intro s t c d x y _ _ h
  rw [jsonString, jsonString, List.cons_append, List.cons_append, List.cons_append,
    List.cons_append, List.cons.injEq, List.append_assoc, List.append_assoc] at h
  obtain ⟨hbytes, hrest⟩ := escaped_determines _ _ _ _ h.2
  exact ⟨utf8_injective hbytes, hrest⟩

/-- Not a digit. -/
def isDelimiter (c : Byte) : Prop := ¬ (0x30 ≤ c.toNat ∧ c.toNat ≤ 0x39)

instance (c : Byte) : Decidable (isDelimiter c) :=
  inferInstanceAs (Decidable (¬ (0x30 ≤ c.toNat ∧ c.toNat ≤ 0x39)))

theorem jsonNumber_digits {n : ℕ} {c : Byte} (h : c ∈ jsonNumber n) :
    0x30 ≤ c.toNat ∧ c.toNat ≤ 0x39 := by
  obtain ⟨digit, hdigit, rfl⟩ := List.mem_map.mp h
  have hd : 0x30 ≤ digit.toNat ∧ digit.toNat ≤ 0x39 :=
    Char.isDigit_iff_toNat.mp (Nat.isDigit_of_mem_toDigits (by omega) (by omega) hdigit)
  rw [BitVec.toNat_ofNat, Nat.mod_eq_of_lt (by omega)]
  exact hd

theorem jsonNumber_injective : Function.Injective jsonNumber := by
  have hback : ∀ n, (jsonNumber n).map (fun b => Char.ofNat b.toNat) = Nat.toDigits 10 n := by
    intro n
    rw [jsonNumber, List.map_map]
    conv_rhs => rw [← List.map_id (Nat.toDigits 10 n)]
    refine List.map_congr_left ?_
    intro digit hdigit
    have hd : 0x30 ≤ digit.toNat ∧ digit.toNat ≤ 0x39 :=
      Char.isDigit_iff_toNat.mp (Nat.isDigit_of_mem_toDigits (by omega) (by omega) hdigit)
    show Char.ofNat (BitVec.ofNat 8 digit.toNat).toNat = digit
    rw [BitVec.toNat_ofNat, Nat.mod_eq_of_lt (by omega), Char.ofNat_toNat]
  intro m n h
  rw [← Nat.ofDigitChars_ten_toDigits (n := m), ← hback, h, hback, Nat.ofDigitChars_ten_toDigits]

/-- Two texts end where the first byte without a property is. -/
theorem split_at_delimiter {D : Byte → Prop} (l m : Bytes) (c d : Byte) (x y : Bytes)
    (hl : ∀ a ∈ l, ¬ D a) (hm : ∀ a ∈ m, ¬ D a) (hc : D c) (hd : D d)
    (h : l ++ c :: x = m ++ d :: y) : l = m ∧ c :: x = d :: y := by
  induction l generalizing m with
  | nil =>
    cases m with
    | nil => exact ⟨rfl, h⟩
    | cons b m =>
      rw [List.nil_append, List.cons_append, List.cons.injEq] at h
      exact absurd (h.1 ▸ hc) (hm b (.head _))
  | cons a l ih =>
    cases m with
    | nil =>
      rw [List.nil_append, List.cons_append, List.cons.injEq] at h
      exact absurd (h.1 ▸ hd) (hl a (.head _))
    | cons b m =>
      rw [List.cons_append, List.cons_append, List.cons.injEq] at h
      obtain ⟨hlm, hrest⟩ := ih m (fun e he => hl e (.tail _ he))
        (fun e he => hm e (.tail _ he)) h.2
      exact ⟨by rw [h.1, hlm], hrest⟩

theorem delimited_jsonNumber : Delimited isDelimiter jsonNumber := by
  intro m n c d x y hc hd h
  obtain ⟨hnumber, hrest⟩ := split_at_delimiter _ _ c d x y
    (fun a ha hdelim => hdelim (jsonNumber_digits ha))
    (fun a ha hdelim => hdelim (jsonNumber_digits ha)) hc hd h
  exact ⟨jsonNumber_injective hnumber, hrest⟩

section Sequences

variable {α : Type} {D : Byte → Prop} {enc : α → Bytes} {close : Byte}

/-- What comes after an item begins with a comma or with the bracket. -/
theorem exists_delimiter (enc : α → Bytes) (hcomma : D jsonComma) (hclose : D close) (l : List α)
    (x : Bytes) :
    ∃ c r, (l.map enc).flatMap (jsonComma :: ·) ++ close :: x = c :: r ∧ D c := by
  cases l with
  | nil => exact ⟨close, x, rfl, hclose⟩
  | cons a l => exact ⟨jsonComma, _, rfl, hcomma⟩

theorem items_determine (henc : Delimited D enc) (hcomma : D jsonComma) (hclose : D close)
    (hne : close ≠ jsonComma) (l m : List α) : ∀ x y,
    (l.map enc).flatMap (jsonComma :: ·) ++ close :: x =
      (m.map enc).flatMap (jsonComma :: ·) ++ close :: y → l = m ∧ x = y := by
  induction l generalizing m with
  | nil =>
    intro x y h
    cases m with
    | nil => exact ⟨rfl, (List.cons.inj h).2⟩
    | cons b m => exact absurd (List.cons.inj h).1 hne
  | cons a l ih =>
    intro x y h
    cases m with
    | nil => exact absurd (List.cons.inj h).1.symm hne
    | cons b m =>
      rw [List.map_cons, List.map_cons, List.flatMap_cons, List.flatMap_cons, List.append_assoc,
        List.append_assoc, List.cons_append, List.cons_append, List.cons.injEq] at h
      obtain ⟨c, r, hr, hc⟩ := exists_delimiter enc hcomma hclose l x
      obtain ⟨d, r', hr', hd⟩ := exists_delimiter enc hcomma hclose m y
      rw [hr, hr'] at h
      obtain ⟨hab, hrest⟩ := henc a b c d r r' hc hd h.2
      rw [← hr, ← hr'] at hrest
      obtain ⟨hlm, hxy⟩ := ih m x y hrest
      exact ⟨by rw [hab, hlm], hxy⟩

theorem jsonSeq_determines (henc : Delimited D enc) (hcomma : D jsonComma) (hclose : D close)
    (hne : close ≠ jsonComma) (hfirst : ∀ a, ∃ c r, enc a = c :: r ∧ c ≠ close) (l m : List α)
    (x y : Bytes) (h : jsonSeq close (l.map enc) ++ x = jsonSeq close (m.map enc) ++ y) :
    l = m ∧ x = y := by
  cases l with
  | nil =>
    cases m with
    | nil => exact ⟨rfl, (List.cons.inj h).2⟩
    | cons b m =>
      obtain ⟨c, r, hb, hcne⟩ := hfirst b
      rw [List.map_cons, jsonSeq, hb] at h
      exact absurd (List.cons.inj h).1.symm hcne
  | cons a l =>
    cases m with
    | nil =>
      obtain ⟨c, r, ha, hcne⟩ := hfirst a
      rw [List.map_cons, jsonSeq, ha] at h
      exact absurd (List.cons.inj h).1 hcne
    | cons b m =>
      simp only [List.map_cons, jsonSeq, List.append_assoc, List.singleton_append] at h
      obtain ⟨c, r, hr, hc⟩ := exists_delimiter enc hcomma hclose l x
      obtain ⟨d, r', hr', hd⟩ := exists_delimiter enc hcomma hclose m y
      rw [hr, hr'] at h
      obtain ⟨hab, hrest⟩ := henc a b c d r r' hc hd h
      rw [← hr, ← hr'] at hrest
      obtain ⟨hlm, hxy⟩ := items_determine henc hcomma hclose hne l m x y hrest
      exact ⟨by rw [hab, hlm], hxy⟩

end Sequences

theorem delimited_jsonBytes (D : Byte → Prop) : Delimited D jsonBytes := by
  intro v w c d x y _ _ h
  have hnumber : Delimited isDelimiter fun b : Byte => jsonNumber b.toNat := by
    intro a b c d x y hc hd h
    obtain ⟨hab, hrest⟩ := delimited_jsonNumber _ _ c d x y hc hd h
    exact ⟨BitVec.eq_of_toNat_eq hab, hrest⟩
  have hfirst : ∀ b : Byte, ∃ c r, jsonNumber b.toNat = c :: r ∧ c ≠ 0x5d#8 := by
    intro b
    cases hb : jsonNumber b.toNat with
    | nil => exact absurd (List.map_eq_nil_iff.mp hb) Nat.toDigits_ne_nil
    | cons c r =>
      refine ⟨c, r, rfl, ?_⟩
      have hdigit := jsonNumber_digits (hb ▸ List.mem_cons_self)
      intro hc
      rw [hc] at hdigit
      exact absurd hdigit (by decide)
  exact jsonSeq_determines hnumber (by decide) (by decide) (by decide) hfirst v w _ _
    (List.cons.inj h).2

/-- Objects with values of one kind. -/
theorem delimited_jsonObject {α : Type} {enc : α → Bytes} {D : Byte → Prop}
    (henc : ∀ D, Delimited D enc) :
    Delimited D fun fields : List (String × α) =>
      jsonObject (fields.map fun x => (x.1, enc x.2)) := by
  intro l m c d x y _ _ h
  have hfield : Delimited (fun _ => True) fun f : String × α => jsonField (f.1, enc f.2) := by
    intro a b c d x y hc hd h
    simp only [jsonField, List.append_assoc, List.cons_append] at h
    obtain ⟨hkey, hrest⟩ := delimited_jsonString (fun _ => True) _ _ _ _ _ _ trivial trivial h
    obtain ⟨hvalue, hafter⟩ :=
      henc (fun _ => True) _ _ _ _ _ _ trivial trivial (List.cons.inj hrest).2
    exact ⟨Prod.ext hkey hvalue, hafter⟩
  have hfirst : ∀ f : String × α, ∃ c r, jsonField (f.1, enc f.2) = c :: r ∧ c ≠ 0x7d#8 :=
    fun f => ⟨jsonQuote, _, rfl, by decide⟩
  simp only [jsonObject, List.map_map] at h
  exact jsonSeq_determines hfield trivial trivial (by decide) hfirst l m _ _ (List.cons.inj h).2

end BasisRust.Library
