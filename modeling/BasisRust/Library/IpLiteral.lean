import BasisRust.Library.Text
import Mathlib.Algebra.Ring.Nat

/-!
# Numbers and IP addresses in texts

The parsers of the standard library for unsigned 16-bit numbers and for IP addresses.  An IP address
is read by a parser that takes as much as it can from the front of the text and leaves the rest; the
address is valid if nothing is left.

`parseIpv6_text` says which characters an IPv6 address is made of, and that there is a colon among
them.
-/

namespace BasisRust.Library

def isAsciiDigit (c : Char) : Bool := decide ('0' ≤ c) && decide (c ≤ '9')

/-- `char::to_digit`. -/
def toDigit (radix : ℕ) (c : Char) : Option ℕ :=
  let d :=
    if isAsciiDigit c then some (c.toNat - '0'.toNat)
    else if 'a' ≤ c ∧ c ≤ 'z' then some (c.toNat - 'a'.toNat + 10)
    else if 'A' ≤ c ∧ c ≤ 'Z' then some (c.toNat - 'A'.toNat + 10)
    else none
  d.filter fun d => decide (d < radix)

def isDigitOf (radix : ℕ) (c : Char) : Bool := (toDigit radix c).isSome

def isAsciiHexDigit (c : Char) : Bool := isDigitOf 16 c

/-- The number that these digits write. -/
def digitsValue (radix : ℕ) (digits : Text) : ℕ :=
  digits.foldl (fun n c => n * radix + (toDigit radix c).getD 0) 0

/-- Without the plus sign in front. -/
def withoutPlus : Text → Text
  | '+' :: digits => digits
  | digits => digits

/-- `str::parse::<u16>`: a plus sign may stand in front. -/
def parseU16 (s : Text) : Option ℕ :=
  let digits := withoutPlus s
  if digits ≠ [] ∧ digits.all isAsciiDigit ∧ digitsValue 10 digits ≤ 0xffff then
    some (digitsValue 10 digits)
  else none

namespace Ip

/-! ### The parser of addresses -/

/-- `Parser::read_number`: all the digits that follow, but no more than so many. -/
def readNumber (radix maxDigits bound : ℕ) (allowZeroPrefix : Bool) (s : Text) :
    Option (ℕ × Text) :=
  let digits := s.takeWhile (isDigitOf radix)
  if digits = [] ∨ maxDigits < digits.length then none
  else if allowZeroPrefix = false ∧ digits.head? = some '0' ∧ 1 < digits.length then none
  else if bound < digitsValue radix digits then none
  else some (digitsValue radix digits, s.dropWhile (isDigitOf radix))

/-- `Parser::read_separator`: all but the first of a sequence stand behind a separator. -/
def readSeparator {α : Type} (separator : Char) (index : ℕ)
    (read : Text → Option (α × Text)) (s : Text) :
    Option (α × Text) :=
  if index = 0 then read s
  else
    match s with
    | [] => none
    | c :: rest => if c = separator then read rest else none

/-- So many numbers of an IPv4 address, the first of them at this index. -/
def readOctets : ℕ → ℕ → Text → Option (List ℕ × Text)
  | 0, _, s => some ([], s)
  | n + 1, index, s =>
    match readSeparator '.' index (readNumber 10 3 0xff false) s with
    | none => none
    | some (octet, rest) => (readOctets n (index + 1) rest).map fun p => (octet :: p.1, p.2)

/-- `Parser::read_ipv4_addr`. -/
def readIpv4 (s : Text) : Option (List ℕ × Text) := readOctets 4 0 s

/-- The two groups of an IPv6 address that an IPv4 address stands for. -/
def ipv4Groups : List ℕ → List ℕ
  | [one, two, three, four] => [one * 256 + two, three * 256 + four]
  | _ => []

/-- `read_groups`: at most so many groups, the first of them at this index, and whether an IPv4
address stands at their end. -/
def readGroups : ℕ → ℕ → Text → List ℕ × Bool × Text
  | 0, _, s => ([], false, s)
  | n + 1, index, s =>
    -- an IPv4 address needs room for two groups
    match if 1 ≤ n then readSeparator ':' index readIpv4 s else none with
    | some (octets, rest) => (ipv4Groups octets, true, rest)
    | none =>
      match readSeparator ':' index (readNumber 16 4 0xffff true) s with
      | none => ([], false, s)
      | some (group, rest) =>
        let p := readGroups n (index + 1) rest
        (group :: p.1, p.2)

/-- `Parser::read_ipv6_addr`. -/
def readIpv6 (s : Text) : Option (List ℕ × Text) :=
  let head := readGroups 8 0 s
  if head.1.length = 8 then some (head.1, head.2.2)
  else if head.2.1 then none
  else
    match head.2.2 with
    | ':' :: ':' :: rest =>
      let tail := readGroups (8 - (head.1.length + 1)) 0 rest
      some (head.1 ++ List.replicate (8 - head.1.length - tail.1.length) 0 ++ tail.1, tail.2.2)
    | _ => none

end Ip

/-- `str::len`. -/
def byteLength (s : Text) : ℕ := (s.map fun c => c.utf8Size).sum

/-- `str::parse::<Ipv4Addr>`. -/
def parseIpv4 (s : Text) : Option (List ℕ) :=
  if 15 < byteLength s then none
  else
    match Ip.readIpv4 s with
    | some (octets, []) => some octets
    | _ => none

/-- `str::parse::<Ipv6Addr>`. -/
def parseIpv6 (s : Text) : Option (List ℕ) :=
  match Ip.readIpv6 s with
  | some (groups, []) => some groups
  | _ => none

example : parseIpv6 ['1', ':', ':', '1', '.', '2', '.', '3', '.', '4'] =
    some [1, 0, 0, 0, 0, 0, 0x102, 0x304] := by decide

/-! ### Decimal numbers -/

variable {c : Char} {s : Text}

theorem isAsciiDigit_iff : isAsciiDigit c = true ↔ 48 ≤ c.toNat ∧ c.toNat ≤ 57 := by
  unfold isAsciiDigit
  rw [Bool.and_eq_true, decide_eq_true_iff, decide_eq_true_iff]
  exact Iff.rfl

theorem toDigit_decimal (h : isAsciiDigit c = true) : toDigit 10 c = some (c.toNat - 48) := by
  have hle := (isAsciiDigit_iff.mp h).2
  unfold toDigit
  rw [if_pos h, Option.filter_some, if_pos]
  · rfl
  · refine decide_eq_true ?_
    show c.toNat - 48 < 10
    omega

/-- Only zeros write zero. -/
theorem digitsValue_eq_zero {digits : Text} (h : ∀ c ∈ digits, isAsciiDigit c = true) :
    digitsValue 10 digits = 0 ↔ ∀ c ∈ digits, c = '0' := by
  have hfrom : ∀ (digits : Text) (n : ℕ), (∀ c ∈ digits, isAsciiDigit c = true) →
      (digits.foldl (fun n c => n * 10 + (toDigit 10 c).getD 0) n = 0 ↔
        n = 0 ∧ ∀ c ∈ digits, c = '0') := by
    intro digits
    induction digits with
    | nil => exact fun n _ => by simp
    | cons c digits ih =>
      intro n hdigits
      obtain ⟨hc, hrest⟩ := List.forall_mem_cons.mp hdigits
      have hrange := isAsciiDigit_iff.mp hc
      have hzero : c = '0' ↔ c.toNat = 48 :=
        ⟨fun heq => heq ▸ rfl, fun heq => Char.toNat_inj.mp heq⟩
      rw [List.foldl_cons, ih _ hrest, toDigit_decimal hc, List.forall_mem_cons, hzero, ← and_assoc]
      refine and_congr_left fun _ => ?_
      show n * 10 + (c.toNat - 48) = 0 ↔ _
      omega
  exact (hfrom digits 0 h).trans (and_iff_right rfl)

/-- A number of 16 bits is written by digits, with or without a plus sign. -/
theorem parseU16_isSome : (parseU16 s).isSome ↔ ∃ digits, (s = digits ∨ s = '+' :: digits) ∧
    digits ≠ [] ∧ (∀ c ∈ digits, isAsciiDigit c = true) ∧ digitsValue 10 digits ≤ 0xffff := by
  have hstripped : (parseU16 s).isSome ↔ withoutPlus s ≠ [] ∧
      (∀ c ∈ withoutPlus s, isAsciiDigit c = true) ∧ digitsValue 10 (withoutPlus s) ≤ 0xffff := by
    rw [← List.all_eq_true]
    unfold parseU16
    dsimp only
    split <;> simp_all
  rw [hstripped]
  constructor
  · intro h
    refine ⟨withoutPlus s, ?_, h⟩
    unfold withoutPlus
    split
    · exact .inr rfl
    · exact .inl rfl
  · rintro ⟨digits, rfl | rfl, h⟩
    · have hplus : withoutPlus s = s := by
        unfold withoutPlus
        split
        · exact absurd (h.2.1 '+' (.head _)) (by decide)
        · rfl
      rw [hplus]
      exact h
    · exact h

/-! ### What an address is made of -/

/-- The characters of an IPv4 address. -/
def isDottedChar (c : Char) : Bool := isDigitOf 10 c || c = '.'

/-- The characters of an IPv6 address. -/
def isAddressChar (c : Char) : Bool := isAsciiHexDigit c || c = ':' || c = '.'

theorem isAsciiHexDigit_of_digit (h : isDigitOf 10 c = true) : isAsciiHexDigit c = true := by
  unfold isAsciiHexDigit isDigitOf at *
  obtain ⟨d, hd⟩ := Option.isSome_iff_exists.mp h
  obtain ⟨hvalue, hlt⟩ := Option.filter_eq_some_iff.mp hd
  refine Option.isSome_iff_exists.mpr ⟨d, Option.filter_eq_some_iff.mpr ⟨hvalue, ?_⟩⟩
  exact decide_eq_true ((of_decide_eq_true hlt).trans (by decide))

theorem isAddressChar_of_dotted (h : isDottedChar c = true) : isAddressChar c = true := by
  unfold isAddressChar
  rcases Bool.or_eq_true_iff.mp h with hdigit | hdot
  · rw [isAsciiHexDigit_of_digit hdigit, Bool.true_or, Bool.true_or]
  · rw [hdot, Bool.or_true]

namespace Ip

variable {ok : Char → Bool} {c : Char} {s rest : Text} {n index : ℕ}

/-- What was read is a piece of the text made of such characters. -/
def Consumed (ok : Char → Bool) (s rest : Text) : Prop :=
  ∃ piece, s = piece ++ rest ∧ ∀ c ∈ piece, ok c = true

theorem Consumed.refl (s : Text) : Consumed ok s s := ⟨[], rfl, nofun⟩

theorem Consumed.cons (hc : ok c = true) (h : Consumed ok s rest) : Consumed ok (c :: s) rest := by
  obtain ⟨piece, rfl, hpiece⟩ := h
  exact ⟨c :: piece, rfl, List.forall_mem_cons.mpr ⟨hc, hpiece⟩⟩

theorem Consumed.trans {t : Text} (h : Consumed ok s t) (h' : Consumed ok t rest) :
    Consumed ok s rest := by
  obtain ⟨piece, rfl, hpiece⟩ := h
  obtain ⟨piece', rfl, hpiece'⟩ := h'
  exact ⟨piece ++ piece', (List.append_assoc _ _ _).symm,
    List.forall_mem_append.mpr ⟨hpiece, hpiece'⟩⟩

theorem Consumed.mono {ok' : Char → Bool} (h : Consumed ok s rest)
    (hok : ∀ c, ok c = true → ok' c = true) : Consumed ok' s rest := by
  obtain ⟨piece, hs, hpiece⟩ := h
  exact ⟨piece, hs, fun c hc => hok c (hpiece c hc)⟩

theorem Consumed.subset (h : Consumed ok s rest) : rest ⊆ s := by
  obtain ⟨piece, rfl, -⟩ := h
  exact List.subset_append_right _ _

theorem readNumber_consumed {radix maxDigits bound value : ℕ} {zeros : Bool}
    (hradix : ∀ c, isDigitOf radix c = true → ok c = true)
    (h : readNumber radix maxDigits bound zeros s = some (value, rest)) : Consumed ok s rest := by
  unfold readNumber at h
  dsimp only at h
  split at h
  · cases h
  split at h
  · cases h
  split at h
  · cases h
  cases h
  refine ⟨s.takeWhile (isDigitOf radix), List.takeWhile_append_dropWhile.symm, ?_⟩
  exact fun c hc => hradix c (List.mem_takeWhile_imp hc)

theorem ok_of_hexDigit (h : isDigitOf 16 c = true) : isAddressChar c = true := by
  unfold isAddressChar isAsciiHexDigit
  rw [h, Bool.true_or, Bool.true_or]

theorem ok_of_digit (h : isDigitOf 10 c = true) : isDottedChar c = true := by
  unfold isDottedChar
  rw [h, Bool.true_or]

section Separator

variable {α : Type} {separator : Char} {read : Text → Option (α × Text)} {x : α}
  {s rest : Text} {index : ℕ}

theorem readSeparator_consumed (hsep : ok separator = true)
    (hread : ∀ s, read s = some (x, rest) → Consumed ok s rest)
    (h : readSeparator separator index read s = some (x, rest)) : Consumed ok s rest := by
  unfold readSeparator at h
  split at h
  · exact hread s h
  split at h
  · cases h
  · rename_i c t
    split at h
    · rename_i hc
      exact .cons (hc ▸ hsep) (hread t h)
    · cases h

theorem readSeparator_mem (hindex : index ≠ 0)
    (h : readSeparator separator index read s = some (x, rest)) : separator ∈ s := by
  unfold readSeparator at h
  rw [if_neg hindex] at h
  split at h
  · cases h
  · split at h
    · rename_i hc
      exact hc ▸ .head _
    · cases h

end Separator

theorem readOctets_consumed {octets : List ℕ} (h : readOctets n index s = some (octets, rest)) :
    Consumed isDottedChar s rest := by
  induction n generalizing index s octets with
  | zero =>
    cases h
    exact .refl _
  | succ n ih =>
    rw [readOctets] at h
    split at h
    · cases h
    · rename_i octet t hoctet
      obtain ⟨⟨octets', rest'⟩, hrest, hp⟩ := Option.map_eq_some_iff.mp h
      cases hp
      refine Consumed.trans ?_ (ih hrest)
      exact readSeparator_consumed (by decide)
        (fun _ => readNumber_consumed fun _ => ok_of_digit) hoctet

theorem readGroup_consumed {group : ℕ}
    (h : readSeparator ':' index (readNumber 16 4 0xffff true) s = some (group, rest)) :
    Consumed isAddressChar s rest :=
  readSeparator_consumed (by decide) (fun _ => readNumber_consumed fun _ => ok_of_hexDigit) h

theorem readGroups_consumed : Consumed isAddressChar s (readGroups n index s).2.2 := by
  induction n generalizing index s with
  | zero => exact .refl s
  | succ n ih =>
    rw [readGroups]
    split
    · rename_i octets rest hipv4
      split at hipv4
      · refine readSeparator_consumed (by decide) ?_ hipv4
        exact fun _ hread => (readOctets_consumed hread).mono fun _ => isAddressChar_of_dotted
      · cases hipv4
    · split
      · exact .refl s
      · rename_i group rest hgroup
        exact (readGroup_consumed hgroup).trans ih

/-- A group that is not the first stands behind a colon. -/
theorem readGroups_colon (hindex : index ≠ 0) (h : (readGroups n index s).1 ≠ []) : ':' ∈ s := by
  cases n with
  | zero => exact absurd rfl h
  | succ n =>
    rw [readGroups] at h
    split at h
    · rename_i octets rest hipv4
      split at hipv4
      · exact readSeparator_mem hindex hipv4
      · cases hipv4
    · split at h
      · exact absurd rfl h
      · rename_i group rest hgroup
        exact readSeparator_mem hindex hgroup

theorem length_ipv4Groups (octets : List ℕ) : (ipv4Groups octets).length ≤ 2 := by
  unfold ipv4Groups
  split
  · exact le_refl 2
  · exact Nat.zero_le 2

/-- Eight groups cannot be one group or one IPv4 address. -/
theorem readGroups_full (h : (readGroups 8 0 s).1.length = 8) : ':' ∈ s := by
  rw [readGroups] at h
  split at h
  · rename_i octets rest hipv4
    have hshort : (ipv4Groups octets).length ≤ 2 := length_ipv4Groups octets
    exact absurd (h ▸ hshort : 8 ≤ 2) (by decide)
  · split at h
    · cases h
    · rename_i group rest hgroup
      have hrest : (readGroups 7 (0 + 1) rest).1 ≠ [] := by
        intro hnil
        have hone : (group :: (readGroups 7 (0 + 1) rest).1).length = 8 := h
        rw [hnil] at hone
        cases hone
      exact (readGroup_consumed hgroup).subset (readGroups_colon (by decide) hrest)

theorem readIpv6_consumed {groups : List ℕ} (h : readIpv6 s = some (groups, rest)) :
    Consumed isAddressChar s rest ∧ ':' ∈ s := by
  unfold readIpv6 at h
  dsimp only at h
  split at h
  · rename_i hfull
    cases h
    exact ⟨readGroups_consumed, readGroups_full hfull⟩
  split at h
  · cases h
  split at h
  · rename_i t hsplit
    cases h
    have hhead : Consumed isAddressChar s (':' :: ':' :: t) := hsplit ▸ readGroups_consumed
    refine ⟨hhead.trans (.cons (by decide) (.cons (by decide) readGroups_consumed)), ?_⟩
    exact hhead.subset (.head _)
  · cases h

end Ip

/-- **An IPv6 address is made of hexadecimal digits, colons and dots, and has a colon.** -/
theorem parseIpv6_text {groups : List ℕ} (h : parseIpv6 s = some groups) :
    (∀ c ∈ s, isAddressChar c = true) ∧ ':' ∈ s := by
  unfold parseIpv6 at h
  split at h
  · rename_i groups' hread
    obtain ⟨⟨piece, hs, hpiece⟩, hcolon⟩ := Ip.readIpv6_consumed hread
    rw [List.append_nil] at hs
    exact ⟨hs ▸ hpiece, hcolon⟩
  · cases h

/-- An IPv4 address is made of digits and dots. -/
theorem parseIpv4_text {octets : List ℕ} (h : parseIpv4 s = some octets) :
    ∀ c ∈ s, isDottedChar c = true := by
  unfold parseIpv4 at h
  split at h
  · cases h
  split at h
  · rename_i octets' hread
    obtain ⟨piece, hs, hpiece⟩ := Ip.readOctets_consumed hread
    rw [List.append_nil] at hs
    exact hs ▸ hpiece
  · cases h

end BasisRust.Library
