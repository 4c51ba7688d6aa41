import BasisRust.Server.ContentShare

/-!
# The grammar of links

What a link should look like (`LinkForm`), and what the validator accepts besides: a last label
`0X…`, a plus sign in front of the port, a port of several zeros, and a port that follows the
closing bracket with no colon between.
-/

namespace BasisRust.Server.ContentShare

open Library
open Storage (GeneralCategory)

/-! ### Hosts -/

/-- Decided along the text, and not over all characters. -/
instance decidableForallMem (s : Text) (p : Char → Prop) [DecidablePred p] :
    Decidable (∀ c ∈ s, p c) :=
  List.decidableBAll p s

def isLabelChar (c : Char) : Bool := isAsciiAlphanumeric c || c = '-' || c = '_'

/-- The labels of a name. -/
structure Labels where
  labels : List Text
  ne_nil : labels ≠ []
  nonempty : ∀ l ∈ labels, l ≠ []
  chars : ∀ l ∈ labels, ∀ c ∈ l, isLabelChar c = true

namespace Labels

/-- The name with these labels, perhaps with a dot at the end. -/
def name (n : Labels) (final : Bool) : Text :=
  ['.'].intercalate n.labels ++ if final then ['.'] else []

def last (n : Labels) : Text := n.labels.getLast n.ne_nil

end Labels

/-- A label that a URL parser reads as a number. -/
def ReadsAsNumber (label : Text) : Prop :=
  (∀ c ∈ label, isAsciiDigit c = true) ∨
    ∃ x digits, label = '0' :: x :: digits ∧ (x = 'x' ∨ x = 'X') ∧ ∀ c ∈ digits,
      isAsciiHexDigit c = true

/-- An IPv6 address as it stands in an authority. -/
def bracketed (address : Text) : Text := '[' :: address ++ [']']

inductive HostForm : Text → Prop
  | ipv4 {host : Text} : (parseIpv4 host).isSome → HostForm host
  | ipv6 {address : Text} : (parseIpv6 address).isSome → HostForm (bracketed address)
  | name (n : Labels) (final : Bool) : ¬ReadsAsNumber n.last → HostForm (n.name final)

/-- A hexadecimal number with an upper-case `X`. -/
def UpperHex (label : Text) : Prop :=
  ∃ digits, label = '0' :: 'X' :: digits ∧ ∀ c ∈ digits, isAsciiHexDigit c = true

inductive DeviantHost : Text → Prop
  | mk (n : Labels) (final : Bool) : UpperHex n.last → DeviantHost (n.name final)

/-- The length of a host, its brackets apart. -/
def hostLength (host : Text) : ℕ :=
  if host.head? = some '[' then byteLength host - 2 else byteLength host

/-! ### What follows the host -/

/-- Digits of a number of 16 bits. -/
structure IsPort (digits : Text) : Prop where
  ne_nil : digits ≠ []
  decimal : ∀ c ∈ digits, isAsciiDigit c = true
  le : digitsValue 10 digits ≤ 65535

inductive PortForm : Text → Prop
  | absent : PortForm []
  | empty : PortForm [':']
  | port {digits : Text} : IsPort digits → 1 ≤ digitsValue 10 digits → PortForm (':' :: digits)

inductive DeviantTail (host : Text) : Text → Prop
  | plusSign {digits : Text} : IsPort digits → DeviantTail host (':' :: '+' :: digits)
  | zeros {digits : Text} : 2 ≤ digits.length → (∀ c ∈ digits, c = '0') →
      DeviantTail host (':' :: digits)
  | noColon {address port digits : Text} : host = bracketed address →
      (port = digits ∨ port = '+' :: digits) →
      IsPort digits → port ≠ ['0'] → DeviantTail host port

/-! ### Links -/

/-- `http` or `https`, in any letter case. -/
def HttpScheme (scheme : Text) : Prop :=
  eqIgnoreAsciiCase scheme http = true ∨ eqIgnoreAsciiCase scheme https = true

/-- An address and its parts; there is no user information in front of the host. -/
structure Parts (url scheme host tail rest : Text) : Prop where
  url_eq : url = scheme ++ schemeSeparator ++ (host ++ tail ++ rest)
  scheme : HttpScheme scheme
  authority : ∀ c ∈ host ++ tail, endsAuthority c = false ∧ c ≠ '@'
  rest : ∀ c, rest.head? = some c → endsAuthority c = true

/-- The form of a link. -/
def LinkForm (category : Char → GeneralCategory) (url : Text) : Prop :=
  (∀ c ∈ url, isWhitespace c = false ∧ isControl c = false ∧ category c ≠ .format) ∧
    ∃ scheme host tail rest, Parts url scheme host tail rest ∧ HostForm host ∧ PortForm tail

/-- What the validator accepts, with what it demands of the host and of what follows it. -/
def AcceptedWith (category : Char → GeneralCategory) (strictLink : Bool) (P : Text → Text → Prop)
    (url : Text) : Prop :=
  byteLength url ≤ maxAddress strictLink ∧ (∀ c ∈ url, refusedInAddress category c = false) ∧
    ∃ scheme host tail rest, Parts url scheme host tail rest ∧ hostLength host ≤ 254 ∧
      (HostForm host ∨ DeviantHost host) ∧ (PortForm tail ∨ DeviantTail host tail) ∧ P host tail

/-- What the validator accepts. -/
def Accepted (category : Char → GeneralCategory) (strictLink : Bool) (url : Text) : Prop :=
  AcceptedWith category strictLink (fun _ _ => True) url

/-- What the validator accepts although it does not have the form of a link. -/
def Deviates (category : Char → GeneralCategory) (strictLink : Bool) (url : Text) : Prop :=
  AcceptedWith category strictLink (fun host tail => DeviantHost host ∨ DeviantTail host tail) url

/-! ### Names -/

variable {c : Char}

theorem mem_intercalate {x : Char} {ls : List Text} (h : c ∈ [x].intercalate ls) :
    c = x ∨ ∃ l ∈ ls, c ∈ l := by
  induction ls with
  | nil => exact absurd h List.not_mem_nil
  | cons l ls ih =>
    cases ls with
    | nil =>
      rw [List.intercalate_singleton] at h
      exact .inr ⟨l, .head _, h⟩
    | cons l' ls =>
      rw [List.intercalate_cons_cons, List.mem_append, List.mem_append, List.mem_singleton] at h
      rcases h with (h | h) | h
      · exact .inr ⟨l, .head _, h⟩
      · exact .inl h
      · exact (ih h).imp_right fun ⟨m, hm, hc⟩ => ⟨m, .tail _ hm, hc⟩

theorem ne_of_isLabelChar (h : isLabelChar c = true) : c ≠ '.' ∧ c ≠ ':' ∧ c ≠ '[' := by
  refine ⟨?_, ?_, ?_⟩
  all_goals
    intro heq
    rw [heq] at h
    exact absurd h (by decide)

theorem isNameChar_iff : isNameChar c = true ↔ isLabelChar c = true ∨ c = '.' := by
  unfold isNameChar isLabelChar
  simp only [Bool.or_eq_true, decide_eq_true_iff]
  tauto

namespace Labels

variable (n : Labels) (final : Bool)

theorem dot_notMem : ∀ l ∈ n.labels, '.' ∉ l :=
  fun l hl hmem => (ne_of_isLabelChar (n.chars l hl _ hmem)).1 rfl

theorem splitOn_intercalate : (['.'].intercalate n.labels).splitOn '.' = n.labels :=
  List.splitOn_intercalate '.' n.dot_notMem n.ne_nil

theorem intercalate_tight : (∃ c, (['.'].intercalate n.labels).head? = some c ∧ c ≠ '.') ∧
    (['.'].intercalate n.labels).getLast? ≠ some '.' ∧
      ¬ ['.', '.'] <:+: ['.'].intercalate n.labels := by
  rw [← splitOn_nonempty, splitOn_intercalate]
  exact n.nonempty

theorem rdropWhile_name :
    ((n.name final).rdropWhile fun c => c = '.') = ['.'].intercalate n.labels := by
  have hkept : ((['.'].intercalate n.labels).rdropWhile fun c => c = '.') =
      ['.'].intercalate n.labels := by
    rw [List.rdropWhile_eq_self_iff]
    intro hne hlast
    rw [decide_eq_true_iff] at hlast
    exact n.intercalate_tight.2.1 (by rw [List.getLast?_eq_some_getLast hne, hlast])
  unfold name
  cases final with
  | false => rw [if_neg Bool.false_ne_true, List.append_nil, hkept]
  | true => rw [if_pos rfl, List.rdropWhile_concat_pos _ _ _ (by decide), hkept]

@[simp] theorem lastLabel_name : lastLabel (n.name final) = n.last := by
  unfold lastLabel
  rw [rdropWhile_name]
  exact getLast_splitOn_intercalate n.ne_nil n.dot_notMem

theorem last_ne_nil : n.last ≠ [] := n.nonempty _ (List.getLast_mem _)

/-- A name does not begin with a dot and has no two dots next to each other. -/
theorem name_tight : (∃ c, (n.name final).head? = some c ∧ c ≠ '.') ∧
    ¬ ['.', '.'] <:+: n.name final := by
  obtain ⟨⟨c, hhead, hc⟩, hlast, hdots⟩ := n.intercalate_tight
  unfold name
  refine ⟨⟨c, ?_, hc⟩, ?_⟩
  · rw [List.head?_append, hhead]
    rfl
  · cases final with
    | false => simpa using hdots
    | true =>
      rw [if_pos rfl, List.infix_concat_iff, not_or]
      refine ⟨fun hsuffix => ?_, hdots⟩
      obtain ⟨t, ht⟩ := hsuffix
      have hsplit : ['.'].intercalate n.labels = t ++ ['.'] := by
        have happ : t ++ ['.'] ++ ['.'] = ['.'].intercalate n.labels ++ ['.'] := by
          rw [← ht, List.append_assoc]
          rfl
        exact (List.append_cancel_right happ).symm
      exact hlast (by rw [hsplit, List.getLast?_concat])

theorem name_chars : ∀ c ∈ n.name final, isNameChar c = true := by
  intro c hc
  rw [isNameChar_iff]
  rcases List.mem_append.mp hc with hc | hc
  · rcases mem_intercalate hc with hdot | ⟨l, hl, hmem⟩
    · exact .inr hdot
    · exact .inl (n.chars l hl c hmem)
  · cases final with
    | false => exact absurd hc List.not_mem_nil
    | true => exact .inr (List.mem_singleton.mp hc)

end Labels

variable {host : Text} {address port : Text}

theorem exists_labels (hhead : ∃ c, host.head? = some c ∧ c ≠ '.')
    (hdots : ¬ ['.', '.'] <:+: host) (hchars : ∀ c ∈ host, isNameChar c = true) :
    ∃ (n : Labels) (final : Bool), host = n.name final := by
  have hsplit : (host.rdropWhile fun c => decide (c = '.')) ++
    (host.rtakeWhile fun c => decide (c = '.'))
      = host := List.rdropWhile_append_rtakeWhile
  have htail : ∀ c ∈ host.rtakeWhile fun c => decide (c = '.'), c = '.' := by
    intro c hc
    exact of_decide_eq_true (List.mem_rtakeWhile_imp (p := fun c => decide (c = '.')) hc)
  generalize (host.rtakeWhile fun c => decide (c = '.')) = dots at hsplit htail
  have hlast : ∀ hne, ¬ decide
      ((host.rdropWhile fun c => decide (c = '.')).getLast hne = '.') = true :=
    fun hne => List.rdropWhile_last_not (fun c => decide (c = '.')) host hne
  generalize (host.rdropWhile fun c => decide (c = '.')) = t at hsplit hlast
  subst hsplit
  -- the text in front of the dots at the end
  have hne : t ≠ [] := by
    rintro rfl
    obtain ⟨c, hc, hdot⟩ := hhead
    exact hdot (htail c (List.mem_of_mem_head? (by simpa using hc)))
  have htight : ∀ l ∈ t.splitOn '.', l ≠ [] := by
    refine splitOn_nonempty.mpr
      ⟨?_, ?_, fun hin => hdots (hin.trans (List.infix_append' [] t dots))⟩
    · rwa [List.head?_append_of_ne_nil _ hne] at hhead
    · rw [List.getLast?_eq_some_getLast hne, ne_eq, Option.some.injEq]
      exact fun heq => hlast hne (decide_eq_true heq)
  have hlabel : ∀ l ∈ t.splitOn '.', ∀ c ∈ l, isLabelChar c = true := by
    intro l hl c hc
    obtain ⟨hmem, hdot⟩ := mem_of_mem_splitOn hl c hc
    exact (isNameChar_iff.mp (hchars c (List.mem_append_left _ hmem))).resolve_right hdot
  have hname : ['.'].intercalate (t.splitOn '.') = t := List.intercalate_splitOn '.'
  let n : Labels := ⟨t.splitOn '.', List.splitOn_ne_nil _ _, htight, hlabel⟩
  match dots, htail with
  | [], _ => exact ⟨n, false, congrArg (· ++ []) hname.symm⟩
  | [d], htail =>
    rw [htail d (.head _)]
    exact ⟨n, true, congrArg (· ++ ['.']) hname.symm⟩
  | d :: d' :: rest, htail =>
    rw [htail d (.head _), htail d' (.tail _ (.head _))] at hdots
    exact absurd ⟨t, rest, by simp⟩ hdots

/-! ### The check of a host -/

theorem number_check {label : Text} (hne : label ≠ []) :
    (!(label.isEmpty || label.all isAsciiDigit ||
      (['0', 'x'].isPrefixOf label && (label.drop 2).all isAsciiHexDigit))) = true ↔
      ¬ReadsAsNumber label ∨ UpperHex label := by
  have hlower : (['0', 'x'].isPrefixOf label && (label.drop 2).all isAsciiHexDigit) = true ↔
      ∃ digits, label = '0' :: 'x' :: digits ∧ ∀ c ∈ digits, isAsciiHexDigit c = true := by
    rw [Bool.and_eq_true, List.isPrefixOf_iff_prefix, List.all_eq_true]
    constructor
    · rintro ⟨⟨digits, rfl⟩, hdigits⟩
      exact ⟨digits, rfl, hdigits⟩
    · rintro ⟨digits, rfl, hdigits⟩
      exact ⟨⟨digits, rfl⟩, hdigits⟩
  rw [Bool.not_eq_true', Bool.or_eq_false_iff, Bool.or_eq_false_iff, List.isEmpty_eq_false_iff,
    ← Bool.not_eq_true, ← Bool.not_eq_true, List.all_eq_true, hlower]
  constructor
  · rintro ⟨⟨-, hdecimal⟩, hhex⟩
    by_cases hnumber : ReadsAsNumber label
    · rcases hnumber with hdigits | ⟨x, digits, heq, rfl | rfl, hdigits⟩
      · exact absurd hdigits hdecimal
      · exact absurd ⟨digits, heq, hdigits⟩ hhex
      · exact .inr ⟨digits, heq, hdigits⟩
    · exact .inl hnumber
  · rintro (hnumber | ⟨digits, rfl, hdigits⟩)
    · refine ⟨⟨hne, fun hdigits => hnumber (.inl hdigits)⟩, ?_⟩
      rintro ⟨digits, heq, hdigits⟩
      exact hnumber (.inr ⟨'x', digits, heq, .inl rfl, hdigits⟩)
    · refine ⟨⟨hne, fun hall => ?_⟩, ?_⟩
      · exact absurd (hall 'X' (.tail _ (.head _))) (by decide)
      · rintro ⟨digits', heq, -⟩
        exact absurd (List.cons.inj (List.cons.inj heq).2).1 (by decide)

theorem host_cases (h : HostForm host ∨ DeviantHost host) : (parseIpv4 host).isSome ∨
    (∃ address, (parseIpv6 address).isSome ∧ host = bracketed address) ∨
    ∃ (n : Labels) (final : Bool), host = n.name final ∧
      (¬ReadsAsNumber n.last ∨ UpperHex n.last) := by
  rcases h with (h | h | ⟨n, final, h⟩) | ⟨n, final, h⟩
  · exact .inl h
  · exact .inr (.inl ⟨_, h, rfl⟩)
  · exact .inr (.inr ⟨n, final, rfl, .inl h⟩)
  · exact .inr (.inr ⟨n, final, rfl, .inr h⟩)

theorem ipv4_chars (h : (parseIpv4 host).isSome) : ∀ c ∈ host, isDottedChar c = true := by
  obtain ⟨octets, ho⟩ := Option.isSome_iff_exists.mp h
  exact parseIpv4_text ho

theorem ipv6_chars (h : (parseIpv6 address).isSome) :
    (∀ c ∈ address, isAddressChar c = true) ∧ ':' ∈ address := by
  obtain ⟨groups, hg⟩ := Option.isSome_iff_exists.mp h
  exact parseIpv6_text hg

theorem not_ipv4_nil : ¬(parseIpv4 []).isSome := by
  decide

/-- The check of a host that does not stand in brackets. -/
theorem validHost_iff (hcolon : ':' ∉ host) (hbracket : host.head? ≠ some '[') :
    validHost host = true ↔ byteLength host ≤ 254 ∧ (HostForm host ∨ DeviantHost host) := by
  unfold validHost
  split
  · rename_i hbad
    refine iff_of_false Bool.false_ne_true ?_
    rintro ⟨hlength, hform⟩
    rcases Bool.or_eq_true_iff.mp hbad with hempty | hlong
    · rw [List.isEmpty_iff] at hempty
      rcases host_cases hform with h | ⟨address, -, h⟩ | ⟨n, final, h, -⟩
      · exact not_ipv4_nil (hempty ▸ h)
      · rw [hempty] at h
        cases h
      · obtain ⟨⟨c, hc, -⟩, -⟩ := n.name_tight final
        rw [← h, hempty] at hc
        cases hc
    · exact absurd hlength (Nat.not_le.mpr (of_decide_eq_true hlong))
  rename_i hgood
  rw [Bool.or_eq_true, not_or, decide_eq_true_iff, Nat.not_lt] at hgood
  split
  · rename_i haddress
    refine iff_of_true rfl ⟨hgood.2, .inl ?_⟩
    rcases Bool.or_eq_true_iff.mp haddress with h4 | h6
    · exact .ipv4 h4
    · exact absurd (ipv6_chars h6).2 hcolon
  rename_i haddress
  rw [Bool.or_eq_true, not_or] at haddress
  have hname : (HostForm host ∨ DeviantHost host) → ∃ (n : Labels) (final : Bool),
    host = n.name final ∧
      (¬ReadsAsNumber n.last ∨ UpperHex n.last) := by
    intro hform
    rcases host_cases hform with h | ⟨address, -, h⟩ | h
    · exact absurd h haddress.1
    · exact absurd (h ▸ rfl) hbracket
    · exact h
  split
  · rename_i hbad
    refine iff_of_false Bool.false_ne_true ?_
    rintro ⟨-, hform⟩
    obtain ⟨n, final, rfl, -⟩ := hname hform
    obtain ⟨⟨c, hc, hdot⟩, hdots⟩ := n.name_tight final
    rw [Bool.or_eq_true, Bool.or_eq_true, decide_eq_true_iff, isSome_cutOnce, hc, Option.some.injEq,
      Bool.not_eq_true'] at hbad
    rcases hbad with (h | h) | h
    · exact hdot h
    · exact hdots h
    · rw [List.all_eq_true.mpr (n.name_chars final)] at h
      cases h
  · rename_i hgood'
    rw [Bool.or_eq_true, Bool.or_eq_true, decide_eq_true_iff, isSome_cutOnce, Bool.not_eq_true',
      not_or, not_or, Bool.not_eq_false, List.all_eq_true] at hgood'
    obtain ⟨⟨hdot, hdots⟩, hchars⟩ := hgood'
    have hhead : ∃ c, host.head? = some c ∧ c ≠ '.' := by
      cases host with
      | nil => exact absurd rfl hgood.1
      | cons c t => exact ⟨c, rfl, fun heq => hdot (congrArg some heq)⟩
    obtain ⟨n, final, rfl⟩ := exists_labels hhead hdots hchars
    dsimp only
    rw [n.lastLabel_name, number_check n.last_ne_nil, and_iff_right hgood.2]
    constructor
    · rintro (h | h)
      · exact .inl (.name n final h)
      · exact .inr (.mk n final h)
    · intro hform
      obtain ⟨n', final', heq, h⟩ := hname hform
      have hlast : n.last = n'.last := by rw [← n.lastLabel_name final, heq, n'.lastLabel_name]
      rwa [hlast]

/-! ### The check of a port -/

theorem validPort_iff : validPort port = true ↔
    port = [] ∨ ∃ digits, (port = digits ∨ port = '+' :: digits) ∧ IsPort digits ∧
      port ≠ ['0'] := by
  unfold validPort
  rw [Bool.or_eq_true, List.isEmpty_iff, Bool.and_eq_true, Bool.not_eq_true',
    decide_eq_false_iff_not, parseU16_isSome]
  refine or_congr_right ⟨?_, ?_⟩
  · rintro ⟨⟨digits, hport, hne, hdecimal, hle⟩, hzero⟩
    exact ⟨digits, hport, ⟨hne, hdecimal, hle⟩, hzero⟩
  · rintro ⟨digits, hport, hdigits, hzero⟩
    exact ⟨⟨digits, hport, hdigits.ne_nil, hdigits.decimal, hdigits.le⟩, hzero⟩

/-- Zeros, however many, are digits of a port. -/
theorem isPort_zeros {digits : Text} (hne : digits ≠ []) (h : ∀ c ∈ digits, c = '0') :
    IsPort digits := by
  have hdecimal : ∀ c ∈ digits, isAsciiDigit c = true := fun c hc => h c hc ▸ by decide
  refine ⟨hne, hdecimal, ?_⟩
  rw [(digitsValue_eq_zero hdecimal).mpr h]
  exact Nat.zero_le _

theorem IsPort.head_ne {digits : Text} (h : IsPort digits)
    (hc : isAsciiDigit c = false) {t : Text} :
    digits ≠ c :: t := by
  rintro rfl
  rw [h.decimal c (.head _)] at hc
  cases hc

/-- A port behind a colon. -/
theorem colon_port_iff :
    validPort port = true ↔ PortForm (':' :: port) ∨ DeviantTail host (':' :: port) := by
  rw [validPort_iff]
  constructor
  · rintro (rfl | ⟨digits, rfl | rfl, hdigits, hzero⟩)
    · exact .inl .empty
    · by_cases hvalue : digitsValue 10 port = 0
      · have hzeros := (digitsValue_eq_zero hdigits.decimal).mp hvalue
        refine .inr (.zeros ?_ hzeros)
        match port, hdigits.ne_nil, hzeros, hzero with
        | [c], _, hzeros, hzero => exact absurd (congrArg (· :: []) (hzeros c (.head _))) hzero
        | _ :: _ :: _, _, _, _ => exact Nat.le_add_left 2 _
      · exact .inl (.port hdigits (Nat.one_le_iff_ne_zero.mpr hvalue))
    · exact .inr (.plusSign hdigits)
  · rintro (h | h)
    · cases h with
      | empty => exact .inl rfl
      | port hdigits hvalue =>
        refine .inr ⟨port, .inl rfl, hdigits, ?_⟩
        rintro rfl
        exact absurd hvalue (by decide)
    · cases h with
      | plusSign hdigits => exact .inr ⟨_, .inr rfl, hdigits, by simp⟩
      | zeros hlength hzeros =>
        have hne : port ≠ [] := by
          rintro rfl
          cases hlength
        refine .inr ⟨port, .inl rfl, isPort_zeros hne hzeros, ?_⟩
        rintro rfl
        exact absurd hlength (by decide)
      | noColon hhost hport hdigits hzero =>
        rcases hport with h | h
        · exact absurd h.symm (hdigits.head_ne (by decide))
        · cases h

/-- What may follow an address in brackets. -/
theorem bracketed_tail_iff {tail : Text} : validPort (withoutColon tail) = true ↔
    PortForm tail ∨ DeviantTail (bracketed address) tail := by
  unfold withoutColon
  split
  · exact colon_port_iff
  rename_i hcolon
  rw [validPort_iff]
  constructor
  · rintro (rfl | ⟨digits, hport, hdigits, hzero⟩)
    · exact .inl .absent
    · exact .inr (.noColon rfl hport hdigits hzero)
  · rintro (h | h)
    · cases h with
      | absent => exact .inl rfl
      | empty => exact absurd rfl (hcolon [])
      | port hdigits hvalue => exact absurd rfl (hcolon _)
    · cases h with
      | plusSign | zeros => exact absurd rfl (hcolon _)
      | noColon hhost hport hdigits hzero => exact .inr ⟨_, hport, hdigits, hzero⟩

/-! ### The authority -/

theorem mem_bracketed (h : (parseIpv6 address).isSome) : ']' ∉ address ∧ '%' ∉ address := by
  obtain ⟨hchars, -⟩ := ipv6_chars h
  exact ⟨fun hmem => absurd (hchars _ hmem) (by decide), fun hmem =>
    absurd (hchars _ hmem) (by decide)⟩

theorem hostLength_bracketed (address : Text) :
    hostLength (bracketed address) = byteLength address := by
  unfold hostLength bracketed byteLength
  simp [show '['.utf8Size = 1 from rfl, show ']'.utf8Size = 1 from rfl]
  omega

theorem hostLength_of_bare (h : host.head? ≠ some '[') : hostLength host = byteLength host :=
  if_neg h

/-- A host that does not stand in brackets has no bracket in front and no colon in it. -/
theorem host_bare (h : HostForm host ∨ DeviantHost host) :
    (∃ address, (parseIpv6 address).isSome ∧ host = bracketed address) ∨
      (':' ∉ host ∧ host.head? ≠ some '[') := by
  have hplain : (∀ c ∈ host, isNameChar c = true ∨ isDottedChar c = true) →
      ':' ∉ host ∧ host.head? ≠ some '[' := by
    intro hchars
    refine ⟨fun hmem => absurd (hchars _ hmem) (by decide), fun hhead => ?_⟩
    exact absurd (hchars _ (List.mem_of_mem_head? hhead)) (by decide)
  rcases host_cases h with h | h | ⟨n, final, rfl, -⟩
  · exact .inr (hplain fun c hc => .inr (ipv4_chars h c hc))
  · exact .inl h
  · exact .inr (hplain fun c hc => .inl (n.name_chars final c hc))

theorem tail_of_bare {tail : Text} (hbracket : host.head? ≠ some '[')
    (h : PortForm tail ∨ DeviantTail host tail) : tail = [] ∨ ∃ port, tail = ':' :: port := by
  rcases h with h | h
  · cases h with
    | absent => exact .inl rfl
    | empty | port => exact .inr ⟨_, rfl⟩
  · cases h with
    | plusSign | zeros => exact .inr ⟨_, rfl⟩
    | noColon hhost hport hdigits hzero => exact absurd (hhost ▸ rfl) hbracket

/-- The check of an authority. -/
def validAuthority (authority : Text) : Bool :=
  match hostAndPort authority with
  | none => false
  | some (host, port) => if !validPort port then false else validHost host

theorem hostAndPort_bracketed {tail : Text} (h : (parseIpv6 address).isSome) :
    hostAndPort (bracketed address ++ tail) = some (address, withoutColon tail) := by
  obtain ⟨hbracket, hzone⟩ := mem_bracketed h
  have hcut : cutOnce [']'] (address ++ [']'] ++ tail) = some (address, tail) :=
    cutOnce_fresh hbracket tail
  have hgood : (address.contains '%' || (parseIpv6 address).isNone) = false := by
    rw [Bool.or_eq_false_iff, Option.isNone_eq_false_iff]
    exact ⟨by simpa using hzone, h⟩
  unfold hostAndPort bracketed
  simp only [List.cons_append, hcut, hgood, if_neg Bool.false_ne_true]

theorem hostAndPort_bare {authority : Text} (h : authority.head? ≠ some '[') :
    hostAndPort authority = some ((cutOnce [':'] authority).getD (authority, [])) := by
  unfold hostAndPort
  split
  · exact absurd rfl h
  · rfl

theorem hostAndPort_colon {port : Text} (hcolon : ':' ∉ host) (hbracket : host.head? ≠ some '[') :
    hostAndPort (host ++ ':' :: port) = some (host, port) := by
  have hcut : cutOnce [':'] (host ++ [':'] ++ port) = some (host, port) := cutOnce_fresh hcolon port
  rw [List.append_assoc, List.singleton_append] at hcut
  rw [hostAndPort_bare, hcut]
  · rfl
  · cases host with
    | nil => exact fun h => absurd (Option.some.inj h) (by decide)
    | cons c host => exact hbracket

theorem hostAndPort_alone (hcolon : ':' ∉ host) (hbracket : host.head? ≠ some '[') :
    hostAndPort host = some (host, []) := by
  rw [hostAndPort_bare hbracket, cutOnce_none.mpr hcolon]
  rfl

theorem validHost_ipv6 (h : (parseIpv6 address).isSome) :
    validHost address = true ↔ byteLength address ≤ 254 := by
  have hne : address.isEmpty = false := by
    cases address with
    | nil => exact absurd (ipv6_chars h).2 List.not_mem_nil
    | cons c address => rfl
  unfold validHost
  rw [hne, Bool.false_or, h, Bool.or_true]
  by_cases hlong : 254 < byteLength address
  · rw [decide_eq_true hlong, if_pos rfl]
    exact iff_of_false Bool.false_ne_true (Nat.not_le.mpr hlong)
  · rw [decide_eq_false hlong, if_neg Bool.false_ne_true, if_pos rfl]
    exact iff_of_true rfl (Nat.not_lt.mp hlong)

theorem validAuthority_of {authority : Text} (h : hostAndPort authority = some (host, port)) :
    validAuthority authority = true ↔ validPort port = true ∧ validHost host = true := by
  unfold validAuthority
  rw [h]
  show (if !validPort port then false else validHost host) = true ↔ _
  cases validPort port <;> simp

theorem validAuthority_iff {authority : Text} : validAuthority authority = true ↔
    ∃ host tail, authority = host ++ tail ∧ hostLength host ≤ 254 ∧
      (HostForm host ∨ DeviantHost host) ∧
      (PortForm tail ∨ DeviantTail host tail) := by
  constructor
  · intro hvalid
    cases hparts : hostAndPort authority with
    | none =>
      unfold validAuthority at hvalid
      rw [hparts] at hvalid
      cases hvalid
    | some p =>
      obtain ⟨host, port⟩ := p
      obtain ⟨hport, hhost⟩ := (validAuthority_of hparts).mp hvalid
      by_cases hbracket : authority.head? = some '['
      · obtain ⟨inner, rfl⟩ := List.head?_eq_some_iff.mp hbracket
        simp only [hostAndPort] at hparts
        split at hparts
        · cases hparts
        rename_i address rest hcut
        split at hparts
        · cases hparts
        rename_i hgood
        cases hparts
        rw [Bool.or_eq_true, not_or, Bool.not_eq_true, Bool.not_eq_true,
          Option.isNone_eq_false_iff] at hgood
        refine ⟨bracketed host, rest, ?_, ?_, .inl (.ipv6 hgood.2), bracketed_tail_iff.mp hport⟩
        · rw [cutOnce_spec hcut]
          rfl
        · rw [hostLength_bracketed]
          exact (validHost_ipv6 hgood.2).mp hhost
      · rw [hostAndPort_bare hbracket, Option.some.injEq] at hparts
        cases hcut : cutOnce [':'] authority with
        | none =>
          rw [hcut] at hparts
          cases hparts
          obtain ⟨hlength, hform⟩ := (validHost_iff (cutOnce_none.mp hcut) hbracket).mp hhost
          refine ⟨authority, [], (List.append_nil _).symm, ?_, hform, .inl .absent⟩
          rwa [hostLength_of_bare hbracket]
        | some q =>
          rw [hcut] at hparts
          cases hparts
          have hsplit := cutOnce_spec hcut
          have hbare : host.head? ≠ some '[' := by
            intro hhead
            rw [hsplit, List.append_assoc, List.head?_append, hhead] at hbracket
            exact hbracket rfl
          obtain ⟨hlength, hform⟩ := (validHost_iff (notMem_of_cutOnce hcut) hbare).mp hhost
          refine ⟨host, ':' :: port, ?_, ?_, hform, colon_port_iff.mp hport⟩
          · rw [hsplit, List.append_assoc, List.singleton_append]
          · rwa [hostLength_of_bare hbare]
  · rintro ⟨host, tail, rfl, hlength, hform, htail⟩
    rcases host_bare hform with ⟨address, haddress, rfl⟩ | ⟨hcolon, hbracket⟩
    · rw [hostLength_bracketed] at hlength
      refine (validAuthority_of (hostAndPort_bracketed haddress)).mpr
        ⟨bracketed_tail_iff.mpr htail, ?_⟩
      exact (validHost_ipv6 haddress).mpr hlength
    · rw [hostLength_of_bare hbracket] at hlength
      have hhost := (validHost_iff hcolon hbracket).mpr ⟨hlength, hform⟩
      rcases tail_of_bare hbracket htail with rfl | ⟨port, rfl⟩
      · rw [List.append_nil]
        exact (validAuthority_of (hostAndPort_alone hcolon hbracket)).mpr ⟨rfl, hhost⟩
      · exact (validAuthority_of (hostAndPort_colon hcolon hbracket)).mpr
          ⟨colon_port_iff.mpr htail, hhost⟩

/-! ### The whole address -/

theorem colon_notMem_scheme {scheme : Text} (h : HttpScheme scheme) : ':' ∉ scheme := by
  have hlower : ∀ name : Text, ':' ∉ name.map Char.toLower → eqIgnoreAsciiCase scheme name = true →
      ':' ∉ scheme := by
    intro name hname heq hmem
    refine hname ?_
    rw [← of_decide_eq_true heq]
    exact List.mem_map.mpr ⟨':', hmem, rfl⟩
  rcases h with h | h
  · exact hlower http (by decide) h
  · exact hlower https (by decide) h

section Parts

variable {url scheme host tail rest : Text}

theorem Parts.cutOnce_eq (h : Parts url scheme host tail rest) :
    cutOnce schemeSeparator url = some (scheme, host ++ tail ++ rest) := by
  rw [h.url_eq]
  exact cutOnce_fresh (colon_notMem_scheme h.scheme) _

theorem Parts.authority_eq (h : Parts url scheme host tail rest) :
    ((host ++ tail ++ rest).takeWhile fun c => !endsAuthority c) = host ++ tail := by
  have hrest : (rest.takeWhile fun c => !endsAuthority c) = [] := by
    cases rest with
    | nil => rfl
    | cons c t =>
      have hc : (!endsAuthority c) = false := by rw [h.rest c rfl]; rfl
      rw [List.takeWhile_cons, hc]
      rfl
  rw [List.takeWhile_append_of_pos, hrest, List.append_nil]
  intro c hc
  rw [(h.authority c hc).1]
  rfl

/-- **What the validator accepts.** -/
theorem validHttpAddress_iff {category : Char → GeneralCategory} {strictLink : Bool} :
    validHttpAddress category url strictLink = true ↔ Accepted category strictLink url := by
  have hrefused : url.any (refusedInAddress category) = false ↔
      ∀ c ∈ url, refusedInAddress category c = false := by
    rw [List.any_eq_false]
    exact forall₂_congr fun _ _ => by rw [Bool.not_eq_true]
  unfold Accepted AcceptedWith
  constructor
  · intro hvalid
    unfold validHttpAddress at hvalid
    split at hvalid
    · cases hvalid
    rename_i hlength
    rw [Bool.or_eq_true, not_or, decide_eq_true_iff, Nat.not_lt] at hlength
    split at hvalid
    · cases hvalid
    rename_i hchars
    split at hvalid
    · cases hvalid
    rename_i scheme without hcut
    split at hvalid
    · cases hvalid
    rename_i hscheme
    dsimp only at hvalid
    split at hvalid
    · cases hvalid
    rename_i huser
    rw [Bool.or_eq_true, not_or] at huser
    have hauthority : validAuthority (without.takeWhile fun c => !endsAuthority c) = true := hvalid
    obtain ⟨host, tail, hsplit, hshort, hhost, htail⟩ := validAuthority_iff.mp hauthority
    refine ⟨hlength.2, hrefused.mp (eq_false_of_ne_true hchars), scheme, host, tail,
      without.dropWhile fun c => !endsAuthority c, ?_, hshort, hhost, htail, trivial⟩
    refine ⟨?_, ?_, ?_, ?_⟩
    · rw [← hsplit, List.takeWhile_append_dropWhile]
      exact cutOnce_spec hcut
    · unfold HttpScheme
      by_contra hneither
      rw [not_or, Bool.not_eq_true, Bool.not_eq_true] at hneither
      exact hscheme (by rw [hneither.1, hneither.2]; rfl)
    · intro c hc
      rw [← hsplit] at hc
      refine ⟨?_, ?_⟩
      · have hends : (!endsAuthority c) = true :=
          List.mem_takeWhile_imp (p := fun c => !endsAuthority c) hc
        simpa using hends
      · rintro rfl
        exact huser.2 (List.contains_iff_mem.mpr hc)
    · intro c hc
      have hends := List.head?_dropWhile_not (fun c => !endsAuthority c) without
      rw [hc] at hends
      simpa using hends
  · rintro ⟨hlength, hchars, scheme, host, tail, rest, hparts, hshort, hhost, htail, -⟩
    have hne : host ++ tail ≠ [] := by
      intro hnil
      have hvalid := validAuthority_iff.mpr ⟨host, tail, rfl, hshort, hhost, htail⟩
      rw [hnil] at hvalid
      exact absurd hvalid (by decide)
    have hurl : url ≠ [] := by
      rw [hparts.url_eq]
      simp [schemeSeparator]
    have hscheme : (!eqIgnoreAsciiCase scheme http && !eqIgnoreAsciiCase scheme https) = false := by
      rcases hparts.scheme with h | h
      · rw [h]
        rfl
      · rw [h, Bool.and_comm]
        rfl
    have huser : ((host ++ tail).isEmpty || (host ++ tail).contains '@') = false := by
      rw [Bool.or_eq_false_iff, List.isEmpty_eq_false_iff]
      refine ⟨hne, eq_false_of_ne_true fun hmem => ?_⟩
      exact (hparts.authority '@' (List.contains_iff_mem.mp hmem)).2 rfl
    have hbounds : (url.isEmpty || decide (maxAddress strictLink < byteLength url)) = false := by
      rw [Bool.or_eq_false_iff, List.isEmpty_eq_false_iff, decide_eq_false_iff_not, Nat.not_lt]
      exact ⟨hurl, hlength⟩
    unfold validHttpAddress
    rw [hbounds, hrefused.mpr hchars, hparts.cutOnce_eq]
    simp only [hscheme, hparts.authority_eq, huser, if_neg Bool.false_ne_true]
    exact validAuthority_iff.mpr ⟨host, tail, rfl, hshort, hhost, htail⟩

end Parts

end BasisRust.Server.ContentShare
