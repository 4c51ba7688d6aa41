import Mathlib.Data.List.DropRight
import Mathlib.Data.List.TakeWhile

/-!
# Texts

A text is the list of its characters.  `trim`, `lines` and `stripBom` are the functions of that kind
in the standard library of the programs modelled here; white space is what Unicode calls so.

`lines_flatMap` is the one round trip: lines that were written one by one, each with a line feed
after it, are read back if none of them contains a line feed or ends with a carriage return.
-/

namespace BasisRust.Library

abbrev Text := List Char

instance : LawfulBEq Text := inferInstance

/-- The characters with the property `White_Space`. -/
def isWhitespace (c : Char) : Bool :=
  let n := c.toNat
  (0x9 ≤ n && n ≤ 0xd) || n = 0x20 || n = 0x85 || n = 0xa0 || n = 0x1680 ||
    (0x2000 ≤ n && n ≤ 0x200a) || n = 0x2028 || n = 0x2029 || n = 0x202f || n = 0x205f || n = 0x3000

def trimStart (s : Text) : Text := s.dropWhile isWhitespace

def trimEnd (s : Text) : Text := s.rdropWhile isWhitespace

def trim (s : Text) : Text := trimEnd (trimStart s)

/-- Nothing but white space. -/
def isBlank (s : Text) : Bool := (trim s).isEmpty

def lineFeed : Char := '\n'
def carriageReturn : Char := '\r'
def byteOrderMark : Char := Char.ofNat 0xfeff

/-- A line that ended with a line feed loses one carriage return in front of it. -/
def stripCr (s : Text) : Text := if s.getLast? = some carriageReturn then s.dropLast else s

/-- The lines of a text, with the characters of the current one. -/
def linesFrom : Text → Text → List Text
  | line, [] => if line.isEmpty then [] else [line]
  | line, c :: cs =>
    if c = lineFeed then stripCr line :: linesFrom [] cs else linesFrom (line ++ [c]) cs

def lines (s : Text) : List Text := linesFrom [] s

/-- Remove a byte-order mark at the beginning. -/
def stripBom (s : Text) : Text :=
  match s with
  | [] => []
  | c :: cs => if c = byteOrderMark then cs else s

/-! ### Trimming -/

/-- The numbers of the characters of `isAlphanum`. -/
theorem toNat_of_alphanum {c : Char} (h : c.isAlphanum = true) :
    (65 ≤ c.toNat ∧ c.toNat ≤ 90 ∨ 97 ≤ c.toNat ∧ c.toNat ≤ 122) ∨ 48 ≤ c.toNat ∧ c.toNat ≤ 57 := by
  have hranges :
    (decide (c.val ≥ 65 ∧ c.val ≤ 90) || (decide (c.val ≥ 97) && decide (c.val ≤ 122)) ||
    (decide (c.val ≥ 48) && decide (c.val ≤ 57))) = true := h
  simp only [Bool.or_eq_true, Bool.and_eq_true, decide_eq_true_eq] at hranges
  exact hranges

theorem trimStart_trim (s : Text) : trimStart (trim s) = trim s := by
  refine List.dropWhile_eq_self_iff.mpr ?_
  intro hpos
  have hpre : trim s <+: trimStart s := List.rdropWhile_prefix _ _
  have hlong : 0 < (trimStart s).length := Nat.lt_of_lt_of_le hpos hpre.length_le
  rw [hpre.getElem hpos]
  exact List.dropWhile_get_zero_not _ _ hlong

theorem trim_trim (s : Text) : trim (trim s) = trim s := by
  show trimEnd (trimStart (trim s)) = trim s
  rw [trimStart_trim]
  exact List.rdropWhile_idempotent _ _

variable {s : Text}

/-- A text that is trimmed does not end with white space. -/
theorem getLast_of_trim (h : trim s = s) (hne : s ≠ []) : isWhitespace (s.getLast hne) = false := by
  have hend : trimEnd (trimStart s) ≠ [] := by
    show trim s ≠ []
    rw [h]
    exact hne
  have hlast := List.rdropWhile_last_not isWhitespace (trimStart s) hend
  have heq : (trimEnd (trimStart s)).getLast hend = s.getLast hne := by
    congr 1
  rw [← heq]
  exact eq_false_of_ne_true hlast

theorem stripCr_of_trim (h : trim s = s) : stripCr s = s := by
  unfold stripCr
  rw [if_neg]
  intro hlast
  have hne : s ≠ [] := by
    rintro rfl
    cases hlast
  have hws := getLast_of_trim h hne
  rw [List.getLast?_eq_some_getLast hne, Option.some.injEq] at hlast
  rw [hlast] at hws
  exact absurd hws (by decide)

/-! ### Lines -/

theorem linesFrom_append (v : Text) (h : lineFeed ∉ v) : ∀ line rest,
    linesFrom line (v ++ lineFeed :: rest) = stripCr (line ++ v) :: linesFrom [] rest := by
  induction v with
  | nil =>
    intro line rest
    rw [List.nil_append, linesFrom, if_pos rfl, List.append_nil]
  | cons c v ih =>
    intro line rest
    have hc : c ≠ lineFeed := fun heq => h (heq ▸ .head _)
    rw [List.cons_append, linesFrom, if_neg hc, ih fun hmem => h (.tail _ hmem),
      List.append_assoc]
    rfl

/-- **Lines that were written can be read back.** -/
theorem lines_flatMap {l : List Text} (h : ∀ v ∈ l, lineFeed ∉ v ∧ stripCr v = v) :
    lines (l.flatMap fun v => v ++ [lineFeed]) = l := by
  induction l with
  | nil => rfl
  | cons v l ih =>
    obtain ⟨hfeed, hcr⟩ := h v (.head _)
    show linesFrom [] (v ++ [lineFeed] ++ l.flatMap fun v => v ++ [lineFeed]) = v :: l
    rw [List.append_assoc, List.singleton_append, linesFrom_append v hfeed, List.nil_append, hcr]
    exact congrArg _ (ih fun w hw => h w (.tail _ hw))

/-- No line of a text contains a line feed. -/
theorem lineFeed_notMem_lines {v : Text} (h : v ∈ lines s) : lineFeed ∉ v := by
  have hfrom : ∀ s line : Text, lineFeed ∉ line → ∀ v ∈ linesFrom line s, lineFeed ∉ v := by
    intro s
    induction s with
    | nil =>
      intro line hline v hv
      rw [linesFrom] at hv
      split at hv
      · cases hv
      · rw [List.mem_singleton.mp hv]
        exact hline
    | cons c s ih =>
      intro line hline v hv
      rw [linesFrom] at hv
      split at hv
      · rcases List.mem_cons.mp hv with rfl | hv
        · unfold stripCr
          split
          · exact fun hmem => hline (List.dropLast_subset _ hmem)
          · exact hline
        · exact ih [] (fun hmem => (nomatch hmem)) v hv
      · rename_i hc
        refine ih (line ++ [c]) ?_ v hv
        intro hmem
        rcases List.mem_append.mp hmem with hmem | hmem
        · exact hline hmem
        · exact hc (List.mem_singleton.mp hmem).symm
  exact hfrom s [] (fun hmem => (nomatch hmem)) v h

theorem mem_of_mem_trim {c : Char} (h : c ∈ trim s) : c ∈ s :=
  (List.dropWhile_suffix _).subset ((List.rdropWhile_prefix _ _).subset h)

/-- A text without a byte-order mark at its beginning. -/
def noBom (s : Text) : Prop := s.head? ≠ some byteOrderMark

instance (s : Text) : Decidable (noBom s) :=
  inferInstanceAs (Decidable (s.head? ≠ some byteOrderMark))

theorem stripBom_of_noBom (h : noBom s) : stripBom s = s := by
  cases s with
  | nil => rfl
  | cons c cs =>
    have hc : c ≠ byteOrderMark := fun heq => h (by rw [heq]; rfl)
    exact if_neg hc

end BasisRust.Library
