import BasisRust.Library.Bytes
import Mathlib.Data.Nat.Notation

/-!
# UTF-8 strings

A string is its bytes, and the bytes are well formed.  The machine reads one byte after the other
and remembers what the character still owes: how many bytes, and the range the next one must be in.
-/

namespace BasisRust.Library

/-- What the character that has begun still owes. -/
structure Owed where
  count : ℕ
  low : ℕ
  high : ℕ
  deriving DecidableEq

namespace Owed

/-- Between characters. -/
def start : Owed := ⟨0, 0x80, 0xbf⟩

/-- The first byte of a character. -/
def lead (b : Byte) : Option Owed :=
  let n := b.toNat
  if n < 0x80 then some start
  else if 0xc2 ≤ n ∧ n ≤ 0xdf then some ⟨1, 0x80, 0xbf⟩
  else if n = 0xe0 then some ⟨2, 0xa0, 0xbf⟩
  else if n = 0xed then some ⟨2, 0x80, 0x9f⟩
  else if 0xe1 ≤ n ∧ n ≤ 0xef then some ⟨2, 0x80, 0xbf⟩
  else if n = 0xf0 then some ⟨3, 0x90, 0xbf⟩
  else if 0xf1 ≤ n ∧ n ≤ 0xf3 then some ⟨3, 0x80, 0xbf⟩
  else if n = 0xf4 then some ⟨3, 0x80, 0x8f⟩
  else none

/-- The next byte, which begins a character or continues one. -/
def next (o : Owed) (b : Byte) : Option Owed :=
  if o.count = 0 then lead b
  else if o.low ≤ b.toNat ∧ b.toNat ≤ o.high then some ⟨o.count - 1, 0x80, 0xbf⟩
  else none

def run (o : Owed) (bytes : Bytes) : Option Owed := bytes.foldlM next o

theorem run_cons (o : Owed) (b : Byte) (bytes : Bytes) :
    o.run (b :: bytes) = (o.next b).bind fun o' => o'.run bytes :=
  List.foldlM_cons

theorem run_append (o : Owed) (bytes bytes' : Bytes) :
    o.run (bytes ++ bytes') = (o.run bytes).bind fun o' => o'.run bytes' :=
  List.foldlM_append

theorem next_start (b : Byte) : start.next b = lead b := rfl

theorem lead_ascii {b : Byte} (h : b.toNat < 0x80) : lead b = some start := if_pos h

theorem run_ascii {bytes : Bytes} (h : ∀ b ∈ bytes, b.toNat < 0x80) :
    start.run bytes = some start := by
  induction bytes with
  | nil => rfl
  | cons b bytes ih =>
    rw [run_cons, next_start, lead_ascii (h b (.head _))]
    exact ih fun c hc => h c (.tail _ hc)

end Owed

/-- A string. -/
structure Str where
  bytes : Bytes
  valid : Owed.start.run bytes = some .start
  deriving DecidableEq

namespace Str

theorem ext {s t : Str} (h : s.bytes = t.bytes) : s = t := by
  cases s
  cases t
  cases h
  rfl

def empty : Str := ⟨[], rfl⟩

end Str

/-- A text of ASCII characters. -/
structure Ascii where
  bytes : Bytes
  ascii : ∀ b ∈ bytes, b.toNat < 0x80

namespace Ascii

def toStr (a : Ascii) : Str := ⟨a.bytes, Owed.run_ascii a.ascii⟩

def upperByte (b : Byte) : Byte := if 0x61 ≤ b.toNat ∧ b.toNat ≤ 0x7a then b - 0x20#8 else b

theorem upperByte_ascii : ∀ b : Byte, b.toNat < 0x80 → (upperByte b).toNat < 0x80 := by
  decide

def toUppercase (a : Ascii) : Ascii :=
  ⟨a.bytes.map upperByte, by
    intro c hc
    obtain ⟨b, hb, rfl⟩ := List.mem_map.mp hc
    exact upperByte_ascii b (a.ascii b hb)⟩

end Ascii

/-- The string with these bytes, if they are well formed. -/
def fromUtf8 (bytes : Bytes) : Option Str :=
  if h : Owed.start.run bytes = some .start then some ⟨bytes, h⟩ else none

theorem fromUtf8_bytes (s : Str) : fromUtf8 s.bytes = some s := dif_pos s.valid

/-! ### Replacing what is ill formed -/

/-- U+FFFD. -/
def replacement : Bytes := [0xef#8, 0xbf#8, 0xbd#8]

/-- The text from here on; `pending` are the bytes of the character that has begun. -/
def lossyFrom : Bytes → Owed → Bytes → Bytes
  | _, o, [] => if o.count = 0 then [] else replacement
  | pending, o, b :: rest =>
    match o.next b with
    | some o' =>
      if o'.count = 0 then pending ++ b :: lossyFrom [] .start rest
      else lossyFrom (pending ++ [b]) o' rest
    | none =>
      if o.count = 0 then replacement ++ lossyFrom [] .start rest
      else
        -- the character that has begun is given up, and this byte begins anew
        match Owed.lead b with
        | none => replacement ++ replacement ++ lossyFrom [] .start rest
        | some o' =>
          if o'.count = 0 then replacement ++ b :: lossyFrom [] .start rest
          else replacement ++ lossyFrom [b] o' rest

/-- The states in which no byte is owed are the same state. -/
theorem Owed.eq_start_of_next {o o' : Owed} {b : Byte} (h : o.next b = some o')
    (hzero : o'.count = 0) :
    o' = .start := by
  unfold Owed.next Owed.lead at h
  dsimp only at h
  split at h
  · split at h
    · exact (Option.some.inj h).symm
    repeat (split at h; · cases h; exact absurd hzero (by decide))
    cases h
  · split at h
    · cases h
      rw [Owed.start, Owed.mk.injEq]
      exact ⟨hzero, rfl, rfl⟩
    · cases h

/-- Well-formed bytes stay as they are. -/
theorem lossyFrom_of_valid {pending bytes : Bytes} {o : Owed} (hstart : o.count = 0 → pending = [])
    (h : o.run bytes = some .start) : lossyFrom pending o bytes = pending ++ bytes := by
  induction bytes generalizing pending o with
  | nil =>
    have ho : o = .start := Option.some.inj h
    have hzero : o.count = 0 := by rw [ho]; rfl
    rw [lossyFrom, if_pos hzero, hstart hzero]
    rfl
  | cons b rest ih =>
    rw [Owed.run_cons] at h
    rw [lossyFrom]
    cases hnext : o.next b with
    | none =>
      rw [hnext] at h
      cases h
    | some o' =>
      rw [hnext] at h
      dsimp only
      by_cases hzero : o'.count = 0
      · have ho' := Owed.eq_start_of_next hnext hzero
        rw [if_pos hzero, @ih [] .start (fun _ => rfl) (by rwa [ho'] at h)]
        rfl
      · rw [if_neg hzero, ih (fun hz => absurd hz hzero) h, List.append_assoc]
        rfl

theorem run_replacement_append (bytes : Bytes) :
    Owed.start.run (replacement ++ bytes) = Owed.start.run bytes := by
  rw [Owed.run_append]
  rfl

/-- **What comes out is well formed.** -/
theorem lossyFrom_valid {pending bytes : Bytes} {o : Owed} (h : Owed.start.run pending = some o)
    (hstart : o.count = 0 → pending = []) :
    Owed.start.run (lossyFrom pending o bytes) = some .start := by
  induction bytes generalizing pending o with
  | nil =>
    rw [lossyFrom]
    split <;> rfl
  | cons b rest ih =>
    have hfresh := @ih [] .start rfl fun _ => rfl
    rw [lossyFrom]
    cases hnext : o.next b with
    | some o' =>
      dsimp only
      by_cases hzero : o'.count = 0
      · rw [if_pos hzero, Owed.run_append, h]
        show o.run (b :: lossyFrom [] .start rest) = _
        rw [Owed.run_cons, hnext, Owed.eq_start_of_next hnext hzero]
        exact hfresh
      · rw [if_neg hzero]
        refine ih ?_ fun hz => absurd hz hzero
        rw [Owed.run_append, h]
        show o.run [b] = _
        rw [Owed.run_cons, hnext]
        rfl
    | none =>
      dsimp only
      by_cases hzero : o.count = 0
      · rw [if_pos hzero, run_replacement_append]
        exact hfresh
      rw [if_neg hzero]
      cases hlead : Owed.lead b with
      | none =>
        dsimp only
        rw [List.append_assoc, run_replacement_append, run_replacement_append]
        exact hfresh
      | some o' =>
        dsimp only
        by_cases hzero' : o'.count = 0
        · rw [if_pos hzero', run_replacement_append, Owed.run_cons, Owed.next_start, hlead,
            Owed.eq_start_of_next (o := .start) hlead hzero']
          exact hfresh
        · rw [if_neg hzero', run_replacement_append]
          refine ih ?_ fun hz => absurd hz hzero'
          rw [Owed.run_cons, Owed.next_start, hlead]
          rfl

/-- The string of any bytes. -/
def fromUtf8Lossy (bytes : Bytes) : Str :=
  ⟨lossyFrom [] .start bytes, lossyFrom_valid rfl fun _ => rfl⟩

theorem fromUtf8Lossy_of_valid {bytes : Bytes} (h : Owed.start.run bytes = some .start) :
    (fromUtf8Lossy bytes).bytes = bytes :=
  lossyFrom_of_valid (fun _ => rfl) h

end BasisRust.Library
