import Mathlib.Algebra.Ring.Nat
import Mathlib.Data.List.Basic

/-!
# Byte strings and little-endian numbers

Wire formats here are lists of bytes, and every multi-byte field is little-endian.  `leBytes n v`
writes the low `n` bytes of `v`, `leNat` reads a byte string as a number, and `leNat_leBytes` is the
round trip.  `slice` is the sub-string at an offset.
-/

namespace BasisRust.Library

abbrev Byte := BitVec 8

abbrev Bytes := List Byte

/-- The number a little-endian byte string stands for. -/
def leNat : Bytes → ℕ
  | [] => 0
  | b :: bs => b.toNat + 256 * leNat bs

/-- The low `n` bytes of `v`, least significant first. -/
def leBytes : ℕ → ℕ → Bytes
  | 0, _ => []
  | n + 1, v => BitVec.ofNat 8 v :: leBytes n (v / 256)

/-- The `n` bytes at offset `i`. -/
def slice (bs : Bytes) (i n : ℕ) : Bytes := (bs.drop i).take n

@[simp] theorem leBytes_length (n v : ℕ) : (leBytes n v).length = n := by
  induction n generalizing v with
  | zero => rfl
  | succ n ih => simp [leBytes, ih]

theorem leNat_lt (bs : Bytes) : leNat bs < 256 ^ bs.length := by
  induction bs with
  | nil => simp [leNat]
  | cons b bs ih =>
    have hb : b.toNat < 256 := b.isLt
    simp only [leNat, List.length_cons, Nat.pow_succ]
    omega

/-- **Round trip**, for numbers that fit. -/
theorem leNat_leBytes (n v : ℕ) (h : v < 256 ^ n) : leNat (leBytes n v) = v := by
  induction n generalizing v with
  | zero =>
    simp only [Nat.pow_zero] at h
    simp [leBytes, leNat]
    omega
  | succ n ih =>
    have hdiv : v / 256 < 256 ^ n := by
      rw [Nat.pow_succ] at h
      exact Nat.div_lt_of_lt_mul (by omega)
    simp only [leBytes, leNat, ih _ hdiv, BitVec.toNat_ofNat]
    omega

/-- The two-byte case in the form the packet headers use. -/
theorem leNat_leBytes_two (v : ℕ) (h : v < 65536) : leNat (leBytes 2 v) = v :=
  leNat_leBytes 2 v (by simpa using h)

theorem slice_length (bs : Bytes) (i n : ℕ) (h : i + n ≤ bs.length) :
    (slice bs i n).length = n := by
  simp [slice]
  omega

end BasisRust.Library
