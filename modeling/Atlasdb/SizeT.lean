/-
# Arithmetic of an unsigned machine size

A machine size is a natural number below `modulus`; sums, differences and
conversions from signed integers wrap around.  The lemmas say when they do not.
-/
import Mathlib

namespace SizeT

/-- The number of values of a 64-bit size. -/
def modulus : ℕ := 2 ^ 64

/-- Addition of sizes. -/
def add (a b : ℕ) : ℕ := (a + b) % modulus

/-- Subtraction of sizes: a negative difference wraps around. -/
def sub (a b : ℕ) : ℕ := (a + (modulus - b % modulus)) % modulus

/-- A signed integer converted to a size: negative values wrap around. -/
def ofInt (i : ℤ) : ℕ := (i % modulus).toNat

/-- The 32-bit integer that the low bits of a size make. -/
def toInt (a : ℕ) : ℤ := Int.bmod a (2 ^ 32)

/-- A sum that is itself a size does not wrap. -/
theorem add_of_lt {a b : ℕ} (h : a + b < modulus) : add a b = a + b := Nat.mod_eq_of_lt h

/-- A difference that is not negative does not wrap. -/
theorem sub_of_le {a b : ℕ} (ha : a < modulus) (h : b ≤ a) : sub a b = a - b := by
  have hb : b % modulus = b := Nat.mod_eq_of_lt (by omega)
  unfold sub
  rw [hb, show a + (modulus - b) = a - b + modulus by omega, Nat.add_mod_right]
  exact Nat.mod_eq_of_lt (by omega)

/-- A negative difference of sizes wraps around. -/
theorem sub_of_lt {a b : ℕ} (h : a < b) (hb : b < modulus) : sub a b = a + modulus - b := by
  unfold sub
  rw [Nat.mod_eq_of_lt hb, Nat.mod_eq_of_lt (by omega)]
  omega

/-- A natural number that is a size is converted to itself. -/
theorem ofInt_natCast {a : ℕ} (h : a < modulus) : ofInt a = a := by
  have hmod : a % modulus = a := Nat.mod_eq_of_lt h
  unfold ofInt
  rw [← Int.natCast_emod, Int.toNat_natCast, hmod]

/-- An integer is converted to a size up to `n` only if it is itself between 0 and `n`. -/
theorem ofInt_le_iff {i : ℤ} {n : ℕ} (h : i.natAbs + n < modulus) :
    ofInt i ≤ n ↔ 0 ≤ i ∧ i ≤ n := by
  unfold ofInt
  unfold modulus at h ⊢
  omega

/-- A small size is read as the same integer. -/
theorem toInt_of_lt {a : ℕ} (h : a < 2 ^ 31) : toInt a = a := by
  apply Int.bmod_eq_of_le
  · omega
  · omega

end SizeT
