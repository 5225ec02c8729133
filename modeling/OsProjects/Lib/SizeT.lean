import Mathlib.Data.Int.Notation
import Mathlib.Tactic.NormNum
import Mathlib.Tactic.Common

/-! # Arithmetic of `size_t`

Sums and differences of 64-bit words.  A result that fits is the one over `ℕ` (`add64_eq`,
`sub64_eq`), and what fits an `int` is not changed by a conversion to it (`bmod_of_int`). -/

namespace OsProjects

/-- `size_t` addition -/
@[irreducible] def add64 (a b : ℕ) : ℕ := (a + b) % 2 ^ 64

/-- `size_t` subtraction -/
@[irreducible] def sub64 (a b : ℕ) : ℕ := (((a : ℤ) - b) % 2 ^ 64).toNat

theorem add64_cast (a b : ℕ) : (add64 a b : ℤ) = ((a : ℤ) + b) % 2 ^ 64 := by
  simp [add64]

theorem sub64_cast (a b : ℕ) : (sub64 a b : ℤ) = ((a : ℤ) - b) % 2 ^ 64 := by
  rw [sub64]
  exact Int.toNat_of_nonneg (Int.emod_nonneg _ (by norm_num))

theorem add64_eq {a b : ℕ} (h : a + b < 2 ^ 64) : add64 a b = a + b := by
  rw [add64]
  exact Nat.mod_eq_of_lt h

theorem sub64_eq {a b : ℕ} (h : b ≤ a) (ha : a < 2 ^ 64) : sub64 a b = a - b := by
  have := sub64_cast a b
  rw [Int.emod_eq_of_lt (by omega) (by omega)] at this
  omega

theorem bmod_of_int {x : ℤ} (h : -2 ^ 31 ≤ x) (h' : x < 2 ^ 31) : x.bmod (2 ^ 32) = x := by
  apply Int.bmod_eq_of_le
  · norm_num
    omega
  · norm_num
    omega

end OsProjects
