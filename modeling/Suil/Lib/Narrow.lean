import Mathlib.Data.Nat.Notation
import Mathlib.Data.Int.Notation
import Mathlib.Algebra.Ring.Nat
import Mathlib.Algebra.Ring.Int.Defs

/-! Numbers as the machine integers of C keep them. -/
namespace Narrow

/-- A number that is kept in an `int`. -/
def int (x : ℤ) : ℤ := x.bmod (2 ^ 32)

/-- A number that is kept in a `size_t`. -/
def size_t (x : ℤ) : ℕ := (x % 2 ^ 64).toNat

variable {x : ℤ}

theorem int_eq_emod (x : ℤ) :
    int x = if x % 2 ^ 32 < 2 ^ 31 then x % 2 ^ 32 else x % 2 ^ 32 - 2 ^ 32 := rfl

theorem int_bounds (x : ℤ) : -2 ^ 31 ≤ int x ∧ int x < 2 ^ 31 := by
  rw [int_eq_emod]
  split_ifs <;> omega

theorem int_of_fits (hlo : -2 ^ 31 ≤ x) (hhi : x < 2 ^ 31) : int x = x := by
  rw [int_eq_emod]
  split_ifs <;> omega

theorem int_eq_self_iff : int x = x ↔ -2 ^ 31 ≤ x ∧ x < 2 ^ 31 :=
  ⟨fun h => h ▸ int_bounds x, fun h => int_of_fits h.1 h.2⟩

theorem int_natCast_eq_iff {n : ℕ} : int n = n ↔ n < 2 ^ 31 := by
  rw [int_eq_self_iff]
  omega

theorem int_le (h : 0 ≤ x) : int x ≤ x := by
  rw [int_eq_emod]
  split_ifs <;> omega

theorem toNat_int_le (n : ℕ) : (int n).toNat ≤ n := by
  have hle := int_le (Int.natCast_nonneg n)
  omega

/-- A number is narrowed to one that is neither negative nor greater. -/
theorem int_between_iff (h : 0 < x) : 0 ≤ int x ∧ int x ≤ x ↔ x % 2 ^ 32 < 2 ^ 31 := by
  rw [int_eq_emod]
  split_ifs with hlt
  · omega
  · omega

theorem size_t_of_fits (h : 0 ≤ x) (hlt : x < 2 ^ 64) : size_t x = x.toNat := by
  rw [size_t, Int.emod_eq_of_lt h hlt]

theorem size_t_of_neg (h : x < 0) (hle : -2 ^ 64 ≤ x) : size_t x = (x + 2 ^ 64).toNat := by
  have hmod : x % 2 ^ 64 = x + 2 ^ 64 := by omega
  rw [size_t, hmod]

end Narrow
