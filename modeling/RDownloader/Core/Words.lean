import Mathlib.Algebra.Group.Int.Defs
import Mathlib.Algebra.GroupWithZero.Nat

/-!
# Machine words

The bounds of the fixed-width integers the program computes with. Values are natural numbers;
where the program saturates or refuses a value, the model does so at these bounds.
-/

namespace RDownloader

/-- `u32::MAX`. -/
def u32Max : Nat := 2 ^ 32 - 1

/-- `u64::MAX`. -/
def u64Max : Nat := 2 ^ 64 - 1

/-- `i64::MAX`, the largest value an SQLite integer column holds. -/
def i64Max : Nat := 2 ^ 63 - 1

/-- `u64::saturating_add`. -/
def saturatingAdd (a b : Nat) : Nat := min (a + b) u64Max

/-- `u64::saturating_mul`. -/
def saturatingMul (a b : Nat) : Nat := min (a * b) u64Max

/-- `div_ceil`. -/
def divCeil (a b : Nat) : Nat := (a + b - 1) / b

theorem i64Max_le_u64Max : i64Max ≤ u64Max := by decide

/-- Clipped to a signed column, a saturated sum is the sum. -/
theorem min_saturatingAdd (a b : Nat) : min (saturatingAdd a b) i64Max = min (a + b) i64Max := by
  rw [saturatingAdd, Nat.min_assoc, Nat.min_eq_right i64Max_le_u64Max]

theorem divCeil_le_iff (hpos : 0 < b) : divCeil a b ≤ n ↔ a ≤ n * b := by
  rw [divCeil, ← Nat.lt_add_one_iff, Nat.div_lt_iff_lt_mul hpos, Nat.add_mul]
  omega

end RDownloader
