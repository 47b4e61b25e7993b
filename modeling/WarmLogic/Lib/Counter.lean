/-
# WarmLogic.Lib.Counter — 64-bit counters and sums that wrap.

A counter in a program is increased by `+ 1` on a machine word; every order fact about it has the one exception of the
last value, after which it is zero again. The lemmas state that exception as `r + 1 ≠ 0`, the form in which a guard or
a case split meets it.
-/
import Mathlib.Data.UInt

namespace WarmLogic.Lib

/-- Counting up is by one, unless the counter wraps. -/
theorem toNat_add_one {r : UInt64} (h : r + 1 ≠ 0) : (r + 1).toNat = r.toNat + 1 := by
  rw [Ne, ← UInt64.toNat_inj] at h
  have := r.toNat_lt
  rw [UInt64.toNat_add] at h ⊢
  simp only [UInt64.toNat_one, UInt64.toNat_zero] at h ⊢
  omega

/-- A counter that is counted up stays above where it was, unless it wraps. -/
theorem lt_add_one_iff (r : UInt64) : r < r + 1 ↔ r + 1 ≠ 0 := by
  constructor
  · intro hlt hzero
    rw [hzero] at hlt
    exact Nat.not_lt_zero _ (UInt64.lt_iff_toNat_lt.mp hlt)
  · intro h
    rw [UInt64.lt_iff_toNat_lt, toNat_add_one h]
    exact Nat.lt_succ_self _

/-- So it does not fall exactly if it does not wrap. -/
theorem le_add_one_iff (r : UInt64) : r ≤ r + 1 ↔ r + 1 ≠ 0 := by
  constructor
  · intro hle hzero
    rw [hzero, UInt64.le_zero_iff] at hle
    rw [hle] at hzero
    exact absurd hzero (by decide)
  · intro h
    exact UInt64.le_of_lt ((lt_add_one_iff r).mpr h)

theorem add_one_le_iff {r n : UInt64} (h : r + 1 ≠ 0) : r + 1 ≤ n ↔ r < n := by
  rw [UInt64.le_iff_toNat_le, UInt64.lt_iff_toNat_lt, toNat_add_one h]
  exact Nat.succ_le_iff

/-- The value before the wrap is the last one. -/
theorem le_of_add_one_eq_zero {r : UInt64} (h : r + 1 = 0) (x : UInt64) : x ≤ r := by
  have hwrap := congrArg UInt64.toNat h
  rw [UInt64.toNat_add] at hwrap
  simp only [UInt64.toNat_one, UInt64.toNat_zero] at hwrap
  have := r.toNat_lt
  have := x.toNat_lt
  exact UInt64.le_iff_toNat_le.mpr (by omega)

/-- A sum of words loses 2^64 when it wraps. -/
theorem toNat_add_eq (x y : UInt64) :
    ((x + y).toNat : ℤ) = x.toNat + y.toNat - 2 ^ 64 * (if 2 ^ 64 ≤ x.toNat + y.toNat then 1 else 0) := by
  have hx := x.toNat_lt
  have hy := y.toNat_lt
  rw [UInt64.toNat_add]
  split <;> omega

end WarmLogic.Lib
