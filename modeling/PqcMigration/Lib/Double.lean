/-
# PqcMigration.Lib.Double — the rounding of double-precision arithmetic.

The result of an operation is the exact rational, rounded to 53 bits, to the nearest and to the even one of
two. Exponents have no bounds here: numbers that overflow or are subnormal are left out, and so is the sign
of zero. What proofs need is the relative error of one rounding (`abs_round_sub_le`).
-/
import Mathlib.Data.Int.Log
import Mathlib.Data.Rat.Floor
import Mathlib.Tactic.Linarith

namespace PqcMigration.Lib.Double

/-- The nearest whole number, and the even one of two. -/
def nearest (y : ℚ) : ℤ :=
  if Int.fract y < 1 / 2 ∨ (Int.fract y = 1 / 2 ∧ ⌊y⌋ % 2 = 0) then ⌊y⌋ else ⌊y⌋ + 1

/-- The unit in the last place of the numbers around `x`. -/
def ulp (x : ℚ) : ℚ := 2 ^ (Int.log 2 |x| - 52)

def round (x : ℚ) : ℚ := nearest (x / ulp x) * ulp x

theorem abs_nearest_sub_le (y : ℚ) : |(nearest y : ℚ) - y| ≤ 1 / 2 := by
  have hfract := Int.self_sub_floor y
  have hnonneg := Int.fract_nonneg y
  have hlt := Int.fract_lt_one y
  unfold nearest
  split
  · next hdown =>
      have hhalf : Int.fract y ≤ 1 / 2 := hdown.elim le_of_lt (fun h => h.1.le)
      rw [abs_le]
      constructor <;> linarith
  · next hup =>
      have hhalf : 1 / 2 ≤ Int.fract y := le_of_not_gt (not_or.mp hup).1
      rw [abs_le]
      push_cast
      constructor <;> linarith

theorem ulp_pos (x : ℚ) : 0 < ulp x := zpow_pos (by norm_num) _

theorem ulp_le {x : ℚ} (hx : x ≠ 0) : ulp x ≤ |x| / 2 ^ 52 := by
  have hlog : (2 : ℚ) ^ Int.log 2 |x| ≤ |x| := Int.zpow_log_le_self (by norm_num) (abs_pos.mpr hx)
  rw [ulp, zpow_sub₀ (by norm_num)]
  exact div_le_div_of_nonneg_right hlog (by norm_num)

/-- **The relative error of one rounding.** -/
theorem abs_round_sub_le (x : ℚ) : |round x - x| ≤ |x| / 2 ^ 53 := by
  rcases eq_or_ne x 0 with rfl | hx
  · have hzero : round 0 = 0 := by decide +kernel
    rw [hzero, sub_zero, abs_zero, zero_div]
  · have hpos := ulp_pos x
    have hscaled : round x - x = (nearest (x / ulp x) - x / ulp x) * ulp x := by
      rw [sub_mul, div_mul_cancel₀ x hpos.ne', round]
    calc |round x - x| = |(nearest (x / ulp x) : ℚ) - x / ulp x| * ulp x := by
          rw [hscaled, abs_mul, abs_of_pos hpos]
      _ ≤ 1 / 2 * ulp x := mul_le_mul_of_nonneg_right (abs_nearest_sub_le _) hpos.le
      _ ≤ 1 / 2 * (|x| / 2 ^ 52) := mul_le_mul_of_nonneg_left (ulp_le hx) (by norm_num)
      _ = |x| / 2 ^ 53 := by ring

theorem round_le {x y : ℚ} (hxy : x ≤ y) (hy : 0 ≤ y) : round x ≤ y * (1 + 1 / 2 ^ 53) := by
  have herror := (abs_le.mp (abs_round_sub_le x)).2
  rcases le_total 0 x with hx | hx
  · rw [abs_of_nonneg hx] at herror
    linarith
  · rw [abs_of_nonpos hx] at herror
    linarith

end PqcMigration.Lib.Double
