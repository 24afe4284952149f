import Mathlib.Data.Int.Log
import Mathlib.Data.Rat.Floor
import Mathlib.Tactic

/-!
Rounding to a binary floating-point format, its exponents not bounded.

* `nearestEven`, `nearestEven_error`: to the nearest integer, ties to the even one.
* `round`, `round_error`: to `p` significant bits, and how far that is off.
-/

namespace Rounding

/-- The nearest integer, the even one of two. -/
def nearestEven (x : ℚ) : ℤ :=
  if Int.fract x < 1 / 2 then ⌊x⌋
  else if 1 / 2 < Int.fract x then ⌊x⌋ + 1
  else if Even ⌊x⌋ then ⌊x⌋ else ⌊x⌋ + 1

/-- What one unit of the last of `p` bits is worth. -/
def ulp (p : ℕ) (x : ℚ) : ℚ := 2 ^ (Int.log 2 |x| + 1 - p)

/-- Rounding to `p` bits. -/
def round (p : ℕ) (x : ℚ) : ℚ := nearestEven (x / ulp p x) * ulp p x

lemma nearestEven_error (x : ℚ) : |(nearestEven x : ℚ) - x| ≤ 1 / 2 := by
  have hfract : x - Int.fract x = ⌊x⌋ := Int.self_sub_fract x
  have hnonneg := Int.fract_nonneg x
  have hlt := Int.fract_lt_one x
  rw [nearestEven, abs_le]
  split_ifs <;> push_cast <;> constructor <;> linarith

lemma ulp_pos (p : ℕ) (x : ℚ) : 0 < ulp p x := zpow_pos (by norm_num) _

/-- Below `2 ^ k` a unit is worth `2 ^ (k - p)` at most. -/
lemma ulp_le {p : ℕ} {x : ℚ} {k : ℤ} (hx : x ≠ 0) (h : |x| < 2 ^ k) : ulp p x ≤ 2 ^ (k - p) := by
  have hlog : Int.log 2 |x| < k :=
    (Int.lt_zpow_iff_log_lt (by norm_num) (abs_pos.mpr hx)).mp (by simpa using h)
  exact zpow_le_zpow_right₀ (by norm_num) (by omega)

/-- Rounding is off by half a unit at most. -/
theorem round_error {p : ℕ} {x : ℚ} {k : ℤ} (h : |x| < 2 ^ k) :
    |round p x - x| ≤ 2 ^ (k - p) / 2 := by
  by_cases hx : x = 0
  · have hzero : round p x = 0 := by
      rw [hx, round, zero_div]
      norm_num [nearestEven]
    rw [hzero, hx, sub_zero, abs_zero]
    positivity
  · have hpos := ulp_pos p x
    have hsplit : round p x - x = (nearestEven (x / ulp p x) - x / ulp p x) * ulp p x := by
      rw [round, sub_mul, div_mul_cancel₀ _ hpos.ne']
    calc |round p x - x| = |(nearestEven (x / ulp p x) : ℚ) - x / ulp p x| * ulp p x := by
          rw [hsplit, abs_mul, abs_of_pos hpos]
      _ ≤ 1 / 2 * ulp p x := mul_le_mul_of_nonneg_right (nearestEven_error _) hpos.le
      _ ≤ 1 / 2 * 2 ^ (k - p) := by gcongr; exact ulp_le hx h
      _ = 2 ^ (k - p) / 2 := by ring

end Rounding
