import Mathlib.Data.Int.Log
import Mathlib.Data.Rat.Floor
import Mathlib.Tactic.FieldSimp
import Mathlib.Tactic.Linarith
import Mathlib.Tactic.NormNum
import Mathlib.Tactic.Positivity
import Mathlib.Tactic.Ring

/-!
# Double Precision

A result of floating point arithmetic is the nearest number with 53 significant bits, ties
going to the even one. `roundDouble` rounds a rational number so, in the range of normal
numbers. `printf` rounds to a number of decimals by the same rule.

* `abs_roundDouble_sub_le`: the relative error of a rounding.
* `abs_roundDouble_sub_le_of`: a rounding of what is inexact already.
-/

namespace Basis

/-- The nearest integer, the even one of two. -/
def roundHalfEven (x : ℚ) : ℤ :=
  if x - ⌊x⌋ < 1 / 2 then ⌊x⌋
  else if 1 / 2 < x - ⌊x⌋ then ⌊x⌋ + 1
  else if ⌊x⌋ % 2 = 0 then ⌊x⌋
  else ⌊x⌋ + 1

/-- The distance of the doubles around `x`. -/
def ulp (x : ℚ) : ℚ := 2 ^ (Int.log 2 |x| - 52)

/-- The nearest double. -/
def roundDouble (x : ℚ) : ℚ := roundHalfEven (x / ulp x) * ulp x

theorem abs_roundHalfEven_sub_le (x : ℚ) : |(roundHalfEven x : ℚ) - x| ≤ 1 / 2 := by
  have h₀ := Int.floor_le x
  have h₁ := Int.lt_floor_add_one x
  rw [roundHalfEven, abs_le]
  split_ifs <;> push_cast <;> constructor <;> linarith

/-- An integer less than a half away is the nearest one. -/
theorem roundHalfEven_eq {x : ℚ} {n : ℤ} (h : |x - n| < 1 / 2) : roundHalfEven x = n := by
  have hx := abs_roundHalfEven_sub_le x
  rw [abs_le] at hx
  rw [abs_lt] at h
  have hlt : (roundHalfEven x : ℚ) < n + 1 := by linarith
  have hgt : (n : ℚ) < roundHalfEven x + 1 := by linarith
  have hlt' : roundHalfEven x < n + 1 := by exact_mod_cast hlt
  have hgt' : n < roundHalfEven x + 1 := by exact_mod_cast hgt
  omega

@[simp] theorem roundHalfEven_intCast (n : ℤ) : roundHalfEven n = n :=
  roundHalfEven_eq (by norm_num)

/-- The integer below or the one above. -/
theorem roundHalfEven_bounds (x : ℚ) : ⌊x⌋ ≤ roundHalfEven x ∧ roundHalfEven x ≤ ⌊x⌋ + 1 := by
  rw [roundHalfEven]
  split_ifs <;> omega

/-- Rounding keeps the order. -/
theorem roundHalfEven_mono {x y : ℚ} (h : x ≤ y) : roundHalfEven x ≤ roundHalfEven y := by
  have hfloor : ⌊x⌋ ≤ ⌊y⌋ := Int.floor_le_floor h
  rcases hfloor.lt_or_eq with hlt | heq
  · have hx := (roundHalfEven_bounds x).2
    have hy := (roundHalfEven_bounds y).1
    omega
  · rw [roundHalfEven, roundHalfEven, ← heq]
    split_ifs <;> first | omega | (exfalso; linarith)

/-- What is beyond the middle below an integer is rounded to it, or to a greater one. -/
theorem le_roundHalfEven {x : ℚ} {n : ℤ} (h : n - 1 / 2 < x) : n ≤ roundHalfEven x := by
  have hx := (abs_le.mp (abs_roundHalfEven_sub_le x)).1
  have hlt : (n : ℚ) < roundHalfEven x + 1 := by linarith
  have hlt' : n < roundHalfEven x + 1 := by exact_mod_cast hlt
  omega

/-- The middle below an odd integer is rounded down. -/
theorem roundHalfEven_middle {n : ℤ} (hodd : n % 2 = 1) :
    roundHalfEven ((n : ℚ) - 1 / 2) = n - 1 := by
  have hfloor : ⌊(n : ℚ) - 1 / 2⌋ = n - 1 := by
    rw [Int.floor_eq_iff]
    push_cast
    constructor <;> linarith
  rw [roundHalfEven, hfloor, if_neg (by push_cast; linarith), if_neg (by push_cast; linarith),
    if_pos (by omega)]

theorem ulp_pos (x : ℚ) : 0 < ulp x := zpow_pos (by norm_num) _

/-- A number has 53 bits above its last place. -/
theorem ulp_le {x : ℚ} (hx : x ≠ 0) : ulp x ≤ |x| / 2 ^ 52 := by
  have hlog := Int.zpow_log_le_self (b := 2) (by norm_num) (abs_pos.mpr hx)
  rw [ulp, zpow_sub₀ (by norm_num)]
  exact div_le_div_of_nonneg_right (by exact_mod_cast hlog) (by norm_num)

/-- The relative error of a rounding. -/
theorem abs_roundDouble_sub_le (x : ℚ) : |roundDouble x - x| ≤ |x| / 2 ^ 53 := by
  by_cases hx : x = 0
  · subst hx
    simp [roundDouble, roundHalfEven]
  · have hpos := ulp_pos x
    have hround := abs_roundHalfEven_sub_le (x / ulp x)
    have hfactor : roundDouble x - x = (roundHalfEven (x / ulp x) - x / ulp x) * ulp x := by
      rw [roundDouble]
      field_simp
    calc |roundDouble x - x| = |(roundHalfEven (x / ulp x) : ℚ) - x / ulp x| * ulp x := by
          rw [hfactor, abs_mul, abs_of_pos hpos]
      _ ≤ 1 / 2 * ulp x := by gcongr
      _ ≤ 1 / 2 * (|x| / 2 ^ 52) := by
          have hle := ulp_le hx
          gcongr
      _ = |x| / 2 ^ 53 := by ring

/-- A rounding at most doubles. -/
theorem abs_roundDouble_le (x : ℚ) : |roundDouble x| ≤ 2 * |x| := by
  have hround := abs_roundDouble_sub_le x
  have habs := abs_sub_abs_le_abs_sub (roundDouble x) x
  have hdiv : |x| / 2 ^ 53 ≤ |x| := div_le_self (abs_nonneg x) (by norm_num)
  linarith

/-- The error of a rounding whose operand is off by up to `e`. -/
theorem abs_roundDouble_sub_le_of {x y e : ℚ} (h : |x - y| ≤ e) :
    |roundDouble x - y| ≤ e + (|y| + e) / 2 ^ 53 := by
  have hround := abs_roundDouble_sub_le x
  have htri : |roundDouble x - y| ≤ |roundDouble x - x| + |x - y| := abs_sub_le ..
  have hx : |x| ≤ |y| + e := by
    have habs := abs_sub_abs_le_abs_sub x y
    linarith
  have hdiv : |x| / 2 ^ 53 ≤ (|y| + e) / 2 ^ 53 := by gcongr
  linarith

end Basis
