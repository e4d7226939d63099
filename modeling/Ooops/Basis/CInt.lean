import Mathlib.Data.Int.Init
import Mathlib.Tactic.NormNum

/-!
# Machine Integers

The `int` of the source is 32 bits wide, its `long` 64 bits, both wrap around in two's
complement, and its `unsigned long` arithmetic is modulo `2 ^ 64`. Values are integers, with the
wrapping written where it can matter. Where a result that does not fit is an error, `mulInt32` and
`divInt32` have none.
-/

namespace Basis

/-- The value of an `int` after a result of `x`. -/
def wrapInt32 (x : ℤ) : ℤ := x.bmod (2 ^ 32)

/-- The value of a `long` after a result of `x`. -/
def wrapInt64 (x : ℤ) : ℤ := x.bmod (2 ^ 64)

/-- The difference of two `uint64_t`. -/
def subUInt64 (a b : ℕ) : ℕ := (a + (2 ^ 64 - b % 2 ^ 64)) % 2 ^ 64

/-- A product of two values of `int`, if it is one. -/
def mulInt32 (a b : ℤ) : Option ℤ := if -2 ^ 31 ≤ a * b ∧ a * b < 2 ^ 31 then some (a * b) else none

/-- A quotient of two values of `int`, rounded towards zero, if there is one and it is an `int`. -/
def divInt32 (a b : ℤ) : Option ℤ :=
  if b ≠ 0 ∧ a.tdiv b < 2 ^ 31 then some (a.tdiv b) else none

/-- In its range an `int` holds the exact result. -/
theorem wrapInt32_eq_self {x : ℤ} (h₁ : -2 ^ 31 ≤ x) (h₂ : x < 2 ^ 31) : wrapInt32 x = x := by
  rw [wrapInt32]
  rw [Int.bmod_eq_of_le] <;> omega

/-- Counting in wrapped steps is wrapping the count. -/
theorem wrapInt32_add_one (x : ℤ) : wrapInt32 (wrapInt32 x + 1) = wrapInt32 (x + 1) :=
  Int.bmod_add_bmod

/-- Only the value modulo `2 ^ 32` counts. -/
theorem wrapInt32_emod (x : ℤ) : wrapInt32 (x % 2 ^ 32) = wrapInt32 x :=
  Int.emod_bmod x (2 ^ 32)

theorem emod_wrapInt32 (x : ℤ) : wrapInt32 x % 2 ^ 32 = x % 2 ^ 32 :=
  Int.bmod_emod

/-- Adding to a wrapped value is wrapping the sum. -/
theorem wrapInt32_add (x y : ℤ) : wrapInt32 (wrapInt32 x + y) = wrapInt32 (x + y) :=
  Int.bmod_add_bmod

/-- The range of an `int`. -/
theorem wrapInt32_bounds (x : ℤ) : -2 ^ 31 ≤ wrapInt32 x ∧ wrapInt32 x < 2 ^ 31 := by
  have hlt := Int.bmod_lt (x := x) (m := 2 ^ 32) (by norm_num)
  have hge := Int.le_bmod (x := x) (m := 2 ^ 32) (by norm_num)
  rw [wrapInt32]
  norm_num at hlt hge ⊢
  omega

/-- The range of a `long`. -/
theorem wrapInt64_bounds (x : ℤ) : -2 ^ 63 ≤ wrapInt64 x ∧ wrapInt64 x < 2 ^ 63 := by
  have hlt := Int.bmod_lt (x := x) (m := 2 ^ 64) (by norm_num)
  have hge := Int.le_bmod (x := x) (m := 2 ^ 64) (by norm_num)
  rw [wrapInt64]
  norm_num at hlt hge ⊢
  omega

/-- An `int` holds a count exactly if the count is below `2 ^ 31`. -/
theorem wrapInt32_natCast_eq_iff (n : ℕ) : wrapInt32 n = n ↔ n < 2 ^ 31 := by
  refine ⟨fun h => ?_, fun h => wrapInt32_eq_self (by omega) (by omega)⟩
  have hlt := (wrapInt32_bounds n).2
  omega

/-- Wrapping does not change the remainder modulo a divisor of `2 ^ 32`. -/
theorem wrapInt32_emod_512 (x : ℤ) : wrapInt32 x % 512 = x % 512 := by
  have h : (4294967296 : ℤ) ∣ x - wrapInt32 x := by
    have := Int.dvd_self_sub_bmod (x := x) (m := 2 ^ 32)
    simpa [wrapInt32] using this
  omega

end Basis
