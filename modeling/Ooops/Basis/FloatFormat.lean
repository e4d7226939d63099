import Ooops.Basis.Double

/-!
# Floating Point Formats

A binary format has significands of a number of bits (`precision`), a least exponent of the
last place (`emin`), from which on numbers are subnormal, and an exponent that no number
reaches (`emax`). Arithmetic gives the number of the format nearest to the exact result, and
infinity where that number would be too large.

* `round_mono`: rounding keeps the order.
* `Inner.threshold_iff`: where a property of the result begins to hold.
* `holds_round`: a result that is not too large is a number of the format.
-/

namespace Basis

/-- A binary floating point format. -/
structure FloatFormat where
  precision : ℕ
  emin : ℤ
  emax : ℤ
  precision_pos : 0 < precision

/-- Single precision. -/
def binary32 : FloatFormat := ⟨24, -149, 128, by decide⟩

/-- Double precision. -/
def binary64 : FloatFormat := ⟨53, -1074, 1024, by decide⟩

namespace FloatFormat

variable {F : FloatFormat}

/-- The exponent of the last place of a number about as large as `x`. -/
def exponent (F : FloatFormat) (x : ℚ) : ℤ := max (Int.log 2 x + 1 - F.precision) F.emin

/-- The distance of the numbers around `x`. -/
def ulp (F : FloatFormat) (x : ℚ) : ℚ := 2 ^ F.exponent x

/-- The number nearest to a magnitude, the even one of two, with no bound on its size. -/
def round (F : FloatFormat) (x : ℚ) : ℚ := roundHalfEven (x / F.ulp x) * F.ulp x

/-- The number nearest to `x`. -/
def nearest (F : FloatFormat) (x : ℚ) : ℚ := if x < 0 then -F.round |x| else F.round |x|

/-- The magnitudes of the numbers of the format. -/
def Holds (F : FloatFormat) (x : ℚ) : Prop :=
  x < 2 ^ F.emax ∧ ∃ (n : ℕ) (e : ℤ), n < 2 ^ F.precision ∧ F.emin ≤ e ∧ x = n * 2 ^ e

theorem Holds.nonneg {x : ℚ} (h : F.Holds x) : 0 ≤ x := by
  obtain ⟨-, n, e, -, -, rfl⟩ := h
  exact mul_nonneg n.cast_nonneg (zpow_nonneg (by norm_num) e)

/-- Every number of a format is one of a larger format. -/
theorem Holds.widen {G : FloatFormat} {x : ℚ} (h : F.Holds x) (hp : F.precision ≤ G.precision)
    (hmin : G.emin ≤ F.emin) (hmax : F.emax ≤ G.emax) : G.Holds x := by
  obtain ⟨hlt, n, e, hn, he, hx⟩ := h
  refine ⟨hlt.trans_le (zpow_le_zpow_right₀ (by norm_num) hmax), n, e, ?_, hmin.trans he, hx⟩
  exact hn.trans_le (Nat.pow_le_pow_right (by norm_num) hp)

theorem ulp_pos (x : ℚ) : 0 < F.ulp x := zpow_pos (by norm_num) _

@[simp] theorem round_zero : F.round 0 = 0 := by
  rw [round, zero_div]
  norm_num [roundHalfEven]

theorem round_nonneg {x : ℚ} (hx : 0 ≤ x) : 0 ≤ F.round x := by
  have hquot : ((0 : ℤ) : ℚ) ≤ x / F.ulp x := by
    push_cast
    exact div_nonneg hx (ulp_pos x).le
  have hround := roundHalfEven_mono hquot
  rw [roundHalfEven_intCast] at hround
  have hround' : (0 : ℚ) ≤ roundHalfEven (x / F.ulp x) := by exact_mod_cast hround
  exact mul_nonneg hround' (ulp_pos x).le

/-- A power of two that the exponent of `x` does not pass is a whole number of last places. -/
theorem exists_zpow_eq_mul_ulp {x : ℚ} {j : ℤ} (h : F.exponent x ≤ j) :
    ∃ n : ℤ, (2 : ℚ) ^ j = n * F.ulp x := by
  refine ⟨2 ^ (j - F.exponent x).toNat, ?_⟩
  push_cast
  rw [ulp, ← zpow_natCast, Int.toNat_of_nonneg (by omega), ← zpow_add₀ (by norm_num)]
  congr 1
  ring

/-- What is below a whole number of last places is not rounded above it. -/
theorem round_le_mul {x : ℚ} {n : ℤ} (h : x ≤ n * F.ulp x) : F.round x ≤ n * F.ulp x := by
  have hquot : x / F.ulp x ≤ n := by
    rw [div_le_iff₀ (ulp_pos x)]
    exact h
  have hround := roundHalfEven_mono hquot
  rw [roundHalfEven_intCast] at hround
  have hround' : (roundHalfEven (x / F.ulp x) : ℚ) ≤ n := by exact_mod_cast hround
  exact mul_le_mul_of_nonneg_right hround' (ulp_pos x).le

/-- What is above a whole number of last places is not rounded below it. -/
theorem mul_le_round {x : ℚ} {n : ℤ} (h : n * F.ulp x ≤ x) : n * F.ulp x ≤ F.round x := by
  have hquot : (n : ℚ) ≤ x / F.ulp x := by
    rw [le_div_iff₀ (ulp_pos x)]
    exact h
  have hround := roundHalfEven_mono hquot
  rw [roundHalfEven_intCast] at hround
  have hround' : (n : ℚ) ≤ roundHalfEven (x / F.ulp x) := by exact_mod_cast hround
  exact mul_le_mul_of_nonneg_right hround' (ulp_pos x).le

/-- Below a power of two the result is not above it. -/
theorem round_le_zpow {x : ℚ} {j : ℤ} (hj : F.emin ≤ j) (hx : 0 ≤ x) (h : x < 2 ^ j) :
    F.round x ≤ 2 ^ j := by
  rcases hx.eq_or_lt with rfl | hpos
  · rw [round_zero]
    exact zpow_nonneg (by norm_num) j
  · have hlog := (Int.lt_zpow_iff_log_lt (b := 2) (by norm_num) hpos).mp (by exact_mod_cast h)
    have hp := F.precision_pos
    obtain ⟨n, hn⟩ := exists_zpow_eq_mul_ulp (F := F) (x := x) (j := j) (by
      rw [exponent]
      omega)
    rw [hn] at h ⊢
    exact round_le_mul h.le

/-- The result is not below the greatest power of two in `x`. -/
theorem zpow_log_le_round {x : ℚ} (hpos : 0 < x) (h : F.emin ≤ Int.log 2 x) :
    2 ^ Int.log 2 x ≤ F.round x := by
  have hlog : (2 : ℚ) ^ Int.log 2 x ≤ x := by
    exact_mod_cast Int.zpow_log_le_self (b := 2) (by norm_num) hpos
  have hp := F.precision_pos
  obtain ⟨n, hn⟩ := exists_zpow_eq_mul_ulp (F := F) (x := x) (j := Int.log 2 x) (by
    rw [exponent]
    omega)
  rw [hn] at hlog ⊢
  exact mul_le_round hlog

/-- **Rounding keeps the order.** -/
theorem round_mono {x y : ℚ} (hx : 0 ≤ x) (h : x ≤ y) : F.round x ≤ F.round y := by
  rcases hx.eq_or_lt with rfl | hpos
  · rw [round_zero]
    exact round_nonneg h
  have hlog := Int.log_mono_right (b := 2) hpos h
  rcases eq_or_ne (F.exponent x) (F.exponent y) with heq | hne
  · have hulp : F.ulp x = F.ulp y := by rw [ulp, ulp, heq]
    have hround : roundHalfEven (x / F.ulp y) ≤ roundHalfEven (y / F.ulp y) :=
      roundHalfEven_mono (div_le_div_of_nonneg_right h (ulp_pos y).le)
    have hround' : (roundHalfEven (x / F.ulp y) : ℚ) ≤ roundHalfEven (y / F.ulp y) := by
      exact_mod_cast hround
    rw [round, round, hulp]
    exact mul_le_mul_of_nonneg_right hround' (ulp_pos y).le
  · -- a power of two lies between the two numbers
    have hp := F.precision_pos
    have hemin : F.emin ≤ Int.log 2 y ∧ Int.log 2 x < Int.log 2 y := by
      rw [exponent, exponent] at hne
      omega
    have hbelow : x < 2 ^ Int.log 2 y := by
      exact_mod_cast (Int.lt_zpow_iff_log_lt (b := 2) (by norm_num) hpos).mpr hemin.2
    exact (round_le_zpow hemin.1 hx hbelow).trans
      (zpow_log_le_round (hpos.trans_le h) hemin.1)

/-- The last place of the numbers with a full significand. -/
theorem exponent_eq {x : ℚ} {e : ℤ} (he : F.emin ≤ e) (h₁ : 2 ^ (F.precision - 1 + e) ≤ x)
    (h₂ : x < 2 ^ (F.precision + e)) : F.exponent x = e := by
  have hpos : 0 < x := (zpow_pos (by norm_num) _).trans_le h₁
  have hge := (Int.zpow_le_iff_le_log (b := 2) (by norm_num) hpos).mp (by push_cast; exact h₁)
  have hlt := (Int.lt_zpow_iff_log_lt (b := 2) (by norm_num) hpos).mp (by push_cast; exact h₂)
  rw [exponent]
  omega

/-- A number of the format that is not the least one with its exponent. -/
structure Inner (F : FloatFormat) (n e : ℤ) : Prop where
  emin_le : F.emin ≤ e
  lt : 2 ^ (F.precision - 1) < n
  le : n < 2 ^ F.precision

theorem Inner.one_le {n e : ℤ} (h : F.Inner n e) : (1 : ℚ) ≤ n := by
  have hpos : (0 : ℤ) < 2 ^ (F.precision - 1) := by positivity
  have hlt := h.lt
  exact_mod_cast (by omega : 1 ≤ n)

/-- The last place of the numbers between the one below and an inner number. -/
theorem Inner.ulp_eq {n e : ℤ} (h : F.Inner n e) {x : ℚ} (h₁ : (n - 1) * 2 ^ e ≤ x)
    (h₂ : x ≤ n * 2 ^ e) : F.ulp x = 2 ^ e := by
  have hpow : (0 : ℚ) < 2 ^ e := zpow_pos (by norm_num) e
  have hp := F.precision_pos
  rw [ulp, exponent_eq h.emin_le]
  · refine le_trans ?_ h₁
    rw [zpow_add₀ (by norm_num)]
    refine mul_le_mul_of_nonneg_right ?_ hpow.le
    have hlt : (2 : ℤ) ^ (F.precision - 1) ≤ n - 1 := by
      have := h.lt
      omega
    have hcast : ((F.precision : ℤ) - 1) = ((F.precision - 1 : ℕ) : ℤ) := by omega
    rw [hcast, zpow_natCast]
    exact_mod_cast hlt
  · refine lt_of_le_of_lt h₂ ?_
    rw [zpow_add₀ (by norm_num), zpow_natCast]
    refine mul_lt_mul_of_pos_right ?_ hpow
    exact_mod_cast h.le

/-- Beyond the middle below it, what is rounded comes to the number. -/
theorem Inner.le_round {n e : ℤ} (h : F.Inner n e) {x : ℚ} (hx : (n - 1 / 2) * 2 ^ e < x) :
    n * 2 ^ e ≤ F.round x := by
  have hpow : (0 : ℚ) < 2 ^ e := zpow_pos (by norm_num) e
  have hone := h.one_le
  -- up to the number itself the last place is its own
  have hmin : (n - 1 / 2) * 2 ^ e < min x (n * 2 ^ e) := by
    refine lt_min hx ?_
    nlinarith
  have hnonneg : 0 ≤ min x (n * 2 ^ e) := by
    refine le_trans ?_ hmin.le
    exact mul_nonneg (by linarith) hpow.le
  have hulp := h.ulp_eq (x := min x (n * 2 ^ e)) (by nlinarith) (min_le_right _ _)
  refine le_trans ?_ (round_mono hnonneg (min_le_left x (n * 2 ^ e)))
  rw [round, hulp]
  have hquot : (n : ℚ) - 1 / 2 < min x (n * 2 ^ e) / 2 ^ e := by
    rw [lt_div_iff₀ hpow]
    exact hmin
  have hround : (n : ℚ) ≤ roundHalfEven (min x (n * 2 ^ e) / 2 ^ e) := by
    exact_mod_cast le_roundHalfEven hquot
  exact mul_le_mul_of_nonneg_right hround hpow.le

/-- Up to the middle below an odd number, what is rounded stays below the number. -/
theorem Inner.round_le {n e : ℤ} (h : F.Inner n e) (hodd : n % 2 = 1) {x : ℚ} (hx₀ : 0 ≤ x)
    (hx : x ≤ (n - 1 / 2) * 2 ^ e) : F.round x ≤ (n - 1) * 2 ^ e := by
  have hpow : (0 : ℚ) < 2 ^ e := zpow_pos (by norm_num) e
  have hulp := h.ulp_eq (x := (n - 1 / 2) * 2 ^ e) (by nlinarith) (by nlinarith)
  have hround : F.round ((n - 1 / 2) * 2 ^ e) = (n - 1) * 2 ^ e := by
    rw [round, hulp, mul_div_assoc, div_self hpow.ne', mul_one, roundHalfEven_middle hodd]
    push_cast
    rfl
  rw [← hround]
  exact round_mono hx₀ hx

/-- **Where a property of the result begins to hold**: if an odd number is the first to have it,
beyond the middle below that number. -/
theorem Inner.threshold_iff {n e : ℤ} (h : F.Inner n e) (hodd : n % 2 = 1) {p : ℚ → Prop}
    (hmono : ∀ {a b}, 0 ≤ a → a ≤ b → p a → p b) (hfirst : p (n * 2 ^ e))
    (hbefore : ¬p ((n - 1) * 2 ^ e)) {x : ℚ} (hx : 0 ≤ x) :
    p (F.round x) ↔ (n - 1 / 2) * 2 ^ e < x := by
  have hpow : (0 : ℚ) < 2 ^ e := zpow_pos (by norm_num) e
  have hone := h.one_le
  constructor
  · intro hp
    by_contra hnot
    exact hbefore (hmono (round_nonneg hx) (h.round_le hodd hx (not_lt.mp hnot)) hp)
  · intro hlt
    exact hmono (mul_nonneg (by linarith) hpow.le) (h.le_round hlt) hfirst

theorem nearest_of_nonneg {x : ℚ} (hx : 0 ≤ x) : F.nearest x = F.round x := by
  rw [nearest, if_neg hx.not_gt, abs_of_nonneg hx]

theorem nearest_nonpos {x : ℚ} (hx : x ≤ 0) : F.nearest x ≤ 0 := by
  have hround := round_nonneg (F := F) (abs_nonneg x)
  rcases hx.lt_or_eq with hlt | rfl
  · rw [nearest, if_pos hlt]
    linarith
  · rw [nearest_of_nonneg le_rfl, round_zero]

/-- A result that is not too large is a number of the format. -/
theorem holds_round {x : ℚ} (hx : 0 ≤ x) (h : F.round x < 2 ^ F.emax) : F.Holds (F.round x) := by
  refine ⟨h, ?_⟩
  have hp := F.precision_pos
  have hle : x ≤ ((2 ^ F.precision : ℤ) : ℚ) * F.ulp x := by
    rcases hx.eq_or_lt with rfl | hpos
    · have := ulp_pos (F := F) 0
      positivity
    · have hlog : x < 2 ^ (Int.log 2 x + 1) := by
        exact_mod_cast Int.lt_zpow_succ_log_self (b := 2) (by norm_num) x
      refine hlog.le.trans ?_
      push_cast
      rw [ulp, ← zpow_natCast, ← zpow_add₀ (by norm_num)]
      refine zpow_le_zpow_right₀ (by norm_num) ?_
      rw [exponent]
      omega
  have hupper := round_le_mul hle
  have hlower := round_nonneg (F := F) hx
  rw [round] at hupper hlower ⊢
  have hn₀ : 0 ≤ roundHalfEven (x / F.ulp x) := by
    exact_mod_cast nonneg_of_mul_nonneg_left hlower (ulp_pos x)
  have hn₁ : roundHalfEven (x / F.ulp x) ≤ 2 ^ F.precision := by
    exact_mod_cast le_of_mul_le_mul_right hupper (ulp_pos x)
  obtain ⟨n, hn⟩ := Int.eq_ofNat_of_zero_le hn₀
  rw [hn] at hn₁ ⊢
  have hn₂ : n ≤ 2 ^ F.precision := by exact_mod_cast hn₁
  rcases hn₂.lt_or_eq with hlt | rfl
  · exact ⟨n, F.exponent x, hlt, le_max_right _ _, rfl⟩
  · -- the carry into the next exponent
    refine ⟨2 ^ (F.precision - 1), F.exponent x + 1, ?_, ?_, ?_⟩
    · exact Nat.pow_lt_pow_right (by norm_num) (by omega)
    · have := le_max_right (Int.log 2 x + 1 - F.precision) F.emin
      rw [exponent]
      omega
    · rw [zpow_add₀ (by norm_num), ulp]
      push_cast
      obtain ⟨p, hp⟩ := Nat.exists_eq_add_of_lt F.precision_pos
      rw [hp]
      simp only [Nat.zero_add, Nat.add_sub_cancel]
      ring

end FloatFormat

end Basis
