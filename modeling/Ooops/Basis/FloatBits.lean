import Ooops.Basis.FloatFormat

/-!
# The Bits of a Floating Point Number

A number of a format is stored as a sign, a biased exponent and the bits of the significand
behind the first one. With the exponent in front, the bits of a magnitude are a number: the
significand, and `2 ^ (precision - 1)` for each step of the exponent above the least one. Of
subnormal numbers the exponent is zero, and the first bit is not implied.

* `toBits` and `ofBits` are the conversions; infinities and what is not a number are left out.
* `ofBits_toBits`: every number of the format is read as it was stored.
* `toBits_lt`: the sign is the highest bit that is used.
-/

namespace Basis

namespace FloatFormat

variable {F : FloatFormat}

/-- The weight of the exponent field. -/
def hidden (F : FloatFormat) : ℕ := 2 ^ (F.precision - 1)

/-- The number of values of the exponent field, the highest of which is for the infinities. -/
def exponents (F : FloatFormat) : ℕ := (F.emax - F.precision - F.emin).toNat + 3

/-- The weight of the sign. -/
def signBit (F : FloatFormat) : ℕ := F.exponents * F.hidden

/-- The significand of a magnitude, as an integer. -/
def significand (F : FloatFormat) (x : ℚ) : ℕ := (x / F.ulp x).floor.toNat

/-- The bits of a magnitude. -/
def magBits (F : FloatFormat) (x : ℚ) : ℕ :=
  if x = 0 then 0 else (F.exponent x - F.emin).toNat * F.hidden + F.significand x

/-- The bits of a number. -/
def toBits (F : FloatFormat) (x : ℚ) : ℕ :=
  if x < 0 then F.signBit + F.magBits |x| else F.magBits x

/-- The magnitude of some bits. -/
def ofMagBits (F : FloatFormat) (b : ℕ) : ℚ :=
  if b / F.hidden = 0 then b * 2 ^ F.emin
  else (b % F.hidden + F.hidden : ℕ) * 2 ^ (F.emin + (b / F.hidden - 1 : ℕ))

/-- The number of some bits. -/
def ofBits (F : FloatFormat) (b : ℕ) : ℚ :=
  if b < F.signBit then F.ofMagBits b else -F.ofMagBits (b - F.signBit)

theorem two_mul_hidden (F : FloatFormat) : 2 * F.hidden = 2 ^ F.precision := by
  have hp := F.precision_pos
  rw [hidden, ← pow_succ', Nat.sub_add_cancel hp]

theorem hidden_pos (F : FloatFormat) : 0 < F.hidden := Nat.two_pow_pos _

/-! ### The significand -/

section Significand

variable {x : ℚ}

/-- A power of two that is `j` places above the last one. -/
theorem zpow_add_exponent (x : ℚ) (j : ℤ) : (2 : ℚ) ^ (j + F.exponent x) = 2 ^ j * F.ulp x :=
  zpow_add₀ (by norm_num) _ _

/-- A magnitude is below the power of two that its significand is. -/
theorem lt_mul_ulp (x : ℚ) : x < 2 ^ F.precision * F.ulp x := by
  have hlog : x < (2 : ℚ) ^ (Int.log 2 x + 1) := by
    exact_mod_cast Int.lt_zpow_succ_log_self (b := 2) (by norm_num) x
  have hle : (2 : ℚ) ^ (Int.log 2 x + 1) ≤ 2 ^ ((F.precision : ℤ) + F.exponent x) := by
    refine zpow_le_zpow_right₀ (by norm_num) ?_
    rw [exponent]
    omega
  rw [zpow_add_exponent, zpow_natCast] at hle
  exact hlog.trans_le hle

/-- From the least exponent on the first bit of the significand is set. -/
theorem mul_ulp_le (hpos : 0 < x) (h : F.emin < F.exponent x) : F.hidden * F.ulp x ≤ x := by
  have hlog : (2 : ℚ) ^ Int.log 2 x ≤ x := by
    exact_mod_cast Int.zpow_log_le_self (b := 2) (by norm_num) hpos
  have hp := F.precision_pos
  have heq : Int.log 2 x = ((F.precision - 1 : ℕ) : ℤ) + F.exponent x := by
    rw [exponent] at h ⊢
    omega
  rw [heq, zpow_add_exponent, zpow_natCast] at hlog
  rw [hidden]
  push_cast
  exact hlog

/-- **The significand** of a number of the format is exact. -/
theorem Holds.eq_significand (h : F.Holds x) (hpos : 0 < x) :
    x = F.significand x * F.ulp x := by
  obtain ⟨-, n, e, hn, he, hx⟩ := h
  have hexp : F.exponent x ≤ e := by
    have hlt : x < (2 : ℚ) ^ ((F.precision : ℤ) + e) := by
      rw [hx, zpow_add₀ (by norm_num), zpow_natCast]
      exact mul_lt_mul_of_pos_right (by exact_mod_cast hn) (zpow_pos (by norm_num) e)
    have hlog := (Int.lt_zpow_iff_log_lt (b := 2) (by norm_num) hpos).mp (by exact_mod_cast hlt)
    rw [exponent]
    omega
  obtain ⟨k, hk⟩ := exists_zpow_eq_mul_ulp hexp
  have hulp := ulp_pos (F := F) x
  have hquot : x / F.ulp x = (n * k : ℤ) := by
    rw [div_eq_iff hulp.ne']
    push_cast
    calc x = n * 2 ^ e := hx
      _ = n * (k * F.ulp x) := by rw [hk]
      _ = n * k * F.ulp x := by ring
  have hnonneg : 0 ≤ (n * k : ℤ) := by
    have hq : (0 : ℚ) ≤ x / F.ulp x := div_nonneg hpos.le hulp.le
    rw [hquot] at hq
    exact_mod_cast hq
  rw [significand, hquot, Rat.floor_intCast]
  rw [div_eq_iff hulp.ne'] at hquot
  have hcast : (((n * k : ℤ).toNat : ℕ) : ℚ) = (n * k : ℤ) := by
    exact_mod_cast Int.toNat_of_nonneg hnonneg
  rw [hcast, ← hquot]

theorem Holds.significand_lt (h : F.Holds x) (hpos : 0 < x) :
    F.significand x < 2 * F.hidden := by
  have hlt := lt_mul_ulp (F := F) x
  rw [two_mul_hidden]
  nth_rewrite 1 [h.eq_significand hpos] at hlt
  exact_mod_cast lt_of_mul_lt_mul_right hlt (ulp_pos x).le

theorem Holds.hidden_le (h : F.Holds x) (hpos : 0 < x) (hexp : F.emin < F.exponent x) :
    F.hidden ≤ F.significand x := by
  have hle := mul_ulp_le hpos hexp
  nth_rewrite 2 [h.eq_significand hpos] at hle
  exact_mod_cast le_of_mul_le_mul_right hle (ulp_pos x)

end Significand

/-! ### Bits -/

/-- The fields of a magnitude with the exponent `k` places above the least one. -/
theorem ofMagBits_add {k n : ℕ} (hn : n < 2 * F.hidden) (hk : 0 < k → F.hidden ≤ n) :
    F.ofMagBits (k * F.hidden + n) = n * 2 ^ (F.emin + k) := by
  have hpos := F.hidden_pos
  rw [ofMagBits, Nat.add_comm, Nat.add_mul_div_right _ _ hpos, Nat.add_mul_mod_self_right]
  by_cases hsub : n < F.hidden
  · obtain rfl : k = 0 := by
      by_contra hne
      have hle := hk (Nat.pos_of_ne_zero hne)
      omega
    rw [Nat.div_eq_of_lt hsub, if_pos rfl]
    simp
  · have hdiv : n / F.hidden = 1 := Nat.div_eq_of_lt_le (by omega) (by omega)
    have hmod : n % F.hidden + F.hidden = n := by
      have hsplit := Nat.div_add_mod n F.hidden
      rw [hdiv] at hsplit
      omega
    rw [hdiv, if_neg (by omega), hmod]
    congr 3
    omega

/-- The bits of a magnitude are those of a number. -/
theorem ofMagBits_magBits {x : ℚ} (h : F.Holds x) : F.ofMagBits (F.magBits x) = x := by
  rw [magBits]
  split_ifs with hzero
  · rw [hzero, ofMagBits, Nat.zero_div, if_pos rfl]
    simp
  · have hpos : 0 < x := h.nonneg.lt_of_ne' hzero
    have hmin : F.emin ≤ F.exponent x := le_max_right _ _
    rw [ofMagBits_add (h.significand_lt hpos) fun hk => h.hidden_le hpos (by omega)]
    have hexp : F.emin + ((F.exponent x - F.emin).toNat : ℤ) = F.exponent x := by omega
    rw [hexp]
    exact (h.eq_significand hpos).symm

/-- They are below the sign. -/
theorem magBits_lt {x : ℚ} (h : F.Holds x) : F.magBits x < F.signBit := by
  have hhidden := F.hidden_pos
  rw [magBits, signBit, exponents]
  split_ifs with hzero
  · positivity
  · have hpos : 0 < x := h.nonneg.lt_of_ne' hzero
    have hlog := (Int.lt_zpow_iff_log_lt (b := 2) (by norm_num) hpos).mp (by exact_mod_cast h.1)
    have hsig := h.significand_lt hpos
    have hk : (F.exponent x - F.emin).toNat ≤ (F.emax - F.precision - F.emin).toNat := by
      rw [exponent]
      omega
    have hmul := Nat.mul_le_mul_right F.hidden hk
    calc _ < (F.emax - F.precision - F.emin).toNat * F.hidden + 2 * F.hidden := by omega
      _ ≤ ((F.emax - F.precision - F.emin).toNat + 3) * F.hidden := by
          rw [← Nat.add_mul]
          exact Nat.mul_le_mul_right _ (by omega)

/-- **Round trip.** A number of the format is read as it was stored. -/
theorem ofBits_toBits {x : ℚ} (h : F.Holds |x|) : F.ofBits (F.toBits x) = x := by
  have hlt := magBits_lt h
  have hmag := ofMagBits_magBits h
  rw [toBits]
  split_ifs with hneg
  · rw [ofBits, if_neg (by omega), Nat.add_sub_cancel_left, hmag, abs_of_neg hneg, neg_neg]
  · rw [abs_of_nonneg (not_lt.mp hneg)] at hlt hmag
    rw [ofBits, if_pos hlt, hmag]

/-- The sign is the highest bit. -/
theorem toBits_lt {x : ℚ} (h : F.Holds |x|) : F.toBits x < 2 * F.signBit := by
  have hlt := magBits_lt h
  rw [toBits]
  split_ifs with hneg
  · omega
  · rw [abs_of_nonneg (not_lt.mp hneg)] at hlt
    omega

/-- Zero is stored as zeros. -/
@[simp] theorem ofBits_zero (F : FloatFormat) : F.ofBits 0 = 0 := by
  have hpos : 0 < F.signBit := Nat.mul_pos (by rw [exponents]; omega) F.hidden_pos
  rw [ofBits, if_pos hpos, ofMagBits, Nat.zero_div, if_pos rfl]
  simp

/-- A `float` has 32 bits. -/
theorem signBit_binary32 : binary32.signBit = 2 ^ 31 := by decide +kernel

end FloatFormat

end Basis
