import Mathlib.Data.Nat.ModEq
import Mathlib.Data.Nat.Prime.Basic
import Mathlib.Algebra.Ring.Parity
import Mathlib.Tactic.Ring

/-!
# Mixing Words

The steps from which a hash function mixes a word: a rotation, an exclusive or with the
shifted word, a multiplication by an odd number. None of them loses anything.

* `rotl_injective`, `xorShift_injective`, `mul_odd_injective`.
* `setWidth_injective`: nor does widening.
-/

namespace Basis

variable {w : ℕ}

/-- `(x << r) | (x >> (w - r))`. -/
def rotl (x : BitVec w) (r : ℕ) : BitVec w := (x <<< r) ||| (x >>> (w - r))

theorem rotl_eq_rotateLeft {r : ℕ} (x : BitVec w) (hr : r < w) : rotl x r = x.rotateLeft r := by
  rw [rotl, BitVec.rotateLeft_def, Nat.mod_eq_of_lt hr]

/-- A rotation moves the bits around. -/
theorem rotl_injective {r : ℕ} (hr : r < w) : Function.Injective fun x : BitVec w => rotl x r := by
  intro x y h
  simp only [rotl_eq_rotateLeft _ hr] at h
  refine BitVec.eq_of_getLsbD_eq fun i hi => ?_
  have hbit (j : ℕ) : (x.rotateLeft r).getLsbD j = (y.rotateLeft r).getLsbD j := by rw [h]
  rcases Nat.lt_or_ge (i + r) w with hir | hir
  · have hj := hbit (i + r)
    rwa [BitVec.getLsbD_rotateLeft_of_le hr, BitVec.getLsbD_rotateLeft_of_le hr,
      decide_eq_false (by omega : ¬i + r < r), decide_eq_true hir, cond_false, cond_false,
      Bool.true_and, Bool.true_and, Nat.add_sub_cancel] at hj
  · have hj := hbit (i + r - w)
    rwa [BitVec.getLsbD_rotateLeft_of_le hr, BitVec.getLsbD_rotateLeft_of_le hr,
      decide_eq_true (by omega : i + r - w < r), cond_true, cond_true,
      show w - r + (i + r - w) = i by omega] at hj

/-- A word that a shift to the right leaves alone is zero. -/
theorem eq_zero_of_shiftRight_eq {s : ℕ} {x : BitVec w} (hs : 0 < s) (h : x >>> s = x) :
    x = 0#w := by
  have hnat := congrArg BitVec.toNat h
  rw [BitVec.toNat_ushiftRight, Nat.shiftRight_eq_div_pow] at hnat
  refine BitVec.eq_of_toNat_eq ?_
  rw [BitVec.toNat_zero]
  by_contra hne
  have hlt := Nat.div_lt_self (Nat.pos_of_ne_zero hne) (Nat.one_lt_two_pow (by omega : s ≠ 0))
  omega

/-- `x ^= x >> s` is undone from the highest bit down. -/
theorem xorShift_injective {s : ℕ} (hs : 0 < s) :
    Function.Injective fun x : BitVec w => x ^^^ (x >>> s) := by
  intro x y h
  refine BitVec.xor_eq_zero_iff.mp (eq_zero_of_shiftRight_eq hs ?_)
  have hzero : (x ^^^ (x >>> s)) ^^^ (y ^^^ (y >>> s)) = 0#w := BitVec.xor_eq_zero_iff.mpr h
  have hswap : (x ^^^ y) ^^^ ((x >>> s) ^^^ (y >>> s)) = 0#w := by
    rw [← hzero, BitVec.xor_assoc, BitVec.xor_assoc, ← BitVec.xor_assoc y,
      BitVec.xor_comm y, BitVec.xor_assoc]
  rw [BitVec.ushiftRight_xor_distrib]
  exact (BitVec.xor_eq_zero_iff.mp hswap).symm

/-- Multiplication by an odd number can be undone. -/
theorem mul_odd_injective {c : BitVec w} (hc : Odd c.toNat) :
    Function.Injective fun x : BitVec w => x * c := by
  intro x y h
  have hnat := congrArg BitVec.toNat h
  simp only [BitVec.toNat_mul] at hnat
  have hcop : Nat.gcd (2 ^ w) c.toNat = 1 := (Nat.coprime_two_left.mpr hc).pow_left w
  have hmod : x.toNat ≡ y.toNat [MOD 2 ^ w] :=
    Nat.ModEq.cancel_right_of_coprime hcop hnat
  refine BitVec.eq_of_toNat_eq ?_
  rwa [Nat.ModEq, Nat.mod_eq_of_lt x.isLt, Nat.mod_eq_of_lt y.isLt] at hmod

/-- Widening loses nothing. -/
theorem setWidth_injective {v : ℕ} (h : w ≤ v) :
    Function.Injective fun x : BitVec w => x.setWidth v := by
  intro x y hxy
  have hnat := congrArg BitVec.toNat hxy
  rw [BitVec.toNat_setWidth_of_le h, BitVec.toNat_setWidth_of_le h] at hnat
  exact BitVec.eq_of_toNat_eq hnat

end Basis
