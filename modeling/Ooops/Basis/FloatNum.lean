import Ooops.Basis.FloatFormat

/-!
# Floating Point Arithmetic

The numbers of a format are the finite ones, with a sign that zero has too, the two
infinities, and the results that are not a number. An operation on finite numbers rounds the
exact result (`ofRat`); a division by zero gives an infinity, and what has no meaning is `nan`.

* `Within.ofRat`: a result below a power of two is finite and not above that power.
* `add_eq`, `sub_eq`, `mul_eq`: the operations on finite numbers.
* `isFinite_of_add`, `isFinite_of_mul`, `toRat_ne_zero_of_div`: what a finite result says.
-/

namespace Basis

open FloatFormat

/-- A number of the format. -/
inductive FloatNum (F : FloatFormat)
  | nan
  | inf (negative : Bool)
  | finite (negative : Bool) (mag : ℚ) (holds : F.Holds mag)
  deriving DecidableEq

namespace FloatNum

variable {F : FloatFormat}

def IsFinite : FloatNum F → Bool
  | .finite _ _ _ => true
  | _ => false

/-- The value of a finite number. -/
def toRat : FloatNum F → ℚ
  | .finite negative mag _ => if negative then -mag else mag
  | _ => 0

@[simp] theorem toRat_finite (s : Bool) (mag : ℚ) (h : F.Holds mag) :
    (finite s mag h).toRat = if s then -mag else mag := rfl

/-- The number nearest to `x`, with the sign `zeroSign` if `x` is zero. -/
def ofRat (zeroSign : Bool) (x : ℚ) : FloatNum F :=
  if h : F.round |x| < 2 ^ F.emax then
    .finite (if x = 0 then zeroSign else decide (x < 0)) (F.round |x|)
      (holds_round (abs_nonneg x) h)
  else .inf (decide (x < 0))

/-- The conversion of an integer. -/
def ofInt (n : ℤ) : FloatNum F := ofRat false n

def neg : FloatNum F → FloatNum F
  | .nan => .nan
  | .inf s => .inf !s
  | .finite s mag holds => .finite (!s) mag holds

def add : FloatNum F → FloatNum F → FloatNum F
  | .nan, _ => .nan
  | _, .nan => .nan
  | .inf s, .inf t => if s = t then .inf s else .nan
  | .inf s, .finite _ _ _ => .inf s
  | .finite _ _ _, .inf t => .inf t
  | .finite s x hx, .finite t y hy =>
      ofRat (s && t) ((finite s x hx).toRat + (finite t y hy).toRat)

def sub (x y : FloatNum F) : FloatNum F := x.add y.neg

def mul : FloatNum F → FloatNum F → FloatNum F
  | .nan, _ => .nan
  | _, .nan => .nan
  | .inf s, .inf t => .inf (xor s t)
  | .inf s, .finite t y _ => if y = 0 then .nan else .inf (xor s t)
  | .finite s x _, .inf t => if x = 0 then .nan else .inf (xor s t)
  | .finite s x hx, .finite t y hy =>
      ofRat (xor s t) ((finite s x hx).toRat * (finite t y hy).toRat)

def div : FloatNum F → FloatNum F → FloatNum F
  | .nan, _ => .nan
  | _, .nan => .nan
  | .inf _, .inf _ => .nan
  | .inf s, .finite t _ _ => .inf (xor s t)
  | .finite s _ _, .inf t => ofRat (xor s t) 0
  | .finite s x hx, .finite t y hy =>
      if y = 0 then if x = 0 then .nan else .inf (xor s t)
      else ofRat (xor s t) ((finite s x hx).toRat / (finite t y hy).toRat)

/-- The comparison `x < y`. -/
def lt : FloatNum F → FloatNum F → Bool
  | .nan, _ => false
  | _, .nan => false
  | .inf s, .inf t => s && !t
  | .inf s, .finite _ _ _ => s
  | .finite _ _ _, .inf t => !t
  | .finite s x hx, .finite t y hy =>
      decide ((finite s x hx).toRat < (finite t y hy).toRat)

/-- The conversion of a `float` to `double`. -/
def toDouble : FloatNum binary32 → FloatNum binary64
  | .nan => .nan
  | .inf s => .inf s
  | .finite s mag holds =>
      .finite s mag (holds.widen (by decide) (by decide) (by decide))

/-! ### Operations on finite numbers -/

/-- A finite number that is not above a power of two. -/
def Within (x : FloatNum F) (j : ℤ) : Prop := x.IsFinite = true ∧ |x.toRat| ≤ 2 ^ j

/-- The value of a finite result. -/
theorem toRat_ofRat {zeroSign : Bool} {x : ℚ}
    (h : (ofRat zeroSign x : FloatNum F).IsFinite = true) :
    (ofRat zeroSign x : FloatNum F).toRat = F.nearest x := by
  rw [ofRat] at h ⊢
  split at h
  case isFalse => cases h
  case isTrue hlt =>
    rw [dif_pos hlt, toRat, nearest]
    rcases eq_or_ne x 0 with rfl | hne
    · simp
    · simp only [if_neg hne, decide_eq_true_eq]

/-- A result below a power of two. -/
theorem Within.ofRat {zeroSign : Bool} {x : ℚ} {j : ℤ} (hmin : F.emin ≤ j) (hmax : j < F.emax)
    (h : |x| < 2 ^ j) : (FloatNum.ofRat zeroSign x : FloatNum F).Within j := by
  have hround := round_le_zpow hmin (abs_nonneg x) h
  have hfinite : (FloatNum.ofRat zeroSign x : FloatNum F).IsFinite = true := by
    rw [FloatNum.ofRat, dif_pos]
    · rfl
    · exact hround.trans_lt (zpow_lt_zpow_right₀ (by norm_num) hmax)
  refine ⟨hfinite, ?_⟩
  have hnonneg := round_nonneg (F := F) (abs_nonneg x)
  rw [toRat_ofRat hfinite, nearest]
  split
  · rwa [abs_neg, abs_of_nonneg hnonneg]
  · rwa [abs_of_nonneg hnonneg]

theorem add_eq {x y : FloatNum F} (hx : x.IsFinite = true) (hy : y.IsFinite = true) :
    ∃ z, x.add y = ofRat z (x.toRat + y.toRat) := by
  cases x with
  | nan | inf => cases hx
  | finite => cases y with
    | nan | inf => cases hy
    | finite => exact ⟨_, rfl⟩

theorem sub_eq {x y : FloatNum F} (hx : x.IsFinite = true) (hy : y.IsFinite = true) :
    ∃ z, x.sub y = ofRat z (x.toRat - y.toRat) := by
  have hneg : y.neg.IsFinite = true ∧ y.neg.toRat = -y.toRat := by
    cases y with
    | nan | inf => cases hy
    | finite s mag holds => cases s <;> simp [neg, IsFinite, toRat]
  obtain ⟨z, hz⟩ := add_eq hx hneg.1
  exact ⟨z, by rw [sub, hz, hneg.2, sub_eq_add_neg]⟩

theorem mul_eq {x y : FloatNum F} (hx : x.IsFinite = true) (hy : y.IsFinite = true) :
    ∃ z, x.mul y = ofRat z (x.toRat * y.toRat) := by
  cases x with
  | nan | inf => cases hx
  | finite => cases y with
    | nan | inf => cases hy
    | finite => exact ⟨_, rfl⟩

theorem lt_iff {x y : FloatNum F} (hx : x.IsFinite = true) (hy : y.IsFinite = true) :
    x.lt y = true ↔ x.toRat < y.toRat := by
  cases x with
  | nan | inf => cases hx
  | finite => cases y with
    | nan | inf => cases hy
    | finite => exact decide_eq_true_iff

/-- Only finite numbers have a finite sum. -/
theorem isFinite_of_add {x y : FloatNum F} (h : (x.add y).IsFinite = true) :
    x.IsFinite = true ∧ y.IsFinite = true := by
  cases x with
  | nan => cases h
  | inf s => cases y with
    | nan | finite => cases h
    | inf t =>
        rw [add] at h
        split at h <;> cases h
  | finite => cases y with
    | nan | inf => cases h
    | finite => exact ⟨rfl, rfl⟩

/-- Only finite numbers have a finite product. -/
theorem isFinite_of_mul {x y : FloatNum F} (h : (x.mul y).IsFinite = true) :
    x.IsFinite = true ∧ y.IsFinite = true := by
  cases x with
  | nan => cases h
  | inf s => cases y with
    | nan | inf => cases h
    | finite =>
        rw [mul] at h
        split at h <;> cases h
  | finite => cases y with
    | nan => cases h
    | inf =>
        rw [mul] at h
        split at h <;> cases h
    | finite => exact ⟨rfl, rfl⟩

/-- A division by zero gives no finite number. -/
theorem toRat_ne_zero_of_div {x y : FloatNum F} (h : (x.div y).IsFinite = true)
    (hy : y.IsFinite = true) : y.toRat ≠ 0 := by
  intro hzero
  cases y with
  | nan | inf => cases hy
  | finite s mag holds =>
      have hmag : mag = 0 := by
        rw [toRat_finite] at hzero
        split at hzero
        · exact neg_eq_zero.mp hzero
        · exact hzero
      cases x with
      | nan | inf => cases h
      | finite =>
          rw [div, if_pos hmag] at h
          split at h <;> cases h

/-- A finite number is below two to the power that bounds the format. -/
theorem abs_toRat_lt (x : FloatNum F) : |x.toRat| < 2 ^ F.emax := by
  cases x with
  | nan | inf => simpa [toRat] using zpow_pos (by norm_num) F.emax
  | finite s mag holds =>
      have hlt := holds.1
      cases s with
      | true => rwa [toRat_finite, if_pos rfl, abs_neg, abs_of_nonneg holds.nonneg]
      | false => rwa [toRat_finite, if_neg Bool.false_ne_true, abs_of_nonneg holds.nonneg]

@[simp] theorem toRat_toDouble (x : FloatNum binary32) : x.toDouble.toRat = x.toRat := by
  cases x with
  | nan | inf | finite => rfl

@[simp] theorem isFinite_toDouble (x : FloatNum binary32) :
    x.toDouble.IsFinite = x.IsFinite := by
  cases x with
  | nan | inf | finite => rfl

end FloatNum

end Basis
