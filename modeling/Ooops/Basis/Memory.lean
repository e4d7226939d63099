import Mathlib.Algebra.Order.Ring.Int
import Mathlib.Tactic.IntervalCases
import Ooops.Basis.Bytes
import Ooops.Basis.CInt

/-!
# Byte-Addressed Memory

A memory is a function from addresses to bytes. `Memory.read` and `Memory.write` move a
block of bytes, `Memory.readInt32`, `Memory.writeInt32` and `Memory.addInt32` work on the
`int` at an address.

* `read_write_self`, `read_write_of_disjoint`: a block is read as it was written, and writes
  elsewhere do not matter.
* `addInt32_firstByte`: adding a number to an `int` in place leaves its bytes alone up to
  a certain one, the same for every `int`, and changes that one. Adding is therefore
  visible, however many other places are changed behind it.
-/

namespace Basis

/-- A byte-addressed memory. -/
abbrev Memory := ℕ → UInt8

namespace Memory

/-- The `n` bytes from `a` on. -/
def read (m : Memory) (a n : ℕ) : List UInt8 := (List.range n).map fun i => m (a + i)

/-- Store the bytes `bs` from `a` on. -/
def write (m : Memory) (a : ℕ) (bs : List UInt8) : Memory :=
  fun x => if a ≤ x then (bs[x - a]?).getD (m x) else m x

@[simp] theorem length_read (m : Memory) (a n : ℕ) : (m.read a n).length = n := by
  simp only [read, List.length_map, List.length_range]

theorem getElem?_read {n i : ℕ} (m : Memory) (a : ℕ) (h : i < n) :
    (m.read a n)[i]? = some (m (a + i)) := by
  simp only [read, List.getElem?_map, List.getElem?_range h, Option.map_some]

/-- What is read depends on the bytes in the block only. -/
theorem read_congr {m m' : Memory} {a a' n : ℕ} (h : ∀ i < n, m (a + i) = m' (a' + i)) :
    m.read a n = m'.read a' n :=
  List.map_congr_left fun i hi => h i (List.mem_range.mp hi)

/-- Reading in two pieces. -/
theorem read_add (m : Memory) (a n k : ℕ) : m.read a (n + k) = m.read a n ++ m.read (a + n) k := by
  rw [read, read, read, List.range_add, List.map_append, List.map_map]
  simp only [Function.comp_def, Nat.add_assoc]

/-- Equal blocks have equal bytes. -/
theorem apply_eq_of_read_eq {m m' : Memory} {a a' n i : ℕ} (h : m.read a n = m'.read a' n)
    (hi : i < n) : m (a + i) = m' (a' + i) := by
  have hget := congrArg (·[i]?) h
  simp only [getElem?_read _ _ hi, Option.some.injEq] at hget
  exact hget

/-- A write changes nothing outside its block. -/
theorem write_of_outside {m : Memory} {a x : ℕ} {bs : List UInt8}
    (h : x < a ∨ a + bs.length ≤ x) : m.write a bs x = m x := by
  rw [write]
  split
  · rw [List.getElem?_eq_none (by omega), Option.getD_none]
  · rfl

/-- A write stores its bytes. -/
theorem write_add {i : ℕ} {bs : List UInt8} (m : Memory) (a : ℕ) (h : i < bs.length) :
    m.write a bs (a + i) = bs[i] := by
  rw [write, if_pos (Nat.le_add_right a i), Nat.add_sub_cancel_left,
    List.getElem?_eq_getElem h, Option.getD_some]

/-- A block is read as it was written. -/
theorem read_write_self (m : Memory) (a : ℕ) (bs : List UInt8) :
    (m.write a bs).read a bs.length = bs := by
  refine List.ext_getElem? fun i => ?_
  rcases Nat.lt_or_ge i bs.length with h | h
  · rw [getElem?_read _ _ h, write_add m a h, List.getElem?_eq_getElem h]
  · rw [List.getElem?_eq_none (by rwa [length_read]), List.getElem?_eq_none h]

/-- A write elsewhere does not matter. -/
theorem read_write_of_disjoint {m : Memory} {a b n : ℕ} {bs : List UInt8}
    (h : b + n ≤ a ∨ a + bs.length ≤ b) : (m.write a bs).read b n = m.read b n :=
  read_congr fun i hi => write_of_outside (by omega)

/-- Two writes side by side are one. -/
theorem write_append (m : Memory) (a : ℕ) (bs cs : List UInt8) :
    (m.write a bs).write (a + bs.length) cs = m.write a (bs ++ cs) := by
  funext x
  rcases Nat.lt_or_ge x (a + bs.length) with hx | hx
  · rw [write_of_outside (.inl hx)]
    simp only [write]
    split
    · rw [List.getElem?_append_left (by omega)]
    · rfl
  · simp only [write, if_pos hx, if_pos (by omega : a ≤ x),
      List.getElem?_append_right (by omega : bs.length ≤ x - a), Nat.sub_sub]
    rw [List.getElem?_eq_none (by omega : bs.length ≤ x - a), Option.getD_none]

/-! ### The `int` at an address -/

/-- The `int` at `a`. -/
def readInt32 (m : Memory) (a : ℕ) : ℤ := wrapInt32 (ofLE (m.read a 4))

/-- Store the `int` that `v` wraps to. -/
def writeInt32 (m : Memory) (a : ℕ) (v : ℤ) : Memory :=
  m.write a (leBytes 4 (v % 2 ^ 32).toNat)

/-- `*(int *)a += d`. -/
def addInt32 (m : Memory) (a : ℕ) (d : ℤ) : Memory := m.writeInt32 a (m.readInt32 a + d)

theorem writeInt32_of_outside {m : Memory} {a x : ℕ} {v : ℤ} (h : x < a ∨ a + 4 ≤ x) :
    m.writeInt32 a v x = m x :=
  write_of_outside (by rwa [length_leBytes])

theorem addInt32_of_outside {m : Memory} {a x : ℕ} {d : ℤ} (h : x < a ∨ a + 4 ≤ x) :
    m.addInt32 a d x = m x :=
  writeInt32_of_outside h

theorem readInt32_congr {m m' : Memory} {a a' : ℕ} (h : ∀ i < 4, m (a + i) = m' (a' + i)) :
    m.readInt32 a = m'.readInt32 a' := by
  rw [readInt32, readInt32, read_congr h]

/-- An `int` is read as it was written. -/
theorem readInt32_writeInt32 (m : Memory) (a : ℕ) (v : ℤ) :
    (m.writeInt32 a v).readInt32 a = wrapInt32 v := by
  have hread : (m.writeInt32 a v).read a 4 = leBytes 4 (v % 2 ^ 32).toNat := by
    have h := read_write_self m a (leBytes 4 (v % 2 ^ 32).toNat)
    rwa [length_leBytes] at h
  have hval : ((ofLE (leBytes 4 (v % 2 ^ 32).toNat) : ℕ) : ℤ) = v % 2 ^ 32 := by
    rw [ofLE_leBytes]
    omega
  rw [readInt32, hread, hval, wrapInt32_emod]

theorem readInt32_addInt32 (m : Memory) (a : ℕ) (d : ℤ) :
    (m.addInt32 a d).readInt32 a = wrapInt32 (m.readInt32 a + d) :=
  readInt32_writeInt32 m a _

/-- The range of an `int`. -/
theorem readInt32_range (m : Memory) (a : ℕ) :
    -2 ^ 31 ≤ m.readInt32 a ∧ m.readInt32 a < 2 ^ 31 := by
  have hle := Int.le_bmod (x := (ofLE (m.read a 4) : ℤ)) (m := 2 ^ 32) (by norm_num)
  have hlt := Int.bmod_lt (x := (ofLE (m.read a 4) : ℤ)) (m := 2 ^ 32) (by norm_num)
  rw [readInt32, wrapInt32]
  omega

/-- The bytes of the sum that `addInt32` stores. -/
theorem addInt32_add {i : ℕ} (m : Memory) (a : ℕ) (d : ℤ) (h : i < 4) :
    m.addInt32 a d (a + i) =
      byteAt (((ofLE (m.read a 4) : ℤ) + d) % 2 ^ 32).toNat i := by
  have hsum : (m.readInt32 a + d) % 2 ^ 32 = ((ofLE (m.read a 4) : ℤ) + d) % 2 ^ 32 := by
    rw [Int.add_emod, readInt32, emod_wrapInt32, ← Int.add_emod]
  have hlen : i < (leBytes 4 (((ofLE (m.read a 4) : ℤ) + d) % 2 ^ 32).toNat).length := by
    rwa [length_leBytes]
  have hget := write_add m a hlen
  rw [addInt32, writeInt32, hsum, hget, ← Option.some.injEq, ← List.getElem?_eq_getElem,
    getElem?_leBytes h]

/-- The bytes of the `int` itself. -/
theorem apply_add {i : ℕ} (m : Memory) (a : ℕ) (h : i < 4) :
    m (a + i) = byteAt (ofLE (m.read a 4)) i := by
  have hbytes : leBytes 4 (ofLE (m.read a 4)) = m.read a 4 := by
    have h := leBytes_ofLE (m.read a 4)
    rwa [length_read] at h
  rw [← Option.some.injEq, ← getElem?_read m a h, ← hbytes, getElem?_leBytes h, hbytes]

/-- Which byte of a sum is the first to change: byte `k`, if `d` is a multiple of `256 ^ k`
but not of `256 ^ (k + 1)`. -/
theorem byteAt_add {n k : ℕ} {d : ℤ} (hk : k < 4)
    (h₁ : (256 : ℤ) ^ k ∣ d) (h₂ : ¬(256 : ℤ) ^ (k + 1) ∣ d) :
    (∀ i < k, byteAt (((n : ℤ) + d) % 2 ^ 32).toNat i = byteAt n i) ∧
      byteAt (((n : ℤ) + d) % 2 ^ 32).toNat k ≠ byteAt n k := by
  set x := (((n : ℤ) + d) % 2 ^ 32).toNat with hx
  have hxd : (x : ℤ) = (n + d) % 2 ^ 32 := by omega
  have hbyte : ∀ i, byteAt x i = byteAt n i ↔ x / 256 ^ i % 256 = n / 256 ^ i % 256 := by
    intro i
    rw [← UInt8.toNat_inj, toNat_byteAt, toNat_byteAt]
  constructor
  · intro i hi
    rw [hbyte]
    interval_cases k <;> interval_cases i <;> omega
  · rw [Ne, hbyte]
    interval_cases k <;> omega

/-- **Adding in place is visible.** A number other than zero has a byte `k` such that adding
it to any `int` leaves the bytes before `k` alone and changes byte `k`. -/
theorem addInt32_firstByte {d : ℤ} (h₀ : d ≠ 0) (h₁ : -2 ^ 31 < d) (h₂ : d < 2 ^ 31) :
    ∃ k < 4, ∀ (m : Memory) (a : ℕ),
      (∀ i < k, m.addInt32 a d (a + i) = m (a + i)) ∧ m.addInt32 a d (a + k) ≠ m (a + k) := by
  obtain ⟨k, hk, hdvd, hndvd⟩ :
      ∃ k < 4, (256 : ℤ) ^ k ∣ d ∧ ¬(256 : ℤ) ^ (k + 1) ∣ d := by
    by_cases h : (256 : ℤ) ∣ d
    · by_cases h' : (65536 : ℤ) ∣ d
      · by_cases h'' : (16777216 : ℤ) ∣ d
        · exact ⟨3, by norm_num, by norm_num; omega, by norm_num; omega⟩
        · exact ⟨2, by norm_num, by norm_num; omega, by norm_num; omega⟩
      · exact ⟨1, by norm_num, by norm_num; omega, by norm_num; omega⟩
    · exact ⟨0, by norm_num, by norm_num, by norm_num; omega⟩
  refine ⟨k, hk, fun m a => ?_⟩
  obtain ⟨hlow, hchange⟩ := byteAt_add (n := ofLE (m.read a 4)) hk hdvd hndvd
  refine ⟨fun i hi => ?_, ?_⟩
  · rw [addInt32_add m a d (by omega), apply_add m a (by omega), hlow i hi]
  · rw [addInt32_add m a d hk, apply_add m a hk]
    exact hchange

/-- Equal blocks stay equal when the same is added at the same place. -/
theorem addInt32_congr {m m' : Memory} {a b f n : ℕ} (h : ∀ x < n, m (a + x) = m' (b + x))
    (hf : f + 4 ≤ n) (d : ℤ) :
    ∀ x < n, m.addInt32 (a + f) d (a + x) = m'.addInt32 (b + f) d (b + x) := by
  intro x hx
  by_cases hin : f ≤ x ∧ x < f + 4
  · obtain ⟨i, rfl⟩ : ∃ i, x = f + i := ⟨x - f, by omega⟩
    have hread : m.read (a + f) 4 = m'.read (b + f) 4 := by
      refine read_congr fun j hj => ?_
      rw [Nat.add_assoc, Nat.add_assoc]
      exact h _ (by omega)
    rw [← Nat.add_assoc, ← Nat.add_assoc, addInt32_add m (a + f) d (by omega),
      addInt32_add m' (b + f) d (by omega), hread]
  · rw [addInt32_of_outside (by omega), addInt32_of_outside (by omega), h x hx]

/-- The number that the four bytes at `a` form. -/
theorem ofLE_read_four (m : Memory) (a : ℕ) : ofLE (m.read a 4) =
    (m a).toNat + 256 * (m (a + 1)).toNat + 65536 * (m (a + 2)).toNat +
      16777216 * (m (a + 3)).toNat := by
  have hread : m.read a 4 = [m a, m (a + 1), m (a + 2), m (a + 3)] := rfl
  simp only [hread, ofLE_cons, ofLE_nil]
  omega

/-- The number at `a` after an addition. -/
theorem ofLE_addInt32 (m : Memory) (a : ℕ) (d : ℤ) :
    (ofLE ((m.addInt32 a d).read a 4) : ℤ) = ((ofLE (m.read a 4) : ℤ) + d) % 2 ^ 32 := by
  have hread : (m.addInt32 a d).read a 4 = leBytes 4 ((m.readInt32 a + d) % 2 ^ 32).toNat := by
    have h := read_write_self m a (leBytes 4 ((m.readInt32 a + d) % 2 ^ 32).toNat)
    rwa [length_leBytes] at h
  have hsum : (m.readInt32 a + d) % 2 ^ 32 = ((ofLE (m.read a 4) : ℤ) + d) % 2 ^ 32 := by
    rw [Int.add_emod, readInt32, emod_wrapInt32, ← Int.add_emod]
  rw [hread, ofLE_leBytes, hsum]
  omega

/-- Equal `int`s have equal bytes. -/
theorem apply_eq_of_readInt32_eq {m m' : Memory} {a a' : ℕ}
    (h : m.readInt32 a = m'.readInt32 a') : ∀ i < 4, m (a + i) = m' (a' + i) := by
  have hnum : ofLE (m.read a 4) = ofLE (m'.read a' 4) := by
    have hlt := ofLE_lt (m.read a 4)
    have hlt' := ofLE_lt (m'.read a' 4)
    rw [length_read] at hlt hlt'
    have hmod := congrArg (· % (2 : ℤ) ^ 32) h
    simp only [readInt32, emod_wrapInt32] at hmod
    omega
  intro i hi
  rw [apply_add m a hi, apply_add m' a' hi, hnum]

/-- The arithmetic of two additions that share bytes: `l` and `u` are the bytes before the one
that is spared, `b`, then `h` and `v` are those that both places share, and `g` are the others. -/
theorem eq_zero_of_shift {p q l u b h v g d : ℤ}
    (hpq : (p = 1 ∧ q = 16777216) ∨ (p = 256 ∧ q = 65536) ∨ (p = 65536 ∧ q = 256))
    (hl : 0 ≤ l ∧ l < p) (hu : 0 ≤ u ∧ u < p) (hh : 0 ≤ h ∧ h < q) (hv : 0 ≤ v ∧ v < q)
    (h₁ : -2 ^ 31 < d) (h₂ : d < 2 ^ 31)
    (hw : u + p * (b + 256 * v) = (l + p * (b + 256 * h) + d) % 2 ^ 32)
    (hf : v + q * g = (h + q * g + d) % 2 ^ 32) : d = 0 := by
  have hshared : d = v - h := by rcases hpq with ⟨-, rfl⟩ | ⟨-, rfl⟩ | ⟨-, rfl⟩ <;> omega
  have hd : -q < d ∧ d < q := by omega
  obtain ⟨s, hs⟩ : ∃ s, u - l + (256 * p - 1) * d = 2 ^ 32 * s := by
    refine ⟨-((l + p * (b + 256 * h) + d) / 2 ^ 32), ?_⟩
    rw [Int.emod_def] at hw
    have hp : (256 * p - 1) * d = p * (256 * v) - p * (256 * h) - d := by rw [hshared]; ring
    linarith
  rcases hpq with ⟨rfl, rfl⟩ | ⟨rfl, rfl⟩ | ⟨rfl, rfl⟩
  all_goals
    have hs₀ : s = 0 := by omega
    omega

/-- Two additions at overlapping places differ: the first one would have to spare the byte
before the second place. -/
theorem addInt32_ne_of_overlap {m : Memory} {w f : ℕ} {d : ℤ} (h₀ : d ≠ 0) (h₁ : -2 ^ 31 < d)
    (h₂ : d < 2 ^ 31) (hwf : w < f) (hfw : f ≤ w + 3) :
    ¬∀ x, f - 1 ≤ x → x < f + 4 → m.addInt32 w d x = m.addInt32 f d x := by
  intro h
  obtain ⟨k, rfl⟩ : ∃ k, f = w + (k + 1) := ⟨f - w - 1, by omega⟩
  have hfour : k + (1 + (3 - k)) = 4 := by omega
  have hfour' : 3 - k + (k + 1) = 4 := by omega
  have hfirst (m' : Memory) : ofLE (m'.read w 4) = ofLE (m'.read w k) +
      256 ^ k * ((m' (w + k)).toNat + 256 * ofLE (m'.read (w + (k + 1)) (3 - k))) := by
    have hone : m'.read (w + k) 1 = [m' (w + k)] := rfl
    rw [← hfour, read_add, ofLE_append, length_read, read_add, ofLE_append, length_read, hone,
      ofLE_cons, ofLE_nil, Nat.mul_zero, Nat.add_zero, pow_one, Nat.add_assoc]
  have hsecond (m' : Memory) : ofLE (m'.read (w + (k + 1)) 4) =
      ofLE (m'.read (w + (k + 1)) (3 - k)) +
        256 ^ (3 - k) * ofLE (m'.read (w + (k + 1) + (3 - k)) (k + 1)) := by
    rw [← hfour', read_add, ofLE_append, length_read]
  have hspared : m.addInt32 w d (w + k) = m (w + k) := by
    rw [h _ (by omega) (by omega), addInt32_of_outside (.inl (by omega))]
  have hshared : (m.addInt32 (w + (k + 1)) d).read (w + (k + 1)) (3 - k) =
      (m.addInt32 w d).read (w + (k + 1)) (3 - k) :=
    read_congr fun i hi => (h _ (by omega) (by omega)).symm
  have hothers : (m.addInt32 (w + (k + 1)) d).read (w + (k + 1) + (3 - k)) (k + 1) =
      m.read (w + (k + 1) + (3 - k)) (k + 1) :=
    read_congr fun i hi => by
      rw [← h _ (by omega) (by omega), addInt32_of_outside (.inr (by omega))]
  have hw := ofLE_addInt32 m w d
  have hf := ofLE_addInt32 m (w + (k + 1)) d
  rw [hfirst, hfirst, hspared] at hw
  rw [hsecond, hsecond, hshared, hothers] at hf
  have hlt (m' : Memory) (a n : ℕ) :
      0 ≤ (ofLE (m'.read a n) : ℤ) ∧ (ofLE (m'.read a n) : ℤ) < 256 ^ n := by
    have := ofLE_lt (m'.read a n)
    rw [length_read] at this
    exact ⟨Int.natCast_nonneg _, by exact_mod_cast this⟩
  push_cast at hw hf
  refine h₀ (eq_zero_of_shift ?_ (hlt m w k) (hlt _ w k) (hlt m _ (3 - k)) (hlt _ _ (3 - k)) h₁ h₂
    hw hf)
  obtain rfl | rfl | rfl : k = 0 ∨ k = 1 ∨ k = 2 := by omega
  · exact .inl (by norm_num)
  · exact .inr (.inl (by norm_num))
  · exact .inr (.inr (by norm_num))

end Memory

end Basis
