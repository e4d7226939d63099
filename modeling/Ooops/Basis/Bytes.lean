import Mathlib.Data.Nat.Digits.Defs
import Mathlib.Tactic.Ring

/-!
# Little-Endian Bytes

A number of `k` bytes is stored with its lowest byte first: `leBytes k n` are the bytes of
`n`, of which bits beyond `8 * k` are dropped, and `ofLE` reads them again.

* `ofLE_leBytes` and `leBytes_ofLE`: the two directions of the round trip.
-/

namespace Basis

/-- The `i`-th byte of a number, the lowest one first. -/
def byteAt (n i : ℕ) : UInt8 := UInt8.ofNat (n / 256 ^ i)

/-- The `k` lowest bytes of a number, the lowest one first. -/
def leBytes (k n : ℕ) : List UInt8 := (List.range k).map (byteAt n)

/-- The number whose bytes are given, the lowest one first. -/
def ofLE (bs : List UInt8) : ℕ := Nat.ofDigits 256 (bs.map UInt8.toNat)

@[simp] theorem length_leBytes (k n : ℕ) : (leBytes k n).length = k := by
  simp only [leBytes, List.length_map, List.length_range]

@[simp] theorem ofLE_nil : ofLE [] = 0 := rfl

@[simp] theorem ofLE_cons (b : UInt8) (bs : List UInt8) :
    ofLE (b :: bs) = b.toNat + 256 * ofLE bs := by
  simp only [ofLE, List.map_cons, Nat.ofDigits_cons]

theorem ofLE_append (bs cs : List UInt8) :
    ofLE (bs ++ cs) = ofLE bs + 256 ^ bs.length * ofLE cs := by
  rw [ofLE, List.map_append, Nat.ofDigits_append, List.length_map, ofLE, ofLE]

theorem getElem?_leBytes {k n i : ℕ} (h : i < k) : (leBytes k n)[i]? = some (byteAt n i) := by
  simp only [leBytes, List.getElem?_map, List.getElem?_range h, Option.map_some]

theorem toNat_byteAt (n i : ℕ) : (byteAt n i).toNat = n / 256 ^ i % 256 := by
  simp only [byteAt, UInt8.toNat_ofNat']

/-- A number fits its bytes. -/
theorem ofLE_lt (bs : List UInt8) : ofLE bs < 256 ^ bs.length := by
  have h := Nat.ofDigits_lt_base_pow_length (b := 256) (l := bs.map UInt8.toNat) (by norm_num)
    fun d hd => by
      obtain ⟨b, -, rfl⟩ := List.mem_map.mp hd
      exact b.toNat_lt
  rwa [List.length_map] at h

theorem leBytes_succ (k n : ℕ) : leBytes (k + 1) n = byteAt n 0 :: leBytes k (n / 256) := by
  simp only [leBytes, List.range_succ_eq_map, List.map_cons, List.map_map]
  congr 1
  refine List.map_congr_left fun i _ => ?_
  simp only [byteAt, Function.comp_apply, Nat.div_div_eq_div_mul, pow_succ']

/-- Reading what was stored gives the number, cut to its width. -/
theorem ofLE_leBytes (k n : ℕ) : ofLE (leBytes k n) = n % 256 ^ k := by
  induction k generalizing n with
  | zero => simp [leBytes, Nat.mod_one]
  | succ k ih =>
      rw [leBytes_succ, ofLE_cons, ih, toNat_byteAt, pow_zero, Nat.div_one, pow_succ',
        Nat.mod_mul]

/-- Storing what was read gives the bytes. -/
theorem leBytes_ofLE (bs : List UInt8) : leBytes bs.length (ofLE bs) = bs := by
  induction bs with
  | nil => rfl
  | cons b bs ih =>
      have hb := b.toNat_lt
      have hlow : byteAt (b.toNat + 256 * ofLE bs) 0 = b := by
        rw [← UInt8.toNat_inj, toNat_byteAt, pow_zero, Nat.div_one, Nat.add_mul_mod_self_left]
        omega
      rw [List.length_cons, leBytes_succ, ofLE_cons, hlow,
        show (b.toNat + 256 * ofLE bs) / 256 = ofLE bs by omega, ih]

end Basis
