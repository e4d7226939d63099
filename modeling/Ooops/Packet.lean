import Mathlib.Data.List.FinRange
import Ooops.Basis.Bytes
import Ooops.Basis.CInt

/-!
# Data Packets

A client sends its counters in records of 264 bytes: a tag, the rank that the daemon has
given it, and the 32 counters of its node's shared segment, all in the byte order of the
machine. `OoopsData.toBytes` is what the client writes and `OoopsData.ofBytes` what the
daemon finds in its buffer.

* `ofBytes_toBytes`: the daemon reads what the client has written.
-/

open Basis

namespace Ooops

/-- The counters of a node: `long int [MAX_FS_SERVER*4]`. -/
abbrev Counters := Fin 32 → BitVec 64

/-- `DATA_TAG`: the letters "DATA". -/
def dataTag : ℕ := 0x41544144

/-- `OOOPSDATA`. -/
structure OoopsData where
  tag : ℕ
  rank : ℤ
  counter : Counters

/-- `sizeof(OOOPSDATA)`. -/
def sizeofOoopsData : ℕ := 264

/-- The number in the `len` bytes of a buffer from `off` on. -/
def bufferField (buf : List UInt8) (off len : ℕ) : ℕ := ofLE ((buf.drop off).take len)

namespace OoopsData

/-- The record at the start of a buffer. -/
def ofBytes (buf : List UInt8) : OoopsData where
  tag := bufferField buf 0 4
  rank := wrapInt32 (bufferField buf 4 4)
  counter := fun i => BitVec.ofNat 64 (bufferField buf (8 + 8 * i) 8)

/-- The bytes of a record. -/
def toBytes (p : OoopsData) : List UInt8 :=
  leBytes 4 p.tag ++ leBytes 4 (p.rank % 2 ^ 32).toNat ++
    (List.finRange 32).flatMap fun i => leBytes 8 (p.counter i).toNat

/-- What the client at a rank sends. -/
def ofClient (rank : ℤ) (counter : Counters) : OoopsData := ⟨dataTag, rank, counter⟩

/-- The fields of a record are in range. -/
structure Valid (p : OoopsData) : Prop where
  tag_lt : p.tag < 2 ^ 32
  rank_ge : -2 ^ 31 ≤ p.rank
  rank_lt : p.rank < 2 ^ 31

theorem length_flatMap_leBytes {n : ℕ} (l : List (Fin n)) (f : Fin n → ℕ) :
    (l.flatMap fun i => leBytes 8 (f i)).length = 8 * l.length := by
  induction l with
  | nil => rfl
  | cons i l ih =>
      rw [List.flatMap_cons, List.length_append, ih, length_leBytes, List.length_cons]
      omega

@[simp] theorem length_toBytes (p : OoopsData) : p.toBytes.length = sizeofOoopsData := by
  simp only [toBytes, List.length_append, length_leBytes, length_flatMap_leBytes,
    List.length_finRange]
  rfl

/-- The number at an index of a row of numbers of eight bytes. -/
theorem take_drop_flatMap {n : ℕ} (l : List (Fin n)) (f : Fin n → ℕ) {k : ℕ}
    (hk : k < l.length) :
    ((l.flatMap fun i => leBytes 8 (f i)).drop (8 * k)).take 8 = leBytes 8 (f l[k]) := by
  induction l generalizing k with
  | nil => exact absurd hk (Nat.not_lt_zero k)
  | cons i l ih =>
      rw [List.flatMap_cons]
      cases k with
      | zero =>
          rw [Nat.mul_zero, List.drop_zero, List.take_left' (length_leBytes 8 _)]
          rfl
      | succ k =>
          have hsplit : 8 * (k + 1) = 8 + 8 * k := by omega
          rw [hsplit, ← List.drop_drop, List.drop_left' (length_leBytes 8 _),
            ih (Nat.lt_of_succ_lt_succ hk)]
          rfl

/-- The daemon reads what the client has written. -/
theorem ofBytes_toBytes {p : OoopsData} (h : p.Valid) : ofBytes p.toBytes = p := by
  obtain ⟨tag, rank, counter⟩ := p
  obtain ⟨htag, hge, hlt⟩ := h
  have htag' : bufferField (toBytes ⟨tag, rank, counter⟩) 0 4 = tag := by
    rw [bufferField, List.drop_zero, toBytes, List.append_assoc,
      List.take_left' (length_leBytes 4 _), ofLE_leBytes]
    exact Nat.mod_eq_of_lt htag
  have hrank' : bufferField (toBytes ⟨tag, rank, counter⟩) 4 4 = (rank % 2 ^ 32).toNat := by
    rw [bufferField, toBytes, List.append_assoc, List.drop_left' (length_leBytes 4 _),
      List.take_left' (length_leBytes 4 _), ofLE_leBytes]
    exact Nat.mod_eq_of_lt (by omega)
  have hcounter (i : Fin 32) :
      bufferField (toBytes ⟨tag, rank, counter⟩) (8 + 8 * i) 8 = (counter i).toNat := by
    have hi : (i : ℕ) < (List.finRange 32).length := by
      rw [List.length_finRange]
      exact i.isLt
    rw [bufferField, toBytes, ← List.drop_drop,
      List.drop_left' (by simp only [List.length_append, length_leBytes]),
      take_drop_flatMap _ _ hi, ofLE_leBytes, List.getElem_finRange]
    exact Nat.mod_eq_of_lt (counter i).isLt
  have hint : wrapInt32 ((rank % 2 ^ 32).toNat : ℕ) = rank := by
    have hcast : (((rank % 2 ^ 32).toNat : ℕ) : ℤ) = rank % 2 ^ 32 := by omega
    rw [hcast, wrapInt32_emod, wrapInt32_eq_self hge hlt]
  have hlong : (fun i : Fin 32 => BitVec.ofNat 64
      (bufferField (toBytes ⟨tag, rank, counter⟩) (8 + 8 * i) 8)) = counter := by
    funext i
    rw [hcounter, BitVec.ofNat_toNat, BitVec.setWidth_eq]
  rw [ofBytes, htag', hrank', hint, hlong]

end OoopsData

end Ooops
