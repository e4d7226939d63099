import Ooops.Basis.Memory
import Ooops.Server
import Ooops.SharedMutex

/-!
# The Counter Area

The library counts in `int`s that lie eight bytes apart in the shared segment. The daemon,
the client and the aggregator copy the same bytes as `long`s. The segment is zero-filled
when it is created and nothing writes the upper half of a `long`, so that what they read is
the counter as long as it has 32 bits, while the library itself sees a negative number from
`2 ^ 31` calls on and stops comparing time stamps.

* `counterAddr` is where `Init_Shared_Mutex` puts a counter, and `readCounters` what the
  other programs copy.
* `Holds` says that the area holds the counters of the segment; `Holds.advance` that a
  critical section keeps it so, and `Holds.account` that the accounting of a call does.
* `counter_width_iff`: the `long` is the number of calls and the next call may be delayed,
  exactly below `2 ^ 31` calls.
-/

open Basis

namespace Ooops

/-- The kind of a counter in the area. -/
def kindOf : Counter → Op → Fin 4
  | .count, .openFile => 0
  | .delayedCount, .openFile => 1
  | .count, .lxstat => 2
  | .delayedCount, .lxstat => 3

/-- The address of a counter, in the area that starts at `pData`, behind the mutexes. -/
def counterAddr (pData : ℕ) (k : Counter) (op : Op) (i : FsIdx) : ℕ :=
  pData + 8 * i + 8 * 8 * kindOf k op

/-- The copy that the other programs make of the area, as an array of `long`s. -/
def readCounters (m : Memory) (pData : ℕ) : Counters := fun idx =>
  BitVec.ofNat 64 (ofLE (m.read (pData + 8 * idx) 8))

/-- A critical section: read the counter into `nCall_New` and write one more. -/
def advance (pData : ℕ) (m : Memory) (c : Counter × Op × FsIdx) : Memory :=
  let p := counterAddr pData c.1 c.2.1 c.2.2
  let nCallNew := m.readInt32 p
  m.writeInt32 p (nCallNew + 1)

/-- The area of a new segment. -/
def ZeroFilled (pData : ℕ) (m : Memory) : Prop := ∀ x < 8 * 8 * 4, m (pData + x) = 0

/-- The area holds the counters of a segment, each in the lower half of its eight bytes. -/
structure Holds (pData : ℕ) (m : Memory) (counter : Counter → Op → FsIdx → ℤ) : Prop where
  lower : ∀ k op i, m.readInt32 (counterAddr pData k op i) = counter k op i
  upper : ∀ k op i, ∀ b < 4, m (counterAddr pData k op i + 4 + b) = 0

section Area

variable {pData : ℕ} {m : Memory} {counter : Counter → Op → FsIdx → ℤ}

/-- Two counters share no byte. -/
theorem counterAddr_disjoint (pData : ℕ) {k k' : Counter} {op op' : Op} {i i' : FsIdx}
    (h : ¬(k' = k ∧ op' = op ∧ i' = i)) :
    counterAddr pData k op i + 8 ≤ counterAddr pData k' op' i' ∨
      counterAddr pData k' op' i' + 8 ≤ counterAddr pData k op i := by
  have hkind : kindOf k op = kindOf k' op' → k' = k ∧ op' = op := by
    cases k <;> cases op <;> cases k' <;> cases op' <;> simp [kindOf]
  simp only [counterAddr]
  by_cases hk : kindOf k op = kindOf k' op'
  · obtain ⟨rfl, rfl⟩ := hkind hk
    have hi : i'.val ≠ i.val := fun hi => h ⟨rfl, rfl, Fin.ext hi⟩
    omega
  · have hval : (kindOf k op).val ≠ (kindOf k' op').val := fun hval => hk (Fin.ext hval)
    omega

/-- Every counter lies in the area. -/
theorem counterAddr_eq_add (pData : ℕ) (k : Counter) (op : Op) (i : FsIdx) {b : ℕ} (hb : b < 8) :
    ∃ x < 8 * 8 * 4, counterAddr pData k op i + b = pData + x :=
  ⟨8 * i + 8 * 8 * kindOf k op + b, by omega, by rw [counterAddr]; omega⟩

/-- A new segment holds zeros. -/
theorem ZeroFilled.holds (h : ZeroFilled pData m) : Holds pData m Shared.zero.counter := by
  have hbyte (k : Counter) (op : Op) (i : FsIdx) {b : ℕ} (hb : b < 8) :
      m (counterAddr pData k op i + b) = 0 := by
    obtain ⟨x, hx, haddr⟩ := counterAddr_eq_add pData k op i hb
    rw [haddr]
    exact h x hx
  constructor
  · intro k op i
    have hzero := hbyte k op i (b := 0) (by omega)
    rw [Nat.add_zero] at hzero
    rw [Memory.readInt32, Memory.ofLE_read_four, hzero, hbyte k op i (by omega),
      hbyte k op i (by omega), hbyte k op i (by omega)]
    simp [wrapInt32, Shared.zero]
  · intro k op i b hb
    rw [Nat.add_assoc]
    exact hbyte k op i (by omega)

/-- A critical section leaves the bytes of the other counters alone. -/
theorem advance_of_outside {k : Counter} {op : Op} {i : FsIdx} {x : ℕ}
    (h : x < counterAddr pData k op i ∨ counterAddr pData k op i + 4 ≤ x) :
    advance pData m (k, op, i) x = m x :=
  Memory.writeInt32_of_outside h

/-- **A critical section** counts one more, in an `int`. -/
theorem Holds.advance (h : Holds pData m counter) (k : Counter) (op : Op) (i : FsIdx) :
    Holds pData (Ooops.advance pData m (k, op, i))
      fun k' op' i' => if k' = k ∧ op' = op ∧ i' = i then wrapInt32 (counter k op i + 1)
        else counter k' op' i' := by
  constructor
  · intro k' op' i'
    split_ifs with hsame
    · obtain ⟨rfl, rfl, rfl⟩ := hsame
      rw [Ooops.advance, Memory.readInt32_writeInt32, h.lower]
    · have hdisj := counterAddr_disjoint pData hsame
      rw [← h.lower k' op' i']
      exact Memory.readInt32_congr fun b hb => advance_of_outside (by omega)
  · intro k' op' i' b hb
    rw [← h.upper k' op' i' b hb]
    refine advance_of_outside ?_
    by_cases hsame : k' = k ∧ op' = op ∧ i' = i
    · obtain ⟨rfl, rfl, rfl⟩ := hsame
      exact .inr (by omega)
    · have hdisj := counterAddr_disjoint pData hsame
      omega

/-- Critical sections count what they are, in an `int`. -/
theorem Holds.foldl_advance {n : Counter → Op → FsIdx → ℕ}
    (h : Holds pData m fun k op i => wrapInt32 (n k op i)) (cs : List (Counter × Op × FsIdx)) :
    Holds pData (cs.foldl (Ooops.advance pData) m)
      fun k op i => wrapInt32 (n k op i + cs.count (k, op, i) : ℕ) := by
  induction cs generalizing m n with
  | nil => exact h
  | cons c cs ih =>
      obtain ⟨k, op, i⟩ := c
      have hone := h.advance k op i
      have hcount : (fun k' op' i' => if k' = k ∧ op' = op ∧ i' = i then
            wrapInt32 (wrapInt32 (n k op i) + 1) else wrapInt32 (n k' op' i')) =
          fun k' op' i' => wrapInt32 (n k' op' i' +
            if (k', op', i') = (k, op, i) then 1 else 0 : ℕ) := by
        funext k' op' i'
        by_cases hsame : k' = k ∧ op' = op ∧ i' = i
        · obtain ⟨rfl, rfl, rfl⟩ := hsame
          simp [wrapInt32_add_one]
        · rw [if_neg hsame, if_neg fun he => hsame (by simpa using he)]
          rfl
      rw [hcount] at hone
      have htotal (k' : Counter) (op' : Op) (i' : FsIdx) :
          n k' op' i' + ((k, op, i) :: cs).count (k', op', i') =
            (n k' op' i' + if (k', op', i') = (k, op, i) then 1 else 0) +
              cs.count (k', op', i') := by
        by_cases he : (k', op', i') = (k, op, i)
        · rw [he, List.count_cons_self, if_pos rfl]
          omega
        · rw [List.count_cons_of_ne (Ne.symm he), if_neg he, Nat.add_zero]
      simp only [List.foldl_cons, htotal]
      exact ih hone

/-- What the other programs read is the lower half. -/
theorem Holds.readCounters_eq (h : Holds pData m counter) (k : Counter) (op : Op)
    (i : FsIdx) :
    readCounters m pData (counterIdx (kindOf k op) i) =
      BitVec.ofNat 64 (counter k op i % 2 ^ 32).toNat := by
  set p := counterAddr pData k op i with hp
  have haddr : pData + 8 * (counterIdx (kindOf k op) i).val = p := by
    have hidx : (counterIdx (kindOf k op) i).val = kindOf k op * 8 + i := rfl
    rw [hp, counterAddr, hidx]
    omega
  have hupper : m.read (p + 4) 4 = [0, 0, 0, 0] := by
    have hread : m.read (p + 4) 4 =
        [m (p + 4 + 0), m (p + 4 + 1), m (p + 4 + 2), m (p + 4 + 3)] := rfl
    have hzero (b : ℕ) (hb : b < 4) : m (p + 4 + b) = 0 := h.upper k op i b hb
    rw [hread, hzero 0 (by omega), hzero 1 (by omega), hzero 2 (by omega), hzero 3 (by omega)]
  have hlt : ofLE (m.read p 4) < 256 ^ 4 := by
    have hlt := ofLE_lt (m.read p 4)
    rwa [Memory.length_read] at hlt
  have hlow : ofLE (m.read p 4) = (counter k op i % 2 ^ 32).toNat := by
    rw [← h.lower k op i, ← hp, Memory.readInt32, emod_wrapInt32]
    omega
  have hsplit : m.read p 8 = m.read p 4 ++ m.read (p + 4) 4 := rfl
  rw [readCounters, haddr, hsplit, ofLE_append, Memory.length_read, hupper, hlow]
  rfl

/-- The accounting of a call is one or two critical sections, and the area follows. -/
theorem Holds.account {locked : Op → Bool} {v : View}
    (h : Holds pData m (Shared.ofShm locked v.shm).counter) (op : Op) (i : FsIdx)
    (e : CallEnv) :
    ∃ delayed : Bool, Holds pData
      ((if delayed then [(.count, op, i), (.delayedCount, op, i)]
        else [(.count, op, i)]).foldl (Ooops.advance pData) m)
      (Shared.ofShm locked (Ooops.account op i v e).shm).counter := by
  obtain ⟨delayed, hacc⟩ := account_counters op i v e locked
  refine ⟨delayed, ?_⟩
  rw [hacc]
  have hone := h.advance .count op i
  cases delayed with
  | false => exact hone
  | true =>
      have htwo := hone.advance .delayedCount op i
      simp only [reduceCtorEq, false_and, if_false] at htwo
      exact htwo

/-- Below four calls, and where the counter is negative, a call is not compared with another
one. -/
theorem account_of_le {op : Op} {i : FsIdx} {v : View} (h : (v.shm op i).count ≤ 3)
    (e : CallEnv) : Ooops.account op i v e = enter op i v e := by
  rw [Ooops.account]
  exact if_neg (by omega)

/-- The library reads the number of calls, in an `int`. -/
theorem readInt32_foldl (hzero : ZeroFilled pData m) (cs : List (Counter × Op × FsIdx))
    (k : Counter) (op : Op) (i : FsIdx) :
    (cs.foldl (advance pData) m).readInt32 (counterAddr pData k op i) =
      wrapInt32 (cs.count (k, op, i)) := by
  have hall := (hzero.holds.foldl_advance (n := fun _ _ _ => 0) cs).lower k op i
  rwa [Nat.zero_add] at hall

/-- The other programs read the lower half of that number. -/
theorem toInt_readCounters_foldl (hzero : ZeroFilled pData m)
    (cs : List (Counter × Op × FsIdx)) (k : Counter) (op : Op) (i : FsIdx) :
    (readCounters (cs.foldl (advance pData) m) pData
      (counterIdx (kindOf k op) i)).toInt = (cs.count (k, op, i) % 2 ^ 32 : ℕ) := by
  have hall := (hzero.holds.foldl_advance (n := fun _ _ _ => 0) cs).readCounters_eq k op i
  have hlow : (wrapInt32 (cs.count (k, op, i)) % 2 ^ 32).toNat =
      cs.count (k, op, i) % 2 ^ 32 := by
    rw [emod_wrapInt32]
    omega
  rw [Nat.zero_add, hlow] at hall
  rw [hall, BitVec.toInt_eq_toNat_of_lt (by rw [BitVec.toNat_ofNat]; omega), BitVec.toNat_ofNat]
  omega

/-- **Counter width.** After any critical sections on a new segment the other programs read
the number of calls and the next call may be delayed, exactly below `2 ^ 31` calls. -/
theorem counter_width_iff (hzero : ZeroFilled pData m) (cs : List (Counter × Op × FsIdx))
    (op : Op) (i : FsIdx) :
    ((readCounters (cs.foldl (advance pData) m) pData
        (counterIdx (kindOf .count op) i)).toInt = cs.count (.count, op, i) ∧
      (3 < cs.count (.count, op, i) →
        3 < (cs.foldl (advance pData) m).readInt32 (counterAddr pData .count op i))) ↔
      cs.count (.count, op, i) < 2 ^ 31 := by
  rw [toInt_readCounters_foldl hzero, readInt32_foldl hzero]
  set n := cs.count (.count, op, i)
  constructor
  · rintro ⟨hlong, hgate⟩
    have hn : n < 2 ^ 32 := by omega
    by_contra hge
    have hopen := hgate (by omega)
    have hemod := emod_wrapInt32 n
    have hbounds := wrapInt32_bounds n
    omega
  · intro hn
    rw [wrapInt32_eq_self (by omega) (by omega), Nat.mod_eq_of_lt (by omega)]
    exact ⟨rfl, fun h => by omega⟩

/-- Five opens on the first server, one of them delayed. -/
def fiveOpens : List (Counter × Op × FsIdx) :=
  [(.count, .openFile, 0), (.count, .openFile, 0), (.count, .openFile, 0),
    (.count, .openFile, 0), (.delayedCount, .openFile, 0), (.count, .openFile, 0)]

/-- All five are read. -/
theorem counter_width_five_opens :
    (readCounters (fiveOpens.foldl (advance 80) fun _ => 0) 80 (counterIdx 0 0)).toInt = 5 := by
  have hzero : ZeroFilled 80 fun _ => 0 := fun _ _ => rfl
  exact ((counter_width_iff hzero fiveOpens .openFile 0).mpr (by decide)).1

/-- After `2 ^ 31` opens the library reads a negative number, and after `2 ^ 32` opens the
other programs read `0`. -/
theorem counter_width_overflow :
    ((List.replicate (2 ^ 31) (Counter.count, Op.openFile, (0 : FsIdx))).foldl
        (advance 80) fun _ => 0).readInt32 (counterAddr 80 .count .openFile 0) =
          -2 ^ 31 ∧
      (readCounters ((List.replicate (2 ^ 32) (Counter.count, Op.openFile, (0 : FsIdx))).foldl
        (advance 80) fun _ => 0) 80 (counterIdx 0 0)).toInt = 0 := by
  have hzero : ZeroFilled 80 fun _ => 0 := fun _ _ => rfl
  have hkind : (0 : Fin 4) = kindOf .count .openFile := rfl
  constructor
  · rw [readInt32_foldl hzero, List.count_replicate_self]
    rfl
  · rw [hkind, toInt_readCounters_foldl hzero, List.count_replicate_self]
    rfl

end Area

end Ooops
