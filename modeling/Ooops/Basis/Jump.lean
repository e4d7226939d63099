import Mathlib.Logic.Relation
import Ooops.Basis.Memory

/-!
# Jumps

Two jumps of the x86-64 instruction set: the relative one, with a displacement of 32 bits
that is counted from the end of the instruction, and the one to an address that is stored in
memory. `JumpsTo m a b` says that the code at `a` goes on at `b`, by jumps alone.
-/

namespace Basis

/-- An address that has been computed. -/
def wrapAddr (x : ℤ) : ℕ := (x % 2 ^ 64).toNat

theorem wrapAddr_natCast {a : ℕ} (h : a < 2 ^ 64) : wrapAddr a = a := by
  rw [wrapAddr]
  omega

/-- Where the processor goes on after the jump at `rip`, if there is one. -/
def jumpFrom (m : Memory) (rip : ℕ) : Option ℕ :=
  if m rip = 0xE9 then some (wrapAddr (rip + 5 + m.readInt32 (rip + 1)))
  else if m rip = 0xFF ∧ m (rip + 1) = 0x25 then
    some (ofLE (m.read (wrapAddr (rip + 6 + m.readInt32 (rip + 2))) 8))
  else none

/-- The code at one address goes on at the other one, after any number of jumps. -/
def JumpsTo (m : Memory) : ℕ → ℕ → Prop :=
  Relation.ReflTransGen fun a b => jumpFrom m a = some b

variable {m : Memory} {a b c : ℕ}

/-- A relative jump. -/
theorem jumpFrom_relative (hop : m a = 0xE9) (hb : (a : ℤ) + 5 + m.readInt32 (a + 1) = b)
    (hlt : b < 2 ^ 64) : jumpFrom m a = some b := by
  rw [jumpFrom, if_pos hop, hb, wrapAddr_natCast hlt]

/-- A jump to the address that is stored behind it. -/
theorem jumpFrom_stored (hcode : m.read a 6 = [0xFF, 0x25, 0, 0, 0, 0]) (hlt : a + 6 < 2 ^ 64) :
    jumpFrom m a = some (ofLE (m.read (a + 6) 8)) := by
  have hbyte : ∀ i < 6, m (a + i) = [0xFF, 0x25, 0, 0, 0, 0].getD i 0 := by
    intro i hi
    have hget := Memory.getElem?_read m a hi
    rw [hcode] at hget
    rw [List.getD_eq_getElem?_getD, hget, Option.getD_some]
  have hop := hbyte 0 (by norm_num)
  have hmod := hbyte 1 (by norm_num)
  have hdisp : m.readInt32 (a + 2) = 0 := by
    have hread : m.read (a + 2) 4 = Memory.read (fun _ => 0) 0 4 := by
      refine Memory.read_congr fun i hi => ?_
      rw [Nat.add_assoc, hbyte (2 + i) (by omega)]
      interval_cases i <;> rfl
    have hzero : ofLE (Memory.read (fun _ => 0) 0 4) = 0 := by decide
    rw [Memory.readInt32, hread, hzero]
    exact wrapInt32_eq_self (by norm_num) (by norm_num)
  have hne : m a ≠ 0xE9 := fun h => absurd (hop.symm.trans h) (by decide)
  have hnext : ((a : ℤ) + 6 + 0) = (a + 6 : ℕ) := by rw [add_zero]; rfl
  rw [jumpFrom, if_neg hne, if_pos ⟨hop, hmod⟩, hdisp, hnext, wrapAddr_natCast hlt]

theorem JumpsTo.jump (h : jumpFrom m a = some b) (hrest : JumpsTo m b c) : JumpsTo m a c :=
  Relation.ReflTransGen.head h hrest

end Basis
