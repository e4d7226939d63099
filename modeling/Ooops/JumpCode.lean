import Mathlib.Algebra.Order.Group.Abs
import Ooops.HookTable

/-!
# The Code in a Slot

A trampoline slot has `MAX_TRAMPOLINE_LEN` bytes for the code that is copied from the entry of
a function and for the jump back, with the bounce code behind them. That is enough for one
instruction of the greatest length, but up to four bytes of other instructions can be copied
before it.

The jumps themselves are 32 bits wide. What is stored is the difference of two addresses, cut
to an `int`, which the processor extends by its sign again. For a page that
`find_usable_block` accepts nothing is lost.

## Main results

* `savedCode_fits_iff`: exactly when the copied code leaves the bounce code alone.
* `jumps_reach`: both jumps lead where they should, and the entry that is overwritten is in
  the pages that are made writable.
-/

open Basis Basis.Memory

namespace Ooops

/-- `MAX_TRAMPOLINE_LEN`: one instruction (`MAX_INSN_LEN`) and one jump. -/
def maxTrampolineLen : ℕ := 15 + 5

/-! ### The space for the copied code -/

section

variable (u : Udis86) {slot addr newFunc : ℕ} (m : Memory)

/-- What is copied ends with the last instruction that starts in the first five bytes. -/
theorem Udis86.savedCodeLen_le_iff {n : ℕ} : (u.scan m addr).savedCodeLen ≤ n ↔
    ∀ e ∈ u.entry m addr, e.1 + e.2.len ≤ n := by
  obtain ⟨pre, last, hshape, -, hres⟩ := u.scan_spec m addr
  have hlen : (u.scan m addr).savedCodeLen = last.1 + last.2.len := by
    generalize u.scan m addr = e at hres ⊢
    cases hres <;> rfl
  rw [hlen, hshape.eq]
  constructor
  · intro hle e he
    rcases List.mem_append.mp he with he | he
    · have := (hshape.before e he).2
      omega
    · rw [List.mem_singleton.mp he]
      exact hle
  · intro h
    exact h last (List.mem_append_right _ (List.mem_singleton_self _))

/-- The slot of a function before its entry is patched. -/
def readySlot (slot addr newFunc : ℕ) (m : Memory) : Memory :=
  saveOrgCode addr slot (prepareSlot u slot addr newFunc m)

/-- What is written last in a slot is kept, apart from the saved bytes. -/
theorem readySlot_apply {x : ℕ} (hx : slot + (u.scan m addr).savedCodeLen ≤ x)
    (hx' : x < slot + 36) : readySlot u slot addr newFunc m x =
      copyEntry (u.scan m addr).savedCodeLen addr slot
        (writeHeader (u.scan m addr) addr slot newFunc m) x := by
  rw [readySlot, saveOrgCode_outside _ (.inl hx'), prepareSlot,
    relocateEntry_outside (u.scan_fits m addr) (.inr hx)]

/-- The bounce code is complete if the copied code and the jump back end before it. -/
theorem readySlot_bounce (hfits : (u.scan m addr).savedCodeLen + 5 ≤ maxTrampolineLen) :
    (readySlot u slot addr newFunc m).read (slot + 20) 14 = bounceCode newFunc := by
  rw [maxTrampolineLen] at hfits
  have hself := read_write_self (((m.write (slot + 48) (leBytes 8 addr)).writeInt32 (slot + 60)
    (u.scan m addr).offsetRipVar).writeInt32 (slot + 56) (u.scan m addr).savedCodeLen)
    (slot + 20) (bounceCode newFunc)
  rw [length_bounceCode] at hself
  rw [← hself]
  refine read_congr fun i hi => ?_
  rw [readySlot_apply u m (by omega) (by omega), copyEntry_outside (by omega)]
  rfl

/-- The jump back stands behind the copied code. -/
theorem readySlot_back :
    readySlot u slot addr newFunc m (slot + (u.scan m addr).savedCodeLen) = 0xE9 ∧
      (readySlot u slot addr newFunc m).readInt32 (slot + (u.scan m addr).savedCodeLen + 1) =
        wrapInt32 ((addr : ℤ) - (slot + 5)) := by
  have hle := (u.scan_fits m addr).le_nineteen
  constructor
  · rw [readySlot_apply u m le_rfl (by omega), copyEntry, writeInt32_of_outside (by omega)]
    exact @write_add 0 [0xE9] _ _ Nat.zero_lt_one
  · rw [← readInt32_writeInt32 ((((writeHeader (u.scan m addr) addr slot newFunc m).write slot
      ((writeHeader (u.scan m addr) addr slot newFunc m).read addr
        (u.scan m addr).savedCodeLen)).write (slot + (u.scan m addr).savedCodeLen) [0xE9]))]
    exact readInt32_congr fun i hi => readySlot_apply u m (by omega) (by omega)

/-- **Exactly when the saved code fits**: no instruction that starts in the first five bytes of
the entry ends behind its first 15 bytes. The bounce code is left alone then. -/
theorem savedCode_fits_iff :
    (5 ≤ (u.scan m addr).savedCodeLen ∧
      (u.scan m addr).savedCodeLen + 5 ≤ maxTrampolineLen ∧
      (readySlot u slot addr newFunc m).read (slot + 20) 14 = bounceCode newFunc) ↔
    ∀ e ∈ u.entry m addr, e.1 + e.2.len ≤ 15 := by
  rw [← u.savedCodeLen_le_iff m]
  constructor
  · rintro ⟨-, hfits, -⟩
    rw [maxTrampolineLen] at hfits
    omega
  · intro hle
    have hfits : (u.scan m addr).savedCodeLen + 5 ≤ maxTrampolineLen := by
      rw [maxTrampolineLen]
      omega
    exact ⟨(u.scan_fits m addr).five_le, hfits, readySlot_bounce u m hfits⟩

end

/-! ### The page range of an entry -/

/-- `mask`: all bits but those of an offset inside a page. -/
def pageMask (pageSize : ℕ) : ℕ := 2 ^ 64 - 1 - (pageSize - 1)

/-- `pbaseOrg`: the page of an address. -/
def pageBase (addr pageSize : ℕ) : ℕ := addr &&& pageMask pageSize

/-- `determine_mem_block_size`. -/
def determineMemBlockSize (addr pageSize : ℕ) : ℕ :=
  if addr % pageSize + 5 > pageSize then pageSize * 2 else pageSize

/-- The mask cuts off the offset. -/
theorem pageBase_add_mod {addr k : ℕ} (haddr : addr < 2 ^ 64) (hk : k ≤ 64) :
    pageBase addr (2 ^ k) + addr % 2 ^ k = addr := by
  have hpow : 2 ^ k * 2 ^ (64 - k) = 2 ^ 64 := by rw [← pow_add, Nat.add_sub_cancel' hk]
  have hmask : pageMask (2 ^ k) = 2 ^ k * (2 ^ (64 - k) - 1) := by
    have hpos := Nat.two_pow_pos k
    have hle : 2 ^ k ≤ 2 ^ 64 := Nat.pow_le_pow_right (by norm_num) hk
    rw [pageMask, Nat.mul_sub, hpow, mul_one]
    omega
  have hbase : pageBase addr (2 ^ k) = 2 ^ k * (addr / 2 ^ k) := by
    refine Nat.eq_of_testBit_eq fun i => ?_
    rw [pageBase, hmask, Nat.testBit_and, Nat.testBit_two_pow_mul, Nat.testBit_two_pow_mul,
      Nat.testBit_two_pow_sub_one, Nat.testBit_div_two_pow]
    by_cases hi : k ≤ i
    · rw [Nat.sub_add_cancel hi]
      rcases Nat.lt_or_ge i 64 with hlt | hge
      · simp [hi, show i - k < 64 - k by omega]
      · have hzero : addr.testBit i = false :=
          Nat.testBit_lt_two_pow (haddr.trans_le (Nat.pow_le_pow_right (by norm_num) hge))
        simp [hzero]
    · simp [hi]
  rw [hbase, Nat.div_add_mod]

/-- The entry is inside the pages that are made writable. -/
theorem entry_in_pages {addr k : ℕ} (haddr : addr < 2 ^ 64) (hlow : 12 ≤ k) (hk : k ≤ 64) :
    pageBase addr (2 ^ k) ≤ addr ∧
      addr + 5 ≤ pageBase addr (2 ^ k) + determineMemBlockSize addr (2 ^ k) := by
  have hsplit := pageBase_add_mod haddr hk
  have hpage : 2 ^ 12 ≤ 2 ^ k := Nat.pow_le_pow_right (by norm_num) hlow
  have hmod := Nat.mod_lt addr (Nat.two_pow_pos k)
  rw [determineMemBlockSize]
  refine ⟨by omega, ?_⟩
  split <;> omega

/-! ### The jumps -/

/-- The jump of the entry at `addr` leads to the bounce code of the slot. -/
def EntryReaches (m : Memory) (addr slot : ℕ) : Prop :=
  m addr = 0xE9 ∧ (addr : ℤ) + 5 + m.readInt32 (addr + 1) = slot + 20

/-- The bounce code of the slot jumps to the new function, and the jump behind the `n` bytes of
copied code leads back behind what has been copied. -/
structure SlotReaches (m : Memory) (slot addr n newFunc : ℕ) : Prop where
  bounce : m.read (slot + 20) 14 = bounceCode newFunc
  target : ofLE (m.read (slot + 26) 8) = newFunc
  opcode : m (slot + n) = 0xE9
  back : (slot : ℤ) + n + 5 + m.readInt32 (slot + n + 1) = addr + n

/-- A displacement that fits an `int` leads to its target. -/
theorem readInt32_reaches {m : Memory} {a : ℕ} {d : ℤ} (h : m.readInt32 a = wrapInt32 d)
    (hlow : -2 ^ 31 ≤ d) (hhigh : d < 2 ^ 31) : m.readInt32 a = d := by
  rw [h, wrapInt32_eq_self hlow hhigh]

section

variable (u : Udis86) {slot addr newFunc : ℕ} (m : Memory)

/-- The jump at the entry, which is written last. -/
theorem installOne_reaches (hlow : -2 ^ 31 ≤ (slot : ℤ) + 20 - addr - 5)
    (hhigh : (slot : ℤ) + 20 - addr - 5 < 2 ^ 31) :
    EntryReaches (installOne u slot addr newFunc m) addr slot := by
  have hread := readInt32_writeInt32
    ((saveOrgCode addr slot (prepareSlot u slot addr newFunc m)).write addr [0xE9]) (addr + 1)
    ((slot : ℤ) + 20 - addr - 5)
  rw [← patchEntry, ← installOne] at hread
  refine ⟨?_, ?_⟩
  · rw [installOne, patchEntry, writeInt32_of_outside (by omega)]
    exact @write_add 0 [0xE9] _ _ Nat.zero_lt_one
  · rw [readInt32_reaches hread hlow hhigh]
    omega

/-- The jumps of a slot, before the entry is patched. -/
theorem readySlot_reaches (hnew : newFunc < 2 ^ 64)
    (hfits : (u.scan m addr).savedCodeLen + 5 ≤ maxTrampolineLen)
    (hlow : -2 ^ 31 ≤ (addr : ℤ) - (slot + 5)) (hhigh : (addr : ℤ) - (slot + 5) < 2 ^ 31) :
    SlotReaches (readySlot u slot addr newFunc m) slot addr (u.scan m addr).savedCodeLen
      newFunc := by
  have hbounce := @readySlot_bounce u slot addr newFunc m hfits
  obtain ⟨hop, hback⟩ := @readySlot_back u slot addr newFunc m
  refine ⟨hbounce, ?_, hop, ?_⟩
  · have hsplit : (readySlot u slot addr newFunc m).read (slot + 20) 6 ++
        (readySlot u slot addr newFunc m).read (slot + 26) 8 =
        [0xFF, 0x25, 0x00, 0x00, 0x00, 0x00] ++ leBytes 8 newFunc := by
      rw [← read_add]
      exact hbounce
    obtain ⟨-, htarget⟩ := List.append_inj hsplit (by rw [length_read]; rfl)
    rw [htarget, ofLE_leBytes]
    exact Nat.mod_eq_of_lt hnew
  · rw [readInt32_reaches hback hlow hhigh]
    omega

/-- The patch leaves a slot alone that is apart from the entry. -/
theorem SlotReaches.patched {m : Memory} {n : ℕ} (h : SlotReaches m slot addr n newFunc)
    (hn : n + 5 ≤ maxTrampolineLen) (hsep : addr + 5 ≤ slot ∨ slot + 64 ≤ addr) :
    SlotReaches (patchEntry addr slot m) slot addr n newFunc := by
  rw [maxTrampolineLen] at hn
  have hkeep : ∀ x, slot ≤ x → x < slot + 64 → patchEntry addr slot m x = m x :=
    fun x hx hx' => patchEntry_outside _ (by omega)
  refine ⟨?_, ?_, ?_, ?_⟩
  · rw [← h.bounce]
    exact read_congr fun i hi => hkeep _ (by omega) (by omega)
  · rw [← h.target]
    exact congrArg ofLE (read_congr fun i hi => hkeep _ (by omega) (by omega))
  · rw [← h.opcode]
    exact hkeep _ (by omega) (by omega)
  · rw [← h.back]
    refine congrArg (fun d : ℤ => (slot : ℤ) + n + 5 + d) ?_
    exact readInt32_congr fun i hi => hkeep _ (by omega) (by omega)

end

/-- **The jumps lead where they should.** The page of the module has been accepted, the function
is in the range of the module, and what is copied is at most 15 bytes long. Then the jump at the
entry leads to the bounce code, the bounce code holds the address of the new function, the
jump back leads behind what has been copied, and the pages that are made writable contain
the entry. -/
theorem jumps_reach (u : Udis86) (m : Memory) {patchBlks : List PatchBlock}
    {md : ModulePatchInfo} {i : ℕ} {b : PatchBlock} {addr k newFunc bits : ℕ}
    (hfind : findUsableBlock patchBlks md = some i) (hb : patchBlks[i]? = some b)
    (hmin : md.oldFuncAddrMin ≤ addr) (hmax : addr ≤ md.oldFuncAddrMax)
    (hslot : 64 * k + 64 ≤ 4096) (hlen : (u.scan m addr).savedCodeLen ≤ 15)
    (haddr : addr < 2 ^ 64) (hnew : newFunc < 2 ^ 64) (hbits : 12 ≤ bits) (hbits' : bits < 64) :
    let slot := b.patchAddr + 64 * k
    let n := (u.scan m addr).savedCodeLen
    EntryReaches (installOne u slot addr newFunc m) addr slot ∧
      SlotReaches (readySlot u slot addr newFunc m) slot addr n newFunc ∧
      ((addr + 5 ≤ slot ∨ slot + 64 ≤ addr) →
        SlotReaches (installOne u slot addr newFunc m) slot addr n newFunc) ∧
      pageBase addr (2 ^ bits) ≤ addr ∧
      addr + 5 ≤ pageBase addr (2 ^ bits) + determineMemBlockSize addr (2 ^ bits) := by
  intro slot n
  obtain ⟨hi, hnear, -⟩ := List.findIdx?_eq_some_iff_getElem.mp hfind
  obtain rfl := Option.some.inj ((List.getElem?_eq_getElem hi).symm.trans hb)
  have hdist := (of_decide_eq_true hnear).lt hmin hmax
  rw [abs_lt, nullRipVarOffset] at hdist
  have hs : slot = patchBlks[i].patchAddr + 64 * k := rfl
  have hfits : n + 5 ≤ maxTrampolineLen := by
    rw [maxTrampolineLen]
    omega
  have hready := @readySlot_reaches u slot addr newFunc m hnew hfits (by omega) (by omega)
  exact ⟨installOne_reaches u m (by omega) (by omega), hready,
    fun hsep => hready.patched hfits hsep, entry_in_pages haddr hbits hbits'.le⟩

/-- A function of the C library at 69632, with a page behind the library. -/
theorem jumps_reach_sample :
    EntryReaches (installOne sampleUdis86 131072 69632 4096 fun _ => 0x90) 69632 131072 ∧
      SlotReaches (installOne sampleUdis86 131072 69632 4096 fun _ => 0x90) 131072 69632 5 4096 ∧
      69632 + 5 ≤ pageBase 69632 4096 + determineMemBlockSize 69632 4096 := by
  have hfind : findUsableBlock [⟨131072, 0⟩] ⟨[], 65536, [], 69632, 69632, 0⟩ = some 0 := by
    decide +kernel
  have hlen : (sampleUdis86.scan (fun _ => 0x90) 69632).savedCodeLen = 5 := by decide +kernel
  have h := @jumps_reach sampleUdis86 (fun _ => 0x90) _ _ _ _ 69632 0 4096 12 hfind rfl le_rfl
    le_rfl (by norm_num) (by rw [hlen]; norm_num) (by norm_num) (by norm_num) (by norm_num)
    (by norm_num)
  rw [hlen] at h
  exact ⟨h.1, h.2.2.1 (.inl (by norm_num)), h.2.2.2.2⟩

/-! A function that makes room for its frame and clears a variable. -/

/-- `sub rsp, 0x78`. -/
def subRsp : List UInt8 := [0x48, 0x83, 0xEC, 0x78]

/-- `mov qword [rsp+0x100], 0x0`, which is 12 bytes long. -/
def movRsp : List UInt8 := [0x48, 0xC7, 0x84, 0x24, 0, 1, 0, 0, 0, 0, 0, 0]

/-- The instruction at the start of `code`, where these two occur as well. -/
def frameInsn (code : List UInt8) : Insn :=
  if code.take 4 = subRsp then ⟨subRsp, bytesOf "sub rsp, 0x78", none⟩
  else if code.take 12 = movRsp then ⟨movRsp, bytesOf "mov qword [rsp+0x100], 0x0", none⟩
  else sampleInsn code

theorem frameInsn_take (code : List UInt8) (h : code ≠ []) :
    0 < (frameInsn code).len ∧ (frameInsn code).bytes = code.take (frameInsn code).len := by
  rw [frameInsn]
  split
  · rename_i hcode
    exact ⟨by decide, hcode.symm⟩
  · split
    · rename_i hcode
      exact ⟨by decide, hcode.symm⟩
    · exact sampleInsn_take code h

theorem frameInsn_ok (code : List UInt8) (h : 20 ≤ code.length) : (frameInsn code).Ok := by
  have hsub : strstr (bytesOf "sub rsp, 0x78") (bytesOf "[rip+") = none := by decide +kernel
  have hmov : strstr (bytesOf "mov qword [rsp+0x100], 0x0") (bytesOf "[rip+") = none := by
    decide +kernel
  rw [frameInsn]
  split
  · exact ⟨by decide, by decide, nofun, nofun, nofun, fun _ => hsub⟩
  · split
    · exact ⟨by decide, by decide, nofun, nofun, nofun, fun _ => hmov⟩
    · exact sampleInsn_ok code h

/-- A disassembler for code of these instructions. -/
def frameUdis86 : Udis86 := .ofInsnAt frameInsn frameInsn_take frameInsn_ok

/-- The function is at 4096. -/
def frameCode : Memory := Memory.write (fun _ => 0x90) 4096 (subRsp ++ movRsp)

theorem frameCode_scan : (frameUdis86.scan frameCode 4096).savedCodeLen = 16 := by
  decide +kernel

/-- The two instructions are copied together, and the last byte of the jump back, which leads 64
MB back, stands where the bounce code begins. -/
theorem frameCode_not_fits :
    ¬((frameUdis86.scan frameCode 4096).savedCodeLen + 5 ≤ maxTrampolineLen) ∧
      (readySlot frameUdis86 0x4000000 4096 8192 frameCode).read (0x4000000 + 20) 14 ≠
        bounceCode 8192 := by
  refine ⟨by rw [frameCode_scan]; decide, fun heq => ?_⟩
  have hback := (@readySlot_back frameUdis86 0x4000000 4096 8192 frameCode).2
  rw [frameCode_scan] at hback
  generalize readySlot frameUdis86 0x4000000 4096 8192 frameCode = m at heq hback
  have hlt := ofLE_lt (m.read (0x4000000 + 16 + 1) 4)
  rw [length_read] at hlt
  have hval : ofLE (m.read (0x4000000 + 16 + 1) 4) = 0xFC000FFB := by
    have hmod := emod_wrapInt32 (ofLE (m.read (0x4000000 + 16 + 1) 4))
    rw [← readInt32, hback, emod_wrapInt32] at hmod
    omega
  have hbyte := @apply_add 3 m (0x4000000 + 16 + 1) (by norm_num)
  rw [hval] at hbyte
  have hfirst := @getElem?_read 14 0 m (0x4000000 + 20) (by norm_num)
  rw [heq] at hfirst
  have hsame : (0xFF : UInt8) = byteAt 0xFC000FFB 3 := (Option.some.inj hfirst).trans hbyte
  exact absurd hsame (by decide +kernel)

end Ooops
