import Ooops.Basis.Hex
import Ooops.Basis.Memory

/-!
# Trampolines

To hook a function, its first bytes are overwritten with a jump. The instructions that
stood there are copied into a trampoline before, together with a jump back, so that the
original function can still be called. A trampoline slot is 64 bytes long:

| offset | bytes | field |
| --- | --- | --- |
| 0 | 20 | `trampoline`, the copied code and the jump back |
| 20 | 14 | `bounce`, a jump to the new function |
| 36 | 5 | `org_code`, the bytes that the jump has overwritten |
| 48 | 8 | `addr_org_func` |
| 56 | 4 | `saved_code_len` |
| 60 | 4 | `offset_rIP_var` |

How many bytes are copied, and which of them have to be adapted to their new place, is
read off the text that the disassembler `udis86` prints (`scanEntry`). The disassembler is
a parameter (`Udis86`), with what is relied on as its fields.

## Main results

* `Udis86.scan_spec`: what the scan of an entry finds. Only the last of the copied
  instructions is long enough for a 32-bit field.
* `installOne_outside`, `installOne_entry`, `installOne_orgCode`, `installOne_addrOrgFunc`:
  where the installation of one hook writes, and what.
-/

open Basis Basis.Memory

namespace Ooops

/-! ### Instructions -/

/-- The part of an instruction that is relative to the address behind it. -/
inductive PcRel
  /-- The last byte of a short branch. -/
  | rel8
  /-- The last four bytes of a near `jmp`, `call` or `jcc`. -/
  | rel32
  /-- The displacement of an operand `[rip + disp]`, `pos` bytes into the instruction. -/
  | rip (pos : ℕ)
  deriving DecidableEq, Repr

/-- An instruction as `udis86` reports it, and what it means to the processor. -/
structure Insn where
  bytes : List UInt8
  asm : CStr
  pcRel : Option PcRel

/-- The length of an instruction. -/
def Insn.len (i : Insn) : ℕ := i.bytes.length

/-- Where the relative part of an instruction of `len` bytes starts. -/
def PcRel.pos (len : ℕ) : PcRel → ℕ
  | .rel8 => len - 1
  | .rel32 => len - 4
  | .rip pos => pos

/-- The number of bytes of the relative part. -/
def PcRel.width : PcRel → ℕ
  | .rel8 => 1
  | .rel32 => 4
  | .rip _ => 4

/-- `ud_insn_hex`: two digits for each byte. -/
def Insn.hex (i : Insn) : CStr :=
  i.bytes.flatMap fun b => [hexDigit (b.toNat / 16), hexDigit (b.toNat % 16)]

/-- The displacement of an operand `[rip + disp]`. -/
def Insn.ripDisp (i : Insn) (pos : ℕ) : ℤ := wrapInt32 (ofLE ((i.bytes.drop pos).take 4))

/-- The relative part lies inside an instruction of `len` bytes, behind its opcode. -/
def PcRel.Inside (len : ℕ) : PcRel → Prop
  | .rel8 => 2 ≤ len
  | .rel32 => 5 ≤ len
  | .rip pos => 2 ≤ pos ∧ pos + 4 ≤ len

/-- What is relied on for a complete instruction: its length, the place of its relative
part, the opcode of the near `jmp`, and the text of a `rip`-relative operand, which is
printed with its sign and in hexadecimal, or without a displacement if that is zero. -/
structure Insn.Ok (i : Insn) : Prop where
  len_pos : 0 < i.len
  len_le : i.len ≤ 15
  inside : ∀ r, i.pcRel = some r → r.Inside i.len
  jmp : i.bytes.head? = some 0xE9 → i.pcRel = some .rel32 ∧ i.len = 5
  text : ∀ pos, i.pcRel = some (.rip pos) → 0 < i.ripDisp pos →
    ∃ rest, strstr i.asm (bytesOf "[rip+") = some (bytesOf "[rip+" ++
      (bytesOf "0x" ++ hexText (i.ripDisp pos).toNat ++ 93 :: rest))
  noText : (∀ pos, i.pcRel = some (.rip pos) → i.ripDisp pos ≤ 0) →
    strstr i.asm (bytesOf "[rip+") = none

/-- The instructions that start before byte `JMP_INSTRCTION_LEN`, with their offsets. -/
def entryInsns : ℕ → List Insn → List (ℕ × Insn)
  | _, [] => []
  | o, i :: is => if o ≥ 5 then [] else (o, i) :: entryInsns (o + i.len) is

/-- The disassembler: what it reports, one instruction after the other, for a piece of code,
a cut instruction at its end included. The instructions that start before byte 5 of
`MAX_LEN_TO_DISASSEMBLE` bytes are complete. -/
structure Udis86 where
  decode : List UInt8 → List Insn
  bytes_eq : ∀ code, ((decode code).map Insn.bytes).flatten = code
  ok : ∀ code, code.length = 24 → ∀ e ∈ entryInsns 0 (decode code), e.2.Ok

/-! ### The scan of an entry -/

/-- `NULL_RIP_VAR_OFFSET`, the mark for an entry without a `rip`-relative operand. -/
def nullRipVarOffset : ℤ := 0x7FF00000

/-- What is found out about the entry of a function: `saved_code_len`, `offset_rIP_var`
and, if it is positive, `WithJmp`. -/
structure Entry where
  savedCodeLen : ℕ
  offsetRipVar : ℤ
  withJmp : Option ℕ

/-- Look for `[rip+` in the text of an instruction. -/
def ripOffset (offsetRipVar : ℤ) (i : Insn) : ℤ :=
  match strstr i.asm (bytesOf "[rip+") with
  | none => offsetRipVar
  | some pSubStr =>
      match scanHex (pSubStr.drop 5) with
      | none => offsetRipVar
      | some n => wrapInt32 n

/-- `WithJmp`: where the relative address of a five-byte `jmp` is expected that comes after
other instructions. The list has the last instruction first. -/
def withJmp : List Insn → Option ℕ
  | i :: i' :: _ =>
      if strncmpEq i.hex (bytesOf "e9") 2 = true ∧ i.hex.length = 10 then
        some (i'.hex.length / 2 + 1)
      else none
  | _ => none

/-- The loop over the instructions of an entry, at offset `o` with the instructions `seen`,
the last one first. At most five instructions start before byte 5, so that the limit
`MAX_INSTUMENTS` plays no part. -/
def scanEntry (seen : List Insn) (o : ℕ) (offsetRipVar : ℤ) : List Insn → Entry
  | [] => ⟨0, offsetRipVar, none⟩
  | i :: is =>
      if o ≥ 5 then ⟨o, offsetRipVar, withJmp seen⟩
      else scanEntry (i :: seen) (o + i.len) (ripOffset offsetRipVar i) is

/-- The scan of the function at `addr`. -/
def Udis86.scan (u : Udis86) (m : Memory) (addr : ℕ) : Entry :=
  scanEntry [] 0 nullRipVarOffset (u.decode (m.read addr 24))

/-- The instructions that are copied from the function at `addr`. -/
def Udis86.entry (u : Udis86) (m : Memory) (addr : ℕ) : List (ℕ × Insn) :=
  entryInsns 0 (u.decode (m.read addr 24))

/-! ### Writing a slot -/

/-- Look for the displacement at `w`, and add `d` to it if it is there. -/
def fixAt (offsetRipVar d : ℤ) (m : Memory) (w : ℕ) : Memory :=
  if m.readInt32 w = offsetRipVar then m.addInt32 w d else m

/-- The places where a displacement is looked for: six, five and four bytes before the end
of the copied code. -/
def ripWindows (slot n : ℕ) : List ℕ := [slot + n - 6, slot + n - 5, slot + n - 4]

/-- Adapt the displacement of a `rip`-relative operand. -/
def fixRip (e : Entry) (d : ℤ) (slot : ℕ) (m : Memory) : Memory :=
  if e.offsetRipVar = nullRipVarOffset then m
  else (ripWindows slot e.savedCodeLen).foldl (fixAt e.offsetRipVar d) m

/-- Adapt a `jmp` that comes after other instructions. -/
def fixJmp (e : Entry) (d : ℤ) (slot : ℕ) (m : Memory) : Memory :=
  match e.withJmp with
  | some j => m.addInt32 (slot + j) d
  | none => m

/-- Adapt a `jmp` that is the first instruction. -/
def fixFirst (d : ℤ) (slot : ℕ) (m : Memory) : Memory :=
  if m slot = 0xE9 then m.addInt32 (slot + 1) d else m

/-- Copy the entry code into the trampoline and append the jump back. -/
def copyEntry (n addr slot : ℕ) (m : Memory) : Memory :=
  ((m.write slot (m.read addr n)).write (slot + n) [0xE9]).writeInt32 (slot + n + 1)
    ((addr : ℤ) - (slot + 5))

/-- Adapt the copied code to its new place. -/
def relocateEntry (e : Entry) (addr slot : ℕ) (m : Memory) : Memory :=
  let d := wrapInt32 ((addr : ℤ) - slot)
  fixFirst d slot (fixJmp e d slot (fixRip e d slot m))

/-- `instruction_bounce`, with the address of the new function. -/
def bounceCode (newFunc : ℕ) : List UInt8 :=
  [0xFF, 0x25, 0x00, 0x00, 0x00, 0x00] ++ leBytes 8 newFunc

/-- The fields of the slot that are written before the code is copied. -/
def writeHeader (e : Entry) (addr slot newFunc : ℕ) (m : Memory) : Memory :=
  (((m.write (slot + 48) (leBytes 8 addr)).writeInt32 (slot + 60) e.offsetRipVar).writeInt32
    (slot + 56) e.savedCodeLen).write (slot + 20) (bounceCode newFunc)

/-- Overwrite the entry of the function with a jump to the bounce code of its slot. -/
def patchEntry (addr slot : ℕ) (m : Memory) : Memory :=
  (m.write addr [0xE9]).writeInt32 (addr + 1) ((slot : ℤ) + 20 - addr - 5)

/-- The slot of the function at `addr` without its `org_code`. -/
def prepareSlot (u : Udis86) (slot addr newFunc : ℕ) (m : Memory) : Memory :=
  let e := u.scan m addr
  relocateEntry e addr slot (copyEntry e.savedCodeLen addr slot
    (writeHeader e addr slot newFunc m))

/-- Keep what stands at the entry. -/
def saveOrgCode (addr slot : ℕ) (m : Memory) : Memory :=
  m.write (slot + 36) (m.read addr 5)

/-- The installation of one hook: the body of the loop of `install_hook`, for the function
at `addr` and the trampoline slot at `slot`. -/
def installOne (u : Udis86) (slot addr newFunc : ℕ) (m : Memory) : Memory :=
  patchEntry addr slot (saveOrgCode addr slot (prepareSlot u slot addr newFunc m))

/-! ### What the scan finds -/

/-- The shape of the copied instructions that start at offset `o`: the last one is the only
one that reaches byte 5, and `pre` are the others. -/
structure EntryShape (o : ℕ) (es : List (ℕ × Insn)) (pre : List (ℕ × Insn))
    (last : ℕ × Insn) : Prop where
  eq : es = pre ++ [last]
  start : last.1 < 5
  reaches : 5 ≤ last.1 + last.2.len
  before : ∀ e ∈ pre, o ≤ e.1 ∧ e.1 + e.2.len ≤ last.1
  prev : pre = [] ∧ last.1 = o ∨ ∃ pre' prev, pre = pre' ++ [prev] ∧
    prev.1 + prev.2.len = last.1 ∧ (pre' = [] → prev.1 = o) ∧ (pre' ≠ [] → o < prev.1)

/-- What the scan makes of copied instructions of that shape. -/
def entryOf (seen : List Insn) (offsetRipVar : ℤ) (pre : List (ℕ × Insn))
    (last : ℕ × Insn) : Entry where
  savedCodeLen := last.1 + last.2.len
  offsetRipVar := ripOffset (pre.foldl (fun r e => ripOffset r e.2) offsetRipVar) last.2
  withJmp := withJmp (last.2 :: ((pre.map Prod.snd).reverse ++ seen))

/-- The scan stops at the first instruction that starts at byte 5 or later. As instructions
are at most 15 bytes long, 20 bytes of code are enough to find one. -/
theorem scanEntry_spec (is : List Insn) (o : ℕ) (seen : List Insn) (offsetRipVar : ℤ)
    (ho : o < 5) (htotal : 20 ≤ o + ((is.map Insn.bytes).flatten).length)
    (hok : ∀ e ∈ entryInsns o is, e.2.Ok) :
    ∃ pre last, EntryShape o (entryInsns o is) pre last ∧
      scanEntry seen o offsetRipVar is = entryOf seen offsetRipVar pre last := by
  induction is generalizing o seen offsetRipVar with
  | nil =>
      simp only [List.map_nil, List.flatten_nil, List.length_nil] at htotal
      omega
  | cons i is ih =>
      have hentry : entryInsns o (i :: is) = (o, i) :: entryInsns (o + i.len) is :=
        if_neg (by omega)
      have hscan : scanEntry seen o offsetRipVar (i :: is) =
          scanEntry (i :: seen) (o + i.len) (ripOffset offsetRipVar i) is :=
        if_neg (by omega)
      have hi : i.Ok := hok (o, i) (hentry ▸ List.mem_cons_self ..)
      have hpos := hi.len_pos
      have hle := hi.len_le
      have hlen : ((i :: is).map Insn.bytes).flatten.length =
          i.len + ((is.map Insn.bytes).flatten).length := by
        rw [List.map_cons, List.flatten_cons, List.length_append]
        rfl
      rw [hentry, hscan]
      rcases Nat.lt_or_ge (o + i.len) 5 with hshort | hlong
      · -- another instruction is copied
        obtain ⟨pre, last, hshape, hres⟩ := ih (o + i.len) (i :: seen)
          (ripOffset offsetRipVar i) hshort (by omega)
          fun e he => hok e (hentry ▸ List.mem_cons_of_mem _ he)
        refine ⟨(o, i) :: pre, last, ⟨?_, hshape.start, hshape.reaches, ?_, .inr ?_⟩, ?_⟩
        · rw [hshape.eq, List.cons_append]
        · intro e he
          rcases List.mem_cons.mp he with rfl | he
          · refine ⟨le_refl o, ?_⟩
            rcases hshape.prev with ⟨-, hlast⟩ | ⟨pre', prev, rfl, hend, -, -⟩
            · exact hlast.ge
            · have hprev := hshape.before prev (List.mem_append_right _ (List.mem_singleton_self _))
              exact hprev.1.trans (by omega)
          · have := hshape.before e he
            omega
        · rcases hshape.prev with ⟨rfl, hlast⟩ | ⟨pre', prev, rfl, hend, -, -⟩
          · exact ⟨[], (o, i), rfl, hlast.symm, fun _ => rfl, fun h => absurd rfl h⟩
          · have hprev := hshape.before prev (List.mem_append_right _ (List.mem_singleton_self _))
            exact ⟨(o, i) :: pre', prev, rfl, hend, nofun, fun _ => by omega⟩
        · rw [hres, entryOf, entryOf]
          simp only [List.foldl_cons, List.map_cons, List.reverse_cons, List.append_assoc,
            List.cons_append, List.nil_append]
      · -- the scan ends at the next instruction
        obtain ⟨j, js, rfl⟩ : ∃ j js, is = j :: js := by
          refine List.exists_cons_of_ne_nil fun hnil => ?_
          subst hnil
          simp only [List.map_nil, List.flatten_nil, List.length_nil] at hlen
          omega
        have hnext : entryInsns (o + i.len) (j :: js) = [] := if_pos hlong
        have hstop : scanEntry (i :: seen) (o + i.len) (ripOffset offsetRipVar i) (j :: js) =
            ⟨o + i.len, ripOffset offsetRipVar i, withJmp (i :: seen)⟩ := if_pos hlong
        rw [hnext, hstop]
        exact ⟨[], (o, i), ⟨rfl, ho, hlong, nofun, .inl ⟨rfl, rfl⟩⟩, rfl⟩

/-- An instruction without `[rip+` in its text is passed over. -/
theorem ripOffset_of_noText {r : ℤ} {i : Insn}
    (h : strstr i.asm (bytesOf "[rip+") = none) : ripOffset r i = r := by
  simp only [ripOffset, h]

theorem Insn.ripDisp_lt (i : Insn) (pos : ℕ) : i.ripDisp pos < 2 ^ 31 := by
  have h := Int.bmod_lt (x := (ofLE ((i.bytes.drop pos).take 4) : ℤ)) (m := 2 ^ 32)
    (by norm_num)
  rw [ripDisp, wrapInt32]
  omega

theorem drop_ripText (s : CStr) : (bytesOf "[rip+" ++ s).drop 5 = s := rfl

/-- The number behind `[rip+` is read. -/
theorem ripOffset_of_text {r : ℤ} {i : Insn} {s : CStr} {n : ℕ}
    (htext : strstr i.asm (bytesOf "[rip+") = some (bytesOf "[rip+" ++ s))
    (hscan : scanHex s = some n) : ripOffset r i = wrapInt32 n := by
  simp only [ripOffset, htext, drop_ripText, hscan]

/-- A positive displacement is found. -/
theorem Insn.Ok.ripOffset_eq {i : Insn} (h : i.Ok) {pos : ℕ}
    (hrip : i.pcRel = some (.rip pos)) (hpos : 0 < i.ripDisp pos) (r : ℤ) :
    ripOffset r i = i.ripDisp pos := by
  obtain ⟨rest, htext⟩ := h.text pos hrip hpos
  have hscan : scanHex (bytesOf "0x" ++ hexText (i.ripDisp pos).toNat ++ 93 :: rest) =
      some (i.ripDisp pos).toNat := scanHex_hexText (by omega) rfl rest
  have hlt := i.ripDisp_lt pos
  rw [ripOffset_of_text htext hscan, Int.toNat_of_nonneg hpos.le,
    wrapInt32_eq_self (by omega) hlt]

/-- An operand that is not printed with `[rip+` is passed over. -/
theorem Insn.Ok.ripOffset_of_nonpos {i : Insn} (h : i.Ok)
    (hdisp : ∀ pos, i.pcRel = some (.rip pos) → i.ripDisp pos ≤ 0) (r : ℤ) :
    ripOffset r i = r :=
  ripOffset_of_noText (h.noText hdisp)

/-- An instruction of at most four bytes has no field of four bytes. -/
theorem Insn.Ok.pcRel_of_short {i : Insn} (h : i.Ok) (hlen : i.len ≤ 4) :
    i.pcRel = none ∨ i.pcRel = some .rel8 := by
  cases hr : i.pcRel with
  | none => exact .inl rfl
  | some r =>
      have hin := h.inside r hr
      cases r with
      | rel8 => exact .inr rfl
      | rel32 =>
          have h5 : 5 ≤ i.len := hin
          omega
      | rip pos =>
          have h6 : 2 ≤ pos ∧ pos + 4 ≤ i.len := hin
          omega

/-- The hexadecimal text has two characters for each byte. -/
theorem Insn.length_hex (i : Insn) : i.hex.length = 2 * i.len := by
  rw [hex, len]
  induction i.bytes with
  | nil => rfl
  | cons b bs ih =>
      simp only [List.flatMap_cons, List.length_append, List.length_cons, List.length_nil, ih]
      omega

/-- The text starts with `e9` if the code does. -/
theorem Insn.hex_e9 {i : Insn} (h : 0 < i.len) :
    strncmpEq i.hex (bytesOf "e9") 2 = true ↔ i.bytes.head? = some 0xE9 := by
  have he9 : bytesOf "e9" = [hexDigit 14, hexDigit 9] := rfl
  have hbyte : ∀ b : UInt8,
      [hexDigit (b.toNat / 16), hexDigit (b.toNat % 16)] = bytesOf "e9" ↔ b = 0xE9 := by
    intro b
    have hlt := b.toNat_lt
    rw [he9, ← UInt8.toNat_inj, show (0xE9 : UInt8).toNat = 233 from rfl]
    constructor
    · intro h
      obtain ⟨h₁, h₂⟩ := List.cons.inj h
      have hd₁ := hexDigit_inj (by omega) (by omega) h₁
      have hd₂ := hexDigit_inj (by omega) (by omega) (List.cons.inj h₂).1
      omega
    · intro h
      rw [h]
  obtain ⟨b, bs, hb⟩ := List.exists_cons_of_ne_nil (List.length_pos_iff.mp h)
  have htake : i.hex.take 2 = [hexDigit (b.toNat / 16), hexDigit (b.toNat % 16)] := by
    simp only [hex, hb, List.flatMap_cons, List.cons_append, List.nil_append, List.take_succ_cons,
      List.take_zero]
  have hall : (bytesOf "e9").take 2 = bytesOf "e9" := rfl
  rw [strncmpEq_iff, htake, hall, hbyte, hb, List.head?_cons, Option.some.injEq]

/-- When `WithJmp` is set: the last two instructions end with the five-byte `jmp`. -/
theorem Insn.Ok.withJmp_cons {i : Insn} (h : i.Ok) (i' : Insn) (is : List Insn) :
    withJmp (i :: i' :: is) =
      if i.bytes.head? = some 0xE9 then some (i'.len + 1) else none := by
  have hcond : (strncmpEq i.hex (bytesOf "e9") 2 = true ∧ i.hex.length = 10) ↔
      i.bytes.head? = some 0xE9 := by
    rw [Insn.hex_e9 h.len_pos, Insn.length_hex]
    refine ⟨And.left, fun he => ⟨he, ?_⟩⟩
    have := (h.jmp he).2
    omega
  have hhalf : i'.hex.length / 2 + 1 = i'.len + 1 := by
    rw [Insn.length_hex]
    omega
  simp only [withJmp, hcond, hhalf]

/-- What the scan finds, by the last copied instruction: an operand printed with `[rip+`, a
near `jmp` that is alone or comes after others, or nothing. -/
inductive ScanResult (pre : List (ℕ × Insn)) (last : ℕ × Insn) : Entry → Prop
  | rip (pos : ℕ) (hrip : last.2.pcRel = some (.rip pos)) (hpos : 0 < last.2.ripDisp pos) :
      ScanResult pre last ⟨last.1 + last.2.len, last.2.ripDisp pos, none⟩
  | jmp (hjmp : last.2.bytes.head? = some 0xE9) (hpre : pre = []) :
      ScanResult pre last ⟨last.1 + last.2.len, nullRipVarOffset, none⟩
  | jmpAfter (hjmp : last.2.bytes.head? = some 0xE9) (pre' : List (ℕ × Insn))
      (prev : ℕ × Insn) (hpre : pre = pre' ++ [prev]) :
      ScanResult pre last ⟨last.1 + last.2.len, nullRipVarOffset, some (prev.2.len + 1)⟩
  | plain (hjmp : last.2.bytes.head? ≠ some 0xE9)
      (hdisp : ∀ pos, last.2.pcRel = some (.rip pos) → last.2.ripDisp pos ≤ 0) :
      ScanResult pre last ⟨last.1 + last.2.len, nullRipVarOffset, none⟩

/-- The instructions before the last one have no `[rip+` in their texts. -/
theorem EntryShape.foldl_ripOffset {o : ℕ} {es pre : List (ℕ × Insn)} {last : ℕ × Insn}
    (h : EntryShape o es pre last) (hok : ∀ e ∈ es, e.2.Ok) (r : ℤ) :
    pre.foldl (fun r e => ripOffset r e.2) r = r := by
  have hpass : ∀ e ∈ pre, ∀ r, ripOffset r e.2 = r := by
    intro e he r
    have heok := hok e (h.eq ▸ List.mem_append_left _ he)
    refine heok.ripOffset_of_nonpos (fun pos hrip => ?_) r
    have hshort := (h.before e he).2
    have hstart := h.start
    rcases heok.pcRel_of_short (by omega) with hr | hr <;> rw [hr] at hrip <;> cases hrip
  clear h
  induction pre with
  | nil => rfl
  | cons e pre ih =>
      rw [List.foldl_cons, hpass e (List.mem_cons_self ..)]
      exact ih fun e he => hpass e (List.mem_cons_of_mem _ he)

/-- **What the scan of an entry finds.** -/
theorem Udis86.scan_spec (u : Udis86) (m : Memory) (addr : ℕ) :
    ∃ pre last, EntryShape 0 (u.entry m addr) pre last ∧ (∀ e ∈ u.entry m addr, e.2.Ok) ∧
      ScanResult pre last (u.scan m addr) := by
  have hok := u.ok (m.read addr 24) (length_read m addr 24)
  have htotal : 20 ≤ 0 + (((u.decode (m.read addr 24)).map Insn.bytes).flatten).length := by
    rw [u.bytes_eq, length_read]
    omega
  obtain ⟨pre, last, hshape, hscan⟩ :=
    scanEntry_spec _ 0 [] nullRipVarOffset (by norm_num) htotal hok
  refine ⟨pre, last, hshape, hok, ?_⟩
  have hlast : last.2.Ok :=
    hok last (hshape.eq ▸ List.mem_append_right _ (List.mem_singleton_self _))
  have hjmp : last.2.bytes.head? = some 0xE9 → ∀ pos, last.2.pcRel ≠ some (.rip pos) := by
    intro he pos hrip
    rw [(hlast.jmp he).1] at hrip
    cases hrip
  rw [Udis86.scan, hscan, entryOf, hshape.foldl_ripOffset hok]
  have hafter : ∀ pre' prev, pre = pre' ++ [prev] →
      withJmp (last.2 :: ((pre.map Prod.snd).reverse ++ [])) =
        if last.2.bytes.head? = some 0xE9 then some (prev.2.len + 1) else none := by
    rintro pre' prev rfl
    simp only [List.map_append, List.map_cons, List.map_nil, List.reverse_append,
      List.reverse_cons, List.reverse_nil, List.nil_append, List.cons_append]
    exact hlast.withJmp_cons _ _
  by_cases he : last.2.bytes.head? = some 0xE9
  · rw [hlast.ripOffset_of_nonpos fun pos hrip => absurd hrip (hjmp he pos)]
    rcases List.eq_nil_or_concat pre with rfl | ⟨pre', prev, hpre⟩
    · exact .jmp he rfl
    · rw [List.concat_eq_append] at hpre
      rw [hafter pre' prev hpre, if_pos he]
      exact .jmpAfter he pre' prev hpre
  · have hnone : withJmp (last.2 :: ((pre.map Prod.snd).reverse ++ [])) = none := by
      rcases List.eq_nil_or_concat pre with rfl | ⟨pre', prev, hpre⟩
      · rfl
      · rw [List.concat_eq_append] at hpre
        rw [hafter pre' prev hpre, if_neg he]
    rw [hnone]
    by_cases hrip : ∃ pos, last.2.pcRel = some (.rip pos) ∧ 0 < last.2.ripDisp pos
    · obtain ⟨pos, hr, hpos⟩ := hrip
      rw [hlast.ripOffset_eq hr hpos]
      exact .rip pos hr hpos
    · have hdisp : ∀ pos, last.2.pcRel = some (.rip pos) → last.2.ripDisp pos ≤ 0 :=
        fun pos hr => not_lt.mp fun hpos => hrip ⟨pos, hr, hpos⟩
      rw [hlast.ripOffset_of_nonpos hdisp]
      exact .plain he hdisp

/-- The bounds that keep the relocation inside the copied code. -/
structure Entry.Fits (e : Entry) : Prop where
  five_le : 5 ≤ e.savedCodeLen
  le_nineteen : e.savedCodeLen ≤ 19
  rip : e.offsetRipVar ≠ nullRipVarOffset → 6 ≤ e.savedCodeLen
  jmp : ∀ j, e.withJmp = some j → j + 4 ≤ e.savedCodeLen

theorem Udis86.scan_fits (u : Udis86) (m : Memory) (addr : ℕ) : (u.scan m addr).Fits := by
  obtain ⟨pre, last, hshape, hok, hres⟩ := u.scan_spec m addr
  have hlast : last.2.Ok :=
    hok last (hshape.eq ▸ List.mem_append_right _ (List.mem_singleton_self _))
  have hstart := hshape.start
  have hreach := hshape.reaches
  have hle := hlast.len_le
  generalize u.scan m addr = e at hres ⊢
  cases hres with
  | rip pos hrip hpos =>
      have hin : 2 ≤ pos ∧ pos + 4 ≤ last.2.len := hlast.inside _ hrip
      exact ⟨hreach, by dsimp only; omega, fun _ => by dsimp only; omega, nofun⟩
  | jmp hjmp hpre | plain hjmp hdisp =>
      exact ⟨hreach, by dsimp only; omega, fun h => absurd rfl h, nofun⟩
  | jmpAfter hjmp pre' prev hpre =>
      refine ⟨hreach, by dsimp only; omega, fun h => absurd rfl h, ?_⟩
      rintro j ⟨⟩
      have hprev := (hshape.before prev (hpre ▸ List.mem_append_right _
        (List.mem_singleton_self _))).2
      have := (hlast.jmp hjmp).2
      dsimp only
      omega

/-! ### What the installation writes, and where -/

theorem foldl_fixAt_outside {offsetRipVar d : ℤ} {ws : List ℕ} {m : Memory} {x : ℕ}
    (h : ∀ w ∈ ws, x < w ∨ w + 4 ≤ x) : ws.foldl (fixAt offsetRipVar d) m x = m x := by
  induction ws generalizing m with
  | nil => rfl
  | cons w ws ih =>
      rw [List.foldl_cons, ih fun v hv => h v (List.mem_cons_of_mem w hv)]
      rw [fixAt]
      split
      · exact addInt32_of_outside (h w (List.mem_cons_self ..))
      · rfl

/-- The relocation stays inside the copied code. -/
theorem relocateEntry_outside {e : Entry} (he : e.Fits) {addr slot x : ℕ} {m : Memory}
    (hx : x < slot ∨ slot + e.savedCodeLen ≤ x) : relocateEntry e addr slot m x = m x := by
  have hfive := he.five_le
  have hrip : ∀ d m, fixRip e d slot m x = m x := by
    intro d m
    rw [fixRip]
    split
    · rfl
    · rename_i hoff
      have hsix := he.rip hoff
      refine foldl_fixAt_outside fun w hw => ?_
      simp only [ripWindows, List.mem_cons, List.not_mem_nil, or_false] at hw
      omega
  have hjmp : ∀ d m, fixJmp e d slot m x = m x := by
    intro d m
    rw [fixJmp]
    cases hj : e.withJmp with
    | none => rfl
    | some j =>
        have := he.jmp j hj
        exact addInt32_of_outside (by omega)
  have hfirst : ∀ d m, fixFirst d slot m x = m x := by
    intro d m
    rw [fixFirst]
    split
    · exact addInt32_of_outside (by omega)
    · rfl
  rw [relocateEntry, hfirst, hjmp, hrip]

theorem copyEntry_outside {n addr slot x : ℕ} {m : Memory}
    (hx : x < slot ∨ slot + n + 5 ≤ x) : copyEntry n addr slot m x = m x := by
  rw [copyEntry, writeInt32_of_outside (by omega), write_of_outside, write_of_outside]
  · rw [length_read]
    omega
  · simp only [List.length_singleton]
    omega

@[simp] theorem length_bounceCode (newFunc : ℕ) : (bounceCode newFunc).length = 14 := by
  simp only [bounceCode, List.length_append, List.length_cons, List.length_nil, length_leBytes]

/-- The header of a slot is its `bounce` field and everything behind `org_code`. -/
theorem writeHeader_outside {e : Entry} {addr slot newFunc x : ℕ} {m : Memory}
    (hx : x < slot + 20 ∨ slot + 34 ≤ x ∧ x < slot + 48 ∨ slot + 64 ≤ x) :
    writeHeader e addr slot newFunc m x = m x := by
  have hlen := length_bounceCode newFunc
  rw [writeHeader, write_of_outside, writeInt32_of_outside, writeInt32_of_outside,
    write_of_outside]
  · rw [length_leBytes]
    omega
  · omega
  · omega
  · rw [hlen]
    omega

/-- The five bytes of the jump at a patched entry. -/
def jumpTo (addr slot : ℕ) : List UInt8 :=
  0xE9 :: leBytes 4 (((slot : ℤ) + 20 - addr - 5) % 2 ^ 32).toNat

@[simp] theorem length_jumpTo (addr slot : ℕ) : (jumpTo addr slot).length = 5 := by
  simp only [jumpTo, List.length_cons, length_leBytes]

theorem patchEntry_eq (addr slot : ℕ) (m : Memory) :
    patchEntry addr slot m = m.write addr (jumpTo addr slot) :=
  write_append m addr [0xE9] _

section

variable (u : Udis86) {addr slot newFunc : ℕ} (m : Memory)

theorem prepareSlot_outside {x : ℕ} (hx : x < slot ∨ slot + 64 ≤ x) :
    prepareSlot u slot addr newFunc m x = m x := by
  have hfits := u.scan_fits m addr
  have hle := hfits.le_nineteen
  rw [prepareSlot, relocateEntry_outside hfits (by omega), copyEntry_outside (by omega),
    writeHeader_outside (by omega)]

theorem saveOrgCode_outside {x : ℕ} (hx : x < slot + 36 ∨ slot + 41 ≤ x) :
    saveOrgCode addr slot m x = m x :=
  write_of_outside (by rwa [length_read, Nat.add_assoc])

theorem patchEntry_outside {x : ℕ} (hx : x < addr ∨ addr + 5 ≤ x) :
    patchEntry addr slot m x = m x := by
  rw [patchEntry_eq, write_of_outside (by rwa [length_jumpTo])]

/-- **An installation writes its slot and the entry of its function only.** -/
theorem installOne_outside {x : ℕ} (hslot : x < slot ∨ slot + 64 ≤ x)
    (haddr : x < addr ∨ addr + 5 ≤ x) : installOne u slot addr newFunc m x = m x := by
  rw [installOne, patchEntry_outside _ haddr, saveOrgCode_outside _ (by omega),
    prepareSlot_outside u m hslot]

/-- The entry of the function becomes a jump. -/
theorem installOne_entry :
    (installOne u slot addr newFunc m).read addr 5 = jumpTo addr slot := by
  have h := read_write_self (saveOrgCode addr slot (prepareSlot u slot addr newFunc m)) addr
    (jumpTo addr slot)
  rwa [length_jumpTo, ← patchEntry_eq] at h

/-- The slot keeps what stood at the entry. -/
theorem installOne_orgCode (hsep : addr + 5 ≤ slot ∨ slot + 64 ≤ addr) :
    (installOne u slot addr newFunc m).read (slot + 36) 5 = m.read addr 5 := by
  have hread : (prepareSlot u slot addr newFunc m).read addr 5 = m.read addr 5 :=
    read_congr fun i hi => prepareSlot_outside u m (by omega)
  have hself := read_write_self (prepareSlot u slot addr newFunc m) (slot + 36)
    ((prepareSlot u slot addr newFunc m).read addr 5)
  rw [length_read, ← saveOrgCode, hread] at hself
  rw [← hself]
  exact read_congr fun i hi => patchEntry_outside _ (by omega)

/-- The slot knows its function. -/
theorem installOne_addrOrgFunc (hsep : addr + 5 ≤ slot ∨ slot + 64 ≤ addr) :
    (installOne u slot addr newFunc m).read (slot + 48) 8 = leBytes 8 addr := by
  have hfits := u.scan_fits m addr
  have hle := hfits.le_nineteen
  have hself := read_write_self m (slot + 48) (leBytes 8 addr)
  rw [length_leBytes] at hself
  have hbounce := length_bounceCode newFunc
  have hheader : (writeHeader (u.scan m addr) addr slot newFunc m).read (slot + 48) 8 =
      leBytes 8 addr := by
    rw [writeHeader, read_write_of_disjoint (by rw [hbounce]; omega), writeInt32,
      read_write_of_disjoint (by rw [length_leBytes]; omega), writeInt32,
      read_write_of_disjoint (by rw [length_leBytes]; omega), hself]
  rw [← hheader]
  refine read_congr fun i hi => ?_
  rw [installOne, patchEntry_outside _ (by omega), saveOrgCode_outside _ (by omega), prepareSlot,
    relocateEntry_outside hfits (by omega), copyEntry_outside (by omega)]

end

/-! ### A disassembler for small examples -/

/-- One instruction after the other, with the instruction at the start of a piece of code
given by `insnAt`. -/
def decodeWith (insnAt : List UInt8 → Insn) : ℕ → List UInt8 → List Insn
  | 0, _ => []
  | _, [] => []
  | n + 1, b :: code =>
      insnAt (b :: code) :: decodeWith insnAt n ((b :: code).drop (insnAt (b :: code)).len)

theorem decodeWith_bytes {insnAt : List UInt8 → Insn}
    (htake : ∀ code, code ≠ [] → 0 < (insnAt code).len ∧
      (insnAt code).bytes = code.take (insnAt code).len) {n : ℕ} {code : List UInt8}
    (hn : code.length ≤ n) : ((decodeWith insnAt n code).map Insn.bytes).flatten = code := by
  induction n generalizing code with
  | zero =>
      obtain rfl := List.length_eq_zero_iff.mp (Nat.le_zero.mp hn)
      rfl
  | succ n ih =>
      cases code with
      | nil => rfl
      | cons b code =>
          obtain ⟨hpos, hbytes⟩ := htake (b :: code) (List.cons_ne_nil _ _)
          rw [decodeWith, List.map_cons, List.flatten_cons, ih]
          · conv_lhs => rw [hbytes]
            exact List.take_append_drop _ _
          · rw [List.length_drop]
            rw [List.length_cons] at hn ⊢
            omega

theorem decodeWith_ok {insnAt : List UInt8 → Insn}
    (hok : ∀ code, 20 ≤ code.length → (insnAt code).Ok) {n o : ℕ} {code : List UInt8}
    (hn : code.length + o = 24) :
    ∀ e ∈ entryInsns o (decodeWith insnAt n code), e.2.Ok := by
  induction n generalizing o code with
  | zero => nofun
  | succ n ih =>
      intro e he
      cases code with
      | nil => cases he
      | cons b code =>
          rw [decodeWith, entryInsns] at he
          split at he
          · cases he
          · rename_i ho
            rw [List.length_cons] at hn
            have hi := hok (b :: code) (by rw [List.length_cons]; omega)
            rcases List.mem_cons.mp he with rfl | he
            · exact hi
            · refine ih ?_ e he
              have := hi.len_le
              rw [List.length_drop, List.length_cons]
              omega

/-- The disassembler that `insnAt` makes. -/
def Udis86.ofInsnAt (insnAt : List UInt8 → Insn)
    (htake : ∀ code, code ≠ [] → 0 < (insnAt code).len ∧
      (insnAt code).bytes = code.take (insnAt code).len)
    (hok : ∀ code, 20 ≤ code.length → (insnAt code).Ok) : Udis86 where
  decode code := decodeWith insnAt code.length code
  bytes_eq code := decodeWith_bytes htake le_rfl
  ok code hlen := decodeWith_ok hok (by rw [hlen])

/-- The text of an operand `[rip + disp]`. -/
def ripText (disp : ℤ) : CStr :=
  if 0 < disp then bytesOf "[rip+" ++ (bytesOf "0x" ++ hexText disp.toNat ++ [93])
  else if disp = 0 then bytesOf "[rip]"
  else bytesOf "[rip-0x" ++ (hexText disp.natAbs ++ [93])

/-- The instruction at the start of `code`, where only `mov eax, [rip + disp]`, `call`, the
near `jmp` and `nop` occur. -/
def sampleInsn (code : List UInt8) : Insn :=
  if code.take 2 = [0x8B, 0x05] ∧ 6 ≤ code.length then
    ⟨code.take 6, bytesOf "mov eax, " ++ ripText (wrapInt32 (ofLE ((code.drop 2).take 4))),
      some (.rip 2)⟩
  else if code.head? = some 0xE9 ∧ 5 ≤ code.length then
    ⟨code.take 5, bytesOf "jmp", some .rel32⟩
  else if code.head? = some 0xE8 ∧ 5 ≤ code.length then
    ⟨code.take 5, bytesOf "call", some .rel32⟩
  else ⟨code.take 1, bytesOf "nop", none⟩

/-- The mnemonic contains no bracket. -/
theorem strstr_sample {t : CStr} :
    strstr (bytesOf "mov eax, " ++ t) (bytesOf "[rip+") = strstr t (bytesOf "[rip+") :=
  strstr_append_of_not_mem (d := 91) (by decide) t _

theorem ripText_pos {disp : ℤ} (h : 0 < disp) :
    strstr (ripText disp) (bytesOf "[rip+") = some (bytesOf "[rip+" ++
      (bytesOf "0x" ++ hexText disp.toNat ++ [93])) := by
  rw [ripText, if_pos h, strstr_append_self]

theorem ripText_nonpos {disp : ℤ} (h : disp ≤ 0) :
    strstr (ripText disp) (bytesOf "[rip+") = none := by
  rw [ripText, if_neg h.not_gt]
  split
  · decide
  · have hrest : (91 : UInt8) ∉ bytesOf "rip-0x" ++ (hexText disp.natAbs ++ [93]) := by
      have hnot : (91 : UInt8) ∉ hexText disp.natAbs := not_mem_hexText rfl _
      simp only [List.mem_append, hnot, List.mem_singleton, false_or]
      decide
    have hcons : bytesOf "[rip-0x" ++ (hexText disp.natAbs ++ [93]) =
        91 :: (bytesOf "rip-0x" ++ (hexText disp.natAbs ++ [93])) := rfl
    rw [hcons, strstr_cons_of_not]
    · exact strstr_of_not_mem hrest _
    · have hrip : bytesOf "rip-0x" = [114, 105, 112, 45, 48, 120] := by decide
      have hplus : bytesOf "[rip+" = [91, 114, 105, 112, 43] := by decide
      rw [hrip, hplus]
      simp [List.isPrefixOf]

theorem sampleInsn_take (code : List UInt8) (h : code ≠ []) :
    0 < (sampleInsn code).len ∧
      (sampleInsn code).bytes = code.take (sampleInsn code).len := by
  have hpos := List.length_pos_iff.mpr h
  have htake : ∀ n asm r, n ≤ code.length → 0 < n →
      0 < (⟨code.take n, asm, r⟩ : Insn).len ∧
        code.take n = code.take (⟨code.take n, asm, r⟩ : Insn).len := by
    intro n asm r hn h0
    have hlen : (⟨code.take n, asm, r⟩ : Insn).len = n := by
      rw [Insn.len, List.length_take, Nat.min_eq_left hn]
    rw [hlen]
    exact ⟨h0, rfl⟩
  rw [sampleInsn]
  split
  · rename_i hc
    exact htake 6 _ _ hc.2 (by norm_num)
  · split
    · rename_i hc
      exact htake 5 _ _ hc.2 (by norm_num)
    · split
      · rename_i hc
        exact htake 5 _ _ hc.2 (by norm_num)
      · exact htake 1 _ _ hpos (by norm_num)

/-- The opcode of an instruction is the first byte of the code. -/
theorem head?_take_of_pos {n : ℕ} (hn : 0 < n) (code : List UInt8) :
    (code.take n).head? = code.head? := by
  rw [List.head?_take, if_neg hn.ne']

theorem sampleInsn_ok (code : List UInt8) (h : 20 ≤ code.length) : (sampleInsn code).Ok := by
  have hjmpText : strstr (bytesOf "jmp") (bytesOf "[rip+") = none := by decide
  have hcallText : strstr (bytesOf "call") (bytesOf "[rip+") = none := by decide
  have hnopText : strstr (bytesOf "nop") (bytesOf "[rip+") = none := by decide
  have hlen : ∀ n asm r, n ≤ 20 → (⟨code.take n, asm, r⟩ : Insn).len = n := by
    intro n asm r hn
    rw [Insn.len, List.length_take, Nat.min_eq_left (by omega)]
  rw [sampleInsn]
  split
  · rename_i hc
    have hhead : (code.take 6).head? = some 0x8B := by
      rw [head?_take_of_pos (by norm_num), ← head?_take_of_pos (n := 2) (by norm_num), hc.1]
      rfl
    have hdisp : (⟨code.take 6, bytesOf "mov eax, " ++
        ripText (wrapInt32 (ofLE ((code.drop 2).take 4))), some (.rip 2)⟩ : Insn).ripDisp 2 =
        wrapInt32 (ofLE ((code.drop 2).take 4)) := by
      rw [Insn.ripDisp, List.drop_take, List.take_take]
      rfl
    have hsix := hlen 6 (bytesOf "mov eax, " ++
      ripText (wrapInt32 (ofLE ((code.drop 2).take 4)))) (some (.rip 2)) (by norm_num)
    refine ⟨by omega, by omega, ?_, fun hjmp => ?_, ?_, fun hnonpos => ?_⟩
    · rintro r ⟨⟩
      exact ⟨le_rfl, hsix.ge⟩
    · rw [hhead] at hjmp
      exact absurd (Option.some.inj hjmp) (by decide)
    · rintro pos ⟨⟩ hpos
      rw [hdisp] at hpos ⊢
      exact ⟨[], by rw [strstr_sample, ripText_pos hpos]⟩
    · have h2 := hnonpos 2 rfl
      rw [hdisp] at h2
      rw [strstr_sample, ripText_nonpos h2]
  · split
    · have hfive := hlen 5 (bytesOf "jmp") (some .rel32) (by norm_num)
      refine ⟨by omega, by omega, ?_, fun _ => ⟨rfl, hfive⟩, nofun, fun _ => hjmpText⟩
      rintro r ⟨⟩
      exact hfive.ge
    · rename_i hjmp
      split
      · rename_i hc
        have hfive := hlen 5 (bytesOf "call") (some .rel32) (by norm_num)
        refine ⟨by omega, by omega, ?_, fun he => ⟨rfl, hfive⟩, nofun, fun _ => hcallText⟩
        rintro r ⟨⟩
        exact hfive.ge
      · have hone := hlen 1 (bytesOf "nop") none (by norm_num)
        refine ⟨by omega, by omega, nofun, fun he => ?_, nofun, fun _ => hnopText⟩
        rw [head?_take_of_pos (by norm_num)] at he
        exact absurd ⟨he, by omega⟩ hjmp

/-- A disassembler for code of these instructions. -/
def sampleUdis86 : Udis86 := .ofInsnAt sampleInsn sampleInsn_take sampleInsn_ok

end Ooops
