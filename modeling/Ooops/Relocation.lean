import Ooops.Trampoline

/-!
# Relocation of the Copied Code

The instructions that are copied into a trampoline keep their meaning only if every part
that is relative to the instruction pointer is adapted to the new place (`Relocated`). The
code finds these parts by their looks. A displacement is searched for by its value at
three places, counted from the end of the copied code, and only if the disassembler prints
it with `[rip+`. The address of a `jmp` is searched for at the first byte, or as far behind
the start as the previous instruction is long. A `call`, a conditional branch and a short
branch are not looked for.

`Relocatable` lists what the instructions must be like for this to succeed.

## Main results

* `foldl_fixAt_iff`: the search adapts one place and no other exactly if the value stands
  there and nowhere before, nor behind it afterwards.
* `relocated_iff`: the copied code means the same exactly if it is `Relocatable`.
-/

open Basis Basis.Memory

namespace Ooops

/-! ### What the copied code should mean -/

/-- The relative part of the instruction of `len` bytes at `at`, as the processor reads
it. -/
def PcRel.disp (m : Memory) (loc len : ℕ) : PcRel → ℤ
  | .rel8 => Int.bmod (m (loc + (len - 1))).toNat 256
  | .rel32 => m.readInt32 (loc + (len - 4))
  | .rip pos => m.readInt32 (loc + pos)

/-- The absolute address that an instruction refers to when the code is executed at
`base`. -/
def pcTarget (m : Memory) (base : ℕ) (e : ℕ × Insn) (r : PcRel) : ℤ :=
  base + e.1 + e.2.len + r.disp m (base + e.1) e.2.len

/-- The instruction refers to the same address in the trampoline as in its function, and
is the same otherwise. -/
def InsnRelocated (m m' : Memory) (addr slot : ℕ) (e : ℕ × Insn) : Prop :=
  (∀ r, e.2.pcRel = some r → pcTarget m' slot e r = pcTarget m addr e r) ∧
    ∀ x < e.2.len,
      (∀ r, e.2.pcRel = some r → x < r.pos e.2.len ∨ r.pos e.2.len + r.width ≤ x) →
      m' (slot + e.1 + x) = m (addr + e.1 + x)

/-- All copied instructions are. -/
def Relocated (m m' : Memory) (addr slot : ℕ) (es : List (ℕ × Insn)) : Prop :=
  ∀ e ∈ es, InsnRelocated m m' addr slot e

/-- The value fits an `int`. -/
def FitsInt32 (x : ℤ) : Prop := -2 ^ 31 ≤ x ∧ x < 2 ^ 31

/-- A 32-bit relative address is adapted in a near `jmp` only, and only if that is the first
or second of the `count` copied instructions. -/
def JmpRelocatable (m : Memory) (addr slot count : ℕ) (e : ℕ × Insn) : Prop :=
  e.2.bytes.head? = some 0xE9 ∧ count ≤ 2 ∧
    FitsInt32 (m.readInt32 (addr + e.1 + (e.2.len - 4)) + (addr - slot))

/-- A displacement is adapted if it is positive, is not the mark for none, and is followed
by two bytes at most. Of the other places that are searched, those before it must not read
like it, and those behind it must not either once it has been adapted. -/
def RipRelocatable (m : Memory) (addr slot pos : ℕ) (e : ℕ × Insn) : Prop :=
  let disp := m.readInt32 (addr + e.1 + pos)
  0 < disp ∧ disp ≠ nullRipVarOffset ∧ e.2.len ≤ pos + 6 ∧
    FitsInt32 (disp + (addr - slot)) ∧
    ∀ w ∈ ripWindows addr (e.1 + e.2.len),
      (w < addr + e.1 + pos → m.readInt32 w ≠ disp) ∧
      (addr + e.1 + pos < w →
        (m.addInt32 (addr + e.1 + pos) (addr - slot)).readInt32 w ≠ disp)

/-- What one of `count` copied instructions must be like. -/
def InsnRelocatable (m : Memory) (addr slot count : ℕ) (e : ℕ × Insn) : Prop :=
  match e.2.pcRel with
  | none => True
  | some .rel8 => False
  | some .rel32 => JmpRelocatable m addr slot count e
  | some (.rip pos) => RipRelocatable m addr slot pos e

/-- What the copied instructions must be like. -/
def Relocatable (m : Memory) (addr slot : ℕ) (es : List (ℕ × Insn)) : Prop :=
  ∀ e ∈ es, InsnRelocatable m addr slot es.length e

/-! ### The search for a displacement -/

section

variable {v d : ℤ} {k : ℕ}

/-- Nothing is adapted when the value is nowhere. -/
theorem foldl_fixAt_of_ne {ws : List ℕ} {m : Memory} (h : ∀ w ∈ ws, m.readInt32 w ≠ v) :
    ws.foldl (fixAt v d) m = m := by
  induction ws with
  | nil => rfl
  | cons w ws ih =>
      rw [List.foldl_cons, fixAt, if_neg (h w (List.mem_cons_self ..))]
      exact ih fun u hu => h u (List.mem_cons_of_mem w hu)

/-- The first place that reads like the value, or none. -/
theorem foldl_fixAt_cases (ws : List ℕ) (m : Memory) :
    (∀ w ∈ ws, m.readInt32 w ≠ v) ∨ ∃ ws₁ w ws₂, ws = ws₁ ++ w :: ws₂ ∧
      (∀ u ∈ ws₁, m.readInt32 u ≠ v) ∧ m.readInt32 w = v ∧
      ws.foldl (fixAt v d) m = ws₂.foldl (fixAt v d) (m.addInt32 w d) := by
  induction ws with
  | nil => exact .inl nofun
  | cons w ws ih =>
      by_cases hw : m.readInt32 w = v
      · refine .inr ⟨[], w, ws, rfl, nofun, hw, ?_⟩
        rw [List.foldl_cons, fixAt, if_pos hw]
      · rcases ih with hnone | ⟨ws₁, u, ws₂, rfl, hbefore, hu, hfold⟩
        · left
          intro u hu
          rcases List.mem_cons.mp hu with rfl | hu
          · exact hw
          · exact hnone u hu
        · refine .inr ⟨w :: ws₁, u, ws₂, rfl, ?_, hu, ?_⟩
          · intro x hx
            rcases List.mem_cons.mp hx with rfl | hx
            · exact hw
            · exact hbefore x hx
          · rw [List.foldl_cons, fixAt, if_neg hw, hfold]

/-- The search adapts the place `f` and no other, if the value is found there, not before,
and not behind it afterwards. -/
theorem foldl_fixAt_eq {ws : List ℕ} {m : Memory} {f : ℕ} (hsorted : ws.Pairwise (· < ·))
    (hf : m.readInt32 f = v) (hmem : f ∈ ws) (hbefore : ∀ w ∈ ws, w < f → m.readInt32 w ≠ v)
    (hafter : ∀ w ∈ ws, f < w → (m.addInt32 f d).readInt32 w ≠ v) :
    ws.foldl (fixAt v d) m = m.addInt32 f d := by
  obtain ⟨ws₁, ws₂, rfl⟩ := List.append_of_mem hmem
  have hws₂ : ∀ u ∈ ws₂, f < u := fun u hu =>
    (List.pairwise_cons.mp (List.pairwise_append.mp hsorted).2.1).1 u hu
  have hws₁ : ∀ u ∈ ws₁, u < f := fun u hu =>
    (List.pairwise_append.mp hsorted).2.2 u hu f (List.mem_cons_self ..)
  rw [List.foldl_append, foldl_fixAt_of_ne fun u hu =>
    hbefore u (List.mem_append_left _ hu) (hws₁ u hu), List.foldl_cons, fixAt, if_pos hf,
    foldl_fixAt_of_ne fun u hu =>
      hafter u (List.mem_append_right _ (List.mem_cons_of_mem f hu)) (hws₂ u hu)]

variable (hlow : ∀ (m : Memory) (a : ℕ), ∀ i < k, m.addInt32 a d (a + i) = m (a + i))

include hlow

/-- An addition changes nothing before its byte `k`. -/
theorem addInt32_below {m : Memory} {a x : ℕ} (hx : x < a + k) : m.addInt32 a d x = m x := by
  rcases Nat.lt_or_ge x a with hlt | hge
  · exact addInt32_of_outside (.inl hlt)
  · obtain ⟨i, rfl⟩ : ∃ i, x = a + i := ⟨x - a, by omega⟩
    exact hlow m a i (by omega)

/-- Adapting the places from `b` on changes nothing before byte `b + k`. -/
theorem foldl_fixAt_below {ws : List ℕ} {m : Memory} {b x : ℕ} (h : ∀ w ∈ ws, b ≤ w)
    (hx : x < b + k) : ws.foldl (fixAt v d) m x = m x := by
  induction ws generalizing m with
  | nil => rfl
  | cons w ws ih =>
      rw [List.foldl_cons, ih fun u hu => h u (List.mem_cons_of_mem w hu), fixAt]
      split
      · have hw := h w (List.mem_cons_self ..)
        exact addInt32_below hlow (by omega)
      · rfl

variable (hchange : ∀ (m : Memory) (a : ℕ), m.addInt32 a d (a + k) ≠ m (a + k))

include hchange

/-- A search that adapts something is seen at byte `k` of the first place it adapts. -/
theorem foldl_fixAt_seen {ws : List ℕ} {m : Memory} (hsorted : ws.Pairwise (· < ·))
    (h : ¬∀ w ∈ ws, m.readInt32 w ≠ v) :
    ∃ w ∈ ws, ws.foldl (fixAt v d) m (w + k) ≠ m (w + k) := by
  rcases foldl_fixAt_cases (d := d) ws m with hnone | ⟨ws₁, w, ws₂, rfl, -, -, hfold⟩
  · exact absurd hnone h
  · refine ⟨w, List.mem_append_right _ (List.mem_cons_self ..), ?_⟩
    have hafter : ∀ u ∈ ws₂, w + 1 ≤ u := fun u hu =>
      (List.pairwise_cons.mp (List.pairwise_append.mp hsorted).2.1).1 u hu
    rw [hfold, foldl_fixAt_below hlow hafter (by omega)]
    exact hchange m w

/-- **The search adapts the place `f` and no other**, as far as can be seen at the bytes of
the searched places, exactly if the value is found there, not before, and not behind it
afterwards. -/
theorem foldl_fixAt_iff {ws : List ℕ} {m : Memory} {f : ℕ} (hsorted : ws.Pairwise (· < ·))
    (hf : m.readInt32 f = v) :
    (∀ x, (∃ w ∈ f :: ws, x = w + k) →
      ws.foldl (fixAt v d) m x = m.addInt32 f d x) ↔
    f ∈ ws ∧ (∀ w ∈ ws, w < f → m.readInt32 w ≠ v) ∧
      ∀ w ∈ ws, f < w → (m.addInt32 f d).readInt32 w ≠ v := by
  constructor
  · intro h
    have hseen : ∀ w ∈ f :: ws, ws.foldl (fixAt v d) m (w + k) = m.addInt32 f d (w + k) :=
      fun w hw => h (w + k) ⟨w, hw, rfl⟩
    have hatf := hseen f (List.mem_cons_self ..)
    rcases foldl_fixAt_cases (d := d) ws m with hnone | ⟨ws₁, w, ws₂, rfl, hbefore, hw, hfold⟩
    · -- nothing is found, so byte `k` at `f` is as before
      rw [foldl_fixAt_of_ne hnone] at hatf
      exact absurd hatf.symm (hchange m f)
    · have hws₂ : ∀ u ∈ ws₂, w + 1 ≤ u := fun u hu =>
        (List.pairwise_cons.mp (List.pairwise_append.mp hsorted).2.1).1 u hu
      have hws₁ : ∀ u ∈ ws₁, u < w := fun u hu =>
        (List.pairwise_append.mp hsorted).2.2 u hu w (List.mem_cons_self ..)
      have hmem : w ∈ f :: (ws₁ ++ w :: ws₂) :=
        List.mem_cons_of_mem f (List.mem_append_right _ (List.mem_cons_self ..))
      have hatw := hseen w hmem
      rw [hfold] at hatf hatw
      rw [foldl_fixAt_below hlow hws₂ (by omega)] at hatw
      rcases Nat.lt_trichotomy w f with hlt | rfl | hgt
      · -- a place before `f` has been adapted
        exact absurd (hatw.trans (addInt32_below hlow (by omega))) (hchange m w)
      · have hnone : ∀ u ∈ ws₂, (m.addInt32 w d).readInt32 u ≠ v := by
          by_contra hsome
          obtain ⟨u, hu, hne⟩ := foldl_fixAt_seen hlow hchange
            (List.pairwise_cons.mp (List.pairwise_append.mp hsorted).2.1).2 hsome
          refine hne ?_
          rw [← hfold]
          exact hseen u (List.mem_cons_of_mem w (List.mem_append_right _
            (List.mem_cons_of_mem w hu)))
        refine ⟨List.mem_append_right _ (List.mem_cons_self ..), ?_, ?_⟩
        · intro u hu hlt
          rcases List.mem_append.mp hu with hu | hu
          · exact hbefore u hu
          · rcases List.mem_cons.mp hu with rfl | hu
            · omega
            · have := hws₂ u hu
              omega
        · intro u hu hlt
          rcases List.mem_append.mp hu with hu | hu
          · have := hws₁ u hu
            omega
          · rcases List.mem_cons.mp hu with rfl | hu
            · omega
            · exact hnone u hu
      · -- the places before `w` have not been adapted, `f` among them
        rw [foldl_fixAt_below hlow hws₂ (by omega), addInt32_below hlow (by omega)] at hatf
        exact absurd hatf.symm (hchange m f)
  · rintro ⟨hmem, hbefore, hafter⟩ x -
    rw [foldl_fixAt_eq hsorted hf hmem hbefore hafter]

end

/-! ### The instructions in memory -/

/-- The copied instructions stand in the code at their offsets. -/
theorem entryInsns_bytes {code : List UInt8} {is : List Insn} {o : ℕ}
    (h : (is.map Insn.bytes).flatten = code.drop o) :
    ∀ e ∈ entryInsns o is, e.2.bytes = (code.drop e.1).take e.2.len := by
  induction is generalizing o with
  | nil => nofun
  | cons i is ih =>
      intro e he
      rw [List.map_cons, List.flatten_cons] at h
      rcases Nat.lt_or_ge o 5 with ho | ho
      · have hentry : entryInsns o (i :: is) = (o, i) :: entryInsns (o + i.len) is :=
          if_neg (by omega)
        have hrest : (is.map Insn.bytes).flatten = code.drop (o + i.len) := by
          rw [← List.drop_drop, ← h]
          exact (List.drop_left' rfl).symm
        rw [hentry] at he
        rcases List.mem_cons.mp he with rfl | he
        · rw [← h]
          exact (List.take_left' rfl).symm
        · exact ih hrest e he
      · have hentry : entryInsns o (i :: is) = [] := if_pos ho
        rw [hentry] at he
        cases he

/-- The first copied instruction starts at the first byte. -/
theorem entryInsns_head {is : List Insn} {o : ℕ} {e : ℕ × Insn} {es : List (ℕ × Insn)}
    (h : entryInsns o is = e :: es) : e.1 = o := by
  cases is with
  | nil => cases h
  | cons i is =>
      rw [entryInsns] at h
      split at h
      · cases h
      · rw [← (List.cons.inj h).1]

/-- A copied instruction is what stands in memory at its place. -/
theorem Udis86.entry_bytes (u : Udis86) (m : Memory) (addr : ℕ) {e : ℕ × Insn}
    (he : e ∈ u.entry m addr) :
    e.1 + e.2.len ≤ 24 ∧ e.2.bytes = m.read (addr + e.1) e.2.len := by
  have hok := u.ok (m.read addr 24) (length_read m addr 24) e he
  have hcode : ((u.decode (m.read addr 24)).map Insn.bytes).flatten =
      (m.read addr 24).drop 0 := u.bytes_eq _
  have hbytes := entryInsns_bytes hcode e he
  have hpos := hok.len_pos
  have hfit : e.1 + e.2.len ≤ 24 := by
    have hlen := congrArg List.length hbytes
    rw [List.length_take, List.length_drop, length_read] at hlen
    have : e.2.len = e.2.bytes.length := rfl
    omega
  refine ⟨hfit, hbytes.trans (List.ext_getElem? fun i => ?_)⟩
  rcases Nat.lt_or_ge i e.2.len with hi | hi
  · rw [List.getElem?_take_of_lt hi, List.getElem?_drop, getElem?_read m addr (by omega),
      getElem?_read m _ hi, Nat.add_assoc]
  · rw [List.getElem?_eq_none, List.getElem?_eq_none]
    · rwa [length_read]
    · rw [List.length_take]
      omega

/-- The opcode of a copied instruction. -/
theorem Udis86.entry_head (u : Udis86) (m : Memory) (addr : ℕ) {e : ℕ × Insn}
    (he : e ∈ u.entry m addr) : e.2.bytes.head? = some (m (addr + e.1)) := by
  obtain ⟨-, hbytes⟩ := u.entry_bytes m addr he
  have hpos := (u.ok (m.read addr 24) (length_read m addr 24) e he).len_pos
  rw [hbytes, List.head?_eq_getElem?, getElem?_read m _ hpos, Nat.add_zero]

/-- The displacement of a copied instruction. -/
theorem Udis86.entry_ripDisp (u : Udis86) (m : Memory) (addr : ℕ) {e : ℕ × Insn}
    (he : e ∈ u.entry m addr) {pos : ℕ} (hpos : pos + 4 ≤ e.2.len) :
    e.2.ripDisp pos = m.readInt32 (addr + e.1 + pos) := by
  obtain ⟨-, hbytes⟩ := u.entry_bytes m addr he
  have hfield : (e.2.bytes.drop pos).take 4 = m.read (addr + e.1 + pos) 4 := by
    refine List.ext_getElem? fun i => ?_
    rcases Nat.lt_or_ge i 4 with hi | hi
    · rw [List.getElem?_take_of_lt hi, List.getElem?_drop, hbytes,
        getElem?_read m _ (by omega), getElem?_read m _ hi, Nat.add_assoc (addr + e.1)]
    · rw [List.getElem?_eq_none, List.getElem?_eq_none]
      · rwa [length_read]
      · rw [List.length_take]
        omega
  rw [Insn.ripDisp, hfield, readInt32]

/-- The function starts with a near `jmp` only if nothing else is copied. -/
theorem EntryShape.of_jmp {u : Udis86} {m : Memory} {addr : ℕ} {pre : List (ℕ × Insn)}
    {last : ℕ × Insn} (h : EntryShape 0 (u.entry m addr) pre last) (hjmp : m addr = 0xE9) :
    pre = [] ∧ last.2.bytes.head? = some 0xE9 := by
  have hok := u.ok (m.read addr 24) (length_read m addr 24)
  cases pre with
  | nil =>
      have hmem : last ∈ u.entry m addr :=
        h.eq ▸ List.mem_append_right _ (List.mem_singleton_self _)
      have hzero : last.1 = 0 := entryInsns_head h.eq
      have hhead := u.entry_head m addr hmem
      rw [hzero, Nat.add_zero, hjmp] at hhead
      exact ⟨rfl, hhead⟩
  | cons e pre =>
      have hmem : e ∈ u.entry m addr := h.eq ▸ List.mem_cons_self ..
      have hzero : e.1 = 0 := entryInsns_head h.eq
      have hhead := u.entry_head m addr hmem
      rw [hzero, Nat.add_zero, hjmp] at hhead
      have hlen := ((hok e hmem).jmp hhead).2
      have hbefore := (h.before e (List.mem_cons_self ..)).2
      have hstart := h.start
      omega

/-! ### The copied code -/

/-- The copy is exact. -/
theorem copyEntry_code {n addr slot x : ℕ} (m : Memory) (hx : x < n) :
    copyEntry n addr slot m (slot + x) = m (addr + x) := by
  have hself := read_write_self m slot (m.read addr n)
  rw [length_read] at hself
  rw [copyEntry, writeInt32_of_outside (by omega), write_of_outside (by omega)]
  exact apply_eq_of_read_eq hself hx

/-- What the installation makes of the copied code: it adapts an exact copy. -/
theorem installOne_code (u : Udis86) (m : Memory) {addr slot : ℕ} (newFunc : ℕ)
    (hsep : addr + 5 ≤ slot ∨ slot + 64 ≤ addr) :
    ∃ copy : Memory, (∀ x < (u.scan m addr).savedCodeLen, copy (slot + x) = m (addr + x)) ∧
      ∀ x < (u.scan m addr).savedCodeLen, installOne u slot addr newFunc m (slot + x) =
        relocateEntry (u.scan m addr) addr slot copy (slot + x) := by
  have hle := (u.scan_fits m addr).le_nineteen
  refine ⟨copyEntry (u.scan m addr).savedCodeLen addr slot
    (writeHeader (u.scan m addr) addr slot newFunc m), fun x hx => ?_, fun x hx => ?_⟩
  · rw [copyEntry_code _ hx, writeHeader_outside (by omega)]
  · rw [installOne, patchEntry_outside _ (by omega), saveOrgCode_outside _ (by omega),
      prepareSlot]

/-- The relative part of four bytes is read as an `int`. -/
theorem PcRel.disp_eq {m : Memory} {loc len : ℕ} {r : PcRel} (h : r.width = 4) :
    r.disp m loc len = m.readInt32 (loc + r.pos len) := by
  cases r with
  | rel8 => cases h
  | rel32 => rfl
  | rip pos => rfl

/-- What has to happen to an instruction with a relative part of four bytes: the distance
is added to it. -/
theorem insnRelocated_iff {m m' copy : Memory} {addr slot : ℕ} {e : ℕ × Insn} {r : PcRel}
    (hr : e.2.pcRel = some r) (hwidth : r.width = 4) (hin : r.pos e.2.len + 4 ≤ e.2.len)
    (hcopy : ∀ x < e.2.len, copy (slot + e.1 + x) = m (addr + e.1 + x)) :
    InsnRelocated m m' addr slot e ↔
      FitsInt32 (m.readInt32 (addr + e.1 + r.pos e.2.len) + (addr - slot)) ∧
        ∀ x < e.2.len, m' (slot + e.1 + x) =
          copy.addInt32 (slot + e.1 + r.pos e.2.len) (addr - slot) (slot + e.1 + x) := by
  have hdisp : copy.readInt32 (slot + e.1 + r.pos e.2.len) =
      m.readInt32 (addr + e.1 + r.pos e.2.len) := by
    refine readInt32_congr fun i hi => ?_
    rw [Nat.add_assoc _ _ i, Nat.add_assoc _ _ i]
    exact hcopy _ (by omega)
  constructor
  · rintro ⟨htarget, hrest⟩
    have htarget := htarget r hr
    simp only [pcTarget, PcRel.disp_eq hwidth] at htarget
    have hrange := readInt32_range m' (slot + e.1 + r.pos e.2.len)
    have hnew : m'.readInt32 (slot + e.1 + r.pos e.2.len) =
        m.readInt32 (addr + e.1 + r.pos e.2.len) + (addr - slot) := by omega
    have hfits : FitsInt32 (m.readInt32 (addr + e.1 + r.pos e.2.len) + (addr - slot)) := by
      rw [← hnew]
      exact hrange
    refine ⟨hfits, fun x hx => ?_⟩
    by_cases hfield : r.pos e.2.len ≤ x ∧ x < r.pos e.2.len + 4
    · have hsame : m'.readInt32 (slot + e.1 + r.pos e.2.len) =
          (copy.addInt32 (slot + e.1 + r.pos e.2.len) (addr - slot)).readInt32
            (slot + e.1 + r.pos e.2.len) := by
        rw [readInt32_addInt32, hdisp, hnew, wrapInt32_eq_self hfits.1 hfits.2]
      have hbyte := apply_eq_of_readInt32_eq hsame (x - r.pos e.2.len) (by omega)
      have hx' : slot + e.1 + r.pos e.2.len + (x - r.pos e.2.len) = slot + e.1 + x := by omega
      rwa [hx'] at hbyte
    · rw [addInt32_of_outside (by omega), hcopy x hx]
      refine hrest x hx fun r' hr' => ?_
      obtain rfl : r = r' := Option.some.inj (hr.symm.trans hr')
      omega
  · rintro ⟨hfits, hbytes⟩
    refine ⟨fun r' hr' => ?_, fun x hx hfield => ?_⟩
    · obtain rfl : r = r' := Option.some.inj (hr.symm.trans hr')
      have hnew : m'.readInt32 (slot + e.1 + r.pos e.2.len) =
          m.readInt32 (addr + e.1 + r.pos e.2.len) + (addr - slot) := by
        rw [← wrapInt32_eq_self hfits.1 hfits.2, ← hdisp, ← readInt32_addInt32]
        refine readInt32_congr fun i hi => ?_
        rw [Nat.add_assoc _ _ i]
        exact hbytes _ (by omega)
      simp only [pcTarget, PcRel.disp_eq hwidth, hnew]
      omega
    · have := hfield r hr
      rw [hbytes x hx, addInt32_of_outside (by omega), hcopy x hx]

/-- The relative part depends on the bytes of the instruction only. -/
theorem PcRel.disp_congr {m m' : Memory} {loc loc' len : ℕ} {r : PcRel} (hin : r.Inside len)
    (h : ∀ x < len, m' (loc' + x) = m (loc + x)) : r.disp m' loc' len = r.disp m loc len := by
  have hint : ∀ p, p + 4 ≤ len → m'.readInt32 (loc' + p) = m.readInt32 (loc + p) := by
    intro p hp
    refine readInt32_congr fun i hi => ?_
    rw [Nat.add_assoc, Nat.add_assoc]
    exact h _ (by omega)
  cases r with
  | rel8 =>
      have h2 : 2 ≤ len := hin
      have hbyte := h (len - 1) (by omega)
      unfold disp
      exact congrArg (fun b : UInt8 => Int.bmod b.toNat 256) hbyte
  | rel32 =>
      have h5 : 5 ≤ len := hin
      exact hint _ (by omega)
  | rip pos =>
      have h6 : 2 ≤ pos ∧ pos + 4 ≤ len := hin
      exact hint _ (by omega)

/-- Copied as it is, an instruction is relocated exactly if it has no relative part. -/
theorem insnRelocated_of_unchanged {m m' : Memory} {addr slot : ℕ} {e : ℕ × Insn}
    (hok : e.2.Ok) (hne : addr ≠ slot)
    (hkeep : ∀ x < e.2.len, m' (slot + e.1 + x) = m (addr + e.1 + x)) :
    InsnRelocated m m' addr slot e ↔ e.2.pcRel = none := by
  constructor
  · intro h
    cases hr : e.2.pcRel with
    | none => rfl
    | some r =>
        have htarget := h.1 r hr
        simp only [pcTarget] at htarget
        rw [PcRel.disp_congr (hok.inside r hr) hkeep] at htarget
        omega
  · intro hr
    refine ⟨fun r hr' => ?_, fun x hx _ => hkeep x hx⟩
    rw [hr] at hr'
    cases hr'

theorem insnRelocatable_of_none {m : Memory} {addr slot count : ℕ} {e : ℕ × Insn}
    (hr : e.2.pcRel = none) : InsnRelocatable m addr slot count e := by
  rw [InsnRelocatable, hr]
  trivial

theorem insnRelocatable_rel8 {m : Memory} {addr slot count : ℕ} {e : ℕ × Insn}
    (hr : e.2.pcRel = some .rel8) : ¬InsnRelocatable m addr slot count e := by
  rw [InsnRelocatable, hr]
  exact not_false

theorem insnRelocatable_rel32 {m : Memory} {addr slot count : ℕ} {e : ℕ × Insn}
    (hr : e.2.pcRel = some .rel32) :
    InsnRelocatable m addr slot count e ↔ JmpRelocatable m addr slot count e := by
  rw [InsnRelocatable, hr]

theorem insnRelocatable_rip {m : Memory} {addr slot count pos : ℕ} {e : ℕ × Insn}
    (hr : e.2.pcRel = some (.rip pos)) :
    InsnRelocatable m addr slot count e ↔ RipRelocatable m addr slot pos e := by
  rw [InsnRelocatable, hr]

/-- Only an instruction of at least five bytes is adapted. -/
theorem insnRelocatable_short {m : Memory} {addr slot count : ℕ} {e : ℕ × Insn} (hok : e.2.Ok)
    (hlen : e.2.len ≤ 4) : InsnRelocatable m addr slot count e ↔ e.2.pcRel = none := by
  refine ⟨fun h => ?_, insnRelocatable_of_none⟩
  rcases hok.pcRel_of_short hlen with hr | hr
  · exact hr
  · exact absurd h (insnRelocatable_rel8 hr)

/-! ### What is adapted, for each result of the scan -/

theorem mem_ripWindows {slot n w : ℕ} (hn : 6 ≤ n) :
    w ∈ ripWindows slot n ↔ ∃ j, n ≤ j + 6 ∧ j + 4 ≤ n ∧ w = slot + j := by
  simp only [ripWindows, List.mem_cons, List.not_mem_nil, or_false]
  constructor
  · rintro (rfl | rfl | rfl)
    · exact ⟨n - 6, by omega⟩
    · exact ⟨n - 5, by omega⟩
    · exact ⟨n - 4, by omega⟩
  · rintro ⟨j, hj, hj', rfl⟩
    omega

theorem ripWindows_sorted {n : ℕ} (slot : ℕ) (hn : 6 ≤ n) :
    (ripWindows slot n).Pairwise (· < ·) := by
  simp only [ripWindows, List.pairwise_cons, List.mem_cons, List.not_mem_nil, or_false,
    forall_eq_or_imp, forall_eq, List.Pairwise.nil, and_true, false_implies, implies_true]
  omega

theorem fixFirst_of_ne {m : Memory} {d : ℤ} {slot : ℕ} (h : m slot ≠ 0xE9) :
    fixFirst d slot m = m :=
  if_neg h

theorem fixFirst_apply_slot (m : Memory) (d : ℤ) (slot : ℕ) :
    fixFirst d slot m slot = m slot := by
  rw [fixFirst]
  split
  · exact addInt32_of_outside (by omega)
  · rfl

section

variable {n addr slot : ℕ} {copy : Memory} (h₁ : -2 ^ 31 ≤ (addr : ℤ) - slot)
  (h₂ : (addr : ℤ) - slot < 2 ^ 31)

/-- Nothing is found, nothing is adapted. -/
theorem relocateEntry_plain (hne : copy slot ≠ 0xE9) :
    relocateEntry ⟨n, nullRipVarOffset, none⟩ addr slot copy = copy :=
  fixFirst_of_ne hne

include h₁ h₂

theorem relocateEntry_first (heq : copy slot = 0xE9) :
    relocateEntry ⟨n, nullRipVarOffset, none⟩ addr slot copy =
      copy.addInt32 (slot + 1) (addr - slot) := by
  have hrip : relocateEntry ⟨n, nullRipVarOffset, none⟩ addr slot copy =
      fixFirst (wrapInt32 ((addr : ℤ) - slot)) slot copy := rfl
  rw [hrip, fixFirst, if_pos heq, wrapInt32_eq_self h₁ h₂]

theorem relocateEntry_jmp {j : ℕ} (hj : 0 < j) (hne : copy slot ≠ 0xE9) :
    relocateEntry ⟨n, nullRipVarOffset, some j⟩ addr slot copy =
      copy.addInt32 (slot + j) (addr - slot) := by
  have hjmp : relocateEntry ⟨n, nullRipVarOffset, some j⟩ addr slot copy =
      fixFirst (wrapInt32 ((addr : ℤ) - slot)) slot
        (copy.addInt32 (slot + j) (wrapInt32 ((addr : ℤ) - slot))) := rfl
  have hslot : copy.addInt32 (slot + j) (wrapInt32 ((addr : ℤ) - slot)) slot = copy slot :=
    addInt32_of_outside (by omega)
  rw [hjmp, fixFirst_of_ne (by rwa [hslot]), wrapInt32_eq_self h₁ h₂]

theorem relocateEntry_rip {disp : ℤ} (hdisp : disp ≠ nullRipVarOffset) :
    relocateEntry ⟨n, disp, none⟩ addr slot copy =
      fixFirst (addr - slot) slot ((ripWindows slot n).foldl (fixAt disp (addr - slot)) copy) := by
  have hrip : relocateEntry ⟨n, disp, none⟩ addr slot copy =
      fixFirst (wrapInt32 ((addr : ℤ) - slot)) slot
        (fixRip ⟨n, disp, none⟩ (wrapInt32 ((addr : ℤ) - slot)) slot copy) := rfl
  rw [hrip, fixRip, if_neg hdisp, wrapInt32_eq_self h₁ h₂]

end

/-! ### The last of the copied instructions -/

section

variable {m m' copy : Memory} {addr slot count : ℕ} {last : ℕ × Insn} (hok : last.2.Ok)
  (hne : addr ≠ slot) (h₁ : -2 ^ 31 < (addr : ℤ) - slot) (h₂ : (addr : ℤ) - slot < 2 ^ 31)
  (hcopy : ∀ x < last.1 + last.2.len, copy (slot + x) = m (addr + x))

include hcopy

theorem copy_last : ∀ x < last.2.len, copy (slot + last.1 + x) = m (addr + last.1 + x) := by
  intro x hx
  rw [Nat.add_assoc, Nat.add_assoc]
  exact hcopy _ (by omega)

/-- If the distance is added to the relative part, the instruction is relocated, as far as
the sum fits. -/
theorem insnRelocated_of_adapted {r : PcRel} (hr : last.2.pcRel = some r) (hwidth : r.width = 4)
    (hin : r.pos last.2.len + 4 ≤ last.2.len)
    (hcode : ∀ x < last.1 + last.2.len, m' (slot + x) =
      copy.addInt32 (slot + (last.1 + r.pos last.2.len)) (addr - slot) (slot + x)) :
    InsnRelocated m m' addr slot last ↔
      FitsInt32 (m.readInt32 (addr + last.1 + r.pos last.2.len) + (addr - slot)) := by
  rw [insnRelocated_iff hr hwidth hin (copy_last hcopy)]
  refine and_iff_left fun x hx => ?_
  rw [Nat.add_assoc slot, Nat.add_assoc slot]
  exact hcode _ (by omega)

/-- The search stays inside the last instruction. -/
theorem keep_rip {disp : ℤ} (hlen : 6 ≤ last.2.len) (hzero : m addr ≠ 0xE9) :
    ∀ x < last.1, fixFirst (addr - slot) slot ((ripWindows slot (last.1 + last.2.len)).foldl
      (fixAt disp (addr - slot)) copy) (slot + x) = copy (slot + x) := by
  intro x hx
  have hfold : ∀ y < last.1, (ripWindows slot (last.1 + last.2.len)).foldl
      (fixAt disp (addr - slot)) copy (slot + y) = copy (slot + y) := by
    intro y hy
    refine foldl_fixAt_outside fun w hw => ?_
    obtain ⟨j, hj, -, rfl⟩ := (mem_ripWindows (by omega)).mp hw
    omega
  have hslot := hfold 0 (by omega)
  have hcopySlot := hcopy 0 (by omega)
  rw [Nat.add_zero] at hslot hcopySlot
  rw [fixFirst_of_ne, hfold x hx]
  rw [hslot, hcopySlot]
  exact hzero

/-- A place in the copy reads the same as in the code. -/
theorem copy_readInt32 {j : ℕ} (hj : j + 4 ≤ last.1 + last.2.len) :
    copy.readInt32 (slot + j) = m.readInt32 (addr + j) := by
  refine readInt32_congr fun i hi => ?_
  rw [Nat.add_assoc, Nat.add_assoc]
  exact hcopy _ (by omega)

/-- So it does when the distance has been added at the same place in both. -/
theorem copy_addInt32_readInt32 {f j : ℕ} (hf : f + 4 ≤ last.1 + last.2.len)
    (hj : j + 4 ≤ last.1 + last.2.len) (d : ℤ) :
    (copy.addInt32 (slot + f) d).readInt32 (slot + j) =
      (m.addInt32 (addr + f) d).readInt32 (addr + j) := by
  refine readInt32_congr fun i hi => ?_
  rw [Nat.add_assoc, Nat.add_assoc]
  exact addInt32_congr hcopy hf d _ (by omega)

/-- What the search needs of the places in the copy, said about those in the code. -/
theorem ripWindows_copy_iff (hn : 6 ≤ last.1 + last.2.len) {f : ℕ}
    (hf : f + 4 ≤ last.1 + last.2.len) (d disp : ℤ) :
    (slot + f ∈ ripWindows slot (last.1 + last.2.len) ∧
      (∀ w ∈ ripWindows slot (last.1 + last.2.len), w < slot + f → copy.readInt32 w ≠ disp) ∧
      ∀ w ∈ ripWindows slot (last.1 + last.2.len), slot + f < w →
        (copy.addInt32 (slot + f) d).readInt32 w ≠ disp) ↔
    last.1 + last.2.len ≤ f + 6 ∧ ∀ w ∈ ripWindows addr (last.1 + last.2.len),
      (w < addr + f → m.readInt32 w ≠ disp) ∧
      (addr + f < w → (m.addInt32 (addr + f) d).readInt32 w ≠ disp) := by
  simp only [mem_ripWindows hn]
  constructor
  · rintro ⟨⟨j, hj, -, hjf⟩, hbefore, hafter⟩
    refine ⟨by omega, ?_⟩
    rintro w ⟨j, hj, hj', rfl⟩
    refine ⟨fun hlt => ?_, fun hlt => ?_⟩
    · rw [← copy_readInt32 hcopy hj']
      exact hbefore _ ⟨j, hj, hj', rfl⟩ (by omega)
    · rw [← copy_addInt32_readInt32 hcopy hf hj']
      exact hafter _ ⟨j, hj, hj', rfl⟩ (by omega)
  · rintro ⟨hreach, hothers⟩
    refine ⟨⟨f, by omega, by omega, rfl⟩, ?_, ?_⟩
    · rintro w ⟨j, hj, hj', rfl⟩ hlt
      rw [copy_readInt32 hcopy hj']
      exact (hothers _ ⟨j, hj, hj', rfl⟩).1 (by omega)
    · rintro w ⟨j, hj, hj', rfl⟩ hlt
      rw [copy_addInt32_readInt32 hcopy hf hj']
      exact (hothers _ ⟨j, hj, hj', rfl⟩).2 (by omega)

/-- If the search leaves the last instruction as it should be, it leaves the first byte, so that
this is not taken for a `jmp`. -/
theorem first_byte_kept {pos : ℕ} {disp d : ℤ} (hn : 6 ≤ last.2.len) (hpos : 0 < pos)
    (hzero : m addr ≠ 0xE9)
    (h : ∀ x < last.2.len,
      fixFirst d slot ((ripWindows slot (last.1 + last.2.len)).foldl (fixAt disp d) copy)
        (slot + (last.1 + x)) = copy.addInt32 (slot + (last.1 + pos)) d (slot + (last.1 + x))) :
    (ripWindows slot (last.1 + last.2.len)).foldl (fixAt disp d) copy slot ≠ 0xE9 := by
  have hcopySlot : copy slot = m addr := hcopy 0 (by omega)
  have hkept : (ripWindows slot (last.1 + last.2.len)).foldl (fixAt disp d) copy slot =
      copy slot := by
    rcases Nat.eq_zero_or_pos last.1 with h0 | h0
    · have hat := h 0 (by omega)
      rw [h0, Nat.zero_add, Nat.add_zero, fixFirst_apply_slot, Nat.zero_add,
        addInt32_of_outside (by omega)] at hat
      rwa [h0, Nat.zero_add]
    · refine foldl_fixAt_outside fun w hw => ?_
      obtain ⟨j, hj, -, rfl⟩ := (mem_ripWindows (by omega)).mp hw
      omega
  rwa [hkept, hcopySlot]

include hok

/-- The right place is adapted in a near `jmp` that is the first or second instruction. -/
theorem last_jmp (hjmp : last.2.bytes.head? = some 0xE9) (hcount : count ≤ 2)
    (hcode : ∀ x < last.1 + last.2.len, m' (slot + x) =
      copy.addInt32 (slot + (last.1 + 1)) (addr - slot) (slot + x)) :
    InsnRelocated m m' addr slot last ↔ InsnRelocatable m addr slot count last := by
  obtain ⟨hr, hlen⟩ := hok.jmp hjmp
  have hpos : PcRel.rel32.pos last.2.len = 1 := by
    rw [PcRel.pos, hlen]
  rw [insnRelocated_of_adapted hcopy hr rfl (by omega) (by rwa [hpos]),
    insnRelocatable_rel32 hr]
  exact ⟨fun h => ⟨hjmp, hcount, h⟩, fun h => h.2.2⟩

include hne

/-- Nothing is adapted, and the instruction is neither a near `jmp` nor printed with
`[rip+`. -/
theorem last_plain (hjmp : last.2.bytes.head? ≠ some 0xE9)
    (hdisp : ∀ pos, last.2.pcRel = some (.rip pos) → ¬RipRelocatable m addr slot pos last)
    (hcode : ∀ x < last.1 + last.2.len, m' (slot + x) = copy (slot + x)) :
    InsnRelocated m m' addr slot last ↔ InsnRelocatable m addr slot count last := by
  have hkeep : ∀ x < last.2.len, m' (slot + last.1 + x) = m (addr + last.1 + x) := by
    intro x hx
    rw [← copy_last hcopy x hx, Nat.add_assoc]
    exact hcode _ (by omega)
  rw [insnRelocated_of_unchanged hok hne hkeep]
  refine ⟨insnRelocatable_of_none, fun h => ?_⟩
  cases hr : last.2.pcRel with
  | none => rfl
  | some r =>
      cases r with
      | rel8 => exact absurd h (insnRelocatable_rel8 hr)
      | rel32 => exact absurd ((insnRelocatable_rel32 hr).mp h).1 hjmp
      | rip pos => exact absurd ((insnRelocatable_rip hr).mp h) (hdisp pos hr)

include h₁ h₂

/-- The wrong place is adapted in a near `jmp` that comes after two or more. -/
theorem last_jmp_misplaced (hjmp : last.2.bytes.head? = some 0xE9) {w : ℕ}
    (hw : w < last.1 + 1) (hw' : last.1 + 1 ≤ w + 3)
    (hcode : ∀ x < last.1 + last.2.len, m' (slot + x) =
      copy.addInt32 (slot + w) (addr - slot) (slot + x)) :
    ¬InsnRelocated m m' addr slot last := by
  obtain ⟨hr, hlen⟩ := hok.jmp hjmp
  have hpos : PcRel.rel32.pos last.2.len = 1 := by
    rw [PcRel.pos, hlen]
  rw [insnRelocated_iff hr rfl (by omega) (copy_last hcopy)]
  rintro ⟨-, hbytes⟩
  refine addInt32_ne_of_overlap (m := copy) (w := slot + w) (f := slot + last.1 + 1)
    (d := (addr : ℤ) - slot) (by omega) h₁ h₂ (by omega) (by omega) fun x hx hx' => ?_
  obtain ⟨y, rfl⟩ : ∃ y, x = slot + last.1 + y := ⟨x - (slot + last.1), by omega⟩
  have hbyte := hbytes y (by omega)
  rw [hpos] at hbyte
  rw [← hbyte, Nat.add_assoc slot]
  exact (hcode _ (by omega)).symm

/-- What the search for the displacement has to find. -/
theorem last_search {pos : ℕ} {disp : ℤ} (hr : last.2.pcRel = some (.rip pos))
    (hdisp : m.readInt32 (addr + last.1 + pos) = disp) (hzero : m addr ≠ 0xE9) :
    (∀ x < last.2.len,
      fixFirst (addr - slot) slot ((ripWindows slot (last.1 + last.2.len)).foldl
        (fixAt disp (addr - slot)) copy) (slot + last.1 + x) =
      copy.addInt32 (slot + last.1 + pos) (addr - slot) (slot + last.1 + x)) ↔
    last.2.len ≤ pos + 6 ∧ ∀ w ∈ ripWindows addr (last.1 + last.2.len),
      (w < addr + last.1 + pos → m.readInt32 w ≠ disp) ∧
      (addr + last.1 + pos < w →
        (m.addInt32 (addr + last.1 + pos) (addr - slot)).readInt32 w ≠ disp) := by
  obtain ⟨hpos, hlen⟩ : 2 ≤ pos ∧ pos + 4 ≤ last.2.len := hok.inside _ hr
  obtain ⟨k, hk, hbyte⟩ := addInt32_firstByte (d := (addr : ℤ) - slot) (by omega) h₁ h₂
  have hn : 6 ≤ last.1 + last.2.len := by omega
  have hin : last.1 + pos + 4 ≤ last.1 + last.2.len := by omega
  have hwindows := ripWindows_copy_iff hcopy hn hin (addr - slot) disp
  have hreach : last.1 + last.2.len ≤ last.1 + pos + 6 ↔ last.2.len ≤ pos + 6 := by omega
  rw [Nat.add_assoc] at hdisp
  have hf : copy.readInt32 (slot + (last.1 + pos)) = disp :=
    (copy_readInt32 hcopy hin).trans hdisp
  simp only [Nat.add_assoc addr, Nat.add_assoc slot]
  rw [← hreach, ← hwindows]
  constructor
  · intro h
    rw [fixFirst_of_ne (first_byte_kept hcopy (by omega) (by omega) hzero h)] at h
    refine (foldl_fixAt_iff (fun m a => (hbyte m a).1) (fun m a => (hbyte m a).2)
      (ripWindows_sorted slot hn) hf).mp ?_
    rintro x ⟨w, hw, rfl⟩
    have hmem : ∃ j, last.1 ≤ j ∧ j + 4 ≤ last.1 + last.2.len ∧ w = slot + j := by
      rcases List.mem_cons.mp hw with rfl | hw
      · exact ⟨last.1 + pos, by omega, by omega, rfl⟩
      · obtain ⟨j, hj, hj', rfl⟩ := (mem_ripWindows hn).mp hw
        exact ⟨j, by omega, hj', rfl⟩
    obtain ⟨j, hj, hj', rfl⟩ := hmem
    have hx : slot + j + k = slot + (last.1 + (j - last.1 + k)) := by omega
    rw [hx]
    exact h _ (by omega)
  · rintro ⟨hmem, hbefore, hafter⟩ x hx
    have hcopySlot : copy slot = m addr := hcopy 0 (by omega)
    rw [foldl_fixAt_eq (ripWindows_sorted slot hn) hf hmem hbefore hafter, fixFirst_of_ne]
    rwa [addInt32_of_outside (by omega), hcopySlot]

/-- A positive displacement is searched for. -/
theorem last_rip {pos : ℕ} {disp : ℤ} (hr : last.2.pcRel = some (.rip pos))
    (hdisp : m.readInt32 (addr + last.1 + pos) = disp) (hpos : 0 < disp)
    (hmark : disp ≠ nullRipVarOffset) (hzero : m addr ≠ 0xE9)
    (hcode : ∀ x < last.1 + last.2.len, m' (slot + x) =
      fixFirst (addr - slot) slot ((ripWindows slot (last.1 + last.2.len)).foldl
        (fixAt disp (addr - slot)) copy) (slot + x)) :
    InsnRelocated m m' addr slot last ↔ InsnRelocatable m addr slot count last := by
  have hin : 2 ≤ pos ∧ pos + 4 ≤ last.2.len := hok.inside _ hr
  have hsearch := last_search hok hne h₁ h₂ hcopy hr hdisp hzero
  have hbytes : ∀ x < last.2.len, m' (slot + last.1 + x) =
      fixFirst (addr - slot) slot ((ripWindows slot (last.1 + last.2.len)).foldl
        (fixAt disp (addr - slot)) copy) (slot + last.1 + x) := by
    intro x hx
    rw [Nat.add_assoc]
    exact hcode _ (by omega)
  rw [insnRelocated_iff hr rfl hin.2 (copy_last hcopy), insnRelocatable_rip hr, RipRelocatable]
  have hspot : PcRel.pos last.2.len (.rip pos) = pos := rfl
  rw [hspot, hdisp]
  constructor
  · rintro ⟨hfits, h⟩
    obtain ⟨hreach, hothers⟩ := hsearch.mp fun x hx => (hbytes x hx).symm.trans (h x hx)
    exact ⟨hpos, hmark, hreach, hfits, hothers⟩
  · rintro ⟨-, -, hreach, hfits, hothers⟩
    exact ⟨hfits, fun x hx => (hbytes x hx).trans (hsearch.mpr ⟨hreach, hothers⟩ x hx)⟩

/-- What the installation is to make of the last instruction: it is relocated exactly if it is
relocatable, and then what stands before it is copied as it is. -/
def LastOk (m m' : Memory) (addr slot count : ℕ) (last : ℕ × Insn) : Prop :=
  (InsnRelocated m m' addr slot last ↔ InsnRelocatable m addr slot count last) ∧
    (InsnRelocatable m addr slot count last → ∀ x < last.1, m' (slot + x) = m (addr + x))

omit h₁ h₂ in
/-- Nothing is adapted, and nothing has to be. -/
theorem lastOk_plain (hjmp : last.2.bytes.head? ≠ some 0xE9) (hlen : 0 < last.2.len)
    (hdisp : ∀ pos, last.2.pcRel = some (.rip pos) → ¬RipRelocatable m addr slot pos last)
    (hzero : m addr ≠ 0xE9)
    (hcode : ∀ x < last.1 + last.2.len, m' (slot + x) =
      relocateEntry ⟨last.1 + last.2.len, nullRipVarOffset, none⟩ addr slot copy (slot + x)) :
    LastOk m m' addr slot count last := by
  have hslot : copy slot = m addr := hcopy 0 (by omega)
  rw [relocateEntry_plain (by rwa [hslot])] at hcode
  refine ⟨last_plain hok hne hcopy hjmp hdisp hcode, fun _ x hx => ?_⟩
  rw [hcode x (by omega), hcopy x (by omega)]

/-- The displacement of the last instruction is printed, and positive. -/
theorem lastOk_rip {pos : ℕ} (hr : last.2.pcRel = some (.rip pos))
    (hdisp : last.2.ripDisp pos = m.readInt32 (addr + last.1 + pos))
    (hpos : 0 < last.2.ripDisp pos) (hzero : m addr ≠ 0xE9)
    (hcode : ∀ x < last.1 + last.2.len, m' (slot + x) =
      relocateEntry ⟨last.1 + last.2.len, last.2.ripDisp pos, none⟩ addr slot copy (slot + x)) :
    LastOk m m' addr slot count last := by
  have hin : 2 ≤ pos ∧ pos + 4 ≤ last.2.len := hok.inside _ hr
  have hjmp : last.2.bytes.head? ≠ some 0xE9 := by
    intro hjmp
    rw [(hok.jmp hjmp).1] at hr
    cases hr
  by_cases hmark : last.2.ripDisp pos = nullRipVarOffset
  · rw [hmark] at hcode
    refine lastOk_plain hok hne hcopy hjmp (by omega) (fun p hp h => ?_) hzero hcode
    rw [hr] at hp
    cases hp
    exact h.2.1 (hdisp.symm.trans hmark)
  · rw [relocateEntry_rip h₁.le h₂ hmark] at hcode
    refine ⟨last_rip hok hne h₁ h₂ hcopy hr hdisp.symm hpos hmark hzero hcode, fun _ x hx => ?_⟩
    rw [hcode x (by omega), keep_rip hcopy (by omega) hzero x hx, hcopy x (by omega)]

omit hne in
/-- The copied code is one near `jmp`. -/
theorem lastOk_jmp (hjmp : last.2.bytes.head? = some 0xE9) (hcount : count ≤ 2)
    (hstart : last.1 = 0) (hzero : m addr = 0xE9)
    (hcode : ∀ x < last.1 + last.2.len, m' (slot + x) =
      relocateEntry ⟨last.1 + last.2.len, nullRipVarOffset, none⟩ addr slot copy (slot + x)) :
    LastOk m m' addr slot count last := by
  have hlen := (hok.jmp hjmp).2
  have hslot : copy slot = m addr := hcopy 0 (by omega)
  rw [relocateEntry_first h₁.le h₂ (hslot.trans hzero)] at hcode
  refine ⟨last_jmp hok hcopy hjmp hcount ?_, fun _ x hx => by omega⟩
  rwa [hstart, Nat.zero_add] at hcode ⊢

omit hne in
/-- A near `jmp` comes after one instruction. -/
theorem lastOk_jmpSecond (hjmp : last.2.bytes.head? = some 0xE9) (hcount : count ≤ 2)
    (hzero : m addr ≠ 0xE9) (hstart : 0 < last.1)
    (hcode : ∀ x < last.1 + last.2.len, m' (slot + x) =
      relocateEntry ⟨last.1 + last.2.len, nullRipVarOffset, some (last.1 + 1)⟩ addr slot copy
        (slot + x)) :
    LastOk m m' addr slot count last := by
  have hslot : copy slot = m addr := hcopy 0 (by omega)
  rw [relocateEntry_jmp h₁.le h₂ (by omega) (by rwa [hslot])] at hcode
  refine ⟨last_jmp hok hcopy hjmp hcount hcode, fun _ x hx => ?_⟩
  rw [hcode x (by omega), addInt32_of_outside (by omega), hcopy x (by omega)]

/-- A near `jmp` comes after two instructions or more. -/
theorem lastOk_jmpLater (hjmp : last.2.bytes.head? = some 0xE9) (hcount : 2 < count)
    (hzero : m addr ≠ 0xE9) {w : ℕ} (hw₀ : 0 < w) (hw : w < last.1 + 1) (hw' : last.1 + 1 ≤ w + 3)
    (hcode : ∀ x < last.1 + last.2.len, m' (slot + x) =
      relocateEntry ⟨last.1 + last.2.len, nullRipVarOffset, some w⟩ addr slot copy (slot + x)) :
    LastOk m m' addr slot count last := by
  have hslot : copy slot = m addr := hcopy 0 (by omega)
  rw [relocateEntry_jmp h₁.le h₂ hw₀ (by rwa [hslot])] at hcode
  have hno : ¬InsnRelocatable m addr slot count last := by
    rw [insnRelocatable_rel32 (hok.jmp hjmp).1]
    intro h
    have hle := h.2.1
    omega
  exact ⟨iff_of_false (last_jmp_misplaced hok hne h₁ h₂ hcopy hjmp hw hw' hcode) hno,
    fun h => absurd h hno⟩

end

/-! ### The main result -/

section

variable (u : Udis86) (m : Memory) (addr slot newFunc : ℕ)
  (hsep : addr + 24 ≤ slot ∨ slot + 64 ≤ addr) (hnear : |(addr : ℤ) - slot| < 2 ^ 31)

include hsep hnear

/-- The last instruction is relocated exactly if it is relocatable, and then the others are
copied as they are. -/
theorem installOne_last {pre : List (ℕ × Insn)} {last : ℕ × Insn}
    (hshape : EntryShape 0 (u.entry m addr) pre last)
    (hok : ∀ e ∈ u.entry m addr, e.2.Ok) (hres : ScanResult pre last (u.scan m addr)) :
    LastOk m (installOne u slot addr newFunc m) addr slot (u.entry m addr).length last := by
  have hne : addr ≠ slot := by omega
  obtain ⟨h₁, h₂⟩ := abs_lt.mp hnear
  have hmem : last ∈ u.entry m addr :=
    hshape.eq ▸ List.mem_append_right _ (List.mem_singleton_self _)
  have hlast := hok last hmem
  have hcount : (u.entry m addr).length = pre.length + 1 := by
    rw [hshape.eq, List.length_append, List.length_singleton]
  obtain ⟨copy, hcopy, hcode⟩ := installOne_code u m newFunc (hsep.imp_left (by omega))
  have hzero : pre ≠ [] ∨ last.2.bytes.head? ≠ some 0xE9 → m addr ≠ 0xE9 := by
    rintro h heq
    have hjmp := hshape.of_jmp heq
    exact h.elim (absurd hjmp.1) (absurd hjmp.2)
  generalize u.scan m addr = e at hres hcopy hcode
  cases hres with
  | rip pos hrip hpos =>
      have hin : 2 ≤ pos ∧ pos + 4 ≤ last.2.len := hlast.inside _ hrip
      refine lastOk_rip hlast hne h₁ h₂ hcopy hrip (u.entry_ripDisp m addr hmem hin.2) hpos
        (hzero (.inr fun hjmp => ?_)) hcode
      rw [(hlast.jmp hjmp).1] at hrip
      cases hrip
  | jmp hjmp hpre =>
      have hstart : last.1 = 0 := by
        rcases hshape.prev with ⟨-, h⟩ | ⟨pre', prev, h, -⟩
        · exact h
        · rw [hpre] at h
          exact absurd h (by simp)
      have hhead : m addr = 0xE9 := by
        have h := u.entry_head m addr hmem
        rw [hjmp, hstart, Nat.add_zero] at h
        exact (Option.some.inj h).symm
      refine lastOk_jmp hlast h₁ h₂ hcopy hjmp ?_ hstart hhead hcode
      rw [hcount, hpre, List.length_nil]
      omega
  | jmpAfter hjmp pre' prev hpre =>
      have hnil : pre ≠ [] := by
        rw [hpre]
        exact List.append_ne_nil_of_right_ne_nil _ (List.cons_ne_nil _ _)
      obtain ⟨pre'', prev', hpre'', hend, hfirst, hlater⟩ :=
        hshape.prev.resolve_left fun h => hnil h.1
      obtain ⟨rfl, heq⟩ := List.append_inj' (hpre.symm.trans hpre'') rfl
      obtain rfl := List.singleton_inj.mp heq
      rw [hpre, List.length_append, List.length_singleton] at hcount
      have hprev : 0 < prev.2.len := (hok prev (hshape.eq ▸ List.mem_append_left _
        (hpre ▸ List.mem_append_right _ (List.mem_singleton_self _)))).len_pos
      rcases List.eq_nil_or_concat pre' with rfl | ⟨qs, q, hq⟩
      · have hspot : prev.2.len + 1 = last.1 + 1 := by
          have := hfirst rfl
          omega
        rw [hspot] at hcode
        refine lastOk_jmpSecond hlast h₁ h₂ hcopy hjmp ?_ (hzero (.inl hnil)) (by omega) hcode
        rw [hcount, List.length_nil]
      · have hpos : 0 < prev.1 := hlater (by rw [hq, List.concat_eq_append]; simp)
        have hstart := hshape.start
        refine lastOk_jmpLater hlast hne h₁ h₂ hcopy hjmp ?_ (hzero (.inl hnil)) (by omega)
          (by omega) (by omega) hcode
        rw [hcount, hq, List.length_concat]
        omega
  | plain hjmp hdisp =>
      refine lastOk_plain hlast hne hcopy hjmp hlast.len_pos (fun p hp h => ?_)
        (hzero (.inr hjmp)) hcode
      have hin : 2 ≤ p ∧ p + 4 ≤ last.2.len := hlast.inside _ hp
      have hnonpos := hdisp p hp
      rw [u.entry_ripDisp m addr hmem hin.2] at hnonpos
      exact absurd h.1 (not_lt.mpr hnonpos)

/-- **The copied code means what the original means exactly if it is `Relocatable`.** -/
theorem relocated_iff :
    Relocated m (installOne u slot addr newFunc m) addr slot (u.entry m addr) ↔
      Relocatable m addr slot (u.entry m addr) := by
  obtain ⟨pre, last, hshape, hok, hres⟩ := u.scan_spec m addr
  obtain ⟨hlast, hkeep⟩ := installOne_last u m addr slot newFunc hsep hnear hshape hok hres
  have hne : addr ≠ slot := by omega
  have hmem : last ∈ u.entry m addr :=
    hshape.eq ▸ List.mem_append_right _ (List.mem_singleton_self _)
  have hstart := hshape.start
  have hother : InsnRelocatable m addr slot (u.entry m addr).length last →
      ∀ e ∈ pre, InsnRelocated m (installOne u slot addr newFunc m) addr slot e ↔
        InsnRelocatable m addr slot (u.entry m addr).length e := by
    intro h e he
    have hbefore := (hshape.before e he).2
    have heok := hok e (hshape.eq ▸ List.mem_append_left _ he)
    rw [insnRelocatable_short heok (by omega)]
    refine insnRelocated_of_unchanged heok hne fun x hx => ?_
    rw [Nat.add_assoc, Nat.add_assoc]
    exact hkeep h _ (by omega)
  have hsplit : ∀ e ∈ u.entry m addr, e ∈ pre ∨ e = last := by
    intro e he
    rw [hshape.eq] at he
    exact (List.mem_append.mp he).imp_right List.mem_singleton.mp
  constructor
  · intro h e he
    have hl := hlast.mp (h last hmem)
    rcases hsplit e he with hpre | rfl
    · exact (hother hl e hpre).mp (h e he)
    · exact hl
  · intro h e he
    have hl := h last hmem
    rcases hsplit e he with hpre | rfl
    · exact (hother hl e hpre).mpr (h e he)
    · exact hlast.mpr hl

end

/-- `mov eax, [rip + disp]` at 4096, and nothing but `nop` else. -/
def loadCode (disp : ℤ) : Memory :=
  Memory.writeInt32 (Memory.write (fun _ => 0x90) 4096 [0x8B, 0x05]) 4098 disp

/-- The load is the only instruction that is copied. -/
theorem loadCode_entry (disp : ℤ) : ∃ i, sampleUdis86.entry (loadCode disp) 4096 = [(0, i)] ∧
    i.pcRel = some (.rip 2) ∧ i.len = 6 :=
  ⟨sampleInsn ((loadCode disp).read 4096 24), rfl, rfl, rfl⟩

/-- A displacement of 16 is adapted to a slot at 8192. -/
theorem relocated_iff_load :
    (4096 + 24 ≤ 8192 ∨ 8192 + 64 ≤ 4096) ∧ |((4096 : ℕ) : ℤ) - (8192 : ℕ)| < 2 ^ 31 ∧
      Relocated (loadCode 16) (installOne sampleUdis86 8192 4096 0 (loadCode 16)) 4096 8192
        (sampleUdis86.entry (loadCode 16) 4096) := by
  refine ⟨by norm_num, by norm_num, ?_⟩
  refine (relocated_iff sampleUdis86 (loadCode 16) 4096 8192 0 (by norm_num)
    (by norm_num)).mpr ?_
  obtain ⟨i, hentry, hrip, hlen⟩ := loadCode_entry 16
  rw [hentry]
  rintro e he
  obtain rfl := List.mem_singleton.mp he
  rw [insnRelocatable_rip hrip, RipRelocatable]
  have hdisp : (loadCode 16).readInt32 (4096 + (0, i).1 + 2) = 16 := by
    have hread : (loadCode 16).readInt32 4098 = 16 := by decide +kernel
    exact hread
  rw [hlen, hdisp]
  refine ⟨by norm_num, by norm_num [nullRipVarOffset], by norm_num, by norm_num [FitsInt32], ?_⟩
  have hothers : ∀ w ∈ ripWindows 4096 6,
      (w < 4098 → (loadCode 16).readInt32 w ≠ 16) ∧
      (4098 < w → ((loadCode 16).addInt32 4098 (-4096)).readInt32 w ≠ 16) := by decide +kernel
  exact hothers

/-- A displacement of -16 is printed with `[rip-`, and copied as it is. -/
theorem negativeDisp_not_relocated :
    ¬Relocated (loadCode (-16)) (installOne sampleUdis86 8192 4096 0 (loadCode (-16))) 4096 8192
        (sampleUdis86.entry (loadCode (-16)) 4096) := by
  obtain ⟨i, hentry, hrip, hlen⟩ := loadCode_entry (-16)
  obtain ⟨pre, last, hshape, hok, hres⟩ := sampleUdis86.scan_spec (loadCode (-16)) 4096
  obtain ⟨hlast, -⟩ := installOne_last sampleUdis86 (loadCode (-16)) 4096 8192 0
    (by norm_num) (by norm_num) hshape hok hres
  have hmem : last ∈ sampleUdis86.entry (loadCode (-16)) 4096 :=
    hshape.eq ▸ List.mem_append_right _ (List.mem_singleton_self _)
  have heq : last = (0, i) := by
    rw [hentry] at hmem
    exact List.mem_singleton.mp hmem
  intro h
  have hrel := hlast.mp (h last hmem)
  rw [heq, insnRelocatable_rip hrip] at hrel
  have hpos := hrel.1
  have hdisp : (loadCode (-16)).readInt32 (4096 + (0, i).1 + 2) = -16 := by
    have hread : (loadCode (-16)).readInt32 4098 = -16 := by decide +kernel
    exact hread
  rw [hdisp] at hpos
  norm_num at hpos

end Ooops
