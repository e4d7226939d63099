import Ooops.Basis.CInt
import Ooops.Basis.LastWrite
import Ooops.HookTable

/-!
# Looking up the Symbols

`query_func_addr` maps the file of a library and goes through its section headers. At a symbol
table it takes the string table to be one of the sections beside it, and compares the name of
every symbol with the functions that are looked for. The last symbol of a name counts, whichever
table it is in and whether the file defines it or not.

## Main results

* `queryFuncAddrIn_iff`: what is found, in terms of the symbols of the file.
* `lookup_right_iff`: exactly when that is what the file defines.
* `queryFuncAddr_fileSymbols`: in the usual layout, the lookup in the list of all symbols.
-/

open Basis

namespace Ooops

/-! ### The mapped file -/

/-- What is mapped: the bytes by their distance to the beginning of the file. -/
abbrev Mapping := ℤ → Option UInt8

/-- A file in memory, with what is mapped around it. -/
def mapFile (file : List UInt8) (around : Mapping) : Mapping := fun a =>
  if 0 ≤ a ∧ a < file.length then file[a.toNat]? else around a

/-- A number of `k` bytes. -/
def Mapping.num (m : Mapping) : ℕ → ℤ → Option ℕ
  | 0, _ => some 0
  | k + 1, a => (m a).bind fun b => (m.num k (a + 1)).map fun n => b.toNat + 256 * n

/-- Whether `strcmp` answers `0`. It reads up to the first difference. -/
def Mapping.strcmp (m : Mapping) : ℤ → CStr → Option Bool
  | a, [] => (m a).map (· == 0)
  | a, c :: s => (m a).bind fun b => if b = c then m.strcmp (a + 1) s else some false

/-- `sections[j].sh_type`. -/
def Mapping.shType (m : Mapping) (shoff : ℕ) (j : ℤ) : Option ℕ := m.num 4 (shoff + 64 * j + 4)

/-- `sections[j].sh_offset`. -/
def Mapping.shOffset (m : Mapping) (shoff : ℕ) (j : ℤ) : Option ℕ :=
  m.num 8 (shoff + 64 * j + 24)

/-- `sections[j].sh_size`. -/
def Mapping.shSize (m : Mapping) (shoff : ℕ) (j : ℤ) : Option ℕ := m.num 8 (shoff + 64 * j + 32)

/-- `sections[j].sh_entsize`. -/
def Mapping.shEntsize (m : Mapping) (shoff : ℕ) (j : ℤ) : Option ℕ :=
  m.num 8 (shoff + 64 * j + 56)

/-! ### The lookup -/

/-- A function that is looked for: `func_name_list`, `func_addr_list` and `func_len_list` at one
index. -/
structure FuncEntry where
  funcName : CStr
  funcAddr : ℕ
  funcLen : ℕ
  deriving DecidableEq

/-- `strtab_offset` after a section beside a symbol table: that of the section if it is a
`SHT_STRTAB`. -/
def strtabStep (m : Mapping) (shoff : ℕ) (strtab : ℤ) (j : ℤ) : Option ℤ :=
  (m.shType shoff j).bind fun ty =>
    if ty = 3 then (m.shOffset shoff j).map fun off : ℕ => wrapInt32 off else some strtab

/-- The values of `rec_addr`. -/
def recAddrs (size entsize : ℕ) : List ℤ :=
  (List.range (wrapInt32 (size / entsize : ℕ)).toNat).map fun j : ℕ => wrapInt32 entsize * j

/-- The offsets of the symbols of a table. No result stands for a division by zero and for an
`int` that overflows. -/
def symbolRecs (off size entsize : ℕ) : Option (List ℤ) :=
  if entsize = 0 then none
  else if ∀ a ∈ recAddrs size entsize, -2 ^ 31 ≤ a ∧ a < 2 ^ 31 then
    some ((recAddrs size entsize).map fun a => off + a)
  else none

/-- A symbol is compared with all functions. -/
def symbolStep (m : Mapping) (base : ℕ) (strtab : ℤ) (fs : List FuncEntry) (sym : ℤ) :
    Option (List FuncEntry) :=
  (m.num 4 sym).bind fun symOffset =>
    fs.mapM fun f =>
      (m.strcmp (strtab + wrapInt32 symOffset) f.funcName).bind fun eq =>
        if eq then
          (m.num 4 (sym + 8)).bind fun value =>
            (m.num 4 (sym + 16)).map fun len =>
              { f with funcAddr := symbolAddr base value, funcLen := len }
        else some f

/-- A section, if it is a `SHT_DYNSYM` or a `SHT_SYMTAB`. -/
def sectionStep (m : Mapping) (shoff base : ℕ) (s : ℤ × List FuncEntry) (i : ℕ) :
    Option (ℤ × List FuncEntry) :=
  (m.shType shoff i).bind fun ty =>
    if ty = 11 ∨ ty = 2 then
      (m.shOffset shoff i).bind fun off =>
      (m.shEntsize shoff i).bind fun entsize =>
      (m.shSize shoff i).bind fun size =>
      (symbolRecs off size entsize).bind fun recs =>
      (runSteps (strtabStep m shoff) s.1 [(i : ℤ) - 1, i, i + 1]).bind fun strtab =>
      (runSteps (symbolStep m base strtab) s.2 recs).map fun fs => (strtab, fs)
    else some s

/-- `query_func_addr` on a mapped file: `e_shoff` and `e_shnum`, and then all sections. -/
def queryFuncAddrIn (m : Mapping) (base : ℕ) (fs : List FuncEntry) : Option (List FuncEntry) :=
  (m.num 8 40).bind fun shoff =>
  (m.num 2 60).bind fun shnum =>
  (runSteps (sectionStep m shoff base) (0, fs) (List.range shnum)).map Prod.snd

/-! ### The file -/

/-- A number in the file. -/
def fileNum (file : List UInt8) (k off : ℕ) : ℕ := ofLE ((file.drop off).take k)

/-- The offset of a section header. -/
def sectionAt (file : List UInt8) (i : ℕ) : ℕ := fileNum file 8 40 + 64 * i

/-- `e_shnum`. -/
def eShnum (file : List UInt8) : ℕ := fileNum file 2 60

/-- A symbol table, `SHT_DYNSYM` or `SHT_SYMTAB`. -/
def isSymbolTable (file : List UInt8) (i : ℕ) : Bool :=
  fileNum file 4 (sectionAt file i + 4) == 11 || fileNum file 4 (sectionAt file i + 4) == 2

/-- `sh_offset` of a section. -/
def sectionOffset (file : List UInt8) (i : ℕ) : ℕ := fileNum file 8 (sectionAt file i + 24)

/-- `sh_size` of a section. -/
def sectionSize (file : List UInt8) (i : ℕ) : ℕ := fileNum file 8 (sectionAt file i + 32)

/-- `sh_link` of a section: the string table of a symbol table. -/
def sectionLink (file : List UInt8) (i : ℕ) : ℕ := fileNum file 4 (sectionAt file i + 40)

/-- The offset of a symbol. -/
def symbolAt (file : List UInt8) (p : ℕ × ℕ) : ℕ := sectionOffset file p.1 + 24 * p.2

/-- `st_value`. -/
def symbolValue (file : List UInt8) (p : ℕ × ℕ) : ℕ := fileNum file 8 (symbolAt file p + 8)

/-- The name of a symbol in the string table of its symbol table. -/
def symbolName (file : List UInt8) (p : ℕ × ℕ) : CStr :=
  cstrOf (file.drop (sectionOffset file (sectionLink file p.1) + fileNum file 4 (symbolAt file p)))

/-- The symbols of the file: those of all symbol tables, by table and index. -/
def symbols (file : List UInt8) : List (ℕ × ℕ) :=
  ((List.range (eShnum file)).filter (isSymbolTable file)).flatMap fun i =>
    (List.range (sectionSize file i / 24)).map fun j => (i, j)

/-- The values of the symbols that the file defines under a name: `st_shndx` is not
`SHN_UNDEF`. -/
def definedValues (file : List UInt8) (name : CStr) : List ℕ :=
  ((symbols file).filter fun p =>
    fileNum file 2 (symbolAt file p + 6) ≠ 0 ∧ symbolName file p = name).map (symbolValue file)

/-- A well-formed file: the section headers, the symbol tables and their string tables are in it,
the first section is none of them, symbols have 24 bytes, names are in the string table, which
ends with a NUL, and values are below `2 ^ 32`. -/
structure WellFormed (file : List UInt8) : Prop where
  header : 64 ≤ file.length
  sections : sectionAt file (eShnum file) ≤ file.length
  first : isSymbolTable file 0 = false
  entsize : ∀ i < eShnum file, isSymbolTable file i →
    fileNum file 8 (sectionAt file i + 56) = 24
  inside : ∀ i < eShnum file, isSymbolTable file i →
    sectionOffset file i + sectionSize file i ≤ file.length
  link : ∀ i < eShnum file, isSymbolTable file i → sectionLink file i < eShnum file ∧
    fileNum file 4 (sectionAt file (sectionLink file i) + 4) = 3
  strings : ∀ i < eShnum file, fileNum file 4 (sectionAt file i + 4) = 3 →
    sectionOffset file i + sectionSize file i ≤ file.length ∧
      (0 < sectionSize file i →
        file[sectionOffset file i + sectionSize file i - 1]? = some 0)
  names : ∀ p ∈ symbols file,
    fileNum file 4 (symbolAt file p) < sectionSize file (sectionLink file p.1)
  values : ∀ p ∈ symbols file, symbolValue file p < 2 ^ 32

/-! ### What is read -/

section Read

variable {file : List UInt8} {around : Mapping}

theorem mapFile_of_lt {off : ℕ} (h : off < file.length) :
    mapFile file around off = some file[off] := by
  rw [mapFile, if_pos ⟨Int.natCast_nonneg _, by exact_mod_cast h⟩, Int.toNat_natCast,
    List.getElem?_eq_getElem h]

theorem num_succ {m : Mapping} {k n : ℕ} {a : ℤ} {b : UInt8} (hb : m a = some b)
    (h : m.num k (a + 1) = some n) : m.num (k + 1) a = some (b.toNat + 256 * n) := by
  rw [Mapping.num, hb, Option.bind_some, h]
  rfl

theorem fileNum_succ {k off : ℕ} (h : off < file.length) :
    fileNum file (k + 1) off = file[off].toNat + 256 * fileNum file k (off + 1) := by
  rw [fileNum, fileNum, List.drop_eq_getElem_cons h, List.take_succ_cons, ofLE_cons]

theorem num_mapFile {k off : ℕ} (h : off + k ≤ file.length) :
    (mapFile file around).num k off = some (fileNum file k off) := by
  induction k generalizing off with
  | zero => rw [Mapping.num, fileNum, List.take_zero, ofLE_nil]
  | succ k ih =>
      have hlt : off < file.length := by omega
      have hrest := @ih (off + 1) (by omega)
      rw [Int.natCast_add, Int.natCast_one] at hrest
      rw [num_succ (mapFile_of_lt hlt) hrest, fileNum_succ hlt]

/-- The sections beside a symbol table. -/
def neighbours (i : ℕ) : List ℤ := [(i : ℤ) - 1, i, i + 1]

/-- The offset of a section, as an `int`, if it is a string table. -/
def strtabOffset (m : Mapping) (shoff : ℕ) (j : ℤ) : Option ℤ :=
  if m.shType shoff j = some 3 then (m.shOffset shoff j).map fun off : ℕ => wrapInt32 off
  else none

/-- What is read of a section header can be read. -/
def HeaderOk (m : Mapping) (shoff : ℕ) (j : ℤ) : Prop :=
  m.shType shoff j ≠ none ∧ (m.shType shoff j = some 3 → m.shOffset shoff j ≠ none)

instance (m : Mapping) (shoff : ℕ) (j : ℤ) : Decidable (HeaderOk m shoff j) :=
  inferInstanceAs (Decidable (_ ∧ _))

theorem strtabStep_iff {m : Mapping} {shoff : ℕ} {strtab strtab' j : ℤ} :
    strtabStep m shoff strtab j = some strtab' ↔
      HeaderOk m shoff j ∧ strtab' = (strtabOffset m shoff j).getD strtab := by
  have hcases : ∀ (asInt : ℕ → ℤ) (ty off : Option ℕ),
      (ty.bind fun ty => if ty = 3 then off.map asInt else some strtab) = some strtab' ↔
        (ty ≠ none ∧ (ty = some 3 → off ≠ none)) ∧
          strtab' = (if ty = some 3 then off.map asInt else none).getD strtab := by
    intro asInt ty off
    cases ty with
    | none => simp
    | some ty =>
        by_cases hty : ty = 3
        · cases off <;> simp [hty, eq_comm]
        · simp [hty, eq_comm]
  exact hcases (fun off => wrapInt32 off) (m.shType shoff j) (m.shOffset shoff j)

end Read

/-! ### What is found -/

section Found

variable (file : List UInt8) (around : Mapping)

/-- The string table in use behind the first `k` sections: the last one that has been met beside
a symbol table. -/
def nearStrtab (k : ℕ) : ℤ :=
  (lastSome (strtabOffset (mapFile file around) (fileNum file 8 40))
    (((List.range k).filter (isSymbolTable file)).flatMap neighbours)).getD 0

/-- The number of symbols of a table, as an `int`. -/
def symbolCount (i : ℕ) : ℕ := (wrapInt32 (sectionSize file i / 24 : ℕ)).toNat

/-- The symbols that are visited in the first `k` sections. -/
def visited (k : ℕ) : List (ℕ × ℕ) :=
  ((List.range k).filter (isSymbolTable file)).flatMap fun i =>
    (List.range (symbolCount file i)).map fun j => (i, j)

/-- Whether a symbol has a name in the string table that is used. -/
def seenAs (name : CStr) (p : ℕ × ℕ) : Option Bool :=
  (mapFile file around).strcmp
    (nearStrtab file around (p.1 + 1) + wrapInt32 (fileNum file 4 (symbolAt file p))) name

/-- An entry when a symbol has been compared with it. -/
def meetSymbol (base : ℕ) (p : ℕ × ℕ) (f : FuncEntry) : FuncEntry :=
  if seenAs file around f.funcName p = some true then
    { f with
      funcAddr := symbolAddr base (fileNum file 4 (symbolAt file p + 8))
      funcLen := fileNum file 4 (symbolAt file p + 16) }
  else f

/-- What is read in the first `k` sections can be read, and no `int` overflows. -/
structure Legible (names : List CStr) (k : ℕ) : Prop where
  headers : ∀ i < k, isSymbolTable file i → ∀ j ∈ neighbours i,
    HeaderOk (mapFile file around) (fileNum file 8 40) j
  small : ∀ p ∈ visited file k, 24 * p.2 < 2 ^ 31
  names : ∀ p ∈ visited file k, ∀ name ∈ names, seenAs file around name p ≠ none

/-- An entry when some symbols have been compared with it. -/
def lookedUp (base : ℕ) (ps : List (ℕ × ℕ)) (f : FuncEntry) : FuncEntry :=
  ps.foldl (fun f p => meetSymbol file around base p f) f

variable {file around}

theorem nearStrtab_succ (k : ℕ) : nearStrtab file around (k + 1) =
    if isSymbolTable file k then
      (lastSome (strtabOffset (mapFile file around) (fileNum file 8 40)) (neighbours k)).getD
        (nearStrtab file around k)
    else nearStrtab file around k := by
  rw [nearStrtab, nearStrtab, List.range_succ, List.filter_append, List.flatMap_append]
  by_cases hk : isSymbolTable file k = true
  · rw [if_pos hk, List.filter_cons_of_pos hk, lastSome_append, getD_or, List.filter_nil,
      List.flatMap_cons, List.flatMap_nil, List.append_nil]
  · rw [if_neg hk, List.filter_cons_of_neg hk, List.filter_nil, List.flatMap_nil,
      List.append_nil]

theorem visited_succ (k : ℕ) : visited file (k + 1) = visited file k ++
    if isSymbolTable file k then (List.range (symbolCount file k)).map fun j => (k, j) else [] := by
  rw [visited, visited, List.range_succ, List.filter_append, List.flatMap_append]
  by_cases hk : isSymbolTable file k = true
  · rw [if_pos hk, List.filter_cons_of_pos hk, List.filter_nil, List.flatMap_cons,
      List.flatMap_nil, List.append_nil]
  · rw [if_neg hk, List.filter_cons_of_neg hk, List.filter_nil, List.flatMap_nil]

/-- One more section is legible when its neighbours and its symbols are. -/
theorem legible_succ {names : List CStr} {k : ℕ} : Legible file around names (k + 1) ↔
    Legible file around names k ∧ (isSymbolTable file k →
      (∀ j ∈ neighbours k, HeaderOk (mapFile file around) (fileNum file 8 40) j) ∧
      (∀ j < symbolCount file k, 24 * j < 2 ^ 31) ∧
      ∀ j < symbolCount file k, ∀ name ∈ names, seenAs file around name (k, j) ≠ none) := by
  have hvisited : ∀ p, p ∈ visited file (k + 1) ↔ p ∈ visited file k ∨
      (isSymbolTable file k = true ∧ ∃ j < symbolCount file k, p = (k, j)) := by
    intro p
    rw [visited_succ, List.mem_append]
    refine or_congr Iff.rfl ?_
    by_cases hk : isSymbolTable file k = true
    · rw [if_pos hk, List.mem_map]
      simp only [hk, true_and, List.mem_range, eq_comm]
    · rw [if_neg hk]
      simp [hk]
  constructor
  · rintro ⟨hheaders, hsmall, hnames⟩
    refine ⟨⟨fun i hi => hheaders i (by omega), fun p hp => hsmall p ((hvisited p).mpr (.inl hp)),
      fun p hp => hnames p ((hvisited p).mpr (.inl hp))⟩, fun hk => ?_⟩
    exact ⟨hheaders k (Nat.lt_succ_self k) hk,
      fun j hj => hsmall (k, j) ((hvisited _).mpr (.inr ⟨hk, j, hj, rfl⟩)),
      fun j hj => hnames (k, j) ((hvisited _).mpr (.inr ⟨hk, j, hj, rfl⟩))⟩
  · rintro ⟨⟨hheaders, hsmall, hnames⟩, hlast⟩
    refine ⟨fun i hi hsym => ?_, fun p hp => ?_, fun p hp => ?_⟩
    · rcases Nat.lt_succ_iff_lt_or_eq.mp hi with hlt | rfl
      · exact hheaders i hlt hsym
      · exact (hlast hsym).1
    · rcases (hvisited p).mp hp with hp | ⟨hk, j, hj, rfl⟩
      · exact hsmall p hp
      · exact (hlast hk).2.1 j hj
    · rcases (hvisited p).mp hp with hp | ⟨hk, j, hj, rfl⟩
      · exact hnames p hp
      · exact (hlast hk).2.2 j hj

theorem lookedUp_concat (base : ℕ) (ps : List (ℕ × ℕ)) (p : ℕ × ℕ) (f : FuncEntry) :
    lookedUp file around base (ps ++ [p]) f =
      meetSymbol file around base p (lookedUp file around base ps f) := by
  rw [lookedUp, List.foldl_append]
  rfl

theorem lookedUp_funcName (base : ℕ) (ps : List (ℕ × ℕ)) (f : FuncEntry) :
    (lookedUp file around base ps f).funcName = f.funcName := by
  induction ps using List.reverseRecOn with
  | nil => rfl
  | append_singleton ps p ih =>
      rw [lookedUp_concat, meetSymbol, ← ih]
      split_ifs <;> rfl

/-- The last symbol that has the name counts. -/
theorem lookedUp_funcAddr (base : ℕ) (ps : List (ℕ × ℕ)) (f : FuncEntry) :
    (lookedUp file around base ps f).funcAddr =
      (lastSome (fun p => if seenAs file around f.funcName p = some true then
        some (symbolAddr base (fileNum file 4 (symbolAt file p + 8))) else none) ps).getD
          f.funcAddr := by
  induction ps using List.reverseRecOn with
  | nil => rfl
  | append_singleton ps p ih =>
      rw [lookedUp_concat, meetSymbol, lookedUp_funcName, lastSome_concat, getD_or, ← ih]
      split_ifs <;> rfl

/-- The entries are looked up apart from each other. -/
theorem foldl_meetSymbol (base : ℕ) (ps : List (ℕ × ℕ)) (fs : List FuncEntry) :
    ps.foldl (fun fs p => fs.map (meetSymbol file around base p)) fs =
      fs.map (lookedUp file around base ps) := by
  induction ps using List.reverseRecOn with
  | nil => exact (List.map_id fs).symm
  | append_singleton ps p ih =>
      rw [List.foldl_append, ih, List.foldl_cons, List.foldl_nil, List.map_map]
      exact List.map_congr_left fun f _ => (lookedUp_concat base ps p f).symm

theorem map_lookedUp_funcName (base : ℕ) (ps : List (ℕ × ℕ)) (fs : List FuncEntry) :
    (fs.map (lookedUp file around base ps)).map FuncEntry.funcName =
      fs.map FuncEntry.funcName := by
  rw [List.map_map]
  exact List.map_congr_left fun f _ => lookedUp_funcName base ps f

theorem symbolCount_le (i : ℕ) : symbolCount file i ≤ sectionSize file i / 24 := by
  have hmod := emod_wrapInt32 ((sectionSize file i / 24 : ℕ) : ℤ)
  have hbounds := wrapInt32_bounds ((sectionSize file i / 24 : ℕ) : ℤ)
  rw [symbolCount]
  omega

namespace WellFormed

variable (hwf : WellFormed file)
include hwf

/-- The fields of a section header are in the file. -/
theorem num_section {i : ℕ} (hi : i < eShnum file) {k off : ℕ} (hoff : off + k ≤ 64) :
    (mapFile file around).num k (fileNum file 8 40 + 64 * (i : ℤ) + off) =
      some (fileNum file k (sectionAt file i + off)) := by
  have hend := hwf.sections
  have hcast : (fileNum file 8 40 : ℤ) + 64 * (i : ℤ) + off =
      ((sectionAt file i + off : ℕ) : ℤ) := by
    rw [sectionAt]
    push_cast
    ring
  rw [hcast]
  refine num_mapFile ?_
  simp only [sectionAt] at hend ⊢
  omega

theorem shType_section {i : ℕ} (hi : i < eShnum file) :
    (mapFile file around).shType (fileNum file 8 40) i =
      some (fileNum file 4 (sectionAt file i + 4)) :=
  hwf.num_section hi (by norm_num)

theorem shOffset_section {i : ℕ} (hi : i < eShnum file) :
    (mapFile file around).shOffset (fileNum file 8 40) i = some (sectionOffset file i) :=
  hwf.num_section hi (by norm_num)

theorem shSize_section {i : ℕ} (hi : i < eShnum file) :
    (mapFile file around).shSize (fileNum file 8 40) i = some (sectionSize file i) :=
  hwf.num_section hi (by norm_num)

theorem shEntsize_section {i : ℕ} (hi : i < eShnum file) :
    (mapFile file around).shEntsize (fileNum file 8 40) i =
      some (fileNum file 8 (sectionAt file i + 56)) :=
  hwf.num_section hi (by norm_num)

/-- A symbol is in the file. -/
theorem symbol_end {i j : ℕ} (hi : i < eShnum file) (hsym : isSymbolTable file i)
    (hj : j < symbolCount file i) : symbolAt file (i, j) + 24 ≤ file.length := by
  have hinside := hwf.inside i hi hsym
  have hcount := @symbolCount_le file i
  have hat : symbolAt file (i, j) = sectionOffset file i + 24 * j := rfl
  omega

omit hwf in
theorem symbolStep_iff {p : ℕ × ℕ} (hp : symbolAt file p + 24 ≤ file.length) (base : ℕ)
    {fs fs' : List FuncEntry} {names : List CStr} (hfs : fs.map FuncEntry.funcName = names) :
    symbolStep (mapFile file around) base (nearStrtab file around (p.1 + 1)) fs
        (symbolAt file p) = some fs' ↔
      (∀ name ∈ names, seenAs file around name p ≠ none) ∧
        fs' = fs.map (meetSymbol file around base p) := by
  have hread : ∀ off : ℕ, off + 4 ≤ 24 → (mapFile file around).num 4 ((symbolAt file p : ℤ) + off) =
      some (fileNum file 4 (symbolAt file p + off)) := by
    intro off hoff
    exact_mod_cast @num_mapFile file around 4 (symbolAt file p + off) (by omega)
  have hname : (mapFile file around).num 4 (symbolAt file p : ℤ) =
      some (fileNum file 4 (symbolAt file p)) := num_mapFile (by omega)
  have hvalue := hread 8 (by norm_num)
  have hlen := hread 16 (by norm_num)
  rw [symbolStep, hname, Option.bind_some]
  have heach : ∀ f ∈ fs, ∀ g, (((mapFile file around).strcmp
      (nearStrtab file around (p.1 + 1) + wrapInt32 (fileNum file 4 (symbolAt file p)))
      f.funcName).bind fun eq =>
        if eq then
          ((mapFile file around).num 4 (symbolAt file p + 8)).bind fun value =>
            ((mapFile file around).num 4 (symbolAt file p + 16)).map fun len =>
              { f with funcAddr := symbolAddr base value, funcLen := len }
        else some f) = some g ↔
      seenAs file around f.funcName p ≠ none ∧ g = meetSymbol file around base p f := by
    intro f _ g
    rw [meetSymbol]
    change ((seenAs file around f.funcName p).bind _) = some g ↔ _
    cases seenAs file around f.funcName p with
    | none => exact iff_of_false nofun fun h => h.1 rfl
    | some seen =>
        cases seen with
        | false =>
            exact ⟨fun h => ⟨nofun, (Option.some.inj h).symm⟩, fun h => congrArg some h.2.symm⟩
        | true =>
            simp only [Option.bind_some, if_true]
            rw [show (symbolAt file p : ℤ) + 8 = symbolAt file p + (8 : ℕ) from rfl, hvalue,
              show (symbolAt file p : ℤ) + 16 = symbolAt file p + (16 : ℕ) from rfl, hlen]
            exact ⟨fun h => ⟨nofun, (Option.some.inj h).symm⟩, fun h => congrArg some h.2.symm⟩
  rw [mapM_iff_map heach, ← hfs, List.forall_mem_map]

omit hwf in
theorem recAddrs_eq (i : ℕ) : recAddrs (sectionSize file i) 24 =
    (List.range (symbolCount file i)).map fun j : ℕ => (24 : ℤ) * j := by
  have hsize : wrapInt32 ((24 : ℕ) : ℤ) = 24 := wrapInt32_eq_self (by norm_num) (by norm_num)
  rw [recAddrs, hsize, symbolCount]

omit hwf in
/-- The offsets of the symbols of a table. -/
theorem symbolRecs_iff {i : ℕ} {recs : List ℤ} :
    symbolRecs (sectionOffset file i) (sectionSize file i) 24 = some recs ↔
      (∀ j < symbolCount file i, 24 * j < 2 ^ 31) ∧
        recs = (List.range (symbolCount file i)).map fun j => (symbolAt file (i, j) : ℤ) := by
  have hrange : (∀ a ∈ (List.range (symbolCount file i)).map fun j : ℕ => (24 : ℤ) * j,
      -2 ^ 31 ≤ a ∧ a < 2 ^ 31) ↔ ∀ j < symbolCount file i, 24 * j < 2 ^ 31 := by
    rw [List.forall_mem_map]
    refine ⟨fun h j hj => ?_, fun h j hj => ?_⟩
    · have := (h j (List.mem_range.mpr hj)).2
      omega
    · have := h j (List.mem_range.mp hj)
      omega
  have hrecs : ((List.range (symbolCount file i)).map fun j : ℕ => (24 : ℤ) * j).map
      (fun a => (sectionOffset file i : ℤ) + a) =
        (List.range (symbolCount file i)).map fun j => (symbolAt file (i, j) : ℤ) := by
    rw [List.map_map]
    refine List.map_congr_left fun j _ => ?_
    rw [symbolAt]
    push_cast
    rfl
  rw [symbolRecs, if_neg (by norm_num), recAddrs_eq, hrecs, ← hrange]
  split_ifs with h
  · exact ⟨fun heq => ⟨h, (Option.some.inj heq).symm⟩, fun heq => congrArg some heq.2.symm⟩
  · exact iff_of_false nofun fun heq => h heq.1

/-- The symbols of a table are compared one after the other. -/
theorem table_iff {i : ℕ} (hi : i < eShnum file) (hsym : isSymbolTable file i) (base : ℕ)
    {fs fs' : List FuncEntry} {names : List CStr} (hfs : fs.map FuncEntry.funcName = names) :
    runSteps (symbolStep (mapFile file around) base (nearStrtab file around (i + 1))) fs
        ((List.range (symbolCount file i)).map fun j => (symbolAt file (i, j) : ℤ)) = some fs' ↔
      (∀ j < symbolCount file i, ∀ name ∈ names, seenAs file around name (i, j) ≠ none) ∧
        fs' = ((List.range (symbolCount file i)).map fun j => (i, j)).foldl
          (fun fs p => fs.map (meetSymbol file around base p)) fs := by
  have hstep : ∀ j ∈ List.range (symbolCount file i), ∀ fs fs' : List FuncEntry,
      fs.map FuncEntry.funcName = names →
      (symbolStep (mapFile file around) base (nearStrtab file around (i + 1)) fs
          (symbolAt file (i, j)) = some fs' ↔
        (∀ name ∈ names, seenAs file around name (i, j) ≠ none) ∧
          fs' = fs.map (meetSymbol file around base (i, j))) := fun j hj fs fs' hfs =>
    symbolStep_iff (hwf.symbol_end hi hsym (List.mem_range.mp hj)) base hfs
  have hkeep : ∀ (fs : List FuncEntry) (j : ℕ), fs.map FuncEntry.funcName = names →
      (fs.map (meetSymbol file around base (i, j))).map FuncEntry.funcName = names := by
    intro fs j hfs
    rw [List.map_map, ← hfs]
    refine List.map_congr_left fun f _ => ?_
    rw [Function.comp_apply, meetSymbol]
    split_ifs <;> rfl
  rw [runSteps_map, runSteps_iff_foldl hkeep hstep hfs, List.foldl_map]
  simp only [List.mem_range]

omit hwf in
/-- The string table that is used for a symbol table. -/
theorem near_iff {i : ℕ} (hsym : isSymbolTable file i) {t : ℤ} :
    runSteps (strtabStep (mapFile file around) (fileNum file 8 40)) (nearStrtab file around i)
        (neighbours i) = some t ↔
      (∀ j ∈ neighbours i, HeaderOk (mapFile file around) (fileNum file 8 40) j) ∧
        t = nearStrtab file around (i + 1) := by
  have hread := @read_foldl ℤ ℤ ℤ id (strtabOffset (mapFile file around) (fileNum file 8 40))
    (fun s j => (strtabOffset (mapFile file around) (fileNum file 8 40) j).getD s)
    (fun _ _ => rfl) (nearStrtab file around i) (neighbours i)
  have hrun := @runSteps_iff_foldl ℤ ℤ (strtabStep (mapFile file around) (fileNum file 8 40))
    (HeaderOk (mapFile file around) (fileNum file 8 40))
    (fun s j => (strtabOffset (mapFile file around) (fileNum file 8 40) j).getD s)
    (fun _ => True) (fun _ _ _ => trivial) (neighbours i) (fun _ _ _ _ _ => strtabStep_iff)
    (nearStrtab file around i) t trivial
  rw [id_eq, id_eq] at hread
  rw [hrun, hread, nearStrtab_succ, if_pos hsym]

/-- A section. -/
theorem sectionStep_iff {i : ℕ} (hi : i < eShnum file) (base : ℕ)
    {fs : List FuncEntry} {r : ℤ × List FuncEntry} {names : List CStr}
    (hfs : fs.map FuncEntry.funcName = names) :
    sectionStep (mapFile file around) (fileNum file 8 40) base (nearStrtab file around i, fs) i =
        some r ↔
      (isSymbolTable file i →
        (∀ j ∈ neighbours i, HeaderOk (mapFile file around) (fileNum file 8 40) j) ∧
        (∀ j < symbolCount file i, 24 * j < 2 ^ 31) ∧
        ∀ j < symbolCount file i, ∀ name ∈ names, seenAs file around name (i, j) ≠ none) ∧
      r = (nearStrtab file around (i + 1),
        (if isSymbolTable file i then (List.range (symbolCount file i)).map fun j => (i, j)
          else []).foldl (fun fs p => fs.map (meetSymbol file around base p)) fs) := by
  have hkind : (fileNum file 4 (sectionAt file i + 4) = 11 ∨
      fileNum file 4 (sectionAt file i + 4) = 2) ↔ isSymbolTable file i = true := by
    rw [isSymbolTable, Bool.or_eq_true, beq_iff_eq, beq_iff_eq]
  rw [sectionStep, hwf.shType_section hi, Option.bind_some, nearStrtab_succ]
  by_cases hsym : isSymbolTable file i = true
  · have hnear := @nearStrtab_succ file around i
    rw [if_pos hsym] at hnear
    rw [if_pos (hkind.mpr hsym), hwf.shOffset_section hi, hwf.shSize_section hi,
      hwf.shEntsize_section hi, hwf.entsize i hi hsym, if_pos hsym, if_pos hsym, ← hnear,
      Option.bind_some, Option.bind_some, Option.bind_some]
    change (symbolRecs (sectionOffset file i) (sectionSize file i) 24).bind (fun recs =>
      (runSteps (strtabStep (mapFile file around) (fileNum file 8 40)) (nearStrtab file around i)
        (neighbours i)).bind fun strtab =>
          (runSteps (symbolStep (mapFile file around) base strtab) fs recs).map fun fs =>
            (strtab, fs)) = some r ↔ _
    constructor
    · intro h
      obtain ⟨recs, hrecs, h⟩ := Option.bind_eq_some_iff.mp h
      obtain ⟨t, ht, h⟩ := Option.bind_eq_some_iff.mp h
      obtain ⟨fs', hfs', rfl⟩ := Option.map_eq_some_iff.mp h
      have hsmall := symbolRecs_iff.mp hrecs
      obtain ⟨hheaders, rfl⟩ := (near_iff hsym).mp ht
      rw [hsmall.2] at hfs'
      have hnames := (hwf.table_iff hi hsym base hfs).mp hfs'
      exact ⟨fun _ => ⟨hheaders, hsmall.1, hnames.1⟩, congrArg _ hnames.2⟩
    · rintro ⟨hok, hr⟩
      obtain ⟨hheaders, hsmall, hnames⟩ := hok hsym
      have hrecs := symbolRecs_iff.mpr ⟨hsmall, rfl⟩
      have hfs' := (hwf.table_iff hi hsym base hfs).mpr ⟨hnames, rfl⟩
      rw [hrecs, Option.bind_some, (near_iff hsym).mpr ⟨hheaders, rfl⟩, Option.bind_some, hfs', hr]
      rfl
  · rw [if_neg fun h => hsym (hkind.mp h), if_neg hsym, if_neg hsym]
    exact ⟨fun h => ⟨fun hs => absurd hs hsym, (Option.some.inj h).symm⟩,
      fun h => congrArg some h.2.symm⟩

/-- The first sections. -/
theorem sections_iff {k : ℕ} (hk : k ≤ eShnum file) (base : ℕ) {fs : List FuncEntry}
    {r : ℤ × List FuncEntry} {names : List CStr} (hfs : fs.map FuncEntry.funcName = names) :
    runSteps (sectionStep (mapFile file around) (fileNum file 8 40) base) (0, fs)
        (List.range k) = some r ↔
      Legible file around names k ∧ r = (nearStrtab file around k,
        fs.map (lookedUp file around base (visited file k))) := by
  rw [← foldl_meetSymbol]
  induction k generalizing r with
  | zero =>
      refine ⟨fun h => ⟨⟨fun i hi => absurd hi (Nat.not_lt_zero i), List.forall_mem_nil _,
        List.forall_mem_nil _⟩, (Option.some.inj h).symm⟩, fun h => congrArg some h.2.symm⟩
  | succ k ih =>
      have hnames : ((visited file k).foldl
          (fun fs p => fs.map (meetSymbol file around base p)) fs).map FuncEntry.funcName =
            names := by
        rw [foldl_meetSymbol, map_lookedUp_funcName, hfs]
      rw [List.range_succ, runSteps_concat_eq_some, legible_succ, visited_succ,
        List.foldl_append]
      constructor
      · rintro ⟨s, hs, hlast⟩
        obtain ⟨hbefore, rfl⟩ := (ih (Nat.le_of_succ_le hk)).mp hs
        have hstep := (hwf.sectionStep_iff hk base hnames).mp hlast
        exact ⟨⟨hbefore, hstep.1⟩, hstep.2⟩
      · rintro ⟨⟨hbefore, hstep⟩, hr⟩
        exact ⟨_, (ih (Nat.le_of_succ_le hk)).mpr ⟨hbefore, rfl⟩,
          (hwf.sectionStep_iff hk base hnames).mpr ⟨hstep, hr⟩⟩

/-- **What is found**: every function has the address of the last symbol that has its name in
the string table that is used. -/
theorem queryFuncAddrIn_iff (base : ℕ) {fs fs' : List FuncEntry} {names : List CStr}
    (hfs : fs.map FuncEntry.funcName = names) :
    queryFuncAddrIn (mapFile file around) base fs = some fs' ↔
      Legible file around names (eShnum file) ∧
        fs' = fs.map (lookedUp file around base (visited file (eShnum file))) := by
  have hheader := hwf.header
  have hshoff : (mapFile file around).num 8 40 = some (fileNum file 8 40) :=
    @num_mapFile file around 8 40 (by omega)
  have hshnum : (mapFile file around).num 2 60 = some (eShnum file) :=
    @num_mapFile file around 2 60 (by omega)
  rw [queryFuncAddrIn, hshoff, Option.bind_some, hshnum, Option.bind_some,
    Option.map_eq_some_iff]
  constructor
  · rintro ⟨r, hr, rfl⟩
    obtain ⟨hlegible, rfl⟩ := (hwf.sections_iff (Nat.le_refl _) base hfs).mp hr
    exact ⟨hlegible, rfl⟩
  · rintro ⟨hlegible, rfl⟩
    exact ⟨_, (hwf.sections_iff (Nat.le_refl _) base hfs).mpr ⟨hlegible, rfl⟩, rfl⟩

/-- What is visited are symbols of the file. -/
theorem visited_subset {p : ℕ × ℕ} (hp : p ∈ visited file (eShnum file)) :
    p ∈ symbols file ∧ symbolAt file p + 24 ≤ file.length := by
  obtain ⟨i, hi, hp⟩ := List.mem_flatMap.mp hp
  obtain ⟨j, hj, rfl⟩ := List.mem_map.mp hp
  obtain ⟨hlt, hsym⟩ := List.mem_filter.mp hi
  have hj' := List.mem_range.mp hj
  refine ⟨List.mem_flatMap.mpr ⟨i, hi, List.mem_map.mpr ⟨j, ?_, rfl⟩⟩,
    hwf.symbol_end (List.mem_range.mp hlt) hsym hj'⟩
  exact List.mem_range.mpr (hj'.trans_le (symbolCount_le i))

end WellFormed

/-- The four low bytes of a number. -/
theorem fileNum_mod {off : ℕ} (h : off + 8 ≤ file.length) :
    fileNum file 8 off % 2 ^ 32 = fileNum file 4 off := by
  have hlen : ((file.drop off).take 4).length = 4 := by
    rw [List.length_take, List.length_drop]
    omega
  have hsplit : (file.drop off).take 8 =
      (file.drop off).take 4 ++ ((file.drop off).drop 4).take 4 := List.take_add (j := 4)
  have hlt := ofLE_lt ((file.drop off).take 4)
  rw [hlen] at hlt
  rw [fileNum, hsplit, ofLE_append, hlen, fileNum,
    show (256 : ℕ) ^ 4 = 2 ^ 32 by norm_num, Nat.add_mul_mod_self_left]
  exact Nat.mod_eq_of_lt (hlt.trans_eq (by norm_num))

/-- The value of the last symbol that is seen under a name. -/
def lastSeen (file : List UInt8) (around : Mapping) (name : CStr) : Option ℕ :=
  lastSome (fun p => if seenAs file around name p = some true then some (symbolValue file p)
    else none) (visited file (eShnum file))

/-- The last symbol that is seen under a name has the value of one that the file defines under
it, and if none is seen, the file defines none. -/
def LastDefined (file : List UInt8) (around : Mapping) (name : CStr) : Prop :=
  match lastSeen file around name with
  | some v => v ∈ definedValues file name
  | none => definedValues file name = []

instance (file : List UInt8) (around : Mapping) (name : CStr) :
    Decidable (LastDefined file around name) :=
  match h : lastSeen file around name with
  | some v => decidable_of_iff (v ∈ definedValues file name) (by rw [LastDefined, h])
  | none => decidable_of_iff (definedValues file name = []) (by rw [LastDefined, h])

/-- What an entry shall be after the lookup. -/
def FoundRight (file : List UInt8) (base : ℕ) (f f' : FuncEntry) : Prop :=
  (definedValues file f.funcName = [] → f'.funcAddr = f.funcAddr) ∧
    (definedValues file f.funcName ≠ [] →
      ∃ v ∈ definedValues file f.funcName, f'.funcAddr = (base + v) % 2 ^ 64)

namespace WellFormed

variable (hwf : WellFormed file)
include hwf

theorem lastSeen_lt {name : CStr} {v : ℕ} (h : lastSeen file around name = some v) :
    v < 2 ^ 32 := by
  obtain ⟨p, hp, hv⟩ := exists_of_lastSome h
  split_ifs at hv
  obtain rfl := Option.some.inj hv
  exact hwf.values p (hwf.visited_subset hp).1

theorem definedValues_lt {name : CStr} {v : ℕ} (h : v ∈ definedValues file name) :
    v < 2 ^ 32 := by
  obtain ⟨p, hp, rfl⟩ := List.mem_map.mp h
  exact hwf.values p (List.mem_filter.mp hp).1

/-- The address that is found. -/
theorem lookedUp_visited (base : ℕ) (f : FuncEntry) :
    (lookedUp file around base (visited file (eShnum file)) f).funcAddr =
      ((lastSeen file around f.funcName).map fun v => (base + v) % 2 ^ 64).getD f.funcAddr := by
  rw [lookedUp_funcAddr, lastSeen, ← lastSome_map]
  refine congrArg (fun o => Option.getD o f.funcAddr) (lastSome_congr fun p hp => ?_)
  obtain ⟨hsym, hend⟩ := hwf.visited_subset hp
  have hlow := @fileNum_mod file (symbolAt file p + 8) (by omega)
  have hvalue : fileNum file 4 (symbolAt file p + 8) = symbolValue file p := by
    rw [← hlow]
    exact Nat.mod_eq_of_lt (hwf.values p hsym)
  split_ifs
  · rw [hvalue, Option.map_some, symbolAddr, Nat.mod_eq_of_lt (hwf.values p hsym), Nat.add_comm]
  · rfl

/-- A function is found right, whatever its entry was before, exactly when the last symbol seen
under its name is right. -/
theorem foundRight_iff (base : ℕ) (name : CStr) :
    (∀ f : FuncEntry, f.funcName = name → f.funcAddr < 2 ^ 64 →
      FoundRight file base f (lookedUp file around base (visited file (eShnum file)) f)) ↔
      LastDefined file around name := by
  constructor
  · intro hall
    -- No symbol has this address, as values are below `2 ^ 32`.
    obtain ⟨addr, haddr⟩ : ∃ addr, addr = (base + 2 ^ 32) % 2 ^ 64 := ⟨_, rfl⟩
    have hlt : addr < 2 ^ 64 := by omega
    obtain ⟨hnone, hsome⟩ := hall ⟨name, addr, 0⟩ rfl hlt
    rw [hwf.lookedUp_visited] at hnone hsome
    simp only at hnone hsome
    rw [LastDefined]
    cases hseen : lastSeen file around name with
    | none =>
        by_contra hne
        obtain ⟨v, hv, heq⟩ := hsome hne
        have hlt := hwf.definedValues_lt hv
        rw [hseen] at heq
        simp only [Option.map_none, Option.getD_none] at heq
        omega
    | some v =>
        have hlt := hwf.lastSeen_lt hseen
        rw [hseen] at hnone hsome
        simp only [Option.map_some, Option.getD_some] at hnone hsome
        by_cases hne : definedValues file name = []
        · have := hnone hne
          omega
        · obtain ⟨v', hv', heq⟩ := hsome hne
          have hlt' := hwf.definedValues_lt hv'
          obtain rfl : v = v' := by omega
          exact hv'
  · rintro hlast f rfl -
    rw [LastDefined] at hlast
    rw [FoundRight, hwf.lookedUp_visited]
    cases hseen : lastSeen file around f.funcName with
    | none =>
        rw [hseen] at hlast
        exact ⟨fun _ => rfl, fun hne => absurd hlast hne⟩
    | some v =>
        rw [hseen] at hlast
        refine ⟨fun hnil => ?_, fun _ => ⟨v, hlast, rfl⟩⟩
        rw [hnil] at hlast
        cases hlast

end WellFormed

/-- **The lookup** gives what the file defines, for all entries of the functions before, exactly
when everything it reads can be read and the last symbol it sees under each name is right. -/
theorem lookup_right_iff (hwf : WellFormed file) (around : Mapping) (base : ℕ)
    (names : List CStr) :
    (∀ fs : List FuncEntry, fs.map FuncEntry.funcName = names →
        (∀ f ∈ fs, f.funcAddr < 2 ^ 64) →
        ∃ fs', queryFuncAddrIn (mapFile file around) base fs = some fs' ∧
          List.Forall₂ (FoundRight file base) fs fs') ↔
      Legible file around names (eShnum file) ∧
        ∀ name ∈ names, LastDefined file around name := by
  constructor
  · intro hall
    have hright : ∀ fs : List FuncEntry, fs.map FuncEntry.funcName = names →
        (∀ f ∈ fs, f.funcAddr < 2 ^ 64) → Legible file around names (eShnum file) ∧
          ∀ f ∈ fs, FoundRight file base f
            (lookedUp file around base (visited file (eShnum file)) f) := by
      intro fs hfs hlt
      obtain ⟨fs', hrun, hright⟩ := hall fs hfs hlt
      obtain ⟨hlegible, rfl⟩ := (hwf.queryFuncAddrIn_iff base hfs).mp hrun
      rw [List.forall₂_map_right_iff, List.forall₂_same] at hright
      exact ⟨hlegible, hright⟩
    have hnames : ∀ g : CStr → FuncEntry, (∀ name, (g name).funcName = name) →
        (names.map g).map FuncEntry.funcName = names := by
      intro g hg
      rw [List.map_map]
      exact (List.map_congr_left fun name _ => hg name).trans (List.map_id names)
    refine ⟨(hright (names.map fun name => ⟨name, 0, 0⟩) (hnames _ fun _ => rfl) ?_).1,
      fun name hname => (hwf.foundRight_iff base name).mp ?_⟩
    · intro f hf
      obtain ⟨name, -, rfl⟩ := List.mem_map.mp hf
      norm_num
    · rintro f rfl hlt
      -- The other functions have no address yet.
      refine (hright (names.map fun name => if name = f.funcName then f else ⟨name, 0, 0⟩)
        (hnames _ fun name => ?_) ?_).2 f (List.mem_map.mpr ⟨f.funcName, hname, if_pos rfl⟩)
      · split_ifs with h
        · exact h.symm
        · rfl
      · intro g hg
        obtain ⟨name, -, rfl⟩ := List.mem_map.mp hg
        split_ifs
        · exact hlt
        · norm_num
  · rintro ⟨hlegible, hlast⟩ fs hfs hlt
    refine ⟨_, (hwf.queryFuncAddrIn_iff base hfs).mpr ⟨hlegible, rfl⟩, ?_⟩
    rw [List.forall₂_map_right_iff, List.forall₂_same]
    intro f hf
    refine (hwf.foundRight_iff base f.funcName).mpr (hlast _ ?_) f rfl (hlt f hf)
    rw [← hfs]
    exact List.mem_map_of_mem hf

/-! ### The usual layout -/

/-- `strcmp` on a string that ends in the file. -/
theorem strcmp_mapFile {off : ℕ} {name : CStr} (hname : ∀ c ∈ name, c ≠ 0)
    (hend : 0 ∈ file.drop off) : (mapFile file around).strcmp off name =
      some (decide (cstrOf (file.drop off) = name)) := by
  have hlt : off < file.length := by
    by_contra hge
    rw [List.drop_eq_nil_of_le (Nat.le_of_not_lt hge)] at hend
    cases hend
  rw [List.drop_eq_getElem_cons hlt] at hend ⊢
  induction name generalizing off with
  | nil =>
      rw [Mapping.strcmp, mapFile_of_lt hlt, Option.map_some, cstrOf, List.takeWhile_cons]
      by_cases hzero : file[off] = 0
      · rw [hzero]
        rfl
      · simp [hzero]
  | cons c name ih =>
      have hc := hname c (List.mem_cons_self ..)
      rw [Mapping.strcmp, mapFile_of_lt hlt, Option.bind_some, cstrOf, List.takeWhile_cons]
      by_cases hzero : file[off] = 0
      · have hne : file[off] ≠ c := fun heq => hc (heq ▸ hzero)
        rw [if_neg hne, hzero]
        rfl
      · have hrest : 0 ∈ file.drop (off + 1) :=
          (List.mem_cons.mp hend).resolve_left fun h => hzero h.symm
        have hlt' : off + 1 < file.length := by
          by_contra hge
          rw [List.drop_eq_nil_of_le (Nat.le_of_not_lt hge)] at hrest
          cases hrest
        rw [List.drop_eq_getElem_cons hlt'] at hrest ⊢
        have hnext := ih (fun d hd => hname d (List.mem_cons_of_mem c hd)) hlt' hrest
        rw [if_pos (decide_eq_true hzero)]
        by_cases heq : file[off] = c
        · rw [if_pos heq]
          refine (Eq.trans ?_ hnext).trans ?_
          · push_cast
            rfl
          · simp [cstrOf, heq]
        · rw [if_neg heq]
          simp [heq]

/-- The last symbol of a name. -/
def lastNamed (file : List UInt8) (name : CStr) : Option ℕ :=
  lastSome (fun p => if symbolName file p = name then some (symbolValue file p) else none)
    (symbols file)

namespace WellFormed

variable (hwf : WellFormed file) (hsize : file.length < 2 ^ 31)
  (hnext : ∀ i < eShnum file, isSymbolTable file i → sectionLink file i = i + 1)
include hwf hsize

theorem symbolCount_eq {i : ℕ} (hi : i < eShnum file) (hsym : isSymbolTable file i) :
    symbolCount file i = sectionSize file i / 24 := by
  have hinside := hwf.inside i hi hsym
  rw [symbolCount, wrapInt32_eq_self (by omega) (by omega), Int.toNat_natCast]

theorem visited_eq : visited file (eShnum file) = symbols file := by
  rw [visited, symbols, List.flatMap_def, List.flatMap_def]
  refine congrArg List.flatten (List.map_congr_left fun i hi => ?_)
  obtain ⟨hlt, hsym⟩ := List.mem_filter.mp hi
  rw [hwf.symbolCount_eq hsize (List.mem_range.mp hlt) hsym]

include hnext

omit hsize in
/-- The section behind a symbol table is a string table, and the one in front is a section. -/
theorem neighbour {i : ℕ} (hi : i < eShnum file) (hsym : isSymbolTable file i) :
    0 < i ∧ i + 1 < eShnum file ∧ fileNum file 4 (sectionAt file (i + 1) + 4) = 3 := by
  obtain ⟨hlink, hkind⟩ := hwf.link i hi hsym
  rw [hnext i hi hsym] at hlink hkind
  refine ⟨Nat.pos_of_ne_zero ?_, hlink, hkind⟩
  rintro rfl
  rw [hwf.first] at hsym
  cases hsym

/-- The string table of a symbol table is the one that is used. -/
theorem nearStrtab_eq {i : ℕ} (hi : i < eShnum file) (hsym : isSymbolTable file i) :
    nearStrtab file around (i + 1) = sectionOffset file (sectionLink file i) := by
  obtain ⟨-, hlt, hkind⟩ := hwf.neighbour hnext hi hsym
  obtain ⟨hend, -⟩ := hwf.strings (i + 1) hlt hkind
  have htype := @shType_section file around hwf (i + 1) hlt
  have hoffset := @shOffset_section file around hwf (i + 1) hlt
  rw [hkind] at htype
  rw [Nat.cast_succ] at htype hoffset
  have hlast : neighbours i = [(i : ℤ) - 1, i] ++ [(i : ℤ) + 1] := rfl
  rw [nearStrtab_succ, if_pos hsym, hlast, lastSome_concat, strtabOffset, if_pos htype, hoffset,
    hnext i hi hsym, Option.map_some, Option.some_or, Option.getD_some]
  exact wrapInt32_eq_self (by omega) (by omega)

/-- Symbols are seen under their names. -/
theorem seenAs_eq {name : CStr} (hname : ∀ c ∈ name, c ≠ 0) {p : ℕ × ℕ}
    (hp : p ∈ symbols file) :
    seenAs file around name p = some (decide (symbolName file p = name)) := by
  have hlt := hwf.names p hp
  obtain ⟨i, hi, hj⟩ := List.mem_flatMap.mp hp
  obtain ⟨j, hj, rfl⟩ := List.mem_map.mp hj
  simp only at hlt
  obtain ⟨hi, hsym⟩ := List.mem_filter.mp hi
  have hi := List.mem_range.mp hi
  obtain ⟨hlink, hkind⟩ := hwf.link i hi hsym
  obtain ⟨hend, hnul⟩ := hwf.strings _ hlink hkind
  have hnul := hnul (by omega)
  have hinside : 0 ∈ file.drop
      (sectionOffset file (sectionLink file i) + fileNum file 4 (symbolAt file (i, j))) := by
    refine List.mem_of_getElem? (i := sectionSize file (sectionLink file i) - 1 -
      fileNum file 4 (symbolAt file (i, j))) ?_
    rw [List.getElem?_drop, ← hnul]
    congr 1
    omega
  have hread := @strcmp_mapFile file around _ _ hname hinside
  rw [Nat.cast_add] at hread
  have hwrap : wrapInt32 (fileNum file 4 (symbolAt file (i, j))) =
      fileNum file 4 (symbolAt file (i, j)) := wrapInt32_eq_self (by omega) (by omega)
  rw [seenAs, hwf.nearStrtab_eq hsize hnext hi hsym, hwrap, hread, symbolName]

/-- **In the usual layout**, where the string table of each symbol table is the section behind
it, everything can be read. -/
theorem legible_of_next {names : List CStr} (hnames : ∀ name ∈ names, ∀ c ∈ name, c ≠ 0) :
    Legible file around names (eShnum file) where
  headers i hi hsym j hj := by
    obtain ⟨hpos, hlt, -⟩ := hwf.neighbour hnext hi hsym
    have hsection : ∀ k < eShnum file,
        HeaderOk (mapFile file around) (fileNum file 8 40) k := by
      intro k hk
      rw [HeaderOk, hwf.shType_section hk, hwf.shOffset_section hk]
      exact ⟨nofun, fun _ => nofun⟩
    have hcases : j = ((i - 1 : ℕ) : ℤ) ∨ j = i ∨ j = ((i + 1 : ℕ) : ℤ) := by
      simp only [neighbours, List.mem_cons, List.not_mem_nil, or_false] at hj
      omega
    rcases hcases with rfl | rfl | rfl
    · exact hsection _ (by omega)
    · exact hsection _ hi
    · exact hsection _ hlt
  small p hp := by
    obtain ⟨-, hend⟩ := hwf.visited_subset hp
    rw [symbolAt] at hend
    omega
  names p hp name hname := by
    rw [hwf.seenAs_eq hsize hnext (hnames name hname) (hwf.visited_subset hp).1]
    exact nofun

/-- In the usual layout the last symbol of a name is the one that is seen. -/
theorem lastSeen_of_next {name : CStr} (hname : ∀ c ∈ name, c ≠ 0) :
    lastSeen file around name = lastNamed file name := by
  rw [lastSeen, lastNamed, hwf.visited_eq hsize]
  refine lastSome_congr fun p hp => ?_
  rw [hwf.seenAs_eq hsize hnext hname hp]
  simp only [Option.some.injEq, decide_eq_true_eq]

end WellFormed

/-- What the last symbol of a name does to a list of hooks. -/
theorem queryFuncAddr_lastSome (syms : List (CStr × ℕ)) (base : ℕ) (hooks : List HookEntry) :
    (queryFuncAddr syms base hooks).map (fun h => (h.funcName, h.oldFuncAddr)) =
      hooks.map fun h => (h.funcName, ((lastSome (fun sym => if h.funcName = sym.1 then
        some (symbolAddr base sym.2) else none) syms)).getD h.oldFuncAddr) := by
  have heach : queryFuncAddr syms base hooks = hooks.map fun h =>
      { h with oldFuncAddr := (lastSome (fun sym => if h.funcName = sym.1 then
        some (symbolAddr base sym.2) else none) syms).getD h.oldFuncAddr } := by
    induction syms using List.reverseRecOn with
    | nil => exact (List.map_id hooks).symm
    | append_singleton syms sym ih =>
        rw [queryFuncAddr] at ih ⊢
        rw [List.foldl_append, ih, List.foldl_cons, List.foldl_nil, List.map_map]
        refine List.map_congr_left fun h _ => ?_
        rw [Function.comp_apply, lastSome_concat, getD_or]
        split_ifs <;> rfl
  rw [heach, List.map_map]
  rfl

/-- The names and values of the symbols of a file. -/
def fileSymbols (file : List UInt8) : List (CStr × ℕ) :=
  (symbols file).map fun p => (symbolName file p, symbolValue file p)

/-- **In the usual layout** the lookup in the file is the one in the list of its symbols. -/
theorem queryFuncAddr_fileSymbols (hwf : WellFormed file) (hsize : file.length < 2 ^ 31)
    (hnext : ∀ i < eShnum file, isSymbolTable file i → sectionLink file i = i + 1)
    (around : Mapping) (base : ℕ) {hooks : List HookEntry}
    (hnames : ∀ h ∈ hooks, ∀ c ∈ h.funcName, c ≠ 0) :
    (queryFuncAddrIn (mapFile file around) base
        (hooks.map fun h => ⟨h.funcName, h.oldFuncAddr, 0⟩)).map
        (List.map fun f => (f.funcName, f.funcAddr)) =
      some ((queryFuncAddr (fileSymbols file) base hooks).map
        fun h => (h.funcName, h.oldFuncAddr)) := by
  have hlegible : Legible file around
      ((hooks.map fun h => (⟨h.funcName, h.oldFuncAddr, 0⟩ : FuncEntry)).map
        FuncEntry.funcName) (eShnum file) := by
    refine hwf.legible_of_next hsize hnext ?_
    rw [List.map_map, List.forall_mem_map]
    exact hnames
  rw [(hwf.queryFuncAddrIn_iff base rfl).mpr ⟨hlegible, rfl⟩, Option.map_some,
    queryFuncAddr_lastSome, List.map_map, List.map_map]
  refine congrArg some (List.map_congr_left fun h hh => Prod.ext ?_ ?_)
  · exact lookedUp_funcName base _ _
  · refine (hwf.lookedUp_visited base _).trans ?_
    rw [hwf.lastSeen_of_next hsize hnext (hnames h hh), lastNamed, ← lastSome_map, fileSymbols,
      lastSome_comp]
    refine congrArg (fun o => Option.getD o h.oldFuncAddr) (lastSome_congr fun p hp => ?_)
    have hvalue := hwf.values p hp
    by_cases hname : symbolName file p = h.funcName
    · rw [if_pos hname, if_pos hname.symm, Option.map_some, symbolAddr,
        Nat.mod_eq_of_lt hvalue, Nat.add_comm]
    · rw [if_neg hname, if_neg fun heq => hname heq.symm, Option.map_none]

end Found

/-! ### A library with one symbol -/

/-- A section header. -/
def sectionHeader (shType shOffset shSize shLink shEntsize : ℕ) : List UInt8 :=
  leBytes 4 0 ++ leBytes 4 shType ++ leBytes 16 0 ++ leBytes 8 shOffset ++ leBytes 8 shSize ++
    leBytes 4 shLink ++ leBytes 12 0 ++ leBytes 8 shEntsize

/-- A library with the symbol `open`, which it defines unless `stShndx` is `SHN_UNDEF`. -/
def openLib (stShndx stValue : ℕ) : List UInt8 :=
  [127, 69, 76, 70, 2, 1, 1, 0] ++ leBytes 8 0 ++ leBytes 24 3 ++ leBytes 8 64 ++
    leBytes 10 0 ++ leBytes 2 64 ++ leBytes 2 3 ++ leBytes 2 0 ++
    sectionHeader 0 0 0 0 0 ++ sectionHeader 11 256 48 2 24 ++ sectionHeader 3 304 6 0 0 ++
    leBytes 24 0 ++ leBytes 4 1 ++ leBytes 2 18 ++ leBytes 2 stShndx ++ leBytes 8 stValue ++
    leBytes 8 32 ++ 0 :: bytesOf "open" ++ [0]

theorem openLib_defined : WellFormed (openLib 12 0x1130) where
  header := by decide +kernel
  sections := by decide +kernel
  first := by decide +kernel
  entsize := by decide +kernel
  inside := by decide +kernel
  link := by decide +kernel
  strings := by decide +kernel
  names := by decide +kernel
  values := by decide +kernel

theorem openLib_imported : WellFormed (openLib 0 0) where
  header := by decide +kernel
  sections := by decide +kernel
  first := by decide +kernel
  entsize := by decide +kernel
  inside := by decide +kernel
  link := by decide +kernel
  strings := by decide +kernel
  names := by decide +kernel
  values := by decide +kernel

/-- A defined function is found in the library, and one that is not there is not. -/
theorem lookup_right_iff_defined :
    ∃ fs', queryFuncAddrIn (mapFile (openLib 12 0x1130) fun _ => none) 0x7f0000000000
        [⟨bytesOf "open", 0, 0⟩, ⟨bytesOf "stat", 0, 0⟩] = some fs' ∧
      List.Forall₂ (FoundRight (openLib 12 0x1130) 0x7f0000000000)
        [⟨bytesOf "open", 0, 0⟩, ⟨bytesOf "stat", 0, 0⟩] fs' :=
  (lookup_right_iff openLib_defined (fun _ => none) 0x7f0000000000
    [bytesOf "open", bytesOf "stat"]).mpr
      ⟨⟨by decide +kernel, by decide +kernel, by decide +kernel⟩, by decide +kernel⟩
      [⟨bytesOf "open", 0, 0⟩, ⟨bytesOf "stat", 0, 0⟩] rfl (by decide)

/-- A function that the library imports is given the base address of the library. -/
theorem imported_found :
    WellFormed (openLib 0 0) ∧ definedValues (openLib 0 0) (bytesOf "open") = [] ∧
      queryFuncAddrIn (mapFile (openLib 0 0) fun _ => none) 0x7f0000000000
          [⟨bytesOf "open", 0, 0⟩] = some [⟨bytesOf "open", 0x7f0000000000, 32⟩] ∧
      ¬FoundRight (openLib 0 0) 0x7f0000000000 ⟨bytesOf "open", 0, 0⟩
        ⟨bytesOf "open", 0x7f0000000000, 32⟩ := by
  refine ⟨openLib_imported, by decide +kernel, by decide +kernel, fun h => ?_⟩
  exact absurd (h.1 (by decide +kernel)) (by decide)

end Ooops
