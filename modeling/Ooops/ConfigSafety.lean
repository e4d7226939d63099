import Ooops.Basis.Fallible
import Ooops.ConfigAgreement

/-!
# Bounds of the Configuration Parser

`Read_Config` with every access to its arrays checked. It trusts the file: it compares four bytes
at every position up to the last one read, notes any number of tags in `PosList[8]`, goes on with
entry `-1` where it has found no section, looks for an end of line without an end of its own, and
scans words of any length into items of 64 bytes. `sscanf` reads a string, so that it needs a NUL
inside the buffer.

What stands in the buffer before the file is read into it is part of the input, since the parser
looks at it.

* `readConfigChecked` is `Read_Config` with its checks, `readConfigChecked_scanConfig` relates it
  to the reader without them.
* `Readable` says what the parser needs of the bytes in its buffer.
* `readsSafely_iff`: when the parser stays inside of its arrays.
-/

open Basis

namespace Ooops

/-- The access of `Read_Config` that goes wrong. -/
inductive ConfigFault
  /-- An index outside of `szBuff`, or a string that does not end there. -/
  | szBuff
  /-- An index outside of `PosList`, or of an entry that is not set. -/
  | posList
  | freqList
  /-- A word that is too long for its item. -/
  | szItems
  deriving DecidableEq

/-- What stands in `szBuff` before the file is read. -/
abbrev OldBuff := { old : List UInt8 // old.length = 8192 }

/-- The number of bytes that `read` returns. -/
def numReadOf (file : List UInt8) : ℕ := (file.take 8192).length

/-- `szBuff` after `read`. -/
def szBuffOf (file : List UInt8) (old : OldBuff) : List UInt8 :=
  file.take 8192 ++ old.val.drop (numReadOf file)

/-- The bytes at `p+i`, of which four are compared. -/
def loadTag (szBuff : List UInt8) (i : ℕ) : Except ConfigFault (List UInt8) :=
  if i + 4 ≤ szBuff.length then .ok (szBuff.drop i) else .error .szBuff

/-- The string at `szBuff + i`. -/
def stringAt (szBuff : List UInt8) (i : ℕ) : Except ConfigFault CStr :=
  if 0 ∈ szBuff.drop i then .ok (cstrOf (szBuff.drop i)) else .error .szBuff

/-- The loop over the `n` positions from `i` on. -/
def tagLoop (szBuff : List UInt8) : ℕ → ℕ → List ℕ → Except ConfigFault (List ℕ)
  | _, 0, posList => .ok posList
  | i, n + 1, posList => do
      let w ← loadTag szBuff i
      if anyTag w then
        if posList.length < 8 then tagLoop szBuff (i + 1) n (posList ++ [i])
        else .error .posList
      else tagLoop szBuff (i + 1) n posList

/-- The loop over the starts of sections, from entry `k` of `freq_list` on. -/
def freqLoop (lib : ScanLib) (fSys : ℚ) (szBuff : List UInt8) :
    ℕ → List (ℕ × Option ℕ) → ℚ → Option (ℕ × Option ℕ) →
      Except ConfigFault (Option (ℕ × Option ℕ))
  | _, [], _, use => .ok use
  | k, e :: es, dfMin, use => do
      let text ← stringAt szBuff (e.1 + 6)
      match lib.scanFloat text with
      | none => freqLoop lib fSys szBuff (k + 1) es dfMin use
      | some f =>
          if k < 4 then
            if lib.df fSys f < dfMin then
              freqLoop lib fSys szBuff (k + 1) es (lib.df fSys f) (some e)
            else freqLoop lib fSys szBuff (k + 1) es dfMin use
          else .error .freqList

/-- The part of `Read_Config` behind the selection, on the section that is selected. -/
def readSection (szBuff : List UInt8) (use : Option (ℕ × Option ℕ)) :
    Except ConfigFault (ℕ × { items : List Word // items.length ≤ 80 }) :=
  match use with
  | none => .error .posList
  | some (start, stop?) =>
      match pUse szBuff start, stop? with
      | none, _ => .error .szBuff
      | some _, none => .error .posList
      | some p, some stop =>
          if 1 ≤ stop ∧ stop ≤ szBuff.length then do
            let text ← stringAt (szBuff.set (stop - 1) 0) p
            match scanWords 80 64 text with
            | none => .error .szItems
            | some items => .ok (start, items)
          else .error .szBuff

/-- `Read_Config`, with all its accesses. -/
def readConfigChecked (lib : ScanLib) (freq : ℚ) (file : List UInt8) (old : OldBuff) :
    Except ConfigFault (ℕ × { items : List Word // items.length ≤ 80 }) := do
  let posList ← tagLoop (szBuffOf file old) 0 (numReadOf file) []
  let use ← freqLoop lib (lib.gHz freq) (szBuffOf file old) 0 (everyOther posList) 10 none
  readSection (szBuffOf file old) use

/-! ### What the parser needs -/

/-- The starts of sections in a buffer, each with the tag behind it. -/
def sectionsIn (numRead : ℕ) (szBuff : List UInt8) : List (ℕ × Option ℕ) :=
  everyOther (posList numRead szBuff)

/-- The distance of the frequency of a section. -/
def sectionDist (lib : ScanLib) (fSys : ℚ) (szBuff : List UInt8) (e : ℕ × Option ℕ) : Option ℚ :=
  (lib.scanFloat (cstrOf (szBuff.drop (e.1 + 6)))).map (lib.df fSys)

/-- What the parser needs of its buffer: no position closer than four bytes to the end; at most
eight tags; a NUL behind every start of a section; a nearest section that is followed by a tag and
has an end of line; a NUL behind this line, be it the one that is stored in front of the tag; and
words that fit. -/
def Readable (lib : ScanLib) (fSys : ℚ) (numRead : ℕ) (szBuff : List UInt8) : Prop :=
  numRead ≤ 8189 ∧ (posList numRead szBuff).length ≤ 8 ∧
    (∀ e ∈ sectionsIn numRead szBuff, 0 ∈ szBuff.drop (e.1 + 6)) ∧
    ∃ start stop p, closest (sectionDist lib fSys szBuff) 10 (sectionsIn numRead szBuff) =
        some (start, some stop) ∧
      pUse szBuff start = some p ∧ 0 ∈ (szBuff.set (stop - 1) 0).drop p ∧
      ∀ w ∈ (words (cstrOf ((szBuff.set (stop - 1) 0).drop p))).take 80, w.val.length < 64

/-- A section that can be used: its frequency is less than 10 GHz from that of the CPU. -/
def Usable (lib : ScanLib) (fSys : ℚ) (szBuff : List UInt8) (e : ℕ × Option ℕ) : Prop :=
  ∃ d, sectionDist lib fSys szBuff e = some d ∧ d < 10

/-- The parser comes to an end inside of its arrays, with no server if there is no section that it
can use. -/
def ReadsSafely (lib : ScanLib) (freq : ℚ) (file : List UInt8) (old : OldBuff) : Prop :=
  ∃ r, readConfigChecked lib freq file old = .ok r ∧
    ((∀ e ∈ sectionsIn (numReadOf file) (szBuffOf file old),
        ¬Usable lib (lib.gHz freq) (szBuffOf file old) e) → r.2.val.length / 10 = 0)

/-! ### The loops -/

theorem length_szBuffOf (file : List UInt8) (old : OldBuff) :
    (szBuffOf file old).length = 8192 := by
  have hle : numReadOf file ≤ 8192 := List.length_take_le _ _
  rw [szBuffOf, List.length_append, List.length_drop, old.property]
  exact Nat.add_sub_of_le hle

section Loops

variable {lib : ScanLib} {fSys : ℚ} {szBuff : List UInt8}

theorem loadTag_eq_ok_iff {i : ℕ} {w : List UInt8} :
    loadTag szBuff i = .ok w ↔ i + 4 ≤ szBuff.length ∧ w = szBuff.drop i := by
  rw [loadTag]
  split_ifs with h
  · simp [h, eq_comm]
  · simp [h]

theorem stringAt_eq_ok_iff {i : ℕ} {text : CStr} :
    stringAt szBuff i = .ok text ↔ 0 ∈ szBuff.drop i ∧ text = cstrOf (szBuff.drop i) := by
  rw [stringAt]
  split_ifs with h
  · simp [h, eq_comm]
  · simp [h]

/-- The loop over the positions finds the tags, if all four-byte reads are inside of the buffer
and `PosList` has room. -/
theorem tagLoop_eq_ok_iff {i n : ℕ} {acc l : List ℕ} (hacc : acc.length ≤ 8) :
    tagLoop szBuff i n acc = .ok l ↔
      (n = 0 ∨ i + n + 3 ≤ szBuff.length) ∧ l.length ≤ 8 ∧
        l = acc ++ marksFrom anyTag i n (szBuff.drop i) := by
  induction n generalizing i acc with
  | zero =>
      simp only [tagLoop, marksFrom_zero, List.append_nil, true_or, true_and, Except.ok.injEq]
      exact ⟨fun h => ⟨h ▸ hacc, h.symm⟩, fun h => h.2.symm⟩
  | succ n ih =>
      have htail : (szBuff.drop i).tail = szBuff.drop (i + 1) := List.tail_drop
      have hroom : (i + 4 ≤ szBuff.length ∧ (n = 0 ∨ i + 1 + n + 3 ≤ szBuff.length)) ↔
          (n + 1 = 0 ∨ i + (n + 1) + 3 ≤ szBuff.length) := by omega
      rw [tagLoop, bind_eq_ok_iff, ← hroom, marksFrom, htail]
      simp only [loadTag_eq_ok_iff, and_assoc, exists_and_left, exists_eq_left]
      refine and_congr_right fun _ => ?_
      by_cases htag : anyTag (szBuff.drop i) = true
      · rw [if_pos htag, if_pos htag]
        by_cases hlt : acc.length < 8
        · have hacc' : (acc ++ [i]).length ≤ 8 := by
            rw [List.length_append, List.length_singleton]
            exact hlt
          rw [if_pos hlt, ih hacc', List.append_assoc, List.singleton_append]
        · rw [if_neg hlt]
          refine iff_of_false (by simp) ?_
          rintro ⟨-, hle, rfl⟩
          rw [List.length_append, List.length_cons] at hle
          omega
      · rw [if_neg htag, if_neg htag, ih hacc]

/-- The loop over the sections finds the closest one, if every text in it ends and there are at
most four. -/
theorem freqLoop_eq_ok_iff {k : ℕ} {es : List (ℕ × Option ℕ)} {dfMin : ℚ}
    {use use' : Option (ℕ × Option ℕ)} (hk : k + es.length ≤ 4) :
    freqLoop lib fSys szBuff k es dfMin use = .ok use' ↔
      (∀ e ∈ es, 0 ∈ szBuff.drop (e.1 + 6)) ∧
        use' = closestFrom (sectionDist lib fSys szBuff) es dfMin use := by
  induction es generalizing k dfMin use with
  | nil => simp [freqLoop, closestFrom, eq_comm]
  | cons e es ih =>
      rw [List.length_cons] at hk
      have hrest (d : ℚ) (u : Option (ℕ × Option ℕ)) := @ih (k + 1) d u (by omega)
      rw [freqLoop, bind_eq_ok_iff, List.forall_mem_cons, closestFrom]
      simp only [stringAt_eq_ok_iff, and_assoc, exists_and_left, exists_eq_left]
      refine and_congr_right fun _ => ?_
      cases hf : lib.scanFloat (cstrOf (szBuff.drop (e.1 + 6))) with
      | none =>
          have hdist : sectionDist lib fSys szBuff e = none := by rw [sectionDist, hf]; rfl
          simp only [hdist]
          exact hrest _ _
      | some f =>
          have hdist : sectionDist lib fSys szBuff e = some (lib.df fSys f) := by
            rw [sectionDist, hf]; rfl
          simp only [hdist, if_pos (show k < 4 by omega)]
          by_cases hlt : lib.df fSys f < dfMin
          · simp only [if_pos hlt]
            exact hrest _ _
          · simp only [if_neg hlt]
            exact hrest _ _

end Loops

/-! ### The positions -/

/-- The tag behind the start of a section stands behind it. -/
theorem stop_of_mem_everyOther {l : List ℕ} (hl : l.Pairwise (· < ·)) {start stop : ℕ}
    (h : (start, some stop) ∈ everyOther l) : start < stop ∧ stop ∈ l := by
  induction l using everyOther.induct with
  | case1 => exact absurd h List.not_mem_nil
  | case2 s => exact absurd (List.mem_singleton.mp h) (by simp)
  | case3 s e ps ih =>
      rw [List.pairwise_cons, List.pairwise_cons] at hl
      rcases List.mem_cons.mp h with heq | hmem
      · obtain ⟨rfl, rfl⟩ : start = s ∧ stop = e := by simpa using heq
        exact ⟨hl.1 _ List.mem_cons_self, by simp⟩
      · obtain ⟨hlt, hin⟩ := ih hl.2.2 hmem
        exact ⟨hlt, by simp [hin]⟩

/-! ### The parser -/

section Parser

variable {lib : ScanLib}

/-- The part behind the selection needs a section that is followed by a tag and has an end of
line, a NUL behind that, and words that fit. -/
theorem readSection_eq_ok_iff {szBuff : List UInt8} {use : Option (ℕ × Option ℕ)}
    (hstop : ∀ start stop, use = some (start, some stop) → 1 ≤ stop ∧ stop ≤ szBuff.length) :
    (∃ r, readSection szBuff use = .ok r) ↔
      ∃ start stop p, use = some (start, some stop) ∧ pUse szBuff start = some p ∧
        0 ∈ (szBuff.set (stop - 1) 0).drop p ∧
        ∀ w ∈ (words (cstrOf ((szBuff.set (stop - 1) 0).drop p))).take 80, w.val.length < 64 := by
  rcases use with _ | ⟨start, _ | stop⟩
  · simp [readSection]
  · cases hp : pUse szBuff start <;> simp [readSection, hp]
  · cases hp : pUse szBuff start with
    | none => simp [readSection, hp]
    | some p =>
        simp only [readSection, hp, if_pos (hstop start stop rfl), bind_eq_ok_iff,
          stringAt_eq_ok_iff]
        constructor
        · rintro ⟨r, _, ⟨hnul, rfl⟩, hr⟩
          refine ⟨start, stop, p, rfl, hp, hnul, ?_⟩
          by_contra hlong
          rw [scanWords, if_neg hlong] at hr
          exact absurd hr nofun
        · rintro ⟨_, _, _, heq, hp', hnul, hfit⟩
          obtain ⟨rfl, rfl⟩ : start = _ ∧ stop = _ := by simpa using heq
          obtain rfl : p = _ := Option.some.inj (hp.symm.trans hp')
          exact ⟨_, _, ⟨hnul, rfl⟩, by rw [scanWords, if_pos hfit]⟩

variable (freq : ℚ) (file : List UInt8) (old : OldBuff)

/-- The tag behind a section that is selected stands inside of the buffer. -/
theorem stop_of_closest {dist : ℕ × Option ℕ → Option ℚ} {start stop : ℕ}
    (h : closest dist 10 (sectionsIn (numReadOf file) (szBuffOf file old)) =
      some (start, some stop)) : 1 ≤ stop ∧ stop ≤ (szBuffOf file old).length := by
  have hle : numReadOf file ≤ 8192 := List.length_take_le _ _
  obtain ⟨hlt, hmem⟩ := stop_of_mem_everyOther (pairwise_marksFrom 0 _ _) (closest_le h).1
  have := bounds_of_mem_marksFrom hmem
  rw [length_szBuffOf]
  omega

/-- What the parser goes through when it comes to an end. -/
theorem readConfigChecked_eq_ok_iff {r : ℕ × { items : List Word // items.length ≤ 80 }} :
    readConfigChecked lib freq file old = .ok r ↔
      numReadOf file ≤ 8189 ∧ (posList (numReadOf file) (szBuffOf file old)).length ≤ 8 ∧
        (∀ e ∈ sectionsIn (numReadOf file) (szBuffOf file old),
          0 ∈ (szBuffOf file old).drop (e.1 + 6)) ∧
        readSection (szBuffOf file old)
          (closest (sectionDist lib (lib.gHz freq) (szBuffOf file old)) 10
            (sectionsIn (numReadOf file) (szBuffOf file old))) = .ok r := by
  have hempty : ([] : List ℕ).length ≤ 8 := Nat.zero_le 8
  have hroom : (numReadOf file = 0 ∨ 0 + numReadOf file + 3 ≤ (szBuffOf file old).length) ↔
      numReadOf file ≤ 8189 := by
    rw [length_szBuffOf]
    omega
  rw [readConfigChecked, bind_eq_ok_iff]
  simp only [tagLoop_eq_ok_iff hempty, hroom, List.nil_append, List.drop_zero, bind_eq_ok_iff]
  constructor
  · rintro ⟨_, ⟨hle, hlen, rfl⟩, use, huse, hr⟩
    have hfour : 0 + (everyOther (marksFrom anyTag 0 (numReadOf file)
        (szBuffOf file old))).length ≤ 4 := by
      rw [length_everyOther]
      omega
    obtain ⟨hnul, rfl⟩ := (freqLoop_eq_ok_iff hfour).mp huse
    exact ⟨hle, hlen, hnul, hr⟩
  · rintro ⟨hle, hlen, hnul, hr⟩
    refine ⟨_, ⟨hle, hlen, rfl⟩, _, (freqLoop_eq_ok_iff ?_).mpr ⟨hnul, rfl⟩, hr⟩
    have hlen' : (marksFrom anyTag 0 (numReadOf file) (szBuffOf file old)).length ≤ 8 := hlen
    rw [length_everyOther]
    omega

/-- The parser comes to an end inside of its arrays if it finds what it needs. -/
theorem readConfigChecked_iff_readable :
    (∃ r, readConfigChecked lib freq file old = .ok r) ↔
      Readable lib (lib.gHz freq) (numReadOf file) (szBuffOf file old) := by
  simp only [readConfigChecked_eq_ok_iff, exists_and_left]
  refine and_congr_right fun _ => and_congr_right fun _ => and_congr_right fun _ => ?_
  exact readSection_eq_ok_iff fun start stop h => stop_of_closest file old h

/-- **When the parser is safe.** `Read_Config` stays inside of its arrays, and reads no server
where it can use no section, exactly if its buffer is readable. -/
theorem readsSafely_iff :
    ReadsSafely lib freq file old ↔
      Readable lib (lib.gHz freq) (numReadOf file) (szBuffOf file old) := by
  rw [← readConfigChecked_iff_readable]
  constructor
  · rintro ⟨r, hr, -⟩
    exact ⟨r, hr⟩
  · rintro ⟨r, hr⟩
    refine ⟨r, hr, fun hnone => ?_⟩
    obtain ⟨-, -, -, start, stop, p, hclosest, -⟩ :=
      (readConfigChecked_iff_readable freq file old).mp ⟨r, hr⟩
    obtain ⟨hmem, d, hd, hlt, -⟩ := closest_le hclosest
    exact absurd ⟨d, hd, hlt⟩ (hnone _ hmem)

/-- A parser that comes to an end reads what the reader without checks reads, where no number
goes on behind a NUL. -/
theorem readConfigChecked_scanConfig
    (hnul : ∀ text rest, 0 ∉ text → lib.scanFloat (text ++ 0 :: rest) = lib.scanFloat text)
    {r : ℕ × { items : List Word // items.length ≤ 80 }}
    (h : readConfigChecked lib freq file old = .ok r) :
    scanConfig lib 80 freq file (old.val.drop (numReadOf file)) = some r := by
  obtain ⟨-, hlen, htext, hr⟩ := (readConfigChecked_eq_ok_iff freq file old).mp h
  have huse : configUse lib (lib.gHz freq) (szBuffOf file old)
      (posList (numReadOf file) (szBuffOf file old)) =
        closest (sectionDist lib (lib.gHz freq) (szBuffOf file old)) 10
          (sectionsIn (numReadOf file) (szBuffOf file old)) := by
    refine closest_congr fun e he => ?_
    obtain ⟨rest, hsplit⟩ := exists_eq_cstrOf_append (htext e he)
    rw [sectionDist, ← hnul _ rest (zero_not_mem_cstrOf _), ← hsplit]
  have hstop {start stop : ℕ} := @stop_of_closest file old
    (sectionDist lib (lib.gHz freq) (szBuffOf file old)) start stop
  obtain ⟨start, stop, p, hclosest, hp, -⟩ :=
    (readSection_eq_ok_iff fun _ _ hc => hstop hc).mp ⟨r, hr⟩
  simp only [hclosest, readSection, hp, if_pos (hstop hclosest), bind_eq_ok_iff,
    stringAt_eq_ok_iff] at hr
  obtain ⟨_, ⟨-, rfl⟩, hr⟩ := hr
  rw [scanConfig_of_use hlen (huse.trans hclosest)]
  have hp' : pUse (file.take 8192 ++ old.val.drop (numReadOf file)) start = some p := hp
  rw [hp', Option.bind_some, ← szBuffOf]
  cases hscan : scanWords 80 64 (cstrOf (((szBuffOf file old).set (stop - 1) 0).drop p)) with
  | none => simp [hscan] at hr
  | some items =>
      simp only [hscan, Except.ok.injEq] at hr
      rw [Option.map_some, hr]

/-- A buffer that holds zeros. -/
def zeroBuff : OldBuff := ⟨List.replicate 8192 0, List.length_replicate⟩

/-- In a file without tags there is no section to go on with: the parser looks at
`PosList[-1]`. -/
theorem empty_file_faults :
    readConfigChecked wholeNumbers 3000000000 [] zeroBuff = .error .posList ∧
      ¬ReadsSafely wholeNumbers 3000000000 [] zeroBuff := by
  have hfault : readConfigChecked wholeNumbers 3000000000 [] zeroBuff = .error .posList := rfl
  refine ⟨hfault, ?_⟩
  rintro ⟨r, hr, -⟩
  exact absurd (hfault.symm.trans hr) nofun

end Parser

end Ooops
