import Ooops.ConfigAgreement

/-!
# Parsing the Configuration

`Read_Config` on a well-formed file that fits its buffer: the section whose frequency is the
nearest to that of the CPU is selected, the first one of several, and every record of it is read
into the variables of the process.

* `ConfigFile.FirstNearest` says which section that is, `Parsed` what is set from it.
* `readConfig_format`: what `Read_Config` does with such a file.
-/

open Basis

namespace Ooops

/-- A key or a value of a section, counted from the first one on. -/
def ConfigSection.token (s : ConfigSection) (k : ℕ) : CStr :=
  ((s.words[k]?).map ConfigWord.text).getD []

/-- The first one of the sections whose frequency is the nearest to that of the CPU. -/
def ConfigFile.FirstNearest (lib : ScanLib) (f : ConfigFile) (fSys : ℚ) (s : ConfigSection) :
    Prop :=
  ∃ before after x, f.sections = before ++ s :: after ∧ lib.scanFloat s.freqText = some x ∧
    (∀ t ∈ before, ∀ y, lib.scanFloat t.freqText = some y → |x - fSys| < |y - fSys|) ∧
    ∀ t ∈ after, ∀ y, lib.scanFloat t.freqText = some y → |x - fSys| ≤ |y - fSys|

/-- The variables of a process hold the records of a section, the values of each from its 2nd,
4th, 6th, 8th and 10th word. -/
structure Parsed (lib : ScanLib) (freq : ℚ) (s : ConfigSection) (p : Proc) : Prop where
  nFsServer : p.nFsServer = s.nRec
  tag : ∀ i : FsIdx, i.val < s.nRec → p.szFSTag i = s.token (10 * i + 1)
  tagLen : ∀ i : FsIdx, i.val < s.nRec → p.fsTagLen i = min (s.token (10 * i + 1)).length 15
  tOpen : ∀ i : FsIdx, i.val < s.nRec →
    p.tThresholdInt64 .openFile i = ticksOf freq (lib.atof (s.token (10 * i + 3)))
  fOpen : ∀ i : FsIdx, i.val < s.nRec →
    p.maxFreq .openFile i = lib.atof (s.token (10 * i + 5))
  tStat : ∀ i : FsIdx, i.val < s.nRec →
    p.tThresholdInt64 .lxstat i = ticksOf freq (lib.atof (s.token (10 * i + 7)))
  fStat : ∀ i : FsIdx, i.val < s.nRec →
    p.maxFreq .lxstat i = lib.atof (s.token (10 * i + 9))

/-! ### The records -/

/-- A record of the items. -/
structure RecordAt (lib : ScanLib) (items : List Word) (i : ℕ) (r : FsRecord) : Prop where
  tag : (items[10 * i + 1]?).map Subtype.val = some r.tag
  tOpen : (items[10 * i + 3]?).map (fun w => lib.atof w.val) = some (r.tThreshold .openFile)
  fOpen : (items[10 * i + 5]?).map (fun w => lib.atof w.val) = some (r.maxFreq .openFile)
  tStat : (items[10 * i + 7]?).map (fun w => lib.atof w.val) = some (r.tThreshold .lxstat)
  fStat : (items[10 * i + 9]?).map (fun w => lib.atof w.val) = some (r.maxFreq .lxstat)

/-- Ten items are a record. -/
theorem getElem?_recordsOf (lib : ScanLib) {items : List Word} {i : ℕ}
    (h : i < items.length / 10) :
    ∃ r, (recordsOf lib items)[i]? = some r ∧ RecordAt lib items i r := by
  induction items using recordsOf.induct generalizing i with
  | case1 w₀ tag w₂ tOpen w₄ fOpen w₆ tStat w₈ fStat items ih =>
      rw [recordsOf]
      cases i with
      | zero => exact ⟨_, rfl, rfl, rfl, rfl, rfl, rfl⟩
      | succ i =>
          simp only [List.length_cons] at h
          obtain ⟨r, hr, hat⟩ := ih (by omega : i < items.length / 10)
          exact ⟨r, hr, hat.tag, hat.tOpen, hat.fOpen, hat.tStat, hat.fStat⟩
  | case2 items hshort =>
      rw [← length_recordsOf lib items, recordsOf.eq_2 lib items hshort] at h
      exact absurd h (Nat.not_lt_zero i)

/-- A stored length is that of the tag, at most 15. -/
theorem fsTagLenOf_eq_min (tag : CStr) : fsTagLenOf tag = min tag.length 15 := by
  rw [fsTagLenOf]
  split <;> omega

namespace ConfigSection

variable (s : ConfigSection)

/-- A section has no more words than are scanned. -/
theorem take_items : s.items.take 80 = s.items := by
  have hle := s.nRec_le
  have hlen := s.length_items
  exact List.take_of_length_le (by omega)

/-- The items of a section are its words. -/
theorem getElem?_items (k : ℕ) (hk : k < 10 * s.nRec) :
    (s.items[k]?).map Subtype.val = some (s.token k) := by
  have hlt : k < s.words.length := s.length_words ▸ hk
  have hword : s.words[k]? = some s.words[k] := List.getElem?_eq_getElem hlt
  rw [items, List.getElem?_map, token, hword]
  rfl

/-- **The records of a section** end up in the variables of the process. -/
theorem parsed_readConfig (lib : ScanLib) (freq : ℚ) (p : Proc) {c : Config}
    (hfreq : c.freq = freq) (hrecords : c.records = recordsOf lib s.items) :
    Parsed lib freq s (readConfig p c) := by
  have hlen : s.items.length / 10 = s.nRec := by
    rw [s.length_items]
    omega
  have hrec (i : FsIdx) (hi : i.val < s.nRec) :
      ∃ r, c.records[i.val]? = some r ∧ RecordAt lib s.items i r := by
    rw [hrecords]
    exact getElem?_recordsOf lib (hlen.symm ▸ hi)
  have hvalue {k : ℕ} (hk : k < 10 * s.nRec) {x : ℚ}
      (hx : (s.items[k]?).map (fun w => lib.atof w.val) = some x) : x = lib.atof (s.token k) := by
    have htoken := congrArg (Option.map lib.atof) (s.getElem?_items k hk)
    rw [Option.map_map] at htoken
    exact Option.some.inj (hx.symm.trans htoken)
  have htag (i : FsIdx) (hi : i.val < s.nRec) {r : FsRecord} (hat : RecordAt lib s.items i r) :
      r.tag = s.token (10 * i + 1) :=
    Option.some.inj (hat.tag.symm.trans (s.getElem?_items _ (by omega)))
  refine ⟨?_, fun i hi => ?_, fun i hi => ?_, fun i hi => ?_, fun i hi => ?_, fun i hi => ?_,
    fun i hi => ?_⟩
  · rw [← hlen, ← length_recordsOf lib, ← hrecords]
    rfl
  all_goals
    obtain ⟨r, hr, hat⟩ := hrec i hi
    simp only [readConfig, hr, Option.map_some, Option.getD_some]
  · exact htag i hi hat
  · rw [fsTagLenOf_eq_min, htag i hi hat]
  · rw [hfreq, hvalue (by omega) hat.tOpen]
  · exact hvalue (by omega) hat.fOpen
  · rw [hfreq, hvalue (by omega) hat.tStat]
  · exact hvalue (by omega) hat.fStat

end ConfigSection

/-! ### The section -/

/-- With exact subtraction the distance is the absolute value of the difference. -/
theorem ScanLib.df_eq_abs {lib : ScanLib} (hsub : ∀ a b, lib.sub a b = a - b) (fSys f : ℚ) :
    lib.df fSys f = |f - fSys| := by
  rw [df, hsub, hsub]
  split_ifs with hlt
  · exact (abs_of_pos (sub_pos.mpr hlt)).symm
  · rw [abs_of_nonpos (sub_nonpos.mpr (not_lt.mp hlt)), neg_sub]

/-- The section that is selected is the first one of the nearest. -/
theorem ConfigFile.firstNearest_of_closest {lib : ScanLib} (hsub : ∀ a b, lib.sub a b = a - b)
    {f : ConfigFile} {freq : ℚ} {s : ConfigSection} (h : f.closestOfAll lib freq = some s) :
    f.FirstNearest lib (lib.gHz freq) s := by
  obtain ⟨before, after, d, hsplit, hd, -, hbefore, hafter⟩ := closest_first h
  obtain ⟨x, hx, rfl⟩ := Option.map_eq_some_iff.mp hd
  have hdist (t : ConfigSection) (y : ℚ) (hy : lib.scanFloat t.freqText = some y) :
      (lib.scanFloat t.freqText).map (lib.df (lib.gHz freq)) = some |y - lib.gHz freq| := by
    rw [hy, Option.map_some, ScanLib.df_eq_abs hsub]
  rw [ScanLib.df_eq_abs hsub] at hbefore hafter
  exact ⟨before, after, x, hsplit, hx, fun t ht y hy => hbefore t ht _ (hdist t y hy),
    fun t ht y hy => hafter t ht _ (hdist t y hy)⟩

/-- Where the closest section is not cut, its records are read. -/
theorem ConfigFile.readConfigFile_of_closest {lib : ScanLib} {f : ConfigFile} {freq : ℚ}
    {junk : CStr} {start : ℕ} {s : ConfigSection}
    (h : f.closest lib freq junk = some (start, s)) :
    ∃ c, readConfigFile lib freq f.bytes junk = some (start, c) ∧ c.freq = freq ∧
      c.records = recordsOf lib s.items := by
  rw [readConfigFile, ConfigFile.scanConfig_of_closest h, Option.map_some]
  exact ⟨_, rfl, rfl, congrArg (recordsOf lib) s.take_items⟩

/-- **The format.** On a well-formed file that fits the buffer, for a CPU frequency less than
10 GHz from that of some section, `Read_Config` selects the first one of the nearest sections and
reads its records. -/
theorem readConfig_format {lib : ScanLib} (hsub : ∀ a b, lib.sub a b = a - b) {f : ConfigFile}
    (hlen : f.bytes.length < 8189) {freq : ℚ}
    (hnear : ∃ s ∈ f.sections, ∃ x, lib.scanFloat s.freqText = some x ∧
      |x - lib.gHz freq| < 10) (junk : CStr) (p : Proc) :
    ∃ start c s, readConfigFile lib freq f.bytes junk = some (start, c) ∧
      f.FirstNearest lib (lib.gHz freq) s ∧ Parsed lib freq s (readConfig p c) := by
  obtain ⟨t, ht, x, hx, hlt⟩ := hnear
  have hdist : (lib.scanFloat t.freqText).map (lib.df (lib.gHz freq)) =
      some |x - lib.gHz freq| := by
    rw [hx, Option.map_some, ScanLib.df_eq_abs hsub]
  obtain ⟨s, hs⟩ : ∃ s, f.closestOfAll lib freq = some s := closest_isSome ht hdist hlt
  have hall : (f.closest lib freq junk).map Prod.snd = some s :=
    (ConfigFile.closest_of_fits (by omega)).trans hs
  obtain ⟨⟨start, s'⟩, hclosest, rfl⟩ := Option.map_eq_some_iff.mp hall
  obtain ⟨c, hread, hfreq, hrecords⟩ := ConfigFile.readConfigFile_of_closest hclosest
  exact ⟨start, c, s', hread, ConfigFile.firstNearest_of_closest hsub hs,
    s'.parsed_readConfig lib freq p hfreq hrecords⟩

/-- At 3 GHz the two servers of the second section are read. -/
theorem readConfig_format_twoSections :
    (∃ start c s, readConfigFile wholeNumbers 3000000000 twoSections.bytes [] = some (start, c) ∧
        twoSections.FirstNearest wholeNumbers (wholeNumbers.gHz 3000000000) s ∧
        Parsed wholeNumbers 3000000000 s (readConfig Proc.start c)) ∧
      (readConfigFile wholeNumbers 3000000000 twoSections.bytes []).map
        (fun r => r.2.records.length) = some 2 :=
  ⟨readConfig_format (fun _ _ => rfl) (by decide +kernel)
    ⟨_, List.mem_cons_self, 2, by decide +kernel, by decide +kernel⟩ [] Proc.start,
    by decide +kernel⟩

end Ooops
