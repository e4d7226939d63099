import Ooops.ConfigFiles

/-!
# Agreement on the Configuration

The library and `set_io_param` scan eighty words of the section they select, which is eight
servers. `ooopsd` scans forty, so that it counts no more than four servers: of a fifth one it
neither sums nor reports anything. On a file that fits the buffer of the readers, they agree
exactly when there is a closest section and it has at most four records.

* `readersAgree_iff`: when the three readers agree, on a file of any size.
* `ConfigFile.closest_of_fits`: the closest section of a file that fits the buffer.
-/

open Basis

namespace Ooops

/-- The three readers select the same section of a file and count the same servers, and the
first two read the same values for each of them, whatever stands in memory behind the bytes
that each has read. -/
def ReadersAgree (lib : ScanLib) (freq : ℚ) (file : List UInt8) : Prop :=
  ∀ junk₁ junk₂ junk₃ : List UInt8, ∃ (start : ℕ) (c : Config) (param : FsIdx → ServerParam),
    readConfigFile lib freq file junk₁ = some (start, c) ∧
    Tool.readDefaultParam lib freq file junk₂ = some (start, c.records.length, param) ∧
    Ooopsd.readDefaultParam lib freq file junk₃ = some (start, c.records.length) ∧
    ∀ i : FsIdx, i.val < c.records.length →
      (c.records[i.val]?).map FsRecord.param = some (param i)

/-- What the library then has in a process: the same maximum frequencies, and the thresholds in
ticks. -/
theorem readConfig_param (p : Proc) {c : Config} {i : FsIdx} {v : ServerParam}
    (h : (c.records[i.val]?).map FsRecord.param = some v) (op : Op) :
    (readConfig p c).maxFreq op i = v.maxFreq op ∧
      (readConfig p c).tThresholdInt64 op i = ticksOf c.freq (v.tThreshold op) := by
  obtain ⟨r, hr, rfl⟩ := Option.map_eq_some_iff.mp h
  simp only [readConfig, hr, Option.map_some, Option.getD_some, FsRecord.param, and_self]

/-- The number of servers that a reader with `nConv` conversions counts in a section. -/
theorem ConfigSection.length_take_items (s : ConfigSection) (nConv : ℕ) :
    (s.items.take nConv).length / 10 = min (nConv / 10) s.nRec := by
  rw [List.length_take, s.length_items]
  omega

namespace ConfigFile

variable {lib : ScanLib} {f : ConfigFile} {freq : ℚ} {junk : CStr}

/-- One of several sections is the closest whatever stands in memory, unless it is cut. -/
theorem closest_unique {start : ℕ} {s : ConfigSection}
    (h : ∀ junk, ∃ r, f.closest lib freq junk = some r)
    (h₀ : f.closest lib freq [] = some (start, s)) (junk : CStr) :
    f.closest lib freq junk = some (start, s) := by
  obtain ⟨whole, hwhole⟩ := seenIn_cases lib f.lead.length (8192 - f.lead.length) f.sections
  have hsame (junk : CStr) {r : ℕ × ConfigSection} (hr : f.closest lib freq junk = some r) :
      (nearest lib freq whole).bind (fun c => c.config.map fun s => (c.start, s)) = some r := by
    rw [closest, seen] at hr
    rcases hwhole junk with heq | ⟨c, hc, heq⟩
    · rwa [heq] at hr
    · rw [heq] at hr
      rcases nearest_concat lib freq whole c with htaken | hkept
      · rw [htaken, Option.bind_some, hc] at hr
        exact absurd hr.symm (Option.some_ne_none r)
      · rwa [hkept] at hr
  obtain ⟨r, hr⟩ := h junk
  rw [hr, ← hsame junk hr, hsame [] h₀]

/-- Readers that always come to an end find a closest section that is not cut. -/
theorem exists_closest {nConv : ℕ}
    (h : ∀ junk, ∃ r, scanConfig lib nConv freq f.bytes junk = some r) (junk : CStr) :
    ∃ r, f.closest lib freq junk = some r := by
  obtain ⟨r, hr⟩ := h junk
  obtain ⟨c, hnear, hcut⟩ := closest_of_scanConfig hr
  cases hconfig : c.config with
  | some s =>
      refine ⟨(c.start, s), ?_⟩
      rw [closest, hnear, Option.bind_some, hconfig, Option.map_some]
  | none =>
      -- a NUL behind the buffer does not complete the end tag
      obtain ⟨r₀, hr₀⟩ := h [0]
      obtain ⟨c₀, hnear₀, hcut₀⟩ := closest_of_scanConfig hr₀
      rw [(hcut hconfig).1 [0], hnear] at hnear₀
      obtain rfl : c = c₀ := Option.some.inj hnear₀
      exact absurd rfl (hcut₀ hconfig).2

/-- Of a file that fits the buffer all sections are seen. -/
theorem seenIn_of_fits (lib : ScanLib) (junk : CStr) (i : ℕ) {n : ℕ} {ss : List ConfigSection}
    (h : (ss.flatMap ConfigSection.bytes).length ≤ n) :
    List.Forall₂ (fun c s => c.freq = lib.scanFloat s.freqText ∧ c.config = some s)
      (seenIn lib junk i n ss) ss := by
  induction ss generalizing i n with
  | nil => exact .nil
  | cons s ss ih =>
      rw [List.flatMap_cons, List.length_append] at h
      have hwhole : s.opening.length + 4 ≤ s.bytes.length := by
        simp only [ConfigSection.bytes, s.closing_eq, ConfigSection.tail, List.length_append,
          List.length_cons]
        omega
      rw [seenIn_of_whole ss (by omega)]
      exact .cons ⟨rfl, rfl⟩ (ih _ (by omega))

/-- The closest one of all sections of a file. -/
def closestOfAll (lib : ScanLib) (f : ConfigFile) (freq : ℚ) : Option ConfigSection :=
  Basis.closest (fun s => (lib.scanFloat s.freqText).map (lib.df (lib.gHz freq))) 10 f.sections

/-- The closest section is one of the file, less than 10 GHz away, and no other one is closer. -/
theorem closestOfAll_le {s : ConfigSection} (h : f.closestOfAll lib freq = some s) :
    s ∈ f.sections ∧ ∃ x, lib.scanFloat s.freqText = some x ∧ lib.df (lib.gHz freq) x < 10 ∧
      ∀ t ∈ f.sections, ∀ y, lib.scanFloat t.freqText = some y →
        lib.df (lib.gHz freq) x ≤ lib.df (lib.gHz freq) y := by
  obtain ⟨hs, d, hd, hlt, hle⟩ := closest_le h
  obtain ⟨x, hx, rfl⟩ := Option.map_eq_some_iff.mp hd
  exact ⟨hs, x, hx, hlt, fun t ht y hy => hle t ht _ (congrArg (Option.map _) hy)⟩

/-- In a file that fits the buffer, the closest section is the closest one of all. -/
theorem closest_of_fits (h : f.bytes.length ≤ 8192) :
    (f.closest lib freq junk).map Prod.snd = f.closestOfAll lib freq := by
  rw [bytes, List.length_append] at h
  have hseen := seenIn_of_fits lib junk f.lead.length
    (by omega : (f.sections.flatMap ConfigSection.bytes).length ≤ 8192 - f.lead.length)
  have hrel : Option.Rel (fun (c : Candidate) s => c.config = some s)
      (nearest lib freq (f.seen lib junk)) (f.closestOfAll lib freq) :=
    closest_rel (hseen.imp fun _ _ hc => ⟨congrArg (Option.map _) hc.1, hc.2⟩)
  rw [closest]
  generalize nearest lib freq (f.seen lib junk) = near at hrel
  generalize f.closestOfAll lib freq = all at hrel ⊢
  cases hrel with
  | none => rfl
  | some hc => rw [Option.bind_some, hc, Option.map_some, Option.map_some]

end ConfigFile

/-- **Agreement of the readers.** The readers agree on a file exactly when there is a section
that is the closest one whatever stands in memory behind the buffer, and it has at most four
records. -/
theorem readersAgree_iff (lib : ScanLib) (f : ConfigFile) (freq : ℚ) :
    ReadersAgree lib freq f.bytes ↔ ∃ start s,
      s.nRec ≤ 4 ∧ ∀ junk, f.closest lib freq junk = some (start, s) := by
  constructor
  · intro h
    have hend (junk : CStr) : ∃ r, scanConfig lib 80 freq f.bytes junk = some r := by
      obtain ⟨start, c, param, hlib, -⟩ := h junk junk junk
      obtain ⟨r, hr, -⟩ := Option.map_eq_some_iff.mp hlib
      exact ⟨r, hr⟩
    have hclosest := ConfigFile.exists_closest hend
    obtain ⟨⟨start, s⟩, h₀⟩ := hclosest []
    have hall := ConfigFile.closest_unique hclosest h₀
    refine ⟨start, s, ?_, hall⟩
    obtain ⟨_, c, param, hlib, -, hserver, -⟩ := h [] [] []
    rw [readConfigFile, ConfigFile.scanConfig_of_closest h₀, Option.map_some,
      Option.some.injEq, Prod.mk.injEq] at hlib
    rw [Ooopsd.readDefaultParam, ConfigFile.scanConfig_of_closest h₀, Option.map_some,
      Option.some.injEq, Prod.mk.injEq] at hserver
    have hcount := hserver.2
    rw [← hlib.2] at hcount
    change _ = (recordsOf lib (s.items.take 80)).length at hcount
    rw [length_recordsOf, s.length_take_items, s.length_take_items] at hcount
    have hmax := s.nRec_le
    omega
  · rintro ⟨start, s, hfour, h⟩ junk₁ junk₂ junk₃
    have hmax := s.nRec_le
    have hlen : (recordsOf lib (s.items.take 80)).length = s.nRec := by
      rw [length_recordsOf, s.length_take_items]
      omega
    refine ⟨start, ⟨freq, recordsOf lib (s.items.take 80), by omega⟩, fun i =>
      (((recordsOf lib (s.items.take 80))[i.val]?).map FsRecord.param).getD (Tool.start.param i),
      ?_, ?_, ?_, fun i hi => ?_⟩
    · rw [readConfigFile, ConfigFile.scanConfig_of_closest (h junk₁), Option.map_some]
    · rw [Tool.readDefaultParam, ConfigFile.scanConfig_of_closest (h junk₂), Option.map_some,
        length_recordsOf]
    · rw [Ooopsd.readDefaultParam, ConfigFile.scanConfig_of_closest (h junk₃), Option.map_some,
        hlen, s.length_take_items]
      congr 2
      omega
    · have hget : (recordsOf lib (s.items.take 80))[i.val]? = some _ :=
        List.getElem?_eq_getElem hi
      simp only [hget, Option.map_some, Option.getD_some]

/-! ### Files -/

/-- Reading whole numbers, with exact arithmetic. -/
def wholeNumbers : ScanLib where
  scanFloat s := if s.head?.any isDigit then some (digitsVal s : ℚ) else none
  atof s := digitsVal s
  sub := (· - ·)
  gHz f := f * 0.000000001
  scanFloat_stop text rest h := by
    cases text with
    | nil => rfl
    | cons c text =>
        rw [digitsVal_append_cons (by decide)]
        rfl

/-- A word on a line of its own. -/
def lineOf (text : CStr) (h : text ≠ [] ∧
    (∀ c ∈ text, isSpace c = false ∧ c ≠ 0 ∧ c ≠ 60) ∧ text.length < 64) : ConfigWord where
  text := text
  gap := [10]
  text_ne_nil := h.1
  text_plain := h.2.1
  text_short := h.2.2
  gap_ne_nil := List.cons_ne_nil _ _
  gap_space := List.forall_mem_singleton.mpr rfl

/-- The record of one server. -/
def scratchRecord : List ConfigWord :=
  (["FILE_SYS_TAG", "/scratch", "T_THRESHOLD_OPEN", "468", "MAX_OPEN_FREQ", "1000",
    "T_THRESHOLD_LXSTAT", "247", "MAX_STAT_FREQ", "2000"].map bytesOf).pmap lineOf
      (by decide +kernel)

/-- A section with the records of `n` servers. -/
def scratchSection (freqText : CStr) (hplain : ∀ c ∈ freqText, c ≠ 10 ∧ c ≠ 60 ∧ c ≠ 62) (n : ℕ)
    (h : 0 < n ∧ n ≤ 8) : ConfigSection where
  freqText := freqText
  headRest := []
  margin := [10]
  words := (List.replicate n scratchRecord).flatten
  gap := [10]
  nRec := n
  freqText_plain := hplain
  headRest_plain := nofun
  margin_space := List.forall_mem_singleton.mpr rfl
  length_words := by
    rw [List.length_flatten, List.map_replicate, List.sum_replicate]
    exact Nat.mul_comm n 10
  nRec_pos := h.1
  nRec_le := h.2
  gap_plain := by decide +kernel

/-- A file with one section, for 3 GHz, with the records of `n` servers. -/
def scratchFile (n : ℕ) (h : 0 < n ∧ n ≤ 8) : ConfigFile where
  lead := []
  sections := [scratchSection (bytesOf "3") (by decide +kernel) n h]
  lead_plain := nofun
  sections_ne_nil := List.cons_ne_nil _ _
  length_le := Nat.le_of_ble_eq_true rfl

/-- A file with a section of one server for 2 GHz and one of two servers for 3 GHz. -/
def twoSections : ConfigFile where
  lead := []
  sections :=
    [scratchSection (bytesOf "2") (by decide +kernel) 1 (by decide),
      scratchSection (bytesOf "3") (by decide +kernel) 2 (by decide)]
  lead_plain := nofun
  sections_ne_nil := List.cons_ne_nil _ _
  length_le := Nat.le_of_ble_eq_true rfl

/-- Of five servers `ooopsd` counts four. -/
theorem five_servers_disagree :
    ¬ReadersAgree wholeNumbers 3000000000 (scratchFile 5 (by decide)).bytes := by
  intro h
  obtain ⟨start, c, param, hlib, -, hserver, -⟩ := h [] [] []
  have hfive : (readConfigFile wholeNumbers 3000000000 (scratchFile 5 (by decide)).bytes []).map
      (fun r => r.2.records.length) = some 5 := by
    decide +kernel
  have hfour : (Ooopsd.readDefaultParam wholeNumbers 3000000000
      (scratchFile 5 (by decide)).bytes []).map Prod.snd = some 4 := by
    decide +kernel
  rw [hlib] at hfive
  rw [hserver] at hfour
  have hle : c.records.length = 5 := Option.some.inj hfive
  have hge : c.records.length = 4 := Option.some.inj hfour
  omega

end Ooops
