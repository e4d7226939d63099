import Ooops.ConfigReaders

/-!
# Configuration Files

A well-formed configuration file is a list of sections `<freq F> … </freq>` with the records of
the servers between the tags (`ConfigFile`), and `ConfigFile.bytes` is its text. This module
follows the readers over such a text.

A file longer than the buffer is cut. `ConfigFile.seen` says which sections a reader finds: those
of which the buffer holds at least the first bytes of the end tag, and one that is cut, which
does not end for the reader and whose frequency may depend on what stands in memory behind the
buffer.

* `ConfigFile.located_seen`: the tags that are found in the text are those of the sections that
  are seen.
* `ConfigSection.scan_region`: the words scanned in a section are its words, as many as there
  are conversions.
* `ConfigFile.scanConfig_of_closest`: what a reader makes of a file whose closest section is not
  cut.
-/

open Basis

namespace Ooops

/-! ### Well-formed files -/

/-- A key or a value, with the white space behind it. -/
structure ConfigWord where
  text : CStr
  gap : CStr
  text_ne_nil : text ≠ []
  text_plain : ∀ c ∈ text, isSpace c = false ∧ c ≠ 0 ∧ c ≠ 60
  text_short : text.length < 64
  gap_ne_nil : gap ≠ []
  gap_space : ∀ c ∈ gap, isSpace c = true

/-- A section: `<freq `, the frequency, `>`, the rest of the line, the words of the records with
white space around them, `</freq>`, and what stands before the next section. -/
structure ConfigSection where
  freqText : CStr
  headRest : CStr
  margin : CStr
  words : List ConfigWord
  gap : CStr
  nRec : ℕ
  freqText_plain : ∀ c ∈ freqText, c ≠ 10 ∧ c ≠ 60 ∧ c ≠ 62
  headRest_plain : ∀ c ∈ headRest, c ≠ 10 ∧ c ≠ 60
  margin_space : ∀ c ∈ margin, isSpace c = true
  length_words : words.length = 10 * nRec
  nRec_pos : 0 < nRec
  nRec_le : nRec ≤ 8
  gap_plain : 60 ∉ gap

/-- A configuration file: up to four sections, and what stands before the first one. -/
structure ConfigFile where
  lead : CStr
  sections : List ConfigSection
  lead_plain : 60 ∉ lead
  sections_ne_nil : sections ≠ []
  length_le : sections.length ≤ 4

namespace ConfigSection

/-- The lines between the tags. -/
def body (s : ConfigSection) : CStr := s.margin ++ s.words.flatMap fun w => w.text ++ w.gap

/-- The line of the start tag, behind its first six bytes. -/
def head (s : ConfigSection) : CStr := s.freqText ++ 62 :: s.headRest

/-- The section up to its end tag. -/
def opening (s : ConfigSection) : CStr :=
  [60, 102, 114, 101, 113, 32] ++ (s.head ++ 10 :: s.body)

/-- The end tag and what follows. -/
def closing (s : ConfigSection) : CStr := [60, 47, 102, 114, 101, 113, 62] ++ s.gap

/-- The text of the section. -/
def bytes (s : ConfigSection) : CStr := s.opening ++ s.closing

end ConfigSection

/-- The text of the file. -/
def ConfigFile.bytes (f : ConfigFile) : CStr :=
  f.lead ++ f.sections.flatMap ConfigSection.bytes

/-! ### What a reader sees of it -/

/-- A section that a reader finds: its position, the section, `none` if it is cut before its end
tag, and its frequency. -/
structure Candidate where
  start : ℕ
  config : Option ConfigSection
  freq : Option ℚ

/-- The sections that are found in the first `n` bytes of a text at position `i`. -/
def seenIn (lib : ScanLib) (junk : List UInt8) : ℕ → ℕ → List ConfigSection → List Candidate
  | _, _, [] => []
  | i, n, s :: ss =>
      if s.opening.length + 4 ≤ n then
        ⟨i, some s, lib.scanFloat s.freqText⟩ ::
          seenIn lib junk (i + s.bytes.length) (n - s.bytes.length) ss
      else if s.bytes.take n ≠ [] ∧ anyTag (s.bytes.take n ++ junk) = true then
        [⟨i, none, lib.scanFloat ((s.bytes.take n ++ junk).drop 6)⟩]
      else []

/-- The sections that a reader finds in a file, before the bytes `junk` in memory. -/
def ConfigFile.seen (lib : ScanLib) (f : ConfigFile) (junk : List UInt8) : List Candidate :=
  seenIn lib junk f.lead.length (8192 - f.lead.length) f.sections

/-- The candidate whose frequency is the closest to that of the CPU. -/
def nearest (lib : ScanLib) (freq : ℚ) (cs : List Candidate) : Option Candidate :=
  closest (fun c => c.freq.map (lib.df (lib.gHz freq))) 10 cs

/-- One more candidate at the end is taken, or it changes nothing. -/
theorem nearest_concat (lib : ScanLib) (freq : ℚ) (cs : List Candidate) (c : Candidate) :
    nearest lib freq (cs ++ [c]) = some c ∨ nearest lib freq (cs ++ [c]) = nearest lib freq cs :=
  closestFrom_concat cs c

/-- The section whose frequency is the closest to that of the CPU, with its position, if it is
closer than 10 GHz and not cut. -/
def ConfigFile.closest (lib : ScanLib) (f : ConfigFile) (freq : ℚ) (junk : List UInt8) :
    Option (ℕ × ConfigSection) :=
  (nearest lib freq (f.seen lib junk)).bind fun c => c.config.map fun s => (c.start, s)

/-! ### The text of a section -/

namespace ConfigSection

variable (s : ConfigSection)

/-- The words of a section, as they are scanned. -/
def items : List Word := s.words.map fun w => ⟨w.text, w.text_ne_nil⟩

theorem length_items : s.items.length = 10 * s.nRec := by
  rw [items, List.length_map, s.length_words]

/-- White space is neither the end of a string nor the start of a tag. -/
theorem plain_of_space {c : UInt8} (h : isSpace c = true) : c ≠ 0 ∧ c ≠ 60 := by
  constructor <;> rintro rfl <;> exact absurd h (by decide)

theorem plain_of_mem_body {c : UInt8} (h : c ∈ s.body) : c ≠ 0 ∧ c ≠ 60 := by
  rcases List.mem_append.mp h with hc | hc
  · exact plain_of_space (s.margin_space c hc)
  · obtain ⟨w, -, hw⟩ := List.mem_flatMap.mp hc
    rcases List.mem_append.mp hw with hc | hc
    · exact (w.text_plain c hc).2
    · exact plain_of_space (w.gap_space c hc)

/-- The words of the lines between the tags. -/
theorem words_body : Basis.words s.body = s.items := by
  rw [body, words_append_space s.margin_space, items]
  induction s.words with
  | nil => rfl
  | cons w ws ih =>
      rw [List.flatMap_cons, List.map_cons, List.append_assoc,
        words_cons w.text_ne_nil (fun c hc => (w.text_plain c hc).1) w.gap_ne_nil w.gap_space, ih]

/-- The lines between the tags end with white space. -/
theorem body_eq_concat : ∃ x c, s.body = x ++ [c] ∧ isSpace c = true := by
  have hne : s.words ≠ [] := by
    rw [← List.length_pos_iff, s.length_words]
    have := s.nRec_pos
    omega
  obtain ⟨ws, w, hws⟩ := (List.eq_nil_or_concat s.words).resolve_left hne
  obtain ⟨g, c, hg⟩ := (List.eq_nil_or_concat w.gap).resolve_left w.gap_ne_nil
  rw [List.concat_eq_append] at hws hg
  refine ⟨s.margin ++ ((ws.flatMap fun w => w.text ++ w.gap) ++ (w.text ++ g)), c, ?_, ?_⟩
  · simp only [body, hws, hg, List.flatMap_append, List.flatMap_cons, List.flatMap_nil,
      List.append_assoc, List.append_nil]
  · exact w.gap_space c (hg ▸ List.mem_append_right _ List.mem_cons_self)

/-- What stands in front of the end tag, without the first byte. -/
def inner : CStr := [102, 114, 101, 113, 32] ++ (s.head ++ 10 :: s.body)

theorem opening_eq : s.opening = 60 :: s.inner := rfl

theorem not_mem_inner : 60 ∉ s.inner := by
  intro h
  rcases List.mem_append.mp h with hc | hc
  · exact absurd hc (by decide)
  rcases List.mem_append.mp hc with hc | hc
  · rcases List.mem_append.mp hc with hc | hc
    · exact (s.freqText_plain 60 hc).2.1 rfl
    · rcases List.mem_cons.mp hc with hc | hc
      · exact absurd hc (by decide)
      · exact (s.headRest_plain 60 hc).2 rfl
  · rcases List.mem_cons.mp hc with hc | hc
    · exact absurd hc (by decide)
    · exact (s.plain_of_mem_body hc).2 rfl

theorem not_mem_head : 10 ∉ s.head := by
  intro h
  rcases List.mem_append.mp h with hc | hc
  · exact (s.freqText_plain 10 hc).1 rfl
  · rcases List.mem_cons.mp hc with hc | hc
    · exact absurd hc (by decide)
    · exact (s.headRest_plain 10 hc).1 rfl

/-- The frequency is read from behind the start of the tag. -/
theorem scanFloat_head (lib : ScanLib) (y : CStr) :
    lib.scanFloat (s.head ++ y) = lib.scanFloat s.freqText := by
  rw [head, List.append_assoc, List.cons_append]
  exact lib.scanFloat_stop _ _ fun h => (s.freqText_plain 62 h).2.2 rfl

/-- What follows the first byte of the end tag. -/
def tail : CStr := [47, 102, 114, 101, 113, 62] ++ s.gap

theorem closing_eq : s.closing = 60 :: s.tail := rfl

theorem not_mem_tail : 60 ∉ s.tail := by
  intro h
  rcases List.mem_append.mp h with hc | hc
  · exact absurd hc (by decide)
  · exact s.gap_plain hc

/-! ### The tags of a section -/

theorem anyTag_opening (y : CStr) : anyTag (60 :: (s.inner ++ y)) = true := by
  have htag : isTag tagStart (60 :: 102 :: 114 :: 101 ::
      (113 :: 32 :: (s.head ++ 10 :: s.body) ++ y)) = true := by
    simp [isTag, tagStart]
  exact Bool.or_eq_true_iff.mpr (.inl htag)

theorem anyTag_closing {k : ℕ} (hk : 3 ≤ k) (y : CStr) :
    anyTag (60 :: (s.tail.take k ++ y)) = true := by
  obtain ⟨k, rfl⟩ := Nat.exists_eq_add_of_le' hk
  have htag : isTag tagEnd (60 :: 47 :: 102 :: 114 :: ((101 :: 113 :: 62 :: s.gap).take k ++ y)) =
      true := by
    simp [isTag, tagEnd]
  exact Bool.or_eq_true_iff.mpr (.inr htag)

/-- An end tag that is cut does not become one by a NUL behind it. -/
theorem not_anyTag_closing {k : ℕ} (hk : k < 3) (y : CStr) :
    ¬anyTag (60 :: (s.tail.take k ++ 0 :: y)) = true := by
  match k, hk with
  | 0, _ | 1, _ | 2, _ =>
    simp only [anyTag, isTag, tail, tagStart, tagEnd, List.cons_append, List.take_succ_cons,
      List.take_zero, List.nil_append, ofLE_cons, Bool.or_eq_true, beq_iff_eq]
    have h60 : (60 : UInt8).toNat = 60 := rfl
    have h0 : (0 : UInt8).toNat = 0 := rfl
    have h47 : (47 : UInt8).toNat = 47 := rfl
    have h102 : (102 : UInt8).toNat = 102 := rfl
    rw [h60, h0]
    omega

/-- The first bytes of a text that starts with the section, from which the start of the end tag
is not cut off. -/
theorem take_bytes {n : ℕ} (h : s.opening.length < n) (more : CStr) :
    (s.bytes ++ more).take n = 60 :: (s.inner ++ 60 ::
      (s.tail.take (n - s.opening.length - 1) ++ more.take (n - s.bytes.length))) := by
  obtain ⟨k, rfl⟩ := Nat.exists_eq_add_of_lt h
  have hrest : s.opening.length + k + 1 - s.bytes.length = k - s.tail.length := by
    simp only [bytes, closing_eq, List.length_append, List.length_cons]
    omega
  have hk : s.opening.length + k + 1 - s.opening.length = k + 1 := by omega
  rw [hrest, hk, bytes, List.append_assoc, closing_eq, Nat.add_assoc, List.take_length_add_append,
    List.cons_append, List.take_succ_cons, List.take_append, opening_eq]
  rfl

/-- The tags that are found in the first bytes of such a text. -/
theorem marks_bytes {n : ℕ} (h : s.opening.length < n) (i : ℕ) (more junk : CStr) :
    marksFrom anyTag i ((s.bytes ++ more).take n).length ((s.bytes ++ more).take n ++ junk) =
      i :: (if anyTag (60 :: (s.tail.take (n - s.opening.length - 1) ++
            (more.take (n - s.bytes.length) ++ junk))) = true then
          (i + s.opening.length) :: marksFrom anyTag
            (i + s.opening.length + ((s.tail.take (n - s.opening.length - 1)).length + 1))
            (more.take (n - s.bytes.length)).length (more.take (n - s.bytes.length) ++ junk)
        else marksFrom anyTag
            (i + s.opening.length + ((s.tail.take (n - s.opening.length - 1)).length + 1))
            (more.take (n - s.bytes.length)).length
            (more.take (n - s.bytes.length) ++ junk)) := by
  have htail : 60 ∉ s.tail.take (n - s.opening.length - 1) := fun hm =>
    s.not_mem_tail (List.mem_of_mem_take hm)
  generalize hx : s.tail.take (n - s.opening.length - 1) = x at htail
  generalize hr : more.take (n - s.bytes.length) = r
  have hlen : (60 :: (s.inner ++ 60 :: (x ++ r))).length =
      s.inner.length + 1 + (x.length + 1 + r.length) := by
    simp only [List.length_cons, List.length_append]
    omega
  have hopen : s.opening.length = s.inner.length + 1 := by
    rw [opening_eq, List.length_cons]
  rw [s.take_bytes h, hx, hr, hlen, List.cons_append, List.append_assoc, List.cons_append,
    List.append_assoc, marksFrom_lt s.not_mem_inner, if_pos (s.anyTag_opening _),
    marksFrom_lt htail, hopen]

/-! ### Reading a section -/

/-- The end of the line of the start tag is found. -/
theorem pUse_eq (pre rest : CStr) :
    pUse (pre ++ (s.opening ++ rest)) pre.length = some (pre.length + 6 + s.head.length + 1) := by
  have hdrop : (pre ++ (s.opening ++ rest)).drop (pre.length + 6) =
      s.head ++ 10 :: (s.body ++ rest) := by
    rw [List.drop_append, List.drop_eq_nil_of_le (Nat.le_add_right _ _), List.nil_append,
      Nat.add_sub_cancel_left, opening, List.append_assoc, List.append_assoc, List.cons_append]
    rfl
  have hhead : s.head.findIdx? (· == 10) = none := by
    rw [List.findIdx?_eq_none_iff]
    intro c hc
    exact beq_false_of_ne fun h => s.not_mem_head (h ▸ hc)
  rw [pUse, hdrop, List.findIdx?_append, hhead, Option.none_or, List.findIdx?_cons]
  simp

/-- Between the positions that a reader uses stand the lines of the section, the last white
space replaced by the end of the string. -/
theorem cstrOf_region (pre rest : CStr) {x : CStr} {c : UInt8} (hbody : s.body = x ++ [c]) :
    cstrOf (((pre ++ (s.opening ++ rest)).set (pre.length + s.opening.length - 1) 0).drop
      (pre.length + 6 + s.head.length + 1)) = x := by
  have hsplit : pre ++ (s.opening ++ rest) =
      (pre ++ [60, 102, 114, 101, 113, 32] ++ s.head ++ [10]) ++ (x ++ c :: rest) := by
    simp only [opening, hbody, List.append_assoc, List.cons_append, List.nil_append]
  have hlen : (pre ++ [60, 102, 114, 101, 113, 32] ++ s.head ++ [10]).length =
      pre.length + 6 + s.head.length + 1 := by
    simp only [List.length_append, List.length_cons, List.length_nil]
  have hstop : pre.length + s.opening.length - 1 =
      pre.length + 6 + s.head.length + 1 + x.length := by
    simp only [opening, hbody, List.length_append, List.length_cons, List.length_nil]
    omega
  have hplain : 0 ∉ x := fun hd =>
    (s.plain_of_mem_body (hbody ▸ List.mem_append_left _ hd)).1 rfl
  rw [hsplit, hstop, ← hlen, List.set_append_right _ _ (Nat.le_add_right _ _),
    Nat.add_sub_cancel_left, List.drop_left, List.set_append_right _ _ (Nat.le_refl _),
    Nat.sub_self, List.set_cons_zero, cstrOf_append_zero hplain]

/-- The words scanned in a section are its words, as many as there are conversions. -/
theorem scan_region (nConv : ℕ) (pre rest : CStr) :
    (pUse (pre ++ (s.opening ++ rest)) pre.length).bind (fun p =>
      scanWords nConv 64 (cstrOf (((pre ++ (s.opening ++ rest)).set
        (pre.length + s.opening.length - 1) 0).drop p))) =
      some ⟨s.items.take nConv, List.length_take_le _ _⟩ := by
  obtain ⟨x, c, hbody, hc⟩ := s.body_eq_concat
  have hwords : Basis.words x = s.items := by
    rw [← s.words_body, hbody, words_concat_space hc]
  have hshort : ∀ w ∈ Basis.words x, w.val.length < 64 := by
    intro w hw
    rw [hwords, items, List.mem_map] at hw
    obtain ⟨v, -, rfl⟩ := hw
    exact v.text_short
  rw [s.pUse_eq, Option.bind_some, s.cstrOf_region pre rest hbody, scanWords_eq hshort]
  simp only [hwords]

end ConfigSection

/-! ### What is found is what is seen -/

theorem seenIn_zero (lib : ScanLib) (junk : List UInt8) (i : ℕ) (ss : List ConfigSection) :
    seenIn lib junk i 0 ss = [] := by
  cases ss with
  | nil => rfl
  | cons s ss => simp [seenIn]

theorem seenIn_of_whole {lib : ScanLib} {junk : List UInt8} {i n : ℕ} {s : ConfigSection}
    (ss : List ConfigSection) (h : s.opening.length + 4 ≤ n) :
    seenIn lib junk i n (s :: ss) = ⟨i, some s, lib.scanFloat s.freqText⟩ ::
      seenIn lib junk (i + s.bytes.length) (n - s.bytes.length) ss :=
  if_pos h

/-- At most one section is cut, the last one, and only that depends on what stands in memory
behind the bytes of the file. -/
theorem seenIn_cases (lib : ScanLib) (i n : ℕ) (ss : List ConfigSection) :
    ∃ whole : List Candidate, ∀ junk, seenIn lib junk i n ss = whole ∨
      ∃ c : Candidate, c.config = none ∧ seenIn lib junk i n ss = whole ++ [c] := by
  induction ss generalizing i n with
  | nil => exact ⟨[], fun _ => .inl rfl⟩
  | cons s ss ih =>
      by_cases h : s.opening.length + 4 ≤ n
      · obtain ⟨whole, hwhole⟩ := ih (i + s.bytes.length) (n - s.bytes.length)
        refine ⟨⟨i, some s, lib.scanFloat s.freqText⟩ :: whole, fun junk => ?_⟩
        rw [seenIn_of_whole ss h]
        rcases hwhole junk with heq | ⟨c, hc, heq⟩
        · exact .inl (heq ▸ rfl)
        · exact .inr ⟨c, hc, heq ▸ rfl⟩
      · refine ⟨[], fun junk => ?_⟩
        rw [seenIn, if_neg h]
        split_ifs
        · exact .inr ⟨_, rfl, rfl⟩
        · exact .inl rfl

/-- An entry of `PosList` with the one behind it, and the section that it belongs to. That what
is seen does not depend on the memory behind the buffer is the statement `fixed`. -/
structure Located (lib : ScanLib) (szBuff junk : List UInt8) (fixed : Prop) (e : ℕ × Option ℕ)
    (c : Candidate) : Prop where
  start : e.1 = c.start
  freq : lib.scanFloat (szBuff.drop (e.1 + 6)) = c.freq
  whole : ∀ s, c.config = some s → ∃ pre rest, szBuff = pre ++ (s.opening ++ rest) ∧
    pre.length = c.start ∧ e.2 = some (c.start + s.opening.length)
  cut : c.config = none → e.2 = none ∨ (fixed ∧ junk.head? ≠ some 0)

theorem Located.imp {lib : ScanLib} {szBuff junk : List UInt8} {p q : Prop} {e : ℕ × Option ℕ}
    {c : Candidate} (h : Located lib szBuff junk p e c) (hpq : p → q) :
    Located lib szBuff junk q e c where
  start := h.start
  freq := h.freq
  whole := h.whole
  cut := fun hc => (h.cut hc).imp_right fun hp => ⟨hpq hp.1, hp.2⟩

/-- The frequency of a section is read in the buffer, however it goes on behind the line of the
start tag. -/
theorem ConfigSection.scanFloat_buffer (lib : ScanLib) (s : ConfigSection) (pre rest : CStr) :
    lib.scanFloat ((pre ++ (60 :: (s.inner ++ rest))).drop (pre.length + 6)) =
      lib.scanFloat s.freqText := by
  have hdrop : (pre ++ (60 :: (s.inner ++ rest))).drop (pre.length + 6) =
      s.head ++ (10 :: s.body ++ rest) := by
    rw [List.drop_append, List.drop_eq_nil_of_le (Nat.le_add_right _ _), List.nil_append,
      Nat.add_sub_cancel_left, inner, List.append_assoc, List.append_assoc]
    rfl
  rw [hdrop, s.scanFloat_head]

/-- In the first `n` bytes of the sections, read into a buffer behind `pre`, the tags that are
found are those of the sections that are seen. -/
def Found (lib : ScanLib) (junk pre : CStr) (n : ℕ) (ss : List ConfigSection) : Prop :=
  List.Forall₂
    (Located lib (pre ++ ((ss.flatMap ConfigSection.bytes).take n ++ junk)) junk
      (∀ junk', seenIn lib junk' pre.length n ss = seenIn lib junk pre.length n ss))
    (everyOther (marksFrom anyTag pre.length ((ss.flatMap ConfigSection.bytes).take n).length
      ((ss.flatMap ConfigSection.bytes).take n ++ junk)))
    (seenIn lib junk pre.length n ss)

section Found

variable {lib : ScanLib} {junk pre : CStr} {n : ℕ} {s : ConfigSection} {ss : List ConfigSection}

theorem Found.zero : Found lib junk pre 0 ss := by
  rw [Found, seenIn_zero, List.take_zero, List.length_nil, marksFrom_zero]
  exact .nil

/-- A section that the buffer holds, the end tag as far as it is looked at. -/
theorem Found.cons_whole (h : s.opening.length + 4 ≤ n)
    (ih : Found lib junk (pre ++ s.bytes) (n - s.bytes.length) ss) :
    Found lib junk pre n (s :: ss) := by
  have hlt : s.opening.length < n := by omega
  have htag := s.anyTag_closing (by omega : 3 ≤ n - s.opening.length - 1)
    ((ss.flatMap ConfigSection.bytes).take (n - s.bytes.length) ++ junk)
  rw [Found, List.flatMap_cons, s.marks_bytes hlt, if_pos htag, everyOther, seenIn_of_whole ss h]
  refine .cons ⟨rfl, ?_, ?_, nofun⟩ ?_
  · rw [s.take_bytes hlt, List.cons_append, List.append_assoc]
    exact s.scanFloat_buffer lib pre _
  · intro t ht
    obtain rfl : s = t := Option.some.inj ht
    obtain ⟨rest, hrest⟩ : ∃ rest, (s.bytes ++ ss.flatMap ConfigSection.bytes).take n ++ junk =
        s.opening ++ rest := by
      rw [s.take_bytes hlt, s.opening_eq]
      exact ⟨_, congrArg _ (List.append_assoc _ _ _)⟩
    exact ⟨pre, rest, hrest ▸ rfl, rfl, rfl⟩
  · by_cases hfull : s.bytes.length ≤ n
    · have hpre : (pre ++ s.bytes).length = pre.length + s.bytes.length := List.length_append
      have hpos : pre.length + s.opening.length +
          ((s.tail.take (n - s.opening.length - 1)).length + 1) =
          (pre ++ s.bytes).length := by
        simp only [ConfigSection.bytes, s.closing_eq, List.length_append, List.length_cons,
          List.length_take] at hfull ⊢
        omega
      have hbuf : pre ++ ((s.bytes ++ ss.flatMap ConfigSection.bytes).take n ++ junk) =
          pre ++ s.bytes ++
            ((ss.flatMap ConfigSection.bytes).take (n - s.bytes.length) ++ junk) := by
        rw [List.take_append, List.take_of_length_le hfull, List.append_assoc, List.append_assoc]
      rw [hpos, hbuf, ← hpre]
      refine List.Forall₂.imp (fun e c hloc => hloc.imp fun hfix junk' => ?_) ih
      rw [seenIn_of_whole ss h, ← hpre, hfix junk']
    · have hzero : n - s.bytes.length = 0 := by omega
      rw [hzero, seenIn_zero, List.take_zero, List.length_nil, marksFrom_zero]
      exact .nil

/-- A section that is cut in its end tag. -/
theorem Found.cons_closing (hlt : s.opening.length < n) (h : n < s.opening.length + 4) :
    Found lib junk pre n (s :: ss) := by
  have hzero : n - s.bytes.length = 0 := by
    simp only [ConfigSection.bytes, s.closing_eq, ConfigSection.tail, List.length_append,
      List.length_cons]
    omega
  have hseen (junk' : CStr) : seenIn lib junk' pre.length n (s :: ss) =
      [⟨pre.length, none, lib.scanFloat s.freqText⟩] := by
    have htake := s.take_bytes hlt []
    rw [List.append_nil, List.take_nil, List.append_nil] at htake
    have hfreq := s.scanFloat_buffer lib []
      (60 :: s.tail.take (n - s.opening.length - 1) ++ junk')
    rw [seenIn, if_neg (by omega), htake, List.cons_append, List.append_assoc,
      if_pos ⟨by simp, s.anyTag_opening _⟩]
    exact congrArg (fun q => [(⟨pre.length, none, q⟩ : Candidate)]) hfreq
  have hfreq := s.scanFloat_buffer lib pre
      (60 :: s.tail.take (n - s.opening.length - 1) ++ junk)
  rw [Found, hseen junk, List.flatMap_cons, s.marks_bytes hlt, s.take_bytes hlt, hzero,
    List.take_zero, List.length_nil, marksFrom_zero, List.append_nil, List.cons_append,
    List.append_assoc]
  split_ifs with htag
  · refine .cons ⟨rfl, hfreq, nofun, fun _ => .inr ⟨hseen, fun hhead => ?_⟩⟩ .nil
    obtain ⟨y, rfl⟩ := List.head?_eq_some_iff.mp hhead
    exact s.not_anyTag_closing (by omega) y htag
  · exact .cons ⟨rfl, hfreq, nofun, fun _ => .inl rfl⟩ .nil

/-- A section that is cut before its end tag. -/
theorem Found.cons_opening (h : n ≤ s.opening.length) : Found lib junk pre n (s :: ss) := by
  cases n with
  | zero => exact .zero
  | succ k =>
      have hcut : s.bytes.take (k + 1) = 60 :: s.inner.take k := by
        rw [ConfigSection.bytes, List.take_append_of_le_length h, s.opening_eq, List.take_succ_cons]
      have htake : ((s :: ss).flatMap ConfigSection.bytes).take (k + 1) = 60 :: s.inner.take k := by
        rw [List.flatMap_cons, List.take_append_of_le_length, hcut]
        rw [ConfigSection.bytes, List.length_append]
        omega
      have hinner : 60 ∉ s.inner.take k := fun hm => s.not_mem_inner (List.mem_of_mem_take hm)
      have hmarks := marksFrom_lt hinner pre.length 0 junk
      rw [marksFrom_zero, Nat.add_zero] at hmarks
      rw [Found, htake, List.length_cons, List.cons_append, hmarks, seenIn, if_neg (by omega), hcut]
      by_cases htag : anyTag (60 :: (s.inner.take k ++ junk)) = true
      · rw [if_pos htag, if_pos ⟨by simp, htag⟩]
        refine .cons ⟨rfl, ?_, nofun, fun _ => .inl rfl⟩ .nil
        rw [List.drop_append, List.drop_eq_nil_of_le (Nat.le_add_right _ _), List.nil_append,
          Nat.add_sub_cancel_left, List.cons_append]
      · rw [if_neg htag, if_neg fun hc => htag hc.2]
        exact .nil

/-- The tags that are found are those of the sections that are seen. -/
theorem found (lib : ScanLib) (junk pre : CStr) (n : ℕ) (ss : List ConfigSection) :
    Found lib junk pre n ss := by
  induction ss generalizing pre n with
  | nil =>
      rw [Found, List.flatMap_nil, List.take_nil, List.length_nil, marksFrom_zero]
      exact .nil
  | cons s ss ih =>
      rcases Nat.lt_or_ge n (s.opening.length + 4) with h | h
      · rcases Nat.lt_or_ge s.opening.length n with hlt | hle
        · exact .cons_closing hlt h
        · exact .cons_opening hle
      · exact .cons_whole h (ih _ _)

end Found

/-! ### The readers on a file -/

theorem length_seenIn_le (lib : ScanLib) (junk : CStr) (i n : ℕ) (ss : List ConfigSection) :
    (seenIn lib junk i n ss).length ≤ ss.length := by
  induction ss generalizing i n with
  | nil => exact Nat.le_refl _
  | cons s ss ih =>
      rw [seenIn]
      split_ifs
      · exact Nat.succ_le_succ (ih _ _)
      · exact Nat.succ_le_succ (Nat.zero_le _)
      · exact Nat.zero_le _

/-- Every other entry of `PosList` is visited. -/
theorem length_everyOther (l : List ℕ) : (everyOther l).length = (l.length + 1) / 2 := by
  induction l using everyOther.induct with
  | case1 => rfl
  | case2 => simp [everyOther]
  | case3 s e ps ih =>
      simp only [everyOther, List.length_cons, ih]
      omega

namespace ConfigFile

variable (f : ConfigFile) (lib : ScanLib) (freq : ℚ) (junk : CStr)

/-- The buffer of a reader, and the memory behind the bytes that it has read. -/
def buffer : List UInt8 := f.bytes.take 8192 ++ junk

/-- The tags that are found in the buffer are those of the sections that are seen. -/
theorem located_seen :
    List.Forall₂
      (Located lib (f.buffer junk) junk (∀ junk', f.seen lib junk' = f.seen lib junk))
      (everyOther (posList (f.bytes.take 8192).length (f.buffer junk))) (f.seen lib junk) := by
  have htake : f.bytes.take 8192 = f.lead.take 8192 ++
      (f.sections.flatMap ConfigSection.bytes).take (8192 - f.lead.length) := List.take_append
  have hlead : 60 ∉ f.lead.take 8192 := fun hm => f.lead_plain (List.mem_of_mem_take hm)
  rw [buffer, posList, htake, List.length_append, List.append_assoc, marksFrom_plain hlead,
    Nat.zero_add, seen]
  by_cases hle : f.lead.length ≤ 8192
  · rw [List.take_of_length_le hle]
    exact found lib junk f.lead (8192 - f.lead.length) f.sections
  · have hzero : 8192 - f.lead.length = 0 := by omega
    rw [hzero, seenIn_zero, List.take_zero, List.length_nil, marksFrom_zero]
    exact .nil

/-- `PosList` has room for the tags of a file. -/
theorem length_posList_le (lib : ScanLib) :
    (posList (f.bytes.take 8192).length (f.buffer junk)).length ≤ 8 := by
  have hlen := (f.located_seen lib junk).length_eq
  have htwo := length_everyOther (posList (f.bytes.take 8192).length (f.buffer junk))
  have hseen : (f.seen lib junk).length ≤ f.sections.length := length_seenIn_le ..
  have hfour := f.length_le
  omega

/-- The readers select what is nearest among what is seen. -/
theorem configUse_rel :
    Option.Rel (Located lib (f.buffer junk) junk (∀ junk', f.seen lib junk' = f.seen lib junk))
      (configUse lib (lib.gHz freq) (f.buffer junk)
        (posList (f.bytes.take 8192).length (f.buffer junk)))
      (nearest lib freq (f.seen lib junk)) :=
  closest_rel
    ((f.located_seen lib junk).imp fun _ _ hloc => ⟨congrArg (Option.map _) hloc.freq, hloc⟩)

variable {lib f freq junk}

/-- Where the closest section is not cut, a reader selects it and scans its words. -/
theorem scanConfig_of_closest {start : ℕ} {s : ConfigSection}
    (h : f.closest lib freq junk = some (start, s)) (nConv : ℕ) :
    scanConfig lib nConv freq f.bytes junk =
      some (start, ⟨s.items.take nConv, List.length_take_le _ _⟩) := by
  obtain ⟨c, hc, hmap⟩ := Option.bind_eq_some_iff.mp h
  obtain ⟨t, ht, hpair⟩ := Option.map_eq_some_iff.mp hmap
  obtain ⟨rfl, rfl⟩ := Prod.mk.inj hpair
  have hrel := f.configUse_rel lib freq junk
  rw [hc] at hrel
  generalize huse : configUse lib (lib.gHz freq) (f.buffer junk)
    (posList (f.bytes.take 8192).length (f.buffer junk)) = use at hrel
  cases hrel with
  | @some e _ hloc =>
      obtain ⟨pre, rest, hbuf, hpre, hstop⟩ := hloc.whole t ht
      obtain ⟨start, stop⟩ := e
      obtain rfl : start = c.start := hloc.start
      obtain rfl : stop = some (c.start + t.opening.length) := hstop
      have hregion := t.scan_region nConv pre rest
      rw [hpre, ← hbuf] at hregion
      obtain ⟨p, hp, hscan⟩ := Option.bind_eq_some_iff.mp hregion
      rw [scanConfig_of_use (f.length_posList_le junk lib) huse]
      exact Option.bind_eq_some_iff.mpr ⟨p, hp, Option.map_eq_some_iff.mpr ⟨_, hscan, rfl⟩⟩

/-- Where a reader comes to an end, the closest section is not cut, or it is cut in its end tag
and the memory behind the buffer completes the tag. -/
theorem closest_of_scanConfig {nConv : ℕ} {r : ℕ × { items : List Word // items.length ≤ nConv }}
    (h : scanConfig lib nConv freq f.bytes junk = some r) :
    ∃ c, nearest lib freq (f.seen lib junk) = some c ∧
      (c.config = none → (∀ junk', f.seen lib junk' = f.seen lib junk) ∧ junk.head? ≠ some 0) := by
  obtain ⟨start, stop, huse⟩ := use_of_scanConfig h
  have hrel := f.configUse_rel lib freq junk
  rw [buffer, huse] at hrel
  generalize hnear : nearest lib freq (f.seen lib junk) = near at hrel
  cases hrel with
  | @some _ c hloc => exact ⟨c, rfl, fun hc => (hloc.cut hc).resolve_left nofun⟩

end ConfigFile

end Ooops
