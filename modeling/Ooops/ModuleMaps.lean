import Mathlib.Data.List.TakeWhile
import Ooops.Basis.Hex
import Ooops.Basis.Intervals
import Ooops.Basis.Scan
import Ooops.HookTable

/-!
# The Map of the Memory

`get_module_maps` reads `/proc/<pid>/maps`, a line for each range of addresses, with the name of
the file in it from column 73 on. It merges ranges that touch each other, and enters every name
that `query_lib_name_in_list` does not find with the address its range begins at. The line of
the stack ends the list, as does a full table, and the name on the last line is not read.

## Main results

* `getModuleMaps_mapsText`: what is read of a text of such lines.
* `segments_exact`: the segments are the runs of the ranges before the stack.
* `libList_complete_iff`: exactly when every name is entered with its own base address.
-/

open Basis

namespace Ooops

/-! ### The scan -/

/-- `get_position_of_next_line`. No result stands for `-1`. -/
def getPositionOfNextLine (buff : List UInt8) (posStart maxBuffSize : ℕ) : Option ℕ :=
  match ((buff.take maxBuffSize).drop posStart).findIdx? (· == 10) with
  | none => none
  | some k => if maxBuffSize ≤ posStart + k + 1 then none else some (posStart + k + 1)

/-- `sscanf` with `%lx-%lx`. -/
def scanRange (s : CStr) : Option ℕ × Option ℕ :=
  match scanLx s with
  | none => (none, none)
  | some (b, 45 :: t) => (some b, (scanLx t).map Prod.fst)
  | some (b, _) => (some b, none)

/-- A new range, merged with the last one where they touch. -/
def pushSeg (segs : List (ℕ × ℕ)) (addrB addrE : ℕ) : List (ℕ × ℕ) :=
  match segs.getLast? with
  | some last =>
      if addrB = last.2 then segs.dropLast ++ [(last.1, addrE)] else segs ++ [(addrB, addrE)]
  | none => segs ++ [(addrB, addrE)]

/-- What has been read so far: the two lists, and the variable `addr_B`. -/
structure MapsScan where
  addrB : ℕ := 0
  maps : Maps := ⟨[], []⟩

/-- The addresses at the beginning of a line. -/
def MapsScan.readRange (line : CStr) (s : MapsScan) : MapsScan :=
  match scanRange line with
  | (some b, some e) => ⟨b, { s.maps with segs := pushSeg s.maps.segs b e }⟩
  | (b, _) => { s with addrB := b.getD s.addrB }

/-- What a name on a line does, and whether the lines after it are read: `[stack]` takes its
range back and ends the list, and a name that is not found is entered. -/
def Maps.meet (m : Maps) (libName : CStr) (addrB : ℕ) : Maps × Bool :=
  if strncmpEq libName (bytesOf "[stack]") 7 then ({ m with segs := m.segs.dropLast }, false)
  else if queryLibNameInList m.libs libName = none then
    let libs := m.libs ++ [(libName, addrB)]
    ({ m with libs }, decide (libs.length < 256))
  else (m, true)

/-- One line of the text at `iPos`: what has been read then, and where the next line begins, if
it is read. No result stands for a name that does not fit `szLibName`. -/
def mapsRound (szBuf : List UInt8) (iPos : ℕ) (s : MapsScan) :
    Option (MapsScan × Option ℕ) :=
  let s := s.readRange (cstrOf (szBuf.drop iPos))
  match getPositionOfNextLine szBuf (iPos + 38) szBuf.length with
  | none => some (s, none)
  | some next => do
      let (maps, go) ←
        if 73 < next - iPos then do
          let items ← scanWords 1 256 (cstrOf (szBuf.drop (iPos + 73)))
          match items.val with
          | [] => some (s.maps, true)
          | w :: _ => some (s.maps.meet w.val s.addrB)
        else some (s.maps, true)
      some ({ s with maps }, if go = true ∧ maps.segs.length < 2048 then some next else none)

/-- The loop over the lines. No result stands for a loop that needs more rounds. -/
def mapsLoop (szBuf : List UInt8) : ℕ → ℕ → MapsScan → Option Maps
  | 0, _, _ => none
  | fuel + 1, iPos, s =>
      match mapsRound szBuf iPos s with
      | none => none
      | some (s, none) => some s.maps
      | some (s, some next) => mapsLoop szBuf fuel next s

/-- `get_module_maps` on the contents of the file. The text is terminated inside of `szBuf` only
if it is shorter than `MAX_MAP_SIZE`; a line takes 39 bytes, so there are fewer rounds than
bytes. -/
def getModuleMaps (file : List UInt8) : Option Maps :=
  if 524288 ≤ file.length then none else mapsLoop file (file.length + 1) 0 {}

/-! ### The text -/

/-- A line of the map: the range, the columns from the permissions to the inode, and the name,
empty where there is none. -/
structure MapsLine where
  addrB : ℕ
  addrE : ℕ
  cols : CStr
  name : CStr
  lt : addrB < addrE
  addrE_lt : addrE < 2 ^ 64
  cols_head : cols.head? = some 32
  cols_clean : ∀ c ∈ cols, c ≠ 0 ∧ c ≠ 10
  name_clean : ∀ c ∈ name, c ≠ 0 ∧ c ≠ 10
  name_head : ∀ c ∈ name.head?, isSpace c = false
  name_lt : name.length < 256
  long : name = [] → 38 ≤ (hexPad addrB ++ 45 :: hexPad addrE ++ cols).length
  short : (hexPad addrB ++ 45 :: hexPad addrE ++ cols).length ≤ 72

/-- The line up to the name. -/
def MapsLine.head (l : MapsLine) : CStr := hexPad l.addrB ++ 45 :: hexPad l.addrE ++ l.cols

/-- The line without its end: a name stands at column 73. -/
def MapsLine.body (l : MapsLine) : CStr :=
  if l.name = [] then l.head else l.head ++ List.replicate (73 - l.head.length) 32 ++ l.name

/-- The text of a map. -/
def mapsText (lines : List MapsLine) : List UInt8 := lines.flatMap fun l => l.body ++ [10]

def MapsLine.range (l : MapsLine) : ℕ × ℕ := (l.addrB, l.addrE)

/-- The part of a name that `sscanf` reads. -/
def MapsLine.word (l : MapsLine) : CStr := l.name.takeWhile fun c => !isSpace c

/-- What a line does: its range is entered, and its name where it has one. -/
def MapsLine.read (l : MapsLine) (m : Maps) : Maps × Bool :=
  let m := { m with segs := pushSeg m.segs l.addrB l.addrE }
  if l.name = [] then (m, true) else m.meet l.word l.addrB

/-- `get_module_maps` on the lines of a map. -/
def scanLines : List MapsLine → Maps → Maps
  | [], m => m
  | [l], m => { m with segs := pushSeg m.segs l.addrB l.addrE }
  | l :: l' :: ls, m =>
      if (l.read m).2 = true ∧ (l.read m).1.segs.length < 2048 then
        scanLines (l' :: ls) (l.read m).1
      else (l.read m).1

theorem head_clean (l : MapsLine) : ∀ c ∈ l.head, c ≠ 0 ∧ c ≠ 10 := by
  have hdigit : ∀ n, ∀ c ∈ hexPad n, c ≠ 0 ∧ c ≠ 10 := by
    intro n c hc
    have hd := isXDigit_of_mem_hexPad hc
    refine ⟨?_, ?_⟩ <;> rintro rfl <;> cases hd
  intro c hc
  simp only [MapsLine.head, List.mem_append, List.mem_cons] at hc
  rcases hc with (hc | rfl | hc) | hc
  · exact hdigit _ c hc
  · decide
  · exact hdigit _ c hc
  · exact l.cols_clean c hc

theorem body_clean (l : MapsLine) : ∀ c ∈ l.body, c ≠ 0 ∧ c ≠ 10 := by
  intro c hc
  rw [MapsLine.body] at hc
  split_ifs at hc
  · exact head_clean l c hc
  · simp only [List.mem_append, List.mem_replicate] at hc
    rcases hc with (hc | ⟨-, rfl⟩) | hc
    · exact head_clean l c hc
    · decide
    · exact l.name_clean c hc

theorem zero_not_mem_mapsText (lines : List MapsLine) : 0 ∉ mapsText lines := by
  intro hc
  obtain ⟨l, -, hc⟩ := List.mem_flatMap.mp hc
  rcases List.mem_append.mp hc with hc | hc
  · exact (body_clean l 0 hc).1 rfl
  · exact absurd hc (by decide)

theorem mapsText_cons (l : MapsLine) (ls : List MapsLine) :
    mapsText (l :: ls) = l.body ++ 10 :: mapsText ls := by
  rw [mapsText, List.flatMap_cons, List.append_assoc]
  rfl

/-- Where the body of a line ends, and that the name is at column 73. -/
theorem body_length (l : MapsLine) :
    38 ≤ l.body.length ∧ (l.name = [] → l.body.length ≤ 72) ∧
      (l.name ≠ [] → 73 < l.body.length ∧ l.body.drop 73 = l.name) := by
  have hshort : l.head.length ≤ 72 := l.short
  by_cases hname : l.name = []
  · rw [MapsLine.body, if_pos hname]
    exact ⟨l.long hname, fun _ => hshort, fun h => absurd hname h⟩
  · have hpos := List.length_pos_iff.mpr hname
    have hcol : (l.head ++ List.replicate (73 - l.head.length) 32).length = 73 := by
      rw [List.length_append, List.length_replicate]
      omega
    rw [MapsLine.body, if_neg hname, List.length_append, hcol]
    exact ⟨by omega, fun h => absurd h hname, fun _ =>
      ⟨by omega, List.drop_left' hcol⟩⟩

/-! ### Reading the text -/

/-- The addresses are read where a line begins. -/
theorem scanRange_body (l : MapsLine) (rest : List UInt8) :
    scanRange (l.body ++ rest) = (some l.addrB, some l.addrE) := by
  have hB : l.addrB < 2 ^ 64 := l.lt.trans l.addrE_lt
  obtain ⟨cols, hcols⟩ : ∃ cols, l.cols = 32 :: cols :=
    ⟨_, List.eq_cons_of_mem_head? l.cols_head⟩
  obtain ⟨t, ht⟩ : ∃ t,
      l.body ++ rest = hexPad l.addrB ++ 45 :: (hexPad l.addrE ++ 32 :: t) := by
    rw [MapsLine.body]
    split_ifs
    · exact ⟨cols ++ rest, by
        simp only [MapsLine.head, hcols, List.append_assoc, List.cons_append]⟩
    · exact ⟨cols ++ (List.replicate (73 - l.head.length) 32 ++ (l.name ++ rest)), by
        simp only [MapsLine.head, hcols, List.append_assoc, List.cons_append]⟩
  have hfirst := scanLx_hexPad hB (c := 45) rfl (hexPad l.addrE ++ 32 :: t)
  have hsecond := scanLx_hexPad l.addrE_lt (c := 32) rfl t
  rw [ht, scanRange, hfirst]
  simp only [hsecond, Option.map_some]

/-- The next line begins behind the end of this one. -/
theorem getPositionOfNextLine_body (pre : List UInt8) (l : MapsLine) (ls : List MapsLine) :
    getPositionOfNextLine (pre ++ mapsText (l :: ls)) (pre.length + 38)
        (pre ++ mapsText (l :: ls)).length =
      if ls = [] then none else some (pre.length + l.body.length + 1) := by
  obtain ⟨hlong, -⟩ := body_length l
  have hdrop : (pre ++ mapsText (l :: ls)).drop (pre.length + 38) =
      l.body.drop 38 ++ 10 :: mapsText ls := by
    rw [List.drop_append, List.drop_eq_nil_of_le (by omega), List.nil_append,
      Nat.add_sub_cancel_left, mapsText_cons, List.drop_append_of_le_length hlong]
  have hfind : (l.body.drop 38 ++ 10 :: mapsText ls).findIdx? (· == 10) =
      some (l.body.length - 38) := by
    have hnone : (l.body.drop 38).findIdx? (· == 10) = none := by
      rw [List.findIdx?_eq_none_iff]
      exact fun c hc => beq_eq_false_iff_ne.mpr (body_clean l c (List.mem_of_mem_drop hc)).2
    rw [List.findIdx?_append, hnone, List.findIdx?_cons]
    simp
  have hlen : (pre ++ mapsText (l :: ls)).length =
      pre.length + l.body.length + 1 + (mapsText ls).length := by
    rw [mapsText_cons, List.length_append, List.length_append, List.length_cons]
    omega
  rw [getPositionOfNextLine, List.take_length, hdrop, hfind]
  cases ls with
  | nil =>
      rw [if_pos rfl]
      refine if_pos ?_
      rw [hlen, mapsText, List.flatMap_nil, List.length_nil]
      omega
  | cons l' ls =>
      have hpos : 0 < (mapsText (l' :: ls)).length := by
        rw [mapsText_cons, List.length_append, List.length_cons]
        omega
      rw [if_neg (List.cons_ne_nil _ _)]
      refine (if_neg ?_).trans ?_
      · rw [hlen]
        omega
      · congr 1
        omega

theorem word_ne_nil {l : MapsLine} (h : l.name ≠ []) : l.word ≠ [] := by
  obtain ⟨c, t, hname⟩ := List.exists_cons_of_ne_nil h
  have hc := l.name_head c (by rw [hname]; rfl)
  rw [MapsLine.word, hname, List.takeWhile_cons_of_pos (by rw [hc]; rfl)]
  exact List.cons_ne_nil _ _

/-- The first word of the name is read. -/
theorem scanWords_name {l : MapsLine} (h : l.name ≠ []) (rest : CStr) :
    scanWords 1 256 (l.name ++ 10 :: rest) =
      some ⟨[⟨l.word, word_ne_nil h⟩], Nat.le_refl 1⟩ := by
  have hclean : ∀ c ∈ l.word, isSpace c = false := by
    intro c hc
    have := List.mem_takeWhile_imp hc
    simpa using this
  obtain ⟨c, t, hc, hsplit⟩ : ∃ c t, isSpace c = true ∧
      l.name ++ 10 :: rest = l.word ++ ([c] ++ t) := by
    have hname : l.name = l.word ++ l.name.dropWhile fun c => !isSpace c :=
      List.takeWhile_append_dropWhile.symm
    cases hdrop : l.name.dropWhile fun c => !isSpace c with
    | nil =>
        rw [hdrop, List.append_nil] at hname
        exact ⟨10, rest, rfl, by rw [← hname]; rfl⟩
    | cons c t =>
        have hc := List.head?_dropWhile_not (fun c => !isSpace c) l.name
        rw [hdrop] at hc
        rw [hdrop] at hname
        refine ⟨c, t ++ 10 :: rest, by simpa using hc, ?_⟩
        conv_lhs => rw [hname]
        simp only [List.append_assoc, List.cons_append, List.nil_append]
  have hwords := words_cons (word_ne_nil h) hclean (List.cons_ne_nil c [])
    (List.forall_mem_singleton.mpr hc) t
  rw [← hsplit] at hwords
  have hfits : ∀ w ∈ (words (l.name ++ 10 :: rest)).take 1, w.val.length < 256 := by
    rw [hwords]
    refine List.forall_mem_singleton.mpr ?_
    exact lt_of_le_of_lt (List.takeWhile_sublist _).length_le l.name_lt
  refine (if_pos hfits).trans (congrArg some (Subtype.ext ?_))
  exact congrArg (List.take 1) hwords

theorem mapsRound_line (pre : List UInt8) (l : MapsLine) (ls : List MapsLine) (s : MapsScan) :
    mapsRound (pre ++ mapsText (l :: ls)) pre.length s =
      if ls = [] then
        some (⟨l.addrB, { s.maps with segs := pushSeg s.maps.segs l.addrB l.addrE }⟩, none)
      else
        some (⟨l.addrB, (l.read s.maps).1⟩,
          if (l.read s.maps).2 = true ∧ (l.read s.maps).1.segs.length < 2048 then
            some (pre.length + l.body.length + 1) else none) := by
  have htext : cstrOf ((pre ++ mapsText (l :: ls)).drop pre.length) = mapsText (l :: ls) := by
    rw [List.drop_left]
    exact cstrOf_eq_self (zero_not_mem_mapsText _)
  have hread : s.readRange (mapsText (l :: ls)) =
      ⟨l.addrB, { s.maps with segs := pushSeg s.maps.segs l.addrB l.addrE }⟩ := by
    rw [MapsScan.readRange, mapsText_cons, scanRange_body]
  rw [mapsRound]
  by_cases hls : ls = []
  · simp only [htext, hread, getPositionOfNextLine_body, if_pos hls]
  · simp only [htext, hread, getPositionOfNextLine_body, if_neg hls]
    obtain ⟨-, hunnamed, hnamed⟩ := body_length l
    have hdiff : pre.length + l.body.length + 1 - pre.length = l.body.length + 1 := by omega
    simp only [hdiff]
    by_cases hname : l.name = []
    · have hshort := hunnamed hname
      have hline : l.read s.maps =
          ({ s.maps with segs := pushSeg s.maps.segs l.addrB l.addrE }, true) := if_pos hname
      rw [if_neg (by omega), hline]
      rfl
    · obtain ⟨hlong, hcol⟩ := hnamed hname
      have hitem : scanWords 1 256
          (cstrOf ((pre ++ mapsText (l :: ls)).drop (pre.length + 73))) =
            some ⟨[⟨l.word, word_ne_nil hname⟩], Nat.le_refl 1⟩ := by
        rw [List.drop_length_add_append, cstrOf_eq_self fun hc =>
          zero_not_mem_mapsText _ (List.mem_of_mem_drop hc), mapsText_cons,
          List.drop_append_of_le_length (by omega), hcol, scanWords_name hname]
      rw [if_pos (by omega), hitem]
      simp only [MapsLine.read, if_neg hname]
      rfl

theorem mapsLoop_lines {lines : List MapsLine} (h : lines ≠ []) (pre : List UInt8) (s : MapsScan)
    {fuel : ℕ} (hfuel : lines.length ≤ fuel) :
    mapsLoop (pre ++ mapsText lines) fuel pre.length s = some (scanLines lines s.maps) := by
  induction lines generalizing pre s fuel with
  | nil => exact absurd rfl h
  | cons l ls ih =>
      obtain ⟨fuel, rfl⟩ : ∃ n, fuel = n + 1 := ⟨fuel - 1, by
        rw [List.length_cons] at hfuel
        omega⟩
      rw [mapsLoop, mapsRound_line]
      cases ls with
      | nil => rfl
      | cons l' ls =>
          rw [if_neg (List.cons_ne_nil _ _)]
          have hpre : pre ++ mapsText (l :: l' :: ls) =
              (pre ++ l.body ++ [10]) ++ mapsText (l' :: ls) := by
            rw [mapsText_cons l]
            simp only [List.append_assoc, List.cons_append, List.nil_append]
          have hlen : pre.length + l.body.length + 1 = (pre ++ l.body ++ [10]).length := by
            simp only [List.length_append, List.length_cons, List.length_nil]
          have hrest := ih (List.cons_ne_nil l' ls) (pre ++ l.body ++ [10])
            ⟨l.addrB, (l.read s.maps).1⟩ (Nat.le_of_succ_le_succ hfuel)
          rw [scanLines]
          split_ifs with hgo
          · simp only [hpre, hlen]
            exact hrest
          · rfl

theorem length_lines_le (lines : List MapsLine) : lines.length ≤ (mapsText lines).length := by
  induction lines with
  | nil => exact Nat.le_refl 0
  | cons l ls ih =>
      rw [mapsText_cons, List.length_append, List.length_cons, List.length_cons]
      omega

/-- **What is read of a map** is what its lines say. -/
theorem getModuleMaps_mapsText {lines : List MapsLine}
    (h : (mapsText lines).length < 524288) :
    getModuleMaps (mapsText lines) = some (scanLines lines ⟨[], []⟩) := by
  rw [getModuleMaps, if_neg (Nat.not_le.mpr h)]
  cases lines with
  | nil => rfl
  | cons l ls =>
      exact mapsLoop_lines (List.cons_ne_nil l ls) [] {}
        (Nat.le_succ_of_le (length_lines_le (l :: ls)))

/-! ### The segments -/

/-- A line of the stack. -/
def MapsLine.IsStack (l : MapsLine) : Prop := bytesOf "[stack]" <+: l.name

instance (l : MapsLine) : Decidable l.IsStack :=
  inferInstanceAs (Decidable (bytesOf "[stack]" <+: l.name))

theorem strncmp_stack_iff (l : MapsLine) :
    strncmpEq l.word (bytesOf "[stack]") 7 = true ↔ l.IsStack := by
  rw [strncmpEq_iff, MapsLine.IsStack]
  refine ⟨fun h => ?_, ?_⟩
  · have hpre : l.word.take 7 <+: l.name :=
      (List.take_prefix 7 _).trans (List.takeWhile_prefix _)
    rwa [h] at hpre
  · rintro ⟨t, ht⟩
    have hword : l.word = bytesOf "[stack]" ++ t.takeWhile fun c => !isSpace c := by
      rw [MapsLine.word, ← ht]
      rfl
    rw [hword]
    rfl

/-- A range is entered the way the runs grow. -/
theorem pushSeg_runs (rs : List (ℕ × ℕ)) (addrB addrE : ℕ) :
    pushSeg (runs rs) addrB addrE = runs (rs ++ [(addrB, addrE)]) := by
  have hlast := getLast?_runs rs
  rcases runs_concat rs (addrB, addrE) with ⟨pre, lo, h, h'⟩ | ⟨hne, h'⟩
  · rw [h, h', pushSeg, List.getLast?_concat]
    exact (if_pos rfl).trans (by rw [List.dropLast_concat])
  · rw [h', pushSeg]
    cases hend : (runs rs).getLast? with
    | none => rfl
    | some x =>
        refine if_neg fun heq => ?_
        rw [hend, Option.map_some] at hlast
        obtain ⟨y, hy, hxy⟩ := Option.map_eq_some_iff.mp hlast.symm
        exact hne y hy (hxy.trans heq.symm)

/-- The names that are not part of one that stands before them, with their lines. -/
def FreshName (done : List MapsLine) (l : MapsLine) : Prop :=
  ∃ pre post, done = pre ++ l :: post ∧ l.name ≠ [] ∧ ∀ m ∈ pre, ¬l.word <:+: m.word

/-- What has been read when the lines `done` have been. -/
structure Read (done : List MapsLine) (m : Maps) : Prop where
  segs : m.segs = runs (done.map MapsLine.range)
  libs : ∀ lib, lib ∈ m.libs ↔ ∃ l, FreshName done l ∧ lib = (l.word, l.addrB)
  nodup : (m.libs.map Prod.fst).Nodup

theorem read_nil : Read [] ⟨[], []⟩ := by
  refine ⟨rfl, fun lib => ?_, List.nodup_nil⟩
  refine iff_of_false List.not_mem_nil ?_
  rintro ⟨l, ⟨pre, post, h, -⟩, -⟩
  exact List.append_ne_nil_of_right_ne_nil _ (List.cons_ne_nil _ _) h.symm

theorem freshName_concat {done : List MapsLine} {l k : MapsLine} :
    FreshName (done ++ [l]) k ↔
      FreshName done k ∨ (k = l ∧ l.name ≠ [] ∧ ∀ m ∈ done, ¬l.word <:+: m.word) := by
  constructor
  · rintro ⟨pre, post, h, hk⟩
    rcases List.eq_nil_or_concat post with rfl | ⟨post', x, rfl⟩
    · obtain ⟨rfl, hkl⟩ := List.append_inj' h rfl
      obtain rfl := (List.cons.inj hkl).1
      exact Or.inr ⟨rfl, hk⟩
    · rw [List.concat_eq_append, ← List.cons_append, ← List.append_assoc] at h
      exact Or.inl ⟨pre, post', (List.append_inj' h rfl).1, hk⟩
  · rintro (⟨pre, post, rfl, hk⟩ | ⟨rfl, hk⟩)
    · exact ⟨pre, post ++ [l], by simp only [List.append_assoc, List.cons_append], hk⟩
    · exact ⟨done, [], rfl, hk⟩

/-- Every name is part of one that has been entered. -/
theorem Read.contained {done : List MapsLine} {m : Maps} (h : Read done m) {w : CStr}
    (hw : w ≠ []) {l : MapsLine} (hl : l ∈ done) (hin : w <:+: l.word) :
    ∃ lib ∈ m.libs, w <:+: lib.1 := by
  obtain ⟨k, pre, post, hdone, hk, hpre⟩ : ∃ k pre post, done = pre ++ k :: post ∧
      w <:+: k.word ∧ ∀ m ∈ pre, ¬w <:+: m.word := by
    cases hfind : done.find? fun k => decide (w <:+: k.word) with
    | none =>
        have hno := List.find?_eq_none.mp hfind l hl
        exact absurd (decide_eq_true hin) hno
    | some k =>
        obtain ⟨hk, pre, post, hdone, hpre⟩ := List.find?_eq_some_iff_append.mp hfind
        exact ⟨k, pre, post, hdone, of_decide_eq_true hk, fun m hm => by simpa using hpre m hm⟩
  have hname : k.name ≠ [] := by
    intro hnil
    rw [MapsLine.word, hnil, List.takeWhile_nil, List.infix_nil] at hk
    exact hw hk
  exact ⟨(k.word, k.addrB), (h.libs _).mpr ⟨k, ⟨pre, post, hdone, hname, fun m hm hkm =>
    hpre m hm (hk.trans hkm)⟩, rfl⟩, hk⟩

/-- A name is found when it is part of one that stands before it. -/
theorem Read.query_iff {done : List MapsLine} {m : Maps} (h : Read done m) {w : CStr}
    (hw : w ≠ []) :
    queryLibNameInList m.libs w = none ↔ ∀ l ∈ done, ¬w <:+: l.word := by
  have hquery : queryLibNameInList m.libs w = none ↔ ∀ lib ∈ m.libs, ¬w <:+: lib.1 := by
    rw [queryLibNameInList, Option.orElse_eq_orElse, Option.orElse_eq_or, Option.or_eq_none_iff,
      List.find?_eq_none, List.find?_eq_none]
    simp only [strstr_isSome_iff, beq_iff_eq]
    refine ⟨fun hno => hno.2, fun hno => ⟨fun lib hlib heq => ?_, hno⟩⟩
    exact hno lib hlib (heq ▸ List.infix_refl _)
  rw [hquery]
  constructor
  · intro hno l hl hin
    obtain ⟨lib, hlib, hin'⟩ := h.contained hw hl hin
    exact hno lib hlib hin'
  · intro hno lib hlib hin
    obtain ⟨l, ⟨pre, post, rfl, -⟩, rfl⟩ := (h.libs lib).mp hlib
    exact hno l (List.mem_append_right _ (List.mem_cons_self ..)) hin

/-- A line that is not of the stack is read with the others. -/
theorem Read.step {done : List MapsLine} {m : Maps} (h : Read done m) {l : MapsLine}
    (hl : ¬l.IsStack) : Read (done ++ [l]) (l.read m).1 := by
  have hsegs : pushSeg m.segs l.addrB l.addrE = runs ((done ++ [l]).map MapsLine.range) := by
    rw [h.segs, pushSeg_runs, List.map_append]
    rfl
  have hskip (hno : ¬(l.name ≠ [] ∧ ∀ k ∈ done, ¬l.word <:+: k.word)) :
      Read (done ++ [l]) { m with segs := pushSeg m.segs l.addrB l.addrE } := by
    refine ⟨hsegs, fun lib => ?_, h.nodup⟩
    rw [h.libs lib]
    refine exists_congr fun k => and_congr_left' ?_
    rw [freshName_concat]
    exact ⟨Or.inl, fun hk => hk.resolve_right fun hk => hno hk.2⟩
  by_cases hname : l.name = []
  · rw [MapsLine.read, if_pos hname]
    exact hskip fun hno => hno.1 hname
  · have hstack : ¬strncmpEq l.word (bytesOf "[stack]") 7 = true := fun hs =>
      hl ((strncmp_stack_iff l).mp hs)
    rw [MapsLine.read, if_neg hname, Maps.meet, if_neg hstack]
    by_cases hnew : queryLibNameInList m.libs l.word = none
    · rw [if_pos hnew]
      have hfresh := (h.query_iff (word_ne_nil hname)).mp hnew
      refine ⟨hsegs, fun lib => ?_, ?_⟩
      · rw [List.mem_append, h.libs lib, List.mem_singleton]
        constructor
        · rintro (⟨k, hk, rfl⟩ | rfl)
          · exact ⟨k, freshName_concat.mpr (Or.inl hk), rfl⟩
          · exact ⟨l, freshName_concat.mpr (Or.inr ⟨rfl, hname, hfresh⟩), rfl⟩
        · rintro ⟨k, hk, rfl⟩
          rcases freshName_concat.mp hk with hk | ⟨rfl, -⟩
          · exact Or.inl ⟨k, hk, rfl⟩
          · exact Or.inr rfl
      · rw [List.map_append]
        refine List.nodup_append'.mpr ⟨h.nodup, List.nodup_singleton _, ?_⟩
        rintro w hw hw'
        obtain rfl := List.mem_singleton.mp hw'
        obtain ⟨lib, hlib, hkey⟩ := List.mem_map.mp hw
        obtain ⟨k, ⟨pre, post, rfl, -⟩, rfl⟩ := (h.libs lib).mp hlib
        refine hfresh k (List.mem_append_right _ (List.mem_cons_self ..)) ?_
        exact (show k.word = l.word from hkey) ▸ List.infix_refl _
    · rw [if_neg hnew]
      exact hskip fun hno => hnew ((h.query_iff (word_ne_nil hname)).mpr hno.2)

/-- No more names are entered than there are. -/
theorem Read.length_libs_le {done : List MapsLine} {m : Maps} (h : Read done m)
    {W : Finset CStr} (hW : ∀ l ∈ done, l.name ≠ [] → l.word ∈ W) : m.libs.length ≤ W.card := by
  have hsub : (m.libs.map Prod.fst).toFinset ⊆ W := by
    intro w hw
    obtain ⟨lib, hlib, rfl⟩ := List.mem_map.mp (List.mem_toFinset.mp hw)
    obtain ⟨l, ⟨pre, post, rfl, hname, -⟩, rfl⟩ := (h.libs lib).mp hlib
    exact hW l (List.mem_append_right _ (List.mem_cons_self ..)) hname
  have hlen : (m.libs.map Prod.fst).length = m.libs.length := List.length_map _
  rw [← hlen, ← List.toFinset_card_of_nodup h.nodup]
  exact Finset.card_le_card hsub

/-- The lines after one that is not of the stack are read while there is room for a name. -/
theorem read_goes_on {l : MapsLine} {m : Maps} (hl : ¬l.IsStack)
    (h : (l.read m).1.libs.length < 256) : (l.read m).2 = true := by
  have hstack : ¬strncmpEq l.word (bytesOf "[stack]") 7 = true := fun hs =>
    hl ((strncmp_stack_iff l).mp hs)
  rw [MapsLine.read, Maps.meet, if_neg hstack] at h ⊢
  by_cases hname : l.name = []
  · rw [if_pos hname]
  · rw [if_neg hname] at h ⊢
    by_cases hnew : queryLibNameInList m.libs l.word = none
    · rw [if_pos hnew] at h ⊢
      exact decide_eq_true h
    · rw [if_neg hnew]

theorem scanLines_cons (l : MapsLine) {ls : List MapsLine} (h : ls ≠ []) (m : Maps) :
    scanLines (l :: ls) m =
      if (l.read m).2 = true ∧ (l.read m).1.segs.length < 2048 then scanLines ls (l.read m).1
      else (l.read m).1 := by
  obtain ⟨l', ls, rfl⟩ := List.exists_cons_of_ne_nil h
  rw [scanLines]

/-- Nothing is entered at the stack, and nothing after it. -/
theorem read_of_isStack {l : MapsLine} (hl : l.IsStack) (m : Maps) :
    l.read m = ({ m with segs := (pushSeg m.segs l.addrB l.addrE).dropLast }, false) := by
  have hname : l.name ≠ [] := by
    intro hnil
    rw [MapsLine.IsStack, hnil, List.prefix_nil] at hl
    cases hl
  rw [MapsLine.read, if_neg hname, Maps.meet, if_pos ((strncmp_stack_iff l).mpr hl)]

/-- At the stack, its range is taken back. -/
theorem read_stack {done : List MapsLine} {m : Maps} (h : Read done m) {l : MapsLine}
    (hl : l.IsStack) (hgap : ∀ k ∈ done.getLast?, k.addrE ≠ l.addrB) : l.read m = (m, false) := by
  have hpush : pushSeg m.segs l.addrB l.addrE = m.segs ++ [(l.addrB, l.addrE)] := by
    rw [h.segs, pushSeg_runs]
    rcases runs_concat (done.map MapsLine.range) (l.addrB, l.addrE) with
      ⟨pre, lo, hlast, -⟩ | ⟨-, hnew⟩
    · have hend := getLast?_runs (done.map MapsLine.range)
      rw [hlast, List.getLast?_concat, List.getLast?_map, Option.map_some] at hend
      obtain ⟨r, hr, hr'⟩ := Option.map_eq_some_iff.mp hend.symm
      obtain ⟨k, hk, rfl⟩ := Option.map_eq_some_iff.mp hr
      exact absurd hr' (hgap k hk)
    · exact hnew
  rw [read_of_isStack hl, hpush, List.dropLast_concat]

/-- The lines before the stack are all read, and nothing after it is. -/
theorem scanLines_stack {done before after : List MapsLine} {stack : MapsLine} {m : Maps}
    (h : Read done m) {W : Finset CStr} (hcard : W.card < 256)
    (hW : ∀ l ∈ done ++ before, l.name ≠ [] → l.word ∈ W)
    (hruns : (runs ((done ++ before).map MapsLine.range)).length ≤ 2047)
    (hbefore : ∀ l ∈ before, ¬l.IsStack) (hstack : stack.IsStack) (hafter : after ≠ [])
    (hgap : ∀ l ∈ (done ++ before).getLast?, l.addrE ≠ stack.addrB) :
    Read (done ++ before) (scanLines (before ++ stack :: after) m) := by
  induction before generalizing done m with
  | nil =>
      rw [List.append_nil] at hgap ⊢
      rw [List.nil_append, scanLines_cons stack hafter, read_stack h hstack hgap]
      exact h
  | cons l ls ih =>
      have hsplit : done ++ l :: ls = done ++ [l] ++ ls := List.append_cons done l ls
      rw [hsplit] at hW hruns hgap ⊢
      have hl := hbefore l (List.mem_cons_self ..)
      have hread := h.step hl
      have hlibs := hread.length_libs_le fun k hk => hW k (List.mem_append_left _ hk)
      have hle := length_runs_le_append ((done ++ [l]).map MapsLine.range)
        (ls.map MapsLine.range)
      rw [← List.map_append, ← hread.segs] at hle
      rw [List.cons_append,
        scanLines_cons l (List.append_ne_nil_of_right_ne_nil _ (List.cons_ne_nil _ _)),
        if_pos ⟨read_goes_on hl (by omega), by omega⟩]
      exact ih hread hW hruns (fun k hk => hbefore k (List.mem_cons_of_mem l hk)) hgap

/-- The names on lines. -/
def names (lines : List MapsLine) : List CStr :=
  (lines.map MapsLine.name).filter (· ≠ [])

/-- There are not more first words than names. -/
theorem exists_words (lines : List MapsLine) :
    ∃ W : Finset CStr, W.card ≤ (names lines).toFinset.card ∧
      ∀ l ∈ lines, l.name ≠ [] → l.word ∈ W := by
  refine ⟨(names lines).toFinset.image fun w => w.takeWhile fun c => !isSpace c,
    Finset.card_image_le, fun l hl hname => Finset.mem_image_of_mem _ ?_⟩
  rw [List.mem_toFinset, names, List.mem_filter]
  exact ⟨List.mem_map_of_mem hl, decide_eq_true hname⟩

/-- A line of code from one device. -/
def sampleLine (addrB addrE : ℕ) (name : CStr)
    (h : (addrB < addrE ∧ addrE < 2 ^ 64) ∧
      ((∀ c ∈ name, c ≠ 0 ∧ c ≠ 10) ∧ (∀ c ∈ name.head?, isSpace c = false) ∧
        name.length < 256) ∧
      38 ≤ (hexPad addrB ++ 45 :: hexPad addrE ++ bytesOf " r-xp 00000000 08:01 3932 ").length ∧
      (hexPad addrB ++ 45 :: hexPad addrE ++ bytesOf " r-xp 00000000 08:01 3932 ").length ≤ 72) :
    MapsLine where
  addrB := addrB
  addrE := addrE
  cols := bytesOf " r-xp 00000000 08:01 3932 "
  name := name
  lt := h.1.1
  addrE_lt := h.1.2
  cols_head := rfl
  cols_clean := by decide +kernel
  name_clean := h.2.1.1
  name_head := h.2.1.2.1
  name_lt := h.2.1.2.2
  long := fun _ => h.2.2.1
  short := h.2.2.2

/-- The program. -/
def progLine : MapsLine :=
  sampleLine 0x400000 0x401000 (bytesOf "/opt/run") (by decide +kernel)

/-- A library with a version in its name. -/
def versionLine : MapsLine :=
  sampleLine 0x7f0000000000 0x7f0000001000 (bytesOf "/opt/libfoo.so.1") (by decide +kernel)

/-- A library whose name is the beginning of that. -/
def plainLine : MapsLine :=
  sampleLine 0x7f0000001000 0x7f0000002000 (bytesOf "/opt/libfoo.so") (by decide +kernel)

/-- The stack. -/
def stackLine : MapsLine :=
  sampleLine 0x7ffc00000000 0x7ffc00021000 (bytesOf "[stack]") (by decide +kernel)

/-- The last line of a map. -/
def lastLine : MapsLine :=
  sampleLine 0xffffffffff600000 0xffffffffff601000 (bytesOf "[vsyscall]") (by decide +kernel)

/-- **The segments** are the runs of the ranges before the stack, in increasing order, with gaps
between them. -/
theorem segments_exact {before after : List MapsLine} {stack : MapsLine}
    (hincr : (before ++ stack :: after).Pairwise fun a b => a.addrE ≤ b.addrB)
    (hsize : (mapsText (before ++ stack :: after)).length < 524288)
    (hnames : (names (before ++ stack :: after)).toFinset.card < 256)
    (hruns : (runs (before.map MapsLine.range)).length ≤ 2047)
    (hbefore : ∀ l ∈ before, ¬l.IsStack) (hstack : stack.IsStack) (hafter : after ≠ [])
    (hgap : ∀ l ∈ before.getLast?, l.addrE ≠ stack.addrB) :
    ∃ maps, getModuleMaps (mapsText (before ++ stack :: after)) = some maps ∧
      maps.segs = runs (before.map MapsLine.range) ∧
      maps.segs.Pairwise (fun a b => a.2 < b.1) ∧
      ∀ x, (∃ s ∈ maps.segs, s.1 ≤ x ∧ x < s.2) ↔
        ∃ l ∈ before, l.addrB ≤ x ∧ x < l.addrE := by
  obtain ⟨W, hcard, hW⟩ := exists_words (before ++ stack :: after)
  have hread := scanLines_stack read_nil (hcard.trans_lt hnames)
    (fun l hl => hW l (List.mem_append_left _ hl)) hruns hbefore hstack hafter hgap
  have hsegs := hread.segs
  rw [List.nil_append] at hsegs
  refine ⟨_, getModuleMaps_mapsText hsize, hsegs, ?_, fun x => ?_⟩
  · rw [hsegs]
    refine runs_pairwise ?_ (List.pairwise_map.mpr (List.pairwise_append.mp hincr).1)
    rintro r hr
    obtain ⟨l, -, rfl⟩ := List.mem_map.mp hr
    exact l.lt
  · rw [hsegs, mem_runs_iff ?_ x]
    · simp only [List.mem_map, exists_exists_and_eq_and]
      exact Iff.rfl
    · rintro r hr
      obtain ⟨l, -, rfl⟩ := List.mem_map.mp hr
      exact l.lt.le

/-- Two libraries next to each other are one segment. -/
theorem segments_exact_libraries :
    ∃ maps, getModuleMaps
        (mapsText ([progLine, versionLine, plainLine] ++ stackLine :: [lastLine])) = some maps ∧
      maps.segs = [(0x400000, 0x401000), (0x7f0000000000, 0x7f0000002000)] := by
  obtain ⟨maps, hmaps, hsegs, -⟩ := @segments_exact
    [progLine, versionLine, plainLine] [lastLine] stackLine
    (by decide +kernel) (by decide +kernel) (by decide +kernel) (by decide +kernel)
    (by decide +kernel) (by decide +kernel) (List.cons_ne_nil _ _) (by decide +kernel)
  exact ⟨maps, hmaps, hsegs.trans (by decide +kernel)⟩

/-! ### The libraries -/

/-- The lines that count: those before the one of the stack, and before the last one. -/
def counted (lines : List MapsLine) : List MapsLine :=
  lines.dropLast.takeWhile fun l => !decide l.IsStack

/-- Every name on a line that counts is entered once, with the address of its first line, and is
found under that address. -/
def LibsComplete (lines : List MapsLine) (libs : List (CStr × ℕ)) : Prop :=
  ∀ name f, name ≠ [] → (counted lines).find? (fun l => l.name == name) = some f →
    libs.filter (fun lib => name == lib.1) = [(name, f.addrB)] ∧
      queryLibNameInList libs name = some (name, f.addrB)

/-- Where a name stands for the first time it is no part of one that stands before it, and fewer
than `MAX_NUM_SEG` segments have been found by then. -/
def NamesApart (lines : List MapsLine) : Prop :=
  ∀ pre l post, counted lines = pre ++ l :: post → l.name ≠ [] →
    (∀ k ∈ pre, k.name ≠ l.name) →
      (∀ k ∈ pre, ¬l.name <:+: k.name) ∧ (runs (pre.map MapsLine.range)).length < 2048

/-- Of the lines `ls` after those `done` the first ones are read, up to the one that fills the
list of segments, and `libs` are the libraries then. -/
def ReadsOn (done ls : List MapsLine) (libs : List (CStr × ℕ)) : Prop :=
  ∃ pre rest m, ls = pre ++ rest ∧ Read (done ++ pre) m ∧ libs = m.libs ∧
    (∀ p x q, pre = p ++ x :: q → (runs ((done ++ p).map MapsLine.range)).length < 2048) ∧
    (rest = [] ∨ 2048 ≤ (runs ((done ++ pre).map MapsLine.range)).length)

/-- There is no more line to read. -/
theorem Read.readsOn_nil {done : List MapsLine} {m : Maps} (h : Read done m) :
    ReadsOn done [] m.libs := by
  refine ⟨[], [], m, rfl, ?_, rfl, ?_, Or.inl rfl⟩
  · rwa [List.append_nil]
  · intro p x q hp
    cases p <;> cases hp

/-- The line that fills the list of segments is the last one. -/
theorem Read.readsOn_full {done : List MapsLine} {l : MapsLine} {m : Maps}
    (h : Read (done ++ [l]) m) (hroom : (runs (done.map MapsLine.range)).length < 2048)
    (hfull : 2048 ≤ (runs ((done ++ [l]).map MapsLine.range)).length) (ls : List MapsLine) :
    ReadsOn done (l :: ls) m.libs := by
  refine ⟨[l], ls, m, rfl, h, rfl, ?_, Or.inr hfull⟩
  intro p x q hp
  cases p with
  | nil => rwa [List.append_nil]
  | cons y p => cases p <;> cases (List.cons.inj hp).2

/-- After a line that does not fill it, the rest is read. -/
theorem ReadsOn.cons {done ls : List MapsLine} {l : MapsLine} {libs : List (CStr × ℕ)}
    (h : ReadsOn (done ++ [l]) ls libs)
    (hroom : (runs (done.map MapsLine.range)).length < 2048) : ReadsOn done (l :: ls) libs := by
  obtain ⟨pre, rest, m, rfl, hread, hlibs, hfew, hstop⟩ := h
  refine ⟨l :: pre, rest, m, rfl, ?_, hlibs, ?_, ?_⟩
  · rwa [List.append_cons]
  · intro p x q hp
    cases p with
    | nil => rwa [List.append_nil]
    | cons y p =>
        obtain ⟨rfl, htail⟩ := List.cons.inj hp
        have hless := hfew p x q htail
        rwa [List.append_cons]
  · rwa [List.append_cons]

/-- **The lines that count are read**, the first ones of them at least. -/
theorem scanLines_read {done lines : List MapsLine} {m : Maps} (h : Read done m)
    (hroom : (runs (done.map MapsLine.range)).length < 2048) {W : Finset CStr}
    (hcard : W.card < 256) (hW : ∀ l ∈ done ++ lines, l.name ≠ [] → l.word ∈ W) :
    ReadsOn done (counted lines) (scanLines lines m).libs := by
  induction lines generalizing done m with
  | nil => exact h.readsOn_nil
  | cons l ls ih =>
      cases ls with
      | nil => exact h.readsOn_nil
      | cons l' ls =>
          rw [scanLines_cons l (List.cons_ne_nil l' ls)]
          by_cases hl : l.IsStack
          · have hcounted : counted (l :: l' :: ls) = [] :=
              List.takeWhile_cons_of_neg (by rw [decide_eq_true hl]; simp)
            rw [read_of_isStack hl, if_neg fun hno => Bool.false_ne_true hno.1, hcounted]
            exact h.readsOn_nil
          · have hcounted : counted (l :: l' :: ls) = l :: counted (l' :: ls) :=
              List.takeWhile_cons_of_pos (by rw [decide_eq_false hl]; rfl)
            have hsplit : done ++ l :: l' :: ls = done ++ [l] ++ l' :: ls :=
              List.append_cons done l _
            rw [hsplit] at hW
            have hread := h.step hl
            have hlibs := hread.length_libs_le fun k hk => hW k (List.mem_append_left _ hk)
            have hgo := read_goes_on hl (hlibs.trans_lt hcard)
            rw [hcounted]
            by_cases hsegs : (l.read m).1.segs.length < 2048
            · rw [if_pos ⟨hgo, hsegs⟩]
              rw [hread.segs] at hsegs
              exact (ih hread hsegs hW).cons hroom
            · rw [if_neg fun hno => hsegs hno.2]
              rw [hread.segs] at hsegs
              exact hread.readsOn_full hroom (Nat.le_of_not_lt hsegs) _

theorem word_eq_name {l : MapsLine} (h : ∀ c ∈ l.name, isSpace c = false) : l.word = l.name :=
  List.takeWhile_eq_self_iff.mpr fun c hc => by rw [h c hc]; rfl

/-- Two lines that are each the first one with a certain name are the same. -/
theorem first_unique {pre pre' post post' : List MapsLine} {l l' : MapsLine}
    (h : pre ++ l :: post = pre' ++ l' :: post') (hname : l.name = l'.name)
    (hpre : ∀ k ∈ pre, k.name ≠ l.name) (hpre' : ∀ k ∈ pre', k.name ≠ l'.name) :
    pre = pre' ∧ l = l' := by
  rcases List.append_eq_append_iff.mp h with ⟨as, rfl, has⟩ | ⟨as, rfl, has⟩
  · cases as with
    | nil => exact ⟨(List.append_nil _).symm, (List.cons.inj has).1⟩
    | cons a as =>
        obtain rfl := (List.cons.inj has).1
        exact absurd hname (hpre' l (List.mem_append_right _ (List.mem_cons_self ..)))
  · cases as with
    | nil => exact ⟨List.append_nil _, (List.cons.inj has).1.symm⟩
    | cons a as =>
        obtain rfl := (List.cons.inj has).1
        exact absurd hname.symm (hpre l' (List.mem_append_right _ (List.mem_cons_self ..)))

/-- With different names, an entry is the only one with its name. -/
theorem filter_entry {libs : List (CStr × ℕ)} (hnodup : (libs.map Prod.fst).Nodup)
    {name : CStr} {base : ℕ} (h : (name, base) ∈ libs) :
    libs.filter (fun lib => name == lib.1) = [(name, base)] := by
  induction libs with
  | nil => cases h
  | cons lib libs ih =>
      rw [List.map_cons, List.nodup_cons] at hnodup
      rcases List.mem_cons.mp h with rfl | h
      · have hnone : libs.filter (fun lib => name == lib.1) = [] := by
          refine List.filter_eq_nil_iff.mpr fun lib hlib heq => hnodup.1 ?_
          exact List.mem_map.mpr ⟨lib, hlib, (eq_of_beq heq).symm⟩
        rw [List.filter_cons, if_pos BEq.rfl, hnone]
      · have hne : ¬(name == lib.1) = true := by
          intro heq
          rw [← eq_of_beq heq] at hnodup
          exact hnodup.1 (List.mem_map_of_mem (f := Prod.fst) h)
        rw [List.filter_cons, if_neg hne, ih hnodup.2 h]

/-- A line is read if the list of segments is not full before it. -/
theorem read_of_room {done rest pre post : List MapsLine} {f : MapsLine}
    (hsplit : done ++ rest = pre ++ f :: post)
    (hstop : rest = [] ∨ 2048 ≤ (runs (done.map MapsLine.range)).length)
    (hroom : (runs (pre.map MapsLine.range)).length < 2048) : ∃ q, done = pre ++ f :: q := by
  have hshort : ∀ as, pre = done ++ as → rest ≠ [] → False := by
    rintro as rfl hrest
    have hle := length_runs_le_append (done.map MapsLine.range) (as.map MapsLine.range)
    rw [← List.map_append] at hle
    have := hstop.resolve_left hrest
    omega
  rcases List.append_eq_append_iff.mp hsplit with ⟨as, hdone, hrest⟩ | ⟨as, hdone, hrest⟩
  · refine (hshort as hdone ?_).elim
    rw [hrest]
    exact List.append_ne_nil_of_right_ne_nil _ (List.cons_ne_nil _ _)
  · cases as with
    | nil =>
        rw [List.append_nil] at hdone
        refine (hshort [] (by rw [hdone, List.append_nil]) ?_).elim
        rw [List.nil_append] at hrest
        rw [← hrest]
        exact List.cons_ne_nil _ _
    | cons a as =>
        obtain rfl := (List.cons.inj hrest).1
        exact ⟨as, hdone⟩

section ReadAll

variable {lines done rest : List MapsLine} {m : Maps}

/-- The name of an entry is part of no name before the first line with it, and that line has
been read. -/
theorem Read.namesApart (h : Read done m) (hcounted : counted lines = done ++ rest)
    (hword : ∀ l ∈ counted lines, l.word = l.name)
    (hfew : ∀ p x q, done = p ++ x :: q → (runs (p.map MapsLine.range)).length < 2048)
    (hall : LibsComplete lines m.libs) : NamesApart lines := by
  intro pre l post hsplit hname hfirst
  have hfind : (counted lines).find? (fun k => k.name == l.name) = some l :=
    List.find?_eq_some_iff_append.mpr ⟨BEq.rfl, pre, post, hsplit, fun k hk => by
      simpa using hfirst k hk⟩
  have hentry : (l.name, l.addrB) ∈ m.libs := by
    refine List.mem_of_mem_filter (p := fun lib => l.name == lib.1) ?_
    rw [(hall l.name l hname hfind).1]
    exact List.mem_singleton_self _
  obtain ⟨k, ⟨p, q, rfl, -, hfresh⟩, hkey⟩ := (h.libs _).mp hentry
  rw [List.append_assoc, List.cons_append] at hcounted
  have hk : k.word = k.name := hword k (by rw [hcounted]; simp)
  have hp : ∀ x ∈ p, x.word = x.name := fun x hx => hword x (by
    rw [hcounted]
    exact List.mem_append_left _ hx)
  obtain ⟨rfl, rfl⟩ := first_unique (hsplit.symm.trans hcounted)
    ((congrArg Prod.fst hkey).trans hk) hfirst fun x hx heq => hfresh x hx (by
      rw [hk, hp x hx, heq])
  refine ⟨fun x hx hin => hfresh x hx ?_, hfew pre l q rfl⟩
  rwa [hk, hp x hx]

/-- A name that is part of none before it is entered, and found under its address. -/
theorem Read.libsComplete (h : Read done m) (hcounted : counted lines = done ++ rest)
    (hword : ∀ l ∈ counted lines, l.word = l.name)
    (hstop : rest = [] ∨ 2048 ≤ (runs (done.map MapsLine.range)).length)
    (hapart : NamesApart lines) : LibsComplete lines m.libs := by
  intro name f hname hfind
  obtain ⟨hf, pre, post, hsplit, hpre⟩ := List.find?_eq_some_iff_append.mp hfind
  obtain rfl := eq_of_beq hf
  obtain ⟨hno, hroom⟩ := hapart pre f post hsplit hname fun k hk => by simpa using hpre k hk
  obtain ⟨q, rfl⟩ := read_of_room (hcounted.symm.trans hsplit) hstop hroom
  have hf : f.word = f.name := hword f (by rw [hsplit]; simp)
  have hentry : (f.name, f.addrB) ∈ m.libs := by
    refine (h.libs _).mpr ⟨f, ⟨pre, q, rfl, hname, fun k hk hin => hno k hk ?_⟩, by rw [hf]⟩
    rwa [hf, hword k (by rw [hsplit]; exact List.mem_append_left _ hk)] at hin
  have hfilter := filter_entry h.nodup hentry
  refine ⟨hfilter, ?_⟩
  rw [queryLibNameInList, ← List.head?_filter, hfilter]
  rfl

end ReadAll

/-- **The list of libraries** is complete exactly when no name is part of another one that comes
before it, as long as the segments do not fill their list. -/
theorem libList_complete_iff {lines : List MapsLine}
    (hspace : ∀ l ∈ lines, ∀ c ∈ l.name, isSpace c = false)
    (hsize : (mapsText lines).length < 524288)
    (hnames : (names lines).toFinset.card < 256) :
    ∃ maps, getModuleMaps (mapsText lines) = some maps ∧
      (LibsComplete lines maps.libs ↔ NamesApart lines) := by
  refine ⟨_, getModuleMaps_mapsText hsize, ?_⟩
  obtain ⟨W, hcard, hW⟩ := exists_words lines
  obtain ⟨done, rest, m, hcounted, hread, hlibs, hfew, hstop⟩ :=
    scanLines_read read_nil (by norm_num [runs]) (hcard.trans_lt hnames) hW
  rw [List.nil_append] at hread hstop
  have hword : ∀ l ∈ counted lines, l.word = l.name := fun l hl =>
    word_eq_name (hspace l (List.mem_of_mem_dropLast ((List.takeWhile_sublist _).subset hl)))
  rw [hlibs]
  exact ⟨hread.namesApart hcounted hword hfew, hread.libsComplete hcounted hword hstop⟩

/-- A program and a library are both entered. -/
theorem libList_complete_iff_plain :
    ∃ maps, getModuleMaps (mapsText [progLine, plainLine, stackLine, lastLine]) = some maps ∧
      LibsComplete [progLine, plainLine, stackLine, lastLine] maps.libs := by
  obtain ⟨maps, hmaps, hiff⟩ := @libList_complete_iff
    [progLine, plainLine, stackLine, lastLine]
    (by decide +kernel) (by decide +kernel) (by decide +kernel)
  refine ⟨maps, hmaps, hiff.mpr fun pre l post hsplit _ _ => ?_⟩
  have hlines : [progLine, plainLine] = pre ++ l :: post := hsplit
  rcases pre with _ | ⟨x, _ | ⟨y, pre⟩⟩
  · exact ⟨List.forall_mem_nil _, by decide +kernel⟩
  · obtain ⟨rfl, hrest⟩ := List.cons.inj hlines
    obtain ⟨rfl, -⟩ := List.cons.inj hrest
    exact ⟨List.forall_mem_singleton.mpr (by decide +kernel), by decide +kernel⟩
  · obtain ⟨-, hrest⟩ := List.cons.inj hlines
    obtain ⟨-, hrest⟩ := List.cons.inj hrest
    exact absurd hrest.symm (List.append_ne_nil_of_right_ne_nil _ (List.cons_ne_nil _ _))

/-- A library whose name is the beginning of one that stands before it is not entered, and the
base address found under its full path is that of the other one. -/
theorem contained_name_missing :
    ([progLine, versionLine, plainLine, stackLine, lastLine].Pairwise
        fun a b => a.addrE ≤ b.addrB) ∧
      (∀ l ∈ [progLine, versionLine, plainLine, stackLine, lastLine],
        ∀ c ∈ l.name, isSpace c = false) ∧
      (mapsText [progLine, versionLine, plainLine, stackLine, lastLine]).length < 524288 ∧
      (names [progLine, versionLine, plainLine, stackLine, lastLine]).toFinset.card < 256 ∧
      ∃ maps, getModuleMaps
          (mapsText [progLine, versionLine, plainLine, stackLine, lastLine]) = some maps ∧
        (∀ lib ∈ maps.libs, lib.1 ≠ plainLine.name) ∧
        queryLibNameInList maps.libs plainLine.name =
          some (versionLine.name, versionLine.addrB) ∧
        ¬LibsComplete [progLine, versionLine, plainLine, stackLine, lastLine] maps.libs := by
  refine ⟨by decide +kernel, by decide +kernel, by decide +kernel, by decide +kernel, _,
    getModuleMaps_mapsText (by decide +kernel), by decide +kernel, by decide +kernel, ?_⟩
  intro hall
  have hfind : (counted [progLine, versionLine, plainLine, stackLine, lastLine]).find?
      (fun l => l.name == plainLine.name) = some plainLine := by rfl
  have hquery := (hall plainLine.name plainLine (by decide +kernel) hfind).2
  revert hquery
  decide +kernel

end Ooops
