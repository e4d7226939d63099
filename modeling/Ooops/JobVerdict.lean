import Ooops.LogText

/-!
# The Verdict on a Job

The daemon appends a line to the log of every server at each alarm. When the job ends
`Create_Chart_Reports` reads these files and decides whether the job had intensive I/O. This
module puts the two together: what is decided from the text is what the daemon's own numbers say.

* `logFile` is the file, `dataLines_logFile` what is read from it.
* `LogOk` is the invariant of the daemon: all lines are short enough for the reader, and there is
  one in every log after the first alarm.
* `verdict_of_run` is the verdict at the end of every run, `verdict_of_alternating` says what it
  means for the traffic of the job.
-/

open Basis

namespace Ooops

/-! ### The files -/

/-- The line that `main` writes to a new log. -/
def logHeader : CStr :=
  bytesOf "time   n_open  n_open_delayed   n_stat  n_stat_delayed  dn_open dn_open_delayed  " ++
    bytesOf "dn_stat  dn_stat_delayed\n"

/-- The log of a server, of which every write has come through. -/
def logFile (log : List LogLine) (j : FsIdx) : List UInt8 :=
  logHeader ++ ((logLines log j).map LogLine.text).flatten

/-- The logs of all servers. -/
def logFiles (cfg : Setup) (log : List LogLine) : List (List UInt8) :=
  (List.finRange cfg.nFsServer).map fun j => logFile log (j.castLE cfg.nFsServer_le)

variable {ρ : Type} {lib : LineLib ρ} {value : ℚ → ρ}

/-- What `sscanf` makes of the numbers that are printed for `%6ld` and `%7.1lf`. -/
structure LineLib.ReadsAs (lib : LineLib ρ) (value : ℚ → ρ) : Prop where
  scanDouble_showInt (k : ℕ) (z : ℤ) {c : UInt8} (hc : c = 32 ∨ c = 10) (s : CStr) :
    lib.scanDouble (List.replicate k 32 ++ showInt z ++ c :: s) =
      some (some (value z), c :: s)
  scanDouble_showTenths (k : ℕ) (negative : Bool) (n : ℕ) {c : UInt8} (hc : c = 32 ∨ c = 10)
    (s : CStr) :
    lib.scanDouble (List.replicate k 32 ++ showTenths negative n ++ c :: s) =
      some (some (value (if negative then -(n / 10) else n / 10)), c :: s)

/-- Decimal numbers are read as they are. -/
theorem readsAs_decimalLib : decimalLib.ReadsAs id where
  scanDouble_showInt k z c hc s := by
    have hdigit : isDigit c = false := by rcases hc with rfl | rfl <;> rfl
    have hpoint : c ≠ 46 := by rcases hc with rfl | rfl <;> decide
    exact congrArg (Option.map _) (scanDecimal_showInt k z hdigit hpoint s)
  scanDouble_showTenths k negative n c hc s := by
    have hdigit : isDigit c = false := by rcases hc with rfl | rfl <;> rfl
    exact congrArg (Option.map _) (scanDecimal_showTenths k negative n hdigit s)

/-- What is read from a line. -/
def LogLine.items (value : ℚ → ρ) (l : LogLine) : LogItems ρ where
  t := wrapInt32 l.time
  n := fun i => wrapInt32 (l.totals i).toInt
  dn := fun i => some (value (l.rates i).shown)

/-- The sign in front of a rate is that of the tenths. -/
theorem shown_lf (x : ℚ) :
    (RateColumn.lf x).shown =
      if decide (x < 0) then -(((roundHalfEven (10 * x)).natAbs : ℚ) / 10)
      else ((roundHalfEven (10 * x)).natAbs : ℚ) / 10 := by
  have hzero : roundHalfEven 0 = 0 := by exact_mod_cast roundHalfEven_intCast 0
  rw [RateColumn.shown, Nat.cast_natAbs, Int.cast_abs]
  by_cases hx : x < 0
  · have hle : roundHalfEven (10 * x) ≤ 0 := hzero ▸ roundHalfEven_mono (by linarith)
    rw [decide_eq_true hx, if_pos rfl, abs_of_nonpos (by exact_mod_cast hle)]
    ring
  · have hle : 0 ≤ roundHalfEven (10 * x) := hzero ▸ roundHalfEven_mono (by linarith)
    rw [decide_eq_false hx, if_neg Bool.false_ne_true, abs_of_nonneg (by exact_mod_cast hle)]

/-- A rate is read as it is shown. -/
theorem LineLib.ReadsAs.scanDouble_column (h : lib.ReadsAs value) (r : RateColumn) {c : UInt8}
    (hc : c = 32 ∨ c = 10) (s : CStr) :
    lib.scanDouble (32 :: (r.text ++ c :: s)) = some (some (value r.shown), c :: s) := by
  cases r with
  | ld n => exact h.scanDouble_showInt (6 - (showInt n.toInt).length + 1) n.toInt hc s
  | lf x =>
      rw [shown_lf]
      exact h.scanDouble_showTenths (7 - (showTenths (decide (x < 0))
        (roundHalfEven (10 * x)).natAbs).length + 1) _ _ hc s

/-- All items of a line are read. -/
theorem LineLib.ReadsAs.scanLine_text (h : lib.ReadsAs value) (l : LogLine) :
    scanLine lib l.text = some (l.items value) := by
  have htime := wrapInt32_bounds l.time
  have hblank : isDigit 32 = false := rfl
  have htotals : ![wrapInt32 (l.totals 0).toInt, wrapInt32 (l.totals 1).toInt,
      wrapInt32 (l.totals 2).toInt, wrapInt32 (l.totals 3).toInt] = (l.items value).n := by
    funext i
    match i with
    | 0 | 1 | 2 | 3 => rfl
  have hrates : ![some (value (l.rates 0).shown), some (value (l.rates 1).shown),
      some (value (l.rates 2).shown), some (value (l.rates 3).shown)] = (l.items value).dn := by
    funext i
    match i with
    | 0 | 1 | 2 | 3 => rfl
  simp only [scanLine, LogLine.text, LogLine.columns, List.map_cons, List.map_nil,
    List.cons_append, List.nil_append, List.flatten_cons, List.flatten_nil, List.append_assoc]
  rw [padLeft, scanD_showInt _ (by omega) (by omega) hblank]
  simp only [Option.bind_eq_bind, Option.bind_some, scanD_column _ _ hblank,
    h.scanDouble_column _ (.inl rfl), h.scanDouble_column _ (.inr rfl), htotals, hrates,
    wrapInt32_eq_self htime.1 htime.2]
  rfl

/-- **What is read from a log**: all lines that were written. -/
theorem dataLines_logFile (h : lib.ReadsAs value) {log : List LogLine} {j : FsIdx}
    (hfits : ∀ l ∈ log, l.text.length < 256) :
    dataLines lib (logFile log j) = (logLines log j).map (LogLine.items value) := by
  have hlines : ∀ l ∈ logLines log j, l.text.length < 256 :=
    fun l hl => hfits l (List.mem_of_mem_filter hl)
  have hheader : ∃ x : CStr, logHeader = x ++ [10] ∧ 10 ∉ x ∧ x.length + 1 < 256 :=
    ⟨logHeader.dropLast, by decide +kernel, by decide +kernel, by decide +kernel⟩
  obtain ⟨x, hx, hmem, hlen⟩ := hheader
  rw [dataLines, logFile, hx, List.append_assoc, List.singleton_append,
    fgetsLines_cons hmem hlen, List.drop_one, List.tail_cons, fgetsLines_lines hlines,
    List.filterMap_map, ← List.filterMap_eq_map]
  refine List.filterMap_congr fun l _ => ?_
  rw [Function.comp_apply, Function.comp_apply, cstrOf_text, h.scanLine_text]

/-! ### The daemon -/

section Run

variable {cfg : Setup} {s s' : Server cfg.gsize} {es : List Event}

/-- What is known of the logs in a run: all lines fit, a line is in each log after the first alarm,
and the first one repeats the totals. -/
structure LogOk (cfg : Setup) (es : List Event) (s : Server cfg.gsize) : Prop where
  fits : ∀ l ∈ s.fdLog, l.text.length < 256
  started : ∀ j : FsIdx, j.val < cfg.nFsServer → logLines s.fdLog j = [] →
    Event.alarm ∉ es ∧ s.tNow = -cfg.tIntervalReport
  first : ∀ j : FsIdx, j.val < cfg.nFsServer → ∀ l ∈ (logLines s.fdLog j).head?,
    ∀ i, l.rates i = .ld (l.totals i)

theorem LogOk.start (rows : Fin cfg.gsize → Counters) (localData : Counters) :
    LogOk cfg [] (Server.start cfg rows localData) where
  fits _ h := absurd h List.not_mem_nil
  started _ _ _ := ⟨List.not_mem_nil, rfl⟩
  first _ _ _ h := by cases h

/-- What writes no line and leaves the time alone keeps all that. -/
theorem LogOk.of_eq (h : LogOk cfg es s) (hlog : s'.fdLog = s.fdLog) (htime : s'.tNow = s.tNow) :
    LogOk cfg es s' := by
  refine ⟨?_, ?_, ?_⟩
  · rw [hlog]
    exact h.fits
  · rw [hlog, htime]
    exact h.started
  · rw [hlog]
    exact h.first

/-- An event that is no alarm starts no log. -/
theorem LogOk.concat (h : LogOk cfg es s) {e : Event} (he : e ≠ .alarm) :
    LogOk cfg (es ++ [e]) s := by
  refine ⟨h.fits, fun j hj hnil => ?_, h.first⟩
  obtain ⟨halarm, htime⟩ := h.started j hj hnil
  refine ⟨fun hmem => ?_, htime⟩
  rcases List.mem_append.mp hmem with hmem | hmem
  · exact halarm hmem
  · exact he (List.mem_singleton.mp hmem).symm

/-- What an alarm does behind its summary: a line goes to every log. -/
def writeLines (cfg : Setup) (s : Server cfg.gsize) : Server cfg.gsize :=
  let s := { s with tNow := s.tNow + cfg.tIntervalReport }
  { s with
    fdLog := s.fdLog ++ (List.finRange cfg.nFsServer).map fun j =>
      logLine cfg s (j.castLE cfg.nFsServer_le) }

theorem periodic_eq_writeLines (s : Server cfg.gsize) :
    periodic cfg s =
      writeLines cfg (if cfg.gsize = 1 then Ooops.printSummary cfg s.copyLocal else s) := rfl

/-- The lines of an alarm fit too. -/
theorem LogOk.writeLines (h : LogOk cfg es s) : LogOk cfg (es ++ [.alarm]) (writeLines cfg s) := by
  refine ⟨fun l hl => ?_, fun j hj hnil => ?_, fun j hj l hl i => ?_⟩
  · rcases List.mem_append.mp hl with hl | hl
    · exact h.fits l hl
    · obtain ⟨j, -, rfl⟩ := List.mem_map.mp hl
      exact length_text_lt cfg _ _
  · simp only [Ooops.writeLines, logLines_append hj] at hnil
    exact absurd hnil (by simp)
  · simp only [Ooops.writeLines, logLines_append hj] at hl
    cases hlog : logLines s.fdLog j with
    | nil =>
        obtain ⟨-, htime⟩ := h.started j hj hlog
        rw [hlog] at hl
        obtain rfl := Option.some.inj hl
        have hzero : s.tNow + cfg.tIntervalReport = 0 := by omega
        exact if_pos hzero
    | cons l₀ ls =>
        rw [hlog] at hl
        obtain rfl := Option.some.inj hl
        exact h.first j hj _ (by rw [hlog]; rfl) i

/-- **Every event keeps the logs.** -/
theorem LogOk.step (h : LogOk cfg es s) {e : Event} (hstep : serverStep cfg s e = some s') :
    LogOk cfg (es ++ [e]) s' := by
  obtain ⟨p, hp, htake⟩ | ⟨rfl, rfl⟩ | ⟨-, halarm, localData, fds, rfl, -⟩ :=
    serverStep_cases hstep
  · have halarm : e ≠ .alarm := by
      rintro rfl
      cases hp
    obtain ⟨-, k, -, rfl⟩ := takeData_eq_some_iff.mp htake
    refine (h.of_eq ?_ ?_).concat halarm
    all_goals
      rw [afterData]
      split_ifs
      · simp only [printSummary_fdLog, printSummary_tNow]
        rfl
      · rfl
  · rw [periodic_eq_writeLines]
    split_ifs
    · refine LogOk.writeLines (h.of_eq ?_ ?_)
      · exact printSummary_fdLog
      · exact printSummary_tNow
    · exact h.writeLines
  · refine LogOk.concat (h.of_eq ?_ ?_) halarm <;> rfl

/-- **The logs in every run.** -/
theorem logOk_of_runSteps {rows : Fin cfg.gsize → Counters} {localData : Counters}
    (hrun : runSteps (serverStep cfg) (Server.start cfg rows localData) es = some s) :
    LogOk cfg es s :=
  history_of_runSteps (P := fun _ _ => True) (LogOk.start rows localData)
    (fun _ _ _ _ h _ hstep => h.step hstep) es s (along_of_forall (fun _ _ => trivial) _ _) hrun

end Run

/-! ### The verdict -/

section Verdict

/-- The greater one of the numbers of opens and stats in the last line of a log, as an `int`. -/
def loggedCalls (log : List LogLine) (j : FsIdx) : ℤ :=
  match (logLines log j).getLast? with
  | some l => max 0 (max (wrapInt32 (l.totals 0).toInt) (wrapInt32 (l.totals 2).toInt))
  | none => 0

/-- The number of calls that is read. -/
theorem callCount_logFile (h : lib.ReadsAs value) {log : List LogLine} {j : FsIdx}
    (hfits : ∀ l ∈ log, l.text.length < 256) :
    callCount lib (logFile log j) = loggedCalls log j := by
  rw [callCount, lastCount, dataLines_logFile h hfits, List.getLast?_map, loggedCalls]
  cases (logLines log j).getLast? with
  | none => rfl
  | some l => rfl

/-- The busiest server of the logs is the first one with the greatest number of calls. -/
theorem Busiest.exists_server (h : lib.ReadsAs value) {cfg : Setup} {log : List LogLine}
    (hfits : ∀ l ∈ log, l.text.length < 256) {i : ℕ} {file : List UInt8}
    (hbusiest : Busiest lib (logFiles cfg log) i file) :
    ∃ j : FsIdx, j.val < cfg.nFsServer ∧ j.val = i ∧ file = logFile log j ∧
      (∀ k < j, loggedCalls log k < loggedCalls log j) ∧
      ∀ k : FsIdx, k.val < cfg.nFsServer → loggedCalls log k ≤ loggedCalls log j := by
  obtain ⟨before, after, hsplit, rfl, hbefore, hafter⟩ := hbusiest.split
  have hlen : before.length < cfg.nFsServer := by
    have hlength := congrArg List.length hsplit
    rw [logFiles, List.length_map, List.length_finRange, List.length_append,
      List.length_cons] at hlength
    omega
  have hget (k : FsIdx) (hk : k.val < cfg.nFsServer) :
      (before ++ file :: after)[k.val]? = some (logFile log k) := by
    rw [← hsplit, logFiles, List.getElem?_map, List.getElem?_eq_getElem (by simpa using hk)]
    simp
  let j : FsIdx := ⟨before.length, hlen.trans_le cfg.nFsServer_le⟩
  have hfile : file = logFile log j := by
    have hj := hget j hlen
    rw [List.getElem?_append_right le_rfl, Nat.sub_self] at hj
    exact Option.some.inj hj
  have hless (k : FsIdx) (hk : k < j) : loggedCalls log k < loggedCalls log j := by
    have hval : k.val < before.length := hk
    have hmem := hget k (hval.trans hlen)
    rw [List.getElem?_append_left hval] at hmem
    have hlt := hbefore _ (List.mem_of_getElem? hmem)
    rwa [hfile, callCount_logFile h hfits, callCount_logFile h hfits] at hlt
  refine ⟨j, hlen, rfl, hfile, hless, fun k hk => ?_⟩
  rcases lt_trichotomy k j with hlt | rfl | hlt
  · exact (hless k hlt).le
  · exact le_rfl
  · have hval : before.length < k.val := hlt
    have hmem := hget k hk
    rw [List.getElem?_append_right hval.le, List.getElem?_cons] at hmem
    rw [if_neg (by omega)] at hmem
    have hle := hafter _ (List.mem_of_getElem? hmem)
    rwa [hfile, callCount_logFile h hfits, callCount_logFile h hfits] at hle

variable [LinearOrder ρ] {rate : Option ρ}

/-- An element of a list is the first one or comes behind another one. -/
theorem exists_mem_iff_head_or_behind {α : Type*} {P : α → Prop} {l : List α} :
    (∃ x ∈ l, P x) ↔ (∃ x ∈ l.head?, P x) ∨ ∃ x y, [x, y] <:+: l ∧ P y := by
  constructor
  · rintro ⟨y, hy, hP⟩
    obtain ⟨before, after, rfl⟩ := List.append_of_mem hy
    rcases List.eq_nil_or_concat before with rfl | ⟨before, x, rfl⟩
    · exact .inl ⟨y, rfl, hP⟩
    · refine .inr ⟨x, y, ⟨before, after, ?_⟩, hP⟩
      simp
  · rintro (⟨x, hx, hP⟩ | ⟨x, y, hxy, hP⟩)
    · exact ⟨x, List.mem_of_mem_head? hx, hP⟩
    · exact ⟨y, hxy.subset (by simp), hP⟩

/-- The calls of one kind came fast enough: all of them until the first line, or those between
two lines that follow each other, per second. -/
def PeakIncrease (value : ℚ → ρ) (rate : Option ρ) (tIntervalReport : ℤ) (ls : List LogLine)
    (i : Fin 4) : Prop :=
  (∃ l ∈ ls.head?, AtLeast (value ((l.totals i).toInt : ℚ)) rate) ∨
    ∃ l l', [l, l'] <:+: ls ∧
      AtLeast (value ((((l'.totals i).toInt - (l.totals i).toInt : ℤ) : ℚ) / tIntervalReport)) rate

/-- The rates that are shown in a rated log. -/
theorem exists_shown_iff {T : ℤ} (hpos : 0 < T) {ls : List LogLine} (hrated : ls.IsChain (Rated T))
    (hfirst : ∀ l ∈ ls.head?, ∀ i, l.rates i = .ld (l.totals i)) (i : Fin 4) :
    (∃ l ∈ ls, AtLeast (value (l.rates i).shown) rate) ↔ PeakIncrease value rate T ls i := by
  have hT : (T : ℚ) ≠ 0 := by exact_mod_cast hpos.ne'
  rw [exists_mem_iff_head_or_behind, PeakIncrease]
  refine or_congr (exists_congr fun l => and_congr_right fun hl => ?_)
    (exists_congr fun l => exists_congr fun l' => and_congr_right fun hll => ?_)
  · rw [hfirst l hl i, RateColumn.shown]
  · have hpair := List.IsChain.infix hrated hll
    rw [List.isChain_pair] at hpair
    rw [← hpair i, mul_div_cancel_right₀ _ hT]

variable [Zero ρ]

/-- The rate of opens or stats in a line of a log, or zero, reaches a threshold. -/
def LoggedPeak (value : ℚ → ρ) (rate : Option ρ) (log : List LogLine) (j : FsIdx) : Prop :=
  AtLeast 0 rate ∨ ∃ l ∈ logLines log j,
    AtLeast (value (l.rates 0).shown) rate ∨ AtLeast (value (l.rates 2).shown) rate

/-- The largest rate that is read. -/
theorem peakReaches_logFile (h : lib.ReadsAs value) {log : List LogLine} {j : FsIdx}
    (hfits : ∀ l ∈ log, l.text.length < 256) :
    PeakReaches lib rate (logFile log j) ↔ LoggedPeak value rate log j := by
  rw [PeakReaches, LoggedPeak, openStatRates, dataLines_logFile h hfits]
  refine or_congr_right ⟨?_, ?_⟩
  · rintro ⟨x, hx, hreach⟩
    obtain ⟨r, hr, hmem⟩ := List.mem_flatMap.mp hx
    obtain ⟨l, hl, rfl⟩ := List.mem_map.mp hr
    rw [List.reduceOption_mem_iff, List.mem_pair] at hmem
    refine ⟨l, hl, hmem.imp (fun he => ?_) fun he => ?_⟩
    · obtain rfl := Option.some.inj he
      exact hreach
    · obtain rfl := Option.some.inj he
      exact hreach
  · rintro ⟨l, hl, hreach⟩
    have hline := List.mem_map_of_mem (f := LogLine.items value) hl
    rcases hreach with hreach | hreach
    · exact ⟨_, List.mem_flatMap.mpr ⟨_, hline, List.reduceOption_mem_iff.mpr
        (List.mem_cons_self ..)⟩, hreach⟩
    · exact ⟨_, List.mem_flatMap.mpr ⟨_, hline, List.reduceOption_mem_iff.mpr
        (List.mem_cons_of_mem _ (List.mem_cons_self ..))⟩, hreach⟩

/-- The verdict is about the first server with the greatest number of calls in its last line. -/
theorem LineLib.ReadsAs.exists_verdict (h : lib.ReadsAs value) {cfg : Setup} {es : List Event}
    {s : Server cfg.gsize} (hok : LogOk cfg es s) (halarm : Event.alarm ∈ es)
    (hservers : 0 < cfg.nFsServer) (nCall n0Last n2Last : ℤ) (rate : Option ρ)
    (dnCountMax : ℕ → ρ) :
    ∃ j : FsIdx, j.val < cfg.nFsServer ∧
      (∀ k < j, loggedCalls s.fdLog k < loggedCalls s.fdLog j) ∧
      (∀ k : FsIdx, k.val < cfg.nFsServer → loggedCalls s.fdLog k ≤ loggedCalls s.fdLog j) ∧
      ∀ v, highIo lib nCall rate (.start n0Last n2Last dnCountMax) (logFiles cfg s.fdLog) = some v ↔
        nCall ≤ loggedCalls s.fdLog j ∧ LoggedPeak value rate s.fdLog j ∧
          v = (j.val, loggedCalls s.fdLog j) := by
  have hne : logFiles cfg s.fdLog ≠ [] := by
    intro hnil
    have hlength := congrArg List.length hnil
    rw [logFiles, List.length_map, List.length_finRange] at hlength
    exact absurd hlength hservers.ne'
  have hdata : ∀ file ∈ logFiles cfg s.fdLog, dataLines lib file ≠ [] := by
    intro file hfile
    obtain ⟨j, -, rfl⟩ := List.mem_map.mp hfile
    rw [dataLines_logFile h hok.fits, Ne, List.map_eq_nil_iff]
    exact fun hnil => (hok.started _ j.isLt hnil).1 halarm
  obtain ⟨i, file, hbusiest, hsel⟩ := @exists_selected _ _ _ lib rate _ hne hdata n0Last n2Last
    dnCountMax
  obtain ⟨j, hj, rfl, rfl, hfirst, hmost⟩ := hbusiest.exists_server h hok.fits
  refine ⟨j, hj, hfirst, hmost, fun v => ?_⟩
  rw [highIo_eq_some_iff hsel, callCount_logFile h hok.fits, peakReaches_logFile h hok.fits]

/-- **The verdict at the end of every run** of the daemon. Every line fits the buffer of the reader
and is read back item by item, and the verdict is positive exactly if the number of calls of the
busiest server reaches its threshold and so does one of the rates of opens or stats that were shown
for this server, or zero. -/
theorem verdict_of_run (h : lib.ReadsAs value) {cfg : Setup} {rows : Fin cfg.gsize → Counters}
    {localData : Counters} {es : List Event} (halarm : Event.alarm ∈ es)
    (hservers : 0 < cfg.nFsServer) {s : Server cfg.gsize}
    (hrun : runSteps (serverStep cfg) (Server.start cfg rows localData) es = some s)
    (nCall n0Last n2Last : ℤ) (rate : Option ρ) (dnCountMax : ℕ → ρ) :
    (∀ l ∈ s.fdLog, l.text.length < 256) ∧
    (∀ j, dataLines lib (logFile s.fdLog j) = (logLines s.fdLog j).map (LogLine.items value)) ∧
    ∃ j : FsIdx, j.val < cfg.nFsServer ∧
      (∀ k < j, loggedCalls s.fdLog k < loggedCalls s.fdLog j) ∧
      (∀ k : FsIdx, k.val < cfg.nFsServer → loggedCalls s.fdLog k ≤ loggedCalls s.fdLog j) ∧
      ∀ v, highIo lib nCall rate (.start n0Last n2Last dnCountMax) (logFiles cfg s.fdLog) = some v ↔
        nCall ≤ loggedCalls s.fdLog j ∧ LoggedPeak value rate s.fdLog j ∧
          v = (j.val, loggedCalls s.fdLog j) := by
  have hok := logOk_of_runSteps hrun
  exact ⟨hok.fits, fun j => dataLines_logFile h hok.fits,
    h.exists_verdict hok halarm hservers nCall n0Last n2Last rate dnCountMax⟩

/-- **The verdict and the traffic.** Where exactly one round of packets is closed between two
alarms, and the interval divides ten seconds, the rate that decides is the number of opens or stats
that the busiest server has got in an interval, per second; the first line counts as one second. -/
theorem verdict_of_alternating (h : lib.ReadsAs value) {cfg : Setup} (hg : cfg.gsize ≤ maxClients)
    (hpos : 0 < cfg.tIntervalReport) (hdvd : cfg.tIntervalReport ∣ 10)
    {rows : Fin cfg.gsize → Counters} {localData : Counters} (hrows : ∀ k, Narrow (rows k))
    (hlocal : Narrow localData) {es : List Event} (hnarrow : ∀ e ∈ es, e.Narrow)
    (halt : cfg.gsize = 1 ∨ Alternating (cfg.gsize - 1) es.reverse)
    (halarm : Event.alarm ∈ es) (hservers : 0 < cfg.nFsServer) {s : Server cfg.gsize}
    (hrun : runSteps (serverStep cfg) (Server.start cfg rows localData) es = some s)
    (nCall n0Last n2Last : ℤ) (rate : Option ρ) (dnCountMax : ℕ → ρ) :
    ∃ j : FsIdx, j.val < cfg.nFsServer ∧
      (∀ k < j, loggedCalls s.fdLog k < loggedCalls s.fdLog j) ∧
      (∀ k : FsIdx, k.val < cfg.nFsServer → loggedCalls s.fdLog k ≤ loggedCalls s.fdLog j) ∧
      ∀ v, highIo lib nCall rate (.start n0Last n2Last dnCountMax) (logFiles cfg s.fdLog) = some v ↔
        nCall ≤ loggedCalls s.fdLog j ∧
          (AtLeast 0 rate ∨
            PeakIncrease value rate cfg.tIntervalReport (logLines s.fdLog j) 0 ∨
            PeakIncrease value rate cfg.tIntervalReport (logLines s.fdLog j) 2) ∧
          v = (j.val, loggedCalls s.fdLog j) := by
  have hok := logOk_of_runSteps hrun
  have hlogged := logged_of_runSteps hg hpos hdvd hrows hlocal hnarrow halt hrun
  obtain ⟨j, hj, hfirst, hmost, hverdict⟩ :=
    h.exists_verdict hok halarm hservers nCall n0Last n2Last rate dnCountMax
  refine ⟨j, hj, hfirst, hmost, fun v => ?_⟩
  have hshown (i : Fin 4) : (∃ l ∈ logLines s.fdLog j, AtLeast (value (l.rates i).shown) rate) ↔
      PeakIncrease value rate cfg.tIntervalReport (logLines s.fdLog j) i :=
    exists_shown_iff hpos (hlogged.rated j hj) (hok.first j hj) i
  rw [hverdict, LoggedPeak, ← hshown, ← hshown]
  simp only [and_or_left, exists_or]

end Verdict

/-! ### Two lines -/

section Sample

/-- Two lines with a round of packets between them. -/
def twoLines : List Event := .alarm :: sampleRound (fun _ => 7) ++ [.alarm]

/-- The packets of a round bring nothing else. -/
theorem narrow_packetEvent {counter : Counters} (hc : Narrow counter) (fd : ℕ) {k : ℕ}
    (hk : k < sampleSetup.gsize) : (packetEvent fd k counter).Narrow := by
  intro p hp
  rw [acceptedData_ofClient hk] at hp
  split_ifs at hp
  obtain rfl := Option.some.inj hp
  exact hc

theorem narrow_twoLines : ∀ e ∈ twoLines, e.Narrow := by
  have hc : Narrow fun _ => 7 := fun _ => (by decide : (7 : BitVec 64).toNat < 2 ^ 32)
  intro e he
  simp only [twoLines, sampleRound, List.cons_append, List.nil_append, List.mem_cons,
    List.not_mem_nil, or_false] at he
  rcases he with rfl | rfl | rfl | rfl
  · trivial
  · exact narrow_packetEvent hc 5 (by decide)
  · exact narrow_packetEvent hc 6 (by decide)
  · trivial

theorem alternating_twoLines : Alternating (sampleSetup.gsize - 1) twoLines.reverse := by
  have hone : roundsSinceAlarm (sampleSetup.gsize - 1)
      (Event.alarm :: sampleRound fun _ => 7).reverse = some 1 := by decide +kernel
  have hfirst (c : ℕ) (hc : roundsSinceAlarm (sampleSetup.gsize - 1) [] = some c) : c = 1 :=
    absurd hc (by simp [roundsSinceAlarm])
  exact ⟨⟨trivial, hfirst⟩, fun c hc => (Option.some.inj (hone.symm.trans hc)).symm⟩

theorem verdict_of_run_twoLines : ∃ s, sampleRun twoLines = some s ∧
    (∀ j, dataLines decimalLib (logFile s.fdLog j) =
      (logLines s.fdLog j).map (LogLine.items id)) ∧ ∃ j : FsIdx, ∀ v,
    highIo decimalLib 17 (some 2) (.start 0 0 fun _ => 0) (logFiles sampleSetup s.fdLog) = some v ↔
      17 ≤ loggedCalls s.fdLog j ∧ LoggedPeak id (some 2) s.fdLog j ∧
        v = (j.val, loggedCalls s.fdLog j) := by
  have hrun : (sampleRun twoLines).isSome := by decide +kernel
  obtain ⟨s, hs⟩ := Option.isSome_iff_exists.mp hrun
  obtain ⟨-, hread, j, -, -, -, hverdict⟩ := verdict_of_run readsAs_decimalLib
    (List.mem_cons_self ..) (by decide) hs 17 0 0 (some 2) fun _ => 0
  exact ⟨s, hs, hread, j, hverdict⟩

theorem verdict_of_alternating_twoLines : ∃ s, sampleRun twoLines = some s ∧ ∃ j : FsIdx, ∀ v,
    highIo decimalLib 17 (some 2) (.start 0 0 fun _ => 0) (logFiles sampleSetup s.fdLog) = some v ↔
      17 ≤ loggedCalls s.fdLog j ∧
        (AtLeast 0 (some (2 : ℚ)) ∨ PeakIncrease id (some 2) 5 (logLines s.fdLog j) 0 ∨
          PeakIncrease id (some 2) 5 (logLines s.fdLog j) 2) ∧
        v = (j.val, loggedCalls s.fdLog j) := by
  have hrun : (sampleRun twoLines).isSome := by decide +kernel
  obtain ⟨s, hs⟩ := Option.isSome_iff_exists.mp hrun
  obtain ⟨j, -, -, -, hverdict⟩ := verdict_of_alternating readsAs_decimalLib (by decide)
    (by decide) (by decide) (fun _ _ => by decide) (fun _ => by decide) narrow_twoLines
    (.inr alternating_twoLines) (List.mem_cons_self ..) (by decide) hs 17 0 0 (some 2) fun _ => 0
  exact ⟨s, hs, j, hverdict⟩

end Sample

end Ooops
