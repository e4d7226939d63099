import Ooops.ChartReports
import Ooops.Framing
import Ooops.LogRates

/-!
# The Text of the Logs

`periodic` prints the totals of a server as `long`, and `Create_Chart_Reports` reads them again
into `int`. The time is a `long` too, but it is printed with `%6d`, of which its lowest 32 bits
are taken. A line is never too long for the buffer of the reader, and all nine items are read,
but the integers are those that were written only while they have 31 bits.

* `LogLine.text` is the line as it is printed, `scanLine_text` what is read from it.
* `length_text_lt`: no line is longer than the buffer of the reader.
* `SumOfHosts` are the sums that `Print_Summary` can make, `summed_printSummary` says so.
* `logLine_decodes_iff`: which lines are read as they were written.
-/

open Basis

namespace Ooops

/-! ### Printing -/

/-- `%6ld` of a `long`, `%7.1lf` of a `double`. -/
def RateColumn.text : RateColumn → CStr
  | .ld n => padLeft 6 (showInt n.toInt)
  | .lf x => padLeft 7 (showTenths (decide (x < 0)) (roundHalfEven (10 * x)).natAbs)

/-- The columns of a line behind the time, each with the blank in front of it. -/
def LogLine.columns (l : LogLine) : List CStr :=
  ([0, 1, 2, 3].map fun i => 32 :: padLeft 6 (showInt (l.totals i).toInt)) ++
    [0, 1, 2, 3].map fun i => 32 :: (l.rates i).text

/-- A line as `sprintf` prints it, with `%6d` for the time. -/
def LogLine.text (l : LogLine) : CStr :=
  padLeft 6 (showInt (wrapInt32 l.time)) ++ (l.columns.flatten ++ [10])

/-- A line fits the buffer of the reader, all nine items are read, and the integers are those that
were written. -/
structure Decodes {ρ : Type} (lib : LineLib ρ) (l : LogLine) : Prop where
  fits : fgetsLines 256 l.text = [l.text]
  items : ∃ r, scanLine lib (cstrOf l.text) = some r ∧ r.t = l.time ∧
    ∀ i, r.n i = (l.totals i).toInt

/-! ### The sums -/

/-- A sum over the hosts of a job, of counters that are not negative and have 32 bits. -/
def SumOfHosts (n : BitVec 64) : Prop :=
  ∃ counters : List ℕ, counters.length ≤ maxClients ∧ (∀ c ∈ counters, c < 2 ^ 32) ∧
    n.toNat = counters.sum

/-- The totals of a server are sums over the hosts, and the increments are what was added to such
sums. -/
structure Summed {gsize : ℕ} (s : Server gsize) (j : FsIdx) : Prop where
  total (i : Fin 4) : SumOfHosts (s.counterSum (counterIdx i j))
  increment (i : Fin 4) : ∃ old, SumOfHosts old ∧
    s.deltaCounterSum (counterIdx i j) = s.counterSum (counterIdx i j) - old

/-- A sum over the hosts has 45 bits. -/
theorem SumOfHosts.toNat_le {n : BitVec 64} (h : SumOfHosts n) : n.toNat ≤ 2 ^ 45 := by
  obtain ⟨counters, hlen, hlt, hn⟩ := h
  have hsum := List.sum_le_card_nsmul counters (2 ^ 32) fun c hc => (hlt c hc).le
  rw [smul_eq_mul] at hsum
  rw [maxClients] at hlen
  omega

theorem SumOfHosts.toInt_eq {n : BitVec 64} (h : SumOfHosts n) : n.toInt = n.toNat := by
  have := h.toNat_le
  rw [BitVec.toInt_eq_toNat_cond]
  omega

/-- **The sums of `Print_Summary`** over the rows of a job are sums over its hosts. -/
theorem summed_printSummary {cfg : Setup} {s : Server cfg.gsize} (hg : cfg.gsize ≤ maxClients)
    (hrows : ∀ k, Narrow (s.oopsDataList k))
    (hsaved : ∀ idx ∈ trackedIdx cfg, SumOfHosts (s.counterSumSave idx)) {j : FsIdx}
    (hj : j.val < cfg.nFsServer) : Summed (printSummary cfg s) j where
  total i := by
    rw [printSummary_counterSum (mem_trackedIdx hj)]
    refine ⟨List.ofFn fun k => (s.oopsDataList k (counterIdx i j)).toNat, ?_, ?_, ?_⟩
    · rwa [List.length_ofFn]
    · exact (List.forall_mem_ofFn_iff).mpr fun k => hrows k _
    · rw [toNat_sum_eq hg fun k => hrows k _, List.sum_ofFn]
  increment i :=
    ⟨_, hsaved _ (mem_trackedIdx hj), printSummary_deltaCounterSum (mem_trackedIdx hj)⟩

/-! ### Reading what was printed -/

/-- A `long` under `%d` is cut to 32 bits. -/
theorem scanD_showInt (k : ℕ) {z : ℤ} (hlo : -2 ^ 63 ≤ z) (hhi : z < 2 ^ 63) {c : UInt8}
    (hc : isDigit c = false) (s : CStr) :
    scanD (List.replicate k 32 ++ showInt z ++ c :: s) = some (wrapInt32 z, c :: s) := by
  have hclamp : max (-2 ^ 63) (min z (2 ^ 63 - 1)) = z := by omega
  rw [scanD, scanInt_showInt _ _ hc, Option.map_some, hclamp]

/-- A column stands behind a blank. -/
theorem scanD_column (w : ℕ) (n : BitVec 64) {c : UInt8} (hc : isDigit c = false) (s : CStr) :
    scanD (32 :: (padLeft w (showInt n.toInt) ++ c :: s)) = some (wrapInt32 n.toInt, c :: s) :=
  scanD_showInt (w - (showInt n.toInt).length + 1) n.le_toInt n.toInt_lt hc s

/-- The column of a rate is a decimal number. -/
theorem RateColumn.text_eq (r : RateColumn) :
    ∃ k d, r.text = List.replicate k 32 ++ d ∧ IsDecimal d := by
  cases r with
  | ld n => exact ⟨_, _, rfl, isDecimal_showInt _⟩
  | lf x => exact ⟨_, _, rfl, isDecimal_showTenths _ _⟩

/-- A rate is read up to what follows it. -/
theorem scanDouble_column {ρ : Type} (lib : LineLib ρ) (r : RateColumn) {c : UInt8}
    (hc : c = 32 ∨ c = 10) (s : CStr) :
    ∃ x, lib.scanDouble (32 :: (r.text ++ c :: s)) = some (x, c :: s) := by
  obtain ⟨k, d, htext, hd⟩ := r.text_eq
  obtain ⟨x, hx⟩ := lib.scanDouble_decimal (k + 1) d c s hd hc
  refine ⟨x, ?_⟩
  rw [htext, ← hx, List.replicate_succ]
  rfl

/-- **What is read from a line**: all nine items, the integers cut to 32 bits. -/
theorem scanLine_text {ρ : Type} (lib : LineLib ρ) (l : LogLine) :
    ∃ r, scanLine lib l.text = some r ∧ r.t = wrapInt32 l.time ∧
      ∀ i, r.n i = wrapInt32 (l.totals i).toInt := by
  have htime := wrapInt32_bounds l.time
  have hblank : isDigit 32 = false := rfl
  obtain ⟨x₃, hx₃⟩ := scanDouble_column lib (l.rates 3) (.inr rfl) []
  obtain ⟨x₂, hx₂⟩ := scanDouble_column lib (l.rates 2) (.inl rfl) ((l.rates 3).text ++ [10])
  obtain ⟨x₁, hx₁⟩ := scanDouble_column lib (l.rates 1) (.inl rfl)
    ((l.rates 2).text ++ 32 :: ((l.rates 3).text ++ [10]))
  obtain ⟨x₀, hx₀⟩ := scanDouble_column lib (l.rates 0) (.inl rfl)
    ((l.rates 1).text ++ 32 :: ((l.rates 2).text ++ 32 :: ((l.rates 3).text ++ [10])))
  refine ⟨⟨wrapInt32 l.time, fun i => wrapInt32 (l.totals i).toInt, ![x₀, x₁, x₂, x₃]⟩, ?_, rfl,
    fun _ => rfl⟩
  have htotals : ![wrapInt32 (l.totals 0).toInt, wrapInt32 (l.totals 1).toInt,
      wrapInt32 (l.totals 2).toInt, wrapInt32 (l.totals 3).toInt] =
        fun i => wrapInt32 (l.totals i).toInt := by
    funext i
    match i with
    | 0 | 1 | 2 | 3 => rfl
  simp only [scanLine, LogLine.text, LogLine.columns, List.map_cons, List.map_nil,
    List.cons_append, List.nil_append, List.flatten_cons, List.flatten_nil, List.append_assoc]
  rw [padLeft, scanD_showInt _ (by omega) (by omega) hblank]
  simp only [Option.bind_eq_bind, Option.bind_some, scanD_column _ _ hblank, hx₀, hx₁, hx₂, hx₃,
    htotals, wrapInt32_eq_self htime.1 htime.2]
  rfl

/-! ### The length of a line -/

theorem LogLine.mem_columns {l : LogLine} {d : CStr} (h : d ∈ l.columns) :
    (∃ i, d = 32 :: padLeft 6 (showInt (l.totals i).toInt)) ∨ ∃ i, d = 32 :: (l.rates i).text := by
  rcases List.mem_append.mp h with h | h
  · obtain ⟨i, -, rfl⟩ := List.mem_map.mp h
    exact .inl ⟨i, rfl⟩
  · obtain ⟨i, -, rfl⟩ := List.mem_map.mp h
    exact .inr ⟨i, rfl⟩

/-- A column holds no NUL and no end of a line. -/
theorem not_mem_blanks_decimal {c : UInt8} (hc : c = 0 ∨ c = 10) (k : ℕ) {d : CStr}
    (hd : IsDecimal d) : c ∉ List.replicate k 32 ++ d := by
  have hdigit : isDigit c = false := by rcases hc with rfl | rfl <;> rfl
  have hmem : c ∉ d := not_mem_isDecimal hd hdigit (by rcases hc with rfl | rfl <;> decide)
    (by rcases hc with rfl | rfl <;> decide)
  have hblank : c ≠ 32 := by rcases hc with rfl | rfl <;> decide
  rw [List.mem_append, not_or]
  exact ⟨fun h => hblank (List.eq_of_mem_replicate h), hmem⟩

/-- A line ends where its text ends. -/
theorem LogLine.not_mem_text (l : LogLine) {c : UInt8} (hc : c = 0 ∨ c = 10) :
    c ∉ padLeft 6 (showInt (wrapInt32 l.time)) ++ l.columns.flatten := by
  rw [List.mem_append, not_or]
  refine ⟨not_mem_blanks_decimal hc _ (isDecimal_showInt _), fun h => ?_⟩
  obtain ⟨d, hd, hmem⟩ := List.mem_flatten.mp h
  obtain ⟨i, rfl⟩ | ⟨i, rfl⟩ := l.mem_columns hd
  · exact not_mem_blanks_decimal hc (_ + 1) (isDecimal_showInt _) hmem
  · obtain ⟨k, d, htext, hdec⟩ := (l.rates i).text_eq
    rw [htext] at hmem
    exact not_mem_blanks_decimal hc (k + 1) hdec hmem

/-- A total has 19 digits at most. -/
theorem length_total_le (n : BitVec 64) : (padLeft 6 (showInt n.toInt)).length ≤ 20 := by
  have hlow := n.le_toInt
  have hhigh := n.toInt_lt
  have hlen : (showInt n.toInt).length ≤ 19 + 1 := length_showInt_le (by norm_num) (by omega)
  rw [length_padLeft]
  omega

/-- A rate is not much more than an increment. -/
theorem abs_loggedRate_le (cfg : Setup) (dn : BitVec 64) : |loggedRate cfg dn| ≤ 2 ^ 66 := by
  have hdn : |(dn.toInt : ℚ)| ≤ 2 ^ 63 := by
    have hlow := dn.le_toInt
    have hhigh := dn.toInt_lt
    have habs : |dn.toInt| ≤ 2 ^ 63 := abs_le.mpr ⟨by omega, by omega⟩
    exact_mod_cast habs
  have hincrement := (abs_roundDouble_le dn.toInt).trans
    (mul_le_mul_of_nonneg_left hdn (by norm_num))
  have hper := (abs_roundDouble_le (1 / cfg.tIntervalReport)).trans
    (mul_le_mul_of_nonneg_left (abs_one_div_intCast_le cfg.tIntervalReport) (by norm_num))
  calc |loggedRate cfg dn|
      ≤ 2 * |roundDouble dn.toInt * roundDouble (1 / cfg.tIntervalReport)| := abs_roundDouble_le _
    _ = 2 * (|roundDouble dn.toInt| * |roundDouble (1 / cfg.tIntervalReport)|) := by rw [abs_mul]
    _ ≤ 2 * (2 * 2 ^ 63 * (2 * 1)) := by gcongr
    _ = 2 ^ 66 := by norm_num

/-- A rate has two digits more, a sign and a point. -/
theorem length_rate_le (cfg : Setup) (dn : BitVec 64) :
    (RateColumn.lf (loggedRate cfg dn)).text.length ≤ 23 := by
  have hle := abs_loggedRate_le cfg dn
  have htenths := abs_roundHalfEven_sub_le (10 * loggedRate cfg dn)
  have hlt : ((roundHalfEven (10 * loggedRate cfg dn)).natAbs : ℚ) < 10 ^ 21 := by
    rw [abs_le] at hle htenths
    rw [Nat.cast_natAbs, Int.cast_abs, abs_lt]
    norm_num at hle ⊢
    constructor <;> linarith
  have hlen : (showTenths (decide (loggedRate cfg dn < 0))
      (roundHalfEven (10 * loggedRate cfg dn)).natAbs).length ≤ 20 + 3 :=
    length_showTenths_le _ (by norm_num) (by exact_mod_cast hlt)
  rw [RateColumn.text, length_padLeft]
  omega

/-- **A line fits the buffer** of the reader. -/
theorem length_text_lt (cfg : Setup) (s : Server cfg.gsize) (j : FsIdx) :
    (logLine cfg s j).text.length < 256 := by
  have htime : (padLeft 6 (showInt (wrapInt32 (logLine cfg s j).time))).length ≤ 11 := by
    have hbounds := wrapInt32_bounds (logLine cfg s j).time
    have hlen : (showInt (wrapInt32 (logLine cfg s j).time)).length ≤ 10 + 1 :=
      length_showInt_le (by norm_num) (by omega)
    rw [length_padLeft]
    omega
  have hcolumn : ∀ d ∈ (logLine cfg s j).columns, d.length ≤ 24 := fun d hd => by
    obtain ⟨i, rfl⟩ | ⟨i, rfl⟩ := LogLine.mem_columns hd
    · exact (Nat.succ_le_succ (length_total_le _)).trans (by norm_num)
    · rw [List.length_cons, logLine]
      dsimp only
      split_ifs with hzero
      · exact (Nat.succ_le_succ (length_total_le _)).trans (by norm_num)
      · exact Nat.succ_le_succ (length_rate_le cfg _)
  have hflat := List.sum_le_card_nsmul ((logLine cfg s j).columns.map List.length) 24 fun n hn => by
    obtain ⟨d, hd, rfl⟩ := List.mem_map.mp hn
    exact hcolumn d hd
  have hcount : (logLine cfg s j).columns.length = 8 := rfl
  rw [List.length_map, hcount, smul_eq_mul] at hflat
  rw [LogLine.text, List.length_append, List.length_append, List.length_flatten,
    List.length_singleton]
  omega

/-! ### The line that is read -/

/-- The reader gets the lines that fit its buffer one after the other. -/
theorem fgetsLines_lines {ls : List LogLine} (h : ∀ l ∈ ls, l.text.length < 256) :
    fgetsLines 256 (ls.map LogLine.text).flatten = ls.map LogLine.text := by
  induction ls with
  | nil => rfl
  | cons l ls ih =>
      obtain ⟨hl, hls⟩ := List.forall_mem_cons.mp h
      rw [LogLine.text, ← List.append_assoc, List.length_append, List.length_singleton] at hl
      have hfirst := fgetsLines_cons (l.not_mem_text (.inr rfl)) hl (ls.map LogLine.text).flatten
      rw [List.map_cons, List.flatten_cons, LogLine.text, List.append_assoc, List.append_assoc,
        List.singleton_append]
      rw [List.append_assoc] at hfirst
      rw [hfirst, ih hls, List.append_assoc]

/-- The reader gets the whole line. -/
theorem fgetsLines_text (cfg : Setup) (s : Server cfg.gsize) (j : FsIdx) :
    fgetsLines 256 (logLine cfg s j).text = [(logLine cfg s j).text] := by
  have hline := fgetsLines_lines (List.forall_mem_singleton.mpr (length_text_lt cfg s j))
  simpa only [List.map_cons, List.map_nil, List.flatten_singleton] using hline

theorem cstrOf_text (l : LogLine) : cstrOf l.text = l.text := by
  refine cstrOf_eq_self ?_
  have hmem := l.not_mem_text (.inl rfl)
  rw [LogLine.text, ← List.append_assoc, List.mem_append, not_or]
  exact ⟨hmem, by decide⟩

/-- **Which lines are read as they were written.** The line of a server fits the buffer and all
its items are read; the time and the totals are those that were written exactly if they have 31
bits. -/
theorem logLine_decodes_iff {ρ : Type} (lib : LineLib ρ) {cfg : Setup} {s : Server cfg.gsize}
    {j : FsIdx} (htime : 0 ≤ s.tNow) (hs : Summed s j) :
    Decodes lib (logLine cfg s j) ↔
      s.tNow < 2 ^ 31 ∧ ∀ i, (s.counterSum (counterIdx i j)).toNat < 2 ^ 31 := by
  obtain ⟨r, hr, ht, hn⟩ := scanLine_text lib (logLine cfg s j)
  rw [← cstrOf_text] at hr
  obtain ⟨t, ht'⟩ := Int.eq_ofNat_of_zero_le htime
  have htimes : wrapInt32 s.tNow = s.tNow ↔ s.tNow < 2 ^ 31 := by
    rw [ht', wrapInt32_natCast_eq_iff]
    omega
  have htotals (i : Fin 4) : r.n i = (s.counterSum (counterIdx i j)).toInt ↔
      (s.counterSum (counterIdx i j)).toNat < 2 ^ 31 := by
    rw [hn, ← wrapInt32_natCast_eq_iff, ← (hs.total i).toInt_eq]
    rfl
  rw [← htimes]
  simp only [← htotals]
  constructor
  · rintro ⟨-, r', hr', hrt, hrn⟩
    obtain rfl := Option.some.inj (hr.symm.trans hr')
    exact ⟨ht.symm.trans hrt, hrn⟩
  · rintro ⟨h₁, h₂⟩
    exact ⟨fgetsLines_text cfg s j, r, hr, ht.trans h₁, h₂⟩

/-! ### Three hosts -/

section Sample

/-- The daemon after a summary of three hosts with the same counters. -/
def summedServer (c : BitVec 64) : Server sampleSetup.gsize :=
  printSummary sampleSetup { sampleStart with oopsDataList := fun _ _ => c, tNow := 5 }

theorem summed_summedServer {c : BitVec 64} (hc : c.toNat < 2 ^ 32) : Summed (summedServer c) 0 :=
  summed_printSummary (by decide) (fun _ _ => hc)
    (fun _ _ => ⟨[], Nat.zero_le _, fun _ h => absurd h List.not_mem_nil, rfl⟩) (by decide)

theorem summedServer_tNow (c : BitVec 64) : (summedServer c).tNow = 5 := printSummary_tNow

theorem logLine_decodes_small : Decodes decimalLib (logLine sampleSetup (summedServer 7) 0) :=
  (logLine_decodes_iff decimalLib (by rw [summedServer_tNow]; decide)
    (summed_summedServer (by decide))).mpr
      ⟨by rw [summedServer_tNow]; decide, by decide +kernel⟩

/-- The sum of three counters of `2 ^ 30` is read as a negative number. -/
theorem large_sum_reads_negative :
    0 ≤ (summedServer (2 ^ 30)).tNow ∧ Summed (summedServer (2 ^ 30)) 0 ∧
      ((summedServer (2 ^ 30)).counterSum (counterIdx 0 0)).toInt = 3221225472 ∧
      (∃ r, scanLine decimalLib (cstrOf (logLine sampleSetup (summedServer (2 ^ 30)) 0).text) =
        some r ∧ r.n 0 = -1073741824) ∧
      ¬Decodes decimalLib (logLine sampleSetup (summedServer (2 ^ 30)) 0) := by
  have hsum : ((summedServer (2 ^ 30)).counterSum (counterIdx 0 0)).toInt = 3221225472 := by
    decide +kernel
  obtain ⟨r, hr, -, hn⟩ := scanLine_text decimalLib (logLine sampleSetup (summedServer (2 ^ 30)) 0)
  rw [← cstrOf_text] at hr
  have hread : r.n 0 = -1073741824 := by
    rw [hn]
    exact congrArg wrapInt32 hsum
  refine ⟨by rw [summedServer_tNow]; decide, summed_summedServer (by decide), hsum,
    ⟨r, hr, hread⟩, fun ⟨_, r', hr', _, hn'⟩ => ?_⟩
  obtain rfl := Option.some.inj (hr.symm.trans hr')
  have hwrote : r.n 0 = 3221225472 := (hn' 0).trans hsum
  omega

end Sample

end Ooops
