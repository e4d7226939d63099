import Mathlib.Data.List.Chain
import Mathlib.Tactic.LinearCombination
import Ooops.Rounds

/-!
# Logged Rates

At every alarm `periodic` writes a line for each server: the time, the totals of the last
summary, and the increments of the last summary divided by the interval. The lines come
with the timer and the summaries come with the packets, so that the increments of a line
are those since the line before only if one summary was made between the two. Between two
lines without a summary the increments are reported twice, and with two the first ones are
not reported at all (`idle_interval_repeats`).

* `Rated` is what the rates of a line should say about the totals of two lines.
* `Alternating` is what the packets and the timer have to keep to: between two alarms,
  exactly one round of packets is closed.
* `rated_of_alternating`: then all lines are rated, provided that the interval divides ten, as
  rates have one decimal, and the counters have 32 bits, so that the `double` is exact
  enough.
-/

open Basis

namespace Ooops

/-- The lines in the log of a server. -/
def logLines (log : List LogLine) (j : FsIdx) : List LogLine :=
  log.filter fun l => l.server = j.val

/-- Each rate of a line, times the interval, is the increase of its total since the line
before. -/
def Rated (tIntervalReport : ℤ) (l l' : LogLine) : Prop :=
  ∀ i, (l'.rates i).shown * tIntervalReport =
    (((l'.totals i).toInt - (l.totals i).toInt : ℤ) : ℚ)

instance (t : ℤ) (l l' : LogLine) : Decidable (Rated t l l') :=
  inferInstanceAs (Decidable (∀ _, _))

/-- The rounds of packets that were closed since the last alarm, in a history of events
with the last one first, and `none` before the first alarm. -/
def roundsSinceAlarm (m : ℤ) : List Event → Option ℕ
  | [] => none
  | .alarm :: _ => some 0
  | e :: es =>
      (roundsSinceAlarm m es).map fun c =>
        if e.data.isSome ∧ Closes m ((acceptedRanks es).length + 1) then c + 1 else c

/-- From the first alarm on, every alarm comes after exactly one round was closed, in a
history of events with the last one first. -/
def Alternating (m : ℤ) : List Event → Prop
  | [] => True
  | .alarm :: es => Alternating m es ∧ ∀ c, roundsSinceAlarm m es = some c → c = 1
  | _ :: es => Alternating m es

/-- A counter of 32 bits. -/
def Narrow (counter : Counters) : Prop := ∀ idx, (counter idx).toNat < 2 ^ 32

/-- The counters that an event brings have 32 bits. -/
def Event.Narrow : Event → Prop
  | .readable _ r => ∀ p, acceptedData r = some p → Ooops.Narrow p.counter
  | .localWrite counter => Ooops.Narrow counter
  | _ => True

/-- A packet of such an event has counters of 32 bits. -/
theorem Event.Narrow.of_data {e : Event} (h : e.Narrow) {p : OoopsData} (hp : e.data = some p) :
    Ooops.Narrow p.counter := by
  cases e with
  | readable fd r => exact h p hp
  | _ => exact absurd hp (by simp [Event.data])

section Rate

variable {cfg : Setup}

/-- An interval is a whole number of seconds. -/
theorem abs_one_div_intCast_le (t : ℤ) : |1 / (t : ℚ)| ≤ 1 := by
  by_cases ht : t = 0
  · simp [ht]
  · have hge : (1 : ℚ) ≤ |(t : ℚ)| := by exact_mod_cast Int.one_le_abs ht
    rw [abs_div, abs_one]
    exact div_le_one_of_le₀ hge (abs_nonneg _)

/-- The error of a logged rate, for an increment that is not too large for the precision of a
`double`. -/
theorem abs_loggedRate_sub_lt {dn : BitVec 64} (hdn : |dn.toInt| ≤ 2 ^ 45) :
    |loggedRate cfg dn - dn.toInt * (1 / cfg.tIntervalReport)| < 1 / 20 ∧
      |(dn.toInt : ℚ) * (1 / cfg.tIntervalReport)| ≤ 2 ^ 45 := by
  set d : ℚ := ((dn.toInt : ℤ) : ℚ) with hd
  set t : ℚ := 1 / cfg.tIntervalReport with ht
  have hdle : |d| ≤ 2 ^ 45 := by
    rw [hd, ← Int.cast_abs]
    exact_mod_cast hdn
  have ht₁ : |t| ≤ 1 := abs_one_div_intCast_le cfg.tIntervalReport
  have ha : |roundDouble d - d| ≤ 1 / 2 ^ 8 := by
    refine (abs_roundDouble_sub_le d).trans ?_
    rw [div_le_iff₀ (by norm_num)]
    norm_num at hdle ⊢
    exact hdle
  have hb : |roundDouble t - t| ≤ 1 / 2 ^ 53 :=
    (abs_roundDouble_sub_le t).trans (div_le_div_of_nonneg_right ht₁ (by norm_num))
  have hb₂ : |roundDouble t| ≤ 2 := by
    have htri := abs_sub_abs_le_abs_sub (roundDouble t) t
    norm_num at hb
    linarith
  have hprod : |roundDouble d * roundDouble t - d * t| ≤ 3 / 2 ^ 8 := by
    have hsplit : roundDouble d * roundDouble t - d * t =
        (roundDouble d - d) * roundDouble t + d * (roundDouble t - t) := by ring
    calc |roundDouble d * roundDouble t - d * t|
        ≤ |roundDouble d - d| * |roundDouble t| + |d| * |roundDouble t - t| := by
          rw [hsplit, ← abs_mul, ← abs_mul]
          exact abs_add_le ..
      _ ≤ 1 / 2 ^ 8 * 2 + 2 ^ 45 * (1 / 2 ^ 53) := by gcongr
      _ = 3 / 2 ^ 8 := by norm_num
  have hquot : |d * t| ≤ 2 ^ 45 := by
    rw [abs_mul]
    calc |d| * |t| ≤ 2 ^ 45 * 1 := by gcongr
      _ = 2 ^ 45 := by norm_num
  have hround := abs_roundDouble_sub_le_of hprod
  have hrest : (|d * t| + 3 / 2 ^ 8) / 2 ^ 53 ≤ (2 ^ 45 + 3 / 2 ^ 8) / 2 ^ 53 := by gcongr
  refine ⟨?_, hquot⟩
  rw [loggedRate, ← hd, ← ht]
  norm_num at hround hrest ⊢
  linarith

/-- A rate is shown exactly where a tenth divides it and the increment is not too large for
the precision of a `double`. -/
theorem shown_loggedRate (hpos : 0 < cfg.tIntervalReport) (hdvd : cfg.tIntervalReport ∣ 10)
    {dn : BitVec 64} (hdn : |dn.toInt| ≤ 2 ^ 45) :
    (RateColumn.lf (loggedRate cfg dn)).shown * cfg.tIntervalReport = dn.toInt := by
  obtain ⟨q, hq⟩ := hdvd
  have hT : (0 : ℚ) < cfg.tIntervalReport := by exact_mod_cast hpos
  have hq' : (10 : ℚ) = cfg.tIntervalReport * q := by exact_mod_cast hq
  have hrate := (@abs_loggedRate_sub_lt cfg _ hdn).1
  set d : ℚ := ((dn.toInt : ℤ) : ℚ) with hd
  set t : ℚ := 1 / cfg.tIntervalReport with ht
  have hq₀ : (q : ℚ) ≠ 0 := by
    intro hzero
    rw [hzero, mul_zero] at hq'
    norm_num at hq'
  have hexact : d * t = d * q / 10 := by
    rw [ht, hq']
    field_simp
  have htenth : roundHalfEven (10 * loggedRate cfg dn) = dn.toInt * q := by
    refine roundHalfEven_eq ?_
    push_cast
    rw [hexact] at hrate
    have hscale : 10 * loggedRate cfg dn - d * q =
        10 * (loggedRate cfg dn - d * q / 10) := by ring
    rw [hscale, abs_mul, abs_of_pos (by norm_num)]
    linarith
  rw [RateColumn.shown, htenth]
  push_cast
  linear_combination (d / 10) * (-hq')

end Rate

/-! ## What is known along a run -/

section Run

variable {cfg : Setup} {s s' : Server cfg.gsize} {es : List Event}

/-- The sums, the increments, the time and the log are as before. -/
structure Quiet (s s' : Server cfg.gsize) : Prop where
  counterSum_eq : s'.counterSum = s.counterSum
  counterSumSave_eq : s'.counterSumSave = s.counterSumSave
  deltaCounterSum_eq : s'.deltaCounterSum = s.deltaCounterSum
  tNow_eq : s'.tNow = s.tNow
  fdLog_eq : s'.fdLog = s.fdLog

/-- All counters of the rows and of the local node have 32 bits. -/
structure NarrowRows (s : Server cfg.gsize) : Prop where
  row : ∀ k, Narrow (s.oopsDataList k)
  localData : Narrow s.localData

/-- A sum over at most as many rows as there can be clients does not wrap around. -/
theorem toNat_sum_eq {gsize : ℕ} (hg : gsize ≤ maxClients) {f : Fin gsize → BitVec 64}
    (hf : ∀ k, (f k).toNat < 2 ^ 32) : (∑ k, f k).toNat = ∑ k, (f k).toNat := by
  have hpart (t : Finset (Fin gsize)) : (∑ k ∈ t, f k).toNat = ∑ k ∈ t, (f k).toNat := by
    induction t using Finset.induction_on with
    | empty => rfl
    | insert k t hk ih =>
        have hle : ∑ k ∈ t, (f k).toNat ≤ t.card * 2 ^ 32 := by
          rw [← smul_eq_mul]
          exact Finset.sum_le_card_nsmul t _ _ fun k _ => (hf k).le
        have hcard : t.card ≤ gsize := by simpa using Finset.card_le_univ t
        have hrow := hf k
        rw [maxClients] at hg
        rw [Finset.sum_insert hk, Finset.sum_insert hk, BitVec.toNat_add, ih,
          Nat.mod_eq_of_lt (by omega)]
  exact hpart Finset.univ

/-- A sum of counters of 32 bits over the rows of a job has 45 bits. -/
theorem toNat_sum_lt (hg : cfg.gsize ≤ maxClients) (hrows : NarrowRows s) (idx : Fin 32) :
    (∑ k, s.oopsDataList k idx).toNat ≤ 2 ^ 45 := by
  have hle := Finset.sum_le_card_nsmul Finset.univ (fun k => (s.oopsDataList k idx).toNat)
    (2 ^ 32) fun k _ => (hrows.row k idx).le
  rw [Finset.card_univ, Fintype.card_fin, smul_eq_mul] at hle
  rw [toNat_sum_eq hg fun k => hrows.row k idx]
  rw [maxClients] at hg
  omega

/-- The local counters in row `0` have 32 bits too. -/
theorem NarrowRows.copyLocal (h : NarrowRows s) : NarrowRows s.copyLocal := by
  refine ⟨fun k => ?_, h.localData⟩
  simp only [Server.copyLocal]
  split_ifs
  · exact h.localData
  · exact h.row k

theorem NarrowRows.printSummary (h : NarrowRows s) : NarrowRows (printSummary cfg s) := by
  constructor
  · rw [printSummary_oopsDataList]
    exact h.row
  · rw [printSummary_localData]
    exact h.localData

theorem NarrowRows.store (h : NarrowRows s) {k : Fin cfg.gsize} {counter : Counters}
    (hc : Narrow counter) : NarrowRows (s.store k counter) := by
  refine ⟨fun j => ?_, h.localData⟩
  have hrow : (s.store k counter).oopsDataList j =
      if j = k then counter else s.oopsDataList j := Function.update_apply ..
  rw [hrow]
  split_ifs
  · exact hc
  · exact h.row j

/-- The rows keep to 32 bits while packets and local counters do. -/
theorem NarrowRows.step (hrows : NarrowRows s) {e : Event} (he : e.Narrow)
    (h : serverStep cfg s e = some s') : NarrowRows s' := by
  obtain ⟨p, hp, htake⟩ | ⟨-, rfl⟩ | ⟨-, -, localData, fds, rfl, hlocal⟩ := serverStep_cases h
  · obtain ⟨-, k, -, rfl⟩ := takeData_eq_some_iff.mp htake
    have hstore := hrows.store (k := k) (he.of_data hp)
    rw [afterData]
    split_ifs
    · exact hstore.copyLocal.printSummary
    · exact hstore
  · by_cases hg : cfg.gsize = 1
    · rw [periodic_of_eq hg]
      exact ⟨hrows.copyLocal.printSummary.row, hrows.copyLocal.printSummary.localData⟩
    · rw [periodic_of_ne hg]
      exact ⟨hrows.row, hrows.localData⟩
  · refine ⟨hrows.row, ?_⟩
    rcases hlocal with rfl | rfl
    · exact hrows.localData
    · exact he

/-- The tracked sums are saved and small, and the rows are narrow. -/
structure Settled (s : Server cfg.gsize) : Prop where
  saved : ∀ idx ∈ trackedIdx cfg, s.counterSumSave idx = s.counterSum idx
  small : ∀ idx ∈ trackedIdx cfg, (s.counterSum idx).toNat ≤ 2 ^ 45
  rows : NarrowRows s

/-- A summary settles the sums. -/
theorem NarrowRows.settled (hg : cfg.gsize ≤ maxClients) (h : NarrowRows s) :
    Settled (Ooops.printSummary cfg s) where
  saved := fun _ hidx => printSummary_counterSumSave hidx
  small := fun idx hidx => by
    rw [printSummary_counterSum hidx]
    exact toNat_sum_lt hg h idx
  rows := h.printSummary

/-- Sums stay settled while they stay as they are. -/
theorem Settled.of_quiet (h : Settled s) (hq : Quiet s s') (hrows : NarrowRows s') :
    Settled s' where
  saved := by
    rw [hq.counterSum_eq, hq.counterSumSave_eq]
    exact h.saved
  small := by
    rw [hq.counterSum_eq]
    exact h.small
  rows := hrows

/-- What the log of server `j` says about the state, when `c` rounds were closed since the
last alarm: none yet, and the last line has the totals; one, and the increments are those
since the last line. -/
def Reported (s : Server cfg.gsize) (j : FsIdx) (log : List LogLine) : Option ℕ → Prop
  | none => log = [] ∧ s.tNow = -cfg.tIntervalReport
  | some c =>
      0 ≤ s.tNow ∧ ∃ l, log.getLast? = some l ∧ (∀ i, (l.totals i).toNat ≤ 2 ^ 45) ∧
        (c = 0 → ∀ i, s.counterSum (counterIdx i j) = l.totals i) ∧
        (c = 1 → ∀ i, s.deltaCounterSum (counterIdx i j) =
          s.counterSum (counterIdx i j) - l.totals i)

variable {j : FsIdx} {log : List LogLine} {c : Option ℕ}

theorem Reported.of_quiet (h : Reported s j log c) (hq : Quiet s s') :
    Reported s' j log c := by
  cases c with
  | none => exact ⟨h.1, hq.tNow_eq.trans h.2⟩
  | some c =>
      rw [Reported, hq.tNow_eq, hq.counterSum_eq, hq.deltaCounterSum_eq]
      exact h

/-- A summary is one more round. -/
theorem Reported.printSummary (hj : j.val < cfg.nFsServer) (hs : Settled s)
    (h : Reported s j log c) :
    Reported (Ooops.printSummary cfg s) j log (c.map fun c => c + 1) := by
  cases c with
  | none => exact ⟨h.1, printSummary_tNow.trans h.2⟩
  | some c =>
      obtain ⟨ht, l, hl, hsmall, hzero, -⟩ := h
      refine ⟨by rwa [printSummary_tNow], l, hl, hsmall, fun hc => absurd hc (Nat.succ_ne_zero c),
        fun hc i => ?_⟩
      have hidx := mem_trackedIdx (i := i) hj
      rw [printSummary_deltaCounterSum hidx, hs.saved _ hidx, hzero (Nat.succ.inj hc) i]

/-- Small counters do not wrap when they are subtracted. -/
theorem toInt_sub_of_small {x y : BitVec 64} (hx : x.toNat ≤ 2 ^ 45) (hy : y.toNat ≤ 2 ^ 45) :
    (x - y).toInt = x.toInt - y.toInt := by
  rw [BitVec.toInt_sub, BitVec.toInt_eq_toNat_of_lt (by omega),
    BitVec.toInt_eq_toNat_of_lt (by omega)]
  exact Int.bmod_eq_of_le (by omega) (by omega)

/-- The line that an alarm writes after one round is rated, and it has the totals. -/
theorem Reported.logLine (hpos : 0 < cfg.tIntervalReport) (hdvd : cfg.tIntervalReport ∣ 10)
    (hj : j.val < cfg.nFsServer) (hs : Settled s) (h : Reported s j log c)
    (hc : ∀ n, c = some n → n = 1) (hlog : log.IsChain (Rated cfg.tIntervalReport))
    {t : Server cfg.gsize} (ht : t = { s with tNow := s.tNow + cfg.tIntervalReport }) :
    (log ++ [Ooops.logLine cfg t j]).IsChain (Rated cfg.tIntervalReport) ∧
      Reported t j (log ++ [Ooops.logLine cfg t j]) (some 0) := by
  subst ht
  have hsmall (i : Fin 4) : (s.counterSum (counterIdx i j)).toNat ≤ 2 ^ 45 :=
    hs.small _ (mem_trackedIdx hj)
  cases c with
  | none =>
      obtain ⟨rfl, htNow⟩ := h
      refine ⟨List.isChain_singleton _, ?_, _, List.getLast?_singleton, hsmall,
        fun _ _ => rfl, fun h01 => absurd h01 (by omega)⟩
      simp only [htNow]
      omega
  | some c =>
      obtain ⟨htNow, l, hl, hlsmall, -, hone⟩ := h
      refine ⟨List.isChain_append.mpr ⟨hlog, List.isChain_singleton _, ?_⟩, ?_, _,
        List.getLast?_concat, hsmall, fun _ _ => rfl, fun h01 => absurd h01 (by omega)⟩
      · intro l₁ hl₁ l₂ hl₂ i
        obtain rfl : l = l₁ := Option.some.inj (hl.symm.trans hl₁)
        obtain rfl := Option.some.inj hl₂
        have hne : s.tNow + cfg.tIntervalReport ≠ 0 := by omega
        have hdelta : (s.deltaCounterSum (counterIdx i j)).toInt =
            (s.counterSum (counterIdx i j)).toInt - (l.totals i).toInt := by
          rw [hone (hc c rfl) i, toInt_sub_of_small (hsmall i) (hlsmall i)]
        have hbound : |(s.deltaCounterSum (counterIdx i j)).toInt| ≤ 2 ^ 45 := by
          have h₁ := hsmall i
          have h₂ := hlsmall i
          rw [hdelta, BitVec.toInt_eq_toNat_of_lt (by omega),
            BitVec.toInt_eq_toNat_of_lt (by omega), abs_le]
          omega
        have hshown := shown_loggedRate hpos hdvd hbound
        simp only [Ooops.logLine, if_neg hne]
        rw [hshown, hdelta]
      · simp only
        omega

/-- The lines that an alarm adds to the log of one server. -/
theorem logLines_append (hj : j.val < cfg.nFsServer) (fdLog : List LogLine) :
    logLines (fdLog ++ (List.finRange cfg.nFsServer).map fun k =>
        logLine cfg s (k.castLE cfg.nFsServer_le)) j =
      logLines fdLog j ++ [logLine cfg s j] := by
  have hone : (List.finRange cfg.nFsServer).filter (fun k => decide (k.val = j.val)) =
      [⟨j, hj⟩] := by
    have heq : (fun k : Fin cfg.nFsServer => decide (k.val = j.val)) =
        fun k => k == ⟨j, hj⟩ := by
      funext k
      rw [beq_eq_decide]
      exact decide_eq_decide.mpr (Fin.ext_iff (b := ⟨j, hj⟩)).symm
    rw [heq, List.filter_beq,
      List.count_eq_one_of_mem (List.nodup_finRange _) (List.mem_finRange _)]
    rfl
  rw [logLines, List.filter_append, List.filter_map]
  congr 1
  exact (congrArg (List.map _) hone).trans rfl

/-- Any other event than an alarm closes a round or does not. -/
theorem roundsSinceAlarm_of_ne {m : ℤ} {e : Event} (he : e ≠ .alarm) (hist : List Event) :
    roundsSinceAlarm m (e :: hist) = (roundsSinceAlarm m hist).map fun c =>
      if e.data.isSome ∧ Closes m ((acceptedRanks hist).length + 1) then c + 1 else c := by
  cases e with
  | alarm => exact absurd rfl he
  | _ => rfl

/-- Only packets close rounds. -/
theorem roundsSinceAlarm_of_none {m : ℤ} {e : Event} (he : e ≠ .alarm) (hdata : e.data = none)
    (hist : List Event) : roundsSinceAlarm m (e :: hist) = roundsSinceAlarm m hist := by
  rw [roundsSinceAlarm_of_ne he, hdata]
  simp

/-- An alternating history was so before. -/
theorem Alternating.of_cons {m : ℤ} {e : Event} {hist : List Event}
    (h : Alternating m (e :: hist)) : Alternating m hist := by
  cases e with
  | alarm => exact h.1
  | _ => exact h

theorem length_acceptedRanks_reverse (es : List Event) :
    (acceptedRanks es.reverse).length = (acceptedRanks es).length := by
  rw [acceptedRanks, acceptedRanks, List.filterMap_reverse, List.length_reverse]

/-- What is known of a run: the sums are settled, the logs are rated and report them, and
where there are no clients no round is ever closed. -/
structure Logged (cfg : Setup) (es : List Event) (s : Server cfg.gsize) : Prop where
  settled : Settled s
  rated : ∀ j : FsIdx, j.val < cfg.nFsServer →
    (logLines s.fdLog j).IsChain (Rated cfg.tIntervalReport)
  reported : ∀ j : FsIdx, j.val < cfg.nFsServer →
    Reported s j (logLines s.fdLog j) (roundsSinceAlarm (cfg.gsize - 1) es.reverse)
  idle : cfg.gsize = 1 → ∀ c, roundsSinceAlarm (cfg.gsize - 1) es.reverse = some c → c = 0

/-- An event that brings nothing but local data. -/
theorem Logged.of_quiet (h : Logged cfg es s) (hq : Quiet s s') (hrows : NarrowRows s')
    {e : Event}
    (hrounds : roundsSinceAlarm (cfg.gsize - 1) (e :: es.reverse) =
      roundsSinceAlarm (cfg.gsize - 1) es.reverse) : Logged cfg (es ++ [e]) s' := by
  have hhist : (es ++ [e]).reverse = e :: es.reverse := List.reverse_concat
  refine ⟨h.settled.of_quiet hq hrows, ?_, ?_, ?_⟩
  · rw [hq.fdLog_eq]
    exact h.rated
  · intro j hj
    rw [hhist, hrounds, hq.fdLog_eq]
    exact (h.reported j hj).of_quiet hq
  · rw [hhist, hrounds]
    exact h.idle

/-- A packet: the last one of a round makes a summary. -/
theorem Logged.packet (hg : cfg.gsize ≤ maxClients) (h : Logged cfg es s)
    (hn : s.nDataCount = wrapInt32 (acceptedRanks es).length) {e : Event} {p : OoopsData}
    (hp : e.data = some p) (hone : cfg.gsize ≠ 1) {k : Fin cfg.gsize}
    (hrows : NarrowRows (s.store k p.counter)) :
    Logged cfg (es ++ [e]) (afterData s k p.counter) := by
  have hhist : (es ++ [e]).reverse = e :: es.reverse := List.reverse_concat
  have halarm : e ≠ .alarm := by
    rintro rfl
    exact absurd hp (by simp [Event.data])
  have hclose : (s.store k p.counter).nDataCount.tmod (cfg.gsize - 1) = 0 ↔
      Closes (cfg.gsize - 1) ((acceptedRanks es).length + 1) := closes_succ hn
  have hrounds := roundsSinceAlarm_of_ne (m := cfg.gsize - 1) halarm es.reverse
  rw [length_acceptedRanks_reverse, hp] at hrounds
  by_cases hc : Closes (cfg.gsize - 1) ((acceptedRanks es).length + 1)
  · rw [afterData, if_pos (hclose.mpr hc)]
    have hq : Quiet s (s.store k p.counter).copyLocal := ⟨rfl, rfl, rfl, rfl, rfl⟩
    have hset := h.settled.of_quiet hq hrows.copyLocal
    simp only [Option.isSome_some, hc, and_self, if_true] at hrounds
    refine ⟨hrows.copyLocal.settled hg, ?_, ?_, fun h₁ => absurd h₁ hone⟩
    · rw [printSummary_fdLog]
      exact h.rated
    · intro j hj
      rw [printSummary_fdLog, hhist, hrounds]
      exact ((h.reported j hj).of_quiet hq).printSummary hj hset
  · rw [afterData, if_neg fun hclosed => hc (hclose.mp hclosed)]
    have hq : Quiet s (s.store k p.counter) := ⟨rfl, rfl, rfl, rfl, rfl⟩
    refine h.of_quiet hq hrows ?_
    simp only [hrounds, hc, and_false, if_false, Option.map_id']

/-- An alarm: every log gets one more line. -/
theorem Logged.alarm (hg : cfg.gsize ≤ maxClients) (hpos : 0 < cfg.tIntervalReport)
    (hdvd : cfg.tIntervalReport ∣ 10) (h : Logged cfg es s)
    (halt : cfg.gsize = 1 ∨ Alternating (cfg.gsize - 1) (.alarm :: es.reverse)) :
    Logged cfg (es ++ [.alarm]) (periodic cfg s) := by
  have hhist : (es ++ [Event.alarm]).reverse = .alarm :: es.reverse := List.reverse_concat
  have hline (t : Server cfg.gsize) (c : Option ℕ) (hlog : t.fdLog = s.fdLog)
      (hset : Settled t)
      (hrep : ∀ j : FsIdx, j.val < cfg.nFsServer → Reported t j (logLines t.fdLog j) c)
      (hc : ∀ n, c = some n → n = 1) :
      Logged cfg (es ++ [.alarm])
        { t with
          tNow := t.tNow + cfg.tIntervalReport
          fdLog := t.fdLog ++ (List.finRange cfg.nFsServer).map fun j =>
            Ooops.logLine cfg { t with tNow := t.tNow + cfg.tIntervalReport }
              (j.castLE cfg.nFsServer_le) } := by
    have hboth (j : FsIdx) (hj : j.val < cfg.nFsServer) :=
      (hrep j hj).logLine hpos hdvd hj hset hc (hlog ▸ h.rated j hj) rfl
    refine ⟨⟨hset.saved, hset.small, hset.rows.row, hset.rows.localData⟩, ?_, ?_, ?_⟩
    · intro j hj
      simp only [logLines_append hj]
      exact (hboth j hj).1
    · intro j hj
      rw [hhist]
      simp only [logLines_append hj]
      exact (hboth j hj).2
    · rw [hhist]
      rintro - c ⟨rfl⟩
      rfl
  by_cases h₁ : cfg.gsize = 1
  · have hq : Quiet s s.copyLocal := ⟨rfl, rfl, rfl, rfl, rfl⟩
    have hset := h.settled.of_quiet hq h.settled.rows.copyLocal
    rw [periodic_of_eq h₁]
    have hlines := hline (printSummary cfg s.copyLocal)
      ((roundsSinceAlarm (cfg.gsize - 1) es.reverse).map fun c => c + 1)
      printSummary_fdLog (h.settled.rows.copyLocal.settled hg)
      (fun j hj => by
        rw [printSummary_fdLog]
        exact ((h.reported j hj).of_quiet hq).printSummary hj hset)
      (fun n hn => by
        obtain ⟨c, hc, rfl⟩ := Option.map_eq_some_iff.mp hn
        rw [h.idle h₁ c hc])
    rw [printSummary_tNow, printSummary_fdLog] at hlines
    exact hlines
  · rw [periodic_of_ne h₁]
    exact hline s _ rfl h.settled h.reported (halt.resolve_left h₁).2

/-- One more event of an alternating run. -/
theorem Logged.step (hg : cfg.gsize ≤ maxClients) (hpos : 0 < cfg.tIntervalReport)
    (hdvd : cfg.tIntervalReport ∣ 10) (h : Logged cfg es s)
    (hn : 2 ≤ cfg.gsize → s.nDataCount = wrapInt32 (acceptedRanks es).length) {e : Event}
    (he : e.Narrow) (halt : cfg.gsize = 1 ∨ Alternating (cfg.gsize - 1) (e :: es.reverse))
    (hstep : serverStep cfg s e = some s') : Logged cfg (es ++ [e]) s' := by
  have hrows := h.settled.rows.step he hstep
  obtain ⟨p, hp, htake⟩ | ⟨rfl, rfl⟩ | ⟨hdata, halarm, localData, fds, rfl, -⟩ :=
    serverStep_cases hstep
  · obtain ⟨hone, k, -, rfl⟩ := takeData_eq_some_iff.mp htake
    have hlt := k.isLt
    exact h.packet hg (hn (by omega)) hp hone (h.settled.rows.store (he.of_data hp))
  · exact h.alarm hg hpos hdvd halt
  · have hq : Quiet s { s with localData := localData, fds := fds } :=
      ⟨rfl, rfl, rfl, rfl, rfl⟩
    exact h.of_quiet hq hrows (roundsSinceAlarm_of_none halarm hdata _)

/-- An alternating run keeps the logs. -/
theorem logged_of_runSteps (hg : cfg.gsize ≤ maxClients) (hpos : 0 < cfg.tIntervalReport)
    (hdvd : cfg.tIntervalReport ∣ 10) {rows : Fin cfg.gsize → Counters}
    {localData : Counters} (hrows : ∀ k, Narrow (rows k)) (hlocal : Narrow localData)
    (hnarrow : ∀ e ∈ es, e.Narrow)
    (halt : cfg.gsize = 1 ∨ Alternating (cfg.gsize - 1) es.reverse)
    (hrun : runSteps (serverStep cfg) (Server.start cfg rows localData) es = some s) :
    Logged cfg es s := by
  induction es using List.reverseRecOn generalizing s with
  | nil =>
      obtain rfl := Option.some.inj hrun
      refine ⟨⟨fun _ _ => rfl, fun _ _ => ?_, hrows, hlocal⟩, fun _ _ => ?_, fun _ _ => ?_,
        fun _ c hc => absurd hc (by simp [roundsSinceAlarm])⟩
      · simp [Server.start]
      · exact List.isChain_nil
      · exact ⟨rfl, rfl⟩
  | append_singleton es e ih =>
      obtain ⟨m, hm, hstep⟩ := runSteps_concat_eq_some.mp hrun
      rw [List.reverse_concat] at halt
      have hbefore := ih (fun e he => hnarrow e (List.mem_append_left _ he))
        (halt.imp_right Alternating.of_cons) hm
      exact hbefore.step hg hpos hdvd (fun h₂ => nDataCount_of_runSteps h₂ hm)
        (hnarrow e (List.mem_append_right _ (List.mem_singleton_self e))) halt hstep

/-- **The log.** Where exactly one round is closed between two alarms, the rates of every
line are the increases of the totals since the line before. -/
theorem rated_of_alternating (hg : cfg.gsize ≤ maxClients) (hpos : 0 < cfg.tIntervalReport)
    (hdvd : cfg.tIntervalReport ∣ 10) {rows : Fin cfg.gsize → Counters}
    {localData : Counters} (hrows : ∀ k, Narrow (rows k)) (hlocal : Narrow localData)
    (hnarrow : ∀ e ∈ es, e.Narrow)
    (halt : cfg.gsize = 1 ∨ Alternating (cfg.gsize - 1) es.reverse)
    (hrun : runSteps (serverStep cfg) (Server.start cfg rows localData) es = some s)
    {j : FsIdx} (hj : j.val < cfg.nFsServer) :
    (logLines s.fdLog j).IsChain (Rated cfg.tIntervalReport) :=
  (logged_of_runSteps hg hpos hdvd hrows hlocal hnarrow halt hrun).rated j hj

end Run

section Sample

/-- The daemon with two clients and a line every five seconds, after the events. -/
def sampleRun (es : List Event) : Option (Server sampleSetup.gsize) :=
  runSteps (serverStep sampleSetup) (Server.start sampleSetup (fun _ _ => 9) fun _ => 3) es

/-- A round of the two clients. -/
def sampleRound (counter : Counters) : List Event :=
  [packetEvent 5 1 counter, packetEvent 6 2 counter]

/-- One round between two alarms. -/
theorem rated_of_alternating_round :
    ∃ s, sampleRun (.alarm :: sampleRound (fun _ => 7) ++ [.alarm]) = some s ∧
      (logLines s.fdLog 0).IsChain (Rated sampleSetup.tIntervalReport) := by
  have hrun : (sampleRun (.alarm :: sampleRound (fun _ => 7) ++ [.alarm])).isSome := by
    decide +kernel
  obtain ⟨s, hs⟩ := Option.isSome_iff_exists.mp hrun
  have hpacket (fd k : ℕ) (hk : k < sampleSetup.gsize) :
      (packetEvent fd k fun _ => 7).Narrow := by
    intro p hp idx
    rw [acceptedData_ofClient hk] at hp
    split_ifs at hp
    obtain rfl := Option.some.inj hp
    exact (by decide : (7 : BitVec 64).toNat < 2 ^ 32)
  have hnarrow : ∀ e ∈ Event.alarm :: sampleRound (fun _ => 7) ++ [.alarm], e.Narrow := by
    have h₁ := hpacket 5 1 (by decide)
    have h₂ := hpacket 6 2 (by decide)
    intro e he
    simp only [sampleRound, List.cons_append, List.nil_append, List.mem_cons,
      List.not_mem_nil, or_false] at he
    rcases he with rfl | rfl | rfl | rfl
    · trivial
    · exact h₁
    · exact h₂
    · trivial
  have halt : Alternating (sampleSetup.gsize - 1)
      (Event.alarm :: sampleRound (fun _ => 7) ++ [Event.alarm]).reverse := by
    have hone : roundsSinceAlarm (sampleSetup.gsize - 1)
        (Event.alarm :: sampleRound fun _ => 7).reverse = some 1 := by decide +kernel
    have hfirst (c : ℕ) (hc : roundsSinceAlarm (sampleSetup.gsize - 1) [] = some c) : c = 1 :=
      absurd hc (by simp [roundsSinceAlarm])
    refine ⟨⟨trivial, hfirst⟩, fun c hc => ?_⟩
    exact (Option.some.inj (hone.symm.trans hc)).symm
  exact ⟨s, hs, rated_of_alternating (by decide) (by decide) (by decide)
    (fun _ _ => by decide) (fun _ => by decide) hnarrow (.inr halt) hs (by decide)⟩

/-- Without a round between two alarms the rates of the line before are logged again, and
of two rounds the first one is lost. -/
theorem idle_interval_repeats :
    (∃ s, sampleRun (.alarm :: sampleRound (fun _ => 7) ++ [.alarm, .alarm]) = some s ∧
        ¬(logLines s.fdLog 0).tail.IsChain (Rated sampleSetup.tIntervalReport)) ∧
      ∃ s, sampleRun (.alarm :: sampleRound (fun _ => 7) ++ .alarm ::
          sampleRound (fun _ => 8) ++ sampleRound (fun _ => 9) ++ [.alarm]) = some s ∧
        ¬(logLines s.fdLog 0).tail.IsChain (Rated sampleSetup.tIntervalReport) := by
  have hrated (es : List Event)
      (h : (sampleRun es).map (fun s => decide
        ((logLines s.fdLog 0).tail.IsChain (Rated sampleSetup.tIntervalReport))) =
          some false) :
      ∃ s, sampleRun es = some s ∧
        ¬(logLines s.fdLog 0).tail.IsChain (Rated sampleSetup.tIntervalReport) := by
    obtain ⟨s, hs, hnot⟩ := Option.map_eq_some_iff.mp h
    exact ⟨s, hs, of_decide_eq_false hnot⟩
  exact ⟨hrated _ (by decide +kernel), hrated _ (by decide +kernel)⟩

end Sample

end Ooops
