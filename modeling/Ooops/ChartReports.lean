import Mathlib.Data.Fin.VecNotation
import Mathlib.Data.List.ReduceOption
import Mathlib.Order.OrderDual
import Ooops.Basis.CInt
import Ooops.Basis.Closest
import Ooops.Basis.Decimal
import Ooops.Basis.Scan

/-!
# The Verdict of the Reports

At the end of a job `Create_Chart_Reports` reads the log of every server again and decides
whether the job had intensive I/O. It keeps the greatest last number of calls with the server it
belongs to, and for every server the largest rate; the verdict looks at the largest rate of that
one server.

A rate is an element of any linear order, `none` is what is not a number. How `sscanf` reads a
`double` is a parameter (`LineLib`). What `n0_last`, `n2_last` and `dnCountMax` hold before
they are set is a parameter too.

* `highIo` is the verdict, with what is written to `high_io`.
* `Busiest` is the server that is looked at, `highIo_busiest` the verdict on all sets of logs.
-/

open Basis

namespace Ooops

/-! ### The lines of a log -/

/-- What `sscanf` does with `%lf`: a value and the rest of the text. -/
structure LineLib (ρ : Type) where
  scanDouble : CStr → Option (Option ρ × CStr)
  /-- A decimal number is read up to a blank or the end of the line. -/
  scanDouble_decimal (k : ℕ) (d : CStr) (c : UInt8) (rest : CStr) : IsDecimal d →
    c = 32 ∨ c = 10 → ∃ x, scanDouble (List.replicate k 32 ++ d ++ c :: rest) = some (x, c :: rest)

/-- The nine items of a line. -/
structure LogItems (ρ : Type) where
  t : ℤ
  n : Fin 4 → ℤ
  dn : Fin 4 → Option ρ

/-- `%d` into an `int`: the number that fits a `long`, cut to 32 bits. -/
def scanD (s : CStr) : Option (ℤ × CStr) :=
  (scanInt s).map fun r => (wrapInt32 (max (-2 ^ 63) (min r.1 (2 ^ 63 - 1))), r.2)

variable {ρ : Type}

/-- `sscanf(szLine, "%d%d%d%d%d%lf%lf%lf%lf", …)` that answers `9`. -/
def scanLine (lib : LineLib ρ) (szLine : CStr) : Option (LogItems ρ) := do
  let (t, s) ← scanD szLine
  let (n₀, s) ← scanD s
  let (n₁, s) ← scanD s
  let (n₂, s) ← scanD s
  let (n₃, s) ← scanD s
  let (dn₀, s) ← lib.scanDouble s
  let (dn₁, s) ← lib.scanDouble s
  let (dn₂, s) ← lib.scanDouble s
  let (dn₃, _) ← lib.scanDouble s
  return ⟨t, ![n₀, n₁, n₂, n₃], ![dn₀, dn₁, dn₂, dn₃]⟩

/-- The lines of a log behind the first one that have nine items. -/
def dataLines (lib : LineLib ρ) (log : List UInt8) : List (LogItems ρ) :=
  ((fgetsLines 256 log).drop 1).filterMap fun szLine => scanLine lib (cstrOf szLine)

/-! ### The loops -/

/-- The variables of `Create_Chart_Reports`. -/
structure ChartState (ρ : Type) where
  n0Last : ℤ
  n2Last : ℤ
  nCountMax : ℤ
  idxFsHighIo : ℕ
  dnCountMax : ℕ → ρ

/-- The variables at the start; the last numbers and the rates hold anything. -/
def ChartState.start (n0Last n2Last : ℤ) (dnCountMax : ℕ → ρ) : ChartState ρ :=
  ⟨n0Last, n2Last, 0, 0, dnCountMax⟩

/-- The last numbers are those of a line. -/
def ChartState.setLast (st : ChartState ρ) (l : LogItems ρ) : ChartState ρ :=
  { st with n0Last := l.n 0, n2Last := l.n 2 }

/-- A number of calls is compared with the greatest one so far. -/
def ChartState.count (st : ChartState ρ) (n : ℤ) (i : ℕ) : ChartState ρ :=
  if st.nCountMax < n then { st with nCountMax := n, idxFsHighIo := i } else st

/-! ### What a log says -/

/-- The greater one of the last two numbers of calls in a log. -/
def lastCount (lib : LineLib ρ) (log : List UInt8) : ℤ :=
  match (dataLines lib log).getLast? with
  | some l => max (l.n 0) (l.n 2)
  | none => 0

/-- The rates of opens and stats in a log. -/
def openStatRates (lib : LineLib ρ) (log : List UInt8) : List ρ :=
  (dataLines lib log).flatMap fun l => [l.dn 0, l.dn 2].reduceOption

/-- The number of calls of a server, zero for a negative one. -/
def callCount (lib : LineLib ρ) (log : List UInt8) : ℤ := max 0 (lastCount lib log)

/-- The first one of the servers with the greatest number of calls. -/
structure Busiest (lib : LineLib ρ) (logs : List (List UInt8)) (i : ℕ) (log : List UInt8) :
    Prop where
  split : ∃ before after, logs = before ++ log :: after ∧ i = before.length ∧
    (∀ l ∈ before, callCount lib l < callCount lib log) ∧
    ∀ l ∈ after, callCount lib l ≤ callCount lib log

/-! ### The busiest server -/

section Variables

variable {st : ChartState ρ} {lib : LineLib ρ} {log : List UInt8}

/-- How far a server is from the top. -/
def callRank (lib : LineLib ρ) (x : List UInt8 × ℕ) : Option ℤᵒᵈ :=
  some (OrderDual.toDual (callCount lib x.1))

/-- What is closest to the top is the busiest server. -/
theorem busiest_of_closest {logs : List (List UInt8)} {k : ℕ}
    (h : closest (callRank lib) (OrderDual.toDual (-1)) (logs.zipIdx 0) = some (log, k)) :
    Busiest lib logs k log := by
  obtain ⟨before, after, d, hsplit, hd, -, hbefore, hafter⟩ := closest_first h
  obtain rfl := Option.some.inj hd
  obtain ⟨l₁, l₂, rfl, rfl, hrest⟩ := List.zipIdx_eq_append_iff.mp hsplit
  obtain ⟨a, l₂, rfl, hhead, rfl⟩ := List.zipIdx_eq_cons_iff.mp hrest.symm
  obtain ⟨rfl, hk⟩ := Prod.mk.inj hhead
  have hentry {l : List UInt8} {ls : List (List UInt8)} {j : ℕ} (hl : l ∈ ls) :
      ∃ x ∈ ls.zipIdx j, callRank lib x = some (OrderDual.toDual (callCount lib l)) := by
    rw [← List.zipIdx_map_fst j ls] at hl
    obtain ⟨x, hx, rfl⟩ := List.mem_map.mp hl
    exact ⟨x, hx, rfl⟩
  refine ⟨l₁, l₂, rfl, hk.trans (Nat.zero_add _), fun l hl => ?_, fun l hl => ?_⟩
  · obtain ⟨x, hx, hrank⟩ := @hentry l l₁ 0 hl
    exact OrderDual.toDual_lt_toDual.mp (hbefore x hx _ hrank)
  · obtain ⟨x, hx, hrank⟩ := hentry hl
    exact OrderDual.toDual_le_toDual.mp (hafter x hx _ hrank)

/-- The last line decides what the last numbers are. -/
theorem foldl_setLast {ls : List (LogItems ρ)} (hne : ls ≠ []) (st : ChartState ρ) :
    ∃ l, ls.getLast? = some l ∧ ls.foldl ChartState.setLast st = st.setLast l := by
  induction ls generalizing st with
  | nil => exact absurd rfl hne
  | cons l ls ih =>
      cases ls with
      | nil => exact ⟨l, rfl, rfl⟩
      | cons l' ls => exact ih (List.cons_ne_nil l' ls) (st.setLast l)

@[simp] theorem count_n2Last (n : ℤ) (i : ℕ) : (st.count n i).n2Last = st.n2Last := by
  rw [ChartState.count]
  split_ifs <;> rfl

@[simp] theorem count_dnCountMax (n : ℤ) (i : ℕ) : (st.count n i).dnCountMax = st.dnCountMax := by
  rw [ChartState.count]
  split_ifs <;> rfl

theorem count_nCountMax (n : ℤ) (i : ℕ) : (st.count n i).nCountMax = max st.nCountMax n := by
  rw [ChartState.count]
  split_ifs with h
  · exact (max_eq_right h.le).symm
  · exact (max_eq_left (not_lt.mp h)).symm

theorem count_idxFsHighIo (n : ℤ) (i : ℕ) :
    (st.count n i).idxFsHighIo = if st.nCountMax < n then i else st.idxFsHighIo := by
  rw [ChartState.count]
  split_ifs <;> rfl

end Variables

section Loops

variable [LinearOrder ρ]

/-- `if(dn > max) max = dn`. No comparison with what is not a number holds. -/
def raise (m : ρ) : Option ρ → ρ
  | some x => if m < x then x else m
  | none => m

/-- `x >= r`. -/
def AtLeast (x : ρ) (r : Option ρ) : Prop := ∃ y, r = some y ∧ y ≤ x

instance (x : ρ) : (r : Option ρ) → Decidable (AtLeast x r)
  | some y => decidable_of_iff (y ≤ x)
      ⟨fun h => ⟨y, rfl, h⟩, fun ⟨_, h, h'⟩ => Option.some.inj h ▸ h'⟩
  | none => isFalse fun ⟨_, h, _⟩ => nomatch h

variable [Zero ρ]

/-- The loops over the log of server `i`. -/
def ChartState.server (lib : LineLib ρ) (st : ChartState ρ) (i : ℕ) (log : List UInt8) :
    ChartState ρ :=
  let ls := dataLines lib log
  let st := ls.foldl ChartState.setLast st
  let st := st.count st.n0Last i
  let st := st.count st.n2Last i
  { st with
    dnCountMax := Function.update st.dnCountMax i
      (ls.foldl (fun m l => raise (raise m (l.dn 0)) (l.dn 2)) 0) }

/-- The loop over the servers from `i` on. -/
def chartServers (lib : LineLib ρ) : ℕ → ChartState ρ → List (List UInt8) → ChartState ρ
  | _, st, [] => st
  | i, st, log :: logs => chartServers lib (i + 1) (st.server lib i log) logs

/-- The verdict of `Create_Chart_Reports`: the server and the number of calls that are written to
`high_io`, if it is. -/
def highIo (lib : LineLib ρ) (nCallThreshold : ℤ) (nCallPerSecondThreshold : Option ρ)
    (st : ChartState ρ) (logs : List (List UInt8)) : Option (ℕ × ℤ) :=
  let st := chartServers lib 0 st logs
  if nCallThreshold ≤ st.nCountMax ∧ AtLeast (st.dnCountMax st.idxFsHighIo) nCallPerSecondThreshold
  then some (st.idxFsHighIo, st.nCountMax)
  else none

/-! ### Thresholds -/

/-- A server passes both thresholds. -/
def Intensive (lib : LineLib ρ) (nCall : ℤ) (rate : Option ρ) (log : List UInt8) : Prop :=
  nCall ≤ lastCount lib log ∧ ∃ x ∈ openStatRates lib log, AtLeast x rate

/-- The largest rate of a server, or zero, reaches a threshold. -/
def PeakReaches (lib : LineLib ρ) (rate : Option ρ) (log : List UInt8) : Prop :=
  AtLeast 0 rate ∨ ∃ x ∈ openStatRates lib log, AtLeast x rate

/-! ### One server -/

variable {lib : LineLib ρ} {st : ChartState ρ} {log : List UInt8} {rate : Option ρ}

/-- A rate is kept if it is larger. -/
theorem atLeast_raise (m : ρ) (x : Option ρ) :
    AtLeast (raise m x) rate ↔ AtLeast m rate ∨ ∃ y ∈ x, AtLeast y rate := by
  cases x with
  | none => simp [raise]
  | some x =>
      cases rate with
      | none => simp [AtLeast]
      | some y =>
          by_cases hlt : m < x
          · simp only [raise, if_pos hlt, AtLeast, Option.some.injEq, exists_eq_left',
              Option.mem_def]
            exact ⟨.inr, fun h => h.elim (fun h => h.trans hlt.le) id⟩
          · simp only [raise, if_neg hlt, AtLeast, Option.some.injEq, exists_eq_left',
              Option.mem_def]
            exact ⟨.inl, fun h => h.elim id fun h => h.trans (not_lt.mp hlt)⟩

/-- The largest rate of some lines reaches a threshold if one of the rates does. -/
theorem atLeast_foldl_raise (ls : List (LogItems ρ)) (m : ρ) :
    AtLeast (ls.foldl (fun m l => raise (raise m (l.dn 0)) (l.dn 2)) m) rate ↔
      AtLeast m rate ∨ ∃ x ∈ ls.flatMap fun l => [l.dn 0, l.dn 2].reduceOption,
        AtLeast x rate := by
  induction ls generalizing m with
  | nil => simp
  | cons l ls ih =>
      rw [List.foldl_cons, ih, atLeast_raise, atLeast_raise]
      simp only [List.flatMap_cons, List.mem_append, List.reduceOption_mem_iff, List.mem_cons,
        List.not_mem_nil, or_false, Option.mem_def, or_and_right, exists_or, or_assoc,
        @eq_comm _ (some _)]

/-- **One server.** Its last numbers of calls count if they are greater than all before, and its
largest rate is kept. -/
theorem server_spec (hdata : dataLines lib log ≠ []) (hpos : 0 ≤ st.nCountMax) (i : ℕ) :
    (st.server lib i log).nCountMax = max st.nCountMax (callCount lib log) ∧
      (st.server lib i log).idxFsHighIo =
        (if st.nCountMax < callCount lib log then i else st.idxFsHighIo) ∧
      (∀ k ≠ i, (st.server lib i log).dnCountMax k = st.dnCountMax k) ∧
      (AtLeast ((st.server lib i log).dnCountMax i) rate ↔ PeakReaches lib rate log) := by
  obtain ⟨l, hlast, hfold⟩ := foldl_setLast hdata st
  have hcount : callCount lib log = max 0 (max (l.n 0) (l.n 2)) := by
    rw [callCount, lastCount, hlast]
  have hmax : (st.setLast l).nCountMax = st.nCountMax := rfl
  have hidx : (st.setLast l).idxFsHighIo = st.idxFsHighIo := rfl
  have hdn : (st.setLast l).dnCountMax = st.dnCountMax := rfl
  have hn0 : (st.setLast l).n0Last = l.n 0 := rfl
  have hn2 : (st.setLast l).n2Last = l.n 2 := rfl
  simp only [ChartState.server, hfold, count_nCountMax, count_idxFsHighIo, count_n2Last,
    count_dnCountMax, hmax, hidx, hdn, hn0, hn2, hcount]
  refine ⟨by omega, ?_, fun k hk => Function.update_of_ne hk .., ?_⟩
  · split_ifs <;> omega
  · rw [Function.update_self]
    exact atLeast_foldl_raise _ 0

/-! ### All servers -/

/-- The variables hold what belongs to a server: its number of calls, its index, and a largest rate
for it. -/
structure Selected (lib : LineLib ρ) (rate : Option ρ) (st : ChartState ρ) (log : List UInt8)
    (k : ℕ) : Prop where
  nCountMax : st.nCountMax = callCount lib log
  idx : st.idxFsHighIo = k
  rate : AtLeast (st.dnCountMax k) rate ↔ PeakReaches lib rate log

/-- The loop over the servers selects the one closest to the top. -/
theorem selected_chartServers {logs : List (List UInt8)} (hdata : ∀ l ∈ logs, dataLines lib l ≠ [])
    {i k : ℕ} (hk : k < i) (h : Selected lib rate st log k) :
    ∃ log' k', closestFrom (callRank lib) (logs.zipIdx i) (OrderDual.toDual (callCount lib log))
        (some (log, k)) = some (log', k') ∧
      Selected lib rate (chartServers lib i st logs) log' k' := by
  induction logs generalizing i k st log with
  | nil => exact ⟨log, k, rfl, h⟩
  | cons l logs ih =>
      obtain ⟨hl, hlogs⟩ := List.forall_mem_cons.mp hdata
      have hpos : 0 ≤ st.nCountMax := h.nCountMax ▸ le_max_left 0 _
      obtain ⟨hmax, hidx, hother, hrate⟩ := @server_spec _ _ _ lib st l rate hl hpos i
      rw [h.nCountMax] at hmax hidx
      rw [List.zipIdx_cons, closestFrom, chartServers]
      simp only [callRank, OrderDual.toDual_lt_toDual]
      by_cases hlt : callCount lib log < callCount lib l
      · rw [if_pos hlt]
        rw [max_eq_right hlt.le] at hmax
        rw [if_pos hlt] at hidx
        exact ih hlogs (Nat.lt_succ_self i) ⟨hmax, hidx, hrate⟩
      · rw [if_neg hlt]
        rw [max_eq_left (not_lt.mp hlt)] at hmax
        rw [if_neg hlt, h.idx] at hidx
        refine ih hlogs (Nat.lt_succ_of_lt hk) ⟨hmax, hidx, ?_⟩
        rw [hother k (Nat.ne_of_lt hk)]
        exact h.rate

/-- After the loops over some servers the busiest one is selected. -/
theorem exists_selected {logs : List (List UInt8)} (hne : logs ≠ [])
    (hdata : ∀ l ∈ logs, dataLines lib l ≠ []) (n0Last n2Last : ℤ) (dnCountMax : ℕ → ρ) :
    ∃ i log, Busiest lib logs i log ∧
      Selected lib rate (chartServers lib 0 (.start n0Last n2Last dnCountMax) logs) log i := by
  obtain ⟨l, ls, rfl⟩ := List.exists_cons_of_ne_nil hne
  obtain ⟨hl, hls⟩ := List.forall_mem_cons.mp hdata
  obtain ⟨hmax, hidx, -, hrate⟩ := @server_spec _ _ _ lib (.start n0Last n2Last dnCountMax) l rate
    hl le_rfl 0
  have hfirst : Selected lib rate
      (ChartState.server lib (.start n0Last n2Last dnCountMax) 0 l) l 0 := by
    refine ⟨hmax.trans (max_eq_right (le_max_left 0 _)), ?_, hrate⟩
    rw [hidx]
    exact ite_self 0
  obtain ⟨log, i, hclosest, hsel⟩ := selected_chartServers hls Nat.zero_lt_one hfirst
  refine ⟨i, log, busiest_of_closest ?_, hsel⟩
  have htop : callCount lib l > -1 := lt_of_lt_of_le (by norm_num) (le_max_left 0 _)
  rw [closest, List.zipIdx_cons, closestFrom]
  simp only [callRank, OrderDual.toDual_lt_toDual]
  rw [if_pos htop]
  exact hclosest

/-- The verdict on the server that is selected. -/
theorem highIo_eq_some_iff {logs : List (List UInt8)} {i : ℕ} {nCall : ℤ}
    (h : Selected lib rate (chartServers lib 0 st logs) log i) (v : ℕ × ℤ) :
    highIo lib nCall rate st logs = some v ↔
      nCall ≤ callCount lib log ∧ PeakReaches lib rate log ∧ v = (i, callCount lib log) := by
  rw [highIo, h.nCountMax, h.idx]
  split_ifs with hboth
  · rw [h.rate] at hboth
    rw [Option.some.injEq, eq_comm]
    exact ⟨fun hv => ⟨hboth.1, hboth.2, hv⟩, fun hv => hv.2.2⟩
  · rw [h.rate] at hboth
    exact ⟨nofun, fun hv => absurd ⟨hv.1, hv.2.1⟩ hboth⟩

/-- **The verdict.** For every set of logs with data lines the verdict looks at the busiest server:
it is positive exactly if the number of calls of this server and its largest rate reach their
thresholds, and names it. With positive thresholds a server then passes both. -/
theorem highIo_busiest (lib : LineLib ρ) (nCall : ℤ) (rate : Option ρ) (n0Last n2Last : ℤ)
    (dnCountMax : ℕ → ρ) {logs : List (List UInt8)} (hne : logs ≠ [])
    (hdata : ∀ l ∈ logs, dataLines lib l ≠ []) :
    ∃ i log, Busiest lib logs i log ∧
      (∀ v, highIo lib nCall rate (.start n0Last n2Last dnCountMax) logs = some v ↔
        nCall ≤ callCount lib log ∧ PeakReaches lib rate log ∧ v = (i, callCount lib log)) ∧
      (0 < nCall → ¬AtLeast 0 rate →
        ∀ v, highIo lib nCall rate (.start n0Last n2Last dnCountMax) logs = some v →
          ∃ l ∈ logs, Intensive lib nCall rate l) := by
  obtain ⟨i, log, hbusiest, hsel⟩ := @exists_selected _ _ _ lib rate _ hne hdata n0Last n2Last
    dnCountMax
  refine ⟨i, log, hbusiest, highIo_eq_some_iff hsel, fun hcall hzero v hv => ?_⟩
  obtain ⟨hle, hreach, -⟩ := (highIo_eq_some_iff hsel v).mp hv
  obtain ⟨before, after, hsplit, -⟩ := hbusiest.split
  have hmax : callCount lib log = max 0 (lastCount lib log) := rfl
  refine ⟨log, hsplit ▸ List.mem_append_right _ List.mem_cons_self, by omega, ?_⟩
  exact hreach.resolve_left hzero

end Loops

/-! ### Two servers -/

/-- Decimal numbers only. -/
def decimalLib : LineLib ℚ where
  scanDouble s := (scanDecimal s).map fun r => (some r.1, r.2)
  scanDouble_decimal k d c rest hd hc := by
    have hdigit : isDigit c = false := by rcases hc with rfl | rfl <;> rfl
    have hpoint : c ≠ 46 := by rcases hc with rfl | rfl <;> decide
    obtain ⟨x, hx⟩ := exists_scanDecimal k hd hdigit hpoint rest
    exact ⟨some x, by rw [hx, Option.map_some]⟩

/-- A log with one line of data. -/
def oneLine (line : String) : List UInt8 := bytesOf "time n_open\n" ++ bytesOf line

/-- Two servers, of which the second one has more calls in all. -/
def twoLogs (calls : String) : List (List UInt8) :=
  [oneLine "     5  90000      0    100      0    60.0     0.0     0.0     0.0\n",
    oneLine ("     5 " ++ calls ++ "      0      0      0    10.0     0.0     0.0     0.0\n")]

theorem highIo_busiest_sample :
    ∃ i log, Busiest decimalLib (twoLogs " 85000") i log ∧
      (∀ v, highIo decimalLib 80000 (some 50) (.start 0 0 fun _ => 0) (twoLogs " 85000") = some v ↔
        80000 ≤ callCount decimalLib log ∧ PeakReaches decimalLib (some 50) log ∧
          v = (i, callCount decimalLib log)) ∧
      (0 < (80000 : ℤ) → ¬AtLeast 0 (some (50 : ℚ)) →
        ∀ v, highIo decimalLib 80000 (some 50) (.start 0 0 fun _ => 0) (twoLogs " 85000") = some v →
          ∃ l ∈ twoLogs " 85000", Intensive decimalLib 80000 (some 50) l) :=
  highIo_busiest decimalLib 80000 (some 50) 0 0 (fun _ => 0) (by decide) (by decide +kernel)

/-- More calls on the second server take the verdict away, although the first one still passes both
thresholds. -/
theorem traffic_hides_server :
    highIo decimalLib 80000 (some 50) (.start 0 0 fun _ => 0) (twoLogs " 85000") = some (0, 90000) ∧
      highIo decimalLib 80000 (some 50) (.start 0 0 fun _ => 0) (twoLogs " 95000") = none ∧
      ∃ l ∈ twoLogs " 95000", Intensive decimalLib 80000 (some 50) l := by
  refine ⟨by decide +kernel, by decide +kernel, _, List.mem_cons_self, by decide +kernel, 60, ?_,
    ?_⟩
  · decide +kernel
  · decide +kernel

end Ooops
