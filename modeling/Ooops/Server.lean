import Mathlib.Data.BitVec
import Mathlib.Algebra.BigOperators.Fin
import Mathlib.Algebra.BigOperators.Intervals
import Ooops.Basis.Double
import Ooops.Basis.Run
import Ooops.Basis.Sweep
import Ooops.Packet
import Ooops.HostList
import Ooops.Params

/-!
# The Daemon

`ooopsd` runs on the first host of a job. Its main loop takes one event after the other: a
new client greets with the name of its host and is answered with its rank
(`acceptClient`), a packet of counters arrives and is copied into the row of its rank
(`drainClient`), or the timer runs out and a line is added to every log (`periodic`). When
`nDataCount` comes to a multiple of `gsize - 1` the local counters are copied into row `0`
and all rows are summed up (`printSummary`).

The rows are what `malloc` returns: they hold anything until a packet is copied into them.
An access outside the buffer of the greeting or outside the rows, and a remainder modulo
`0`, has no successor state. `long` arithmetic is that of `BitVec 64`; the index product
`MAX_FS_SERVER*4*rank` and `t_now` are exact. A log line keeps the numbers it is printed
from, a rate as the `double` that `sprintf` gets.

* `serverStep_cases` and the lemmas before it say what one event does to the state.
* `printSummary_counterSum`, `printSummary_deltaCounterSum`, ...: the entries after a
  summary, for the tracked servers.
-/

open Basis

namespace Ooops

instance counterKindNeZero : NeZero 4 := ⟨by decide⟩

/-- The index `i*MAX_FS_SERVER + j` of the counter of kind `i` on server `j`. -/
def counterIdx (i : Fin 4) (j : FsIdx) : Fin 32 := ⟨i * 8 + j, by omega⟩

/-- What a `read` of at most `n` bytes returns: `-1`, or the bytes it has read. -/
inductive ReadResult (n : ℕ)
  | error
  | bytes (buf : List UInt8) (h : buf.length ≤ n)

/-- The variables that the start-up of the daemon has set: the group size, the answers of
`DictSearch` over the table of the host list, the number of servers and the interval. -/
structure Setup where
  gsize : ℕ
  gsize_le : gsize ≤ maxClients * maxNodeNameLen
  dictSearch : CStr → ℤ
  nFsServer : ℕ
  nFsServer_le : nFsServer ≤ 8
  tIntervalReport : ℤ

/-- A column of a log line after the totals: a `long` under `%6ld`, or a `double` under
`%7.1lf`. -/
inductive RateColumn
  | ld (n : BitVec 64)
  | lf (x : ℚ)
  deriving DecidableEq

/-- The number that a column shows. -/
def RateColumn.shown : RateColumn → ℚ
  | .ld n => n.toInt
  | .lf x => roundHalfEven (10 * x) / 10

/-- A line that `periodic` writes to the log of a server. -/
structure LogLine where
  server : ℕ
  time : ℤ
  totals : Fin 4 → BitVec 64
  rates : Fin 4 → RateColumn

/-- The variables of the daemon. `nSummary` counts the calls of `Print_Summary`. -/
structure Server (gsize : ℕ) where
  oopsDataList : Fin gsize → Counters
  localData : Counters
  nDataCount : ℤ
  counterSum : Counters
  counterSumSave : Counters
  deltaCounterSum : Counters
  tNow : ℤ
  fds : List ℕ
  fdLog : List LogLine
  nSummary : ℕ

/-- The daemon before its main loop, over rows that `malloc` has returned. -/
def Server.start (cfg : Setup) (rows : Fin cfg.gsize → Counters) (localData : Counters) :
    Server cfg.gsize where
  oopsDataList := rows
  localData := localData
  nDataCount := 0
  counterSum := fun _ => 0
  counterSumSave := fun _ => 0
  deltaCounterSum := fun _ => 0
  tNow := -cfg.tIntervalReport
  fds := []
  fdLog := []
  nSummary := 0

namespace Server

variable {gsize : ℕ}

/-- The local counters go into row `0`. -/
def copyLocal (s : Server gsize) : Server gsize :=
  { s with oopsDataList := fun k => if k.val = 0 then s.localData else s.oopsDataList k }

/-- The counters of a packet go into the row of its rank, and the packet is counted. -/
def store (s : Server gsize) (k : Fin gsize) (counter : Counters) : Server gsize :=
  { s with
    oopsDataList := Function.update s.oopsDataList k counter
    nDataCount := wrapInt32 (s.nDataCount + 1) }

/-- One round of the last loop of `Print_Summary`. -/
def saveSum (s : Server gsize) (idx : Fin 32) : Server gsize :=
  { s with
    deltaCounterSum := Function.update s.deltaCounterSum idx
      (s.counterSum idx - s.counterSumSave idx)
    counterSumSave := Function.update s.counterSumSave idx (s.counterSum idx) }

end Server

section Daemon

variable (cfg : Setup)

/-- The indices of the tracked counters, in the order of the loops of `Print_Summary`. -/
def trackedIdx : List (Fin 32) :=
  (List.finRange 4).flatMap fun i =>
    (List.finRange cfg.nFsServer).map fun j => counterIdx i (j.castLE cfg.nFsServer_le)

/-- The first two loops of `Print_Summary`: the sums over all rows. -/
def sumRows (s : Server cfg.gsize) : Counters :=
  (List.finRange cfg.gsize).foldl (fun sum k =>
      sweep (trackedIdx cfg) (fun idx x => x + s.oopsDataList k idx) sum)
    (sweep (trackedIdx cfg) (fun _ _ => 0) s.counterSum)

/-- `Print_Summary`. -/
def printSummary (s : Server cfg.gsize) : Server cfg.gsize :=
  (trackedIdx cfg).foldl Server.saveSum
    { s with counterSum := sumRows cfg s, nSummary := s.nSummary + 1 }

/-- A rate as `periodic` computes it: the `double` product of an increment and
`1.0/T_Interal_Report`. -/
def loggedRate (dn : BitVec 64) : ℚ :=
  roundDouble (roundDouble dn.toInt * roundDouble (1 / cfg.tIntervalReport))

/-- The line that `periodic` writes for server `j`. The first one repeats the totals. -/
def logLine (s : Server cfg.gsize) (j : FsIdx) : LogLine where
  server := j
  time := s.tNow
  totals := fun i => s.counterSum (counterIdx i j)
  rates := fun i =>
    if s.tNow = 0 then .ld (s.counterSum (counterIdx i j))
    else .lf (loggedRate cfg (s.deltaCounterSum (counterIdx i j)))

/-- `periodic`. With one host there are no clients, and the timer makes the summary. -/
def periodic (s : Server cfg.gsize) : Server cfg.gsize :=
  let s := if cfg.gsize = 1 then printSummary cfg s.copyLocal else s
  let s := { s with tNow := s.tNow + cfg.tIntervalReport }
  { s with
    fdLog := s.fdLog ++ (List.finRange cfg.nFsServer).map fun j =>
      logLine cfg s (j.castLE cfg.nFsServer_le) }

/-- `szTag_NodeName`. -/
def szTagNodeName : CStr := bytesOf "From: "

/-- The first word of a string, as `sscanf` reads it with `%s`. -/
def scanWord (s : CStr) : CStr := (s.dropWhile isSpace).takeWhile fun c => !isSpace c

/-- The rank of a client whose greeting is the string in `szBuff`. -/
def greetedRank (szBuff : CStr) : ℤ :=
  if strncmpEq szTagNodeName szBuff 6 then cfg.dictSearch (scanWord (szBuff.drop 6)) else -1

/-- `accept_client`, with the rank that is written back to the client. The NUL is stored at
`szBuff[nBytes]`, which has to be one of the 128 bytes. -/
def acceptClient (s : Server cfg.gsize) (fd : ℕ) (r : ReadResult 128) (registered : Bool) :
    Option (Server cfg.gsize × ℤ) :=
  match r with
  | .error => none
  | .bytes buf _ =>
      if buf.length < 128 then
        some ({ s with fds := if registered then s.fds ++ [fd] else s.fds },
          greetedRank cfg (buf.takeWhile (· ≠ 0)))
      else none

/-- The record in the buffer of `drain_client`, when what was read is one with the tag. -/
def receivedData (buf : List UInt8) : Option OoopsData :=
  if buf.length = sizeofOoopsData ∧ (OoopsData.ofBytes buf).tag = dataTag then
    some (OoopsData.ofBytes buf)
  else none

/-- A record is copied into the row of its rank and counted, and the last one of
`gsize_M1` makes a summary. -/
def takeData (s : Server cfg.gsize) (p : OoopsData) : Option (Server cfg.gsize) :=
  -- the index product of a rank outside is outside the rows, or more than an `int` holds
  if h : 0 ≤ p.rank ∧ p.rank < cfg.gsize then
    let gsizeM1 : ℤ := cfg.gsize - 1
    let s := s.store ⟨p.rank.toNat, by omega⟩ p.counter
    if gsizeM1 = 0 then none
    else if s.nDataCount.tmod gsizeM1 = 0 then some (printSummary cfg s.copyLocal)
    else some s
  else none

/-- `drain_client`. -/
def drainClient (s : Server cfg.gsize) (fd : ℕ) (r : ReadResult 1024) :
    Option (Server cfg.gsize) :=
  match r with
  | .error => some s
  | .bytes buf _ =>
      match receivedData buf with
      | some p => if p.rank = 0 then some s else takeData cfg s p
      | none => some (if buf.length = 0 then { s with fds := s.fds.erase fd } else s)

/-- The record of a read that `drain_client` takes: whole, tagged and not of rank `0`. -/
def acceptedData (r : ReadResult 1024) : Option OoopsData :=
  match r with
  | .error => none
  | .bytes buf _ => (receivedData buf).filter fun p => p.rank ≠ 0

/-- The events of the main loop, and the writes of other processes to the counters of the
local node. -/
inductive Event
  /-- A connection `fd` was accepted, `r` read from it, and `add_epoll` may have failed. -/
  | accept (fd : ℕ) (r : ReadResult 128) (registered : Bool)
  | readable (fd : ℕ) (r : ReadResult 1024)
  | alarm
  | localWrite (counter : Counters)

/-- One event. -/
def serverStep (s : Server cfg.gsize) : Event → Option (Server cfg.gsize)
  | .accept fd r registered => (acceptClient cfg s fd r registered).map Prod.fst
  | .readable fd r => drainClient cfg s fd r
  | .alarm => some (periodic cfg s)
  | .localWrite counter => some { s with localData := counter }

end Daemon

/-! ## What one event does -/

namespace Server

variable {gsize : ℕ}

/-- Only row `0` is the local one. -/
theorem copyLocal_of_ne {s : Server gsize} {k : Fin gsize} (hk : k.val ≠ 0) :
    s.copyLocal.oopsDataList k = s.oopsDataList k := if_neg hk

/-- The last loop of `Print_Summary`, as one sweep over each of its arrays. -/
theorem foldl_saveSum {l : List (Fin 32)} (hl : l.Nodup) (s : Server gsize) :
    l.foldl saveSum s =
      { s with
        deltaCounterSum :=
          sweep l (fun idx _ => s.counterSum idx - s.counterSumSave idx) s.deltaCounterSum
        counterSumSave := sweep l (fun idx _ => s.counterSum idx) s.counterSumSave } := by
  induction l generalizing s with
  | nil => rfl
  | cons i l ih =>
      obtain ⟨hi, hl⟩ := List.nodup_cons.mp hl
      have hdelta (a : Counters) :
          sweep l (fun idx _ => s.counterSum idx - (s.saveSum i).counterSumSave idx) a =
            sweep l (fun idx _ => s.counterSum idx - s.counterSumSave idx) a := by
        refine sweep_congr (fun idx hidx => ?_) a
        have hne : idx ≠ i := fun e => hi (e ▸ hidx)
        simp only [saveSum, Function.update_of_ne hne]
      rw [List.foldl_cons, ih hl]
      simp only [saveSum] at hdelta ⊢
      rw [hdelta]
      rfl

end Server

section Daemon

variable {cfg : Setup} {s s' : Server cfg.gsize}

theorem mem_trackedIdx {i : Fin 4} {j : FsIdx} (hj : j.val < cfg.nFsServer) :
    counterIdx i j ∈ trackedIdx cfg :=
  List.mem_flatMap.mpr ⟨i, List.mem_finRange i,
    List.mem_map.mpr ⟨⟨j, hj⟩, List.mem_finRange _, rfl⟩⟩

/-- No counter is tracked twice. -/
theorem nodup_trackedIdx : (trackedIdx cfg).Nodup := by
  rw [trackedIdx, List.nodup_flatMap]
  refine ⟨fun i _ => ?_, ?_⟩
  · refine (List.nodup_finRange _).map fun j j' h => ?_
    simp only [counterIdx, Fin.mk.injEq, Fin.val_castLE] at h
    omega
  · refine (List.nodup_finRange 4).imp fun {i i'} hne => ?_
    rw [Function.onFun, List.disjoint_left]
    intro idx hi hi'
    obtain ⟨j, -, rfl⟩ := List.mem_map.mp hi
    obtain ⟨j', -, h⟩ := List.mem_map.mp hi'
    have hle := cfg.nFsServer_le
    simp only [counterIdx, Fin.mk.injEq, Fin.val_castLE] at h
    omega

/-- A tracked entry of the sums. -/
theorem sumRows_of_mem {idx : Fin 32} (h : idx ∈ trackedIdx cfg) :
    sumRows cfg s idx = ∑ k, s.oopsDataList k idx := by
  rw [sumRows, foldl_sweep_of_mem nodup_trackedIdx h, sweep_of_mem nodup_trackedIdx h,
    ← List.foldl_map (f := fun k => s.oopsDataList k idx) (g := (· + ·)),
    ← List.sum_eq_foldl, Fin.sum_univ_def]

/-- `Print_Summary`, array by array. -/
theorem printSummary_eq (s : Server cfg.gsize) :
    printSummary cfg s =
      { s with
        counterSum := sumRows cfg s
        deltaCounterSum := sweep (trackedIdx cfg)
          (fun idx _ => sumRows cfg s idx - s.counterSumSave idx) s.deltaCounterSum
        counterSumSave :=
          sweep (trackedIdx cfg) (fun idx _ => sumRows cfg s idx) s.counterSumSave
        nSummary := s.nSummary + 1 } := by
  rw [printSummary, Server.foldl_saveSum nodup_trackedIdx]

@[simp] theorem printSummary_oopsDataList :
    (printSummary cfg s).oopsDataList = s.oopsDataList := by rw [printSummary_eq]

@[simp] theorem printSummary_localData : (printSummary cfg s).localData = s.localData := by
  rw [printSummary_eq]

@[simp] theorem printSummary_nDataCount : (printSummary cfg s).nDataCount = s.nDataCount := by
  rw [printSummary_eq]

@[simp] theorem printSummary_tNow : (printSummary cfg s).tNow = s.tNow := by
  rw [printSummary_eq]

@[simp] theorem printSummary_fdLog : (printSummary cfg s).fdLog = s.fdLog := by
  rw [printSummary_eq]

@[simp] theorem printSummary_nSummary :
    (printSummary cfg s).nSummary = s.nSummary + 1 := by
  rw [printSummary_eq]

/-- A tracked sum is over all rows. -/
theorem printSummary_counterSum {idx : Fin 32} (h : idx ∈ trackedIdx cfg) :
    (printSummary cfg s).counterSum idx = ∑ k, s.oopsDataList k idx := by
  rw [printSummary_eq]
  exact sumRows_of_mem h

/-- A tracked sum is saved. -/
theorem printSummary_counterSumSave {idx : Fin 32} (h : idx ∈ trackedIdx cfg) :
    (printSummary cfg s).counterSumSave idx = (printSummary cfg s).counterSum idx := by
  rw [printSummary_eq]
  exact sweep_of_mem nodup_trackedIdx h (fun idx _ => sumRows cfg s idx) _

/-- A tracked increment is what was added since the last summary. -/
theorem printSummary_deltaCounterSum {idx : Fin 32} (h : idx ∈ trackedIdx cfg) :
    (printSummary cfg s).deltaCounterSum idx =
      (printSummary cfg s).counterSum idx - s.counterSumSave idx := by
  rw [printSummary_eq]
  exact sweep_of_mem nodup_trackedIdx h
    (fun idx _ => sumRows cfg s idx - s.counterSumSave idx) _

/-- What a packet of rank `k` leads to: it is stored, and the last one of a round makes a
summary. -/
def afterData (s : Server cfg.gsize) (k : Fin cfg.gsize) (counter : Counters) :
    Server cfg.gsize :=
  if (s.store k counter).nDataCount.tmod (cfg.gsize - 1) = 0 then
    printSummary cfg (s.store k counter).copyLocal
  else s.store k counter

/-- The row of the packet holds its counters, and no other remote row changes. -/
theorem afterData_oopsDataList {k j : Fin cfg.gsize} (hj : j.val ≠ 0) (counter : Counters) :
    (afterData s k counter).oopsDataList j = if j = k then counter else s.oopsDataList j := by
  have hstore : (s.store k counter).oopsDataList j =
      if j = k then counter else s.oopsDataList j := Function.update_apply ..
  rw [← hstore, afterData]
  split_ifs
  · rw [printSummary_oopsDataList, Server.copyLocal_of_ne hj]
  · rfl

/-- The packet is counted. -/
theorem afterData_nDataCount (k : Fin cfg.gsize) (counter : Counters) :
    (afterData s k counter).nDataCount = wrapInt32 (s.nDataCount + 1) := by
  rw [afterData]
  split_ifs
  · rw [printSummary_nDataCount]
    rfl
  · rfl

/-- The packet makes a summary when the count comes to a multiple of `gsize_M1`. -/
theorem afterData_nSummary (k : Fin cfg.gsize) (counter : Counters) :
    (afterData s k counter).nSummary =
      if (wrapInt32 (s.nDataCount + 1)).tmod (cfg.gsize - 1) = 0 then s.nSummary + 1
      else s.nSummary := by
  have hcount : (s.store k counter).nDataCount = wrapInt32 (s.nDataCount + 1) := rfl
  rw [afterData, hcount]
  split_ifs
  · rw [printSummary_nSummary]
    rfl
  · rfl

/-- In a summary the local counters count for row `0`. -/
theorem printSummary_copyLocal (hpos : 0 < cfg.gsize) {idx : Fin 32}
    (hidx : idx ∈ trackedIdx cfg) {f : ℕ → BitVec 64}
    (hf : ∀ k : Fin cfg.gsize, k.val ≠ 0 → s.oopsDataList k idx = f k) :
    (printSummary cfg s.copyLocal).counterSum idx =
      s.localData idx + ∑ k ∈ Finset.Ico 1 cfg.gsize, f k := by
  have hrow (k : Fin cfg.gsize) : s.copyLocal.oopsDataList k idx =
      (fun k : ℕ => if k = 0 then s.localData idx else f k) k := by
    simp only [Server.copyLocal]
    split_ifs with hk
    · rfl
    · exact hf k hk
  rw [printSummary_counterSum hidx, Finset.sum_congr rfl fun k _ => hrow k,
    Fin.sum_univ_eq_sum_range (fun k => if k = 0 then s.localData idx else f k),
    Finset.sum_range_eq_add_Ico _ hpos, if_pos rfl]
  congr 1
  refine Finset.sum_congr rfl fun k hk => if_neg ?_
  have hge := (Finset.mem_Ico.mp hk).1
  omega

/-- A packet that makes a summary. -/
theorem afterData_of_summary {k : Fin cfg.gsize} {counter : Counters}
    (h : (afterData s k counter).nSummary = s.nSummary + 1) :
    afterData s k counter = printSummary cfg (s.store k counter).copyLocal := by
  rw [afterData_nSummary] at h
  split_ifs at h with hsum
  · exact if_pos hsum
  · omega

/-- With clients there is no summary at an alarm. -/
theorem periodic_of_ne (hg : cfg.gsize ≠ 1) :
    periodic cfg s =
      { s with
        tNow := s.tNow + cfg.tIntervalReport
        fdLog := s.fdLog ++ (List.finRange cfg.nFsServer).map fun j =>
          logLine cfg { s with tNow := s.tNow + cfg.tIntervalReport }
            (j.castLE cfg.nFsServer_le) } := by
  simp only [periodic, if_neg hg]

/-- Without clients every alarm makes a summary. -/
theorem periodic_of_eq (hg : cfg.gsize = 1) :
    periodic cfg s =
      { printSummary cfg s.copyLocal with
        tNow := s.tNow + cfg.tIntervalReport
        fdLog := s.fdLog ++ (List.finRange cfg.nFsServer).map fun j =>
          logLine cfg
            { printSummary cfg s.copyLocal with tNow := s.tNow + cfg.tIntervalReport }
            (j.castLE cfg.nFsServer_le) } := by
  simp only [periodic, if_pos hg, printSummary_tNow, printSummary_fdLog, Server.copyLocal]

/-- Only without clients does an alarm make a summary. -/
theorem periodic_nSummary :
    (periodic cfg s).nSummary = if cfg.gsize = 1 then s.nSummary + 1 else s.nSummary := by
  split_ifs with hg
  · rw [periodic_of_eq hg, printSummary_nSummary]
    rfl
  · rw [periodic_of_ne hg]

/-- An alarm leaves the remote rows as they are. -/
theorem periodic_oopsDataList {j : Fin cfg.gsize} (hj : j.val ≠ 0) :
    (periodic cfg s).oopsDataList j = s.oopsDataList j := by
  by_cases hg : cfg.gsize = 1
  · omega
  · rw [periodic_of_ne hg]

/-- A packet is taken exactly when its rank is that of a row and there are two rows. -/
theorem takeData_eq_some_iff {p : OoopsData} :
    takeData cfg s p = some s' ↔
      cfg.gsize ≠ 1 ∧ ∃ k : Fin cfg.gsize, p.rank = k.val ∧ s' = afterData s k p.counter := by
  rw [takeData]
  by_cases hk : 0 ≤ p.rank ∧ p.rank < cfg.gsize
  · have hrank : p.rank = (p.rank.toNat : ℕ) := by omega
    rw [dif_pos hk]
    by_cases hg : (cfg.gsize : ℤ) - 1 = 0
    · simp only [hg, if_true, reduceCtorEq, false_iff]
      rintro ⟨hne, -⟩
      omega
    · simp only [hg, if_false]
      constructor
      · intro h
        refine ⟨by omega, ⟨p.rank.toNat, by omega⟩, hrank, ?_⟩
        rw [afterData]
        split_ifs at h ⊢ with hsum
        · exact (Option.some.inj h).symm
        · exact (Option.some.inj h).symm
      · rintro ⟨-, k, hk', rfl⟩
        have heq : (⟨p.rank.toNat, by omega⟩ : Fin cfg.gsize) = k := Fin.ext (by simp [hk'])
        rw [heq, afterData]
        split_ifs <;> rfl
  · rw [dif_neg hk]
    simp only [reduceCtorEq, false_iff]
    rintro ⟨-, k, hk', -⟩
    exact hk (by omega)

/-- A read of `drain_client` that takes no packet changes nothing but the descriptors. -/
theorem drainClient_of_none {r : ReadResult 1024} (h : acceptedData r = none)
    (s : Server cfg.gsize) (fd : ℕ) :
    ∃ fds, drainClient cfg s fd r = some { s with fds := fds } := by
  cases r with
  | error => exact ⟨s.fds, rfl⟩
  | bytes buf hbuf =>
      rw [acceptedData, Option.filter_eq_none_iff] at h
      rw [drainClient]
      cases hp : receivedData buf with
      | none =>
          by_cases hnil : buf.length = 0
          · exact ⟨s.fds.erase fd, by simp only [hnil, if_true]⟩
          · exact ⟨s.fds, by simp only [hnil, if_false]⟩
      | some p =>
          have hrank : p.rank = 0 := by simpa using h p hp
          exact ⟨s.fds, by simp only [hrank, if_true]⟩

/-- A read of `drain_client` that takes a packet. -/
theorem drainClient_of_some {fd : ℕ} {r : ReadResult 1024} {p : OoopsData}
    (h : acceptedData r = some p) : drainClient cfg s fd r = takeData cfg s p := by
  cases r with
  | error => exact absurd h (by simp [acceptedData])
  | bytes buf hbuf =>
      obtain ⟨hp, hrank⟩ := Option.filter_eq_some_iff.mp h
      have hne : p.rank ≠ 0 := by simpa using hrank
      simp only [drainClient, hp, if_neg hne]

/-- The packet that an event brings. -/
def Event.data : Event → Option OoopsData
  | .readable _ r => acceptedData r
  | _ => none

/-- **What one event does**: it takes a packet, or it is an alarm, or it changes nothing
but the descriptors and the local counters. -/
theorem serverStep_cases {e : Event} (h : serverStep cfg s e = some s') :
    (∃ p, e.data = some p ∧ takeData cfg s p = some s') ∨
    (e = .alarm ∧ s' = periodic cfg s) ∨
    (e.data = none ∧ e ≠ .alarm ∧
      ∃ localData fds, s' = { s with localData := localData, fds := fds } ∧
        (localData = s.localData ∨ e = .localWrite localData)) := by
  cases e with
  | accept fd r registered =>
      refine .inr (.inr ⟨rfl, Event.noConfusion, s.localData, s'.fds, ?_, .inl rfl⟩)
      obtain ⟨⟨s₁, rank⟩, hacc, rfl⟩ := Option.map_eq_some_iff.mp h
      cases r with
      | error => exact absurd hacc (by simp [acceptClient])
      | bytes buf hbuf =>
          by_cases hlen : buf.length < 128
          · rw [acceptClient, if_pos hlen] at hacc
            obtain ⟨rfl, -⟩ := Prod.mk.inj (Option.some.inj hacc)
            rfl
          · exact absurd hacc (by simp [acceptClient, hlen])
  | readable fd r =>
      cases hp : acceptedData r with
      | none =>
          obtain ⟨fds, hdrain⟩ := drainClient_of_none hp s fd
          have heq : some { s with fds := fds } = some s' := hdrain.symm.trans h
          exact .inr (.inr ⟨hp, Event.noConfusion, s.localData, fds,
            (Option.some.inj heq).symm, .inl rfl⟩)
      | some p => exact .inl ⟨p, hp, (drainClient_of_some hp).symm.trans h⟩
  | alarm => exact .inr (.inl ⟨rfl, (Option.some.inj h).symm⟩)
  | localWrite counter =>
      exact .inr (.inr ⟨rfl, Event.noConfusion, counter, s.fds, (Option.some.inj h).symm,
        .inr rfl⟩)

end Daemon

end Ooops
