import Ooops.Basis.CInt
import Ooops.Basis.Decimal
import Ooops.Server

/-!
# The Summary at the End of a Job

`mpi_aggregator` adds up the counters of all hosts with `MPI_Reduce`. Where the daemon has seen
much I/O, rank `0` goes through the servers and prints the sums, which it reads as `int`, and
of the calls of each kind how many percent were delayed.

`MPI_Reduce` is a parameter: a sum of `long`s that is a `long` is exact (`MpiSum`), and nothing is
said about another one. An `int` product that does not fit, and a quotient by zero, have no
result.

* `delayPercent_eq_some_iff`: what a percentage needs.
* `jobSummary_iff`: the summary is right exactly if every server has no calls, or calls of both
  kinds in numbers that the `int` arithmetic holds.
* `jobSummaryText_eq`: the bytes that are printed then.
-/

open Basis

namespace Ooops

/-- The sum of a counter over all hosts. -/
def hostSum (hosts : List Counters) (idx : Fin 32) : ℤ := (hosts.map fun h => (h idx).toInt).sum

/-- What `MPI_Reduce` with `MPI_SUM` over `MPI_LONG` promises. -/
def MpiSum (reduce : List Counters → Counters) : Prop :=
  ∀ hosts idx, -2 ^ 63 ≤ hostSum hosts idx → hostSum hosts idx < 2 ^ 63 →
    (reduce hosts idx).toInt = hostSum hosts idx

/-- An `int` at the address of a `long`: its lower half. -/
def lowInt (x : BitVec 64) : ℤ := wrapInt32 x.toInt

/-- `100*(*delayed)/(*count)`. -/
def delayPercent (delayed count : ℤ) : Option ℤ :=
  (mulInt32 100 delayed).bind fun p => divInt32 p count

/-- What is printed about one server. -/
structure SummaryLine where
  server : ℕ
  fsTag : CStr
  openPercent : ℤ
  openCount : ℤ
  openDelayedCount : ℤ
  lxstatPercent : ℤ
  lxstatCount : ℤ
  lxstatDelayedCount : ℤ
  deriving DecidableEq

/-- The text of a line. -/
def SummaryLine.text (l : SummaryLine) : CStr :=
  bytesOf "Summary Server " ++ showInt l.server ++ bytesOf ": " ++
    (l.fsTag ++ List.replicate (9 - l.fsTag.length) 32) ++ bytesOf ", " ++
    padLeft 2 (showInt l.openPercent) ++ bytesOf "% open is delayed. Open_Count_Accum = " ++
    padLeft 6 (showInt l.openCount) ++ bytesOf " Delayed_Open_Count_Accum = " ++
    padLeft 6 (showInt l.openDelayedCount) ++ bytesOf " \n                             " ++
    padLeft 2 (showInt l.lxstatPercent) ++ bytesOf "% stat is delayed. Stat_Count_Accum = " ++
    padLeft 6 (showInt l.lxstatCount) ++ bytesOf " Delayed_Stat_Count_Accum = " ++
    padLeft 6 (showInt l.lxstatDelayedCount) ++ bytesOf "\n"

/-- One round of the loop, with the sums in `p_Data` and the names of the servers. -/
def serverSummary (pData : Counters) (pFsTagList : FsIdx → CStr) (i : FsIdx) :
    Option (List SummaryLine) :=
  let openCount := lowInt (pData (counterIdx 0 i))
  let openDelayedCount := lowInt (pData (counterIdx 1 i))
  let lxstatCount := lowInt (pData (counterIdx 2 i))
  let lxstatDelayedCount := lowInt (pData (counterIdx 3 i))
  if 0 < openCount ∨ 0 < lxstatCount then
    (delayPercent openDelayedCount openCount).bind fun openPercent =>
      (delayPercent lxstatDelayedCount lxstatCount).map fun lxstatPercent =>
        [{ server := i, fsTag := pFsTagList i, openPercent, openCount, openDelayedCount,
           lxstatPercent, lxstatCount, lxstatDelayedCount }]
  else some []

/-- The loop over the servers. -/
def summaryLoop (pData : Counters) (pFsTagList : FsIdx → CStr) : Option (List SummaryLine) :=
  ((List.finRange 8).mapM (serverSummary pData pFsTagList)).map List.flatten

/-- What rank `0` prints: nothing without the file `/dev/shm/ooops/high_io`. -/
def jobSummary (reduce : List Counters → Counters) (pFsTagList : FsIdx → CStr)
    (highIoFile : Bool) (hosts : List Counters) : Option (List SummaryLine) :=
  if highIoFile then summaryLoop (reduce hosts) pFsTagList else some []

/-- The bytes of what it prints. -/
def jobSummaryText (reduce : List Counters → Counters) (pFsTagList : FsIdx → CStr)
    (highIoFile : Bool) (hosts : List Counters) : Option CStr :=
  (jobSummary reduce pFsTagList highIoFile hosts).map (List.flatMap SummaryLine.text)

/-! ### A percentage and a round -/

/-- What a percentage needs, and what it is, of numbers that are not negative. -/
theorem delayPercent_eq_some_iff {delayed count p : ℤ} (hdelayed : 0 ≤ delayed)
    (hcount : 0 ≤ count) :
    delayPercent delayed count = some p ↔
      0 < count ∧ 100 * delayed < 2 ^ 31 ∧ p = 100 * delayed / count := by
  have hdiv : (100 * delayed).tdiv count = 100 * delayed / count :=
    Int.tdiv_eq_ediv_of_nonneg (by omega)
  have hle : 100 * delayed / count ≤ 100 * delayed := Int.ediv_le_self _ (by omega)
  rw [delayPercent, mulInt32]
  split_ifs with hfit
  · rw [Option.bind_some, divInt32, hdiv]
    split_ifs with h0
    · rw [Option.some.injEq]
      exact ⟨fun h => ⟨by omega, hfit.2, h.symm⟩, fun h => h.2.2.symm⟩
    · refine iff_of_false nofun fun h => h0 ⟨by omega, by omega⟩
  · refine iff_of_false nofun fun h => hfit ⟨by omega, h.2.1⟩

variable {pData : Counters} {pFsTagList : FsIdx → CStr} {ls : List SummaryLine}

/-- The line about a server with calls. -/
theorem mem_serverSummary {i : FsIdx} {l : SummaryLine}
    (h : serverSummary pData pFsTagList i = some ls) (hl : l ∈ ls) :
    l.server = i ∧ l.openCount = lowInt (pData (counterIdx 0 i)) ∧
      l.openDelayedCount = lowInt (pData (counterIdx 1 i)) ∧
      l.lxstatCount = lowInt (pData (counterIdx 2 i)) ∧
      l.lxstatDelayedCount = lowInt (pData (counterIdx 3 i)) ∧
      delayPercent l.openDelayedCount l.openCount = some l.openPercent ∧
      delayPercent l.lxstatDelayedCount l.lxstatCount = some l.lxstatPercent := by
  rw [serverSummary] at h
  split_ifs at h
  · obtain ⟨p, hp, h⟩ := Option.bind_eq_some_iff.mp h
    obtain ⟨q, hq, rfl⟩ := Option.map_eq_some_iff.mp h
    obtain rfl := List.mem_singleton.mp hl
    exact ⟨rfl, rfl, rfl, rfl, rfl, hp, hq⟩
  · obtain rfl := Option.some.inj h
    exact absurd hl List.not_mem_nil

/-- The loop prints what its rounds print, if none of them fails. -/
theorem summaryLoop_eq_some_iff :
    summaryLoop pData pFsTagList = some ls ↔
      (∀ i, (serverSummary pData pFsTagList i).isSome = true) ∧
        ls = (List.finRange 8).flatMap fun i => (serverSummary pData pFsTagList i).getD [] := by
  have hrounds (lss : List (List SummaryLine)) :
      (List.finRange 8).mapM (serverSummary pData pFsTagList) = some lss ↔
        (∀ i ∈ List.finRange 8, (serverSummary pData pFsTagList i).isSome = true) ∧
          lss = (List.finRange 8).map fun i => (serverSummary pData pFsTagList i).getD [] := by
    refine mapM_iff_map fun i _ l => ?_
    cases serverSummary pData pFsTagList i with
    | none => simp
    | some l' => simp [eq_comm]
  rw [summaryLoop, Option.map_eq_some_iff]
  constructor
  · rintro ⟨lss, hlss, rfl⟩
    obtain ⟨hall, rfl⟩ := (hrounds lss).mp hlss
    exact ⟨fun i => hall i (List.mem_finRange i), List.flatMap_def.symm⟩
  · rintro ⟨hall, rfl⟩
    exact ⟨_, (hrounds _).mpr ⟨fun i _ => hall i, rfl⟩, List.flatMap_def.symm⟩

/-! ### The summary and the sums -/

/-- A line that has the totals of a server, and the percentage of each kind of call there was. -/
structure SummaryLine.Right (hosts : List Counters) (i : FsIdx) (l : SummaryLine) : Prop where
  server : l.server = i
  openCount : l.openCount = hostSum hosts (counterIdx 0 i)
  openDelayedCount : l.openDelayedCount = hostSum hosts (counterIdx 1 i)
  lxstatCount : l.lxstatCount = hostSum hosts (counterIdx 2 i)
  lxstatDelayedCount : l.lxstatDelayedCount = hostSum hosts (counterIdx 3 i)
  openPercent : 0 < hostSum hosts (counterIdx 0 i) →
    l.openPercent = 100 * hostSum hosts (counterIdx 1 i) / hostSum hosts (counterIdx 0 i)
  lxstatPercent : 0 < hostSum hosts (counterIdx 2 i) →
    l.lxstatPercent = 100 * hostSum hosts (counterIdx 3 i) / hostSum hosts (counterIdx 2 i)

/-- The calls of one kind, and those of them that were delayed, as far as the summary can show
them. -/
def Showable (count delayed : ℤ) : Prop :=
  0 < count ∧ count < 2 ^ 31 ∧ 100 * delayed < 2 ^ 31

section

variable {hosts : List Counters} {reduce : List Counters → Counters}

/-- A sum that is an `int` is read as it is. -/
theorem lowInt_reduce (hreduce : MpiSum reduce) {idx : Fin 32} (h0 : 0 ≤ hostSum hosts idx)
    (hlt : hostSum hosts idx < 2 ^ 31) : lowInt (reduce hosts idx) = hostSum hosts idx := by
  rw [lowInt, hreduce hosts idx (by omega) (by omega), wrapInt32_eq_self (by omega) hlt]

/-- The line that is right about a server with calls of both kinds. -/
def SummaryLine.ofSums (hosts : List Counters) (pFsTagList : FsIdx → CStr) (i : FsIdx) :
    SummaryLine where
  server := i
  fsTag := pFsTagList i
  openPercent := 100 * hostSum hosts (counterIdx 1 i) / hostSum hosts (counterIdx 0 i)
  openCount := hostSum hosts (counterIdx 0 i)
  openDelayedCount := hostSum hosts (counterIdx 1 i)
  lxstatPercent := 100 * hostSum hosts (counterIdx 3 i) / hostSum hosts (counterIdx 2 i)
  lxstatCount := hostSum hosts (counterIdx 2 i)
  lxstatDelayedCount := hostSum hosts (counterIdx 3 i)

theorem SummaryLine.right_ofSums (i : FsIdx) :
    (SummaryLine.ofSums hosts pFsTagList i).Right hosts i :=
  ⟨rfl, rfl, rfl, rfl, rfl, fun _ => rfl, fun _ => rfl⟩

/-- The line about a server whose calls can be shown. -/
theorem serverSummary_of_showable (hreduce : MpiSum reduce) (hpos : ∀ idx, 0 ≤ hostSum hosts idx)
    {i : FsIdx}
    (hopen : Showable (hostSum hosts (counterIdx 0 i)) (hostSum hosts (counterIdx 1 i)))
    (hlxstat : Showable (hostSum hosts (counterIdx 2 i)) (hostSum hosts (counterIdx 3 i))) :
    serverSummary (reduce hosts) pFsTagList i =
      some [SummaryLine.ofSums hosts pFsTagList i] := by
  have hlow (k : Fin 4) (hlt : hostSum hosts (counterIdx k i) < 2 ^ 31) :
      lowInt (reduce hosts (counterIdx k i)) = hostSum hosts (counterIdx k i) :=
    lowInt_reduce hreduce (hpos _) hlt
  have h1 := hpos (counterIdx 1 i)
  have h3 := hpos (counterIdx 3 i)
  obtain ⟨ho, holt, hod⟩ := hopen
  obtain ⟨hs, hslt, hsd⟩ := hlxstat
  have hp := (delayPercent_eq_some_iff h1 ho.le).mpr ⟨ho, hod, rfl⟩
  have hq := (delayPercent_eq_some_iff h3 hs.le).mpr ⟨hs, hsd, rfl⟩
  simp only [serverSummary, hlow 0 holt, hlow 1 (by omega), hlow 2 hslt, hlow 3 (by omega),
    if_pos (Or.inl ho), hp, hq, Option.bind_some, Option.map_some, SummaryLine.ofSums]

/-- A server without calls is passed over. -/
theorem serverSummary_of_zero (hreduce : MpiSum reduce) {i : FsIdx}
    (hopen : hostSum hosts (counterIdx 0 i) = 0) (hlxstat : hostSum hosts (counterIdx 2 i) = 0) :
    serverSummary (reduce hosts) pFsTagList i = some [] := by
  have ho := lowInt_reduce hreduce hopen.ge (by omega)
  have hs := lowInt_reduce hreduce hlxstat.ge (by omega)
  simp only [serverSummary, ho, hs, hopen, hlxstat, lt_irrefl, or_self, if_false]

/-- A server about which the summary is right. -/
theorem showable_of_right (hpos : ∀ idx, 0 ≤ hostSum hosts idx) {i : FsIdx} {l : SummaryLine}
    (h : serverSummary (reduce hosts) pFsTagList i = some ls) (hl : l ∈ ls)
    (hr : l.Right hosts i) :
    Showable (hostSum hosts (counterIdx 0 i)) (hostSum hosts (counterIdx 1 i)) ∧
      Showable (hostSum hosts (counterIdx 2 i)) (hostSum hosts (counterIdx 3 i)) := by
  obtain ⟨-, ho, -, hs, -, hp, hq⟩ := mem_serverSummary h hl
  rw [hr.openDelayedCount, hr.openCount] at hp
  rw [hr.lxstatDelayedCount, hr.lxstatCount] at hq
  obtain ⟨hopos, hod, -⟩ := (delayPercent_eq_some_iff (hpos _) (hpos _)).mp hp
  obtain ⟨hspos, hsd, -⟩ := (delayPercent_eq_some_iff (hpos _) (hpos _)).mp hq
  refine ⟨⟨hopos, ?_, hod⟩, ⟨hspos, ?_, hsd⟩⟩
  · rw [← hr.openCount, ho]
    exact (wrapInt32_bounds _).2
  · rw [← hr.lxstatCount, hs]
    exact (wrapInt32_bounds _).2

/-- **The summary of a job.** Without a division by zero and without an overflow it has a line
with the totals and the percentages for every server that there were calls to, exactly if each
of the servers had no calls, or calls of both kinds, both of them in numbers below `2 ^ 31` and
the delayed ones so few that a hundred times their number is below it, too. -/
theorem jobSummary_iff (reduce : List Counters → Counters) (hreduce : MpiSum reduce)
    (pFsTagList : FsIdx → CStr) (hosts : List Counters) (hpos : ∀ idx, 0 ≤ hostSum hosts idx) :
    (∃ ls, jobSummary reduce pFsTagList true hosts = some ls ∧ ∀ i : FsIdx,
        0 < hostSum hosts (counterIdx 0 i) ∨ 0 < hostSum hosts (counterIdx 2 i) →
          ∃ l ∈ ls, l.Right hosts i) ↔
      ∀ i : FsIdx,
        (hostSum hosts (counterIdx 0 i) = 0 ∧ hostSum hosts (counterIdx 2 i) = 0) ∨
          (Showable (hostSum hosts (counterIdx 0 i)) (hostSum hosts (counterIdx 1 i)) ∧
            Showable (hostSum hosts (counterIdx 2 i)) (hostSum hosts (counterIdx 3 i))) := by
  rw [jobSummary, if_pos rfl]
  constructor
  · rintro ⟨ls, hls, hright⟩ i
    obtain ⟨hall, rfl⟩ := summaryLoop_eq_some_iff.mp hls
    have h0 := hpos (counterIdx 0 i)
    have h2 := hpos (counterIdx 2 i)
    by_cases hcalls : 0 < hostSum hosts (counterIdx 0 i) ∨ 0 < hostSum hosts (counterIdx 2 i)
    · obtain ⟨l, hl, hr⟩ := hright i hcalls
      obtain ⟨j, -, hj⟩ := List.mem_flatMap.mp hl
      obtain ⟨lj, hlj⟩ := Option.isSome_iff_exists.mp (hall j)
      rw [hlj, Option.getD_some] at hj
      have hij : (j : ℕ) = i := (mem_serverSummary hlj hj).1.symm.trans hr.server
      obtain rfl : j = i := Fin.ext hij
      exact .inr (showable_of_right hpos hlj hj hr)
    · exact .inl (by omega)
  · intro hcond
    refine ⟨_, summaryLoop_eq_some_iff.mpr ⟨fun i => ?_, rfl⟩, fun i hcalls => ?_⟩
    · obtain ⟨ho, hs⟩ | ⟨ho, hs⟩ := hcond i
      · rw [serverSummary_of_zero hreduce ho hs]
        rfl
      · rw [serverSummary_of_showable hreduce hpos ho hs]
        rfl
    · obtain ⟨ho, hs⟩ | ⟨ho, hs⟩ := hcond i
      · omega
      · have hl := @serverSummary_of_showable pFsTagList _ _ hreduce hpos i ho hs
        exact ⟨SummaryLine.ofSums hosts pFsTagList i,
          List.mem_flatMap.mpr ⟨i, List.mem_finRange i, by rw [hl]; simp⟩,
          SummaryLine.right_ofSums i⟩

/-- Where every server has no calls or calls that can be shown, the text is that of the lines of the
servers with calls, in their order. -/
theorem jobSummaryText_eq (hreduce : MpiSum reduce) (pFsTagList : FsIdx → CStr)
    (hpos : ∀ idx, 0 ≤ hostSum hosts idx)
    (hcond : ∀ i : FsIdx,
      (hostSum hosts (counterIdx 0 i) = 0 ∧ hostSum hosts (counterIdx 2 i) = 0) ∨
        (Showable (hostSum hosts (counterIdx 0 i)) (hostSum hosts (counterIdx 1 i)) ∧
          Showable (hostSum hosts (counterIdx 2 i)) (hostSum hosts (counterIdx 3 i)))) :
    jobSummaryText reduce pFsTagList true hosts =
      some ((List.finRange 8).flatMap fun i =>
        if 0 < hostSum hosts (counterIdx 0 i) then (SummaryLine.ofSums hosts pFsTagList i).text
        else []) := by
  have hround (i : FsIdx) : serverSummary (reduce hosts) pFsTagList i =
      some (if 0 < hostSum hosts (counterIdx 0 i) then [SummaryLine.ofSums hosts pFsTagList i]
        else []) := by
    obtain ⟨ho, hs⟩ | ⟨ho, hs⟩ := hcond i
    · rw [serverSummary_of_zero hreduce ho hs, if_neg ho.not_gt]
    · rw [serverSummary_of_showable hreduce hpos ho hs, if_pos ho.1]
  have hloop : summaryLoop (reduce hosts) pFsTagList = some _ :=
    summaryLoop_eq_some_iff.mpr ⟨fun i => by rw [hround i]; rfl, rfl⟩
  rw [jobSummaryText, jobSummary, if_pos rfl, hloop, Option.map_some, List.flatMap_assoc]
  refine congrArg some (congrArg (List.flatMap · (List.finRange 8)) (funext fun i => ?_))
  rw [hround i, Option.getD_some]
  split_ifs
  · rw [List.flatMap_singleton]
  · rfl

/-- A reduction that adds up in 64 bits. -/
def wrapReduce (hosts : List Counters) : Counters := fun idx => BitVec.ofInt 64 (hostSum hosts idx)

theorem mpiSum_wrapReduce : MpiSum wrapReduce := by
  intro hosts idx hge hlt
  rw [wrapReduce, BitVec.toInt_ofInt]
  exact Int.bmod_eq_of_le (by norm_num; omega) (by norm_num; omega)

/-- Ten calls of every kind on every server, five of them delayed. -/
def tenCalls : Counters := fun idx => if idx.val / 8 % 2 = 0 then 10 else 5

theorem jobSummary_iff_tenCalls :
    ∃ ls, jobSummary wrapReduce (fun _ => []) true [tenCalls, tenCalls] = some ls ∧
      ∀ i : FsIdx, ∃ l ∈ ls, l.Right [tenCalls, tenCalls] i := by
  have hshow : ∀ i : FsIdx,
      (0 < hostSum [tenCalls, tenCalls] (counterIdx 0 i) ∧
        hostSum [tenCalls, tenCalls] (counterIdx 0 i) < 2 ^ 31 ∧
        100 * hostSum [tenCalls, tenCalls] (counterIdx 1 i) < 2 ^ 31) ∧
      0 < hostSum [tenCalls, tenCalls] (counterIdx 2 i) ∧
        hostSum [tenCalls, tenCalls] (counterIdx 2 i) < 2 ^ 31 ∧
        100 * hostSum [tenCalls, tenCalls] (counterIdx 3 i) < 2 ^ 31 := by decide
  obtain ⟨ls, hls, hright⟩ := (jobSummary_iff wrapReduce mpiSum_wrapReduce (fun _ => [])
    [tenCalls, tenCalls] (by decide)).mpr fun i => .inr (hshow i)
  exact ⟨ls, hls, fun i => hright i (.inl (hshow i).1.1)⟩

/-- One host that has opened one file and has not asked for the state of any: the second percentage
divides by zero. -/
theorem jobSummary_open_only :
    (∀ idx, 0 ≤ hostSum [fun idx => if idx.val = 0 then 1 else 0] idx) ∧
      jobSummary wrapReduce (fun _ => []) true [fun idx => if idx.val = 0 then 1 else 0] =
        none := by
  decide

end

end Ooops
