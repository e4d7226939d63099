import Ooops.LogRates

/-!
# Totals

The counters of a host only grow. The daemon replaces the row of a host whenever a packet of
it arrives, takes its own counters at a summary, and repeats in its log what the last
summary has left. So the totals it reports grow too, once a summary has found a packet of
every remote rank and as long as they fit a `long`.

* `Growing` is what the hosts keep to: no packet has a counter that is less than in the
  packet before of the same rank, and no local counter goes back.
* `Rises` relates two states of which the later one has the larger totals.
* `serverStep_sums` and `serverStep_fdLog`: what one event does to the sums and the logs.
* `SumsKept.step` and `SumsKept.run`: the totals rise with one event and over a run.
* `totals_rise`: from the first complete summary on, the totals rise.
* `totals_wrap`: beyond a `long` they do not.
-/

open Basis

namespace Ooops

/-- The counters of the last packet of a rank, in a history of events with the last one
first. -/
def lastPacket (k : ℤ) (hist : List Event) : Option Counters :=
  ((hist.filterMap Event.data).find? fun p => p.rank = k).map OoopsData.counter

/-- The local counters, which were `c₀` at the start. -/
def lastLocal (c₀ : Counters) : List Event → Counters
  | [] => c₀
  | .localWrite counter :: _ => counter
  | _ :: hist => lastLocal c₀ hist

/-- No counter is less than before. -/
def NoLess (c c' : Counters) : Prop := ∀ idx, (c idx).toInt ≤ (c' idx).toInt

/-- In a history of events with the last one first, the counters of every rank and the local
ones never decrease. -/
def Growing (c₀ : Counters) : List Event → Prop
  | [] => True
  | e :: hist =>
      Growing c₀ hist ∧
        (∀ p, e.data = some p → ∀ c, lastPacket p.rank hist = some c → NoLess c p.counter) ∧
        ∀ counter, e = .localWrite counter → NoLess (lastLocal c₀ hist) counter

/-- Every remote rank has sent a packet. -/
def AllReported (cfg : Setup) (hist : List Event) : Prop :=
  ∀ k : ℤ, 1 ≤ k → k < cfg.gsize → lastPacket k hist ≠ none

/-- The sum that a summary would take now, if it were exact. -/
def exactSum {gsize : ℕ} (s : Server gsize) (idx : Fin 32) : ℤ :=
  ∑ k, (s.copyLocal.oopsDataList k idx).toInt

/-- The exact sums fit a `long`, and so does what they grow by from `s₀` to `s`. -/
def Fits (cfg : Setup) (s₀ s : Server cfg.gsize) : Prop :=
  ∀ idx ∈ trackedIdx cfg,
    -2 ^ 63 ≤ exactSum s₀ idx ∧ exactSum s idx < 2 ^ 63 ∧ exactSum s idx - exactSum s₀ idx < 2 ^ 63

/-- From `s` to `s'` no tracked total decreases, neither in the sums nor from line to line in
the logs, and the increments of a summary in between are not negative. -/
structure Rises (cfg : Setup) (s s' : Server cfg.gsize) : Prop where
  counterSum_le : ∀ idx ∈ trackedIdx cfg, (s.counterSum idx).toInt ≤ (s'.counterSum idx).toInt
  nSummary_le : s.nSummary ≤ s'.nSummary
  delta_nonneg : s'.nSummary ≠ s.nSummary →
    ∀ idx ∈ trackedIdx cfg, 0 ≤ (s'.deltaCounterSum idx).toInt
  delta_eq : s'.nSummary = s.nSummary → s'.deltaCounterSum = s.deltaCounterSum
  fdLog_append : ∃ lines, s'.fdLog = s.fdLog ++ lines ∧
    ∀ j : FsIdx, j.val < cfg.nFsServer → ∀ i,
      (logLines lines j).Pairwise (fun l l' => (l.totals i).toInt ≤ (l'.totals i).toInt) ∧
      ∀ l ∈ logLines lines j, (s.counterSum (counterIdx i j)).toInt ≤ (l.totals i).toInt ∧
        (l.totals i).toInt ≤ (s'.counterSum (counterIdx i j)).toInt

/-! ## Rising -/

section Rises

variable {cfg : Setup} {s s' s'' : Server cfg.gsize}

theorem NoLess.refl (c : Counters) : NoLess c c := fun _ => le_rfl

theorem logLines_append_eq (l l' : List LogLine) (j : FsIdx) :
    logLines (l ++ l') j = logLines l j ++ logLines l' j := List.filter_append ..

/-- Nothing has happened yet. -/
theorem Rises.refl (s : Server cfg.gsize) : Rises cfg s s where
  counterSum_le := fun _ _ => le_rfl
  nSummary_le := le_rfl
  delta_nonneg := fun h => absurd rfl h
  delta_eq := fun _ => rfl
  fdLog_append := ⟨[], (List.append_nil _).symm, fun _ _ _ =>
    ⟨List.Pairwise.nil, fun _ h => absurd h List.not_mem_nil⟩⟩

/-- One stretch after the other. -/
theorem Rises.trans (h : Rises cfg s s') (h' : Rises cfg s' s'') : Rises cfg s s'' where
  counterSum_le := fun idx hidx => (h.counterSum_le idx hidx).trans (h'.counterSum_le idx hidx)
  nSummary_le := h.nSummary_le.trans h'.nSummary_le
  delta_nonneg := fun hne => by
    by_cases hsame : s''.nSummary = s'.nSummary
    · rw [h'.delta_eq hsame]
      exact h.delta_nonneg (hsame ▸ hne)
    · exact h'.delta_nonneg hsame
  delta_eq := fun heq => by
    have h₁ := h.nSummary_le
    have h₂ := h'.nSummary_le
    rw [h'.delta_eq (by omega), h.delta_eq (by omega)]
  fdLog_append := by
    obtain ⟨lines, hlog, hlines⟩ := h.fdLog_append
    obtain ⟨lines', hlog', hlines'⟩ := h'.fdLog_append
    refine ⟨lines ++ lines', by rw [hlog', hlog, List.append_assoc], fun j hj i => ?_⟩
    obtain ⟨hpair, hbound⟩ := hlines j hj i
    obtain ⟨hpair', hbound'⟩ := hlines' j hj i
    have hle := h.counterSum_le _ (mem_trackedIdx (i := i) hj)
    have hle' := h'.counterSum_le _ (mem_trackedIdx (i := i) hj)
    rw [logLines_append_eq]
    refine ⟨List.pairwise_append.mpr ⟨hpair, hpair', fun l hl l' hl' =>
      (hbound l hl).2.trans (hbound' l' hl').1⟩, fun l hl => ?_⟩
    rcases List.mem_append.mp hl with hl | hl
    · exact ⟨(hbound l hl).1, (hbound l hl).2.trans hle'⟩
    · exact ⟨hle.trans (hbound' l hl).1, (hbound' l hl).2⟩

end Rises

/-! ## What one event does to the sums and the logs -/

section Step

variable {cfg : Setup} {s s' : Server cfg.gsize} {e : Event}

/-- An event leaves the sums as they are, or it makes a summary of the rows that the state
then has. -/
theorem serverStep_sums (h : serverStep cfg s e = some s') :
    (s'.counterSum = s.counterSum ∧ s'.counterSumSave = s.counterSumSave ∧
        s'.deltaCounterSum = s.deltaCounterSum ∧ s'.nSummary = s.nSummary) ∨
      s'.nSummary = s.nSummary + 1 ∧ ∀ idx ∈ trackedIdx cfg,
        s'.counterSum idx = ∑ k, s'.copyLocal.oopsDataList k idx ∧
        s'.counterSumSave idx = s'.counterSum idx ∧
        s'.deltaCounterSum idx = s'.counterSum idx - s.counterSumSave idx := by
  have hsummary (t : Server cfg.gsize) (hsave : t.counterSumSave = s.counterSumSave) :
      ∀ idx ∈ trackedIdx cfg,
        (printSummary cfg t.copyLocal).counterSum idx =
            ∑ k, (printSummary cfg t.copyLocal).copyLocal.oopsDataList k idx ∧
          (printSummary cfg t.copyLocal).counterSumSave idx =
            (printSummary cfg t.copyLocal).counterSum idx ∧
          (printSummary cfg t.copyLocal).deltaCounterSum idx =
            (printSummary cfg t.copyLocal).counterSum idx - s.counterSumSave idx := by
    intro idx hidx
    refine ⟨?_, printSummary_counterSumSave hidx, ?_⟩
    · rw [printSummary_counterSum hidx]
      refine Finset.sum_congr rfl fun k _ => ?_
      simp only [Server.copyLocal, printSummary_oopsDataList, printSummary_localData]
      split_ifs <;> rfl
    · rw [printSummary_deltaCounterSum hidx, ← hsave]
      rfl
  obtain ⟨p, -, htake⟩ | ⟨-, rfl⟩ | ⟨-, -, localData, fds, rfl, -⟩ := serverStep_cases h
  · obtain ⟨-, k, -, rfl⟩ := takeData_eq_some_iff.mp htake
    rw [afterData]
    split_ifs
    · exact .inr ⟨printSummary_nSummary, hsummary _ rfl⟩
    · exact .inl ⟨rfl, rfl, rfl, rfl⟩
  · by_cases hg : cfg.gsize = 1
    · rw [periodic_of_eq hg]
      exact .inr ⟨printSummary_nSummary, hsummary s rfl⟩
    · rw [periodic_of_ne hg]
      exact .inl ⟨rfl, rfl, rfl, rfl⟩
  · exact .inl ⟨rfl, rfl, rfl, rfl⟩

/-- An event leaves the logs as they are, or it adds lines with the sums that the state then
has. -/
theorem serverStep_fdLog (h : serverStep cfg s e = some s') :
    s'.fdLog = s.fdLog ∨ ∃ t : Server cfg.gsize, t.counterSum = s'.counterSum ∧
      s'.fdLog = s.fdLog ++ (List.finRange cfg.nFsServer).map fun j =>
        logLine cfg t (j.castLE cfg.nFsServer_le) := by
  obtain ⟨p, -, htake⟩ | ⟨-, rfl⟩ | ⟨-, -, localData, fds, rfl, -⟩ := serverStep_cases h
  · obtain ⟨-, k, -, rfl⟩ := takeData_eq_some_iff.mp htake
    rw [afterData]
    split_ifs
    · exact .inl printSummary_fdLog
    · exact .inl rfl
  · by_cases hg : cfg.gsize = 1
    · rw [periodic_of_eq hg]
      exact .inr ⟨{ printSummary cfg s.copyLocal with tNow := s.tNow + cfg.tIntervalReport },
        rfl, rfl⟩
    · rw [periodic_of_ne hg]
      exact .inr ⟨{ s with tNow := s.tNow + cfg.tIntervalReport }, rfl, rfl⟩
  · exact .inl rfl

/-- Only a local write changes the local counters. -/
theorem serverStep_localData (h : serverStep cfg s e = some s')
    (he : ∀ counter, e ≠ .localWrite counter) : s'.localData = s.localData := by
  obtain ⟨p, -, htake⟩ | ⟨-, rfl⟩ | ⟨-, -, localData, fds, rfl, hlocal⟩ := serverStep_cases h
  · obtain ⟨-, k, -, rfl⟩ := takeData_eq_some_iff.mp htake
    rw [afterData]
    split_ifs
    · exact printSummary_localData
    · rfl
  · by_cases hg : cfg.gsize = 1
    · rw [periodic_of_eq hg]
      exact printSummary_localData
    · rw [periodic_of_ne hg]
  · exact hlocal.resolve_right (he localData)

/-- Only a packet changes a remote row, and only that of its rank. -/
theorem serverStep_row (h : serverStep cfg s e = some s') {k : Fin cfg.gsize}
    (hk : k.val ≠ 0) :
    s'.oopsDataList k = s.oopsDataList k ∧ (∀ p, e.data = some p → p.rank ≠ k.val) ∨
      ∃ p, e.data = some p ∧ p.rank = k.val ∧ s'.oopsDataList k = p.counter := by
  obtain ⟨p, hp, htake⟩ | ⟨rfl, rfl⟩ | ⟨hdata, -, localData, fds, rfl, -⟩ := serverStep_cases h
  · obtain ⟨-, k', hrank, rfl⟩ := takeData_eq_some_iff.mp htake
    rw [afterData_oopsDataList hk]
    by_cases hkk : k = k'
    · exact .inr ⟨p, hp, hkk ▸ hrank, if_pos hkk⟩
    · refine .inl ⟨if_neg hkk, fun q hq hqk => hkk (Fin.ext ?_)⟩
      obtain rfl := Option.some.inj (hp.symm.trans hq)
      omega
  · exact .inl ⟨periodic_oopsDataList hk, fun p hp => absurd hp (by simp [Event.data])⟩
  · exact .inl ⟨rfl, fun p hp => absurd hp (by simp [hdata])⟩

end Step

/-! ## Growing rows -/

section Growing

variable {cfg : Setup} {c₀ : Counters} {hist : List Event} {s s' : Server cfg.gsize} {e : Event}

/-- The rows and the local counters are the last ones that have come. -/
structure Latest (cfg : Setup) (c₀ : Counters) (hist : List Event) (s : Server cfg.gsize) :
    Prop where
  row : ∀ k : Fin cfg.gsize, k.val ≠ 0 → ∀ c, lastPacket k.val hist = some c →
    s.oopsDataList k = c
  localData_eq : s.localData = lastLocal c₀ hist

theorem lastPacket_of_data {p : OoopsData} (he : e.data = some p) (k : ℤ) :
    lastPacket k (e :: hist) = if p.rank = k then some p.counter else lastPacket k hist := by
  rw [lastPacket, List.filterMap_cons_some he, List.find?_cons]
  by_cases hk : p.rank = k
  · simp [hk]
  · simp [hk, lastPacket]

theorem lastPacket_of_none (he : e.data = none) (k : ℤ) :
    lastPacket k (e :: hist) = lastPacket k hist := by
  rw [lastPacket, List.filterMap_cons_none he, lastPacket]

/-- What has been reported stays reported. -/
theorem AllReported.cons (h : AllReported cfg hist) (e : Event) :
    AllReported cfg (e :: hist) := by
  intro k hk hlt
  cases hdata : e.data with
  | none =>
      rw [lastPacket_of_none hdata]
      exact h k hk hlt
  | some p =>
      rw [lastPacket_of_data hdata]
      split_ifs
      · exact Option.some_ne_none _
      · exact h k hk hlt

theorem lastLocal_of_ne (he : ∀ counter, e ≠ .localWrite counter) :
    lastLocal c₀ (e :: hist) = lastLocal c₀ hist := by
  cases e with
  | localWrite counter => exact absurd rfl (he counter)
  | _ => rfl

/-- One more event. -/
theorem Latest.step (hl : Latest cfg c₀ hist s) (h : serverStep cfg s e = some s') :
    Latest cfg c₀ (e :: hist) s' := by
  constructor
  · intro k hk c hc
    obtain ⟨hsame, hother⟩ | ⟨p, hp, hrank, hrow⟩ := serverStep_row h hk
    · rw [hsame]
      refine hl.row k hk c ?_
      cases hdata : e.data with
      | none => rwa [lastPacket_of_none hdata] at hc
      | some p => rwa [lastPacket_of_data hdata, if_neg (hother p hdata)] at hc
    · rw [lastPacket_of_data hp, if_pos hrank] at hc
      rw [hrow, Option.some.inj hc]
  · by_cases he : ∀ counter, e ≠ .localWrite counter
    · rw [serverStep_localData h he, lastLocal_of_ne he, hl.localData_eq]
    · simp only [not_forall, not_not] at he
      obtain ⟨counter, rfl⟩ := he
      obtain rfl := Option.some.inj h
      rfl

/-- Where the counters grow, so does every row that a summary would take. -/
theorem Latest.noLess (hl : Latest cfg c₀ hist s) (hall : AllReported cfg hist)
    (hgrow : Growing c₀ (e :: hist)) (h : serverStep cfg s e = some s') (k : Fin cfg.gsize) :
    NoLess (s.copyLocal.oopsDataList k) (s'.copyLocal.oopsDataList k) := by
  obtain ⟨-, hpacket, hlocal⟩ := hgrow
  simp only [Server.copyLocal]
  split_ifs with hk
  · by_cases he : ∀ counter, e ≠ .localWrite counter
    · rw [serverStep_localData h he]
      exact .refl _
    · simp only [not_forall, not_not] at he
      obtain ⟨counter, rfl⟩ := he
      obtain rfl := Option.some.inj h
      rw [hl.localData_eq]
      exact hlocal counter rfl
  · obtain ⟨hsame, -⟩ | ⟨p, hp, hrank, hrow⟩ := serverStep_row h hk
    · rw [hsame]
      exact .refl _
    · obtain ⟨c, hc⟩ := Option.ne_none_iff_exists'.mp (hall k.val (by omega) (by omega))
      rw [hrow, hl.row k hk c hc]
      exact hpacket p hp c (hrank ▸ hc)

/-- So does the exact sum. -/
theorem Latest.exactSum_le (hl : Latest cfg c₀ hist s) (hall : AllReported cfg hist)
    (hgrow : Growing c₀ (e :: hist)) (h : serverStep cfg s e = some s') (idx : Fin 32) :
    exactSum s idx ≤ exactSum s' idx :=
  Finset.sum_le_sum fun k _ => hl.noLess hall hgrow h k idx

/-- The last ones that have come are known along every run. -/
theorem latest_of_runSteps {rows : Fin cfg.gsize → Counters} {es : List Event}
    (h : runSteps (serverStep cfg) (Server.start cfg rows c₀) es = some s) :
    Latest cfg c₀ es.reverse s := by
  refine history_of_runSteps (I := fun es s => Latest cfg c₀ es.reverse s)
    (P := fun _ _ => True) ⟨fun _ _ _ hc => absurd hc (by simp [lastPacket]), rfl⟩ ?_ es s
    (along_of_forall (fun _ _ => trivial) _ _) h
  intro es s e s' hl _ hstep
  rw [List.reverse_concat]
  exact hl.step hstep

/-- What holds before a stretch of events of growing counters holds after it, and the exact
sums have grown. -/
theorem latest_append {es gs : List Event} (hl : Latest cfg c₀ es.reverse s)
    (hall : AllReported cfg es.reverse) (hgrow : Growing c₀ (es ++ gs).reverse)
    (h : runSteps (serverStep cfg) s gs = some s') :
    Latest cfg c₀ (es ++ gs).reverse s' ∧ AllReported cfg (es ++ gs).reverse ∧
      ∀ idx, exactSum s idx ≤ exactSum s' idx := by
  induction gs using List.reverseRecOn generalizing s' with
  | nil =>
      obtain rfl := Option.some.inj h
      rw [List.append_nil]
      exact ⟨hl, hall, fun _ => le_rfl⟩
  | append_singleton gs e ih =>
      obtain ⟨m, hm, hstep⟩ := runSteps_concat_eq_some.mp h
      rw [← List.append_assoc, List.reverse_concat] at hgrow ⊢
      obtain ⟨hl', hall', hle⟩ := ih hgrow.1 hm
      exact ⟨hl'.step hstep, hall'.cons e, fun idx =>
        (hle idx).trans (hl'.exactSum_le hall' hgrow hstep idx)⟩

end Growing

/-! ## Rising totals -/

section Totals

variable {cfg : Setup} {c₀ : Counters} {s₀ s s' : Server cfg.gsize} {e : Event}

/-- A sum that fits a `long` is exact. -/
theorem toInt_sum {n : ℕ} (f : Fin n → BitVec 64) (hge : -2 ^ 63 ≤ ∑ k, (f k).toInt)
    (hlt : ∑ k, (f k).toInt < 2 ^ 63) : (∑ k, f k).toInt = ∑ k, (f k).toInt := by
  have hofInt (t : Finset (Fin n)) :
      ∑ k ∈ t, f k = BitVec.ofInt 64 (∑ k ∈ t, (f k).toInt) := by
    induction t using Finset.induction_on with
    | empty => rfl
    | insert k t hk ih =>
        rw [Finset.sum_insert hk, Finset.sum_insert hk, BitVec.ofInt_add, BitVec.ofInt_toInt, ih]
  rw [hofInt, BitVec.toInt_ofInt]
  exact Int.bmod_eq_of_le (by omega) (by omega)

/-- Since the complete summary that led to `s₀` the sums are saved and lie between the exact
sums of then and now. -/
structure SumsKept (cfg : Setup) (s₀ s : Server cfg.gsize) : Prop where
  saved : ∀ idx ∈ trackedIdx cfg, s.counterSumSave idx = s.counterSum idx
  low : ∀ idx ∈ trackedIdx cfg, exactSum s₀ idx ≤ (s.counterSum idx).toInt
  high : ∀ idx ∈ trackedIdx cfg, (s.counterSum idx).toInt ≤ exactSum s idx

/-- After a summary the sums are exact. -/
theorem kept_of_summary (h : serverStep cfg s e = some s₀) (hsum : s₀.nSummary = s.nSummary + 1)
    (hfit : Fits cfg s₀ s') (hle : ∀ idx, exactSum s₀ idx ≤ exactSum s' idx) :
    SumsKept cfg s₀ s₀ := by
  obtain ⟨-, -, -, hsame⟩ | ⟨-, hsums⟩ := serverStep_sums h
  · omega
  · have hexact : ∀ idx ∈ trackedIdx cfg, (s₀.counterSum idx).toInt = exactSum s₀ idx := by
      intro idx hidx
      obtain ⟨hge, hlt, -⟩ := hfit idx hidx
      rw [(hsums idx hidx).1]
      exact toInt_sum _ hge (lt_of_le_of_lt (hle idx) hlt)
    exact ⟨fun idx hidx => (hsums idx hidx).2.1, fun idx hidx => (hexact idx hidx).ge,
      fun idx hidx => (hexact idx hidx).le⟩

/-- The lines that one event adds have the totals of the state they are written in. -/
theorem lines_of_serverStep (h : serverStep cfg s e = some s')
    (hle : ∀ idx ∈ trackedIdx cfg, (s.counterSum idx).toInt ≤ (s'.counterSum idx).toInt) :
    ∃ lines, s'.fdLog = s.fdLog ++ lines ∧
      ∀ j : FsIdx, j.val < cfg.nFsServer → ∀ i,
        (logLines lines j).Pairwise (fun l l' => (l.totals i).toInt ≤ (l'.totals i).toInt) ∧
        ∀ l ∈ logLines lines j, (s.counterSum (counterIdx i j)).toInt ≤ (l.totals i).toInt ∧
          (l.totals i).toInt ≤ (s'.counterSum (counterIdx i j)).toInt := by
  obtain hlog | ⟨t, ht, hlog⟩ := serverStep_fdLog h
  · exact ⟨[], by rw [hlog, List.append_nil], fun _ _ _ =>
      ⟨List.Pairwise.nil, fun _ hl => absurd hl List.not_mem_nil⟩⟩
  · refine ⟨_, hlog, fun j hj i => ?_⟩
    have hline := logLines_append (s := t) hj []
    rw [List.nil_append] at hline
    rw [hline]
    refine ⟨List.pairwise_singleton .., fun l hl => ?_⟩
    obtain rfl := List.mem_singleton.mp hl
    have htotal : (logLine cfg t j).totals i = s'.counterSum (counterIdx i j) :=
      congrFun ht _
    rw [htotal]
    exact ⟨hle _ (mem_trackedIdx hj), le_rfl⟩

/-- **One event.** While the exact sums grow and fit, the totals rise. -/
theorem SumsKept.step (hkept : SumsKept cfg s₀ s) (hfit : Fits cfg s₀ s')
    (hle : ∀ idx, exactSum s idx ≤ exactSum s' idx) (h : serverStep cfg s e = some s') :
    SumsKept cfg s₀ s' ∧ Rises cfg s s' := by
  obtain ⟨hsum, hsave, hdelta, hcount⟩ | ⟨hcount, hsums⟩ := serverStep_sums h
  · have hsame : ∀ idx ∈ trackedIdx cfg,
        (s.counterSum idx).toInt ≤ (s'.counterSum idx).toInt := fun idx _ => by rw [hsum]
    refine ⟨⟨?_, ?_, ?_⟩, hsame, hcount.ge, fun hne => absurd hcount hne, fun _ => hdelta,
      lines_of_serverStep h hsame⟩
    · rw [hsave, hsum]
      exact hkept.saved
    · rw [hsum]
      exact hkept.low
    · rw [hsum]
      exact fun idx hidx => (hkept.high idx hidx).trans (hle idx)
  · have hexact : ∀ idx ∈ trackedIdx cfg, (s'.counterSum idx).toInt = exactSum s' idx := by
      intro idx hidx
      obtain ⟨hge, hlt, -⟩ := hfit idx hidx
      rw [(hsums idx hidx).1]
      have hlow := ((hkept.low idx hidx).trans (hkept.high idx hidx)).trans (hle idx)
      exact toInt_sum _ (hge.trans hlow) hlt
    have hgrown : ∀ idx ∈ trackedIdx cfg,
        (s.counterSum idx).toInt ≤ (s'.counterSum idx).toInt := fun idx hidx => by
      rw [hexact idx hidx]
      exact (hkept.high idx hidx).trans (hle idx)
    refine ⟨⟨fun idx hidx => (hsums idx hidx).2.1, fun idx hidx => ?_, fun idx hidx =>
      (hexact idx hidx).le⟩, hgrown, by omega, fun _ idx hidx => ?_, fun heq => by omega,
      lines_of_serverStep h hgrown⟩
    · exact (hkept.low idx hidx).trans (hgrown idx hidx)
    · obtain ⟨-, -, hdiff⟩ := hfit idx hidx
      have hlow := hkept.low idx hidx
      have hup := hgrown idx hidx
      rw [(hsums idx hidx).2.2, hkept.saved idx hidx, BitVec.toInt_sub,
        Int.bmod_eq_of_le (by omega) (by have := hexact idx hidx; omega)]
      omega

/-- **A stretch of events.** -/
theorem SumsKept.run {es gs : List Event} (hkept : SumsKept cfg s₀ s)
    (hl : Latest cfg c₀ es.reverse s) (hall : AllReported cfg es.reverse)
    (hgrow : Growing c₀ (es ++ gs).reverse)
    (h : runSteps (serverStep cfg) s gs = some s') (hfit : Fits cfg s₀ s') :
    SumsKept cfg s₀ s' ∧ Rises cfg s s' := by
  induction gs using List.reverseRecOn generalizing s' with
  | nil =>
      obtain rfl := Option.some.inj h
      exact ⟨hkept, .refl s⟩
  | append_singleton gs e ih =>
      obtain ⟨m, hm, hstep⟩ := runSteps_concat_eq_some.mp h
      rw [← List.append_assoc, List.reverse_concat] at hgrow
      obtain ⟨hl', hall', -⟩ := latest_append hl hall hgrow.1 hm
      have hle := hl'.exactSum_le hall' hgrow hstep
      have hfit' : Fits cfg s₀ m := fun idx hidx => by
        obtain ⟨h₁, h₂, h₃⟩ := hfit idx hidx
        have hidxle := hle idx
        exact ⟨h₁, by omega, by omega⟩
      obtain ⟨hkept', hrises⟩ := ih hgrow.1 hm hfit'
      obtain ⟨hkept'', hrises'⟩ := hkept'.step hfit hle hstep
      exact ⟨hkept'', hrises.trans hrises'⟩

/-- Growth of the counters in a history goes back to its beginning. -/
theorem Growing.of_append {es gs : List Event} (h : Growing c₀ (es ++ gs).reverse) :
    Growing c₀ es.reverse := by
  induction gs using List.reverseRecOn with
  | nil => rwa [List.append_nil] at h
  | append_singleton gs e ih =>
      rw [← List.append_assoc, List.reverse_concat] at h
      exact ih h.1

/-- **Totals.** From the first summary that finds a packet of every remote rank on, and
while the sums fit a `long`, the totals rise between any two states of a run. -/
theorem totals_rise {rows : Fin cfg.gsize → Counters} {es fs gs : List Event}
    {s₁ s₂ : Server cfg.gsize}
    (hrun : runSteps (serverStep cfg) (Server.start cfg rows c₀) es = some s)
    (hstep : serverStep cfg s e = some s₀) (hsum : s₀.nSummary = s.nSummary + 1)
    (hall : AllReported cfg (es ++ [e]).reverse)
    (hfs : runSteps (serverStep cfg) s₀ fs = some s₁)
    (hgs : runSteps (serverStep cfg) s₁ gs = some s₂)
    (hgrow : Growing c₀ (es ++ [e] ++ fs ++ gs).reverse) (hfit : Fits cfg s₀ s₂) :
    Rises cfg s₁ s₂ := by
  have hl := latest_of_runSteps (runSteps_concat_eq_some.mpr ⟨s, hrun, hstep⟩)
  obtain ⟨hl₁, hall₁, hle₁⟩ := latest_append hl hall hgrow.of_append hfs
  obtain ⟨-, -, hle₂⟩ := latest_append hl₁ hall₁ hgrow hgs
  have hfit₁ : Fits cfg s₀ s₁ := fun idx hidx => by
    obtain ⟨h₁, h₂, h₃⟩ := hfit idx hidx
    have hidxle := hle₂ idx
    exact ⟨h₁, by omega, by omega⟩
  have hkept := kept_of_summary hstep hsum hfit₁ hle₁
  obtain ⟨hkept₁, -⟩ := hkept.run hl hall hgrow.of_append hfs hfit₁
  exact (hkept₁.run hl₁ hall₁ hgrow hgs hfit).2

end Totals

section Sample

instance (cfg : Setup) (s₀ s : Server cfg.gsize) : Decidable (Fits cfg s₀ s) :=
  inferInstanceAs (Decidable (∀ idx ∈ trackedIdx cfg, _))

/-- The packet that a client sends. -/
theorem data_packetEvent (fd : ℕ) {k : ℕ} (hk : k < sampleSetup.gsize) (hne : k ≠ 0)
    (counter : Counters) :
    (packetEvent fd k counter).data = some (OoopsData.ofClient k counter) :=
  (acceptedData_ofClient hk counter).trans (if_neg hne)

/-- The last packets after one more. -/
theorem lastPacket_packetEvent (fd : ℕ) {k : ℕ} (hk : k < sampleSetup.gsize) (hne : k ≠ 0)
    (counter : Counters) (k' : ℤ) (hist : List Event) :
    lastPacket k' (packetEvent fd k counter :: hist) =
      if (k : ℤ) = k' then some counter else lastPacket k' hist :=
  lastPacket_of_data (data_packetEvent fd hk hne counter) k'

/-- After a round of the two clients, both have reported. -/
theorem lastPacket_sampleRound (counter : Counters) {k : ℤ} (hge : 1 ≤ k) (hlt : k < 3) :
    lastPacket k (sampleRound counter).reverse = some counter := by
  have hsplit : (sampleRound counter).reverse =
      [packetEvent 6 (2 : ℕ) counter, packetEvent 5 (1 : ℕ) counter] := rfl
  rw [hsplit, lastPacket_packetEvent 6 (by decide) (by decide),
    lastPacket_packetEvent 5 (by decide) (by decide)]
  obtain rfl | rfl : k = 1 ∨ k = 2 := by omega
  · simp
  · simp

theorem allReported_sampleRound (counter : Counters) :
    AllReported sampleSetup (sampleRound counter).reverse := by
  intro k hk hlt
  have hg : sampleSetup.gsize = 3 := rfl
  rw [lastPacket_sampleRound counter hk (by omega)]
  exact Option.some_ne_none _

/-- Growth, up to one more packet. -/
theorem growing_packetEvent {c₀ : Counters} {hist : List Event} (h : Growing c₀ hist) (fd : ℕ)
    {k : ℕ} (hk : k < sampleSetup.gsize) (hne : k ≠ 0) {counter : Counters}
    (hle : ∀ c, lastPacket k hist = some c → NoLess c counter) :
    Growing c₀ (packetEvent fd k counter :: hist) := by
  refine ⟨h, fun p hp c hc => ?_, fun _ => Event.noConfusion⟩
  obtain rfl := Option.some.inj ((data_packetEvent fd hk hne counter).symm.trans hp)
  exact hle c hc

/-- Two rounds with growing counters. -/
theorem growing_sampleRound (c₀ : Counters) {c c' : Counters} (h : NoLess c c') :
    Growing c₀ (sampleRound c ++ sampleRound c').reverse := by
  have hsplit : (sampleRound c ++ sampleRound c').reverse =
      packetEvent 6 (2 : ℕ) c' :: packetEvent 5 (1 : ℕ) c' :: (sampleRound c).reverse := rfl
  have hlast (k : ℕ) (hk : 1 ≤ k ∧ k < 3) (c₁ : Counters)
      (hc : lastPacket k (sampleRound c).reverse = some c₁) : NoLess c₁ c' := by
    rw [lastPacket_sampleRound c (by omega) (by omega)] at hc
    exact Option.some.inj hc ▸ h
  have hnil : Growing c₀ [] := trivial
  have hfirst : Growing c₀ (sampleRound c).reverse := by
    refine growing_packetEvent (k := 2) (growing_packetEvent (k := 1) hnil 5 (by decide)
      (by decide) ?_) 6 (by decide) (by decide) ?_
    · simp [lastPacket]
    · have hnone := lastPacket_packetEvent 5 (k := 1) (by decide) (by decide) c 2 []
      intro c₁ hc
      rw [Nat.cast_ofNat] at hc
      exact absurd (hnone.symm.trans hc) (by simp [lastPacket])
  rw [hsplit]
  refine growing_packetEvent (growing_packetEvent hfirst 5 (by decide) (by decide)
    (hlast 1 (by decide))) 6 (by decide) (by decide) fun c₁ hc => ?_
  rw [lastPacket_packetEvent 5 (by decide) (by decide), if_neg (by decide)] at hc
  exact hlast 2 (by decide) c₁ hc

/-- The totals rise from one round to the next. -/
theorem totals_rise_rounds :
    ∃ s₀ s₂, sampleRun (sampleRound fun _ => 7) = some s₀ ∧
      runSteps (serverStep sampleSetup) s₀ (sampleRound fun _ => 8) = some s₂ ∧
      Rises sampleSetup s₀ s₂ := by
  have hfirst : ((sampleRun [packetEvent 5 1 fun _ => 7]).bind fun s =>
      (serverStep sampleSetup s (packetEvent 6 2 fun _ => 7)).bind fun s₀ =>
        (runSteps (serverStep sampleSetup) s₀ (sampleRound fun _ => 8)).map fun s₂ =>
          decide (s₀.nSummary = s.nSummary + 1 ∧ Fits sampleSetup s₀ s₂)) = some true := by
    decide +kernel
  obtain ⟨s, hs, hrest⟩ := Option.bind_eq_some_iff.mp hfirst
  obtain ⟨s₀, hs₀, hrest⟩ := Option.bind_eq_some_iff.mp hrest
  obtain ⟨s₂, hs₂, hdec⟩ := Option.map_eq_some_iff.mp hrest
  obtain ⟨hsum, hfit⟩ := of_decide_eq_true hdec
  have hle : NoLess (fun _ => 7) fun _ => 8 := fun _ =>
    (by decide : (7 : BitVec 64).toInt ≤ (8 : BitVec 64).toInt)
  have hgrow := growing_sampleRound (fun _ => 3) hle
  have hround : sampleRun ([packetEvent 5 1 fun _ => 7] ++ [packetEvent 6 2 fun _ => 7]) =
      some s₀ := runSteps_concat_eq_some.mpr ⟨s, hs, hs₀⟩
  refine ⟨s₀, s₂, hround, hs₂, ?_⟩
  have hnone : runSteps (serverStep sampleSetup) s₀ [] = some s₀ := rfl
  exact totals_rise hs hs₀ hsum (allReported_sampleRound _) hnone hs₂ hgrow hfit

/-- Counters of `2 ^ 62`. -/
def hugeCounters : Counters := fun _ => 0x4000000000000000

/-- Two counters of `2 ^ 62` add up to a negative `long`. -/
theorem totals_wrap :
    ∃ s₀ s₂, sampleRun (sampleRound fun _ => 7) = some s₀ ∧
      runSteps (serverStep sampleSetup) s₀ (sampleRound hugeCounters) = some s₂ ∧
      AllReported sampleSetup (sampleRound fun _ => 7).reverse ∧
      Growing (fun _ => 3) ((sampleRound fun _ => 7) ++ sampleRound hugeCounters).reverse ∧
      s₀.nSummary = 1 ∧ s₂.nSummary = 2 ∧
      (s₂.counterSum (counterIdx 0 0)).toInt < (s₀.counterSum (counterIdx 0 0)).toInt := by
  have hrun : ((sampleRun (sampleRound fun _ => 7)).bind fun s₀ =>
      (runSteps (serverStep sampleSetup) s₀ (sampleRound hugeCounters)).map fun s₂ =>
        decide (s₀.nSummary = 1 ∧ s₂.nSummary = 2 ∧
          (s₂.counterSum (counterIdx 0 0)).toInt < (s₀.counterSum (counterIdx 0 0)).toInt)) =
      some true := by
    decide +kernel
  obtain ⟨s₀, hs₀, hrest⟩ := Option.bind_eq_some_iff.mp hrun
  obtain ⟨s₂, hs₂, hdec⟩ := Option.map_eq_some_iff.mp hrest
  obtain ⟨hsum₀, hsum₂, hlt⟩ := of_decide_eq_true hdec
  have hle : NoLess (fun _ => 7) hugeCounters := fun _ =>
    (by decide : (7 : BitVec 64).toInt ≤ (0x4000000000000000 : BitVec 64).toInt)
  exact ⟨s₀, s₂, hs₀, hs₂, allReported_sampleRound _, growing_sampleRound _ hle, hsum₀, hsum₂,
    hlt⟩

end Sample

end Ooops
