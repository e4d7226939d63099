import Ooops.ClusterTotals
import Ooops.JobVerdict

/-!
# From the Calls to the Verdict

The verdict on a job is read from the logs, the totals in the logs are sums over the rows of the
daemon, and the rows come from copies that the clients have made of the counters on their hosts.
This module follows a number all this way, with the steps of calls, clients and the daemon in any
order.

* `Sourced` says where the totals come from: one value for every host, which satisfies whatever is
  known of the values that the daemon is given.
* `events_of_run`: what the daemon of a cluster is given has been in a segment since a certain
  moment.
* `verdict_le_calls`: no verdict speaks of more calls than were made.
* `verdict_of_calls`: and none of fewer calls than before that moment, once every client has sent.
-/

open Basis

namespace Ooops

/-! ### Values and their sums -/

/-- What is known of the values in the row of each host, by the index of the counter. -/
abbrev RowValues := ℕ → Fin 32 → BitVec 64 → Prop

/-- A sum of one such value for every host. -/
def SumFrom (n : ℕ) (V : RowValues) (idx : Fin 32) (v : BitVec 64) : Prop :=
  ∃ f : ℕ → BitVec 64, (∀ k < n, V k idx (f k)) ∧ v = ∑ k ∈ Finset.range n, f k

/-- An event brings such values. -/
def Event.From (V : RowValues) : Event → Prop
  | .readable _ r => ∀ p, acceptedData r = some p → ∀ idx, V p.rank.toNat idx (p.counter idx)
  | .localWrite counter => ∀ idx, V 0 idx (counter idx)
  | _ => True

/-- A packet of such an event has such values. -/
theorem Event.From.of_data {V : RowValues} {e : Event} (h : e.From V) {p : OoopsData}
    (hp : e.data = some p) : ∀ idx, V p.rank.toNat idx (p.counter idx) := by
  cases e with
  | readable fd r => exact h p hp
  | accept | alarm | localWrite => cases hp

/-! ### The daemon -/

section Daemon

variable {cfg : Setup} {V : RowValues} {old : List LogLine} {s s' : Server cfg.gsize}
  {es : List Event}

/-- The rows of the remote hosts and the local counters hold such values, the sums are sums of
them, and so are the totals in the lines that have been written after the lines `old`; at an alarm
a line has been written to every log. -/
structure Sourced (cfg : Setup) (V : RowValues) (old : List LogLine) (es : List Event)
    (s : Server cfg.gsize) : Prop where
  row : ∀ k : Fin cfg.gsize, k.val ≠ 0 → ∀ idx, V k idx (s.oopsDataList k idx)
  localData : ∀ idx, V 0 idx (s.localData idx)
  sum : ∀ idx ∈ trackedIdx cfg, SumFrom cfg.gsize V idx (s.counterSum idx)
  lines : ∃ new, s.fdLog = old ++ new ∧
    (∀ j : FsIdx, ∀ l ∈ logLines new j, ∀ i,
      SumFrom cfg.gsize V (counterIdx i j) (l.totals i)) ∧
    (Event.alarm ∈ es → ∀ j : FsIdx, j.val < cfg.nFsServer → logLines new j ≠ [])

/-- A summary adds up what is in the rows, and the local counters. -/
theorem sumFrom_rows (hrow : ∀ k : Fin cfg.gsize, k.val ≠ 0 → ∀ idx, V k idx (s.oopsDataList k idx))
    (hlocal : ∀ idx, V 0 idx (s.localData idx)) (idx : Fin 32) :
    SumFrom cfg.gsize V idx (∑ k, s.copyLocal.oopsDataList k idx) := by
  refine ⟨fun k => if h : k < cfg.gsize then s.copyLocal.oopsDataList ⟨k, h⟩ idx else 0,
    fun k hk => ?_, ?_⟩
  · simp only [dif_pos hk]
    by_cases hzero : k = 0
    · have hcopied : s.copyLocal.oopsDataList ⟨k, hk⟩ = s.localData := if_pos hzero
      rw [hcopied, hzero]
      exact hlocal idx
    · rw [Server.copyLocal_of_ne hzero]
      exact hrow ⟨k, hk⟩ hzero idx
  · rw [Finset.sum_range]
    simp only [Fin.is_lt, dif_pos, Fin.eta]

/-- A summary keeps the sources. -/
theorem Sourced.printSummary (h : Sourced cfg V old es s) :
    Sourced cfg V old es (printSummary cfg s.copyLocal) := by
  refine ⟨fun k hk idx => ?_, fun idx => ?_, fun idx hidx => ?_, ?_⟩
  · rw [printSummary_oopsDataList, Server.copyLocal_of_ne hk]
    exact h.row k hk idx
  · rw [printSummary_localData]
    exact h.localData idx
  · rw [printSummary_counterSum hidx]
    exact sumFrom_rows h.row h.localData idx
  · rw [printSummary_fdLog]
    exact h.lines

/-- So does an event that is no alarm. -/
theorem Sourced.concat (h : Sourced cfg V old es s) {e : Event} (he : e ≠ .alarm) :
    Sourced cfg V old (es ++ [e]) s := by
  obtain ⟨new, hlog, htotals, hwritten⟩ := h.lines
  refine ⟨h.row, h.localData, h.sum, new, hlog, htotals, fun halarm => hwritten ?_⟩
  exact (List.mem_append.mp halarm).resolve_right fun hmem =>
    he (List.mem_singleton.mp hmem).symm

/-- The lines of an alarm show the sums. -/
theorem Sourced.writeLines (h : Sourced cfg V old es s) :
    Sourced cfg V old (es ++ [.alarm]) (writeLines cfg s) := by
  obtain ⟨new, hlog, htotals, -⟩ := h.lines
  refine ⟨h.row, h.localData, h.sum, new ++ (List.finRange cfg.nFsServer).map fun j =>
      logLine cfg { s with tNow := s.tNow + cfg.tIntervalReport } (j.castLE cfg.nFsServer_le),
    ?_, fun j l hl i => ?_, fun _ j hj => ?_⟩
  · rw [← List.append_assoc, ← hlog]
    rfl
  · rw [logLines_append_eq] at hl
    rcases List.mem_append.mp hl with hl | hl
    · exact htotals j l hl i
    · obtain ⟨hmem, hserver⟩ := List.mem_filter.mp hl
      obtain ⟨j', -, rfl⟩ := List.mem_map.mp hmem
      have hj : j'.castLE cfg.nFsServer_le = j := Fin.ext (of_decide_eq_true hserver)
      subst hj
      exact h.sum _ (mem_trackedIdx j'.isLt)
  · rw [logLines_append hj]
    exact List.append_ne_nil_of_right_ne_nil _ (List.cons_ne_nil _ _)

/-- **Every event keeps the sources.** -/
theorem Sourced.step (h : Sourced cfg V old es s) {e : Event} (he : e.From V)
    (hstep : serverStep cfg s e = some s') : Sourced cfg V old (es ++ [e]) s' := by
  obtain ⟨p, hp, htake⟩ | ⟨rfl, rfl⟩ | ⟨-, halarm, localData, fds, rfl, hlocal⟩ :=
    serverStep_cases hstep
  · have halarm : e ≠ .alarm := by
      rintro rfl
      cases hp
    obtain ⟨-, k, hk, rfl⟩ := takeData_eq_some_iff.mp htake
    have hstore : Sourced cfg V old es (s.store k p.counter) := by
      refine ⟨fun j hj idx => ?_, h.localData, h.sum, h.lines⟩
      have hrow : (s.store k p.counter).oopsDataList j =
          if j = k then p.counter else s.oopsDataList j := Function.update_apply ..
      rw [hrow]
      split_ifs with hjk
      · have hvalue := he.of_data hp idx
        rwa [hk, Int.toNat_natCast, ← hjk] at hvalue
      · exact h.row j hj idx
    rw [afterData]
    split_ifs
    · exact hstore.printSummary.concat halarm
    · exact hstore.concat halarm
  · rw [periodic_eq_writeLines]
    split_ifs
    · exact h.printSummary.writeLines
    · exact h.writeLines
  · have hnew : ∀ idx, V 0 idx (localData idx) := by
      rcases hlocal with rfl | rfl
      · exact h.localData
      · exact he
    have hs : Sourced cfg V old es { s with localData := localData, fds := fds } :=
      ⟨h.row, hnew, h.sum, h.lines⟩
    exact hs.concat halarm

/-- The totals in the last line of a log, behind an alarm. -/
theorem Sourced.exists_last (h : Sourced cfg V old es s) (halarm : Event.alarm ∈ es) {j : FsIdx}
    (hj : j.val < cfg.nFsServer) :
    ∃ l, (logLines s.fdLog j).getLast? = some l ∧
      ∀ i, SumFrom cfg.gsize V (counterIdx i j) (l.totals i) := by
  obtain ⟨new, hlog, htotals, hwritten⟩ := h.lines
  have hne := hwritten halarm j hj
  refine ⟨(logLines new j).getLast hne, ?_, htotals j _ (List.getLast_mem hne)⟩
  rw [hlog, logLines_append_eq, List.getLast?_append_of_ne_nil _ hne,
    List.getLast?_eq_some_getLast hne]

/-- **The sources in every run.** -/
theorem Sourced.run (h : Sourced cfg V old [] s) (hfrom : ∀ e ∈ es, e.From V)
    (hrun : runSteps (serverStep cfg) s es = some s') : Sourced cfg V old es s' := by
  refine history_of_runSteps (P := fun _ e => e.From V) h
    (fun _ _ _ _ h he hstep => h.step he hstep) es s' ?_ hrun
  exact along_of_mem (fun e he _ => hfrom e he) _

end Daemon

/-! ### The cluster -/

section Cluster

variable {cfg : Setup} {hash : CStr → ℕ} {hosts : HostList} {pData : ℕ}
  {rows : Fin cfg.gsize → Counters} {area : ℕ → Memory} {es₀ es₁ es fs : List ClusterEvent}
  {s s' : Cluster cfg.gsize} {e : ClusterEvent}

/-- Every index is that of a counter. -/
theorem exists_counterIdx (idx : Fin 32) :
    ∃ kind op j, idx = counterIdx (kindOf kind op) j := by
  have hkind (i : Fin 4) : ∃ kind op, kindOf kind op = i := by
    match i with
    | 0 => exact ⟨.count, .openFile, rfl⟩
    | 1 => exact ⟨.delayedCount, .openFile, rfl⟩
    | 2 => exact ⟨.count, .lxstat, rfl⟩
    | 3 => exact ⟨.delayedCount, .lxstat, rfl⟩
  obtain ⟨kind, op, hi⟩ := hkind ⟨idx / 8, by omega⟩
  refine ⟨kind, op, ⟨idx % 8, by omega⟩, Fin.ext ?_⟩
  rw [hi, counterIdx]
  simp only
  omega

/-- The values that were in the segments since `es₀`. -/
def seenSince (pData : ℕ) (area : ℕ → Memory) (es₀ es : List ClusterEvent) : RowValues :=
  fun k idx v => Seen pData area es₀ es k idx v

theorem Seen.mono {k : ℕ} {idx : Fin 32} {v : BitVec 64} (h : Seen pData area es₀ es₁ k idx v)
    (hle : es₁ <+: es) : Seen pData area es₀ es k idx v := by
  obtain ⟨gs, hfrom, hto, hv⟩ := h
  exact ⟨gs, hfrom, hto.trans hle, hv⟩

/-- An event of the daemon and its clients brings values that satisfy what is known. -/
def NetEvent.From {gsize : ℕ} (V : RowValues) (n : Net gsize) : NetEvent → Prop
  | .send fd counter => ∀ r, n.conn fd = some r → ∀ idx, V r.1 idx (counter idx)
  | .localWrite counter => ∀ idx, V 0 idx (counter idx)
  | _ => True

/-- What the daemon is given in such an event. -/
theorem serverStep_of_netStep {n n' : Net cfg.gsize} {V : RowValues} (hinv : n.Inv) {a : NetEvent}
    (ha : a.From V n) (h : netStep cfg hosts n a = some n') :
    ∃ d : Event, serverStep cfg n.server d = some n'.server ∧ d.From V ∧
      (a = .alarm → d = .alarm) := by
  cases a with
  | connect fd k registered =>
      rw [netStep] at h
      split at h
      case h_2 => cases h
      case h_1 name _ hname =>
        obtain ⟨r, hr, rfl⟩ := Option.map_eq_some_iff.mp h
        refine ⟨.accept fd (readWaiting 128 (szTagNodeName ++ name)) registered, ?_, trivial,
          by simp⟩
        rw [serverStep, hr, Option.map_some]
  | send fd counter =>
      rw [netStep] at h
      split at h
      case h_2 => cases h
      case h_1 k rank hconn =>
        obtain ⟨server, hserver, rfl⟩ := Option.map_eq_some_iff.mp h
        refine ⟨.readable fd (readWaiting 1024 (OoopsData.ofClient rank counter).toBytes), hserver,
          fun p hp idx => ?_, by simp⟩
        obtain ⟨hk, rfl⟩ := hinv.conn_rank fd k rank hconn
        rw [acceptedData_ofClient hk] at hp
        split_ifs at hp
        obtain rfl := Option.some.inj hp
        exact ha _ hconn idx
  | close fd =>
      rw [netStep] at h
      split at h
      case h_2 => cases h
      case h_1 r hconn =>
        obtain ⟨server, hserver, rfl⟩ := Option.map_eq_some_iff.mp h
        refine ⟨.readable fd (readWaiting 1024 []), hserver, fun p hp => ?_, by simp⟩
        rw [acceptedData_nil] at hp
        cases hp
  | alarm =>
      rw [netStep] at h
      obtain ⟨server, hserver, rfl⟩ := Option.map_eq_some_iff.mp h
      exact ⟨.alarm, hserver, trivial, fun _ => rfl⟩
  | localWrite counter =>
      rw [netStep] at h
      obtain ⟨server, hserver, rfl⟩ := Option.map_eq_some_iff.mp h
      exact ⟨.localWrite counter, hserver, ha, by simp⟩

/-- What a step of the cluster is to the daemon: nothing, or an event with values from the
segments. -/
theorem netStep_of_clusterStep (hcount : Credited cfg hosts pData rows area es₁ s)
    (hheld : Held pData area es₀ es₁ (fun _ => True) s) (hes : es₀ <+: es₁)
    (hle : es₁ ++ [e] <+: es) (h : clusterStep cfg hosts pData s e = some s') :
    (s'.net = s.net ∧ e ≠ .alarm) ∨
      ∃ a : NetEvent, netStep cfg hosts s.net a = some s'.net ∧
        a.From (seenSince pData area es₀ es) s.net ∧ (e = .alarm → a = .alarm) := by
  have hprefix : es₁ <+: es := (List.prefix_append es₁ [e]).trans hle
  cases e with
  | call k c =>
      obtain ⟨net, hnet, rfl⟩ := Option.map_eq_some_iff.mp h
      split_ifs at hnet with hk
      · refine .inr ⟨_, hnet, fun idx => ?_, by simp⟩
        refine ⟨es₁ ++ [.call k c], hes.trans (List.prefix_append _ _), hle, ?_⟩
        rw [countersAfter, callsOn_concat, List.foldl_append, ← hcount.segment, hk,
          ClusterEvent.callOn, if_pos rfl]
        rfl
      · exact .inl ⟨(Option.some.inj hnet).symm, by simp⟩
  | connect fd k registered =>
      obtain ⟨net, hnet, rfl⟩ := Option.map_eq_some_iff.mp h
      exact .inr ⟨_, hnet, trivial, by simp⟩
  | copy fd idx =>
      obtain ⟨r, -, rfl⟩ := Option.map_eq_some_iff.mp h
      exact .inl ⟨rfl, by simp⟩
  | write fd =>
      rw [clusterStep] at h
      split_ifs at h with hall
      obtain ⟨net, hnet, rfl⟩ := Option.map_eq_some_iff.mp h
      exact .inr ⟨_, hnet, fun r hr idx => (hheld fd trivial r hr idx (hall idx)).mono hprefix,
        by simp⟩
  | close fd =>
      obtain ⟨net, hnet, rfl⟩ := Option.map_eq_some_iff.mp h
      exact .inr ⟨_, hnet, trivial, by simp⟩
  | alarm =>
      rw [clusterStep] at h
      obtain ⟨net, hnet, rfl⟩ := Option.map_eq_some_iff.mp h
      exact .inr ⟨_, hnet, trivial, fun _ => rfl⟩

/-- **What the daemon is given in a run** has been in the segments since the clients have begun
anew. -/
theorem events_of_run (hserve : cfg.Serves hash hosts)
    (hcount : Credited cfg hosts pData rows area es₁ s)
    (hheld : Held pData area es₀ es₁ (fun _ => True) s) (hes : es₀ <+: es₁)
    (hle : es₁ ++ fs <+: es) (hrun : runSteps (clusterStep cfg hosts pData) s fs = some s') :
    ∃ ds : List Event, runSteps (serverStep cfg) s.net.server ds = some s'.net.server ∧
      (∀ d ∈ ds, d.From (seenSince pData area es₀ es)) ∧ (.alarm ∈ fs → .alarm ∈ ds) := by
  induction fs generalizing es₁ s with
  | nil =>
      obtain rfl := Option.some.inj hrun
      exact ⟨[], rfl, by simp, by simp⟩
  | cons e fs ih =>
      obtain ⟨m, hm, hrest⟩ := Option.bind_eq_some_iff.mp hrun
      have hheld' : Held pData area es₀ (es₁ ++ [e]) (fun _ => True) m :=
        fun fd _ => hheld.step hcount hes hm fd (.inl trivial)
      have hle' : es₁ ++ [e] ++ fs <+: es := by rwa [List.append_assoc]
      obtain ⟨ds, hds, hfrom, halarm⟩ := ih (hcount.step hserve hm) hheld'
        (hes.trans (List.prefix_append es₁ [e])) hle' hrest
      obtain ⟨hsame, hne⟩ | ⟨a, ha, hvalues, hnet⟩ := netStep_of_clusterStep hcount hheld hes
        ((List.prefix_append _ fs).trans hle') hm
      · rw [hsame] at hds
        exact ⟨ds, hds, hfrom, fun hmem => halarm ((List.mem_cons.mp hmem).resolve_left hne.symm)⟩
      · obtain ⟨as, has⟩ := hcount.reach
        obtain ⟨d, hd, hdfrom, hdalarm⟩ :=
          serverStep_of_netStep (Net.inv_of_runSteps hserve has) hvalues ha
        refine ⟨d :: ds, ?_, List.forall_mem_cons.mpr ⟨hdfrom, hfrom⟩, fun hmem => ?_⟩
        · rw [runSteps_cons, hd, Option.bind_some, hds]
        · rcases List.mem_cons.mp hmem with he | hmem
          · rw [hdalarm (hnet he.symm)]
            exact List.mem_cons_self
          · exact List.mem_cons_of_mem _ (halarm hmem)

/-- What a segment has shown has 32 bits. -/
theorem Seen.toNat_lt {k : ℕ} {idx : Fin 32} {v : BitVec 64} (hzero : ZeroFilled pData (area k))
    (h : Seen pData area es₀ es k idx v) : v.toNat < 2 ^ 32 := by
  obtain ⟨gs, -, -, rfl⟩ := h
  obtain ⟨kind, op, j, rfl⟩ := exists_counterIdx idx
  have hread := toInt_readCounters_foldl hzero (callsOn k gs) kind op j
  have hmod := BitVec.toInt_eq_toNat_cond (countersAfter pData area k gs
    (counterIdx (kindOf kind op) j))
  rw [countersAfter] at hmod ⊢
  omega

/-- And no more than the calls. -/
theorem Seen.le_tally {k : ℕ} {c : Counter × Op × FsIdx} {v : BitVec 64}
    (hzero : ZeroFilled pData (area k))
    (h : Seen pData area es₀ es k (counterIdx (kindOf c.1 c.2.1) c.2.2) v) :
    0 ≤ v.toInt ∧ v.toInt ≤ (min (tally k c es) (2 ^ 32 - 1) : ℕ) := by
  obtain ⟨gs, -, hto, rfl⟩ := h
  obtain ⟨kind, op, j⟩ := c
  have hread := toInt_readCounters_foldl hzero (callsOn k gs) kind op j
  have hle := tally_le_of_isPrefix (k := k) (c := (kind, op, j)) hto
  have hmod := Nat.mod_le (tally k (kind, op, j) gs) (2 ^ 32)
  rw [← tally] at hread
  rw [countersAfter, hread]
  omega

end Cluster

/-! ### The number in the verdict -/

section Calls

variable {cfg : Setup} {hash : CStr → ℕ} {hosts : HostList} {pData : ℕ}
  {rows : Fin cfg.gsize → Counters} {area : ℕ → Memory} {data : ℕ → Counters}
  {es₁ es₂ es₃ es₄ es : List ClusterEvent} {s₁ s₂ s₃ s s' t : Cluster cfg.gsize}
  {e : ClusterEvent}

/-- The calls of one kind on one server that were made on all hosts. -/
def callsMade (hosts : HostList) (op : Op) (j : FsIdx) (es : List ClusterEvent) : ℕ :=
  ∑ k ∈ Finset.range hosts.names.length, tally k (.count, op, j) es

/-- The number that is read from the last line of a log is one of its two totals. -/
theorem loggedCalls_of_getLast? {log : List LogLine} {j : FsIdx} {l : LogLine}
    (hlast : (logLines log j).getLast? = some l) {n : Op → ℤ}
    (hn : ∀ op, n op = wrapInt32 (l.totals (kindOf .count op)).toInt) :
    (∀ op, n op ≤ loggedCalls log j) ∧
      ∀ m : Op → ℕ, (∀ op, n op ≤ m op) → ∃ op, loggedCalls log j ≤ m op := by
  have hopen := hn .openFile
  have hstat := hn .lxstat
  simp only [kindOf] at hopen hstat
  rw [loggedCalls, hlast]
  simp only [← hopen, ← hstat]
  refine ⟨fun op => ?_, fun m hle => ?_⟩
  · cases op with
    | openFile => exact (le_max_left _ _).trans (le_max_right _ _)
    | lxstat => exact (le_max_right _ _).trans (le_max_right _ _)
  · rcases le_total (n .openFile) (n .lxstat) with hmax | hmax
    · rw [max_eq_right hmax]
      exact ⟨.lxstat, max_le (Int.natCast_nonneg _) (hle .lxstat)⟩
    · rw [max_eq_left hmax]
      exact ⟨.openFile, max_le (Int.natCast_nonneg _) (hle .openFile)⟩

/-- A number that is read as an `int` is not larger than it was written. -/
theorem wrapInt32_le_self {x : ℤ} (h : 0 ≤ x) : wrapInt32 x ≤ x := by
  have hmod := emod_wrapInt32 x
  have hbounds := wrapInt32_bounds x
  omega

/-- A sum of values from the segments is no more than the calls. -/
theorem SumFrom.le_callsMade (hserve : cfg.Serves hash hosts)
    (hzero : ∀ k, ZeroFilled pData (area k)) {op : Op} {j : FsIdx} {v : BitVec 64}
    (h : SumFrom cfg.gsize (seenSince pData area es₁ es) (counterIdx (kindOf .count op) j) v) :
    0 ≤ v.toInt ∧ v.toInt ≤ callsMade hosts op j es := by
  obtain ⟨f, hf, rfl⟩ := h
  rw [hserve.gsize_eq] at hf ⊢
  obtain ⟨hlow, hhigh⟩ := @toInt_sum_bounds _ hserve.length_le f (fun _ => 0)
    (fun k => min (tally k (.count, op, j) es) (2 ^ 32 - 1)) (fun k _ => by omega)
    fun k hk => (hf k hk).le_tally (hzero k)
  have hle : ∑ k ∈ Finset.range hosts.names.length,
      min (tally k (.count, op, j) es) (2 ^ 32 - 1) ≤ callsMade hosts op j es :=
    Finset.sum_le_sum fun k _ => min_le_left _ _
  rw [Finset.sum_const_zero] at hlow
  omega

/-- And no fewer than those before the clients have begun anew. -/
theorem SumFrom.callsMade_le (hserve : cfg.Serves hash hosts)
    (hzero : ∀ k, ZeroFilled pData (area k)) {op : Op} {j : FsIdx} {v : BitVec 64}
    (hlt : callsMade hosts op j es < 2 ^ 31)
    (h : SumFrom cfg.gsize (seenSince pData area es₁ es) (counterIdx (kindOf .count op) j) v) :
    callsMade hosts op j es₁ ≤ v.toInt := by
  obtain ⟨f, hf, rfl⟩ := h
  rw [hserve.gsize_eq] at hf ⊢
  have hhost : ∀ k < hosts.names.length, tally k (.count, op, j) es < 2 ^ 32 := by
    intro k hk
    have hle : tally k (.count, op, j) es ≤ callsMade hosts op j es :=
      Finset.single_le_sum (f := fun k => tally k (.count, op, j) es) (fun _ _ => Nat.zero_le _)
        (Finset.mem_range.mpr hk)
    omega
  exact (toInt_sum_bounds hserve.length_le hhost fun k hk =>
    Seen.bounds (hzero k) (hhost k hk) (hf k hk)).1

/-- No client has copied anything at the start. -/
theorem held_start :
    Held pData area [] [] (fun _ => True) (Cluster.start cfg pData rows area data) :=
  fun _ _ _ h => by cases h

/-- What the daemon knows of its own host at the start. -/
theorem seen_start (es : List ClusterEvent) (k : ℕ) (idx : Fin 32) :
    Seen pData area [] es k idx (readCounters (area k) pData idx) :=
  ⟨[], List.prefix_refl [], List.nil_prefix, rfl⟩

/-- The logs in every run of the cluster. -/
theorem logOk_of_cluster (hserve : cfg.Serves hash hosts) (halarm : .alarm ∈ es)
    (hrun : runSteps (clusterStep cfg hosts pData) (Cluster.start cfg pData rows area data) es =
      some s) :
    ∃ ds, LogOk cfg ds s.net.server ∧ Event.alarm ∈ ds := by
  obtain ⟨ds, hds, -, hmem⟩ := events_of_run hserve (credited_start data) held_start
    (List.prefix_refl []) (List.prefix_refl es) hrun
  exact ⟨ds, logOk_of_runSteps hds, hmem halarm⟩

/-- With cleared rows the daemon starts from values in the segments. -/
theorem sourced_start (hzero : ∀ k, ZeroFilled pData (area k)) (hrows : ∀ k idx, rows k idx = 0) :
    Sourced cfg (seenSince pData area [] es) [] []
      (Server.start cfg rows (readCounters (area 0) pData)) := by
  have hread (k : ℕ) (idx : Fin 32) : readCounters (area k) pData idx = 0 := by
    obtain ⟨kind, op, j, rfl⟩ := exists_counterIdx idx
    exact BitVec.eq_of_toInt_eq (toInt_readCounters_foldl (hzero k) [] kind op j)
  have hseen (k : ℕ) (idx : Fin 32) : seenSince pData area [] es k idx 0 := by
    have hstart : Seen pData area [] es k idx (readCounters (area k) pData idx) :=
      seen_start es k idx
    rwa [hread] at hstart
  refine ⟨fun k _ idx => ?_, seen_start es 0, fun idx _ => ?_, [], rfl, by simp [logLines],
    by simp⟩
  · have hrow : (Server.start cfg rows (readCounters (area 0) pData)).oopsDataList k idx = 0 :=
      hrows k idx
    rw [hrow]
    exact hseen k idx
  · exact ⟨fun _ => 0, fun k _ => hseen k idx, Finset.sum_const_zero.symm⟩

/-- A tracked counter is one of a server. -/
theorem exists_of_mem_trackedIdx {idx : Fin 32} (h : idx ∈ trackedIdx cfg) :
    ∃ (i : Fin 4) (j : FsIdx), j.val < cfg.nFsServer ∧ idx = counterIdx i j := by
  obtain ⟨i, -, hmem⟩ := List.mem_flatMap.mp h
  obtain ⟨j, -, rfl⟩ := List.mem_map.mp hmem
  exact ⟨i, j.castLE cfg.nFsServer_le, j.isLt, rfl⟩

/-- At a summary that finds a packet of every remote host which was copied since `es₁`, the daemon
starts anew from values that were in the segments since then. -/
theorem sourced_of_summary (hserve : cfg.Serves hash hosts)
    (hcount : Credited cfg hosts pData rows area es₂ s)
    (hstep : clusterStep cfg hosts pData s e = some s')
    (hsum : s'.net.server.nSummary = s.net.server.nSummary + 1) (hes : es₁ <+: es₂)
    (hle : es₂ ++ [e] <+: es) {latest : ℕ → Counters}
    (hlatest : ∀ k, 1 ≤ k → k < hosts.names.length → s'.net.last k = some (latest k) ∧
      ∀ idx, Seen pData area es₁ (es₂ ++ [e]) k idx (latest k idx)) :
    Sourced cfg (seenSince pData area es₁ es) s'.net.server.fdLog [] s'.net.server := by
  have hcount' := hcount.step hserve hstep
  obtain ⟨as, has⟩ := hcount'.reach
  have hlocal (gs : List ClusterEvent) (hfrom : es₁ <+: gs) (hto : gs <+: es) (idx : Fin 32) :
      seenSince pData area es₁ es 0 idx (countersAfter pData area 0 gs idx) :=
    ⟨gs, hfrom, hto, rfl⟩
  refine ⟨fun k hk idx => ?_, fun idx => ?_, fun idx hidx => ?_, [], (List.append_nil _).symm,
    by simp [logLines], by simp⟩
  · obtain ⟨hlast, hseen⟩ := hlatest k (by omega) (hserve.gsize_eq ▸ k.isLt)
    rw [(Net.inv_of_runSteps hserve has).row k _ hk hlast]
    exact (hseen idx).mono hle
  · rw [hcount'.localData]
    exact hlocal _ (hes.trans (List.prefix_append _ _)) hle idx
  · obtain ⟨i, j, hj, rfl⟩ := exists_of_mem_trackedIdx hidx
    rw [counterSum_eq_sum hserve hcount hstep hsum (fun k h₁ h₂ => (hlatest k h₁ h₂).1) i hj,
      hserve.gsize_eq]
    refine ⟨_, fun k hk => ?_, rfl⟩
    split_ifs with hzero
    · rw [hzero]
      exact hlocal _ hes ((List.prefix_append _ _).trans hle) _
    · exact ((hlatest k (by omega) hk).2 _).mono hle

variable {ρ : Type} {lib : LineLib ρ} {value : ℚ → ρ} [LinearOrder ρ] [Zero ρ]

/-- **No verdict without the calls.** In every run from cleared rows the number in a verdict is at
most the number of opens or stats that were made on the server that it names. -/
theorem verdict_le_calls (h : lib.ReadsAs value) (hserve : cfg.Serves hash hosts)
    (hservers : 0 < cfg.nFsServer) (hzero : ∀ k, ZeroFilled pData (area k))
    (hrows : ∀ k idx, rows k idx = 0) (halarm : .alarm ∈ es)
    (hrun : runSteps (clusterStep cfg hosts pData) (Cluster.start cfg pData rows area data) es =
      some s)
    (nCall n0Last n2Last : ℤ) (rate : Option ρ) (dnCountMax : ℕ → ρ) {v : ℕ × ℤ}
    (hv : highIo lib nCall rate (.start n0Last n2Last dnCountMax)
      (logFiles cfg s.net.server.fdLog) = some v) :
    ∃ (j : FsIdx) (op : Op), v.1 = j.val ∧ nCall ≤ v.2 ∧ v.2 ≤ callsMade hosts op j es := by
  obtain ⟨ds, hok, hmem⟩ := logOk_of_cluster hserve halarm hrun
  obtain ⟨j, hj, -, -, hverdict⟩ :=
    h.exists_verdict hok hmem hservers nCall n0Last n2Last rate dnCountMax
  obtain ⟨hcall, -, rfl⟩ := (hverdict v).mp hv
  obtain ⟨ds', hds, hfrom, hmem'⟩ := events_of_run hserve (credited_start data) held_start
    (List.prefix_refl []) (List.prefix_refl es) hrun
  obtain ⟨l, hlast, htotals⟩ :=
    ((sourced_start hzero hrows).run hfrom hds).exists_last (hmem' halarm) hj
  obtain ⟨op, hop⟩ := (loggedCalls_of_getLast? hlast fun _ => rfl).2
    (fun op => callsMade hosts op j es) fun op => by
      obtain ⟨hpos, hle⟩ := (htotals (kindOf .count op)).le_callsMade hserve hzero
      exact (wrapInt32_le_self hpos).trans hle
  exact ⟨j, op, rfl, hcall, hop⟩

/-- **The verdict and the calls.** A summary finds a packet of every remote host that was sent in
`es₃`, when every client that was there after `es₁` has sent or gone in `es₂`. Behind it the timer
runs out. Then the verdict is about a server for which at least as many calls are reported as were
made on any server in `es₁`, and at most as many as were made on this one in all. -/
theorem verdict_of_calls (h : lib.ReadsAs value) (hserve : cfg.Serves hash hosts)
    (hservers : 0 < cfg.nFsServer) (hzero : ∀ k, ZeroFilled pData (area k))
    (hrun₁ : runSteps (clusterStep cfg hosts pData) (Cluster.start cfg pData rows area data) es₁ =
      some s₁)
    (hrun₂ : runSteps (clusterStep cfg hosts pData) s₁ es₂ = some s₂)
    (hflush : ∀ fd, s₁.net.conn fd ≠ none → .write fd ∈ es₂ ∨ .close fd ∈ es₂)
    (hrun₃ : runSteps (clusterStep cfg hosts pData) s₂ es₃ = some s)
    (hstep : clusterStep cfg hosts pData s e = some s')
    (hsent : ∀ k, 1 ≤ k → k < hosts.names.length →
      Sends cfg hosts pData k s₂ (es₃ ++ [e]))
    (hsum : s'.net.server.nSummary = s.net.server.nSummary + 1)
    (hrun₄ : runSteps (clusterStep cfg hosts pData) s' es₄ = some t) (halarm : .alarm ∈ es₄)
    (hlt : ∀ op (j : FsIdx), j.val < cfg.nFsServer →
      callsMade hosts op j (es₁ ++ es₂ ++ es₃ ++ [e] ++ es₄) < 2 ^ 31)
    (nCall n0Last n2Last : ℤ) (rate : Option ρ) (dnCountMax : ℕ → ρ) :
    ∃ j : FsIdx, j.val < cfg.nFsServer ∧
      (∀ op (i : FsIdx), i.val < cfg.nFsServer →
        callsMade hosts op i es₁ ≤ loggedCalls t.net.server.fdLog j) ∧
      (∃ op, loggedCalls t.net.server.fdLog j ≤
        callsMade hosts op j (es₁ ++ es₂ ++ es₃ ++ [e] ++ es₄)) ∧
      ∀ v, highIo lib nCall rate (.start n0Last n2Last dnCountMax)
          (logFiles cfg t.net.server.fdLog) = some v ↔
        nCall ≤ loggedCalls t.net.server.fdLog j ∧ LoggedPeak value rate t.net.server.fdLog j ∧
          v = (j.val, loggedCalls t.net.server.fdLog j) := by
  have hpre : es₁ <+: es₁ ++ es₂ := List.prefix_append es₁ es₂
  have hpre' : es₁ <+: es₁ ++ es₂ ++ es₃ := hpre.trans (List.prefix_append _ _)
  obtain ⟨hcount₂, hheld₂⟩ := held_of_flush hserve hrun₁ hrun₂ hflush
  obtain ⟨hcount₃, hheld₃⟩ := held_of_run hserve hcount₂ hheld₂ hpre hrun₃
  obtain ⟨latest, hlatest⟩ := exists_latest hserve hcount₂ hheld₂ hpre
    (runSteps_concat_eq_some.mpr ⟨s, hrun₃, hstep⟩) hsent
  rw [← List.append_assoc] at hlatest
  have hsourced := sourced_of_summary hserve hcount₃ hstep hsum hpre' (List.prefix_append _ es₄)
    hlatest
  have hheld : Held pData area es₁ (es₁ ++ es₂ ++ es₃ ++ [e]) (fun _ => True) s' :=
    fun fd _ => hheld₃.step hcount₃ hpre' hstep fd (.inl (.inl trivial))
  obtain ⟨ds, hds, hfrom, hmem⟩ := events_of_run hserve (hcount₃.step hserve hstep) hheld
    (hpre'.trans (List.prefix_append _ _)) (List.prefix_refl _) hrun₄
  have hlast (j : FsIdx) (hj : j.val < cfg.nFsServer) :=
    (hsourced.run hfrom hds).exists_last (hmem halarm) hj
  have hwhole : runSteps (clusterStep cfg hosts pData) (Cluster.start cfg pData rows area data)
      (es₁ ++ es₂ ++ es₃ ++ [e] ++ es₄) = some t := by
    rw [runSteps_append, runSteps_append, runSteps_append, runSteps_append, hrun₁,
      Option.bind_some, hrun₂, Option.bind_some, hrun₃, Option.bind_some, runSteps_cons, hstep,
      Option.bind_some, runSteps_nil, Option.bind_some, hrun₄]
  obtain ⟨ds', hok, hmem'⟩ := logOk_of_cluster hserve (List.mem_append_right _ halarm) hwhole
  obtain ⟨j, hj, -, hmost, hverdict⟩ :=
    h.exists_verdict hok hmem' hservers nCall n0Last n2Last rate dnCountMax
  refine ⟨j, hj, fun op i hi => ?_, ?_, hverdict⟩
  · obtain ⟨l, hl, htotals⟩ := hlast i hi
    have htotal := htotals (kindOf .count op)
    have hbound := hlt op i hi
    have hmade := htotal.callsMade_le hserve hzero hbound
    obtain ⟨hpos, hle⟩ := htotal.le_callsMade hserve hzero
    have hread := (loggedCalls_of_getLast? hl fun _ => rfl).1 op
    rw [wrapInt32_eq_self (by omega) (by omega)] at hread
    exact hmade.trans (hread.trans (hmost i hi))
  · obtain ⟨l, hl, htotals⟩ := hlast j hj
    refine (loggedCalls_of_getLast? hl fun _ => rfl).2 (fun op => callsMade hosts op j _)
      fun op => ?_
    obtain ⟨hpos, hle⟩ := (htotals (kindOf .count op)).le_callsMade hserve hzero
    exact (wrapInt32_le_self hpos).trans hle

end Calls

section Sample

/-- The calls, the packets of both clients, and a line. -/
def loggedJob : List ClusterEvent :=
  sampleCalls ++ (sampleCopies ++ [.write 5]) ++ [.write 6] ++ [.alarm]

/-- The hosts of `sampleCluster`, with cleared rows. -/
def clearedCluster : Cluster sampleSetup.gsize :=
  Cluster.start sampleSetup 0 (fun _ _ => 0) (fun _ _ => 0) fun _ _ => 0

/-- Three opens are reported, and were made. -/
theorem verdict_le_calls_three : ∃ s,
    runSteps (clusterStep sampleSetup sampleHosts 0) clearedCluster loggedJob = some s ∧
      highIo decimalLib 3 (some 0) (.start 0 0 fun _ => 0)
        (logFiles sampleSetup s.net.server.fdLog) = some (0, 3) ∧
      ∃ (j : FsIdx) (op : Op), 0 = j.val ∧ (3 : ℤ) ≤ callsMade sampleHosts op j loggedJob := by
  have hverdict : ((runSteps (clusterStep sampleSetup sampleHosts 0) clearedCluster
      loggedJob).map fun s => highIo decimalLib 3 (some 0) (.start 0 0 fun _ => 0)
        (logFiles sampleSetup s.net.server.fdLog)) = some (some (0, 3)) := by decide +kernel
  obtain ⟨s, hrun, hv⟩ := Option.map_eq_some_iff.mp hverdict
  obtain ⟨j, op, hj, -, hmade⟩ := verdict_le_calls readsAs_decimalLib
    (sampleHosts.setup_serves List.length _ _) (by decide) (fun _ _ _ => rfl) (fun _ _ => rfl)
    (List.mem_append_right _ (List.mem_singleton.mpr rfl)) hrun 3 0 0 (some 0) (fun _ => 0) hv
  exact ⟨s, hrun, hv, j, op, hj, hmade⟩

/-- The verdict on these calls, whatever the rows have held. -/
theorem verdict_of_calls_three : ∃ t,
    runSteps (clusterStep sampleSetup sampleHosts 0) sampleCluster loggedJob = some t ∧
      highIo decimalLib 3 (some 0) (.start 0 0 fun _ => 0)
        (logFiles sampleSetup t.net.server.fdLog) = some (0, 3) := by
  obtain ⟨s₁, s, s', hrun₁, hnone, hrun, hstep, hsent, hsum⟩ := sampleCluster_run
  obtain ⟨t, ht⟩ : ∃ t, runSteps (clusterStep sampleSetup sampleHosts 0) s' [.alarm] = some t :=
    ⟨_, rfl⟩
  have hempty : runSteps (clusterStep sampleSetup sampleHosts 0) s₁ [] = some s₁ := rfl
  have hopens : callsMade sampleHosts .openFile 0 sampleCalls = 3 := by decide +kernel
  have hmade : ∀ op j, callsMade sampleHosts op j
      (sampleCalls ++ [] ++ (sampleCopies ++ [.write 5]) ++ [.write 6] ++ [.alarm]) ≤ 3 := by
    intro op
    cases op <;> decide +kernel
  obtain ⟨j, hj, hlow, ⟨op, hhigh⟩, hverdict⟩ := verdict_of_calls readsAs_decimalLib
    (sampleHosts.setup_serves List.length _ _) (by decide) (fun _ _ _ => rfl) hrun₁ hempty
    (fun fd hfd => absurd (hnone fd) hfd) hrun hstep hsent hsum
    ht (List.mem_singleton.mpr rfl) (fun op j _ => (hmade op j).trans_lt (by decide)) 3 0 0
    (some 0) fun _ => 0
  have hcalls : loggedCalls t.net.server.fdLog j = 3 := by
    have hge := hlow .openFile 0 (by decide)
    have hle := hmade op j
    omega
  have hpeak : AtLeast (0 : ℚ) (some 0) := ⟨0, rfl, le_rfl⟩
  refine ⟨t, ?_, (hverdict _).mpr ⟨hcalls.ge, .inl hpeak, ?_⟩⟩
  · rw [loggedJob, runSteps_append, runSteps_append, runSteps_append, hrun₁, Option.bind_some, hrun,
      Option.bind_some, runSteps_cons, hstep, Option.bind_some, runSteps_nil, Option.bind_some, ht]
  · have hzero : j.val = 0 := Nat.lt_one_iff.mp hj
    rw [hcalls, hzero]

end Sample

end Ooops
