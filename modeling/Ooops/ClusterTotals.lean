import Ooops.Aggregation
import Ooops.CounterArea
import Ooops.Totals

/-!
# From the Calls to the Totals

Every intercepted call on a host is counted in the shared segment of this host. The client on
the host copies the segment, one `long` after the other, while the calls go on, and sends the
copy. The daemon reads its own segment and stores what the clients have sent. This module puts
the hosts, their clients and the daemon together, with all steps in any order.

A total that the daemon prints is then never more than the calls that have been made, and all
calls are in it that were made before the clients have begun the copies that they sent.

* `Held` and `Taken` are what is known of the copies and of the packets: every number was in the
  segment at some moment since a certain one.
* `cluster_totals`: a printed total lies between the calls before that moment and the calls until
  now, so it is exact if no call was made in between.
-/

open Basis

namespace Ooops

/-! ### Hosts, clients and the daemon -/

/-- The daemon and its connections, the counters in the segment of each host, and for each
descriptor the record of the client behind it (`data.Counter`), with those entries that it has
copied since its last packet. -/
structure Cluster (gsize : ℕ) where
  net : Net gsize
  area : ℕ → Memory
  data : ℕ → Counters
  copied : ℕ → Fin 32 → Bool

/-- What can happen: a critical section of a call on the host of line `k`, a client connects,
copies an entry, sends its record or goes, the timer of the daemon runs out. -/
inductive ClusterEvent
  | call (k : ℕ) (c : Counter × Op × FsIdx)
  | connect (fd k : ℕ) (registered : Bool)
  | copy (fd : ℕ) (idx : Fin 32)
  | write (fd : ℕ)
  | close (fd : ℕ)
  | alarm

/-- New segments on all hosts, and no client yet. -/
def Cluster.start (cfg : Setup) (pData : ℕ) (rows : Fin cfg.gsize → Counters)
    (area : ℕ → Memory) (data : ℕ → Counters) : Cluster cfg.gsize where
  net := Net.start cfg rows (readCounters (area 0) pData)
  area := area
  data := data
  copied := fun _ _ => false

/-- One step. The daemon sees the calls on its own host at once. A client copies all entries, in
any order, before it sends. -/
def clusterStep (cfg : Setup) (hosts : HostList) (pData : ℕ) (s : Cluster cfg.gsize) :
    ClusterEvent → Option (Cluster cfg.gsize)
  | .call k c =>
      let area := advance pData (s.area k) c
      (if k = 0 then netStep cfg hosts s.net (.localWrite (readCounters area pData))
        else some s.net).map fun net =>
        { s with net := net, area := Function.update s.area k area }
  | .connect fd k registered =>
      (netStep cfg hosts s.net (.connect fd k registered)).map fun net =>
        { s with net := net, copied := Function.update s.copied fd fun _ => false }
  | .copy fd idx =>
      (s.net.conn fd).map fun r =>
        { s with
          data := Function.update s.data fd
            (Function.update (s.data fd) idx (readCounters (s.area r.1) pData idx))
          copied := Function.update s.copied fd (Function.update (s.copied fd) idx true) }
  | .write fd =>
      if ∀ idx, s.copied fd idx = true then
        (netStep cfg hosts s.net (.send fd (s.data fd))).map fun net =>
          { s with net := net, copied := Function.update s.copied fd fun _ => false }
      else none
  | .close fd => (netStep cfg hosts s.net (.close fd)).map fun net => { s with net := net }
  | .alarm => (netStep cfg hosts s.net .alarm).map fun net => { s with net := net }

/-- The critical section of an event on the host of line `k`. -/
def ClusterEvent.callOn (k : ℕ) : ClusterEvent → Option (Counter × Op × FsIdx)
  | .call k' c => if k' = k then some c else none
  | _ => none

/-- The critical sections on a host. -/
def callsOn (k : ℕ) (es : List ClusterEvent) : List (Counter × Op × FsIdx) :=
  es.filterMap (ClusterEvent.callOn k)

/-- How often the calls on a host have counted. -/
def tally (k : ℕ) (c : Counter × Op × FsIdx) (es : List ClusterEvent) : ℕ := (callsOn k es).count c

/-- What the other programs read in the segment of a host after some events. -/
def countersAfter (pData : ℕ) (area : ℕ → Memory) (k : ℕ) (es : List ClusterEvent) : Counters :=
  readCounters ((callsOn k es).foldl (advance pData) (area k)) pData

/-- A client on the host of line `k` sends in the course of some events. -/
def Sends (cfg : Setup) (hosts : HostList) (pData k : ℕ) :
    Cluster cfg.gsize → List ClusterEvent → Prop
  | _, [] => False
  | s, e :: es =>
      (∃ fd rank, e = .write fd ∧ s.net.conn fd = some (k, rank)) ∨
        ∃ s', clusterStep cfg hosts pData s e = some s' ∧ Sends cfg hosts pData k s' es

theorem callsOn_concat (k : ℕ) (es : List ClusterEvent) (e : ClusterEvent) :
    callsOn k (es ++ [e]) = callsOn k es ++ (e.callOn k).toList := by
  rw [callsOn, List.filterMap_append, callsOn]
  rfl

/-- Who sends after some events. -/
theorem sends_of_run {cfg : Setup} {hosts : HostList} {pData k fd : ℕ} {rank : ℤ}
    {s m : Cluster cfg.gsize} {es : List ClusterEvent}
    (hrun : runSteps (clusterStep cfg hosts pData) s es = some m)
    (hconn : m.net.conn fd = some (k, rank)) (fs : List ClusterEvent) :
    Sends cfg hosts pData k s (es ++ .write fd :: fs) := by
  induction es generalizing s with
  | nil =>
      obtain rfl := Option.some.inj hrun
      exact .inl ⟨fd, rank, rfl, hconn⟩
  | cons e es ih =>
      obtain ⟨s', hs', hrest⟩ := Option.bind_eq_some_iff.mp hrun
      exact .inr ⟨s', hs', ih hrest⟩

theorem tally_le_of_isPrefix {k : ℕ} {c : Counter × Op × FsIdx} {es es' : List ClusterEvent}
    (h : es <+: es') : tally k c es ≤ tally k c es' := by
  obtain ⟨fs, rfl⟩ := h
  rw [tally, tally, callsOn, callsOn, List.filterMap_append, List.count_append]
  exact Nat.le_add_right _ _

/-! ### What one step does -/

section Step

variable {cfg : Setup} {hash : CStr → ℕ} {hosts : HostList} {n n' : Net cfg.gsize}

/-- A client connects. -/
theorem netStep_connect {fd k : ℕ} {registered : Bool}
    (h : netStep cfg hosts n (.connect fd k registered) = some n') :
    ∃ o, (∀ r, o = some r → r.1 = k) ∧ n'.conn = Function.update n.conn fd o ∧
      n'.last = n.last := by
  rw [netStep] at h
  split at h
  case h_2 => cases h
  case h_1 name _ hname =>
    obtain ⟨r, -, rfl⟩ := Option.map_eq_some_iff.mp h
    refine ⟨_, fun r' hr' => ?_, rfl, rfl⟩
    split_ifs at hr'
    rw [← Option.some.inj hr']

/-- A client sends. -/
theorem netStep_send {fd : ℕ} {counter : Counters}
    (h : netStep cfg hosts n (.send fd counter) = some n') :
    ∃ r, n.conn fd = some r ∧ n'.conn = n.conn ∧
      n'.last = Function.update n.last r.1 (some counter) := by
  rw [netStep] at h
  split at h
  case h_2 => cases h
  case h_1 k rank hconn =>
    obtain ⟨server, -, rfl⟩ := Option.map_eq_some_iff.mp h
    exact ⟨(k, rank), hconn, rfl, rfl⟩

/-- A client goes. -/
theorem netStep_close {fd : ℕ} (h : netStep cfg hosts n (.close fd) = some n') :
    n'.conn = Function.update n.conn fd none ∧ n'.last = n.last := by
  rw [netStep] at h
  split at h
  case h_2 => cases h
  case h_1 r hconn =>
    obtain ⟨server, -, rfl⟩ := Option.map_eq_some_iff.mp h
    exact ⟨rfl, rfl⟩

/-- Only a local write changes the counters of the daemon's own host. -/
theorem netStep_localData (hserve : cfg.Serves hash hosts) {a : NetEvent}
    (h : netStep cfg hosts n a = some n') (ha : ∀ c, a ≠ .localWrite c) :
    n'.server.localData = n.server.localData := by
  have hdrain {fd : ℕ} {r : ReadResult 1024} {server : Server cfg.gsize}
      (hserver : drainClient cfg n.server fd r = some server) :
      server.localData = n.server.localData := by
    have hread : serverStep cfg n.server (.readable fd r) = some server := hserver
    exact serverStep_localData hread fun _ => by simp
  cases a with
  | connect fd k registered =>
      rw [netStep] at h
      split at h
      case h_2 => cases h
      case h_1 name _ hname =>
        rw [acceptClient_of_host hserve hname] at h
        obtain rfl := Option.some.inj h
        rfl
  | send fd counter =>
      rw [netStep] at h
      split at h
      case h_2 => cases h
      case h_1 k rank hconn =>
        obtain ⟨server, hserver, rfl⟩ := Option.map_eq_some_iff.mp h
        exact hdrain hserver
  | close fd =>
      rw [netStep] at h
      split at h
      case h_2 => cases h
      case h_1 r hconn =>
        obtain ⟨server, hserver, rfl⟩ := Option.map_eq_some_iff.mp h
        exact hdrain hserver
  | alarm =>
      rw [netStep] at h
      obtain ⟨server, halarm, rfl⟩ := Option.map_eq_some_iff.mp h
      exact serverStep_localData halarm fun _ => by simp
  | localWrite counter => exact absurd rfl (ha counter)

end Step

/-! ### The segments -/

section Segments

variable {cfg : Setup} {hash : CStr → ℕ} {hosts : HostList} {pData : ℕ}
  {rows : Fin cfg.gsize → Counters} {area : ℕ → Memory} {es : List ClusterEvent}
  {s s' : Cluster cfg.gsize} {e : ClusterEvent}

/-- The daemon has come where it is by steps of its own, every segment has counted the calls on its
host, and the daemon knows those on its own host. -/
structure Credited (cfg : Setup) (hosts : HostList) (pData : ℕ) (rows : Fin cfg.gsize → Counters)
    (area : ℕ → Memory) (es : List ClusterEvent) (s : Cluster cfg.gsize) : Prop where
  reach : ∃ as, runSteps (netStep cfg hosts) (Net.start cfg rows (readCounters (area 0) pData)) as =
    some s.net
  segment : ∀ k, s.area k = (callsOn k es).foldl (advance pData) (area k)
  localData : s.net.server.localData = countersAfter pData area 0 es

/-- A step of the cluster is a step of the daemon or leaves it alone. -/
theorem clusterStep_net (h : clusterStep cfg hosts pData s e = some s') :
    s'.net = s.net ∨ ∃ a, netStep cfg hosts s.net a = some s'.net := by
  cases e with
  | call k c =>
      obtain ⟨net, hnet, rfl⟩ := Option.map_eq_some_iff.mp h
      split_ifs at hnet
      · exact .inr ⟨_, hnet⟩
      · exact .inl (Option.some.inj hnet).symm
  | connect fd k registered =>
      obtain ⟨net, hnet, rfl⟩ := Option.map_eq_some_iff.mp h
      exact .inr ⟨_, hnet⟩
  | copy fd idx =>
      obtain ⟨r, -, rfl⟩ := Option.map_eq_some_iff.mp h
      exact .inl rfl
  | write fd =>
      rw [clusterStep] at h
      split_ifs at h
      obtain ⟨net, hnet, rfl⟩ := Option.map_eq_some_iff.mp h
      exact .inr ⟨_, hnet⟩
  | close fd =>
      obtain ⟨net, hnet, rfl⟩ := Option.map_eq_some_iff.mp h
      exact .inr ⟨_, hnet⟩
  | alarm =>
      rw [clusterStep] at h
      obtain ⟨net, hnet, rfl⟩ := Option.map_eq_some_iff.mp h
      exact .inr ⟨_, hnet⟩

/-- A step of the daemon that is not a call on its own host. -/
theorem Credited.net_step (hs : Credited cfg hosts pData rows area es s)
    (hserve : cfg.Serves hash hosts) {a : NetEvent} {net : Net cfg.gsize}
    (hnet : netStep cfg hosts s.net a = some net) (ha : ∀ c, a ≠ .localWrite c)
    (he : ∀ k, e.callOn k = none) (data : ℕ → Counters) (copied : ℕ → Fin 32 → Bool) :
    Credited cfg hosts pData rows area (es ++ [e]) ⟨net, s.area, data, copied⟩ := by
  have hcalls (k : ℕ) : callsOn k (es ++ [e]) = callsOn k es := by
    rw [callsOn_concat, he k, Option.toList_none, List.append_nil]
  obtain ⟨as, has⟩ := hs.reach
  refine ⟨⟨as ++ [a], runSteps_concat_eq_some.mpr ⟨_, has, hnet⟩⟩, fun k => ?_, ?_⟩
  · rw [hcalls]
    exact hs.segment k
  · rw [countersAfter, hcalls, netStep_localData hserve hnet ha]
    exact hs.localData

/-- Every step keeps the count. -/
theorem Credited.step (hs : Credited cfg hosts pData rows area es s)
    (hserve : cfg.Serves hash hosts) (h : clusterStep cfg hosts pData s e = some s') :
    Credited cfg hosts pData rows area (es ++ [e]) s' := by
  cases e with
  | call k c =>
      obtain ⟨net, hnet, rfl⟩ := Option.map_eq_some_iff.mp h
      obtain ⟨as, has⟩ := hs.reach
      have hsegment : ∀ k', Function.update s.area k (advance pData (s.area k) c) k' =
          (callsOn k' (es ++ [.call k c])).foldl (advance pData) (area k') := by
        intro k'
        rw [callsOn_concat, List.foldl_append, ← hs.segment k']
        by_cases hk : k' = k
        · rw [hk, Function.update_self, ClusterEvent.callOn, if_pos rfl]
          rfl
        · rw [Function.update_of_ne hk, ClusterEvent.callOn, if_neg fun h => hk h.symm]
          rfl
      by_cases hk : k = 0
      · rw [if_pos hk] at hnet
        refine ⟨⟨as ++ [_], runSteps_concat_eq_some.mpr ⟨_, has, hnet⟩⟩, hsegment, ?_⟩
        have hzero := hsegment 0
        rw [hk, Function.update_self] at hzero
        obtain rfl := Option.some.inj hnet
        rw [countersAfter, hk, ← hzero]
      · rw [if_neg hk] at hnet
        obtain rfl := Option.some.inj hnet
        refine ⟨⟨as, has⟩, hsegment, hs.localData.trans ?_⟩
        rw [countersAfter, countersAfter, callsOn_concat, ClusterEvent.callOn, if_neg hk]
        rw [Option.toList_none, List.append_nil]
  | connect fd k registered =>
      obtain ⟨net, hnet, rfl⟩ := Option.map_eq_some_iff.mp h
      exact hs.net_step hserve hnet (fun _ => by simp) (fun _ => rfl) _ _
  | copy fd idx =>
      obtain ⟨r, -, rfl⟩ := Option.map_eq_some_iff.mp h
      have hcalls (k : ℕ) : callsOn k (es ++ [.copy fd idx]) = callsOn k es := by
        rw [callsOn_concat]
        exact List.append_nil _
      refine ⟨hs.reach, fun k => ?_, ?_⟩
      · rw [hcalls]
        exact hs.segment k
      · rw [countersAfter, hcalls]
        exact hs.localData
  | write fd =>
      rw [clusterStep] at h
      split_ifs at h
      obtain ⟨net, hnet, rfl⟩ := Option.map_eq_some_iff.mp h
      exact hs.net_step hserve hnet (fun _ => by simp) (fun _ => rfl) _ _
  | close fd =>
      obtain ⟨net, hnet, rfl⟩ := Option.map_eq_some_iff.mp h
      exact hs.net_step hserve hnet (fun _ => by simp) (fun _ => rfl) _ _
  | alarm =>
      rw [clusterStep] at h
      obtain ⟨net, hnet, rfl⟩ := Option.map_eq_some_iff.mp h
      exact hs.net_step hserve hnet (fun _ => by simp) (fun _ => rfl) _ _

theorem credited_start (data : ℕ → Counters) :
    Credited cfg hosts pData rows area [] (Cluster.start cfg pData rows area data) :=
  ⟨⟨[], rfl⟩, fun _ => rfl, rfl⟩

end Segments

/-! ### The copies and the packets -/

/-- The value was in the segment of a host at some moment since the events `es₀`. -/
def Seen (pData : ℕ) (area : ℕ → Memory) (es₀ es : List ClusterEvent) (k : ℕ) (idx : Fin 32)
    (v : BitVec 64) : Prop :=
  ∃ fs, es₀ <+: fs ∧ fs <+: es ∧ v = countersAfter pData area k fs idx

/-- What the clients `F` have copied since their last packets, they have copied since `es₀`. -/
def Held {gsize : ℕ} (pData : ℕ) (area : ℕ → Memory) (es₀ es : List ClusterEvent) (F : ℕ → Prop)
    (s : Cluster gsize) : Prop :=
  ∀ fd, F fd → ∀ r, s.net.conn fd = some r → ∀ idx, s.copied fd idx = true →
    Seen pData area es₀ es r.1 idx (s.data fd idx)

/-- The last packets of the hosts `H` were copied since `es₀`. -/
def Taken {gsize : ℕ} (pData : ℕ) (area : ℕ → Memory) (es₀ es : List ClusterEvent) (H : ℕ → Prop)
    (s : Cluster gsize) : Prop :=
  ∀ k, H k → ∃ c, s.net.last k = some c ∧ ∀ idx, Seen pData area es₀ es k idx (c idx)

section Copies

variable {cfg : Setup} {hash : CStr → ℕ} {hosts : HostList} {pData : ℕ}
  {rows : Fin cfg.gsize → Counters} {area : ℕ → Memory} {es₀ es : List ClusterEvent}
  {s s' : Cluster cfg.gsize} {e : ClusterEvent} {F H : ℕ → Prop}

theorem Seen.concat {k : ℕ} {idx : Fin 32} {v : BitVec 64} (h : Seen pData area es₀ es k idx v)
    (e : ClusterEvent) : Seen pData area es₀ (es ++ [e]) k idx v := by
  obtain ⟨fs, hfrom, hto, hv⟩ := h
  exact ⟨fs, hfrom, hto.trans (List.prefix_append es [e]), hv⟩

/-- What has not changed is still known. -/
theorem Held.of_eq (hs : Held pData area es₀ es F s) {fd : ℕ} (hfd : F fd) {r : ℕ × ℤ}
    (hr : s.net.conn fd = some r) {idx : Fin 32} (hcopied : s.copied fd idx = true)
    (e : ClusterEvent) : Seen pData area es₀ (es ++ [e]) r.1 idx (s.data fd idx) :=
  (hs fd hfd r hr idx hcopied).concat e

/-- A client begins anew when it connects and when it has sent. -/
theorem Held.step (hcount : Credited cfg hosts pData rows area es s)
    (hs : Held pData area es₀ es F s) (hes : es₀ <+: es)
    (h : clusterStep cfg hosts pData s e = some s') :
    Held pData area es₀ (es ++ [e]) (fun fd => F fd ∨ e = .write fd ∨ e = .close fd) s' := by
  intro fd hfd r hr idx hcopied
  cases e with
  | call k c =>
      have hold : F fd := hfd.resolve_right (by simp)
      obtain ⟨net, hnet, rfl⟩ := Option.map_eq_some_iff.mp h
      have hconn : net.conn = s.net.conn := by
        split_ifs at hnet
        · obtain rfl := Option.some.inj hnet
          rfl
        · rw [Option.some.inj hnet]
      exact hs.of_eq hold (hconn ▸ hr) hcopied _
  | connect fd' k registered =>
      have hold : F fd := hfd.resolve_right (by simp)
      obtain ⟨net, hnet, rfl⟩ := Option.map_eq_some_iff.mp h
      obtain ⟨o, -, hconn, -⟩ := netStep_connect hnet
      by_cases heq : fd = fd'
      · rw [heq] at hcopied
        simp only [Function.update_self, Bool.false_eq_true] at hcopied
      · simp only [Function.update_of_ne heq] at hcopied
        rw [hconn, Function.update_of_ne heq] at hr
        exact hs.of_eq hold hr hcopied _
  | copy fd' idx' =>
      have hold : F fd := hfd.resolve_right (by simp)
      obtain ⟨r', hr', rfl⟩ := Option.map_eq_some_iff.mp h
      by_cases heq : fd = fd'
      · obtain rfl := heq
        obtain rfl := Option.some.inj (hr'.symm.trans hr)
        simp only [Function.update_self] at hcopied ⊢
        by_cases hidx : idx = idx'
        · rw [hidx, Function.update_self]
          refine ⟨es, hes, List.prefix_append es _, ?_⟩
          rw [hcount.segment, countersAfter]
        · rw [Function.update_of_ne hidx] at hcopied ⊢
          exact hs.of_eq hold hr hcopied _
      · simp only [Function.update_of_ne heq] at hcopied ⊢
        exact hs.of_eq hold hr hcopied _
  | write fd' =>
      rw [clusterStep] at h
      split_ifs at h
      obtain ⟨net, hnet, rfl⟩ := Option.map_eq_some_iff.mp h
      obtain ⟨r', -, hconn, -⟩ := netStep_send hnet
      by_cases heq : fd = fd'
      · rw [heq] at hcopied
        simp only [Function.update_self, Bool.false_eq_true] at hcopied
      · have hold : F fd := hfd.resolve_right (by simpa using fun h => heq h.symm)
        simp only [Function.update_of_ne heq] at hcopied
        exact hs.of_eq hold (hconn ▸ hr) hcopied _
  | close fd' =>
      obtain ⟨net, hnet, rfl⟩ := Option.map_eq_some_iff.mp h
      obtain ⟨hconn, -⟩ := netStep_close hnet
      by_cases heq : fd = fd'
      · rw [hconn, heq, Function.update_self] at hr
        cases hr
      · have hold : F fd := hfd.resolve_right (by simpa using fun h => heq h.symm)
        rw [hconn, Function.update_of_ne heq] at hr
        exact hs.of_eq hold hr hcopied _
  | alarm =>
      have hold : F fd := hfd.resolve_right (by simp)
      rw [clusterStep] at h
      obtain ⟨net, hnet, rfl⟩ := Option.map_eq_some_iff.mp h
      obtain rfl := Option.some.inj hnet
      exact hs.of_eq hold hr hcopied _

/-- A step that sends nothing leaves the last packets alone. -/
theorem clusterStep_last (h : clusterStep cfg hosts pData s e = some s')
    (he : ∀ fd, e ≠ .write fd) : s'.net.last = s.net.last := by
  cases e with
  | call k c =>
      obtain ⟨net, hnet, rfl⟩ := Option.map_eq_some_iff.mp h
      split_ifs at hnet
      · obtain rfl := Option.some.inj hnet
        rfl
      · rw [Option.some.inj hnet]
  | connect fd k registered =>
      obtain ⟨net, hnet, rfl⟩ := Option.map_eq_some_iff.mp h
      obtain ⟨-, -, -, hlast⟩ := netStep_connect hnet
      exact hlast
  | copy fd idx =>
      obtain ⟨r, -, rfl⟩ := Option.map_eq_some_iff.mp h
      rfl
  | write fd => exact absurd rfl (he fd)
  | close fd =>
      obtain ⟨net, hnet, rfl⟩ := Option.map_eq_some_iff.mp h
      exact (netStep_close hnet).2
  | alarm =>
      rw [clusterStep] at h
      obtain ⟨net, hnet, rfl⟩ := Option.map_eq_some_iff.mp h
      obtain rfl := Option.some.inj hnet
      rfl

/-- A packet has what its client has copied. -/
theorem Taken.step (hheld : Held pData area es₀ es (fun _ => True) s)
    (hs : Taken pData area es₀ es H s) (h : clusterStep cfg hosts pData s e = some s') :
    Taken pData area es₀ (es ++ [e])
      (fun k => H k ∨ ∃ fd rank, e = .write fd ∧ s.net.conn fd = some (k, rank)) s' := by
  by_cases he : ∀ fd, e ≠ .write fd
  · intro k hk
    have hold : H k := hk.resolve_right fun ⟨fd, _, heq, _⟩ => he fd heq
    obtain ⟨c, hc, hseen⟩ := hs k hold
    exact ⟨c, by rw [clusterStep_last h he, hc], fun idx => (hseen idx).concat e⟩
  · obtain ⟨fd, rfl⟩ : ∃ fd, e = .write fd := by simpa using he
    rw [clusterStep] at h
    split_ifs at h with hall
    obtain ⟨net, hnet, rfl⟩ := Option.map_eq_some_iff.mp h
    obtain ⟨r, hr, -, hlast⟩ := netStep_send hnet
    intro k hk
    by_cases hkr : k = r.1
    · refine ⟨s.data fd, by rw [hlast, hkr, Function.update_self], fun idx => ?_⟩
      rw [hkr]
      exact (hheld fd trivial r hr idx (hall idx)).concat _
    · have hold : H k := hk.resolve_right fun ⟨fd', rank, heq, hconn⟩ => by
        obtain rfl := ClusterEvent.write.inj heq
        rw [hr] at hconn
        exact hkr (congrArg Prod.fst (Option.some.inj hconn)).symm
      obtain ⟨c, hc, hseen⟩ := hs k hold
      exact ⟨c, by rw [hlast, Function.update_of_ne hkr, hc], fun idx => (hseen idx).concat _⟩

/-- A run keeps the count, and every client that sends or goes begins anew. -/
theorem held_of_run (hserve : cfg.Serves hash hosts) {fs : List ClusterEvent}
    (hcount : Credited cfg hosts pData rows area es s) (hs : Held pData area es₀ es F s)
    (hes : es₀ <+: es) (hrun : runSteps (clusterStep cfg hosts pData) s fs = some s') :
    Credited cfg hosts pData rows area (es ++ fs) s' ∧
      Held pData area es₀ (es ++ fs) (fun fd => F fd ∨ .write fd ∈ fs ∨ .close fd ∈ fs) s' := by
  induction fs generalizing es s F with
  | nil =>
      obtain rfl := Option.some.inj hrun
      rw [List.append_nil]
      exact ⟨hcount, fun fd hfd => hs fd (hfd.resolve_right (by simp))⟩
  | cons e fs ih =>
      obtain ⟨m, hm, hrest⟩ := Option.bind_eq_some_iff.mp hrun
      obtain ⟨hcount', hs'⟩ := ih (hcount.step hserve hm) (hs.step hcount hes hm)
        (hes.trans (List.prefix_append es [e])) hrest
      rw [List.append_assoc] at hcount' hs'
      refine ⟨hcount', fun fd hfd => hs' fd ?_⟩
      simp only [List.mem_cons, @eq_comm _ _ e] at hfd
      tauto

/-- A run in which the clients have begun anew before takes what they have copied since. -/
theorem taken_of_run (hserve : cfg.Serves hash hosts) {fs : List ClusterEvent}
    (hcount : Credited cfg hosts pData rows area es s)
    (hheld : Held pData area es₀ es (fun _ => True) s) (hs : Taken pData area es₀ es H s)
    (hes : es₀ <+: es) (hrun : runSteps (clusterStep cfg hosts pData) s fs = some s') :
    Taken pData area es₀ (es ++ fs) (fun k => H k ∨ Sends cfg hosts pData k s fs) s' := by
  induction fs generalizing es s H with
  | nil =>
      obtain rfl := Option.some.inj hrun
      rw [List.append_nil]
      exact fun k hk => hs k (hk.resolve_right id)
  | cons e fs ih =>
      obtain ⟨m, hm, hrest⟩ := Option.bind_eq_some_iff.mp hrun
      have hheld' : Held pData area es₀ (es ++ [e]) (fun _ => True) m :=
        fun fd _ => hheld.step hcount hes hm fd (.inl trivial)
      have hs' := ih (hcount.step hserve hm) hheld' (hs.step hheld hm)
        (hes.trans (List.prefix_append es [e])) hrest
      rw [List.append_assoc] at hs'
      refine fun k hk => hs' k ?_
      rcases hk with hk | hk | ⟨m', hm', hk⟩
      · exact .inl (.inl hk)
      · exact .inl (.inr hk)
      · obtain rfl := Option.some.inj (hm.symm.trans hm')
        exact .inr hk

end Copies

/-! ### The totals -/

section Totals

variable {cfg : Setup} {hash : CStr → ℕ} {hosts : HostList} {pData : ℕ}
  {rows : Fin cfg.gsize → Counters} {area : ℕ → Memory} {data : ℕ → Counters}
  {es₀ es es₁ es₂ es₃ : List ClusterEvent} {s₁ s₂ s₃ s s' : Cluster cfg.gsize} {e : ClusterEvent}

/-- What was in a segment at some moment lies between the calls before and after it. -/
theorem Seen.bounds {k : ℕ} {c : Counter × Op × FsIdx} {v : BitVec 64}
    (hzero : ZeroFilled pData (area k)) (hlt : tally k c es < 2 ^ 32)
    (h : Seen pData area es₀ es k (counterIdx (kindOf c.1 c.2.1) c.2.2) v) :
    (tally k c es₀ : ℤ) ≤ v.toInt ∧ v.toInt ≤ tally k c es := by
  obtain ⟨fs, hfrom, hto, rfl⟩ := h
  obtain ⟨kind, op, j⟩ := c
  have hread := toInt_readCounters_foldl hzero (callsOn k fs) kind op j
  have hlow := tally_le_of_isPrefix (k := k) (c := (kind, op, j)) hfrom
  have hhigh := tally_le_of_isPrefix (k := k) (c := (kind, op, j)) hto
  rw [← tally, Nat.mod_eq_of_lt (by omega)] at hread
  rw [countersAfter, hread]
  omega

/-- A job has at most so many hosts. -/
theorem Setup.Serves.length_le (hserve : cfg.Serves hash hosts) :
    hosts.names.length ≤ 2 ^ 17 := by
  have hle := cfg.gsize_le
  rwa [hserve.gsize_eq, maxClients, maxNodeNameLen] at hle

/-- A sum of one number for every host is between the sums of their bounds. -/
theorem toInt_sum_bounds {n : ℕ} (hn : n ≤ 2 ^ 17) {f : ℕ → BitVec 64} {lo hi : ℕ → ℕ}
    (hhi : ∀ k < n, hi k < 2 ^ 32)
    (hf : ∀ k < n, (lo k : ℤ) ≤ (f k).toInt ∧ (f k).toInt ≤ hi k) :
    ((∑ k ∈ Finset.range n, lo k : ℕ) : ℤ) ≤ (∑ k ∈ Finset.range n, f k).toInt ∧
      (∑ k ∈ Finset.range n, f k).toInt ≤ (∑ k ∈ Finset.range n, hi k : ℕ) := by
  have hlow : ((∑ k ∈ Finset.range n, lo k : ℕ) : ℤ) ≤ ∑ k ∈ Finset.range n, (f k).toInt := by
    rw [Nat.cast_sum]
    exact Finset.sum_le_sum fun k hk => (hf k (Finset.mem_range.mp hk)).1
  have hhigh : ∑ k ∈ Finset.range n, (f k).toInt ≤ ((∑ k ∈ Finset.range n, hi k : ℕ) : ℤ) := by
    rw [Nat.cast_sum]
    exact Finset.sum_le_sum fun k hk => (hf k (Finset.mem_range.mp hk)).2
  have hbound : ∑ k ∈ Finset.range n, hi k ≤ n * 2 ^ 32 := by
    have hsum := Finset.sum_le_card_nsmul (Finset.range n) hi (2 ^ 32) fun k hk =>
      (hhi k (Finset.mem_range.mp hk)).le
    rwa [Finset.card_range, smul_eq_mul] at hsum
  have hexact : (∑ k ∈ Finset.range n, f k).toInt = ∑ k ∈ Finset.range n, (f k).toInt := by
    rw [Finset.sum_range, Finset.sum_range] at *
    exact toInt_sum (fun k : Fin n => f k) (by omega) (by omega)
  omega

/-- After two stretches of events all clients have begun anew since the first one, if those that
were there have sent or gone in the second one. -/
theorem held_of_flush (hserve : cfg.Serves hash hosts)
    (hrun₁ : runSteps (clusterStep cfg hosts pData) (Cluster.start cfg pData rows area data) es₁ =
      some s₁)
    (hrun₂ : runSteps (clusterStep cfg hosts pData) s₁ es₂ = some s₂)
    (hflush : ∀ fd, s₁.net.conn fd ≠ none → .write fd ∈ es₂ ∨ .close fd ∈ es₂) :
    Credited cfg hosts pData rows area (es₁ ++ es₂) s₂ ∧
      Held pData area es₁ (es₁ ++ es₂) (fun _ => True) s₂ := by
  obtain ⟨hcount₁, -⟩ := held_of_run (F := fun _ => False) hserve (credited_start data)
    (fun fd hfd => hfd.elim) (List.prefix_refl ([] : List ClusterEvent)) hrun₁
  rw [List.nil_append] at hcount₁
  have hnone : Held pData area es₁ es₁ (fun fd => s₁.net.conn fd = none) s₁ := by
    intro fd hfd r hr
    rw [hfd] at hr
    cases hr
  obtain ⟨hcount₂, hheld₂⟩ := held_of_run hserve hcount₁ hnone (List.prefix_refl es₁) hrun₂
  refine ⟨hcount₂, fun fd _ => hheld₂ fd ?_⟩
  by_cases hconn : s₁.net.conn fd = none
  · exact .inl hconn
  · exact .inr (hflush fd hconn)

/-- The last packets of hosts that have sent since the clients have begun anew. -/
theorem exists_latest (hserve : cfg.Serves hash hosts)
    (hcount : Credited cfg hosts pData rows area es s)
    (hheld : Held pData area es₀ es (fun _ => True) s) (hes : es₀ <+: es)
    {fs : List ClusterEvent} (hrun : runSteps (clusterStep cfg hosts pData) s fs = some s')
    {n : ℕ} (hsent : ∀ k, 1 ≤ k → k < n → Sends cfg hosts pData k s fs) :
    ∃ latest : ℕ → Counters, ∀ k, 1 ≤ k → k < n → s'.net.last k = some (latest k) ∧
      ∀ idx, Seen pData area es₀ (es ++ fs) k idx (latest k idx) := by
  have htaken := taken_of_run (H := fun _ => False) hserve hcount hheld (fun k hk => hk.elim) hes
    hrun
  have hrow : ∀ k, ∃ c : Counters, 1 ≤ k → k < n → s'.net.last k = some c ∧
      ∀ idx, Seen pData area es₀ (es ++ fs) k idx (c idx) := by
    intro k
    by_cases hk : 1 ≤ k ∧ k < n
    · obtain ⟨c, hc⟩ := htaken k (.inr (hsent k hk.1 hk.2))
      exact ⟨c, fun _ _ => hc⟩
    · exact ⟨fun _ => 0, fun h₁ h₂ => absurd ⟨h₁, h₂⟩ hk⟩
  choose latest hlatest using hrow
  exact ⟨latest, hlatest⟩

/-- A summary adds up one number for every host. -/
theorem counterSum_eq_sum (hserve : cfg.Serves hash hosts)
    (hcount : Credited cfg hosts pData rows area es s)
    (hstep : clusterStep cfg hosts pData s e = some s')
    (hsum : s'.net.server.nSummary = s.net.server.nSummary + 1) {latest : ℕ → Counters}
    (hlatest : ∀ k, 1 ≤ k → k < hosts.names.length → s'.net.last k = some (latest k))
    (i : Fin 4) {j : FsIdx} (hj : j.val < cfg.nFsServer) :
    s'.net.server.counterSum (counterIdx i j) = ∑ k ∈ Finset.range hosts.names.length,
      if k = 0 then countersAfter pData area 0 es (counterIdx i j)
      else latest k (counterIdx i j) := by
  obtain ⟨as, has⟩ := hcount.reach
  obtain ⟨a, ha⟩ : ∃ a, netStep cfg hosts s.net a = some s'.net := by
    rcases clusterStep_net hstep with hsame | hnet
    · rw [hsame] at hsum
      omega
    · exact hnet
  have hpos : 0 < hosts.names.length := List.length_pos_iff.mpr hosts.ne_nil
  have htotal := (counterSum_eq_latest hserve has ha hsum hlatest i hj).1
  rw [hcount.localData] at htotal
  rw [htotal, Finset.range_eq_Ico, Finset.sum_eq_sum_Ico_succ_bot hpos, if_pos rfl]
  congr 1
  refine Finset.sum_congr rfl fun k hk => ?_
  have hle := (Finset.mem_Ico.mp hk).1
  rw [if_neg (by omega)]

/-- **The totals.** At a summary that finds a packet of every remote host which was sent in `es₃`,
when every client that was there after `es₁` has sent or gone in `es₂`, a printed total is at least
the calls in `es₁` and at most the calls until now. -/
theorem cluster_totals (hserve : cfg.Serves hash hosts) (hzero : ∀ k, ZeroFilled pData (area k))
    (hrun₁ : runSteps (clusterStep cfg hosts pData) (Cluster.start cfg pData rows area data) es₁ =
      some s₁)
    (hrun₂ : runSteps (clusterStep cfg hosts pData) s₁ es₂ = some s₂)
    (hflush : ∀ fd, s₁.net.conn fd ≠ none → .write fd ∈ es₂ ∨ .close fd ∈ es₂)
    (hrun₃ : runSteps (clusterStep cfg hosts pData) s₂ es₃ = some s)
    (hstep : clusterStep cfg hosts pData s e = some s')
    (hsent : ∀ k, 1 ≤ k → k < hosts.names.length →
      Sends cfg hosts pData k s₂ (es₃ ++ [e]))
    (hsum : s'.net.server.nSummary = s.net.server.nSummary + 1)
    (kind : Counter) (op : Op) {j : FsIdx} (hj : j.val < cfg.nFsServer)
    (hlt : ∀ k < hosts.names.length, tally k (kind, op, j) (es₁ ++ es₂ ++ es₃ ++ [e]) < 2 ^ 32) :
    ((∑ k ∈ Finset.range hosts.names.length, tally k (kind, op, j) es₁ : ℕ) : ℤ) ≤
        (s'.net.server.counterSum (counterIdx (kindOf kind op) j)).toInt ∧
      (s'.net.server.counterSum (counterIdx (kindOf kind op) j)).toInt ≤
        (∑ k ∈ Finset.range hosts.names.length,
          tally k (kind, op, j) (es₁ ++ es₂ ++ es₃ ++ [e]) : ℕ) := by
  have hpre : es₁ <+: es₁ ++ es₂ := List.prefix_append es₁ es₂
  obtain ⟨hcount₂, hheld₂⟩ := held_of_flush hserve hrun₁ hrun₂ hflush
  obtain ⟨hcount₃, -⟩ := held_of_run hserve hcount₂ hheld₂ hpre hrun₃
  obtain ⟨latest, hlatest⟩ := exists_latest hserve hcount₂ hheld₂ hpre
    (runSteps_concat_eq_some.mpr ⟨s, hrun₃, hstep⟩) hsent
  rw [← List.append_assoc] at hlatest
  rw [counterSum_eq_sum hserve hcount₃ hstep hsum (fun k h₁ h₂ => (hlatest k h₁ h₂).1)
    (kindOf kind op) hj]
  refine toInt_sum_bounds hserve.length_le hlt fun k hk => Seen.bounds (hzero k) (hlt k hk) ?_
  split_ifs with hlocal
  · rw [hlocal]
    exact ⟨es₁ ++ es₂ ++ es₃, hpre.trans (List.prefix_append _ _), List.prefix_append _ _, rfl⟩
  · exact (hlatest k (by omega) hk).2 _

end Totals

section Sample

/-- Two calls on `n1` and one on `n0`. -/
def sampleCalls : List ClusterEvent :=
  [.call 1 (.count, .openFile, 0), .call 0 (.count, .openFile, 0), .call 1 (.count, .openFile, 0)]

/-- The whole segment is copied. -/
def copyAll (fd : ℕ) : List ClusterEvent := (List.finRange 32).map fun idx => .copy fd idx

/-- The clients of the remote hosts connect and copy. -/
def sampleCopies : List ClusterEvent :=
  [.connect 5 1 true, .connect 6 2 true] ++ copyAll 5 ++ copyAll 6

/-- New segments on the three hosts. -/
def sampleCluster : Cluster sampleSetup.gsize :=
  Cluster.start sampleSetup 0 (fun _ _ => 9) (fun _ _ => 0) fun _ _ => 0

/-- Both clients send behind the calls, and the second packet makes a summary. -/
theorem sampleCluster_run : ∃ s₁ s s',
    runSteps (clusterStep sampleSetup sampleHosts 0) sampleCluster sampleCalls = some s₁ ∧
      (∀ fd, s₁.net.conn fd = none) ∧
      runSteps (clusterStep sampleSetup sampleHosts 0) s₁ (sampleCopies ++ [.write 5]) = some s ∧
      clusterStep sampleSetup sampleHosts 0 s (.write 6) = some s' ∧
      (∀ k, 1 ≤ k → k < sampleHosts.names.length →
        Sends sampleSetup sampleHosts 0 k s₁ (sampleCopies ++ [.write 5] ++ [.write 6])) ∧
      s'.net.server.nSummary = s.net.server.nSummary + 1 := by
  have hcalls : ((runSteps (clusterStep sampleSetup sampleHosts 0) sampleCluster
      sampleCalls).map fun s => s.net.conn) = some fun _ => none := rfl
  obtain ⟨s₁, hrun₁, hnone⟩ := Option.map_eq_some_iff.mp hcalls
  have hcopies : ((runSteps (clusterStep sampleSetup sampleHosts 0) sampleCluster
      (sampleCalls ++ sampleCopies)).map fun s => (s.net.conn 5, s.net.conn 6)) =
        some (some (1, 1), some (2, 2)) := by decide +kernel
  obtain ⟨s₂, hrun₂, hconn⟩ := Option.map_eq_some_iff.mp hcopies
  have hfirst : ((runSteps (clusterStep sampleSetup sampleHosts 0) sampleCluster
      (sampleCalls ++ (sampleCopies ++ [.write 5]))).map fun s =>
        (s.net.server.nSummary, s.net.conn 6)) = some (0, some (2, 2)) := by decide +kernel
  obtain ⟨s, hrun, hbefore⟩ := Option.map_eq_some_iff.mp hfirst
  have hsecond : ((runSteps (clusterStep sampleSetup sampleHosts 0) sampleCluster
      ((sampleCalls ++ (sampleCopies ++ [.write 5])) ++ [.write 6])).map fun s =>
        s.net.server.nSummary) = some 1 := by decide +kernel
  obtain ⟨s', hrun', hafter⟩ := Option.map_eq_some_iff.mp hsecond
  obtain ⟨m, hm, hstep⟩ := runSteps_concat_eq_some.mp hrun'
  obtain rfl := Option.some.inj (hrun.symm.trans hm)
  obtain ⟨hzero, hconn₆⟩ := Prod.mk.inj hbefore
  rw [runSteps_append, hrun₁, Option.bind_some] at hrun hrun₂
  have hsent : ∀ k, 1 ≤ k → k < sampleHosts.names.length →
      Sends sampleSetup sampleHosts 0 k s₁ (sampleCopies ++ [.write 5] ++ [.write 6]) := by
    intro k hk hlt
    have hlen : sampleHosts.names.length = 3 := rfl
    obtain rfl | rfl : k = 1 ∨ k = 2 := by omega
    · rw [List.append_assoc]
      exact sends_of_run hrun₂ (Prod.mk.inj hconn).1 [.write 6]
    · exact sends_of_run hrun hconn₆ []
  exact ⟨s₁, s, s', hrun₁, congrFun hnone, hrun, hstep, hsent, by rw [hafter, hzero]⟩

/-- When both have sent, the daemon prints the three calls. -/
theorem cluster_totals_three_calls : ∃ s',
    runSteps (clusterStep sampleSetup sampleHosts 0) sampleCluster
        (sampleCalls ++ (sampleCopies ++ [.write 5, .write 6])) = some s' ∧
      (s'.net.server.counterSum (counterIdx (kindOf .count .openFile) 0)).toInt = 3 := by
  have hserve : sampleSetup.Serves List.length sampleHosts :=
    sampleHosts.setup_serves List.length _ _
  obtain ⟨s₁, s, s', hrun₁, hnone, hrun, hstep, hsent, hsum⟩ := sampleCluster_run
  have hrun' : runSteps (clusterStep sampleSetup sampleHosts 0) sampleCluster
      (sampleCalls ++ (sampleCopies ++ [.write 5] ++ [.write 6])) = some s' := by
    rw [runSteps_append, hrun₁, Option.bind_some]
    exact runSteps_concat_eq_some.mpr ⟨s, hrun, hstep⟩
  refine ⟨s', hrun', ?_⟩
  have hempty : runSteps (clusterStep sampleSetup sampleHosts 0) s₁ [] = some s₁ := rfl
  obtain ⟨hlow, hhigh⟩ := cluster_totals hserve (fun _ _ _ => rfl) hrun₁ hempty
    (fun fd hfd => absurd (hnone fd) hfd) hrun hstep hsent hsum .count .openFile (j := 0)
    (by decide) (by decide +kernel)
  have hcount : ∑ k ∈ Finset.range sampleHosts.names.length,
      tally k (.count, .openFile, 0) sampleCalls = 3 := by decide +kernel
  have hcount' : ∑ k ∈ Finset.range sampleHosts.names.length, tally k (.count, .openFile, 0)
      (sampleCalls ++ [] ++ (sampleCopies ++ [.write 5]) ++ [.write 6]) = 3 := by decide +kernel
  omega

end Sample

end Ooops
