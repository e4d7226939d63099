import Mathlib.Data.List.TakeWhile
import Ooops.HostRanks

/-!
# Aggregation

The clients of a job run on the hosts of the list. Each greets with the name of its host,
is answered with a rank, and from then on sends its counters under this rank. This module
puts the daemon together with any number of such clients, which come, send and go in any
order, and shows what the sums of the daemon are made of: the local counters and, for every
remote host, the counters of the last packet that was taken from it
(`counterSum_eq_latest`).

* `acceptClient_of_host`: the rank a client is answered with is the line of its host.
* `Net.Inv` ties the rows of the daemon to the packets that were sent.
* `netStep_isSome`: what a client does never stops the daemon.
-/

open Basis

namespace Ooops

/-- The daemon has read the host list: its group size and its table are what
`Read_Host_List` made of the file. -/
def Setup.Serves (cfg : Setup) (hash : CStr → ℕ) (hosts : HostList) : Prop :=
  ∃ mem d, readHostList hash mem hosts.file = .ok (cfg.gsize, d) ∧
    ∀ name, Ooops.dictSearch hash d name = .ok (cfg.dictSearch name)

/-- The daemon of a host list, with the answers its table is to give. -/
def HostList.setup (hosts : HostList) (nFsServer : ℕ) (h : nFsServer ≤ 8)
    (tIntervalReport : ℤ) : Setup where
  gsize := hosts.names.length
  gsize_le := Nat.le_trans hosts.length_le (Nat.le_mul_of_pos_right _ (by decide))
  dictSearch := fun name => if name ∈ hosts.names then (hosts.names.idxOf name : ℤ) else -1
  nFsServer := nFsServer
  nFsServer_le := h
  tIntervalReport := tIntervalReport

/-- The daemon with its clients: for an open connection the line of its host and the rank
it was answered with, and the last packet that was taken from each host. -/
structure Net (gsize : ℕ) where
  server : Server gsize
  conn : ℕ → Option (ℕ × ℤ)
  last : ℕ → Option Counters

/-- What can happen: a client on the host of line `k` connects, sends its counters in a
packet that is read at once, or goes; the timer runs out; the local counters change. -/
inductive NetEvent
  | connect (fd k : ℕ) (registered : Bool)
  | send (fd : ℕ) (counter : Counters)
  | close (fd : ℕ)
  | alarm
  | localWrite (counter : Counters)

/-- The daemon at the start of its main loop, without clients. -/
def Net.start (cfg : Setup) (rows : Fin cfg.gsize → Counters) (localData : Counters) :
    Net cfg.gsize where
  server := Server.start cfg rows localData
  conn := fun _ => none
  last := fun _ => none

/-- One event. A descriptor in use is not given out again, and only open connections send
and close. -/
def netStep (cfg : Setup) (hosts : HostList) (n : Net cfg.gsize) :
    NetEvent → Option (Net cfg.gsize)
  | .connect fd k registered =>
      match n.conn fd, hosts.names[k]? with
      | none, some name =>
          (acceptClient cfg n.server fd (readWaiting 128 (szTagNodeName ++ name))
            registered).map fun r =>
              { n with
                server := r.1
                conn :=
                  Function.update n.conn fd (if registered then some (k, r.2) else none) }
      | _, _ => none
  | .send fd counter =>
      match n.conn fd with
      | some (k, rank) =>
          (drainClient cfg n.server fd
            (readWaiting 1024 (OoopsData.ofClient rank counter).toBytes)).map fun server =>
              { n with
                server := server
                last := Function.update n.last k (some counter) }
      | none => none
  | .close fd =>
      match n.conn fd with
      | some _ =>
          (drainClient cfg n.server fd (readWaiting 1024 [])).map fun server =>
            { n with server := server, conn := Function.update n.conn fd none }
      | none => none
  | .alarm => (serverStep cfg n.server .alarm).map fun server => { n with server := server }
  | .localWrite counter =>
      (serverStep cfg n.server (.localWrite counter)).map fun server =>
        { n with server := server }

/-! ## The handshake -/

section Handshake

variable {cfg : Setup} {hash : CStr → ℕ} {hosts : HostList}

/-- The daemon has read the file of its hosts. -/
theorem Setup.Serves.reads (h : cfg.Serves hash hosts) :
    cfg.Reads hash hosts.toHostFile.file := h

/-- The group size is the number of hosts. -/
theorem Setup.Serves.gsize_eq (h : cfg.Serves hash hosts) :
    cfg.gsize = hosts.names.length := h.reads.gsize_eq

theorem Setup.Serves.gsize_pos (h : cfg.Serves hash hosts) : 0 < cfg.gsize :=
  h.gsize_eq ▸ List.length_pos_iff.mpr hosts.ne_nil

/-- The table that is read from the file gives these answers. -/
theorem HostList.setup_serves (hosts : HostList) (hash : CStr → ℕ) {nFsServer : ℕ}
    (h : nFsServer ≤ 8) (tIntervalReport : ℤ) :
    (hosts.setup nFsServer h tIntervalReport).Serves hash hosts :=
  hosts.toHostFile.setup_reads hash h tIntervalReport

/-- **The rank of a host** is the number of its line. -/
theorem rank_of_getElem? {k : ℕ} {name : CStr} (hk : hosts.names[k]? = some name) :
    hosts.toHostFile.rank name = k := by
  obtain ⟨hlt, rfl⟩ := List.getElem?_eq_some_iff.mp hk
  have hmem : hosts.names[k] ∈ hosts.toHostFile.names := List.getElem_mem hlt
  rw [HostFile.rank, if_pos hmem]
  exact congrArg Nat.cast (hosts.nodup.idxOf_getElem k hlt)

/-- The handshake of a client on a listed host. -/
theorem acceptClient_of_host (h : cfg.Serves hash hosts) {k : ℕ} {name : CStr}
    (hk : hosts.names[k]? = some name) (s : Server cfg.gsize) (fd : ℕ) (registered : Bool) :
    acceptClient cfg s fd (readWaiting 128 (szTagNodeName ++ name)) registered =
      some ({ s with fds := if registered then s.fds ++ [fd] else s.fds }, (k : ℤ)) := by
  have hname := hosts.hostName name (List.mem_of_getElem? hk)
  rw [acceptClient_of_name hname.isGreetingName, h.reads.dictSearch_eq, rank_of_getElem? hk]

end Handshake

/-! ## The packets -/

section Packets

variable {cfg : Setup}

/-- A record that is read at once is taken, unless its rank is `0`. -/
theorem acceptedData_toBytes {p : OoopsData} (hp : p.Valid) (htag : p.tag = dataTag) :
    acceptedData (readWaiting 1024 p.toBytes) = if p.rank = 0 then none else some p := by
  have htake : p.toBytes.take 1024 = p.toBytes :=
    List.take_of_length_le (by rw [OoopsData.length_toBytes, sizeofOoopsData]; omega)
  have hrecv : receivedData (p.toBytes.take 1024) = some p := by
    rw [htake, receivedData, OoopsData.ofBytes_toBytes hp,
      if_pos ⟨OoopsData.length_toBytes p, htag⟩]
  rw [readWaiting, acceptedData, hrecv]
  by_cases hrank : p.rank = 0
  · rw [if_pos hrank, Option.filter_some_neg (by simpa using hrank)]
  · rw [if_neg hrank, Option.filter_some_pos (by simpa using hrank)]

/-- At the end of a stream nothing is taken. -/
theorem acceptedData_nil : acceptedData (readWaiting 1024 []) = none := rfl

/-- The rank of a row fits its field. -/
theorem OoopsData.valid_ofClient {k : ℕ} (hk : k < cfg.gsize) (counter : Counters) :
    (ofClient k counter).Valid := by
  have hle := cfg.gsize_le
  rw [maxClients, maxNodeNameLen] at hle
  constructor
  · show dataTag < 2 ^ 32
    decide
  · show -2 ^ 31 ≤ (k : ℤ)
    omega
  · show (k : ℤ) < 2 ^ 31
    omega

/-- A packet of a client is taken, unless the client is on the local host. -/
theorem acceptedData_ofClient {k : ℕ} (hk : k < cfg.gsize) (counter : Counters) :
    acceptedData (readWaiting 1024 (OoopsData.ofClient k counter).toBytes) =
      if k = 0 then none else some (OoopsData.ofClient k counter) := by
  have hrank : (OoopsData.ofClient k counter).rank = 0 ↔ k = 0 := Int.natCast_eq_zero
  rw [acceptedData_toBytes (OoopsData.valid_ofClient hk counter) rfl]
  simp only [hrank]

end Packets

/-! ## Runs of the daemon and its clients -/

section Runs

variable {cfg : Setup} {hash : CStr → ℕ} {hosts : HostList} {n n' : Net cfg.gsize}

/-- Every client has the rank of its host, and the row of a remote host holds the last
packet that was taken from it. -/
structure Net.Inv (n : Net cfg.gsize) : Prop where
  conn_rank : ∀ fd k rank, n.conn fd = some (k, rank) → k < cfg.gsize ∧ rank = (k : ℤ)
  row : ∀ (k : Fin cfg.gsize) c, k.val ≠ 0 → n.last k = some c → n.server.oopsDataList k = c

/-- A connection that is new in a table has the rank of its host. -/
theorem conn_rank_update {conn : ℕ → Option (ℕ × ℤ)} {g fd k : ℕ} {o : Option (ℕ × ℤ)}
    (h : ∀ fd k rank, conn fd = some (k, rank) → k < g ∧ rank = (k : ℤ))
    (ho : ∀ r, o = some r → r = (k, (k : ℤ))) (hk : k < g) :
    ∀ fd' k' rank, Function.update conn fd o fd' = some (k', rank) →
      k' < g ∧ rank = (k' : ℤ) := by
  intro fd' k' rank hr
  by_cases hfd : fd' = fd
  · rw [hfd, Function.update_self] at hr
    obtain ⟨rfl, rfl⟩ := Prod.mk.inj (ho _ hr)
    exact ⟨hk, rfl⟩
  · rw [Function.update_of_ne hfd] at hr
    exact h fd' k' rank hr

/-- **What one event does**, while every client has the rank of its host: a packet of a
remote host is stored, or the timer runs out, or neither the rows nor the sums change. -/
theorem netStep_cases (hserve : cfg.Serves hash hosts) (hinv : n.Inv) {a : NetEvent}
    (h : netStep cfg hosts n a = some n') :
    (∃ (k : Fin cfg.gsize) (counter : Counters), k.val ≠ 0 ∧
      n' = ⟨afterData n.server k counter, n.conn,
        Function.update n.last k (some counter)⟩) ∨
    (n' = { n with server := periodic cfg n.server }) ∨
    (∃ localData fds conn last,
      n' = ⟨{ n.server with localData := localData, fds := fds }, conn, last⟩ ∧
      (∀ fd k rank, conn fd = some (k, rank) → k < cfg.gsize ∧ rank = (k : ℤ)) ∧
      ∀ k, k ≠ 0 → last k = n.last k) := by
  cases a with
  | connect fd k registered =>
      rw [netStep] at h
      split at h
      case h_2 => exact absurd h (by simp)
      case h_1 name _ hname =>
        rw [acceptClient_of_host hserve hname] at h
        obtain rfl := Option.some.inj h
        refine .inr (.inr ⟨n.server.localData, _, _, n.last, rfl, ?_, fun _ _ => rfl⟩)
        obtain ⟨hlt, -⟩ := List.getElem?_eq_some_iff.mp hname
        refine conn_rank_update hinv.conn_rank (k := k) (fun r hr => ?_)
          (hserve.gsize_eq ▸ hlt)
        split_ifs at hr
        exact (Option.some.inj hr).symm
  | send fd counter =>
      rw [netStep] at h
      split at h
      case h_2 => exact absurd h (by simp)
      case h_1 k rank hconn =>
        obtain ⟨hk, rfl⟩ := hinv.conn_rank fd k rank hconn
        have hdata := acceptedData_ofClient hk counter
        by_cases hk₀ : k = 0
        · rw [if_pos hk₀] at hdata
          obtain ⟨fds, hdrain⟩ := drainClient_of_none hdata n.server fd
          rw [hdrain] at h
          obtain rfl := Option.some.inj h
          refine .inr (.inr ⟨n.server.localData, fds, n.conn, _, rfl, hinv.conn_rank, ?_⟩)
          exact fun j hj => Function.update_of_ne (hk₀ ▸ hj) ..
        · rw [if_neg hk₀] at hdata
          rw [drainClient_of_some hdata] at h
          obtain ⟨server, htake, rfl⟩ := Option.map_eq_some_iff.mp h
          obtain ⟨-, j, hj, rfl⟩ := takeData_eq_some_iff.mp htake
          obtain rfl : k = j.val := Int.natCast_inj.mp hj
          exact .inl ⟨j, counter, hk₀, rfl⟩
  | close fd =>
      rw [netStep] at h
      split at h
      case h_2 => exact absurd h (by simp)
      case h_1 r hconn =>
        obtain ⟨fds, hdrain⟩ := drainClient_of_none acceptedData_nil n.server fd
        rw [hdrain] at h
        obtain rfl := Option.some.inj h
        refine .inr (.inr ⟨n.server.localData, fds, _, n.last, rfl, ?_, fun _ _ => rfl⟩)
        exact conn_rank_update hinv.conn_rank (k := 0) (fun _ hr => absurd hr (by simp))
          hserve.gsize_pos
  | alarm => exact .inr (.inl (Option.some.inj h).symm)
  | localWrite counter =>
      obtain rfl := Option.some.inj h
      exact .inr (.inr ⟨counter, n.server.fds, n.conn, n.last, rfl, hinv.conn_rank,
        fun _ _ => rfl⟩)

/-- No client has connected. -/
theorem Net.inv_start (rows : Fin cfg.gsize → Counters) (localData : Counters) :
    (Net.start cfg rows localData).Inv where
  conn_rank := fun _ _ _ h => absurd h (by simp [Net.start])
  row := fun _ _ _ h => absurd h (by simp [Net.start])

/-- The invariant is kept by every event. -/
theorem Net.Inv.step (hserve : cfg.Serves hash hosts) (hinv : n.Inv) {a : NetEvent}
    (h : netStep cfg hosts n a = some n') : n'.Inv := by
  obtain ⟨k, counter, hk, rfl⟩ | rfl | ⟨localData, fds, conn, last, rfl, hconn, hlast⟩ :=
    netStep_cases hserve hinv h
  · refine ⟨hinv.conn_rank, fun j c hj hc => ?_⟩
    change Function.update n.last k (some counter) j = some c at hc
    rw [afterData_oopsDataList hj]
    by_cases hjk : j = k
    · subst hjk
      rw [Function.update_self] at hc
      rw [if_pos rfl, Option.some.inj hc]
    · rw [Function.update_of_ne (Fin.val_ne_of_ne hjk)] at hc
      rw [if_neg hjk, hinv.row j c hj hc]
  · refine ⟨hinv.conn_rank, fun j c hj hc => ?_⟩
    rw [periodic_oopsDataList hj, hinv.row j c hj hc]
  · exact ⟨hconn, fun j c hj hc => hinv.row j c hj ((hlast j hj).symm.trans hc)⟩

/-- The invariant holds in every run. -/
theorem Net.inv_of_runSteps (hserve : cfg.Serves hash hosts)
    {rows : Fin cfg.gsize → Counters} {localData : Counters} {as : List NetEvent}
    (h : runSteps (netStep cfg hosts) (Net.start cfg rows localData) as = some n) : n.Inv :=
  invariant_of_runSteps (P := fun _ _ => True) (Net.inv_start rows localData)
    (fun _ _ _ hinv _ hs => hinv.step hserve hs) (along_of_forall (fun _ _ => trivial) _ _) h

/-- An event that can happen: a descriptor in use is not given out again, a client runs on
a listed host, and only open connections send and close. -/
def NetEvent.Enabled (hosts : HostList) (n : Net cfg.gsize) : NetEvent → Prop
  | .connect fd k _ => n.conn fd = none ∧ k < hosts.names.length
  | .send fd _ => n.conn fd ≠ none
  | .close fd => n.conn fd ≠ none
  | .alarm => True
  | .localWrite _ => True

/-- What a client does never stops the daemon. -/
theorem netStep_isSome (hserve : cfg.Serves hash hosts) (hinv : n.Inv) {a : NetEvent}
    (ha : a.Enabled hosts n) : (netStep cfg hosts n a).isSome := by
  cases a with
  | connect fd k registered =>
      obtain ⟨hconn, hk⟩ := ha
      have hname := List.getElem?_eq_getElem hk
      simp only [netStep, hconn, hname, acceptClient_of_host hserve hname, Option.map_some,
        Option.isSome_some]
  | send fd counter =>
      obtain ⟨⟨k, rank⟩, hconn⟩ := Option.ne_none_iff_exists'.mp ha
      obtain ⟨hk, rfl⟩ := hinv.conn_rank fd k rank hconn
      have hdata := acceptedData_ofClient hk counter
      simp only [netStep, hconn, Option.isSome_map]
      by_cases hk₀ : k = 0
      · rw [if_pos hk₀] at hdata
        obtain ⟨fds, hdrain⟩ := drainClient_of_none hdata n.server fd
        rw [hdrain, Option.isSome_some]
      · rw [if_neg hk₀] at hdata
        have htake : takeData cfg n.server (OoopsData.ofClient k counter) =
            some (afterData n.server ⟨k, hk⟩ counter) :=
          takeData_eq_some_iff.mpr ⟨by omega, ⟨k, hk⟩, rfl, rfl⟩
        rw [drainClient_of_some hdata, htake, Option.isSome_some]
  | close fd =>
      obtain ⟨r, hconn⟩ := Option.ne_none_iff_exists'.mp ha
      obtain ⟨fds, hdrain⟩ := drainClient_of_none acceptedData_nil n.server fd
      simp only [netStep, hconn, hdrain, Option.map_some, Option.isSome_some]
  | alarm => rfl
  | localWrite counter => rfl

/-- **Aggregation.** At every summary that finds a packet of each remote host, the sum of a
tracked counter is the local counter and those in the last packets, and it is saved. -/
theorem counterSum_eq_latest (hserve : cfg.Serves hash hosts)
    {rows : Fin cfg.gsize → Counters} {localData : Counters} {as : List NetEvent}
    (hrun : runSteps (netStep cfg hosts) (Net.start cfg rows localData) as = some n)
    {a : NetEvent} (hstep : netStep cfg hosts n a = some n')
    (hsum : n'.server.nSummary = n.server.nSummary + 1) {latest : ℕ → Counters}
    (hlatest : ∀ k, 1 ≤ k → k < hosts.names.length → n'.last k = some (latest k))
    (i : Fin 4) {j : FsIdx} (hj : j.val < cfg.nFsServer) :
    n'.server.counterSum (counterIdx i j) =
        n.server.localData (counterIdx i j) +
          ∑ k ∈ Finset.Ico 1 hosts.names.length, latest k (counterIdx i j) ∧
      n'.server.counterSumSave (counterIdx i j) = n'.server.counterSum (counterIdx i j) := by
  have hinv := Net.inv_of_runSteps hserve hrun
  have hrow := (hinv.step hserve hstep).row
  have hidx : counterIdx i j ∈ trackedIdx cfg := mem_trackedIdx hj
  have hpos := hserve.gsize_pos
  rw [← hserve.gsize_eq] at hlatest ⊢
  obtain ⟨k, counter, hk, rfl⟩ | rfl | ⟨localData, fds, conn, last, rfl, -, -⟩ :=
    netStep_cases hserve hinv hstep
  · have hafter : afterData n.server k counter = _ := afterData_of_summary hsum
    have hstored (j : Fin cfg.gsize) (hj : j.val ≠ 0) :
        (n.server.store k counter).oopsDataList j = latest j := by
      rw [← hrow j (latest j) hj (hlatest j (by omega) j.isLt), hafter,
        printSummary_oopsDataList, Server.copyLocal_of_ne hj]
    simp only [hafter]
    exact ⟨printSummary_copyLocal hpos hidx fun j hj => congrFun (hstored j hj) _,
      printSummary_counterSumSave hidx⟩
  · by_cases hg : cfg.gsize = 1
    · simp only [periodic_of_eq hg]
      exact ⟨printSummary_copyLocal hpos hidx fun j hj => absurd j.isLt (by omega),
        printSummary_counterSumSave hidx⟩
    · simp only [periodic_nSummary, if_neg hg] at hsum
      omega
  · simp only at hsum
    omega

end Runs

section Sample

/-- Three hosts, the local one first. -/
def sampleHosts : HostList where
  names := [bytesOf "n0", bytesOf "n1", bytesOf "n2"]
  hostName := by decide +kernel
  nodup := by decide
  ne_nil := by decide
  length_le := by decide

/-- The daemon on `n0`, with one server and a line every five seconds. -/
def sampleSetup : Setup := sampleHosts.setup 1 one_le_maxFsServer 5

/-- The clients of both remote hosts have connected, and that of `n1` has sent. -/
def sampleEvents : List NetEvent :=
  [.connect 5 1 true, .connect 6 2 true, .send 5 fun _ => 7]

/-- The first packets of both hosts, with counters `7` and `8`, are added to the local
`3`. -/
theorem counterSum_eq_latest_packets :
    ∃ n', runSteps (netStep sampleSetup sampleHosts)
        (Net.start sampleSetup (fun _ _ => 9) fun _ => 3)
        (sampleEvents ++ [.send 6 fun _ => 8]) = some n' ∧
      n'.server.counterSum (counterIdx 0 0) = 3 + (7 + 8) := by
  have hserve : sampleSetup.Serves List.length sampleHosts :=
    sampleHosts.setup_serves List.length _ _
  have hdone : ((runSteps (netStep sampleSetup sampleHosts)
      (Net.start sampleSetup (fun _ _ => 9) fun _ => 3)
      (sampleEvents ++ [.send 6 fun _ => 8])).map fun n =>
        (n.server.nSummary, n.last 1, n.last 2)) =
          some (1, some fun _ => 7, some fun _ => 8) := by
    decide +kernel
  have hbegun : ((runSteps (netStep sampleSetup sampleHosts)
      (Net.start sampleSetup (fun _ _ => 9) fun _ => 3) sampleEvents).map fun n =>
        (n.server.nSummary, n.server.localData)) = some (0, fun _ => 3) := by
    decide +kernel
  obtain ⟨n', hrun, hn'⟩ := Option.map_eq_some_iff.mp hdone
  obtain ⟨n, hn, hnval⟩ := Option.map_eq_some_iff.mp hbegun
  obtain ⟨m, hm, hstep⟩ := runSteps_concat_eq_some.mp hrun
  obtain rfl := Option.some.inj (hn.symm.trans hm)
  obtain ⟨hsum', hlast⟩ := Prod.mk.inj hn'
  obtain ⟨hlast₁, hlast₂⟩ := Prod.mk.inj hlast
  obtain ⟨hsum, hlocal⟩ := Prod.mk.inj hnval
  have hlatest (k : ℕ) (hk : 1 ≤ k) (hlt : k < sampleHosts.names.length) :
      n'.last k = some fun _ => if k = 1 then 7 else 8 := by
    have hlen : sampleHosts.names.length = 3 := rfl
    obtain rfl | rfl : k = 1 ∨ k = 2 := by omega
    · exact hlast₁
    · exact hlast₂
  refine ⟨n', hrun, ?_⟩
  rw [(counterSum_eq_latest hserve hn hstep (by rw [hsum', hsum]) hlatest 0
    (by decide : (0 : FsIdx).val < sampleSetup.nFsServer)).1, hlocal]
  rfl

end Sample

end Ooops
