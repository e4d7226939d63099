import Mathlib.Data.Int.Interval
import Ooops.Basis.Count
import Ooops.Aggregation

/-!
# Rounds of Packets

The daemon sums its rows up whenever the count of packets comes to a multiple of
`gsize - 1`, the number of remote hosts. The packets between two such counts are a round.
Nothing ties a round to one packet from each host: a client that is ahead of the others
reports twice in a round, and the summary then takes the row of a host that has not
reported, or never has (`early_packet_starves`).

* `Complete` says that a summary finds a packet of every remote rank in its round.
* `Steady` is what the senders have to keep to: a round has no packet that repeats a rank
  of the round, or, where `nDataCount` passes `2 ^ 31 - 1` and a round is longer, no more
  of them than it is longer.
* `steady_cons_iff`: what that means while the count is exact.
* `complete_iff_steady`: along every run, the one is the other.
-/

open Basis

namespace Ooops

/-- The ranks of the packets of a run, in their order. -/
def acceptedRanks (es : List Event) : List ℤ :=
  es.filterMap fun e => e.data.map OoopsData.rank

/-- Whether `nDataCount` is a multiple of `m` after `n` packets. -/
def Closes (m : ℤ) (n : ℕ) : Prop := (wrapInt32 n).tmod m = 0

instance (m : ℤ) (n : ℕ) : Decidable (Closes m n) := inferInstanceAs (Decidable (_ = _))

/-- The part of a history of ranks, the last one first, that belongs to the round under
way. -/
def pendingRound (m : ℤ) : List ℤ → List ℤ
  | [] => []
  | r :: rs => if Closes m (rs.length + 1) then [] else r :: pendingRound m rs

theorem pendingRound_cons (m r : ℤ) (rs : List ℤ) :
    pendingRound m (r :: rs) =
      if Closes m (rs.length + 1) then [] else r :: pendingRound m rs := rfl

/-- In a history of ranks, the last one first, no round has more packets that repeat a rank
of the round than it has packets beyond `m`. -/
def Steady (m : ℕ) : List ℤ → Prop
  | [] => True
  | r :: rs =>
      Steady m rs ∧ (Closes m (rs.length + 1) →
        m + repeats (r :: pendingRound m rs) ≤ (r :: pendingRound m rs).length)

instance decidableSteady (m : ℕ) : (rs : List ℤ) → Decidable (Steady m rs)
  | [] => .isTrue trivial
  | _ :: rs =>
      have := decidableSteady m rs
      inferInstanceAs (Decidable (_ ∧ (_ → _)))

/-- The daemon, with the ranks it has taken packets of since its last summary. -/
def watchStep (cfg : Setup) (w : Server cfg.gsize × List ℤ) (e : Event) :
    Option (Server cfg.gsize × List ℤ) :=
  (serverStep cfg w.1 e).map fun s =>
    (s, if s.nSummary = w.1.nSummary then acceptedRanks [e] ++ w.2 else [])

/-- A summary finds a packet of every remote rank since the one before it. -/
def Complete (cfg : Setup) (w : Server cfg.gsize × List ℤ) (e : Event) : Prop :=
  ∀ s, serverStep cfg w.1 e = some s → s.nSummary ≠ w.1.nSummary →
    ∀ k : ℤ, 1 ≤ k → k < cfg.gsize → k ∈ acceptedRanks [e] ++ w.2

section Rounds

variable {cfg : Setup}

/-- Counting the packets and wrapping is wrapping the count of all. -/
theorem closes_succ {s : Server cfg.gsize} {n : ℕ} (hn : s.nDataCount = wrapInt32 n) {m : ℤ} :
    (wrapInt32 (s.nDataCount + 1)).tmod m = 0 ↔ Closes m (n + 1) := by
  rw [hn, wrapInt32_add_one, Closes, Nat.cast_succ]

/-- What is known of a run: the count, the ranks since the last summary, and that all
ranks are remote. -/
structure Watched (cfg : Setup) (es : List Event) (w : Server cfg.gsize × List ℤ) : Prop where
  nDataCount_eq : w.1.nDataCount = wrapInt32 (acceptedRanks es).length
  since_eq : w.2 = pendingRound (cfg.gsize - 1) (acceptedRanks es).reverse
  remote : ∀ r ∈ acceptedRanks es, 1 ≤ r ∧ r < cfg.gsize

theorem acceptedRanks_append (es fs : List Event) :
    acceptedRanks (es ++ fs) = acceptedRanks es ++ acceptedRanks fs :=
  List.filterMap_append

theorem acceptedRanks_of_none {e : Event} (h : e.data = none) : acceptedRanks [e] = [] := by
  simp [acceptedRanks, h]

theorem acceptedRanks_of_some {e : Event} {p : OoopsData} (h : e.data = some p) :
    acceptedRanks [e] = [p.rank] := by
  simp [acceptedRanks, h]

/-- In the history a new packet comes first. -/
theorem reverse_acceptedRanks_concat {es : List Event} {e : Event} {p : OoopsData}
    (h : e.data = some p) :
    (acceptedRanks (es ++ [e])).reverse = p.rank :: (acceptedRanks es).reverse := by
  rw [acceptedRanks_append, acceptedRanks_of_some h, List.reverse_append]
  rfl

/-- Below `2 ^ 31` packets the count is exact. -/
theorem closes_iff {m n : ℕ} (hn : n < 2 ^ 31) : Closes m n ↔ n % m = 0 := by
  rw [Closes, wrapInt32_eq_self (by omega) (by omega), ← Int.dvd_iff_tmod_eq_zero,
    Int.natCast_dvd_natCast, Nat.dvd_iff_mod_eq_zero]

/-- Below `2 ^ 31` packets a round is under way since the last multiple of `m`. -/
theorem length_pendingRound {m : ℕ} (hm : 0 < m) {rs : List ℤ} (hn : rs.length < 2 ^ 31) :
    (pendingRound m rs).length = rs.length % m := by
  induction rs with
  | nil => exact (Nat.zero_mod m).symm
  | cons r rs ih =>
      rw [List.length_cons] at hn ⊢
      have hmod : (rs.length + 1) % m = (rs.length % m + 1) % m := (Nat.mod_add_mod ..).symm
      have hlt : rs.length % m < m := Nat.mod_lt _ hm
      rw [pendingRound_cons]
      by_cases hc : (rs.length + 1) % m = 0
      · rw [if_pos ((closes_iff hn).mpr hc), hc, List.length_nil]
      · have hsucc : rs.length % m + 1 < m := by
          refine Nat.lt_of_le_of_ne hlt fun heq => hc ?_
          rw [hmod, heq, Nat.mod_self]
        rw [if_neg (fun h => hc ((closes_iff hn).mp h)), List.length_cons, ih (by omega), hmod,
          Nat.mod_eq_of_lt hsucc]

/-- Below `2 ^ 31` packets a round is `m` packets, and to be steady it has to be without
repetition. -/
theorem steady_cons_iff {m : ℕ} (hm : 0 < m) {r : ℤ} {rs : List ℤ}
    (hn : rs.length + 1 < 2 ^ 31) :
    Steady m (r :: rs) ↔
      Steady m rs ∧ ((rs.length + 1) % m = 0 → (r :: pendingRound m rs).Nodup) := by
  rw [Steady, closes_iff hn]
  refine and_congr_right fun _ => imp_congr_right fun hc => ?_
  have hlen : (r :: pendingRound m rs).length = m := by
    have hlt : rs.length % m < m := Nat.mod_lt _ hm
    have hmod : (rs.length % m + 1) % m = 0 := (Nat.mod_add_mod ..).trans hc
    rw [List.length_cons, length_pendingRound hm (by omega)]
    by_contra hne
    rw [Nat.mod_eq_of_lt (by omega)] at hmod
    omega
  rw [hlen, ← repeats_eq_zero_iff]
  omega

/-- Only packets of other ranks than `0` are taken. -/
theorem Event.data_rank_ne {e : Event} {p : OoopsData} (h : e.data = some p) : p.rank ≠ 0 := by
  cases e with
  | readable fd r =>
      cases r with
      | error => exact absurd h (by simp [Event.data, acceptedData])
      | bytes buf hbuf =>
          obtain ⟨-, hrank⟩ := Option.filter_eq_some_iff.mp h
          simpa using hrank
  | _ => exact absurd h (by simp [Event.data])

/-- An event that brings no packet makes no summary where there are clients. -/
theorem nSummary_of_none (hg : 2 ≤ cfg.gsize) {s s' : Server cfg.gsize} {e : Event}
    (h : serverStep cfg s e = some s') (he : e.data = none) :
    s'.nSummary = s.nSummary ∧ s'.nDataCount = s.nDataCount := by
  obtain ⟨p, hp, -⟩ | ⟨-, rfl⟩ | ⟨-, -, localData, fds, rfl, -⟩ := serverStep_cases h
  · exact absurd (he.symm.trans hp) (by simp)
  · rw [periodic_of_ne (by omega)]
    exact ⟨rfl, rfl⟩
  · exact ⟨rfl, rfl⟩

/-- A packet that is taken comes from a remote rank and is counted. -/
theorem serverStep_of_data {s s' : Server cfg.gsize} {e : Event}
    (h : serverStep cfg s e = some s') {p : OoopsData} (hp : e.data = some p) :
    (1 ≤ p.rank ∧ p.rank < cfg.gsize) ∧
      s'.nDataCount = wrapInt32 (s.nDataCount + 1) ∧
      s'.nSummary =
        if (wrapInt32 (s.nDataCount + 1)).tmod (cfg.gsize - 1) = 0 then s.nSummary + 1
        else s.nSummary := by
  obtain ⟨q, hq, htake⟩ | ⟨rfl, -⟩ | ⟨hnone, -⟩ := serverStep_cases h
  · obtain rfl := Option.some.inj (hp.symm.trans hq)
    obtain ⟨-, k, hk, rfl⟩ := takeData_eq_some_iff.mp htake
    have hne := Event.data_rank_ne hp
    exact ⟨⟨by omega, by omega⟩, afterData_nDataCount k _, afterData_nSummary k _⟩
  · exact absurd hp (by simp [Event.data])
  · exact absurd (hnone.symm.trans hp) (by simp)

/-- Nothing is known to have been sent at the start. -/
theorem watched_start (rows : Fin cfg.gsize → Counters) (localData : Counters) :
    Watched cfg [] (Server.start cfg rows localData, []) :=
  ⟨rfl, rfl, fun _ h => absurd h List.not_mem_nil⟩

/-- One more event. -/
theorem Watched.step (hg : 2 ≤ cfg.gsize) {es : List Event} {w w' : Server cfg.gsize × List ℤ}
    (hw : Watched cfg es w) {e : Event} (h : watchStep cfg w e = some w') :
    Watched cfg (es ++ [e]) w' := by
  obtain ⟨s, hs, rfl⟩ := Option.map_eq_some_iff.mp h
  obtain ⟨hcount, hsince, hremote⟩ := hw
  cases he : e.data with
  | none =>
      obtain ⟨hsum, hn⟩ := nSummary_of_none hg hs he
      constructor
      · rw [acceptedRanks_append, acceptedRanks_of_none he, List.append_nil]
        exact hn.trans hcount
      · rw [acceptedRanks_append, acceptedRanks_of_none he, List.append_nil]
        simpa only [if_pos hsum, List.nil_append] using hsince
      · rwa [acceptedRanks_append, acceptedRanks_of_none he, List.append_nil]
  | some p =>
      obtain ⟨hrank, hn, hsum⟩ := serverStep_of_data hs he
      simp only [closes_succ hcount] at hsum
      constructor
      · rw [acceptedRanks_append, acceptedRanks_of_some he, List.length_append,
          List.length_singleton, Nat.cast_succ, ← wrapInt32_add_one, ← hcount]
        exact hn
      · rw [reverse_acceptedRanks_concat he, pendingRound_cons, List.length_reverse, ← hsince,
          acceptedRanks_of_some he, List.singleton_append]
        by_cases hc : Closes (cfg.gsize - 1) ((acceptedRanks es).length + 1)
        · rw [if_pos hc] at hsum ⊢
          exact if_neg (by omega)
        · rw [if_neg hc] at hsum ⊢
          exact if_pos hsum
      · rw [acceptedRanks_append, acceptedRanks_of_some he]
        intro r hr
        rcases List.mem_append.mp hr with hr | hr
        · exact hremote r hr
        · exact List.mem_singleton.mp hr ▸ hrank

/-- Everything that is pending has been sent. -/
theorem mem_of_mem_pendingRound {m : ℤ} {rs : List ℤ} {k : ℤ} (h : k ∈ pendingRound m rs) :
    k ∈ rs := by
  induction rs with
  | nil => exact h
  | cons r rs ih =>
      rw [pendingRound] at h
      split_ifs at h
      · exact absurd h List.not_mem_nil
      · rcases List.mem_cons.mp h with rfl | h
        · exact List.mem_cons_self ..
        · exact List.mem_cons_of_mem r (ih h)

/-- Whether a summary finds its round complete is a matter of the repeats of the round. -/
theorem Watched.complete_iff (hg : 2 ≤ cfg.gsize) {es : List Event}
    {w : Server cfg.gsize × List ℤ} (hw : Watched cfg es w) {e : Event}
    {s : Server cfg.gsize} (h : serverStep cfg w.1 e = some s) {p : OoopsData}
    (hp : e.data = some p) :
    Complete cfg w e ↔
      (Closes ((cfg.gsize - 1 : ℕ) : ℤ) ((acceptedRanks es).length + 1) →
        (cfg.gsize - 1) + repeats (p.rank :: w.2) ≤ (p.rank :: w.2).length) := by
  obtain ⟨hrank, -, hsum⟩ := serverStep_of_data h hp
  simp only [closes_succ hw.nDataCount_eq] at hsum
  have hm : ((cfg.gsize - 1 : ℕ) : ℤ) = cfg.gsize - 1 := by omega
  have hcover : (∀ k : ℤ, 1 ≤ k → k < cfg.gsize → k ∈ p.rank :: w.2) ↔
      (cfg.gsize - 1) + repeats (p.rank :: w.2) ≤ (p.rank :: w.2).length := by
    have hsub : ∀ k ∈ p.rank :: w.2, k ∈ Finset.Ico (1 : ℤ) cfg.gsize := by
      intro k hk
      rw [Finset.mem_Ico]
      rcases List.mem_cons.mp hk with rfl | hk
      · exact hrank
      · rw [hw.since_eq] at hk
        exact hw.remote k (List.mem_reverse.mp (mem_of_mem_pendingRound hk))
    have hcard : (Finset.Ico (1 : ℤ) cfg.gsize).card = cfg.gsize - 1 := by
      rw [Int.card_Ico]
      omega
    rw [← hcard, ← forall_mem_iff_repeats hsub]
    simp only [Finset.mem_Ico, and_imp]
  rw [← hcover, hm, Complete, acceptedRanks_of_some hp, List.singleton_append]
  by_cases hc : Closes (cfg.gsize - 1) ((acceptedRanks es).length + 1)
  · rw [if_pos hc] at hsum
    refine ⟨fun hall _ => hall s h (by omega), fun hall s' hs' _ => hall hc⟩
  · rw [if_neg hc] at hsum
    refine ⟨fun _ hc' => absurd hc' hc, fun _ s' hs' hne => ?_⟩
    obtain rfl := Option.some.inj (h.symm.trans hs')
    exact absurd hsum hne

/-- What is known holds in every run. -/
theorem watched_of_runSteps (hg : 2 ≤ cfg.gsize) {rows : Fin cfg.gsize → Counters}
    {localData : Counters} {es : List Event} {w : Server cfg.gsize × List ℤ}
    (h : runSteps (watchStep cfg) (Server.start cfg rows localData, []) es = some w) :
    Watched cfg es w :=
  history_of_runSteps (P := fun _ _ => True) (watched_start rows localData)
    (fun _ _ _ _ hw _ hs => hw.step hg hs) es w (along_of_forall (fun _ _ => trivial) _ _) h

/-- Watching does not change the run. -/
theorem exists_watch {s s' : Server cfg.gsize} {es : List Event}
    (h : runSteps (serverStep cfg) s es = some s') (since : List ℤ) :
    ∃ since', runSteps (watchStep cfg) (s, since) es = some (s', since') := by
  induction es generalizing s since with
  | nil => exact ⟨since, congrArg (fun s => some (s, since)) (Option.some.inj h)⟩
  | cons e es ih =>
      obtain ⟨m, hm, hrest⟩ := Option.bind_eq_some_iff.mp h
      have hwatch : watchStep cfg (s, since) e = some (m, _) := congrArg (Option.map _) hm
      obtain ⟨since', hrun⟩ := ih hrest _
      exact ⟨since', by rw [runSteps_cons, hwatch, Option.bind_some, hrun]⟩

/-- The count of the packets taken, in an `int`. -/
theorem nDataCount_of_runSteps (hg : 2 ≤ cfg.gsize) {rows : Fin cfg.gsize → Counters}
    {localData : Counters} {es : List Event} {s : Server cfg.gsize}
    (h : runSteps (serverStep cfg) (Server.start cfg rows localData) es = some s) :
    s.nDataCount = wrapInt32 (acceptedRanks es).length := by
  obtain ⟨since, hwatch⟩ := exists_watch h []
  exact (watched_of_runSteps hg hwatch).nDataCount_eq

/-- Event by event, a summary with an incomplete round is a round with too many repeats. -/
theorem along_complete_iff (hg : 2 ≤ cfg.gsize) {rows : Fin cfg.gsize → Counters}
    {localData : Counters} {es : List Event} {w : Server cfg.gsize × List ℤ}
    (hrun : runSteps (watchStep cfg) (Server.start cfg rows localData, []) es = some w) :
    Along (watchStep cfg) (Complete cfg) (Server.start cfg rows localData, []) es ↔
      Steady (cfg.gsize - 1) (acceptedRanks es).reverse := by
  have hm : ((cfg.gsize - 1 : ℕ) : ℤ) = cfg.gsize - 1 := by omega
  induction es using List.reverseRecOn generalizing w with
  | nil => exact ⟨fun _ => trivial, fun _ => trivial⟩
  | append_singleton es e ih =>
      obtain ⟨w₁, hrun₁, hstep⟩ := runSteps_concat_eq_some.mp hrun
      obtain ⟨s, hs, -⟩ := Option.map_eq_some_iff.mp hstep
      have hw := watched_of_runSteps hg hrun₁
      refine (along_concat_iff hrun₁).trans ((and_congr_left' (ih hrun₁)).trans ?_)
      cases he : e.data with
      | none =>
          have hcomplete : Complete cfg w₁ e := fun s' hs' hne =>
            absurd (nSummary_of_none hg hs' he).1 hne
          rw [acceptedRanks_append, acceptedRanks_of_none he, List.append_nil]
          exact and_iff_left hcomplete
      | some p =>
          rw [hw.complete_iff hg hs he, reverse_acceptedRanks_concat he, Steady,
            List.length_reverse, hm, ← hw.since_eq]

/-- **Rounds.** Every summary of a run finds a packet of each remote rank since the one
before it exactly if no round has more repeats than it has packets too many. -/
theorem complete_iff_steady (hg : 2 ≤ cfg.gsize) {rows : Fin cfg.gsize → Counters}
    {localData : Counters} {es : List Event} {s : Server cfg.gsize}
    (hrun : runSteps (serverStep cfg) (Server.start cfg rows localData) es = some s) :
    Along (watchStep cfg) (Complete cfg) (Server.start cfg rows localData, []) es ↔
      Steady (cfg.gsize - 1) (acceptedRanks es).reverse := by
  obtain ⟨since, hwatch⟩ := exists_watch hrun []
  exact along_complete_iff hg hwatch

end Rounds

section Sample

/-- A packet of a client that is read at once. -/
def packetEvent (fd : ℕ) (rank : ℤ) (counter : Counters) : Event :=
  .readable fd (readWaiting 1024 (OoopsData.ofClient rank counter).toBytes)

/-- Both remote hosts have reported when the first summary is made. -/
theorem complete_iff_steady_round :
    Along (watchStep sampleSetup) (Complete sampleSetup)
      (Server.start sampleSetup (fun _ _ => 9) fun _ => 0, [])
      [packetEvent 5 1 fun _ => 7, packetEvent 6 2 fun _ => 8] := by
  have hrun : (runSteps (serverStep sampleSetup)
      (Server.start sampleSetup (fun _ _ => 9) fun _ => 0)
      [packetEvent 5 1 fun _ => 7, packetEvent 6 2 fun _ => 8]).isSome := by
    decide +kernel
  obtain ⟨s, hs⟩ := Option.isSome_iff_exists.mp hrun
  have hg : 2 ≤ sampleSetup.gsize := by decide
  exact (complete_iff_steady hg hs).mpr (by decide +kernel)

/-- The client of `n1` is early with its second packet: the summary it makes adds up the
row of `n2`, which nothing has been written to. -/
theorem early_packet_starves :
    ¬Along (watchStep sampleSetup) (Complete sampleSetup)
        (Server.start sampleSetup (fun _ _ => 9) fun _ => 0, [])
        [packetEvent 5 1 fun _ => 7, packetEvent 5 1 fun _ => 7] ∧
      (runSteps (serverStep sampleSetup)
        (Server.start sampleSetup (fun _ _ => 9) fun _ => 0)
        [packetEvent 5 1 fun _ => 7, packetEvent 5 1 fun _ => 7]).map
          (fun s => (s.nSummary, s.counterSum (counterIdx 0 0))) = some (1, 0 + (7 + 9)) := by
  have hrun : ((runSteps (watchStep sampleSetup)
      (Server.start sampleSetup (fun _ _ => 9) fun _ => 0, [])
      [packetEvent 5 1 fun _ => 7, packetEvent 5 1 fun _ => 7])).isSome := by
    decide +kernel
  obtain ⟨w, hw⟩ := Option.isSome_iff_exists.mp hrun
  have hg : 2 ≤ sampleSetup.gsize := by decide
  exact ⟨(not_congr (along_complete_iff hg hw)).mpr (by decide +kernel), by decide +kernel⟩

end Sample

end Ooops
