import Mathlib.Algebra.BigOperators.Fin
import Ooops.RateLimit

/-!
# No More Delay than the Limit Asks For

The rate limit says that calls are not too fast. This module says that they are not slower than
that: a call costs a program no more than the longer one of the time that it takes by itself and
`1 / F` seconds, `F` being the maximum frequency of its kind on its server, and a microsecond and
the imprecision of the sleep. This holds of all calls of a program together, in whatever order it
makes calls of both kinds on all servers.

A call sleeps until `3 / F` seconds after the call three before it, of which it has been the third
to cost `1 / F` seconds. The costs that a program has come to at its calls of a kind are therefore
at least `1 / F` apart (`Spaced`), and none of its stamps is ahead of the cost at that call
(`Budgeted`).

* `account_time`: how long the accounting of a call takes.
* `Budget.step`: the invariant is kept by every action of a process.
* `run_time_le`: the time of a whole run.
-/

open Basis

namespace Ooops

/-! ### Spaced numbers -/

/-- Numbers, the latest first, that are at most `β` and at least `gap` apart. -/
def Spaced (gap : ℚ) : ℚ → List ℚ → Prop
  | _, [] => True
  | β, b :: bs => b ≤ β ∧ Spaced gap (b - gap) bs

theorem Spaced.mono {gap β β' : ℚ} {bs : List ℚ} (h : Spaced gap β bs) (hle : β ≤ β') :
    Spaced gap β' bs := by
  cases bs with
  | nil => trivial
  | cons b bs => exact ⟨h.1.trans hle, h.2⟩

/-- A number `k` places back is `k` times the distance lower. -/
theorem Spaced.getElem_le {gap β : ℚ} {bs : List ℚ} (h : Spaced gap β bs) {k : ℕ}
    (hk : k < bs.length) : bs[k] + k * gap ≤ β := by
  induction bs generalizing β k with
  | nil => exact absurd hk (Nat.not_lt_zero k)
  | cons b bs ih =>
      obtain ⟨hb, hrest⟩ := h
      cases k with
      | zero => simpa using hb
      | succ k =>
          have hprev := ih hrest (Nat.lt_of_succ_lt_succ hk)
          rw [List.getElem_cons_succ]
          push_cast
          linarith

/-! ### The time of one call -/

/-- The cast of a time is not longer, or the time is negative. -/
theorem truncLong_le (x : ℚ) : (truncLong x : ℚ) ≤ max x 0 := by
  rw [truncLong]
  split_ifs with hx
  · exact (Int.floor_le x).trans (le_max_left _ _)
  · have hceil : ⌈x⌉ ≤ 0 := Int.ceil_le.mpr (by exact_mod_cast (not_le.mp hx).le)
    exact le_max_of_le_right (by exact_mod_cast hceil)

/-- A sleep is not longer than asked for, but for the excess. -/
theorem nanosleep_le (now : ℚ) (ns : ℤ) (late : ℚ≥0) :
    nanosleep now (Timespec.ofNs ns) late ≤ now + max ((ns : ℚ) * 0.000000001) 0 + late := by
  have hlate : (0 : ℚ) ≤ late := late.2
  rw [nanosleep, Timespec.toSec_ofNs]
  split
  · have hmax := le_max_left ((ns : ℚ) * 0.000000001) 0
    linarith
  · have hmax := le_max_right ((ns : ℚ) * 0.000000001) 0
    linarith

/-- A call that sleeps wakes up `3 / freq` seconds after the stamp `prev`, or does not sleep. -/
theorem restamp_early (now freq : ℚ) (prev : Timeval) (late : ℚ≥0) :
    nanosleep now (Timespec.ofNs (truncLong
        (1000000000 * (3 / freq - (gettimeofday now).since prev)))) late ≤
      max now (prev.toSec + 3 / freq + 0.000001) + late := by
  rw [Timeval.since_eq]
  set d := 3 / freq - ((gettimeofday now).toSec - prev.toSec) with hd
  have hstamp := now_lt_stamp_add now
  have hsleep := nanosleep_le now (truncLong (1000000000 * d)) late
  have hcut := truncLong_le (1000000000 * d)
  have hnow := le_max_left now (prev.toSec + 3 / freq + 0.000001)
  have hwake := le_max_right now (prev.toSec + 3 / freq + 0.000001)
  rcases max_cases ((truncLong (1000000000 * d) : ℚ) * 0.000000001) 0 with ⟨hmax, -⟩ | ⟨hmax, -⟩
  · rw [hmax] at hsleep
    rcases max_cases (1000000000 * d) 0 with ⟨hmax', -⟩ | ⟨hmax', -⟩
    · rw [hmax'] at hcut
      linarith
    · rw [hmax'] at hcut
      linarith
  · rw [hmax] at hsleep
    linarith

/-- **The time of one call.** It ends where it would without the throttle, or `3 / freq` seconds
after the stamp three slots before its own, and leaves a stamp that is not ahead. -/
theorem account_time (op : Op) (i : FsIdx) (v : View) (e : CallEnv) :
    ∃ S, Accounted op i v (account op i v e) S ∧ S.toSec ≤ (account op i v e).now ∧
      ((account op i v e).now ≤ e.stampTime v.now ∨ 3 < (v.shm op i).count ∧
        (account op i v e).now ≤ max (e.stampTime v.now)
          (((v.shm op i).tList (fastMod ((v.shm op i).count - 3))).toSec +
            3 / v.proc.maxFreq op i + 0.000001) + e.late + e.lagAfter) := by
  have henter := accounted_enter op i v e
  have hnow : (enter op i v e).now = e.stampTime v.now := rfl
  have hstamp := stamp_le_now (e.stampTime v.now)
  have hsince := sleepTime_enter op i v e
  rw [account]
  dsimp only
  rw [hsince]
  split
  case isFalse => exact ⟨_, henter, hstamp, .inl hnow.le⟩
  case isTrue hcount =>
    split
    · have hwake := restamp_early (e.stampTime v.now) (v.proc.maxFreq op i)
        ((v.shm op i).tList (fastMod ((v.shm op i).count - 3))) e.late
      refine ⟨_, henter.setSleep.delayCall e, stamp_le_now _, .inr ⟨hcount, ?_⟩⟩
      simp only [delayCall, Shm.set_self, hnow]
      linarith
    · exact ⟨_, henter.setSleep, hstamp, .inl hnow.le⟩

/-! ### The invariant -/

/-- The ledger of one kind of call on one server, when the calls of the kind have come to the costs
`bs` and everything to `β`: there have been as many calls, and the stamps of the last three are
not ahead of the cost. -/
structure Budgeted (gap β : ℚ) (l : Ledger) (bs : List ℚ) : Prop where
  count : l.count = wrapInt32 bs.length
  spaced : Spaced gap β bs
  ring : ∀ k (h : k < bs.length), k < 3 →
    (l.tList (fastMod (l.count - 1 - k))).toSec ≤ bs[k]

namespace Budgeted

variable {gap β β' : ℚ} {l l' : Ledger} {bs : List ℚ}

/-- Nothing has been called in a zero-filled segment. -/
theorem zero (gap β : ℚ) : Budgeted gap β Ledger.zero [] :=
  ⟨rfl, trivial, fun _ h => absurd h (Nat.not_lt_zero _)⟩

theorem mono (h : Budgeted gap β l bs) (hle : β ≤ β') : Budgeted gap β' l bs :=
  ⟨h.count, h.spaced.mono hle, h.ring⟩

/-- From the fourth call on, the stamp three slots back is at most the cost so far, less two
distances. -/
theorem prev_le (h : Budgeted gap β l bs) (hcount : 3 < l.count) :
    (l.tList (fastMod (l.count - 3))).toSec + 2 * gap ≤ β := by
  have hlen : 2 < bs.length := by
    by_contra hshort
    rw [h.count, wrapInt32_eq_self] at hcount <;> omega
  have hring := h.ring 2 hlen (by norm_num)
  have hspaced := h.spaced.getElem_le hlen
  have hslot : l.count - 1 - (2 : ℕ) = l.count - 3 := by
    push_cast
    ring
  rw [hslot] at hring
  push_cast at hspaced
  linarith

/-- Slots with the same remainder are the same. -/
theorem fastMod_congr {a b : ℤ} (h : a % 512 = b % 512) : fastMod a = fastMod b := by
  have ha := fastMod_val a
  have hb := fastMod_val b
  exact Fin.ext (by omega)

/-- One more call. -/
theorem cons (h : Budgeted gap β l bs) (hβ : β + gap ≤ β') {S : Timeval} (hS : S.toSec ≤ β')
    (hcount : l'.count = wrapInt32 (l.count + 1))
    (htList : l'.tList = Function.update l.tList (fastMod l.count) S) :
    Budgeted gap β' l' (β' :: bs) where
  count := by
    rw [hcount, h.count, wrapInt32_add_one, List.length_cons]
    push_cast
    rfl
  spaced := ⟨le_refl β', h.spaced.mono (by linarith)⟩
  ring := by
    intro k hk hk3
    have hmod := wrapInt32_emod_512 (l.count + 1)
    rw [htList, hcount]
    cases k with
    | zero =>
        have hslot : fastMod (wrapInt32 (l.count + 1) - 1 - (0 : ℕ)) = fastMod l.count :=
          fastMod_congr (by omega)
        rw [hslot, Function.update_self]
        exact hS
    | succ k =>
        have hslot : fastMod (wrapInt32 (l.count + 1) - 1 - (k + 1 : ℕ)) =
          fastMod (l.count - 1 - k) := fastMod_congr (by omega)
        have hne : fastMod (l.count - 1 - k) ≠ fastMod l.count := by
          intro heq
          have hold := fastMod_val (l.count - 1 - k)
          have hnew := fastMod_val l.count
          rw [heq] at hold
          omega
        rw [hslot, Function.update_of_ne hne]
        exact h.ring k (Nat.lt_of_succ_lt_succ hk) (by omega)

end Budgeted

/-- The frequencies `F` of all servers are fixed, in the process and in the block. -/
structure Frequencies (F : Op → FsIdx → ℚ) (v : View) : Prop where
  own : ∀ op i, v.proc.maxFreq op i = F op i
  shared : ∀ op i, v.param.fsTagLen i ≠ 0 → v.param.maxFreqShare op i = F op i

theorem Frequencies.prepared {F : Op → FsIdx → ℚ} {v w : View} (h : Frequencies F v)
    (hw : Prepared v w) : Frequencies F w where
  own := by
    intro op i
    rcases hw.settings with hs | hs
    · rw [maxFreq_of_settings hs, h.own]
    · rw [maxFreq_of_settings hs, updateParameters]
      split
      · exact h.own op i
      · dsimp only
        split
        · exact h.own op i
        · exact h.shared op i ‹_›
  shared := by
    rw [hw.param]
    exact h.shared

/-- A process whose actions have come to the cost `β`, and those of a kind to `bs`. -/
structure Budget (F : Op → FsIdx → ℚ) (v : View) (bs : Op → FsIdx → List ℚ) (β : ℚ) :
    Prop where
  freq : Frequencies F v
  now_le : v.now ≤ β
  ledger : ∀ op i, Budgeted (1 / F op i) β (v.shm op i) (bs op i)

/-! ### Runs -/

/-- What a call on server `i` costs: the longer one of the time before its stamp and `1 / F`
seconds, the excess of the sleep, the time before the second stamp, and a microsecond. -/
def callCost (F : Op → FsIdx → ℚ) (op : Op) (i : FsIdx) (e : CallEnv) : ℚ :=
  max (e.lag : ℚ) (1 / F op i) + e.late + e.lagAfter + 0.000001

/-- What an action costs. A call is accounted for where it advances the counter. -/
def actionCost (F : Op → FsIdx → ℚ) (v : View) : ProcAction → ℚ
  | .chdir _ => 0
  | .call h e =>
      ∑ i, if ((h.run v e).shm h.op i).count = (v.shm h.op i).count then 0
        else callCost F h.op i e

/-- The view after some actions. -/
def runActions : View → List ProcAction → View := List.foldl fun v a => a.run v

/-- What they cost. -/
def runCost (F : Op → FsIdx → ℚ) : View → List ProcAction → ℚ
  | _, [] => 0
  | v, a :: as => actionCost F v a + runCost F (a.run v) as

variable {F : Op → FsIdx → ℚ} {v : View} {bs : Op → FsIdx → List ℚ} {β : ℚ}

theorem Budget.mono {β' : ℚ} (h : Budget F v bs β) (hle : β ≤ β') : Budget F v bs β' :=
  ⟨h.freq, h.now_le.trans hle, fun op i => (h.ledger op i).mono hle⟩

/-- A call that is accounted for. -/
theorem Budget.account (hF : ∀ op i, 0 ≤ F op i) (h : Budget F v bs β) (op : Op) (i : FsIdx)
    (e : CallEnv) :
    ∃ bs', Budget F (account op i v e) bs' (β + callCost F op i e) := by
  obtain ⟨S, hacc, hS, htime⟩ := account_time op i v e
  have hlag : (0 : ℚ) ≤ e.lag := e.lag.2
  have hlate : (0 : ℚ) ≤ e.late := e.late.2
  have hafter : (0 : ℚ) ≤ e.lagAfter := e.lagAfter.2
  have hlong := le_max_left (e.lag : ℚ) (1 / F op i)
  have hgap := le_max_right (e.lag : ℚ) (1 / F op i)
  have hnow : (Ooops.account op i v e).now ≤ β + callCost F op i e := by
    have hstart := h.now_le
    rw [CallEnv.stampTime] at htime
    rw [callCost]
    rcases htime with hsoon | ⟨hcount, hsleep⟩
    · linarith
    · have hprev := (h.ledger op i).prev_le hcount
      rw [h.freq.own] at hsleep
      have hthree : 3 / F op i = 3 * (1 / F op i) := by ring
      rw [hthree] at hsleep
      rcases max_cases (v.now + e.lag) (((v.shm op i).tList
        (fastMod ((v.shm op i).count - 3))).toSec + 3 * (1 / F op i) + 0.000001)
        with ⟨hmax, -⟩ | ⟨hmax, -⟩
      · rw [hmax] at hsleep
        linarith
      · rw [hmax] at hsleep
        linarith
  have hpos : β + 1 / F op i ≤ β + callCost F op i e := by
    rw [callCost]
    linarith
  have hle : β ≤ β + callCost F op i e := by
    have hnonneg : 0 ≤ 1 / F op i := one_div_nonneg.mpr (hF op i)
    linarith
  refine ⟨Function.update bs op (Function.update (bs op) i ((β + callCost F op i e) :: bs op i)),
    ⟨fun op' j => ?_, hacc.param ▸ h.freq.shared⟩, hnow, fun op' j => ?_⟩
  · rw [maxFreq_of_settings hacc.settings, h.freq.own]
  · by_cases hij : op' = op ∧ j = i
    · obtain ⟨rfl, rfl⟩ := hij
      rw [Function.update_self, Function.update_self]
      exact (h.ledger op' j).cons hpos (hS.trans hnow) hacc.count hacc.tList
    · rw [hacc.others op' j hij]
      have hsame : Function.update bs op (Function.update (bs op) i
          ((β + callCost F op i e) :: bs op i)) op' j = bs op' j := by
        by_cases hop : op' = op
        · subst hop
          rw [Function.update_self, Function.update_of_ne fun hj => hij ⟨rfl, hj⟩]
        · rw [Function.update_of_ne hop]
      rw [hsame]
      exact (h.ledger op' j).mono hle

/-- The cost of a call that is accounted for on one server. -/
theorem actionCost_call {h : Hook} {e : CallEnv} {S : Timeval} {i : FsIdx} {u : View}
    (hshm : u.shm = v.shm) (hrun : h.run v e = account h.op i u e)
    (hacc : Accounted h.op i u (account h.op i u e) S) :
    actionCost F v (.call h e) = callCost F h.op i e := by
  have hadvanced : ((h.run v e).shm h.op i).count ≠ (v.shm h.op i).count := by
    rw [hrun, hacc.count, hshm, wrapInt32]
    intro heq
    have := Int.dvd_self_sub_of_bmod_eq heq
    omega
  rw [actionCost, Finset.sum_eq_single_of_mem i (Finset.mem_univ i), if_neg hadvanced]
  intro j _ hj
  rw [if_pos]
  rw [hrun, hacc.others h.op j fun heq => hj heq.2, hshm]

/-- **One action** costs what it costs. -/
theorem Budget.step (hF : ∀ op i, 0 ≤ F op i) (h : Budget F v bs β) (a : ProcAction) :
    ∃ bs', Budget F (a.run v) bs' (β + actionCost F v a) := by
  cases a with
  | chdir dir =>
      refine ⟨bs, ⟨h.freq.own, h.freq.shared⟩, ?_, ?_⟩
      · rw [actionCost, add_zero]
        exact h.now_le
      · rw [actionCost, add_zero]
        exact h.ledger
  | call k e =>
      obtain ⟨u, hprep, hu⟩ := k.run_cases v e
      have hbudget : Budget F u bs β :=
        ⟨h.freq.prepared hprep, hprep.now ▸ h.now_le, hprep.shm ▸ h.ledger⟩
      rw [ProcAction.run]
      rcases hu with hu | ⟨i, hu⟩
      · have hzero : actionCost F v (.call k e) = 0 := by
          rw [actionCost]
          refine Finset.sum_eq_zero fun i _ => if_pos ?_
          rw [hu, hprep.shm]
        rw [hzero, add_zero, hu]
        exact ⟨bs, hbudget⟩
      · obtain ⟨S, hacc, -⟩ := account_time k.op i u e
        rw [actionCost_call hprep.shm hu hacc, hu]
        exact hbudget.account hF k.op i e

/-- A run costs what its actions cost. -/
theorem Budget.run (hF : ∀ op i, 0 ≤ F op i) (h : Budget F v bs β) (as : List ProcAction) :
    ∃ bs', Budget F (runActions v as) bs' (β + runCost F v as) := by
  induction as generalizing v bs β with
  | nil =>
      rw [runCost, add_zero]
      exact ⟨bs, h⟩
  | cons a as ih =>
      obtain ⟨bs', hnext⟩ := h.step hF a
      rw [runCost, ← add_assoc]
      exact ih hnext

/-- **No more delay than the limit asks for.** In every run of one process over a zero-filled
segment, with the maximum frequencies fixed, the time that has passed is at most the sum, over
all calls on tracked file systems, of the longer one of the time of the call and `1 / F` seconds,
with the imprecision of the sleep and a microsecond for each. -/
theorem run_time_le (hF : ∀ op i, 0 ≤ F op i) (hfreq : Frequencies F v)
    (hz : v.shm = Shm.zero) (as : List ProcAction) :
    (runActions v as).now ≤ v.now + runCost F v as := by
  have hstart : Budget F v (fun _ _ => []) v.now := by
    refine ⟨hfreq, le_refl v.now, fun op i => ?_⟩
    rw [hz]
    exact Budgeted.zero _ _
  obtain ⟨bs, hend⟩ := hstart.run hF as
  exact hend.now_le

/-- Five calls in a row take no more than five milliseconds and five microseconds. -/
theorem run_time_le_five_opens :
    (runActions scratchView (List.replicate 5 scratchOpen)).now ≤
      1700000000 + (5 * (1 / 1000) + 5 * 0.000001) := by
  have hcost : runCost scratchProc.maxFreq scratchView (List.replicate 5 scratchOpen) =
      5 * (1 / 1000) + 5 * 0.000001 := by decide +kernel
  rw [← hcost]
  refine run_time_le (fun op i => ?_) ⟨fun _ _ => rfl, fun _ _ h => absurd rfl h⟩ rfl _
  change (0 : ℚ) ≤ if i = 0 then 1000 else 60000
  split_ifs <;> norm_num

end Ooops
