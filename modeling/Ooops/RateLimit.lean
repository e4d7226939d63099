import Mathlib.Algebra.Order.Ring.Rat
import Mathlib.Data.List.Induction
import Ooops.Throttle

/-!
# The Rate Limit

Three calls of one kind on one server may not come faster than three per `3 / F` seconds,
`F` being the maximum frequency of the server: the stamp of a call is at least `3 / F`
seconds, less two microseconds, after the stamp of the call three before it. The two
microseconds pay for the stamp that `gettimeofday` cuts to whole microseconds and for the
sleep that the cast cuts to whole nanoseconds.

The bound is a fact about one call (`account_spec`), kept for a whole run by an invariant
over the ring of stamps (`Paced`): a slot is written again only 512 calls later, so the
stamp that a call is compared with is the final stamp of the call three before it.

## Main results

* `account_spec`: what the accounting of one call does to the ledgers.
* `Paced.step`: the invariant is kept by every hooked call.
* `rate_limit`: the distance of the stamps of calls `n` and `n + 3 * m`.
-/

open Basis

namespace Ooops

/-! ### One call -/

/-- The stamp after a sleep is late enough: the clock has moved by the computed time, less
a nanosecond for the cast and a microsecond for the stamp; a computed time that is negative
is refused by `nanosleep`, and then the call came late enough already. -/
theorem restamp_late (now freq : ℚ) (prev : Timeval) (late lagAfter : ℚ≥0) :
    let d := 3 / freq - (gettimeofday now).since prev
    3 / freq ≤ (gettimeofday (nanosleep now
      (Timespec.ofNs (truncLong (1000000000 * d))) late + lagAfter)).toSec
        - prev.toSec + 0.000002 := by
  intro d
  have hd : d = 3 / freq - ((gettimeofday now).toSec - prev.toSec) := by
    rw [← Timeval.since_eq]
  set ns := truncLong (1000000000 * d) with hns
  set after := nanosleep now (Timespec.ofNs ns) late + lagAfter with hafter
  have hlag : (0 : ℚ) ≤ lagAfter := lagAfter.2
  have hstamp := now_lt_stamp_add after
  have hcut := lt_truncLong_add_one (1000000000 * d)
  rw [← hns] at hcut
  rcases le_or_gt 0 ns with hpos | hneg
  · have hslept := add_le_nanosleep now hpos late
    have hcur := stamp_le_now now
    linarith
  · have hmono : (gettimeofday now).toSec ≤ (gettimeofday after).toSec :=
      stamp_mono (by
        have hslept : now ≤ nanosleep now (Timespec.ofNs ns) late := le_nanosleep now late
        linarith)
    have hneg' : (ns : ℚ) ≤ -1 := by exact_mod_cast (by omega : ns ≤ -1)
    linarith

/-- A call that is not put to sleep came late enough. -/
theorem unslept_late {freq : ℚ} {cur prev : Timeval}
    (h : ¬3 / freq - cur.since prev > 0.0000001) :
    3 / freq ≤ cur.toSec - prev.toSec + 0.000002 := by
  rw [Timeval.since_eq] at h
  linarith

/-- Three calls apart, two calls have different slots. -/
theorem fastMod_sub_three_ne (n : ℤ) : fastMod (n - 3) ≠ fastMod n := by
  intro h
  have h₁ := fastMod_val (n - 3)
  have h₂ := fastMod_val n
  rw [h] at h₁
  omega

/-- What the accounting of a call has done to the shared ledgers: the counter of its kind
and server has advanced, the slot of the call number holds `S`, and nothing else has
changed but the delay counter, the computed sleep and the thread numbers. -/
structure Accounted (op : Op) (i : FsIdx) (v w : View) (S : Timeval) : Prop where
  count : (w.shm op i).count = wrapInt32 ((v.shm op i).count + 1)
  tList : (w.shm op i).tList =
    Function.update (v.shm op i).tList (fastMod (v.shm op i).count) S
  others : ∀ op' i', ¬(op' = op ∧ i' = i) → w.shm op' i' = v.shm op' i'
  param : w.param = v.param
  settings : w.proc.settings = v.proc.settings

theorem settings_withTid (p : Proc) (t : ℤ) : (p.withTid t).settings = p.settings := by
  rw [Proc.withTid]
  split <;> rfl

theorem accounted_enter (op : Op) (i : FsIdx) (v : View) (e : CallEnv) :
    Accounted op i v (enter op i v e) (gettimeofday (e.stampTime v.now)) where
  count := by simp only [enter, Shm.set_self, Ledger.stamp]
  tList := by simp only [enter, Shm.set_self, Ledger.stamp]
  others := fun op' i' h => by simp only [enter, Shm.set_of_ne h]
  param := rfl
  settings := settings_withTid v.proc e.gettid

/-- Computing the sleep leaves counter and stamps alone. -/
theorem Accounted.setSleep {op : Op} {i : FsIdx} {v w : View} {S : Timeval} {d : ℚ}
    (h : Accounted op i v w S) :
    Accounted op i v
      { w with shm := w.shm.set op i { w.shm op i with dTToSleep := d } } S where
  count := by simp only [Shm.set_self, h.count]
  tList := by simp only [Shm.set_self, h.tList]
  others := fun op' i' hne => by simp only [Shm.set_of_ne hne, h.others op' i' hne]
  param := h.param
  settings := h.settings

/-- Sleeping replaces the stamp of the call by a later one. -/
theorem Accounted.delayCall {op : Op} {i : FsIdx} {v w : View} {S : Timeval} (e : CallEnv)
    (h : Accounted op i v w S) :
    Accounted op i v (delayCall op i w e (v.shm op i).count)
      (gettimeofday (nanosleep w.now (Timespec.ofNs
        (truncLong (1000000000 * (w.shm op i).dTToSleep))) e.late + e.lagAfter)) where
  count := by simp only [Ooops.delayCall, Shm.set_self, Ledger.stamp, h.count]
  tList := by
    simp only [Ooops.delayCall, Shm.set_self, Ledger.stamp, h.tList, Function.update_idem]
  others := fun op' i' hne => by
    simp only [Ooops.delayCall, Shm.set_of_ne hne, h.others op' i' hne]
  param := h.param
  settings := h.settings

/-- The sleep that the accounting computes is that of the stamp of the call and of the stamp
three slots before its own. -/
theorem sleepTime_enter (op : Op) (i : FsIdx) (v : View) (e : CallEnv) :
    sleepTime ((enter op i v e).proc.maxFreq op i) ((enter op i v e).shm op i)
        (v.shm op i).count =
      3 / v.proc.maxFreq op i - (gettimeofday (e.stampTime v.now)).since
        ((v.shm op i).tList (fastMod ((v.shm op i).count - 3))) := by
  have henter := accounted_enter op i v e
  rw [maxFreq_of_settings henter.settings, sleepTime, henter.tList, Function.update_self,
    Function.update_of_ne (fastMod_sub_three_ne _)]

/-- **The accounting of one call.** It takes the next number, and from the fourth call on
the stamp it leaves is at least `3 / freq` seconds, less two microseconds, after the stamp
three slots before its own. -/
theorem account_spec (op : Op) (i : FsIdx) (v : View) (e : CallEnv) :
    ∃ S, Accounted op i v (account op i v e) S ∧
      ((v.shm op i).count > 3 → 3 / v.proc.maxFreq op i ≤
        S.toSec - ((v.shm op i).tList (fastMod ((v.shm op i).count - 3))).toSec
          + 0.000002) := by
  have henter := accounted_enter op i v e
  set n := (v.shm op i).count with hn
  set cur := gettimeofday (e.stampTime v.now) with hcur
  set prev := (v.shm op i).tList (fastMod (n - 3)) with hprev
  have hsince := sleepTime_enter op i v e
  rw [account]
  dsimp only
  rw [hsince]
  split
  case isFalse hle => exact ⟨cur, henter, fun h => absurd h hle⟩
  split
  · refine ⟨_, henter.setSleep.delayCall e, fun _ => ?_⟩
    simp only [Shm.set_self]
    exact restamp_late (e.stampTime v.now) (v.proc.maxFreq op i) prev e.late e.lagAfter
  · rename_i hshort
    refine ⟨cur, henter.setSleep, fun _ => unslept_late ?_⟩
    exact fun h => hshort (.inr h)

/-! ### Runs -/

/-- A tracked call in the history of a run: the call number it read and the time stamp it
left in its slot. -/
structure CallRecord where
  nCall : ℤ
  stamp : Timeval
  deriving DecidableEq, Repr

/-- Add a call to the history of one kind and server. A call is tracked there exactly if
it advanced the counter. -/
def recordCall (op : Op) (i : FsIdx) (v w : View) (T : List CallRecord) : List CallRecord :=
  if (w.shm op i).count = (v.shm op i).count then T
  else T ++ [⟨(v.shm op i).count, (w.shm op i).tList (fastMod (v.shm op i).count)⟩]

/-- One action of the process, with the history of `op` on server `i`. -/
def callStep (op : Op) (i : FsIdx) (s : View × List CallRecord) (a : ProcAction) :
    View × List CallRecord :=
  (a.run s.1, recordCall op i s.1 (a.run s.1) s.2)

/-- The actions of a process in order, with the history of `op` on server `i`. -/
def runCalls (op : Op) (i : FsIdx) (v : View) (as : List ProcAction) :
    View × List CallRecord :=
  as.foldl (callStep op i) (v, [])

/-- The maximum frequency of `op` on server `i` is `F` and stays so: in the process, and
in the block if the process takes its values over again. -/
structure FixedFreq (op : Op) (i : FsIdx) (F : ℚ) (v : View) : Prop where
  pos : 0 < F
  own : v.proc.maxFreq op i = F
  shared : v.param.fsTagLen i ≠ 0 → v.param.maxFreqShare op i = F

/-- Looking at paths and taking over parameters keep the frequency. -/
theorem FixedFreq.prepared {op : Op} {i : FsIdx} {F : ℚ} {v w : View}
    (h : FixedFreq op i F v) (hw : Prepared v w) : FixedFreq op i F w where
  pos := h.pos
  own := by
    rcases hw.settings with hs | hs
    · rw [maxFreq_of_settings hs, h.own]
    · rw [maxFreq_of_settings hs]
      rw [updateParameters]
      split
      · exact h.own
      · dsimp only
        split
        · exact h.own
        · exact h.shared ‹_›
  shared := by
    rw [hw.param]
    exact h.shared

/-- The invariant of a run: the counter has counted the history, the slots of the last 512
calls hold their final stamps, and calls three apart keep their distance. -/
structure Paced (op : Op) (i : FsIdx) (F : ℚ) (v : View) (T : List CallRecord) : Prop where
  freq : FixedFreq op i F v
  count : (v.shm op i).count = wrapInt32 T.length
  number : ∀ k (h : k < T.length), T[k].nCall = wrapInt32 k
  ring : ∀ k (h : k < T.length), T.length ≤ k + 512 →
    (v.shm op i).tList (fastMod (wrapInt32 k)) = T[k].stamp
  gap : ∀ k (h : k + 3 < T.length), 1 ≤ k → k + 3 < 2 ^ 31 →
    3 / F - 0.000002 ≤ T[k + 3].stamp.toSec - T[k].stamp.toSec

/-- The invariant holds over a zero-filled segment. -/
theorem Paced.init {op : Op} {i : FsIdx} {F : ℚ} {v : View} (h : FixedFreq op i F v)
    (hz : v.shm = Shm.zero) : Paced op i F v [] where
  freq := h
  count := by rw [hz]; rfl
  number := fun k h => absurd h (Nat.not_lt_zero k)
  ring := fun k h => absurd h (Nat.not_lt_zero k)
  gap := fun k h => absurd h (Nat.not_lt_zero (k + 3))

/-- Two call numbers less than 512 apart have different slots. -/
theorem fastMod_ne_of_lt {a b : ℕ} (h₁ : a < b) (h₂ : b < a + 512) :
    fastMod (wrapInt32 a) ≠ fastMod (wrapInt32 b) := by
  intro h
  have ha := fastMod_val (wrapInt32 a)
  have hb := fastMod_val (wrapInt32 b)
  rw [wrapInt32_emod_512] at ha hb
  rw [h] at ha
  omega

/-- A call that is not accounted for here keeps the invariant. -/
theorem Paced.of_same {op : Op} {i : FsIdx} {F : ℚ} {v w : View} {T : List CallRecord}
    (h : Paced op i F v T) (hfreq : FixedFreq op i F w) (hshm : w.shm op i = v.shm op i) :
    Paced op i F w T where
  freq := hfreq
  count := by rw [hshm, h.count]
  number := h.number
  ring := by rw [hshm]; exact h.ring
  gap := h.gap

/-- A call that is accounted for here is one more record of the history. -/
theorem Paced.account {op : Op} {i : FsIdx} {F : ℚ} {v : View} {T : List CallRecord}
    (h : Paced op i F v T) (e : CallEnv) :
    Paced op i F (account op i v e) (recordCall op i v (account op i v e) T) := by
  obtain ⟨S, hacc, hlate⟩ := account_spec op i v e
  set w := Ooops.account op i v e with hw
  have hne : (w.shm op i).count ≠ (v.shm op i).count := by
    rw [hacc.count]
    rw [wrapInt32]
    intro heq
    have := Int.dvd_self_sub_of_bmod_eq heq
    omega
  have hT : recordCall op i v w T = T ++ [⟨wrapInt32 T.length, S⟩] := by
    rw [recordCall, if_neg hne, hacc.tList, Function.update_self, h.count]
  rw [hT]
  -- the slots of the calls before this one, but the last 511, have not been written
  have hring : ∀ k (hk : k < T.length), T.length + 1 ≤ k + 512 →
      (w.shm op i).tList (fastMod (wrapInt32 k)) = T[k].stamp := by
    intro k hk hlast
    rw [hacc.tList, h.count, Function.update_of_ne (fastMod_ne_of_lt hk (by omega))]
    exact h.ring k hk (by omega)
  refine ⟨⟨h.freq.pos, ?_, ?_⟩, ?_, ?_, ?_, ?_⟩
  · rw [maxFreq_of_settings hacc.settings, h.freq.own]
  · rw [hacc.param]
    exact h.freq.shared
  · rw [hacc.count, h.count, wrapInt32_add_one, List.length_append, List.length_singleton]
    push_cast
    rfl
  · intro k hk
    rw [List.length_append, List.length_singleton] at hk
    rcases Nat.lt_or_ge k T.length with hlt | hge
    · rw [List.getElem_append_left hlt, h.number k hlt]
    · obtain rfl : k = T.length := by omega
      rw [List.getElem_concat_length rfl]
  · intro k hk hlast
    rw [List.length_append, List.length_singleton] at hk hlast
    rcases Nat.lt_or_ge k T.length with hlt | hge
    · rw [List.getElem_append_left hlt, hring k hlt hlast]
    · obtain rfl : k = T.length := by omega
      rw [List.getElem_concat_length rfl, hacc.tList, h.count, Function.update_self]
  · intro k hk hk1 hmax
    rw [List.length_append, List.length_singleton] at hk
    rcases Nat.lt_or_ge (k + 3) T.length with hlt | hge
    · rw [List.getElem_append_left hlt, List.getElem_append_left (by omega)]
      exact h.gap k hlt hk1 hmax
    · -- the new call is number `k + 3`, and it is compared with the stamp of call `k`
      have hlen : T.length = k + 3 := by omega
      have hcount : (v.shm op i).count = k + 3 := by
        rw [h.count, hlen, wrapInt32_eq_self] <;> omega
      have hprev : (v.shm op i).count - 3 = wrapInt32 k := by
        rw [hcount, wrapInt32_eq_self] <;> omega
      have hbound := hlate (by omega)
      rw [hprev, h.ring k (by omega) (by omega), h.freq.own] at hbound
      rw [List.getElem_append_left (by omega : k < T.length)]
      simp only [← hlen, List.getElem_concat_length]
      linarith

/-- **The invariant is kept by every hooked call**, on whatever path and of whatever
kind. -/
theorem Paced.call {op : Op} {i : FsIdx} {F : ℚ} {v : View} {T : List CallRecord}
    (h : Paced op i F v T) (hook : Hook) (e : CallEnv) :
    Paced op i F (hook.run v e) (recordCall op i v (hook.run v e) T) := by
  obtain ⟨u, hprep, hu⟩ := hook.run_cases v e
  have hpaced : Paced op i F u T := h.of_same (h.freq.prepared hprep) (by rw [hprep.shm])
  have hrec : ∀ w, recordCall op i v w T = recordCall op i u w T := by
    intro w
    simp only [recordCall, hprep.shm]
  rcases hu with hu | ⟨j, hu⟩ <;> rw [hu, hrec]
  · rw [recordCall, if_pos rfl]
    exact hpaced
  · by_cases hij : op = hook.op ∧ i = j
    · obtain ⟨rfl, rfl⟩ := hij
      exact hpaced.account e
    · obtain ⟨S, hacc, -⟩ := account_spec hook.op j u e
      have hshm := hacc.others op i hij
      rw [recordCall, if_pos (by rw [hshm])]
      refine hpaced.of_same ⟨hpaced.freq.pos, ?_, ?_⟩ hshm
      · rw [maxFreq_of_settings hacc.settings, hpaced.freq.own]
      · rw [hacc.param]
        exact hpaced.freq.shared

/-- The invariant is kept by every action of the process. -/
theorem Paced.step {op : Op} {i : FsIdx} {F : ℚ} {s : View × List CallRecord}
    (h : Paced op i F s.1 s.2) (a : ProcAction) :
    Paced op i F (callStep op i s a).1 (callStep op i s a).2 := by
  cases a with
  | call hook e => exact h.call hook e
  | chdir dir =>
      have hsame : Paced op i F (myChdir s.1 dir) s.2 :=
        h.of_same ⟨h.freq.pos, h.freq.own, h.freq.shared⟩ rfl
      have hrec : recordCall op i s.1 (myChdir s.1 dir) s.2 = s.2 := if_pos rfl
      simp only [callStep, ProcAction.run, hrec]
      exact hsame

/-- The invariant holds after every run. -/
theorem paced_runCalls {op : Op} {i : FsIdx} {F : ℚ} {v : View} (h : FixedFreq op i F v)
    (hz : v.shm = Shm.zero) (as : List ProcAction) :
    Paced op i F (runCalls op i v as).1 (runCalls op i v as).2 := by
  rw [runCalls]
  induction as using List.reverseRecOn with
  | nil => exact Paced.init h hz
  | append_singleton as a ih =>
      rw [List.foldl_append]
      exact ih.step a

/-- **The rate limit.** In every run of one process over a zero-filled segment, with the
maximum frequency `F` of `op` on server `i` fixed, the `n`-th tracked call reads call
number `n`, and the final stamps of calls `n` and `n + 3 * m` are at least `m * (3 / F)`
seconds, less `m` times two microseconds, apart. -/
theorem rate_limit {op : Op} {i : FsIdx} {F : ℚ} {v : View} (h : FixedFreq op i F v)
    (hz : v.shm = Shm.zero) (as : List ProcAction) (n m : ℕ) (hn : 1 ≤ n)
    (hmax : n + 3 * m < 2 ^ 31) (hlen : n + 3 * m < (runCalls op i v as).2.length) :
    ∃ a b, (runCalls op i v as).2[n]? = some a ∧ (runCalls op i v as).2[n + 3 * m]? = some b ∧
      a.nCall = n ∧ b.nCall = n + 3 * m ∧
      m * (3 / F - 0.000002) ≤ b.stamp.toSec - a.stamp.toSec := by
  have hpaced := paced_runCalls h hz as
  set T := (runCalls op i v as).2 with hT
  have hnum : ∀ k (hk : k < T.length), k < 2 ^ 31 → T[k].nCall = k := by
    intro k hk hk31
    rw [hpaced.number k hk, wrapInt32_eq_self] <;> omega
  refine ⟨T[n], T[n + 3 * m], List.getElem?_eq_getElem (by omega),
    List.getElem?_eq_getElem hlen, hnum n (by omega) (by omega), ?_, ?_⟩
  · rw [hnum _ hlen hmax]
    push_cast
    rfl
  · -- induction on the number of windows, each three calls long
    induction m with
    | zero => simp
    | succ m ih =>
        have hprev := ih (by omega) (by omega)
        have hstep := hpaced.gap (n + 3 * m) (by omega) (by omega) (by omega)
        have hidx : n + 3 * (m + 1) = n + 3 * m + 3 := by ring
        simp only [hidx]
        push_cast
        linarith

/-- A process with the single tag `/scratch`, at most 1000 calls a second of either kind. -/
def scratchProc : Proc :=
  { Proc.start with
    shmReady := true
    nFsServer := 1
    szFSTag := fun i => if i = 0 then bytesOf "/scratch" else []
    fsTagLen := fun i => if i = 0 then 8 else 0
    maxFreq := fun _ i => if i = 0 then 1000 else 60000
    tThresholdInt64 := fun _ i => if i = 0 then 1216722 else 0 }

/-- The view of `scratchProc` over a zero-filled segment and a block with the same
frequencies. -/
def scratchView : View where
  proc := scratchProc
  param := { ParamBlock.zero with maxFreqShare := fun _ _ => 1000 }
  shm := Shm.zero
  now := 1700000000

/-- An `open` below `/scratch` that takes no time. -/
def scratchOpen : ProcAction :=
  .call .myOpenLibc ⟨bytesOf "/scratch/a", 0, 0, 4711, 0, 0, 0⟩

/-- Five calls in a row: the last one is put to sleep. -/
theorem rate_limit_five_opens :
    ∃ a b, (runCalls .openFile 0 scratchView (List.replicate 5 scratchOpen)).2[1]? = some a ∧
      (runCalls .openFile 0 scratchView (List.replicate 5 scratchOpen)).2[4]? = some b ∧
      a.nCall = 1 ∧ b.nCall = 4 ∧
      (3 : ℚ) / 1000 - 0.000002 ≤ b.stamp.toSec - a.stamp.toSec := by
  have h : FixedFreq .openFile 0 1000 scratchView := ⟨by norm_num, rfl, fun _ => rfl⟩
  simpa using rate_limit h rfl (List.replicate 5 scratchOpen) 1 1 (by decide) (by decide)
    (by decide +kernel)

end Ooops
