import Ooops.Basis.CInt
import Ooops.Clock
import Ooops.Params

/-!
# The Throttle

A tracked call passes three stages. It is attributed to a file system before the real
call (`checkFSServer`, `getTime`, `preLxstat`). After the real call it is counted under
the mutex of its kind, and the count it read names its slot in a ring of time stamps
(`enter`). From the fourth call on it is compared with the stamp of the call three before
it and, when the calls come too fast or the real call took too long, put to sleep and
stamped again (`delayCall`).

The part of the shared segment that one kind of call uses for one server is a `Ledger`:
the two counters, the ring of `MAX_REC` stamps and thread numbers, and the last computed
sleep. `Update_open_Count` and `post_lxstat` run the same code on the two kinds, written
once as `throttle`.
-/

open Basis

namespace Ooops

/-- What the shared segments hold for one kind of call on one server: `p_open_Count`,
`p_open_Delayed_Count`, `p_T_list_open`, `p_tid_Open_List` and `dT_To_Sleep_in_Open`, and
their `lxstat` twins. -/
structure Ledger where
  count : ℤ
  delayedCount : ℤ
  tList : Fin 512 → Timeval
  tidList : Fin 512 → ℤ
  dTToSleep : ℚ

/-- Zero-filled shared memory. -/
def Ledger.zero : Ledger := ⟨0, 0, fun _ => Timeval.zero, fun _ => 0, 0⟩

/-- The counters and rings of every server, for both kinds of calls. -/
abbrev Shm := Op → FsIdx → Ledger

/-- The zero-filled segment. -/
def Shm.zero : Shm := fun _ _ => Ledger.zero

/-- The slot of a call number, `nCall & MAX_REC_M`. -/
def fastMod (nCall : ℤ) : Fin 512 :=
  ⟨(BitVec.ofInt 32 nCall &&& 511#32).toNat, by
    rw [BitVec.toNat_and]
    exact lt_of_le_of_lt Nat.and_le_right (by decide)⟩

/-- The mask is the remainder modulo `MAX_REC`. -/
theorem fastMod_val (nCall : ℤ) : ((fastMod nCall).val : ℤ) = nCall % 512 := by
  have h : (fastMod nCall).val = (nCall % 512).toNat := by
    change (BitVec.ofInt 32 nCall &&& 511#32).toNat = _
    rw [BitVec.toNat_and, BitVec.toNat_ofInt,
      show (511#32).toNat = 2 ^ 9 - 1 from rfl, Nat.and_two_pow_sub_one_eq_mod]
    omega
  omega

/-- What a process sees: its own variables, the two shared segments and the real time. -/
structure View where
  proc : Proc
  param : ParamBlock
  shm : Shm
  now : ℚ

/-- What the surroundings decide for one call: the path, the two readings of the time
stamp counter around the real call, the thread number, the time that passes before the
stamp, the excess of the sleep, and the time that passes before the second stamp. -/
structure CallEnv where
  path : CStr
  tStart : ℕ
  tNew : ℕ
  gettid : ℤ
  lag : ℚ≥0
  late : ℚ≥0
  lagAfter : ℚ≥0

/-- The real time of the first stamp of a call. -/
def CallEnv.stampTime (e : CallEnv) (now : ℚ) : ℚ := now + e.lag

/-- Replace one ledger of the segment. -/
def Shm.set (m : Shm) (op : Op) (i : FsIdx) (l : Ledger) : Shm :=
  Function.update m op (Function.update (m op) i l)

/-- Write a stamp into the ring. -/
def Ledger.stamp (l : Ledger) (k : Fin 512) (t : Timeval) : Ledger :=
  { l with tList := Function.update l.tList k t }

/-- `if(tid < 0) tid = gettid()`. -/
def Proc.withTid (p : Proc) (gettid : ℤ) : Proc :=
  if p.tid < 0 then { p with tid := gettid } else p

/-- Reserve a call number under the mutex, stamp its slot and clear the sleep. -/
def enter (op : Op) (i : FsIdx) (v : View) (e : CallEnv) : View :=
  let l := v.shm op i
  let nCallNew := l.count
  let idxCur := fastMod nCallNew
  let p := v.proc.withTid e.gettid
  let l := { l with count := wrapInt32 (nCallNew + 1) }.stamp idxCur
    (gettimeofday (e.stampTime v.now))
  { v with
    proc :=
      { p with
        callCount := Function.update p.callCount i
          (Function.update (p.callCount i) op (p.callCount i op + 1)) }
    shm := v.shm.set op i
      { l with dTToSleep := 0, tidList := Function.update l.tidList idxCur p.tid }
    now := e.stampTime v.now }

/-- `dT_To_Sleep`: how much sooner the call comes than three calls per `3 / freq` seconds
allow. -/
def sleepTime (freq : ℚ) (l : Ledger) (nCallNew : ℤ) : ℚ :=
  3 / freq - (l.tList (fastMod nCallNew)).since (l.tList (fastMod (nCallNew - 3)))

/-- Sleep for the computed time, count the delay and stamp the slot again. -/
def delayCall (op : Op) (i : FsIdx) (v : View) (e : CallEnv) (nCallNew : ℤ) : View :=
  let l := v.shm op i
  let tNsSleep := truncLong (1000000000 * l.dTToSleep)
  let now := nanosleep v.now (Timespec.ofNs tNsSleep) e.late + e.lagAfter
  { v with
    proc :=
      { v.proc with
        nCallDelayed := Function.update v.proc.nCallDelayed op
          (Function.update (v.proc.nCallDelayed op) i (v.proc.nCallDelayed op i + 1)) }
    shm := v.shm.set op i
      ({ l with delayedCount := wrapInt32 (l.delayedCount + 1) }.stamp
        (fastMod nCallNew) (gettimeofday now))
    now := now }

/-- The accounting of a tracked call, from the first critical section on. -/
def account (op : Op) (i : FsIdx) (v : View) (e : CallEnv) : View :=
  let nCallNew := (v.shm op i).count
  let dt := subUInt64 e.tNew (v.proc.tList i op)
  let v := enter op i v e
  if nCallNew > 3 then
    let d := sleepTime (v.proc.maxFreq op i) (v.shm op i) nCallNew
    let v := { v with shm := v.shm.set op i { v.shm op i with dTToSleep := d } }
    if dt > v.proc.tThresholdInt64 op i ∨ d > 0.0000001 then
      delayCall op i v e nCallNew
    else v
  else v

/-- Take over new parameters when the block carries another time stamp. -/
def refresh (v : View) : View :=
  if v.proc.tUpdatedParam ≠ v.param.tUpdatedParam then
    { v with proc := updateParameters v.proc v.param }
  else v

/-- The common body of `Update_open_Count` and `post_lxstat`. -/
def throttle (op : Op) (v : View) (e : CallEnv) : View :=
  let v := refresh v
  if v.proc.active = false then v
  else if v.proc.shmReady = false then v
  else
    match v.proc.idxFsServer with
    | none => v
    | some i => account op i v e

/-- `Update_open_Count`. -/
def updateOpenCount (v : View) (e : CallEnv) : View := throttle .openFile v e

/-- `post_lxstat`. -/
def postLxstat (v : View) (e : CallEnv) : View := throttle .lxstat v e

/-- Note the time stamp counter at the start of the real call. -/
def markStart (op : Op) (i : FsIdx) (v : View) (e : CallEnv) : View :=
  { v with
    proc :=
      { v.proc with
        tList := Function.update v.proc.tList i
          (Function.update (v.proc.tList i) op e.tStart) } }

/-- `GetTime(idx)`: an even index marks the start of an `open`, an odd one accounts for
it. -/
def getTime (idx : ℕ) (v : View) (e : CallEnv) : View :=
  match v.proc.idxFsServer with
  | none => v
  | some i =>
      if v.proc.nFsServer < 1 then v
      else if idx % 2 = 1 then updateOpenCount v e
      else markStart .openFile i v e

/-- `pre_lxstat`. -/
def preLxstat (v : View) (e : CallEnv) : View :=
  match v.proc.idxFsServer with
  | none => v
  | some i => markStart .lxstat i v e

/-- Attribute the path of a call to a server. -/
def View.checkPath (v : View) (e : CallEnv) : View :=
  { v with proc := checkFSServer v.proc e.path }

/-- Whether the call is the open of a job script that a shell is redirected away from. -/
def Proc.redirects (p : Proc) (path : CStr) : Bool :=
  p.isInInitBash && path == p.szBatchScriptNameOrg

/-- The body of `my_open_ld` and `my_open_pthread`. -/
def openCall (v : View) (e : CallEnv) : View :=
  getTime 1 (getTime 0 (v.checkPath e) e) e

/-- The body of the four `stat` hooks. -/
def statCall (v : View) (e : CallEnv) : View :=
  postLxstat (preLxstat (v.checkPath e) e) e

/-- The functions that the library puts in place of `open` and `stat` in the loader, in
`libc` and in `libpthread`. -/
inductive Hook
  | myOpenLd
  | myOpenLibc
  | myOpenPthread
  | myXstatLd
  | myXstatLibc
  | myLxstatLd
  | myLxstatLibc
  deriving DecidableEq, Repr

/-- The kind of call that a hook stands for. -/
def Hook.op : Hook → Op
  | .myOpenLd | .myOpenLibc | .myOpenPthread => .openFile
  | .myXstatLd | .myXstatLibc | .myLxstatLd | .myLxstatLibc => .lxstat

/-- What a hooked call does; only `my_open_libc` knows of the redirected job script. -/
def Hook.run : Hook → View → CallEnv → View
  | .myOpenLd, v, e => openCall v e
  | .myOpenLibc, v, e => if v.proc.redirects e.path then v else openCall v e
  | .myOpenPthread, v, e => openCall v e
  | .myXstatLd, v, e => statCall v e
  | .myXstatLibc, v, e => statCall v e
  | .myLxstatLd, v, e => statCall v e
  | .myLxstatLibc, v, e => statCall v e

/-- `my_chdir` and `my_fchdir`, when the working directory is `dir` afterwards. -/
def myChdir (v : View) (dir : CStr) : View :=
  { v with proc := updateCWD v.proc dir }

/-- What a process does with the library: hooked calls and changes of directory. -/
inductive ProcAction
  | call (h : Hook) (e : CallEnv)
  | chdir (dir : CStr)

/-- One action of a process. -/
def ProcAction.run : ProcAction → View → View
  | .call h e, v => h.run v e
  | .chdir dir, v => myChdir v dir

/-! ### What a hooked call does, once and for all -/

@[simp] theorem Shm.set_self (m : Shm) (op : Op) (i : FsIdx) (l : Ledger) :
    m.set op i l op i = l := by
  simp only [Shm.set, Function.update_self]

/-- Setting a ledger leaves the others alone. -/
theorem Shm.set_of_ne {m : Shm} {op op' : Op} {i i' : FsIdx} {l : Ledger}
    (h : ¬(op' = op ∧ i' = i)) : m.set op i l op' i' = m op' i' := by
  rw [Shm.set]
  by_cases ho : op' = op
  · subst ho
    have hi : i' ≠ i := fun hi => h ⟨rfl, hi⟩
    rw [Function.update_self, Function.update_of_ne hi]
  · rw [Function.update_of_ne ho]

@[simp] theorem Shm.set_set (m : Shm) (op : Op) (i : FsIdx) (l l' : Ledger) :
    (m.set op i l).set op i l' = m.set op i l' := by
  simp only [Shm.set, Function.update_self, Function.update_idem]

/-- The variables of a process that a call does not touch unless it takes over new
parameters: everything but the scratch variables of the call itself. -/
def Proc.settings (p : Proc) : Proc :=
  { p with
    idxFsServer := none
    tid := 0
    tList := fun _ _ => 0
    callCount := fun _ _ => 0
    nCallDelayed := fun _ _ => 0 }

theorem maxFreq_of_settings {p q : Proc} (h : p.settings = q.settings) :
    p.maxFreq = q.maxFreq := by
  have hm := congrArg Proc.maxFreq h
  exact hm

/-- Looking at a path, noting the start of a call and taking over new parameters: `w` is
what `v` has become when the accounting starts. -/
structure Prepared (v w : View) : Prop where
  shm : w.shm = v.shm
  param : w.param = v.param
  now : w.now = v.now
  settings : w.proc.settings = v.proc.settings ∨
    w.proc.settings = (updateParameters v.proc v.param).settings

theorem settings_checkFSServer (p : Proc) (s : CStr) :
    (checkFSServer p s).settings = p.settings := by
  rw [checkFSServer_eq]
  rfl

/-- Taking over parameters does not depend on the scratch variables. -/
theorem settings_updateParameters {p q : Proc} (b : ParamBlock) (h : p.settings = q.settings) :
    (updateParameters p b).settings = (updateParameters q b).settings := by
  have ha := congrArg (fun r => (updateParameters r b).settings) h
  have hs : ∀ r : Proc, (updateParameters r.settings b).settings =
      (updateParameters r b).settings := by
    intro r
    simp only [updateParameters]
    split <;> rfl
  simpa only [hs] using ha

/-- The accounting starts with a prepared view or not at all. -/
theorem throttle_cases (op : Op) {v w : View} (e : CallEnv) (hshm : w.shm = v.shm)
    (hparam : w.param = v.param) (hnow : w.now = v.now)
    (hset : w.proc.settings = v.proc.settings) :
    ∃ u, Prepared v u ∧ (throttle op w e = u ∨ ∃ i, throttle op w e = account op i u e) := by
  have hprep : Prepared v (refresh w) := by
    rw [refresh]
    split
    · exact ⟨hshm, hparam, hnow, .inr (hparam ▸ settings_updateParameters _ hset)⟩
    · exact ⟨hshm, hparam, hnow, .inl hset⟩
  refine ⟨refresh w, hprep, ?_⟩
  unfold throttle
  dsimp only
  split
  · exact .inl rfl
  split
  · exact .inl rfl
  split
  · exact .inl rfl
  · exact .inr ⟨_, rfl⟩

/-- **Inversion of a hooked call**: it ends in a prepared view, or in the accounting of
one. -/
theorem Hook.run_cases (h : Hook) (v : View) (e : CallEnv) :
    ∃ u, Prepared v u ∧ (h.run v e = u ∨ ∃ i, h.run v e = account h.op i u e) := by
  have hcheck := settings_checkFSServer v.proc e.path
  have hopen : ∃ u, Prepared v u ∧
      (openCall v e = u ∨ ∃ i, openCall v e = account .openFile i u e) := by
    rw [openCall]
    set w := v.checkPath e with hw
    cases hi : w.proc.idxFsServer with
    | none =>
        refine ⟨w, ⟨rfl, rfl, rfl, .inl hcheck⟩, .inl ?_⟩
        simp only [getTime, hi]
    | some i =>
        by_cases hn : w.proc.nFsServer < 1
        · refine ⟨w, ⟨rfl, rfl, rfl, .inl hcheck⟩, .inl ?_⟩
          simp only [getTime, hi, if_pos hn]
        · have h0 : getTime 0 w e = markStart .openFile i w e := by
            simp only [getTime, hi, if_neg hn]
            rfl
          have h1 : getTime 1 (markStart .openFile i w e) e =
              throttle .openFile (markStart .openFile i w e) e := by
            simp only [getTime, markStart, hi, if_neg hn]
            rfl
          rw [h0, h1]
          exact throttle_cases .openFile e rfl rfl rfl hcheck
  have hstat : ∃ u, Prepared v u ∧
      (statCall v e = u ∨ ∃ i, statCall v e = account .lxstat i u e) := by
    rw [statCall, preLxstat]
    split
    · exact throttle_cases .lxstat e rfl rfl rfl hcheck
    · exact throttle_cases .lxstat e rfl rfl rfl hcheck
  cases h with
  | myOpenLd | myOpenPthread => exact hopen
  | myOpenLibc =>
      simp only [Hook.run, Hook.op]
      split
      · exact ⟨v, ⟨rfl, rfl, rfl, .inl rfl⟩, .inl rfl⟩
      · exact hopen
  | myXstatLd | myXstatLibc | myLxstatLd | myLxstatLibc => exact hstat

end Ooops
