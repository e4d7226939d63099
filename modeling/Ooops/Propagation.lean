import Ooops.Basis.Run
import Ooops.RateLimit
import Ooops.SetIoParam

/-!
# Propagation of the Parameters

The parameters of a node change while processes start and make calls. A process compares
the time stamp of the block with its own inside the accounting functions only. The hooks
of `stat` always get there. The hooks of `open` go through `GetTime`, which returns at
once in a process without servers, and a process that started while the library was
switched off has none: `Update_Parameters` returns before it has copied any. Such a
process does not notice that the library is switched on again as long as it only opens
files (`open_misses_enable`).

## Main results

* `Hook.run_settings`: which calls take over new parameters.
* `Tracking`: the invariant of a process, kept by every step of the node.
* `propagates_iff`: after which calls the parameters of the process are those of the
  block.
-/

open Basis

namespace Ooops

/-! ### The node -/

/-- What a process finds around it when it starts: the configuration, `none` if it cannot
be read, the current directory and, in a shell that runs a job script, the script. -/
structure StartEnv where
  config? : Option Config
  cwd : CStr
  script? : Option CStr

/-- `Read_Config`: without a configuration there are no servers. -/
def readConfig? (p : Proc) : Option Config → Proc
  | none => { p with nFsServer := 0, maxFreq := fun _ _ => 60000 }
  | some c => readConfig p c

/-- What `Get_Exe_Name_and_CmdLine` finds out about the process. -/
def Proc.exec (script? : Option CStr) : Proc :=
  match script? with
  | none => Proc.start
  | some szBatchScriptNameOrg =>
      { Proc.start with
        isInInitBash := true
        szBatchScriptNameOrg := szBatchScriptNameOrg }

/-- `Init_Shared_Mutex`, as far as the block goes: its creator reads the configuration and
publishes it, everybody else waits for that and copies the block. -/
def initSharedMutex (p : Proc) (config? : Option Config) (param? : Option ParamBlock)
    (rdtscp : ℕ) : Option (Proc × ParamBlock) :=
  match param? with
  | none => some (publishParameters (readConfig? p config?) ParamBlock.zero rdtscp)
  | some b => if b.paramMemReady = 0 then none else some (updateParameters p b, b)

/-- The constructor `init` of a process on a compute node. -/
def init (env : StartEnv) (param? : Option ParamBlock) (rdtscp : ℕ) :
    Option (Proc × ParamBlock) :=
  (initSharedMutex (Proc.exec env.script?) env.config? param? rdtscp).map fun r =>
    (updateCWD { r.1 with shmReady := true } env.cwd, r.2)

/-- The processes of a node, their shared segments, the real time and the last reading of
the time stamp counter. -/
structure World where
  param? : Option ParamBlock
  procs : ℕ → Option Proc
  shm : Shm
  now : ℚ
  tsc : ℕ

/-- A node on which nothing has run yet. -/
def World.init : World := ⟨none, fun _ => none, Shm.zero, 0, 0⟩

/-- What happens on a node. The time stamp counter advances by `wait` and one more. -/
inductive WorldAct
  | startUp (pid : ℕ) (env : StartEnv) (wait : ℕ)
  | command (env : ToolEnv) (c : Command) (wait : ℕ)
  | act (pid : ℕ) (a : ProcAction)

/-- One step of the node. -/
def worldStep (w : World) : WorldAct → Option World
  | .startUp pid env wait =>
      if (w.procs pid).isSome then none
      else
        (Ooops.init env w.param? (w.tsc + wait + 1)).map fun r =>
          { w with
            param? := some r.2
            procs := Function.update w.procs pid (some r.1)
            tsc := w.tsc + wait + 1 }
  | .command env c wait =>
      some { w with
        param? := w.param?.map fun b => setIoParam env c b (w.tsc + wait + 1)
        tsc := w.tsc + wait + 1 }
  | .act pid a =>
      match w.procs pid, w.param? with
      | some p, some b =>
          let v := a.run ⟨p, b, w.shm, w.now⟩
          some { w with
            param? := some v.param
            procs := Function.update w.procs pid (some v.proc)
            shm := v.shm
            now := v.now }
      | _, _ => none

/-! ### What propagation means -/

/-- The process is switched on and has the servers, tags, thresholds and maximum
frequencies of the block. -/
structure Propagated (b : ParamBlock) (p : Proc) : Prop where
  active : p.active = true
  nFsServer : p.nFsServer = b.usedSlots
  szFSTag : ∀ i, b.fsTagLen i ≠ 0 → p.szFSTag i = b.fsTagList i
  fsTagLen : ∀ i, b.fsTagLen i ≠ 0 → p.fsTagLen i = b.fsTagLen i
  tThresholdInt64 : ∀ i, b.fsTagLen i ≠ 0 → ∀ op, p.tThresholdInt64 op i = b.tThresholdInt64 op i
  maxFreq : ∀ i, b.fsTagLen i ≠ 0 → ∀ op, p.maxFreq op i = b.maxFreqShare op i

/-- The path starts with a tag of the block. -/
def ParamBlock.Tagged (b : ParamBlock) (path : CStr) : Prop :=
  ∃ i, b.fsTagLen i ≠ 0 ∧ strncmpEq path (b.fsTagList i) (b.fsTagLen i) = true

/-- The hook opens another script in place of the one that was asked for, and does nothing
else. -/
def Hook.Redirected (h : Hook) (p : Proc) (path : CStr) : Prop :=
  h = .myOpenLibc ∧ p.redirects path = true

/-! ### Which calls take over new parameters -/

/-- The call reaches the comparison of the time stamps. -/
def Hook.Refreshes (h : Hook) (p : Proc) (path : CStr) : Prop :=
  h.op = .lxstat ∨
    ¬h.Redirected p path ∧ 1 ≤ p.nFsServer ∧ (checkFSServer p path).idxFsServer ≠ none

/-- Taking over new parameters does not depend on the scratch variables of a call. -/
theorem settings_refresh {v w : View} (hparam : w.param = v.param)
    (hset : w.proc.settings = v.proc.settings) :
    (refresh w).proc.settings = (refresh v).proc.settings := by
  have hstamp : w.proc.tUpdatedParam = v.proc.tUpdatedParam := by
    have h := congrArg Proc.tUpdatedParam hset
    exact h
  simp only [refresh]
  rw [hstamp, hparam]
  split
  · exact settings_updateParameters _ hset
  · exact hset

/-- The accounting functions take over new parameters first and change no setting
afterwards. -/
theorem settings_throttle (op : Op) (v : View) (e : CallEnv) :
    (throttle op v e).proc.settings = (refresh v).proc.settings ∧
      (throttle op v e).param = (refresh v).param := by
  unfold throttle
  dsimp only
  split
  · exact ⟨rfl, rfl⟩
  split
  · exact ⟨rfl, rfl⟩
  split
  · exact ⟨rfl, rfl⟩
  · rename_i i _
    obtain ⟨S, hacc, -⟩ := account_spec op i (refresh v) e
    exact ⟨hacc.settings, hacc.param⟩

theorem param_refresh (v : View) : (refresh v).param = v.param := by
  rw [refresh]
  split <;> rfl

theorem nFsServer_checkFSServer (p : Proc) (s : CStr) :
    (checkFSServer p s).nFsServer = p.nFsServer := by
  rw [checkFSServer_eq]

/-- The body of the `open` hooks. -/
theorem settings_openCall (v : View) (e : CallEnv) :
    (openCall v e).param = v.param ∧
    (1 ≤ v.proc.nFsServer ∧ (checkFSServer v.proc e.path).idxFsServer ≠ none →
      (openCall v e).proc.settings = (refresh v).proc.settings) ∧
    (¬(1 ≤ v.proc.nFsServer ∧ (checkFSServer v.proc e.path).idxFsServer ≠ none) →
      (openCall v e).proc.settings = v.proc.settings) := by
  have hcheck := settings_checkFSServer v.proc e.path
  have hn := nFsServer_checkFSServer v.proc e.path
  rw [openCall]
  set w := v.checkPath e with hw
  have hproc : w.proc = checkFSServer v.proc e.path := rfl
  cases hi : w.proc.idxFsServer with
  | none =>
      have hopen : getTime 1 (getTime 0 w e) e = w := by simp only [getTime, hi]
      rw [hopen, ← hproc, hi]
      exact ⟨rfl, fun h => absurd rfl h.2, fun _ => hcheck⟩
  | some i =>
      rw [← hproc, hi, ← hn, ← hproc]
      by_cases hlt : w.proc.nFsServer < 1
      · have hopen : getTime 1 (getTime 0 w e) e = w := by simp only [getTime, hi, if_pos hlt]
        rw [hopen]
        exact ⟨rfl, fun h => absurd h.1 (by omega), fun _ => hcheck⟩
      · have hmark : getTime 0 w e = markStart .openFile i w e := by
          simp only [getTime, hi, if_neg hlt]
          rfl
        have hcount : getTime 1 (markStart .openFile i w e) e =
            throttle .openFile (markStart .openFile i w e) e := by
          simp only [getTime, markStart, hi, if_neg hlt]
          rfl
        obtain ⟨hset, hparam⟩ := settings_throttle .openFile (markStart .openFile i w e) e
        rw [hmark, hcount, hparam, hset, param_refresh]
        refine ⟨rfl, fun _ => settings_refresh rfl hcheck, fun h => ?_⟩
        exact absurd ⟨by omega, by simp⟩ h

/-- The body of the `stat` hooks. -/
theorem settings_statCall (v : View) (e : CallEnv) :
    (statCall v e).param = v.param ∧
      (statCall v e).proc.settings = (refresh v).proc.settings := by
  have hpre : ∃ w, preLxstat (v.checkPath e) e = w ∧ w.param = v.param ∧
      w.proc.settings = v.proc.settings := by
    refine ⟨_, rfl, ?_⟩
    rw [preLxstat]
    split <;> exact ⟨rfl, settings_checkFSServer v.proc e.path⟩
  obtain ⟨w, hw, hparam, hset⟩ := hpre
  obtain ⟨hthr, hthrp⟩ := settings_throttle .lxstat w e
  rw [statCall, hw]
  exact ⟨hthrp.trans ((param_refresh w).trans hparam), hthr.trans (settings_refresh hparam hset)⟩

/-- **Which calls take over new parameters.** A call leaves the block alone; it takes over
new parameters if it reaches the comparison of the stamps, and else changes no setting. -/
theorem Hook.run_settings (h : Hook) (v : View) (e : CallEnv) :
    (h.run v e).param = v.param ∧
    (h.Refreshes v.proc e.path → (h.run v e).proc.settings = (refresh v).proc.settings) ∧
    (¬h.Refreshes v.proc e.path → (h.run v e).proc.settings = v.proc.settings) := by
  obtain ⟨hparam, hyes, hno⟩ := settings_openCall v e
  obtain ⟨hsparam, hstat⟩ := settings_statCall v e
  cases h with
  | myOpenLd | myOpenPthread =>
      refine ⟨hparam, fun hr => hyes ?_, fun hr => hno fun hc => hr ?_⟩
      · rcases hr with hop | ⟨-, hc⟩
        · cases hop
        · exact hc
      · exact .inr ⟨fun hred => Hook.noConfusion hred.1, hc⟩
  | myOpenLibc =>
      by_cases hred : v.proc.redirects e.path = true
      · have hrun : Hook.myOpenLibc.run v e = v := if_pos hred
        rw [hrun]
        refine ⟨rfl, fun hr => ?_, fun _ => rfl⟩
        rcases hr with hop | ⟨hc, -⟩
        · cases hop
        · exact absurd ⟨rfl, hred⟩ hc
      · have hrun : Hook.myOpenLibc.run v e = openCall v e := if_neg hred
        rw [hrun]
        refine ⟨hparam, fun hr => hyes ?_, fun hr => hno fun hc => hr ?_⟩
        · rcases hr with hop | ⟨-, hc⟩
          · cases hop
          · exact hc
        · exact .inr ⟨fun h => hred h.2, hc⟩
  | myXstatLd | myXstatLibc | myLxstatLd | myLxstatLibc =>
      exact ⟨hsparam, fun _ => hstat, fun hr => absurd (.inl rfl) hr⟩

/-! ### The invariant -/

/-- Copying an active block propagates it. -/
theorem propagated_updateParameters {p : Proc} {b : ParamBlock} (h : b.pDisabled ≠ 1) :
    Propagated b (updateParameters p b) := by
  rw [updateParameters]
  rw [if_neg h]
  refine ⟨rfl, rfl, ?_, ?_, ?_, ?_⟩ <;> intro i hi
  · exact if_neg hi
  · exact if_neg hi
  · exact fun op => if_neg hi
  · exact fun op => if_neg hi

/-- Only the settings of a process matter. -/
theorem Propagated.congr {b : ParamBlock} {p q : Proc} (hs : q.settings = p.settings)
    (h : Propagated b p) : Propagated b q := by
  have hq : Propagated b q.settings := by
    rw [hs]
    exact ⟨h.active, h.nFsServer, h.szFSTag, h.fsTagLen, h.tThresholdInt64, h.maxFreq⟩
  exact ⟨hq.active, hq.nFsServer, hq.szFSTag, hq.fsTagLen, hq.tThresholdInt64, hq.maxFreq⟩

theorem settings_settings (p : Proc) : p.settings.settings = p.settings := rfl

/-- The process has the servers of the block, with tags that match the same paths. -/
def SameTags (b : ParamBlock) (p : Proc) : Prop :=
  p.nFsServer = b.usedSlots ∧ ∀ i, b.fsTagLen i ≠ 0 → ∀ s,
    strncmpEq s (p.szFSTag i) (p.fsTagLen i) = strncmpEq s (b.fsTagList i) (b.fsTagLen i)

/-- The invariant of a process: its time stamp is not ahead of the block's, it has the
parameters of the block if the stamps are equal, and it has all servers or none. -/
structure Tracking (b : ParamBlock) (p : Proc) : Prop where
  stamp : p.tUpdatedParam ≤ b.tUpdatedParam
  current : p.tUpdatedParam = b.tUpdatedParam → Propagated b p
  servers : p.nFsServer = 0 ∨ SameTags b p

theorem Tracking.congr {b : ParamBlock} {p q : Proc} (hs : q.settings = p.settings)
    (h : Tracking b p) : Tracking b q := by
  have hq : Tracking b q.settings := by
    rw [hs]
    exact ⟨h.stamp, fun he => (h.current he).congr (settings_settings p), h.servers⟩
  exact ⟨hq.stamp, fun he => (hq.current he).congr (settings_settings q).symm, hq.servers⟩

theorem Propagated.sameTags {b : ParamBlock} {p : Proc} (h : Propagated b p) :
    SameTags b p := by
  refine ⟨h.nFsServer, fun i hi s => ?_⟩
  rw [h.szFSTag i hi, h.fsTagLen i hi]

/-- A process whose stamp differs keeps the invariant when it takes the parameters over,
even if it finds the block switched off. -/
theorem Tracking.update {b : ParamBlock} {p : Proc} (h : Tracking b p)
    (hne : p.tUpdatedParam ≠ b.tUpdatedParam) : Tracking b (updateParameters p b) := by
  by_cases hdis : b.pDisabled = 1
  · have hoff : updateParameters p b = { p with active := false } := if_pos hdis
    rw [hoff]
    exact ⟨h.stamp, fun he => absurd he hne, h.servers⟩
  · have hprop : Propagated b (updateParameters p b) := propagated_updateParameters hdis
    have hstamp : (updateParameters p b).tUpdatedParam = b.tUpdatedParam := by
      rw [updateParameters, if_neg hdis]
    exact ⟨hstamp.le, fun _ => hprop, .inr hprop.sameTags⟩

theorem Tracking.refresh {v : View} (h : Tracking v.param v.proc) :
    Tracking v.param (refresh v).proc := by
  rw [Ooops.refresh]
  split
  · exact h.update ‹_›
  · exact h

/-- **A call keeps the invariant.** -/
theorem Tracking.call {v : View} (h : Tracking v.param v.proc) (hook : Hook) (e : CallEnv) :
    Tracking v.param (hook.run v e).proc := by
  obtain ⟨-, hyes, hno⟩ := hook.run_settings v e
  by_cases hr : hook.Refreshes v.proc e.path
  · exact h.refresh.congr (hyes hr)
  · exact h.congr (hno hr)

/-- **A command keeps the invariant** of every process: it leaves the block alone or
stamps it anew. -/
theorem Tracking.setIoParam {b : ParamBlock} {p : Proc} (h : Tracking b p) (env : ToolEnv)
    (c : Command) {rdtscp : ℕ} (hlt : b.tUpdatedParam < rdtscp) :
    Tracking (setIoParam env c b rdtscp) p := by
  obtain ⟨hlen, hlist⟩ := setIoParam_tags env c b rdtscp
  rcases setIoParam_stamp env c b rdtscp with hsame | hnew
  · rw [hsame]
    exact h
  · have hp := h.stamp
    refine ⟨by omega, fun he => by omega, ?_⟩
    rw [SameTags, ParamBlock.usedSlots]
    rw [hlen, hlist]
    exact h.servers

/-! ### Start-up -/

/-- The first `n` slots are `n` slots. -/
theorem countP_slots {n : ℕ} (h : n ≤ 8) :
    ((List.finRange 8).countP fun i => decide (i.val < n)) = n := by
  have hall : ∀ m ≤ 8, ((List.finRange 8).countP fun i => decide (i.val < m)) = m := by
    decide
  exact hall n h

/-- The block that its creator has published: the slots of its servers are in use, with
tags that match the same paths. -/
theorem publishParameters_slots {p : Proc} (rdtscp : ℕ) (hn : p.nFsServer ≤ 8)
    (hpos : ∀ i : FsIdx, i.val < p.nFsServer → p.fsTagLen i ≠ 0) :
    (∀ i, (publishParameters p ParamBlock.zero rdtscp).2.fsTagLen i ≠ 0 ↔
      i.val < p.nFsServer) ∧
    SameTags (publishParameters p ParamBlock.zero rdtscp).2 p := by
  have hused : ∀ i, (publishParameters p ParamBlock.zero rdtscp).2.fsTagLen i ≠ 0 ↔
      i.val < p.nFsServer := by
    intro i
    simp only [publishParameters, ParamBlock.zero]
    split
    · exact ⟨fun _ => ‹_›, fun h => hpos i h⟩
    · exact ⟨fun h => absurd rfl h, fun h => absurd h ‹_›⟩
  refine ⟨hused, ?_, fun i hi s => ?_⟩
  · rw [ParamBlock.usedSlots]
    simp only [hused]
    exact (countP_slots hn).symm
  · have hlt := (hused i).mp hi
    simp only [publishParameters, if_pos hlt]
    exact (strncmpEq_take_right ..).symm

/-- What a configuration gives a fresh process: at most eight servers, with tags. -/
theorem readConfig?_spec (p : Proc) (c? : Option Config) :
    (readConfig? p c?).nFsServer ≤ 8 ∧
      ∀ i : FsIdx, i.val < (readConfig? p c?).nFsServer → (readConfig? p c?).fsTagLen i ≠ 0 := by
  cases c? with
  | none => exact ⟨Nat.zero_le _, fun i hi => absurd hi (Nat.not_lt_zero _)⟩
  | some c =>
      refine ⟨c.length_le, fun i hi => ?_⟩
      have hget : c.records[i.val]? = some c.records[i.val] := List.getElem?_eq_getElem hi
      simp only [readConfig?, readConfig, hget, Option.map_some, Option.getD_some]
      exact (fsTagLenOf_pos (c.records[i.val]).tag_ne_nil).ne'

/-- The invariant of the block: it carries a stamp that is not in the future, and its used
slots are the first ones. -/
structure BlockOk (tsc : ℕ) (b : ParamBlock) : Prop where
  stamp_pos : 0 < b.tUpdatedParam
  stamp_le : b.tUpdatedParam ≤ tsc
  slots : ∀ i, b.fsTagLen i ≠ 0 → i.val < b.usedSlots

/-- Changing the directory changes no parameter. -/
theorem Tracking.updateCWD {b : ParamBlock} {p : Proc} (h : Tracking b p) (dir : CStr) :
    Tracking b (updateCWD p dir) := by
  refine ⟨h.stamp, fun he => ?_, h.servers⟩
  have hp := h.current he
  exact ⟨hp.active, hp.nFsServer, hp.szFSTag, hp.fsTagLen, hp.tThresholdInt64, hp.maxFreq⟩

/-- Becoming ready changes no parameter. -/
theorem Tracking.ready {b : ParamBlock} {p : Proc} (h : Tracking b p) :
    Tracking b { p with shmReady := true } := by
  refine ⟨h.stamp, fun he => ?_, h.servers⟩
  have hp := h.current he
  exact ⟨hp.active, hp.nFsServer, hp.szFSTag, hp.fsTagLen, hp.tThresholdInt64, hp.maxFreq⟩

/-- The creator of the block holds what it has published. -/
theorem tracking_publish {p : Proc} {rdtscp : ℕ} (hn : p.nFsServer ≤ 8)
    (hpos : ∀ i : FsIdx, i.val < p.nFsServer → p.fsTagLen i ≠ 0)
    (hstamp : p.tUpdatedParam = 0) (hts : 0 < rdtscp) :
    BlockOk rdtscp (publishParameters p ParamBlock.zero rdtscp).2 ∧
      Tracking (publishParameters p ParamBlock.zero rdtscp).2
        (publishParameters p ParamBlock.zero rdtscp).1 := by
  obtain ⟨hused, htags⟩ := publishParameters_slots rdtscp hn hpos
  refine ⟨⟨hts, le_refl _, fun i hi => ?_⟩, ?_, fun he => ?_, .inr htags⟩
  · rw [← htags.1]
    exact (hused i).mp hi
  · exact hstamp.le.trans (Nat.zero_le _)
  · exact absurd (hstamp.symm.trans he) hts.ne

/-- A fresh process has seen no stamp and has no servers. -/
theorem exec_fresh (script? : Option CStr) :
    (Proc.exec script?).tUpdatedParam = 0 ∧ (Proc.exec script?).nFsServer = 0 := by
  simp only [Proc.exec]
  split <;> exact ⟨rfl, rfl⟩

theorem tUpdatedParam_readConfig? (p : Proc) (c? : Option Config) :
    (readConfig? p c?).tUpdatedParam = p.tUpdatedParam := by
  simp only [readConfig?]
  split <;> rfl

/-- **A start-up establishes the invariant** of the process, and of the block if it
creates it. -/
theorem initSharedMutex_spec {script? : Option CStr} {c? : Option Config}
    {param? : Option ParamBlock} {tsc wait : ℕ} {r : Proc × ParamBlock}
    (hok : ∀ b, param? = some b → BlockOk tsc b)
    (h : initSharedMutex (Proc.exec script?) c? param? (tsc + wait + 1) = some r) :
    BlockOk (tsc + wait + 1) r.2 ∧ Tracking r.2 r.1 ∧ ∀ b, param? = some b → r.2 = b := by
  obtain ⟨hstamp, hservers⟩ := exec_fresh script?
  cases param? with
  | none =>
      obtain ⟨hn, hpos⟩ := readConfig?_spec (Proc.exec script?) c?
      have hzero := (tUpdatedParam_readConfig? (Proc.exec script?) c?).trans hstamp
      obtain ⟨hblock, htrack⟩ := tracking_publish hn hpos hzero (Nat.succ_pos (tsc + wait))
      obtain rfl := Option.some.inj h
      exact ⟨hblock, htrack, nofun⟩
  | some b =>
      have hb := hok b rfl
      have hpos := hb.stamp_pos
      have hfresh : Tracking b (Proc.exec script?) :=
        ⟨by omega, fun he => by omega, .inl hservers⟩
      simp only [initSharedMutex] at h
      split at h
      · cases h
      · obtain rfl := Option.some.inj h
        refine ⟨⟨hpos, hb.stamp_le.trans (by omega), hb.slots⟩, hfresh.update (by omega), ?_⟩
        rintro b' ⟨⟩
        rfl

theorem init_spec {env : StartEnv} {param? : Option ParamBlock} {tsc wait : ℕ}
    {r : Proc × ParamBlock} (hok : ∀ b, param? = some b → BlockOk tsc b)
    (h : Ooops.init env param? (tsc + wait + 1) = some r) :
    BlockOk (tsc + wait + 1) r.2 ∧ Tracking r.2 r.1 ∧ ∀ b, param? = some b → r.2 = b := by
  obtain ⟨r₀, hshm, rfl⟩ := Option.map_eq_some_iff.mp h
  obtain ⟨hblock, htrack, hsame⟩ := initSharedMutex_spec hok hshm
  exact ⟨hblock, htrack.ready.updateCWD env.cwd, hsame⟩

/-! ### Runs of the node -/

/-- The invariant of a node. -/
structure NodeOk (w : World) : Prop where
  block : ∀ b, w.param? = some b → BlockOk w.tsc b
  procs : ∀ pid p, w.procs pid = some p → ∃ b, w.param? = some b ∧ Tracking b p

theorem NodeOk.init : NodeOk World.init := ⟨nofun, nofun⟩

theorem NodeOk.startUp {w w' : World} {pid : ℕ} {env : StartEnv} {wait : ℕ} (h : NodeOk w)
    (hs : worldStep w (.startUp pid env wait) = some w') : NodeOk w' := by
  simp only [worldStep] at hs
  split at hs
  · cases hs
  obtain ⟨r, hinit, rfl⟩ := Option.map_eq_some_iff.mp hs
  obtain ⟨hblock, htrack, hsame⟩ := init_spec h.block hinit
  refine ⟨?_, fun q p hp => ?_⟩
  · rintro b ⟨⟩
    exact hblock
  · change Function.update w.procs pid (some r.1) q = some p at hp
    by_cases hq : q = pid
    · subst hq
      rw [Function.update_self] at hp
      obtain rfl := Option.some.inj hp
      exact ⟨r.2, rfl, htrack⟩
    · rw [Function.update_of_ne hq] at hp
      obtain ⟨b, hb, htrack'⟩ := h.procs q p hp
      exact ⟨b, congrArg some (hsame b hb), htrack'⟩

theorem NodeOk.command {w w' : World} {env : ToolEnv} {c : Command} {wait : ℕ}
    (h : NodeOk w) (hs : worldStep w (.command env c wait) = some w') : NodeOk w' := by
  obtain rfl := Option.some.inj hs
  refine ⟨fun b hb => ?_, fun pid p hp => ?_⟩
  · obtain ⟨b₀, hb₀, rfl⟩ := Option.map_eq_some_iff.mp hb
    change BlockOk (w.tsc + wait + 1) _
    have hok := h.block b₀ hb₀
    obtain ⟨hlen, -⟩ := setIoParam_tags env c b₀ (w.tsc + wait + 1)
    have hslots : ∀ i, (setIoParam env c b₀ (w.tsc + wait + 1)).fsTagLen i ≠ 0 →
        i.val < (setIoParam env c b₀ (w.tsc + wait + 1)).usedSlots := by
      rw [ParamBlock.usedSlots]
      rw [hlen]
      exact hok.slots
    rcases setIoParam_stamp env c b₀ (w.tsc + wait + 1) with hsame | hnew
    · rw [hsame]
      exact ⟨hok.stamp_pos, hok.stamp_le.trans (by omega), hok.slots⟩
    · exact ⟨by omega, hnew.le, hslots⟩
  · obtain ⟨b, hb, htrack⟩ := h.procs pid p hp
    have hle := (h.block b hb).stamp_le
    have hlt : b.tUpdatedParam < w.tsc + wait + 1 := by omega
    have hnew : w.param?.map (fun b => setIoParam env c b (w.tsc + wait + 1)) =
        some (setIoParam env c b (w.tsc + wait + 1)) := by rw [hb, Option.map_some]
    exact ⟨_, hnew, htrack.setIoParam env c hlt⟩

/-- One action of a process, on the view that the node gives it. -/
theorem worldStep_act {w w' : World} {pid : ℕ} {a : ProcAction}
    (hs : worldStep w (.act pid a) = some w') :
    ∃ p b, w.procs pid = some p ∧ w.param? = some b ∧
      w'.param? = some (a.run ⟨p, b, w.shm, w.now⟩).param ∧ w'.tsc = w.tsc ∧
      w'.procs = Function.update w.procs pid (some (a.run ⟨p, b, w.shm, w.now⟩).proc) := by
  simp only [worldStep] at hs
  split at hs
  · rename_i p b hp hb
    obtain rfl := Option.some.inj hs
    exact ⟨p, b, hp, hb, rfl, rfl, rfl⟩
  · cases hs

/-- An action of a process leaves the block alone and keeps the invariant of the
process. -/
theorem Tracking.act {v : View} (h : Tracking v.param v.proc) (a : ProcAction) :
    (a.run v).param = v.param ∧ Tracking v.param (a.run v).proc := by
  cases a with
  | call hook e => exact ⟨(hook.run_settings v e).1, h.call hook e⟩
  | chdir dir => exact ⟨rfl, h.updateCWD dir⟩

theorem NodeOk.act {w w' : World} {pid : ℕ} {a : ProcAction} (h : NodeOk w)
    (hs : worldStep w (.act pid a) = some w') : NodeOk w' := by
  obtain ⟨p, b, hp, hb, hparam, htsc, hprocs⟩ := worldStep_act hs
  have htrack : Tracking b p := by
    obtain ⟨b', hb', ht⟩ := h.procs pid p hp
    obtain rfl := Option.some.inj (hb.symm.trans hb')
    exact ht
  obtain ⟨hkeep, hact⟩ := Tracking.act (v := ⟨p, b, w.shm, w.now⟩) htrack a
  rw [hkeep] at hparam
  refine ⟨fun b' hb' => ?_, fun q p' hp' => ?_⟩
  · obtain rfl := Option.some.inj (hparam.symm.trans hb')
    rw [htsc]
    exact h.block b hb
  · rw [hprocs] at hp'
    by_cases hq : q = pid
    · subst hq
      rw [Function.update_self] at hp'
      obtain rfl := Option.some.inj hp'
      exact ⟨b, hparam, hact⟩
    · rw [Function.update_of_ne hq] at hp'
      obtain ⟨b', hb', ht⟩ := h.procs q p' hp'
      obtain rfl := Option.some.inj (hb.symm.trans hb')
      exact ⟨b, hparam, ht⟩

/-- **Every step of the node keeps the invariant.** -/
theorem NodeOk.step {w w' : World} {a : WorldAct} (h : NodeOk w)
    (hs : worldStep w a = some w') : NodeOk w' := by
  cases a with
  | startUp pid env wait => exact h.startUp hs
  | command env c wait => exact h.command hs
  | act pid a => exact h.act hs

/-- The invariant holds after every run. -/
theorem nodeOk_of_run {as : List WorldAct} {w : World}
    (hrun : runSteps worldStep World.init as = some w) : NodeOk w :=
  invariant_of_runSteps (P := fun _ _ => True) NodeOk.init (fun _ _ _ h _ hs => h.step hs)
    (along_of_forall (fun _ _ => trivial) _ as) hrun

/-- A process with the servers of the block charges a tagged path to one of them. -/
theorem SameTags.idxFsServer_ne_none {tsc : ℕ} {b : ParamBlock} {p : Proc} {path : CStr}
    (h : SameTags b p) (hb : BlockOk tsc b) (ht : b.Tagged path) :
    (checkFSServer p path).idxFsServer ≠ none := by
  obtain ⟨i, hi, hmatch⟩ := ht
  have hfirst : (firstTag p path).isSome := by
    refine List.find?_isSome.mpr ⟨i, List.mem_finRange i, ?_⟩
    rw [h.2 i hi, hmatch, h.1, Bool.and_true]
    exact decide_eq_true (hb.slots i hi)
  obtain ⟨j, hj⟩ := Option.isSome_iff_exists.mp hfirst
  rw [checkFSServer_of_firstTag hj]
  exact Option.some_ne_none j

/-- A tagged path needs a slot. -/
theorem BlockOk.one_le_usedSlots {tsc : ℕ} {b : ParamBlock} {path : CStr}
    (hb : BlockOk tsc b) (ht : b.Tagged path) : 1 ≤ b.usedSlots := by
  obtain ⟨i, hi, -⟩ := ht
  have := hb.slots i hi
  omega

/-- After a call that takes over new parameters, they are those of an active block. -/
theorem Tracking.propagated_refresh {v : View} (h : Tracking v.param v.proc)
    (hon : v.param.pDisabled = 0) : Propagated v.param (Ooops.refresh v).proc := by
  rw [Ooops.refresh]
  split
  · exact propagated_updateParameters (by omega)
  · rename_i hsame
    exact h.current (not_not.mp hsame)

/-- **Propagation.** In every run, after an intercepted call on a tagged path with the
library switched on, the process has the parameters of the block exactly if the call was a
`stat`, or the process had servers before the call and the call was not redirected to
another script, a redirected call finding the parameters as they are. -/
theorem propagates_iff {as : List WorldAct} {w w' : World} {pid : ℕ} {hook : Hook}
    {e : CallEnv} {p p' : Proc} {b : ParamBlock}
    (hrun : runSteps worldStep World.init as = some w) (hp : w.procs pid = some p)
    (hcall : worldStep w (.act pid (.call hook e)) = some w')
    (hp' : w'.procs pid = some p') (hb : w'.param? = some b) (htag : b.Tagged e.path)
    (hon : b.pDisabled = 0) :
    Propagated b p' ↔
      hook.op = .lxstat ∨ 1 ≤ p.nFsServer ∧ (hook.Redirected p e.path → Propagated b p) := by
  have hok := nodeOk_of_run hrun
  obtain ⟨p₀, b₀, hp₀, hb₀, hparam, -, hprocs⟩ := worldStep_act hcall
  obtain rfl := Option.some.inj (hp.symm.trans hp₀)
  obtain ⟨hkeep, hyes, hno⟩ := hook.run_settings ⟨p, b₀, w.shm, w.now⟩ e
  obtain rfl : b = b₀ := by
    refine Option.some.inj (hb.symm.trans (hparam.trans (congrArg some ?_)))
    exact hkeep
  have hp'run : (hook.run ⟨p, b, w.shm, w.now⟩ e).proc = p' := by
    rw [hprocs, Function.update_self] at hp'
    exact Option.some.inj hp'
  have hblock := hok.block b hb₀
  have htrack : Tracking b p := by
    obtain ⟨b', hb', ht⟩ := hok.procs pid p hp
    obtain rfl := Option.some.inj (hb₀.symm.trans hb')
    exact ht
  rw [hp'run] at hyes hno
  by_cases hr : hook.Refreshes p e.path
  · have hprop := htrack.propagated_refresh (v := ⟨p, b, w.shm, w.now⟩) hon
    refine ⟨fun _ => ?_, fun _ => hprop.congr (hyes hr)⟩
    rcases hr with hop | ⟨hred, hn, -⟩
    · exact .inl hop
    · exact .inr ⟨hn, fun h => absurd h hred⟩
  · have hsame : Propagated b p' ↔ Propagated b p :=
      ⟨fun h => h.congr (hno hr).symm, fun h => h.congr (hno hr)⟩
    rw [hsame]
    constructor
    · intro hprop
      exact .inr ⟨hprop.nFsServer ▸ hblock.one_le_usedSlots htag, fun _ => hprop⟩
    · rintro (hop | ⟨hn, hred⟩)
      · exact absurd (.inl hop) hr
      · by_cases hredirected : hook.Redirected p e.path
        · exact hred hredirected
        · -- the call would have reached the stamps
          have htags : SameTags b p := htrack.servers.resolve_left (by omega)
          exact absurd (.inr ⟨hredirected, hn, htags.idxFsServer_ne_none hblock htag⟩) hr

/-- A configuration with one server, `/scratch`. -/
def scratchConfig : Config where
  freq := 2600000000
  records := [⟨bytesOf "/scratch", fun _ => 467.97, fun _ => 1000, by decide⟩]
  length_le := by decide

/-- The surroundings of a process that starts in `/`. -/
def scratchStart : StartEnv := ⟨some scratchConfig, bytesOf "/", none⟩

/-- A command line run where `IO_LIMIT_CONFIG` is not set. -/
def plainTool : ToolEnv := ⟨2600000000, none⟩

/-- Surroundings of a call on a file below `/scratch` that takes no time. -/
def scratchCall : CallEnv := ⟨bytesOf "/scratch/a", 0, 0, 4711, 0, 0, 0⟩

/-- Process 0 creates the block, the library is switched off, process 1 starts, and the
library is switched on again. -/
def enableRun : List WorldAct :=
  [.startUp 0 scratchStart 0, .command plainTool (.enable false) 0,
   .startUp 1 scratchStart 0, .command plainTool (.enable true) 0]

/-- The node after `enableRun`. -/
def enabledWorld : World := (runSteps worldStep World.init enableRun).getD World.init

/-- The node when process `pid` has opened a file below `/scratch` after that. -/
def openedWorld (pid : ℕ) : World :=
  (worldStep enabledWorld (.act pid (.call .myOpenLibc scratchCall))).getD enabledWorld

/-- The creator makes an `open` after all that and has the parameters of the block. -/
theorem propagates_iff_enableRun :
    ∃ p b, (openedWorld 0).procs 0 = some p ∧ (openedWorld 0).param? = some b ∧
      Propagated b p := by
  have hrun : runSteps worldStep World.init enableRun = some enabledWorld := rfl
  have hcall : worldStep enabledWorld (.act 0 (.call .myOpenLibc scratchCall)) =
      some (openedWorld 0) := rfl
  refine ⟨_, _, rfl, rfl, ?_⟩
  refine (propagates_iff hrun rfl hcall rfl rfl ⟨0, by decide, by decide⟩ rfl).mpr ?_
  refine .inr ⟨by decide, fun hred => absurd hred.2 (by decide)⟩

/-- **An `open` misses that the library is switched on.** Process 1 has no servers, its
`open` returns before it compares the stamps, and it stays switched off. -/
theorem open_misses_enable :
    ¬∀ as w w' pid hook e p' b, runSteps worldStep World.init as = some w →
      worldStep w (.act pid (.call hook e)) = some w' → w'.procs pid = some p' →
      w'.param? = some b → b.Tagged e.path → b.pDisabled = 0 → Propagated b p' := by
  intro h
  have hprop := h enableRun enabledWorld (openedWorld 1) 1 .myOpenLibc scratchCall _ _
    rfl rfl rfl rfl ⟨0, by decide, by decide⟩ rfl
  exact absurd hprop.active (by decide)

end Ooops
