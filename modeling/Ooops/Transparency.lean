import Ooops.Basis.Service
import Ooops.GetcwdCache
import Ooops.Propagation
import Ooops.SleepRequests

/-!
# A Program under the Library

The library is preloaded into programs that know nothing of it. Behind the hooks are the
functions of the C library, and what a program gets from a hook should be what it would get from
the function: the value, or the `errno` of a failure, and the same effect. The delays are not
seen here, only the order of the calls is.

A hook looks at the path before the real function does, and so needs one. The hooks of `open`
pass a mode on only with `O_CREAT`. The hook of `libc` opens another job script in place of the
one that the shell was started with. Every hook accounts for the call after the real function
has set `errno`, and a sleep that is refused or interrupted sets it again.

* `CLibrary` is what a program calls, `CLibrary.serve` a program without the library.
* `preloaded` is the same program under it.
* `Undisturbed` is when a call is not changed.
* `program_unnoticed`: no program with one thread gets to see the library as long as its calls
  are undisturbed.
* `fileCall_errno`: what a call that fails is reported to have failed with.
-/

open Basis

namespace Ooops

/-! ### The C library -/

/-- What a call returns. -/
inductive Value
  | int (n : ℤ)
  | str (s : CStr)
  deriving DecidableEq

/-- A call answers with a value or fails with an `errno`. -/
abbrev Reply := Except ℕ Value

/-- The number of an `errno`. -/
def Errno.number : Errno → ℕ
  | .eINTR => 4
  | .eINVAL => 22
  | .eRANGE => 34
  | .eNOMEM => 12

/-- What `getcwd` answers. -/
def getcwdReply : Except Errno CStr → Reply
  | .ok dir => .ok (.str dir)
  | .error e => .error e.number

/-- `O_CREAT`. -/
def oCreat : BitVec 32 := 0o100

/-- `O_TMPFILE`. -/
def oTmpfile : BitVec 32 := 0o20200000

/-- The flags with which `open` takes a mode. -/
def NeedsMode (oflags : BitVec 32) : Prop :=
  oflags &&& oCreat ≠ 0 ∨ oflags &&& oTmpfile = oTmpfile

/-- The argument of `chdir` or `fchdir`. A path is none for a pointer to no string. -/
inductive DirArg
  | path (p : Option CStr)
  | fd (n : BitVec 32)

/-- The calls that are hooked. After the path `open` has its flags and a mode; `stat` has the
version and the buffer. -/
inductive LibCall
  | file (h : Hook) (path : Option CStr) (num : BitVec 32) (last : BitVec 64)
  | chdir (dir : DirArg)
  | getcwd (bufNull : Bool) (size : ℕ)

/-- The real functions, over the state `σ` of everything they depend on. Only `chdir` and `fchdir`
change the working directory, and `open` looks at a mode only where it takes one. -/
structure CLibrary (σ : Type*) where
  cwd : σ → Dir
  file : Hook → σ → Option CStr → BitVec 32 → BitVec 64 → Reply × σ
  chdir : σ → DirArg → Reply × σ
  cwd_file : ∀ h s path num last, cwd (file h s path num last).2 = cwd s
  mode_ignored : ∀ h s path oflags mode mode', h.op = .openFile → ¬NeedsMode oflags →
    file h s path oflags mode = file h s path oflags mode'

variable {σ : Type*}

/-- What surrounds a call: the clocks, whether a signal handler interrupts the sleep, the register
of the third argument, the allocations that succeed, and what other processes have made of the
shared segments and of everything else. Each call meets a clock and segments of its own, so that
nothing depends on how much of a sleep is left when it is interrupted. -/
structure Surroundings (lib : CLibrary σ) where
  times : CallEnv
  interrupted : Bool
  rdx : BitVec 64
  malloc : ℕ → Bool
  param : ParamBlock
  shm : Shm
  maxFreqShare : Op → FsIdx → FloatNum binary32
  dTToSleep : Op → FsIdx → FloatNum binary64
  now : ℚ
  others : σ → σ
  cwd_others : ∀ s, lib.cwd (others s) = lib.cwd s

/-- The calls of a program without the library. -/
def CLibrary.serve (lib : CLibrary σ) (s : σ) (c : LibCall) (w : Surroundings lib) :
    Option (Reply × σ) :=
  let s := w.others s
  match c with
  | .file h path num last => some (lib.file h s path num last)
  | .chdir dir => some (lib.chdir s dir)
  | .getcwd bufNull size =>
      some (getcwdReply (libcGetcwd w.malloc (lib.cwd s).path bufNull size).ret, s)

/-! ### The hooks -/

namespace MachineView

/-- What a hook does before the real function. -/
def prepare (h : Hook) (m : MachineView) (e : CallEnv) : MachineView :=
  match h.op with
  | .openFile => { m with view := getTime 0 (m.view.checkPath e) e }
  | .lxstat => { m with view := preLxstat (m.view.checkPath e) e }

/-- What it does after it: `GetTime(1)`, or `post_lxstat`. -/
def finish (h : Hook) (m : MachineView) (e : CallEnv) : MachineView × Option SleepRequest :=
  match h.op with
  | .openFile =>
      if m.view.proc.idxFsServer = none ∨ m.view.proc.nFsServer < 1 then (m, none)
      else m.updateOpenCount e
  | .lxstat => m.postLxstat e

/-- The memory of a process that other processes have written to. -/
def meet {lib : CLibrary σ} (m : MachineView) (w : Surroundings lib) : MachineView where
  view := { proc := m.view.proc, param := w.param, shm := w.shm, now := w.now }
  maxFreq := m.maxFreq
  maxFreqShare := w.maxFreqShare
  dTToSleep := w.dTToSleep

/-- The call is delayed, with a request of which `p` holds. -/
def Delayed (h : Hook) (m : MachineView) (e : CallEnv) (p : SleepRequest → Prop) : Prop :=
  (h.op = .openFile → 1 ≤ m.view.proc.nFsServer) ∧
    ∃ i, m.refresh.Tracks i ∧ m.refresh.Delays h.op i e ∧ p (m.refresh.request h.op i e)

/-- The sleep after a call is refused: it is delayed, and asks for a negative time. -/
def Refuses (h : Hook) (m : MachineView) (e : CallEnv) : Prop :=
  m.Delayed h e fun r => r.tNsSleep < 0

/-- The sleep after a call is interrupted: it is delayed, asks for no negative time, and a signal
handler runs. -/
def CutShort (h : Hook) (m : MachineView) (e : CallEnv) (interrupted : Bool) : Prop :=
  m.Delayed h e fun r => 0 ≤ r.tNsSleep ∧ interrupted = true

end MachineView

/-- The last argument of the real function. The hooks of `open` read their own only with
`O_CREAT`; otherwise the real function finds what is in the register. -/
def Hook.lastArg (h : Hook) (num : BitVec 32) (last rdx : BitVec 64) : BitVec 64 :=
  match h.op with
  | .openFile => if num &&& oCreat ≠ 0 then last else rdx
  | .lxstat => last

/-- The `errno` that `nanosleep` sets. -/
def SleepRequest.errno? (interrupted : Bool) (r : SleepRequest) : Option ℕ :=
  if r.timespec.valid then
    if interrupted then some Errno.eINTR.number else none
  else some Errno.eINVAL.number

/-- What the program finds of an answer after the accounting. -/
def afterSleep (interrupted : Bool) (r? : Option SleepRequest) : Reply → Reply
  | .ok v => .ok v
  | .error n => .error ((r?.bind (SleepRequest.errno? interrupted)).getD n)

/-- A process with the library: its memory, the name of the job script that replaces the one it
was started with, and everything else. -/
structure Preloaded (σ : Type*) where
  machine : MachineView
  szBatchScriptNameNew : CStr
  world : σ

/-- The process when a call is made, after what the others have done. -/
def Preloaded.meet {lib : CLibrary σ} (t : Preloaded σ) (w : Surroundings lib) : Preloaded σ :=
  { t with machine := t.machine.meet w, world := w.others t.world }

/-- A hooked `open` or `stat`, of which only that of `libc` knows the job script. -/
def fileCall (lib : CLibrary σ) (t : Preloaded σ) (h : Hook) (path : CStr) (num : BitVec 32)
    (last : BitVec 64) (e : CallEnv) (interrupted : Bool) : Reply × Preloaded σ :=
  if h = .myOpenLibc ∧ t.machine.view.proc.redirects path = true then
    let r := lib.file h t.world (some t.szBatchScriptNameNew) num last
    (r.1, { t with world := r.2 })
  else
    let m := t.machine.prepare h e
    let r := lib.file h t.world (some path) num last
    let out := m.finish h e
    (afterSleep interrupted out.2 r.1, { t with machine := out.1, world := r.2 })

/-- Change the variables of the process. -/
def Preloaded.setProc (t : Preloaded σ) (p : Proc) (s : σ) : Preloaded σ :=
  { t with
    machine := { t.machine with view := { t.machine.view with proc := p } }
    world := s }

/-- The calls of a program under the library. No result stands for the end of the process, in a
hook that reads a path from nowhere or in one that exits. -/
def preloaded (lib : CLibrary σ) (t : Preloaded σ) (c : LibCall) (w : Surroundings lib) :
    Option (Reply × Preloaded σ) :=
  let t := t.meet w
  match c with
  | .file h path num last =>
      path.map fun path =>
        fileCall lib t h path num (h.lastArg num last w.rdx) { w.times with path := path }
          w.interrupted
  | .chdir dir =>
      let r := lib.chdir t.world dir
      match (libcGetcwd (fun _ => false) (lib.cwd r.2).path false maxPath).ret with
      | .ok szDir => some (r.1, t.setProc (updateCWD t.machine.view.proc szDir) r.2)
      | .error _ => none
  | .getcwd bufNull size =>
      (hookedGetcwd t.machine.view.proc w.malloc (lib.cwd t.world).path bufNull size).map
        fun r => (getcwdReply r.1.ret, t.setProc r.2 t.world)

/-- When a call is not changed. A path is a string, and not that of the job script in `libc`. A
mode comes with `O_CREAT`, or is where the real function looks for it. A call that fails is not
followed by a sleep that is refused or interrupted, or only if it fails with the `errno` that this
sets. A directory has a path of less than `MAX_PATH` bytes, and `getcwd` is as `Expected`. -/
def Undisturbed (lib : CLibrary σ) (t : Preloaded σ) (c : LibCall) (w : Surroundings lib) :
    Prop :=
  let t := t.meet w
  match c with
  | .file h path num last =>
      ∃ p, path = some p ∧ ¬(h = .myOpenLibc ∧ t.machine.view.proc.redirects p = true) ∧
        (h.op = .openFile → NeedsMode num → num &&& oCreat ≠ 0 ∨ w.rdx = last) ∧
        ∀ n, (lib.file h t.world path num last).1 = .error n →
          let e := { w.times with path := p }
          ((t.machine.prepare h e).Refuses h e → n = Errno.eINVAL.number) ∧
            ((t.machine.prepare h e).CutShort h e w.interrupted → n = Errno.eINTR.number)
  | .chdir dir => (lib.cwd (lib.chdir t.world dir).2).path.length < maxPath
  | .getcwd bufNull size =>
      Expected ⟨t.machine.view.proc, lib.cwd t.world⟩ (.getcwd w.malloc bufNull size)

/-! ### Sleeps that fail -/

/-- A request is refused exactly for a negative time. -/
theorem SleepRequest.valid_timespec_iff (r : SleepRequest) :
    r.timespec.valid = true ↔ 0 ≤ r.tNsSleep := by
  rw [timespec]
  refine ⟨fun hvalid => ?_, Timespec.valid_ofNs⟩
  rw [Timespec.valid, decide_eq_true_eq] at hvalid
  obtain ⟨hsec, hnsec, -⟩ := hvalid
  have hsplit : 1000000000 * r.tNsSleep.tdiv 1000000000 + r.tNsSleep.tmod 1000000000 =
    r.tNsSleep := Int.mul_tdiv_add_tmod _ _
  simp only [Timespec.ofNs] at hsec hnsec
  omega

namespace MachineView

variable {h : Hook} {m : MachineView} {e : CallEnv}

/-- The requests of the throttle. -/
theorem throttle_request_iff (op : Op) {r : SleepRequest} : (m.throttle op e).2 = some r ↔
    ∃ i, m.refresh.Tracks i ∧ m.refresh.Delays op i e ∧ m.refresh.request op i e = r := by
  rcases throttle_cases op m e with ⟨i, htracks, heq⟩ | ⟨hnone, heq⟩
  · have hsame : ∀ j, m.refresh.Tracks j → j = i := fun j hj =>
      Option.some.inj (hj.2.2.symm.trans htracks.2.2)
    rw [heq]
    rcases account_cases op i m.refresh e with ⟨hdelays, hreq, -⟩ | ⟨hnot, hreq, -⟩
    · rw [hreq, Option.some.injEq]
      refine ⟨fun hr => ⟨i, htracks, hdelays, hr⟩, ?_⟩
      rintro ⟨j, hj, -, hr⟩
      rwa [hsame j hj] at hr
    · rw [hreq]
      refine iff_of_false nofun ?_
      rintro ⟨j, hj, hdelays, -⟩
      exact hnot (hsame j hj ▸ hdelays)
  · rw [heq]
    refine iff_of_false nofun ?_
    rintro ⟨i, htracks, -⟩
    exact hnone i htracks

/-- What a hook finishes with, where the accounting is reached. -/
theorem finish_eq_throttle (hservers : h.op = .openFile → 1 ≤ m.view.proc.nFsServer)
    (hidx : m.view.proc.idxFsServer ≠ none) : m.finish h e = m.throttle h.op e := by
  rw [finish]
  cases hop : h.op with
  | openFile =>
      have hnone : ¬(m.view.proc.idxFsServer = none ∨ m.view.proc.nFsServer < 1) :=
        not_or.mpr ⟨hidx, not_lt.mpr (hservers hop)⟩
      exact if_neg hnone
  | lxstat => rfl

theorem Tracks.idx_ne_none {i : FsIdx} (htracks : m.refresh.Tracks i) :
    m.view.proc.idxFsServer ≠ none := by
  rw [← m.view_refresh.2, htracks.2.2]
  exact Option.some_ne_none i

/-- **The requests of a hook** are those of the calls that are delayed. -/
theorem delayed_iff {p : SleepRequest → Prop} :
    m.Delayed h e p ↔ ∃ r, (m.finish h e).2 = some r ∧ p r := by
  constructor
  · rintro ⟨hservers, i, htracks, hdelays, hp⟩
    rw [finish_eq_throttle hservers htracks.idx_ne_none]
    exact ⟨_, (throttle_request_iff h.op).mpr ⟨i, htracks, hdelays, rfl⟩, hp⟩
  · rintro ⟨r, hr, hp⟩
    have hservers : h.op = .openFile → 1 ≤ m.view.proc.nFsServer := by
      intro hop
      by_contra hfew
      rw [finish, hop] at hr
      simp only [if_pos (Or.inr (not_le.mp hfew)), reduceCtorEq] at hr
    have hidx : m.view.proc.idxFsServer ≠ none := by
      intro hnone
      rw [finish] at hr
      split at hr
      · rw [if_pos (.inl hnone)] at hr
        cases hr
      · obtain ⟨i, htracks, -⟩ := (throttle_request_iff .lxstat).mp hr
        exact htracks.idx_ne_none hnone
    rw [finish_eq_throttle hservers hidx] at hr
    obtain ⟨i, htracks, hdelays, rfl⟩ := (throttle_request_iff h.op).mp hr
    exact ⟨hservers, i, htracks, hdelays, hp⟩

/-- **The `errno` of a hook** is set exactly by a sleep that fails. -/
theorem errno?_finish {interrupted : Bool} {n : ℕ} :
    (m.finish h e).2.bind (SleepRequest.errno? interrupted) = some n ↔
      m.Refuses h e ∧ n = Errno.eINVAL.number ∨
        m.CutShort h e interrupted ∧ n = Errno.eINTR.number := by
  rw [Refuses, CutShort, delayed_iff, delayed_iff]
  cases (m.finish h e).2 with
  | none => simp
  | some r =>
      have hvalid := r.valid_timespec_iff
      simp only [Option.bind_some, SleepRequest.errno?, Option.some.injEq, exists_eq_left', hvalid]
      split_ifs with hpos hintr
      · simp [hpos, not_lt.mpr hpos, hintr, eq_comm]
      · simp [hpos, not_lt.mpr hpos, hintr]
      · simp [hpos, not_le.mp hpos, eq_comm]

/-- Whether the `errno` of a call that has failed stays as it is. -/
theorem errno?_keeps_iff {interrupted : Bool} {n : ℕ} :
    (∀ k, (m.finish h e).2.bind (SleepRequest.errno? interrupted) = some k → k = n) ↔
      (m.Refuses h e → n = Errno.eINVAL.number) ∧
        (m.CutShort h e interrupted → n = Errno.eINTR.number) := by
  constructor
  · intro hkeeps
    exact ⟨fun hr => (hkeeps _ (errno?_finish.mpr (.inl ⟨hr, rfl⟩))).symm,
      fun hc => (hkeeps _ (errno?_finish.mpr (.inr ⟨hc, rfl⟩))).symm⟩
  · rintro ⟨hinval, hintr⟩ k hk
    rcases errno?_finish.mp hk with ⟨hr, rfl⟩ | ⟨hc, rfl⟩
    · exact (hinval hr).symm
    · exact (hintr hc).symm

/-! ### The cached directory -/


theorem szUpdatedDir_refresh (m : MachineView) :
    m.refresh.view.proc.szUpdatedDir = m.view.proc.szUpdatedDir := by
  simp only [refresh, Ooops.refresh]
  split
  · rw [updateParameters]
    split <;> rfl
  · rfl

theorem szUpdatedDir_throttle (op : Op) (m : MachineView) (e : CallEnv) :
    (m.throttle op e).1.view.proc.szUpdatedDir = m.view.proc.szUpdatedDir := by
  rw [← szUpdatedDir_refresh m]
  rcases throttle_cases op m e with ⟨i, -, heq⟩ | ⟨-, heq⟩
  · have henter := congrArg Proc.szUpdatedDir (accounted_enter op i m.refresh.view e).settings
    rw [heq]
    rcases account_cases op i m.refresh e with ⟨-, -, hview⟩ | ⟨-, -, hview⟩
    · rw [hview]
      exact henter
    · rw [hview]
      exact henter
  · rw [heq]

theorem szUpdatedDir_prepare (h : Hook) (m : MachineView) (e : CallEnv) :
    (m.prepare h e).view.proc.szUpdatedDir = m.view.proc.szUpdatedDir := by
  have hcheck := congrArg Proc.szUpdatedDir (settings_checkFSServer m.view.proc e.path)
  rw [prepare]
  split
  · simp only [getTime]
    split
    · exact hcheck
    · split
      · exact hcheck
      · exact hcheck
  · simp only [preLxstat]
    split
    · exact hcheck
    · exact hcheck

theorem szUpdatedDir_finish (h : Hook) (m : MachineView) (e : CallEnv) :
    (m.finish h e).1.view.proc.szUpdatedDir = m.view.proc.szUpdatedDir := by
  rw [finish]
  split
  · split
    · rfl
    · exact szUpdatedDir_throttle .openFile m e
  · exact szUpdatedDir_throttle .lxstat m e

end MachineView

/-! ### Calls and programs -/

/-- What is cached of the directory is right. -/
def Preloaded.Recorded (lib : CLibrary σ) (t : Preloaded σ) : Prop :=
  Caller.Recorded ⟨t.machine.view.proc, lib.cwd t.world⟩

/-- An error is reported as it is unless a sleep sets another one. -/
theorem afterSleep_error_iff {interrupted : Bool} {r? : Option SleepRequest} {n : ℕ} :
    afterSleep interrupted r? (.error n) = .error n ↔
      ∀ k, r?.bind (SleepRequest.errno? interrupted) = some k → k = n := by
  rw [afterSleep]
  cases r?.bind (SleepRequest.errno? interrupted) with
  | none => exact iff_of_true rfl nofun
  | some k =>
      rw [Option.getD_some]
      refine ⟨fun h j hj => ?_, fun h => congrArg _ (h k rfl)⟩
      rw [← Option.some.inj hj]
      exact Except.error.inj h

/-- The last argument is what the program has passed, where the real function looks at it. -/
theorem file_lastArg (lib : CLibrary σ) {h : Hook} {num : BitVec 32} {last rdx : BitVec 64}
    (hmode : h.op = .openFile → NeedsMode num → num &&& oCreat ≠ 0 ∨ rdx = last) (s : σ)
    (path : Option CStr) :
    lib.file h s path num (h.lastArg num last rdx) = lib.file h s path num last := by
  rw [Hook.lastArg]
  cases hop : h.op with
  | lxstat => rfl
  | openFile =>
      simp only
      split_ifs with hcreat
      · rfl
      · by_cases hneeds : NeedsMode num
        · rw [(hmode hop hneeds).resolve_left hcreat]
        · exact lib.mode_ignored h s path num rdx last hop hneeds

/-- A file call on any path but that of the job script. -/
theorem fileCall_of_not_redirected (lib : CLibrary σ) {t : Preloaded σ} {h : Hook} {path : CStr}
    (hscript : ¬(h = .myOpenLibc ∧ t.machine.view.proc.redirects path = true))
    (num : BitVec 32) (last : BitVec 64) (e : CallEnv) (interrupted : Bool) :
    fileCall lib t h path num last e interrupted =
      (afterSleep interrupted ((t.machine.prepare h e).finish h e).2
        (lib.file h t.world (some path) num last).1,
      { t with
        machine := ((t.machine.prepare h e).finish h e).1
        world := (lib.file h t.world (some path) num last).2 }) := if_neg hscript

/-- **Errors.** A hooked `open` or `stat` that fails reports its own `errno` exactly if no sleep
sets another one. A sleep that is refused sets `EINVAL`, one that is interrupted `EINTR`. -/
theorem fileCall_errno (lib : CLibrary σ) {t : Preloaded σ} {h : Hook} {path : CStr}
    (hscript : ¬(h = .myOpenLibc ∧ t.machine.view.proc.redirects path = true))
    {num : BitVec 32} {last : BitVec 64} {e : CallEnv} (interrupted : Bool) {n : ℕ}
    (hfail : (lib.file h t.world (some path) num last).1 = .error n) :
    ((fileCall lib t h path num last e interrupted).1 = .error n ↔
        ((t.machine.prepare h e).Refuses h e → n = Errno.eINVAL.number) ∧
          ((t.machine.prepare h e).CutShort h e interrupted → n = Errno.eINTR.number)) ∧
      ((t.machine.prepare h e).Refuses h e →
        (fileCall lib t h path num last e interrupted).1 = .error Errno.eINVAL.number) ∧
      ((t.machine.prepare h e).CutShort h e interrupted →
        (fileCall lib t h path num last e interrupted).1 = .error Errno.eINTR.number) := by
  rw [fileCall_of_not_redirected lib hscript, hfail]
  refine ⟨afterSleep_error_iff.trans MachineView.errno?_keeps_iff, fun hr => ?_, fun hc => ?_⟩
  · rw [afterSleep, MachineView.errno?_finish.mpr (.inl ⟨hr, rfl⟩), Option.getD_some]
  · rw [afterSleep, MachineView.errno?_finish.mpr (.inr ⟨hc, rfl⟩), Option.getD_some]

/-- `Update_CWD` reads any path but one that is too long. -/
theorem updateCWD_path (dir : Dir) (hlen : dir.path.length < maxPath) :
    (libcGetcwd (fun _ => false) dir.path false maxPath).ret = .ok dir.path := by
  rw [libcGetcwd, if_neg Bool.false_ne_true, if_neg (by decide), if_pos hlen]

/-- **One call** that is undisturbed is answered like without the library. -/
theorem preloaded_undisturbed (lib : CLibrary σ) {t : Preloaded σ} {c : LibCall}
    {w : Surroundings lib} (hrec : t.Recorded lib) (h : Undisturbed lib t c w) :
    ∃ r, preloaded lib t c w = some r ∧ lib.serve t.world c w = some (r.1, r.2.world) ∧
      r.2.Recorded lib := by
  have hrec' : (t.meet w).Recorded lib := by
    rw [Preloaded.Recorded, Preloaded.meet, w.cwd_others]
    exact hrec
  cases c with
  | file k path num last =>
      obtain ⟨p, rfl, hscript, hmode, herrno⟩ := h
      have hlast := file_lastArg lib hmode (w.others t.world) (some p)
      have hreply : afterSleep w.interrupted
          (((t.meet w).machine.prepare k { w.times with path := p }).finish k
            { w.times with path := p }).2 (lib.file k (t.meet w).world (some p) num last).1 =
          (lib.file k (t.meet w).world (some p) num last).1 := by
        cases hfail : (lib.file k (t.meet w).world (some p) num last).1 with
        | ok v => rfl
        | error n =>
            exact afterSleep_error_iff.mpr (MachineView.errno?_keeps_iff.mpr (herrno n hfail))
      have hcall := fileCall_of_not_redirected lib hscript num (k.lastArg num last w.rdx)
        { w.times with path := p } w.interrupted
      refine ⟨_, congrArg some hcall, ?_, ?_⟩
      · simp only [Preloaded.meet] at hreply ⊢
        simp only [CLibrary.serve, hlast, hreply]
      · rw [Preloaded.Recorded, Caller.Recorded, MachineView.szUpdatedDir_finish,
          MachineView.szUpdatedDir_prepare, lib.cwd_file]
        exact hrec'
  | chdir dir =>
      have hpath := updateCWD_path _ h
      have hcall : preloaded lib t (.chdir dir) w = some ((lib.chdir (t.meet w).world dir).1,
          (t.meet w).setProc (updateCWD (t.meet w).machine.view.proc
            (lib.cwd (lib.chdir (t.meet w).world dir).2).path)
            (lib.chdir (t.meet w).world dir).2) := by
        simp only [preloaded, hpath]
      exact ⟨_, hcall, rfl, .inr rfl⟩
  | getcwd bufNull size =>
      have hexp : Expected ⟨(t.meet w).machine.view.proc, lib.cwd (t.meet w).world⟩
        (.getcwd w.malloc bufNull size) := h
      obtain ⟨r, hr, hret, -⟩ := (Caller.Recorded.transparent_iff hrec' _).mpr hexp
      have hstep : hookedCall ⟨(t.meet w).machine.view.proc, lib.cwd (t.meet w).world⟩
          (.getcwd w.malloc bufNull size) = some ⟨r.2, lib.cwd (t.meet w).world⟩ := by
        rw [hookedCall, hr, Option.map_some]
      refine ⟨_, Option.map_eq_some_iff.mpr ⟨r, hr, rfl⟩, ?_, Caller.Recorded.step hrec' hstep⟩
      rw [CLibrary.serve, hret]
      rfl

/-- A process is started in the directory that it has cached. -/
theorem recorded_init {lib : CLibrary σ} {env : StartEnv} {param? : Option ParamBlock}
    {rdtscp : ℕ} {b : ParamBlock} {t : Preloaded σ}
    (hinit : init env param? rdtscp = some (t.machine.view.proc, b))
    (hcwd : (lib.cwd t.world).path = env.cwd) : t.Recorded lib := by
  obtain ⟨r, -, hr⟩ := Option.map_eq_some_iff.mp hinit
  refine .inr ?_
  rw [← (Prod.mk.inj hr).1]
  exact hcwd.symm

/-- **Transparency.** Whatever a program with one thread asks, and whatever other processes do in
between, it gets the answers of the C library with the same effects, as long as its calls are
undisturbed. -/
theorem program_unnoticed (lib : CLibrary σ) {env : StartEnv} {param? : Option ParamBlock}
    {rdtscp : ℕ} {b : ParamBlock} {t : Preloaded σ}
    (hinit : init env param? rdtscp = some (t.machine.view.proc, b))
    (hcwd : (lib.cwd t.world).path = env.cwd) (program : List Reply → LibCall)
    {ws : List (Surroundings lib)}
    (hcalls : Asks (preloaded lib) (Undisturbed lib) program t ws) :
    ∃ t' replies, runSteps (ask (preloaded lib) program) (t, []) ws = some (t', replies) ∧
      runSteps (ask lib.serve program) (t.world, []) ws = some (t'.world, replies) := by
  obtain ⟨t', replies, hrun, hrun', -⟩ := wrapper_unnoticed (π := Preloaded.world)
    (fun _ _ _ hrec h => preloaded_undisturbed lib hrec h) program (recorded_init hinit hcwd)
    hcalls
  exact ⟨t', replies, hrun, hrun'⟩

/-! A program that does not find a file, and goes to another directory. -/

/-- A C library without files. -/
def emptyLibrary : CLibrary Dir where
  cwd := id
  file := fun _ s _ _ _ => (.error 2, s)
  chdir := fun _ _ => (.ok (.int 0), ⟨bytesOf "/scratch", by decide⟩)
  cwd_file := fun _ _ _ _ _ => rfl
  mode_ignored := fun _ _ _ _ _ _ _ _ => rfl

/-- The calls of the program. -/
def lostProgram (replies : List Reply) : LibCall :=
  match replies with
  | [] => .file .myOpenLibc (some (bytesOf "/scratch/a")) 0 0
  | [_] => .chdir (.path (some (bytesOf "/scratch")))
  | _ => .getcwd true 0

/-- The fifth call on a server, which comes at once and took the ticks `tNew`. -/
def fifthCall (now : ℚ) (tNew : ℕ) : Surroundings emptyLibrary where
  times := MachineView.openTook tNew
  interrupted := false
  rdx := 0
  malloc := fun _ => true
  param := (publishParameters (readConfig Proc.start scratchConfig) ParamBlock.zero 1).2
  shm := fun _ _ => { Ledger.zero with count := 4, tList := fun _ => ⟨1700000000, 0⟩ }
  maxFreqShare := fun _ _ => .ofInt 1000
  dTToSleep := fun _ _ => .ofInt 0
  now := now
  others := id
  cwd_others := fun _ => rfl

/-- A process that creates the parameters. -/
def lostProcess : Preloaded Dir where
  machine :=
    { view :=
        { proc := updateCWD { (publishParameters (readConfig Proc.start scratchConfig)
            ParamBlock.zero 1).1 with shmReady := true } (bytesOf "/")
          param := ParamBlock.zero
          shm := Shm.zero
          now := 0 }
      maxFreq := fun _ _ => .ofInt 1000
      maxFreqShare := fun _ _ => .ofInt 1000
      dTToSleep := fun _ _ => .ofInt 0 }
  szBatchScriptNameNew := []
  world := ⟨bytesOf "/", by decide⟩

/-- The first call is delayed for three milliseconds. -/
theorem program_unnoticed_lostProgram : ∃ t',
    runSteps (ask (preloaded emptyLibrary) lostProgram) (lostProcess, [])
        [fifthCall 1700000000 0, fifthCall 1700000000 0, fifthCall 1700000000 0] =
      some (t', [.error 2, .ok (.int 0), .ok (.str (bytesOf "/scratch"))]) := by
  have hpositive : ∀ i, 0 ≤ (((lostProcess.meet (fifthCall 1700000000 0)).machine.prepare
      .myOpenLibc (MachineView.openTook 0)).refresh.request .openFile i
        (MachineView.openTook 0)).tNsSleep := by decide +kernel
  have hfirst : Undisturbed emptyLibrary lostProcess
      (.file .myOpenLibc (some (bytesOf "/scratch/a")) 0 0) (fifthCall 1700000000 0) := by
    refine ⟨_, rfl, fun hred => absurd hred.2 (by decide), fun _ _ => .inr rfl, ?_⟩
    refine fun n _ => ⟨?_, ?_⟩
    · rintro ⟨-, i, -, -, hneg⟩
      exact absurd (hpositive i) (not_le.mpr hneg)
    · rintro ⟨-, i, -, -, -, hintr⟩
      exact absurd hintr Bool.false_ne_true
  have hshort : (bytesOf "/scratch").length < maxPath := by decide
  have hcalls : Asks (preloaded emptyLibrary) (Undisturbed emptyLibrary) lostProgram lostProcess
      [fifthCall 1700000000 0, fifthCall 1700000000 0, fifthCall 1700000000 0] :=
    .cons_some hfirst rfl (.cons_some hshort rfl ⟨⟨rfl, fun _ => ⟨rfl, by decide⟩⟩,
      fun _ _ => trivial⟩)
  have hinit : init scratchStart none 1 = some (lostProcess.machine.view.proc, _) := rfl
  obtain ⟨t', replies, hrun, hplain⟩ :=
    program_unnoticed emptyLibrary hinit rfl lostProgram hcalls
  have hreplies : [.error 2, .ok (.int 0), .ok (.str (bytesOf "/scratch"))] = replies :=
    (Prod.mk.inj (Option.some.inj hplain)).2
  rw [← hreplies] at hrun
  exact ⟨t', hrun⟩

/-- Where the same call took long and came a second later, the program is told that its arguments
were wrong, and not that there is no such file. Where it took long and a signal handler ends the
delay, the program is told that the call was interrupted. -/
theorem fileCall_errno_lostProgram :
    (fileCall emptyLibrary (lostProcess.meet (fifthCall 1700000001 2000000)) .myOpenLibc
        (bytesOf "/scratch/a") 0 0 (MachineView.openTook 2000000) false).1 = .error 22 ∧
      (fileCall emptyLibrary (lostProcess.meet (fifthCall 1700000000 2000000)) .myOpenLibc
        (bytesOf "/scratch/a") 0 0 (MachineView.openTook 2000000) true).1 = .error 4 := by
  have hscript (w : Surroundings emptyLibrary) : ¬(Hook.myOpenLibc = .myOpenLibc ∧
      (lostProcess.meet w).machine.view.proc.redirects (bytesOf "/scratch/a") = true) :=
    fun hred => absurd (show lostProcess.machine.view.proc.redirects _ = true from hred.2)
      (by decide)
  constructor
  · refine (fileCall_errno (n := 2) emptyLibrary (hscript _) false rfl).2.1
      ⟨?_, 0, ⟨rfl, rfl, ?_⟩, ⟨?_, .inl ?_⟩, ?_⟩
    all_goals decide +kernel
  · refine (fileCall_errno (n := 2) emptyLibrary (hscript _) true rfl).2.2
      ⟨?_, 0, ⟨rfl, rfl, ?_⟩, ⟨?_, .inl ?_⟩, ?_, rfl⟩
    all_goals decide +kernel

end Ooops
