import Ooops.Attach
import Ooops.Throttle
import Ooops.Basis.Run

/-!
# The Working Directory

The working directory belongs to a process, but the library keeps what it knows of it, the
path and the server of the path, in variables of the thread that changes the directory. A
new thread starts with these variables zeroed, and a thread whose directory was changed by
another one keeps the old values (`unseen_directory`).

* `Threads` is a process with its threads; `threadStep` is one step of one of them. A hooked
  `chdir` is two steps, the real call and `Update_CWD`.
* `Coherent` is what a call should see of the directory, `UpToDate` the condition for it.
* `ThreadsInv` relates the variables of a thread to the directories it has looked at.
* `coherent_iff_upToDate`: in every run the calls are coherent exactly if they are up to date.
* `upToDate_of_main`: a process with one thread is always up to date.
-/

open Basis

namespace Ooops

/-- `MAX_PATH`. -/
def maxPath : ℕ := 1024

/-- The size of `szUpdatedDir`. -/
def szUpdatedDirSize : ℕ := 2048

/-- A directory, as `getcwd` reports it: an absolute path. -/
@[ext]
structure Dir where
  path : CStr
  abs : path.head? = some 47
  deriving DecidableEq

/-- `getcwd(buf, size)` of the C library. -/
def realGetcwd (dir : CStr) (bufNull : Bool) (size : ℕ) : Option CStr :=
  if size = 0 then
    if bufNull then some dir else none
  else if dir.length < size then some dir
  else none

/-- The C library reports the directory or nothing. -/
theorem realGetcwd_cases (dir : CStr) (bufNull : Bool) (size : ℕ) :
    realGetcwd dir bufNull size = none ∨ realGetcwd dir bufNull size = some dir := by
  rw [realGetcwd]
  split_ifs
  · exact .inr rfl
  · exact .inl rfl
  · exact .inr rfl
  · exact .inl rfl

/-- What is reported fits the buffer. -/
theorem fits_of_realGetcwd {dir szPath : CStr} {bufNull : Bool} {size : ℕ}
    (h : realGetcwd dir bufNull size = some szPath) : ¬(dir.length ≥ size ∧ size > 0) := by
  rintro ⟨hlen, hpos⟩
  rw [realGetcwd, if_neg hpos.ne', if_neg (not_lt.mpr hlen)] at h
  exact absurd h nofun

/-- The hooked `getcwd`, the same for the loader and for the C library. -/
def myGetcwd (p : Proc) (dir : CStr) (bufNull : Bool) (size : ℕ) : Option CStr × Proc :=
  if p.szUpdatedDir.length ≥ size ∧ size > 0 then (none, p)
  else if p.szUpdatedDir.head? ≠ some 47 then
    match realGetcwd dir bufNull size with
    | some szPath => (some szPath, { p with szUpdatedDir := szPath })
    | none => (none, p)
  else (some p.szUpdatedDir, p)

/-! ### Threads -/

/-- The thread-local variables that are about the directory. -/
structure Tls where
  szUpdatedDir : CStr
  idxFsServer : Option FsIdx
  idxFsServerCWD : Option FsIdx

/-- The variables of a new thread. -/
def Tls.zero : Tls := ⟨[], some 0, some 0⟩

/-- A process: its static variables, the variables of its threads, and its directory.
`changing` are the threads between `real_chdir` and `Update_CWD`. `seen` notes the directory
that a thread has found in its last `Update_CWD`, and `read` the one its path is from. -/
structure Threads where
  proc : Proc
  tls : ℕ → Tls
  cwd : Dir
  changing : ℕ → Bool
  seen : ℕ → Option Dir
  read : ℕ → Option Dir

namespace Threads

/-- What a thread sees as variables of its own and of the process. -/
def view (s : Threads) (t : ℕ) : Proc :=
  { s.proc with
    szUpdatedDir := (s.tls t).szUpdatedDir
    idxFsServer := (s.tls t).idxFsServer
    idxFsServerCWD := (s.tls t).idxFsServerCWD }

/-- The thread-local variables of a thread after a call. -/
def keep (s : Threads) (t : ℕ) (p : Proc) : Threads :=
  { s with
    tls := Function.update s.tls t ⟨p.szUpdatedDir, p.idxFsServer, p.idxFsServerCWD⟩ }

/-- After the constructor of the library: the main thread, number 0, has looked at the
directory. -/
def start (p : Proc) (cwd : Dir) : Threads where
  proc := p
  tls := Function.update (fun _ => Tls.zero) 0 ⟨cwd.path, some 0, firstTag p cwd.path⟩
  cwd := cwd
  changing := fun _ => false
  seen := Function.update (fun _ => none) 0 (some cwd)
  read := Function.update (fun _ => none) 0 (some cwd)

/-- A thread has the variables that were kept for it. -/
theorem keep_self (s : Threads) (t : ℕ) (p : Proc) :
    (s.keep t p).tls t = ⟨p.szUpdatedDir, p.idxFsServer, p.idxFsServerCWD⟩ :=
  Function.update_self ..

/-- The other threads have what they had. -/
theorem keep_of_ne (s : Threads) {t r : ℕ} (h : r ≠ t) (p : Proc) :
    (s.keep t p).tls r = s.tls r :=
  Function.update_of_ne h ..

end Threads

/-- The steps of a thread. `realChdir` is the real call in `my_chdir` or `my_fchdir`, with
the directory it changes to or none when it fails, and `call` a hooked `open` or `stat`. -/
inductive ThreadAct
  | realChdir (dir : Option Dir)
  | updateCWD
  | getcwd (bufNull : Bool) (size : ℕ)
  | call (h : Hook) (szName : CStr)

/-- Whether a hook opens another file instead, and charges nothing. -/
def Hook.Skips (h : Hook) (p : Proc) (szName : CStr) : Prop :=
  h = .myOpenLibc ∧ p.redirects szName = true

instance (h : Hook) (p : Proc) (szName : CStr) : Decidable (h.Skips p szName) :=
  inferInstanceAs (Decidable (_ ∧ _))

/-- One step. A process whose directory has too long a name exits in `Update_CWD`, and the
copy of a path has to fit `szUpdatedDir`. -/
def threadStep (s : Threads) (e : ℕ × ThreadAct) : Option Threads :=
  match s.changing e.1, e.2 with
  | false, .realChdir dir =>
      some { s with
        cwd := dir.getD s.cwd
        changing := Function.update s.changing e.1 true }
  | true, .updateCWD =>
      if s.cwd.path.length < maxPath then
        some { s.keep e.1 (updateCWD (s.view e.1) s.cwd.path) with
          changing := Function.update s.changing e.1 false
          seen := Function.update s.seen e.1 (some s.cwd)
          read := Function.update s.read e.1 (some s.cwd) }
      else none
  | false, .getcwd bufNull size =>
      let (szPath, p) := myGetcwd (s.view e.1) s.cwd.path bufNull size
      if p.szUpdatedDir.length < szUpdatedDirSize then
        some { s.keep e.1 p with
          read :=
            if s.read e.1 = none ∧ szPath ≠ none then
              Function.update s.read e.1 (some s.cwd)
            else s.read }
      else none
  | false, .call h szName =>
      if h.Skips s.proc szName then some s
      else some (s.keep e.1 (checkFSServer (s.view e.1) szName))
  | _, _ => none

/-! ### What a call should see -/

/-- The first tag, in its stored length, that the name starts with. -/
def tagOf (p : Proc) (szName : CStr) : Option FsIdx :=
  (List.finRange 8).find? fun i =>
    decide (i.val < p.nFsServer) && ((p.szFSTag i).take (p.fsTagLen i)).isPrefixOf szName

/-- A relative name is charged to the server of the directory, and `getcwd` with a buffer
that is large enough reports the directory. -/
def Coherent (s : Threads) (e : ℕ × ThreadAct) : Prop :=
  match e.2 with
  | .call h szName =>
      szName.head? ≠ some 47 → ¬h.Skips s.proc szName → ∀ s', threadStep s e = some s' →
        (s'.tls e.1).idxFsServer = tagOf s.proc s.cwd.path
  | .getcwd bufNull size =>
      s.changing e.1 = false → realGetcwd s.cwd.path bufNull size = some s.cwd.path →
        (myGetcwd (s.view e.1) s.cwd.path bufNull size).1 = some s.cwd.path
  | _ => True

/-- The server that a thread takes the directory to be on: that of the directory it has
found last, or server 0 when it has never looked. -/
def Threads.seenTag (s : Threads) (t : ℕ) : Option FsIdx :=
  match s.seen t with
  | some dir => tagOf s.proc dir.path
  | none => some 0

/-- A thread that makes a call with a relative name has last seen a directory on the server
of the present one, unless the name itself starts with the tag of that server; and a thread
that asks for the directory has its path from this very directory, or has none. -/
def UpToDate (s : Threads) (e : ℕ × ThreadAct) : Prop :=
  match e.2 with
  | .call h szName =>
      s.changing e.1 = false → szName.head? ≠ some 47 → ¬h.Skips s.proc szName →
        (tagOf s.proc szName).or (s.seenTag e.1) = tagOf s.proc s.cwd.path
  | .getcwd bufNull size =>
      s.changing e.1 = false → realGetcwd s.cwd.path bufNull size = some s.cwd.path →
        ∀ dir, s.read e.1 = some dir → dir = s.cwd
  | _ => True

/-- `strncmp` with the stored length of a tag looks for the stored part of it. -/
theorem firstTag_eq_tagOf {p : Proc} (hp : p.HasRecords) (szName : CStr) :
    firstTag p szName = tagOf p szName := by
  refine List.find?_congr fun i _ => ?_
  by_cases hi : i.val < p.nFsServer
  · have hle : p.fsTagLen i ≤ (p.szFSTag i).length := by
      rw [hp.len i hi]
      exact (fsTagLenOf_bounds _).1
    have hlen : ((p.szFSTag i).take (p.fsTagLen i)).length = p.fsTagLen i :=
      List.length_take_of_le hle
    have hiff : strncmpEq szName (p.szFSTag i) (p.fsTagLen i) = true ↔
        ((p.szFSTag i).take (p.fsTagLen i)).isPrefixOf szName = true := by
      rw [strncmpEq_iff, List.isPrefixOf_iff_prefix, List.prefix_iff_eq_take, hlen]
      exact eq_comm
    rw [Bool.eq_iff_iff.mpr hiff]
  · rw [decide_eq_false hi, Bool.false_and, Bool.false_and]

/-- What a relative name is charged to. -/
theorem idxFsServer_checkFSServer {p : Proc} (hp : p.HasRecords) {szName : CStr}
    (h : szName.head? ≠ some 47) :
    (checkFSServer p szName).idxFsServer = (tagOf p szName).or p.idxFsServerCWD := by
  rw [checkFSServer, firstTag_eq_tagOf hp]
  cases tagOf p szName with
  | some i => rfl
  | none =>
      simp only [if_pos h]
      rfl

/-! ### The invariant -/

/-- The invariant of a process: its tags are those it had, the directory index of a thread
is that of the directory it has seen last, and its path is the one it has read last. -/
structure ThreadsInv (p : Proc) (s : Threads) : Prop where
  proc : s.proc = p
  index : ∀ t, (s.tls t).idxFsServerCWD = s.seenTag t
  path : ∀ t, (s.tls t).szUpdatedDir = ((s.read t).map Dir.path).getD []

namespace ThreadsInv

variable {p : Proc} {s s' : Threads} {e : ℕ × ThreadAct}

/-- After the constructor. -/
theorem start (hp : p.HasRecords) (cwd : Dir) : ThreadsInv p (Threads.start p cwd) := by
  refine ⟨rfl, fun t => ?_, fun t => ?_⟩
  · by_cases ht : t = 0
    · simp only [Threads.start, Threads.seenTag, ht, Function.update_self, firstTag_eq_tagOf hp]
    · simp only [Threads.start, Threads.seenTag, Function.update_of_ne ht, Tls.zero]
  · by_cases ht : t = 0
    · simp only [Threads.start, ht, Function.update_self, Option.map_some, Option.getD_some]
    · simp only [Threads.start, Function.update_of_ne ht, Tls.zero, Option.map_none,
        Option.getD_none]

/-- A thread that has a path of its own reports it. -/
theorem myGetcwd_some (h : ThreadsInv p s) {t : ℕ} {dir : Dir} (hr : s.read t = some dir)
    (cwd : CStr) (bufNull : Bool) (size : ℕ) :
    myGetcwd (s.view t) cwd bufNull size =
      (if dir.path.length ≥ size ∧ size > 0 then none else some dir.path, s.view t) := by
  have hpath : (s.view t).szUpdatedDir = dir.path := by
    rw [Threads.view, h.path t, hr]
    rfl
  rw [myGetcwd, hpath, if_neg (not_not.mpr dir.abs)]
  split <;> rfl

/-- A thread that has none asks the C library. -/
theorem myGetcwd_none (h : ThreadsInv p s) {t : ℕ} (hr : s.read t = none) (cwd : CStr)
    (bufNull : Bool) (size : ℕ) :
    (myGetcwd (s.view t) cwd bufNull size).1 = realGetcwd cwd bufNull size ∧
      (myGetcwd (s.view t) cwd bufNull size).2 =
        { s.view t with szUpdatedDir := (realGetcwd cwd bufNull size).getD [] } := by
  have hpath : (s.view t).szUpdatedDir = [] := by
    rw [Threads.view, h.path t, hr]
    rfl
  have hsize : ¬((([] : CStr).length ≥ size) ∧ size > 0) := by
    simp only [List.length_nil]
    omega
  rw [myGetcwd, hpath, if_neg hsize, if_pos (by decide)]
  cases realGetcwd cwd bufNull size with
  | some szPath => exact ⟨rfl, rfl⟩
  | none => exact ⟨rfl, by rw [Option.getD_none, ← hpath]⟩

/-- One thread changes its variables. -/
theorem keep (h : ThreadsInv p s) {t : ℕ} {q : Proc} (hproc : s'.proc = s.proc)
    (htls : s'.tls = (s.keep t q).tls) (hseen : ∀ r ≠ t, s'.seen r = s.seen r)
    (hread : ∀ r ≠ t, s'.read r = s.read r) (hindex : q.idxFsServerCWD = s'.seenTag t)
    (hpath : q.szUpdatedDir = ((s'.read t).map Dir.path).getD []) : ThreadsInv p s' := by
  refine ⟨hproc.trans h.proc, fun r => ?_, fun r => ?_⟩
  · by_cases hr : r = t
    · rw [htls, hr, ← hindex, Threads.keep_self]
    · rw [htls, Threads.keep_of_ne s hr, h.index r, Threads.seenTag, Threads.seenTag, hseen r hr,
        hproc]
  · by_cases hr : r = t
    · rw [htls, hr, ← hpath, Threads.keep_self]
    · rw [htls, Threads.keep_of_ne s hr, h.path r, hread r hr]

/-- **One step.** -/
theorem step (h : ThreadsInv p s) (hp : p.HasRecords) (hs : threadStep s e = some s') :
    ThreadsInv p s' := by
  obtain ⟨t, a⟩ := e
  simp only [threadStep] at hs
  split at hs
  case h_1 dir _ =>
    obtain rfl := Option.some.inj hs
    exact ⟨h.proc, h.index, h.path⟩
  case h_2 =>
    split at hs
    · obtain rfl := Option.some.inj hs
      refine h.keep (q := updateCWD (s.view t) s.cwd.path) rfl rfl
        (fun r hr => Function.update_of_ne hr ..) (fun r hr => Function.update_of_ne hr ..) ?_ ?_
      · simp only [Threads.seenTag, Function.update_self, updateCWD, Threads.keep]
        rw [← firstTag_eq_tagOf (h.proc ▸ hp)]
        rfl
      · simp only [Function.update_self, updateCWD, Option.map_some, Option.getD_some]
    · exact absurd hs nofun
  case h_3 bufNull size _ =>
    split at hs
    · obtain rfl := Option.some.inj hs
      refine h.keep rfl rfl (fun _ _ => rfl) (fun r hr => ?_) ?_ ?_
      · simp only
        split
        · exact Function.update_of_ne hr ..
        · rfl
      · cases hr : s.read t with
        | some dir =>
            rw [h.myGetcwd_some hr]
            exact h.index t
        | none =>
            rw [(h.myGetcwd_none hr s.cwd.path bufNull size).2]
            exact h.index t
      · cases hr : s.read t with
        | some dir =>
            have hpath := h.path t
            simp only [h.myGetcwd_some hr, hr, reduceCtorEq, false_and, if_false] at hpath ⊢
            exact hpath
        | none =>
            obtain ⟨hres, hproc⟩ := h.myGetcwd_none hr s.cwd.path bufNull size
            simp only [hproc, hres, true_and]
            obtain hc | hc := realGetcwd_cases s.cwd.path bufNull size
            · simp only [hc, ne_eq, not_true_eq_false, if_false, hr, Option.map_none]
            · simp only [hc, ne_eq, reduceCtorEq, not_false_eq_true, if_true,
                Function.update_self, Option.map_some, Option.getD_some]
    · exact absurd hs nofun
  case h_4 hook szName _ =>
    split at hs
    · obtain rfl := Option.some.inj hs
      exact h
    · obtain rfl := Option.some.inj hs
      refine h.keep (q := checkFSServer (s.view t) szName) rfl rfl (fun _ _ => rfl) (fun _ _ => rfl)
        ?_ ?_
      · rw [checkFSServer_eq]
        exact h.index t
      · rw [checkFSServer_eq]
        exact h.path t
  case h_5 => exact absurd hs nofun

/-- In a state of the invariant a call is coherent exactly if it is up to date. -/
theorem coherent_iff (h : ThreadsInv p s) (hp : p.HasRecords) :
    Coherent s e ↔ UpToDate s e := by
  obtain ⟨t, a⟩ := e
  cases a with
  | realChdir | updateCWD => exact Iff.rfl
  | getcwd bufNull size =>
      refine imp_congr_right fun _ => imp_congr_right fun hreal => ?_
      cases hr : s.read t with
      | none =>
          rw [(h.myGetcwd_none hr _ _ _).1]
          exact iff_of_true hreal nofun
      | some dir =>
          rw [h.myGetcwd_some hr]
          constructor
          · rintro hres _ ⟨rfl⟩
            split_ifs at hres
            exact Dir.ext (Option.some.inj hres)
          · intro hdir
            rw [hdir dir rfl, if_neg (fits_of_realGetcwd hreal)]
  | call hook szName =>
      have hstep (hno : ¬hook.Skips s.proc szName) (hchange : s.changing t = false) :
          threadStep s (t, .call hook szName) =
            some (s.keep t (checkFSServer (s.view t) szName)) := by
        simp only [threadStep, hchange, if_neg hno]
      have hview : (s.view t).HasRecords := by
        have hproc : s.proc.HasRecords := h.proc ▸ hp
        exact ⟨hproc.le, hproc.tag_ne_nil, hproc.len⟩
      constructor
      · intro hco hchange hrel hno
        have hidx := hco hrel hno _ (hstep hno hchange)
        rw [Threads.keep_self, idxFsServer_checkFSServer hview hrel] at hidx
        rw [← h.index t]
        exact hidx
      · intro hup hrel hno s' hs'
        have hchange : s.changing t = false := by
          by_contra hchange
          rw [Bool.not_eq_false] at hchange
          simp only [threadStep, hchange] at hs'
          exact absurd hs' nofun
        obtain rfl := Option.some.inj ((hstep hno hchange).symm.trans hs')
        rw [Threads.keep_self, idxFsServer_checkFSServer hview hrel]
        have := hup hchange hrel hno
        rw [← h.index t] at this
        exact this

end ThreadsInv

/-! ### One thread -/

/-- The main thread has seen the directory it is in. -/
def MainSeen (s : Threads) : Prop :=
  s.changing 0 = false → s.seen 0 = some s.cwd ∧ s.read 0 = some s.cwd

/-- A step of the main thread. -/
theorem MainSeen.step {s s' : Threads} {a : ThreadAct} (h : MainSeen s)
    (hs : threadStep s (0, a) = some s') : MainSeen s' := by
  intro hchange
  simp only [threadStep] at hs
  split at hs
  case h_1 =>
    obtain rfl := Option.some.inj hs
    exact absurd hchange (by simp)
  case h_2 =>
    split at hs
    · obtain rfl := Option.some.inj hs
      simp only [Function.update_self]
      exact ⟨rfl, rfl⟩
    · exact absurd hs nofun
  case h_3 hno =>
    split at hs
    · obtain rfl := Option.some.inj hs
      obtain ⟨hseen, hread⟩ := h hno
      refine ⟨hseen, ?_⟩
      simp only [hread, reduceCtorEq, false_and, if_false]
      rfl
    · exact absurd hs nofun
  case h_4 hno =>
    split at hs <;> obtain rfl := Option.some.inj hs <;> exact h hno
  case h_5 => exact absurd hs nofun

/-- A relative name starts with no tag when the tags are absolute. -/
theorem tagOf_relative {p : Proc} (hp : p.HasRecords)
    (habs : ∀ i : FsIdx, i.val < p.nFsServer → (p.szFSTag i).head? = some 47) {szName : CStr}
    (h : szName.head? ≠ some 47) : tagOf p szName = none := by
  refine List.find?_eq_none.mpr fun i _ hi => ?_
  rw [Bool.and_eq_true, decide_eq_true_eq, List.isPrefixOf_iff_prefix] at hi
  obtain ⟨hlt, rest, hrest⟩ := hi
  have hpos : p.fsTagLen i ≠ 0 := by
    rw [hp.len i hlt]
    exact (fsTagLenOf_pos (hp.tag_ne_nil i hlt)).ne'
  refine h ?_
  rw [← hrest, List.head?_append, List.head?_take, if_neg hpos, habs i hlt]
  rfl

/-- **One thread.** With absolute tags every run of the main thread alone is up to date. -/
theorem upToDate_of_main {p : Proc} (hp : p.HasRecords)
    (habs : ∀ i : FsIdx, i.val < p.nFsServer → (p.szFSTag i).head? = some 47) (cwd : Dir)
    {es : List (ℕ × ThreadAct)} (hes : ∀ e ∈ es, e.1 = 0) :
    Along threadStep UpToDate (Threads.start p cwd) es := by
  have hmain : Along threadStep (fun _ e => e.1 = 0) (Threads.start p cwd) es :=
    along_of_mem (fun e he _ => hes e he) _
  refine hmain.imp_of_invariant (I := fun s => ThreadsInv p s ∧ MainSeen s)
    ⟨ThreadsInv.start hp cwd, fun _ => by simp [Threads.start]⟩ ?_ ?_
  · rintro s ⟨t, a⟩ s' ⟨hi, hm⟩ rfl hs
    exact ⟨hi.step hp hs, hm.step hs⟩
  · rintro s ⟨t, a⟩ ⟨hi, hm⟩ rfl
    cases a with
    | realChdir | updateCWD => trivial
    | getcwd bufNull size =>
        intro hchange _ dir hdir
        exact Option.some.inj (hdir.symm.trans (hm hchange).2)
    | call hook szName =>
        intro hchange hrel _
        simp only [Threads.seenTag, (hm hchange).1]
        rw [hi.proc, tagOf_relative hp habs hrel, Option.none_or]

/-! ### Whole runs -/

/-- **Coherence.** In every run of the threads of a process, every call sees the directory
of the process exactly if every call is up to date. -/
theorem coherent_iff_upToDate {p : Proc} (hp : p.HasRecords) (cwd : Dir)
    (es : List (ℕ × ThreadAct)) :
    Along threadStep Coherent (Threads.start p cwd) es ↔
      Along threadStep UpToDate (Threads.start p cwd) es := by
  have hinv := ThreadsInv.start hp cwd
  constructor
  · intro h
    exact h.imp_of_invariant hinv (fun _ _ _ hi _ hs => hi.step hp hs)
      fun _ _ hi hco => (hi.coherent_iff hp).mp hco
  · intro h
    exact h.imp_of_invariant hinv (fun _ _ _ hi _ hs => hi.step hp hs)
      fun _ _ hi hup => (hi.coherent_iff hp).mpr hup

/-- The main thread changes to a directory of the second server and works there. -/
def workInWork : List (ℕ × ThreadAct) :=
  [(0, .realChdir (some ⟨bytesOf "/work/me", by decide⟩)), (0, .updateCWD),
    (0, .call .myOpenLibc (bytesOf "a")), (0, .getcwd false 100)]

theorem coherent_iff_upToDate_work :
    Along threadStep Coherent
      (Threads.start (readConfig Proc.start twoServers) ⟨bytesOf "/home", by decide⟩)
      workInWork ∧
    ((runSteps threadStep
      (Threads.start (readConfig Proc.start twoServers) ⟨bytesOf "/home", by decide⟩)
      workInWork).map fun s => (s.tls 0).idxFsServer) = some (some 1) := by
  have hp := hasRecords_readConfig Proc.start twoServers
  have hmain : ∀ e ∈ workInWork, e.1 = 0 := by decide +kernel
  have hup := upToDate_of_main hp (by decide +kernel) ⟨bytesOf "/home", by decide⟩ hmain
  exact ⟨(coherent_iff_upToDate hp _ _).mpr hup, by decide +kernel⟩

/-- A new thread takes every directory to be on the first server, though this one is on
none. -/
theorem unseen_directory :
    ¬∀ p : Proc, p.HasRecords → ∀ cwd es, Along threadStep Coherent (Threads.start p cwd) es := by
  intro h
  have hco := h _ (hasRecords_readConfig Proc.start twoServers) ⟨bytesOf "/home", by decide⟩
    [(1, .call .myXstatLibc (bytesOf "a"))]
  have hidx := hco.1 (by decide) (by decide) _ rfl
  exact absurd hidx (by decide +kernel)

end Ooops
