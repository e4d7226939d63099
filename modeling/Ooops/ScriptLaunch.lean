import Mathlib.Data.List.DropRight
import Ooops.Basis.KnownText
import Ooops.JobScript

/-!
# Recognizing the Job Script

`Get_Exe_Name_and_CmdLine` reads the command line of the process. A shell with a job script of
SLURM as its first argument gets another script, with the commands of `Ooops.JobScript` around
those of the job.

`fread` returns what there is of the file and fits in; the name of the program fits the 4096
bytes of `szName`. Where the code uses bytes that it has not read from the file, or writes behind
one of its buffers, there is a fault instead of a result.

* `getExeNameAndCmdLine_iff`: on which command lines the function does what it is there for.
* `getExeNameAndCmdLine_info`: the variables about the shell.
-/

open Basis

namespace Ooops

/-! ### The function -/

/-- What should not happen: a byte is used that was not read, or a name is longer than its
buffer. -/
inductive LaunchFault
  | unreadByte
  | overrun
  deriving DecidableEq

/-- The variables that the function sets. -/
structure ExeInfo where
  szName : CStr
  iShellType : Option Shell
  isInInitBash : Bool := false
  szBatchScriptNameOrg : CStr := []
  szBatchScriptNameNew : CStr := []

/-- How the function ends: the process exits with a message, the function returns, or it has the
script rewritten, which may in turn end the process. -/
inductive LaunchResult
  | quit (message : CStr)
  | returns (info : ExeInfo)
  | rewrites (info : ExeInfo) (file : Except ScriptError (List UInt8))

/-- What the function meets besides the command line: the number of the process, whether `mkdir`
succeeds, and the script files. -/
structure LaunchEnv where
  pid : ℕ
  mkdirOk : Bool
  files : ScriptFiles

/-- What follows the last `/` of a path, or all of it. -/
def lastComponent (path : CStr) : CStr := path.rtakeWhile (· ≠ 47)

/-- The part of the first argument that is compared: `p_szExeName`. -/
def exeName (szLine : CStr) : CStr :=
  if szLine.head? = some 47 then lastComponent szLine else szLine

/-- `iShell_Type`. -/
def shellOf (szExeName : CStr) : Option Shell :=
  if szExeName = bytesOf "bash" then some .bash
  else if szExeName = bytesOf "csh" then some .tcsh
  else if szExeName = bytesOf "tcsh" then some .tcsh
  else if szExeName = bytesOf "zsh" then some .zsh
  else none

/-- `iLastPos` after the bytes from `j` on. -/
def lastPosFrom (c : UInt8) : ℕ → ℕ → List UInt8 → ℕ
  | _, iLastPos, [] => iLastPos
  | j, iLastPos, d :: s => lastPosFrom c (j + 1) (if d = c then j else iLastPos) s

/-- The names of the two scripts, and the writer, once the argument is known to be a job script.
The argument is what was read from its first byte on. -/
def prepareScript (env : LaunchEnv) (info : ExeInfo) (sh : Shell) (arg : List UInt8) :
    Except LaunchFault LaunchResult :=
  if 0 ∉ arg then .error .unreadByte
  else if 128 ≤ (cstrOf arg).length then .error .overrun
  else
    let org := cstrOf arg
    let iLastPos := lastPosFrom 47 0 0 org
    let info := { info with isInInitBash := true, szBatchScriptNameOrg := org }
    if org[iLastPos]? = some 47 then
      if env.mkdirOk then
        let new := bytesOf "/dev/shm/ooops/" ++ org.drop (iLastPos + 1)
        if 128 ≤ new.length then .error .overrun
        else
          .ok (.rewrites { info with szBatchScriptNameNew := new }
            (sh.appendJobEndHandler env.files))
      else .ok (.quit (bytesOf "Fail to create dir /dev/shm/ooops\nQuit\n"))
    else .ok (.returns info)

/-- What a shell does with the bytes behind its first argument. The loop over `szLine` ends at
once, at the NUL in front of them. -/
def checkScript (env : LaunchEnv) (info : ExeInfo) (sh : Shell) (arg : List UInt8) :
    Except LaunchFault LaunchResult :=
  match startsWith (bytesOf "/tmp/slurmd/job") arg with
  | none => .error .unreadByte
  | some false => .ok (.returns info)
  | some true => prepareScript env info sh arg

/-- `Get_Exe_Name_and_CmdLine` on the contents of the file, if it can be opened. -/
def getExeNameAndCmdLine (env : LaunchEnv) (cmdline : Option (List UInt8)) :
    Except LaunchFault LaunchResult :=
  match cmdline with
  | none =>
      .ok (.quit (bytesOf "Fail to open file: /proc/" ++ showInt env.pid ++
        bytesOf "/cmdline\nQuit\n"))
  | some content =>
      let szLine := content.take 511
      if szLine = [] then
        .ok (.quit (bytesOf "Fail to determine the executable file name.\nQuit\n"))
      else if 0 ∉ szLine then .error .unreadByte
      else
        let szExeName := exeName (cstrOf szLine)
        let info : ExeInfo := { szName := szExeName, iShellType := shellOf szExeName }
        match shellOf szExeName with
        | none => .ok (.returns info)
        | some sh => checkScript env info sh (szLine.drop ((cstrOf szLine).length + 1))

/-! ### What it is there for -/

/-- `argv[0]`. -/
def argv0 (content : List UInt8) : CStr := cstrOf content

/-- The bytes behind `argv[0]`. -/
def afterArgv0 (content : List UInt8) : List UInt8 := content.drop ((argv0 content).length + 1)

/-- `argv[1]`. -/
def argv1 (content : List UInt8) : CStr := cstrOf (afterArgv0 content)

/-- A shell is started, by its name or by an absolute path. -/
def IsShell (content : List UInt8) : Prop :=
  exeName (argv0 content) ∈ [bytesOf "bash", bytesOf "csh", bytesOf "tcsh", bytesOf "zsh"]

/-- A shell is started with a job script. -/
def IsJob (content : List UInt8) : Prop :=
  IsShell content ∧ bytesOf "/tmp/slurmd/job" <+: argv1 content

instance (content : List UInt8) : Decidable (IsShell content) :=
  inferInstanceAs (Decidable (_ ∈ _))

instance (content : List UInt8) : Decidable (IsJob content) :=
  inferInstanceAs (Decidable (IsShell content ∧ bytesOf "/tmp/slurmd/job" <+: argv1 content))

/-- The names of the two scripts where the rewriting is started. -/
def LaunchResult.scripts : LaunchResult → Option (CStr × CStr)
  | quit _ => none
  | returns _ => none
  | rewrites info _ => some (info.szBatchScriptNameOrg, info.szBatchScriptNameNew)

/-- The variables as they are left, where the process goes on. -/
def LaunchResult.info : LaunchResult → Option ExeInfo
  | quit _ => none
  | returns info => some info
  | rewrites info _ => some info

/-- The name of the script that takes the place of another. -/
def newName (script : CStr) : CStr := bytesOf "/dev/shm/ooops/" ++ lastComponent script

/-- The function comes to an end, and the rewriting is started exactly for a job, with the right
names. -/
def Recognizes (env : LaunchEnv) (content : List UInt8) : Prop :=
  ∃ r, getExeNameAndCmdLine env (some content) = .ok r ∧
    r.scripts = if IsJob content then some (argv1 content, newName (argv1 content)) else none

/-- The command lines that the function is made for. The first argument ends among the bytes that
are read, and in a shell so many of them follow that they tell whether the next one is the name
of a job script. Such a name ends there too, neither name is too long, and `mkdir` succeeds. -/
structure Launchable (env : LaunchEnv) (content : List UInt8) : Prop where
  terminated : content ≠ [] → 0 ∈ content.take 511
  decided : IsShell content →
    ¬EndsWithin (bytesOf "/tmp/slurmd/job") (afterArgv0 (content.take 511))
  script : IsJob content → 0 ∈ afterArgv0 (content.take 511) ∧ (argv1 content).length < 128 ∧
    (newName (argv1 content)).length < 128 ∧ env.mkdirOk = true

/-! ### The parts of the command line -/

theorem lastPosFrom_concat (c d : UInt8) (j i : ℕ) (s : List UInt8) :
    lastPosFrom c j i (s ++ [d]) = if d = c then j + s.length else lastPosFrom c j i s := by
  induction s generalizing j i with
  | nil => rfl
  | cons e s ih =>
      rw [List.cons_append, lastPosFrom, lastPosFrom, ih, List.length_cons]
      split_ifs <;> omega

/-- The scan for the last `/` ends at the one in front of the last component. -/
theorem lastPosFrom_spec {s : CStr} (h : 47 ∈ s) :
    s[lastPosFrom 47 0 0 s]? = some 47 ∧ s.drop (lastPosFrom 47 0 0 s + 1) = lastComponent s := by
  induction s using List.reverseRecOn with
  | nil => exact absurd h List.not_mem_nil
  | append_singleton s d ih =>
      rw [lastPosFrom_concat, lastComponent]
      by_cases hd : d = 47
      · rw [if_pos hd, Nat.zero_add, List.rtakeWhile_concat_neg _ _ _ (by simp [hd]), hd]
        simp
      · have hmem : 47 ∈ s := (List.mem_append.mp h).resolve_right fun h =>
          hd (List.mem_singleton.mp h).symm
        obtain ⟨hget, hdrop⟩ := ih hmem
        have hlt := (List.getElem?_eq_some_iff.mp hget).1
        rw [if_neg hd, List.rtakeWhile_concat_pos _ _ _ (by simp [hd]),
          List.getElem?_append_left hlt, List.drop_append_of_le_length hlt, hdrop, lastComponent]
        exact ⟨hget, rfl⟩

theorem shellOf_isSome_iff {szExeName : CStr} :
    (shellOf szExeName).isSome = true ↔
      szExeName ∈ [bytesOf "bash", bytesOf "csh", bytesOf "tcsh", bytesOf "zsh"] := by
  simp only [shellOf, List.mem_cons, List.not_mem_nil, or_false]
  split_ifs <;> simp [*]

section Parts

variable {content : List UInt8} {n : ℕ}

/-- What is behind the bytes that are read is behind the first argument. -/
theorem argv_eq (h : 0 ∈ content.take n) :
    argv0 content = argv0 (content.take n) ∧
      afterArgv0 content = afterArgv0 (content.take n) ++ content.drop n := by
  obtain ⟨rest, hrest⟩ := exists_eq_cstrOf_append h
  have hlen : (argv0 (content.take n)).length + 1 ≤ (content.take n).length := by
    rw [hrest, argv0, List.length_append, List.length_cons, ← hrest]
    omega
  have hfirst : argv0 (content.take n ++ content.drop n) = argv0 (content.take n) := by
    rw [argv0, argv0, hrest, List.append_assoc, List.cons_append,
      cstrOf_append_zero (zero_not_mem_cstrOf _), cstrOf_append_zero (zero_not_mem_cstrOf _)]
  have hafter : afterArgv0 (content.take n ++ content.drop n) =
      afterArgv0 (content.take n) ++ content.drop n := by
    rw [afterArgv0, hfirst, List.drop_append_of_le_length hlen, afterArgv0]
  rw [List.take_append_drop] at hfirst hafter
  exact ⟨hfirst, hafter⟩

/-- The second argument, where it ends among the bytes that are read. -/
theorem argv1_eq (h : 0 ∈ content.take n) (h1 : 0 ∈ afterArgv0 (content.take n)) :
    argv1 content = cstrOf (afterArgv0 (content.take n)) := by
  obtain ⟨rest, hrest⟩ := exists_eq_cstrOf_append h1
  rw [argv1, (argv_eq h).2, hrest, List.append_assoc, List.cons_append,
    cstrOf_append_zero (zero_not_mem_cstrOf _), cstrOf_append_zero (zero_not_mem_cstrOf _)]

/-- A comparison with the bytes that are read tells whether a job is started. -/
theorem isJob_iff (h : 0 ∈ content.take n) (hshell : IsShell content) {b : Bool}
    (hstart : startsWith (bytesOf "/tmp/slurmd/job") (afterArgv0 (content.take n)) = some b) :
    IsJob content ↔ b = true := by
  have hall := startsWith_append hstart (content.drop n)
  rw [← (argv_eq h).2] at hall
  rw [IsJob, argv1, prefix_cstrOf_iff (by decide), ← startsWith_eq_true_iff, hall]
  simp [hshell]

end Parts

/-- The names are the right ones where the argument ends among the bytes that are read, they fit,
and `mkdir` succeeds. -/
theorem prepareScript_iff {env : LaunchEnv} {info : ExeInfo} {sh : Shell} {arg : List UInt8}
    (hpre : bytesOf "/tmp/slurmd/job" <+: arg) :
    (∃ r, prepareScript env info sh arg = .ok r ∧
        r.scripts = some (cstrOf arg, newName (cstrOf arg))) ↔
      0 ∈ arg ∧ (cstrOf arg).length < 128 ∧ (newName (cstrOf arg)).length < 128 ∧
        env.mkdirOk = true := by
  have hslash : 47 ∈ cstrOf arg :=
    ((prefix_cstrOf_iff (by decide)).mpr hpre).subset (by decide)
  obtain ⟨hget, hdrop⟩ := lastPosFrom_spec hslash
  rw [prepareScript]
  by_cases hzero : 0 ∈ arg
  · rw [if_neg (not_not.mpr hzero)]
    by_cases horg : 128 ≤ (cstrOf arg).length
    · rw [if_pos horg]
      exact iff_of_false nofun fun h => absurd h.2.1 (by omega)
    · simp only [if_neg horg, hget, if_true, hdrop]
      rw [← newName]
      by_cases hmkdir : env.mkdirOk = true
      · rw [if_pos hmkdir]
        by_cases hnew : 128 ≤ (newName (cstrOf arg)).length
        · rw [if_pos hnew]
          exact iff_of_false nofun fun h => absurd h.2.2.1 (by omega)
        · rw [if_neg hnew]
          exact iff_of_true ⟨_, rfl, rfl⟩ ⟨hzero, by omega, by omega, hmkdir⟩
      · rw [if_neg hmkdir]
        refine iff_of_false ?_ fun h => hmkdir h.2.2.2
        rintro ⟨r, hr, hscripts⟩
        obtain rfl := Except.ok.inj hr
        exact absurd hscripts nofun
  · rw [if_pos hzero]
    exact iff_of_false nofun fun h => hzero h.1

section Variables

variable {env : LaunchEnv} {info info' : ExeInfo} {sh : Shell} {arg content : List UInt8}
  {r : LaunchResult}

theorem prepareScript_info (h : prepareScript env info sh arg = .ok r) (hr : r.info = some info') :
    info'.szName = info.szName ∧ info'.iShellType = info.iShellType := by
  simp only [prepareScript] at h
  split_ifs at h <;> cases h <;> cases hr <;> exact ⟨rfl, rfl⟩

theorem checkScript_info (h : checkScript env info sh arg = .ok r) (hr : r.info = some info') :
    info'.szName = info.szName ∧ info'.iShellType = info.iShellType := by
  rw [checkScript] at h
  cases hstart : startsWith (bytesOf "/tmp/slurmd/job") arg with
  | none => simp [hstart] at h
  | some b =>
      cases b with
      | false =>
          simp only [hstart] at h
          cases h
          cases hr
          exact ⟨rfl, rfl⟩
      | true =>
          simp only [hstart] at h
          exact prepareScript_info h hr

/-- The name and the kind of the shell are those of the first argument, whatever follows it. -/
theorem getExeNameAndCmdLine_info (h : getExeNameAndCmdLine env (some content) = .ok r)
    (hr : r.info = some info) :
    info.szName = exeName (argv0 content) ∧
      info.iShellType = shellOf (exeName (argv0 content)) := by
  simp only [getExeNameAndCmdLine] at h
  split_ifs at h with hnil hzero
  · cases h
    cases hr
  · rw [(argv_eq (hzero)).1, argv0]
    cases hsh : shellOf (exeName (cstrOf (content.take 511))) with
    | none =>
        simp only [hsh] at h
        cases h
        cases hr
        exact ⟨rfl, rfl⟩
    | some sh =>
        simp only [hsh] at h
        exact checkScript_info h hr

end Variables

/-- In a shell the bytes that are read tell whether a job is started, unless they end too early. -/
theorem checkScript_iff {env : LaunchEnv} {info : ExeInfo} {sh : Shell} {content : List UInt8}
    {n : ℕ} (h : 0 ∈ content.take n) (hshell : IsShell content) :
    (∃ r, checkScript env info sh (afterArgv0 (content.take n)) = .ok r ∧
        r.scripts = if IsJob content then some (argv1 content, newName (argv1 content)) else none) ↔
      ¬EndsWithin (bytesOf "/tmp/slurmd/job") (afterArgv0 (content.take n)) ∧
        (IsJob content → 0 ∈ afterArgv0 (content.take n) ∧ (argv1 content).length < 128 ∧
          (newName (argv1 content)).length < 128 ∧ env.mkdirOk = true) := by
  rw [checkScript, ← startsWith_eq_none_iff]
  cases hstart : startsWith (bytesOf "/tmp/slurmd/job") (afterArgv0 (content.take n)) with
  | none => exact iff_of_false nofun fun h => h.1 rfl
  | some b =>
      have hjob := isJob_iff h hshell hstart
      cases b with
      | false =>
          have hno : ¬IsJob content := fun h => absurd (hjob.mp h) nofun
          rw [if_neg hno]
          exact iff_of_true ⟨_, rfl, rfl⟩ ⟨nofun, fun h => absurd h hno⟩
      | true =>
          have hyes : IsJob content := hjob.mpr rfl
          change (∃ r, prepareScript env info sh _ = _ ∧ _) ↔ _
          rw [if_pos hyes]
          by_cases h1 : 0 ∈ afterArgv0 (content.take n)
          · rw [argv1_eq h h1]
            exact (prepareScript_iff (startsWith_eq_true_iff.mp hstart)).trans
              ⟨fun h => ⟨nofun, fun _ => h⟩, fun h => h.2 hyes⟩
          · rw [prepareScript, if_pos h1]
            exact iff_of_false nofun fun h => h1 (h.2 hyes).1

/-- **The recognition of job scripts** does what it is there for exactly on the command lines it
is made for: it uses no byte that was not read, no name overruns its buffer, and the rewriting is
started for a job and for nothing else. -/
theorem getExeNameAndCmdLine_iff (env : LaunchEnv) (content : List UInt8) :
    Recognizes env content ↔ Launchable env content := by
  rw [Recognizes, getExeNameAndCmdLine]
  by_cases hnil : content.take 511 = []
  · obtain rfl : content = [] := (List.take_eq_nil_iff.mp hnil).resolve_left (by decide)
    have hshell : ¬IsShell [] := by decide
    exact iff_of_true ⟨_, rfl, (if_neg fun h => hshell h.1).symm⟩
      ⟨absurd rfl, fun h => absurd h hshell, fun h => absurd h.1 hshell⟩
  simp only [if_neg hnil]
  by_cases hzero : 0 ∈ content.take 511
  · rw [if_neg (not_not.mpr hzero)]
    have hexe : exeName (cstrOf (content.take 511)) = exeName (argv0 content) := by
      rw [(argv_eq hzero).1, argv0]
    simp only [hexe]
    cases hsh : shellOf (exeName (argv0 content)) with
    | none =>
        have hshell : ¬IsShell content := fun h => by
          rw [IsShell, ← shellOf_isSome_iff, hsh] at h
          exact absurd h nofun
        exact iff_of_true ⟨_, rfl, (if_neg fun h => hshell h.1).symm⟩
          ⟨fun _ => hzero, fun h => absurd h hshell, fun h => absurd h.1 hshell⟩
    | some sh =>
        have hshell : IsShell content := shellOf_isSome_iff.mp (hsh ▸ rfl)
        exact (checkScript_iff hzero hshell).trans
          ⟨fun h => ⟨fun _ => hzero, fun _ => h.1, h.2⟩, fun h => ⟨h.decided hshell, h.script⟩⟩
  · rw [if_pos hzero]
    refine iff_of_false nofun fun h => hzero (h.terminated ?_)
    rintro rfl
    exact hnil rfl

/-- A job of `tcsh`, started by an absolute path. -/
example : Launchable ⟨1, true, ⟨none, true, 0⟩⟩
    (bytesOf "/bin/csh" ++ 0 :: bytesOf "/tmp/slurmd/job1/script" ++ [0]) :=
  ⟨by decide, by decide, by decide⟩

/-- A `bash` without an argument, on a node where `mkdir` succeeds. -/
theorem getExeNameAndCmdLine_bash :
    ¬Recognizes ⟨1, true, ⟨none, true, 0⟩⟩ (bytesOf "bash" ++ [0]) := by
  have herr : getExeNameAndCmdLine ⟨1, true, ⟨none, true, 0⟩⟩ (some (bytesOf "bash" ++ [0])) =
      .error .unreadByte := rfl
  rintro ⟨r, hr, -⟩
  exact absurd (herr.symm.trans hr) nofun

end Ooops
