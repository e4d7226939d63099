import Ooops.Basis.Decimal
import Ooops.Basis.Lines

/-!
# The Job Script

In front of a job script the commands are written that start the daemon on the hosts of the job,
and behind it those that end it and sum up its counters. The three shells have their own texts
and one writer each, which differ in nothing else.

`fread` reads a file to its end and `fclose` writes what `fprintf` has printed; what may go wrong
otherwise is in `ScriptFiles`. The strings fit the 8192 bytes of `szCmdPrepend`. A message that
prints `szFile` goes on behind the bytes that were read, as far as the first NUL in memory; only
what was read is kept.

* `lines_script_iff`: the lines of the job script are lines of the new file exactly if it ends in
  a newline.
-/

open Basis

namespace Ooops

/-- The shells `SHELL_BASH`, `SHELL_TCSH` and `SHELL_ZSH`. -/
inductive Shell
  | bash
  | tcsh
  | zsh
  deriving DecidableEq

/-- `MAX_BUFF_SIZE`. -/
def maxBuffSize : ℕ := 1024 * 1024

/-- The two script files: what stands in the one of the job, if it can be opened, whether the new
one can be opened, and what `fwrite` returns for the bytes of the script. -/
structure ScriptFiles where
  org : Option (List UInt8)
  newOpens : Bool
  written : ℕ

/-- The reasons to quit. -/
inductive ScriptError
  | openOrg
  | short (szFile : List UInt8)
  | large
  | openNew
  | write (nBytesWritten nBytes : ℕ)
  deriving DecidableEq

/-- What is printed before quitting. -/
def ScriptError.message (szBatchScriptNameOrg szBatchScriptNameNew : CStr) : ScriptError → CStr
  | openOrg => bytesOf "Fail to open file " ++ szBatchScriptNameOrg ++ bytesOf "\nQuit\n"
  | short szFile =>
      bytesOf "Something wrong in file " ++ szBatchScriptNameOrg ++ bytesOf "\n" ++ szFile
  | large =>
      bytesOf "File " ++ szBatchScriptNameOrg ++
        bytesOf " is large. You need to increase MAX_BUFF_SIZE\n"
  | openNew => bytesOf "Fail to open file " ++ szBatchScriptNameNew ++ bytesOf "\nQuit\n"
  | write nBytesWritten nBytes =>
      bytesOf "Error in writing " ++ szBatchScriptNameNew ++ bytesOf ". nBytes_Written = " ++
        showInt nBytesWritten ++ bytesOf " nBytes = " ++ showInt nBytes ++
        bytesOf "\n"

/-- A text that is put together from strings. -/
def textOf (strs : List String) : CStr := strs.flatMap bytesOf

/-- One of the three writers, with the strings that it puts together in `szCmdPrepend` and those
that it prints behind the script. -/
def appendJobEndHandler (cmdPrepend jobEnd : List String) (files : ScriptFiles) :
    Except ScriptError (List UInt8) :=
  match files.org with
  | none => .error .openOrg
  | some org =>
      let szFile := org.take maxBuffSize
      let nBytes := szFile.length
      if nBytes < 10 then .error (.short szFile)
      else if nBytes = maxBuffSize then .error .large
      else if !files.newOpens then .error .openNew
      else if files.written ≠ nBytes then .error (.write files.written nBytes)
      else .ok (textOf cmdPrepend ++ szFile ++ textOf jobEnd)

/-- What `Append_Job_End_Handler_Bash` puts in front. -/
def cmdPrependBash : List String :=
  ["scontrol show hostnames $SLURM_NODELIST > /dev/shm/ooops/hostfile\n",
    "myhostname=`hostname -s`\n",
    "myip=`$TACC_OOOPS_BIN/get_ip`\n",
    "$TACC_OOOPS_BIN/ooopsd -p 8888 &\n",
    "export ooopsd_pid=$!\n",
    "$TACC_OOOPS_BIN/msleep 100\n",
    "while IFS= read -r line\n",
    "do\n",
    "  if [ \"$line\" != \"$myhostname\" ]; then\n",
    "    ssh -q -o \"StrictHostKeyChecking no\" -n $line \"IO_LIMIT_CONFIG=$IO_LIMIT_CONFIG " ++
      "LD_PRELOAD=$LD_PRELOAD date &> /dev/null ; LD_PRELOAD=\\\"\\\" " ++
      "OOOPS_REPORT_T_INTERVAL=$OOOPS_REPORT_T_INTERVAL $TACC_OOOPS_BIN/ooops $myip " ++
      "&> /dev/null &\" &> /dev/null &\n",
    "  fi\n",
    "done < \"/dev/shm/ooops/hostfile\"\n"]

/-- What it prints behind the script. -/
def jobEndBash : List String :=
  ["kill $ooopsd_pid\n",
    "$TACC_OOOPS_BIN/msleep 200\n",
    "if [ -f \"/dev/shm/ooops/high_io\" ]; then \n",
    "  ml intel impi &> /dev/null \n",
    "  mpiexec.hydra -np $SLURM_NNODES -ppn 1 -f /dev/shm/ooops/hostfile " ++
      "$TACC_OOOPS_BIN/mpi_aggregator\n",
    "fi\n"]

/-- What `Append_Job_End_Handler_Tcsh` puts in front. -/
def cmdPrependTcsh : List String :=
  ["scontrol show hostnames \"$SLURM_NODELIST\" > /dev/shm/ooops/hostfile\n",
    "set myhostname=`hostname -s`\n",
    "set myip=`$TACC_OOOPS_BIN/get_ip`\n",
    "$TACC_OOOPS_BIN/ooopsd -p 8888 &\n",
    "set export ooopsd_pid=$!\n",
    "$TACC_OOOPS_BIN/msleep 100\n",
    "foreach line ( `cat /dev/shm/ooops/hostfile`)\n",
    "  if ($line != \"$myhostname\") then\n",
    "   ( ssh -q -o \"StrictHostKeyChecking no\" -n $line " ++
      "\"env IO_LIMIT_CONFIG=$IO_LIMIT_CONFIG LD_PRELOAD=$LD_PRELOAD date > /dev/null ; " ++
      "env LD_PRELOAD=\"\" OOOPS_REPORT_T_INTERVAL=$OOOPS_REPORT_T_INTERVAL " ++
      "$TACC_OOOPS_BIN/ooops $myip > /dev/null &\" > /dev/null & ) \n",
    "  endif\n",
    "end\n"]

/-- What it prints behind the script. -/
def jobEndTcsh : List String :=
  ["kill $ooopsd_pid\n",
    "$TACC_OOOPS_BIN/msleep 200\n",
    "if ( -f \"/dev/shm/ooops/high_io\" ) then\n",
    "  ml intel impi > /dev/null \n",
    "  mpiexec.hydra -np $SLURM_NNODES -ppn 1 -f /dev/shm/ooops/hostfile " ++
      "$TACC_OOOPS_BIN/mpi_aggregator\n",
    "endif\n"]

/-- What `Append_Job_End_Handler_Zsh` puts in front. -/
def cmdPrependZsh : List String :=
  ["scontrol show hostnames $SLURM_NODELIST > /dev/shm/ooops/hostfile\n",
    "myhostname=`hostname -s`\n",
    "myip=`$TACC_OOOPS_BIN/get_ip`\n",
    "$TACC_OOOPS_BIN/ooopsd -p 8888 &\n",
    "export ooopsd_pid=$!\n",
    "$TACC_OOOPS_BIN/msleep 100\n",
    "for line in `cat /dev/shm/ooops/hostfile`\n",
    "do\n",
    "  if [ \"$line\" != \"$myhostname\" ]; then\n",
    "    ssh -q -o \"StrictHostKeyChecking no\" -n $line \"IO_LIMIT_CONFIG=$IO_LIMIT_CONFIG " ++
      "LD_PRELOAD=$LD_PRELOAD date &> /dev/null ; LD_PRELOAD=\\\"\\\" " ++
      "OOOPS_REPORT_T_INTERVAL=$OOOPS_REPORT_T_INTERVAL $TACC_OOOPS_BIN/ooops $myip " ++
      "&> /dev/null &\" &> /dev/null &\n",
    "  fi\n",
    "done\n"]

/-- What it prints behind the script. -/
def jobEndZsh : List String :=
  ["kill $ooopsd_pid\n",
    "$TACC_OOOPS_BIN/msleep 200\n",
    "if [ -f \"/dev/shm/ooops/high_io\" ]; then \n",
    "  ml intel impi &> /dev/null \n",
    "  mpiexec.hydra -np $SLURM_NNODES -ppn 1 -f /dev/shm/ooops/hostfile " ++
      "$TACC_OOOPS_BIN/mpi_aggregator\n",
    "fi\n"]

/-- `Append_Job_End_Handler_Bash`. -/
def appendJobEndHandlerBash : ScriptFiles → Except ScriptError (List UInt8) :=
  appendJobEndHandler cmdPrependBash jobEndBash

/-- `Append_Job_End_Handler_Tcsh`. -/
def appendJobEndHandlerTcsh : ScriptFiles → Except ScriptError (List UInt8) :=
  appendJobEndHandler cmdPrependTcsh jobEndTcsh

/-- `Append_Job_End_Handler_Zsh`. -/
def appendJobEndHandlerZsh : ScriptFiles → Except ScriptError (List UInt8) :=
  appendJobEndHandler cmdPrependZsh jobEndZsh

/-- The text that is put in front of a script. -/
def Shell.cmdPrepend : Shell → List String
  | .bash => cmdPrependBash
  | .tcsh => cmdPrependTcsh
  | .zsh => cmdPrependZsh

/-- The text behind a script. -/
def Shell.jobEnd : Shell → List String
  | .bash => jobEndBash
  | .tcsh => jobEndTcsh
  | .zsh => jobEndZsh

/-- The writer of a shell. -/
def Shell.appendJobEndHandler : Shell → ScriptFiles → Except ScriptError (List UInt8)
  | .bash => appendJobEndHandlerBash
  | .tcsh => appendJobEndHandlerTcsh
  | .zsh => appendJobEndHandlerZsh

theorem Shell.appendJobEndHandler_eq (sh : Shell) :
    sh.appendJobEndHandler = Ooops.appendJobEndHandler sh.cmdPrepend sh.jobEnd := by
  cases sh <;> rfl

/-- The new file, where nothing goes wrong. -/
theorem appendJobEndHandler_eq_ok {cmdPrepend jobEnd : List String} {files : ScriptFiles}
    {script : List UInt8} (horg : files.org = some script) (hmin : 10 ≤ script.length)
    (hmax : script.length < 2 ^ 20) (hnew : files.newOpens = true)
    (hwritten : files.written = script.length) :
    appendJobEndHandler cmdPrepend jobEnd files =
      .ok (textOf cmdPrepend ++ script ++ textOf jobEnd) := by
  have hlarge : script.length ≠ maxBuffSize := by
    rw [maxBuffSize]
    omega
  have htake : script.take maxBuffSize = script :=
    List.take_of_length_le (by rw [maxBuffSize]; omega)
  simp only [appendJobEndHandler, horg, htake, if_neg (Nat.not_lt.mpr hmin), if_neg hlarge, hnew,
    hwritten, Bool.not_true, Bool.false_eq_true, ne_eq, not_true_eq_false, if_false]

/-- A text whose last string ends in a newline. -/
theorem terminated_textOf {strs : List String} {last : String} (hlast : strs.getLast? = some last)
    (h : (bytesOf last).getLast? = some lineFeed) : Terminated (textOf strs) := by
  obtain ⟨strs, rfl⟩ := List.getLast?_eq_some_iff.mp hlast
  intro c hc
  rw [textOf, List.flatMap_append, List.flatMap_singleton, List.getLast?_append, h,
    Option.some_or] at hc
  exact (Option.some.inj hc).symm

theorem terminated_cmdPrepend (sh : Shell) : Terminated (textOf sh.cmdPrepend) := by
  cases sh with
  | bash => exact @terminated_textOf cmdPrependBash _ rfl (by decide)
  | tcsh => exact @terminated_textOf cmdPrependTcsh _ rfl (by decide)
  | zsh => exact @terminated_textOf cmdPrependZsh _ rfl (by decide)

/-- What is put behind starts with a line of its own. -/
theorem lines_jobEnd (sh : Shell) :
    ∃ rest, lines (textOf sh.jobEnd) = bytesOf "kill $ooopsd_pid" :: rest := by
  have hkill : lines (bytesOf "kill $ooopsd_pid\n") = [bytesOf "kill $ooopsd_pid"] := by decide
  have hhead : ∃ strs, sh.jobEnd = "kill $ooopsd_pid\n" :: strs := by
    cases sh <;> exact ⟨_, rfl⟩
  obtain ⟨strs, hstrs⟩ := hhead
  refine ⟨lines (textOf strs), ?_⟩
  rw [hstrs, textOf, List.flatMap_cons, lines_append (by decide), hkill]
  rfl

/-- The lines of the new file. -/
theorem lines_newFile_iff (sh : Shell) {script : List UInt8} (hne : script ≠ []) :
    lines (textOf sh.cmdPrepend ++ script ++ textOf sh.jobEnd) =
        lines (textOf sh.cmdPrepend) ++ lines script ++ lines (textOf sh.jobEnd) ↔
      script.getLast? = some lineFeed := by
  obtain ⟨rest, hrest⟩ := lines_jobEnd sh
  have hend : textOf sh.jobEnd ≠ [] := fun h => by simp [h, lines, linesFrom] at hrest
  obtain ⟨c, hc⟩ := Option.ne_none_iff_exists'.mp (mt List.getLast?_eq_none_iff.mp hne)
  rw [List.append_assoc, lines_append (terminated_cmdPrepend sh), List.append_assoc,
    List.append_right_inj, lines_append_iff hend]
  simp [Terminated, hc]

/-- **The lines of a job script** are lines of the new file, between those that are put in front
and those that are put behind, exactly if the script ends in a newline. -/
theorem lines_script_iff (sh : Shell) (files : ScriptFiles) (script : List UInt8)
    (horg : files.org = some script) (hmin : 10 ≤ script.length)
    (hmax : script.length < 2 ^ 20) (hnew : files.newOpens = true)
    (hwritten : files.written = script.length) :
    ∃ file, sh.appendJobEndHandler files = .ok file ∧
      (lines (textOf sh.jobEnd)).head? = some (bytesOf "kill $ooopsd_pid") ∧
      (lines file =
          lines (textOf sh.cmdPrepend) ++ lines script ++ lines (textOf sh.jobEnd) ↔
        script.getLast? = some lineFeed) := by
  obtain ⟨rest, hrest⟩ := lines_jobEnd sh
  have hne : script ≠ [] := fun h => by simp [h] at hmin
  exact ⟨_, sh.appendJobEndHandler_eq ▸
    appendJobEndHandler_eq_ok horg hmin hmax hnew hwritten, by rw [hrest]; rfl,
    lines_newFile_iff sh hne⟩

/-- A script of two lines. -/
def sampleScript : List UInt8 := bytesOf "#!/bin/sh\ndate\n"

theorem lines_script_iff_sample :
    ∃ file, Shell.zsh.appendJobEndHandler ⟨some sampleScript, true, 15⟩ = .ok file ∧
      lines file = lines (textOf cmdPrependZsh) ++ lines sampleScript ++
        lines (textOf jobEndZsh) := by
  have hlen : sampleScript.length = 15 := by decide
  obtain ⟨file, hfile, -, hiff⟩ := lines_script_iff .zsh ⟨some sampleScript, true, 15⟩ sampleScript
    rfl (by omega) (by omega) rfl hlen.symm
  exact ⟨file, hfile, hiff.mpr (by decide)⟩

/-- Without the newline at the end its last line goes on with the first one that is put behind. -/
theorem lines_script_unterminated :
    ∃ file, Shell.bash.appendJobEndHandler ⟨some sampleScript.dropLast, true, 14⟩ = .ok file ∧
      10 ≤ sampleScript.dropLast.length ∧ sampleScript.dropLast.length < 2 ^ 20 ∧
      lines file ≠ lines (textOf cmdPrependBash) ++ lines sampleScript.dropLast ++
        lines (textOf jobEndBash) := by
  have hlen : sampleScript.dropLast.length = 14 := by decide
  have hne : sampleScript.dropLast ≠ [] := fun h => by simp [h] at hlen
  have hfile := @appendJobEndHandler_eq_ok cmdPrependBash jobEndBash
    ⟨some sampleScript.dropLast, true, 14⟩ _ rfl (by omega) (by omega) rfl hlen.symm
  refine ⟨_, hfile, by omega, by omega, fun h => ?_⟩
  exact absurd ((lines_newFile_iff .bash hne).mp h) (by decide)

end Ooops
