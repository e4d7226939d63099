import Mathlib.Tactic.NormNum
import Ooops.Params

/-!
# The Command `set_io_param`

The user changes the published parameters with the command `set_io_param`. It switches
the library off and on, sets the four values of any number of servers, or sets those of
one server to a named fraction of the configured ones. Each run of the command has its own
arrays (`Tool`), which start zeroed, and marks in `UpdateFlag` the servers whose values it
has set; `Tool.publishParameters` then copies these, and only these, into the block.

## Main results

* `setIoParam_tags`: no command touches the tags of the block.
* `setIoParam_stamp`: a command that changes the block leaves its own time stamp there.
-/

open Basis

namespace Ooops

/-- The thresholds in microseconds and the maximum frequencies of one server. -/
structure ServerParam where
  tThreshold : Op → ℚ
  maxFreq : Op → ℚ

/-- The third argument of `set_io_param server_idx level`. The code compares it with the
four words of the usage text and goes on in any case. -/
inductive Level
  | low
  | medium
  | high
  | unlimit
  | otherWord
  deriving DecidableEq, Repr

/-- What a command line asks for. The servers of a command line are indices below
`MAX_FS_SERVER`. -/
inductive Command
  | report
  | enable (bEnabled : Bool)
  | groups (gs : List (FsIdx × ServerParam))
  | level (fsIdx : FsIdx) (l : Level)

/-- What the command finds around it: the frequency of the CPU in Hz, and the defaults of
the configuration, `none` if `IO_LIMIT_CONFIG` is not set. -/
structure ToolEnv where
  freq : ℚ
  default? : Option (FsIdx → ServerParam)

/-- The arrays of one run of the command. -/
structure Tool where
  updateFlag : FsIdx → Bool
  param : FsIdx → ServerParam

/-- The zeroed arrays. -/
def Tool.start : Tool := ⟨fun _ => false, fun _ => ⟨fun _ => 0, fun _ => 0⟩⟩

/-- Set the values of one server and mark it. -/
def Tool.set (t : Tool) (fsIdx : FsIdx) (v : ServerParam) : Tool where
  updateFlag := Function.update t.updateFlag fsIdx true
  param := Function.update t.param fsIdx v

/-- The fraction of the configured maximum frequencies that a level stands for. -/
def Level.scale : Level → ℚ
  | .low => 0.2
  | .medium => 0.5
  | .high => 1
  | .unlimit => 50
  | .otherWord => 1

/-- The values that a level gives a server with the defaults `d`. -/
def Level.apply (l : Level) (d : ServerParam) : ServerParam where
  tThreshold := if l = .unlimit then fun _ => 1000000 else d.tThreshold
  maxFreq := fun op => d.maxFreq op * l.scale

/-- `Publish_Parameters` of the command, at the time stamp `rdtscp`. -/
def Tool.publishParameters (t : Tool) (freq : ℚ) (b : ParamBlock) (rdtscp : ℕ) :
    ParamBlock :=
  { b with
    tThresholdInt64 := fun op i =>
      if t.updateFlag i then ticksOf freq ((t.param i).tThreshold op)
      else b.tThresholdInt64 op i
    maxFreqShare := fun op i =>
      if t.updateFlag i then (t.param i).maxFreq op else b.maxFreqShare op i
    pDisabled := 0
    tUpdatedParam := rdtscp }

/-- What one command does to the block. Without a configuration a level is refused. -/
def setIoParam (env : ToolEnv) (c : Command) (b : ParamBlock) (rdtscp : ℕ) : ParamBlock :=
  match c with
  | .report => b
  | .enable bEnabled =>
      { b with
        pDisabled := if bEnabled then 0 else 1
        tUpdatedParam := rdtscp }
  | .groups [] => b
  | .groups gs =>
      (gs.foldl (fun t g => t.set g.1 g.2) Tool.start).publishParameters env.freq b rdtscp
  | .level fsIdx l =>
      match env.default? with
      | none => b
      | some d =>
          (Tool.start.set fsIdx (l.apply (d fsIdx))).publishParameters env.freq b rdtscp

/-- What a command can do to the block: nothing, switch it, or publish values. -/
theorem setIoParam_cases (env : ToolEnv) (c : Command) (b : ParamBlock) (rdtscp : ℕ) :
    setIoParam env c b rdtscp = b ∨
    (∃ n, setIoParam env c b rdtscp = { b with pDisabled := n, tUpdatedParam := rdtscp }) ∨
    ∃ t : Tool, setIoParam env c b rdtscp = t.publishParameters env.freq b rdtscp := by
  simp only [setIoParam]
  split
  case h_1 | h_3 => exact .inl rfl
  case h_2 bEnabled => exact .inr (.inl ⟨_, rfl⟩)
  case h_4 => exact .inr (.inr ⟨_, rfl⟩)
  case h_5 =>
    split
    · exact .inl rfl
    · exact .inr (.inr ⟨_, rfl⟩)

/-- No command touches the tags. -/
theorem setIoParam_tags (env : ToolEnv) (c : Command) (b : ParamBlock) (rdtscp : ℕ) :
    (setIoParam env c b rdtscp).fsTagLen = b.fsTagLen ∧
      (setIoParam env c b rdtscp).fsTagList = b.fsTagList := by
  rcases setIoParam_cases env c b rdtscp with h | ⟨n, h⟩ | ⟨t, h⟩ <;> rw [h]
  · exact ⟨rfl, rfl⟩
  · exact ⟨rfl, rfl⟩
  · exact ⟨rfl, rfl⟩

/-- A command leaves the block alone or marks it with its own time stamp. -/
theorem setIoParam_stamp (env : ToolEnv) (c : Command) (b : ParamBlock) (rdtscp : ℕ) :
    setIoParam env c b rdtscp = b ∨ (setIoParam env c b rdtscp).tUpdatedParam = rdtscp := by
  rcases setIoParam_cases env c b rdtscp with h | ⟨n, h⟩ | ⟨t, h⟩
  · exact .inl h
  · exact .inr (by rw [h])
  · exact .inr (by rw [h]; rfl)

end Ooops
