import Ooops.SetIoParam
import Ooops.Basis.LastWrite

/-!
# Set and Forget

A run of `set_io_param` starts from nothing but its command line, the configuration and the
shared block. The number of the arguments decides what the line is: groups of five, a switch,
or a server and a level. What a server has in the block at the end of a history of commands
was put there by the last command that names it, and there by its last group; and the switch
is where the last command has put it.

How numbers are read and computed with is a parameter (`ToolLib`), so that nothing depends on
rounding.

* `toolMain` is `main` on the words of the command line, `parseArgs` the command they stand
  for, `setIoParamWith` what that does to the block; `toolMain_eq` says that they agree.
* `Command.setting` and `Command.switch` are what a command says about a server and about the
  switch, whatever was before.
* `set_and_forget` is the result on histories.
-/

open Basis

namespace Ooops

/-- What the command takes from outside: `atof`, the product `*=` of floats, and the
conversion of a threshold in microseconds to ticks, at a frequency. -/
structure ToolLib where
  atof : CStr → ℚ
  mul : ℚ → ℚ → ℚ
  ticks : ℚ → ℚ → ℕ

/-- Exact arithmetic. -/
def ToolLib.exact (atof : CStr → ℚ) : ToolLib := ⟨atof, (· * ·), ticksOf⟩

/-! ### Commands -/

/-- The values that a level gives a server with the defaults `d`. -/
def Level.applyWith (lib : ToolLib) (l : Level) (d : ServerParam) : ServerParam where
  tThreshold := if l = .unlimit then fun _ => 1000000 else d.tThreshold
  maxFreq := fun op => lib.mul (d.maxFreq op) l.scale

/-- `Publish_Parameters` of the command, at the time stamp `rdtscp`. -/
def Tool.publishWith (lib : ToolLib) (t : Tool) (freq : ℚ) (b : ParamBlock) (rdtscp : ℕ) :
    ParamBlock :=
  { b with
    tThresholdInt64 := fun op i =>
      if t.updateFlag i then lib.ticks freq ((t.param i).tThreshold op)
      else b.tThresholdInt64 op i
    maxFreqShare := fun op i =>
      if t.updateFlag i then (t.param i).maxFreq op else b.maxFreqShare op i
    pDisabled := 0
    tUpdatedParam := rdtscp }

/-- The arrays after the groups of a command line. -/
def Tool.setGroups (gs : List (FsIdx × ServerParam)) : Tool :=
  gs.foldl (fun t g => t.set g.1 g.2) Tool.start

/-- What a command does to the block. -/
def setIoParamWith (lib : ToolLib) (env : ToolEnv) (c : Command) (b : ParamBlock)
    (rdtscp : ℕ) : ParamBlock :=
  match c with
  | .report => b
  | .enable bEnabled =>
      { b with
        pDisabled := if bEnabled then 0 else 1
        tUpdatedParam := rdtscp }
  | .groups [] => b
  | .groups gs => (Tool.setGroups gs).publishWith lib env.freq b rdtscp
  | .level fsIdx l =>
      match env.default? with
      | none => b
      | some d =>
          (Tool.start.set fsIdx (l.applyWith lib (d fsIdx))).publishWith lib env.freq b rdtscp

/-- With exact arithmetic this is `setIoParam`. -/
theorem setIoParamWith_exact (atof : CStr → ℚ) (env : ToolEnv) (c : Command) (b : ParamBlock)
    (rdtscp : ℕ) :
    setIoParamWith (ToolLib.exact atof) env c b rdtscp = setIoParam env c b rdtscp := by
  rcases c with _ | _ | gs | _
  case groups => cases gs <;> rfl
  all_goals rfl

/-! ### Command lines -/

/-- The array index that a word stands for; `main` does not check it. -/
def fsIdx? (word : CStr) : Option FsIdx :=
  if h : 0 ≤ atoi word ∧ atoi word < 8 then
    some ⟨(atoi word).toNat, by omega⟩
  else none

/-- The four values of a group. -/
def groupParam (lib : ToolLib) (tOpen fOpen tStat fStat : CStr) : ServerParam where
  tThreshold
    | .openFile => lib.atof tOpen
    | .lxstat => lib.atof tStat
  maxFreq
    | .openFile => lib.atof fOpen
    | .lxstat => lib.atof fStat

/-- The loop over the groups of five; no result when an index is outside of the arrays. -/
def readGroups (lib : ToolLib) : Tool → List CStr → Option Tool
  | t, idx :: tOpen :: fOpen :: tStat :: fStat :: args =>
      (fsIdx? idx).bind fun fsIdx =>
        readGroups lib (t.set fsIdx (groupParam lib tOpen fOpen tStat fStat)) args
  | t, _ => some t

/-- The level that a word stands for. -/
def Level.ofWord (word : CStr) : Level :=
  if word = bytesOf "low" then .low
  else if word = bytesOf "medium" then .medium
  else if word = bytesOf "high" then .high
  else if word = bytesOf "unlimit" then .unlimit
  else .otherWord

/-- `main` on the words behind the name of the command. Where it exits with the usage text or
an error message the block is as before; no result stands for a write outside of the arrays. -/
def toolMain (lib : ToolLib) (env : ToolEnv) (args : List CStr) (b : ParamBlock)
    (rdtscp : ℕ) : Option ParamBlock :=
  if args.length % 5 = 0 then
    (readGroups lib Tool.start args).map fun t =>
      if args.length ≠ 0 then t.publishWith lib env.freq b rdtscp else b
  else
    match args with
    | [word] =>
        if word = bytesOf "0" ∨ word = bytesOf "1" then
          if atoi word ≠ 0 then some { b with pDisabled := 0, tUpdatedParam := rdtscp }
          else some { b with pDisabled := 1, tUpdatedParam := rdtscp }
        else some b
    | [idx, word] =>
        match env.default? with
        | none => some b
        | some d =>
            (fsIdx? idx).map fun fsIdx =>
              (Tool.start.set fsIdx
                ((Level.ofWord word).applyWith lib (d fsIdx))).publishWith lib env.freq b rdtscp
    | _ => some b

/-- The groups that words stand for, five for each. -/
def parseGroups (lib : ToolLib) : List CStr → Option (List (FsIdx × ServerParam))
  | [] => some []
  | idx :: tOpen :: fOpen :: tStat :: fStat :: args =>
      (fsIdx? idx).bind fun fsIdx =>
        (parseGroups lib args).map fun gs =>
          (fsIdx, groupParam lib tOpen fOpen tStat fStat) :: gs
  | _ => none

/-- The command that a valid command line stands for. -/
def parseArgs (lib : ToolLib) (args : List CStr) : Option Command :=
  match args with
  | [] => some .report
  | [word] =>
      if word = bytesOf "0" then some (.enable false)
      else if word = bytesOf "1" then some (.enable true)
      else none
  | [idx, word] =>
      if Level.ofWord word = .otherWord then none
      else (fsIdx? idx).map fun fsIdx => .level fsIdx (Level.ofWord word)
  | args => (parseGroups lib args).map .groups

/-- A valid command line: a switch, groups of five, or a server and one of the four levels,
with indices below `MAX_FS_SERVER`; or nothing at all. -/
def ValidArgs (lib : ToolLib) (args : List CStr) : Prop := (parseArgs lib args).isSome = true

instance (lib : ToolLib) (args : List CStr) : Decidable (ValidArgs lib args) :=
  inferInstanceAs (Decidable (_ = true))

/-! ### What a command says -/

/-- The values that the arrays hold for a server, if it is marked. -/
def Tool.value (t : Tool) (i : FsIdx) : Option ServerParam :=
  if t.updateFlag i then some (t.param i) else none

/-- The values that a command gives a server. -/
def Command.setting (lib : ToolLib) (env : ToolEnv) (i : FsIdx) : Command → Option ServerParam
  | .report | .enable _ => none
  | .groups gs => lastSome (fun g => if g.1 = i then some g.2 else none) gs
  | .level fsIdx l =>
      if fsIdx = i then env.default?.map fun d => l.applyWith lib (d i) else none

/-- Where a command puts the switch. -/
def Command.switch (env : ToolEnv) : Command → Option ℕ
  | .report => none
  | .enable bEnabled => some (if bEnabled then 0 else 1)
  | .groups gs => if gs = [] then none else some 0
  | .level _ _ => env.default?.map fun _ => 0

/-- Setting a server gives it the values and leaves the others. -/
theorem Tool.value_set (t : Tool) (fsIdx : FsIdx) (v : ServerParam) (i : FsIdx) :
    (t.set fsIdx v).value i = if fsIdx = i then some v else t.value i := by
  by_cases h : fsIdx = i
  · subst h
    simp only [Tool.value, Tool.set, Function.update_self, if_true]
  · simp only [Tool.value, Tool.set, Function.update_of_ne (Ne.symm h), if_neg h]

/-- The last group that names a server decides. -/
theorem Tool.value_setGroups (gs : List (FsIdx × ServerParam)) (i : FsIdx) :
    (Tool.setGroups gs).value i = lastSome (fun g => if g.1 = i then some g.2 else none) gs := by
  have hset (t : Tool) (g : FsIdx × ServerParam) : (t.set g.1 g.2).value i =
      ((if g.1 = i then some g.2 else none).map some).getD (t.value i) := by
    rw [Tool.value_set]
    by_cases hg : g.1 = i
    · simp only [if_pos hg, Option.map_some, Option.getD_some]
    · simp only [if_neg hg, Option.map_none, Option.getD_none]
  have hread := @read_foldl _ _ _ (fun t : Tool => t.value i) _ _ hset Tool.start gs
  rw [Tool.setGroups, hread, lastSome_map]
  cases lastSome (fun g => if g.1 = i then some g.2 else none) gs <;> rfl

/-- The block after a publication, server by server. -/
theorem publishWith_spec (lib : ToolLib) (t : Tool) (freq : ℚ) (b : ParamBlock) (rdtscp : ℕ)
    (op : Op) (i : FsIdx) :
    (t.publishWith lib freq b rdtscp).tThresholdInt64 op i =
        ((t.value i).map fun v => lib.ticks freq (v.tThreshold op)).getD
          (b.tThresholdInt64 op i) ∧
      (t.publishWith lib freq b rdtscp).maxFreqShare op i =
        ((t.value i).map fun v => v.maxFreq op).getD (b.maxFreqShare op i) := by
  simp only [Tool.publishWith, Tool.value]
  split <;> exact ⟨rfl, rfl⟩

/-- **What a command does** to a server and to the switch is what it says about them. -/
theorem setIoParamWith_spec (lib : ToolLib) (env : ToolEnv) (c : Command) (b : ParamBlock)
    (rdtscp : ℕ) :
    (∀ op i,
      (setIoParamWith lib env c b rdtscp).tThresholdInt64 op i =
          ((c.setting lib env i).map fun v => lib.ticks env.freq (v.tThreshold op)).getD
            (b.tThresholdInt64 op i) ∧
        (setIoParamWith lib env c b rdtscp).maxFreqShare op i =
          ((c.setting lib env i).map fun v => v.maxFreq op).getD (b.maxFreqShare op i)) ∧
      (setIoParamWith lib env c b rdtscp).pDisabled = (c.switch env).getD b.pDisabled := by
  rcases c with _ | _ | gs | ⟨fsIdx, l⟩
  case report | enable => exact ⟨fun _ _ => ⟨rfl, rfl⟩, rfl⟩
  case groups =>
    cases gs with
    | nil => exact ⟨fun _ _ => ⟨rfl, rfl⟩, rfl⟩
    | cons g gs =>
        refine ⟨fun op i => ?_, rfl⟩
        rw [Command.setting, ← Tool.value_setGroups]
        exact publishWith_spec lib _ env.freq b rdtscp op i
  case level =>
    cases hd : env.default? with
    | none =>
        simp only [setIoParamWith, Command.setting, Command.switch, hd, Option.map_none, ite_self,
          Option.getD_none, and_self, implies_true]
    | some d =>
        have hvalue (i : FsIdx) : (Tool.start.set fsIdx (l.applyWith lib (d fsIdx))).value i =
            (Command.level fsIdx l).setting lib env i := by
          rw [Tool.value_set, Command.setting, hd]
          by_cases hi : fsIdx = i
          · rw [if_pos hi, if_pos hi, hi]
            rfl
          · rw [if_neg hi, if_neg hi]
            rfl
        refine ⟨fun op i => ?_, ?_⟩
        · rw [← hvalue]
          simp only [setIoParamWith, hd]
          exact publishWith_spec lib _ env.freq b rdtscp op i
        · simp only [setIoParamWith, hd, Command.switch, Option.map_some, Option.getD_some]
          rfl

/-- Publishing the same arrays again changes the time stamp only. -/
theorem publishWith_twice (lib : ToolLib) (t : Tool) (freq : ℚ) (b : ParamBlock)
    (rdtscp rdtscp' : ℕ) :
    t.publishWith lib freq (t.publishWith lib freq b rdtscp) rdtscp' =
      t.publishWith lib freq b rdtscp' := by
  have hite {α : Type} (c : Bool) (x y : α) :
      (if c then x else if c then x else y) = if c then x else y := by
    cases c <;> rfl
  simp only [Tool.publishWith, hite]

/-- **A command given twice** does what it does once. -/
theorem setIoParamWith_twice (lib : ToolLib) (env : ToolEnv) (c : Command) (b : ParamBlock)
    (rdtscp rdtscp' : ℕ) :
    setIoParamWith lib env c (setIoParamWith lib env c b rdtscp) rdtscp' =
      setIoParamWith lib env c b rdtscp' := by
  rcases c with _ | _ | gs | ⟨fsIdx, l⟩
  case report | enable => rfl
  case groups =>
    cases gs with
    | nil => rfl
    | cons g gs => exact publishWith_twice lib _ env.freq b rdtscp rdtscp'
  case level =>
    cases hd : env.default? with
    | none => simp only [setIoParamWith, hd]
    | some d =>
        simp only [setIoParamWith, hd]
        exact publishWith_twice lib _ env.freq b rdtscp rdtscp'

/-! ### What a command line does -/

/-- The loop of `main` sets the groups that the words stand for. -/
theorem readGroups_eq (lib : ToolLib) (args : List CStr) {gs : List (FsIdx × ServerParam)}
    (h : parseGroups lib args = some gs) (t : Tool) :
    readGroups lib t args = some (gs.foldl (fun t g => t.set g.1 g.2) t) ∧
      args.length = 5 * gs.length := by
  induction args using parseGroups.induct generalizing gs t with
  | case1 =>
      obtain rfl := Option.some.inj h
      exact ⟨rfl, rfl⟩
  | case2 idx tOpen fOpen tStat fStat args ih =>
      rw [parseGroups, Option.bind_eq_some_iff] at h
      obtain ⟨fsIdx, hidx, h⟩ := h
      obtain ⟨gs', hgs, rfl⟩ := Option.map_eq_some_iff.mp h
      obtain ⟨hread, hlen⟩ := ih hgs (t.set fsIdx (groupParam lib tOpen fOpen tStat fStat))
      refine ⟨?_, ?_⟩
      · rw [readGroups, hidx, Option.bind_some, hread, List.foldl_cons]
      · simp only [List.length_cons, hlen]
        omega
  | case3 args h₁ h₂ =>
      rw [parseGroups] at h
      · exact absurd h nofun
      · exact h₁
      · exact h₂

/-- **A valid command line** does what its command does. -/
theorem toolMain_eq {lib : ToolLib} {args : List CStr} {c : Command}
    (h : parseArgs lib args = some c) (env : ToolEnv) (b : ParamBlock) (rdtscp : ℕ) :
    toolMain lib env args b rdtscp = some (setIoParamWith lib env c b rdtscp) := by
  rcases args with _ | ⟨w, _ | ⟨w', _ | ⟨w'', args⟩⟩⟩
  · obtain rfl := Option.some.inj h
    rfl
  · rw [parseArgs] at h
    rw [toolMain, if_neg (by simp)]
    split at h
    · obtain rfl := Option.some.inj h
      subst w
      rfl
    split at h
    · obtain rfl := Option.some.inj h
      subst w
      rfl
    · exact absurd h nofun
  · rw [parseArgs] at h
    rw [toolMain, if_neg (by simp)]
    split at h
    · exact absurd h nofun
    · obtain ⟨fsIdx, hidx, rfl⟩ := Option.map_eq_some_iff.mp h
      simp only [setIoParamWith, hidx, Option.map_some]
      cases env.default? <;> rfl
  · set long := w :: w' :: w'' :: args with hlong
    have hparse : parseArgs lib long = (parseGroups lib long).map .groups := rfl
    rw [hparse] at h
    obtain ⟨gs, hgs, rfl⟩ := Option.map_eq_some_iff.mp h
    obtain ⟨hread, hlen⟩ := readGroups_eq lib long hgs Tool.start
    have hne : long.length ≠ 0 := by simp [hlong]
    have htool : toolMain lib env long b rdtscp = (readGroups lib Tool.start long).map fun t =>
        if long.length ≠ 0 then t.publishWith lib env.freq b rdtscp else b :=
      if_pos (by omega)
    rw [htool, hread, Option.map_some, if_pos hne]
    cases gs with
    | nil => exact absurd hlen hne
    | cons g gs => rfl

/-- What a command line says about a server. -/
def settingOf (lib : ToolLib) (env : ToolEnv) (args : List CStr) (i : FsIdx) :
    Option ServerParam :=
  (parseArgs lib args).bind fun c => c.setting lib env i

/-- Where a command line puts the switch. -/
def switchOf (lib : ToolLib) (env : ToolEnv) (args : List CStr) : Option ℕ :=
  (parseArgs lib args).bind fun c => c.switch env

/-- A history of command lines with their time stamps. -/
def toolHistory (lib : ToolLib) (env : ToolEnv) (b : ParamBlock) (c : List CStr × ℕ) :
    Option ParamBlock :=
  toolMain lib env c.1 b c.2

/-- **Set and forget.** After a history of valid command lines the thresholds and maximum
frequencies of a server are those that the last line that names it gives it, or the first
ones; the switch is where the last line has put it; and a line given twice does what it does
once. -/
theorem set_and_forget (lib : ToolLib) (env : ToolEnv) (cmds : List (List CStr × ℕ))
    (hvalid : ∀ c ∈ cmds, ValidArgs lib c.1) (b : ParamBlock) :
    ∃ b', runSteps (toolHistory lib env) b cmds = some b' ∧
      (∀ op i,
        b'.tThresholdInt64 op i =
            ((lastSome (fun c => settingOf lib env c.1 i) cmds).map fun v =>
              lib.ticks env.freq (v.tThreshold op)).getD (b.tThresholdInt64 op i) ∧
          b'.maxFreqShare op i =
            ((lastSome (fun c => settingOf lib env c.1 i) cmds).map fun v =>
              v.maxFreq op).getD (b.maxFreqShare op i)) ∧
      b'.pDisabled = (lastSome (fun c => switchOf lib env c.1) cmds).getD b.pDisabled ∧
      ∀ args, ValidArgs lib args → ∀ rdtscp rdtscp',
        (toolMain lib env args b' rdtscp).bind (fun b'' => toolMain lib env args b'' rdtscp') =
          toolMain lib env args b' rdtscp' := by
  have hparse {args : List CStr} (hargs : ValidArgs lib args) :
      ∃ c, parseArgs lib args = some c := Option.isSome_iff_exists.mp hargs
  -- one line, seen at a server or at the switch
  have hstep : ∀ c ∈ cmds, ∀ b b', toolHistory lib env b c = some b' →
      (∀ op i,
        b'.tThresholdInt64 op i =
            ((settingOf lib env c.1 i).map fun v =>
              lib.ticks env.freq (v.tThreshold op)).getD (b.tThresholdInt64 op i) ∧
          b'.maxFreqShare op i =
            ((settingOf lib env c.1 i).map fun v => v.maxFreq op).getD (b.maxFreqShare op i)) ∧
      b'.pDisabled = (switchOf lib env c.1).getD b.pDisabled := by
    intro c hc b b' hb'
    obtain ⟨cmd, hcmd⟩ := hparse (hvalid c hc)
    rw [toolHistory, toolMain_eq hcmd] at hb'
    obtain rfl := Option.some.inj hb'
    rw [switchOf, hcmd]
    simp only [settingOf, hcmd, Option.bind_some]
    exact setIoParamWith_spec lib env cmd b c.2
  obtain ⟨b', hrun⟩ : ∃ b', runSteps (toolHistory lib env) b cmds = some b' := by
    refine exists_runSteps (fun c hc b => ?_) b
    obtain ⟨cmd, hcmd⟩ := hparse (hvalid c hc)
    exact ⟨_, toolMain_eq hcmd env b c.2⟩
  refine ⟨b', hrun, fun op i => ⟨?_, ?_⟩, ?_, fun args hargs rdtscp rdtscp' => ?_⟩
  · rw [← lastSome_map]
    exact @read_runSteps _ _ _ (fun b : ParamBlock => b.tThresholdInt64 op i) _ _ _ _ _
      (fun c hc b b' hb' => ((hstep c hc b b' hb').1 op i).1) hrun
  · rw [← lastSome_map]
    exact @read_runSteps _ _ _ (fun b : ParamBlock => b.maxFreqShare op i) _ _ _ _ _
      (fun c hc b b' hb' => ((hstep c hc b b' hb').1 op i).2) hrun
  · exact @read_runSteps _ _ _ ParamBlock.pDisabled _ _ _ _ _
      (fun c hc b b' hb' => (hstep c hc b b' hb').2) hrun
  · obtain ⟨cmd, hcmd⟩ := hparse hargs
    rw [toolMain_eq hcmd, toolMain_eq hcmd, Option.bind_some, toolMain_eq hcmd,
      setIoParamWith_twice]

/-- Two groups for server 3, and then the switch. -/
def groupsThenOff : List (List CStr × ℕ) :=
  [(["3", "10", "20", "30", "40", "3", "1", "2", "3", "4"].map bytesOf, 1),
    (["0"].map bytesOf, 2)]

theorem set_and_forget_off :
    ∃ b', runSteps (toolHistory (ToolLib.exact fun s => atoi s) ⟨2000000000, none⟩)
        ParamBlock.zero groupsThenOff = some b' ∧
      b'.maxFreqShare .openFile 3 = 2 ∧ b'.maxFreqShare .openFile 4 = 0 ∧ b'.pDisabled = 1 := by
  obtain ⟨b', hrun, hvalue, hswitch, -⟩ := set_and_forget (ToolLib.exact fun s => atoi s)
    ⟨2000000000, none⟩ groupsThenOff (by decide +kernel) ParamBlock.zero
  refine ⟨b', hrun, ?_, ?_, ?_⟩
  · exact (hvalue .openFile 3).2.trans (by decide +kernel)
  · exact (hvalue .openFile 4).2.trans (by decide +kernel)
  · exact hswitch.trans (by decide +kernel)

end Ooops
