import Mathlib.Data.Rat.Floor
import Mathlib.Data.List.FinRange
import Ooops.Basis.CString

/-!
# Parameters of the Preloaded Library

Every process on a node preloads the library, which keeps a private copy of the file
system tags, thresholds and maximum frequencies (`Proc`). The published values live in the
shared segment `/my_io_param_<uid>` (`ParamBlock`). The process that creates the segment
reads the configuration and publishes it (`readConfig`, `publishParameters`); every other
one copies the block when it starts, and again whenever it finds that the block's time
stamp differs from its own (`updateParameters`).

The two kinds of tracked calls, `open` and `stat`, have their own copy of each array in
the source; here an array is indexed by the kind `Op`. A server index is a `FsIdx`, and
the source's `-1` for a path that is on no tracked file system is `none`.
-/

open Basis

namespace Ooops

/-- The index of a file system server, below `MAX_FS_SERVER`. -/
abbrev FsIdx := Fin 8

instance fsIdxNeZero : NeZero 8 := ⟨by decide⟩

/-- The two kinds of calls that are counted and delayed. -/
inductive Op
  | openFile
  | lxstat
  deriving DecidableEq, Repr

/-- The shared parameter block `/my_io_param_<uid>`. -/
structure ParamBlock where
  tUpdatedParam : ℕ
  tThresholdInt64 : Op → FsIdx → ℕ
  maxFreqShare : Op → FsIdx → ℚ
  pDisabled : ℕ
  paramMemReady : ℕ
  fsTagList : FsIdx → CStr
  fsTagLen : FsIdx → ℕ
  paramFreq : ℚ

/-- The block as `ftruncate` leaves it. -/
def ParamBlock.zero : ParamBlock where
  tUpdatedParam := 0
  tThresholdInt64 := fun _ _ => 0
  maxFreqShare := fun _ _ => 0
  pDisabled := 0
  paramMemReady := 0
  fsTagList := fun _ => []
  fsTagLen := fun _ => 0
  paramFreq := 0

/-- The static and thread-local variables of the library in one process. -/
structure Proc where
  active : Bool
  shmReady : Bool
  nFsServer : ℕ
  szFSTag : FsIdx → CStr
  fsTagLen : FsIdx → ℕ
  freq : ℚ
  tUpdatedParam : ℕ
  maxFreq : Op → FsIdx → ℚ
  tThresholdInt64 : Op → FsIdx → ℕ
  idxFsServer : Option FsIdx
  idxFsServerCWD : Option FsIdx
  szUpdatedDir : CStr
  isInInitBash : Bool
  szBatchScriptNameOrg : CStr
  tid : ℤ
  tList : FsIdx → Op → ℕ
  callCount : FsIdx → Op → ℕ
  nCallDelayed : Op → FsIdx → ℕ

/-- The variables of a process before its constructor has run. -/
def Proc.start : Proc where
  active := true
  shmReady := false
  nFsServer := 0
  szFSTag := fun _ => []
  fsTagLen := fun _ => 0
  freq := 0
  tUpdatedParam := 0
  maxFreq := fun _ _ => 0
  tThresholdInt64 := fun _ _ => 0
  idxFsServer := some 0
  idxFsServerCWD := some 0
  szUpdatedDir := []
  isInInitBash := false
  szBatchScriptNameOrg := []
  tid := -1
  tList := fun _ _ => 0
  callCount := fun _ _ => 0
  nCallDelayed := fun _ _ => 0

/-- One record of the configuration: the tag of a file system and, for each kind of call,
the threshold in microseconds and the maximum frequency. A tag is read by `%s`, so it is
not empty. -/
structure FsRecord where
  tag : CStr
  tThreshold : Op → ℚ
  maxFreq : Op → ℚ
  tag_ne_nil : tag ≠ []

/-- What `Read_Config` finds for the current CPU: its frequency in Hz and the records of
the selected section, at most `MAX_FS_SERVER` of them since 80 items are scanned. -/
structure Config where
  freq : ℚ
  records : List FsRecord
  length_le : records.length ≤ 8

/-- The stored length of a tag: it has to fit a slot of `MAX_LEN_FS_NAME` bytes. -/
def fsTagLenOf (tag : CStr) : ℕ :=
  if tag.length ≥ 16 then 16 - 1 else tag.length

/-- A threshold in microseconds as a number of CPU ticks. -/
def ticksOf (freq t : ℚ) : ℕ := ⌊t * 0.000001 * freq⌋₊

/-- `Read_Config`, from the point where the section is selected and its items are read. -/
def readConfig (p : Proc) (c : Config) : Proc :=
  { p with
    nFsServer := c.records.length
    freq := c.freq
    szFSTag := fun i => (c.records[i.val]?.map FsRecord.tag).getD (p.szFSTag i)
    fsTagLen := fun i =>
      (c.records[i.val]?.map fun r => fsTagLenOf r.tag).getD (p.fsTagLen i)
    tThresholdInt64 := fun op i =>
      (c.records[i.val]?.map fun r => ticksOf c.freq (r.tThreshold op)).getD
        (p.tThresholdInt64 op i)
    maxFreq := fun op i => (c.records[i.val]?.map fun r => r.maxFreq op).getD 60000 }

/-- `Publish_Parameters` of the library, at the time stamp `rdtscp`. -/
def publishParameters (p : Proc) (b : ParamBlock) (rdtscp : ℕ) : Proc × ParamBlock :=
  ({ p with active := true },
   { b with
     tUpdatedParam := rdtscp
     pDisabled := 0
     tThresholdInt64 := fun op i =>
       if i.val < p.nFsServer then p.tThresholdInt64 op i else b.tThresholdInt64 op i
     maxFreqShare := fun op i =>
       if i.val < p.nFsServer then p.maxFreq op i else b.maxFreqShare op i
     fsTagLen := fun i => if i.val < p.nFsServer then p.fsTagLen i else b.fsTagLen i
     fsTagList := fun i =>
       if i.val < p.nFsServer then (p.szFSTag i).take (p.fsTagLen i) else b.fsTagList i
     paramFreq := p.freq
     paramMemReady := 1 })

/-- The number of slots of the block that hold a tag. -/
def ParamBlock.usedSlots (b : ParamBlock) : ℕ :=
  (List.finRange 8).countP fun i => b.fsTagLen i ≠ 0

/-- `Update_Parameters`: copy the block, slot by slot, unless it is switched off. -/
def updateParameters (p : Proc) (b : ParamBlock) : Proc :=
  if b.pDisabled = 1 then
    { p with active := false }
  else
    { p with
      active := true
      nFsServer := b.usedSlots
      tUpdatedParam := b.tUpdatedParam
      freq := b.paramFreq
      tThresholdInt64 := fun op i =>
        if b.fsTagLen i = 0 then p.tThresholdInt64 op i else b.tThresholdInt64 op i
      maxFreq := fun op i =>
        if b.fsTagLen i = 0 then p.maxFreq op i else b.maxFreqShare op i
      szFSTag := fun i => if b.fsTagLen i = 0 then p.szFSTag i else b.fsTagList i
      fsTagLen := fun i => if b.fsTagLen i = 0 then p.fsTagLen i else b.fsTagLen i }

/-- The first tag of the process that `szName` starts with. -/
def firstTag (p : Proc) (szName : CStr) : Option FsIdx :=
  (List.finRange 8).find? fun i =>
    decide (i.val < p.nFsServer) && strncmpEq szName (p.szFSTag i) (p.fsTagLen i)

/-- `Check_FS_Server`: the server of a path name, a relative one without a tag of its own
being charged to the current directory. -/
def checkFSServer (p : Proc) (szName : CStr) : Proc :=
  match firstTag p szName with
  | some i => { p with idxFsServer := some i }
  | none =>
      if szName.head? ≠ some 47 then { p with idxFsServer := p.idxFsServerCWD }
      else { p with idxFsServer := none }

/-- `Update_CWD`, when the real `getcwd` answers `dir`. -/
def updateCWD (p : Proc) (dir : CStr) : Proc :=
  { p with szUpdatedDir := dir, idxFsServerCWD := firstTag p dir }

/-! ### What each operation leaves alone -/

@[simp] theorem active_checkFSServer (p : Proc) (s : CStr) :
    (checkFSServer p s).active = p.active := by
  unfold checkFSServer; split <;> [rfl; split <;> rfl]

/-- `Check_FS_Server` only sets the server index. -/
theorem checkFSServer_eq (p : Proc) (s : CStr) :
    checkFSServer p s = { p with idxFsServer := (checkFSServer p s).idxFsServer } := by
  unfold checkFSServer; split <;> [rfl; split <;> rfl]

/-- A path with a tag of its own is charged to the first such tag. -/
theorem checkFSServer_of_firstTag {p : Proc} {s : CStr} {i : FsIdx}
    (h : firstTag p s = some i) : checkFSServer p s = { p with idxFsServer := some i } := by
  simp only [checkFSServer, h]

/-- A stored tag length fits its slot and is positive for a tag. -/
theorem fsTagLenOf_pos {tag : CStr} (h : tag ≠ []) : 0 < fsTagLenOf tag := by
  have := List.length_pos_iff.mpr h
  rw [fsTagLenOf]
  split <;> omega

end Ooops
