import Ooops.Basis.Bytes
import Ooops.Basis.Closest
import Ooops.Basis.Scan
import Ooops.SetIoParam

/-!
# Readers of the Configuration

The configuration is read by three programs, each with its own copy of the parser: by the
library (`Read_Config`), by `set_io_param` and by `ooopsd` (`Read_Default_Param`). A copy reads
the first `MAX_LEN_CONFIG` bytes of the file into a buffer, lists the positions of the tags
`<fre` and `</fr`, takes every other one for the start of a section, and picks the section
whose frequency is the closest to that of the CPU. From the line behind its head on, up to the
byte before the next tag, it scans words, ten for a server.

The copies differ in how many words they scan: `scanConfig` has that number as a parameter, and
`readConfigFile`, `Tool.readDefaultParam` and `Ooopsd.readDefaultParam` are the copies. What
stands in memory behind the bytes that were read, `junk`, is different for each of them. All
are modelled from the point where the file has been opened.

How numbers are read and computed with is a parameter (`ScanLib`), so that nothing depends on
rounding.
-/

open Basis

namespace Ooops

/-- What the readers take from outside: `sscanf` with one `%f`, `atof`, the difference of two
floats, and a frequency in GHz. -/
structure ScanLib where
  scanFloat : CStr → Option ℚ
  atof : CStr → ℚ
  sub : ℚ → ℚ → ℚ
  gHz : ℚ → ℚ
  /-- No number goes on behind a `>`. -/
  scanFloat_stop (text rest : CStr) :
    62 ∉ text → scanFloat (text ++ 62 :: rest) = scanFloat text

/-! ### The parser -/

/-- `Tag_Start`, which is `<fre` in memory. -/
def tagStart : ℕ := 0x6572663C

/-- `Tag_End`, which is `</fr` in memory. -/
def tagEnd : ℕ := 0x72662F3C

/-- Whether the four bytes that stand there are the tag. -/
def isTag (tag : ℕ) (b : List UInt8) : Bool := ofLE (b.take 4) == tag

/-- Whether one of the two tags stands there. -/
def anyTag (b : List UInt8) : Bool := isTag tagStart b || isTag tagEnd b

/-- `PosList`: the positions of all tags among the bytes that were read. -/
def posList (numRead : ℕ) (szBuff : List UInt8) : List ℕ := marksFrom anyTag 0 numRead szBuff

/-- A tag starts with `<`. -/
theorem not_anyTag {c : UInt8} (hc : c ≠ 60) (b : List UInt8) : ¬anyTag (c :: b) = true := by
  have hne : c.toNat ≠ 60 := fun h => hc (UInt8.toNat_inj.mp h)
  have hlt := c.toNat_lt
  simp only [anyTag, isTag, List.take_succ_cons, ofLE_cons, tagStart, tagEnd, Bool.or_eq_true,
    beq_iff_eq]
  omega

/-- Bytes at which no tag starts. -/
theorem marksFrom_plain {x : List UInt8} (hx : 60 ∉ x) (i m : ℕ) (y : List UInt8) :
    marksFrom anyTag i (x.length + m) (x ++ y) = marksFrom anyTag (i + x.length) m y :=
  marksFrom_append (fun _ hc b => not_anyTag (fun h => hx (h ▸ hc)) b) i m y

/-- One `<`, and bytes at which no tag starts. -/
theorem marksFrom_lt {o : List UInt8} (ho : 60 ∉ o) (i m : ℕ) (y : List UInt8) :
    marksFrom anyTag i (o.length + 1 + m) (60 :: (o ++ y)) =
      if anyTag (60 :: (o ++ y)) = true then i :: marksFrom anyTag (i + (o.length + 1)) m y
      else marksFrom anyTag (i + (o.length + 1)) m y := by
  rw [Nat.add_right_comm, marksFrom, List.tail_cons, marksFrom_plain ho, Nat.add_assoc,
    Nat.add_comm 1]

/-- The entries of `PosList` that the loop visits, with the entry behind each. -/
def everyOther : List ℕ → List (ℕ × Option ℕ)
  | [] => []
  | [start] => [(start, none)]
  | start :: stop :: ps => (start, some stop) :: everyOther ps

/-- `df`: the distance of two frequencies. -/
def ScanLib.df (lib : ScanLib) (fSys f : ℚ) : ℚ :=
  if fSys < f then lib.sub f fSys else lib.sub fSys f

/-- `Config_Use`: the entry with the closest frequency, `none` for `-1`. -/
def configUse (lib : ScanLib) (fSys : ℚ) (szBuff : List UInt8) (ps : List ℕ) :
    Option (ℕ × Option ℕ) :=
  closest (fun c => (lib.scanFloat (szBuff.drop (c.1 + 6))).map (lib.df fSys)) 10
    (everyOther ps)

/-- `p_Use`: the position behind the next end of line. -/
def pUse (szBuff : List UInt8) (start : ℕ) : Option ℕ :=
  ((szBuff.drop (start + 6)).findIdx? (· == 10)).map (start + 6 + · + 1)

/-- What a reader with `nConv` conversions finds in a file: where the section that it selects
starts, and the items. No result stands for an access outside of the buffers, or to an entry of
`PosList` that was not set. -/
def scanConfig (lib : ScanLib) (nConv : ℕ) (freq : ℚ) (file junk : List UInt8) :
    Option (ℕ × { items : List Word // items.length ≤ nConv }) :=
  let szBuff := file.take 8192 ++ junk
  let ps := posList (file.take 8192).length szBuff
  if ps.length ≤ 8 then
    match configUse lib (lib.gHz freq) szBuff ps with
    | some (start, some stop) =>
        (pUse szBuff start).bind fun p =>
          (scanWords nConv 64 (cstrOf ((szBuff.set (stop - 1) 0).drop p))).map fun items =>
            (start, items)
    | _ => none
  else none

/-- What is scanned when a section with an end has been selected. -/
theorem scanConfig_of_use {lib : ScanLib} {freq : ℚ} {file junk : List UInt8} {start stop : ℕ}
    (hlen : (posList (file.take 8192).length (file.take 8192 ++ junk)).length ≤ 8)
    (huse : configUse lib (lib.gHz freq) (file.take 8192 ++ junk)
      (posList (file.take 8192).length (file.take 8192 ++ junk)) = some (start, some stop))
    (nConv : ℕ) :
    scanConfig lib nConv freq file junk =
      (pUse (file.take 8192 ++ junk) start).bind fun p =>
        (scanWords nConv 64 (cstrOf (((file.take 8192 ++ junk).set (stop - 1) 0).drop p))).map
          fun items => (start, items) := by
  simp only [scanConfig, if_pos hlen, huse]

/-- A reader that comes to an end has selected a section with an end. -/
theorem use_of_scanConfig {lib : ScanLib} {nConv : ℕ} {freq : ℚ} {file junk : List UInt8}
    {r : ℕ × { items : List Word // items.length ≤ nConv }}
    (h : scanConfig lib nConv freq file junk = some r) :
    ∃ start stop, configUse lib (lib.gHz freq) (file.take 8192 ++ junk)
      (posList (file.take 8192).length (file.take 8192 ++ junk)) = some (start, some stop) := by
  simp only [scanConfig] at h
  split_ifs at h
  split at h
  · exact ⟨_, _, ‹_›⟩
  · exact absurd h nofun

/-! ### The three copies -/

/-- The records of the items, ten items for one. -/
def recordsOf (lib : ScanLib) : List Word → List FsRecord
  | _ :: tag :: _ :: tOpen :: _ :: fOpen :: _ :: tStat :: _ :: fStat :: items =>
      { tag := tag.val
        tThreshold := fun
          | .openFile => lib.atof tOpen.val
          | .lxstat => lib.atof tStat.val
        maxFreq := fun
          | .openFile => lib.atof fOpen.val
          | .lxstat => lib.atof fStat.val
        tag_ne_nil := tag.property } :: recordsOf lib items
  | _ => []

/-- There are `nParam / N_ITEM_PER_REC` records. -/
theorem length_recordsOf (lib : ScanLib) :
    ∀ items : List Word, (recordsOf lib items).length = items.length / 10
  | _ :: _ :: _ :: _ :: _ :: _ :: _ :: _ :: _ :: _ :: items => by
      have ih := length_recordsOf lib items
      simp only [recordsOf, List.length_cons, ih]
      omega
  | [] | [_] | [_, _] | [_, _, _] | [_, _, _, _] | [_, _, _, _, _] | [_, _, _, _, _, _]
  | [_, _, _, _, _, _, _] | [_, _, _, _, _, _, _, _] | [_, _, _, _, _, _, _, _, _] => by
      simp [recordsOf]

/-- `Read_Config` of the library: the section, and what `readConfig` puts into the variables of
a process. -/
def readConfigFile (lib : ScanLib) (freq : ℚ) (file junk : List UInt8) : Option (ℕ × Config) :=
  (scanConfig lib 80 freq file junk).map fun r =>
    (r.1,
     { freq := freq
       records := recordsOf lib r.2.val
       length_le := by
         have h := r.2.property
         rw [length_recordsOf]
         omega })

/-- The values of a record. -/
def FsRecord.param (r : FsRecord) : ServerParam := ⟨r.tThreshold, r.maxFreq⟩

/-- `Read_Default_Param` of `set_io_param`: the section, the number of servers and the arrays of
defaults. -/
def Tool.readDefaultParam (lib : ScanLib) (freq : ℚ) (file junk : List UInt8) :
    Option (ℕ × ℕ × (FsIdx → ServerParam)) :=
  (scanConfig lib 80 freq file junk).map fun r =>
    (r.1, r.2.val.length / 10, fun i =>
      (((recordsOf lib r.2.val)[i.val]?).map FsRecord.param).getD (Tool.start.param i))

/-- `Read_Default_Param` of `ooopsd`: the section and the number of servers. -/
def Ooopsd.readDefaultParam (lib : ScanLib) (freq : ℚ) (file junk : List UInt8) :
    Option (ℕ × ℕ) :=
  (scanConfig lib 40 freq file junk).map fun r => (r.1, r.2.val.length / 10)

end Ooops
