import Ooops.WorkingDir

/-!
# Paths and File Systems

A tag is meant to be a directory, and a path to be on its file system when it is the directory
or below it (`OnFileSystem`). `Check_FS_Server` compares bytes instead: a path is charged to the
first tag with whose stored part, at most 15 bytes, it starts (`StartsStored`), even where that
part ends inside of a component of the path.

## Main results

* `idxFsServer_of_absolute`: the creator of the parameter block and the processes that attach
  charge an absolute path to the same server.
* `path_attribution`: what a path is charged to, and exactly when it is on that file system.
* `relative_agrees`: a relative name is charged like the name of the directory, and exactly when
  that is what the absolute name is charged to.
-/

open Basis

namespace Ooops

/-- The path is the directory of the tag, or continues it with a slash. -/
def OnFileSystem (tag szName : CStr) : Prop := szName = tag ∨ tag ++ [47] <+: szName

instance (tag szName : CStr) : Decidable (OnFileSystem tag szName) :=
  inferInstanceAs (Decidable (_ ∨ _))

/-- The path starts with what is stored of the tag. -/
def StartsStored (tag szName : CStr) : Prop := tag.take (fsTagLenOf tag) <+: szName

instance (tag szName : CStr) : Decidable (StartsStored tag szName) :=
  inferInstanceAs (Decidable (_ <+: szName))

/-- A path on a file system starts with what is stored of its tag. -/
theorem OnFileSystem.startsStored {tag szName : CStr} (h : OnFileSystem tag szName) :
    StartsStored tag szName := by
  refine (List.take_prefix _ tag).trans ?_
  rcases h with rfl | h
  · exact List.prefix_rfl
  · exact (List.prefix_append tag [47]).trans h

/-- What `Check_FS_Server` tests of a tag. -/
theorem Proc.HasRecords.tested_iff {p : Proc} (h : p.HasRecords) {szName : CStr} {i : FsIdx} :
    (decide (i.val < p.nFsServer) &&
        ((p.szFSTag i).take (p.fsTagLen i)).isPrefixOf szName) = true ↔
      i.val < p.nFsServer ∧ StartsStored (p.szFSTag i) szName := by
  rw [Bool.and_eq_true, decide_eq_true_eq, List.isPrefixOf_iff_prefix]
  refine and_congr_right fun hi => ?_
  rw [h.len i hi, StartsStored]

/-- Without a first tag, the path starts with what is stored of no tag. -/
theorem Proc.HasRecords.firstTag_eq_none_iff {p : Proc} (h : p.HasRecords) {szName : CStr} :
    firstTag p szName = none ↔
      ∀ i : FsIdx, i.val < p.nFsServer → ¬StartsStored (p.szFSTag i) szName := by
  rw [firstTag_eq_tagOf h, tagOf, List.find?_eq_none]
  refine ⟨fun hno i hi hstart => ?_, fun hno i _ hfound => ?_⟩
  · exact hno i (List.mem_finRange i) (h.tested_iff.mpr ⟨hi, hstart⟩)
  · obtain ⟨hi, hstart⟩ := h.tested_iff.mp hfound
    exact hno i hi hstart

/-- The path starts with what is stored of the first tag, and of none before it. -/
theorem Proc.HasRecords.firstTag_spec {p : Proc} (h : p.HasRecords) {szName : CStr} {i : FsIdx}
    (hfirst : firstTag p szName = some i) : i.val < p.nFsServer ∧
      StartsStored (p.szFSTag i) szName ∧ ∀ j < i, ¬StartsStored (p.szFSTag j) szName := by
  rw [firstTag_eq_tagOf h, tagOf, List.find?_eq_some_iff_append] at hfirst
  obtain ⟨hfound, before, after, hsplit, hbefore⟩ := hfirst
  obtain ⟨hi, hstart⟩ := h.tested_iff.mp hfound
  refine ⟨hi, hstart, fun j hj hstart' => ?_⟩
  have hsorted := List.pairwise_lt_finRange 8
  rw [hsplit] at hsorted
  have hmem : j ∈ before := by
    have hj' := List.mem_finRange j
    rw [hsplit] at hj'
    rcases List.mem_append.mp hj' with hj' | hj'
    · exact hj'
    · rcases List.mem_cons.mp hj' with rfl | hj'
      · exact absurd hj (lt_irrefl j)
      · have hlater := List.rel_of_pairwise_cons (List.pairwise_append.mp hsorted).2.1 hj'
        exact absurd hj hlater.asymm
  have htested := h.tested_iff.mpr ⟨lt_trans hj hi, hstart'⟩
  have hnot := hbefore j hmem
  rw [htested] at hnot
  cases hnot

theorem Proc.HasRecords.firstTag_eq_some_iff {p : Proc} (h : p.HasRecords) {szName : CStr}
    {i : FsIdx} : firstTag p szName = some i ↔ i.val < p.nFsServer ∧
      StartsStored (p.szFSTag i) szName ∧ ∀ j < i, ¬StartsStored (p.szFSTag j) szName := by
  refine ⟨h.firstTag_spec, fun ⟨hi, hstart, hno⟩ => ?_⟩
  cases hfirst : firstTag p szName with
  | none => exact absurd hstart (h.firstTag_eq_none_iff.mp hfirst i hi)
  | some k =>
      obtain ⟨-, hk, hnone⟩ := h.firstTag_spec hfirst
      rcases lt_trichotomy k i with hlt | rfl | hlt
      · exact absurd hk (hno k hlt)
      · rfl
      · exact absurd hstart (hnone i hlt)

/-- An absolute path is charged to its first tag. -/
theorem idxFsServer_of_absolute (p : Proc) {szName : CStr} (h : szName.head? = some 47) :
    (checkFSServer p szName).idxFsServer = firstTag p szName := by
  rw [checkFSServer]
  cases firstTag p szName with
  | some i => rfl
  | none => exact congrArg Proc.idxFsServer (if_neg (not_not.mpr h))

/-- **What a path is charged to**, in the process that has published the tags and in one that
has attached: the first tag with whose stored part it starts. A path that is charged to none is
on no file system. It is on the file system it is charged to exactly when every tag with whose
stored part it starts without being on that file system comes behind another one with whose
stored part it starts. -/
theorem path_attribution {p : Proc} (h : p.HasRecords) (q : Proc) (rdtscp : ℕ) {szName : CStr}
    (habs : szName.head? = some 47) {r : Proc}
    (hr : r = (publishParameters p ParamBlock.zero rdtscp).1 ∨
      r = updateParameters q (publishParameters p ParamBlock.zero rdtscp).2) :
    (∀ i, (checkFSServer r szName).idxFsServer = some i ↔ i.val < p.nFsServer ∧
      StartsStored (p.szFSTag i) szName ∧ ∀ j < i, ¬StartsStored (p.szFSTag j) szName) ∧
    ((checkFSServer r szName).idxFsServer = none →
      ∀ i : FsIdx, i.val < p.nFsServer → ¬OnFileSystem (p.szFSTag i) szName) ∧
    ((∀ i, (checkFSServer r szName).idxFsServer = some i →
        OnFileSystem (p.szFSTag i) szName) ↔
      ∀ i : FsIdx, i.val < p.nFsServer → StartsStored (p.szFSTag i) szName →
        ¬OnFileSystem (p.szFSTag i) szName → ∃ j < i, StartsStored (p.szFSTag j) szName) := by
  have hidx : (checkFSServer r szName).idxFsServer = firstTag p szName := by
    rw [idxFsServer_of_absolute r habs]
    rcases hr with rfl | rfl
    · rfl
    · exact (h.firstTag_attached q rdtscp).2 szName
  simp only [hidx, h.firstTag_eq_some_iff, h.firstTag_eq_none_iff]
  refine ⟨fun i => trivial, fun hno i hi hon => hno i hi hon.startsStored, ?_⟩
  constructor
  · intro hall i hi hstart hoff
    by_contra hno
    push Not at hno
    exact hoff (hall i ⟨hi, hstart, hno⟩)
  · rintro hbehind i ⟨hi, hstart, hfirst⟩
    by_contra hoff
    obtain ⟨j, hj, hj'⟩ := hbehind i hi hstart hoff
    exact hfirst j hj hj'

/-- `/work/a` is charged to `/work`, and is on that file system. -/
theorem path_attribution_work :
    (checkFSServer (updateParameters Proc.start (publishParameters
        (readConfig Proc.start twoServers) ParamBlock.zero 1).2)
      (bytesOf "/work/a")).idxFsServer = some 1 ∧
      OnFileSystem ((readConfig Proc.start twoServers).szFSTag 1) (bytesOf "/work/a") := by
  obtain ⟨hfirst, -, hon⟩ := @path_attribution _ (hasRecords_readConfig Proc.start twoServers)
    Proc.start 1 (bytesOf "/work/a") rfl _ (.inr rfl)
  have hwork := (hfirst 1).mpr (by decide +kernel)
  exact ⟨hwork, hon.mpr (by decide +kernel) 1 hwork⟩

/-- `/workspace/a` is charged to `/work`, and `/scratch/projectsB` to `/scratch/projectsA`. -/
theorem neighbours_charged :
    (checkFSServer (publishParameters (readConfig Proc.start twoServers) ParamBlock.zero 1).1
        (bytesOf "/workspace/a")).idxFsServer = some 1 ∧
      ¬OnFileSystem ((readConfig Proc.start twoServers).szFSTag 1) (bytesOf "/workspace/a") ∧
      (checkFSServer (publishParameters (readConfig Proc.start twoServers) ParamBlock.zero 1).1
        (bytesOf "/scratch/projectsB")).idxFsServer = some 0 ∧
      ¬OnFileSystem ((readConfig Proc.start twoServers).szFSTag 0)
        (bytesOf "/scratch/projectsB") := by
  decide +kernel

/-! ### Relative names -/

/-- The absolute name of a relative one in a directory. -/
def joinPath (dir szName : CStr) : CStr :=
  if dir = [47] then dir ++ szName else dir ++ 47 :: szName

theorem prefix_joinPath (dir szName : CStr) : dir <+: joinPath dir szName := by
  rw [joinPath]
  split
  · exact List.prefix_append _ _
  · exact List.prefix_append _ _

/-- What a directory starts with, the names in it start with. -/
theorem StartsStored.join {tag dir : CStr} (h : StartsStored tag dir) (szName : CStr) :
    StartsStored tag (joinPath dir szName) :=
  List.IsPrefix.trans h (prefix_joinPath dir szName)

/-- The directory and a name in it have the same first tag exactly when a tag that only the name
starts with comes behind one that the directory starts with. -/
theorem Proc.HasRecords.firstTag_join_iff {p : Proc} (h : p.HasRecords) (dir szName : CStr) :
    firstTag p dir = firstTag p (joinPath dir szName) ↔
      ∀ i : FsIdx, i.val < p.nFsServer → StartsStored (p.szFSTag i) (joinPath dir szName) →
        ¬StartsStored (p.szFSTag i) dir → ∃ j < i, StartsStored (p.szFSTag j) dir := by
  constructor
  · intro heq i hi hjoin hdir
    cases hfirst : firstTag p dir with
    | none =>
        have hnone := h.firstTag_eq_none_iff.mp (heq.symm.trans hfirst)
        exact absurd hjoin (hnone i hi)
    | some k =>
        obtain ⟨-, hk, -⟩ := h.firstTag_spec hfirst
        obtain ⟨-, -, hbefore⟩ := h.firstTag_spec (heq.symm.trans hfirst)
        rcases lt_trichotomy k i with hlt | rfl | hlt
        · exact ⟨k, hlt, hk⟩
        · exact absurd hk hdir
        · exact absurd hjoin (hbefore i hlt)
  · intro hall
    cases hfirst : firstTag p dir with
    | none =>
        have hnone := h.firstTag_eq_none_iff.mp hfirst
        refine (h.firstTag_eq_none_iff.mpr fun i hi hjoin => ?_).symm
        obtain ⟨j, hj, hdir⟩ := hall i hi hjoin (hnone i hi)
        exact hnone j (lt_trans hj hi) hdir
    | some k =>
        obtain ⟨hlt, hk, hbefore⟩ := h.firstTag_spec hfirst
        refine (h.firstTag_eq_some_iff.mpr ⟨hlt, hk.join szName, fun j hj hjoin => ?_⟩).symm
        obtain ⟨j', hj', hdir⟩ := hall j (lt_trans hj hlt) hjoin (hbefore j hj)
        exact hbefore j' (hj'.trans hj) hdir

/-- **Relative names.** When `Update_CWD` has just recorded the directory, a relative name is
charged to the same server as the name of the directory. It is the server that the absolute name
is charged to exactly when every tag with whose stored part the absolute name starts, but the
directory does not, comes behind one with whose stored part the directory starts. -/
theorem relative_agrees {p : Proc} (h : p.HasRecords)
    (habs : ∀ i : FsIdx, i.val < p.nFsServer → (p.szFSTag i).head? = some 47) (cwd : Dir)
    {szName : CStr} (hrel : szName.head? ≠ some 47) :
    (checkFSServer (updateCWD p cwd.path) szName).idxFsServer =
        (checkFSServer (updateCWD p cwd.path) cwd.path).idxFsServer ∧
      ((checkFSServer (updateCWD p cwd.path) szName).idxFsServer =
          (checkFSServer (updateCWD p cwd.path) (joinPath cwd.path szName)).idxFsServer ↔
        ∀ i : FsIdx, i.val < p.nFsServer →
          StartsStored (p.szFSTag i) (joinPath cwd.path szName) →
          ¬StartsStored (p.szFSTag i) cwd.path → ∃ j < i, StartsStored (p.szFSTag j) cwd.path) := by
  have hcwd : (updateCWD p cwd.path).HasRecords := ⟨h.le, h.tag_ne_nil, h.len⟩
  have hidx : (checkFSServer (updateCWD p cwd.path) szName).idxFsServer = firstTag p cwd.path := by
    rw [idxFsServer_checkFSServer hcwd hrel, tagOf_relative hcwd habs hrel, Option.none_or]
    rfl
  have hjoin : (joinPath cwd.path szName).head? = some 47 := by
    obtain ⟨rest, hrest⟩ := prefix_joinPath cwd.path szName
    rw [← hrest, List.head?_append, cwd.abs]
    rfl
  rw [hidx, idxFsServer_of_absolute _ cwd.abs, idxFsServer_of_absolute _ hjoin]
  exact ⟨rfl, h.firstTag_join_iff cwd.path szName⟩

/-- In `/work` the name `a` is charged like `/work/a`. -/
theorem relative_agrees_work :
    (checkFSServer (updateCWD (readConfig Proc.start twoServers) (bytesOf "/work"))
        (bytesOf "a")).idxFsServer =
      (checkFSServer (updateCWD (readConfig Proc.start twoServers) (bytesOf "/work"))
        (bytesOf "/work/a")).idxFsServer :=
  (relative_agrees (hasRecords_readConfig Proc.start twoServers) (by decide +kernel)
    ⟨bytesOf "/work", by decide⟩ (by decide)).2.mpr (by decide +kernel)

/-- In `/` the name `work/a` is charged to none, and `/work/a` to the second server. -/
theorem above_mount_differs :
    (checkFSServer (updateCWD (readConfig Proc.start twoServers) (bytesOf "/"))
        (bytesOf "work/a")).idxFsServer = none ∧
      (checkFSServer (updateCWD (readConfig Proc.start twoServers) (bytesOf "/"))
        (joinPath (bytesOf "/") (bytesOf "work/a"))).idxFsServer = some 1 := by
  decide +kernel

end Ooops
