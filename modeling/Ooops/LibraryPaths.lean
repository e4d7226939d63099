import Ooops.Basis.KnownText
import Ooops.HookTable

/-!
# Finding the Libraries

`determine_lib_path` reads the beginning of `/proc/<pid>/maps` and looks for the path of the
loader, an `ld-2.*.so`. The other two libraries are taken to be in its directory and of its
version. The buffer is searched as a string, though nothing terminates it, and both ends of the
path are looked for near the match.

The file can be opened, and `fread` returns what there is of it and fits in. Where the code goes
on with what it has not read or not found, there is a fault instead of a result. The second test
of `pEnd` stands where one of `pStart` is meant and never applies.

* `determineLibPath_iff`: on which texts the paths are found, or it is noticed that they are not.
-/

open Basis

namespace Ooops

/-! ### The search -/

/-- What should not happen: a byte is used that was not read, or the copying begins at an address
that was not determined. -/
inductive LibPathFault
  | unreadByte
  | undeterminedStart
  deriving DecidableEq

/-- How the search ends: `found_libc` is `0`, the process exits with a message, or the paths are
set. -/
inductive LibPathResult
  | notFoundLibc
  | quit (message : CStr)
  | found (paths : LibPaths)

section Search

variable (readBuffMap : List UInt8) (pPos : ℕ)

/-- The loop that looks for `.so` from `pPos` on. -/
def endOfPath : Option (Option ℕ) :=
  firstTrueFrom (fun i => startsWith (bytesOf ".so") (readBuffMap.drop (pPos + i))) 0 10

/-- The loop that looks for the blanks in front of the path, from `pPos` back. -/
def startOfPath : Option (Option ℕ) :=
  firstTrueFrom
    (fun i =>
      if pPos < i then none else startsWith (bytesOf "  /") (readBuffMap.drop (pPos - i)))
    0 100

/-- The string that is copied from `pFrom` up to `pTo`. -/
def copied (pFrom pTo : ℕ) : CStr := cstrOf ((readBuffMap.take pTo).drop pFrom)

/-- The three paths. -/
def copyPaths (pStart pEnd : ℕ) : LibPaths :=
  let libVerStr := copied readBuffMap (pPos + 4) (pEnd - 3)
  let libDirStr := copied readBuffMap pStart pPos
  { pathLd := copied readBuffMap pStart pEnd
    pathLibc := libDirStr ++ bytesOf "/libc-" ++ libVerStr ++ bytesOf ".so"
    pathLibpthread := libDirStr ++ bytesOf "/libpthread-" ++ libVerStr ++ bytesOf ".so" }

end Search

/-- `determine_lib_path` on the contents of the file. -/
def determineLibPath (text : List UInt8) : Except LibPathFault LibPathResult :=
  let readBuffMap := text.take 8191
  match strstrAt (bytesOf "/ld-2.") readBuffMap with
  | none => .error .unreadByte
  | some none => .ok .notFoundLibc
  | some (some pPos) =>
      match endOfPath readBuffMap pPos with
      | none => .error .unreadByte
      | some none =>
          .ok (.quit (bytesOf "Fail to determine the ending position of libc path.\nQuit\n"))
      | some (some iEnd) =>
          match startOfPath readBuffMap pPos with
          | none => .error .unreadByte
          | some none => .error .undeterminedStart
          | some (some iStart) =>
              .ok (.found (copyPaths readBuffMap pPos (pPos - iStart + 2) (pPos + iEnd + 3)))

section Found

variable {readBuffMap : List UInt8} {pPos iEnd iStart : ℕ}

/-- The end is found where the first `.so` begins within ten bytes. -/
theorem endOfPath_found_iff :
    endOfPath readBuffMap pPos = some (some iEnd) ↔
      iEnd < 10 ∧ FirstAt (bytesOf ".so") (readBuffMap.drop pPos) iEnd := by
  rw [endOfPath, firstTrueFrom_eq_found_iff, startsWith_eq_true_iff, FirstAt, List.drop_drop]
  constructor
  · rintro ⟨-, hlt, hpre, hno⟩
    refine ⟨by omega, hpre, fun j hj => ?_⟩
    rw [List.drop_drop]
    exact (startsWith_eq_false_iff.mp (hno j (Nat.zero_le j) hj)).1
  · rintro ⟨hlt, hpre, hno⟩
    refine ⟨Nat.zero_le _, by omega, hpre, fun j _ hj => ?_⟩
    have hj' := hno j hj
    rw [List.drop_drop] at hj'
    -- the text goes on behind `j`, as there are three bytes from `iEnd` on
    refine startsWith_eq_false_iff.mpr ⟨hj', fun hshort => ?_⟩
    have hlen := hshort.length_le
    have hlen' := hpre.length_le
    have hso : (bytesOf ".so").length = 3 := rfl
    rw [List.length_drop] at hlen hlen'
    omega

theorem endOfPath_absent_iff :
    endOfPath readBuffMap pPos = some none ↔
      ∀ j < 10, ¬bytesOf ".so" <+: readBuffMap.drop (pPos + j) ∧
        ¬readBuffMap.drop (pPos + j) <+: bytesOf ".so" := by
  rw [endOfPath, firstTrueFrom_eq_absent_iff]
  simp only [startsWith_eq_false_iff]
  exact ⟨fun h j hj => h j (Nat.zero_le j) (by omega), fun h j _ hj => h j (by omega)⟩

/-- The blanks that are found are in the text. -/
theorem startOfPath_found (h : startOfPath readBuffMap pPos = some (some iStart)) :
    iStart < 100 ∧ iStart ≤ pPos ∧ bytesOf "  /" <+: readBuffMap.drop (pPos - iStart) := by
  obtain ⟨-, hlt, htest, -⟩ := firstTrueFrom_eq_found_iff.mp h
  by_cases hbefore : pPos < iStart
  · rw [if_pos hbefore] at htest
    exact absurd htest nofun
  · rw [if_neg hbefore] at htest
    exact ⟨by omega, by omega, startsWith_eq_true_iff.mp htest⟩

theorem length_copied_le (pFrom pTo : ℕ) :
    (copied readBuffMap pFrom pTo).length ≤ pTo - pFrom := by
  have hstr := (List.takeWhile_prefix (· ≠ 0) (l := (readBuffMap.take pTo).drop pFrom)).length_le
  rw [List.length_drop, List.length_take] at hstr
  exact hstr.trans (by omega)

/-- A part of the text without a NUL is copied as it is. -/
theorem copied_append {y : List UInt8} (h0 : 0 ∉ y) (x z : List UInt8) :
    copied (x ++ y ++ z) x.length (x ++ y).length = y := by
  rw [copied, List.take_left, List.drop_left, cstrOf_eq_self h0]

/-- The strings fit their buffers, of which the smallest has 32 bytes. -/
theorem copied_fits (hend : endOfPath readBuffMap pPos = some (some iEnd))
    (hstart : startOfPath readBuffMap pPos = some (some iStart)) :
    (copied readBuffMap (pPos + 4) (pPos + iEnd)).length < 32 ∧
      (copied readBuffMap (pPos - iStart + 2) pPos).length < 256 ∧
      (copied readBuffMap (pPos - iStart + 2) (pPos + iEnd + 3)).length < 512 := by
  have hi := (endOfPath_found_iff.mp hend).1
  obtain ⟨hj, -, -⟩ := startOfPath_found hstart
  refine ⟨(length_copied_le _ _).trans_lt ?_, (length_copied_le _ _).trans_lt ?_,
    (length_copied_le _ _).trans_lt ?_⟩ <;> omega

end Found

/-! ### What is looked for -/

/-- The libraries of a version in a directory. -/
def LibPaths.of (dir ver : CStr) : LibPaths where
  pathLd := dir ++ bytesOf "/ld-" ++ ver ++ bytesOf ".so"
  pathLibc := dir ++ bytesOf "/libc-" ++ ver ++ bytesOf ".so"
  pathLibpthread := dir ++ bytesOf "/libpthread-" ++ ver ++ bytesOf ".so"

/-- The loader with the first `/ld-2.` in a text has a complete blank-free path, which comes
after `a`. -/
structure LoaderIn (t a dir ver : List UInt8) : Prop where
  text : a ++ (LibPaths.of dir ver).pathLd <+: t
  first : FirstAt (bytesOf "/ld-2.") t (a ++ dir).length
  ends : FirstAt (bytesOf ".so") (t.drop (a ++ dir).length) (4 + ver.length)
  blankFree : ∀ c ∈ (LibPaths.of dir ver).pathLd, isSpace c = false ∧ c ≠ 0
  absolute : (LibPaths.of dir ver).pathLd.head? = some 47
  complete : ∀ c ∈ a.getLast?, isSpace c = true

/-- The search ends in one of the ways that are meant. -/
def Discovers (text : List UInt8) : Prop :=
  match determineLibPath text with
  | .error _ => False
  | .ok .notFoundLibc => True
  | .ok (.quit _) => True
  | .ok (.found paths) =>
      ∃ a dir ver, LoaderIn (text.take 8191) a dir ver ∧ paths = .of dir ver

/-- The texts that the search is made for: one that ends without a loader; one where the ten bytes
from the first `/ld-2.` on are there and no `.so` begins at them; and one with the path of the
loader, after two blanks, in a directory and of a version that are not too long. -/
inductive Searchable (t : List UInt8) : Prop
  | noLoader (hend : 0 ∈ t) (hno : ¬bytesOf "/ld-2." <:+: cstrOf t)
  | noEnd (i : ℕ) (hfirst : FirstAt (bytesOf "/ld-2.") t i) (hzero : 0 ∉ t.take i)
      (hno : ∀ j < 10, ¬bytesOf ".so" <+: t.drop (i + j) ∧ ¬t.drop (i + j) <+: bytesOf ".so")
  | loader (a dir ver : List UInt8) (hloader : LoaderIn t (a ++ bytesOf "  ") dir ver)
      (hzero : 0 ∉ a) (hdir : dir.length ≤ 97) (hver : ver.length ≤ 5)

namespace LoaderIn

variable {t a dir ver : List UInt8}

theorem zero_not_mem_path (h : LoaderIn t a dir ver) : 0 ∉ (LibPaths.of dir ver).pathLd :=
  fun hmem => (h.blankFree 0 hmem).2 rfl

theorem length_path : (LibPaths.of dir ver).pathLd.length = dir.length + 4 + ver.length + 3 := by
  simp only [LibPaths.of, List.length_append]
  rfl

/-- The parts of the text. -/
theorem eq_append (h : LoaderIn t a dir ver) :
    ∃ rest, t = a ++ dir ++ bytesOf "/ld-" ++ ver ++ bytesOf ".so" ++ rest := by
  obtain ⟨rest, rfl⟩ := h.text
  exact ⟨rest, by simp only [LibPaths.of, List.append_assoc]⟩

theorem take_first (h : LoaderIn t a dir ver) : t.take (a ++ dir).length = a ++ dir := by
  obtain ⟨rest, rfl⟩ := h.eq_append
  simp only [List.append_assoc _ _ rest, List.append_assoc (a ++ dir)]
  exact List.take_left

/-- No byte of the path is a blank. -/
theorem not_space (h : LoaderIn t a dir ver) {i : ℕ} {c : UInt8} (hc : t[i]? = some c)
    (hle : a.length ≤ i) (hlt : i < a.length + (LibPaths.of dir ver).pathLd.length) :
    isSpace c = false := by
  obtain ⟨rest, rfl⟩ := h.text
  rw [List.getElem?_append_left (by rwa [List.length_append]),
    List.getElem?_append_right hle] at hc
  exact (h.blankFree c (List.mem_of_getElem? hc)).1

/-- What is copied once both ends are found. -/
theorem copyPaths_eq (h : LoaderIn t a dir ver) :
    copyPaths t (a ++ dir).length a.length ((a ++ dir).length + (4 + ver.length) + 3) =
      .of dir ver := by
  obtain ⟨rest, hrest⟩ := h.eq_append
  have h0 := h.zero_not_mem_path
  have hld : copied t a.length ((a ++ dir).length + (4 + ver.length) + 3) =
      (LibPaths.of dir ver).pathLd := by
    have hcopy := copied_append h0 a rest
    have hlen : (a ++ (LibPaths.of dir ver).pathLd).length =
        (a ++ dir).length + (4 + ver.length) + 3 := by
      rw [List.length_append, List.length_append, length_path]
      omega
    rwa [hlen, LibPaths.of, ← List.append_assoc, ← List.append_assoc, ← List.append_assoc,
      ← hrest] at hcopy
  simp only [LibPaths.of, List.mem_append, not_or] at h0
  have hdir : copied t a.length (a ++ dir).length = dir := by
    have hcopy := copied_append h0.1.1.1 a (bytesOf "/ld-" ++ (ver ++ (bytesOf ".so" ++ rest)))
    rwa [← List.append_assoc, ← List.append_assoc, ← List.append_assoc, ← hrest] at hcopy
  have hver : copied t ((a ++ dir).length + 4) ((a ++ dir).length + (4 + ver.length)) = ver := by
    have hcopy := copied_append h0.1.2 (a ++ dir ++ bytesOf "/ld-") (bytesOf ".so" ++ rest)
    have hlen : (a ++ dir ++ bytesOf "/ld-").length = (a ++ dir).length + 4 := List.length_append
    have hlen' : (a ++ dir ++ bytesOf "/ld-" ++ ver).length =
        (a ++ dir).length + (4 + ver.length) := by
      rw [List.length_append, hlen, Nat.add_assoc]
    rwa [← List.append_assoc, ← hrest, hlen', hlen] at hcopy
  simp only [copyPaths, hld, hdir, Nat.add_sub_cancel, hver, LibPaths.of]

/-- The loop that goes back stops at two blanks in front of the path. -/
theorem startOfPath_eq (h : LoaderIn t (a ++ bytesOf "  ") dir ver) (hdir : dir.length ≤ 97) :
    startOfPath t (a ++ bytesOf "  " ++ dir).length = some (some (dir.length + 2)) := by
  have hpos : (a ++ bytesOf "  " ++ dir).length = a.length + 2 + dir.length := by
    rw [List.length_append, List.length_append]
    rfl
  have hlen := h.text.length_le
  rw [List.length_append, length_path, List.length_append] at hlen
  have htwo : (bytesOf "  ").length = 2 := rfl
  rw [startOfPath, firstTrueFrom_eq_found_iff, hpos]
  refine ⟨Nat.zero_le _, by omega, ?_, fun j _ hj => ?_⟩
  · have hslash : ∃ tail, dir ++ bytesOf "/ld-" = 47 :: tail := by
      have habs := h.absolute
      cases dir with
      | nil => exact ⟨_, rfl⟩
      | cons c dir => exact ⟨_, congrArg (· :: _) (Option.some.inj habs)⟩
    obtain ⟨tail, htail⟩ := hslash
    obtain ⟨rest, rfl⟩ := h.eq_append
    rw [if_neg (by omega), startsWith_eq_true_iff, Nat.add_right_comm, Nat.add_assoc,
      Nat.add_sub_cancel]
    simp only [List.append_assoc, List.drop_left]
    rw [← List.append_assoc dir, htail]
    exact ⟨_, rfl⟩
  · -- a byte behind such a blank would be a blank of the path
    rw [if_neg (by omega), startsWith_eq_false_iff]
    refine ⟨fun ⟨tail, htail⟩ => ?_, fun hshort => ?_⟩
    · have hblank : t[a.length + 2 + dir.length - j + 1]? = some 32 := by
        rw [← List.getElem?_drop, ← htail]
        rfl
      have hno := h.not_space hblank (by rw [List.length_append]; omega)
        (by rw [List.length_append, length_path]; omega)
      exact absurd hno (by decide)
    · have hle := hshort.length_le
      have hthree : (bytesOf "  /").length = 3 := rfl
      rw [List.length_drop] at hle
      omega

/-- What the copies of a path tell about the blanks that were found. -/
theorem blanks (h : LoaderIn t a dir ver) {iStart : ℕ} (hzero : 0 ∉ t.take (a ++ dir).length)
    (hstart : startOfPath t (a ++ dir).length = some (some iStart))
    (heq : copied t ((a ++ dir).length - iStart + 2) ((a ++ dir).length + (4 + ver.length) + 3) =
      (LibPaths.of dir ver).pathLd) :
    ∃ a', a = a' ++ bytesOf "  " ∧ dir.length ≤ 97 := by
  obtain ⟨hlt, hle, hblanks⟩ := startOfPath_found hstart
  obtain ⟨rest, hrest⟩ := h.text
  have hclean : 0 ∉ a ++ (LibPaths.of dir ver).pathLd := by
    rw [h.take_first] at hzero
    exact fun hmem => (List.mem_append.mp hmem).elim
      (fun hmem => hzero (List.mem_append_left _ hmem)) h.zero_not_mem_path
  have hend : (a ++ dir).length + (4 + ver.length) + 3 =
      (a ++ (LibPaths.of dir ver).pathLd).length := by
    rw [List.length_append, List.length_append, length_path]
    omega
  have hlen := congrArg List.length heq
  rw [hend, copied, ← hrest, List.take_left, cstrOf_eq_self fun hmem =>
    hclean (List.mem_of_mem_drop hmem), List.length_drop, List.length_append, List.length_append,
    length_path] at hlen
  rw [List.length_append] at hle hblanks
  have hi : iStart = dir.length + 2 := by omega
  have hfrom : a.length + dir.length - iStart = a.length - 2 := by omega
  rw [hfrom] at hblanks
  have hlast : a.drop (a.length - 2) <+: t.drop (a.length - 2) := by
    rw [← hrest, List.append_assoc, List.drop_append_of_le_length (Nat.sub_le _ _)]
    exact List.prefix_append _ _
  have htwo : bytesOf "  " <+: t.drop (a.length - 2) :=
    (by decide : bytesOf "  " <+: bytesOf "  /").trans hblanks
  have hlen2 : (bytesOf "  ").length = (a.drop (a.length - 2)).length := by
    rw [List.length_drop, Nat.sub_sub_self (by omega)]
    rfl
  refine ⟨a.take (a.length - 2), ?_, by omega⟩
  rw [(List.prefix_of_prefix_length_le htwo hlast hlen2.le).eq_of_length hlen2,
    List.take_append_drop]

/-- The three searches in a text with the path of the loader. -/
theorem searches (h : LoaderIn t (a ++ bytesOf "  ") dir ver) (hzero : 0 ∉ a)
    (hdir : dir.length ≤ 97) (hver : ver.length ≤ 5) :
    strstrAt (bytesOf "/ld-2.") t = some (some (a ++ bytesOf "  " ++ dir).length) ∧
      endOfPath t (a ++ bytesOf "  " ++ dir).length = some (some (4 + ver.length)) ∧
      startOfPath t (a ++ bytesOf "  " ++ dir).length = some (some (dir.length + 2)) := by
  refine ⟨strstrAt_of_firstAt h.first ?_ (by decide), endOfPath_found_iff.mpr ⟨by omega, h.ends⟩,
    h.startOfPath_eq hdir⟩
  have h0 := h.zero_not_mem_path
  simp only [LibPaths.of, List.mem_append, not_or] at h0
  rw [h.take_first]
  simp only [List.mem_append, not_or]
  exact ⟨⟨hzero, by decide⟩, h0.1.1.1⟩

/-- The text is one that the search is made for if it finds the right paths. -/
theorem searchable (h : LoaderIn t a dir ver) {pPos iEnd iStart : ℕ}
    (hfirst : FirstAt (bytesOf "/ld-2.") t pPos) (hzero : 0 ∉ t.take pPos)
    (hend : endOfPath t pPos = some (some iEnd))
    (hstart : startOfPath t pPos = some (some iStart))
    (heq : copyPaths t pPos (pPos - iStart + 2) (pPos + iEnd + 3) = .of dir ver) :
    Searchable t := by
  obtain rfl := hfirst.unique h.first
  obtain ⟨hi, hso⟩ := endOfPath_found_iff.mp hend
  obtain rfl := hso.unique h.ends
  obtain ⟨a, rfl, hdir⟩ := h.blanks hzero hstart (congrArg LibPaths.pathLd heq)
  rw [h.take_first] at hzero
  simp only [List.mem_append, not_or] at hzero
  exact .loader a dir ver h hzero.1.1 hdir (by omega)

end LoaderIn

/-- A search that ends as it is meant to, read backwards: one case for each way out of the three
searches. -/
theorem searchable_of_discovers {text : List UInt8} (h : Discovers text) :
    Searchable (text.take 8191) := by
  rw [Discovers, determineLibPath] at h
  rcases hpos : strstrAt (bytesOf "/ld-2.") (text.take 8191) with _ | _ | pPos
  · simp [hpos] at h
  · obtain ⟨hend, hno⟩ := (strstrAt_eq_absent_iff (by decide) (by decide)).mp hpos
    exact .noLoader hend hno
  obtain ⟨-, hzero, hfirst⟩ := strstrAt_eq_found_iff.mp hpos
  rcases hend : endOfPath (text.take 8191) pPos with _ | _ | iEnd
  · simp [hpos, hend] at h
  · exact .noEnd pPos hfirst hzero (endOfPath_absent_iff.mp hend)
  rcases hstart : startOfPath (text.take 8191) pPos with _ | _ | iStart
  · simp [hpos, hend, hstart] at h
  · simp [hpos, hend, hstart] at h
  simp only [hpos, hend, hstart] at h
  obtain ⟨a, dir, ver, hloader, heq⟩ := h
  exact hloader.searchable hfirst hzero hend hstart heq

theorem discovers_of_searchable {text : List UInt8} (h : Searchable (text.take 8191)) :
    Discovers text := by
  rw [Discovers, determineLibPath]
  cases h with
  | noLoader hend hno =>
      have hpos := (strstrAt_eq_absent_iff (by decide) (by decide)).mpr ⟨hend, hno⟩
      simp only [hpos]
  | noEnd i hfirst hzero hno =>
      have hpos := strstrAt_of_firstAt hfirst hzero (by decide)
      have hend := endOfPath_absent_iff.mpr hno
      simp only [hpos, hend]
  | loader a dir ver hloader hzero hdir hver =>
      obtain ⟨hpos, hend, hstart⟩ := hloader.searches hzero hdir hver
      have hfrom : (a ++ bytesOf "  " ++ dir).length - (dir.length + 2) + 2 =
          (a ++ bytesOf "  ").length := by
        have htwo : (bytesOf "  ").length = 2 := rfl
        rw [List.length_append, List.length_append]
        omega
      simp only [hpos, hend, hstart, hfrom, hloader.copyPaths_eq]
      exact ⟨_, dir, ver, hloader, rfl⟩

/-- **The search for the libraries** ends as it is meant to exactly on the texts it is made for:
no byte is used that was not read, nothing is copied from an undetermined start, and the paths
are those of the loader and of the libraries next to it. -/
theorem determineLibPath_iff (text : List UInt8) :
    Discovers text ↔ Searchable (text.take 8191) :=
  ⟨searchable_of_discovers, discovers_of_searchable⟩

/-- A line of a map as it usually is. -/
example : ∃ paths, determineLibPath (bytesOf "7f00-7f01 r-xp    /lib64/ld-2.17.so\n") =
      .ok (.found paths) ∧ paths.pathLibc = bytesOf "/lib64/libc-2.17.so" :=
  ⟨_, rfl, by decide⟩

/-- A text without a loader of such a name. -/
theorem determineLibPath_newer :
    ¬Discovers (bytesOf "7f00-7f01 r-xp 0 08:01 9    /lib64/ld-linux.so.2\n") := by
  have hnone : strstrAt (bytesOf "/ld-2.")
      ((bytesOf "7f00-7f01 r-xp 0 08:01 9    /lib64/ld-linux.so.2\n").take 8191) = none := by
    decide
  intro h
  rw [Discovers, determineLibPath] at h
  simp only [hnone] at h

end Ooops
