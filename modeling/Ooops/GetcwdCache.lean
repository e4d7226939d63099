import Ooops.WorkingDir

/-!
# The Cached Directory

The hooked `getcwd` answers from `szUpdatedDir`, the path that the last `chdir` has put there,
and has a contract of its own for the size and the buffer. A caller with one thread should see
no difference from the C library: the same string or the same failure, and no byte outside of
its buffer.

What differs is a buffer of size `0`, of which the hooked function writes the whole path, the
memory that it allocates, and the directories with paths of `MAX_PATH` bytes and more, in which
`Update_CWD` ends the process.

* `hookedGetcwd` is the function with its `errno` and its writes, `hookedGetcwd_eq_myGetcwd`
  relates it to `myGetcwd`.
* `Caller.Recorded` is the invariant of a process with one thread.
* `getcwd_transparent_iff`: when all calls of a run are answered like the C library does.
-/

open Basis

namespace Ooops

/-- The values of `errno` that `getcwd` and `nanosleep` set. -/
inductive Errno
  | eINTR
  | eINVAL
  | eRANGE
  | eNOMEM
  deriving DecidableEq

/-- What a call of `getcwd` does: the string it returns, or the `errno` it fails with, and the
bytes that it writes into the buffer of the caller. -/
structure GetcwdResult where
  ret : Except Errno CStr
  written : List UInt8

/-- What the C library allocates for a path: as much as it is told, or as is necessary. -/
def libcMallocSize (dir : CStr) (size : ℕ) : ℕ := if size = 0 then dir.length + 1 else size

/-- `getcwd(buf, size)` of the C library, where `malloc` says which allocations succeed. -/
def libcGetcwd (malloc : ℕ → Bool) (dir : CStr) (bufNull : Bool) (size : ℕ) : GetcwdResult :=
  if bufNull then
    if malloc (libcMallocSize dir size) then
      if size = 0 ∨ dir.length < size then ⟨.ok dir, []⟩ else ⟨.error .eRANGE, []⟩
    else ⟨.error .eNOMEM, []⟩
  else if size = 0 then ⟨.error .eINVAL, []⟩
  else if dir.length < size then ⟨.ok dir, dir ++ [0]⟩
  else ⟨.error .eRANGE, []⟩

/-- `max(size,MAX_PATH) + 1`, as a `size_t`. -/
def mallocSize (size : ℕ) : ℕ := (max size maxPath + 1) % 2 ^ 64

/-- `my_getcwd_ld` and `my_getcwd_libc`, which are the same. No result stands for the exit where
no memory can be allocated, and for a string that is copied to where it does not fit. -/
def hookedGetcwd (p : Proc) (malloc : ℕ → Bool) (dir : CStr) (bufNull : Bool) (size : ℕ) :
    Option (GetcwdResult × Proc) :=
  if p.szUpdatedDir.length ≥ size ∧ size > 0 then some (⟨.error .eRANGE, []⟩, p)
  else if p.szUpdatedDir.head? ≠ some 47 then
    match (libcGetcwd malloc dir bufNull size).ret with
    | .ok szPath =>
        if szPath.length < szUpdatedDirSize then
          some (libcGetcwd malloc dir bufNull size, { p with szUpdatedDir := szPath })
        else none
    | .error _ => some (libcGetcwd malloc dir bufNull size, p)
  else if bufNull then
    if malloc (mallocSize size) = true ∧ p.szUpdatedDir.length < mallocSize size then
      some (⟨.ok p.szUpdatedDir, []⟩, p)
    else none
  else some (⟨.ok p.szUpdatedDir, p.szUpdatedDir ++ [0]⟩, p)

/-! ### Runs -/

/-- A process with one thread, and its directory. -/
structure Caller where
  proc : Proc
  cwd : Dir

/-- The process before and after the library has looked at its directory. -/
def Caller.start (p : Proc) (cwd : Dir) (inited : Bool) : Caller :=
  ⟨{ p with szUpdatedDir := if inited then cwd.path else [] }, cwd⟩

/-- The hooked calls. `chdir` is `chdir` or `fchdir`, with the directory it changes to or none
when it fails. -/
inductive CwdCall
  | chdir (dir : Option Dir)
  | getcwd (malloc : ℕ → Bool) (bufNull : Bool) (size : ℕ)

/-- The directory after a call. -/
def Caller.cwdAfter (s : Caller) : CwdCall → Dir
  | .chdir dir => dir.getD s.cwd
  | .getcwd .. => s.cwd

/-- A hooked call. `Update_CWD` reads the path into `szUpdatedDir` with `MAX_PATH` as its size,
and exits if that fails. -/
def hookedCall (s : Caller) (c : CwdCall) : Option Caller :=
  match c with
  | .chdir _ =>
      match (libcGetcwd (fun _ => false) (s.cwdAfter c).path false maxPath).ret with
      | .ok szDir => some ⟨updateCWD s.proc szDir, s.cwdAfter c⟩
      | .error _ => none
  | .getcwd malloc bufNull size =>
      (hookedGetcwd s.proc malloc s.cwd.path bufNull size).map fun r => ⟨r.2, s.cwd⟩

/-- What a caller may expect: `chdir` does not end the process, and `getcwd` returns what the C
library would, and keeps to the buffer it was given. -/
def Transparent (s : Caller) : CwdCall → Prop
  | .chdir dir => (hookedCall s (.chdir dir)).isSome = true
  | .getcwd malloc bufNull size =>
      ∃ r, hookedGetcwd s.proc malloc s.cwd.path bufNull size = some r ∧
        r.1.ret = (libcGetcwd malloc s.cwd.path bufNull size).ret ∧
        (bufNull = false → r.1.written.length ≤ size)

/-- When it gets that. A directory has a path of less than `MAX_PATH` bytes. A buffer has a size.
Without a buffer there is memory for what the C library allocates and, where the path is
reported, for what the hooked function allocates, and that is enough for the path. The first path
that is reported fits `szUpdatedDir`. -/
def Expected (s : Caller) : CwdCall → Prop
  | .chdir dir => (dir.getD s.cwd).path.length < maxPath
  | .getcwd malloc bufNull size =>
      if s.proc.szUpdatedDir = [] then
        (libcGetcwd malloc s.cwd.path bufNull size).ret = .ok s.cwd.path →
          s.cwd.path.length < szUpdatedDirSize
      else if bufNull then
        malloc (libcMallocSize s.cwd.path size) = true ∧
          (size = 0 ∨ s.cwd.path.length < size →
            malloc (mallocSize size) = true ∧ s.cwd.path.length < mallocSize size)
      else size ≠ 0

/-! ### What the function answers -/

/-- The C library reports the directory or an error. -/
theorem libcGetcwd_cases (malloc : ℕ → Bool) (dir : CStr) (bufNull : Bool) (size : ℕ) :
    (libcGetcwd malloc dir bufNull size).ret = .ok dir ∨
      ∃ e, (libcGetcwd malloc dir bufNull size).ret = .error e := by
  cases h : (libcGetcwd malloc dir bufNull size).ret with
  | error e => exact .inr ⟨e, rfl⟩
  | ok szPath =>
      rw [libcGetcwd] at h
      split_ifs at h <;> cases h <;> exact .inl rfl

/-- The C library writes into the buffer only. -/
theorem libcGetcwd_written (malloc : ℕ → Bool) (dir : CStr) (bufNull : Bool) (size : ℕ) :
    (libcGetcwd malloc dir bufNull size).written.length ≤ size := by
  rw [libcGetcwd]
  split_ifs <;> simp
  omega

/-- With memory to allocate, what it returns is `realGetcwd`. -/
theorem libcGetcwd_toOption {malloc : ℕ → Bool} (h : ∀ n, malloc n = true) (dir : CStr)
    (bufNull : Bool) (size : ℕ) :
    (libcGetcwd malloc dir bufNull size).ret.toOption = realGetcwd dir bufNull size := by
  cases bufNull <;> by_cases hsize : size = 0 <;> by_cases hlen : dir.length < size <;>
    simp [libcGetcwd, realGetcwd, h, hsize, hlen, Except.toOption]

/-- Where there is memory, the function is `myGetcwd` with its `errno` and its writes. -/
theorem hookedGetcwd_eq_myGetcwd {p : Proc} {malloc : ℕ → Bool} (h : ∀ n, malloc n = true)
    {dir : CStr} {bufNull : Bool} {size : ℕ} {r : GetcwdResult × Proc}
    (hr : hookedGetcwd p malloc dir bufNull size = some r) :
    myGetcwd p dir bufNull size = (r.1.ret.toOption, r.2) := by
  have hlibc := libcGetcwd_toOption h dir bufNull size
  rw [hookedGetcwd] at hr
  rw [myGetcwd, ← hlibc]
  split_ifs at hr ⊢
  · obtain rfl := Option.some.inj hr
    rfl
  · split at hr
    · rename_i szPath hret
      split_ifs at hr
      obtain rfl := Option.some.inj hr
      simp only [hret, Except.toOption]
    · rename_i e hret
      obtain rfl := Option.some.inj hr
      simp only [hret, Except.toOption]
  · obtain rfl := Option.some.inj hr
    rfl
  · obtain rfl := Option.some.inj hr
    rfl

namespace Caller

variable {s s' : Caller}

/-- What is cached is the directory, or nothing. -/
def Recorded (s : Caller) : Prop := s.proc.szUpdatedDir = [] ∨ s.proc.szUpdatedDir = s.cwd.path

theorem recorded_start (p : Proc) (cwd : Dir) (inited : Bool) :
    (Caller.start p cwd inited).Recorded := by
  cases inited with
  | false => exact .inl rfl
  | true => exact .inr rfl

/-- A path is not empty. -/
theorem path_ne_nil (d : Dir) : d.path ≠ [] := by
  intro h
  have habs := d.abs
  rw [h] at habs
  exact absurd habs nofun

/-- Without a path of its own the function asks the C library. -/
theorem hookedGetcwd_of_nil (h : s.proc.szUpdatedDir = []) (malloc : ℕ → Bool) (bufNull : Bool)
    (size : ℕ) :
    hookedGetcwd s.proc malloc s.cwd.path bufNull size =
      match (libcGetcwd malloc s.cwd.path bufNull size).ret with
      | .ok szPath =>
          if szPath.length < szUpdatedDirSize then
            some (libcGetcwd malloc s.cwd.path bufNull size,
              { s.proc with szUpdatedDir := szPath })
          else none
      | .error _ => some (libcGetcwd malloc s.cwd.path bufNull size, s.proc) := by
  have hsize : ¬(([] : CStr).length ≥ size ∧ size > 0) := by
    simp only [List.length_nil]
    omega
  rw [hookedGetcwd, h, if_neg hsize, if_pos (by decide)]

/-- With one it answers from there. -/
theorem hookedGetcwd_of_path (h : s.proc.szUpdatedDir = s.cwd.path) (malloc : ℕ → Bool)
    (bufNull : Bool) (size : ℕ) :
    hookedGetcwd s.proc malloc s.cwd.path bufNull size =
      if s.cwd.path.length ≥ size ∧ size > 0 then some (⟨.error .eRANGE, []⟩, s.proc)
      else if bufNull then
        if malloc (mallocSize size) = true ∧ s.cwd.path.length < mallocSize size then
          some (⟨.ok s.cwd.path, []⟩, s.proc)
        else none
      else some (⟨.ok s.cwd.path, s.cwd.path ++ [0]⟩, s.proc) := by
  rw [hookedGetcwd, h]
  simp only [s.cwd.abs, ne_eq, not_true_eq_false, if_false]

/-- **One call** keeps the cache. -/
theorem Recorded.step (h : s.Recorded) {c : CwdCall} (hs : hookedCall s c = some s') :
    s'.Recorded := by
  cases c with
  | chdir dir =>
      simp only [hookedCall] at hs
      obtain hok | ⟨e, herr⟩ :=
        libcGetcwd_cases (fun _ => false) (s.cwdAfter (.chdir dir)).path false maxPath
      · rw [hok] at hs
        obtain rfl := Option.some.inj hs
        exact .inr rfl
      · rw [herr] at hs
        exact absurd hs nofun
  | getcwd malloc bufNull size =>
      obtain ⟨r, hr, rfl⟩ := Option.map_eq_some_iff.mp hs
      rcases h with hnil | hpath
      · rw [hookedGetcwd_of_nil hnil] at hr
        obtain hok | ⟨e, herr⟩ := libcGetcwd_cases malloc s.cwd.path bufNull size
        · simp only [hok] at hr
          split_ifs at hr
          obtain rfl := Option.some.inj hr
          exact .inr rfl
        · simp only [herr] at hr
          obtain rfl := Option.some.inj hr
          exact .inl hnil
      · rw [hookedGetcwd_of_path hpath] at hr
        split_ifs at hr <;> obtain rfl := Option.some.inj hr <;> exact .inr hpath

/-- `chdir` ends the process exactly in a directory with too long a path. -/
theorem chdir_transparent_iff (dir : Option Dir) :
    Transparent s (.chdir dir) ↔ Expected s (.chdir dir) := by
  have hlibc : (libcGetcwd (fun _ => false) (dir.getD s.cwd).path false maxPath).ret =
      if (dir.getD s.cwd).path.length < maxPath then .ok (dir.getD s.cwd).path
      else .error .eRANGE := by
    rw [libcGetcwd, if_neg Bool.false_ne_true, if_neg (by decide)]
    split_ifs <;> rfl
  rw [Transparent, Expected, hookedCall, cwdAfter, hlibc]
  split_ifs with hlen
  · exact iff_of_true rfl hlen
  · exact iff_of_false Bool.false_ne_true hlen

/-- The first `getcwd` is that of the C library, as long as its path fits. -/
theorem getcwd_transparent_of_nil (h : s.proc.szUpdatedDir = []) (malloc : ℕ → Bool)
    (bufNull : Bool) (size : ℕ) :
    Transparent s (.getcwd malloc bufNull size) ↔ Expected s (.getcwd malloc bufNull size) := by
  have hwritten := libcGetcwd_written malloc s.cwd.path bufNull size
  rw [Transparent, Expected, if_pos h, hookedGetcwd_of_nil h]
  obtain hok | ⟨e, herr⟩ := libcGetcwd_cases malloc s.cwd.path bufNull size
  · simp only [hok, true_imp_iff]
    split_ifs with hlen
    · exact iff_of_true ⟨_, rfl, hok, fun _ => hwritten⟩ hlen
    · exact iff_of_false (fun ⟨_, hr, _⟩ => absurd hr nofun) hlen
  · simp only [herr]
    exact iff_of_true ⟨_, rfl, herr, fun _ => hwritten⟩ nofun

/-- An answer is the one that is looked for. -/
theorem exists_answer_iff {r : GetcwdResult × Proc} {ret : Except Errno CStr} {bufNull : Bool}
    {size : ℕ} :
    (∃ r', some r = some r' ∧ r'.1.ret = ret ∧ (bufNull = false → r'.1.written.length ≤ size)) ↔
      r.1.ret = ret ∧ (bufNull = false → r.1.written.length ≤ size) :=
  ⟨fun ⟨_, hr, h⟩ => Option.some.inj hr ▸ h, fun h => ⟨r, rfl, h⟩⟩

/-- A path of the cache is written into a buffer of any size but `0` as the C library would. -/
theorem getcwd_transparent_of_buffer (h : s.proc.szUpdatedDir = s.cwd.path) (malloc : ℕ → Bool)
    (size : ℕ) :
    Transparent s (.getcwd malloc false size) ↔ size ≠ 0 := by
  have hlibc : libcGetcwd malloc s.cwd.path false size =
      if size = 0 then ⟨.error .eINVAL, []⟩
      else if s.cwd.path.length < size then ⟨.ok s.cwd.path, s.cwd.path ++ [0]⟩
      else ⟨.error .eRANGE, []⟩ := if_neg Bool.false_ne_true
  rw [Transparent, hookedGetcwd_of_path h, hlibc, if_neg Bool.false_ne_true]
  by_cases hsize : size = 0
  · -- the C library refuses a buffer of size 0
    rw [if_neg (by omega), if_pos hsize, exists_answer_iff]
    exact iff_of_false (fun hret => absurd hret.1 nofun) (not_not.mpr hsize)
  · rw [if_neg hsize]
    refine iff_of_true ?_ hsize
    by_cases hlen : s.cwd.path.length < size
    · rw [if_neg (by omega), if_pos hlen, exists_answer_iff]
      refine ⟨rfl, fun _ => ?_⟩
      rw [List.length_append]
      exact hlen
    · rw [if_pos (by omega), if_neg hlen, exists_answer_iff]
      exact ⟨rfl, fun _ => Nat.zero_le size⟩

/-- Without a buffer the C library may run out of memory, and the function exits where it does. -/
theorem getcwd_transparent_of_malloc (h : s.proc.szUpdatedDir = s.cwd.path) (malloc : ℕ → Bool)
    (size : ℕ) :
    Transparent s (.getcwd malloc true size) ↔
      malloc (libcMallocSize s.cwd.path size) = true ∧
        (size = 0 ∨ s.cwd.path.length < size →
          malloc (mallocSize size) = true ∧ s.cwd.path.length < mallocSize size) := by
  have hlibc : libcGetcwd malloc s.cwd.path true size =
      if malloc (libcMallocSize s.cwd.path size) then
        if size = 0 ∨ s.cwd.path.length < size then ⟨.ok s.cwd.path, []⟩
        else ⟨.error .eRANGE, []⟩
      else ⟨.error .eNOMEM, []⟩ := if_pos rfl
  rw [Transparent, hookedGetcwd_of_path h, hlibc, if_pos rfl]
  by_cases hlen : size = 0 ∨ s.cwd.path.length < size
  · rw [if_neg (by omega), if_pos hlen]
    by_cases hroom : malloc (mallocSize size) = true ∧ s.cwd.path.length < mallocSize size
    · rw [if_pos hroom, exists_answer_iff]
      split_ifs with hmalloc
      · exact iff_of_true ⟨rfl, nofun⟩ ⟨hmalloc, fun _ => hroom⟩
      · exact iff_of_false (fun hret => absurd hret.1 nofun) fun hexp => hmalloc hexp.1
    · rw [if_neg hroom]
      exact iff_of_false (fun ⟨_, hr, _⟩ => absurd hr nofun) fun hexp => hroom (hexp.2 hlen)
  · rw [if_pos (by omega), if_neg hlen, exists_answer_iff]
    split_ifs with hmalloc
    · exact iff_of_true ⟨rfl, nofun⟩ ⟨hmalloc, fun hl => absurd hl hlen⟩
    · exact iff_of_false (fun hret => absurd hret.1 nofun) fun hexp => hmalloc hexp.1

/-- A later one is answered from the cache. -/
theorem getcwd_transparent_of_path (h : s.proc.szUpdatedDir = s.cwd.path) (malloc : ℕ → Bool)
    (bufNull : Bool) (size : ℕ) :
    Transparent s (.getcwd malloc bufNull size) ↔ Expected s (.getcwd malloc bufNull size) := by
  have hne : s.proc.szUpdatedDir ≠ [] := h ▸ path_ne_nil s.cwd
  rw [Expected, if_neg hne]
  cases bufNull with
  | false => exact getcwd_transparent_of_buffer h malloc size
  | true => exact getcwd_transparent_of_malloc h malloc size

/-- In every state of the process. -/
theorem Recorded.transparent_iff (h : s.Recorded) (c : CwdCall) :
    Transparent s c ↔ Expected s c := by
  cases c with
  | chdir dir => exact chdir_transparent_iff dir
  | getcwd malloc bufNull size =>
      rcases h with hnil | hpath
      · exact getcwd_transparent_of_nil hnil malloc bufNull size
      · exact getcwd_transparent_of_path hpath malloc bufNull size

end Caller

/-- **Transparency.** In a process with one thread, every hooked call of a run is answered like
the C library does exactly when every call of it may expect that. -/
theorem getcwd_transparent_iff (p : Proc) (cwd : Dir) (inited : Bool) (calls : List CwdCall) :
    Along hookedCall Transparent (Caller.start p cwd inited) calls ↔
      Along hookedCall Expected (Caller.start p cwd inited) calls := by
  have hstart := Caller.recorded_start p cwd inited
  constructor
  · intro h
    exact h.imp_of_invariant hstart (fun _ _ _ hi _ hs => hi.step hs)
      fun _ c hi ht => (hi.transparent_iff c).mp ht
  · intro h
    exact h.imp_of_invariant hstart (fun _ _ _ hi _ hs => hi.step hs)
      fun _ c hi he => (hi.transparent_iff c).mpr he

/-- A directory whose path is one byte too long. -/
def deepDir : Dir := ⟨47 :: List.replicate 1023 97, rfl⟩

/-- A buffer of size 0 is written to, where the C library fails with `EINVAL`, and a `chdir` to a
directory with a path of 1024 bytes ends the process. -/
theorem zero_size_overruns :
    hookedGetcwd (Caller.start Proc.start ⟨bytesOf "/home", by decide⟩ true).proc (fun _ => true)
        (bytesOf "/home") false 0 =
      some (⟨.ok (bytesOf "/home"), bytesOf "/home" ++ [0]⟩,
        (Caller.start Proc.start ⟨bytesOf "/home", by decide⟩ true).proc) ∧
    (libcGetcwd (fun _ => true) (bytesOf "/home") false 0).ret = .error .eINVAL ∧
    hookedCall (Caller.start Proc.start ⟨bytesOf "/home", by decide⟩ true)
      (.chdir (some deepDir)) = none ∧
    ¬Along hookedCall Transparent (Caller.start Proc.start ⟨bytesOf "/home", by decide⟩ true)
      [.getcwd (fun _ => true) false 0] := by
  have hexit : hookedCall (Caller.start Proc.start ⟨bytesOf "/home", by decide⟩ true)
      (.chdir (some deepDir)) = none := by
    have hlong : ¬deepDir.path.length < maxPath := by decide +kernel
    have hchdir := (Caller.chdir_transparent_iff
      (s := Caller.start Proc.start ⟨bytesOf "/home", by decide⟩ true) (some deepDir)).mp
    rw [← Option.not_isSome_iff_eq_none]
    exact fun hsome => hlong (hchdir hsome)
  refine ⟨rfl, rfl, hexit, ?_⟩
  rintro ⟨⟨r, hr, hret, -⟩, -⟩
  obtain rfl := Option.some.inj hr
  exact absurd hret nofun

end Ooops
