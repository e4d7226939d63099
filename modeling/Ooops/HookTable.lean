import Mathlib.Algebra.BigOperators.Group.List.Basic
import Ooops.Basis.CString
import Ooops.Basis.Run
import Ooops.Trampoline

/-!
# The Table of Hooks

`register_a_hook` collects the functions to hook in a table with one entry for each module
(`HookState.modules`). A module is known by the name it is registered under, where the short
names `ld`, `libc` and `libpthread` stand for full paths. Only when the hooks are installed,
`query_all_org_func_addr` replaces these names by those of the loaded libraries and looks
up the addresses of the functions, and `allocate_memory_block_for_patches` finds a page
for the trampolines of every module.

The list of the loaded libraries (`Maps`), the symbols in their files and the work of
`dlopen` are given from outside. A process that exits is `none`, and so is one that writes
behind the `MAX_MODULE` entries of the table.

## Main results

* `registered_of_run`: successful calls register at most 48 functions.
* `allocateBlocks_spec`: every module with a function has a page for the trampolines.
-/

open Basis Basis.Memory

namespace Ooops

/-! ### What is loaded -/

/-- `get_module_maps`: the names and base addresses of the loaded libraries, and the
segments of the memory, adjacent ones merged. -/
structure Maps where
  libs : List (CStr × ℕ)
  segs : List (ℕ × ℕ)

/-- `query_lib_name_in_list`: an exact match, or else the first name that contains the one
looked for. -/
def queryLibNameInList (libs : List (CStr × ℕ)) (libName : CStr) : Option (CStr × ℕ) :=
  (libs.find? fun lib => libName == lib.1) <|>
    libs.find? fun lib => (strstr lib.1 libName).isSome

/-- The full paths that `determine_lib_path` finds. -/
structure LibPaths where
  pathLd : CStr
  pathLibc : CStr
  pathLibpthread : CStr

/-! ### The table -/

/-- A function to hook: `func_name_list`, `new_func_addr_list`, `ptr_old_func_add_list`,
`old_func_addr_list` and `is_patch_disabled` at one index. -/
structure HookEntry where
  funcName : CStr
  newFuncAddr : ℕ
  ptrOldFuncAddr : ℕ
  oldFuncAddr : ℕ := 0
  isPatchDisabled : Bool := false

/-- `MODULE_PATCH_INFO`. -/
structure ModulePatchInfo where
  moduleName : CStr
  moduleBaseAddr : ℕ
  hooks : List HookEntry
  oldFuncAddrMin : ℕ := 0
  oldFuncAddrMax : ℕ := 0
  idxPatchBlk : ℕ := 0

/-- `PATCH_BLOCK`, a page of `MIN_MEM_SIZE` bytes for trampolines. -/
structure PatchBlock where
  patchAddr : ℕ
  numTrampoline : ℕ := 0

/-- `patch_blk_list[i].patch_addr`. -/
def blkAddr (patchBlks : List PatchBlock) (i : ℕ) : ℕ :=
  (patchBlks[i]?.map PatchBlock.patchAddr).getD 0

/-- `patch_blk_list[i].num_trampoline`. -/
def blkCount (patchBlks : List PatchBlock) (i : ℕ) : ℕ :=
  (patchBlks[i]?.map PatchBlock.numTrampoline).getD 0

/-- The static variables of `hook.c`. -/
structure HookState where
  foundLibc : Bool := true
  paths : LibPaths := ⟨[], [], []⟩
  calledModuleMap : Bool := false
  maps : Maps := ⟨[], []⟩
  modules : List ModulePatchInfo := []
  numHook : ℕ := 0
  patchBlks : List PatchBlock := []
  isUninstalled : Bool := false

/-! ### Registration -/

/-- `ERROR_CODE_REGISTER_HOOK`. -/
inductive RegisterResult
  | success
  | notFoundLibc
  | dlopenFailed
  | moduleNameTooLong
  | funcNameTooLong
  | tooManyHooks
  deriving DecidableEq, Repr

/-- The arguments of a call of `register_a_hook`. -/
structure RegisterCall where
  moduleName : CStr
  funcName : CStr
  newFuncAddr : ℕ
  ptrOrgFunc : ℕ

/-- What a call meets: the paths of the three libraries, if there is an `ld-2.` at all, what
is loaded, and what is loaded after `dlopen`, if that succeeds. -/
structure RegisterEnv where
  libPaths : Option LibPaths
  maps : Maps
  dlopen : Option Maps

/-- The initialization that is done until a hook has been registered. -/
def HookState.initFirst (e : RegisterEnv) (s : HookState) : HookState :=
  if s.numHook = 0 then
    match e.libPaths with
    | some paths => { s with paths }
    | none => { s with foundLibc := false }
  else s

/-- The list of libraries is compiled once. -/
def HookState.readMaps (e : RegisterEnv) (s : HookState) : HookState :=
  if s.calledModuleMap then s else { s with maps := e.maps, calledModuleMap := true }

/-- `module_name_local`. -/
def HookState.localName (s : HookState) (moduleName : CStr) : CStr :=
  if moduleName = bytesOf "ld" then s.paths.pathLd
  else if moduleName = bytesOf "libc" then s.paths.pathLibc
  else if moduleName = bytesOf "libpthread" then s.paths.pathLibpthread
  else moduleName

/-- A library that is named by its path is loaded if it is not there. -/
def HookState.load (e : RegisterEnv) (name : CStr) (s : HookState) : Option HookState :=
  if name.head? = some 47 ∧ queryLibNameInList s.maps.libs name = none then
    e.dlopen.map fun maps => { s with maps }
  else some s

/-- Enter the function under its module, which is appended to the table if it is new. -/
def HookState.addHook (name : CStr) (base : ℕ) (c : RegisterCall) (s : HookState) :
    Option HookState :=
  let hook : HookEntry := ⟨c.funcName, c.newFuncAddr, c.ptrOrgFunc, 0, false⟩
  match s.modules.findIdx? fun md => name == md.moduleName with
  | some i =>
      some { s with
        modules := s.modules.modify i fun md => { md with hooks := md.hooks ++ [hook] }
        numHook := s.numHook + 1 }
  | none =>
      if s.modules.length < 16 then
        some { s with
          modules := s.modules ++ [⟨name, base, [hook], 0, 0, 0⟩]
          numHook := s.numHook + 1 }
      else none

/-- `register_a_hook`. -/
def registerAHook (e : RegisterEnv) (c : RegisterCall) (s : HookState) :
    Option (HookState × RegisterResult) :=
  if 256 ≤ c.moduleName.length then some (s, .moduleNameTooLong)
  else if 128 ≤ c.funcName.length then some (s, .funcNameTooLong)
  else
    let s := s.initFirst e
    if s.foundLibc = false then some (s, .notFoundLibc)
    else
      let s := s.readMaps e
      let name := s.localName c.moduleName
      match s.load e name with
      | none => some (s, .dlopenFailed)
      | some s =>
          match queryLibNameInList s.maps.libs name with
          | none => none
          | some lib =>
              (s.addHook name lib.2 c).map fun s =>
                (s, if 48 < s.numHook then .tooManyHooks else .success)

/-- A successful call. -/
def registerStep (s : HookState) (a : RegisterEnv × RegisterCall) : Option HookState :=
  match registerAHook a.1 a.2 s with
  | some (s', .success) => some s'
  | _ => none

/-! ### The addresses of the functions -/

/-- What the installation meets: the loaded libraries, and the symbols in their files. -/
structure InstallEnv where
  maps : Maps
  symbols : CStr → Option (List (CStr × ℕ))

/-- The address that `query_func_addr` computes from the value of a symbol. -/
def symbolAddr (base value : ℕ) : ℕ := (value % 2 ^ 32 + base) % 2 ^ 64

/-- `query_func_addr`: the last symbol of a name counts. -/
def queryFuncAddr (symbols : List (CStr × ℕ)) (base : ℕ) (hooks : List HookEntry) :
    List HookEntry :=
  symbols.foldl (fun hooks sym => hooks.map fun h =>
    if h.funcName = sym.1 then { h with oldFuncAddr := symbolAddr base sym.2 } else h) hooks

/-- The range of the addresses that have been found, which starts with the first of them. -/
def addrRange (hooks : List HookEntry) : ℕ × ℕ :=
  let first := ((hooks.find? fun h => h.oldFuncAddr ≠ 0).map HookEntry.oldFuncAddr).getD 0
  hooks.foldl (fun r h =>
    if h.oldFuncAddr = 0 then r
    else (if h.oldFuncAddr < r.1 then h.oldFuncAddr else r.1,
      if r.2 < h.oldFuncAddr then h.oldFuncAddr else r.2)) (first, first)

/-- The name and the base address under which a module is loaded. -/
def renameModule (env : InstallEnv) (md : ModulePatchInfo) : Option ModulePatchInfo :=
  (queryLibNameInList env.maps.libs md.moduleName).map fun lib =>
    { md with moduleName := lib.1, moduleBaseAddr := lib.2 }

/-- Look up the functions of a module. Those that are not found are disabled. -/
def lookUpModule (env : InstallEnv) (md : ModulePatchInfo) : Option ModulePatchInfo :=
  (env.symbols md.moduleName).map fun symbols =>
    let hooks := queryFuncAddr symbols md.moduleBaseAddr md.hooks
    { md with
      hooks := hooks.map fun h =>
        if h.oldFuncAddr = 0 then { h with isPatchDisabled := true } else h
      oldFuncAddrMin := (addrRange hooks).1
      oldFuncAddrMax := (addrRange hooks).2 }

/-- `query_all_org_func_addr`. -/
def queryAllOrgFuncAddr (env : InstallEnv) (modules : List ModulePatchInfo) :
    Option (List ModulePatchInfo) :=
  (modules.mapM (renameModule env)).bind fun modules => modules.mapM (lookUpModule env)

/-! ### The pages for the trampolines -/

/-- The page is close enough to all functions of the module. -/
def NearBlock (patchAddr : ℕ) (md : ModulePatchInfo) : Prop :=
  let mid : ℤ := (patchAddr + (patchAddr + 4096)) / 2
  |md.oldFuncAddrMin - mid| < nullRipVarOffset ∧ |md.oldFuncAddrMax - mid| < nullRipVarOffset

instance (patchAddr : ℕ) (md : ModulePatchInfo) : Decidable (NearBlock patchAddr md) :=
  inferInstanceAs (Decidable (_ ∧ _))

/-- The functions of a module that the page is near to are in the reach of all its bytes. -/
theorem NearBlock.lt {patchAddr : ℕ} {md : ModulePatchInfo} (h : NearBlock patchAddr md)
    {addr : ℕ} (hmin : md.oldFuncAddrMin ≤ addr) (hmax : addr ≤ md.oldFuncAddrMax) :
    |(addr : ℤ) - (patchAddr + 2048)| < nullRipVarOffset := by
  obtain ⟨h₁, h₂⟩ := h
  have hmid : ((patchAddr : ℤ) + (patchAddr + 4096)) / 2 = patchAddr + 2048 := by omega
  rw [hmid, abs_lt] at h₁ h₂
  rw [abs_lt]
  omega

/-- `find_usable_block`. -/
def findUsableBlock (patchBlks : List PatchBlock) (md : ModulePatchInfo) : Option ℕ :=
  patchBlks.findIdx? fun b => decide (NearBlock b.patchAddr md)

/-- The address by which the segment of a module is looked for. -/
def ModulePatchInfo.check (md : ModulePatchInfo) : ℕ :=
  (md.oldFuncAddrMin + md.oldFuncAddrMax) / 2

/-- The loop body of `allocate_memory_block_for_patches`. The page is behind the segment of
the module. A module that gets a new page keeps its `idx_patch_blk`. -/
def allocateModule (segs : List (ℕ × ℕ)) (patchBlks : List PatchBlock)
    (md : ModulePatchInfo) : Option (List PatchBlock × ModulePatchInfo) :=
  if md.oldFuncAddrMin = 0 ∧ md.oldFuncAddrMax = 0 then some (patchBlks, md)
  else
    match findUsableBlock patchBlks md with
    | some i => some (patchBlks, { md with idxPatchBlk := i })
    | none =>
        match segs.findIdx? fun seg => decide (seg.1 ≤ md.check ∧ md.check ≤ seg.2) with
        | none => none
        | some i =>
            match segs[i]?, segs[i + 1]? with
            | some seg, some seg' =>
                if seg'.1 - seg.2 < 4096 then none
                else some (patchBlks ++ [⟨seg.2, 0⟩], md)
            | some seg, none => some (patchBlks ++ [⟨seg.2, 0⟩], md)
            | none, _ => none

/-- `allocate_memory_block_for_patches`. -/
def allocateBlocks (segs : List (ℕ × ℕ)) :
    List PatchBlock → List ModulePatchInfo → Option (List PatchBlock × List ModulePatchInfo)
  | patchBlks, [] => some (patchBlks, [])
  | patchBlks, md :: mds =>
      match allocateModule segs patchBlks md with
      | none => none
      | some (patchBlks, md) =>
          (allocateBlocks segs patchBlks mds).map fun r => (r.1, md :: r.2)

/-- What a round of the loop can do: pass over a module without functions, use a page that is
there, or map a new one behind the segment of the module. -/
inductive AllocateStep (segs : List (ℕ × ℕ)) (patchBlks : List PatchBlock)
    (md : ModulePatchInfo) : List PatchBlock → ModulePatchInfo → Prop
  | skip (hzero : md.oldFuncAddrMin = 0 ∧ md.oldFuncAddrMax = 0) :
      AllocateStep segs patchBlks md patchBlks md
  | shared (hsome : ¬(md.oldFuncAddrMin = 0 ∧ md.oldFuncAddrMax = 0)) (i : ℕ)
      (hfind : findUsableBlock patchBlks md = some i) :
      AllocateStep segs patchBlks md patchBlks { md with idxPatchBlk := i }
  | fresh (hsome : ¬(md.oldFuncAddrMin = 0 ∧ md.oldFuncAddrMax = 0))
      (hfind : findUsableBlock patchBlks md = none) (i : ℕ) (seg : ℕ × ℕ)
      (hseg : segs.findIdx? (fun seg => decide (seg.1 ≤ md.check ∧ md.check ≤ seg.2)) = some i)
      (hget : segs[i]? = some seg)
      (hgap : ∀ next, segs[i + 1]? = some next → seg.2 + 4096 ≤ next.1) :
      AllocateStep segs patchBlks md (patchBlks ++ [⟨seg.2, 0⟩]) md

theorem allocateModule_step {segs : List (ℕ × ℕ)} {patchBlks patchBlks' : List PatchBlock}
    {md md' : ModulePatchInfo} (h : allocateModule segs patchBlks md = some (patchBlks', md')) :
    AllocateStep segs patchBlks md patchBlks' md' := by
  rw [allocateModule] at h
  split at h
  · rename_i hzero
    obtain ⟨rfl, rfl⟩ := Prod.mk.inj (Option.some.inj h)
    exact .skip hzero
  · rename_i hsome
    split at h
    · rename_i i hfind
      obtain ⟨rfl, rfl⟩ := Prod.mk.inj (Option.some.inj h)
      exact .shared hsome i hfind
    · rename_i hfind
      split at h
      · cases h
      · rename_i i hseg
        split at h
        · rename_i seg next hget hnext
          split at h
          · cases h
          · rename_i hgap
            obtain ⟨rfl, rfl⟩ := Prod.mk.inj (Option.some.inj h)
            refine .fresh hsome hfind i seg hseg hget fun next' hnext' => ?_
            obtain rfl := Option.some.inj (hnext.symm.trans hnext')
            omega
        · rename_i seg hget hnext
          obtain ⟨rfl, rfl⟩ := Prod.mk.inj (Option.some.inj h)
          refine .fresh hsome hfind i seg hseg hget fun next' hnext' => ?_
          rw [hnext] at hnext'
          cases hnext'
        · cases h

/-! ### Registered functions -/

/-- Nothing has been looked up for the module. -/
structure ModulePatchInfo.Fresh (md : ModulePatchInfo) : Prop where
  idx : md.idxPatchBlk = 0
  addr : ∀ h ∈ md.hooks, h.oldFuncAddr = 0

/-- The number of functions in a table. -/
def countHooks (modules : List ModulePatchInfo) : ℕ :=
  (modules.map fun md => md.hooks.length).sum

/-- What successful calls keep. -/
structure HookState.Registered (s : HookState) : Prop where
  found : s.foundLibc = true
  hooked : s.isUninstalled = false
  count : countHooks s.modules = s.numHook
  le : s.numHook ≤ 48
  fresh : ∀ md ∈ s.modules, md.Fresh

theorem countHooks_modify {modules : List ModulePatchInfo} {i : ℕ} (hi : i < modules.length)
    (hook : HookEntry) :
    countHooks (modules.modify i fun md => { md with hooks := md.hooks ++ [hook] }) =
      countHooks modules + 1 := by
  induction modules generalizing i with
  | nil => cases hi
  | cons md mds ih =>
      cases i with
      | zero =>
          simp only [countHooks, List.modify_zero_cons, List.map_cons, List.sum_cons,
            List.length_append, List.length_singleton]
          omega
      | succ i =>
          have hrest := ih (Nat.lt_of_succ_lt_succ hi)
          simp only [countHooks, List.modify_succ_cons, List.map_cons, List.sum_cons] at hrest ⊢
          omega

theorem fresh_modify {modules : List ModulePatchInfo} (h : ∀ md ∈ modules, md.Fresh) (i : ℕ)
    {hook : HookEntry} (hhook : hook.oldFuncAddr = 0) :
    ∀ md ∈ modules.modify i fun md => { md with hooks := md.hooks ++ [hook] }, md.Fresh := by
  induction modules generalizing i with
  | nil =>
      intro md hmd
      rw [List.modify_nil] at hmd
      cases hmd
  | cons m mds ih =>
      have hm := h m (List.mem_cons_self ..)
      have hmds : ∀ md ∈ mds, md.Fresh := fun md hmd => h md (List.mem_cons_of_mem _ hmd)
      intro md hmd
      cases i with
      | zero =>
          rw [List.modify_zero_cons] at hmd
          rcases List.mem_cons.mp hmd with rfl | hmd
          · refine ⟨hm.idx, fun k hk => ?_⟩
            rcases List.mem_append.mp hk with hk | hk
            · exact hm.addr k hk
            · rwa [List.mem_singleton.mp hk]
          · exact hmds md hmd
      | succ i =>
          rw [List.modify_succ_cons] at hmd
          rcases List.mem_cons.mp hmd with rfl | hmd
          · exact hm
          · exact ih hmds i md hmd

/-- A function is entered, and nothing else is. -/
theorem addHook_spec {name : CStr} {base : ℕ} {c : RegisterCall} {s s' : HookState}
    (h : s.addHook name base c = some s') (hcount : countHooks s.modules = s.numHook)
    (hfresh : ∀ md ∈ s.modules, md.Fresh) :
    s'.foundLibc = s.foundLibc ∧ s'.isUninstalled = s.isUninstalled ∧
      countHooks s'.modules = s'.numHook ∧ ∀ md ∈ s'.modules, md.Fresh := by
  unfold HookState.addHook at h
  dsimp only at h
  split at h
  · rename_i i hfind
    obtain rfl := Option.some.inj h
    have hi : i < s.modules.length := (List.findIdx?_eq_some_iff_getElem.mp hfind).1
    refine ⟨rfl, rfl, ?_, fresh_modify hfresh i rfl⟩
    dsimp only
    rw [countHooks_modify hi, hcount]
  · split at h
    · obtain rfl := Option.some.inj h
      refine ⟨rfl, rfl, ?_, fun md hmd => ?_⟩
      · simp only [countHooks, List.map_append, List.sum_append, List.map_cons, List.map_nil,
          List.sum_cons, List.sum_nil, List.length_singleton] at hcount ⊢
        omega
      · rcases List.mem_append.mp hmd with hmd | hmd
        · exact hfresh md hmd
        · rw [List.mem_singleton.mp hmd]
          refine ⟨rfl, fun k hk => ?_⟩
          rw [List.mem_singleton.mp hk]
    · cases h

/-- The state in which a call enters its function, with the name and the base address of the
module. -/
def registerReach (e : RegisterEnv) (c : RegisterCall) (s : HookState) :
    Option (HookState × CStr × ℕ) :=
  if 256 ≤ c.moduleName.length ∨ 128 ≤ c.funcName.length then none
  else
    let s := s.initFirst e
    if s.foundLibc = false then none
    else
      let s := s.readMaps e
      let name := s.localName c.moduleName
      (s.load e name).bind fun s =>
        (queryLibNameInList s.maps.libs name).map fun lib => (s, name, lib.2)

/-- How a call can end: it is refused before it has touched the table, the process exits, or the
function is entered. -/
inductive CallOutcome (e : RegisterEnv) (c : RegisterCall) (s : HookState) :
    Option (HookState × RegisterResult) → Prop
  | refused (hreach : registerReach e c s = none) (s' : HookState) (r : RegisterResult)
      (hr : r ≠ .success) (hmodules : s'.modules = s.modules) (hnum : s'.numHook = s.numHook) :
      CallOutcome e c s (some (s', r))
  | exits (hreach : registerReach e c s = none) : CallOutcome e c s none
  | reaches (s₁ : HookState) (name : CStr) (base : ℕ)
      (hreach : registerReach e c s = some (s₁, name, base)) (hmodules : s₁.modules = s.modules)
      (hnum : s₁.numHook = s.numHook) (hhooked : s₁.isUninstalled = s.isUninstalled)
      (hfound : s₁.foundLibc = true) :
      CallOutcome e c s ((s₁.addHook name base c).map fun s =>
        (s, if 48 < s.numHook then .tooManyHooks else .success))

/-- The initialization leaves the table alone. -/
theorem initFirst_spec (e : RegisterEnv) (s : HookState) :
    (s.initFirst e).modules = s.modules ∧ (s.initFirst e).numHook = s.numHook ∧
      (s.initFirst e).isUninstalled = s.isUninstalled := by
  rw [HookState.initFirst]
  split
  · cases e.libPaths <;> exact ⟨rfl, rfl, rfl⟩
  · exact ⟨rfl, rfl, rfl⟩

theorem readMaps_spec (e : RegisterEnv) (s : HookState) :
    (s.readMaps e).modules = s.modules ∧ (s.readMaps e).numHook = s.numHook ∧
      (s.readMaps e).isUninstalled = s.isUninstalled ∧
      (s.readMaps e).foundLibc = s.foundLibc := by
  rw [HookState.readMaps]
  split <;> exact ⟨rfl, rfl, rfl, rfl⟩

theorem load_spec {e : RegisterEnv} {name : CStr} {s s' : HookState}
    (h : s.load e name = some s') :
    s'.modules = s.modules ∧ s'.numHook = s.numHook ∧
      s'.isUninstalled = s.isUninstalled ∧ s'.foundLibc = s.foundLibc := by
  rw [HookState.load] at h
  split at h
  · obtain ⟨maps, -, rfl⟩ := Option.map_eq_some_iff.mp h
    exact ⟨rfl, rfl, rfl, rfl⟩
  · obtain rfl := Option.some.inj h
    exact ⟨rfl, rfl, rfl, rfl⟩

/-- Up to the entry of the function, a call leaves the table as it is. -/
theorem registerAHook_outcome (e : RegisterEnv) (c : RegisterCall) (s : HookState) :
    CallOutcome e c s (registerAHook e c s) := by
  obtain ⟨hm₁, hn₁, hu₁⟩ := initFirst_spec e s
  obtain ⟨hm₂, hn₂, hu₂, hf₂⟩ := readMaps_spec e (s.initFirst e)
  have hreach : registerReach e c s =
      if 256 ≤ c.moduleName.length ∨ 128 ≤ c.funcName.length then none
      else if (s.initFirst e).foundLibc = false then none
      else (((s.initFirst e).readMaps e).load e
        (((s.initFirst e).readMaps e).localName c.moduleName)).bind fun s' =>
          (queryLibNameInList s'.maps.libs
            (((s.initFirst e).readMaps e).localName c.moduleName)).map
              fun lib => (s', ((s.initFirst e).readMaps e).localName c.moduleName, lib.2) := rfl
  rw [registerAHook]
  split
  · rename_i hlong
    exact .refused (hreach.trans (if_pos (.inl hlong))) _ _ nofun rfl rfl
  · rename_i hshort
    split
    · rename_i hlong
      exact .refused (hreach.trans (if_pos (.inr hlong))) _ _ nofun rfl rfl
    · rename_i hshort'
      rw [if_neg (not_or.mpr ⟨hshort, hshort'⟩)] at hreach
      dsimp only
      split
      · rename_i hlibc
        exact .refused (hreach.trans (if_pos hlibc)) _ _ nofun hm₁ hn₁
      · rename_i hlibc
        rw [if_neg hlibc] at hreach
        split
        · rename_i hload
          rw [hload, Option.bind_none] at hreach
          exact .refused hreach _ _ nofun (hm₂.trans hm₁) (hn₂.trans hn₁)
        · rename_i s₁ hload
          rw [hload, Option.bind_some] at hreach
          split
          · rename_i hlib
            rw [hlib, Option.map_none] at hreach
            exact .exits hreach
          · rename_i lib hlib
            rw [hlib, Option.map_some] at hreach
            obtain ⟨hm, hn, hu, hf⟩ := load_spec hload
            exact .reaches s₁ _ lib.2 hreach (hm.trans (hm₂.trans hm₁)) (hn.trans (hn₂.trans hn₁))
              (hu.trans (hu₂.trans hu₁))
              ((hf.trans hf₂).trans (Bool.eq_true_of_not_eq_false hlibc))

/-- A successful call enters its function in a table with room. -/
theorem registerStep_spec {s s' : HookState} {a : RegisterEnv × RegisterCall}
    (h : registerStep s a = some s') :
    ∃ (s₁ : HookState) (name : CStr) (base : ℕ), s₁.modules = s.modules ∧ s₁.numHook = s.numHook ∧
      s₁.isUninstalled = s.isUninstalled ∧ s₁.foundLibc = true ∧
      s₁.addHook name base a.2 = some s' ∧ s'.numHook ≤ 48 := by
  have hout := registerAHook_outcome a.1 a.2 s
  rw [registerStep] at h
  split at h
  · rename_i s₂ hreg
    obtain rfl := Option.some.inj h
    generalize hres : registerAHook a.1 a.2 s = res at hout hreg
    cases hout with
    | refused _ _ r hr =>
        cases hreg
        exact absurd rfl hr
    | exits => cases hreg
    | reaches s₁ name base _ hm hn hu hf =>
        obtain ⟨s₃, hadd, heq⟩ := Option.map_eq_some_iff.mp hreg
        obtain ⟨rfl, hok⟩ := Prod.mk.inj heq
        refine ⟨s₁, name, base, hm, hn, hu, hf, hadd, ?_⟩
        by_contra hlt
        rw [if_pos (by omega)] at hok
        cases hok
  · cases h

/-- **Successful calls register at most 48 functions.** -/
theorem registered_of_run {acts : List (RegisterEnv × RegisterCall)} {s : HookState}
    (h : runSteps registerStep {} acts = some s) : s.Registered := by
  refine invariant_of_runSteps (P := fun _ _ => True) ⟨rfl, rfl, rfl, Nat.zero_le 48, nofun⟩ ?_
    (along_of_forall (fun _ _ => trivial) _ _) h
  intro s a s' hs _ hstep
  obtain ⟨s₁, name, base, hm, hn, hu, hf, hadd, hle⟩ := registerStep_spec hstep
  obtain ⟨hf', hu', hcount, hfresh⟩ := addHook_spec hadd (by rw [hm, hn, hs.count])
    (by rw [hm]; exact hs.fresh)
  exact ⟨hf'.trans hf, hu'.trans (hu.trans hs.hooked), hcount, hle, hfresh⟩

/-! ### Looked up functions -/

/-- The functions of the module have been looked up. -/
structure ModulePatchInfo.LookedUp (md : ModulePatchInfo) : Prop where
  idx : md.idxPatchBlk = 0
  found : ∀ h ∈ md.hooks, h.isPatchDisabled = false → h.oldFuncAddr ≠ 0
  range : ∀ h ∈ md.hooks, h.oldFuncAddr ≠ 0 → md.oldFuncAddrMin ≠ 0
  lt : ∀ h ∈ md.hooks, h.oldFuncAddr < 2 ^ 64

/-- A `mapM` that succeeds does so at every element. -/
theorem forall₂_of_mapM {α β : Type*} {f : α → Option β} {l : List α} {l' : List β}
    (h : l.mapM f = some l') : List.Forall₂ (fun a b => f a = some b) l l' := by
  induction l generalizing l' with
  | nil =>
      rw [List.mapM_nil] at h
      obtain rfl := Option.some.inj h
      exact .nil
  | cons a l ih =>
      rw [List.mapM_cons] at h
      obtain ⟨b, hb, h⟩ := Option.bind_eq_some_iff.mp h
      obtain ⟨bs, hbs, h⟩ := Option.bind_eq_some_iff.mp h
      obtain rfl := Option.some.inj h
      exact .cons hb (ih hbs)

/-- Every result of a `mapM` comes from an element. -/
theorem exists_of_mapM {α β : Type*} {f : α → Option β} {l : List α} {l' : List β}
    (h : l.mapM f = some l') {b : β} (hb : b ∈ l') : ∃ a ∈ l, f a = some b := by
  have hall := forall₂_of_mapM h
  clear h
  induction hall with
  | nil => cases hb
  | cons hfirst _ ih =>
      rcases List.mem_cons.mp hb with rfl | hb
      · exact ⟨_, List.mem_cons_self .., hfirst⟩
      · obtain ⟨a, ha, heq⟩ := ih hb
        exact ⟨a, List.mem_cons_of_mem _ ha, heq⟩

/-- Looking up functions sets addresses and nothing else. -/
theorem queryFuncAddr_spec {P : HookEntry → Prop} (symbols : List (CStr × ℕ)) (base : ℕ)
    {hooks : List HookEntry} (h : ∀ k ∈ hooks, P k)
    (hset : ∀ k value, P k → P { k with oldFuncAddr := symbolAddr base value }) :
    (queryFuncAddr symbols base hooks).length = hooks.length ∧
      ∀ k ∈ queryFuncAddr symbols base hooks, P k := by
  rw [queryFuncAddr]
  induction symbols generalizing hooks with
  | nil => exact ⟨rfl, h⟩
  | cons sym symbols ih =>
      rw [List.foldl_cons]
      have hmap : ∀ k ∈ hooks.map fun k =>
          if k.funcName = sym.1 then { k with oldFuncAddr := symbolAddr base sym.2 } else k,
          P k := by
        intro k hk
        obtain ⟨k₀, hk₀, rfl⟩ := List.mem_map.mp hk
        split
        · exact hset k₀ sym.2 (h k₀ hk₀)
        · exact h k₀ hk₀
      obtain ⟨hlen, hall⟩ := ih hmap
      exact ⟨hlen.trans (List.length_map _), hall⟩

/-- The range of addresses starts above zero if one has been found. -/
theorem addrRange_ne_zero {hooks : List HookEntry} {h : HookEntry} (hh : h ∈ hooks)
    (haddr : h.oldFuncAddr ≠ 0) : (addrRange hooks).1 ≠ 0 := by
  have hfirst :
      ((hooks.find? fun h => h.oldFuncAddr ≠ 0).map HookEntry.oldFuncAddr).getD 0 ≠ 0 := by
    cases hfind : hooks.find? fun h => h.oldFuncAddr ≠ 0 with
    | none =>
        have := List.find?_eq_none.mp hfind h hh
        simp only [ne_eq, haddr, not_false_eq_true, decide_true, not_true_eq_false] at this
    | some k =>
        have hk := List.find?_some hfind
        exact of_decide_eq_true hk
  have hfold : ∀ (hs : List HookEntry) (r : ℕ × ℕ), r.1 ≠ 0 →
      (hs.foldl (fun r h =>
        if h.oldFuncAddr = 0 then r
        else (if h.oldFuncAddr < r.1 then h.oldFuncAddr else r.1,
          if r.2 < h.oldFuncAddr then h.oldFuncAddr else r.2)) r).1 ≠ 0 := by
    intro hs
    induction hs with
    | nil => exact fun _ hr => hr
    | cons k hs ih =>
        intro r hr
        rw [List.foldl_cons]
        refine ih _ ?_
        split
        · exact hr
        · dsimp only
          split
          · assumption
          · exact hr
  exact hfold hooks _ hfirst

theorem lookUpModule_spec {env : InstallEnv} {md md' : ModulePatchInfo}
    (h : lookUpModule env md = some md') (hfresh : md.Fresh) :
    md'.hooks.length = md.hooks.length ∧ md'.LookedUp := by
  obtain ⟨symbols, -, rfl⟩ := Option.map_eq_some_iff.mp h
  obtain ⟨hlen, hlt⟩ := queryFuncAddr_spec (P := fun k => k.oldFuncAddr < 2 ^ 64)
    symbols md.moduleBaseAddr (fun k hk => by rw [hfresh.addr k hk]; norm_num)
    fun k value _ => Nat.mod_lt _ (by norm_num)
  have hmark : ∀ k ∈ (queryFuncAddr symbols md.moduleBaseAddr md.hooks).map fun h =>
      if h.oldFuncAddr = 0 then { h with isPatchDisabled := true } else h,
      ∃ k₀ ∈ queryFuncAddr symbols md.moduleBaseAddr md.hooks,
        k.oldFuncAddr = k₀.oldFuncAddr ∧ (k.isPatchDisabled = false → k.oldFuncAddr ≠ 0) := by
    intro k hk
    obtain ⟨k₀, hk₀, rfl⟩ := List.mem_map.mp hk
    refine ⟨k₀, hk₀, ?_⟩
    split
    · exact ⟨rfl, nofun⟩
    · exact ⟨rfl, fun _ => ‹_›⟩
  refine ⟨(List.length_map _).trans hlen, hfresh.idx, ?_, ?_, ?_⟩
  · intro k hk
    obtain ⟨k₀, -, -, hfound⟩ := hmark k hk
    exact hfound
  · intro k hk hne
    obtain ⟨k₀, hk₀, heq, -⟩ := hmark k hk
    exact addrRange_ne_zero hk₀ (heq ▸ hne)
  · intro k hk
    obtain ⟨k₀, hk₀, heq, -⟩ := hmark k hk
    exact heq ▸ hlt k₀ hk₀

/-- **Looking up the functions** keeps their number and marks those that are not found. -/
theorem queryAllOrgFuncAddr_spec {env : InstallEnv} {modules mods : List ModulePatchInfo}
    (h : queryAllOrgFuncAddr env modules = some mods) (hfresh : ∀ md ∈ modules, md.Fresh) :
    countHooks mods = countHooks modules ∧ ∀ md ∈ mods, md.LookedUp := by
  obtain ⟨renamed, hrename, hlook⟩ := Option.bind_eq_some_iff.mp h
  have hrenamed : countHooks renamed = countHooks modules ∧ ∀ md ∈ renamed, md.Fresh := by
    have hall := forall₂_of_mapM hrename
    clear h hrename hlook
    induction hall with
    | nil => exact ⟨rfl, nofun⟩
    | cons hmd _ ih =>
        obtain ⟨lib, -, rfl⟩ := Option.map_eq_some_iff.mp hmd
        obtain ⟨hcount, hrest⟩ := ih fun md hmd => hfresh md (List.mem_cons_of_mem _ hmd)
        have hfirst := hfresh _ (List.mem_cons_self ..)
        refine ⟨?_, fun md hmd => ?_⟩
        · simp only [countHooks, List.map_cons, List.sum_cons] at hcount ⊢
          omega
        · rcases List.mem_cons.mp hmd with rfl | hmd
          · exact ⟨hfirst.idx, hfirst.addr⟩
          · exact hrest md hmd
  obtain ⟨hcount, hfresh'⟩ := hrenamed
  rw [← hcount]
  have hall := forall₂_of_mapM hlook
  clear h hrename hlook hcount
  induction hall with
  | nil => exact ⟨rfl, nofun⟩
  | cons hmd _ ih =>
      obtain ⟨hlen, hlooked⟩ := lookUpModule_spec hmd (hfresh' _ (List.mem_cons_self ..))
      obtain ⟨hcount, hrest⟩ := ih fun md hmd => hfresh' md (List.mem_cons_of_mem _ hmd)
      refine ⟨?_, fun md hmd => ?_⟩
      · simp only [countHooks, List.map_cons, List.sum_cons] at hcount ⊢
        omega
      · rcases List.mem_cons.mp hmd with rfl | hmd
        · exact hlooked
        · exact hrest md hmd

/-- The functions of a table that is in order, once they are looked up. -/
theorem HookState.Registered.lookedUp {env : InstallEnv} {s : HookState}
    {mods : List ModulePatchInfo} (hs : s.Registered)
    (hquery : queryAllOrgFuncAddr env s.modules = some mods) :
    countHooks mods ≤ 48 ∧ ∀ md ∈ mods, md.LookedUp := by
  obtain ⟨hcount, hlook⟩ := queryAllOrgFuncAddr_spec hquery hs.fresh
  refine ⟨?_, hlook⟩
  rw [hcount, hs.count]
  exact hs.le

/-! ### The pages of the modules -/

section

variable {segs : List (ℕ × ℕ)} {patchBlks patchBlks' : List PatchBlock}
  {md md' : ModulePatchInfo} {mods mods' : List ModulePatchInfo}

/-- The pages that are there stay. -/
theorem allocateModule_keepsBlocks (h : allocateModule segs patchBlks md = some (patchBlks', md')) :
    patchBlks <+: patchBlks' := by
  cases allocateModule_step h with
  | skip | shared => exact List.prefix_rfl
  | fresh => exact List.prefix_append _ _

/-- One module, and the others. -/
theorem allocateBlocks_cons_iff {r : List PatchBlock × List ModulePatchInfo} :
    allocateBlocks segs patchBlks (md :: mods) = some r ↔
      ∃ blks₁ md₁ mods₂, allocateModule segs patchBlks md = some (blks₁, md₁) ∧
        allocateBlocks segs blks₁ mods = some (r.1, mods₂) ∧ r.2 = md₁ :: mods₂ := by
  rw [allocateBlocks]
  cases hmd : allocateModule segs patchBlks md with
  | none => simp
  | some r₁ =>
      obtain ⟨blks₁, md₁⟩ := r₁
      dsimp only
      rw [Option.map_eq_some_iff]
      constructor
      · rintro ⟨r₂, hrest, rfl⟩
        exact ⟨blks₁, md₁, r₂.2, rfl, hrest, rfl⟩
      · rintro ⟨_, _, mods₂, heq, hrest, hr⟩
        obtain ⟨rfl, rfl⟩ := Prod.mk.inj (Option.some.inj heq)
        exact ⟨_, hrest, Prod.ext rfl hr.symm⟩

theorem allocateBlocks_keepsBlocks
    (h : allocateBlocks segs patchBlks mods = some (patchBlks', mods')) :
    patchBlks <+: patchBlks' := by
  induction mods generalizing patchBlks mods' with
  | nil =>
      obtain ⟨rfl, -⟩ := Prod.mk.inj (Option.some.inj h)
      exact List.prefix_rfl
  | cons md mds ih =>
      obtain ⟨blks₁, md₁, mds₂, hmd, hrest, -⟩ := allocateBlocks_cons_iff.mp h
      exact (allocateModule_keepsBlocks hmd).trans (ih hrest)

/-- A module is as it was but for its page, which it has if it has a function. -/
theorem allocateModule_spec (hidx : md.idxPatchBlk = 0)
    (h : allocateModule segs patchBlks md = some (patchBlks', md')) :
    (∀ b ∈ patchBlks', b ∈ patchBlks ∨ b.numTrampoline = 0) ∧
      md' = { md with idxPatchBlk := md'.idxPatchBlk } ∧
      (md.oldFuncAddrMin ≠ 0 → md'.idxPatchBlk < patchBlks'.length) := by
  cases allocateModule_step h with
  | skip hzero => exact ⟨fun _ => .inl, rfl, fun hne => absurd hzero.1 hne⟩
  | shared hsome i hfind =>
      exact ⟨fun _ => .inl, rfl, fun _ => (List.findIdx?_eq_some_iff_getElem.mp hfind).1⟩
  | fresh hsome hfind i seg hseg hget hgap =>
      refine ⟨fun b hb => ?_, rfl, fun _ => ?_⟩
      · refine (List.mem_append.mp hb).imp_right fun hb => ?_
        rw [List.mem_singleton.mp hb]
      · rw [hidx, List.length_append, List.length_singleton]
        omega

/-- What the allocation leaves: empty pages, and the modules as they were but for their pages. -/
structure Allocated (patchBlks : List PatchBlock) (mods mods' : List ModulePatchInfo) : Prop where
  empty : ∀ b ∈ patchBlks, b.numTrampoline = 0
  modules : List.Forall₂ (fun md md' => md' = { md with idxPatchBlk := md'.idxPatchBlk } ∧
    (md.oldFuncAddrMin ≠ 0 → md'.idxPatchBlk < patchBlks.length)) mods mods'

/-- **Every module with a function has a page**, and the pages are empty. -/
theorem allocateBlocks_spec (hidx : ∀ md ∈ mods, md.idxPatchBlk = 0)
    (h : allocateBlocks segs patchBlks mods = some (patchBlks', mods'))
    (hempty : ∀ b ∈ patchBlks, b.numTrampoline = 0) : Allocated patchBlks' mods mods' := by
  induction mods generalizing patchBlks mods' with
  | nil =>
      obtain ⟨rfl, rfl⟩ := Prod.mk.inj (Option.some.inj h)
      exact ⟨hempty, .nil⟩
  | cons md mds ih =>
      obtain ⟨blks₁, md₁, mds₂, hmd, hrest, rfl⟩ := allocateBlocks_cons_iff.mp h
      obtain ⟨hempty₁, hsame, hlt⟩ := allocateModule_spec (hidx md (List.mem_cons_self ..)) hmd
      have hall := ih (fun m hm => hidx m (List.mem_cons_of_mem _ hm)) hrest
        fun b hb => (hempty₁ b hb).elim (hempty b) id
      refine ⟨hall.empty, .cons ⟨hsame, fun hne => ?_⟩ hall.modules⟩
      exact lt_of_lt_of_le (hlt hne) (allocateBlocks_keepsBlocks hrest).length_le

end

end Ooops
