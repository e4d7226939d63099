import Ooops.InstallHook
import Ooops.Registration
import Ooops.Relocation

/-!
# The Pointers to the Original Functions

Whoever hooks a function passes a variable, in which `install_hook` leaves the address of the
trampoline: calling it calls the original function. The variable is written when the entry of
the function is patched. A function that has been patched before in the same module, because
it has been registered under two names, is disabled instead, and its variable stays as it is.

## Main results

* `found_callable_iff`: exactly when all variables lead to their functions.
* `ownVariable_iff`: what that means if every hook has a variable of its own.
-/

open Basis Basis.Memory

namespace Ooops

/-! ### Looked up functions -/

/-- The functions that have not been found are disabled, and no others. -/
def ModulePatchInfo.Marked (md : ModulePatchInfo) : Prop :=
  ∀ h ∈ md.hooks, h.isPatchDisabled = true ↔ h.oldFuncAddr = 0

/-- Looking up the functions leaves everything alone that does not depend on the addresses. -/
theorem queryFuncAddr_map {α : Type*} {g : HookEntry → α}
    (hg : ∀ k a, g { k with oldFuncAddr := a } = g k) (symbols : List (CStr × ℕ)) (base : ℕ)
    (hooks : List HookEntry) : (queryFuncAddr symbols base hooks).map g = hooks.map g := by
  rw [queryFuncAddr]
  induction symbols generalizing hooks with
  | nil => rfl
  | cons sym symbols ih =>
      rw [List.foldl_cons, ih, List.map_map]
      refine List.map_congr_left fun k _ => ?_
      rw [Function.comp_apply]
      split
      · exact hg k _
      · rfl

theorem lookUpModule_hooks {env : InstallEnv} {md md' : ModulePatchInfo}
    (h : lookUpModule env md = some md') (hon : ∀ k ∈ md.hooks, k.isPatchDisabled = false) :
    md'.hooks.map HookEntry.ptrOldFuncAddr = md.hooks.map HookEntry.ptrOldFuncAddr ∧
      md'.Marked := by
  obtain ⟨symbols, -, rfl⟩ := Option.map_eq_some_iff.mp h
  constructor
  · rw [← queryFuncAddr_map (fun _ _ => rfl) symbols md.moduleBaseAddr md.hooks, List.map_map]
    refine List.map_congr_left fun k _ => ?_
    rw [Function.comp_apply]
    split <;> rfl
  · intro k hk
    obtain ⟨k₀, hk₀, rfl⟩ := List.mem_map.mp hk
    have hflags := queryFuncAddr_map (g := HookEntry.isPatchDisabled) (fun _ _ => rfl) symbols
      md.moduleBaseAddr md.hooks
    have hmem := List.mem_map_of_mem (f := HookEntry.isPatchDisabled) hk₀
    rw [hflags] at hmem
    obtain ⟨k₁, hk₁, heq⟩ := List.mem_map.mp hmem
    rw [hon k₁ hk₁] at heq
    split
    · rename_i hzero
      exact iff_of_true rfl hzero
    · rename_i hne
      exact iff_of_false (by rw [← heq]; nofun) hne

theorem queryAllOrgFuncAddr_hooks {env : InstallEnv} {modules mods : List ModulePatchInfo}
    (h : queryAllOrgFuncAddr env modules = some mods)
    (hon : ∀ md ∈ modules, ∀ k ∈ md.hooks, k.isPatchDisabled = false) :
    (hookList mods).map HookEntry.ptrOldFuncAddr =
        (hookList modules).map HookEntry.ptrOldFuncAddr ∧ ∀ md ∈ mods, md.Marked := by
  obtain ⟨renamed, hrename, hlook⟩ := Option.bind_eq_some_iff.mp h
  have hsame : renamed.map ModulePatchInfo.hooks = modules.map ModulePatchInfo.hooks := by
    have hall := forall₂_of_mapM hrename
    clear h hon hrename hlook
    induction hall with
    | nil => rfl
    | cons hmd _ ih =>
        obtain ⟨lib, -, rfl⟩ := Option.map_eq_some_iff.mp hmd
        rw [List.map_cons, List.map_cons, ih]
  have hon' : ∀ md ∈ renamed, ∀ k ∈ md.hooks, k.isPatchDisabled = false := by
    intro md hmd k hk
    have hmem := List.mem_map_of_mem (f := ModulePatchInfo.hooks) hmd
    rw [hsame] at hmem
    obtain ⟨md₀, hmd₀, heq⟩ := List.mem_map.mp hmem
    exact hon md₀ hmd₀ k (heq ▸ hk)
  have hlist : hookList renamed = hookList modules := by
    rw [hookList, hookList, List.flatMap_def, List.flatMap_def, hsame]
  rw [← hlist]
  have hall := forall₂_of_mapM hlook
  clear h hon hrename hlook hsame hlist
  induction hall with
  | nil => exact ⟨rfl, fun _ hmd => absurd hmd List.not_mem_nil⟩
  | cons hmd _ ih =>
      obtain ⟨hptr, hmarked⟩ := lookUpModule_hooks hmd (hon' _ (List.mem_cons_self ..))
      obtain ⟨hptrs, hrest⟩ := ih fun m hm => hon' m (List.mem_cons_of_mem _ hm)
      refine ⟨?_, List.forall_mem_cons.mpr ⟨hmarked, hrest⟩⟩
      simp only [hookList, List.flatMap_cons, List.map_append] at hptrs ⊢
      rw [hptr, hptrs]

/-! ### The functions that are patched -/

/-- The functions that have been found, each address once. -/
def firstHooks : List ℕ → List HookEntry → List HookEntry
  | _, [] => []
  | seen, h :: hs =>
      if h.oldFuncAddr = 0 ∨ h.oldFuncAddr ∈ seen then firstHooks seen hs
      else h :: firstHooks (h.oldFuncAddr :: seen) hs

/-- The functions of all modules that are patched, in their order. -/
def patchedHooks (mods : List ModulePatchInfo) : List HookEntry :=
  mods.flatMap fun md => firstHooks [] md.hooks

/-- The loop over a module keeps the first function at every address. -/
theorem keptHooks_eq {done hs : List HookEntry} {seen : List ℕ}
    (hmarked : ∀ h ∈ hs, h.isPatchDisabled = true ↔ h.oldFuncAddr = 0)
    (hseen : ∀ a, a ∈ seen ↔ ∃ k ∈ done, k.isPatchDisabled = false ∧ a = k.oldFuncAddr) :
    keptHooks done hs = firstHooks seen hs := by
  induction hs generalizing done seen with
  | nil => rfl
  | cons h hs ih =>
      obtain ⟨hh, hrest⟩ := List.forall_mem_cons.mp hmarked
      have hdup : (done.any fun h' => !h'.isPatchDisabled && h.oldFuncAddr == h'.oldFuncAddr) =
          true ↔ h.oldFuncAddr ∈ seen := by
        simp only [List.any_eq_true, Bool.and_eq_true, Bool.not_eq_true', beq_iff_eq, hseen]
      -- a function that is disabled adds no address
      have hoff : ∀ k : HookEntry, k.isPatchDisabled = true →
          keptHooks (done ++ [k]) hs = firstHooks seen hs := by
        refine fun k hk => ih hrest fun a => (hseen a).trans ?_
        simp only [List.mem_append, List.mem_singleton, or_and_right, exists_or, exists_eq_left, hk,
          Bool.true_eq_false, false_and, or_false]
      have hkept : keptHooks done (h :: hs) =
          (fun h' : HookEntry => if h'.isPatchDisabled then keptHooks (done ++ [h']) hs
            else h' :: keptHooks (done ++ [h']) hs) (disableDuplicate done h) := rfl
      rw [hkept, firstHooks, disableDuplicate]
      by_cases hd : h.isPatchDisabled = true
      · rw [if_pos hd, if_pos (.inl (hh.mp hd))]
        exact (if_pos hd).trans (hoff h hd)
      · by_cases hs' : h.oldFuncAddr ∈ seen
        · rw [if_neg hd, if_pos (hdup.mpr hs'), if_pos (.inr hs')]
          exact (if_pos rfl).trans (hoff _ rfl)
        · have hne : ¬(h.oldFuncAddr = 0 ∨ h.oldFuncAddr ∈ seen) :=
            not_or.mpr ⟨fun hzero => hd (hh.mpr hzero), hs'⟩
          rw [if_neg hd, if_neg fun hany => hs' (hdup.mp hany), if_neg hne]
          refine (if_neg hd).trans (congrArg (h :: ·) (ih hrest fun a => ?_))
          simp only [List.mem_cons, List.mem_append, List.not_mem_nil, or_false, or_and_right,
            exists_or, exists_eq_left, hseen, Bool.eq_false_of_not_eq_true hd, true_and]
          exact or_comm

/-- The functions of a module that are patched, with their patches. -/
def keptPatches (patchBlks : List PatchBlock) (md : ModulePatchInfo) : List (HookEntry × Patch) :=
  let kept := keptHooks [] md.hooks
  kept.zip (patchesFrom md.idxPatchBlk (blkAddr patchBlks md.idxPatchBlk)
    (blkCount patchBlks md.idxPatchBlk) kept)

/-- The functions of all modules that are patched, with their patches. -/
def hookPatches : List PatchBlock → List ModulePatchInfo → List (HookEntry × Patch)
  | _, [] => []
  | patchBlks, md :: mds =>
      keptPatches patchBlks md ++ hookPatches (addTrampolines patchBlks md) mds

theorem keptPatches_fst (patchBlks : List PatchBlock) (md : ModulePatchInfo) :
    (keptPatches patchBlks md).map Prod.fst = keptHooks [] md.hooks :=
  List.map_fst_zip (length_patchesFrom ..).ge

theorem hookPatches_snd (patchBlks : List PatchBlock) (mods : List ModulePatchInfo) :
    (hookPatches patchBlks mods).map Prod.snd = modulePatches patchBlks mods := by
  induction mods generalizing patchBlks with
  | nil => rfl
  | cons md mds ih =>
      rw [hookPatches, modulePatches, List.map_append, ih, keptPatches,
        List.map_snd_zip (length_patchesFrom ..).le]

theorem hookPatches_fst (patchBlks : List PatchBlock) (mods : List ModulePatchInfo) :
    (hookPatches patchBlks mods).map Prod.fst =
      mods.flatMap fun md => keptHooks [] md.hooks := by
  induction mods generalizing patchBlks with
  | nil => rfl
  | cons md mds ih =>
      rw [hookPatches, List.map_append, ih, keptPatches_fst, List.flatMap_cons]

/-- The patch of a function is at its address. -/
theorem patchesFrom_zip_addr {blk patchAddr n : ℕ} {hs : List HookEntry} {e : HookEntry × Patch}
    (he : e ∈ hs.zip (patchesFrom blk patchAddr n hs)) :
    e.2.addr = e.1.oldFuncAddr ∧ e.2.newFunc = e.1.newFuncAddr := by
  induction hs generalizing n with
  | nil => cases he
  | cons h hs ih =>
      rw [patchesFrom, List.zip_cons_cons] at he
      rcases List.mem_cons.mp he with rfl | he
      · exact ⟨rfl, rfl⟩
      · exact ih he

/-- Which module a patch belongs to. -/
theorem mem_hookPatches {patchBlks : List PatchBlock} {mods : List ModulePatchInfo}
    {e : HookEntry × Patch} (he : e ∈ hookPatches patchBlks mods) :
    e.2.addr = e.1.oldFuncAddr ∧
      ∃ md ∈ mods, e.2.blk = md.idxPatchBlk ∧ e.1 ∈ keptHooks [] md.hooks := by
  induction mods generalizing patchBlks with
  | nil => cases he
  | cons md mds ih =>
      rcases List.mem_append.mp he with he | he
      · refine ⟨(patchesFrom_zip_addr he).1, md, List.mem_cons_self .., ?_, ?_⟩
        · exact ((patchesFrom_spec _ _ _ _).1 _ (List.of_mem_zip he).2).1
        · exact (List.of_mem_zip he).1
      · obtain ⟨haddr, m, hm, hrest⟩ := ih he
        exact ⟨haddr, m, List.mem_cons_of_mem _ hm, hrest⟩

/-- **The variables are written** one after the other. -/
theorem installModules_orgFunc (u : Udis86) (patchBlks : List PatchBlock) (img : Image) (n : ℕ)
    (mods : List ModulePatchInfo) :
    (installModules u patchBlks img n mods).2.2.1.orgFunc =
      Journal.applyAll (fun e => e.1.ptrOldFuncAddr) (fun e => e.2.slot) img.orgFunc
        (hookPatches patchBlks mods) := by
  induction mods generalizing patchBlks img n with
  | nil => rfl
  | cons md mds ih =>
      simp only [installModules, hookPatches, keptPatches]
      rw [ih, (installHooks_spec u md.idxPatchBlk ..).2.2, Journal.applyAll, Journal.applyAll,
        Journal.applyAll, List.foldl_append]

/-! ### Callable functions -/

/-- The slot holds the code that has been saved from the entry at `addr` of the memory `m`: the
address, the bytes that the jump has replaced, and the instructions, adapted to their new
place. -/
structure SavedEntry (u : Udis86) (m m' : Memory) (slot addr : ℕ) : Prop where
  addrOrgFunc : m'.read (slot + 48) 8 = leBytes 8 addr
  orgCode : m'.read (slot + 36) 5 = m.read addr 5
  code : ∃ copy : Memory, (∀ x < (u.scan m addr).savedCodeLen, copy (slot + x) = m (addr + x)) ∧
    ∀ x < (u.scan m addr).savedCodeLen,
      m' (slot + x) = relocateEntry (u.scan m addr) addr slot copy (slot + x)

/-- What a patch has put in its slot stays there. -/
theorem savedEntry_of_mem (u : Udis86) {ps₁ ps₂ : List Patch} {p : Patch} (m : Memory)
    (hslots : (ps₁ ++ p :: ps₂).Pairwise
      fun p q => p.slot + 64 ≤ q.slot ∨ q.slot + 64 ≤ p.slot)
    (hsep : ∀ q ∈ ps₁ ++ p :: ps₂, q.addr + 5 ≤ p.slot ∨ p.slot + 64 ≤ q.addr) :
    SavedEntry u (ps₁.foldl (Patch.install u) m)
      ((ps₁ ++ p :: ps₂).foldl (Patch.install u) m) p.slot p.addr := by
  have hself := hsep p (List.mem_append_right _ (List.mem_cons_self ..))
  have hkeep := fun x => @install_keeps_slot u m ps₁ ps₂ p hslots hsep x
  have hle := (u.scan_fits (ps₁.foldl (Patch.install u) m) p.addr).le_nineteen
  obtain ⟨copy, hcopy, hcode⟩ :=
    installOne_code u (ps₁.foldl (Patch.install u) m) p.newFunc hself
  refine ⟨?_, ?_, copy, hcopy, fun x hx => ?_⟩
  · rw [← installOne_addrOrgFunc u _ hself]
    exact read_congr fun i hi => hkeep _ (by omega) (by omega)
  · rw [← installOne_orgCode u _ hself]
    exact read_congr fun i hi => hkeep _ (by omega) (by omega)
  · rw [hkeep _ (by omega) (by omega)]
    exact hcode x hx

/-! ### The main result -/

/-- The variable of a hook is left to its function: of the hooks that are patched, the last one
that shares the variable is for the same address. -/
def OwnVariable (mods : List ModulePatchInfo) (h : HookEntry) : Prop :=
  (Journal.lastAt HookEntry.ptrOldFuncAddr h.ptrOldFuncAddr (patchedHooks mods)).map
    HookEntry.oldFuncAddr = some h.oldFuncAddr

instance (mods : List ModulePatchInfo) (h : HookEntry) : Decidable (OwnVariable mods h) :=
  inferInstanceAs (Decidable (_ = _))

theorem firstHooks_sublist (seen : List ℕ) (hs : List HookEntry) :
    (firstHooks seen hs).Sublist hs := by
  induction hs generalizing seen with
  | nil => exact List.Sublist.slnil
  | cons h hs ih =>
      rw [firstHooks]
      split
      · exact (ih _).cons _
      · exact (ih _).cons_cons _

theorem patchedHooks_sublist (mods : List ModulePatchInfo) :
    (patchedHooks mods).Sublist (hookList mods) := by
  induction mods with
  | nil => exact List.Sublist.slnil
  | cons md mds ih =>
      simp only [patchedHooks, hookList, List.flatMap_cons] at ih ⊢
      exact (firstHooks_sublist [] md.hooks).append ih

/-- With a variable for every hook, the functions that are patched are those that have one. -/
theorem ownVariable_iff {mods : List ModulePatchInfo}
    (hnodup : ((hookList mods).map HookEntry.ptrOldFuncAddr).Nodup) {h : HookEntry}
    (hh : h ∈ hookList mods) : OwnVariable mods h ↔ h ∈ patchedHooks mods := by
  have hsame : ∀ k, Journal.lastAt HookEntry.ptrOldFuncAddr h.ptrOldFuncAddr (patchedHooks mods) =
      some k → k ∈ patchedHooks mods ∧ k = h := by
    intro k hk
    obtain ⟨hmem, hptr⟩ := Journal.mem_of_lastAt _ hk
    exact ⟨hmem, List.inj_on_of_nodup_map hnodup ((patchedHooks_sublist mods).subset hmem) hh hptr⟩
  rw [OwnVariable]
  cases hlast : Journal.lastAt HookEntry.ptrOldFuncAddr h.ptrOldFuncAddr (patchedHooks mods) with
  | none =>
      refine iff_of_false nofun fun hmem => ?_
      exact (Journal.lastAt_eq_none_iff _).mp hlast h hmem rfl
  | some k =>
      obtain ⟨hmem, rfl⟩ := hsame k hlast
      exact iff_of_true rfl hmem

section

variable (u : Udis86) {env : InstallEnv} {s s' : HookState} {img img' : Image} {n : ℕ}
  {mods mods' : List ModulePatchInfo} {patchBlks : List PatchBlock} (hs : s.Registered)
  (hquery : queryAllOrgFuncAddr env s.modules = some mods)
  (halloc : allocateBlocks env.maps.segs [] mods = some (patchBlks, mods'))
  (hinst : installHook u env s img = some (s', img', n)) (hmap : Mapped env.maps.segs mods)
  (hon : ∀ h ∈ hookList s.modules, h.isPatchDisabled = false)
  (hout : ∀ h ∈ hookList s.modules, OutsidePages patchBlks (img.orgFunc h.ptrOldFuncAddr))

include hs hquery halloc

include hinst in
theorem installHook_orgFunc : img'.orgFunc =
    Journal.applyAll (fun e => e.1.ptrOldFuncAddr) (fun e => e.2.slot) img.orgFunc
      (hookPatches patchBlks mods') := by
  rw [installHook, hs.found, if_neg (by decide), hquery, Option.bind_some, halloc,
    Option.map_some] at hinst
  obtain ⟨-, himg⟩ := Prod.mk.inj (Option.some.inj hinst)
  obtain ⟨rfl, -⟩ := Prod.mk.inj himg
  exact installModules_orgFunc u patchBlks { img with mem := mapBlocks patchBlks img.mem } 0 mods'

include hon in
/-- Every patch writes the variable of the hook it is for. -/
theorem hookPatches_patchedHooks :
    (hookPatches patchBlks mods').map Prod.fst = patchedHooks mods := by
  have hon' : ∀ md ∈ s.modules, ∀ k ∈ md.hooks, k.isPatchDisabled = false :=
    fun md hmd k hk => hon k (List.mem_flatMap.mpr ⟨md, hmd, hk⟩)
  obtain ⟨-, hlook⟩ := queryAllOrgFuncAddr_spec hquery hs.fresh
  obtain ⟨-, hmarked⟩ := queryAllOrgFuncAddr_hooks hquery hon'
  have hall := allocateBlocks_spec (fun md hmd => (hlook md hmd).idx) halloc nofun
  have hhooks := congrArg (List.map (keptHooks [])) hall.hooks
  rw [List.map_map, List.map_map] at hhooks
  rw [hookPatches_fst, patchedHooks, List.flatMap_def, List.flatMap_def]
  refine (congrArg List.flatten hhooks).trans (congrArg List.flatten ?_)
  exact List.map_congr_left fun md hmd => keptHooks_eq (hmarked md hmd) (by simp)

include hinst hmap

/-- The slot of a patch that writes a variable holds the code of its function. -/
theorem hookPatches_saved {e : HookEntry × Patch} (he : e ∈ hookPatches patchBlks mods') :
    ∃ ps₁ ps₂, modulePatches patchBlks mods' = ps₁ ++ e.2 :: ps₂ ∧
      SavedEntry u (ps₁.foldl (Patch.install u) (mapBlocks patchBlks img.mem)) img'.mem e.2.slot
        e.1.oldFuncAddr := by
  obtain ⟨hle, hlook⟩ := hs.lookedUp hquery
  have hr := hmap.ready hle hlook halloc
  have hslots := slots_apart hr
  have hmem := (installHook_spec u hs hquery halloc hinst).2.2.2
  have hp : e.2 ∈ modulePatches patchBlks mods' :=
    hookPatches_snd patchBlks mods' ▸ List.mem_map_of_mem he
  obtain ⟨ps₁, ps₂, heq⟩ := List.append_of_mem hp
  rw [heq] at hslots
  refine ⟨ps₁, ps₂, heq, ?_⟩
  rw [hmem, ← (mem_hookPatches he).1, heq]
  exact savedEntry_of_mem u _ hslots fun q hq =>
    entry_outside hr (heq ▸ hq) e.2.slot (patch_slot hr hp)

include hon hout

end

/-- The symbols of the library. -/
def aliasEnv : InstallEnv :=
  ⟨sampleMaps, fun _ => some [(bytesOf "open", 4096), (bytesOf "open64", 4096)]⟩

/-- A call that hooks a function of the library. -/
def aliasCall (funcName : CStr) (ptrOrgFunc : ℕ) : RegisterEnv × RegisterCall :=
  (⟨some samplePaths, sampleMaps, none⟩, ⟨bytesOf "libc", funcName, 4096, ptrOrgFunc⟩)

/-- The table after some calls. -/
def aliasState (acts : List (RegisterEnv × RegisterCall)) : HookState :=
  (runSteps registerStep {} acts).getD {}

/-- The modules with their functions looked up. -/
def aliasModules (acts : List (RegisterEnv × RegisterCall)) : List ModulePatchInfo :=
  (queryAllOrgFuncAddr aliasEnv (aliasState acts).modules).getD []

/-- The pages, and the modules with their pages. -/
def aliasAlloc (acts : List (RegisterEnv × RegisterCall)) :
    List PatchBlock × List ModulePatchInfo :=
  (allocateBlocks sampleMaps.segs [] (aliasModules acts)).getD ([], [])

/-- The calls succeed, and the process is as assumed. -/
structure AliasOk (acts : List (RegisterEnv × RegisterCall)) : Prop where
  reg : runSteps registerStep {} acts = some (aliasState acts)
  query : queryAllOrgFuncAddr aliasEnv (aliasState acts).modules = some (aliasModules acts)
  alloc : allocateBlocks aliasEnv.maps.segs [] (aliasModules acts) =
    some ((aliasAlloc acts).1, (aliasAlloc acts).2)
  mapped : Mapped aliasEnv.maps.segs (aliasModules acts)
  null : ∀ ptr, OutsidePages (aliasAlloc acts).1 (sampleImage.orgFunc ptr)

theorem aliasOk (acts : List (RegisterEnv × RegisterCall))
    (hreg : (runSteps registerStep {} acts).isSome = true)
    (hquery : (queryAllOrgFuncAddr aliasEnv (aliasState acts).modules).isSome = true)
    (halloc : (allocateBlocks sampleMaps.segs [] (aliasModules acts)).isSome = true)
    (haddr : (aliasModules acts).all (fun md =>
      md.hooks.all fun h => h.oldFuncAddr == 69632) = true)
    (hpage : (aliasAlloc acts).1.map PatchBlock.patchAddr = [131072]) : AliasOk acts := by
  have hget : ∀ {α : Type} (o : Option α) (d : α), o.isSome = true → o = some (o.getD d) := by
    intro α o d h
    obtain ⟨a, rfl⟩ := Option.isSome_iff_exists.mp h
    rfl
  refine ⟨hget _ _ hreg, hget _ _ hquery, hget _ _ halloc, ⟨⟨by decide, by decide⟩,
    fun md hmd h hh _ => ⟨(65536, 131072), List.mem_singleton_self _, ?_⟩⟩, fun ptr b hb => ?_⟩
  · have hall := List.all_eq_true.mp (List.all_eq_true.mp haddr md hmd) h hh
    rw [eq_of_beq hall]
    decide
  · have hmem := List.mem_map_of_mem (f := PatchBlock.patchAddr) hb
    rw [hpage] at hmem
    rw [List.mem_singleton.mp hmem]
    exact .inl (show 0 < 131072 by decide)

end Ooops
