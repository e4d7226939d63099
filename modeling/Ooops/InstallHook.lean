import Ooops.Basis.Journal
import Ooops.PatchPlacement

/-!
# Installing and Removing Hooks

`install_hook` looks up the functions to hook, maps the pages for the trampolines, and
patches the functions of one module after the other, skipping those that are disabled and
those of the same module that it has patched already. `uninstall_hook` goes through the
slots of all pages and writes back what each of them has saved.

The patches are edits of the entries of the functions (`Basis.Journal`), and the slots
keep what they have found. Nothing prevents that a function is patched twice if it is
registered for two modules of the table, which may stand for the same library.

## Main results

* `installModules_mem`: the installation makes the patches `modulePatches`.
* `modulePatches_spec`: every patch has a slot of its own.
* `uninstall_restores_iff`: exactly when the removal brings the memory back.
* `uninstall_restores`: it does if the modules have no function in common.
-/

open Basis Basis.Memory

namespace Ooops

/-! ### The code -/

/-- The memory and the variables that the addresses of the original functions are stored
in (`ptr_old_func_add_list`). -/
structure Image where
  mem : Memory
  orgFunc : ℕ → ℕ

/-- A function that is patched already in the same module is disabled. -/
def disableDuplicate (done : List HookEntry) (h : HookEntry) : HookEntry :=
  if h.isPatchDisabled then h
  else if done.any fun h' => !h'.isPatchDisabled && h.oldFuncAddr == h'.oldFuncAddr then
    { h with isPatchDisabled := true, oldFuncAddr := 0 }
  else h

/-- The loop over the functions of a module: those that are `done`, the index of the next
slot of the page, and the functions that are left. -/
def installHooks (u : Udis86) (patchAddr : ℕ) :
    List HookEntry → ℕ → Image → List HookEntry → List HookEntry × ℕ × Image
  | done, nFunc, img, [] => (done, nFunc, img)
  | done, nFunc, img, h :: hs =>
      let h := disableDuplicate done h
      if h.isPatchDisabled then installHooks u patchAddr (done ++ [h]) nFunc img hs
      else
        let slot := patchAddr + 64 * nFunc
        installHooks u patchAddr (done ++ [h]) (nFunc + 1)
          ⟨installOne u slot h.oldFuncAddr h.newFuncAddr img.mem,
            Function.update img.orgFunc h.ptrOldFuncAddr slot⟩ hs

/-- A page reserves a slot for every function of a module, the disabled ones included. -/
def addTrampolines (patchBlks : List PatchBlock) (md : ModulePatchInfo) : List PatchBlock :=
  patchBlks.modify md.idxPatchBlk fun b =>
    { b with numTrampoline := b.numTrampoline + md.hooks.length }

/-- The loop over the modules, with the number of hooks that have been installed. -/
def installModules (u : Udis86) : List PatchBlock → Image → ℕ → List ModulePatchInfo →
    List PatchBlock × List ModulePatchInfo × Image × ℕ
  | patchBlks, img, n, [] => (patchBlks, [], img, n)
  | patchBlks, img, n, md :: mds =>
      let start := blkCount patchBlks md.idxPatchBlk
      let r := installHooks u (blkAddr patchBlks md.idxPatchBlk) [] start img md.hooks
      let rest := installModules u (addTrampolines patchBlks md) r.2.2 (n + (r.2.1 - start)) mds
      (rest.1, { md with hooks := r.1 } :: rest.2.1, rest.2.2)

/-- The pages are mapped, and empty. -/
def mapBlocks (patchBlks : List PatchBlock) (m : Memory) : Memory :=
  patchBlks.foldl (fun m b => m.write b.patchAddr (List.replicate 4096 0)) m

/-- `install_hook`, with the number of hooks installed. -/
def installHook (u : Udis86) (env : InstallEnv) (s : HookState) (img : Image) :
    Option (HookState × Image × ℕ) :=
  if s.foundLibc = false then some (s, img, 0)
  else
    (queryAllOrgFuncAddr env s.modules).bind fun mods =>
      (allocateBlocks env.maps.segs [] mods).map fun r =>
        let res := installModules u r.1 { img with mem := mapBlocks r.1 img.mem } 0 r.2
        ({ s with maps := env.maps, patchBlks := res.1, modules := res.2.1 }, res.2.2)

/-- The loop body of `uninstall_hook`. A slot without a function in it is passed over. -/
def undoSlot (m : Memory) (slot : ℕ) : Memory :=
  let addrOrgFunc := ofLE (m.read (slot + 48) 8)
  if addrOrgFunc / 4096 = 0 then m else m.write addrOrgFunc (m.read (slot + 36) 5)

/-- `uninstall_hook`. The pages are unmapped in the end. -/
def uninstallHook (s : HookState) (m : Memory) : HookState × Memory :=
  if s.foundLibc = false then (s, m)
  else if s.isUninstalled then (s, m)
  else
    ({ s with
        isUninstalled := true
        patchBlks := s.patchBlks.map fun b => { b with patchAddr := 0 } },
      s.patchBlks.foldl (fun m b => (List.range b.numTrampoline).foldl
        (fun m iFunc => undoSlot m (b.patchAddr + 64 * iFunc)) m) m)

/-! ### The patches that are made -/

/-- A patch: slot `iFunc` of page `blk`, the function at `addr` and the new function. -/
structure Patch where
  blk : ℕ
  iFunc : ℕ
  slot : ℕ
  addr : ℕ
  newFunc : ℕ
  deriving DecidableEq

/-- The jump that a patch puts at the entry of its function. -/
def Patch.jump (p : Patch) : List UInt8 := jumpTo p.addr p.slot

/-- Make a patch. -/
def Patch.install (u : Udis86) (m : Memory) (p : Patch) : Memory :=
  installOne u p.slot p.addr p.newFunc m

/-- The functions of a module that are patched. -/
def keptHooks : List HookEntry → List HookEntry → List HookEntry
  | _, [] => []
  | done, h :: hs =>
      let h := disableDuplicate done h
      if h.isPatchDisabled then keptHooks (done ++ [h]) hs
      else h :: keptHooks (done ++ [h]) hs

/-- One slot after the other. -/
def patchesFrom (blk patchAddr : ℕ) : ℕ → List HookEntry → List Patch
  | _, [] => []
  | n, h :: hs =>
      ⟨blk, n, patchAddr + 64 * n, h.oldFuncAddr, h.newFuncAddr⟩ ::
        patchesFrom blk patchAddr (n + 1) hs

theorem length_patchesFrom (blk patchAddr n : ℕ) (hs : List HookEntry) :
    (patchesFrom blk patchAddr n hs).length = hs.length := by
  induction hs generalizing n with
  | nil => rfl
  | cons h hs ih => rw [patchesFrom, List.length_cons, List.length_cons, ih]

/-- The patches of all modules. -/
def modulePatches : List PatchBlock → List ModulePatchInfo → List Patch
  | _, [] => []
  | patchBlks, md :: mds =>
      patchesFrom md.idxPatchBlk (blkAddr patchBlks md.idxPatchBlk)
          (blkCount patchBlks md.idxPatchBlk) (keptHooks [] md.hooks) ++
        modulePatches (addTrampolines patchBlks md) mds

/-- The slots of the pages, in the order in which they are visited by `uninstall_hook`. -/
def slotsOf (patchBlks : List PatchBlock) : List ℕ :=
  patchBlks.flatMap fun b => (List.range b.numTrampoline).map fun iFunc => b.patchAddr + 64 * iFunc

/-- The patches in the order of a list of slots. -/
def patchesAt (ps : List Patch) (slots : List ℕ) : List Patch :=
  slots.filterMap fun slot => ps.find? fun p => p.slot = slot

/-- The patches that are undone when some slots are visited. A function on the page at the
address `0` is passed over, like an empty slot. -/
def undoneAt (ps : List Patch) (slots : List ℕ) : List Patch :=
  (patchesAt ps slots).filter fun p => 4096 ≤ p.addr

/-- The patches in the order in which they are undone. -/
def undoOrder (patchBlks : List PatchBlock) (ps : List Patch) : List Patch :=
  undoneAt ps (slotsOf patchBlks)

/-- What the loop over the functions of a module does: the index of the next slot has moved by
those that are left enabled, and each of these gets its patch and its variable the slot. -/
theorem installHooks_spec (u : Udis86) (blk patchAddr : ℕ) (done : List HookEntry) (n : ℕ)
    (img : Image) (hs : List HookEntry) :
    (installHooks u patchAddr done n img hs).2.1 = n + (keptHooks done hs).length ∧
      (installHooks u patchAddr done n img hs).2.2.mem =
        (patchesFrom blk patchAddr n (keptHooks done hs)).foldl (Patch.install u) img.mem ∧
      (installHooks u patchAddr done n img hs).2.2.orgFunc =
        Journal.applyAll (fun e => e.1.ptrOldFuncAddr) (fun e => e.2.slot) img.orgFunc
          ((keptHooks done hs).zip (patchesFrom blk patchAddr n (keptHooks done hs))) := by
  induction hs generalizing done n img with
  | nil => exact ⟨rfl, rfl, rfl⟩
  | cons h hs ih =>
      simp only [installHooks, keptHooks]
      split
      · exact ih _ _ _
      · obtain ⟨hnext, hmem, horg⟩ := ih (done ++ [disableDuplicate done h]) (n + 1) _
        rw [hnext, hmem, horg, List.length_cons]
        exact ⟨by omega, rfl, rfl⟩

/-- **The installation makes the patches** one after the other. -/
theorem installModules_mem (u : Udis86) (patchBlks : List PatchBlock) (img : Image) (n : ℕ)
    (mods : List ModulePatchInfo) :
    (installModules u patchBlks img n mods).2.2.1.mem =
        (modulePatches patchBlks mods).foldl (Patch.install u) img.mem ∧
      (installModules u patchBlks img n mods).1 = mods.foldl addTrampolines patchBlks := by
  induction mods generalizing patchBlks img n with
  | nil => exact ⟨rfl, rfl⟩
  | cons md mds ih =>
      simp only [installModules, modulePatches, List.foldl_append, List.foldl_cons]
      rw [← (installHooks_spec u md.idxPatchBlk ..).2.1]
      exact ih _ _ _

/-- The removal goes through the slots one after the other. -/
theorem uninstallHook_mem {s : HookState} (hf : s.foundLibc = true)
    (hu : s.isUninstalled = false) (m : Memory) :
    (uninstallHook s m).2 = (slotsOf s.patchBlks).foldl undoSlot m := by
  have hflat : ∀ (bs : List PatchBlock) (m : Memory),
      bs.foldl (fun m b => (List.range b.numTrampoline).foldl
        (fun m iFunc => undoSlot m (b.patchAddr + 64 * iFunc)) m) m =
      (slotsOf bs).foldl undoSlot m := by
    intro bs
    induction bs with
    | nil => exact fun _ => rfl
    | cons b bs ih =>
        intro m
        rw [List.foldl_cons, ih]
        simp only [slotsOf, List.flatMap_cons, List.foldl_append, List.foldl_map]
  rw [uninstallHook, hf, hu, if_neg nofun, if_neg nofun]
  exact hflat _ _

/-! ### The places of the patches -/

theorem blkAddr_addTrampolines (patchBlks : List PatchBlock) (md : ModulePatchInfo) (i : ℕ) :
    blkAddr (addTrampolines patchBlks md) i = blkAddr patchBlks i := by
  rw [blkAddr, blkAddr, addTrampolines, List.getElem?_modify]
  cases patchBlks[i]? with
  | none => rfl
  | some b =>
      simp only [Option.map_some, Option.getD_some]
      split <;> rfl

theorem blkCount_addTrampolines {patchBlks : List PatchBlock} {i : ℕ}
    (hi : i < patchBlks.length) (md : ModulePatchInfo) :
    blkCount (addTrampolines patchBlks md) i =
      blkCount patchBlks i + if md.idxPatchBlk = i then md.hooks.length else 0 := by
  rw [blkCount, blkCount, addTrampolines, List.getElem?_modify, List.getElem?_eq_getElem hi]
  simp only [Option.map_some, Option.getD_some]
  split <;> rfl

theorem length_addTrampolines (patchBlks : List PatchBlock) (md : ModulePatchInfo) :
    (addTrampolines patchBlks md).length = patchBlks.length :=
  List.length_modify ..

/-- A function that stays enabled is left alone. -/
theorem disableDuplicate_of_enabled {done : List HookEntry} {h : HookEntry}
    (hon : (disableDuplicate done h).isPatchDisabled = false) : disableDuplicate done h = h := by
  rw [disableDuplicate] at hon ⊢
  split at hon
  · rename_i hoff
    rw [if_pos hoff]
  · rename_i hoff
    split at hon
    · cases hon
    · rename_i hdup
      rw [if_neg hoff, if_neg hdup]

/-- A function that is kept is one of the module, and enabled. -/
theorem mem_of_keptHooks {done hs : List HookEntry} {h : HookEntry} (hh : h ∈ keptHooks done hs) :
    h ∈ hs ∧ h.isPatchDisabled = false := by
  induction hs generalizing done with
  | nil => cases hh
  | cons k hs ih =>
      have hrest : ∀ {done}, h ∈ keptHooks done hs →
          h ∈ k :: hs ∧ h.isPatchDisabled = false := fun hk =>
        ⟨List.mem_cons_of_mem _ (ih hk).1, (ih hk).2⟩
      simp only [keptHooks] at hh
      split at hh
      · exact hrest hh
      · rename_i henabled
        rcases List.mem_cons.mp hh with rfl | hh
        · have hon := Bool.eq_false_of_not_eq_true henabled
          have hsame := disableDuplicate_of_enabled hon
          exact ⟨by rw [hsame]; exact List.mem_cons_self .., hon⟩
        · exact hrest hh

theorem length_keptHooks (done hs : List HookEntry) : (keptHooks done hs).length ≤ hs.length := by
  induction hs generalizing done with
  | nil => exact le_rfl
  | cons k hs ih =>
      simp only [keptHooks]
      split
      · exact (ih _).trans (Nat.le_succ _)
      · exact Nat.succ_le_succ (ih _)

/-- The slots of a page that the functions `hs` take from `n` on. -/
theorem patchesFrom_spec (blk patchAddr n : ℕ) (hs : List HookEntry) :
    (∀ p ∈ patchesFrom blk patchAddr n hs, p.blk = blk ∧ n ≤ p.iFunc ∧
      p.iFunc < n + hs.length ∧ p.slot = patchAddr + 64 * p.iFunc ∧
      ∃ h ∈ hs, p.addr = h.oldFuncAddr) ∧
    (patchesFrom blk patchAddr n hs).Pairwise fun p q => p.blk = q.blk → p.iFunc < q.iFunc := by
  induction hs generalizing n with
  | nil => exact ⟨nofun, .nil⟩
  | cons h hs ih =>
      obtain ⟨hplace, hpair⟩ := ih (n + 1)
      refine ⟨fun p hp => ?_, ?_⟩
      · rcases List.mem_cons.mp hp with rfl | hp
        · exact ⟨rfl, le_rfl, by rw [List.length_cons]; dsimp only; omega, rfl, h,
            List.mem_cons_self .., rfl⟩
        · obtain ⟨hblk, hle, hlt, hslot, k, hk, haddr⟩ := hplace p hp
          exact ⟨hblk, by omega, by rw [List.length_cons]; omega, hslot, k,
            List.mem_cons_of_mem _ hk, haddr⟩
      · refine List.pairwise_cons.mpr ⟨fun q hq _ => ?_, hpair⟩
        have := (hplace q hq).2.1
        dsimp only
        omega

/-- **Every patch has a slot of its own**, among those that its page has reserved. -/
theorem modulePatches_spec (patchBlks : List PatchBlock) (mods : List ModulePatchInfo)
    (hidx : ∀ md ∈ mods, ∀ h ∈ md.hooks, h.isPatchDisabled = false →
      md.idxPatchBlk < patchBlks.length) :
    (∀ p ∈ modulePatches patchBlks mods, p.blk < patchBlks.length ∧
      blkCount patchBlks p.blk ≤ p.iFunc ∧
      p.iFunc < blkCount (mods.foldl addTrampolines patchBlks) p.blk ∧
      p.slot = blkAddr patchBlks p.blk + 64 * p.iFunc ∧
      ∃ md ∈ mods, ∃ h ∈ md.hooks, h.isPatchDisabled = false ∧ p.addr = h.oldFuncAddr) ∧
    (modulePatches patchBlks mods).Pairwise (fun p q => p.blk = q.blk → p.iFunc < q.iFunc) ∧
    (∀ i < patchBlks.length, blkCount patchBlks i ≤
        blkCount (mods.foldl addTrampolines patchBlks) i ∧
      blkCount (mods.foldl addTrampolines patchBlks) i ≤
        blkCount patchBlks i + countHooks mods) := by
  induction mods generalizing patchBlks with
  | nil => exact ⟨nofun, .nil, fun i _ => ⟨le_rfl, Nat.le_add_right _ _⟩⟩
  | cons md mds ih =>
      have hlen := length_addTrampolines patchBlks md
      have hadd := fun i (hi : i < patchBlks.length) => blkCount_addTrampolines hi md
      have hrest := ih (addTrampolines patchBlks md) fun m hm h hh henabled => by
        rw [hlen]
        exact hidx m (List.mem_cons_of_mem _ hm) h hh henabled
      simp only [blkAddr_addTrampolines, hlen] at hrest
      obtain ⟨hplace, hpair, hcount⟩ := hrest
      obtain ⟨hplace₁, hpair₁⟩ := patchesFrom_spec md.idxPatchBlk
        (blkAddr patchBlks md.idxPatchBlk) (blkCount patchBlks md.idxPatchBlk)
        (keptHooks [] md.hooks)
      have hkept := length_keptHooks [] md.hooks
      refine ⟨fun p hp => ?_, ?_, fun i hi => ?_⟩
      · rw [modulePatches] at hp
        rcases List.mem_append.mp hp with hp | hp
        · obtain ⟨hblk, hle, hlt, hslot, h, hh, haddr⟩ := hplace₁ p hp
          obtain ⟨hmem, henabled⟩ := mem_of_keptHooks hh
          have hin := hidx md (List.mem_cons_self ..) h hmem henabled
          have hmore := (hcount _ hin).1
          rw [hadd _ hin, if_pos rfl] at hmore
          rw [hblk, List.foldl_cons]
          exact ⟨hin, hle, by omega, hslot, md, List.mem_cons_self .., h, hmem, henabled, haddr⟩
        · obtain ⟨hin, hle, hlt, hslot, m, hm, hrest⟩ := hplace p hp
          have := hadd _ hin
          exact ⟨hin, by omega, hlt, hslot, m, List.mem_cons_of_mem _ hm, hrest⟩
      · rw [modulePatches, List.pairwise_append]
        refine ⟨hpair₁, hpair, fun p hp q hq heq => ?_⟩
        obtain ⟨hblk, -, hlt, -⟩ := hplace₁ p hp
        obtain ⟨hin, hle, -⟩ := hplace q hq
        rw [hadd _ hin, if_pos (hblk.symm.trans heq), ← heq, hblk] at hle
        omega
      · obtain ⟨hlow, hhigh⟩ := hcount i hi
        have hstep := hadd i hi
        have htotal : countHooks (md :: mds) = md.hooks.length + countHooks mds := by
          rw [countHooks, List.map_cons, List.sum_cons, countHooks]
        rw [List.foldl_cons, htotal]
        split at hstep <;> omega

/-! ### The patches as edits -/

/-- The slots are apart, and the entries are apart from each other and from the slots. -/
structure Placed (ps : List Patch) : Prop where
  slots : ps.Pairwise fun p q => p.slot + 64 ≤ q.slot ∨ q.slot + 64 ≤ p.slot
  entries : ∀ p ∈ ps, ∀ q ∈ ps, p.addr = q.addr ∨ p.addr + 5 ≤ q.addr ∨ q.addr + 5 ≤ p.addr
  sep : ∀ p ∈ ps, ∀ q ∈ ps, p.addr + 5 ≤ q.slot ∨ q.slot + 64 ≤ p.addr

/-- What stands at an entry. -/
def entryAt (m : Memory) (addr : ℕ) : List UInt8 := m.read addr 5

theorem Placed.left {ps qs : List Patch} (h : Placed (ps ++ qs)) : Placed ps where
  slots := (List.pairwise_append.mp h.slots).1
  entries p hp q hq := h.entries p (List.mem_append_left _ hp) q (List.mem_append_left _ hq)
  sep p hp q hq := h.sep p (List.mem_append_left _ hp) q (List.mem_append_left _ hq)

section

variable (u : Udis86) {ps : List Patch} {m : Memory}

/-- The patches write their slots and entries only. -/
theorem install_outside {x : ℕ} (h : ∀ p ∈ ps, (x < p.slot ∨ p.slot + 64 ≤ x) ∧
    (x < p.addr ∨ p.addr + 5 ≤ x)) : ps.foldl (Patch.install u) m x = m x := by
  induction ps generalizing m with
  | nil => rfl
  | cons p ps ih =>
      obtain ⟨hslot, haddr⟩ := h p (List.mem_cons_self ..)
      rw [List.foldl_cons, ih fun q hq => h q (List.mem_cons_of_mem _ hq), Patch.install,
        installOne_outside u m hslot haddr]

/-- **To the entries, the patches are edits.** -/
theorem install_entryAt (hps : Placed ps) {a : ℕ}
    (ha : ∀ p ∈ ps, (p.addr = a ∨ p.addr + 5 ≤ a ∨ a + 5 ≤ p.addr) ∧
      (a + 5 ≤ p.slot ∨ p.slot + 64 ≤ a)) :
    entryAt (ps.foldl (Patch.install u) m) a =
      Journal.applyAll Patch.addr Patch.jump (entryAt m) ps a := by
  induction ps using List.reverseRecOn with
  | nil => rfl
  | append_singleton ps p ih =>
      have hrest := ih hps.left fun q hq => ha q (List.mem_append_left _ hq)
      obtain ⟨haddr, hslot⟩ := ha p (List.mem_append_right _ (List.mem_singleton_self p))
      rw [List.foldl_append, List.foldl_cons, List.foldl_nil, Journal.applyAll_concat]
      rcases haddr with rfl | haddr
      · rw [Function.update_self]
        exact installOne_entry u _
      · rw [Function.update_of_ne (by omega), ← hrest]
        exact read_congr fun i hi => installOne_outside u _ (by omega) (by omega)

/-- What a patch has put in its slot stays there. -/
theorem install_keeps_slot {ps₁ ps₂ : List Patch} {p : Patch}
    (hslots : (ps₁ ++ p :: ps₂).Pairwise
      fun p q => p.slot + 64 ≤ q.slot ∨ q.slot + 64 ≤ p.slot)
    (hsep : ∀ q ∈ ps₁ ++ p :: ps₂, q.addr + 5 ≤ p.slot ∨ p.slot + 64 ≤ q.addr) {x : ℕ}
    (hx : p.slot ≤ x) (hx' : x < p.slot + 64) :
    (ps₁ ++ p :: ps₂).foldl (Patch.install u) m x =
      Patch.install u (ps₁.foldl (Patch.install u) m) p x := by
  rw [List.foldl_append, List.foldl_cons]
  refine install_outside u fun q hq => ?_
  have hapart := (List.pairwise_cons.mp (List.pairwise_append.mp hslots).2.1).1 q hq
  have := hsep q (List.mem_append_right _ (List.mem_cons_of_mem _ hq))
  omega

/-- **Every slot keeps what was at its entry**, and the address. -/
theorem install_slot {ps₁ ps₂ : List Patch} {p : Patch} (hps : Placed (ps₁ ++ p :: ps₂)) :
    ((ps₁ ++ p :: ps₂).foldl (Patch.install u) m).read (p.slot + 36) 5 =
        Journal.applyAll Patch.addr Patch.jump (entryAt m) ps₁ p.addr ∧
      ((ps₁ ++ p :: ps₂).foldl (Patch.install u) m).read (p.slot + 48) 8 = leBytes 8 p.addr := by
  have hp : p ∈ ps₁ ++ p :: ps₂ := List.mem_append_right _ (List.mem_cons_self ..)
  have hsep := hps.sep p hp p hp
  have hkeep := fun x => @install_keeps_slot u m ps₁ ps₂ p hps.slots
    (fun q hq => hps.sep q hq p hp) x
  have hentry := install_entryAt u (m := m) hps.left (a := p.addr) fun q hq =>
    have hq : q ∈ ps₁ ++ p :: ps₂ := List.mem_append_left _ hq
    ⟨hps.entries q hq p hp, hps.sep p hp q hq⟩
  constructor
  · rw [← hentry, entryAt, ← installOne_orgCode u _ hsep]
    exact read_congr fun i hi => hkeep _ (by omega) (by omega)
  · rw [← installOne_addrOrgFunc u _ hsep]
    exact read_congr fun i hi => hkeep _ (by omega) (by omega)

end

/-! ### Undoing the patches -/

/-- What the removal finds in the slots: for every patch its address and what it has saved,
and nothing in the slots that are not used. -/
structure Kept (ps : List Patch) (saved : Patch → List UInt8) (slots : List ℕ)
    (m : Memory) : Prop where
  addr : ∀ p ∈ ps, m.read (p.slot + 48) 8 = leBytes 8 p.addr
  code : ∀ p ∈ ps, m.read (p.slot + 36) 5 = saved p
  free : ∀ slot ∈ slots, (∀ p ∈ ps, p.slot ≠ slot) → ofLE (m.read (slot + 48) 8) = 0
  lt : ∀ p ∈ ps, p.addr < 2 ^ 64
  sep : ∀ p ∈ ps, ∀ slot ∈ slots, p.addr + 5 ≤ slot ∨ slot + 64 ≤ p.addr

section

variable {ps : List Patch} {saved : Patch → List UInt8} {slots : List ℕ} {m m' : Memory}

/-- A slot undoes its patch, unless it is passed over. -/
theorem undoSlot_eq (h : Kept ps saved slots m) {slot : ℕ} (hslot : slot ∈ slots)
    (hsame : ∀ x, slot ≤ x → x < slot + 64 → m' x = m x) :
    undoSlot m' slot =
      match ps.find? fun p => p.slot = slot with
      | some p => if 4096 ≤ p.addr then m'.write p.addr (saved p) else m'
      | none => m' := by
  have haddr : m'.read (slot + 48) 8 = m.read (slot + 48) 8 :=
    read_congr fun i hi => hsame _ (by omega) (by omega)
  have hcode : m'.read (slot + 36) 5 = m.read (slot + 36) 5 :=
    read_congr fun i hi => hsame _ (by omega) (by omega)
  cases hfind : ps.find? fun p => p.slot = slot with
  | none =>
      have hzero := h.free slot hslot fun p hp heq => by
        have := List.find?_eq_none.mp hfind p hp
        simp only [heq, decide_true, not_true_eq_false] at this
      simp only [undoSlot, haddr, hzero, Nat.zero_div, if_true]
  | some p =>
      have hp := List.mem_of_find?_eq_some hfind
      have heq := List.find?_some hfind
      obtain rfl : p.slot = slot := of_decide_eq_true heq
      have hval : ofLE (m'.read (p.slot + 48) 8) = p.addr := by
        rw [haddr, h.addr p hp, ofLE_leBytes]
        exact Nat.mod_eq_of_lt (h.lt p hp)
      simp only [undoSlot, hval, hcode, h.code p hp]
      by_cases hlow : 4096 ≤ p.addr
      · rw [if_pos hlow, if_neg (by omega)]
      · rw [if_neg hlow, if_pos (by omega)]

/-- **The removal writes back what the slots have saved**, and nothing else. -/
theorem undo_writes (h : Kept ps saved slots m) (hlen : ∀ p ∈ ps, (saved p).length = 5)
    {rest : List ℕ} (hrest : ∀ slot ∈ rest, slot ∈ slots)
    (hsame : ∀ slot ∈ slots, ∀ x, slot ≤ x → x < slot + 64 → m' x = m x) :
    rest.foldl undoSlot m' =
      (undoneAt ps rest).foldl (fun m p => m.write p.addr (saved p)) m' := by
  induction rest generalizing m' with
  | nil => rfl
  | cons slot rest ih =>
      have hslot := hrest slot (List.mem_cons_self ..)
      have hrest' : ∀ s ∈ rest, s ∈ slots := fun s hs => hrest s (List.mem_cons_of_mem _ hs)
      rw [List.foldl_cons, undoSlot_eq h hslot (hsame slot hslot), undoneAt, patchesAt,
        List.filterMap_cons]
      cases hfind : ps.find? fun p => p.slot = slot with
      | none => exact ih hrest' hsame
      | some p =>
          dsimp only
          by_cases hlow : 4096 ≤ p.addr
          · have hp := List.mem_of_find?_eq_some hfind
            have hl := hlen p hp
            rw [List.filter_cons, if_pos (decide_eq_true hlow), List.foldl_cons, if_pos hlow]
            refine ih hrest' fun s hs x hx hx' => ?_
            have := h.sep p hp s hs
            exact (write_of_outside (by omega)).trans (hsame s hs x hx hx')
          · rw [if_neg hlow, List.filter_cons,
              if_neg (by simpa only [decide_eq_true_eq] using hlow)]
            exact ih hrest' hsame

/-- **To the entries, writing back is a list of edits**, and it changes nothing else. -/
theorem writes_entryAt (hps : Placed ps) (hlen : ∀ p ∈ ps, (saved p).length = 5)
    {qs : List Patch} (hqs : ∀ q ∈ qs, q ∈ ps) :
    (∀ q ∈ ps, entryAt (qs.foldl (fun m p => m.write p.addr (saved p)) m') q.addr =
      Journal.applyAll Patch.addr saved (entryAt m') qs q.addr) ∧
    ∀ x, (∀ q ∈ ps, x < q.addr ∨ q.addr + 5 ≤ x) →
      qs.foldl (fun m p => m.write p.addr (saved p)) m' x = m' x := by
  induction qs generalizing m' with
  | nil => exact ⟨fun _ _ => rfl, fun _ _ => rfl⟩
  | cons p qs ih =>
      have hp := hqs p (List.mem_cons_self ..)
      have hl := hlen p hp
      obtain ⟨hentry, hout⟩ := @ih (m'.write p.addr (saved p)) fun q hq =>
        hqs q (List.mem_cons_of_mem _ hq)
      refine ⟨fun q hq => ?_, fun x hx => ?_⟩
      · have hstep : entryAt (m'.write p.addr (saved p)) q.addr =
            Function.update (entryAt m') p.addr (saved p) q.addr := by
          rcases hps.entries p hp q hq with heq | hapart
          · have hself := read_write_self m' p.addr (saved p)
            rw [hl] at hself
            rw [← heq, Function.update_self]
            exact hself
          · rw [Function.update_of_ne (by omega)]
            exact read_write_of_disjoint (by omega)
        exact (hentry q hq).trans (Journal.applyAll_congr Patch.addr hstep)
      · have := hx p hp
        rw [List.foldl_cons, hout x hx, write_of_outside (by omega)]

end

/-- The patches that are undone are those that have been made. -/
theorem mem_patchesAt {ps : List Patch} {slots : List ℕ}
    (hapart : ps.Pairwise fun p q => p.slot + 64 ≤ q.slot ∨ q.slot + 64 ≤ p.slot)
    (hslots : ∀ p ∈ ps, p.slot ∈ slots) (p : Patch) : p ∈ patchesAt ps slots ↔ p ∈ ps := by
  simp only [patchesAt, List.mem_filterMap]
  constructor
  · rintro ⟨slot, -, hfind⟩
    exact List.mem_of_find?_eq_some hfind
  · intro hp
    refine ⟨p.slot, hslots p hp, ?_⟩
    obtain ⟨ps₁, ps₂, rfl⟩ := List.append_of_mem hp
    have hbefore : ∀ q ∈ ps₁, (!decide (q.slot = p.slot)) = true := by
      intro q hq
      have := (List.pairwise_append.mp hapart).2.2 q hq p (List.mem_cons_self ..)
      rw [Bool.not_eq_true', decide_eq_false_iff_not]
      omega
    exact List.find?_eq_some_iff_append.mpr ⟨decide_eq_true rfl, ps₁, ps₂, rfl, hbefore⟩

/-- **When the removal brings the entries back**, which are all that it writes. -/
theorem remove_iff (u : Udis86) {ps : List Patch} {slots : List ℕ} {m : Memory}
    (hps : Placed ps) (hslots : ∀ p ∈ ps, p.slot ∈ slots) (hlt : ∀ p ∈ ps, p.addr < 2 ^ 64)
    (hsep : ∀ p ∈ ps, ∀ slot ∈ slots, p.addr + 5 ≤ slot ∨ slot + 64 ≤ p.addr)
    (hfree : ∀ slot ∈ slots, (∀ p ∈ ps, p.slot ≠ slot) →
      ofLE ((ps.foldl (Patch.install u) m).read (slot + 48) 8) = 0) :
    ((∀ p ∈ ps, entryAt (slots.foldl undoSlot (ps.foldl (Patch.install u) m)) p.addr =
        entryAt m p.addr) ↔
      Journal.Restoring Patch.addr Patch.jump (entryAt m) ps (undoneAt ps slots)) ∧
    ∀ x, (∀ p ∈ ps, x < p.addr ∨ p.addr + 5 ≤ x) →
      slots.foldl undoSlot (ps.foldl (Patch.install u) m) x =
        ps.foldl (Patch.install u) m x := by
  set saved : Patch → List UInt8 := fun p =>
    (ps.foldl (Patch.install u) m).read (p.slot + 36) 5 with hsaved
  have hsaves : Journal.Saves Patch.addr Patch.jump saved (entryAt m) ps := by
    rintro ps₁ p ps₂ heq
    rw [hsaved]
    dsimp only
    rw [heq]
    exact (install_slot u (heq ▸ hps)).1
  have hkept : Kept ps saved slots (ps.foldl (Patch.install u) m) :=
    { addr := fun p hp => by
        obtain ⟨ps₁, ps₂, heq⟩ := List.append_of_mem hp
        rw [heq]
        exact (install_slot u (heq ▸ hps)).2
      code := fun _ _ => rfl
      free := hfree
      lt := hlt
      sep := hsep }
  have hlen : ∀ p ∈ ps, (saved p).length = 5 := fun p _ => length_read _ _ _
  have hmem : ∀ q ∈ undoneAt ps slots, q ∈ ps := fun q hq =>
    (mem_patchesAt hps.slots hslots q).mp (List.mem_of_mem_filter hq)
  have hwrites := undo_writes hkept hlen (fun _ h => h) fun _ _ _ _ _ => rfl
  obtain ⟨hundo, hframe⟩ := @writes_entryAt _ _ (ps.foldl (Patch.install u) m) hps hlen _ hmem
  rw [hwrites]
  refine ⟨?_, hframe⟩
  have hinstall : ∀ p ∈ ps, entryAt (ps.foldl (Patch.install u) m) p.addr =
      Journal.applyAll Patch.addr Patch.jump (entryAt m) ps p.addr := fun p hp =>
    install_entryAt u hps fun q hq => ⟨hps.entries q hq p hp, hps.sep p hp q hq⟩
  have hentry : ∀ p ∈ ps,
      entryAt ((undoneAt ps slots).foldl (fun m p => m.write p.addr (saved p))
          (ps.foldl (Patch.install u) m)) p.addr =
      Journal.applyAll Patch.addr saved
        (Journal.applyAll Patch.addr Patch.jump (entryAt m) ps) (undoneAt ps slots) p.addr :=
    fun p hp => (hundo p hp).trans (Journal.applyAll_congr Patch.addr (hinstall p hp))
  rw [← Journal.undo_at_iff Patch.addr hsaves hmem]
  exact forall₂_congr fun p hp => by rw [hentry p hp]

/-! ### The pages -/

section

variable {patchBlks : List PatchBlock}

theorem foldl_addTrampolines (mods : List ModulePatchInfo) (patchBlks : List PatchBlock) :
    (mods.foldl addTrampolines patchBlks).length = patchBlks.length ∧
      ∀ i, blkAddr (mods.foldl addTrampolines patchBlks) i = blkAddr patchBlks i := by
  induction mods generalizing patchBlks with
  | nil => exact ⟨rfl, fun _ => rfl⟩
  | cons md mds ih =>
      obtain ⟨hlen, haddr⟩ := ih (addTrampolines patchBlks md)
      exact ⟨hlen.trans (length_addTrampolines patchBlks md),
        fun i => (haddr i).trans (blkAddr_addTrampolines patchBlks md i)⟩

/-- The slots of the pages. -/
theorem mem_slotsOf {slot : ℕ} : slot ∈ slotsOf patchBlks ↔
    ∃ i < patchBlks.length, ∃ k < blkCount patchBlks i,
      slot = blkAddr patchBlks i + 64 * k := by
  simp only [slotsOf, List.mem_flatMap, List.mem_map, List.mem_range]
  constructor
  · rintro ⟨b, hb, k, hk, rfl⟩
    obtain ⟨i, hi⟩ := List.mem_iff_getElem?.mp hb
    refine ⟨i, (List.getElem?_eq_some_iff.mp hi).1, k, ?_, ?_⟩
    · rwa [blkCount, hi]
    · rw [blkAddr, hi]
      rfl
  · rintro ⟨i, hi, k, hk, rfl⟩
    have hget := List.getElem?_eq_getElem hi
    refine ⟨patchBlks[i], List.getElem_mem hi, k, ?_, ?_⟩
    · rwa [blkCount, hget] at hk
    · rw [blkAddr, hget]
      rfl

/-- The pages are apart from each other. -/
def PagesApart (patchBlks : List PatchBlock) : Prop :=
  patchBlks.Pairwise fun b b' =>
    b.patchAddr + 4096 ≤ b'.patchAddr ∨ b'.patchAddr + 4096 ≤ b.patchAddr

theorem PagesApart.blkAddr (h : PagesApart patchBlks) {i j : ℕ} (hi : i < patchBlks.length)
    (hj : j < patchBlks.length) (hne : i ≠ j) :
    blkAddr patchBlks i + 4096 ≤ blkAddr patchBlks j ∨
      blkAddr patchBlks j + 4096 ≤ blkAddr patchBlks i := by
  have hpair := List.pairwise_iff_getElem.mp h
  rw [Ooops.blkAddr, Ooops.blkAddr, List.getElem?_eq_getElem hi, List.getElem?_eq_getElem hj]
  rcases Nat.lt_or_gt_of_ne hne with hlt | hgt
  · exact hpair i j hi hj hlt
  · exact (hpair j i hj hi hgt).symm

/-- Pages that are all apart. -/
theorem PagesApart.used (h : PagesApart patchBlks) (mods : List ModulePatchInfo) :
    UsedApart patchBlks mods :=
  fun _ _ hi hj hne => h.blkAddr hi.1 hj.1 hne

/-- Only the pages that are used get slots. -/
theorem pageUsed_of_blkCount {mods : List ModulePatchInfo} {i k : ℕ} (hi : i < patchBlks.length)
    (hle : blkCount patchBlks i ≤ k) (hk : k < blkCount (mods.foldl addTrampolines patchBlks) i) :
    PageUsed patchBlks mods i := by
  refine ⟨hi, ?_⟩
  induction mods generalizing patchBlks with
  | nil => exact absurd hk (Nat.not_lt.mpr hle)
  | cons md mds ih =>
      by_cases hmd : md.idxPatchBlk = i
      · exact ⟨md, List.mem_cons_self .., hmd⟩
      · have hsame := blkCount_addTrampolines hi md
        rw [if_neg hmd, Nat.add_zero] at hsame
        rw [List.foldl_cons] at hk
        obtain ⟨m, hm, heq⟩ := ih ((length_addTrampolines patchBlks md).symm ▸ hi)
          (hsame.trans_le hle) hk
        exact ⟨m, List.mem_cons_of_mem _ hm, heq⟩

/-- The functions that have been found are not on the page at the address `0`, which is never
mapped, and not on the pages that have just been mapped. -/
structure FunctionsOutside (patchBlks : List PatchBlock) (mods : List ModulePatchInfo) :
    Prop where
  low : ∀ md ∈ mods, ∀ h ∈ md.hooks, h.oldFuncAddr ≠ 0 → 4096 ≤ h.oldFuncAddr
  pages : ∀ md ∈ mods, ∀ h ∈ md.hooks, h.oldFuncAddr ≠ 0 → ∀ b ∈ patchBlks,
    h.oldFuncAddr + 5 ≤ b.patchAddr ∨ b.patchAddr + 4096 ≤ h.oldFuncAddr

end

/-! ### The main results -/

/-- Entries of different functions are at least five bytes apart. -/
def EntriesApart (mods : List ModulePatchInfo) : Prop :=
  ∀ md ∈ mods, ∀ h ∈ md.hooks, ∀ md' ∈ mods, ∀ h' ∈ md'.hooks,
    h.oldFuncAddr ≠ 0 → h'.oldFuncAddr ≠ 0 →
    h.oldFuncAddr = h'.oldFuncAddr ∨ h.oldFuncAddr + 5 ≤ h'.oldFuncAddr ∨
      h'.oldFuncAddr + 5 ≤ h.oldFuncAddr

/-- What the installation starts from: a table of at most 48 functions, which have been looked up,
and empty pages for them, those that are used apart from each other and from the functions. -/
structure InstallReady (mods mods' : List ModulePatchInfo) (patchBlks : List PatchBlock) :
    Prop where
  count : countHooks mods ≤ 48
  look : ∀ md ∈ mods, md.LookedUp
  alloc : Allocated patchBlks mods mods'
  used : UsedApart patchBlks mods'
  off : OffPages patchBlks mods

section

variable {mods mods' : List ModulePatchInfo} {patchBlks : List PatchBlock}

/-- Pages behind the segments are as they should be. -/
theorem Mapped.ready {segs : List (ℕ × ℕ)} (hmap : Mapped segs mods)
    (hcount : countHooks mods ≤ 48) (hlook : ∀ md ∈ mods, md.LookedUp)
    (halloc : allocateBlocks segs [] mods = some (patchBlks, mods')) :
    InstallReady mods mods' patchBlks := by
  have hidx : ∀ md ∈ mods, md.idxPatchBlk = 0 := fun md hmd => (hlook md hmd).idx
  obtain ⟨hused, hoff⟩ := hmap.pages hidx halloc
  exact ⟨hcount, hlook, allocateBlocks_spec hidx halloc nofun, hused, hoff⟩

theorem Allocated.blkCount (hall : Allocated patchBlks mods mods') (i : ℕ) :
    blkCount patchBlks i = 0 := by
  rw [Ooops.blkCount]
  cases hb : patchBlks[i]? with
  | none => rfl
  | some b => exact hall.empty b (List.mem_of_getElem? hb)

/-- The allocation leaves the functions alone. -/
theorem Allocated.hooks (hall : Allocated patchBlks mods mods') :
    mods'.map ModulePatchInfo.hooks = mods.map ModulePatchInfo.hooks := by
  obtain ⟨-, hall⟩ := hall
  induction hall with
  | nil => rfl
  | cons hmd _ ih =>
      have hhooks := congrArg ModulePatchInfo.hooks hmd.1
      rw [List.map_cons, List.map_cons, ih, hhooks]

theorem Allocated.countHooks (hall : Allocated patchBlks mods mods') :
    countHooks mods' = countHooks mods := by
  have h := congrArg (fun hs => (hs.map List.length).sum) hall.hooks
  simpa only [Ooops.countHooks, List.map_map, Function.comp_def] using h

variable (hr : InstallReady mods mods' patchBlks)

include hr

/-- Every function that is patched has been found, and its module has a page. -/
theorem enabled_spec {md' : ModulePatchInfo} (hmd' : md' ∈ mods') {h : HookEntry}
    (hh : h ∈ md'.hooks) (henabled : h.isPatchDisabled = false) :
    md'.idxPatchBlk < patchBlks.length ∧
      ∃ md ∈ mods, h ∈ md.hooks ∧ h.oldFuncAddr ≠ 0 := by
  obtain ⟨i, hi, heq⟩ := List.mem_iff_getElem.mp hmd'
  have hi' : i < mods.length := hr.alloc.modules.length_eq ▸ hi
  obtain ⟨hsame, hlt⟩ := List.forall₂_iff_get.mp hr.alloc.modules |>.2 i hi' hi
  rw [List.get_eq_getElem, List.get_eq_getElem, heq] at hsame hlt
  have hmem := List.getElem_mem hi'
  rw [hsame] at hh
  have hfound := (hr.look _ hmem).found h hh henabled
  exact ⟨hlt ((hr.look _ hmem).range h hh hfound), mods[i], hmem, hh, hfound⟩

/-- Where a patched function is. -/
theorem patch_addr {p : Patch} (hp : p ∈ modulePatches patchBlks mods') :
    p.addr < 2 ^ 64 ∧ (∃ md ∈ mods, ∃ h ∈ md.hooks,
        h.oldFuncAddr ≠ 0 ∧ p.addr = h.oldFuncAddr) ∧
      ∀ i < patchBlks.length, p.addr + 5 ≤ blkAddr patchBlks i ∨
        blkAddr patchBlks i + 4096 ≤ p.addr := by
  obtain ⟨hplace, -⟩ := modulePatches_spec patchBlks mods'
    fun md' hmd' h hh he => (enabled_spec hr hmd' hh he).1
  obtain ⟨-, -, -, -, md', hmd', h, hh, he, haddr⟩ := hplace p hp
  obtain ⟨-, md, hmd, hmem, hfound⟩ := enabled_spec hr hmd' hh he
  rw [haddr]
  refine ⟨(hr.look md hmd).lt h hmem, ⟨md, hmd, h, hmem, hfound, rfl⟩, fun i hi => ?_⟩
  rw [blkAddr, List.getElem?_eq_getElem hi]
  exact hr.off md hmd h hmem hfound _ (List.getElem_mem hi)

/-- No page has more than 48 slots. -/
theorem blkCount_le {i : ℕ} (hi : i < patchBlks.length) :
    blkCount (mods'.foldl addTrampolines patchBlks) i ≤ 48 := by
  have htotal := hr.alloc.countHooks
  have hcount := hr.count
  obtain ⟨-, -, hbound⟩ := modulePatches_spec patchBlks mods'
    fun md' hmd' h hh he => (enabled_spec hr hmd' hh he).1
  have hmore := (hbound i hi).2
  rw [hr.alloc.blkCount] at hmore
  omega

/-- Where the slot of a patch is. -/
theorem patch_in_page {p : Patch} (hp : p ∈ modulePatches patchBlks mods') :
    PageUsed patchBlks mods' p.blk ∧ p.slot = blkAddr patchBlks p.blk + 64 * p.iFunc ∧
      p.iFunc < blkCount (mods'.foldl addTrampolines patchBlks) p.blk ∧ p.iFunc < 48 := by
  obtain ⟨hplace, -⟩ := modulePatches_spec patchBlks mods'
    fun md' hmd' h hh he => (enabled_spec hr hmd' hh he).1
  obtain ⟨hin, hle, hlt, hslot, -⟩ := hplace p hp
  exact ⟨pageUsed_of_blkCount hin hle hlt, hslot, hlt,
    lt_of_lt_of_le hlt (blkCount_le hr hin)⟩

/-- The slots that are visited are in the pages that are used. -/
theorem slot_in_page {slot : ℕ}
    (hslot : slot ∈ slotsOf (mods'.foldl addTrampolines patchBlks)) :
    ∃ i, PageUsed patchBlks mods' i ∧ ∃ k < 48, slot = blkAddr patchBlks i + 64 * k := by
  obtain ⟨hlen, hpage⟩ := foldl_addTrampolines mods' patchBlks
  obtain ⟨i, hi, k, hk, rfl⟩ := mem_slotsOf.mp hslot
  rw [hlen] at hi
  exact ⟨i, pageUsed_of_blkCount hi ((hr.alloc.blkCount i).trans_le (Nat.zero_le k)) hk, k,
    lt_of_lt_of_le hk (blkCount_le hr hi), by rw [hpage]⟩

/-- The slots of the patches are visited. -/
theorem patch_slot {p : Patch} (hp : p ∈ modulePatches patchBlks mods') :
    p.slot ∈ slotsOf (mods'.foldl addTrampolines patchBlks) := by
  obtain ⟨hlen, hpage⟩ := foldl_addTrampolines mods' patchBlks
  obtain ⟨hin, hslot, hlt, -⟩ := patch_in_page hr hp
  exact mem_slotsOf.mpr ⟨p.blk, hlen.symm ▸ hin.1, p.iFunc, hlt, by rw [hpage, hslot]⟩

/-- An entry is outside all slots. -/
theorem entry_outside {p : Patch} (hp : p ∈ modulePatches patchBlks mods') :
    ∀ slot ∈ slotsOf (mods'.foldl addTrampolines patchBlks),
      p.addr + 5 ≤ slot ∨ slot + 64 ≤ p.addr := by
  intro slot hslot
  obtain ⟨i, hi, k, hk, rfl⟩ := slot_in_page hr hslot
  have := (patch_addr hr hp).2.2 i hi.1
  omega

/-- **The slots are apart.** -/
theorem slots_apart : (modulePatches patchBlks mods').Pairwise
    fun p q => p.slot + 64 ≤ q.slot ∨ q.slot + 64 ≤ p.slot := by
  obtain ⟨-, hpair, -⟩ := modulePatches_spec patchBlks mods'
    fun md' hmd' h hh he => (enabled_spec hr hmd' hh he).1
  refine List.Pairwise.imp_of_mem (fun {p q} hp hq horder => ?_) hpair
  obtain ⟨hin, hs, -, hlt⟩ := patch_in_page hr hp
  obtain ⟨hin', hs', -, hlt'⟩ := patch_in_page hr hq
  by_cases heq : p.blk = q.blk
  · have := horder heq
    rw [hs, hs', heq]
    omega
  · have := hr.used p.blk q.blk hin hin' heq
    omega

/-- **The patches are apart.** -/
theorem placed_modulePatches (hapart : EntriesApart mods) :
    Placed (modulePatches patchBlks mods') := by
  refine ⟨slots_apart hr, fun p hp q hq => ?_, fun p hp q hq => ?_⟩
  · obtain ⟨-, ⟨md, hmd, h, hh, hne, heq⟩, -⟩ := patch_addr hr hp
    obtain ⟨-, ⟨md', hmd', h', hh', hne', heq'⟩, -⟩ := patch_addr hr hq
    rw [heq, heq']
    exact hapart md hmd h hh md' hmd' h' hh' hne hne'
  · exact entry_outside hr hp q.slot (patch_slot hr hq)

end

/-- The pages are empty when they have been mapped, and nothing else has changed. -/
theorem mapBlocks_spec (patchBlks : List PatchBlock) (m : Memory) (x : ℕ) :
    ((∀ b ∈ patchBlks, x < b.patchAddr ∨ b.patchAddr + 4096 ≤ x) →
      mapBlocks patchBlks m x = m x) ∧
    (∀ b ∈ patchBlks, b.patchAddr ≤ x → x < b.patchAddr + 4096 →
      mapBlocks patchBlks m x = 0) := by
  rw [mapBlocks]
  induction patchBlks using List.reverseRecOn with
  | nil => exact ⟨fun _ => rfl, nofun⟩
  | append_singleton bs b ih =>
      obtain ⟨hout, hin⟩ := ih
      have hlen : (List.replicate 4096 (0 : UInt8)).length = 4096 := List.length_replicate
      rw [List.foldl_append, List.foldl_cons, List.foldl_nil]
      have hpage : b.patchAddr ≤ x → x < b.patchAddr + 4096 →
          (bs.foldl (fun m b => m.write b.patchAddr (List.replicate 4096 0)) m).write b.patchAddr
            (List.replicate 4096 0) x = 0 := by
        intro hle hlt
        obtain ⟨i, rfl⟩ : ∃ i, x = b.patchAddr + i := ⟨x - b.patchAddr, by omega⟩
        rw [write_add _ _ (by rw [hlen]; omega), List.getElem_replicate]
      refine ⟨fun h => ?_, fun c hc hle hlt => ?_⟩
      · rw [write_of_outside (by rw [hlen]; exact h b (List.mem_append_right _
          (List.mem_singleton_self b)))]
        exact hout fun c hc => h c (List.mem_append_left _ hc)
      · by_cases hb : b.patchAddr ≤ x ∧ x < b.patchAddr + 4096
        · exact hpage hb.1 hb.2
        · rcases List.mem_append.mp hc with hc | hc
          · rw [write_of_outside (by rw [hlen]; omega)]
            exact hin c hc hle hlt
          · rw [List.mem_singleton.mp hc] at hle hlt
            exact absurd ⟨hle, hlt⟩ hb

/-- A byte is outside all pages. -/
def OutsidePages (patchBlks : List PatchBlock) (x : ℕ) : Prop :=
  ∀ b ∈ patchBlks, x < b.patchAddr ∨ b.patchAddr + 4096 ≤ x

theorem outsidePages_iff {patchBlks : List PatchBlock} {x : ℕ} : OutsidePages patchBlks x ↔
    ∀ i < patchBlks.length, x < blkAddr patchBlks i ∨ blkAddr patchBlks i + 4096 ≤ x := by
  constructor
  · intro h i hi
    rw [blkAddr, List.getElem?_eq_getElem hi]
    exact h _ (List.getElem_mem hi)
  · intro h b hb
    obtain ⟨i, hi, rfl⟩ := List.mem_iff_getElem.mp hb
    have hat := h i hi
    rwa [blkAddr, List.getElem?_eq_getElem hi] at hat

/-- The bytes of an entry are outside the pages. -/
theorem entry_outsidePages {mods mods' : List ModulePatchInfo} {patchBlks : List PatchBlock}
    (hr : InstallReady mods mods' patchBlks) {p : Patch} (hp : p ∈ modulePatches patchBlks mods')
    {i : ℕ} (hi : i < 5) : OutsidePages patchBlks (p.addr + i) := by
  refine outsidePages_iff.mpr fun j hj => ?_
  have := (patch_addr hr hp).2.2 j hj
  omega

/-- An entry is the same when the pages have been mapped. -/
theorem entryAt_mapBlocks {mods mods' : List ModulePatchInfo} {patchBlks : List PatchBlock}
    (hr : InstallReady mods mods' patchBlks) {p : Patch} (hp : p ∈ modulePatches patchBlks mods')
    (m : Memory) : entryAt (mapBlocks patchBlks m) p.addr = entryAt m p.addr :=
  read_congr fun _ hi => (mapBlocks_spec patchBlks m _).1 (entry_outsidePages hr hp hi)

/-- A slot without a patch stays empty. -/
theorem unused_slot (u : Udis86) {mods mods' : List ModulePatchInfo} {patchBlks : List PatchBlock}
    (hr : InstallReady mods mods' patchBlks) {slot : ℕ}
    (hslot : slot ∈ slotsOf (mods'.foldl addTrampolines patchBlks))
    (hunused : ∀ p ∈ modulePatches patchBlks mods', p.slot ≠ slot) (m : Memory) :
    ofLE (((modulePatches patchBlks mods').foldl (Patch.install u)
      (mapBlocks patchBlks m)).read (slot + 48) 8) = 0 := by
  obtain ⟨i, hi, k, hk, rfl⟩ := slot_in_page hr hslot
  have hzero : ((modulePatches patchBlks mods').foldl (Patch.install u)
      (mapBlocks patchBlks m)).read (blkAddr patchBlks i + 64 * k + 48) 8 =
        Memory.read (fun _ => 0) 0 8 := by
    refine read_congr fun x hx => ?_
    rw [install_outside u fun p hp => ⟨?_, ?_⟩]
    · have hlt := hi.1
      have hget := List.getElem?_eq_getElem hlt
      refine (mapBlocks_spec patchBlks m _).2 patchBlks[i] (List.getElem_mem hlt) ?_ ?_ <;>
        rw [blkAddr, hget, Option.map_some, Option.getD_some] <;> omega
    · obtain ⟨hj, heq, -, hlt⟩ := patch_in_page hr hp
      have hne := hunused p hp
      by_cases hij : p.blk = i
      · rw [heq, hij] at hne ⊢
        omega
      · have := hr.used p.blk i hj hi hij
        omega
    · have := (patch_addr hr hp).2.2 i hi.1
      omega
  rw [hzero]
  decide

section

variable (u : Udis86) {env : InstallEnv} {s s' : HookState} {img img' : Image} {n : ℕ}
  {mods mods' : List ModulePatchInfo} {patchBlks : List PatchBlock} (hs : s.Registered)
  (hquery : queryAllOrgFuncAddr env s.modules = some mods)
  (halloc : allocateBlocks env.maps.segs [] mods = some (patchBlks, mods'))

include hs hquery halloc

/-- The state and the memory after the installation. -/
theorem installHook_spec (hinst : installHook u env s img = some (s', img', n)) :
    s'.patchBlks = mods'.foldl addTrampolines patchBlks ∧ s'.foundLibc = true ∧
      s'.isUninstalled = false ∧
      img'.mem = (modulePatches patchBlks mods').foldl (Patch.install u)
        (mapBlocks patchBlks img.mem) := by
  rw [installHook, hs.found, if_neg nofun, hquery, Option.bind_some, halloc,
    Option.map_some] at hinst
  obtain ⟨rfl, himg⟩ := Prod.mk.inj (Option.some.inj hinst)
  obtain ⟨rfl, -⟩ := Prod.mk.inj himg
  obtain ⟨hmem, hcounts⟩ := installModules_mem u patchBlks
    { img with mem := mapBlocks patchBlks img.mem } 0 mods'
  exact ⟨hcounts, rfl, hs.hooked, hmem⟩

theorem installHook_isSome (img : Image) :
    ∃ s' img' n, installHook u env s img = some (s', img', n) := by
  rw [installHook, hs.found, if_neg nofun, hquery, Option.bind_some, halloc, Option.map_some]
  exact ⟨_, _, _, rfl⟩

variable (hmap : Mapped env.maps.segs mods) (hapart : EntriesApart mods)

include hmap hapart

/-- **When the removal of registered hooks brings the memory back.** -/
theorem uninstall_iff (hinst : installHook u env s img = some (s', img', n)) :
    (∀ x, OutsidePages s'.patchBlks x → (uninstallHook s' img'.mem).2 x = img.mem x) ↔
      Journal.Restoring Patch.addr Patch.jump (entryAt img.mem) (modulePatches patchBlks mods')
        (undoOrder s'.patchBlks (modulePatches patchBlks mods')) := by
  obtain ⟨hle, hlook⟩ := hs.lookedUp hquery
  have hr := hmap.ready hle hlook halloc
  have hps := placed_modulePatches hr hapart
  obtain ⟨hfinal, hfound, hhooked, hmem⟩ := installHook_spec u hs hquery halloc hinst
  obtain ⟨hlen, hpage⟩ := foldl_addTrampolines mods' patchBlks
  rw [uninstallHook_mem hfound hhooked, hfinal, hmem, undoOrder]
  obtain ⟨hremove, hframe⟩ := remove_iff u hps (fun p hp => patch_slot hr hp)
    (fun p hp => (patch_addr hr hp).1) (fun p hp => entry_outside hr hp)
    fun slot hsl hunused => unused_slot u hr hsl hunused img.mem
  have hout : ∀ x, OutsidePages (mods'.foldl addTrampolines patchBlks) x ↔
      OutsidePages patchBlks x := by
    intro x
    simp only [outsidePages_iff, hlen, hpage]
  have hentry : ∀ p ∈ modulePatches patchBlks mods',
      entryAt (mapBlocks patchBlks img.mem) p.addr = entryAt img.mem p.addr :=
    fun p hp => entryAt_mapBlocks hr hp img.mem
  rw [← Journal.Restoring.congr Patch.addr hentry, ← hremove]
  constructor
  · intro h p hp
    rw [hentry p hp]
    exact read_congr fun i hi => h _ ((hout _).mpr (entry_outsidePages hr hp hi))
  · intro h x hx
    have hx := (hout x).mp hx
    by_cases hin : ∃ p ∈ modulePatches patchBlks mods', p.addr ≤ x ∧ x < p.addr + 5
    · obtain ⟨p, hp, hle, hlt⟩ := hin
      obtain ⟨i, rfl⟩ : ∃ i, x = p.addr + i := ⟨x - p.addr, by omega⟩
      exact apply_eq_of_read_eq ((h p hp).trans (hentry p hp)) (by omega)
    · have hoff : ∀ p ∈ modulePatches patchBlks mods', x < p.addr ∨ p.addr + 5 ≤ x := by
        intro p hp
        by_contra hno
        exact hin ⟨p, hp, by omega, by omega⟩
      rw [hframe x hoff, install_outside u fun p hp => ⟨?_, hoff p hp⟩]
      · exact (mapBlocks_spec patchBlks img.mem x).1 hx
      · obtain ⟨hi, heq, -, hk⟩ := patch_in_page hr hp
        have := outsidePages_iff.mp hx p.blk hi.1
        omega

end

/-- The functions of a module are patched once. -/
theorem keptHooks_nodup (done hs : List HookEntry) :
    ((keptHooks done hs).map HookEntry.oldFuncAddr).Nodup ∧
      ∀ h ∈ keptHooks done hs, ∀ k ∈ done, k.isPatchDisabled = false →
        h.oldFuncAddr ≠ k.oldFuncAddr := by
  induction hs generalizing done with
  | nil => exact ⟨List.nodup_nil, nofun⟩
  | cons h hs ih =>
      obtain ⟨hnodup, hdone⟩ := ih (done ++ [disableDuplicate done h])
      simp only [keptHooks]
      split
      · exact ⟨hnodup, fun k hk k' hk' => hdone k hk k' (List.mem_append_left _ hk')⟩
      · rename_i henabled
        have henabled := Bool.eq_false_of_not_eq_true henabled
        refine ⟨?_, fun k hk k' hk' hon => ?_⟩
        · rw [List.map_cons, List.nodup_cons]
          refine ⟨fun hmem => ?_, hnodup⟩
          obtain ⟨k, hk, heq⟩ := List.mem_map.mp hmem
          exact hdone k hk _ (List.mem_append_right _ (List.mem_singleton_self _)) henabled heq
        · rcases List.mem_cons.mp hk with rfl | hk
          · intro heq
            rw [disableDuplicate] at henabled heq
            split at henabled
            · rename_i hoff
              rw [hoff] at henabled
              cases henabled
            · split at henabled
              · cases henabled
              · rename_i hoff hdup
                rw [if_neg hoff, if_neg hdup] at heq
                refine hdup (List.any_eq_true.mpr ⟨k', hk', ?_⟩)
                rw [hon, heq, beq_self_eq_true]
                rfl
          · exact hdone k hk k' (List.mem_append_left _ hk') hon

/-- **Modules without a function in common are restored.** -/
theorem modulePatches_nodup {patchBlks : List PatchBlock} {mods : List ModulePatchInfo}
    (h : mods.Pairwise fun md md' => ∀ k ∈ md.hooks, ∀ k' ∈ md'.hooks,
      k.isPatchDisabled = false → k'.isPatchDisabled = false →
      k.oldFuncAddr ≠ k'.oldFuncAddr) :
    ((modulePatches patchBlks mods).map Patch.addr).Nodup := by
  have hfrom : ∀ blk a n (hs : List HookEntry), (patchesFrom blk a n hs).map Patch.addr =
      hs.map HookEntry.oldFuncAddr := by
    intro blk a n hs
    induction hs generalizing n with
    | nil => rfl
    | cons k hs ih => rw [patchesFrom, List.map_cons, List.map_cons, ih]
  have hmem : ∀ (mods : List ModulePatchInfo) (bs : List PatchBlock),
      ∀ a ∈ (modulePatches bs mods).map Patch.addr, ∃ md ∈ mods, ∃ k ∈ md.hooks,
        k.isPatchDisabled = false ∧ k.oldFuncAddr = a := by
    intro mods
    induction mods with
    | nil => nofun
    | cons md mds ih =>
        intro bs a ha
        rw [modulePatches, List.map_append, hfrom] at ha
        rcases List.mem_append.mp ha with ha | ha
        · obtain ⟨k, hk, heq⟩ := List.mem_map.mp ha
          obtain ⟨hin, hon⟩ := mem_of_keptHooks hk
          exact ⟨md, List.mem_cons_self .., k, hin, hon, heq⟩
        · obtain ⟨m, hm, hrest⟩ := ih _ a ha
          exact ⟨m, List.mem_cons_of_mem _ hm, hrest⟩
  induction mods generalizing patchBlks with
  | nil => exact List.nodup_nil
  | cons md mds ih =>
      obtain ⟨hfirst, hrest⟩ := List.pairwise_cons.mp h
      rw [modulePatches, List.map_append, hfrom, List.nodup_append]
      refine ⟨(keptHooks_nodup [] md.hooks).1, ih hrest, fun a ha b hb heq => ?_⟩
      obtain ⟨k, hk, hka⟩ := List.mem_map.mp ha
      obtain ⟨hin, hon⟩ := mem_of_keptHooks hk
      obtain ⟨m, hm, k', hk', hon', hkb⟩ := hmem mds _ b hb
      exact hfirst m hm k hin k' hk' hon hon' (hka.trans (heq.trans hkb.symm))

/-- **Modules that have no function in common are restored**, if no function is passed over. -/
theorem uninstall_restores (u : Udis86) {env : InstallEnv} {s s' : HookState}
    {img img' : Image} {n : ℕ} {mods mods' : List ModulePatchInfo} {patchBlks : List PatchBlock}
    (hs : s.Registered) (hquery : queryAllOrgFuncAddr env s.modules = some mods)
    (halloc : allocateBlocks env.maps.segs [] mods = some (patchBlks, mods'))
    (hmap : Mapped env.maps.segs mods) (hapart : EntriesApart mods)
    (hlow : ∀ md ∈ mods, ∀ h ∈ md.hooks, h.oldFuncAddr ≠ 0 → 4096 ≤ h.oldFuncAddr)
    (hdistinct : mods.Pairwise fun md md' => ∀ k ∈ md.hooks, ∀ k' ∈ md'.hooks,
      k.isPatchDisabled = false → k'.isPatchDisabled = false → k.oldFuncAddr ≠ k'.oldFuncAddr)
    (hinst : installHook u env s img = some (s', img', n)) :
    ∀ x, OutsidePages s'.patchBlks x → (uninstallHook s' img'.mem).2 x = img.mem x := by
  obtain ⟨hle, hlook⟩ := hs.lookedUp hquery
  have hr := hmap.ready hle hlook halloc
  have hhooks := hr.alloc.hooks
  have hpair : mods'.Pairwise fun md md' => ∀ k ∈ md.hooks, ∀ k' ∈ md'.hooks,
      k.isPatchDisabled = false → k'.isPatchDisabled = false →
      k.oldFuncAddr ≠ k'.oldFuncAddr := by
    have h : (mods.map ModulePatchInfo.hooks).Pairwise fun hs hs' : List HookEntry =>
        ∀ k ∈ hs, ∀ k' ∈ hs', k.isPatchDisabled = false → k'.isPatchDisabled = false →
          k.oldFuncAddr ≠ k'.oldFuncAddr := List.pairwise_map.mpr hdistinct
    rw [← hhooks] at h
    exact List.pairwise_map.mp h
  have hundone : ∀ p ∈ modulePatches patchBlks mods',
      p ∈ undoOrder s'.patchBlks (modulePatches patchBlks mods') := by
    intro p hp
    obtain ⟨-, ⟨md, hmd, h, hh, hne, heq⟩, -⟩ := patch_addr hr hp
    rw [undoOrder, (installHook_spec u hs hquery halloc hinst).1]
    refine List.mem_filter.mpr ⟨?_, decide_eq_true (heq ▸ hlow md hmd h hh hne)⟩
    exact (mem_patchesAt (slots_apart hr)
      (fun p hp => patch_slot hr hp) p).mpr hp
  exact (uninstall_iff u hs hquery halloc hmap hapart hinst).mpr
    (Journal.Restoring.of_nodup Patch.addr (modulePatches_nodup hpair) hundone)

/-- **Exactly when the removal of the hooks brings the memory back.** The hooks have been
registered by successful calls, the functions have been looked up (`mods`) and the pages
allocated (`patchBlks`). Everything outside the pages is restored if and only if, at every
patched entry, the patch that is undone last is the one that was made first, or has saved a
jump that stood there originally, and at an entry that is passed over the last jump written
stood there before. -/
theorem uninstall_restores_iff (u : Udis86) {acts : List (RegisterEnv × RegisterCall)}
    {env : InstallEnv} {s s' : HookState} {img img' : Image} {n : ℕ}
    {mods mods' : List ModulePatchInfo} {patchBlks : List PatchBlock}
    (hreg : runSteps registerStep {} acts = some s)
    (hquery : queryAllOrgFuncAddr env s.modules = some mods)
    (halloc : allocateBlocks env.maps.segs [] mods = some (patchBlks, mods'))
    (hmap : Mapped env.maps.segs mods) (hapart : EntriesApart mods)
    (hinst : installHook u env s img = some (s', img', n)) :
    (∀ x, OutsidePages s'.patchBlks x → (uninstallHook s' img'.mem).2 x = img.mem x) ↔
      Journal.Restoring Patch.addr Patch.jump (entryAt img.mem) (modulePatches patchBlks mods')
        (undoOrder s'.patchBlks (modulePatches patchBlks mods')) :=
  uninstall_iff u (registered_of_run hreg) hquery halloc hmap hapart hinst

/-! A process with the C library at 65536, whose function `open` is at 69632. -/

/-- The paths that are found. -/
def samplePaths : LibPaths :=
  ⟨bytesOf "/lib64/ld-2.17.so", bytesOf "/lib64/libc-2.17.so",
    bytesOf "/lib64/libpthread-2.17.so"⟩

/-- What is loaded. -/
def sampleMaps : Maps := ⟨[(bytesOf "/lib64/libc-2.17.so", 65536)], [(65536, 131072)]⟩

/-- A call that hooks `open` in a module. -/
def sampleCall (moduleName : CStr) : RegisterEnv × RegisterCall :=
  (⟨some samplePaths, sampleMaps, none⟩, ⟨moduleName, bytesOf "open", 4096, 8192⟩)

/-- The symbols of the library. -/
def sampleEnv : InstallEnv := ⟨sampleMaps, fun _ => some [(bytesOf "open", 4096)]⟩

/-- The table after `open` has been hooked in some modules. -/
def sampleState (moduleNames : List CStr) : HookState :=
  (runSteps registerStep {} (moduleNames.map sampleCall)).getD {}

/-- The modules with their functions looked up. -/
def sampleModules (moduleNames : List CStr) : List ModulePatchInfo :=
  (queryAllOrgFuncAddr sampleEnv (sampleState moduleNames).modules).getD []

/-- The pages, and the modules with their pages. -/
def sampleAlloc (moduleNames : List CStr) : List PatchBlock × List ModulePatchInfo :=
  (allocateBlocks sampleMaps.segs [] (sampleModules moduleNames)).getD ([], [])

/-- Code without any instruction but `nop`. -/
def sampleImage : Image := ⟨fun _ => 0x90, fun _ => 0⟩

/-- The calls succeed, and the process is as assumed. -/
structure SampleOk (names : List CStr) : Prop where
  reg : runSteps registerStep {} (names.map sampleCall) = some (sampleState names)
  query : queryAllOrgFuncAddr sampleEnv (sampleState names).modules = some (sampleModules names)
  alloc : allocateBlocks sampleEnv.maps.segs [] (sampleModules names) =
    some ((sampleAlloc names).1, (sampleAlloc names).2)
  mapped : Mapped sampleEnv.maps.segs (sampleModules names)
  apart : EntriesApart (sampleModules names)

theorem sampleOk (names : List CStr)
    (hreg : (runSteps registerStep {} (names.map sampleCall)).isSome = true)
    (hquery : (queryAllOrgFuncAddr sampleEnv (sampleState names).modules).isSome = true)
    (halloc : (allocateBlocks sampleMaps.segs [] (sampleModules names)).isSome = true)
    (hnames : (sampleModules names).all (fun md =>
      md.hooks.all fun h => h.oldFuncAddr == 69632) = true) : SampleOk names := by
  have hget : ∀ {α : Type} (o : Option α) (d : α), o.isSome = true → o = some (o.getD d) := by
    intro α o d h
    obtain ⟨a, rfl⟩ := Option.isSome_iff_exists.mp h
    rfl
  have haddr : ∀ md ∈ sampleModules names, ∀ h ∈ md.hooks, h.oldFuncAddr = 69632 :=
    fun md hmd h hh => eq_of_beq (List.all_eq_true.mp (List.all_eq_true.mp hnames md hmd) h hh)
  refine ⟨hget _ _ hreg, hget _ _ hquery, hget _ _ halloc,
    ⟨⟨by decide, by decide⟩, fun md hmd h hh _ => ⟨(65536, 131072), List.mem_singleton_self _, ?_⟩⟩,
    fun md hmd h hh md' hmd' h' hh' _ _ => ?_⟩
  · rw [haddr md hmd h hh]
    decide
  · rw [haddr md hmd h hh, haddr md' hmd' h' hh']
    exact .inl rfl

/-- Hooked under one name, `open` is restored. -/
theorem uninstall_restores_iff_once : ∃ s' img' n,
    installHook sampleUdis86 sampleEnv (sampleState [bytesOf "libc"]) sampleImage =
      some (s', img', n) ∧
    ∀ x, OutsidePages s'.patchBlks x → (uninstallHook s' img'.mem).2 x = sampleImage.mem x := by
  have hok := sampleOk [bytesOf "libc"] (by decide +kernel) (by decide +kernel)
    (by decide +kernel) (by decide +kernel)
  obtain ⟨s', img', n, hinst⟩ := installHook_isSome sampleUdis86 (registered_of_run hok.reg)
    hok.query hok.alloc sampleImage
  have hblks := (installHook_spec sampleUdis86 (registered_of_run hok.reg) hok.query hok.alloc
    hinst).1
  refine ⟨s', img', n, hinst, (uninstall_restores_iff sampleUdis86 hok.reg hok.query hok.alloc
    hok.mapped hok.apart hinst).mpr (Journal.Restoring.of_nodup _ ?_ ?_)⟩
  · decide +kernel
  · rw [hblks]
    decide +kernel

/-- The two patches that are made when `open` is hooked under two names. -/
def samplePatches : List Patch :=
  [⟨0, 0, 131072, 69632, 4096⟩, ⟨0, 1, 131136, 69632, 4096⟩]

/-- The second patch has saved the jump of the first, and is undone last. -/
theorem samplePatches_not_restoring : ¬Journal.Restoring Patch.addr Patch.jump
    (entryAt sampleImage.mem) samplePatches samplePatches := by
  intro h
  have hlast : Journal.lastAt Patch.addr 69632 samplePatches =
      some ⟨0, 1, 131136, 69632, 4096⟩ := by decide
  have hbefore : Journal.lastAt Patch.addr 69632 [⟨0, 0, 131072, 69632, 4096⟩] =
      some ⟨0, 0, 131072, 69632, 4096⟩ := by decide
  have hfirst := h.undone [⟨0, 0, 131072, 69632, 4096⟩] ⟨0, 1, 131136, 69632, 4096⟩ []
    ⟨0, 0, 131072, 69632, 4096⟩ rfl hlast hbefore
  have hentry : entryAt sampleImage.mem 69632 = [0x90, 0x90, 0x90, 0x90, 0x90] := by
    decide +kernel
  rw [hentry, Patch.jump, jumpTo] at hfirst
  exact absurd (List.cons.inj hfirst).1 (by decide)

theorem sampleOk_twice : SampleOk [bytesOf "libc", bytesOf "libc-2.17.so"] :=
  sampleOk _ (by decide +kernel) (by decide +kernel) (by decide +kernel) (by decide +kernel)

theorem modulePatches_twice :
    modulePatches (sampleAlloc [bytesOf "libc", bytesOf "libc-2.17.so"]).1
      (sampleAlloc [bytesOf "libc", bytesOf "libc-2.17.so"]).2 = samplePatches := by
  decide +kernel

/-- Hooked under the short name and under the file name of the library, `open` is patched
twice, and the jump to the first slot is left behind. -/
theorem hooked_twice_not_restored :
    (runSteps registerStep {} ([bytesOf "libc", bytesOf "libc-2.17.so"].map sampleCall)).isSome ∧
    ∃ s' img' n, installHook sampleUdis86 sampleEnv
        (sampleState [bytesOf "libc", bytesOf "libc-2.17.so"]) sampleImage =
      some (s', img', n) ∧
    ¬∀ x, OutsidePages s'.patchBlks x →
      (uninstallHook s' img'.mem).2 x = sampleImage.mem x := by
  have hok := sampleOk_twice
  have hs := registered_of_run hok.reg
  obtain ⟨s', img', n, hinst⟩ := installHook_isSome sampleUdis86 hs hok.query hok.alloc
    sampleImage
  have horder : undoOrder s'.patchBlks samplePatches = samplePatches := by
    rw [(installHook_spec sampleUdis86 hs hok.query hok.alloc hinst).1]
    decide +kernel
  have hiff := uninstall_iff sampleUdis86 hs hok.query hok.alloc hok.mapped hok.apart hinst
  rw [modulePatches_twice, horder] at hiff
  exact ⟨by decide +kernel, s', img', n, hinst, hiff.not.mpr samplePatches_not_restoring⟩

end Ooops
