import Ooops.InstallHook

/-!
# The Slots of the Pages

`install_hook` gives the next slot of a page to every function that it patches, while the number
of slots of the page grows by all functions that are registered, those that are not found and
those that are registered twice included. A module that no function of has been found in counts
its functions on the first page, and so does one that has been given a new page. With at most
`MAX_PATCH` functions in all the slots never leave their page, and what is not used stays empty,
so that `uninstall_hook`, which goes through all slots, finds the patches and nothing else.

The functions that have been found lie outside the pages, and outside the page at the address
`0`, which `uninstall_hook` takes for an empty slot.

* `installHook_count`: what is returned is the number of the patches.
* `slotsOf_nodup`: no slot is visited twice.
* `installHook_slots`: the slots of the patches, and what the removal does with them.
-/

open Basis Basis.Memory

namespace Ooops

/-! ### The number of hooks installed -/

/-- **The number that is returned** is that of the patches. -/
theorem installHook_count (u : Udis86) (patchBlks : List PatchBlock) (img : Image) (n : ℕ)
    (mods : List ModulePatchInfo) :
    (installModules u patchBlks img n mods).2.2.2 = n + (modulePatches patchBlks mods).length := by
  induction mods generalizing patchBlks img n with
  | nil => rfl
  | cons md mds ih =>
      rw [installModules, modulePatches, List.length_append, length_patchesFrom]
      dsimp only
      rw [ih, (installHooks_spec u md.idxPatchBlk ..).1]
      omega

/-! ### The slots that are visited -/

section

variable {patchBlks : List PatchBlock}

/-- The pages stay where they are. -/
theorem PagesApart.foldl_addTrampolines (h : PagesApart patchBlks) (mods : List ModulePatchInfo) :
    PagesApart (mods.foldl addTrampolines patchBlks) := by
  obtain ⟨hlen, haddr⟩ := Ooops.foldl_addTrampolines mods patchBlks
  refine List.pairwise_iff_getElem.mpr fun i j hi hj hlt => ?_
  have hpair := h.blkAddr (hlen ▸ hi) (hlen ▸ hj) hlt.ne
  rw [← haddr i, ← haddr j, Ooops.blkAddr, Ooops.blkAddr, List.getElem?_eq_getElem hi,
    List.getElem?_eq_getElem hj] at hpair
  exact hpair

/-- No slot is visited twice. -/
theorem slotsOf_nodup (h : PagesApart patchBlks) (hcount : ∀ b ∈ patchBlks, b.numTrampoline ≤ 48) :
    (slotsOf patchBlks).Nodup := by
  refine List.nodup_flatMap.mpr ⟨fun b _ => ?_, ?_⟩
  · refine List.nodup_range.map fun i j heq => ?_
    omega
  · refine List.Pairwise.imp_of_mem (fun {b b'} hb hb' hapart => ?_) h
    rw [Function.onFun, List.disjoint_left]
    intro slot hs hs'
    obtain ⟨i, hi, rfl⟩ := List.mem_map.mp hs
    obtain ⟨j, hj, heq⟩ := List.mem_map.mp hs'
    have := List.mem_range.mp hi
    have := List.mem_range.mp hj
    have := hcount b hb
    have := hcount b' hb'
    omega

/-- The patches that are undone, each of them once. -/
theorem patchesAt_nodup {ps : List Patch} {slots : List ℕ} (h : slots.Nodup) :
    (patchesAt ps slots).Nodup := by
  refine h.filterMap fun slot slot' p hp hp' => ?_
  have heq := List.find?_some (Option.mem_def.mp hp)
  have heq' := List.find?_some (Option.mem_def.mp hp')
  exact (of_decide_eq_true heq).symm.trans (of_decide_eq_true heq')

end

/-! ### The slots of the patches -/

/-- The slots of the patches `ps`, and the other slots of their pages. -/
structure SlotsAccounted (ps : List Patch) (patchBlks : List PatchBlock) (m : Memory) : Prop where
  apart : ps.Pairwise fun p q => p.slot + 64 ≤ q.slot ∨ q.slot + 64 ≤ p.slot
  inside : ∀ p ∈ ps, ∃ b, patchBlks[p.blk]? = some b ∧ p.slot = b.patchAddr + 64 * p.iFunc ∧
    p.iFunc < b.numTrampoline ∧ p.slot + 64 ≤ b.patchAddr + 4096
  used : ∀ p ∈ ps, ofLE (m.read (p.slot + 48) 8) = p.addr
  unused : ∀ b ∈ patchBlks, ∀ iFunc < b.numTrampoline,
    (∀ p ∈ ps, p.slot ≠ b.patchAddr + 64 * iFunc) →
      ofLE (m.read (b.patchAddr + 64 * iFunc + 48) 8) = 0

section

variable (u : Udis86) {mods mods' : List ModulePatchInfo} {patchBlks : List PatchBlock}
  (hr : InstallReady mods mods' patchBlks)

include hr

/-- No page has more than 48 slots in the end. -/
theorem numTrampoline_le :
    ∀ b ∈ mods'.foldl addTrampolines patchBlks, b.numTrampoline ≤ 48 := by
  intro b hb
  obtain ⟨i, hi, rfl⟩ := List.mem_iff_getElem.mp hb
  have hle := blkCount_le hr (hi.trans_eq (foldl_addTrampolines mods' patchBlks).1)
  rwa [blkCount, List.getElem?_eq_getElem hi] at hle

/-- A slot keeps the address of its function. -/
theorem install_addrOrgFunc (m : Memory) {p : Patch} (hp : p ∈ modulePatches patchBlks mods') :
    ((modulePatches patchBlks mods').foldl (Patch.install u) m).read (p.slot + 48) 8 =
      leBytes 8 p.addr := by
  have hsep : ∀ q ∈ modulePatches patchBlks mods', q.addr + 5 ≤ p.slot ∨ p.slot + 64 ≤ q.addr :=
    fun q hq => entry_outside hr hq p.slot (patch_slot hr hp)
  have hslots := slots_apart hr
  obtain ⟨ps₁, ps₂, heq⟩ := List.append_of_mem hp
  rw [heq] at hslots ⊢
  rw [← installOne_addrOrgFunc u (ps₁.foldl (Patch.install u) m) (hsep p hp)]
  exact read_congr fun i hi => install_keeps_slot u hslots (fun q hq => hsep q (heq ▸ hq))
    (by omega) (by omega)

/-- **The slots of the patches**, and the others. -/
theorem slotsAccounted (m : Memory) :
    SlotsAccounted (modulePatches patchBlks mods') (mods'.foldl addTrampolines patchBlks)
      ((modulePatches patchBlks mods').foldl (Patch.install u) (mapBlocks patchBlks m)) := by
  obtain ⟨hlen, haddr⟩ := foldl_addTrampolines mods' patchBlks
  refine ⟨slots_apart hr, fun p hp => ?_, fun p hp => ?_, fun b hb iFunc hlt hno => ?_⟩
  · obtain ⟨hin, hslot, hlt, h48⟩ := patch_in_page hr hp
    have hget := List.getElem?_eq_getElem (hin.1.trans_eq hlen.symm)
    rw [← haddr, blkAddr, hget] at hslot
    rw [blkCount, hget] at hlt
    simp only [Option.map_some, Option.getD_some] at hslot hlt
    exact ⟨_, hget, hslot, hlt, by omega⟩
  · rw [install_addrOrgFunc u hr _ hp, ofLE_leBytes]
    exact Nat.mod_eq_of_lt (patch_addr hr hp).1
  · refine unused_slot u hr ?_ hno m
    exact List.mem_flatMap.mpr ⟨b, hb, List.mem_map.mpr ⟨iFunc, List.mem_range.mpr hlt, rfl⟩⟩

/-- What the removal finds in the slots. -/
theorem kept_modulePatches (m : Memory) :
    Kept (modulePatches patchBlks mods')
      (fun p => ((modulePatches patchBlks mods').foldl (Patch.install u)
        (mapBlocks patchBlks m)).read (p.slot + 36) 5)
      (slotsOf (mods'.foldl addTrampolines patchBlks))
      ((modulePatches patchBlks mods').foldl (Patch.install u) (mapBlocks patchBlks m)) where
  addr _ hp := install_addrOrgFunc u hr _ hp
  code _ _ := rfl
  free _ hslot hno := unused_slot u hr hslot hno m
  lt _ hp := (patch_addr hr hp).1
  sep _ hp := entry_outside hr hp

/-- With no function on the page at the address `0`, none of the patches is passed over. -/
theorem undoneAt_modulePatches
    (hlow : ∀ md ∈ mods, ∀ h ∈ md.hooks, h.oldFuncAddr ≠ 0 → 4096 ≤ h.oldFuncAddr)
    (slots : List ℕ) : undoneAt (modulePatches patchBlks mods') slots =
      patchesAt (modulePatches patchBlks mods') slots := by
  refine List.filter_eq_self.mpr fun p hp => ?_
  obtain ⟨slot, -, hfind⟩ := List.mem_filterMap.mp hp
  obtain ⟨-, ⟨md, hmd, h, hh, hne, heq⟩, -⟩ :=
    patch_addr hr (List.mem_of_find?_eq_some hfind)
  exact decide_eq_true (heq ▸ hlow md hmd h hh hne)

end

/-- **The accounting of the slots.** The table has at most 48 functions, which have been looked up
(`mods`), and the modules have been assigned pages that are apart from each other and from the
functions (`patchBlks`). Then every installed hook has a slot of its own, inside its page and
below the number of slots of the page, and the other slots below it are empty. The removal
writes back what the slots of the installed hooks have saved, each once, and nothing else. -/
theorem installHook_slots (u : Udis86) {env : InstallEnv} {s s' : HookState} {img img' : Image}
    {n : ℕ} {mods mods' : List ModulePatchInfo} {patchBlks : List PatchBlock}
    (hs : s.Registered) (hquery : queryAllOrgFuncAddr env s.modules = some mods)
    (halloc : allocateBlocks env.maps.segs [] mods = some (patchBlks, mods'))
    (hpages : PagesApart patchBlks) (hout : FunctionsOutside patchBlks mods)
    (hinst : installHook u env s img = some (s', img', n)) :
    (img'.mem = (modulePatches patchBlks mods').foldl (Patch.install u)
        (mapBlocks patchBlks img.mem) ∧ n = (modulePatches patchBlks mods').length) ∧
      SlotsAccounted (modulePatches patchBlks mods') s'.patchBlks img'.mem ∧
      ((slotsOf s'.patchBlks).Nodup ∧
        (undoOrder s'.patchBlks (modulePatches patchBlks mods')).Perm
          (modulePatches patchBlks mods')) ∧
      (uninstallHook s' img'.mem).2 =
        (undoOrder s'.patchBlks (modulePatches patchBlks mods')).foldl
          (fun m p => m.write p.addr (img'.mem.read (p.slot + 36) 5)) img'.mem := by
  obtain ⟨hcount, hlook⟩ := hs.lookedUp hquery
  have hall := allocateBlocks_spec (fun md hmd => (hlook md hmd).idx) halloc (by simp)
  have hr : InstallReady mods mods' patchBlks :=
    ⟨hcount, hlook, hall, hpages.used mods', hout.pages⟩
  obtain ⟨hblks, hfound, hhooked, hmem⟩ := installHook_spec u hs hquery halloc hinst
  have hnodup := slotsOf_nodup (hpages.foldl_addTrampolines mods')
    (numTrampoline_le hr)
  have hapart := slots_apart hr
  have hvisited : ∀ p ∈ modulePatches patchBlks mods', p.slot ∈ slotsOf s'.patchBlks := fun p hp =>
    hblks ▸ patch_slot hr hp
  refine ⟨⟨hmem, ?_⟩, ?_, ⟨hblks ▸ hnodup, ?_⟩, ?_⟩
  · rw [installHook, hs.found, if_neg (by decide), hquery, Option.bind_some, halloc,
      Option.map_some] at hinst
    obtain ⟨-, himg⟩ := Prod.mk.inj (Option.some.inj hinst)
    obtain ⟨-, hn⟩ := Prod.mk.inj himg
    rw [← hn, installHook_count, Nat.zero_add]
  · rw [hmem, hblks]
    exact slotsAccounted u hr img.mem
  · rw [undoOrder, undoneAt_modulePatches hr hout.low]
    refine (List.perm_ext_iff_of_nodup (patchesAt_nodup (hblks ▸ hnodup))
      (hapart.imp fun hpq heq => ?_)).mpr (mem_patchesAt hapart hvisited)
    rw [heq] at hpq
    omega
  · rw [uninstallHook_mem hfound hhooked, undoOrder, hmem, hblks]
    exact undo_writes (kept_modulePatches u hr img.mem)
      (fun _ _ => length_read _ _ _) (fun _ h => h) fun _ _ _ _ _ => rfl

/-- A function that is hooked under two names of its library has two slots. -/
theorem installHook_slots_twice : ∃ s' img' n,
    installHook sampleUdis86 sampleEnv (sampleState [bytesOf "libc", bytesOf "libc-2.17.so"])
        sampleImage = some (s', img', n) ∧
      n = 2 ∧ SlotsAccounted samplePatches s'.patchBlks img'.mem := by
  have hok := sampleOk_twice
  have hs := registered_of_run hok.reg
  have hpage : (sampleAlloc [bytesOf "libc", bytesOf "libc-2.17.so"]).1.map
      PatchBlock.patchAddr = [131072] := by decide +kernel
  have hapart : PagesApart (sampleAlloc [bytesOf "libc", bytesOf "libc-2.17.so"]).1 := by
    obtain ⟨b, hb, -⟩ := List.map_eq_singleton_iff.mp hpage
    rw [hb]
    exact List.pairwise_singleton _ _
  obtain ⟨hcount, hlook⟩ := hs.lookedUp hok.query
  have hoff := (hok.mapped.ready hcount hlook hok.alloc).off
  have hlow : (sampleModules [bytesOf "libc", bytesOf "libc-2.17.so"]).all
      (fun md => md.hooks.all fun h => decide (4096 ≤ h.oldFuncAddr)) = true := by decide +kernel
  obtain ⟨s', img', n, hinst⟩ := installHook_isSome sampleUdis86 hs hok.query hok.alloc
    sampleImage
  obtain ⟨⟨-, hn⟩, haccount, -, -⟩ := installHook_slots sampleUdis86 hs hok.query hok.alloc
    hapart ⟨fun md hmd h hh _ => of_decide_eq_true
      (List.all_eq_true.mp (List.all_eq_true.mp hlow md hmd) h hh), hoff⟩ hinst
  rw [modulePatches_twice] at hn haccount
  exact ⟨s', img', n, hinst, hn, haccount⟩

end Ooops
