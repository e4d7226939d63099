import Ooops.Basis.Jump
import Ooops.JumpCode
import Ooops.OriginalFunctions

/-!
# Calls of Hooked Functions

What hooks are for: whoever calls a function that has been hooked gets the new function, and
the new function can call the original one through its variable. The first takes two jumps, the
one at the entry and the bounce code of the slot. The second runs the instructions that have
been saved in the slot and jumps back behind them.

A function that is hooked twice has one entry. If it is in one module of the table, the hook that
has been registered first is the one that is installed; if it is in two, the last one is.

* `hooked_calls`: after an installation, all calls of hooked functions are redirected, and the
  originals stay within reach.
-/

open Basis Basis.Memory

namespace Ooops

/-! ### The code of one patch -/

section

variable {m m' : Memory} {slot addr n newFunc : ℕ}

/-- From the entry, two jumps lead to the new function. -/
theorem EntryReaches.jumpsTo (hentry : EntryReaches m addr slot)
    (hslot : SlotReaches m slot addr n newFunc) (hlt : slot + 64 ≤ 2 ^ 64) :
    JumpsTo m addr newFunc := by
  have hcode : m.read (slot + 20) 6 = [0xFF, 0x25, 0, 0, 0, 0] := by
    have hsplit : m.read (slot + 20) 6 ++ m.read (slot + 26) 8 =
        [0xFF, 0x25, 0, 0, 0, 0] ++ leBytes 8 newFunc := by
      rw [← read_add]
      exact hslot.bounce
    exact (List.append_inj hsplit (by rw [length_read]; rfl)).1
  have hfirst : jumpFrom m addr = some (slot + 20) :=
    jumpFrom_relative hentry.1 (by rw [hentry.2]; rfl) (by omega)
  have hsecond := jumpFrom_stored hcode (by omega)
  rw [hslot.target] at hsecond
  exact .jump hfirst (.jump hsecond .refl)

/-- From the code that has been copied, one jump leads back. -/
theorem SlotReaches.jumpBack (h : SlotReaches m slot addr n newFunc) (hlt : addr + n < 2 ^ 64) :
    jumpFrom m (slot + n) = some (addr + n) :=
  jumpFrom_relative h.opcode (by push_cast; exact h.back) hlt

/-- The jump depends on the entry only. -/
theorem EntryReaches.congr (h : EntryReaches m addr slot) (heq : entryAt m' addr = entryAt m addr) :
    EntryReaches m' addr slot := by
  have hbyte : ∀ i < 5, m' (addr + i) = m (addr + i) := fun i hi => apply_eq_of_read_eq heq hi
  have hdisp : m'.readInt32 (addr + 1) = m.readInt32 (addr + 1) := by
    refine readInt32_congr fun i hi => ?_
    rw [Nat.add_assoc]
    exact hbyte (1 + i) (by omega)
  exact ⟨(hbyte 0 (by norm_num)).trans h.1, by rw [hdisp]; exact h.2⟩

/-- The jumps of a slot depend on its code only. -/
theorem SlotReaches.congr (h : SlotReaches m slot addr n newFunc) (hn : n + 5 ≤ maxTrampolineLen)
    (heq : ∀ x, slot ≤ x → x < slot + 64 → m' x = m x) : SlotReaches m' slot addr n newFunc := by
  rw [maxTrampolineLen] at hn
  refine ⟨?_, ?_, (heq _ (by omega) (by omega)).trans h.opcode, ?_⟩
  · rw [← h.bounce]
    exact read_congr fun i hi => heq _ (by omega) (by omega)
  · rw [← h.target]
    exact congrArg ofLE (read_congr fun i hi => heq _ (by omega) (by omega))
  · rw [← h.back]
    refine congrArg (fun d : ℤ => (slot : ℤ) + n + 5 + d) ?_
    exact readInt32_congr fun i hi => heq _ (by omega) (by omega)

end

/-! ### The code of all patches -/

/-- The function of a patch is in the reach of its slot. -/
def Patch.Close (p : Patch) : Prop :=
  ∀ x, p.slot ≤ x → x < p.slot + 64 → |(p.addr : ℤ) - x| < 2 ^ 31

/-- The memory that a patch after the patches `ps₁` finds. -/
def memBefore (u : Udis86) (m : Memory) (ps₁ : List Patch) : Memory :=
  ps₁.foldl (Patch.install u) m

section

variable (u : Udis86) {ps ps₁ ps₂ : List Patch} {p : Patch} (m : Memory)

/-- The last patch at an entry decides where it leads. -/
theorem entryReaches_of_lastAt (hps : Placed ps)
    (hlast : Journal.lastAt Patch.addr p.addr ps = some p) (hclose : p.Close) :
    EntryReaches (memBefore u m ps) p.addr p.slot := by
  obtain ⟨hp, -⟩ := Journal.mem_of_lastAt Patch.addr hlast
  have hentry := install_entryAt u (m := m) hps (a := p.addr) fun q hq =>
    ⟨hps.entries q hq p hp, hps.sep p hp q hq⟩
  rw [Journal.applyAll_apply, hlast] at hentry
  have hat := abs_lt.mp (hclose (p.slot + 15) (by omega) (by omega))
  push_cast at hat
  exact (@installOne_reaches u p.slot p.addr p.newFunc m (by omega) (by omega)).congr
    (hentry.trans (installOne_entry u m).symm)

/-- The slot of a patch keeps its jumps. -/
theorem slotReaches_of_mem
    (hslots : (ps₁ ++ p :: ps₂).Pairwise fun p q => p.slot + 64 ≤ q.slot ∨ q.slot + 64 ≤ p.slot)
    (hsep : ∀ q ∈ ps₁ ++ p :: ps₂, q.addr + 5 ≤ p.slot ∨ p.slot + 64 ≤ q.addr)
    (hclose : p.Close) (hnew : p.newFunc < 2 ^ 64)
    (hlen : (u.scan (memBefore u m ps₁) p.addr).savedCodeLen ≤ 15) :
    SlotReaches (memBefore u m (ps₁ ++ p :: ps₂)) p.slot p.addr
      (u.scan (memBefore u m ps₁) p.addr).savedCodeLen p.newFunc := by
  have hfits : (u.scan (memBefore u m ps₁) p.addr).savedCodeLen + 5 ≤ maxTrampolineLen := by
    rw [maxTrampolineLen]
    omega
  have hself := hsep p (List.mem_append_right _ (List.mem_cons_self ..))
  have hat := abs_lt.mp (hclose (p.slot + 5) (by omega) (by omega))
  push_cast at hat
  have hready := readySlot_reaches u (memBefore u m ps₁) hnew hfits hat.1.le hat.2
  exact (hready.patched hfits hself).congr hfits fun x hx hx' =>
    install_keeps_slot u hslots hsep hx hx'

end

/-! ### The hooks that are installed -/

/-- Every function that has been found is patched, for itself or for another name. -/
theorem exists_firstHooks {seen : List ℕ} {hs : List HookEntry} {h : HookEntry} (hh : h ∈ hs)
    (hne : h.oldFuncAddr ≠ 0) (hseen : h.oldFuncAddr ∉ seen) :
    ∃ k ∈ firstHooks seen hs, k.oldFuncAddr = h.oldFuncAddr := by
  induction hs generalizing seen with
  | nil => cases hh
  | cons k hs ih =>
      rw [firstHooks]
      by_cases hsame : k.oldFuncAddr = h.oldFuncAddr
      · rw [if_neg (by rw [hsame]; exact not_or.mpr ⟨hne, hseen⟩)]
        exact ⟨k, List.mem_cons_self .., hsame⟩
      · have hh' : h ∈ hs := by
          rcases List.mem_cons.mp hh with rfl | hh
          · exact absurd rfl hsame
          · exact hh
        split
        · exact ih hh' hseen
        · have hseen' : h.oldFuncAddr ∉ k.oldFuncAddr :: seen :=
            fun hmem => (List.mem_cons.mp hmem).elim (fun heq => hsame heq.symm) hseen
          obtain ⟨k', hk', heq⟩ := ih hh' hseen'
          exact ⟨k', List.mem_cons_of_mem _ hk', heq⟩

/-- The hook that is installed at an address: the last one that is patched there. -/
theorem exists_installed {mods : List ModulePatchInfo} {md : ModulePatchInfo} (hmd : md ∈ mods)
    {h : HookEntry} (hh : h ∈ md.hooks) (hne : h.oldFuncAddr ≠ 0) :
    ∃ k, Journal.lastAt HookEntry.oldFuncAddr h.oldFuncAddr (patchedHooks mods) = some k := by
  obtain ⟨k, hk, heq⟩ := exists_firstHooks hh hne List.not_mem_nil
  cases hlast : Journal.lastAt HookEntry.oldFuncAddr h.oldFuncAddr (patchedHooks mods) with
  | some k => exact ⟨k, rfl⟩
  | none =>
      have hmem : k ∈ patchedHooks mods := List.mem_flatMap.mpr ⟨md, hmd, hk⟩
      exact absurd heq ((Journal.lastAt_eq_none_iff _).mp hlast k hmem)

/-- A patch leads to the new function of its hook. -/
theorem hookPatches_newFunc {patchBlks : List PatchBlock} {mods : List ModulePatchInfo}
    {e : HookEntry × Patch} (he : e ∈ hookPatches patchBlks mods) :
    e.2.newFunc = e.1.newFuncAddr := by
  induction mods generalizing patchBlks with
  | nil => cases he
  | cons md mds ih =>
      rcases List.mem_append.mp he with he | he
      · exact (patchesFrom_zip_addr he).2
      · exact ih he

/-- The last patch at an address is the patch of the last hook there. -/
theorem lastAt_modulePatches {patchBlks : List PatchBlock} {mods : List ModulePatchInfo} (a : ℕ) :
    Journal.lastAt Patch.addr a (modulePatches patchBlks mods) =
      (Journal.lastAt (fun e : HookEntry × Patch => e.1.oldFuncAddr) a
        (hookPatches patchBlks mods)).map Prod.snd := by
  rw [← hookPatches_snd, Journal.lastAt_map, Journal.lastAt, Journal.lastAt]
  congr 2
  refine List.filter_congr fun e he => ?_
  rw [(mem_hookPatches he).1]

/-! ### The main result -/

/-- What is assumed of the installation: no entry overlaps another one, the address space ends
behind the pages, every page is near the functions it is used for, and what is copied from an
entry fits its slot. -/
structure Installable (u : Udis86) (segs : List (ℕ × ℕ)) (mods mods' : List ModulePatchInfo)
    (patchBlks : List PatchBlock) (m : Memory) : Prop where
  mapped : Mapped segs mods
  apart : EntriesApart mods
  space : ∀ seg ∈ segs, seg.2 + 4096 ≤ 2 ^ 64
  served : ∀ md ∈ mods', md.HasFunc → md.Served patchBlks
  newFunc : ∀ md ∈ mods', ∀ h ∈ md.hooks, h.newFuncAddr < 2 ^ 64
  fits : ∀ ps₁ p ps₂, modulePatches patchBlks mods' = ps₁ ++ p :: ps₂ →
    (u.scan (memBefore u m ps₁) p.addr).savedCodeLen ≤ 15

section

variable {u : Udis86} {segs : List (ℕ × ℕ)} {mods mods' : List ModulePatchInfo}
  {patchBlks : List PatchBlock} {m : Memory} (hlook : ∀ md ∈ mods, md.LookedUp)
  (hcount : countHooks mods ≤ 48)
  (halloc : allocateBlocks segs [] mods = some (patchBlks, mods'))
  (hok : Installable u segs mods mods' patchBlks m)

include hlook hcount halloc hok

theorem Installable.placed : Placed (modulePatches patchBlks mods') :=
  placed_modulePatches (hok.mapped.ready hcount hlook halloc) hok.apart

/-- Where the slot and the function of a patch are. -/
theorem Installable.patch {e : HookEntry × Patch} (he : e ∈ hookPatches patchBlks mods') :
    e.2.Close ∧ e.2.slot + 64 ≤ 2 ^ 64 ∧ e.2.addr + 19 < 2 ^ 64 ∧ e.2.newFunc < 2 ^ 64 := by
  have hp : e.2 ∈ modulePatches patchBlks mods' :=
    hookPatches_snd patchBlks mods' ▸ List.mem_map_of_mem he
  have hr := hok.mapped.ready hcount hlook halloc
  obtain ⟨-, hslot, -, hlt⟩ := patch_in_page hr hp
  obtain ⟨-, ⟨md₀, hmd₀, h₀, hh₀, hne₀, haddr₀⟩, -⟩ := patch_addr hr hp
  obtain ⟨haddr, md, hmd, hblk', hkept⟩ := mem_hookPatches he
  obtain ⟨hmem, hon⟩ := mem_of_keptHooks hkept
  obtain ⟨-, -, -, -, hne⟩ := enabled_spec hr hmd hmem hon
  obtain ⟨b, hb, hclose⟩ := hok.served md hmd ⟨e.1, hmem, hne⟩
  have hpage : blkAddr patchBlks e.2.blk = b.patchAddr := by
    rw [blkAddr, hblk', hb]
    rfl
  obtain ⟨hblks, -⟩ := allocateBlocks_assigned hok.mapped.ok (fun m hm => (hlook m hm).idx)
    (List.forall_mem_nil _) halloc
  obtain ⟨-, seg, hseg, hbehind, -⟩ := hblks b (List.mem_of_getElem? hb)
  have hend := hok.space seg hseg
  obtain ⟨seg', hseg', hin, hin'⟩ := hok.mapped.inside md₀ hmd₀ h₀ hh₀ hne₀
  have hend' := hok.space seg' hseg'
  refine ⟨fun x hx hx' => ?_, by omega, by omega, ?_⟩
  · rw [haddr]
    exact hclose e.1 hmem hne x (by omega) (by omega)
  · rw [hookPatches_newFunc he]
    exact hok.newFunc md hmd e.1 hmem

/-- The slot of an installed hook keeps its jumps. -/
theorem Installable.slotReaches {e : HookEntry × Patch} (he : e ∈ hookPatches patchBlks mods')
    {ps₁ ps₂ : List Patch} (hps : modulePatches patchBlks mods' = ps₁ ++ e.2 :: ps₂) :
    SlotReaches (memBefore u m (modulePatches patchBlks mods')) e.2.slot e.2.addr
      (u.scan (memBefore u m ps₁) e.2.addr).savedCodeLen e.2.newFunc := by
  have hplaced := hok.placed hlook hcount halloc
  obtain ⟨hclose, -, -, hnew⟩ := hok.patch hlook hcount halloc he
  have hlen := hok.fits ps₁ e.2 ps₂ hps
  rw [hps] at hplaced ⊢
  exact slotReaches_of_mem u m hplaced.slots
    (fun q hq => hplaced.sep q hq e.2 (List.mem_append_right _ (List.mem_cons_self ..)))
    hclose hnew hlen

end

/-- The slot runs the function that was at `addr` of the memory `m`: first the instructions that
have been saved, then the rest of the function, behind the entry. -/
structure RunsOriginal (u : Udis86) (m m' : Memory) (slot addr : ℕ) : Prop
    extends SavedEntry u m m' slot addr where
  back : jumpFrom m' (slot + (u.scan m addr).savedCodeLen) =
    some (addr + (u.scan m addr).savedCodeLen)

section

variable {u : Udis86} {env : InstallEnv} {s s' : HookState} {img img' : Image} {n : ℕ}
  {mods mods' : List ModulePatchInfo} {patchBlks : List PatchBlock} (hs : s.Registered)
  (hquery : queryAllOrgFuncAddr env s.modules = some mods)
  (halloc : allocateBlocks env.maps.segs [] mods = some (patchBlks, mods'))
  (hinst : installHook u env s img = some (s', img', n))
  (hok : Installable u env.maps.segs mods mods' patchBlks (mapBlocks patchBlks img.mem))
  (hon : ∀ h ∈ hookList s.modules, h.isPatchDisabled = false)

include hs hquery halloc hinst hok

/-- The memory after the installation has all jumps of the slots. -/
theorem installed_slotReaches {e : HookEntry × Patch} (he : e ∈ hookPatches patchBlks mods')
    {ps₁ ps₂ : List Patch} (hps : modulePatches patchBlks mods' = ps₁ ++ e.2 :: ps₂) :
    SlotReaches img'.mem e.2.slot e.1.oldFuncAddr
      (u.scan (memBefore u (mapBlocks patchBlks img.mem) ps₁) e.1.oldFuncAddr).savedCodeLen
      e.1.newFuncAddr := by
  obtain ⟨hcount, hlook⟩ := hs.lookedUp hquery
  have hslot := hok.slotReaches hlook hcount halloc he hps
  rwa [hookPatches_newFunc he, (mem_hookPatches he).1, memBefore,
    ← (installHook_spec u hs hquery halloc hinst).2.2.2] at hslot

include hon

/-- The entry leads to the new function of the hook that is installed there. -/
theorem installed_jumpsTo {a : ℕ} {k : HookEntry}
    (hlast : Journal.lastAt HookEntry.oldFuncAddr a (patchedHooks mods) = some k) :
    JumpsTo img'.mem a k.newFuncAddr := by
  obtain ⟨hcount, hlook⟩ := hs.lookedUp hquery
  rw [← hookPatches_patchedHooks hs hquery halloc hon, Journal.lastAt_map] at hlast
  obtain ⟨e, hlast₁, rfl⟩ := Option.map_eq_some_iff.mp hlast
  obtain ⟨he, rfl⟩ := Journal.mem_of_lastAt _ hlast₁
  have haddr := (mem_hookPatches he).1
  obtain ⟨hclose, hspace, -⟩ := hok.patch hlook hcount halloc he
  have hlast' : Journal.lastAt Patch.addr e.2.addr (modulePatches patchBlks mods') =
      some e.2 := by
    rw [lastAt_modulePatches, haddr, hlast₁]
    rfl
  have hentry := entryReaches_of_lastAt u (mapBlocks patchBlks img.mem)
    (hok.placed hlook hcount halloc) hlast' hclose
  rw [memBefore, ← (installHook_spec u hs hquery halloc hinst).2.2.2, haddr] at hentry
  obtain ⟨ps₁, ps₂, hps⟩ := List.append_of_mem (Journal.mem_of_lastAt _ hlast').1
  exact hentry.jumpsTo (installed_slotReaches hs hquery halloc hinst hok he hps) hspace

/-- A variable that is left to its function has the address of a slot that runs it. -/
theorem installed_runsOriginal {h : HookEntry} (hown : OwnVariable mods h) :
    ∃ ps₁ p ps₂, modulePatches patchBlks mods' = ps₁ ++ p :: ps₂ ∧
      img'.orgFunc h.ptrOldFuncAddr = p.slot ∧
      RunsOriginal u (memBefore u (mapBlocks patchBlks img.mem) ps₁) img'.mem p.slot
        h.oldFuncAddr := by
  obtain ⟨hcount, hlook⟩ := hs.lookedUp hquery
  have hvalue := congrFun (installHook_orgFunc u hs hquery halloc hinst) h.ptrOldFuncAddr
  rw [Journal.applyAll_apply] at hvalue
  rw [OwnVariable, ← hookPatches_patchedHooks hs hquery halloc hon, Journal.lastAt_map] at hown
  obtain ⟨k, hk, haddr⟩ := Option.map_eq_some_iff.mp hown
  obtain ⟨e, hlast, rfl⟩ := Option.map_eq_some_iff.mp hk
  rw [hlast] at hvalue
  obtain ⟨he, -⟩ := Journal.mem_of_lastAt _ hlast
  obtain ⟨ps₁, ps₂, hps, hsaved⟩ :=
    hookPatches_saved u hs hquery halloc hinst hok.mapped he
  have hslot := installed_slotReaches hs hquery halloc hinst hok he hps
  obtain ⟨-, -, hend, -⟩ := hok.patch hlook hcount halloc he
  have hlen := hok.fits ps₁ e.2 ps₂ hps
  rw [(mem_hookPatches he).1, haddr] at hlen hend
  rw [haddr] at hsaved hslot
  exact ⟨ps₁, e.2, ps₂, hps, hvalue, hsaved, hslot.jumpBack (by omega)⟩

end

/-- **Calls of hooked functions.** After successful calls of `register_a_hook` and an installation,
the entry of every function that has been found leads to the new function of the last hook that
is installed there, and every variable that is left to its function has the address of a slot that
runs the function. -/
theorem hooked_calls (u : Udis86) {acts : List (RegisterEnv × RegisterCall)} {env : InstallEnv}
    {s s' : HookState} {img img' : Image} {n : ℕ} {mods mods' : List ModulePatchInfo}
    {patchBlks : List PatchBlock} (hreg : runSteps registerStep {} acts = some s)
    (hquery : queryAllOrgFuncAddr env s.modules = some mods)
    (halloc : allocateBlocks env.maps.segs [] mods = some (patchBlks, mods'))
    (hinst : installHook u env s img = some (s', img', n))
    (hok : Installable u env.maps.segs mods mods' patchBlks (mapBlocks patchBlks img.mem)) :
    ∀ md ∈ mods, ∀ h ∈ md.hooks, h.oldFuncAddr ≠ 0 →
      (∃ k, Journal.lastAt HookEntry.oldFuncAddr h.oldFuncAddr (patchedHooks mods) = some k ∧
        JumpsTo img'.mem h.oldFuncAddr k.newFuncAddr) ∧
      (OwnVariable mods h → ∃ ps₁ p ps₂, modulePatches patchBlks mods' = ps₁ ++ p :: ps₂ ∧
        img'.orgFunc h.ptrOldFuncAddr = p.slot ∧
        RunsOriginal u (memBefore u (mapBlocks patchBlks img.mem) ps₁) img'.mem p.slot
          h.oldFuncAddr) := by
  intro md hmd h hh hne
  have hs := registered_of_run hreg
  have hon : ∀ h ∈ hookList s.modules, h.isPatchDisabled = false := by
    intro h hh
    obtain ⟨a, -, heq⟩ := List.mem_map.mp ((hookList_of_run hreg).mem_iff.mp hh)
    rw [← heq]
    rfl
  obtain ⟨k, hlast⟩ := exists_installed hmd hh hne
  exact ⟨⟨k, hlast, installed_jumpsTo hs hquery halloc hinst hok hon hlast⟩,
    installed_runsOriginal hs hquery halloc hinst hok hon⟩

/-! A library with one function, which is hooked. -/

/-- The calls of the example. -/
def openCalls : List (RegisterEnv × RegisterCall) := [aliasCall (bytesOf "open") 8192]

theorem openCalls_ok : AliasOk openCalls :=
  aliasOk openCalls (by decide +kernel) (by decide +kernel) (by decide +kernel)
    (by decide +kernel) (by decide +kernel)

/-- There is one patch, with a page close to the function. -/
theorem openCalls_installable : Installable sampleUdis86 aliasEnv.maps.segs (aliasModules openCalls)
    (aliasAlloc openCalls).2 (aliasAlloc openCalls).1
    (mapBlocks (aliasAlloc openCalls).1 sampleImage.mem) := by
  have haddr : (aliasModules openCalls).all
      (fun md => md.hooks.all fun h => h.oldFuncAddr == 69632) = true := by decide +kernel
  have hplace : (aliasAlloc openCalls).2.all (fun md => md.idxPatchBlk == 0 &&
      md.hooks.all fun h => h.oldFuncAddr == 69632 && h.newFuncAddr == 4096) = true := by
    decide +kernel
  have hpage : (aliasAlloc openCalls).1[0]?.map PatchBlock.patchAddr = some 131072 := by
    decide +kernel
  have hpatch : modulePatches (aliasAlloc openCalls).1 (aliasAlloc openCalls).2 =
      [⟨0, 0, 131072, 69632, 4096⟩] := by decide +kernel
  have hat : ∀ md ∈ aliasModules openCalls, ∀ h ∈ md.hooks, h.oldFuncAddr = 69632 :=
    fun md hmd h hh => eq_of_beq (List.all_eq_true.mp (List.all_eq_true.mp haddr md hmd) h hh)
  have hat' : ∀ md ∈ (aliasAlloc openCalls).2, md.idxPatchBlk = 0 ∧
      ∀ h ∈ md.hooks, h.oldFuncAddr = 69632 ∧ h.newFuncAddr = 4096 := by
    intro md hmd
    obtain ⟨hidx, hhooks⟩ := Bool.and_eq_true_iff.mp (List.all_eq_true.mp hplace md hmd)
    refine ⟨eq_of_beq hidx, fun h hh => ?_⟩
    obtain ⟨hold, hnew⟩ := Bool.and_eq_true_iff.mp (List.all_eq_true.mp hhooks h hh)
    exact ⟨eq_of_beq hold, eq_of_beq hnew⟩
  refine ⟨openCalls_ok.mapped, fun md hmd h hh md' hmd' h' hh' _ _ => .inl ?_, by decide,
    fun md hmd _ => ?_, fun md hmd h hh => ?_, fun ps₁ p ps₂ hps => ?_⟩
  · rw [hat md hmd h hh, hat md' hmd' h' hh']
  · obtain ⟨b, hb, hbaddr⟩ := Option.map_eq_some_iff.mp hpage
    refine ⟨b, by rw [(hat' md hmd).1, hb], fun h hh _ x hx hx' => ?_⟩
    rw [((hat' md hmd).2 h hh).1, abs_lt]
    omega
  · rw [((hat' md hmd).2 h hh).2]
    norm_num
  · rw [hpatch] at hps
    obtain ⟨rfl, hp⟩ : ps₁ = [] ∧ p :: ps₂ = [⟨0, 0, 131072, 69632, 4096⟩] := by
      rcases ps₁ with _ | ⟨q, ps₁⟩
      · exact ⟨rfl, hps.symm⟩
      · have hlen := congrArg List.length hps
        simp only [List.length_cons, List.length_nil, List.length_append] at hlen
        omega
    rw [(List.cons.inj hp).1]
    decide +kernel

/-- A call of `open` ends up in the new function at 4096, and the variable at 8192 has the address
of code that goes on in the library. -/
theorem hooked_calls_open : ∃ s' img' n,
    installHook sampleUdis86 aliasEnv (aliasState openCalls) sampleImage = some (s', img', n) ∧
      JumpsTo img'.mem 69632 4096 ∧
      ∃ k, jumpFrom img'.mem (img'.orgFunc 8192 + k) = some (69632 + k) := by
  have hok := openCalls_ok
  obtain ⟨s', img', n, hinst⟩ := installHook_isSome sampleUdis86 (registered_of_run hok.reg)
    hok.query hok.alloc sampleImage
  have hhook : (aliasModules openCalls).any (fun md => md.hooks.any fun h =>
      h.oldFuncAddr == 69632 && h.ptrOldFuncAddr == 8192 &&
        decide (OwnVariable (aliasModules openCalls) h)) = true := by decide +kernel
  have hnew : (Journal.lastAt HookEntry.oldFuncAddr 69632
      (patchedHooks (aliasModules openCalls))).map HookEntry.newFuncAddr = some 4096 := by
    decide +kernel
  obtain ⟨md, hmd, hany⟩ := List.any_eq_true.mp hhook
  obtain ⟨h, hh, hprops⟩ := List.any_eq_true.mp hany
  simp only [Bool.and_eq_true, beq_iff_eq, decide_eq_true_eq] at hprops
  obtain ⟨⟨haddr, hptr⟩, hown⟩ := hprops
  obtain ⟨⟨k, hlast, hjumps⟩, hcall⟩ := hooked_calls sampleUdis86 hok.reg hok.query hok.alloc hinst
    openCalls_installable md hmd h hh (by rw [haddr]; norm_num)
  obtain ⟨ps₁, p, ps₂, -, hslot, hruns⟩ := hcall hown
  rw [haddr] at hlast hjumps hruns
  rw [hlast] at hnew
  rw [Option.some.inj hnew] at hjumps
  rw [hptr] at hslot
  exact ⟨s', img', n, hinst, hjumps, _, hslot ▸ hruns.back⟩

end Ooops
