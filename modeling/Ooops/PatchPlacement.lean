import Ooops.HookTable

/-!
# Where the Pages for the Trampolines Are

The pages are mapped with `MAP_FIXED`, which replaces what is mapped there already, and the
jumps to them and back are 32 bits wide. So a page has to be close to all functions of the
modules that use it, and apart from the other pages and from everything that the process has
mapped: the recorded segments (`segs`) and those from `[stack]` on, which are not recorded
(`tail`).

A page that is shared has been checked for its distance, but a new one has not, and the
module that it has been mapped for keeps its `idx_patch_blk` and uses the first page of all.
The list of segments does not know about the new page either, and nothing is known about the
gap behind the last recorded segment.

## Main results

* `Ranged.close_of_near`: the check of `find_usable_block` is enough for all functions of a
  module and all bytes of the page.
* `allocateBlocks_placement_iff`: exactly when all pages are where they should be.
* `Mapped.pages`: in any case the pages that are used are apart from each other.
-/

open Basis

namespace Ooops

/-! ### The segments and the modules -/

/-- What is known of the memory map: the ranges are in order, disjoint and not empty. -/
structure SegmentsOk (segs : List (ℕ × ℕ)) : Prop where
  sorted : segs.Pairwise fun seg seg' => seg.2 ≤ seg'.1
  lt : ∀ seg ∈ segs, seg.1 < seg.2

/-- The module comes with the range of the addresses that have been found, and no page has been
assigned to it. -/
structure ModulePatchInfo.Ranged (md : ModulePatchInfo) : Prop where
  idx : md.idxPatchBlk = 0
  range : (md.oldFuncAddrMin, md.oldFuncAddrMax) = addrRange md.hooks

/-- The module has a function that has been found. -/
def ModulePatchInfo.HasFunc (md : ModulePatchInfo) : Prop :=
  ∃ h ∈ md.hooks, h.oldFuncAddr ≠ 0

/-- All addresses that have been found are in the range. -/
theorem le_addrRange {hooks : List HookEntry} {h : HookEntry} (hh : h ∈ hooks)
    (haddr : h.oldFuncAddr ≠ 0) :
    (addrRange hooks).1 ≤ h.oldFuncAddr ∧ h.oldFuncAddr ≤ (addrRange hooks).2 := by
  -- the range only grows, and the step at `h` puts its address inside
  have hgrow : ∀ (hs : List HookEntry) (r : ℕ × ℕ),
      ((hs.foldl (fun r h =>
        if h.oldFuncAddr = 0 then r
        else (if h.oldFuncAddr < r.1 then h.oldFuncAddr else r.1,
          if r.2 < h.oldFuncAddr then h.oldFuncAddr else r.2)) r).1 ≤ r.1 ∧
      r.2 ≤ (hs.foldl (fun r h =>
        if h.oldFuncAddr = 0 then r
        else (if h.oldFuncAddr < r.1 then h.oldFuncAddr else r.1,
          if r.2 < h.oldFuncAddr then h.oldFuncAddr else r.2)) r).2) := by
    intro hs
    induction hs with
    | nil => exact fun r => ⟨le_rfl, le_rfl⟩
    | cons k hs ih =>
        intro r
        rw [List.foldl_cons]
        split
        · exact ih r
        · obtain ⟨hmin, hmax⟩ := ih (if k.oldFuncAddr < r.1 then k.oldFuncAddr else r.1,
            if r.2 < k.oldFuncAddr then k.oldFuncAddr else r.2)
          dsimp only at hmin hmax
          refine ⟨hmin.trans ?_, le_trans ?_ hmax⟩ <;> split <;> omega
  obtain ⟨before, after, rfl⟩ := List.append_of_mem hh
  rw [addrRange, List.foldl_append, List.foldl_cons, if_neg haddr]
  generalize before.foldl _ _ = r
  obtain ⟨hmin, hmax⟩ := hgrow after (if h.oldFuncAddr < r.1 then h.oldFuncAddr else r.1,
    if r.2 < h.oldFuncAddr then h.oldFuncAddr else r.2)
  dsimp only at hmin hmax
  refine ⟨hmin.trans ?_, le_trans ?_ hmax⟩ <;> split <;> omega

/-- The range depends on the addresses only. -/
theorem addrRange_congr {hooks hooks' : List HookEntry}
    (h : hooks.map HookEntry.oldFuncAddr = hooks'.map HookEntry.oldFuncAddr) :
    addrRange hooks = addrRange hooks' := by
  have hof : ∀ hooks : List HookEntry, addrRange hooks =
      (hooks.map HookEntry.oldFuncAddr).foldl (fun r a =>
        if a = 0 then r else (if a < r.1 then a else r.1, if r.2 < a then a else r.2))
        ((((hooks.map HookEntry.oldFuncAddr).find? fun a => a ≠ 0).getD 0),
          (((hooks.map HookEntry.oldFuncAddr).find? fun a => a ≠ 0).getD 0)) := by
    intro hooks
    rw [List.foldl_map, List.find?_map]
    rfl
  rw [hof, hof, h]

/-- The modules whose functions have been looked up come with their ranges. -/
theorem queryAllOrgFuncAddr_ranged {env : InstallEnv} {modules mods : List ModulePatchInfo}
    (h : queryAllOrgFuncAddr env modules = some mods) (hfresh : ∀ md ∈ modules, md.Fresh) :
    ∀ md ∈ mods, md.Ranged := by
  intro md hmd
  obtain ⟨renamed, hrename, hlook⟩ := Option.bind_eq_some_iff.mp h
  obtain ⟨md₁, hmd₁, heq⟩ := exists_of_mapM hlook hmd
  obtain ⟨md₀, hmd₀, heq₁⟩ := exists_of_mapM hrename hmd₁
  obtain ⟨lib, -, rfl⟩ := Option.map_eq_some_iff.mp heq₁
  obtain ⟨symbols, -, rfl⟩ := Option.map_eq_some_iff.mp heq
  refine ⟨(hfresh _ hmd₀).idx, addrRange_congr ?_⟩
  dsimp only
  rw [List.map_map]
  refine List.map_congr_left fun k _ => ?_
  simp only [Function.comp_apply]
  split <;> rfl

/-! ### The distance -/

/-- A jump between the functions of the module and the page fits into 32 bits. -/
def CloseTo (patchAddr : ℕ) (md : ModulePatchInfo) : Prop :=
  ∀ h ∈ md.hooks, h.oldFuncAddr ≠ 0 → ∀ x, patchAddr ≤ x → x < patchAddr + 4096 →
    |(h.oldFuncAddr : ℤ) - x| < 2 ^ 31

/-- **The check of the range is enough** for all functions and all bytes of the page. -/
theorem ModulePatchInfo.Ranged.close_of_near {md : ModulePatchInfo} (hmd : md.Ranged)
    {patchAddr : ℕ} (hnear : NearBlock patchAddr md) : CloseTo patchAddr md := by
  intro h hh hne x hle hlt
  obtain ⟨hmin, hmax⟩ := le_addrRange hh hne
  rw [← hmd.range] at hmin hmax
  have hmid := hnear.lt hmin hmax
  rw [nullRipVarOffset, abs_lt] at hmid
  rw [abs_lt]
  omega

/-! ### The conditions -/

/-- What a new page behind the segment `seg`, number `i` of the recorded ones, depends on. -/
structure NewPageOk (segs tail : List (ℕ × ℕ)) (patchBlks : List PatchBlock)
    (md : ModulePatchInfo) (i : ℕ) (seg : ℕ × ℕ) : Prop where
  /-- The module keeps the first page, which is the new one if there is no other. -/
  close : CloseTo ((patchBlks.head?.map PatchBlock.patchAddr).getD seg.2) md
  /-- No page has been mapped there before. -/
  unused : ∀ b ∈ patchBlks, b.patchAddr ≠ seg.2
  /-- Behind the last recorded segment there is room for a page. -/
  room : i + 1 = segs.length → ∀ t ∈ tail, seg.2 + 4096 ≤ t.1

/-- The condition under which the next module is served: a page that is near, or a new page
that is in the right place. -/
def PageOk (segs tail : List (ℕ × ℕ)) (patchBlks : List PatchBlock)
    (md : ModulePatchInfo) : Prop :=
  ¬(md.oldFuncAddrMin = 0 ∧ md.oldFuncAddrMax = 0) → findUsableBlock patchBlks md = none →
    ∀ i seg, segs.findIdx? (fun seg => decide (seg.1 ≤ md.check ∧ md.check ≤ seg.2)) = some i →
      segs[i]? = some seg → NewPageOk segs tail patchBlks md i seg

/-- The pages after the next module. -/
def pageStep (segs : List (ℕ × ℕ)) (patchBlks : List PatchBlock) (md : ModulePatchInfo) :
    Option (List PatchBlock) :=
  (allocateModule segs patchBlks md).map Prod.fst

/-- The pages are apart from each other and from everything that was mapped. -/
structure PagesFree (mapped : List (ℕ × ℕ)) (patchBlks : List PatchBlock) : Prop where
  apart : patchBlks.Pairwise fun b b' =>
    b.patchAddr + 4096 ≤ b'.patchAddr ∨ b'.patchAddr + 4096 ≤ b.patchAddr
  free : ∀ b ∈ patchBlks, ∀ seg ∈ mapped,
    seg.2 ≤ b.patchAddr ∨ b.patchAddr + 4096 ≤ seg.1

/-- The module has a page that is close to its functions. -/
def ModulePatchInfo.Served (md : ModulePatchInfo) (patchBlks : List PatchBlock) : Prop :=
  ∃ b, patchBlks[md.idxPatchBlk]? = some b ∧ CloseTo b.patchAddr md

/-- **Where the pages should be.** -/
structure Placement (mapped : List (ℕ × ℕ)) (patchBlks : List PatchBlock)
    (mods : List ModulePatchInfo) : Prop extends PagesFree mapped patchBlks where
  served : ∀ md ∈ mods, md.HasFunc → md.Served patchBlks

/-! ### One module -/

/-- The pages are behind recorded segments, and nothing is in their way. -/
structure PagesBehind (segs tail : List (ℕ × ℕ)) (patchBlks : List PatchBlock) : Prop
    extends PagesFree (segs ++ tail) patchBlks where
  behind : ∀ b ∈ patchBlks, ∃ seg ∈ segs, b.patchAddr = seg.2

/-- The segments around a gap: all others are before it or behind it. -/
theorem sorted_split {segs : List (ℕ × ℕ)}
    (hsorted : segs.Pairwise fun seg seg' => seg.2 ≤ seg'.1) (hle : ∀ seg ∈ segs, seg.1 ≤ seg.2)
    {i : ℕ} {seg : ℕ × ℕ} (hi : segs[i]? = some seg) :
    ∀ seg' ∈ segs, seg'.2 ≤ seg.2 ∨
      ∃ next, segs[i + 1]? = some next ∧ next.1 ≤ seg'.1 := by
  intro seg' hseg'
  obtain ⟨j, hj⟩ := List.mem_iff_getElem?.mp hseg'
  obtain ⟨hi', hi⟩ := List.getElem?_eq_some_iff.mp hi
  obtain ⟨hj', hj⟩ := List.getElem?_eq_some_iff.mp hj
  have hpair := List.pairwise_iff_getElem.mp hsorted
  rcases Nat.lt_trichotomy j i with hlt | rfl | hgt
  · left
    have h := hpair j i hj' hi' hlt
    rw [hi, hj] at h
    have := hle seg (hi ▸ List.getElem_mem hi')
    omega
  · left
    rw [← hi, ← hj]
  · right
    have hnext : i + 1 < segs.length := by omega
    refine ⟨segs[i + 1], List.getElem?_eq_getElem hnext, ?_⟩
    rcases Nat.eq_or_lt_of_le (Nat.succ_le_of_lt hgt) with heq | hlt
    · subst heq
      exact (congrArg Prod.fst hj).le
    · have h := hpair (i + 1) j hnext hj' hlt
      rw [hj] at h
      have := hle _ (List.getElem_mem hnext)
      omega

section

variable {segs tail : List (ℕ × ℕ)} (hsegs : SegmentsOk (segs ++ tail))
  {patchBlks patchBlks' : List PatchBlock} {md md' : ModulePatchInfo}

include hsegs

/-- Behind a segment there is room for a page up to the next one. Only behind the last recorded
segment this has to be known. -/
theorem newPage_free {i : ℕ} {seg : ℕ × ℕ} (hget : segs[i]? = some seg)
    (hgap : ∀ next, segs[i + 1]? = some next → seg.2 + 4096 ≤ next.1)
    (hroom : i + 1 = segs.length → ∀ t ∈ tail, seg.2 + 4096 ≤ t.1) :
    ∀ t ∈ segs ++ tail, t.2 ≤ seg.2 ∨ seg.2 + 4096 ≤ t.1 := by
  intro t ht
  have hi := (List.getElem?_eq_some_iff.mp hget).1
  have hget' : (segs ++ tail)[i]? = some seg := by rw [List.getElem?_append_left hi, hget]
  refine (sorted_split hsegs.sorted (fun seg h => (hsegs.lt seg h).le) hget' t ht).imp_right ?_
  rintro ⟨next, hnext, hle⟩
  refine le_trans ?_ hle
  rcases Nat.lt_or_ge (i + 1) segs.length with hlt | hge
  · rw [List.getElem?_append_left hlt] at hnext
    exact hgap next hnext
  · rw [List.getElem?_append_right hge] at hnext
    exact hroom (by omega) next (List.mem_of_getElem? hnext)

/-- A new page that has not been mapped before is apart from the others. -/
theorem PagesBehind.concat (h : PagesBehind segs tail patchBlks) {seg : ℕ × ℕ} (hseg : seg ∈ segs)
    (hunused : ∀ b ∈ patchBlks, b.patchAddr ≠ seg.2)
    (hfree : ∀ t ∈ segs ++ tail, t.2 ≤ seg.2 ∨ seg.2 + 4096 ≤ t.1) :
    PagesBehind segs tail (patchBlks ++ [⟨seg.2, 0⟩]) := by
  refine ⟨⟨List.pairwise_append.mpr ⟨h.apart, List.pairwise_singleton _ _, ?_⟩, ?_⟩, ?_⟩
  · intro b hb c hc
    rw [List.mem_singleton.mp hc]
    obtain ⟨seg', hseg', hpage⟩ := h.behind b hb
    have hne := hunused b hb
    have hlt := hsegs.lt seg (List.mem_append_left _ hseg)
    have hlt' := hsegs.lt seg' (List.mem_append_left _ hseg')
    rcases hfree seg' (List.mem_append_left _ hseg') with hbefore | hafter
    · rcases h.free b hb seg (List.mem_append_left _ hseg) with hle | hle <;> dsimp only <;> omega
    · dsimp only
      omega
  · intro b hb t ht
    rcases List.mem_append.mp hb with hb | hb
    · exact h.free b hb t ht
    · rw [List.mem_singleton.mp hb]
      exact hfree t ht
  · intro b hb
    rcases List.mem_append.mp hb with hb | hb
    · exact h.behind b hb
    · rw [List.mem_singleton.mp hb]
      exact ⟨seg, hseg, rfl⟩

/-- **A module that meets the condition is served**, and the pages stay in their places. -/
theorem allocateModule_served (hmd : md.Ranged) (hpages : PagesBehind segs tail patchBlks)
    (hok : PageOk segs tail patchBlks md)
    (h : allocateModule segs patchBlks md = some (patchBlks', md')) :
    PagesBehind segs tail patchBlks' ∧ (md'.HasFunc → md'.Served patchBlks') := by
  cases allocateModule_step h with
  | skip hzero =>
      refine ⟨hpages, ?_⟩
      rintro ⟨k, hk, hne⟩
      have hmin := addrRange_ne_zero hk hne
      rw [← hmd.range] at hmin
      exact absurd hzero.1 hmin
  | shared hsome i hfind =>
      obtain ⟨hi, hnear, -⟩ := List.findIdx?_eq_some_iff_getElem.mp hfind
      exact ⟨hpages, fun _ => ⟨patchBlks[i], List.getElem?_eq_getElem hi,
        hmd.close_of_near (of_decide_eq_true hnear)⟩⟩
  | fresh hsome hfind i seg hseg hget hgap =>
      have hnew := hok hsome hfind i seg hseg hget
      refine ⟨hpages.concat hsegs (List.mem_of_getElem? hget) hnew.unused
        (newPage_free hsegs hget hgap hnew.room), fun _ => ?_⟩
      have hclose := hnew.close
      rw [ModulePatchInfo.Served, hmd.idx]
      cases patchBlks with
      | nil => exact ⟨_, rfl, hclose⟩
      | cons b bs => exact ⟨_, rfl, hclose⟩

/-- **The condition is necessary**: whatever pages are mapped later, a module for which it fails
is not served, or its page is in the way of something. -/
theorem pageOk_of_placement (hmd : md.Ranged)
    (h : allocateModule segs patchBlks md = some (patchBlks', md')) {final : List PatchBlock}
    (hpre : patchBlks' <+: final) (hfree : PagesFree (segs ++ tail) final)
    (hserved : md'.HasFunc → md'.Served final) : PageOk segs tail patchBlks md := by
  intro hsome hfind i seg hseg hget
  cases allocateModule_step h with
  | skip hzero => exact absurd hzero hsome
  | shared _ j hfind' =>
      rw [hfind] at hfind'
      cases hfind'
  | fresh _ _ j seg' hseg' hget' hgap =>
      obtain rfl := Option.some.inj (hseg.symm.trans hseg')
      obtain rfl := Option.some.inj (hget.symm.trans hget')
      obtain ⟨later, rfl⟩ := hpre
      have hnew : (⟨seg.2, 0⟩ : PatchBlock) ∈ patchBlks ++ [⟨seg.2, 0⟩] ++ later :=
        List.mem_append_left _ (List.mem_append_right _ (List.mem_singleton_self _))
      refine ⟨fun k hk hne => ?_, fun b hb heq => ?_, fun hlast t ht => ?_⟩
      · obtain ⟨b, hb, hclose⟩ := hserved ⟨k, hk, hne⟩
        rw [hmd.idx] at hb
        cases patchBlks with
        | nil =>
            obtain rfl := Option.some.inj hb
            exact hclose k hk hne
        | cons c cs =>
            obtain rfl := Option.some.inj hb
            exact hclose k hk hne
      · have hpair := (List.pairwise_append.mp hfree.apart).1
        have hapart := (List.pairwise_append.mp hpair).2.2 b hb _ (List.mem_singleton_self _)
        dsimp only at hapart
        omega
      · have hi := (List.getElem?_eq_some_iff.mp hget).1
        have hlt := hsegs.lt t (List.mem_append_right _ ht)
        have hle := (List.pairwise_append.mp hsegs.sorted).2.2 seg (List.mem_of_getElem? hget) t ht
        rcases hfree.free _ hnew t (List.mem_append_right _ ht) with h | h <;> dsimp only at h
        · omega
        · exact h

end

/-! ### All modules -/

section

variable {segs tail : List (ℕ × ℕ)} (hsegs : SegmentsOk (segs ++ tail))

include hsegs

/-- If all modules meet the condition, they are all served. -/
theorem placement_of_along {mods mods' : List ModulePatchInfo}
    {patchBlks patchBlks' : List PatchBlock} (hmods : ∀ md ∈ mods, md.Ranged)
    (hpages : PagesBehind segs tail patchBlks)
    (halong : Along (pageStep segs) (PageOk segs tail) patchBlks mods)
    (h : allocateBlocks segs patchBlks mods = some (patchBlks', mods')) :
    Placement (segs ++ tail) patchBlks' mods' := by
  induction mods generalizing patchBlks mods' with
  | nil =>
      obtain ⟨rfl, rfl⟩ := Prod.mk.inj (Option.some.inj h)
      exact ⟨hpages.toPagesFree, nofun⟩
  | cons md mds ih =>
      obtain ⟨blks₁, md₁, mds₂, hmd, hrest, rfl⟩ := allocateBlocks_cons_iff.mp h
      obtain ⟨hok, halong⟩ := halong
      obtain ⟨hpages₁, hserved⟩ := allocateModule_served hsegs
        (hmods md (List.mem_cons_self ..)) hpages hok hmd
      have hplace := ih (fun m hm => hmods m (List.mem_cons_of_mem _ hm)) hpages₁
        (halong blks₁ (by rw [pageStep, hmd, Option.map_some])) hrest
      refine ⟨hplace.toPagesFree, fun m hm hfunc => ?_⟩
      rcases List.mem_cons.mp hm with rfl | hm
      · obtain ⟨b, hb, hclose⟩ := hserved hfunc
        obtain ⟨later, rfl⟩ := allocateBlocks_keepsBlocks hrest
        have hlt := (List.getElem?_eq_some_iff.mp hb).1
        exact ⟨b, (List.getElem?_append_left hlt).trans hb, hclose⟩
      · exact hplace.served m hm hfunc

/-- If all modules are served, they have all met the condition. -/
theorem along_of_placement {mods mods' : List ModulePatchInfo}
    {patchBlks patchBlks' : List PatchBlock} (hmods : ∀ md ∈ mods, md.Ranged)
    (h : allocateBlocks segs patchBlks mods = some (patchBlks', mods'))
    (hplace : Placement (segs ++ tail) patchBlks' mods') :
    Along (pageStep segs) (PageOk segs tail) patchBlks mods := by
  induction mods generalizing patchBlks mods' with
  | nil => trivial
  | cons md mds ih =>
      obtain ⟨blks₁, md₁, mds₂, hmd, hrest, rfl⟩ := allocateBlocks_cons_iff.mp h
      have hok := pageOk_of_placement hsegs (hmods md (List.mem_cons_self ..)) hmd
        (allocateBlocks_keepsBlocks hrest) hplace.toPagesFree
        (hplace.served md₁ (List.mem_cons_self ..))
      refine .cons_some hok (by rw [pageStep, hmd, Option.map_some]) ?_
      exact ih (fun m hm => hmods m (List.mem_cons_of_mem _ hm)) hrest
        ⟨hplace.toPagesFree, fun m hm => hplace.served m (List.mem_cons_of_mem _ hm)⟩

/-- **Exactly when the pages are where they should be.** The modules come with the ranges of
their functions, and no process has exited. Every module is served by a page that is close to
it, and the pages are apart from each other and from all segments, if and only if for every
module the pages before it meet the condition. -/
theorem allocateBlocks_placement_iff {mods mods' : List ModulePatchInfo}
    {patchBlks : List PatchBlock} (hmods : ∀ md ∈ mods, md.Ranged)
    (h : allocateBlocks segs [] mods = some (patchBlks, mods')) :
    Placement (segs ++ tail) patchBlks mods' ↔
      Along (pageStep segs) (PageOk segs tail) [] mods :=
  ⟨along_of_placement hsegs hmods h,
    fun halong => placement_of_along hsegs hmods ⟨⟨.nil, nofun⟩, nofun⟩ halong h⟩

end

/-! ### The pages that are used -/

/-- What is assumed of the memory map and the functions that have been found: the segments
are disjoint and in order, and the functions lie inside them. -/
structure Mapped (segs : List (ℕ × ℕ)) (mods : List ModulePatchInfo) : Prop where
  ok : SegmentsOk segs
  inside : ∀ md ∈ mods, ∀ h ∈ md.hooks, h.oldFuncAddr ≠ 0 →
    ∃ seg ∈ segs, seg.1 ≤ h.oldFuncAddr ∧ h.oldFuncAddr + 5 ≤ seg.2

/-- The page is empty and behind a segment, and the other segments are apart from it. -/
def BlockBehind (segs : List (ℕ × ℕ)) (b : PatchBlock) : Prop :=
  b.numTrampoline = 0 ∧ ∃ seg ∈ segs, b.patchAddr = seg.2 ∧
    ∀ seg' ∈ segs, seg'.2 ≤ seg.2 ∨ seg.2 + 4096 ≤ seg'.1

/-- The module uses the first page of all, or the first one that is near. -/
def ModulePatchInfo.Assigned (md : ModulePatchInfo) (patchBlks : List PatchBlock) : Prop :=
  md.idxPatchBlk = 0 ∨ findUsableBlock patchBlks md = some md.idxPatchBlk

/-- Page `i` is used: the functions of a module are counted on it. -/
def PageUsed (patchBlks : List PatchBlock) (mods : List ModulePatchInfo) (i : ℕ) : Prop :=
  i < patchBlks.length ∧ ∃ md ∈ mods, md.idxPatchBlk = i

/-- The pages that are used are apart from each other. -/
def UsedApart (patchBlks : List PatchBlock) (mods : List ModulePatchInfo) : Prop :=
  ∀ i j, PageUsed patchBlks mods i → PageUsed patchBlks mods j → i ≠ j →
    blkAddr patchBlks i + 4096 ≤ blkAddr patchBlks j ∨
      blkAddr patchBlks j + 4096 ≤ blkAddr patchBlks i

/-- The functions that have been found are not on the pages that have just been mapped. -/
def OffPages (patchBlks : List PatchBlock) (mods : List ModulePatchInfo) : Prop :=
  ∀ md ∈ mods, ∀ h ∈ md.hooks, h.oldFuncAddr ≠ 0 → ∀ b ∈ patchBlks,
    h.oldFuncAddr + 5 ≤ b.patchAddr ∨ b.patchAddr + 4096 ≤ h.oldFuncAddr

section

variable {segs : List (ℕ × ℕ)} {patchBlks patchBlks' : List PatchBlock}

/-- More pages change nothing. -/
theorem ModulePatchInfo.Assigned.mono {md : ModulePatchInfo} (h : md.Assigned patchBlks)
    (hpre : patchBlks <+: patchBlks') : md.Assigned patchBlks' := by
  obtain ⟨later, rfl⟩ := hpre
  refine h.imp_right fun hfind => ?_
  rw [findUsableBlock] at hfind ⊢
  rw [List.findIdx?_append, hfind, Option.some_or]

/-- Two modules use the same page or pages at different places. -/
theorem ModulePatchInfo.Assigned.ne {md : ModulePatchInfo} (h : md.Assigned patchBlks) {i : ℕ}
    (hlt : i < md.idxPatchBlk) : blkAddr patchBlks i ≠ blkAddr patchBlks md.idxPatchBlk := by
  rcases h with hzero | hfind
  · omega
  · obtain ⟨hi, hnear, hbefore⟩ := List.findIdx?_eq_some_iff_getElem.mp hfind
    have hno := hbefore _ hlt
    rw [blkAddr, blkAddr, List.getElem?_eq_getElem (hlt.trans hi), List.getElem?_eq_getElem hi]
    simp only [Option.map_some, Option.getD_some]
    intro heq
    rw [heq] at hno
    exact hno hnear

/-- Pages at different places are apart. -/
theorem BlockBehind.apart (hsegs : SegmentsOk segs) {b b' : PatchBlock} (h : BlockBehind segs b)
    (h' : BlockBehind segs b') (hne : b.patchAddr ≠ b'.patchAddr) :
    b.patchAddr + 4096 ≤ b'.patchAddr ∨ b'.patchAddr + 4096 ≤ b.patchAddr := by
  obtain ⟨-, seg, hseg, haddr, hothers⟩ := h
  obtain ⟨-, seg', hseg', haddr', hothers'⟩ := h'
  have hlt := hsegs.lt seg hseg
  have hlt' := hsegs.lt seg' hseg'
  rcases hothers seg' hseg' with hbefore | hafter
  · rcases hothers' seg hseg with hbefore' | hafter' <;> omega
  · omega

/-- **The pages are behind segments, and every module uses the first or a near one.** -/
theorem allocateBlocks_assigned (hsegs : SegmentsOk segs) {mods mods' : List ModulePatchInfo}
    (hidx : ∀ md ∈ mods, md.idxPatchBlk = 0) (hblks : ∀ b ∈ patchBlks, BlockBehind segs b)
    (h : allocateBlocks segs patchBlks mods = some (patchBlks', mods')) :
    (∀ b ∈ patchBlks', BlockBehind segs b) ∧ ∀ md ∈ mods', md.Assigned patchBlks' := by
  induction mods generalizing patchBlks mods' with
  | nil =>
      obtain ⟨rfl, rfl⟩ := Prod.mk.inj (Option.some.inj h)
      exact ⟨hblks, List.forall_mem_nil _⟩
  | cons md mds ih =>
      obtain ⟨blks₁, md₁, mds₂, hmd, hrest, rfl⟩ := allocateBlocks_cons_iff.mp h
      have hzero := hidx md (List.mem_cons_self ..)
      have hfirst : (∀ b ∈ blks₁, BlockBehind segs b) ∧ md₁.Assigned blks₁ := by
        cases allocateModule_step hmd with
        | skip => exact ⟨hblks, .inl hzero⟩
        | shared _ i hfind => exact ⟨hblks, .inr hfind⟩
        | fresh hsome hfind i seg hseg hget hgap =>
            refine ⟨fun b hb => ?_, .inl hzero⟩
            rcases List.mem_append.mp hb with hb | hb
            · exact hblks b hb
            · rw [List.mem_singleton.mp hb]
              have hfree := @newPage_free segs [] (by rwa [List.append_nil]) i seg hget
                hgap fun _ => nofun
              rw [List.append_nil] at hfree
              exact ⟨rfl, seg, List.mem_of_getElem? hget, rfl, hfree⟩
      obtain ⟨hblks₁, hassigned⟩ := hfirst
      obtain ⟨hblks₂, hall⟩ := ih (fun m hm => hidx m (List.mem_cons_of_mem _ hm)) hblks₁ hrest
      exact ⟨hblks₂, List.forall_mem_cons.mpr
        ⟨hassigned.mono (allocateBlocks_keepsBlocks hrest), hall⟩⟩

/-- **The pages that are used are apart** from each other, and all pages from the functions. -/
theorem Mapped.pages {mods mods' : List ModulePatchInfo} (hmap : Mapped segs mods)
    (hidx : ∀ md ∈ mods, md.idxPatchBlk = 0)
    (h : allocateBlocks segs [] mods = some (patchBlks, mods')) :
    UsedApart patchBlks mods' ∧ OffPages patchBlks mods := by
  obtain ⟨hblks, hassigned⟩ :=
    allocateBlocks_assigned hmap.ok hidx (List.forall_mem_nil _) h
  have hlt : ∀ i j, PageUsed patchBlks mods' i → PageUsed patchBlks mods' j → i < j →
      blkAddr patchBlks i + 4096 ≤ blkAddr patchBlks j ∨
        blkAddr patchBlks j + 4096 ≤ blkAddr patchBlks i := by
    rintro i j ⟨hi, -⟩ ⟨hj, md, hmd, rfl⟩ hij
    have hne := (hassigned md hmd).ne hij
    rw [blkAddr, blkAddr, List.getElem?_eq_getElem hi, List.getElem?_eq_getElem hj] at hne ⊢
    exact (hblks _ (List.getElem_mem hi)).apart hmap.ok (hblks _ (List.getElem_mem hj)) hne
  refine ⟨fun i j hi hj hne => ?_, fun md hmd k hk hne b hb => ?_⟩
  · rcases Nat.lt_or_gt_of_ne hne with hij | hji
    · exact hlt i j hi hj hij
    · exact (hlt j i hj hi hji).symm
  · obtain ⟨seg, hseg, hin, hin'⟩ := hmap.inside md hmd k hk hne
    obtain ⟨-, seg', -, haddr, hothers⟩ := hblks b hb
    rcases hothers seg hseg with hbefore | hafter <;> omega

end

/-! A program at `0x400000` and the C library far above it, with one function each. -/

/-- A module with one function. -/
def oneFunc (addr : ℕ) : ModulePatchInfo := ⟨[], 0, [⟨[], 0, 0, addr, false⟩], addr, addr, 0⟩

theorem oneFunc_ranged (addr : ℕ) : (oneFunc addr).Ranged := by
  refine ⟨rfl, ?_⟩
  rcases Nat.eq_zero_or_pos addr with rfl | hpos
  · rfl
  · simp [oneFunc, addrRange, hpos.ne']

/-- The segments of the program and of the library. -/
def farSegs : List (ℕ × ℕ) := [(0x400000, 0x401000), (0x7f0000000000, 0x7f0000200000)]

/-- The stack. -/
def farTail : List (ℕ × ℕ) := [(0x7ffc00000000, 0x7ffc00021000)]

theorem farSegs_ok : SegmentsOk (farSegs ++ farTail) := ⟨by decide +kernel, by decide +kernel⟩

/-- The library alone has a page behind it. -/
theorem allocateBlocks_placement_iff_library :
    Placement (farSegs ++ farTail) [⟨0x7f0000200000, 0⟩] [oneFunc 0x7f0000100000] := by
  have halloc : allocateBlocks farSegs [] [oneFunc 0x7f0000100000] =
      some ([⟨0x7f0000200000, 0⟩], [oneFunc 0x7f0000100000]) := rfl
  refine (allocateBlocks_placement_iff farSegs_ok
    (List.forall_mem_singleton.mpr (oneFunc_ranged _)) halloc).mpr ?_
  refine ⟨fun _ _ i seg hseg hget => ?_, fun _ _ => trivial⟩
  obtain rfl : i = 1 := Option.some.inj (hseg.symm.trans (by decide +kernel))
  obtain rfl := Option.some.inj hget
  refine ⟨fun h hh _ x hle hlt => ?_, nofun, by decide +kernel⟩
  obtain rfl := List.mem_singleton.mp hh
  have hle : 0x7f0000200000 ≤ x := hle
  have hlt : x < 0x7f0000200000 + 4096 := hlt
  rw [abs_lt]
  dsimp only
  omega

/-- The program is not served by the page behind the library, nor by its own, which it does not
use. -/
theorem program_not_served : SegmentsOk (farSegs ++ farTail) ∧
    (∀ md ∈ [oneFunc 0x7f0000100000, oneFunc 0x400500], md.Ranged) ∧
    ∃ patchBlks mods', allocateBlocks farSegs [] [oneFunc 0x7f0000100000, oneFunc 0x400500] =
        some (patchBlks, mods') ∧ ¬Placement (farSegs ++ farTail) patchBlks mods' := by
  refine ⟨farSegs_ok, fun md hmd => ?_, [⟨0x7f0000200000, 0⟩, ⟨0x401000, 0⟩],
    [oneFunc 0x7f0000100000, oneFunc 0x400500], rfl, fun hplace => ?_⟩
  · simp only [List.mem_cons, List.not_mem_nil, or_false] at hmd
    rcases hmd with rfl | rfl
    · exact oneFunc_ranged _
    · exact oneFunc_ranged _
  · obtain ⟨b, hb, hclose⟩ := hplace.served (oneFunc 0x400500)
      (List.mem_cons_of_mem _ (List.mem_singleton_self _))
      ⟨_, List.mem_singleton_self _, by decide⟩
    obtain rfl := Option.some.inj hb
    have hfar := hclose _ (List.mem_singleton_self _) (by decide) 0x7f0000200000 le_rfl (by decide)
    revert hfar
    decide +kernel

end Ooops
