import Ooops.HookTable

/-!
# The Limits of the Table

The table has `MAX_MODULE` entries for modules, each with `MAX_PATCH` entries for functions.
`register_a_hook` compares the number of all functions with `MAX_PATCH` when it has entered
one more, and reports an error then, but leaves it in the table. The number of modules is not
compared with anything.

## Main results

* `hookList_of_run`: the table holds the hooks of the successful calls, and no others.
* `registration_bounded_iff`: exactly when all calls stay inside the table, and those that
  report an error leave it alone.
-/

open Basis

namespace Ooops

/-! ### The table and the calls -/

/-- The functions in a table. -/
def hookList (modules : List ModulePatchInfo) : List HookEntry :=
  modules.flatMap ModulePatchInfo.hooks

/-- What a call enters. -/
def RegisterCall.hook (c : RegisterCall) : HookEntry :=
  ⟨c.funcName, c.newFuncAddr, c.ptrOrgFunc, 0, false⟩

theorem hookList_modify {modules : List ModulePatchInfo} {i : ℕ} (hi : i < modules.length)
    (hook : HookEntry) :
    (hookList (modules.modify i fun md => { md with hooks := md.hooks ++ [hook] })).Perm
      (hookList modules ++ [hook]) := by
  induction modules generalizing i with
  | nil => cases hi
  | cons md mds ih =>
      cases i with
      | zero =>
          simp only [hookList, List.modify_zero_cons, List.flatMap_cons, List.append_assoc]
          exact List.perm_append_comm.append_left _
      | succ i =>
          have hrest := ih (Nat.lt_of_succ_lt_succ hi)
          simp only [hookList, List.modify_succ_cons, List.flatMap_cons,
            List.append_assoc] at hrest ⊢
          exact hrest.append_left _

theorem addHook_perm {name : CStr} {base : ℕ} {c : RegisterCall} {s s' : HookState}
    (h : s.addHook name base c = some s') :
    (hookList s'.modules).Perm (hookList s.modules ++ [c.hook]) := by
  simp only [HookState.addHook] at h
  split at h
  · rename_i i hfind
    obtain rfl := Option.some.inj h
    exact hookList_modify (List.findIdx?_eq_some_iff_getElem.mp hfind).1 _
  · split at h
    · obtain rfl := Option.some.inj h
      simp only [hookList, List.flatMap_append, List.flatMap_cons, List.flatMap_nil,
        List.append_nil]
      exact List.Perm.refl _
    · cases h

/-- **The table holds the hooks of the calls.** -/
theorem hookList_of_run {acts : List (RegisterEnv × RegisterCall)} {s : HookState}
    (h : runSteps registerStep {} acts = some s) :
    (hookList s.modules).Perm (acts.map fun a => a.2.hook) := by
  refine history_of_runSteps (P := fun _ _ => True)
    (I := fun acts s => (hookList s.modules).Perm (acts.map fun a => a.2.hook)) (List.Perm.refl _)
    ?_ acts s (along_of_forall (fun _ _ => trivial) _ _) h
  intro acts s a s' hperm _ hstep
  obtain ⟨s₁, name, base, hm, -, -, -, hadd, -⟩ := registerStep_spec hstep
  have hadd := addHook_perm hadd
  rw [hm] at hadd
  rw [List.map_append, List.map_singleton]
  exact hadd.trans (hperm.append_right _)

/-! ### The limits -/

/-- Where the function of a call is stored: the index of its module, and its own index there. -/
def HookState.storePlace (name : CStr) (s : HookState) : ℕ × ℕ :=
  match s.modules.findIdx? fun md => name == md.moduleName with
  | some i => (i, (s.modules[i]?.map fun md => md.hooks.length).getD 0)
  | none => (s.modules.length, 0)

/-- A call, whatever it reports. -/
def tableStep (s : HookState) (a : RegisterEnv × RegisterCall) : Option HookState :=
  (registerAHook a.1 a.2 s).map Prod.fst

/-- What should hold of a call: a function that it stores is stored inside the table, and if it
reports an error, the table is as before. -/
structure Bounded (s : HookState) (a : RegisterEnv × RegisterCall) : Prop where
  store : ∀ s₁ name base, registerReach a.1 a.2 s = some (s₁, name, base) →
    (s₁.storePlace name).1 < 16 ∧ (s₁.storePlace name).2 < 48
  atomic : ∀ s' r, registerAHook a.1 a.2 s = some (s', r) → r ≠ .success →
    s'.numHook = s.numHook ∧ s'.modules = s.modules

/-- There is room for the function of the call: fewer than `MAX_PATCH` functions have been
registered, and its module has been or fewer than `MAX_MODULE` modules have. -/
def HasRoom (s : HookState) (a : RegisterEnv × RegisterCall) : Prop :=
  ∀ s₁ name base, registerReach a.1 a.2 s = some (s₁, name, base) →
    s.numHook < 48 ∧ ((∃ md ∈ s.modules, md.moduleName = name) ∨ s.modules.length < 16)

/-- What all calls keep. -/
structure Counted (s : HookState) : Prop where
  count : (hookList s.modules).length = s.numHook
  le : s.modules.length ≤ 16

/-- A function is counted when it is entered, and there are at most `MAX_MODULE` modules. -/
theorem addHook_counted {name : CStr} {base : ℕ} {c : RegisterCall} {s s' : HookState}
    (h : s.addHook name base c = some s') (hs : Counted s) :
    s'.numHook = s.numHook + 1 ∧ Counted s' := by
  have hlen := (addHook_perm h).length_eq
  rw [List.length_append, List.length_singleton, hs.count] at hlen
  have hmore : s'.numHook = s.numHook + 1 ∧ s'.modules.length ≤ 16 := by
    simp only [HookState.addHook] at h
    split at h
    · obtain rfl := Option.some.inj h
      exact ⟨rfl, by simpa only [List.length_modify] using hs.le⟩
    · split at h
      · rename_i hlt
        obtain rfl := Option.some.inj h
        exact ⟨rfl, by rw [List.length_append, List.length_singleton]; exact hlt⟩
      · cases h
  exact ⟨hmore.1, hlen.trans hmore.1.symm, hmore.2⟩

theorem tableStep_counted {s s' : HookState} {a : RegisterEnv × RegisterCall} (hs : Counted s)
    (h : tableStep s a = some s') : Counted s' := by
  obtain ⟨⟨t, r⟩, hreg, rfl⟩ := Option.map_eq_some_iff.mp h
  have hout := registerAHook_outcome a.1 a.2 s
  rw [hreg] at hout
  generalize hres : some (t, r) = res at hout
  cases hout with
  | refused _ _ _ _ hm hn =>
      cases hres
      exact ⟨by rw [hm, hn, hs.count], by rw [hm]; exact hs.le⟩
  | exits => cases hres
  | reaches s₁ name base _ hm hn =>
      obtain ⟨s₂, hadd, heq⟩ := Option.map_eq_some_iff.mp hres.symm
      obtain rfl := (Prod.mk.inj heq).1
      exact (addHook_counted hadd ⟨by rw [hm, hn, hs.count], by rw [hm]; exact hs.le⟩).2

/-- A module of a table has no more functions than the table. -/
theorem length_hooks_le {modules : List ModulePatchInfo} {md : ModulePatchInfo}
    (hmd : md ∈ modules) : md.hooks.length ≤ (hookList modules).length := by
  obtain ⟨before, after, rfl⟩ := List.append_of_mem hmd
  simp only [hookList, List.flatMap_append, List.flatMap_cons, List.length_append]
  omega

/-- Where the function is stored, by whether its module is there. -/
theorem storePlace_cases (name : CStr) (s : HookState) :
    (∃ i md, s.modules.findIdx? (fun md => name == md.moduleName) = some i ∧
        i < s.modules.length ∧ md ∈ s.modules ∧ md.moduleName = name ∧
        s.storePlace name = (i, md.hooks.length)) ∨
      s.modules.findIdx? (fun md => name == md.moduleName) = none ∧
        (∀ md ∈ s.modules, md.moduleName ≠ name) ∧
        s.storePlace name = (s.modules.length, 0) := by
  rw [HookState.storePlace]
  cases hfind : s.modules.findIdx? fun md => name == md.moduleName with
  | some i =>
      obtain ⟨hi, hname, -⟩ := List.findIdx?_eq_some_iff_getElem.mp hfind
      refine .inl ⟨i, s.modules[i], rfl, hi, List.getElem_mem hi, (eq_of_beq hname).symm, ?_⟩
      dsimp only
      rw [List.getElem?_eq_getElem hi]
      rfl
  | none =>
      refine .inr ⟨rfl, fun md hmd heq => ?_, rfl⟩
      have hno := List.findIdx?_eq_none_iff.mp hfind md hmd
      rw [heq, beq_self_eq_true] at hno
      cases hno

/-- The module of the function is inside the table if it is there or there is room for it. -/
theorem storePlace_fst_lt_iff {name : CStr} {s : HookState} (hs : Counted s) :
    (s.storePlace name).1 < 16 ↔
      (∃ md ∈ s.modules, md.moduleName = name) ∨ s.modules.length < 16 := by
  rcases storePlace_cases name s with ⟨i, md, -, hi, hmd, hname, hat⟩ | ⟨-, hno, hat⟩
  · rw [hat]
    exact iff_of_true (lt_of_lt_of_le hi hs.le) (.inl ⟨md, hmd, hname⟩)
  · rw [hat, or_iff_right fun ⟨md, hmd, hname⟩ => hno md hmd hname]

/-- The function is inside its module as long as fewer than `MAX_PATCH` are counted. -/
theorem storePlace_snd_lt {name : CStr} {s : HookState} (hs : Counted s)
    (hroom : s.numHook < 48) : (s.storePlace name).2 < 48 := by
  rcases storePlace_cases name s with ⟨i, md, -, -, hmd, -, hat⟩ | ⟨-, -, hat⟩
  · have hfew := length_hooks_le hmd
    rw [hs.count] at hfew
    rw [hat]
    exact lt_of_le_of_lt hfew hroom
  · rw [hat]
    norm_num

/-- A function whose module is inside the table is entered. -/
theorem addHook_of_storePlace {name : CStr} {s : HookState} (h : (s.storePlace name).1 < 16)
    (base : ℕ) (c : RegisterCall) : ∃ s', s.addHook name base c = some s' := by
  simp only [HookState.addHook]
  rcases storePlace_cases name s with ⟨i, md, hfind, -⟩ | ⟨hfind, -, hat⟩
  · rw [hfind]
    exact ⟨_, rfl⟩
  · rw [hat] at h
    rw [hfind]
    exact ⟨_, if_pos h⟩

/-- **A call is bounded exactly if there is room.** -/
theorem bounded_iff {s : HookState} {a : RegisterEnv × RegisterCall} (hs : Counted s) :
    Bounded s a ↔ HasRoom s a := by
  have hout := registerAHook_outcome a.1 a.2 s
  generalize hres : registerAHook a.1 a.2 s = res at hout
  cases hout with
  | refused hreach s' r hr hm hn =>
      refine iff_of_true ⟨fun s₁ name base h => ?_, fun s'' r' h _ => ?_⟩ fun s₁ name base h => ?_
      · cases hreach.symm.trans h
      · obtain ⟨rfl, -⟩ := Prod.mk.inj (Option.some.inj (hres.symm.trans h))
        exact ⟨hn, hm⟩
      · cases hreach.symm.trans h
  | exits hreach =>
      refine iff_of_true ⟨fun s₁ name base h => ?_, fun s'' r' h _ => ?_⟩ fun s₁ name base h => ?_
      · cases hreach.symm.trans h
      · cases hres.symm.trans h
      · cases hreach.symm.trans h
  | reaches s₁ name base hreach hm hn =>
      have hs₁ : Counted s₁ := ⟨by rw [hm, hn, hs.count], by rw [hm]; exact hs.le⟩
      have hsame : ∀ t name' base', registerReach a.1 a.2 s = some (t, name', base') →
          s₁ = t ∧ name = name' := by
        intro t name' base' h
        cases hreach.symm.trans h
        exact ⟨rfl, rfl⟩
      constructor
      · intro hbounded t name' base' h
        obtain ⟨rfl, rfl⟩ := hsame _ _ _ h
        have hfirst := (hbounded.store _ _ _ hreach).1
        obtain ⟨s₂, hadd⟩ := addHook_of_storePlace hfirst base a.2
        refine ⟨?_, hm ▸ (storePlace_fst_lt_iff hs₁).mp hfirst⟩
        by_contra hfull
        -- the function that is one too many has been counted
        have hnum := (addHook_counted hadd hs₁).1
        rw [hadd, Option.map_some, if_pos (by omega)] at hres
        have := (hbounded.atomic _ _ hres nofun).1
        omega
      · intro hroom
        obtain ⟨hless, hmodule⟩ := hroom _ _ _ hreach
        rw [← hn] at hless
        rw [← hm] at hmodule
        refine ⟨fun t name' base' h => ?_, fun s' r h hr => ?_⟩
        · obtain ⟨rfl, rfl⟩ := hsame _ _ _ h
          exact ⟨(storePlace_fst_lt_iff hs₁).mpr hmodule, storePlace_snd_lt hs₁ hless⟩
        · obtain ⟨s₂, hadd, heq⟩ := Option.map_eq_some_iff.mp (hres.symm.trans h)
          have hnum := (addHook_counted hadd hs₁).1
          rw [if_neg (by omega)] at heq
          exact absurd (Prod.mk.inj heq).2.symm hr

/-- **Exactly when a sequence of calls stays inside the table**, and leaves it alone where it
reports an error: if and only if all calls that enter a function find room for it. -/
theorem registration_bounded_iff (acts : List (RegisterEnv × RegisterCall)) :
    Along tableStep Bounded {} acts ↔ Along tableStep HasRoom {} acts := by
  have hinit : Counted {} := ⟨rfl, Nat.zero_le 16⟩
  constructor
  · intro h
    exact h.imp_of_invariant hinit (fun _ _ _ hs _ hstep => tableStep_counted hs hstep)
      fun _ _ hs => (bounded_iff hs).mp
  · intro h
    exact h.imp_of_invariant hinit (fun _ _ _ hs _ hstep => tableStep_counted hs hstep)
      fun _ _ hs => (bounded_iff hs).mpr

/-! A process that hooks a function of one library again and again. -/

/-- The call. -/
def mathCall : RegisterEnv × RegisterCall :=
  (⟨some ⟨[], [], []⟩, ⟨[(bytesOf "libm.so", 65536)], []⟩, none⟩,
    ⟨bytesOf "libm.so", bytesOf "sin", 4096, 8192⟩)

/-- The call after 48 others is stored behind the arrays of its module, and reported as an error
when it has been counted. -/
theorem too_many_hooks_stored : ¬Along tableStep Bounded {} (List.replicate 49 mathCall) := by
  intro h
  have hsplit : List.replicate 49 mathCall = List.replicate 48 mathCall ++ [mathCall] := rfl
  rw [hsplit] at h
  have hrun : (runSteps tableStep {} (List.replicate 48 mathCall)).map
      (fun s => (s.numHook, (registerReach mathCall.1 mathCall.2 s).isSome)) = some (48, true) := by
    decide +kernel
  obtain ⟨s, hs, hat⟩ := Option.map_eq_some_iff.mp hrun
  obtain ⟨hnum, hreach⟩ := Prod.mk.inj hat
  obtain ⟨⟨s₁, name, base⟩, hreach⟩ := Option.isSome_iff_exists.mp hreach
  have hcounted : Counted s := invariant_of_runSteps (P := fun _ _ => True)
    ⟨rfl, Nat.zero_le 16⟩ (fun _ _ _ hc _ hstep => tableStep_counted hc hstep)
    (along_of_forall (fun _ _ => trivial) _ _) hs
  have hroom := (bounded_iff hcounted).mp (h.concat.2 s hs) s₁ name base hreach
  omega

end Ooops
