import Mathlib.Data.List.Induction

/-!
# Runs of a Partial Step Function

A system is given by a step function `step : σ → α → Option σ`: an action that is not
enabled, or that faults, has no successor. `runSteps step s as` takes the actions `as` in
order, and `Along step P s as` says that every action of the run is taken in a state in
which `P` holds of it.

The two induction rules are stated once here and used for every system built on a step
function:

* `history_of_runSteps` carries a property of the actions taken so far together with the
  state they lead to;
* `invariant_of_runSteps` is its case for a property of the state alone.
-/

namespace Basis

variable {σ α : Type*} {step : σ → α → Option σ} {P : σ → α → Prop}

/-- The state that the actions `as` lead to from `s`, or `none` when one of them has no
successor. -/
def runSteps (step : σ → α → Option σ) : σ → List α → Option σ
  | s, [] => some s
  | s, a :: as => (step s a).bind fun s' => runSteps step s' as

/-- Every action of the run of `as` from `s` is taken in a state that `P` allows it in. -/
def Along (step : σ → α → Option σ) (P : σ → α → Prop) : σ → List α → Prop
  | _, [] => True
  | s, a :: as => P s a ∧ ∀ s', step s a = some s' → Along step P s' as

@[simp] theorem runSteps_nil (s : σ) : runSteps step s [] = some s := rfl

@[simp] theorem runSteps_cons (s : σ) (a : α) (as : List α) :
    runSteps step s (a :: as) = (step s a).bind fun s' => runSteps step s' as := rfl

/-- A run of two lists of actions is the run of the second from where the first ends. -/
theorem runSteps_append (s : σ) (as bs : List α) :
    runSteps step s (as ++ bs) = (runSteps step s as).bind fun s' => runSteps step s' bs := by
  induction as generalizing s with
  | nil => rfl
  | cons a as ih =>
      simp only [List.cons_append, runSteps_cons]
      cases step s a with
      | none => rfl
      | some s' => exact ih s'

/-- The actions of a run can be given in other terms. -/
theorem runSteps_map {β : Type*} (f : β → α) (s : σ) (bs : List β) :
    runSteps step s (bs.map f) = runSteps (fun s b => step s (f b)) s bs := by
  induction bs generalizing s with
  | nil => rfl
  | cons b bs ih =>
      rw [List.map_cons, runSteps_cons, runSteps_cons]
      exact congrArg _ (funext fun s' => ih s')

/-- The last action of a run starts where the others end. -/
theorem runSteps_concat_eq_some {s s' : σ} {as : List α} {a : α} :
    runSteps step s (as ++ [a]) = some s' ↔
      ∃ m, runSteps step s as = some m ∧ step m a = some s' := by
  rw [runSteps_append, Option.bind_eq_some_iff]
  simp only [runSteps_cons, runSteps_nil, Option.bind_fun_some]

/-- Along a run a decidable condition can be checked. -/
instance decidableAlong [∀ s a, Decidable (P s a)] :
    (s : σ) → (as : List α) → Decidable (Along step P s as)
  | _, [] => isTrue trivial
  | s, a :: as =>
      match h : step s a with
      | none =>
          decidable_of_iff (P s a)
            ⟨fun hp => ⟨hp, fun _ hs => absurd (h.symm.trans hs) nofun⟩, And.left⟩
      | some s' =>
          have := decidableAlong s' as
          decidable_of_iff (P s a ∧ Along step P s' as)
            ⟨fun hp => ⟨hp.1, fun _ ht => Option.some.inj (h.symm.trans ht) ▸ hp.2⟩,
              fun hp => ⟨hp.1, hp.2 s' h⟩⟩

/-- The condition along a run whose first step is known. -/
theorem Along.cons_some {s m : σ} {a : α} {as : List α} (h : P s a) (hs : step s a = some m)
    (hrest : Along step P m as) : Along step P s (a :: as) := by
  refine ⟨h, fun s' hs' => ?_⟩
  obtain rfl : m = s' := Option.some.inj (hs.symm.trans hs')
  exact hrest

/-- The condition along a run, split at its last action. -/
theorem Along.concat {s : σ} {as : List α} {a : α} (h : Along step P s (as ++ [a])) :
    Along step P s as ∧ ∀ m, runSteps step s as = some m → P m a := by
  induction as generalizing s with
  | nil =>
      refine ⟨trivial, ?_⟩
      rintro m ⟨rfl⟩
      exact h.1
  | cons b as ih =>
      obtain ⟨hb, hrest⟩ := h
      refine ⟨⟨hb, fun s' hs' => (ih (hrest s' hs')).1⟩, ?_⟩
      intro m hm
      obtain ⟨s', hs', hm'⟩ := Option.bind_eq_some_iff.mp hm
      exact (ih (hrest s' hs')).2 m hm'

/-- The condition along a run that is longer by one action. -/
theorem along_concat_iff {s m : σ} {as : List α} {a : α} (hm : runSteps step s as = some m) :
    Along step P s (as ++ [a]) ↔ Along step P s as ∧ P m a := by
  refine ⟨fun h => ⟨h.concat.1, h.concat.2 m hm⟩, ?_⟩
  rintro ⟨has, ha⟩
  induction as generalizing s with
  | nil =>
      obtain rfl := Option.some.inj hm
      exact ⟨ha, fun _ _ => trivial⟩
  | cons b as ih =>
      obtain ⟨s', hs', hm'⟩ := Option.bind_eq_some_iff.mp hm
      exact .cons_some has.1 hs' (ih hm' (has.2 s' hs'))

/-- A run whose actions always have a successor has an end. -/
theorem exists_runSteps {as : List α} (h : ∀ a ∈ as, ∀ s, ∃ s', step s a = some s') (s : σ) :
    ∃ s', runSteps step s as = some s' := by
  induction as generalizing s with
  | nil => exact ⟨s, rfl⟩
  | cons a as ih =>
      obtain ⟨m, hm⟩ := h a List.mem_cons_self s
      obtain ⟨s', hs'⟩ := ih (fun b hb => h b (List.mem_cons_of_mem a hb)) m
      exact ⟨s', by rw [runSteps_cons, hm, Option.bind_some, hs']⟩

/-- **The history rule.** A property of the actions taken and the state reached holds at
the end of every run if it holds of the empty run and every allowed step keeps it. -/
theorem history_of_runSteps {s₀ : σ} {I : List α → σ → Prop} (h₀ : I [] s₀)
    (hstep : ∀ as s a s', I as s → P s a → step s a = some s' → I (as ++ [a]) s') :
    ∀ as s, Along step P s₀ as → runSteps step s₀ as = some s → I as s := by
  intro as
  induction as using List.reverseRecOn with
  | nil =>
      rintro s - ⟨rfl⟩
      exact h₀
  | append_singleton as a ih =>
      intro s hP hrun
      obtain ⟨m, hm, hs⟩ := runSteps_concat_eq_some.mp hrun
      obtain ⟨hP', hPa⟩ := hP.concat
      exact hstep as m a s (ih m hP' hm) (hPa m hm) hs

/-- **The invariant rule.** A property of states that every allowed step keeps holds at
the end of every run that starts in it. -/
theorem invariant_of_runSteps {s₀ : σ} {I : σ → Prop} (h₀ : I s₀)
    (hstep : ∀ s a s', I s → P s a → step s a = some s' → I s') {as : List α} {s : σ}
    (hP : Along step P s₀ as) (hrun : runSteps step s₀ as = some s) : I s :=
  history_of_runSteps (I := fun _ => I) h₀ (fun _ => hstep) as s hP hrun

/-- **The simulation rule.** Where every allowed step is a step of an abstraction, every run is
a run of it. -/
theorem map_runSteps {τ : Type*} {step' : τ → α → Option τ} {f : σ → τ} {I : σ → Prop}
    (hkeep : ∀ s a s', I s → P s a → step s a = some s' → I s')
    (hstep : ∀ s a, I s → P s a → (step s a).map f = step' (f s) a) {s : σ} {as : List α}
    (hP : Along step P s as) (hs : I s) :
    (runSteps step s as).map f = runSteps step' (f s) as := by
  induction as generalizing s with
  | nil => rfl
  | cons a as ih =>
      obtain ⟨ha, hrest⟩ := hP
      rw [runSteps_cons, runSteps_cons, ← hstep s a hs ha]
      cases hnext : step s a with
      | none => rfl
      | some m => exact ih (hrest m hnext) (hkeep s a m hs ha hnext)

/-- Along a run whose steps keep an invariant, the condition may be replaced by one that
follows from it where the invariant holds. -/
theorem Along.imp_of_invariant {Q : σ → α → Prop} {I : σ → Prop} {s : σ} {as : List α}
    (h : Along step P s as) (h₀ : I s)
    (hstep : ∀ s a s', I s → P s a → step s a = some s' → I s')
    (himp : ∀ s a, I s → P s a → Q s a) : Along step Q s as := by
  induction as generalizing s with
  | nil => trivial
  | cons a as ih =>
      obtain ⟨ha, hrest⟩ := h
      exact ⟨himp s a h₀ ha, fun s' hs => ih (hrest s' hs) (hstep s a s' h₀ ha hs)⟩

/-- A condition that the actions of a run meet in every state is met along the run. -/
theorem along_of_mem {as : List α} (h : ∀ a ∈ as, ∀ s, P s a) (s : σ) : Along step P s as := by
  induction as generalizing s with
  | nil => trivial
  | cons a as ih =>
      exact ⟨h a List.mem_cons_self s, fun s' _ =>
        ih (fun b hb => h b (List.mem_cons_of_mem a hb)) s'⟩

/-- A condition that every step meets is met along every run. -/
theorem along_of_forall (h : ∀ s a, P s a) (s : σ) (as : List α) : Along step P s as :=
  along_of_mem (fun a _ s => h s a) s

/-! ### Loops that may fail -/

section Guarded

variable {ok : α → Prop} {f : σ → α → σ}

/-- Where steps fail for reasons of their own, a run is a fold. -/
theorem runSteps_iff_foldl {I : σ → Prop} (hI : ∀ s a, I s → I (f s a))
    {as : List α} (h : ∀ a ∈ as, ∀ s s', I s → (step s a = some s' ↔ ok a ∧ s' = f s a))
    {s s' : σ} (hs : I s) :
    runSteps step s as = some s' ↔ (∀ a ∈ as, ok a) ∧ s' = as.foldl f s := by
  induction as generalizing s with
  | nil => simp [eq_comm]
  | cons a as ih =>
      have hrest := ih (fun b hb => h b (List.mem_cons_of_mem a hb)) (hI s a hs)
      have hfirst := h a (List.mem_cons_self ..) s
      rw [runSteps_cons, Option.bind_eq_some_iff, List.forall_mem_cons, List.foldl_cons]
      constructor
      · rintro ⟨t, ht, hrun⟩
        obtain ⟨hok, rfl⟩ := (hfirst t hs).mp ht
        obtain ⟨hall, hs'⟩ := hrest.mp hrun
        exact ⟨⟨hok, hall⟩, hs'⟩
      · rintro ⟨⟨hok, hall⟩, hs'⟩
        exact ⟨f s a, (hfirst _ hs).mpr ⟨hok, rfl⟩, hrest.mpr ⟨hall, hs'⟩⟩

/-- The same for a list whose elements are treated alike. -/
theorem mapM_iff_map {g : α → Option σ} {f : α → σ} {l : List α} {l' : List σ}
    (h : ∀ a ∈ l, ∀ b, g a = some b ↔ ok a ∧ b = f a) :
    l.mapM g = some l' ↔ (∀ a ∈ l, ok a) ∧ l' = l.map f := by
  induction l generalizing l' with
  | nil => simp [eq_comm]
  | cons a l ih =>
      rw [List.mapM_cons, List.forall_mem_cons, List.map_cons]
      constructor
      · intro hrun
        obtain ⟨b, hb, hrun⟩ := Option.bind_eq_some_iff.mp hrun
        obtain ⟨bs, hbs, hrun⟩ := Option.bind_eq_some_iff.mp hrun
        obtain rfl := Option.some.inj hrun
        obtain ⟨hok, rfl⟩ := (h a (List.mem_cons_self ..) b).mp hb
        obtain ⟨hall, rfl⟩ := (ih fun c hc => h c (List.mem_cons_of_mem a hc)).mp hbs
        exact ⟨⟨hok, hall⟩, rfl⟩
      · rintro ⟨⟨hok, hall⟩, rfl⟩
        have hfirst := (h a (List.mem_cons_self ..) (f a)).mpr ⟨hok, rfl⟩
        have hrest := (ih fun c hc => h c (List.mem_cons_of_mem a hc)).mpr ⟨hall, rfl⟩
        rw [hfirst, hrest]
        rfl

end Guarded

end Basis
