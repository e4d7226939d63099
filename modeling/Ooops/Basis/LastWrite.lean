import Ooops.Basis.Run

/-!
# The Last Writer Wins

A register that every action overwrites or leaves alone has, after any run, the value that
the last action that wrote it has put there.

* `lastSome f as` is the last value that `f` finds in a list.
* `read_foldl` and `read_runSteps` are the rule for a fold and for a run of a step function.
-/

namespace Basis

variable {σ α β ρ : Type*}

/-- The last of the values that `f` finds in the list. -/
def lastSome (f : α → Option β) (as : List α) : Option β := as.reverse.findSome? f

@[simp] theorem lastSome_nil (f : α → Option β) : lastSome f [] = none := rfl

/-- The last entry comes first. -/
theorem lastSome_concat (f : α → Option β) (as : List α) (a : α) :
    lastSome f (as ++ [a]) = (f a).or (lastSome f as) := by
  rw [lastSome, lastSome, List.reverse_concat, List.findSome?_cons]
  cases f a <;> rfl

/-- What is found behind counts before what is found in front. -/
theorem lastSome_append (f : α → Option β) (as bs : List α) :
    lastSome f (as ++ bs) = (lastSome f bs).or (lastSome f as) := by
  rw [lastSome, List.reverse_append, List.findSome?_append]
  rfl

/-- Only what is found in the list counts. -/
theorem lastSome_congr {f g : α → Option β} {as : List α} (h : ∀ a ∈ as, f a = g a) :
    lastSome f as = lastSome g as := by
  induction as using List.reverseRecOn with
  | nil => rfl
  | append_singleton as a ih =>
      rw [lastSome_concat, lastSome_concat, h a (by simp),
        ih fun b hb => h b (List.mem_append_left _ hb)]

/-- What is found is found at an element. -/
theorem exists_of_lastSome {f : α → Option β} {as : List α} {b : β}
    (h : lastSome f as = some b) : ∃ a ∈ as, f a = some b := by
  obtain ⟨a, ha, hab⟩ := List.exists_of_findSome?_eq_some h
  exact ⟨a, List.mem_reverse.mp ha, hab⟩

/-- A function of the values is applied to the last one. -/
theorem lastSome_map (g : β → ρ) (f : α → Option β) (as : List α) :
    lastSome (fun a => (f a).map g) as = (lastSome f as).map g := by
  induction as using List.reverseRecOn with
  | nil => rfl
  | append_singleton as a ih =>
      rw [lastSome_concat, lastSome_concat, ih]
      cases f a <;> rfl

/-- The entries can be given in other terms. -/
theorem lastSome_comp (g : ρ → α) (f : α → Option β) (as : List ρ) :
    lastSome f (as.map g) = lastSome (fun a => f (g a)) as := by
  induction as using List.reverseRecOn with
  | nil => rfl
  | append_singleton as a ih =>
      rw [List.map_append, List.map_singleton, lastSome_concat, lastSome_concat, ih]

theorem getD_or (x y : Option β) (b : β) : (x.or y).getD b = x.getD (y.getD b) := by
  cases x <;> rfl

variable {read : σ → ρ} {write : α → Option ρ}

/-- **The rule for a fold.** -/
theorem read_foldl {step : σ → α → σ} (h : ∀ s a, read (step s a) = (write a).getD (read s))
    (s : σ) (as : List α) : read (as.foldl step s) = (lastSome write as).getD (read s) := by
  induction as using List.reverseRecOn with
  | nil => rfl
  | append_singleton as a ih =>
      rw [List.foldl_append, List.foldl_cons, List.foldl_nil, h, ih, lastSome_concat, getD_or]

/-- **The rule for a run.** -/
theorem read_runSteps {step : σ → α → Option σ} {s s' : σ} {as : List α}
    (h : ∀ a ∈ as, ∀ s s', step s a = some s' → read s' = (write a).getD (read s))
    (hrun : runSteps step s as = some s') : read s' = (lastSome write as).getD (read s) := by
  induction as using List.reverseRecOn generalizing s' with
  | nil =>
      obtain rfl := Option.some.inj hrun
      rfl
  | append_singleton as a ih =>
      obtain ⟨m, hm, hs⟩ := runSteps_concat_eq_some.mp hrun
      have hm' := ih (fun b hb => h b (List.mem_append_left _ hb)) hm
      rw [h a (by simp) m s' hs, hm', lastSome_concat, getD_or]

end Basis
