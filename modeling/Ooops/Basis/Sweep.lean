import Mathlib.Data.List.Basic
import Mathlib.Logic.Function.Basic

/-!
# Sweeps Over Arrays

A loop that goes over some indices of an array and at each one replaces the entry by a
function of it is a `sweep`. Where no index comes twice, every entry is changed on its own,
so the order of the indices is no matter (`sweep_apply`), and neither is that of the loops
when one sweep follows another (`foldl_sweep_of_mem`).
-/

namespace Basis

variable {ι κ β : Type*} [DecidableEq ι]

/-- Replace the entries at the indices `l`, one after the other. -/
def sweep (l : List ι) (f : ι → β → β) (a : ι → β) : ι → β :=
  l.foldl (fun a i => Function.update a i (f i (a i))) a

/-- The entries at the indices of a sweep are changed and all others are left. -/
theorem sweep_apply {l : List ι} (hl : l.Nodup) (f : ι → β → β) (a : ι → β) (i : ι) :
    sweep l f a i = if i ∈ l then f i (a i) else a i := by
  induction l generalizing a with
  | nil => simp [sweep]
  | cons j l ih =>
      obtain ⟨hj, hl⟩ := List.nodup_cons.mp hl
      have hcons : sweep (j :: l) f a = sweep l f (Function.update a j (f j (a j))) := rfl
      rw [hcons, ih hl]
      by_cases hij : i = j
      · subst hij
        rw [if_neg hj, if_pos (List.mem_cons_self ..), Function.update_self]
      · simp only [Function.update_of_ne hij, List.mem_cons, hij, false_or]

theorem sweep_of_mem {l : List ι} (hl : l.Nodup) {i : ι} (hi : i ∈ l) (f : ι → β → β)
    (a : ι → β) : sweep l f a i = f i (a i) := by
  rw [sweep_apply hl, if_pos hi]

/-- Only what is done at the indices gone over counts. -/
theorem sweep_congr {l : List ι} {f g : ι → β → β} (h : ∀ i ∈ l, f i = g i) (a : ι → β) :
    sweep l f a = sweep l g a := by
  induction l generalizing a with
  | nil => rfl
  | cons i l ih =>
      rw [sweep, List.foldl_cons, h i (List.mem_cons_self ..)]
      exact ih (fun j hj => h j (List.mem_cons_of_mem i hj)) _

/-- At an index of repeated sweeps, each does its part. -/
theorem foldl_sweep_of_mem {l : List ι} (hl : l.Nodup) {i : ι} (hi : i ∈ l)
    (f : κ → ι → β → β) (ks : List κ) (a : ι → β) :
    ks.foldl (fun a k => sweep l (f k) a) a i = ks.foldl (fun x k => f k i x) (a i) := by
  induction ks generalizing a with
  | nil => rfl
  | cons k ks ih => rw [List.foldl_cons, List.foldl_cons, ih, sweep_of_mem hl hi]

end Basis
