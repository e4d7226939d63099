import Mathlib.Algebra.BigOperators.Group.Finset.Basic
import Mathlib.Algebra.Order.BigOperators.Group.Finset
import Ooops.Basis.Run

/-!
# Draining a System

A system of parties can come to rest when in every state that is not at rest some party has
a step to take that brings it nearer to its end. `drain` makes a run of such steps; the work
that is left is a number, for several parties the sum of what each has left
(`sum_update_lt`).
-/

namespace Basis

variable {σ α ι κ : Type*}

/-- A run that uses up the work that is left, by steps that `P` allows. -/
theorem drain {step : σ → α → Option σ} {P : σ → α → Prop} {Inv : σ → Prop} {work : σ → ℕ}
    (hstep : ∀ s, Inv s → work s ≠ 0 →
      ∃ a s', P s a ∧ step s a = some s' ∧ Inv s' ∧ work s' < work s) {s : σ} (hs : Inv s) :
    ∃ as t, Along step P s as ∧ runSteps step s as = some t ∧ Inv t ∧ work t = 0 ∧
      as.length ≤ work s := by
  induction hn : work s using Nat.strong_induction_on generalizing s with
  | _ n ih =>
      by_cases hzero : n = 0
      · exact ⟨[], s, trivial, rfl, hs, hn.trans hzero, Nat.zero_le _⟩
      · obtain ⟨a, s', ha, hsa, hs', hlt⟩ := hstep s hs (hn ▸ hzero)
        obtain ⟨as, t, halong, hrun, ht, hdone, hlen⟩ := ih (work s') (hn ▸ hlt) hs' rfl
        refine ⟨a :: as, t, .cons_some ha hsa halong, ?_, ht, hdone, ?_⟩
        · rw [runSteps_cons, hsa, Option.bind_some, hrun]
        · rw [List.length_cons]
          omega

/-- The work of all parties gets less with that of one of them. -/
theorem sum_update_lt [DecidableEq ι] {S : Finset ι} {pc : ι → κ} {rank : κ → ℕ} {p : ι} {c : κ}
    (hp : p ∈ S) (hlt : rank c < rank (pc p)) :
    ∑ q ∈ S, rank (Function.update pc p c q) < ∑ q ∈ S, rank (pc q) := by
  refine Finset.sum_lt_sum (fun q _ => ?_) ⟨p, hp, by rwa [Function.update_self]⟩
  by_cases hq : q = p
  · rw [hq, Function.update_self]
    exact hlt.le
  · rw [Function.update_of_ne hq]

end Basis
