import Mathlib.Data.List.Induction
import Mathlib.Logic.Function.Basic

/-!
# Journals

A list of edits is applied to a store one after the other. Each edit `p` writes the value
`val p` to the place `loc p` and keeps the value `saved p` that it has found there. Then
some of the edits are undone in an order of their own, each one writing back what it has kept.

If several edits have gone to one place, what is there in the end was kept by the edit that
is undone last, and that is the original value only if this edit was the first one there,
or found the original value anyhow. A place where nothing is undone keeps what the last edit
has written.

## Main results

* `applyAll_apply`: what is at a place is what the last edit there has written.
* `undo_eq_iff`: exactly when undoing brings the store back.
* `Restoring.of_nodup`: it does if no two edits go to one place and all are undone.
-/

namespace Basis.Journal

variable {ι α β : Type*} [DecidableEq α] (loc : ι → α)

/-- Write the values of a list of edits, one after the other. -/
def applyAll (val : ι → β) (σ : α → β) (ps : List ι) : α → β :=
  ps.foldl (fun σ p => Function.update σ (loc p) (val p)) σ

/-- The last edit at a place. -/
def lastAt (a : α) (ps : List ι) : Option ι :=
  (ps.filter fun p => loc p = a).getLast?

/-- Every edit keeps what it finds at its place. -/
def Saves (val saved : ι → β) (σ : α → β) (ps : List ι) : Prop :=
  ∀ ps₁ p ps₂, ps = ps₁ ++ p :: ps₂ → saved p = applyAll loc val σ ps₁ (loc p)

/-- The edits `ps` leave the original values when `qs` are undone. -/
structure Restoring (val : ι → β) (σ : α → β) (ps qs : List ι) : Prop where
  /-- The edit that is undone last at a place was the first one there, or the one before it
  has written the original value. -/
  undone : ∀ ps₁ p ps₂ q, ps = ps₁ ++ p :: ps₂ → lastAt loc (loc p) qs = some p →
    lastAt loc (loc p) ps₁ = some q → val q = σ (loc p)
  /-- Where no edit is undone, the last one has written the original value. -/
  left : ∀ q, lastAt loc (loc q) qs = none → lastAt loc (loc q) ps = some q →
    val q = σ (loc q)

theorem lastAt_concat (a : α) (ps : List ι) (p : ι) :
    lastAt loc a (ps ++ [p]) = if loc p = a then some p else lastAt loc a ps := by
  simp only [lastAt]
  rw [List.filter_append]
  split
  · rename_i h
    simp only [h, decide_true, List.filter_cons_of_pos, List.filter_nil, List.getLast?_append,
      List.getLast?_singleton, Option.some_or]
  · rename_i h
    simp only [h, decide_false, Bool.false_eq_true, not_false_eq_true, List.filter_cons_of_neg,
      List.filter_nil, List.append_nil]

theorem mem_of_lastAt {a : α} {ps : List ι} {p : ι} (h : lastAt loc a ps = some p) :
    p ∈ ps ∧ loc p = a := by
  have hmem := List.mem_filter.mp (List.mem_of_getLast? h)
  exact ⟨hmem.1, of_decide_eq_true hmem.2⟩

/-- There is no last edit where there is none. -/
theorem lastAt_eq_none_iff {a : α} {ps : List ι} :
    lastAt loc a ps = none ↔ ∀ p ∈ ps, loc p ≠ a := by
  simp only [lastAt, List.getLast?_eq_none_iff, List.filter_eq_nil_iff, decide_eq_true_eq]

/-- The last edit of a list that is made from another one. -/
theorem lastAt_map {κ : Type*} (f : κ → ι) (a : α) (ps : List κ) :
    lastAt loc a (ps.map f) = (lastAt (fun k => loc (f k)) a ps).map f := by
  rw [lastAt, lastAt, List.filter_map, List.getLast?_map]
  rfl

variable {val saved : ι → β} {σ : α → β} {ps qs : List ι}

theorem applyAll_concat (p : ι) : applyAll loc val σ (ps ++ [p]) =
    Function.update (applyAll loc val σ ps) (loc p) (val p) := by
  simp only [applyAll, List.foldl_append, List.foldl_cons, List.foldl_nil]

/-- **What is at a place is what the last edit there has written.** -/
theorem applyAll_apply (a : α) : applyAll loc val σ ps a =
    match lastAt loc a ps with
    | some p => val p
    | none => σ a := by
  induction ps using List.reverseRecOn with
  | nil => rfl
  | append_singleton ps p ih =>
      rw [applyAll_concat, lastAt_concat]
      by_cases h : loc p = a
      · subst h
        rw [Function.update_self, if_pos rfl]
      · rw [Function.update_of_ne (Ne.symm h), if_neg h, ih]

/-- A place without an edit keeps what it has. -/
theorem applyAll_of_forall_ne {a : α} (h : ∀ p ∈ ps, loc p ≠ a) :
    applyAll loc val σ ps a = σ a := by
  rw [applyAll_apply, (lastAt_eq_none_iff loc).mpr h]

/-- Only what was at a place matters there. -/
theorem applyAll_congr {τ : α → β} {a : α} (h : σ a = τ a) :
    applyAll loc val σ ps a = applyAll loc val τ ps a := by
  rw [applyAll_apply, applyAll_apply, h]

/-- **When undoing brings the store back.** -/
theorem undo_eq_iff (hsaved : Saves loc val saved σ ps) (hmem : ∀ p ∈ qs, p ∈ ps) :
    applyAll loc saved (applyAll loc val σ ps) qs = σ ↔ Restoring loc val σ ps qs := by
  constructor
  · intro h
    refine ⟨fun ps₁ p ps₂ q heq hlast hbefore => ?_, fun q hlast hmade => ?_⟩
    · have hat := congrFun h (loc p)
      rw [applyAll_apply, hlast] at hat
      have hkept := hsaved ps₁ p ps₂ heq
      rw [applyAll_apply, hbefore] at hkept
      exact hkept.symm.trans hat
    · have hat := congrFun h (loc q)
      rwa [applyAll_apply, hlast, applyAll_apply, hmade] at hat
  · intro h
    funext a
    rw [applyAll_apply]
    cases hlast : lastAt loc a qs with
    | none =>
        change applyAll loc val σ ps a = σ a
        rw [applyAll_apply]
        cases hmade : lastAt loc a ps with
        | none => rfl
        | some q =>
            obtain ⟨-, rfl⟩ := mem_of_lastAt loc hmade
            exact h.left q hlast hmade
    | some p =>
        obtain ⟨hp, rfl⟩ := mem_of_lastAt loc hlast
        obtain ⟨ps₁, ps₂, heq⟩ := List.append_of_mem (hmem p hp)
        have hkept := hsaved ps₁ p ps₂ heq
        rw [applyAll_apply] at hkept
        cases hbefore : lastAt loc (loc p) ps₁ with
        | none =>
            rw [hbefore] at hkept
            exact hkept
        | some q =>
            rw [hbefore] at hkept
            exact hkept.trans (h.undone ps₁ p ps₂ q heq hlast hbefore)

/-- When undoing brings the places of the edits back. -/
theorem undo_at_iff (hsaved : Saves loc val saved σ ps) (hmem : ∀ p ∈ qs, p ∈ ps) :
    (∀ p ∈ ps, applyAll loc saved (applyAll loc val σ ps) qs (loc p) = σ (loc p)) ↔
      Restoring loc val σ ps qs := by
  rw [← undo_eq_iff loc hsaved hmem]
  refine ⟨fun h => ?_, fun h p _ => congrFun h (loc p)⟩
  funext a
  by_cases ha : ∃ p ∈ ps, loc p = a
  · obtain ⟨p, hp, rfl⟩ := ha
    exact h p hp
  · rw [applyAll_of_forall_ne loc fun p hp heq => ha ⟨p, hmem p hp, heq⟩,
      applyAll_of_forall_ne loc fun p hp heq => ha ⟨p, hp, heq⟩]

/-- Only what was at the places of the edits matters. -/
theorem Restoring.congr {τ : α → β} (hστ : ∀ p ∈ ps, σ (loc p) = τ (loc p)) :
    Restoring loc val σ ps qs ↔ Restoring loc val τ ps qs := by
  have hp : ∀ {ps₁ p ps₂}, ps = ps₁ ++ p :: ps₂ → σ (loc p) = τ (loc p) := fun heq =>
    hστ _ (heq ▸ List.mem_append_right _ (List.mem_cons_self ..))
  constructor
  · intro h
    refine ⟨fun ps₁ p ps₂ q heq hlast hbefore => ?_, fun q hlast hmade => ?_⟩
    · exact (h.undone ps₁ p ps₂ q heq hlast hbefore).trans (hp heq)
    · exact (h.left q hlast hmade).trans (hστ q (mem_of_lastAt loc hmade).1)
  · intro h
    refine ⟨fun ps₁ p ps₂ q heq hlast hbefore => ?_, fun q hlast hmade => ?_⟩
    · exact (h.undone ps₁ p ps₂ q heq hlast hbefore).trans (hp heq).symm
    · exact (h.left q hlast hmade).trans (hστ q (mem_of_lastAt loc hmade).1).symm

/-- Edits at different places can be undone in any order. -/
theorem Restoring.of_nodup (h : (ps.map loc).Nodup) (hmem : ∀ p ∈ ps, p ∈ qs) :
    Restoring loc val σ ps qs := by
  refine ⟨fun ps₁ p ps₂ q heq _ hbefore => ?_, fun q hlast hmade => ?_⟩
  · obtain ⟨hq, hloc⟩ := mem_of_lastAt loc hbefore
    rw [heq, List.map_append, List.map_cons] at h
    have hne := (List.nodup_append.mp h).2.2 (loc q) (List.mem_map_of_mem hq) (loc p)
      (List.mem_cons_self ..)
    exact absurd hloc hne
  · have hq := hmem q (mem_of_lastAt loc hmade).1
    exact absurd rfl ((lastAt_eq_none_iff loc).mp hlast q hq)

end Basis.Journal
