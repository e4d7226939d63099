import Mathlib.Algebra.BigOperators.Group.Finset.Piecewise

/-!
# Counting Along a History

The entries of a history that meet a condition are counted with `List.countP`. When every
entry belongs to a party, the counts of the parties add up to the count of the history, so
two conditions that every party meets equally often are met equally often in all.
-/

namespace Basis

variable {α β : Type*} [DecidableEq β]

/-- The entries that meet `P`, counted party by party. -/
theorem countP_eq_sum_party (f : α → β) (P : α → Bool) (l : List α) (s : Finset β)
    (hs : ∀ a ∈ l, f a ∈ s) :
    l.countP P = ∑ b ∈ s, l.countP fun a => decide (f a = b) && P a := by
  induction l with
  | nil => simp
  | cons a l ih =>
      have hmem : f a ∈ s := hs a (List.mem_cons_self ..)
      have hrest := ih fun x hx => hs x (List.mem_cons_of_mem a hx)
      simp only [List.countP_cons, Finset.sum_add_distrib, ← hrest, Bool.and_eq_true,
        decide_eq_true_eq]
      have hone : (∑ b ∈ s, if f a = b ∧ P a = true then 1 else 0) =
          if P a = true then 1 else 0 := by
        by_cases hP : P a = true
        · simp [hP, hmem]
        · simp [hP]
      rw [hone]

/-- Conditions that every party meets equally often are met equally often. -/
theorem countP_eq_of_party {f : α → β} {P Q : α → Bool} {l : List α}
    (h : ∀ b, (l.countP fun a => decide (f a = b) && P a) =
      l.countP fun a => decide (f a = b) && Q a) :
    l.countP P = l.countP Q := by
  have hs : ∀ a ∈ l, f a ∈ (l.map f).toFinset := by
    intro a ha
    rw [List.mem_toFinset]
    exact List.mem_map_of_mem ha
  rw [countP_eq_sum_party f P l _ hs, countP_eq_sum_party f Q l _ hs]
  exact Finset.sum_congr rfl fun b _ => h b

/-- How many entries of a list are there already further on. -/
def repeats (l : List β) : ℕ := l.length - l.dedup.length

/-- A list without repetition has no repeats. -/
theorem repeats_eq_zero_iff {l : List β} : repeats l = 0 ↔ l.Nodup := by
  have hle : l.dedup.length ≤ l.length := (List.dedup_sublist l).length_le
  rw [← List.dedup_eq_self]
  refine ⟨fun h => (List.dedup_sublist l).eq_of_length ?_, fun h => ?_⟩
  · rw [repeats] at h
    omega
  · rw [repeats, h, Nat.sub_self]

/-- A list over `s` has every member of `s` exactly when its length allows for its
repeats. -/
theorem forall_mem_iff_repeats {l : List β} {s : Finset β} (h : ∀ b ∈ l, b ∈ s) :
    (∀ b ∈ s, b ∈ l) ↔ s.card + repeats l ≤ l.length := by
  have hle : l.dedup.length ≤ l.length := (List.dedup_sublist l).length_le
  have hcard : l.toFinset.card = l.dedup.length := List.card_toFinset l
  have hsub : l.toFinset ⊆ s := fun b hb => h b (List.mem_toFinset.mp hb)
  rw [repeats]
  constructor
  · intro hall
    have hge : s.card ≤ l.toFinset.card :=
      Finset.card_le_card fun b hb => List.mem_toFinset.mpr (hall b hb)
    omega
  · intro hlen b hb
    have heq : l.toFinset = s := Finset.eq_of_subset_of_card_le hsub (by omega)
    exact List.mem_toFinset.mp (heq.symm ▸ hb)

end Basis
