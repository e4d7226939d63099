import Mathlib.Data.List.SplitBy
import Mathlib.Order.Lattice

/-!
# Runs of Contiguous Ranges

A range `(lo, hi)` holds what is at least `lo` and below `hi`. The runs of a list of ranges are
the longest stretches in which each range begins where the one before it ends, every stretch
taken as one range.

* `runs_concat`: what one more range at the end does.
* `runs_pairwise`: between two runs there is a gap.
* `mem_runs_iff`: the runs hold what the ranges hold.
-/

namespace Basis

variable {α : Type*}

/-- What a stretch of ranges reaches from and to. -/
def hull (g : List (α × α)) : Option (α × α) :=
  g.head?.bind fun a => g.getLast?.map fun b => (a.1, b.2)

theorem hull_concat {g : List (α × α)} (hg : g ≠ []) (r : α × α) :
    ∃ lo x, g.getLast? = some x ∧ hull g = some (lo, x.2) ∧
      hull (g ++ [r]) = some (lo, r.2) := by
  obtain ⟨a, g', rfl⟩ := List.exists_cons_of_ne_nil hg
  refine ⟨a.1, (a :: g').getLast hg, List.getLast?_eq_some_getLast hg, ?_, ?_⟩
  · simp only [hull, List.head?_cons, Option.bind_some, List.getLast?_eq_some_getLast hg,
      Option.map_some]
  · simp only [hull, List.cons_append, List.head?_cons, Option.bind_some]
    rw [← List.cons_append, List.getLast?_concat, Option.map_some]

/-- A related element at the end belongs to the last stretch. -/
theorem splitBy_concat_of_rel {β : Type*} {R : β → β → Bool} {l : List β} {x a : β}
    (hx : l.getLast? = some x) (h : R x a = true) :
    ∃ gs g, l.splitBy R = gs ++ [g] ∧ g.getLast? = some x ∧
      (l ++ [a]).splitBy R = gs ++ [g ++ [a]] := by
  have hl : l ≠ [] := by
    rintro rfl
    cases hx
  obtain ⟨gs, g, hsplit⟩ : ∃ gs g, l.splitBy R = gs ++ [g] :=
    ⟨_, _, (List.dropLast_append_getLast (List.splitBy_ne_nil.mpr hl)).symm⟩
  obtain ⟨hflat, hnil, hchain, hgaps⟩ := List.splitBy_eq_iff.mp hsplit
  have hg : g ≠ [] := by
    rintro rfl
    exact hnil (List.mem_append_right _ (List.mem_singleton_self _))
  have hlast : g.getLast? = some x := by
    rw [hflat, List.flatten_append, List.flatten_singleton,
      List.getLast?_append_of_ne_nil _ hg] at hx
    exact hx
  refine ⟨gs, g, hsplit, hlast, List.splitBy_eq_iff.mpr ⟨?_, ?_, ?_, ?_⟩⟩
  · rw [hflat]
    simp only [List.flatten_append, List.flatten_singleton, List.append_assoc]
  · intro hmem
    rcases List.mem_append.mp hmem with hmem | hmem
    · exact hnil (List.mem_append_left _ hmem)
    · exact List.append_ne_nil_of_left_ne_nil hg _ (List.mem_singleton.mp hmem).symm
  · intro m hm
    rcases List.mem_append.mp hm with hm | hm
    · exact hchain m (List.mem_append_left _ hm)
    · obtain rfl := List.mem_singleton.mp hm
      have hold := hchain g (List.mem_append_right _ (List.mem_singleton_self _))
      refine List.isChain_append.mpr ⟨hold, List.isChain_singleton _, ?_⟩
      intro y hy b hb
      obtain rfl := Option.some.inj (hlast.symm.trans hy)
      obtain rfl : a = b := Option.some.inj hb
      exact h
  · obtain ⟨hbefore, -, hgap⟩ := List.isChain_append.mp hgaps
    refine List.isChain_append.mpr ⟨hbefore, List.isChain_singleton _, ?_⟩
    intro m hm b hb
    obtain rfl : g ++ [a] = b := Option.some.inj hb
    obtain ⟨hm', hg', hrel⟩ := hgap m hm g rfl
    refine ⟨hm', List.append_ne_nil_of_left_ne_nil hg _, ?_⟩
    rw [List.head_append_of_ne_nil hg]
    exact hrel

theorem exists_mem_concat {p : α × α → Prop} {rs : List (α × α)} {r : α × α} :
    (∃ s ∈ rs ++ [r], p s) ↔ (∃ s ∈ rs, p s) ∨ p r := by
  simp only [List.mem_append, or_and_right, exists_or, List.mem_singleton, exists_eq_left]

variable [LinearOrder α]

/-- The runs of a list of ranges. -/
def runs (rs : List (α × α)) : List (α × α) :=
  (rs.splitBy fun a b => decide (a.2 = b.1)).filterMap hull

/-- **What one more range does**: it makes the last run longer where that ends, and is a run of
its own otherwise. -/
theorem runs_concat (rs : List (α × α)) (r : α × α) :
    (∃ pre lo, runs rs = pre ++ [(lo, r.1)] ∧ runs (rs ++ [r]) = pre ++ [(lo, r.2)]) ∨
      ((∀ x ∈ rs.getLast?, x.2 ≠ r.1) ∧ runs (rs ++ [r]) = runs rs ++ [r]) := by
  by_cases h : ∃ x ∈ rs.getLast?, x.2 = r.1
  · obtain ⟨x, hx, heq⟩ := h
    obtain ⟨gs, g, hsplit, hlast, hconcat⟩ := splitBy_concat_of_rel
      (R := fun a b : α × α => decide (a.2 = b.1)) hx (decide_eq_true heq)
    have hg : g ≠ [] := by
      rintro rfl
      cases hlast
    obtain ⟨lo, y, hy, hhull, hlonger⟩ := hull_concat hg r
    obtain rfl := Option.some.inj (hlast.symm.trans hy)
    refine Or.inl ⟨gs.filterMap hull, lo, ?_, ?_⟩
    · rw [runs, hsplit, List.filterMap_append, List.filterMap_cons_some hhull, heq,
        List.filterMap_nil]
    · rw [runs, hconcat, List.filterMap_append, List.filterMap_cons_some hlonger,
        List.filterMap_nil]
  · have hne : ∀ x ∈ rs.getLast?, x.2 ≠ r.1 := fun x hx heq => h ⟨x, hx, heq⟩
    refine Or.inr ⟨hne, ?_⟩
    have hsplit := List.splitBy_append_cons (r := fun a b : α × α => decide (a.2 = b.1))
      (l := rs) (a := r) [] fun x hx => decide_eq_false (hne x hx)
    rw [runs, hsplit, List.filterMap_append, runs]
    rfl

/-- The last run ends where the last range does. -/
theorem getLast?_runs (rs : List (α × α)) :
    (runs rs).getLast?.map Prod.snd = rs.getLast?.map Prod.snd := by
  induction rs using List.reverseRecOn with
  | nil => rfl
  | append_singleton rs r ih =>
      rcases runs_concat rs r with ⟨pre, lo, -, h⟩ | ⟨-, h⟩
      · rw [h, List.getLast?_concat, List.getLast?_concat]
        rfl
      · rw [h, List.getLast?_concat, List.getLast?_concat]

/-- One more range does not make the runs fewer. -/
theorem length_runs_le_append (rs ts : List (α × α)) :
    (runs rs).length ≤ (runs (rs ++ ts)).length := by
  induction ts using List.reverseRecOn with
  | nil => rw [List.append_nil]
  | append_singleton ts t ih =>
      refine ih.trans ?_
      rw [← List.append_assoc]
      rcases runs_concat (rs ++ ts) t with ⟨pre, lo, h, h'⟩ | ⟨-, h⟩
      · rw [h, h', List.length_append, List.length_append]
        exact Nat.le_refl _
      · rw [h, List.length_append]
        exact Nat.le_add_right _ _

/-- The ends of a run are ends of ranges. -/
theorem ends_of_mem_runs {rs : List (α × α)} {s : α × α} (hs : s ∈ runs rs) :
    (∃ r ∈ rs, r.1 = s.1) ∧ ∃ r ∈ rs, r.2 = s.2 := by
  induction rs using List.reverseRecOn generalizing s with
  | nil => cases hs
  | append_singleton rs r ih =>
      have hold : ∀ s ∈ runs rs, (∃ t ∈ rs ++ [r], t.1 = s.1) ∧ ∃ t ∈ rs ++ [r], t.2 = s.2 := by
        intro s hs
        obtain ⟨⟨a, ha, ha'⟩, b, hb, hb'⟩ := ih hs
        exact ⟨⟨a, List.mem_append_left _ ha, ha'⟩, b, List.mem_append_left _ hb, hb'⟩
      have hr : r ∈ rs ++ [r] := List.mem_append_right _ (List.mem_singleton_self _)
      rcases runs_concat rs r with ⟨pre, lo, h, h'⟩ | ⟨-, h'⟩
      · rw [h] at hold
        rw [h'] at hs
        rcases List.mem_append.mp hs with hs | hs
        · exact hold s (List.mem_append_left _ hs)
        · obtain rfl := List.mem_singleton.mp hs
          exact ⟨(hold _ (List.mem_append_right _ (List.mem_singleton_self _))).1, r, hr, rfl⟩
      · rw [h'] at hs
        rcases List.mem_append.mp hs with hs | hs
        · exact hold s hs
        · obtain rfl := List.mem_singleton.mp hs
          exact ⟨⟨s, hr, rfl⟩, s, hr, rfl⟩

section Increasing

variable {rs : List (α × α)}

/-- **Between two runs there is a gap**, and they are in increasing order. -/
theorem runs_pairwise (hlt : ∀ r ∈ rs, r.1 < r.2) (hrs : rs.Pairwise fun a b => a.2 ≤ b.1) :
    (runs rs).Pairwise fun a b => a.2 < b.1 := by
  induction rs using List.reverseRecOn with
  | nil => exact List.Pairwise.nil
  | append_singleton rs r ih =>
      obtain ⟨hold, -, hbefore⟩ := List.pairwise_append.mp hrs
      have hle : ∀ a ∈ rs, a.2 ≤ r.1 := fun a ha => hbefore a ha r (List.mem_singleton_self _)
      have hruns := ih (fun a ha => hlt a (List.mem_append_left _ ha)) hold
      rcases runs_concat rs r with ⟨pre, lo, h, h'⟩ | ⟨hne, h'⟩
      · rw [h] at hruns
        rw [h']
        obtain ⟨hpre, -, hlast⟩ := List.pairwise_append.mp hruns
        refine List.pairwise_append.mpr ⟨hpre, List.pairwise_singleton _ _, ?_⟩
        intro a ha b hb
        obtain rfl := List.mem_singleton.mp hb
        exact hlast a ha (lo, r.1) (List.mem_singleton_self _)
      · rw [h']
        refine List.pairwise_append.mpr ⟨hruns, List.pairwise_singleton _ _, ?_⟩
        intro s hs b hb
        obtain rfl := List.mem_singleton.mp hb
        obtain ⟨-, a, ha, hend⟩ := ends_of_mem_runs hs
        rw [← hend]
        refine lt_of_le_of_ne (hle a ha) fun heq => ?_
        -- Behind a range that ends at the new one there is no other.
        obtain ⟨as, x, rfl⟩ := List.eq_nil_or_concat rs |>.resolve_left fun hnil => by
          rw [hnil] at ha
          cases ha
        rw [List.concat_eq_append] at ha hold hle hne
        rcases List.mem_append.mp ha with ha | ha
        · have hx := (List.pairwise_append.mp hold).2.2 a ha x (List.mem_singleton_self _)
          have hxlt := hlt x (List.mem_append_left _ (by
            rw [List.concat_eq_append]
            exact List.mem_append_right _ (List.mem_singleton_self _)))
          have hxle := hle x (List.mem_append_right _ (List.mem_singleton_self _))
          exact absurd heq (hx.trans_lt (hxlt.trans_le hxle)).ne
        · obtain rfl := List.mem_singleton.mp ha
          exact hne a List.getLast?_concat heq

/-- **The runs hold what the ranges hold.** -/
theorem mem_runs_iff (hle : ∀ r ∈ rs, r.1 ≤ r.2) (x : α) :
    (∃ s ∈ runs rs, s.1 ≤ x ∧ x < s.2) ↔ ∃ r ∈ rs, r.1 ≤ x ∧ x < r.2 := by
  suffices h : (∀ s ∈ runs rs, s.1 ≤ s.2) ∧
      ((∃ s ∈ runs rs, s.1 ≤ x ∧ x < s.2) ↔ ∃ r ∈ rs, r.1 ≤ x ∧ x < r.2) from h.2
  induction rs using List.reverseRecOn with
  | nil => exact ⟨List.forall_mem_nil _, Iff.rfl⟩
  | append_singleton rs r ih =>
      obtain ⟨hruns, hold⟩ := ih fun a ha => hle a (List.mem_append_left _ ha)
      have hr := hle r (List.mem_append_right _ (List.mem_singleton_self _))
      rcases runs_concat rs r with ⟨pre, lo, h, h'⟩ | ⟨-, h'⟩
      · rw [h, List.forall_mem_append, List.forall_mem_singleton] at hruns
        rw [h, exists_mem_concat] at hold
        rw [h', exists_mem_concat, exists_mem_concat, ← hold, List.forall_mem_append,
          List.forall_mem_singleton, or_assoc]
        refine ⟨⟨hruns.1, hruns.2.trans hr⟩, ?_⟩
        refine or_congr Iff.rfl ⟨fun hx => ?_, ?_⟩
        · rcases lt_or_ge x r.1 with hlt | hge
          · exact Or.inl ⟨hx.1, hlt⟩
          · exact Or.inr ⟨hge, hx.2⟩
        · rintro (hx | hx)
          · exact ⟨hx.1, hx.2.trans_le hr⟩
          · exact ⟨hruns.2.trans hx.1, hx.2⟩
      · rw [h', List.forall_mem_append, List.forall_mem_singleton, exists_mem_concat,
          exists_mem_concat, hold]
        exact ⟨⟨hruns, hr⟩, Iff.rfl⟩

end Increasing

end Basis
