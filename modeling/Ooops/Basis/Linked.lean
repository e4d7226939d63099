import Mathlib.Data.List.Perm.Basic
import Mathlib.Data.Int.Init
import Mathlib.Logic.Function.Basic

/-!
# Lists Linked Through an Array

The elements of an array carry the index of the next one, with `-1` at the end. `Linked
next i l` says that following `next` from `i` passes through the slots `l` and then ends.

* `Linked.unique`: an index starts one list.
* `Linked.congr` and `Linked.update`: what is written outside the list leaves it as it is.
* `Linked.push` and `Linked.unlink`: a slot put in front, and one taken out behind another.
* `Linked.leadsTo_iff`: the slots of a list are those that its start leads to.
* `flatMap_update_cons_perm` and `flatMap_perm_cons_update`: a family of lists, one of which
  gets one more entry or loses one.
-/

namespace Basis

/-- Following `next` from `i` passes through the slots `l` and ends with `-1`. -/
inductive Linked (next : ℕ → ℤ) : ℤ → List ℕ → Prop
  | nil : Linked next (-1) []
  | cons {i : ℕ} {l : List ℕ} (rest : Linked next (next i) l) : Linked next i (i :: l)

/-- Following `next` from an index leads to slot `e`. -/
inductive LeadsTo (next : ℕ → ℤ) : ℤ → ℕ → Prop
  | here (e : ℕ) : LeadsTo next e e
  | later {i e : ℕ} (rest : LeadsTo next (next i) e) : LeadsTo next i e

namespace Linked

variable {next next' : ℕ → ℤ} {h : ℤ} {i : ℕ} {l l' : List ℕ}

/-- Only the empty list starts at `-1`. -/
theorem eq_nil (hl : Linked next (-1) l) : l = [] := by
  generalize hh : (-1 : ℤ) = h at hl
  cases hl with
  | nil => rfl
  | cons _ => omega

/-- The empty list starts at `-1`. -/
theorem eq_neg_one (hl : Linked next h []) : h = -1 := by
  cases hl with
  | nil => rfl

/-- A list that does not start at `-1` starts at its first slot. -/
theorem exists_cons (hl : Linked next h l) (hne : h ≠ -1) :
    ∃ i l', l = i :: l' ∧ h = (i : ℤ) ∧ Linked next (next i) l' := by
  cases hl with
  | nil => exact absurd rfl hne
  | cons rest => exact ⟨_, _, rfl, rfl, rest⟩

/-- What follows the first slot. -/
theorem of_cons (hl : Linked next h (i :: l)) : h = (i : ℤ) ∧ Linked next (next i) l := by
  cases hl with
  | cons rest => exact ⟨rfl, rest⟩

/-- The slots of a list are those that its start leads to. -/
theorem leadsTo_iff (hl : Linked next h l) (e : ℕ) : LeadsTo next h e ↔ e ∈ l := by
  constructor
  · intro hr
    induction hr generalizing l with
    | here e =>
        obtain ⟨i, l', rfl, hi, -⟩ := hl.exists_cons (by omega)
        exact List.mem_cons.mpr (.inl (Int.natCast_inj.mp hi))
    | @later i e _ ih =>
        obtain ⟨j, l', rfl, hj, hrest⟩ := hl.exists_cons (by omega)
        obtain rfl := Int.natCast_inj.mp hj
        exact List.mem_cons_of_mem _ (ih hrest)
  · intro he
    induction hl with
    | nil => exact absurd he List.not_mem_nil
    | cons _ ih =>
        rcases List.mem_cons.mp he with rfl | he
        · exact .here _
        · exact .later (ih he)

/-- An index starts one list. -/
theorem unique (hl : Linked next h l) (hl' : Linked next h l') : l = l' := by
  induction hl generalizing l' with
  | nil => exact hl'.eq_nil.symm
  | cons rest ih =>
      obtain ⟨j, l₂, rfl, hj, hrest⟩ := hl'.exists_cons (by omega)
      obtain rfl := Int.natCast_inj.mp hj
      rw [ih hrest]

/-- A list depends on the links of its own slots. -/
theorem congr (hl : Linked next h l) (heq : ∀ i ∈ l, next' i = next i) : Linked next' h l := by
  induction hl with
  | nil => exact .nil
  | @cons i l rest ih =>
      refine .cons ?_
      rw [heq i (List.mem_cons_self ..)]
      exact ih fun j hj => heq j (List.mem_cons_of_mem i hj)

/-- The link of a slot outside the list may change. -/
theorem update (hl : Linked next h l) (hi : i ∉ l) (x : ℤ) :
    Linked (Function.update next i x) h l :=
  hl.congr fun j hj => Function.update_of_ne (fun e : j = i => hi (e ▸ hj)) ..

/-- A slot linked to the start of a list is put in front of it. -/
theorem push (hl : Linked next h l) (hi : i ∉ l) :
    Linked (Function.update next i h) i (i :: l) := by
  refine .cons ?_
  rw [Function.update_self]
  exact hl.update hi h

/-- A slot is taken out of a list by linking the one before it to the one behind it. -/
theorem unlink {pre post : List ℕ} {e : ℕ} (hl : Linked next h (pre ++ i :: e :: post))
    (hnodup : (pre ++ i :: e :: post).Nodup) :
    Linked (Function.update next i (next e)) h (pre ++ i :: post) := by
  induction pre generalizing h with
  | nil =>
      obtain ⟨rfl, hrest⟩ := hl.of_cons
      have hi : i ∉ post := fun hi =>
        (List.nodup_cons.mp hnodup).1 (List.mem_cons_of_mem e hi)
      refine .cons ?_
      rw [Function.update_self]
      exact hrest.of_cons.2.update hi _
  | cons j pre ih =>
      obtain ⟨rfl, hrest⟩ := hl.of_cons
      obtain ⟨hj, hnodup⟩ := List.nodup_cons.mp hnodup
      have hji : j ≠ i := fun e => hj (List.mem_append_right _ (e ▸ List.mem_cons_self ..))
      refine .cons ?_
      rw [Function.update_of_ne hji]
      exact ih hrest hnodup

end Linked

section Family

variable {α β : Type*} [DecidableEq α]

/-- One more entry in one list of a family is one more entry in all. -/
theorem flatMap_update_cons_perm {l : List α} (hl : l.Nodup) {a : α} (ha : a ∈ l)
    (f : α → List β) (b : β) :
    (l.flatMap (Function.update f a (b :: f a))).Perm (b :: l.flatMap f) := by
  induction l with
  | nil => exact absurd ha List.not_mem_nil
  | cons c l ih =>
      obtain ⟨hc, hl⟩ := List.nodup_cons.mp hl
      rw [List.flatMap_cons, List.flatMap_cons]
      rcases List.mem_cons.mp ha with rfl | ha
      · have hrest : l.flatMap (Function.update f a (b :: f a)) = l.flatMap f :=
          List.flatMap_congr fun x hx =>
            Function.update_of_ne (fun e : x = a => hc (e ▸ hx)) ..
        rw [Function.update_self, hrest, List.cons_append]
      · rw [Function.update_of_ne (fun e : c = a => hc (e ▸ ha))]
        exact ((ih hl ha).append_left (f c)).trans List.perm_middle

/-- One entry less in one list of a family is one less in all. -/
theorem flatMap_perm_cons_update {l : List α} (hl : l.Nodup) {a : α} (ha : a ∈ l)
    {f : α → List β} {b : β} {x : List β} (hf : (f a).Perm (b :: x)) :
    (l.flatMap f).Perm (b :: l.flatMap (Function.update f a x)) := by
  have hback := flatMap_update_cons_perm hl ha (Function.update f a x) b
  rw [Function.update_self, Function.update_idem] at hback
  refine (List.Perm.flatMap_left l fun c _ => ?_).trans hback
  by_cases hc : c = a
  · subst hc
    rwa [Function.update_self]
  · rw [Function.update_of_ne hc]

end Family

end Basis
