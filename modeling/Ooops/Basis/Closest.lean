import Mathlib.Data.List.Forall2
import Mathlib.Order.Lattice

/-!
# The Closest Element of a List

A loop that keeps the closest element so far with its distance, and takes another one only if
that is strictly closer. An element need not have a distance; it is passed over then.

* `closestFrom_rel`: lists whose elements correspond, at the same distances, have closest
  elements that correspond.
* `closest_first`: what is found is in the list, nothing behind it is closer, and everything in
  front of it is farther away.
* `closest_isSome`: something is found where something is closer than the bound.
* `closestFrom_concat`: one more element at the end is taken, or it changes nothing.
-/

namespace Basis

variable {α β γ : Type*}

/-- The loop: `use` is the closest element so far and `dMin` its distance. -/
def closestFrom [LT γ] [DecidableLT γ] (dist : α → Option γ) : List α → γ → Option α → Option α
  | [], _, use => use
  | x :: xs, dMin, use =>
      match dist x with
      | none => closestFrom dist xs dMin use
      | some d =>
          if d < dMin then closestFrom dist xs d (some x) else closestFrom dist xs dMin use

/-- The closest element of those closer than `dMax`, the first one of several. -/
def closest [LT γ] [DecidableLT γ] (dist : α → Option γ) (dMax : γ) (xs : List α) : Option α :=
  closestFrom dist xs dMax none

section Loop

variable [LT γ] [DecidableLT γ] {dist : α → Option γ} {dMin : γ} {use : Option α}

/-- Lists that correspond, at the same distances, have closest elements that correspond. -/
theorem closestFrom_rel {dist' : β → Option γ} {R : α → β → Prop} {xs : List α} {ys : List β}
    (h : List.Forall₂ (fun x y => dist x = dist' y ∧ R x y) xs ys) {use' : Option β}
    (huse : Option.Rel R use use') :
    Option.Rel R (closestFrom dist xs dMin use) (closestFrom dist' ys dMin use') := by
  induction h generalizing dMin use use' with
  | nil => exact huse
  | @cons x y xs ys hxy _ ih =>
      rw [closestFrom, closestFrom, hxy.1]
      cases dist' y with
      | none => exact ih huse
      | some d =>
          by_cases hd : d < dMin
          · simpa only [if_pos hd] using ih (.some hxy.2)
          · simpa only [if_neg hd] using ih huse

theorem closest_rel {dist' : β → Option γ} {R : α → β → Prop} {xs : List α} {ys : List β}
    (h : List.Forall₂ (fun x y => dist x = dist' y ∧ R x y) xs ys) :
    Option.Rel R (closest dist dMin xs) (closest dist' dMin ys) :=
  closestFrom_rel h .none

/-- Only the distances of the elements of the list are looked at. -/
theorem closest_congr {dist' : α → Option γ} {xs : List α} (h : ∀ x ∈ xs, dist x = dist' x) :
    closest dist dMin xs = closest dist' dMin xs := by
  have hsame : List.Forall₂ (fun x y => dist x = dist' y ∧ x = y) xs xs :=
    List.forall₂_same.mpr fun x hx => ⟨h x hx, rfl⟩
  have hrel := @closest_rel _ _ _ _ _ dist dMin dist' (· = ·) xs xs hsame
  generalize closest dist dMin xs = x, closest dist' dMin xs = y at hrel
  cases hrel with
  | none => rfl
  | some hxy => rw [hxy]

/-- One more element at the end is taken, or it changes nothing. -/
theorem closestFrom_concat (xs : List α) (x : α) :
    closestFrom dist (xs ++ [x]) dMin use = some x ∨
      closestFrom dist (xs ++ [x]) dMin use = closestFrom dist xs dMin use := by
  induction xs generalizing dMin use with
  | nil =>
      simp only [List.nil_append, closestFrom]
      cases dist x with
      | none => exact .inr rfl
      | some d =>
          by_cases hd : d < dMin
          · exact .inl (if_pos hd)
          · exact .inr (if_neg hd)
  | cons y xs ih =>
      simp only [List.cons_append, closestFrom]
      cases dist y with
      | none => exact ih
      | some d =>
          by_cases hd : d < dMin
          · simpa only [if_pos hd] using ih
          · simpa only [if_neg hd] using ih

end Loop

section Least

variable [LinearOrder γ] {dist : α → Option γ}

/-- Either nothing in the list is closer than what was there before, or something in the list is
closer than that, than all in front of it, and no farther away than all behind it. -/
theorem closestFrom_cases (xs : List α) (dMin : γ) (use : Option α) :
    (closestFrom dist xs dMin use = use ∧ ∀ y ∈ xs, ∀ e, dist y = some e → dMin ≤ e) ∨
      ∃ before x after d, xs = before ++ x :: after ∧ closestFrom dist xs dMin use = some x ∧
        dist x = some d ∧ d < dMin ∧ (∀ y ∈ before, ∀ e, dist y = some e → d < e) ∧
        ∀ y ∈ after, ∀ e, dist y = some e → d ≤ e := by
  induction xs generalizing dMin use with
  | nil => exact .inl ⟨rfl, nofun⟩
  | cons z xs ih =>
      rw [closestFrom]
      cases hz : dist z with
      | none =>
          have hskip {q : γ → Prop} : ∀ e, dist z = some e → q e :=
            fun e he => absurd (hz ▸ he) nofun
          rcases ih dMin use with
            ⟨heq, hle⟩ | ⟨before, x, after, d, rfl, heq, hd, hlt, hbefore, hle⟩
          · exact .inl ⟨heq, List.forall_mem_cons.mpr ⟨hskip, hle⟩⟩
          · exact .inr ⟨z :: before, x, after, d, rfl, heq, hd, hlt,
              List.forall_mem_cons.mpr ⟨hskip, hbefore⟩, hle⟩
      | some d =>
          have hself {q : γ → Prop} (hq : q d) : ∀ e, dist z = some e → q e := fun e he =>
            Option.some.inj (hz ▸ he) ▸ hq
          by_cases hd : d < dMin
          · simp only [if_pos hd]
            rcases ih d (some z) with
              ⟨heq, hle⟩ | ⟨before, x, after, d', rfl, heq, hd', hlt, hbefore, hle⟩
            · exact .inr ⟨[], z, xs, d, rfl, heq, hz, hd, nofun, hle⟩
            · exact .inr ⟨z :: before, x, after, d', rfl, heq, hd', hlt.trans hd,
                List.forall_mem_cons.mpr ⟨hself hlt, hbefore⟩, hle⟩
          · simp only [if_neg hd]
            rcases ih dMin use with
              ⟨heq, hle⟩ | ⟨before, x, after, d', rfl, heq, hd', hlt, hbefore, hle⟩
            · exact .inl ⟨heq, List.forall_mem_cons.mpr ⟨hself (not_lt.mp hd), hle⟩⟩
            · exact .inr ⟨z :: before, x, after, d', rfl, heq, hd', hlt,
                List.forall_mem_cons.mpr ⟨hself (hlt.trans_le (not_lt.mp hd)), hbefore⟩, hle⟩

/-- What is found is closer than all in front of it, and no farther away than all behind it. -/
theorem closest_first {dMax : γ} {xs : List α} {x : α} (h : closest dist dMax xs = some x) :
    ∃ before after d, xs = before ++ x :: after ∧ dist x = some d ∧ d < dMax ∧
      (∀ y ∈ before, ∀ e, dist y = some e → d < e) ∧
      ∀ y ∈ after, ∀ e, dist y = some e → d ≤ e := by
  rcases @closestFrom_cases _ _ _ dist xs dMax none with
    ⟨heq, -⟩ | ⟨before, z, after, d, hsplit, heq, hd⟩
  · exact absurd (heq.symm.trans h) nofun
  · obtain rfl : z = x := Option.some.inj (heq.symm.trans h)
    exact ⟨before, after, d, hsplit, hd⟩

/-- What is found is in the list, and nothing there is closer. -/
theorem closest_le {dMax : γ} {xs : List α} {x : α} (h : closest dist dMax xs = some x) :
    x ∈ xs ∧ ∃ d, dist x = some d ∧ d < dMax ∧ ∀ y ∈ xs, ∀ e, dist y = some e → d ≤ e := by
  obtain ⟨before, after, d, rfl, hd, hlt, hbefore, hafter⟩ := closest_first h
  refine ⟨List.mem_append_right _ List.mem_cons_self, d, hd, hlt, fun y hy e he => ?_⟩
  rcases List.mem_append.mp hy with hy | hy
  · exact (hbefore y hy e he).le
  · rcases List.mem_cons.mp hy with rfl | hy
    · exact (Option.some.inj (hd.symm.trans he)).le
    · exact hafter y hy e he

/-- Something is found where something is closer than the bound. -/
theorem closest_isSome {dMax : γ} {xs : List α} {x : α} {d : γ} (hx : x ∈ xs)
    (hd : dist x = some d) (hlt : d < dMax) : ∃ z, closest dist dMax xs = some z := by
  rcases @closestFrom_cases _ _ _ dist xs dMax none with ⟨-, hle⟩ | ⟨_, z, _, _, -, heq, -⟩
  · exact absurd hlt (not_lt.mpr (hle x hx d hd))
  · exact ⟨z, heq⟩

end Least

end Basis
