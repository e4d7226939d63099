import Mathlib.Init

/-!
# Computations That May Fail

When a computation in `Except` comes to an end.

* `bind_eq_ok_iff` and `map_eq_ok_iff`: a step before the rest, and a result that is changed.
-/

namespace Basis

universe u v

variable {ε : Type u} {α β : Type v} {x : Except ε α} {b : β}

/-- A step that may fail comes before the rest. -/
theorem bind_eq_ok_iff {f : α → Except ε β} :
    (x >>= f) = .ok b ↔ ∃ a, x = .ok a ∧ f a = .ok b := by
  cases x with
  | error e => exact ⟨nofun, fun ⟨a, ha, _⟩ => absurd ha nofun⟩
  | ok a =>
      refine ⟨fun h => ⟨a, rfl, h⟩, ?_⟩
      rintro ⟨a', ha, h⟩
      obtain rfl := Except.ok.inj ha
      exact h

/-- A result is changed only where there is one. -/
theorem map_eq_ok_iff {f : α → β} : x.map f = .ok b ↔ ∃ a, x = .ok a ∧ f a = b := by
  cases x with
  | error e => exact ⟨nofun, fun ⟨a, ha, _⟩ => absurd ha nofun⟩
  | ok a => simp [Except.map]

end Basis
