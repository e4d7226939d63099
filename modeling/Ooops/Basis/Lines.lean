import Mathlib.Data.List.Basic
import Mathlib.Tactic.SplitIfs

/-!
# The Lines of a Text

A text is cut at its newlines. What stands behind the last one is a line of its own unless it
is empty, so a text may end in a newline or not. Where one text follows another, the lines of
both are kept apart exactly if the first one ends in a newline.

* `lines_append`: a text that ends in a newline, and one behind it.
* `length_lines`: the number of lines.
* `lines_append_iff`: when the lines of two texts are those of the whole.
-/

namespace Basis

/-- The newline. -/
def lineFeed : UInt8 := 10

/-- The lines of a text, when `cur` of the first one has been read. -/
def linesFrom : List UInt8 → List UInt8 → List (List UInt8)
  | cur, [] => if cur = [] then [] else [cur]
  | cur, c :: s => if c = lineFeed then cur :: linesFrom [] s else linesFrom (cur ++ [c]) s

/-- The lines of a text, without their newlines. -/
def lines (s : List UInt8) : List (List UInt8) := linesFrom [] s

/-- A text whose last line ends in a newline, if it has one. -/
def Terminated (s : List UInt8) : Prop := ∀ c ∈ s.getLast?, c = lineFeed

instance (s : List UInt8) : Decidable (Terminated s) := Option.decidableForallMem s.getLast?

variable {x y : List UInt8}

theorem linesFrom_newline (cur s : List UInt8) :
    linesFrom cur (lineFeed :: s) = cur :: lines s := by
  rw [linesFrom, if_pos rfl, lines]

theorem linesFrom_of_ne {c : UInt8} (h : c ≠ lineFeed) (cur s : List UInt8) :
    linesFrom cur (c :: s) = linesFrom (cur ++ [c]) s := by
  rw [linesFrom, if_neg h]

/-- Nothing of what follows a newline joins a line in front of it. -/
theorem linesFrom_append_newline (cur x y : List UInt8) :
    linesFrom cur (x ++ lineFeed :: y) = linesFrom cur (x ++ [lineFeed]) ++ lines y := by
  induction x generalizing cur with
  | nil =>
      rw [List.nil_append, List.nil_append, linesFrom_newline, linesFrom_newline]
      rfl
  | cons c x ih =>
      rw [List.cons_append, List.cons_append]
      by_cases hc : c = lineFeed
      · rw [hc, linesFrom_newline, linesFrom_newline, lines, ih, List.cons_append]
        rfl
      · rw [linesFrom_of_ne hc, linesFrom_of_ne hc, ih]

/-- **A text that ends in a newline**, and one behind it. -/
theorem lines_append (h : Terminated x) (y : List UInt8) : lines (x ++ y) = lines x ++ lines y := by
  rcases List.eq_nil_or_concat' x with rfl | ⟨x, c, rfl⟩
  · rfl
  · obtain rfl : c = lineFeed := h c (by simp)
    rw [List.append_assoc, List.singleton_append]
    exact linesFrom_append_newline [] x y

theorem length_linesFrom_concat (cur s : List UInt8) (c : UInt8) :
    (linesFrom cur (s ++ [c])).length = s.count lineFeed + 1 := by
  induction s generalizing cur with
  | nil =>
      rw [List.nil_append]
      by_cases hc : c = lineFeed
      · rw [hc, linesFrom_newline]
        rfl
      · rw [linesFrom_of_ne hc, linesFrom, if_neg (by simp)]
        rfl
  | cons d s ih =>
      rw [List.cons_append]
      by_cases hd : d = lineFeed
      · rw [hd, linesFrom_newline, lines, List.length_cons, ih, List.count_cons_self]
      · rw [linesFrom_of_ne hd, ih, List.count_cons_of_ne hd]

/-- A text has a line for every newline in front of its last byte, and the one that this byte is
in or ends. -/
theorem length_lines (s : List UInt8) (c : UInt8) :
    (lines (s ++ [c])).length = s.count lineFeed + 1 :=
  length_linesFrom_concat [] s c

/-- **The lines of two texts are those of the whole** exactly if the first one ends in a newline:
otherwise there is one line less. -/
theorem lines_append_iff (hy : y ≠ []) : lines (x ++ y) = lines x ++ lines y ↔ Terminated x := by
  refine ⟨fun h => ?_, fun h => lines_append h y⟩
  rcases List.eq_nil_or_concat' x with rfl | ⟨x, c, rfl⟩
  · exact nofun
  · obtain ⟨y, d, rfl⟩ := (List.eq_nil_or_concat' y).resolve_left hy
    intro c' hc'
    obtain rfl : c = c' := by simpa using hc'
    by_contra hne
    have hlen := congrArg List.length h
    rw [← List.append_assoc, List.length_append, length_lines, length_lines, length_lines,
      List.count_append, List.count_append, List.count_singleton, if_neg (by simpa using hne)]
      at hlen
    omega

end Basis
