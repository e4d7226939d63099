import Ooops.Basis.CString

/-!
# Scanning a Text

Three ways of going through the bytes of a text: the positions at which a mark stands, the
words between white space, as `sscanf` with `%s` reads them, and the lines that `fgets` reads.

* `marksFrom_append`: bytes at which no mark starts only move the positions.
* `pairwise_marksFrom`: the positions are found from left to right.
* `words_cons`: a word in front of white space.
* `words_concat_space`: white space at the end says nothing.
* `fgetsLines_cons`: a line that fits the buffer is read as it is.
-/

namespace Basis

/-! ### Marks -/

section Marks

variable {α : Type*} {mark : List α → Bool}

/-- The positions at which a mark stands, among `n` positions counted from `i` on. -/
def marksFrom (mark : List α → Bool) : ℕ → ℕ → List α → List ℕ
  | _, 0, _ => []
  | i, n + 1, b =>
      if mark b then i :: marksFrom mark (i + 1) n b.tail else marksFrom mark (i + 1) n b.tail

theorem marksFrom_zero (i : ℕ) (b : List α) : marksFrom mark i 0 b = [] := rfl

theorem marksFrom_of_not_mark {i n : ℕ} {b : List α} (h : ¬mark b = true) :
    marksFrom mark i (n + 1) b = marksFrom mark (i + 1) n b.tail := by
  rw [marksFrom, if_neg h]

/-- Bytes at which no mark starts only move the positions. -/
theorem marksFrom_append {x : List α} (h : ∀ c ∈ x, ∀ b, ¬mark (c :: b) = true) (i m : ℕ)
    (y : List α) : marksFrom mark i (x.length + m) (x ++ y) =
      marksFrom mark (i + x.length) m y := by
  induction x generalizing i with
  | nil => simp only [List.length_nil, Nat.zero_add, List.nil_append, Nat.add_zero]
  | cons c x ih =>
      have hlen : (c :: x).length + m = (x.length + m) + 1 := by
        rw [List.length_cons]
        omega
      have hpos : i + (c :: x).length = i + 1 + x.length := by
        rw [List.length_cons]
        omega
      rw [hlen, hpos, List.cons_append, marksFrom_of_not_mark (h c List.mem_cons_self _),
        List.tail_cons, ih fun d hd => h d (List.mem_cons_of_mem c hd)]

/-- Marks stand among the positions that are looked at. -/
theorem bounds_of_mem_marksFrom {i n m : ℕ} {b : List α} (h : m ∈ marksFrom mark i n b) :
    i ≤ m ∧ m < i + n := by
  induction n generalizing i b with
  | zero => exact absurd h List.not_mem_nil
  | succ n ih =>
      rw [marksFrom] at h
      have hrest (hm : m ∈ marksFrom mark (i + 1) n b.tail) : i ≤ m ∧ m < i + (n + 1) := by
        have := ih hm
        omega
      split_ifs at h
      · rcases List.mem_cons.mp h with rfl | hm
        · omega
        · exact hrest hm
      · exact hrest h

/-- Marks are found from left to right. -/
theorem pairwise_marksFrom (i n : ℕ) (b : List α) :
    (marksFrom mark i n b).Pairwise (· < ·) := by
  induction n generalizing i b with
  | zero => exact .nil
  | succ n ih =>
      rw [marksFrom]
      split_ifs
      · exact .cons (fun m hm => (bounds_of_mem_marksFrom hm).1) (ih _ _)
      · exact ih _ _

end Marks

/-! ### Words -/

/-- A word of a text. -/
abbrev Word := { w : CStr // w ≠ [] }

/-- The words of a text, when `cur` of the first one has been read. -/
def wordsFrom : CStr → CStr → List Word
  | cur, [] => if h : cur = [] then [] else [⟨cur, h⟩]
  | cur, c :: s =>
      if isSpace c then
        if h : cur = [] then wordsFrom [] s else ⟨cur, h⟩ :: wordsFrom [] s
      else wordsFrom (cur ++ [c]) s

/-- The words of a text. -/
def words (s : CStr) : List Word := wordsFrom [] s

/-- `sscanf` with `n` conversions `%s` into items of `size` bytes. No result stands for a word
that does not fit its item. -/
def scanWords (n size : ℕ) (s : CStr) : Option { items : List Word // items.length ≤ n } :=
  if ∀ w ∈ (words s).take n, w.val.length < size then
    some ⟨(words s).take n, List.length_take_le n _⟩
  else none

theorem wordsFrom_append {x : CStr} (h : ∀ c ∈ x, isSpace c = false) (cur y : CStr) :
    wordsFrom cur (x ++ y) = wordsFrom (cur ++ x) y := by
  induction x generalizing cur with
  | nil => rw [List.nil_append, List.append_nil]
  | cons c x ih =>
      have hc : ¬isSpace c = true := Bool.eq_false_iff.mp (h c List.mem_cons_self)
      rw [List.cons_append, wordsFrom, if_neg hc,
        ih fun d hd => h d (List.mem_cons_of_mem c hd), List.append_assoc, List.singleton_append]

/-- White space in front says nothing. -/
theorem words_append_space {g : CStr} (h : ∀ c ∈ g, isSpace c = true) (y : CStr) :
    words (g ++ y) = words y := by
  induction g with
  | nil => rfl
  | cons c g ih =>
      have hstep : words (c :: (g ++ y)) = words (g ++ y) := by
        rw [words, wordsFrom, if_pos (h c List.mem_cons_self), dif_pos rfl, words]
      rw [List.cons_append, hstep, ih fun d hd => h d (List.mem_cons_of_mem c hd)]

/-- A word in front of white space. -/
theorem words_cons {w : CStr} (hw : w ≠ []) (h : ∀ c ∈ w, isSpace c = false) {g : CStr}
    (hg : g ≠ []) (hspace : ∀ c ∈ g, isSpace c = true) (y : CStr) :
    words (w ++ (g ++ y)) = ⟨w, hw⟩ :: words y := by
  cases g with
  | nil => exact absurd rfl hg
  | cons c g =>
      have hrest := words_append_space (fun d hd => hspace d (List.mem_cons_of_mem c hd)) y
      rw [words, wordsFrom_append h, List.nil_append, List.cons_append, wordsFrom,
        if_pos (hspace c List.mem_cons_self), dif_neg hw]
      exact congrArg _ hrest

/-- White space at the end says nothing. -/
theorem wordsFrom_concat_space {c : UInt8} (hc : isSpace c = true) (cur x : CStr) :
    wordsFrom cur (x ++ [c]) = wordsFrom cur x := by
  induction x generalizing cur with
  | nil =>
      by_cases hcur : cur = []
      · simp only [List.nil_append, wordsFrom, if_pos hc, dif_pos hcur, dif_pos]
      · simp only [List.nil_append, wordsFrom, if_pos hc, dif_neg hcur, dif_pos]
  | cons d x ih =>
      rw [List.cons_append, wordsFrom, wordsFrom, ih, ih]

theorem words_concat_space {c : UInt8} (hc : isSpace c = true) (x : CStr) :
    words (x ++ [c]) = words x :=
  wordsFrom_concat_space hc [] x

/-- Where all words that are read fit, reading them gives them. -/
theorem scanWords_eq {n size : ℕ} {s : CStr} (h : ∀ w ∈ words s, w.val.length < size) :
    scanWords n size s = some ⟨(words s).take n, List.length_take_le n _⟩ :=
  if_pos fun w hw => h w (List.mem_of_mem_take hw)

/-! ### Lines -/

/-- What `fgets` with a buffer of `size` bytes reads, one piece after the other, when `cur` of the
first one has been read: up to the end of a line, or as much as the buffer holds in front of
the NUL. -/
def fgetsFrom (size : ℕ) : List UInt8 → List UInt8 → List (List UInt8)
  | cur, [] => if cur = [] then [] else [cur]
  | cur, c :: s =>
      if c = 10 ∨ size ≤ (cur ++ [c]).length + 1 then (cur ++ [c]) :: fgetsFrom size [] s
      else fgetsFrom size (cur ++ [c]) s

/-- The pieces of a text that `fgets` reads. -/
def fgetsLines (size : ℕ) (s : List UInt8) : List (List UInt8) := fgetsFrom size [] s

/-- The bytes of a line are collected. -/
theorem fgetsFrom_append {size : ℕ} {x : List UInt8} (hx : 10 ∉ x) {cur : List UInt8}
    (hfit : cur.length + x.length + 1 < size) (y : List UInt8) :
    fgetsFrom size cur (x ++ y) = fgetsFrom size (cur ++ x) y := by
  induction x generalizing cur with
  | nil => rw [List.nil_append, List.append_nil]
  | cons c x ih =>
      rw [List.mem_cons, not_or] at hx
      rw [List.length_cons] at hfit
      have hlen : (cur ++ [c]).length = cur.length + 1 := by
        rw [List.length_append, List.length_singleton]
      have hgo : ¬(c = 10 ∨ size ≤ (cur ++ [c]).length + 1) := by
        rintro (hc | hle)
        · exact hx.1 hc.symm
        · omega
      rw [List.cons_append, fgetsFrom, if_neg hgo, ih hx.2 (by omega), List.append_assoc,
        List.singleton_append]

/-- A line that fits the buffer is read as it is. -/
theorem fgetsLines_cons {size : ℕ} {x : List UInt8} (hx : 10 ∉ x) (hfit : x.length + 1 < size)
    (y : List UInt8) :
    fgetsLines size (x ++ 10 :: y) = (x ++ [10]) :: fgetsLines size y := by
  rw [fgetsLines, fgetsFrom_append hx (by simpa using hfit), List.nil_append, fgetsFrom,
    if_pos (.inl rfl), fgetsLines]

end Basis
