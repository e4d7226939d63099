import Mathlib.Data.Int.Notation
import Mathlib.Data.List.Basic

/-!
# C Strings

A C string is the list of its bytes before the terminating NUL. The comparisons of
`string.h` are stated on these lists: `strncmp a b n` answers `0` exactly when the two
strings agree on their first `n` bytes, a string that ends earlier counting as different
from one that goes on. In a buffer a string is what stands before the first NUL (`cstrOf`).
`atoi` reads a decimal number.
-/

namespace Basis

/-- The bytes of a C string before its terminating NUL. -/
abbrev CStr := List UInt8

instance lawfulBEqCStr : LawfulBEq CStr := inferInstance

/-- The bytes of a string literal. -/
def bytesOf (s : String) : CStr :=
  s.toList.map fun c => UInt8.ofNat c.toNat

/-- Whether `strncmp a b n` answers `0`. -/
def strncmpEq (a b : CStr) (n : ℕ) : Bool :=
  a.take n == b.take n

/-- `strstr s t`: the rest of `s` from the first occurrence of `t` on. -/
def strstr (s t : CStr) : Option CStr :=
  if t.isPrefixOf s then some s
  else
    match s with
    | [] => none
    | _ :: s => strstr s t

/-- The C string in a buffer. -/
def cstrOf (buf : List UInt8) : CStr := buf.takeWhile (· ≠ 0)

/-- `strncpy buf src n`: the first `n` bytes of the source, filled up with NULs. -/
def strncpy (buf : List UInt8) (src : CStr) (n : ℕ) : List UInt8 :=
  src.take n ++ List.replicate (n - src.length) 0 ++ buf.drop n

/-- `isspace`. -/
def isSpace (c : UInt8) : Bool := c == 32 || (9 ≤ c && c ≤ 13)

/-- `isdigit`. -/
def isDigit (c : UInt8) : Bool := 48 ≤ c && c ≤ 57

/-- The value of the digits that a string starts with. -/
def digitsVal (s : CStr) : ℕ :=
  (s.takeWhile isDigit).foldl (fun n c => 10 * n + (c.toNat - 48)) 0

/-- `atoi`: white space, a sign, and digits. -/
def atoi (s : CStr) : ℤ :=
  match s.dropWhile isSpace with
  | 45 :: ds => -(digitsVal ds : ℤ)
  | 43 :: ds => (digitsVal ds : ℤ)
  | ds => (digitsVal ds : ℤ)

/-- A digit is neither white space nor a sign. -/
theorem plain_of_isDigit {c : UInt8} (h : isDigit c = true) :
    isSpace c = false ∧ c ≠ 45 ∧ c ≠ 43 := by
  simp only [isDigit, Bool.and_eq_true, decide_eq_true_eq, UInt8.le_iff_toNat_le,
    UInt8.reduceToNat] at h
  simp only [isSpace, Bool.or_eq_false_iff, Bool.and_eq_false_iff, beq_eq_false_iff_ne,
    decide_eq_false_iff_not, ne_eq, ← UInt8.toNat_inj, UInt8.le_iff_toNat_le, UInt8.reduceToNat]
  omega

/-- A number without a sign. -/
theorem atoi_of_digit {c : UInt8} (h : isDigit c = true) (s : CStr) :
    atoi (c :: s) = digitsVal (c :: s) := by
  obtain ⟨hspace, hminus, hplus⟩ := plain_of_isDigit h
  rw [atoi, List.dropWhile_cons_of_neg (by simp [hspace])]
  split
  · rename_i ds heq
    exact absurd (List.cons.inj heq).1 hminus
  · rename_i ds heq
    exact absurd (List.cons.inj heq).1 hplus
  · rfl

/-- A number ends in front of what is not a digit. -/
theorem digitsVal_append_cons {c : UInt8} (hc : isDigit c = false) (s t : CStr) :
    digitsVal (s ++ c :: t) = digitsVal s := by
  have htake : (s ++ c :: t).takeWhile isDigit = s.takeWhile isDigit := by
    induction s with
    | nil => rw [List.nil_append, List.takeWhile_cons, hc]; rfl
    | cons d s ih => rw [List.cons_append, List.takeWhile_cons, List.takeWhile_cons, ih]
  rw [digitsVal, htake, digitsVal]

theorem strncmpEq_iff {a b : CStr} {n : ℕ} :
    strncmpEq a b n = true ↔ a.take n = b.take n := by
  simp only [strncmpEq, beq_iff_eq]

/-- Only the first `n` bytes of the second string are looked at. -/
theorem strncmpEq_take_right (a b : CStr) (n : ℕ) :
    strncmpEq a (b.take n) n = strncmpEq a b n := by
  simp only [strncmpEq, List.take_take, Nat.min_self]

theorem strstr_cons_of_not {c : UInt8} {s t : CStr} (h : ¬t.isPrefixOf (c :: s) = true) :
    strstr (c :: s) t = strstr s t := by
  rw [strstr, if_neg h]

/-- `strstr` finds what is contained. -/
theorem strstr_isSome_iff {s t : CStr} : (strstr s t).isSome = true ↔ t <:+: s := by
  induction s with
  | nil =>
      rw [strstr, List.infix_nil]
      by_cases h : t = []
      · simp [h]
      · simp [h, List.isPrefixOf_iff_prefix]
  | cons c s ih =>
      by_cases h : t.isPrefixOf (c :: s) = true
      · rw [strstr, if_pos h]
        exact iff_of_true rfl (List.isPrefixOf_iff_prefix.mp h).isInfix
      · rw [strstr_cons_of_not h, ih, List.infix_cons_iff, ← List.isPrefixOf_iff_prefix]
        simp only [h, Bool.false_eq_true, false_or]

/-- A string starts with itself. -/
theorem strstr_append_self (s t : CStr) : strstr (t ++ s) t = some (t ++ s) := by
  have hyes : t.isPrefixOf (t ++ s) = true :=
    List.isPrefixOf_iff_prefix.mpr (List.prefix_append _ _)
  rw [strstr.eq_def, if_pos hyes]

/-- What does not contain the first byte of `d :: t` is passed over. -/
theorem strstr_append_of_not_mem {d : UInt8} {p : CStr} (h : d ∉ p) (s t : CStr) :
    strstr (p ++ s) (d :: t) = strstr s (d :: t) := by
  induction p with
  | nil => rfl
  | cons c p ih =>
      rw [List.mem_cons, not_or] at h
      have hno : ¬(d :: t).isPrefixOf (c :: (p ++ s)) = true := by
        rw [List.isPrefixOf_iff_prefix, List.cons_prefix_cons]
        exact fun hp => h.1 hp.1
      rw [List.cons_append, strstr_cons_of_not hno, ih h.2]

theorem strstr_of_not_mem {d : UInt8} {s : CStr} (h : d ∉ s) (t : CStr) :
    strstr s (d :: t) = none := by
  have hskip := strstr_append_of_not_mem h [] t
  rwa [List.append_nil] at hskip

/-- The string in a buffer ends at the first NUL. -/
theorem zero_not_mem_cstrOf (buf : List UInt8) : 0 ∉ cstrOf buf := fun h =>
  absurd (List.all_eq_true.mp List.all_takeWhile 0 h) (by decide)

theorem exists_eq_cstrOf_append {buf : List UInt8} (h : 0 ∈ buf) :
    ∃ rest, buf = cstrOf buf ++ 0 :: rest := by
  induction buf with
  | nil => exact absurd h List.not_mem_nil
  | cons c buf ih =>
      by_cases hc : c = 0
      · exact ⟨buf, by simp [cstrOf, hc]⟩
      · obtain ⟨rest, hrest⟩ := ih ((List.mem_cons.mp h).resolve_left (Ne.symm hc))
        exact ⟨rest, by rw [cstrOf, List.takeWhile_cons_of_pos (by simp [hc]), List.cons_append,
          ← cstrOf, ← hrest]⟩

/-- Bytes that are none of them a NUL stand at the start of the string. -/
theorem cstrOf_append {x : List UInt8} (h0 : 0 ∉ x) (y : List UInt8) :
    cstrOf (x ++ y) = x ++ cstrOf y :=
  List.takeWhile_append_of_pos fun _ hc => decide_eq_true (ne_of_mem_of_not_mem hc h0)

/-- The string in a buffer that starts with a terminated string. -/
theorem cstrOf_append_zero {x : List UInt8} (h0 : 0 ∉ x) (y : List UInt8) :
    cstrOf (x ++ 0 :: y) = x := by
  rw [cstrOf_append h0]
  exact List.append_nil x

/-- A text without NULs goes on to its end. -/
theorem cstrOf_eq_self {x : List UInt8} (h0 : 0 ∉ x) : cstrOf x = x := by
  have hself : cstrOf (x ++ []) = x ++ [] := cstrOf_append h0 []
  rwa [List.append_nil] at hself

/-- `strncpy` writes `n` bytes and leaves the size of the buffer. -/
theorem length_strncpy {buf : List UInt8} {n : ℕ} (src : CStr) (hn : n ≤ buf.length) :
    (strncpy buf src n).length = buf.length := by
  simp only [strncpy, List.length_append, List.length_take, List.length_replicate,
    List.length_drop]
  omega

/-- A prefix copied by `strncpy` and terminated by hand is the string in the buffer. -/
theorem cstrOf_strncpy_set {buf : List UInt8} {src : CStr} {n : ℕ} (hsrc : 0 ∉ src)
    (hlen : n ≤ src.length) (hn : n < buf.length) :
    cstrOf ((strncpy buf src n).set n 0) = src.take n := by
  have hpre : (src.take n).length = n := List.length_take_of_le hlen
  have hset : (strncpy buf src n).set n 0 = src.take n ++ (0 :: buf.drop (n + 1)) := by
    rw [strncpy, Nat.sub_eq_zero_of_le hlen, List.replicate_zero, List.append_nil,
      List.set_append_right _ _ (Nat.le_of_eq hpre), hpre, Nat.sub_self,
      List.drop_eq_getElem_cons hn, List.set_cons_zero]
  rw [hset, cstrOf_append_zero fun h => hsrc (List.mem_of_mem_take h)]

end Basis
