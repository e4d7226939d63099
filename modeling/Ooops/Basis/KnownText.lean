import Mathlib.Data.List.Infix
import Ooops.Basis.CString

/-!
# Texts That Are Known in Part

A buffer that is searched as a string need not be terminated. Of the memory from some address on
only the bytes `t` are known, and a function of `string.h` that looks at a byte behind them has
no result (`none`). A result is therefore one that the bytes behind `t` have no part in
(`startsWith_append`, `strstrAt_append`), and where there is none, they decide
(`startsWith_of_none`, `strstrAt_of_none`).

The patterns are string literals: they have no NUL.

* `startsWith_eq_none_iff` and its companions: when a comparison has which result.
* `strstrAt_eq_none_iff` and its companions: the same for a search.
* `firstTrueFrom_eq_found_iff`: a loop that ends at the first index that passes a test.
-/

namespace Basis

/-! ### Comparing -/

/-- Whether `strncmp` of a memory and a pattern of its length answers `0`. -/
def startsWith : CStr → List UInt8 → Option Bool
  | [], _ => some true
  | _ :: _, [] => none
  | p :: pat, c :: t => if c = p then startsWith pat t else some false

/-- A text that ends within a pattern. -/
def EndsWithin (pat : CStr) (t : List UInt8) : Prop := t <+: pat ∧ t ≠ pat

instance (pat : CStr) (t : List UInt8) : Decidable (EndsWithin pat t) :=
  inferInstanceAs (Decidable (t <+: pat ∧ t ≠ pat))

section Compare

variable {pat : CStr} {t : List UInt8}

theorem startsWith_eq_true_iff : startsWith pat t = some true ↔ pat <+: t := by
  induction pat generalizing t with
  | nil => simp [startsWith]
  | cons p pat ih =>
      cases t with
      | nil => simp [startsWith]
      | cons c t =>
          rw [startsWith, List.cons_prefix_cons]
          split_ifs with hc
          · rw [ih]
            exact ⟨fun h => ⟨hc.symm, h⟩, And.right⟩
          · exact iff_of_false nofun fun h => hc h.1.symm

/-- There is no result if what is known ends before the pattern does. -/
theorem startsWith_eq_none_iff : startsWith pat t = none ↔ EndsWithin pat t := by
  rw [EndsWithin]
  induction pat generalizing t with
  | nil =>
      rw [startsWith, List.prefix_nil]
      exact iff_of_false nofun fun h => h.2 h.1
  | cons p pat ih =>
      cases t with
      | nil => simp [startsWith]
      | cons c t =>
          rw [startsWith, List.cons_prefix_cons]
          split_ifs with hc
          · rw [ih, hc]
            simp
          · exact iff_of_false nofun fun h => hc h.1.1

/-- The memory differs from the pattern if neither starts with the other. -/
theorem startsWith_eq_false_iff : startsWith pat t = some false ↔ ¬pat <+: t ∧ ¬t <+: pat := by
  induction pat generalizing t with
  | nil => simp [startsWith]
  | cons p pat ih =>
      cases t with
      | nil => simp [startsWith]
      | cons c t =>
          rw [startsWith, List.cons_prefix_cons, List.cons_prefix_cons]
          split_ifs with hc
          · rw [ih, hc]
            simp
          · exact iff_of_true rfl ⟨fun h => hc h.1.symm, fun h => hc h.1⟩

/-- The bytes behind those that give a result have no part in it. -/
theorem startsWith_append {b : Bool} (h : startsWith pat t = some b) (s : List UInt8) :
    startsWith pat (t ++ s) = some b := by
  induction pat generalizing t with
  | nil => simpa [startsWith] using h
  | cons p pat ih =>
      cases t with
      | nil => exact absurd h nofun
      | cons c t =>
          rw [startsWith] at h
          rw [List.cons_append, startsWith]
          split_ifs at h ⊢ with hc
          · exact ih h
          · exact h

/-- Where there is no result, the bytes behind decide. -/
theorem startsWith_of_none (h : startsWith pat t = none) (h0 : 0 ∉ pat) :
    startsWith pat (t ++ [0]) = some false ∧
      startsWith pat (t ++ pat.drop t.length) = some true := by
  obtain ⟨⟨rest, rfl⟩, hne⟩ := startsWith_eq_none_iff.mp h
  refine ⟨?_, startsWith_eq_true_iff.mpr (by rw [List.drop_left])⟩
  cases hres : startsWith (t ++ rest) (t ++ [0]) with
  | none =>
      obtain ⟨hpre, -⟩ := startsWith_eq_none_iff.mp hres
      exact absurd (hpre.subset (by simp)) h0
  | some b =>
      cases b with
      | false => rfl
      | true =>
          obtain hpre := startsWith_eq_true_iff.mp hres
          rw [List.prefix_append_right_inj] at hpre
          cases rest with
          | nil => exact absurd (List.append_nil t).symm hne
          | cons d rest =>
              rw [List.cons_prefix_cons] at hpre
              exact absurd (by simp [hpre.1]) h0

end Compare

/-! ### Searching -/

/-- The first place in a memory where a pattern stands. -/
def FirstAt (pat : CStr) (t : List UInt8) (i : ℕ) : Prop :=
  pat <+: t.drop i ∧ ∀ j < i, ¬pat <+: t.drop j

/-- `strstr`, with the position of the match. -/
def strstrAt (pat : CStr) : List UInt8 → Option (Option ℕ)
  | [] => none
  | c :: t =>
      if pat <+: c :: t then some (some 0)
      else if c = 0 then some none
      else (strstrAt pat t).map (Option.map (· + 1))

section Search

variable {pat : CStr} {t : List UInt8} {c : UInt8} {i : ℕ}

theorem FirstAt.unique {j : ℕ} (hi : FirstAt pat t i) (hj : FirstAt pat t j) : i = j := by
  rcases Nat.lt_trichotomy i j with hlt | heq | hgt
  · exact absurd hi.1 (hj.2 i hlt)
  · exact heq
  · exact absurd hj.1 (hi.2 j hgt)

theorem firstAt_zero_iff : FirstAt pat t 0 ↔ pat <+: t := by
  simp [FirstAt]

theorem firstAt_cons_succ_iff :
    FirstAt pat (c :: t) (i + 1) ↔ ¬pat <+: c :: t ∧ FirstAt pat t i := by
  rw [FirstAt, List.drop_succ_cons]
  constructor
  · exact fun h => ⟨h.2 0 (Nat.succ_pos i), h.1, fun j hj => h.2 (j + 1) (by omega)⟩
  · rintro ⟨hhead, hpre, hno⟩
    refine ⟨hpre, fun j hj => ?_⟩
    cases j with
    | zero => exact hhead
    | succ j => exact hno j (by omega)

/-! The results of a search from one byte on. -/

theorem strstrAt_cons_zero_iff : strstrAt pat (c :: t) = some (some 0) ↔ pat <+: c :: t := by
  rw [strstrAt]
  split_ifs with hpre hc
  · exact iff_of_true rfl hpre
  · exact iff_of_false nofun hpre
  · simp [hpre]

theorem strstrAt_cons_succ_iff :
    strstrAt pat (c :: t) = some (some (i + 1)) ↔
      ¬pat <+: c :: t ∧ c ≠ 0 ∧ strstrAt pat t = some (some i) := by
  rw [strstrAt]
  split_ifs with hpre hc
  · exact iff_of_false nofun fun h => h.1 hpre
  · exact iff_of_false nofun fun h => h.2.1 hc
  · simp [hpre, hc]

theorem strstrAt_cons_absent_iff :
    strstrAt pat (c :: t) = some none ↔
      ¬pat <+: c :: t ∧ (c = 0 ∨ strstrAt pat t = some none) := by
  rw [strstrAt]
  split_ifs with hpre hc
  · exact iff_of_false nofun fun h => h.1 hpre
  · exact iff_of_true rfl ⟨hpre, .inl hc⟩
  · simp [hpre, hc]

theorem strstrAt_cons_none_iff :
    strstrAt pat (c :: t) = none ↔ ¬pat <+: c :: t ∧ c ≠ 0 ∧ strstrAt pat t = none := by
  rw [strstrAt]
  split_ifs with hpre hc
  · exact iff_of_false nofun fun h => h.1 hpre
  · exact iff_of_false nofun fun h => h.2.1 hc
  · simp [hpre, hc]

/-- There is no result if what is known has no match and no end. -/
theorem strstrAt_eq_none_iff (hpat : pat ≠ []) :
    strstrAt pat t = none ↔ 0 ∉ t ∧ ¬pat <:+: t := by
  induction t with
  | nil => simp [strstrAt, hpat]
  | cons c t ih =>
      rw [strstrAt_cons_none_iff, ih, List.infix_cons_iff, List.mem_cons, not_or, not_or,
        eq_comm (a := 0)]
      tauto

/-- A match, and the bytes in front of it, among which there is no end and no other match. -/
theorem strstrAt_eq_found_iff :
    strstrAt pat t = some (some i) ↔ i < t.length ∧ 0 ∉ t.take i ∧ FirstAt pat t i := by
  induction t generalizing i with
  | nil => simp [strstrAt]
  | cons c t ih =>
      cases i with
      | zero => simp [strstrAt_cons_zero_iff, firstAt_zero_iff]
      | succ i =>
          rw [strstrAt_cons_succ_iff, ih, firstAt_cons_succ_iff, List.length_cons,
            List.take_succ_cons, List.mem_cons, not_or, Nat.add_lt_add_iff_right,
            eq_comm (a := 0)]
          tauto

/-- The first match is found if there is no end in front of it. -/
theorem strstrAt_of_firstAt (hfirst : FirstAt pat t i) (hzero : 0 ∉ t.take i)
    (hpat : pat ≠ []) : strstrAt pat t = some (some i) := by
  refine strstrAt_eq_found_iff.mpr ⟨?_, hzero, hfirst⟩
  have hlen := hfirst.1.length_le
  have hpos := List.length_pos_iff.mpr hpat
  rw [List.length_drop] at hlen
  omega

/-- A pattern stands at the start of a memory if it does at the start of the string there. -/
theorem prefix_cstrOf_iff (h0 : 0 ∉ pat) : pat <+: cstrOf t ↔ pat <+: t := by
  refine ⟨fun h => h.trans (List.takeWhile_prefix _), ?_⟩
  rintro ⟨rest, rfl⟩
  rw [cstrOf_append h0]
  exact List.prefix_append _ _

/-- Nothing is found in a text that ends without a match. -/
theorem strstrAt_eq_absent_iff (hpat : pat ≠ []) (h0 : 0 ∉ pat) :
    strstrAt pat t = some none ↔ 0 ∈ t ∧ ¬pat <:+: cstrOf t := by
  induction t with
  | nil => simp [strstrAt]
  | cons c t ih =>
      rw [strstrAt_cons_absent_iff, ih, ← prefix_cstrOf_iff h0, List.mem_cons]
      by_cases hc : c = 0
      · simp [hc, cstrOf, hpat]
      · have hcstr : cstrOf (c :: t) = c :: cstrOf t :=
          List.takeWhile_cons_of_pos (decide_eq_true hc)
        rw [hcstr, List.infix_cons_iff, not_or, eq_comm (a := 0)]
        tauto

/-- The bytes behind those that give a result have no part in it. -/
theorem strstrAt_append {r : Option ℕ} (h : strstrAt pat t = some r) (hpat : pat ≠ [])
    (h0 : 0 ∉ pat) (s : List UInt8) : strstrAt pat (t ++ s) = some r := by
  cases r with
  | none =>
      obtain ⟨hmem, hno⟩ := (strstrAt_eq_absent_iff hpat h0).mp h
      obtain ⟨rest, hrest⟩ := exists_eq_cstrOf_append hmem
      have hcstr : cstrOf (t ++ s) = cstrOf t := by
        rw [hrest, List.append_assoc, List.cons_append,
          cstrOf_append_zero (zero_not_mem_cstrOf t), cstrOf_append_zero (zero_not_mem_cstrOf t)]
      exact (strstrAt_eq_absent_iff hpat h0).mpr ⟨List.mem_append_left _ hmem, hcstr ▸ hno⟩
  | some i =>
      obtain ⟨hi, hzero, hpre, hfirst⟩ := strstrAt_eq_found_iff.mp h
      have hfit := hpre.length_le
      rw [List.length_drop] at hfit
      refine strstrAt_eq_found_iff.mpr ⟨?_, ?_, ?_, fun j hj hpre' => hfirst j hj ?_⟩
      · rw [List.length_append]
        omega
      · rwa [List.take_append_of_le_length hi.le]
      · rw [List.drop_append_of_le_length hi.le]
        exact hpre.trans (List.prefix_append _ _)
      · rw [List.drop_append_of_le_length (hj.trans hi).le] at hpre'
        refine List.prefix_of_prefix_length_le hpre' (List.prefix_append _ s) ?_
        rw [List.length_drop]
        omega

/-- Where there is no result, the bytes behind decide. -/
theorem strstrAt_of_none (h : strstrAt pat t = none) (hpat : pat ≠ []) (h0 : 0 ∉ pat) :
    strstrAt pat (t ++ [0]) = some none ∧ ∃ i, strstrAt pat (t ++ pat) = some (some i) := by
  obtain ⟨hzero, hno⟩ := (strstrAt_eq_none_iff hpat).mp h
  refine ⟨(strstrAt_eq_absent_iff hpat h0).mpr ⟨by simp, ?_⟩, ?_⟩
  · rwa [cstrOf_append_zero hzero]
  · cases hres : strstrAt pat (t ++ pat) with
    | none =>
        exact absurd (List.suffix_append t pat).isInfix ((strstrAt_eq_none_iff hpat).mp hres).2
    | some r =>
        cases r with
        | none =>
            rcases List.mem_append.mp ((strstrAt_eq_absent_iff hpat h0).mp hres).1 with hm | hm
            · exact absurd hm hzero
            · exact absurd hm h0
        | some i => exact ⟨i, rfl⟩

end Search

/-! ### The first of several tests -/

/-- A loop over `n` indices from `i` on that ends at the first one that passes a test. -/
def firstTrueFrom (test : ℕ → Option Bool) : ℕ → ℕ → Option (Option ℕ)
  | _, 0 => some none
  | i, n + 1 => (test i).bind fun b => if b then some (some i) else firstTrueFrom test (i + 1) n

section First

variable {test : ℕ → Option Bool} {i n k : ℕ}

theorem firstTrueFrom_succ_found_iff :
    firstTrueFrom test i (n + 1) = some (some k) ↔
      (test i = some true ∧ i = k) ∨
        (test i = some false ∧ firstTrueFrom test (i + 1) n = some (some k)) := by
  rw [firstTrueFrom]
  rcases test i with _ | _ | _ <;> simp

theorem firstTrueFrom_succ_absent_iff :
    firstTrueFrom test i (n + 1) = some none ↔
      test i = some false ∧ firstTrueFrom test (i + 1) n = some none := by
  rw [firstTrueFrom]
  rcases test i with _ | _ | _ <;> simp

/-- An index is found if it passes the test and those in front of it do not. -/
theorem firstTrueFrom_eq_found_iff :
    firstTrueFrom test i n = some (some k) ↔
      i ≤ k ∧ k < i + n ∧ test k = some true ∧ ∀ j, i ≤ j → j < k → test j = some false := by
  induction n generalizing i with
  | zero =>
      refine iff_of_false nofun fun h => ?_
      omega
  | succ n ih =>
      rw [firstTrueFrom_succ_found_iff, ih]
      constructor
      · rintro (⟨hi, rfl⟩ | ⟨hi, hle, hlt, hk, hno⟩)
        · exact ⟨le_rfl, by omega, hi, fun j hle hlt => absurd hlt (by omega)⟩
        · refine ⟨by omega, by omega, hk, fun j hj hjk => ?_⟩
          rcases Nat.eq_or_lt_of_le hj with rfl | hj'
          · exact hi
          · exact hno j hj' hjk
      · rintro ⟨hle, hlt, hk, hno⟩
        rcases Nat.eq_or_lt_of_le hle with rfl | hlt'
        · exact .inl ⟨hk, rfl⟩
        · exact .inr ⟨hno i le_rfl hlt', hlt', by omega, hk, fun j hj => hno j (by omega)⟩

/-- None is found if no index passes the test. -/
theorem firstTrueFrom_eq_absent_iff :
    firstTrueFrom test i n = some none ↔ ∀ j, i ≤ j → j < i + n → test j = some false := by
  induction n generalizing i with
  | zero =>
      refine iff_of_true rfl fun j hle hlt => ?_
      omega
  | succ n ih =>
      rw [firstTrueFrom_succ_absent_iff, ih]
      constructor
      · rintro ⟨hi, hno⟩ j hle hlt
        rcases Nat.eq_or_lt_of_le hle with rfl | hlt'
        · exact hi
        · exact hno j hlt' (by omega)
      · exact fun h => ⟨h i le_rfl (by omega), fun j hle hlt => h j (by omega) (by omega)⟩

end First

end Basis
