import Mathlib.Data.Nat.Digits.Lemmas
import Ooops.Basis.CString

/-!
# Hexadecimal Text

`hexText n` is what `printf` prints for `%x`, and `scanHex` what `sscanf` reads for it: an
optional `0x` and then as many digits as there are. `hexPad n` is what is printed for `%08lx`,
and `scanLx` reads an `unsigned long` wherever it stands.

* `scanHex_hexText`: reading what was printed, up to a character that is no digit.
* `scanLx_hexPad`: the same for `%08lx` and `%lx`.
-/

namespace Basis

/-- The digit of a value below 16. -/
def hexDigit (d : ℕ) : UInt8 := UInt8.ofNat (if d < 10 then 48 + d else 87 + d)

/-- The value of a digit of either case. -/
def hexVal (c : UInt8) : Option ℕ :=
  if 48 ≤ c.toNat ∧ c.toNat ≤ 57 then some (c.toNat - 48)
  else if 97 ≤ c.toNat ∧ c.toNat ≤ 102 then some (c.toNat - 87)
  else if 65 ≤ c.toNat ∧ c.toNat ≤ 70 then some (c.toNat - 55)
  else none

/-- The digits of a positive number, the highest one first. -/
def hexText (n : ℕ) : CStr := (Nat.digits 16 n).reverse.map hexDigit

/-- The number that goes on with the digits in front of `s`. -/
def scanHexDigits (acc : ℕ) : CStr → ℕ
  | [] => acc
  | c :: s =>
      match hexVal c with
      | some d => scanHexDigits (16 * acc + d) s
      | none => acc

/-- `sscanf(s, "%x")`. -/
def scanHex (s : CStr) : Option ℕ :=
  let s := if (bytesOf "0x").isPrefixOf s then s.drop 2 else s
  match s with
  | [] => none
  | c :: _ => if (hexVal c).isSome then some (scanHexDigits 0 s) else none

/-- `printf` with `%08lx`. -/
def hexPad (n : ℕ) : CStr := List.replicate (8 - (hexText n).length) 48 ++ hexText n

/-- `isxdigit`. -/
def isXDigit (c : UInt8) : Bool := (hexVal c).isSome

/-- What comes after `0x`, where a number starts with that. -/
def skip0x (s : CStr) : CStr :=
  if s.take 2 = [48, 120] ∨ s.take 2 = [48, 88] then s.drop 2 else s

/-- The number behind white space and a sign, in 64 bits, and what comes after it. -/
def scanLxFrom (neg : Bool) (s : CStr) : Option (ℕ × CStr) :=
  let s := skip0x s
  let n := scanHexDigits 0 s
  if (s.takeWhile isXDigit).isEmpty then none
  else
    some (if 2 ^ 64 ≤ n then 2 ^ 64 - 1 else if neg then (2 ^ 64 - n) % 2 ^ 64 else n,
      s.dropWhile isXDigit)

/-- `sscanf` with `%lx`: the number, and the rest of the text. -/
def scanLx (s : CStr) : Option (ℕ × CStr) :=
  match s.dropWhile isSpace with
  | 45 :: t => scanLxFrom true t
  | 43 :: t => scanLxFrom false t
  | t => scanLxFrom false t

theorem hexVal_hexDigit {d : ℕ} (h : d < 16) : hexVal (hexDigit d) = some d := by
  interval_cases d <;> rfl

/-- Only digits are printed. -/
theorem not_mem_hexText {c : UInt8} (hc : hexVal c = none) (n : ℕ) : c ∉ hexText n := by
  intro h
  obtain ⟨d, hd, rfl⟩ := List.mem_map.mp h
  have hlt : d < 16 := Nat.digits_lt_base (by norm_num) (List.mem_reverse.mp hd)
  rw [hexVal_hexDigit hlt] at hc
  cases hc

/-- Different values have different digits. -/
theorem hexDigit_inj {d d' : ℕ} (h : d < 16) (h' : d' < 16) (he : hexDigit d = hexDigit d') :
    d = d' := by
  have hval := congrArg hexVal he
  rw [hexVal_hexDigit h, hexVal_hexDigit h'] at hval
  exact Option.some.inj hval

/-- Digits are read one after the other, the highest one first. -/
theorem scanHexDigits_append {ds : List ℕ} (hds : ∀ d ∈ ds, d < 16) {c : UInt8}
    (hc : hexVal c = none) (acc : ℕ) (s : CStr) :
    scanHexDigits acc (ds.map hexDigit ++ c :: s) = ds.foldl (fun a d => 16 * a + d) acc := by
  induction ds generalizing acc with
  | nil => simp only [List.map_nil, List.nil_append, scanHexDigits, hc, List.foldl_nil]
  | cons d ds ih =>
      have hd := hexVal_hexDigit (hds d (List.mem_cons_self ..))
      simp only [List.map_cons, List.cons_append, scanHexDigits, hd, List.foldl_cons]
      exact ih (fun x hx => hds x (List.mem_cons_of_mem d hx)) _

/-- **A printed number is read back**, whatever comes after it. -/
theorem scanHex_hexText {n : ℕ} (h : 0 < n) {c : UInt8} (hc : hexVal c = none) (s : CStr) :
    scanHex (bytesOf "0x" ++ hexText n ++ c :: s) = some n := by
  have hds : ∀ d ∈ (Nat.digits 16 n).reverse, d < 16 := fun d hd =>
    Nat.digits_lt_base (by norm_num) (List.mem_reverse.mp hd)
  have hfold : (Nat.digits 16 n).reverse.foldl (fun a d => 16 * a + d) 0 = n := by
    rw [List.foldl_reverse]
    conv_rhs => rw [← Nat.ofDigits_digits 16 n, Nat.ofDigits_eq_foldr]
    exact List.foldr_ext _ _ _ fun x _ y => by push_cast; ring
  have hread := scanHexDigits_append hds hc 0 s
  rw [hfold] at hread
  have hstarts : (bytesOf "0x").isPrefixOf (bytesOf "0x" ++ hexText n ++ c :: s) = true := by
    rw [List.isPrefixOf_iff_prefix, List.append_assoc]
    exact List.prefix_append _ _
  have hrest : (bytesOf "0x" ++ hexText n ++ c :: s).drop 2 = hexText n ++ c :: s := rfl
  obtain ⟨d, ds, hcons⟩ : ∃ d ds, (Nat.digits 16 n).reverse = d :: ds := by
    refine List.exists_cons_of_ne_nil fun hnil => ?_
    rw [List.reverse_eq_nil_iff, Nat.digits_eq_nil_iff_eq_zero] at hnil
    omega
  have hd := hexVal_hexDigit (hds d (hcons ▸ List.mem_cons_self ..))
  rw [scanHex]
  rw [hstarts, if_pos rfl, hrest, hexText]
  rw [hcons, List.map_cons, List.cons_append] at hread ⊢
  simp only [hd, Option.isSome_some, if_true, hread]

/-- The digits of a padded number. -/
def padDigits (n : ℕ) : List ℕ :=
  List.replicate (8 - (hexText n).length) 0 ++ (Nat.digits 16 n).reverse

theorem hexPad_eq_map (n : ℕ) : hexPad n = (padDigits n).map hexDigit := by
  rw [padDigits, List.map_append, List.map_replicate]
  rfl

theorem padDigits_lt (n : ℕ) : ∀ d ∈ padDigits n, d < 16 := by
  intro d hd
  rcases List.mem_append.mp hd with hd | hd
  · rw [(List.mem_replicate.mp hd).2]
    norm_num
  · exact Nat.digits_lt_base (by norm_num) (List.mem_reverse.mp hd)

theorem eight_le_length_hexPad (n : ℕ) : 8 ≤ (hexPad n).length := by
  rw [hexPad, List.length_append, List.length_replicate]
  omega

/-- Only digits are printed, padding included. -/
theorem isXDigit_of_mem_hexPad {c : UInt8} {n : ℕ} (hc : c ∈ hexPad n) : isXDigit c = true := by
  rw [hexPad_eq_map] at hc
  obtain ⟨d, hd, rfl⟩ := List.mem_map.mp hc
  rw [isXDigit, hexVal_hexDigit (padDigits_lt n d hd)]
  rfl

theorem foldl_padDigits (n : ℕ) : (padDigits n).foldl (fun a d => 16 * a + d) 0 = n := by
  have hzeros : ∀ k, (List.replicate k 0).foldl (fun a d => 16 * a + d) 0 = 0 := by
    intro k
    induction k with
    | zero => rfl
    | succ k ih => rw [List.replicate_succ, List.foldl_cons]; exact ih
  rw [padDigits, List.foldl_append, hzeros, List.foldl_reverse]
  conv_rhs => rw [← Nat.ofDigits_digits 16 n, Nat.ofDigits_eq_foldr]
  exact List.foldr_ext _ _ _ fun x _ y => by push_cast; ring

/-- What is no digit is not among those a digit can be. -/
theorem isXDigit_ne {c : UInt8} (h : isXDigit c = true) :
    isSpace c = false ∧ c ≠ 45 ∧ c ≠ 43 ∧ c ≠ 120 ∧ c ≠ 88 := by
  have hrange : (48 ≤ c.toNat ∧ c.toNat ≤ 57) ∨ (97 ≤ c.toNat ∧ c.toNat ≤ 102) ∨
      (65 ≤ c.toNat ∧ c.toNat ≤ 70) := by
    by_contra hno
    rw [not_or, not_or] at hno
    rw [isXDigit, hexVal, if_neg hno.1, if_neg hno.2.1, if_neg hno.2.2] at h
    cases h
  have hne : ∀ n : ℕ, n < 256 → c = UInt8.ofNat n → c.toNat = n := by
    rintro n hn rfl
    exact UInt8.toNat_ofNat_of_lt' hn
  refine ⟨?_, fun h => ?_, fun h => ?_, fun h => ?_, fun h => ?_⟩
  · rw [isSpace, Bool.or_eq_false_iff, Bool.and_eq_false_iff, beq_eq_false_iff_ne,
      decide_eq_false_iff_not, decide_eq_false_iff_not, UInt8.le_iff_toNat_le,
      UInt8.le_iff_toNat_le]
    refine ⟨fun h => ?_, Or.inr ?_⟩
    · have := hne 32 (by norm_num) h
      omega
    · rw [show (13 : UInt8).toNat = 13 from rfl]
      omega
  · have := hne 45 (by norm_num) h
    omega
  · have := hne 43 (by norm_num) h
    omega
  · have := hne 120 (by norm_num) h
    omega
  · have := hne 88 (by norm_num) h
    omega

/-- **A padded number is read back**, whatever comes after it. -/
theorem scanLx_hexPad {n : ℕ} (h : n < 2 ^ 64) {c : UInt8} (hc : hexVal c = none) (s : CStr) :
    scanLx (hexPad n ++ c :: s) = some (n, c :: s) := by
  obtain ⟨d, e, ds, hds⟩ : ∃ d e ds, hexPad n = d :: e :: ds := by
    have hlen := eight_le_length_hexPad n
    match hexPad n, hlen with
    | d :: e :: ds, _ => exact ⟨d, e, ds, rfl⟩
  have hd : isXDigit d = true := isXDigit_of_mem_hexPad (n := n) (by rw [hds]; simp)
  have he : isXDigit e = true := isXDigit_of_mem_hexPad (n := n) (by rw [hds]; simp)
  have hread := scanHexDigits_append (padDigits_lt n) hc 0 s
  rw [foldl_padDigits, ← hexPad_eq_map] at hread
  have htake : (hexPad n ++ c :: s).takeWhile isXDigit = hexPad n := by
    rw [List.takeWhile_append_of_pos fun c hc => isXDigit_of_mem_hexPad hc,
      List.takeWhile_cons_of_neg (by rw [isXDigit, hc]; simp), List.append_nil]
  have hdrop : (hexPad n ++ c :: s).dropWhile isXDigit = c :: s := by
    rw [List.dropWhile_append_of_pos fun c hc => isXDigit_of_mem_hexPad hc,
      List.dropWhile_cons_of_neg (by rw [isXDigit, hc]; simp)]
  have hplain : scanLxFrom false (hexPad n ++ c :: s) = some (n, c :: s) := by
    have hskip : skip0x (hexPad n ++ c :: s) = hexPad n ++ c :: s := by
      refine if_neg ?_
      rw [hds]
      rintro (heq | heq)
      · exact (isXDigit_ne he).2.2.2.1 (List.cons.inj (List.cons.inj heq).2).1
      · exact (isXDigit_ne he).2.2.2.2 (List.cons.inj (List.cons.inj heq).2).1
    have hne : (hexPad n).isEmpty = false := by
      rw [hds]
      rfl
    rw [scanLxFrom]
    simp only [hskip, htake, hdrop, hread, hne, Bool.false_eq_true, if_false,
      if_neg (Nat.not_le.mpr h)]
  have hstart : (hexPad n ++ c :: s).dropWhile isSpace = hexPad n ++ c :: s := by
    rw [hds]
    exact List.dropWhile_cons_of_neg (by rw [(isXDigit_ne hd).1]; simp)
  rw [scanLx, hstart]
  rw [hds] at hplain ⊢
  split
  · rename_i heq
    injection heq with heq _
    exact absurd heq (isXDigit_ne hd).2.1
  · rename_i heq
    injection heq with heq _
    exact absurd heq (isXDigit_ne hd).2.2.1
  · exact hplain

end Basis
