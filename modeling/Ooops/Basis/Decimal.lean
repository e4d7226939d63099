import Mathlib.Data.Nat.Digits.Lemmas
import Mathlib.Data.Rat.Defs
import Ooops.Basis.CString

/-!
# Decimal Text

What `printf` prints for a number with `%ld` and `%.1lf`, with blanks in front up to a width,
and what `sscanf` reads for `%d` and `%lf`.

* `scanInt_showInt`: an integer is read as it was printed.
* `length_decText_le`, `length_padLeft`: how long the text is.
* `exists_scanDecimal`: a decimal number is read up to what follows it.
* `scanDecimal_showInt`, `scanDecimal_showTenths`: and with its value.
-/

namespace Basis

/-! ### Printing -/

/-- The digit of a value below 10. -/
def decDigit (d : ℕ) : UInt8 := UInt8.ofNat (48 + d)

/-- The digits of a number, the highest one first. -/
def decText (n : ℕ) : CStr :=
  (if n = 0 then [0] else (Nat.digits 10 n).reverse).map decDigit

/-- A minus sign, if the number is negative. -/
def signText (negative : Bool) : CStr := if negative then [45] else []

/-- `printf` with `%ld`. -/
def showInt (z : ℤ) : CStr := signText (decide (z < 0)) ++ decText z.natAbs

/-- `printf` with `%.1lf`, of a number of tenths. -/
def showTenths (negative : Bool) (tenths : ℕ) : CStr :=
  signText negative ++ decText (tenths / 10) ++ 46 :: decText (tenths % 10)

/-- Blanks in front of a text up to a width. -/
def padLeft (width : ℕ) (s : CStr) : CStr := List.replicate (width - s.length) 32 ++ s

/-! ### Scanning -/

/-- The text behind a sign, and whether the sign was a minus. -/
def splitSign : CStr → Bool × CStr
  | 45 :: s => (true, s)
  | 43 :: s => (false, s)
  | s => (false, s)

/-- `sscanf` with `%d`, before the number is cut to its width: the number, and the rest of the
text. -/
def scanInt (s : CStr) : Option (ℤ × CStr) :=
  let (negative, s) := splitSign (s.dropWhile isSpace)
  if s.takeWhile isDigit = [] then none
  else some (if negative then -(digitsVal s : ℤ) else digitsVal s, s.dropWhile isDigit)

/-- The digits behind a point, if there is one. -/
def splitPoint : CStr → CStr × CStr
  | 46 :: s => (s.takeWhile isDigit, s.dropWhile isDigit)
  | s => ([], s)

/-- `sscanf` with `%lf` on a decimal number without an exponent. -/
def scanDecimal (s : CStr) : Option (ℚ × CStr) :=
  let (negative, s) := splitSign (s.dropWhile isSpace)
  let (frac, rest) := splitPoint (s.dropWhile isDigit)
  if s.takeWhile isDigit = [] ∧ frac = [] then none
  else
    let x : ℚ := digitsVal s + digitsVal frac / 10 ^ frac.length
    some (if negative then -x else x, rest)

/-- A decimal number, with or without a point in it. -/
def IsDecimal (d : CStr) : Prop :=
  ∃ negative whole frac, d = signText negative ++ (whole ++ frac) ∧ whole ≠ [] ∧
    (∀ c ∈ whole, isDigit c = true) ∧
    (frac = [] ∨ ∃ ds, frac = 46 :: ds ∧ ds ≠ [] ∧ ∀ c ∈ ds, isDigit c = true)

/-! ### Digits -/

theorem toNat_decDigit {d : ℕ} (h : d < 10) : (decDigit d).toNat = 48 + d := by
  rw [decDigit, UInt8.toNat_ofNat']
  omega

theorem isDigit_decDigit {d : ℕ} (h : d < 10) : isDigit (decDigit d) = true := by
  have hval := toNat_decDigit h
  simp only [isDigit, Bool.and_eq_true, decide_eq_true_eq, UInt8.le_iff_toNat_le,
    UInt8.reduceToNat, hval]
  omega

/-- The digits that are printed. -/
theorem exists_decText (n : ℕ) :
    ∃ ds, decText n = ds.map decDigit ∧ ds ≠ [] ∧ (∀ d ∈ ds, d < 10) ∧
      ds.foldl (fun a d => 10 * a + d) 0 = n ∧ ∀ k, 0 < k → n < 10 ^ k → ds.length ≤ k := by
  by_cases hn : n = 0
  · subst hn
    exact ⟨[0], rfl, by simp, by simp, rfl, fun k hk _ => hk⟩
  · refine ⟨(Nat.digits 10 n).reverse, by rw [decText, if_neg hn], ?_, fun d hd => ?_, ?_,
      fun k _ hlt => ?_⟩
    · rw [Ne, List.reverse_eq_nil_iff]
      exact Nat.digits_ne_nil_iff_ne_zero.mpr hn
    · exact Nat.digits_lt_base (by norm_num) (List.mem_reverse.mp hd)
    · rw [List.foldl_reverse]
      conv_rhs => rw [← Nat.ofDigits_digits 10 n, Nat.ofDigits_eq_foldr]
      exact List.foldr_ext _ _ _ fun x _ y => by push_cast; ring
    · rw [List.length_reverse]
      exact (Nat.digits_length_le_iff (by norm_num) n).mpr hlt

theorem decText_ne_nil (n : ℕ) : decText n ≠ [] := by
  obtain ⟨ds, hds, hne, -⟩ := exists_decText n
  rw [hds]
  simpa using hne

/-- Only digits are printed. -/
theorem isDigit_of_mem_decText {n : ℕ} {c : UInt8} (h : c ∈ decText n) : isDigit c = true := by
  obtain ⟨ds, hds, -, hlt, -⟩ := exists_decText n
  rw [hds] at h
  obtain ⟨d, hd, rfl⟩ := List.mem_map.mp h
  exact isDigit_decDigit (hlt d hd)

theorem length_decText_le {n k : ℕ} (hk : 0 < k) (h : n < 10 ^ k) : (decText n).length ≤ k := by
  obtain ⟨ds, hds, -, -, -, hlen⟩ := exists_decText n
  rw [hds, List.length_map]
  exact hlen k hk h

/-- Digits in front of what is no digit. -/
theorem takeWhile_digits {x : CStr} (hx : ∀ c ∈ x, isDigit c = true) {c : UInt8}
    (hc : isDigit c = false) (s : CStr) :
    (x ++ c :: s).takeWhile isDigit = x ∧ (x ++ c :: s).dropWhile isDigit = c :: s := by
  rw [List.takeWhile_append_of_pos hx, List.dropWhile_append_of_pos hx,
    List.takeWhile_cons_of_neg (by simp [hc]), List.dropWhile_cons_of_neg (by simp [hc]),
    List.append_nil]
  exact ⟨rfl, rfl⟩

/-- The digits of a number are read one after the other. -/
theorem digitsVal_decText (n : ℕ) {c : UInt8} (hc : isDigit c = false) (s : CStr) :
    digitsVal (decText n ++ c :: s) = n := by
  obtain ⟨ds, hds, -, hlt, hfold, -⟩ := exists_decText n
  have htake := (takeWhile_digits (fun _ h => isDigit_of_mem_decText h) hc s (x := decText n)).1
  rw [digitsVal, htake, hds, List.foldl_map, ← hfold]
  refine List.foldl_ext _ _ _ fun a d hd => ?_
  rw [toNat_decDigit (hlt d hd)]
  omega

/-! ### Numbers behind blanks -/

/-- A digit in front stands for itself. -/
theorem splitSign_of_digit {x : CStr} (hne : x ≠ []) (hx : ∀ c ∈ x, isDigit c = true) (s : CStr) :
    splitSign (x ++ s) = (false, x ++ s) := by
  obtain ⟨c, x, rfl⟩ := List.exists_cons_of_ne_nil hne
  obtain ⟨-, hminus, hplus⟩ := plain_of_isDigit (hx c List.mem_cons_self)
  rw [List.cons_append, splitSign]
  · rintro _ h
    exact hminus (List.cons.inj h).1
  · rintro _ h
    exact hplus (List.cons.inj h).1

/-- Blanks and a sign in front of digits. -/
theorem splitSign_blanks (k : ℕ) (negative : Bool) {x : CStr} (hne : x ≠ [])
    (hx : ∀ c ∈ x, isDigit c = true) (s : CStr) :
    splitSign ((List.replicate k 32 ++ (signText negative ++ (x ++ s))).dropWhile isSpace) =
      (negative, x ++ s) := by
  have hblank : ∀ c ∈ List.replicate k (32 : UInt8), isSpace c = true := fun c hc => by
    rw [List.eq_of_mem_replicate hc]
    rfl
  obtain ⟨c, x', rfl⟩ := List.exists_cons_of_ne_nil hne
  obtain ⟨hspace, -⟩ := plain_of_isDigit (hx c List.mem_cons_self)
  rw [List.dropWhile_append_of_pos hblank]
  cases negative with
  | true => rfl
  | false =>
      rw [signText, if_neg Bool.false_ne_true, List.nil_append, List.cons_append,
        List.dropWhile_cons_of_neg (by simp [hspace]), ← List.cons_append,
        splitSign_of_digit hne hx]

/-- **An integer is read as it was printed**, whatever comes after it. -/
theorem scanInt_showInt (k : ℕ) (z : ℤ) {c : UInt8} (hc : isDigit c = false) (s : CStr) :
    scanInt (List.replicate k 32 ++ showInt z ++ c :: s) = some (z, c :: s) := by
  have hdigits : ∀ d ∈ decText z.natAbs, isDigit d = true := fun _ h => isDigit_of_mem_decText h
  have hsign := splitSign_blanks k (decide (z < 0)) (decText_ne_nil z.natAbs) hdigits (c :: s)
  obtain ⟨htake, hdrop⟩ := takeWhile_digits hdigits hc s
  rw [scanInt, showInt, List.append_assoc, List.append_assoc, hsign]
  simp only [htake, hdrop, if_neg (decText_ne_nil _), digitsVal_decText _ hc]
  by_cases hz : z < 0
  · simp only [hz, decide_true, if_true]
    congr 2
    omega
  · simp only [hz, decide_false, Bool.false_eq_true, if_false]
    congr 2
    omega

/-- A decimal number is read up to what follows it. -/
theorem exists_scanDecimal (k : ℕ) {d : CStr} (hd : IsDecimal d) {c : UInt8}
    (hc : isDigit c = false) (hpoint : c ≠ 46) (s : CStr) :
    ∃ x, scanDecimal (List.replicate k 32 ++ d ++ c :: s) = some (x, c :: s) := by
  obtain ⟨negative, whole, frac, rfl, hne, hwhole, hfrac⟩ := hd
  have hsign := splitSign_blanks k negative hne hwhole (frac ++ c :: s)
  rw [scanDecimal, List.append_assoc, List.append_assoc, List.append_assoc, hsign]
  rcases hfrac with rfl | ⟨ds, rfl, hds, hdigits⟩
  · obtain ⟨htake, hdrop⟩ := takeWhile_digits hwhole hc s
    have hsplit : splitPoint (c :: s) = ([], c :: s) := by
      rw [splitPoint]
      rintro _ h
      exact hpoint (List.cons.inj h).1
    simp only [List.nil_append, htake, hdrop, hsplit, hne, false_and, if_false]
    exact ⟨_, rfl⟩
  · obtain ⟨htake, hdrop⟩ := takeWhile_digits hwhole (by decide : isDigit 46 = false)
      (ds ++ c :: s)
    obtain ⟨htake', hdrop'⟩ := takeWhile_digits hdigits hc s
    have hsplit : splitPoint (46 :: (ds ++ c :: s)) = (ds, c :: s) := by
      rw [splitPoint, htake', hdrop']
    simp only [List.cons_append, htake, hdrop, hsplit, hne, false_and, if_false]
    exact ⟨_, rfl⟩

/-- The value of an integer that is read as a decimal number. -/
theorem scanDecimal_showInt (k : ℕ) (z : ℤ) {c : UInt8} (hc : isDigit c = false)
    (hpoint : c ≠ 46) (s : CStr) :
    scanDecimal (List.replicate k 32 ++ showInt z ++ c :: s) = some ((z : ℚ), c :: s) := by
  have hdigits : ∀ d ∈ decText z.natAbs, isDigit d = true := fun _ h => isDigit_of_mem_decText h
  have hsign := splitSign_blanks k (decide (z < 0)) (decText_ne_nil z.natAbs) hdigits (c :: s)
  obtain ⟨htake, hdrop⟩ := takeWhile_digits hdigits hc s
  have hsplit : splitPoint (c :: s) = ([], c :: s) := by
    rw [splitPoint]
    rintro _ h
    exact hpoint (List.cons.inj h).1
  rw [scanDecimal, showInt, List.append_assoc, List.append_assoc, hsign]
  simp only [htake, hdrop, hsplit, decText_ne_nil, false_and, if_false, digitsVal_decText _ hc]
  have hzero : (digitsVal [] : ℚ) / 10 ^ ([] : CStr).length = 0 := by simp [digitsVal]
  rw [hzero, add_zero]
  by_cases hz : z < 0
  · have habs : (z.natAbs : ℤ) = -z := by omega
    rw [decide_eq_true hz, if_pos rfl, ← Int.cast_natCast, habs, Int.cast_neg, neg_neg]
  · have habs : (z.natAbs : ℤ) = z := by omega
    rw [decide_eq_false hz, if_neg Bool.false_ne_true, ← Int.cast_natCast, habs]

/-- The digit of a number below 10. -/
theorem decText_of_lt {d : ℕ} (h : d < 10) : decText d = [decDigit d] := by
  rw [decText]
  split_ifs with hd
  · rw [hd, List.map_singleton]
  · rw [Nat.digits_of_lt 10 d hd h]
    rfl

/-- The value of a number of tenths. -/
theorem scanDecimal_showTenths (k : ℕ) (negative : Bool) (n : ℕ) {c : UInt8}
    (hc : isDigit c = false) (s : CStr) :
    scanDecimal (List.replicate k 32 ++ showTenths negative n ++ c :: s) =
      some (if negative then -(n / 10 : ℚ) else n / 10, c :: s) := by
  have hlt : n % 10 < 10 := Nat.mod_lt n (by norm_num)
  have hdigits : ∀ d ∈ decText (n / 10), isDigit d = true := fun _ h => isDigit_of_mem_decText h
  have hlast : ∀ d ∈ [decDigit (n % 10)], isDigit d = true :=
    List.forall_mem_singleton.mpr (isDigit_decDigit hlt)
  have hsign := splitSign_blanks k negative (decText_ne_nil (n / 10)) hdigits
    (46 :: ([decDigit (n % 10)] ++ c :: s))
  obtain ⟨htake, hdrop⟩ := takeWhile_digits hdigits (by decide : isDigit 46 = false)
    ([decDigit (n % 10)] ++ c :: s)
  obtain ⟨htake', hdrop'⟩ := takeWhile_digits hlast hc s
  have hsplit : splitPoint (46 :: ([decDigit (n % 10)] ++ c :: s)) =
      ([decDigit (n % 10)], c :: s) := by
    rw [splitPoint, htake', hdrop']
  have hfrac : digitsVal [decDigit (n % 10)] = n % 10 := by
    rw [digitsVal, List.takeWhile_cons_of_pos (isDigit_decDigit hlt), List.takeWhile_nil,
      List.foldl_cons, List.foldl_nil, toNat_decDigit hlt]
    omega
  have hvalue : ((n / 10 : ℕ) : ℚ) + ((n % 10 : ℕ) : ℚ) / 10 ^ 1 = (n : ℚ) / 10 := by
    have hsum : ((10 * (n / 10) + n % 10 : ℕ) : ℚ) = n := by rw [Nat.div_add_mod]
    push_cast at hsum
    linarith
  rw [scanDecimal, showTenths, decText_of_lt hlt, List.append_assoc, List.append_assoc,
    List.append_assoc, List.cons_append, hsign]
  simp only [htake, hdrop, hsplit, decText_ne_nil, false_and, if_false, hfrac, hvalue,
    digitsVal_decText _ (by decide : isDigit 46 = false), List.length_singleton]

/-! ### What is printed -/

theorem isDecimal_showInt (z : ℤ) : IsDecimal (showInt z) :=
  ⟨_, decText z.natAbs, [], by rw [showInt, List.append_nil], decText_ne_nil _,
    fun _ h => isDigit_of_mem_decText h, .inl rfl⟩

theorem isDecimal_showTenths (negative : Bool) (n : ℕ) : IsDecimal (showTenths negative n) :=
  ⟨_, decText (n / 10), _, by rw [showTenths, List.append_assoc], decText_ne_nil _,
    fun _ h => isDigit_of_mem_decText h,
    .inr ⟨_, rfl, decText_ne_nil _, fun _ h => isDigit_of_mem_decText h⟩⟩

theorem length_signText_le (negative : Bool) : (signText negative).length ≤ 1 := by
  cases negative <;> decide

theorem length_showInt_le {z : ℤ} {k : ℕ} (hk : 0 < k) (h : z.natAbs < 10 ^ k) :
    (showInt z).length ≤ k + 1 := by
  have hsign := length_signText_le (decide (z < 0))
  have hdigits := length_decText_le hk h
  rw [showInt, List.length_append]
  omega

theorem length_showTenths_le {n k : ℕ} (negative : Bool) (hk : 0 < k) (h : n < 10 ^ (k + 1)) :
    (showTenths negative n).length ≤ k + 3 := by
  have hsign := length_signText_le negative
  have hwhole : (decText (n / 10)).length ≤ k :=
    length_decText_le hk (by rw [pow_succ] at h; omega)
  have hlast : (decText (n % 10)).length ≤ 1 :=
    length_decText_le (by norm_num) (by rw [pow_one]; omega)
  rw [showTenths, List.length_append, List.length_append, List.length_cons]
  omega

theorem length_padLeft (width : ℕ) (s : CStr) :
    (padLeft width s).length = max width s.length := by
  rw [padLeft, List.length_append, List.length_replicate]
  omega

/-- A decimal number holds nothing but digits, a sign and a point. -/
theorem not_mem_isDecimal {d : CStr} (hd : IsDecimal d) {c : UInt8} (hc : isDigit c = false)
    (hminus : c ≠ 45) (hpoint : c ≠ 46) : c ∉ d := by
  obtain ⟨negative, whole, frac, rfl, -, hwhole, hfrac⟩ := hd
  have hdigits {x : CStr} (hx : ∀ c ∈ x, isDigit c = true) : c ∉ x := fun h =>
    absurd (hx c h) (by simp [hc])
  rw [List.mem_append, List.mem_append, not_or, not_or]
  refine ⟨?_, hdigits hwhole, ?_⟩
  · cases negative with
    | true => simpa [signText] using hminus
    | false => exact List.not_mem_nil
  · rcases hfrac with rfl | ⟨ds, rfl, -, hds⟩
    · exact List.not_mem_nil
    · rw [List.mem_cons, not_or]
      exact ⟨hpoint, hdigits hds⟩

end Basis
