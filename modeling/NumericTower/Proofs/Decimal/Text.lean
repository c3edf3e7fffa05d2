import Mathlib
import NumericTower.Decimal.Text
/-!
# Numerals are read as they are written

Digits, fractions and exponents one by one, and then the two forms. The
forms leave out zeros at the end of a fraction, so what is read back is
not the decimal that was written but one of the same value
(`ofChars?_pointed`).
-/

namespace NumericTower.Decimal

/-! ## Digits -/

/-- A list of digits. -/
def AllDigits (chars : List Char) : Prop := ∀ c ∈ chars, c.isDigit = true

theorem allDigits_nil : AllDigits [] := nofun

theorem allDigits_append {a b : List Char} (ha : AllDigits a) (hb : AllDigits b) :
    AllDigits (a ++ b) := by
  intro c hc
  rcases List.mem_append.1 hc with h | h
  · exact ha c h
  · exact hb c h

theorem allDigits_replicate_zero (n : Nat) : AllDigits (List.replicate n '0') := by
  intro c hc
  rw [List.eq_of_mem_replicate hc]
  rfl

theorem allDigits_digitsOf (n : Nat) : AllDigits (digitsOf n) := by
  intro c hc
  rw [digitsOf, Nat.toList_repr] at hc
  exact Nat.isDigit_of_mem_toDigits (by decide) (by decide) hc

theorem digitsOf_ne_nil (n : Nat) : digitsOf n ≠ [] := by
  rw [digitsOf, Nat.toList_repr]
  exact Nat.toDigits_ne_nil

/-- **Digits are read as they are written.** -/
theorem valueOf_digitsOf (n : Nat) : valueOf (digitsOf n) = n := by
  rw [digitsOf, Nat.toList_repr, valueOf, Nat.ofDigitChars_ten_toDigits]

theorem valueOf_append (a b : List Char) :
    valueOf (a ++ b) = valueOf a * 10 ^ b.length + valueOf b := by
  rw [valueOf, Nat.ofDigitChars_append, Nat.ofDigitChars_eq_ofDigitChars_zero, Nat.mul_comm]
  rfl

theorem valueOf_replicate_zero (n : Nat) : valueOf (List.replicate n '0') = 0 := by
  rw [valueOf, Nat.ofDigitChars_replicate_zero, Nat.mul_zero]

/-- What is dropped from a fraction are zeros. -/
theorem exists_append_replicate (digits : List Char) :
    ∃ n, digits = dropTrailingZeros digits ++ List.replicate n '0' := by
  refine ⟨(digits.reverse.takeWhile (· == '0')).length, ?_⟩
  have hzeros : digits.reverse.takeWhile (· == '0') =
      List.replicate (digits.reverse.takeWhile (· == '0')).length '0' := by
    refine List.eq_replicate_of_mem fun c hc => ?_
    exact beq_iff_eq.1 (List.mem_takeWhile_imp (p := (· == '0')) hc)
  have hsplit := List.takeWhile_append_dropWhile (p := (· == '0')) (l := digits.reverse)
  rw [hzeros] at hsplit
  rw [dropTrailingZeros, ← List.reverse_replicate, ← List.reverse_append, hsplit,
    List.reverse_reverse]

/-- A fraction of zeros adds nothing. -/
theorem value_of_dropTrailingZeros_eq_nil (whole : List Char) {fraction : List Char}
    (h : dropTrailingZeros fraction = []) :
    (valueOf (whole ++ fraction) : ℚ) * (10 : ℚ) ^ (0 - fraction.length : Int) = valueOf whole := by
  obtain ⟨n, hn⟩ := exists_append_replicate fraction
  rw [h, List.nil_append] at hn
  have hten : (10 : ℚ) ≠ 0 := by decide
  rw [hn, valueOf_append, valueOf_replicate_zero, List.length_replicate, Nat.add_zero,
    Nat.cast_mul, Nat.cast_pow, Nat.cast_ofNat, mul_assoc, ← zpow_natCast, ← zpow_add₀ hten,
    add_sub_cancel, zpow_zero, mul_one]

/-! ## Reading -/

/-- No digit and no point comes first. -/
def Stops (chars : List Char) : Prop := ∀ c ∈ chars.head?, c.isDigit = false ∧ c ≠ '.'

theorem stops_nil : Stops [] := by
  rintro c ⟨⟩

theorem stops_exponent (chars : List Char) : Stops ('e' :: chars) := by
  rintro c ⟨⟩
  decide

/-- Digits are taken up to where they stop. -/
theorem spanDigits_append {whole tail : List Char} (hw : AllDigits whole)
    (htail : ∀ c ∈ tail.head?, c.isDigit = false) : spanDigits (whole ++ tail) = (whole, tail) := by
  rw [spanDigits, List.takeWhile_append_of_pos hw, List.dropWhile_append_of_pos hw]
  cases tail with
  | nil => rw [List.takeWhile_nil, List.dropWhile_nil, List.append_nil]
  | cons c rest =>
    have hc : ¬ c.isDigit = true := by simp [htail c rfl]
    rw [List.takeWhile_cons_of_neg hc, List.dropWhile_cons_of_neg hc, List.append_nil]

/-- Every text begins with the digits up to where they stop. -/
theorem exists_spanDigits (chars : List Char) : ∃ digits tail : List Char,
    AllDigits digits ∧ (∀ c ∈ tail.head?, c.isDigit = false) ∧ chars = digits ++ tail := by
  refine ⟨chars.takeWhile Char.isDigit, chars.dropWhile Char.isDigit, ?_, ?_,
    List.takeWhile_append_dropWhile.symm⟩
  · intro c hc
    exact List.mem_takeWhile_imp hc
  · intro c hc
    have h := List.head?_dropWhile_not Char.isDigit chars
    rw [Option.mem_def.1 hc] at h
    simpa using h

/-- A numeral with a point. -/
theorem ofChars?_point {whole fraction tail : List Char} (hw : AllDigits whole)
    (hf : AllDigits fraction) (htail : ∀ c ∈ tail.head?, c.isDigit = false) :
    ofChars? (whole ++ '.' :: (fraction ++ tail)) =
      if whole ++ fraction = [] then none
      else (readScale? tail).map fun scale =>
        ⟨valueOf (whole ++ fraction), scale - fraction.length⟩ := by
  have hspan : spanDigits (whole ++ '.' :: (fraction ++ tail)) =
      (whole, '.' :: (fraction ++ tail)) := by
    refine spanDigits_append hw ?_
    rintro c ⟨⟩
    rfl
  have hrest : spanDigits (fraction ++ tail) = (fraction, tail) := spanDigits_append hf htail
  simp only [ofChars?, hspan, hrest, Bool.and_eq_true, List.isEmpty_iff, List.append_eq_nil_iff]

/-- A numeral without one. -/
theorem ofChars?_whole {whole tail : List Char} (hw : AllDigits whole) (htail : Stops tail) :
    ofChars? (whole ++ tail) =
      if whole = [] then none
      else (readScale? tail).map fun scale => ⟨valueOf whole, scale⟩ := by
  have hspan : spanDigits (whole ++ tail) = (whole, tail) :=
    spanDigits_append hw fun c hc => (htail c hc).1
  simp only [ofChars?, hspan]
  split
  · rename_i rest
    exact absurd rfl (htail '.' rfl).2
  · simp

/-- **A numeral with its trailing zeros dropped is read with the value that
it had.** -/
theorem ofChars?_pointed {whole fraction tail : List Char} {scale : Int} (hw : AllDigits whole)
    (hf : AllDigits fraction) (hne : whole ≠ []) (htail : Stops tail)
    (hscale : readScale? tail = some scale) :
    ∃ d, ofChars? (whole ++ (pointed fraction ++ tail)) = some d ∧
      d.toRat = valueOf (whole ++ fraction) * (10 : ℚ) ^ (scale - fraction.length) := by
  obtain ⟨n, hn⟩ := exists_append_replicate fraction
  have hkept : AllDigits (dropTrailingZeros fraction) := fun c hc =>
    hf c (hn ▸ List.mem_append_left _ hc)
  refine ⟨⟨valueOf (whole ++ dropTrailingZeros fraction),
    scale - (dropTrailingZeros fraction).length⟩, ?_, ?_⟩
  · rw [pointed]
    split
    · -- with all its zeros dropped the fraction loses its point
      rename_i hnil
      rw [hnil, List.nil_append, List.append_nil, ofChars?_whole hw htail, if_neg hne, hscale]
      simp
    · rw [List.cons_append, ofChars?_point hw hkept fun c hc => (htail c hc).1,
        if_neg (List.append_ne_nil_of_left_ne_nil hne _), hscale]
      rfl
  · have hten : (10 : ℚ) ≠ 0 := by decide
    have hvalue : valueOf (whole ++ fraction) =
        valueOf (whole ++ dropTrailingZeros fraction) * 10 ^ n := by
      conv_lhs => rw [hn, ← List.append_assoc, valueOf_append, valueOf_replicate_zero,
        List.length_replicate, Nat.add_zero]
    have hlength : (fraction.length : Int) = (dropTrailingZeros fraction).length + n := by
      conv_lhs => rw [hn, List.length_append, List.length_replicate, Nat.cast_add]
    rw [toRat, hvalue, hlength, Nat.cast_mul, Nat.cast_pow, Nat.cast_ofNat, mul_assoc,
      ← zpow_natCast, ← zpow_add₀ hten]
    -- what the value lost in digits it gained in its scale
    dsimp only
    congr 2
    omega

/-- **Integers are read as they are written.** -/
theorem readInteger?_integerChars (v : Int) : readInteger? (integerChars v) = some v := by
  have hdigits := allDigits_digitsOf v.natAbs
  have hunsigned : readInteger?.unsigned (digitsOf v.natAbs) = true := by
    rw [readInteger?.unsigned, List.isEmpty_eq_false_iff.2 (digitsOf_ne_nil _),
      List.all_eq_true.2 hdigits]
    rfl
  rw [integerChars]
  split
  · rw [readInteger?, if_pos hunsigned, valueOf_digitsOf]
    congr 1
    omega
  · -- the other two cases ask for a sign, and a digit is none
    rw [readInteger?]
    · rw [if_pos hunsigned, valueOf_digitsOf]
      congr 1
      omega
    · intro digits h
      have := hdigits '-' (h ▸ List.mem_cons_self)
      exact absurd this (by decide)
    · intro digits h
      have := hdigits '+' (h ▸ List.mem_cons_self)
      exact absurd this (by decide)

/-! ## The two forms -/

/-- **Positional notation** is digits and a pointed fraction, which together
are the coefficient after some zeros. -/
theorem positional_form (d : Decimal) : ∃ whole fraction : List Char,
    AllDigits whole ∧ AllDigits fraction ∧ whole ≠ [] ∧
      d.positional = whole ++ pointed fraction ∧
      d.toRat = valueOf (whole ++ fraction) * (10 : ℚ) ^ (0 - fraction.length : Int) := by
  have hdigits := allDigits_digitsOf d.coefficient
  have hne := digitsOf_ne_nil d.coefficient
  have hvalue := valueOf_digitsOf d.coefficient
  simp only [positional, toRat]
  generalize digitsOf d.coefficient = digits at hdigits hne hvalue
  cases d.exponent with
  | ofNat k =>
    refine ⟨digits ++ List.replicate k '0', [],
      allDigits_append hdigits (allDigits_replicate_zero k), by simp [AllDigits], by simp [hne],
      (List.append_nil _).symm, ?_⟩
    rw [List.append_nil, valueOf_append, hvalue, valueOf_replicate_zero]
    simp
  | negSucc k =>
    by_cases hlong : k + 1 < digits.length
    · -- the point stands among the digits
      refine ⟨digits.take (digits.length - (k + 1)), digits.drop (digits.length - (k + 1)),
        fun c hc => hdigits c (List.mem_of_mem_take hc),
        fun c hc => hdigits c (List.mem_of_mem_drop hc), ?_, if_pos hlong, ?_⟩
      · rw [← List.length_pos_iff, List.length_take]
        omega
      · have hexp : (0 - (digits.length - (digits.length - (k + 1)) : Nat) : Int) =
            Int.negSucc k := by
          omega
        rw [List.take_append_drop, hvalue, List.length_drop, hexp]
    · -- zeros stand between the point and the digits
      refine ⟨['0'], List.replicate (k + 1 - digits.length) '0' ++ digits, by simp [AllDigits],
        allDigits_append (allDigits_replicate_zero _) hdigits, by simp, if_neg hlong, ?_⟩
      have hzeros : valueOf (['0'] ++ (List.replicate (k + 1 - digits.length) '0' ++ digits)) =
          d.coefficient := by
        rw [← List.append_assoc, ← List.replicate_one, List.replicate_append_replicate,
          valueOf_append, valueOf_replicate_zero, hvalue]
        omega
      have hexp : (0 - (k + 1 - digits.length + digits.length : Nat) : Int) = Int.negSucc k := by
        omega
      rw [hzeros, List.length_append, List.length_replicate, hexp]

/-- **Scientific notation** is a digit, a pointed fraction and an exponent
that makes up for it. -/
theorem scientific_form (d : Decimal) : ∃ (first : Char) (rest : List Char),
    AllDigits [first] ∧ AllDigits rest ∧
      d.scientific = first :: (pointed rest ++ 'e' :: integerChars (d.exponent + rest.length)) ∧
      d.toRat =
        valueOf ([first] ++ rest) * (10 : ℚ) ^ (d.exponent + rest.length - rest.length : Int) := by
  have hdigits := allDigits_digitsOf d.coefficient
  obtain ⟨first, rest, hcons⟩ := List.exists_cons_of_ne_nil (digitsOf_ne_nil d.coefficient)
  refine ⟨first, rest, ?_, ?_, ?_, ?_⟩
  · intro c hc
    exact hdigits c (by rw [hcons, List.eq_of_mem_singleton hc]; exact List.mem_cons_self)
  · intro c hc
    exact hdigits c (by rw [hcons]; exact List.mem_cons_of_mem first hc)
  · simp only [scientific, hcons, List.cons_append]
  · rw [List.singleton_append, ← hcons, valueOf_digitsOf, toRat, Int.add_sub_cancel]

end NumericTower.Decimal
