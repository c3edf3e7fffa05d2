import NumericTower.Proofs.Number.Tagged
/-!
# Bignums by their digits

A tagged bignum may be written by hand: any sign, any digits below `2^32`, and
any zeros at their end. What it denotes is said by place value (`signedValue`),
and that alone decides whether it is read (`ofJson?_bignumForm`): a value that a
word holds is refused in every spelling. What is read is written with the digits
that do not end with zero, of which there is one list for each value
(`IsReduced.eq_of_signedValue_eq`).
-/

namespace NumericTower

namespace Bignum

/-! ## Place value -/

/-- The integer with a sign and digits to the base `2^32`, the first of them
counting ones. -/
def signedValue (sign : ℤ) (digits : List ℕ) : ℤ :=
  sign * ((digits.mapIdx fun i digit => digit * 2 ^ (32 * i)).sum : ℕ)

/-- Digits below `2^32` that do not end with zero. -/
structure IsReduced (digits : List ℕ) : Prop where
  lt : ∀ digit ∈ digits, digit < 2 ^ 32
  last : digits.getLast? ≠ some 0

/-- The reader's fold is the sum of places. -/
theorem ofDigits_eq_sum (digits : List ℕ) :
    ofDigits digits = (digits.mapIdx fun i digit => digit * 2 ^ (32 * i)).sum := by
  have hbase : base = 2 ^ 32 := rfl
  rw [ofDigits_eq, Nat.ofDigits_eq_sum_mapIdx]
  simp only [hbase, ← pow_mul]

theorem withSign_ofDigits (sign : ℤ) (digits : List ℕ) :
    withSign sign (ofDigits digits) = signedValue sign digits := by
  rw [withSign, ofDigits_eq_sum, signedValue]

/-! ## Reduced digits -/

theorem isReduced_digitsOf (n : ℕ) : IsReduced (digitsOf n) := by
  refine ⟨fun digit => lt_base_of_mem_digitsOf, ?_⟩
  rw [digitsOf_eq]
  rcases Nat.eq_zero_or_pos n with rfl | hn
  · rw [Nat.digits_zero, List.getLast?_nil]
    exact nofun
  · have hne : Nat.digits base n ≠ [] := Nat.digits_ne_nil_iff_ne_zero.2 hn.ne'
    rw [List.getLast?_eq_some_getLast hne, ne_eq, Option.some_inj]
    exact Nat.getLast_digit_ne_zero base hn.ne'

/-- Reduced digits are those of their value. -/
theorem IsReduced.digitsOf_ofDigits {digits : List ℕ} (h : IsReduced digits) :
    digitsOf (ofDigits digits) = digits := by
  rw [digitsOf_eq, ofDigits_eq]
  refine Nat.digits_ofDigits base (by decide) digits h.lt fun hne hzero => h.last ?_
  rw [List.getLast?_eq_some_getLast hne, hzero]

/-- **Reduced digits are determined by the value**, if it is not zero. -/
theorem IsReduced.eq_of_signedValue_eq {sign : ℤ} {digits digits' : List ℕ} (hsign : sign ≠ 0)
    (h : IsReduced digits) (h' : IsReduced digits')
    (heq : signedValue sign digits = signedValue sign digits') : digits = digits' := by
  rw [signedValue, signedValue, Int.mul_eq_mul_left_iff hsign, ← ofDigits_eq_sum,
    ← ofDigits_eq_sum, Int.natCast_inj] at heq
  rw [← h.digitsOf_ofDigits, heq, h'.digitsOf_ofDigits]

theorem signedValue_digitsOf (v : ℤ) : signedValue v.sign (digitsOf v.natAbs) = v := by
  rw [← withSign_ofDigits, ofDigits_digitsOf, withSign, Int.sign_mul_natAbs]

end Bignum

namespace Number

open Bignum

/-! ## Tagged bignums -/

/-- The tagged form of a bignum with a given sign and digits. -/
def bignumForm (sign : ℤ) (digits : List ℕ) : Json :=
  .ofMembers [("kind", .ofString "bignum"),
    ("value", .array [.integer sign, .array (digits.map fun digit : ℕ => .integer digit)])]

theorem ofJson?_bignumForm_eq {sign : ℤ} {digits : List ℕ}
    (hsign : sign = -1 ∨ sign = 0 ∨ sign = 1) (hdigits : ∀ digit ∈ digits, digit < 2 ^ 32) :
    ofJson? (bignumForm sign digits) =
      (Bignum.ofInt? (signedValue sign digits)).toOption.map .bignum := by
  have hkind : Kind.ofJson? (.ofString "bignum") = some .bignum := by decide
  have hform := ofJson?_ofMembers (.ofString "bignum")
    (.array [.integer sign, .array (digits.map fun digit : ℕ => .integer digit)])
  rw [ofTagged?, hkind] at hform
  rw [← withSign_ofDigits, ← Bignum.ofJson?_signed hsign hdigits]
  exact hform

/-- A bignum is written with its sign and its reduced digits. -/
theorem toJson_bignum {v : ℤ} (hv : v ≠ 0) :
    (bignum ⟨v⟩).toJson = bignumForm v.sign (digitsOf v.natAbs) := by
  have hsign : (if v < 0 then -1 else 1) = v.sign := by
    split
    · rename_i hneg
      exact (Int.sign_eq_neg_one_of_neg hneg).symm
    · rename_i hneg
      exact (Int.sign_eq_one_of_pos (by omega)).symm
  rw [← hsign]
  rfl

/-- **No word is read as a bignum**, however it is spelled. A sign and digits to
the base `2^32` are read if and only if the integer that they denote is out of
the word range, and as the bignum of that integer, whatever zeros the digits end
with. It is written with digits that do not end with zero, of which there are no
others for it, and these are read as the same number. -/
theorem ofJson?_bignumForm {sign v : ℤ} {digits : List ℕ}
    (hsign : sign = -1 ∨ sign = 0 ∨ sign = 1) (hdigits : ∀ digit ∈ digits, digit < 2 ^ 32)
    (hv : signedValue sign digits = v) :
    ((ofJson? (bignumForm sign digits)).isSome = true ↔ v < -2 ^ 63 ∨ 2 ^ 63 - 1 < v) ∧
      ∀ n, ofJson? (bignumForm sign digits) = some n →
        n = .bignum ⟨v⟩ ∧ n.Canonical ∧
          ∃ reduced, n.toJson = bignumForm v.sign reduced ∧ IsReduced reduced ∧
            signedValue v.sign reduced = v ∧
            (∀ other, IsReduced other → signedValue v.sign other = v → other = reduced) ∧
            ofJson? (bignumForm v.sign reduced) = some n := by
  rw [ofJson?_bignumForm_eq hsign hdigits, hv]
  have hout : ¬ Fixnum.InRange v ↔ v < -2 ^ 63 ∨ 2 ^ 63 - 1 < v := by omega
  rw [← hout]
  by_cases hrange : Fixnum.InRange v
  · rw [Bignum.ofInt?_of_inRange hrange]
    exact ⟨iff_of_false Bool.false_ne_true (not_not_intro hrange), nofun⟩
  · rw [Bignum.ofInt?_of_not_inRange hrange]
    refine ⟨iff_of_true rfl hrange, ?_⟩
    rintro n ⟨⟩
    have hne : v ≠ 0 := by omega
    have hsign_ne : v.sign ≠ 0 := Int.sign_eq_zero_iff_zero.not.2 hne
    have hsign' : v.sign = -1 ∨ v.sign = 0 ∨ v.sign = 1 := by
      have := v.sign_trichotomy
      omega
    have hvalue := signedValue_digitsOf v
    have hreduced := isReduced_digitsOf v.natAbs
    refine ⟨rfl, hrange, digitsOf v.natAbs, toJson_bignum hne, hreduced, hvalue, ?_, ?_⟩
    · intro other hother heq
      exact hother.eq_of_signedValue_eq hsign_ne hreduced (heq.trans hvalue.symm)
    · rw [ofJson?_bignumForm_eq hsign' hreduced.lt, hvalue,
        Bignum.ofInt?_of_not_inRange hrange]
      rfl

/-- The same digits at either end of the word range, with a zero after them: a
bignum if they are positive, and refused if not. -/
theorem ofJson?_bignumForm_word_ends :
    let digits := [0, 2147483648, 0]
    (∀ digit ∈ digits, digit < 2 ^ 32) ∧ signedValue 1 digits = 9223372036854775808 ∧
      signedValue (-1) digits = -9223372036854775808 ∧
      ofJson? (bignumForm 1 digits) = some (.bignum ⟨9223372036854775808⟩) ∧
      ofJson? (bignumForm (-1) digits) = none := by
  intro digits
  have hdigits : ∀ digit ∈ digits, digit < 2 ^ 32 := by decide
  have hvalue : signedValue 1 digits = 9223372036854775808 := by decide
  have hvalue' : signedValue (-1) digits = -9223372036854775808 := by decide
  obtain ⟨hsome, hread⟩ := ofJson?_bignumForm (.inr (.inr rfl)) hdigits hvalue
  obtain ⟨hsome', -⟩ := ofJson?_bignumForm (.inl rfl) hdigits hvalue'
  refine ⟨hdigits, hvalue, hvalue', ?_, ?_⟩
  · obtain ⟨n, hn⟩ := Option.isSome_iff_exists.1 (hsome.2 (by decide))
    rw [hn, (hread n hn).1]
  · rw [← Option.not_isSome_iff_eq_none, hsome']
    decide

end Number

end NumericTower
