import NumericTower.Operator.Rounding
import NumericTower.Proofs.Fixnum.Exact
import NumericTower.Proofs.Flonum.Whole
/-!
# Making flonums exact

The integer part of a finite flonum is made exact by way of a word if the
flonum lies between the ends of the word range, and as an integer of any
size if not. Both ways give the number of the integer part
(`exactOf_eq_ofInt`): the ends are doubles, so comparing with them is exact,
and what passes has an integer part that a word holds.
-/

namespace NumericTower

namespace Flonum

/-- Either end of the word range is a double. -/
theorem exists_wordEnd (negative : Bool) :
    ∃ m : Magnitude, m.units = 9223372036854775808 * unitsPerOne ∧
      ofFraction negative 9223372036854775808 1 = .finite negative m := by
  obtain ⟨j, hj, hunits⟩ := exists_place_wordEnd
  exact ⟨⟨j, hj⟩, hunits, ofWhole_of_units (m := ⟨j, hj⟩) negative hunits⟩

/-- **The test for a word** compares the units with those of the ends. -/
theorem isWordSized_finite_iff {negative : Bool} {m : Magnitude} :
    (finite negative m).isWordSized = true ↔
      -(9223372036854775808 * unitsPerOne : Int) ≤ signedUnits negative m ∧
        signedUnits negative m < (9223372036854775808 * unitsPerOne : Int) := by
  obtain ⟨least, hleast, hlow⟩ := exists_wordEnd true
  obtain ⟨past, hpast, hhigh⟩ := exists_wordEnd false
  have hlow' : ofInt (-9223372036854775808) = .finite true least := hlow
  have hhigh' : ofInt 9223372036854775808 = .finite false past := hhigh
  rw [isWordSized, hlow', hhigh', compare?, compare?, Bool.and_eq_true, bne_iff_ne, beq_iff_eq,
    ne_eq, Option.some_inj, Option.some_inj, compare_lt_iff_lt, compare_lt_iff_lt, not_lt]
  simp [signedUnits, hleast, hpast]

/-- The integer part of a word-sized flonum is a word. -/
theorem inRange_of_isWordSized {negative : Bool} {m : Magnitude}
    (h : (finite negative m).isWordSized = true) :
    Fixnum.InRange (if negative then -(wholeBelow m : Int) else wholeBelow m) := by
  obtain ⟨hlow, hhigh⟩ := isWordSized_finite_iff.1 h
  have hpos := unitsPerOne_pos
  cases negative with
  | true =>
    have hunits : m.units ≤ 9223372036854775808 * unitsPerOne := by
      simp only [signedUnits, if_true] at hlow
      omega
    have : wholeBelow m ≤ 9223372036854775808 := Nat.div_le_of_le_mul (by rwa [Nat.mul_comm])
    simp only [if_true]
    omega
  | false =>
    have hunits : m.units < 9223372036854775808 * unitsPerOne := by
      simp only [signedUnits, Bool.false_eq_true, if_false] at hhigh
      omega
    have : wholeBelow m < 9223372036854775808 := (Nat.div_lt_iff_lt_mul hpos).2 hunits
    simp only [Bool.false_eq_true, if_false]
    omega

/-- And the conversion to a word then gives it, saturating nothing. -/
theorem toWord_finite {negative : Bool} {m : Magnitude}
    (h : Fixnum.InRange (if negative then -(wholeBelow m : Int) else wholeBelow m)) :
    (finite negative m).toWord =
      .ofInt (if negative then -(wholeBelow m : Int) else wholeBelow m) := by
  simp only [toWord, Fixnum.toInt_least, Fixnum.toInt_greatest]
  rw [if_neg (by omega), if_neg (by omega)]

end Flonum

open Flonum

/-- **A finite flonum is made exact as its integer part**, whichever way is
taken. -/
theorem Number.exactOf_eq_ofInt {x : Flonum} {v : Int} (h : x.toInt? = some v)
    (operation : String) : exactOf operation x = .ok (ofInt v) := by
  cases x with
  | nan => cases h
  | infinite negative => cases h
  | finite negative m =>
    obtain ⟨⟩ := h
    rw [exactOf, isFinite, Bool.not_true, if_neg Bool.false_ne_true]
    split
    · rename_i hsized
      have hrange := inRange_of_isWordSized hsized
      rw [toWord_finite hrange, ofInt_of_inRange hrange]
    · rw [Flonum.toInt?]

end NumericTower
