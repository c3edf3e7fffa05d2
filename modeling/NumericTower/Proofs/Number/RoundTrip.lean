import NumericTower.Proofs.Number.Literal
/-!
# Writing and reading

The text of a number reads as that number (`Number.ofText?_text`). Integers
of any size come back by their digits; flonums come back because the
shortest decimal is one that rounds to them, whatever form it is written
in; the specials are words of their own.
-/

namespace NumericTower

namespace Flonum

open Decimal Literal

/-- **A magnitude reads back.** Of the three forms of its text, each is a
numeral whose nearest double it is. -/
theorem exists_isInexact (negative : Bool) (m : Magnitude) :
    ∃ d, IsInexact (magnitudeChars m) d ∧ d.toFlonum negative = .finite negative m := by
  have hshort := toFlonum_shortest negative m
  have hsame {d : Decimal} (h : d.toRat = (shortest m).toRat) :
      d.toFlonum negative = .finite negative m := by
    rw [← hshort]
    exact toFlonum_congr negative h
  simp only [magnitudeChars]
  split
  · rename_i hwhole
    split
    · -- a whole number short enough to be written out, and no shortest decimal
      obtain ⟨d, hd, hvalue⟩ := isInexact_wholeText (m.units / unitsPerOne)
      refine ⟨d, hd, ?_⟩
      rw [toFlonum_of_whole negative hvalue]
      exact ofWhole_of_units negative
        (Nat.div_mul_cancel (Nat.dvd_of_mod_eq_zero hwhole)).symm
    · obtain ⟨d, hd, hvalue⟩ := isInexact_scientific (shortest m)
      exact ⟨d, hd, hsame hvalue⟩
  · -- the shortest decimal of a fraction is not whole, so it has a point
    rename_i hfraction
    obtain ⟨d, hd, hvalue⟩ := isInexact_positional fun whole h =>
      hfraction (whole_of_toFlonum hshort h)
    exact ⟨d, hd, hsame hvalue⟩

end Flonum

namespace Number

open Decimal Literal

/-- A text of a numeral's characters is read by them. -/
theorem ofText?_eq_ok {text : String} {n : Number}
    (hchars : ∀ c ∈ text.toList, isNumeralChar c = true)
    (h : Literal.ofChars? text.toList = .ok n) : ofText? text = .ok n := by
  rw [ofText?, special?_eq_none hchars]
  simp only [h]

/-- An integer is read, whatever zeros its digits begin with. -/
theorem ofText?_of_denotesInteger {text : String} {v : Int} (h : DenotesInteger text.toList v) :
    ofText? text = .ok (ofInt v) :=
  ofText?_eq_ok h.isNumeralChar (ofChars?_of_denotesInteger h)

/-- **Integers come back**, of any size. -/
theorem ofText?_integerChars (v : Int) : ofText? (.ofList (integerChars v)) = .ok (ofInt v) := by
  apply ofText?_of_denotesInteger
  rw [String.toList_ofList]
  exact readInteger?_eq_some_iff.1 (readInteger?_integerChars v)

/-- **Flonums come back**, sign, zeros and specials included. -/
theorem ofText?_flonum (x : Flonum) : ofText? x.text = .ok (.flonum x) := by
  cases x with
  | nan => decide
  | infinite negative => cases negative <;> decide
  | finite negative m =>
    obtain ⟨d, hd, hm⟩ := Flonum.exists_isInexact negative m
    have hread := hd.ofChars? negative
    rw [hm] at hread
    have htext : (Flonum.finite negative m).text.toList =
        signed negative (Flonum.magnitudeChars m) := String.toList_ofList
    refine ofText?_eq_ok ?_ (htext ▸ hread)
    rw [htext]
    exact isNumeralChar_signed hd.numeral negative

/-- **What is written is read back**: the same number in the same
representation, for every canonical number. In particular no flonum is
written like an exact number. -/
theorem ofText?_text :
    (∀ n : Number, n.Canonical → ofText? n.text = .ok n) ∧
      ∀ (x : Flonum) (n : Number), n.isExact = true → (flonum x).text ≠ n.text := by
  have hexact (n : Number) (hn : n.isExact = true) :
      ∃ v, n.toInt? = some v ∧ ofText? n.text = .ok (ofInt v) := by
    cases n with
    | fixnum a => exact ⟨a.toInt, rfl, ofText?_integerChars a.toInt⟩
    | bignum a => exact ⟨a.toInt, rfl, ofText?_integerChars a.toInt⟩
    | flonum x => cases hn
  constructor
  · intro n hn
    cases hkind : n.isExact with
    | true =>
      obtain ⟨v, hv, hread⟩ := hexact n hkind
      rw [hread, ← eq_ofInt_of_toInt? hn hv]
    | false =>
      cases n with
      | fixnum a => cases hkind
      | bignum a => cases hkind
      | flonum x => exact ofText?_flonum x
  · -- equal texts would be read as a number of both kinds
    intro x n hn htext
    obtain ⟨v, -, hread⟩ := hexact n hn
    have hx : ofText? (flonum x).text = .ok (flonum x) := ofText?_flonum x
    rw [htext, hread] at hx
    have hint := congrArg toInt? (Except.ok.inj hx)
    rw [toInt?_ofInt] at hint
    cases hint

/-- A bignum, the smaller zero and the smallest subnormal; and the flonum
two, which is not written as the integer. -/
theorem ofText?_text_extremes :
    ofText? (bignum ⟨-18446744073709551616⟩).text = .ok (bignum ⟨-18446744073709551616⟩) ∧
      ofText? (flonum (.zero true)).text = .ok (flonum (.zero true)) ∧
      ofText? (flonum (.finite false ⟨1, by decide⟩)).text =
        .ok (flonum (.finite false ⟨1, by decide⟩)) ∧
      (flonum (.ofInt 2)).text ≠ (ofInt 2).text :=
  ⟨ofText?_text.1 (bignum ⟨-18446744073709551616⟩) (by decide),
    ofText?_text.1 (flonum (.zero true)) (by decide),
    ofText?_text.1 (flonum (.finite false ⟨1, by decide⟩)) (by decide),
    ofText?_text.2 (.ofInt 2) (ofInt 2) (by decide)⟩

end Number

end NumericTower
