import NumericTower.Proofs.Flonum.NearestValue
import NumericTower.Proofs.Number.RoundTrip
/-!
# What is read

A text denotes a number by its form alone (`Literal.Denotes`): an integer by
its digits, one of four words a flonum without a rational value, and every
other numeral the flonum nearest to its value. What is denoted is read
(`ofText?_of_denotes`), since each part of a text chooses its reader; and what
is read is denoted (`denotes_of_ofText?`), since its form denotes some number
and that would have been read.
-/

namespace NumericTower

namespace Decimal

/-- A decimal as the fraction that it is rounded from. -/
theorem exists_toFlonum_eq_nearest (d : Decimal) :
    ∃ num den : Nat, 0 < den ∧ (num : ℚ) / (den * unitsPerOne) = d.toRat ∧
      ∀ negative, d.toFlonum negative = .nearest negative num den := by
  have hexp : d.exponent = (d.exponent.toNat : Int) - (-d.exponent).toNat := by omega
  have hval := toRat_of_exponent hexp
  have hden := powerOfTen_pos (-d.exponent).toNat
  refine ⟨_, _, hden, ?_, fun negative => toFlonum_eq negative hden hval⟩
  rw [hval, Nat.cast_mul _ unitsPerOne, mul_div_mul_right _ _ cast_unitsPerOne_pos.ne']

/-- **A decimal is read as the nearest double**, and with its own sign
where that is a zero. -/
theorem isNearest_toFlonum (negative : Bool) (d : Decimal) :
    (d.toFlonum negative).IsNearest (if negative then -d.toRat else d.toRat) ∧
      (d.toFlonum negative).signBit = negative := by
  obtain ⟨num, den, hden, hvalue, hnearest⟩ := d.exists_toFlonum_eq_nearest
  rw [hnearest, ← hvalue]
  exact ⟨Flonum.isNearest_nearest_ite negative num hden, Flonum.signBit_nearest negative num den⟩

end Decimal

namespace Literal

/-- The number that a text denotes. -/
inductive Denotes : String → Number → Prop
  /-- `[+-]?[0-9]+`: the canonical number of the integer. -/
  | integer {text : String} {v : ℤ} {n : Number} (hform : DenotesInteger text.toList v)
      (hcanonical : n.Canonical) (hvalue : n.toInt? = some v) : Denotes text n
  /-- `[+-](inf|nan)[.]0` -/
  | special {text : String} {x : Flonum} (hform : IsSpecial text x) : Denotes text (.flonum x)
  /-- `[+-]?([0-9]+[.]?[0-9]*|[.][0-9]+)([eE][+-]?[0-9]+)?`, if that is no
  integer: the double nearest to the value, with the sign that is written. -/
  | decimal {text : String} {negative : Bool} {q : ℚ} {x : Flonum}
      (hinexact : ¬ ∃ v, DenotesInteger text.toList v)
      (hform : DenotesDecimal text.toList negative q)
      (hnearest : x.IsNearest (if negative then -q else q)) (hsign : x.signBit = negative) :
      Denotes text (.flonum x)

end Literal

namespace Number

open Literal

variable {text : String} {n : Number} {e : NumericError}

theorem ofText?_of_isSpecial {x : Flonum} (h : IsSpecial text x) :
    ofText? text = .ok (.flonum x) := by
  rw [ofText?, special?_eq_some_iff.2 h]

/-- **Completeness**: what is denoted is read. -/
theorem ofText?_of_denotes (h : Denotes text n) : ofText? text = .ok n := by
  cases h with
  | integer hform hcanonical hvalue =>
    rw [eq_ofInt_of_toInt? hcanonical hvalue]
    exact ofText?_of_denotesInteger hform
  | special hform => exact ofText?_of_isSpecial hform
  | @decimal negative q x hinexact hform hnearest hsign =>
    obtain ⟨d, rfl, hread⟩ := hform.exists_ofChars? hinexact
    obtain ⟨hnearest', hsign'⟩ := d.isNearest_toFlonum negative
    -- the sign tells the two zeros apart, which are both nearest
    obtain rfl : x = d.toFlonum negative :=
      hnearest.eq_of_signBit_eq hnearest' (hsign.trans hsign'.symm)
    exact ofText?_eq_ok hform.isNumeralChar hread

/-- **Soundness**: what is read is denoted. -/
theorem denotes_of_ofText? (h : ofText? text = .ok n) : Denotes text n := by
  have hsame {m : Number} (hm : Denotes text m) : Denotes text n := by
    obtain rfl : m = n := Except.ok.inj ((ofText?_of_denotes hm).symm.trans h)
    exact hm
  by_cases hinteger : ∃ v, DenotesInteger text.toList v
  · obtain ⟨v, hv⟩ := hinteger
    exact hsame (.integer hv (canonical_ofInt v) (toInt?_ofInt v))
  rw [ofText?] at h
  split at h
  · rename_i x hx
    exact hsame (.special (special?_eq_some_iff.1 hx))
  split at h
  · rename_i m hm
    obtain hform | ⟨negative, q, hform⟩ := denotes_of_ofChars? hm
    · exact absurd hform hinteger
    · obtain ⟨d, rfl, -⟩ := hform.exists_ofChars? hinteger
      obtain ⟨hnearest, hsign⟩ := d.isNearest_toFlonum negative
      exact hsame (.decimal hinteger hform hnearest hsign)
  · cases h

/-- Everything else is rejected, and the text is told. -/
theorem exists_fault_of_ofText? (h : ofText? text = .error e) :
    ∃ fault : LiteralFault, e = .parse text fault.reason ∧ fault ≠ .invalidInteger := by
  rw [ofText?] at h
  split at h
  · cases h
  split at h
  · cases h
  · rename_i fault hfault
    refine ⟨fault, (Except.error.inj h).symm, ?_⟩
    rintro rfl
    exact ofChars?_ne_invalidInteger _ hfault

/-- **Exactly the numbers that are denoted are read.** Every other text is
rejected, with itself in the error, and never for digits that the reader of
integers would refuse. -/
theorem ofText?_iff_denotes (text : String) :
    (∀ n : Number, ofText? text = .ok n ↔ Denotes text n) ∧
      ((¬ ∃ n, Denotes text n) ↔ ∃ reason, ofText? text = .error (.parse text reason)) ∧
      ∀ e : NumericError, ofText? text = .error e →
        ∃ reason, e = .parse text reason ∧ reason ≠ LiteralFault.invalidInteger.reason := by
  have hread (n : Number) : ofText? text = .ok n ↔ Denotes text n :=
    ⟨denotes_of_ofText?, ofText?_of_denotes⟩
  refine ⟨hread, ⟨fun hnone => ?_, ?_⟩, fun e he => ?_⟩
  · cases h : ofText? text with
    | ok n => exact absurd ⟨n, (hread n).1 h⟩ hnone
    | error e =>
      obtain ⟨fault, rfl, -⟩ := exists_fault_of_ofText? h
      exact ⟨_, rfl⟩
  · rintro ⟨reason, h⟩ ⟨n, hn⟩
    rw [(hread n).2 hn] at h
    cases h
  · obtain ⟨fault, rfl, hne⟩ := exists_fault_of_ofText? he
    refine ⟨_, rfl, ?_⟩
    cases fault with
    | invalidInteger => exact absurd rfl hne
    | emptyText => decide
    | signAlone => decide
    | unexpectedCharacter => decide
    | invalidDecimal => decide

/-- The least word after zeros, an overflow below zero, and a second sign. -/
theorem ofText?_iff_denotes_forms :
    Denotes "-009223372036854775808" (.fixnum .least) ∧
      Denotes "-1.e400" (.flonum (.infinite true)) ∧
      (¬ ∃ n, Denotes "+-5" n) ∧
      ∃ reason, NumericError.parse "+-5" "invalid decimal" = .parse "+-5" reason ∧
        reason ≠ LiteralFault.invalidInteger.reason :=
  ⟨((ofText?_iff_denotes _).1 _).1 (by decide +kernel),
    ((ofText?_iff_denotes _).1 _).1 (by decide +kernel),
    (ofText?_iff_denotes "+-5").2.1.2 ⟨"invalid decimal", by decide +kernel⟩,
    (ofText?_iff_denotes "+-5").2.2 _ (by decide +kernel)⟩

end Number

end NumericTower
