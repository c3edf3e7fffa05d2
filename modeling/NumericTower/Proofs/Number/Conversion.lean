import NumericTower.Proofs.Flonum.Exact
import NumericTower.Proofs.Flonum.IntegerPart
import NumericTower.Proofs.Number.Order
/-!
# Conversion between the kinds

A finite flonum is made exact as the integer part of its value, and a number is
made inexact as the nearest double. Where no rounding is needed the two undo
each other: a flonum without a fraction comes back equal (`numEq_toFlonum`), and
an exact number whose value some double has comes back as itself, in the same
representation (`exactOf_toFlonum`).
-/

namespace NumericTower

namespace Flonum

variable {x : Flonum} {q : ℚ}

/-- The integer that is read off a flonum is the integer part of its value. -/
theorem toInt?_of_toRat? (h : x.toRat? = some q) : x.toInt? = some (integerPart q) := by
  obtain ⟨negative, m, rfl, -⟩ := exists_finite_of_toRat? h
  rw [toInt?, integerPart_eq h]

theorem exists_toRat?_of_isFinite (h : x.isFinite = true) : ∃ q, x.toRat? = some q := by
  cases x with
  | nan => cases h
  | infinite negative => cases h
  | finite negative m => exact ⟨_, rfl⟩

end Flonum

namespace Number

open Extended

variable {n : Number} {v : ℤ} {x : Flonum}

theorem toFlonum_of_toInt? (h : n.toInt? = some v) : n.toFlonum = .ofInt v := by
  cases n with
  | fixnum a => exact congrArg Flonum.ofInt (Option.some.inj h)
  | bignum a => exact congrArg Flonum.ofInt (Option.some.inj h)
  | flonum x => cases h

/-- An integer that some double is converts to a double of that value. -/
theorem toRat?_toFlonum (h : n.toInt? = some v) (hx : x.toRat? = some (v : ℚ)) :
    n.toFlonum.toRat? = some (v : ℚ) := by
  rw [toFlonum_of_toInt? h]
  exact (Flonum.isNearest_ofInt v).toRat?_eq hx

/-- **A finite flonum is made exact**: it has an integer part, which is given in
its one representation. -/
theorem exists_exactOf {q : ℚ} (h : x.toRat? = some q) (operation : String) :
    ∃ n, exactOf operation x = .ok n ∧ n.Canonical ∧ n.toInt? = some (integerPart q) :=
  ⟨_, exactOf_eq_ofInt (Flonum.toInt?_of_toRat? h) operation, canonical_ofInt _, toInt?_ofInt _⟩

/-- **A flonum without a fraction comes back**, equal to itself. -/
theorem numEq_toFlonum {q : ℚ} (hx : x.toRat? = some q) (hwhole : x.isIntegral = true)
    (hn : n.toInt? = some (integerPart q)) : n.toFlonum.numEq x = true := by
  obtain ⟨v, hv⟩ := x.isIntegral_iff.1 hwhole
  obtain rfl : q = v := Option.some.inj (hx.symm.trans hv)
  rw [integerPart_intCast] at hn
  exact Flonum.numEq_of_value? (Flonum.value?_of_toRat? (toRat?_toFlonum hn hv))
    (Flonum.value?_of_toRat? hv)

/-- **An exact number that is a double comes back**, in its representation. -/
theorem exactOf_toFlonum (hn : n.Canonical) (h : n.toInt? = some v)
    (hx : x.toRat? = some (v : ℚ)) (operation : String) :
    exactOf operation n.toFlonum = .ok n := by
  have hexact := exactOf_eq_ofInt (Flonum.toInt?_of_toRat? (toRat?_toFlonum h hx)) operation
  rw [hexact, integerPart_intCast, ← eq_ofInt_of_toInt? hn h]

/-- **Conversions undo each other where no rounding is needed.** Every finite
flonum is made exact as its integer part, and a whole one comes back equal;
every exact number that is a double comes back the same; and every integer up to
`2^53` is a double. -/
theorem conversion_inverse (operation : String) :
    (∀ x : Flonum, x.isFinite = true → ∃ q n, x.toRat? = some q ∧
      exactOf operation x = .ok n ∧ n.Canonical ∧ n.toInt? = some (integerPart q) ∧
      (x.isIntegral = true → n.toFlonum.numEq x = true)) ∧
    (∀ (n : Number) (v : ℤ), n.Canonical → n.toInt? = some v →
      (∃ y : Flonum, y.toRat? = some (v : ℚ)) → exactOf operation n.toFlonum = .ok n) ∧
    ∀ v : ℤ, |v| ≤ 2 ^ 53 → ∃ y : Flonum, y.toRat? = some (v : ℚ) := by
  refine ⟨fun x hfinite => ?_, fun n v hn hv hdouble => ?_, fun v hv => ?_⟩
  · obtain ⟨q, hq⟩ := Flonum.exists_toRat?_of_isFinite hfinite
    obtain ⟨n, hexact, hcanonical, hvalue⟩ := exists_exactOf hq operation
    exact ⟨q, n, hq, hexact, hcanonical, hvalue, fun hwhole => numEq_toFlonum hq hwhole hvalue⟩
  · obtain ⟨y, hy⟩ := hdouble
    exact exactOf_toFlonum hn hv hy operation
  · have hend : 2 * runLength = 2 ^ 53 := by decide
    have habs : (v.natAbs : ℤ) ≤ 2 ^ 53 := by rwa [Int.natCast_natAbs]
    exact Flonum.exists_toRat?_of_natAbs_le (by omega)

/-- A fraction below zero, both ends of the word range, and the last of the
integers that are doubles without a gap. -/
theorem conversion_inverse_ends :
    (∃ q n, Flonum.half.neg.toRat? = some q ∧ exactOf "truncate" Flonum.half.neg = .ok n ∧
      n.Canonical ∧ n.toInt? = some (integerPart q) ∧
      (Flonum.half.neg.isIntegral = true → n.toFlonum.numEq Flonum.half.neg = true)) ∧
    exactOf "floor" (fixnum .least).toFlonum = .ok (fixnum .least) ∧
    exactOf "floor" (bignum ⟨9223372036854775808⟩).toFlonum =
      .ok (bignum ⟨9223372036854775808⟩) ∧
    ∃ y : Flonum, y.toRat? = some ((9007199254740992 : ℤ) : ℚ) :=
  ⟨(conversion_inverse "truncate").1 _ (by decide +kernel),
    (conversion_inverse "floor").2.1 _ (-9223372036854775808) (by decide) (by decide)
      ⟨.ofInt (-9223372036854775808), by decide +kernel⟩,
    (conversion_inverse "floor").2.1 _ 9223372036854775808 (by decide) rfl
      ⟨.ofInt 9223372036854775808, by decide +kernel⟩,
    (conversion_inverse "floor").2.2 9007199254740992 (by decide)⟩

end Number

end NumericTower
