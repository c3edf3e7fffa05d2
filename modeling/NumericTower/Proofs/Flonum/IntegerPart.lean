import NumericTower.Proofs.Flonum.NearestValue
import NumericTower.Proofs.Flonum.Remainder
import Mathlib.Data.Rat.Floor
/-!
# Integer parts of flonums

Rounding a flonum to an integral flonum is exact in all three directions: the
whole number below a magnitude is a double, and so is the one above it, because
doubles with a fraction end at `2^52`. So the integer that is read back is the
floor, the ceiling or the integer part of the value. What truncation takes away
is a double as well (`toRat?_fract`), although the subtraction that computes it
is a rounded one.
-/

namespace NumericTower

/-- The integer part of a rational: what is left without its fraction. -/
def integerPart (q : ℚ) : Int := if 0 ≤ q then ⌊q⌋ else ⌈q⌉

theorem integerPart_intCast (v : Int) : integerPart v = v := by
  rw [integerPart, Int.floor_intCast, Int.ceil_intCast, ite_self]

theorem integerPart_eq_iff {q : ℚ} : (integerPart q : ℚ) = q ↔ ∃ v : Int, q = v := by
  constructor
  · intro h
    exact ⟨integerPart q, h.symm⟩
  · rintro ⟨v, rfl⟩
    rw [integerPart_intCast]

namespace Flonum

variable {negative : Bool} {m : Magnitude} {x : Flonum} {q : ℚ}

/-! ## Whole magnitudes -/

/-- A whole number up to `2^53` is the value of a magnitude. -/
theorem exists_magnitude_of_whole {whole : Nat} (h : whole ≤ 2 * runLength) :
    ∃ t : Magnitude, t.units = whole * unitsPerOne := by
  obtain ⟨y, hy⟩ := exists_toRat?_of_natAbs_le (by simpa using h : (whole : Int).natAbs ≤ _)
  obtain ⟨sign, t, rfl, -⟩ := exists_finite_of_toRat? hy
  refine ⟨t, ?_⟩
  rw [← natAbs_signedUnits sign t, toRat?_finite_eq_iff.1 hy, Int.natAbs_mul, Int.natAbs_natCast,
    Int.natAbs_natCast]

/-- The whole number above a magnitude is a value: that of a magnitude with a
fraction is at most `2^52`. -/
theorem exists_magnitude_above (m : Magnitude) :
    ∃ t : Magnitude, t.units = wholeAbove m * unitsPerOne := by
  have hpos := unitsPerOne_pos
  by_cases hwhole : m.units % unitsPerOne = 0
  · refine ⟨m, ?_⟩
    obtain ⟨k, hk⟩ := Nat.dvd_of_mod_eq_zero hwhole
    have habove : wholeAbove m = k := by
      rw [wholeAbove, hk, Nat.mul_add_div hpos, Nat.div_eq_of_lt (by omega), Nat.add_zero]
    rw [habove, hk, Nat.mul_comm]
  · apply exists_magnitude_of_whole
    have hlt : m.units < runLength * unitsPerOne := unitsAt_lt_of_mod_ne_zero hwhole
    have hle : wholeAbove m ≤ runLength := by
      rw [wholeAbove, ← Nat.lt_succ_iff, Nat.div_lt_iff_lt_mul hpos, Nat.succ_mul]
      omega
    omega

/-- A whole magnitude is read with the sign that it was made with. -/
theorem toInt?_ofWhole {t : Magnitude} {whole : Nat} (negative : Bool)
    (h : t.units = whole * unitsPerOne) :
    (ofWhole negative whole).toInt? = some (if negative then -(whole : Int) else whole) := by
  rw [ofWhole_of_units negative h, toInt?, wholeBelow_of_units h]

/-! ## Whole parts of values -/

theorem floor_units_div (m : Magnitude) : ⌊(m.units : ℚ) / unitsPerOne⌋ = (wholeBelow m : Int) := by
  rw [Rat.floor_natCast_div_natCast, wholeBelow, Int.natCast_div]

theorem ceil_units_div (m : Magnitude) : ⌈(m.units : ℚ) / unitsPerOne⌉ = (wholeAbove m : Int) := by
  have hone : (0 : ℚ) < unitsPerOne := cast_unitsPerOne_pos
  have hpos := unitsPerOne_pos
  have hlow := Nat.div_mul_le_self (m.units + (unitsPerOne - 1)) unitsPerOne
  have hhigh := Nat.lt_mul_div_succ (m.units + (unitsPerOne - 1)) hpos
  rw [Int.ceil_eq_iff, lt_div_iff₀ hone, div_le_iff₀ hone, wholeAbove]
  generalize unitsPerOne = u at *
  generalize (m.units + (u - 1)) / u = above at *
  rw [Nat.mul_add_one, Nat.mul_comm] at hhigh
  rw [Int.cast_natCast, sub_mul, one_mul, sub_lt_iff_lt_add]
  exact ⟨by exact_mod_cast (by omega : above * u < m.units + u),
    by exact_mod_cast (by omega : m.units ≤ above * u)⟩

theorem eq_neg_units_div_of_toRat? (h : (finite true m).toRat? = some q) :
    q = -(m.units / unitsPerOne) := by
  rw [eq_signedUnits_div h, signedUnits, if_pos rfl, Int.cast_neg, Int.cast_natCast, neg_div]

/-- **The floor of a flonum is the floor of its value.** -/
theorem toInt?_floor (h : x.toRat? = some q) : x.floor.toInt? = some ⌊q⌋ := by
  obtain ⟨negative, m, rfl, -⟩ := exists_finite_of_toRat? h
  cases negative with
  | false =>
    obtain ⟨t, ht, -⟩ := exists_trunc_eq false m
    rw [eq_units_div_of_toRat? h, floor_units_div, floor, if_neg Bool.false_ne_true,
      toInt?_ofWhole false ht, if_neg Bool.false_ne_true]
  | true =>
    obtain ⟨t, ht⟩ := exists_magnitude_above m
    rw [eq_neg_units_div_of_toRat? h, Int.floor_neg, ceil_units_div, floor, if_pos rfl,
      toInt?_ofWhole true ht, if_pos rfl]

/-- **The ceiling of a flonum is the ceiling of its value.** -/
theorem toInt?_ceil (h : x.toRat? = some q) : x.ceil.toInt? = some ⌈q⌉ := by
  obtain ⟨negative, m, rfl, -⟩ := exists_finite_of_toRat? h
  cases negative with
  | false =>
    obtain ⟨t, ht⟩ := exists_magnitude_above m
    rw [eq_units_div_of_toRat? h, ceil_units_div, ceil, if_neg Bool.false_ne_true,
      toInt?_ofWhole false ht, if_neg Bool.false_ne_true]
  | true =>
    obtain ⟨t, ht, -⟩ := exists_trunc_eq true m
    rw [eq_neg_units_div_of_toRat? h, Int.ceil_neg, floor_units_div, ceil, if_pos rfl,
      toInt?_ofWhole true ht, if_pos rfl]

theorem integerPart_eq (h : (finite negative m).toRat? = some q) :
    integerPart q = if negative then -(wholeBelow m : Int) else wholeBelow m := by
  have hunits : (0 : ℚ) ≤ m.units / unitsPerOne :=
    div_nonneg (Nat.cast_nonneg _) cast_unitsPerOne_pos.le
  cases negative with
  | false =>
    rw [integerPart, eq_units_div_of_toRat? h, if_pos hunits, floor_units_div,
      if_neg Bool.false_ne_true]
  | true =>
    have hceil : ⌈q⌉ = -(wholeBelow m : Int) := by
      rw [eq_neg_units_div_of_toRat? h, Int.ceil_neg, floor_units_div]
    rw [integerPart, if_pos rfl, ← hceil]
    split
    · -- no other value with this sign is so great
      rename_i hnonneg
      have hvalue := eq_neg_units_div_of_toRat? h
      have hzero : q = 0 := by linarith
      rw [hzero, Int.floor_zero, Int.ceil_zero]
    · rfl

/-- **Truncation is toward zero**: the floor from zero on, and the ceiling
below. -/
theorem toInt?_trunc (h : x.toRat? = some q) : x.trunc.toInt? = some (integerPart q) := by
  obtain ⟨negative, m, rfl, -⟩ := exists_finite_of_toRat? h
  obtain ⟨t, ht, -⟩ := exists_trunc_eq negative m
  rw [trunc, toInt?_ofWhole negative ht, integerPart_eq h]

/-! ## The fraction -/

theorem exists_magnitude_mod_one (m : Magnitude) :
    ∃ r : Magnitude, r.units = m.units % unitsPerOne := by
  obtain ⟨one, hone⟩ := exists_magnitude_of_whole (by decide : 1 ≤ 2 * runLength)
  rw [Nat.one_mul] at hone
  have hne : unitsAt one.place ≠ 0 := hone.trans_ne unitsPerOne_pos.ne'
  obtain ⟨k, hk, hunits⟩ := exists_place_mod m.place hne
  refine ⟨⟨k, hk.trans_lt m.place_lt⟩, ?_⟩
  rw [Magnitude.units, hunits, ← Magnitude.units, ← Magnitude.units, hone]

/-- **The fraction is exact**: it is a double, so that the difference is not
rounded. -/
theorem toRat?_fract (h : x.toRat? = some q) : x.fract.toRat? = some (q - integerPart q) := by
  obtain ⟨negative, m, rfl, -⟩ := exists_finite_of_toRat? h
  obtain ⟨t, ht, htrunc⟩ := exists_trunc_eq negative m
  obtain ⟨r, hr⟩ := exists_magnitude_mod_one m
  have hwhole : (finite negative t).toRat? = some (integerPart q : ℚ) := by
    rw [toRat?_finite_eq_iff, integerPart_eq h, signedUnits, ht]
    cases negative <;> simp
  have hfraction : (finite negative r).toRat? = some (q - integerPart q) := by
    have hunits : r.units + t.units = m.units := by
      rw [hr, ht, wholeBelow, Nat.mul_comm, Nat.mod_add_div]
    have hsigned : signedUnits negative r = signedUnits negative m - signedUnits negative t := by
      rw [signedUnits, signedUnits, signedUnits, ← hunits]
      split <;> omega
    rw [toRat?_finite, hsigned, Int.cast_sub, sub_div, ← eq_signedUnits_div h,
      ← eq_signedUnits_div hwhole]
  have hnearest := isNearest_add h (toRat?_neg hwhole)
  rw [← sub_eq_add_neg] at hnearest
  rw [fract, htrunc]
  exact hnearest.toRat?_eq hfraction

end Flonum

end NumericTower
