import NumericTower.Proofs.Flonum.Nearest
import NumericTower.Fixnum
/-!
# Whole flonums

A flonum is whole if its exact value is an integer. The remainder test on
its units finds that out (`isIntegral_iff`), and the integer part is then
all of it. A word converts to a whole flonum, and to a zero only if it is
zero, although most words are rounded on the way.
-/

namespace NumericTower.Flonum

/-- The exact value is an integer; neither a NaN nor an infinity has one. -/
def IsWhole (x : Flonum) : Prop := ∃ v : Int, x.toRat? = some (v : ℚ)

theorem natAbs_signedUnits (negative : Bool) (m : Magnitude) :
    (signedUnits negative m).natAbs = m.units := by
  cases negative <;> simp [signedUnits]

/-- The value of a finite double is a quotient of its units. -/
theorem toRat?_finite (negative : Bool) (m : Magnitude) :
    (finite negative m).toRat? = some ((signedUnits negative m : ℚ) / unitsPerOne) := by
  rw [toRat?, Rat.mkRat_eq_div]

theorem toRat?_finite_false (m : Magnitude) :
    (finite false m).toRat? = some ((m.units : ℚ) / unitsPerOne) := by
  rw [toRat?_finite, signedUnits, if_neg Bool.false_ne_true, Int.cast_natCast]

theorem eq_units_div_of_toRat? {m : Magnitude} {q : ℚ} (h : (finite false m).toRat? = some q) :
    q = m.units / unitsPerOne :=
  Option.some.inj (h.symm.trans (toRat?_finite_false m))

theorem eq_signedUnits_div {negative : Bool} {m : Magnitude} {q : ℚ}
    (h : (finite negative m).toRat? = some q) : q = signedUnits negative m / unitsPerOne :=
  Option.some.inj (h.symm.trans (toRat?_finite negative m))

theorem abs_eq_units_div {negative : Bool} {m : Magnitude} {q : ℚ}
    (h : (finite negative m).toRat? = some q) : |q| = m.units / unitsPerOne := by
  have hunits : |signedUnits negative m| = (m.units : ℤ) := by
    rw [Int.abs_eq_natAbs, natAbs_signedUnits]
  rw [eq_signedUnits_div h, abs_div, Nat.abs_cast, ← Int.cast_abs, hunits, Int.cast_natCast]

/-- The value is an integer if the units are a multiple of those of one. -/
theorem toRat?_finite_eq_iff {negative : Bool} {m : Magnitude} {v : Int} :
    (finite negative m).toRat? = some (v : ℚ) ↔ signedUnits negative m = v * unitsPerOne := by
  have hne : (unitsPerOne : ℚ) ≠ 0 := cast_unitsPerOne_pos.ne'
  rw [toRat?, Option.some_inj, Rat.mkRat_eq_div, div_eq_iff hne]
  exact_mod_cast Iff.rfl

/-- **The test for an integral flonum** is that its value is an integer. -/
theorem isIntegral_iff (x : Flonum) : x.isIntegral = true ↔ x.IsWhole := by
  cases x with
  | nan => simp [isIntegral, IsWhole, toRat?]
  | infinite negative => simp [isIntegral, IsWhole, toRat?]
  | finite negative m =>
    simp only [isIntegral, IsWhole, toRat?_finite_eq_iff, beq_iff_eq]
    constructor
    · intro h
      obtain ⟨k, hk⟩ := Nat.dvd_of_mod_eq_zero h
      refine ⟨if negative then -(k : Int) else k, ?_⟩
      rw [signedUnits, hk, Nat.mul_comm]
      cases negative <;> simp
    · rintro ⟨v, hv⟩
      have habs := congrArg Int.natAbs hv
      rw [natAbs_signedUnits, Int.natAbs_mul, Int.natAbs_natCast] at habs
      rw [habs, Nat.mul_mod_left]

instance (x : Flonum) : Decidable x.IsWhole := decidable_of_iff _ x.isIntegral_iff

/-- The integer part of a whole flonum is its value, and so zero only for a
zero. -/
theorem toInt?_of_isWhole {x : Flonum} (h : x.IsWhole) :
    ∃ v : Int, x.toInt? = some v ∧ x.toRat? = some (v : ℚ) ∧ (x.isZero = true ↔ v = 0) := by
  obtain ⟨v, hv⟩ := h
  cases x with
  | nan => cases hv
  | infinite negative => cases hv
  | finite negative m =>
    have hsigned := toRat?_finite_eq_iff.1 hv
    have hunits : m.units = v.natAbs * unitsPerOne := by
      rw [← natAbs_signedUnits negative m, hsigned, Int.natAbs_mul, Int.natAbs_natCast]
    have hwhole : wholeBelow m = v.natAbs := wholeBelow_of_units hunits
    have hzero : m.units = 0 ↔ v = 0 := by
      have hpos := unitsPerOne_pos
      rw [hunits, Nat.mul_eq_zero]
      omega
    have hvalue : (if negative then -(wholeBelow m : Int) else wholeBelow m) * unitsPerOne =
        v * unitsPerOne := by
      rw [← hsigned, signedUnits, hunits, hwhole]
      cases negative <;> simp
    have hne : (unitsPerOne : Int) ≠ 0 := by exact_mod_cast unitsPerOne_pos.ne'
    refine ⟨v, ?_, hv, by simpa [isZero] using hzero⟩
    rw [toInt?, Int.eq_of_mul_eq_mul_right hne hvalue]

/-- The list begins with zero and ascends. -/
theorem units_eq_zero_iff {m : Magnitude} : m.units = 0 ↔ m.place = 0 :=
  ⟨fun h => unitsAt_strictMono.injective h, fun h => by rw [Magnitude.units, h]; decide⟩

/-- Both zeros, and nothing else, test as zero. -/
theorem isZero_iff (x : Flonum) : x.isZero = true ↔ x = .zero false ∨ x = .zero true := by
  cases x with
  | nan => simp [isZero, zero]
  | infinite negative => simp [isZero, zero]
  | finite negative m =>
    have hmagnitude : m = .zero ↔ m.place = 0 := by
      cases m
      simp [Magnitude.zero]
    simp only [isZero, beq_iff_eq, units_eq_zero_iff, zero, Flonum.finite.injEq, hmagnitude]
    cases negative <;> simp

/-! ## Words as flonums -/

/-- Rounding does not pass a double that lies above. -/
theorem nearestPlace_le {num den j : Nat} (hden : 0 < den) (h : num ≤ unitsAt j * den) :
    nearestPlace num den ≤ j := by
  have hround : RoundsTo num den (nearestPlace num den) := roundsTo_nearestPlace hden
  have hlow := hround.le.1
  by_contra hj
  have h1 : unitsAt j ≤ unitsAt (nearestPlace num den - 1) :=
    unitsAt_strictMono.monotone (by omega)
  have h2 : unitsAt j < unitsAt (nearestPlace num den) := unitsAt_strictMono (by omega)
  have hlt : (unitsAt j + unitsAt j) * den <
      (unitsAt (nearestPlace num den - 1) + unitsAt (nearestPlace num den)) * den :=
    Nat.mul_lt_mul_of_pos_right (by omega) hden
  rw [Nat.add_mul] at hlt
  omega

/-- Rounding does not pass a double that lies below. -/
theorem le_nearestPlace {num den j : Nat} (hden : 0 < den) (h : unitsAt j * den ≤ num) :
    j ≤ nearestPlace num den := by
  have hround : RoundsTo num den (nearestPlace num den) := roundsTo_nearestPlace hden
  have hhigh := hround.le.2
  by_contra hj
  have h1 : unitsAt (nearestPlace num den) < unitsAt j := unitsAt_strictMono (by omega)
  have h2 : unitsAt (nearestPlace num den + 1) ≤ unitsAt j :=
    unitsAt_strictMono.monotone (by omega)
  have hlt : (unitsAt (nearestPlace num den) + unitsAt (nearestPlace num den + 1)) * den <
      (unitsAt j + unitsAt j) * den := Nat.mul_lt_mul_of_pos_right (by omega) hden
  rw [Nat.add_mul (unitsAt j)] at hlt
  omega

theorem exists_place_wordEnd :
    ∃ j < placeCount, unitsAt j = 9223372036854775808 * unitsPerOne := by
  obtain ⟨j, hj⟩ := exists_place_shiftLeft (63 + unitExponent) 1 (by decide)
  have hend : unitsAt j = 9223372036854775808 * unitsPerOne := by
    rw [hj, unitsPerOne_eq, Nat.shiftLeft_eq, Nat.one_mul, pow_add]
    rfl
  refine ⟨j, unitsAt_strictMono.lt_iff_lt.1 ?_, hend⟩
  rw [hend]
  decide +kernel

/-- Words are far from the end of the list, so their doubles are finite. -/
theorem exists_ofInt_word (a : Fixnum) :
    ∃ m : Magnitude, Flonum.ofInt a.toInt = .finite (decide (a.toInt < 0)) m := by
  have ha := a.inRange_toInt
  obtain ⟨j, hj, hend⟩ := exists_place_wordEnd
  have hplace : nearestPlace (a.toInt.natAbs * unitsPerOne) 1 < placeCount := by
    refine (nearestPlace_le Nat.one_pos ?_).trans_lt hj
    rw [hend, Nat.mul_one]
    exact Nat.mul_le_mul_right _ (by omega)
  exact ⟨⟨_, hplace⟩, by rw [ofInt, ofFraction, nearest, dif_pos hplace]⟩

/-- Only zero rounds to zero: one is much closer to itself. -/
theorem roundsTo_zero_iff {whole : Nat} : RoundsTo (whole * unitsPerOne) 1 0 ↔ whole = 0 := by
  have hpos := unitsPerOne_pos
  have hsum : unitsAt 0 + unitsAt (0 + 1) = 1 := by decide
  have hzero : unitsAt (0 - 1) + unitsAt 0 = 0 := by decide
  rw [RoundsTo, if_pos rfl, hsum, hzero]
  constructor
  · rintro ⟨-, h⟩
    by_contra hne
    have : 1 * unitsPerOne ≤ whole * unitsPerOne := Nat.mul_le_mul_right _ (by omega)
    omega
  · rintro rfl
    omega

/-- **A word converts to a whole flonum**, and to a zero from zero only. -/
theorem ofInt_word (a : Fixnum) :
    (Flonum.ofInt a.toInt).IsWhole ∧ ((Flonum.ofInt a.toInt).isZero = true ↔ a.toInt = 0) := by
  obtain ⟨m, hm⟩ := exists_ofInt_word a
  have hround : RoundsTo (a.toInt.natAbs * unitsPerOne) 1 m.place := by
    rw [ofInt, ofFraction] at hm
    exact roundsTo_of_nearest Nat.one_pos hm
  rw [hm, ← isIntegral_iff]
  constructor
  · rw [isIntegral, beq_iff_eq]
    exact whole_of_roundsTo hround
  · rw [isZero, beq_iff_eq, units_eq_zero_iff]
    constructor
    · intro h
      rw [h, roundsTo_zero_iff] at hround
      omega
    · intro h
      rw [h, Int.natAbs_zero] at hround
      have hzero : RoundsTo (0 * unitsPerOne) 1 0 := roundsTo_zero_iff.2 rfl
      exact le_antisymm (hzero.le_of_roundsTo Nat.one_pos hround)
        (hround.le_of_roundsTo Nat.one_pos hzero)

end NumericTower.Flonum
