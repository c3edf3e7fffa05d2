import NumericTower.Flonum.Integral
import NumericTower.Proofs.Flonum.Places
/-!
# Rounding to the nearest double

`Flonum.nearest` in terms of the place that it rounds to, its two ends, and
truncation, which rounds nothing.
-/

namespace NumericTower.Flonum

theorem nearest_of_roundsTo (negative : Bool) {m : Magnitude} {num den : Nat} (hden : 0 < den)
    (h : RoundsTo num den m.place) : nearest negative num den = .finite negative m := by
  have hplace : nearestPlace num den = m.place := (nearestPlace_eq_iff hden).2 h
  simp only [nearest, hplace, m.place_lt, dif_pos]

/-- A finite result is the place that was rounded to. -/
theorem roundsTo_of_nearest {negative : Bool} {m : Magnitude} {num den : Nat} (hden : 0 < den)
    (h : nearest negative num den = .finite negative m) : RoundsTo num den m.place := by
  rw [nearest] at h
  split at h
  · cases h
    exact roundsTo_nearestPlace hden
  · cases h

/-- Up to half the smallest double there is only zero. -/
theorem nearest_of_le_half (negative : Bool) {num den : Nat} (hden : 0 < den)
    (h : 2 * num ≤ den) : nearest negative num den = .zero negative := by
  refine nearest_of_roundsTo negative hden ?_
  have hsum : unitsAt 0 + unitsAt (0 + 1) = 1 := by decide
  have hzero : unitsAt (0 - 1) + unitsAt 0 = 0 := by decide
  change RoundsTo num den 0
  rw [RoundsTo, if_pos rfl, hsum, hzero]
  omega

/-- From the end of the list on everything is infinite. -/
theorem nearest_of_le_num (negative : Bool) {num den : Nat} (hden : 0 < den)
    (h : unitsAt placeCount * den ≤ num) : nearest negative num den = .infinite negative := by
  rw [nearest]
  split
  · rename_i hplace
    exfalso
    have hround : 2 * num ≤ _ := (roundsTo_nearestPlace hden).le.2
    have h1 := unitsAt_strictMono hplace
    have h2 := unitsAt_strictMono.monotone (Nat.succ_le_of_lt hplace)
    have hlt : (unitsAt (nearestPlace num den) + unitsAt (nearestPlace num den + 1)) * den <
        (unitsAt placeCount + unitsAt placeCount) * den :=
      Nat.mul_lt_mul_of_pos_right (Nat.add_lt_add_of_lt_of_le h1 h2) hden
    rw [Nat.add_mul (unitsAt placeCount)] at hlt
    omega
  · rfl

/-- **What is a double already is not rounded.** -/
theorem nearest_units (negative : Bool) (m : Magnitude) {den : Nat} (hden : 0 < den) :
    nearest negative (m.units * den) den = .finite negative m := by
  have hplace : nearestPlace (m.units * den) den = m.place := nearestPlace_unitsAt m.place hden
  simp only [nearest, hplace, m.place_lt, dif_pos]

/-- Fractions of one value are rounded alike. -/
theorem nearest_congr (negative : Bool) {num den num' den' : Nat} (hden : 0 < den)
    (hden' : 0 < den') (h : num * den' = num' * den) :
    nearest negative num den = nearest negative num' den' := by
  simp only [nearest, nearestPlace_congr hden hden' h]

/-! ## Truncation -/

/-- A whole number that is a double is rounded to that double. -/
theorem ofWhole_of_units (negative : Bool) {m : Magnitude} {whole : Nat}
    (h : m.units = whole * unitsPerOne) : ofWhole negative whole = .finite negative m := by
  rw [ofWhole, ofFraction, ← h, ← Nat.mul_one m.units]
  exact nearest_units negative m Nat.one_pos

/-- **Truncation is exact.** -/
theorem exists_trunc_eq (negative : Bool) (m : Magnitude) :
    ∃ t : Magnitude, t.units = wholeBelow m * unitsPerOne ∧
      trunc (.finite negative m) = .finite negative t := by
  obtain ⟨j, hle, hj⟩ := exists_place_whole m.place
  exact ⟨⟨j, hle.trans_lt m.place_lt⟩, hj, ofWhole_of_units negative hj⟩

theorem wholeBelow_of_units {t : Magnitude} {whole : Nat} (h : t.units = whole * unitsPerOne) :
    wholeBelow t = whole := by
  rw [wholeBelow, h, Nat.mul_div_cancel _ unitsPerOne_pos]

end NumericTower.Flonum
