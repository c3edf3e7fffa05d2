import NumericTower.Proofs.Flonum.Rounding
/-!
# Relative errors

Past the first places one step is at most a `2^52`th of the value, so that a
rounding changes a value by at most a `2^53`th of it. How far several roundings
lead is counted by `Within`, a relation of rationals that says the same of both,
so that it can be followed from a result back to what was rounded, and added up
along the way (`Within.trans`).
-/

namespace NumericTower

open Flonum

/-! ## Steps -/

/-- How far one rounding leads: half a step, as a part of the value. -/
def unitRoundoff : ℚ := 1 / 2 ^ 53

theorem one_le_one_add_unitRoundoff : 1 ≤ 1 + unitRoundoff := by
  rw [unitRoundoff]
  norm_num

section

variable {i : Nat}

/-- One step is a `2^52`th of the value at most. -/
theorem unitsAt_succ_le (h : runLength ≤ i) :
    (unitsAt (i + 1) : ℚ) ≤ unitsAt i * (1 + 2 * unitRoundoff) := by
  rcases place_cases i with hi | ⟨q, e, low, high, rfl⟩
  · exact absurd hi h.not_gt
  · have hnext : q + e * runLength + 1 = q + 1 + e * runLength := by omega
    have hrun : (2 ^ 52 : ℚ) ≤ q := by exact_mod_cast low
    have hstep : (q + 1 : ℚ) ≤ q * (1 + 2 * unitRoundoff) := by
      rw [unitRoundoff]
      linarith
    rw [hnext, unitsAt_run_mul low high.le, unitsAt_run_mul (by omega) (by omega)]
    calc (((q + 1) * 2 ^ e : Nat) : ℚ) = (q + 1) * 2 ^ e := by push_cast; rfl
      _ ≤ q * (1 + 2 * unitRoundoff) * 2 ^ e := mul_le_mul_of_nonneg_right hstep (by positivity)
      _ = ((q * 2 ^ e : Nat) : ℚ) * (1 + 2 * unitRoundoff) := by push_cast; ring

/-- The middle after a place is within one rounding of it, -/
theorem middle_le (h : runLength ≤ i) :
    (unitsAt i + unitsAt (i + 1) : ℚ) ≤ 2 * unitsAt i * (1 + unitRoundoff) := by
  have hstep := unitsAt_succ_le h
  linarith

/-- and so is the middle before the next one. -/
theorem le_middle (h : runLength ≤ i) :
    (2 * unitsAt (i + 1) : ℚ) ≤ (unitsAt i + unitsAt (i + 1)) * (1 + unitRoundoff) := by
  have hstep := unitsAt_succ_le h
  rw [unitRoundoff] at hstep ⊢
  linarith

end

/-! ## Within a number of roundings -/

/-- Neither of two rationals exceeds the other by more than so many factors
`1 + 2^-53`. -/
structure Within (k : Nat) (p q : ℚ) : Prop where
  le : p ≤ q * (1 + unitRoundoff) ^ k
  ge : q ≤ p * (1 + unitRoundoff) ^ k

namespace Within

variable {j k : Nat} {p q r : ℚ}

theorem pos (hq : 0 < q) (h : Within k p q) : 0 < p := by
  have hfactor : 0 < (1 + unitRoundoff) ^ k :=
    pow_pos (zero_lt_one.trans_le one_le_one_add_unitRoundoff) k
  exact (mul_pos_iff_of_pos_right hfactor).1 (hq.trans_le h.ge)

/-- Roundings add up. -/
theorem trans (hpq : Within j p q) (hqr : Within k q r) : Within (j + k) p r := by
  have hfactor : 0 ≤ 1 + unitRoundoff := zero_le_one.trans one_le_one_add_unitRoundoff
  constructor
  · calc p ≤ q * (1 + unitRoundoff) ^ j := hpq.le
      _ ≤ r * (1 + unitRoundoff) ^ k * (1 + unitRoundoff) ^ j :=
          mul_le_mul_of_nonneg_right hqr.le (pow_nonneg hfactor j)
      _ = r * (1 + unitRoundoff) ^ (j + k) := by ring
  · calc r ≤ q * (1 + unitRoundoff) ^ k := hqr.ge
      _ ≤ p * (1 + unitRoundoff) ^ j * (1 + unitRoundoff) ^ k :=
          mul_le_mul_of_nonneg_right hpq.ge (pow_nonneg hfactor k)
      _ = p * (1 + unitRoundoff) ^ (j + k) := by ring

/-- Squaring counts every rounding twice. -/
theorem mul_self (hp : 0 ≤ p) (hq : 0 ≤ q) (h : Within k p q) : Within (k + k) (p * p) (q * q) := by
  constructor
  · calc p * p ≤ q * (1 + unitRoundoff) ^ k * (q * (1 + unitRoundoff) ^ k) :=
          mul_self_le_mul_self hp h.le
      _ = q * q * (1 + unitRoundoff) ^ (k + k) := by ring
  · calc q * q ≤ p * (1 + unitRoundoff) ^ k * (p * (1 + unitRoundoff) ^ k) :=
          mul_self_le_mul_self hq h.ge
      _ = p * p * (1 + unitRoundoff) ^ (k + k) := by ring

/-- The relation does not depend on the unit. -/
theorem div_right {u : ℚ} (hu : 0 < u) (h : Within k p q) : Within k (p / u) (q / u) := by
  constructor
  · rw [div_mul_eq_mul_div]
    exact div_le_div_of_nonneg_right h.le hu.le
  · rw [div_mul_eq_mul_div]
    exact div_le_div_of_nonneg_right h.ge hu.le

/-- Three roundings change a value by less than four times a `2^53`th of it. -/
theorem abs_sub_le (hq : 0 ≤ q) (h : Within 3 p q) : |p - q| ≤ q / 2 ^ 51 := by
  obtain ⟨hp, hq'⟩ := h
  -- the cube of a factor is less than `1 + 4 * 2^-53`, which is all that is needed
  rw [unitRoundoff] at hp hq'
  norm_num at hp hq' ⊢
  rw [abs_le]
  constructor
  · linarith
  · linarith

end Within

/-! ## Rounding a fraction -/

/-- **A place is within one rounding of what rounds to it**, past the first run
of places. -/
theorem RoundsTo.within {num den i : Nat} (hden : 0 < den) (hi : runLength < i)
    (h : RoundsTo num den i) : Within 1 (unitsAt i) (num / den) := by
  obtain ⟨j, rfl⟩ : ∃ j, i = j + 1 := ⟨i - 1, by omega⟩
  have hpos : (0 : ℚ) < den := Nat.cast_pos.2 hden
  obtain ⟨hlow, hhigh⟩ := h.le
  rw [Nat.add_sub_cancel] at hlow
  have hlow' : (unitsAt j + unitsAt (j + 1) : ℚ) ≤ 2 * (num / den) := by
    rw [← mul_div_assoc, le_div_iff₀ hpos]
    exact_mod_cast hlow
  have hhigh' : (2 * (num / den) : ℚ) ≤ unitsAt (j + 1) + unitsAt (j + 1 + 1) := by
    rw [← mul_div_assoc, div_le_iff₀ hpos]
    exact_mod_cast hhigh
  have hfactor : 0 ≤ 1 + unitRoundoff := zero_le_one.trans one_le_one_add_unitRoundoff
  constructor
  · -- the middle before the place is counted from the place before it
    have hmiddle := le_middle (by omega : runLength ≤ j)
    have hscaled := mul_le_mul_of_nonneg_right hlow' hfactor
    rw [pow_one]
    linarith
  · have hmiddle := middle_le (by omega : runLength ≤ j + 1)
    rw [pow_one]
    linarith

/-- The place of `2^54` units, the first one of the third run. -/
theorem unitsAt_three_runs : unitsAt (3 * runLength) = 2 ^ 54 := by decide

/-- **A double is within one rounding of the fraction that it is nearest to**,
unless that is next to zero. -/
theorem within_nearest {num den : Nat} {p : ℚ} (hden : 0 < den) (hlarge : 2 ^ 54 * den ≤ num)
    (h : (nearest false num den).toRat? = some p) : Within 1 p (num / (den * unitsPerOne)) := by
  rw [nearest] at h
  split at h
  · have hplace : 3 * runLength ≤ nearestPlace num den :=
      le_nearestPlace hden (by rwa [unitsAt_three_runs])
    have hrun := runLength_pos
    have hround : RoundsTo num den (nearestPlace num den) := roundsTo_nearestPlace hden
    obtain rfl := eq_units_div_of_toRat? h
    rw [← div_div]
    exact (hround.within hden (by omega)).div_right cast_unitsPerOne_pos
  · cases h

/-! ## Converting an integer -/

theorem two_pow_le_unitsPerOne {k : Nat} (h : k ≤ 1074) : 2 ^ k ≤ unitsPerOne := by
  rw [unitsPerOne_eq]
  refine Nat.pow_le_pow_right (by decide) ?_
  unfold unitExponent
  exact h

theorem ofInt_natCast (v : Nat) : ofInt v = nearest false (v * unitsPerOne) 1 := by
  rw [ofInt, ofFraction, Int.natAbs_natCast, decide_eq_false (Int.natCast_nonneg v).not_gt]

/-- **An integer is converted within one rounding**: it is far from zero. -/
theorem within_ofInt {v : Nat} {p : ℚ} (hv : 0 < v) (h : (ofInt v).toRat? = some p) :
    Within 1 p v := by
  have hlarge : 2 ^ 54 * 1 ≤ v * unitsPerOne :=
    (two_pow_le_unitsPerOne (k := 54) (by decide)).trans (Nat.le_mul_of_pos_left unitsPerOne hv)
  rw [ofInt_natCast] at h
  have hwithin := within_nearest Nat.one_pos hlarge h
  rwa [Nat.cast_one, one_mul, Nat.cast_mul, mul_div_cancel_right₀ _ cast_unitsPerOne_pos.ne']
    at hwithin

end NumericTower
