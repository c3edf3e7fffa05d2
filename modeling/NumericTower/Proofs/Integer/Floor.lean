import Mathlib.Data.Rat.Floor
/-!
# Floors of quotients

The integer quotient that is rounded down is the floor of the rational one
(`floor_div_eq_fdiv`), for divisors of either sign and for a divisor zero as
well, where both are zero. A shift downwards is such a quotient by a power
of two.

What the quotient leaves over is smaller than the divisor, and on the
divisor's side of zero.
-/

namespace NumericTower

theorem floor_div_eq_fdiv (v w : ℤ) : ⌊(v / w : ℚ)⌋ = v.fdiv w := by
  -- a negative divisor gives its sign to the dividend
  have hnonneg (v : ℤ) {w : ℤ} (hw : 0 ≤ w) : ⌊(v / w : ℚ)⌋ = v.fdiv w := by
    lift w to ℕ using hw
    rw [Int.cast_natCast, Rat.floor_intCast_div_natCast,
      Int.fdiv_eq_ediv_of_nonneg v (Int.natCast_nonneg w)]
  rcases le_total 0 w with hw | hw
  · exact hnonneg v hw
  · rw [← Int.neg_fdiv_neg, ← hnonneg (-v) (neg_nonneg.2 hw), Int.cast_neg, Int.cast_neg,
      neg_div_neg_eq]

theorem floor_div_two_pow (v : ℤ) (k : ℕ) : ⌊(v / 2 ^ k : ℚ)⌋ = v >>> k := by
  have hcast : (2 : ℚ) ^ k = (2 ^ k : ℕ) := by push_cast; rfl
  rw [hcast, Rat.floor_intCast_div_natCast, Int.shiftRight_eq_div_pow]

theorem floor_one_div_pow (v : ℤ) (n : ℕ) : ⌊(1 / v ^ n : ℚ)⌋ = Int.fdiv 1 (v ^ n) := by
  rw [← floor_div_eq_fdiv, Int.cast_one, Int.cast_pow]

/-! ## What is left over -/

theorem cast_fmod_eq (v w : ℤ) : ((v.fmod w : ℤ) : ℚ) = v - w * ⌊(v / w : ℚ)⌋ := by
  rw [floor_div_eq_fdiv, Int.fmod_def, Int.cast_sub, Int.cast_mul]

theorem abs_fmod_lt (v : ℤ) {w : ℤ} (hw : w ≠ 0) : |v.fmod w| < |w| := by
  have hpos (v : ℤ) {w : ℤ} (hw : 0 < w) : |v.fmod w| < |w| := by
    rw [abs_of_nonneg (Int.fmod_nonneg_of_pos v hw), abs_of_pos hw]
    exact Int.fmod_lt_of_pos v hw
  rcases lt_or_gt_of_ne hw with hneg | hpos'
  · rw [← abs_neg (v.fmod w), ← Int.neg_fmod_neg, ← abs_neg w]
    exact hpos (-v) (neg_pos.2 hneg)
  · exact hpos v hpos'

theorem fmod_eq_zero_or_sign_eq (v : ℤ) {w : ℤ} (hw : w ≠ 0) :
    v.fmod w = 0 ∨ (v.fmod w).sign = w.sign := by
  refine or_iff_not_imp_left.2 fun hne => ?_
  rcases lt_or_gt_of_ne hw with hneg | hpos
  · have hle := Int.fmod_nonneg_of_pos (-v) (neg_pos.2 hneg)
    rw [Int.neg_fmod_neg] at hle
    rw [Int.sign_eq_neg_one_of_neg (by omega), Int.sign_eq_neg_one_of_neg hneg]
  · have hle := Int.fmod_nonneg_of_pos v hpos
    rw [Int.sign_eq_one_of_pos (by omega), Int.sign_eq_one_of_pos hpos]

end NumericTower
