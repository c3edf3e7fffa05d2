import NumericTower.Proofs.Flonum.NearestValue
import NumericTower.Proofs.Flonum.Root
import NumericTower.Proofs.Operator.PerfectSquare
/-!
# How far inexact roots are off

A root that is not exact is found on one of two paths. If the integer converts
to a finite double, its root is rounded after the conversion was; past the
double range the integer root is cut off, and converted. Either way the square of
the result is three roundings away from the integer at most
(`exists_within_inexactRoot`), and the result is finite up to the square of what
a double can hold.
-/

namespace NumericTower

open UnaryRow Number Flonum

/-! ## Past the double range -/

theorem two_pow_le_roundingEnd : (2 ^ 112 : ℚ) ≤ roundingEnd := by
  have hpow : (2 ^ 112 : ℚ) ≤ 2 ^ 970 := pow_le_pow_right₀ one_le_two (by decide)
  rw [roundingEnd]
  generalize (2 : ℚ) ^ 970 = scale at hpow ⊢
  linarith

/-- The square of the end of the range is past `2^2047`. -/
theorem two_pow_lt_roundingEnd_mul_self : (2 ^ 2047 : ℚ) < roundingEnd * roundingEnd := by
  have hpow : (2 ^ 2047 : ℚ) = 2 ^ 107 * (2 ^ 970 * 2 ^ 970) := by
    rw [← pow_add, ← pow_add]
  have hscale : (0 : ℚ) < 2 ^ 970 * 2 ^ 970 := by positivity
  rw [hpow, roundingEnd]
  calc (2 ^ 107 * (2 ^ 970 * 2 ^ 970) : ℚ) < (2 ^ 54 - 1) * (2 ^ 54 - 1) * (2 ^ 970 * 2 ^ 970) :=
        mul_lt_mul_of_pos_right (by norm_num) hscale
    _ = (2 ^ 54 - 1) * 2 ^ 970 * ((2 ^ 54 - 1) * 2 ^ 970) := by
        generalize (2 : ℚ) ^ 970 = scale
        ring

/-- What an integer root cuts off is less than one rounding, where it has more
bits than a double keeps. -/
theorem within_sqrt_mul_self {v : Nat} (h : 2 ^ 112 ≤ v) :
    Within 1 (v.sqrt * v.sqrt) v := by
  have hroot : 2 ^ 56 ≤ v.sqrt := by
    rw [Nat.le_sqrt, ← pow_add]
    exact h
  have hroot' : (2 ^ 56 : ℚ) ≤ v.sqrt := by exact_mod_cast hroot
  have hlow : (v.sqrt * v.sqrt : ℚ) ≤ v := by exact_mod_cast Nat.sqrt_le v
  have hhigh : (v : ℚ) ≤ v.sqrt * v.sqrt + v.sqrt + v.sqrt := by exact_mod_cast Nat.sqrt_le_add v
  -- twice the root is a small part of its square
  have hstep := mul_le_mul_of_nonneg_right hroot' (Nat.cast_nonneg v.sqrt)
  constructor
  · rw [pow_one, unitRoundoff]
    linarith
  · rw [pow_one, unitRoundoff]
    linarith

theorem isNearest_ofInt_natCast (v : Nat) : (Flonum.ofInt v).IsNearest v := by
  rw [← Int.cast_natCast]
  exact isNearest_ofInt v

/-- **The second path**: the root is cut off, and converted. -/
theorem exists_within_ofInt_sqrt {v : Nat} (hend : v < 2 ^ 2047) (hlow : roundingEnd ≤ v) :
    ∃ p, (Flonum.ofInt v.sqrt).toRat? = some p ∧ Within 3 (p * p) v := by
  have hlarge : 2 ^ 112 ≤ v := by exact_mod_cast two_pow_le_roundingEnd.trans hlow
  have hpos : 0 < v.sqrt := Nat.sqrt_pos.2 (hlarge.trans_lt' (by decide))
  have hsquare : (v.sqrt * v.sqrt : ℚ) < roundingEnd * roundingEnd := by
    calc (v.sqrt * v.sqrt : ℚ) ≤ v := by exact_mod_cast Nat.sqrt_le v
      _ < 2 ^ 2047 := by exact_mod_cast hend
      _ < roundingEnd * roundingEnd := two_pow_lt_roundingEnd_mul_self
  have hrange : |(v.sqrt : ℚ)| < roundingEnd := by
    rw [Nat.abs_cast]
    exact lt_of_mul_self_lt_mul_self₀ roundingEnd_pos.le hsquare
  obtain ⟨p, hp⟩ := (isNearest_ofInt_natCast v.sqrt).exists_toRat? hrange
  have hroot : (0 : ℚ) < v.sqrt := Nat.cast_pos.2 hpos
  have hwithin := within_ofInt hpos hp
  exact ⟨p, hp, (hwithin.mul_self (hwithin.pos hroot).le hroot.le).trans
    (within_sqrt_mul_self hlarge)⟩

/-! ## Both paths -/

/-- **Three roundings at most** lie between an integer and the square of its
root. -/
theorem exists_within_inexactRoot {v : Nat} (hpos : 0 < v) (hend : v < 2 ^ 2047) :
    ∃ p, (inexactRoot v).toRat? = some p ∧ Within 3 (p * p) v := by
  have hnearest := isNearest_ofInt_natCast v
  rw [inexactRoot]
  split
  · rename_i hfinite
    -- one rounding for the conversion, and one for the root, which squaring counts twice
    obtain ⟨q, hq⟩ := hnearest.exists_toRat? (hnearest.isFinite_iff.1 hfinite)
    have hwithin := within_ofInt hpos hq
    obtain ⟨p, hp, hroot⟩ := exists_within_sqrt hq (hwithin.pos (Nat.cast_pos.2 hpos))
    exact ⟨p, hp, hroot.trans hwithin⟩
  · rename_i hinfinite
    rw [hnearest.isFinite_iff, Nat.abs_cast, not_lt] at hinfinite
    exact exists_within_ofInt_sqrt hend hinfinite

/-- The next integer after a square is none. -/
theorem not_isSquare_mul_self_add_one {k : Int} (hk : 0 < k) : ¬ IsSquare (k * k + 1) := by
  rintro ⟨r, hr⟩
  have hlow : k < |r| := by
    refine lt_of_mul_self_lt_mul_self₀ (abs_nonneg r) ?_
    rw [abs_mul_abs_self]
    omega
  have hhigh : |r| < k + 1 := by
    refine lt_of_mul_self_lt_mul_self₀ (by omega) ?_
    rw [abs_mul_abs_self, ← hr]
    linarith
  omega

/-- **Inexact roots are accurate.** The root of an integer below `2^2047` that is
no perfect square is a finite double, and its square differs from the integer by
at most a `2^51`th of it. -/
theorem sqrt_accurate {n : Number} {v : Int} (hv : n.toInt? = some v) (hpos : 0 < v)
    (hend : v < 2 ^ 2047) (hsquare : ¬ IsSquare v) :
    ∃ x p, UnaryOp.sqrt.apply n = .ok (.flonum x) ∧ x.toRat? = some p ∧
      |p * p - v| ≤ v / 2 ^ 51 := by
  obtain ⟨k, rfl⟩ := Int.eq_ofNat_of_zero_le hpos.le
  obtain ⟨p, hp, hwithin⟩ :=
    exists_within_inexactRoot (Int.natCast_pos.1 hpos) (by exact_mod_cast hend)
  refine ⟨inexactRoot k, p, ?_, hp, hwithin.abs_sub_le (Nat.cast_nonneg k)⟩
  rw [sqrt_apply_of_toInt? hv, rootOf_of_not_isSquare (Int.isSquare_natCast_iff.not.1 hsquare)]

/-- An integer next to a square, past the double range. -/
theorem sqrt_accurate_past_range :
    let n : Number := .bignum ⟨2 ^ 2000 + 1⟩
    n.toInt? = some (2 ^ 2000 + 1) ∧ (0 : Int) < 2 ^ 2000 + 1 ∧ (2 ^ 2000 + 1 : Int) < 2 ^ 2047 ∧
      ¬ IsSquare (2 ^ 2000 + 1 : Int) ∧
      ∃ x p, UnaryOp.sqrt.apply n = .ok (.flonum x) ∧ x.toRat? = some p ∧
        |p * p - (2 ^ 2000 + 1 : Int)| ≤ (2 ^ 2000 + 1 : Int) / 2 ^ 51 := by
  intro n
  have hscale : (0 : Int) < 2 ^ 1000 := by positivity
  have hsquare : (2 ^ 2000 : Int) = 2 ^ 1000 * 2 ^ 1000 := by rw [← pow_add]
  have hends : (2 ^ 2047 : Int) = 2 ^ 47 * 2 ^ 2000 := by rw [← pow_add]
  have hpos : (0 : Int) < 2 ^ 2000 := by positivity
  have hpos' : (0 : Int) < 2 ^ 2000 + 1 := by omega
  have hend : (2 ^ 2000 + 1 : Int) < 2 ^ 2047 := by omega
  have hne : ¬ IsSquare (2 ^ 2000 + 1 : Int) := by
    rw [hsquare]
    exact not_isSquare_mul_self_add_one hscale
  exact ⟨rfl, hpos', hend, hne, sqrt_accurate rfl hpos' hend hne⟩

end NumericTower
