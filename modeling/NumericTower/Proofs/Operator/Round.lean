import NumericTower.Proofs.Flonum.HalfAway
import NumericTower.Proofs.Operator.Exact
import Mathlib.Data.Rat.Floor
import Mathlib.Data.Sign.Basic
/-!
# Rounding flonums

Rounding takes a flonum to the integer nearest to its value, a half away from
zero, unless the value is one of those in `RoundsPast`: these it takes one
further. The first of them is just below one half, and rounds to one.
-/

namespace NumericTower

open Number Flonum

/-- The values that rounding takes one too far: up to the sign, the last
double before one half and the odd integers from `2^52` to `2^53`. -/
def RoundsPast (q : ℚ) : Prop :=
  |q| = 1 / 2 - 1 / 2 ^ 54 ∨ ∃ v : ℤ, q = v ∧ Odd v ∧ 2 ^ 52 ≤ |v| ∧ |v| < 2 ^ 53

section

variable {negative : Bool} {m : Magnitude} {q : ℚ}

/-- The nearest whole number, in terms of the value. -/
theorem floor_abs_add_half (h : (finite negative m).toRat? = some q) :
    ⌊|q| + 1 / 2⌋ = (m.nearestWhole : ℤ) := by
  have hne : (unitsPerOne : ℚ) ≠ 0 := cast_unitsPerOne_pos.ne'
  have hsum : |q| + 1 / 2 =
      ((2 * m.units + unitsPerOne : ℕ) : ℚ) / ((2 * unitsPerOne : ℕ) : ℚ) := by
    rw [abs_eq_units_div h]
    push_cast
    field_simp
  rw [hsum, Rat.floor_natCast_div_natCast]
  rfl

/-- The last double before one half is `2^-54` away from it. -/
theorem abs_eq_last_iff (h : (finite negative m).toRat? = some q) :
    |q| = 1 / 2 - 1 / 2 ^ 54 ↔ 2 * (m.units + 2 ^ (unitExponent - 54)) = unitsPerOne := by
  have hne : (unitsPerOne : ℚ) ≠ 0 := cast_unitsPerOne_pos.ne'
  obtain ⟨half, hhalf, -⟩ := exists_half
  obtain ⟨p, hp, hspacing⟩ := exists_spacing hhalf
  have hone : unitsPerOne = 18014398509481984 * 2 ^ p := by omega
  have hone' : (unitsPerOne : ℚ) = 18014398509481984 * 2 ^ p := by exact_mod_cast hone
  rw [abs_eq_units_div h, div_eq_iff hne, hp, Nat.add_sub_cancel]
  constructor
  · intro hq
    have hsum : 2 * ((m.units : ℚ) + 2 ^ p) = unitsPerOne := by
      rw [hq, hone']
      ring
    exact_mod_cast hsum
  · intro hunits
    have hsum : 2 * ((m.units : ℚ) + 2 ^ p) = unitsPerOne := by exact_mod_cast hunits
    rw [hone'] at hsum ⊢
    linarith

/-- The magnitudes that overshoot are those of the values listed. -/
theorem overshoots_iff (h : (finite negative m).toRat? = some q) :
    m.Overshoots ↔ RoundsPast q := by
  rw [Magnitude.Overshoots, RoundsPast, abs_eq_last_iff h]
  have hrun : runLength = 4503599627370496 := rfl
  refine or_congr_right ⟨?_, ?_⟩
  · rintro ⟨c, low, high, hodd, hunits⟩
    have habs : |if negative then -(c : ℤ) else c| = c := by cases negative <;> simp
    have hvalue : (finite negative m).toRat? =
        some ((if negative then -(c : ℤ) else c : ℤ) : ℚ) := by
      rw [toRat?_finite_eq_iff, signedUnits, hunits]
      cases negative <;> simp
    refine ⟨if negative then -(c : ℤ) else c, Option.some_inj.1 (h.symm.trans hvalue), ?_, ?_⟩
    · rw [← Int.natAbs_odd, ← Int.natAbs_abs, habs, Int.natAbs_natCast]
      exact Nat.odd_iff.2 hodd
    · rw [habs]
      omega
  · rintro ⟨v, rfl, hodd, low, high⟩
    have hunits : m.units = v.natAbs * unitsPerOne := by
      rw [← natAbs_signedUnits negative m, toRat?_finite_eq_iff.1 h, Int.natAbs_mul,
        Int.natAbs_natCast]
    rw [Int.abs_eq_natAbs] at low high
    exact ⟨v.natAbs, by omega, by omega, Nat.odd_iff.1 (Int.natAbs_odd.2 hodd), hunits⟩

/-- A value has the sign of its flonum, unless it is zero. -/
theorem sign_mul (h : (finite negative m).toRat? = some q) {whole : ℕ}
    (hzero : m.units = 0 → whole = 0) :
    (SignType.sign q : ℤ) * whole = if negative then -(whole : ℤ) else whole := by
  have hone : (0 : ℚ) < unitsPerOne := cast_unitsPerOne_pos
  have hq := eq_signedUnits_div h
  rcases Nat.eq_zero_or_pos m.units with hunits | hunits
  · rw [hzero hunits]
    simp
  have hunits' : (0 : ℚ) < m.units := by exact_mod_cast hunits
  cases negative with
  | true =>
    have hneg : q < 0 := by
      rw [hq, signedUnits, if_pos rfl]
      push_cast
      exact div_neg_of_neg_of_pos (by linarith) hone
    rw [sign_neg hneg]
    simp
  | false =>
    have hpos : 0 < q := by
      rw [hq, signedUnits, if_neg Bool.false_ne_true]
      exact div_pos hunits' hone
    rw [sign_pos hpos]
    simp

end

/-- A flonum is rounded as a flonum and then made exact. -/
theorem round_apply_flonum (x : Flonum) :
    UnaryOp.round.apply (.flonum x) = exactOf UnaryOp.round.name x.roundHalfAway := rfl

/-- **Rounding is to the nearest integer, a half away from zero**, except
that some values are taken one too far. -/
theorem round_flonum {x : Flonum} {q : ℚ} (h : x.toRat? = some q) :
    (¬RoundsPast q → (UnaryOp.round.apply (.flonum x)).IsInteger
        (SignType.sign q * ⌊|q| + 1 / 2⌋)) ∧
      (RoundsPast q → (UnaryOp.round.apply (.flonum x)).IsInteger
        (SignType.sign q * (⌊|q| + 1 / 2⌋ + 1))) := by
  cases x with
  | nan => cases h
  | infinite negative => cases h
  | finite negative m =>
    obtain ⟨whole, hint, hnear, hpast⟩ := toInt?_roundHalfAway negative m
    have happly : UnaryOp.round.apply (.flonum (.finite negative m)) =
        .ok (ofInt (if negative then -(whole : ℤ) else whole)) := by
      rw [round_apply_flonum, exactOf_eq_ofInt hint]
    have hzero (hunits : m.units = 0) : whole = 0 := by
      rw [hnear (Magnitude.not_overshoots_of_units_eq_zero hunits),
        Magnitude.nearestWhole_of_units_eq_zero hunits]
    rw [← overshoots_iff h, floor_abs_add_half h, happly]
    constructor
    · intro hover
      rw [← hnear hover, sign_mul h hzero]
      exact Outcome.isInteger_ofInt _
    · intro hover
      rw [← Nat.cast_succ, Nat.succ_eq_add_one, ← hpast hover, sign_mul h hzero]
      exact Outcome.isInteger_ofInt _

/-- Two and a half rounds to three, and the greatest value that rounds too
far to the even integer above it. -/
theorem round_flonum_both_ways :
    let x : Flonum := .finite true ⟨4612811918334230528, by decide⟩
    let y : Flonum := .finite false ⟨4845873199050653695, by decide⟩
    (x.toRat? = some (-5 / 2) ∧ ¬RoundsPast (-5 / 2) ∧
      (UnaryOp.round.apply (.flonum x)).IsInteger (-3)) ∧
    y.toRat? = some 9007199254740991 ∧ RoundsPast 9007199254740991 ∧
      (UnaryOp.round.apply (.flonum y)).IsInteger 9007199254740992 := by
  have hx : (Flonum.finite true ⟨4612811918334230528, by decide⟩).toRat? = some (-5 / 2) := by
    decide +kernel
  have hy : (Flonum.finite false ⟨4845873199050653695, by decide⟩).toRat? =
      some 9007199254740991 := by
    decide +kernel
  have hnear : ¬RoundsPast (-5 / 2) := by
    rintro (h | ⟨v, h, -⟩)
    · norm_num at h
    · have hdouble : (2 * v : ℚ) = -5 := by rw [← h]; norm_num
      have hdouble' : 2 * v = -5 := by exact_mod_cast hdouble
      omega
  have hpast : RoundsPast 9007199254740991 :=
    .inr ⟨9007199254740991, by norm_num, by decide, by norm_num, by norm_num⟩
  refine ⟨⟨hx, hnear, ?_⟩, hy, hpast, ?_⟩
  · have h := (round_flonum hx).1 hnear
    have hfloor : ⌊|(-5 / 2 : ℚ)| + 1 / 2⌋ = 3 := by norm_num
    rwa [hfloor, sign_neg (by norm_num)] at h
  · have h := (round_flonum hy).2 hpast
    have hfloor : ⌊|(9007199254740991 : ℚ)| + 1 / 2⌋ = 9007199254740991 := by norm_num
    rwa [hfloor, sign_pos (by norm_num)] at h

/-- The last double before one half rounds to one. -/
theorem round_last_before_half :
    ¬∀ (x : Flonum) (q : ℚ), x.toRat? = some q →
      (UnaryOp.round.apply (.flonum x)).IsInteger (SignType.sign q * ⌊|q| + 1 / 2⌋) := by
  intro h
  let m : Magnitude := ⟨4602678819172646911, by decide⟩
  obtain ⟨n, hn, -, hv⟩ := h (.finite false m) _ rfl
  have happly : UnaryOp.round.apply (.flonum (.finite false m)) = .ok (.fixnum (.ofInt 1)) := by
    decide +kernel
  have hnear : m.nearestWhole = 0 := by decide +kernel
  obtain ⟨⟩ := hn.symm.trans happly
  rw [floor_abs_add_half (m := m) rfl, hnear, Nat.cast_zero, mul_zero] at hv
  exact absurd hv (by decide)

end NumericTower
