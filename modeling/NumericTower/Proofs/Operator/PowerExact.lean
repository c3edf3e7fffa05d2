import NumericTower.Proofs.Operator.Exact
import NumericTower.Proofs.Integer.Floor
/-!
# Powers as arithmetic

A power of exact numbers is the integer power, and under a negative exponent
the reciprocal rounded down, as the division of one by the power would give
it (`power_exact`). The reciprocal is taken without the power, and fails for
the base zero only. From the exponent zero on nothing but the limit stands
between the operator and the power, and it is not asked for the bases of
magnitude one at most.
-/

namespace NumericTower

open BinaryRow Number TwosComplement

variable {v w : Int}

/-- Under a negative exponent only a base of zero fails. -/
theorem expt_apply_of_neg (hw : w < 0) (limits : Limits) :
    BinaryOp.expt.apply limits (ofInt v) (ofInt w) =
      if v = 0 then .error (.zeroDivisor BinaryOp.expt.name (ofInt 1) zero)
      else .ok (ofInt ⌊(1 / v ^ w.natAbs : ℚ)⌋) := by
  rw [BinaryOp.apply_ofInt, BinaryOp.exactOutcome, fault?_expt, if_pos hw, BinaryOp.value,
    if_neg (by omega : ¬ 0 ≤ w), floor_one_div_pow]
  split <;> rfl

/-- From the exponent zero on only the limit rejects a power. -/
theorem expt_apply_of_nonneg (hw : 0 ≤ w) (limits : Limits) :
    BinaryOp.expt.apply limits (ofInt v) (ofInt w) =
      if ¬ Fixnum.InRange (v ^ w.toNat) ∧
          (limits.maxIntegerBits < powerBits v w.toNat ∨ largestExponent < w.toNat) then
        .error (.limitExceeded BinaryOp.expt.name (powerBits v w.toNat) limits.maxIntegerBits)
      else .ok (ofInt (v ^ w.toNat)) := by
  have habs : w.natAbs = w.toNat := by omega
  rw [BinaryOp.apply_ofInt, BinaryOp.exactOutcome, fault?_expt, if_neg (by omega : ¬ w < 0),
    BinaryOp.value, if_pos hw, habs]
  split <;> rfl

/-- The powers of a base of magnitude one at most are words, and no limit is
asked for them. -/
theorem expt_apply_of_natAbs_le_one (hv : v.natAbs ≤ 1) (hw : 0 ≤ w) (limits : Limits) :
    BinaryOp.expt.apply limits (ofInt v) (ofInt w) = .ok (ofInt (v ^ w.toNat)) := by
  have hpower := natAbs_pow_le_one (n := w.toNat) (.inl hv)
  rw [expt_apply_of_nonneg hw, if_neg fun h => h.1 (by omega)]

/-- The exact quotient of one by anything but zero. -/
theorem div_apply_one (hv : v ≠ 0) (limits : Limits) :
    BinaryOp.div.apply limits (ofInt 1) (ofInt v) = .ok (ofInt (Int.fdiv 1 v)) :=
  BinaryOp.apply_ofInt_eq_ok rfl limits fun _ => hv

/-- **Exact exponentiation is exact.** What a power comes out as is the
integer power, or under a negative exponent the reciprocal rounded down. That
always comes out unless the base is zero, and is the quotient of one by the
power. So do the powers of `1` and `-1` whatever the exponent, and those of
zero from the exponent zero on. -/
theorem power_exact (limits : Limits) {a b : Number} (ha : a.Canonical) (hb : b.Canonical)
    (hv : a.toInt? = some v) (hw : b.toInt? = some w) :
    (∀ r, BinaryOp.expt.apply limits a b = .ok r →
        r.Canonical ∧
          r.toInt? = some (if 0 ≤ w then v ^ w.toNat else ⌊(1 / v ^ w.natAbs : ℚ)⌋)) ∧
      (w < 0 → v ≠ 0 →
        ∃ r, BinaryOp.expt.apply limits a b = .ok r ∧
          ∀ limits', BinaryOp.div.apply limits' (ofInt 1) (ofInt (v ^ w.natAbs)) = .ok r) ∧
      (v = 1 ∨ v = -1 ∨ (v = 0 ∧ 0 ≤ w) → ∃ r, BinaryOp.expt.apply limits a b = .ok r) := by
  obtain rfl := eq_ofInt_of_toInt? ha hv
  obtain rfl := eq_ofInt_of_toInt? hb hw
  have hreciprocal (hneg : w < 0) (hne : v ≠ 0) :
      BinaryOp.expt.apply limits (ofInt v) (ofInt w) = .ok (ofInt ⌊(1 / v ^ w.natAbs : ℚ)⌋) := by
    rw [expt_apply_of_neg hneg, if_neg hne]
  refine ⟨fun r hr => ?_, fun hneg hne => ⟨_, hreciprocal hneg hne, fun limits' => ?_⟩,
    fun hbase => ?_⟩
  · rcases lt_or_ge w 0 with hneg | hpos
    · rw [expt_apply_of_neg hneg] at hr
      split at hr
      · cases hr
      · cases hr
        rw [if_neg (by omega)]
        exact ⟨canonical_ofInt _, toInt?_ofInt _⟩
    · rw [expt_apply_of_nonneg hpos] at hr
      split at hr
      · cases hr
      · cases hr
        rw [if_pos hpos]
        exact ⟨canonical_ofInt _, toInt?_ofInt _⟩
  · rw [div_apply_one (pow_ne_zero _ hne), floor_one_div_pow]
  · rcases lt_or_ge w 0 with hneg | hpos
    · exact ⟨_, hreciprocal hneg (by omega)⟩
    · exact ⟨_, expt_apply_of_natAbs_le_one (by omega) hpos limits⟩

/-- Under a limit of no bits `(-3) ^ -41` is the quotient of one by `(-3) ^ 41`,
rounded down to minus one, `0 ^ 0` is one, and minus one has a power with an
exponent that no word holds. -/
theorem power_exact_without_room :
    (ofInt (-3)).Canonical ∧ (ofInt (-41)).Canonical ∧ (ofInt (-3)).toInt? = some (-3) ∧
      (ofInt (-41)).toInt? = some (-41) ∧ (-41 : Int) < 0 ∧ (-3 : Int) ≠ 0 ∧
      (∃ r, BinaryOp.expt.apply ⟨0⟩ (ofInt (-3)) (ofInt (-41)) = .ok r ∧ r.toInt? = some (-1) ∧
        BinaryOp.div.apply ⟨0⟩ (ofInt 1) (ofInt ((-3) ^ 41)) = .ok r) ∧
      (ofInt 0).Canonical ∧ (ofInt 0).toInt? = some 0 ∧
      (∃ r, BinaryOp.expt.apply ⟨0⟩ (ofInt 0) (ofInt 0) = .ok r ∧ r.toInt? = some 1) ∧
      (ofInt (-1)).Canonical ∧ (ofInt (-1)).toInt? = some (-1) ∧
      (ofInt 18446744073709551617).Canonical ∧
      (ofInt 18446744073709551617).toInt? = some 18446744073709551617 ∧
      ∃ r, BinaryOp.expt.apply ⟨0⟩ (ofInt (-1)) (ofInt 18446744073709551617) = .ok r := by
  have hthree := power_exact ⟨0⟩ (canonical_ofInt (-3)) (canonical_ofInt (-41)) (toInt?_ofInt (-3))
    (toInt?_ofInt (-41))
  have hzero := power_exact ⟨0⟩ (canonical_ofInt 0) (canonical_ofInt 0) (toInt?_ofInt 0)
    (toInt?_ofInt 0)
  have hone := power_exact ⟨0⟩ (canonical_ofInt (-1)) (canonical_ofInt 18446744073709551617)
    (toInt?_ofInt (-1)) (toInt?_ofInt 18446744073709551617)
  have hfloor : ⌊(1 / ((-3 : ℤ) : ℚ) ^ (-41 : ℤ).natAbs : ℚ)⌋ = -1 := by
    rw [floor_one_div_pow]
    decide
  obtain ⟨r, hr, hdiv⟩ := hthree.2.1 (by decide) (by decide)
  have hvalue := (hthree.1 r hr).2
  rw [if_neg (by decide), hfloor] at hvalue
  obtain ⟨q, hq⟩ := hzero.2.2 (.inr (.inr ⟨rfl, le_rfl⟩))
  exact ⟨canonical_ofInt _, canonical_ofInt _, toInt?_ofInt _, toInt?_ofInt _, by decide, by decide,
    ⟨r, hr, hvalue, hdiv ⟨0⟩⟩, canonical_ofInt _, toInt?_ofInt _, ⟨q, hq, (hzero.1 q hq).2⟩,
    canonical_ofInt _, toInt?_ofInt _, canonical_ofInt _, toInt?_ofInt _,
    hone.2.2 (.inr (.inl rfl))⟩

end NumericTower
