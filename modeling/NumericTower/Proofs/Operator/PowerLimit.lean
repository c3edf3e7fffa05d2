import NumericTower.Proofs.Operator.Exact
/-!
# What the limit says of a power

The limit is compared with the bits that a power needs at least, one less
than the base's for each factor. Of a base that is a power of two that is
all of them, and of any other one not: `3 ^ 41` passes a limit of 64 bits
with 65 (`power_past_limit`).

Of a base of `n` bits `n - 1` are counted, so a power can pass the limit by
the factor `n / (n - 1)` at most: by little if the base is long, and never by
two (`power_bitLength_lt`). This holds under any limit short of the greatest
one. That one is met by every count, since counts past the machine words
stand at it.
-/

namespace NumericTower

open Number TwosComplement

namespace BinaryRow

/-- One over anything is no further from zero than one. -/
theorem inRange_fdiv_one (x : Int) : Fixnum.InRange (Int.fdiv 1 x) := by
  rcases (by omega : 2 ≤ x ∨ x ≤ -2 ∨ x = -1 ∨ x = 0 ∨ x = 1) with h | h | rfl | rfl | rfl
  · rw [fdiv_one_of_two_le h]
    decide
  · rw [fdiv_one_of_le_neg_two h]
    decide
  all_goals decide

/-- **A power that is a bignum has passed the limit**, with the bits that it
needs at least. -/
theorem powerBits_le_of_apply_eq_bignum {limits : Limits} {v w : Int} {r : Bignum}
    (h : BinaryOp.expt.apply limits (ofInt v) (ofInt w) = .ok (.bignum r)) :
    r.toInt = v ^ w.natAbs ∧ (2 ≤ v.natAbs ∧ w.natAbs ≠ 0) ∧
      powerBits v w.natAbs ≤ limits.maxIntegerBits := by
  rw [BinaryOp.apply_ofInt, BinaryOp.exactOutcome, Outcome.ofFault_eq_ok_iff, fault?_expt] at h
  obtain ⟨hfault, hvalue⟩ := h
  have hin : ¬ Fixnum.InRange (BinaryOp.expt.value v w) :=
    kind_ofInt.1 (by rw [hvalue]; rfl)
  rw [ofInt_of_not_inRange hin, Number.bignum.injEq] at hvalue
  have hw : 0 ≤ w := by
    by_contra hneg
    rw [BinaryOp.value, if_neg hneg] at hin
    exact hin (inRange_fdiv_one _)
  rw [BinaryOp.value, if_pos hw] at hin hvalue
  have hbits : ¬ limits.maxIntegerBits < powerBits v w.natAbs := by
    intro hlimit
    rw [if_neg (by omega), if_pos ⟨hin, .inl hlimit⟩] at hfault
    cases hfault
  exact ⟨by rw [← hvalue], two_le_of_not_inRange_pow hin, UInt64.not_lt.1 hbits⟩

end BinaryRow

open BinaryRow

/-- **How far a power may pass the limit.** Under any limit short of the
greatest one, a power that comes out as a bignum has at most `n / (n - 1)`
times the bits below the limit, if its base has `n`. These are fewer than
twice the bits of the limit, and no more than the limit if the base is a
power of two up to its sign. -/
theorem power_bitLength_lt {limits : Limits}
    (hlimit : limits.maxIntegerBits.toNat < 18446744073709551615) {a b : Number}
    (ha : a.Canonical) (hb : b.Canonical) {v w : Int} (hv : a.toInt? = some v)
    (hw : b.toInt? = some w) {r : Bignum}
    (h : BinaryOp.expt.apply limits a b = .ok (.bignum r)) :
    r.toInt = v ^ w.natAbs ∧
      (bitLength v - 1) * bitLength r.toInt ≤
        bitLength v * (limits.maxIntegerBits.toNat - 1) ∧
      bitLength r.toInt < 2 * limits.maxIntegerBits.toNat ∧
      ((∃ k, v.natAbs = 2 ^ k) → bitLength r.toInt ≤ limits.maxIntegerBits.toNat) := by
  obtain rfl := eq_ofInt_of_toInt? ha hv
  obtain rfl := eq_ofInt_of_toInt? hb hw
  obtain ⟨hr, ⟨hbase, hexponent⟩, hbits⟩ := powerBits_le_of_apply_eq_bignum h
  have hlong := two_le_bitLength hbase
  have hchecked : (bitLength v - 1) * w.natAbs + 1 ≤ limits.maxIntegerBits.toNat := by
    rw [powerBits, UInt64.le_iff_toNat_le, Limits.toNat_saturated] at hbits
    omega
  have hpower := bitLength_pow_le_mul v hexponent
  rw [hr]
  refine ⟨rfl, ?_, ?_, ?_⟩
  · calc (bitLength v - 1) * bitLength (v ^ w.natAbs)
        ≤ (bitLength v - 1) * (bitLength v * w.natAbs) := Nat.mul_le_mul_left _ hpower
      _ = bitLength v * ((bitLength v - 1) * w.natAbs) := Nat.mul_left_comm _ _ _
      _ ≤ bitLength v * (limits.maxIntegerBits.toNat - 1) := Nat.mul_le_mul_left _ (by omega)
  · have htwice : bitLength v * w.natAbs ≤ 2 * ((bitLength v - 1) * w.natAbs) := by
      rw [← Nat.mul_assoc]
      exact Nat.mul_le_mul_right _ (by omega)
    omega
  · rintro ⟨k, hk⟩
    have hexact : k ≤ bitLength v - 1 := by
      have hshort : ¬ bitLength v ≤ k := by rw [bitLength_le_iff]; omega
      omega
    have hplaces := bitLength_pow_le hk.le w.natAbs
    have := Nat.mul_le_mul_right w.natAbs hexact
    omega

/-- `3 ^ 41` has 65 bits, which is past a limit of 64 and short of 128. Of
the two bits of its base one is counted. -/
theorem power_bitLength_lt_three :
    let r : Bignum := ⟨36472996377170786403⟩
    (64 : UInt64).toNat < 18446744073709551615 ∧ (ofInt 3).Canonical ∧ (ofInt 41).Canonical ∧
      (ofInt 3).toInt? = some 3 ∧ (ofInt 41).toInt? = some 41 ∧
      BinaryOp.expt.apply ⟨64⟩ (ofInt 3) (ofInt 41) = .ok (.bignum r) ∧
      r.toInt = 3 ^ (41 : Int).natAbs ∧
      (bitLength 3 - 1) * bitLength r.toInt ≤ bitLength 3 * ((64 : UInt64).toNat - 1) ∧
      bitLength r.toInt < 2 * (64 : UInt64).toNat := by
  have hlimit : (⟨64⟩ : Limits).maxIntegerBits.toNat < 18446744073709551615 := by decide
  have hpower : BinaryOp.expt.apply ⟨64⟩ (ofInt 3) (ofInt 41) =
      .ok (.bignum ⟨36472996377170786403⟩) := by decide +kernel
  have h := power_bitLength_lt hlimit (canonical_ofInt 3) (canonical_ofInt 41)
    (toInt?_ofInt 3) (toInt?_ofInt 41) hpower
  exact ⟨hlimit, canonical_ofInt 3, canonical_ofInt 41, toInt?_ofInt 3, toInt?_ofInt 41, hpower,
    h.1, h.2.1, h.2.2.1⟩

/-- **The limit itself is no bound**: `3 ^ 41` is longer than the 64 bits that
it was admitted under. -/
theorem power_past_limit :
    ¬ ∀ (limits : Limits) (a b : Number) (r : Bignum), a.Canonical → b.Canonical →
      a.isExact = true → b.isExact = true → BinaryOp.expt.apply limits a b = .ok (.bignum r) →
        bitLength r.toInt ≤ limits.maxIntegerBits.toNat := by
  intro hall
  have h := hall ⟨64⟩ (ofInt 3) (ofInt 41) ⟨36472996377170786403⟩ (canonical_ofInt 3)
    (canonical_ofInt 41) rfl rfl (by decide +kernel)
  exact absurd h (by decide +kernel)

end NumericTower
