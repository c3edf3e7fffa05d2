import NumericTower.Proofs.Operator.Integers
/-!
# Powers of exact numbers

A power is known without being computed when the exponent is negative or
the base has a magnitude of one at most. Every other power is compared with
the limit, unless two words make a word — and since a power of a bignum, or
with an exponent that is one, is never a word (`not_inRange_pow`), all of
that is said of integers alone (`power_cell_eq`).
-/

namespace NumericTower.BinaryRow

open Number TwosComplement

theorem fdiv_one_of_two_le {x : Int} (h : 2 ≤ x) : Int.fdiv 1 x = 0 := by
  rw [Int.fdiv_eq_ediv_of_nonneg 1 (by omega), Int.ediv_eq_zero_of_lt (by omega) (by omega)]

theorem fdiv_one_of_le_neg_two {x : Int} (h : x ≤ -2) : Int.fdiv 1 x = -1 := by
  have hdown : ¬ (0 ≤ x ∨ x ∣ 1) := by
    rintro (hx | hx)
    · omega
    · have := Int.le_of_dvd (by decide) (Int.neg_dvd.2 hx)
      omega
  have hdiv : (1 : Int) / -x = 0 := Int.ediv_eq_zero_of_lt (by omega) (by omega)
  rw [Int.fdiv_eq_ediv, if_neg hdown, ← Int.neg_neg x, Int.ediv_neg, hdiv]
  rfl

theorem fdiv_one_pow_of_two_le {v : Int} {n : Nat} (hv : 2 ≤ v) (hn : n ≠ 0) :
    Int.fdiv 1 (v ^ n) = 0 := by
  have : v ≤ v ^ n := le_self_pow₀ (by omega) hn
  exact fdiv_one_of_two_le (by omega)

/-- Below zero the exponent's parity is the power's sign. -/
theorem fdiv_one_pow_of_le_neg_two {v : Int} {n : Nat} (hv : v ≤ -2) (hn : n ≠ 0) :
    Int.fdiv 1 (v ^ n) = if Odd n then -1 else 0 := by
  have hle : -v ≤ (-v) ^ n := le_self_pow₀ (by omega) hn
  rcases Nat.even_or_odd n with he | ho
  · rw [he.neg_pow] at hle
    rw [if_neg (Nat.not_odd_iff_even.2 he), fdiv_one_of_two_le (by omega)]
  · rw [ho.neg_pow] at hle
    rw [if_pos ho, fdiv_one_of_le_neg_two (by omega)]

/-- **A reciprocal is known without its power.** Past magnitude one the
power is past it too, and only the sign of the reciprocal is left. -/
theorem reciprocalPower_eq {v w : Int} (hv : v ≠ 0) (hw : w < 0) :
    reciprocalPower v w = .ok (.ofInt (Int.fdiv 1 (v ^ w.natAbs))) := by
  have hn : w.natAbs ≠ 0 := by omega
  have hodd : w.natAbs % 2 = 1 ↔ Odd w.natAbs := Nat.odd_iff.symm
  simp only [reciprocalPower, if_neg hv, hodd]
  rcases (by omega : v = 1 ∨ v = -1 ∨ 2 ≤ v ∨ v ≤ -2) with rfl | rfl | hpos | hneg
  · rw [if_pos rfl, one_pow]
    rfl
  · rw [if_neg (by decide), if_pos rfl]
    rcases Nat.even_or_odd w.natAbs with he | ho
    · rw [if_neg (Nat.not_odd_iff_even.2 he), he.neg_one_pow]
      rfl
    · rw [if_pos ho, ho.neg_one_pow]
      rfl
  · rw [if_neg (by omega), if_neg (by omega), if_pos (by omega), fdiv_one_pow_of_two_le hpos hn]
    rfl
  · rw [if_neg (by omega), if_neg (by omega), if_neg (by omega),
      fdiv_one_pow_of_le_neg_two hneg hn]
    split <;> rfl

/-! ## Powers that stay and powers that grow -/

/-- The bases `-1`, `0` and `1`, and the exponent zero. -/
theorem natAbs_pow_le_one {v : Int} {n : Nat} (h : v.natAbs ≤ 1 ∨ n = 0) :
    (v ^ n).natAbs ≤ 1 := by
  rw [Int.natAbs_pow]
  rcases h with h | rfl
  · exact pow_le_one₀ (Nat.zero_le _) h
  · rw [pow_zero]

/-- So neither is at work in a power that no word holds. -/
theorem two_le_of_not_inRange_pow {v : Int} {n : Nat} (h : ¬ Fixnum.InRange (v ^ n)) :
    2 ≤ v.natAbs ∧ n ≠ 0 := by
  by_contra hsmall
  have := natAbs_pow_le_one (v := v) (n := n) (by omega)
  omega

/-- **Only small operands make a word.** A base past the words stays past
them, and from the exponent sixty-four on every power is too long. -/
theorem not_inRange_pow {v : Int} {n : Nat} (hv : 2 ≤ v.natAbs) (hn : n ≠ 0)
    (h : ¬ Fixnum.InRange v ∨ 64 ≤ n) : ¬ Fixnum.InRange (v ^ n) := by
  rcases h with h | h
  · rcases Int.le_total 0 v with hpos | hneg
    · have : v ≤ v ^ n := le_self_pow₀ (by omega) hn
      omega
    · have hle : v.natAbs ≤ v.natAbs ^ n := le_self_pow₀ (by omega) hn
      rw [← Int.natAbs_pow] at hle
      omega
  · intro hin
    have hgrowth := bitLength_growth_le (by omega : v ≠ 0) n
    have hlong := two_le_bitLength hv
    have hlen : bitLength (v ^ n) ≤ 64 := by rw [bitLength_le_iff]; omega
    have : 1 * n ≤ (bitLength v - 1) * n := Nat.mul_le_mul_right n (by omega)
    omega

/-- The lower bound of a power's bits, as it is reported. -/
def powerBits (v : Int) (n : Nat) : UInt64 := Limits.saturated ((bitLength v - 1) * n + 1)

/-- **The large powers in one case.** An exponent past the machine words is
reported like one that is merely never computed with: both counts of bits
stand at the largest word. -/
theorem largePower_eq {limits : Limits} {v : Int} {n : Nat} (hv : 2 ≤ v.natAbs) :
    largePower limits v n =
      if limits.maxIntegerBits < powerBits v n ∨ largestExponent < n then
        .error (.limitExceeded BinaryOp.expt.name (powerBits v n) limits.maxIntegerBits)
      else .ok (.ofInt (v ^ n)) := by
  have hlong := two_le_bitLength hv
  have hgrowth : 1 * n ≤ (bitLength v - 1) * n := Nat.mul_le_mul_right n (by omega)
  rw [largePower]
  split
  · rename_i hbound
    have hn : 18446744073709551616 ≤ n := hbound
    have hbits : Limits.saturated n = powerBits v n := by
      rw [powerBits, ← UInt64.toNat_inj, Limits.toNat_saturated, Limits.toNat_saturated]
      omega
    rw [if_pos (.inr (by unfold largestExponent; omega)), hbits]
  · dsimp only
    rw [if_neg (by omega), ← powerBits, Limits.checkIntegerBits, integerPower_eq]
    by_cases hlimit : limits.maxIntegerBits < powerBits v n
    · simp only [hlimit, if_true, true_or]
    · simp only [hlimit, if_false, false_or]

/-! ## The cells -/

/-- The rules for powers of integers: a zero base below, and the limit
above. -/
theorem fault?_expt (limits : Limits) (v w : Int) :
    BinaryOp.expt.fault? limits (ofInt v) (ofInt w) =
      if w < 0 then
        if v = 0 then some (.zeroDivisor BinaryOp.expt.name (ofInt 1) zero) else none
      else if ¬ Fixnum.InRange (v ^ w.natAbs) ∧
          (limits.maxIntegerBits < powerBits v w.natAbs ∨ largestExponent < w.natAbs) then
        some (.limitExceeded BinaryOp.expt.name (powerBits v w.natAbs) limits.maxIntegerBits)
      else none := by
  rw [BinaryOp.fault?_ofInt]
  by_cases hw : w < 0
  · have hw' : ¬ 0 ≤ w := by omega
    by_cases hv : v = 0 <;>
      simp [BinaryOp.hasDivisor, BinaryOp.isShift, BinaryOp.limitFault?, BinaryOp.checkedBits?,
        hw, hw', hv]
  · have hw' : 0 ≤ w := by omega
    by_cases hin : Fixnum.InRange (v ^ w.natAbs) <;>
      simp [BinaryOp.hasDivisor, BinaryOp.isShift, BinaryOp.limitFault?, BinaryOp.checkedBits?,
        hw, hw', hin, powerBits]

/-- The integer cell reaches the outcome of its integers, except that it
compares powers with the limit which a word would hold. -/
theorem powerIntegers_eq_exactOutcome {limits : Limits} {v w : Int}
    (h : 0 ≤ w → Fixnum.InRange (v ^ w.natAbs) → v.natAbs ≤ 1 ∨ w.natAbs = 0) :
    powerIntegers limits v w = BinaryOp.expt.exactOutcome limits v w := by
  rw [BinaryOp.exactOutcome, fault?_expt, BinaryOp.value]
  by_cases hw : w < 0
  · rw [powerIntegers, if_pos hw, if_pos hw]
    by_cases hv : v = 0
    · rw [if_pos hv, reciprocalPower, if_pos hv]
      rfl
    · rw [if_neg hv, if_neg (by omega : ¬ 0 ≤ w), reciprocalPower_eq hv hw]
      rfl
  have hw' : 0 ≤ w := by omega
  rw [if_neg hw, if_pos hw']
  by_cases hsmall : v.natAbs ≤ 1 ∨ w.natAbs = 0
  · have hone := natAbs_pow_le_one hsmall
    rw [powerIntegers_of_le_one hw' hsmall, if_neg (by rintro ⟨hin, -⟩; omega)]
    rfl
  · have hin : ¬ Fixnum.InRange (v ^ w.natAbs) := fun hin => hsmall (h hw' hin)
    push Not at hsmall
    rw [powerIntegers, if_neg hw, if_neg (by omega), if_neg (by omega), if_neg (by omega),
      largePower_eq (by omega)]
    simp only [hin, not_false_eq_true, true_and]
    split <;> rfl

/-- **Powers of exact operands**, whatever represents them. -/
theorem power_cell_eq (limits : Limits) (v w : Int) :
    (power limits).cell (ofInt v) (ofInt w) = BinaryOp.expt.exactOutcome limits v w := by
  refine (row_widens .expt limits).cell_eq ?_ ?_ v w
  · intro a b
    change (power limits).fixnums a b = _
    simp only [power]
    split
    · rename_i hb
      rw [Fixnum.pow?_eq, show b.toInt.toNat = b.toInt.natAbs by omega]
      by_cases hin : Fixnum.InRange (a.toInt ^ b.toInt.natAbs)
      · -- a word holds the power, and nothing is compared
        rw [Fixnum.ofInt?, if_pos hin, promote, BinaryOp.exactOutcome, fault?_expt,
          if_neg (by omega), if_neg (fun hlimit => hlimit.1 hin), BinaryOp.value, if_pos hb.1,
          ofInt_of_inRange hin]
        rfl
      · rw [Fixnum.ofInt?, if_neg hin, promote]
        exact powerIntegers_eq_exactOutcome fun _ h => absurd h hin
    · rename_i hb
      refine powerIntegers_eq_exactOutcome fun hw hin => ?_
      -- the exponent is past the largest one, so no word comes of it
      by_contra hsmall
      push Not at hsmall
      have : largestExponent < b.toInt.natAbs := by omega
      exact not_inRange_pow (by omega) (by omega) (.inr (by unfold largestExponent at this; omega))
        hin
  · intro v w hvw
    refine powerIntegers_eq_exactOutcome fun hw hin => ?_
    by_contra hsmall
    push Not at hsmall
    exact not_inRange_pow (by omega) (by omega) (hvw.imp_right fun h => by omega) hin

end NumericTower.BinaryRow
