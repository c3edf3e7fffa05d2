import NumericTower.Proofs.Operator.ShiftExact
/-!
# Opposite shifts

A shift to the right by a negative amount is the shift to the left by the
opposite one, and the other way round (`shiftRight_eq_shiftLeft_neg`): the
same number, or the same error under the other name.

The two do not ask the limit for the same results, though. The left shift
spares each result that a word holds, and the right shift none that it takes
upwards. So under a limit of less than sixty-four bits the right shift may
reject a word that the left shift gives (`shiftRight_up_past_limit`).
-/

namespace NumericTower

open BinaryRow Number TwosComplement

/-- The error as an operator of another name reports it. -/
def NumericError.renamed (operation : String) : NumericError → NumericError
  | .zeroDivisor _ dividend divisor => .zeroDivisor operation dividend divisor
  | .typeMismatch _ expected actual => .typeMismatch operation expected actual
  | .shiftTooLarge _ amount => .shiftTooLarge operation amount
  | .limitExceeded _ requiredBits maxBits => .limitExceeded operation requiredBits maxBits
  | .notFinite _ value => .notFinite operation value
  | .parse input reason => .parse input reason
  | .defect _ cause => .defect operation cause

/-- A shift upwards, by an amount below zero to the right, that makes a word
with more bits than the limit. -/
def WordPastLimit (limits : Limits) (v n : Int) : Prop :=
  n < 0 ∧ v ≠ 0 ∧ Fixnum.InRange (v * 2 ^ n.natAbs) ∧
    limits.maxIntegerBits.toNat < bitLength v + n.natAbs

section

variable {limits : Limits} {v n : Int}

/-- A word has at most sixty-four bits. -/
theorem WordPastLimit.bits_le (h : WordPastLimit limits v n) :
    bitLength v + n.natAbs ≤ 64 := by
  obtain ⟨-, hv, hrange, -⟩ := h
  rw [← Int.shiftLeft_eq] at hrange
  rw [← bitLength_shiftLeft hv, bitLength_le_iff]
  omega

/-- What the left shift compares with the limit, the right shift does too. -/
theorem compared_of_compared_left (h : 0 ≤ -n ∧ ¬ Fixnum.InRange (v <<< n.natAbs)) :
    v ≠ 0 ∧ n ≤ 0 ∧ (n = 0 → ¬ Fixnum.InRange v) := by
  obtain ⟨hn, hrange⟩ := h
  refine ⟨ne_zero_of_not_inRange_shiftLeft hrange, by omega, ?_⟩
  rintro rfl
  rwa [Int.natAbs_zero, Int.shiftLeft_zero] at hrange

/-- And the shifts that make a word past the limit are what it compares
besides. -/
theorem wordPastLimit_iff :
    WordPastLimit limits v n ↔
      ((v ≠ 0 ∧ n ≤ 0 ∧ (n = 0 → ¬ Fixnum.InRange v)) ∧
          limits.maxIntegerBits < shiftBits v n) ∧
        ¬ ((0 ≤ -n ∧ ¬ Fixnum.InRange (v <<< n.natAbs)) ∧
          limits.maxIntegerBits < shiftBits v n) := by
  constructor
  · intro h
    have hbits := h.bits_le
    obtain ⟨hn, hv, hrange, hlimit⟩ := h
    rw [← Int.shiftLeft_eq] at hrange
    refine ⟨⟨⟨hv, hn.le, fun h0 => absurd h0 hn.ne⟩, ?_⟩, fun hleft => hleft.1.2 hrange⟩
    rw [shiftBits, UInt64.lt_iff_toNat_lt, Limits.toNat_saturated]
    omega
  · rintro ⟨⟨⟨hv, hn, hzero⟩, hlimit⟩, hleft⟩
    have hrange : Fixnum.InRange (v <<< n.natAbs) := by
      by_contra hrange
      exact hleft ⟨⟨by omega, hrange⟩, hlimit⟩
    have hne : n ≠ 0 := by
      rintro rfl
      exact hzero rfl (by rwa [Int.natAbs_zero, Int.shiftLeft_zero] at hrange)
    rw [shiftBits, UInt64.lt_iff_toNat_lt, Limits.toNat_saturated] at hlimit
    rw [Int.shiftLeft_eq] at hrange
    exact ⟨by omega, hv, hrange, by omega⟩

end

/-- **A shift to the right by a negative amount is the opposite shift to the
left**, with the same number or the same error, unless it makes a word that
is past the limit. This the right shift rejects and the left shift gives. No
limit of sixty-four bits or more tells the two apart. -/
theorem shiftRight_eq_shiftLeft_neg (limits : Limits) {a : Number} (ha : a.Canonical) {v : Int}
    (hv : a.toInt? = some v) {n : Fixnum} (hn : n ≠ .least) :
    (¬ WordPastLimit limits v n.toInt →
        BinaryOp.shiftRight.apply limits a (.fixnum n) =
          (BinaryOp.shiftLeft.apply limits a (ofInt (-n.toInt))).mapError
            (.renamed BinaryOp.shiftRight.name)) ∧
      (WordPastLimit limits v n.toInt →
        BinaryOp.shiftRight.apply limits a (.fixnum n) =
            .error (.limitExceeded BinaryOp.shiftRight.name (shiftBits v n.toInt)
              limits.maxIntegerBits) ∧
          (BinaryOp.shiftLeft.apply limits a (ofInt (-n.toInt))).IsInteger
            (v * 2 ^ n.toInt.natAbs)) ∧
      (64 ≤ limits.maxIntegerBits.toNat → ¬ WordPastLimit limits v n.toInt) := by
  obtain rfl := eq_ofInt_of_toInt? ha hv
  have hrange := n.inRange_toInt
  have hleast : n.toInt ≠ -9223372036854775808 := by
    rwa [← Fixnum.toInt_least, ne_eq, Fixnum.toInt_inj]
  rw [← ofInt_toInt n, BinaryOp.shiftRight_apply hrange,
    BinaryOp.shiftLeft_apply (by omega : Fixnum.InRange (-n.toInt)), BinaryOp.value_shiftRight,
    shiftBits, shiftBits, Int.natAbs_neg, ← shiftBits]
  refine ⟨fun hnone => ?_, fun hpast => ?_, fun hlimit hpast => ?_⟩
  · rw [wordPastLimit_iff, not_and_not_right] at hnone
    by_cases hleft : (0 ≤ -n.toInt ∧ ¬ Fixnum.InRange (v <<< n.toInt.natAbs)) ∧
        limits.maxIntegerBits < shiftBits v n.toInt
    · rw [if_pos hleft, if_pos ⟨compared_of_compared_left hleft.1, hleft.2⟩]
      rfl
    · rw [if_neg hleft, if_neg fun hright => hleft (hnone hright)]
      rfl
  · have hup : -n.toInt = (n.toInt.natAbs : ℕ) := by have := hpast.1; omega
    obtain ⟨hright, hleft⟩ := wordPastLimit_iff.1 hpast
    rw [if_pos hright, if_neg hleft, hup, BinaryOp.value_shiftLeft_natCast]
    exact ⟨rfl, Outcome.isInteger_ofInt _⟩
  · have := hpast.bits_le
    have := hpast.2.2.2
    omega

/-- Minus one shifted up by a hundred places is past a limit of 64 bits, and
both operators say so. One shifted up by one place is past a limit of one
bit, and the left shift gives it. -/
theorem shiftRight_eq_shiftLeft_neg_both_ways :
    (ofInt (-1)).Canonical ∧ (ofInt (-1)).toInt? = some (-1) ∧
      Fixnum.ofInt (-100) ≠ .least ∧ ¬ WordPastLimit ⟨64⟩ (-1) (Fixnum.ofInt (-100)).toInt ∧
      BinaryOp.shiftLeft.apply ⟨64⟩ (ofInt (-1)) (ofInt (-(Fixnum.ofInt (-100)).toInt)) =
        .error (.limitExceeded "shift-left" 101 64) ∧
      BinaryOp.shiftRight.apply ⟨64⟩ (ofInt (-1)) (.fixnum (.ofInt (-100))) =
        .error (.limitExceeded "shift-right" 101 64) ∧
      (ofInt 1).Canonical ∧ (ofInt 1).toInt? = some 1 ∧ Fixnum.negOne ≠ .least ∧
      WordPastLimit ⟨1⟩ 1 Fixnum.negOne.toInt ∧
      BinaryOp.shiftRight.apply ⟨1⟩ (ofInt 1) (.fixnum .negOne) =
        .error (.limitExceeded "shift-right" 2 1) ∧
      (BinaryOp.shiftLeft.apply ⟨1⟩ (ofInt 1) (ofInt (-Fixnum.negOne.toInt))).IsInteger 2 := by
  have hleast : Fixnum.ofInt (-100) ≠ .least := by decide
  have hleast' : Fixnum.negOne ≠ .least := by decide
  have hboth := shiftRight_eq_shiftLeft_neg ⟨64⟩ (canonical_ofInt (-1)) (toInt?_ofInt (-1)) hleast
  have hone := shiftRight_eq_shiftLeft_neg ⟨1⟩ (canonical_ofInt 1) (toInt?_ofInt 1) hleast'
  have hnone := hboth.2.2 (by decide)
  have hleft : BinaryOp.shiftLeft.apply ⟨64⟩ (ofInt (-1)) (ofInt (-(Fixnum.ofInt (-100)).toInt)) =
      .error (.limitExceeded "shift-left" 101 64) := rfl
  have hright := hboth.1 hnone
  rw [hleft] at hright
  have hpast : WordPastLimit ⟨1⟩ 1 Fixnum.negOne.toInt :=
    ⟨by decide, by decide, by decide, by decide⟩
  exact ⟨canonical_ofInt _, toInt?_ofInt _, hleast, hnone, hleft, hright, canonical_ofInt _,
    toInt?_ofInt _, hleast', hpast, (hone.2.1 hpast).1, (hone.2.1 hpast).2⟩

/-- **The two shifts differ under small limits**: one shifted up by one place
makes two, which has one bit more than a limit of one allows. The left shift
gives it, and the right shift does not. -/
theorem shiftRight_up_past_limit :
    ¬ ∀ (limits : Limits) (a : Number) (v : Int) (n : Fixnum), a.Canonical →
      a.toInt? = some v → n ≠ .least →
        BinaryOp.shiftRight.apply limits a (.fixnum n) =
          (BinaryOp.shiftLeft.apply limits a (ofInt (-n.toInt))).mapError
            (.renamed BinaryOp.shiftRight.name) := by
  intro hall
  have h := hall ⟨1⟩ (ofInt 1) 1 .negOne (canonical_ofInt 1) (toInt?_ofInt 1) (by decide)
  have hright : BinaryOp.shiftRight.apply ⟨1⟩ (ofInt 1) (.fixnum .negOne) =
      .error (.limitExceeded "shift-right" 2 1) := rfl
  have hleft : BinaryOp.shiftLeft.apply ⟨1⟩ (ofInt 1) (ofInt (-Fixnum.negOne.toInt)) =
      .ok (ofInt 2) := rfl
  rw [hright, hleft] at h
  cases h

end NumericTower
