import NumericTower.Operator.Apply
import NumericTower.Proofs.Canonical.Outcome
/-!
# Unary operators keep numbers canonical

Unlike the cells of two operands, some of these return their operand or
report it, so a canonical operand is asked for throughout.
-/

namespace NumericTower

namespace UnaryRow

theorem canonical_roundingBy (op : UnaryOp) (round : Flonum → Flonum) {a : Number}
    (ha : a.Canonical) : Outcome.Canonical ((roundingBy op round).run a) := by
  cases a with
  | fixnum a => simp [run, roundingBy]
  | bignum a => simpa [run, roundingBy] using ha
  | flonum x => exact canonical_exactOf op.name (round x)

theorem canonical_negateFixnum (a : Fixnum) : (negateFixnum a).Canonical := by
  rw [negateFixnum]
  split <;> simp

theorem canonical_rejectNegative {n : Number} (hn : n.Canonical) :
    Outcome.Canonical (rejectNegative n) := by
  simpa [rejectNegative, NumericError.numbers] using hn

theorem canonical_sqrtFixnum (a : Fixnum) : Outcome.Canonical (sqrtFixnum a) := by
  rw [sqrtFixnum]
  split
  · exact canonical_rejectNegative (Number.canonical_fixnum a)
  dsimp only
  -- the root is exact, or a double
  split
  · simp [NumericError.numbers]
  · split <;> simp

theorem canonical_sqrtBignum {a : Bignum} (ha : (Number.bignum a).Canonical) :
    Outcome.Canonical (sqrtBignum a) := by
  rw [sqrtBignum]
  split
  · exact canonical_rejectNegative ha
  dsimp only
  split
  · simp
  · split <;> simp

end UnaryRow

open UnaryRow in
/-- **A step of one operand.** -/
theorem canonical_applyUnary (op : UnaryOp) {a : Number} (ha : a.Canonical) :
    Outcome.Canonical (op.apply a) := by
  cases op with
  | plus =>
    cases a with
    | bignum a => simpa [UnaryOp.apply, UnaryOp.row, identity, run] using ha
    | _ => simp [UnaryOp.apply, UnaryOp.row, identity, run]
  | negate =>
    cases a <;> simp [UnaryOp.apply, UnaryOp.row, negation, run, canonical_negateFixnum]
  | abs =>
    cases a with
    | fixnum a =>
      -- a negative word goes by way of negation, which minds the least one
      simp only [UnaryOp.apply, UnaryOp.row, magnitude, run]
      split <;> simp [canonical_negateFixnum]
    | bignum a => simp [UnaryOp.apply, UnaryOp.row, magnitude, run]
    | flonum x => simp [UnaryOp.apply, UnaryOp.row, magnitude, run]
  | bitNot =>
    cases a <;> simp [UnaryOp.apply, UnaryOp.row, UnaryRow.bitNot, run, NumericError.numbers]
  | round => exact canonical_roundingBy .round Flonum.roundHalfAway ha
  | floor => exact canonical_roundingBy .floor Flonum.floor ha
  | ceiling => exact canonical_roundingBy .ceiling Flonum.ceil ha
  | truncate => exact canonical_roundingBy .truncate Flonum.trunc ha
  | fractionalPart =>
    cases a with
    | flonum x => cases x <;> simp [UnaryOp.apply, UnaryOp.row, fractionalPart, run]
    | _ => simp [UnaryOp.apply, UnaryOp.row, fractionalPart, run, Number.zero]
  | sqrt =>
    cases a with
    | fixnum a => exact canonical_sqrtFixnum a
    | bignum a => exact canonical_sqrtBignum ha
    | flonum x =>
      simp only [UnaryOp.apply, UnaryOp.row, squareRoot, run]
      split
      · exact canonical_rejectNegative (Number.canonical_flonum x)
      · simp

end NumericTower
