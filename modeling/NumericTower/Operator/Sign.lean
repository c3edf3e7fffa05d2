import NumericTower.Operator.Row
/-!
# Identity, negation, absolute value

The least fixnum's negative is a bignum, and the negative of the least
bignum above the word range is that fixnum.
-/

namespace NumericTower.UnaryRow

/-- Unary plus: the number itself. -/
def identity : UnaryRow where
  fixnum a := .ok (.fixnum a)
  bignum a := .ok (.bignum a)
  flonum x := .ok (.flonum x)

/-- The negative of a fixnum, promoted where a word does not hold it. -/
def negateFixnum (a : Fixnum) : Number :=
  match a.neg? with
  | .ok word => .fixnum word
  | .error _ => .ofInt (-a.toInt)

/-- The negative of a number. -/
def negation : UnaryRow where
  fixnum a := .ok (negateFixnum a)
  bignum a := .ok (.ofInt (-a.toInt))
  flonum x := .ok (.flonum x.neg)

/-- The absolute value of a number. -/
def magnitude : UnaryRow where
  fixnum a := .ok (if a.isNegative then negateFixnum a else .fixnum a)
  bignum a := .ok (.ofInt a.toInt.natAbs)
  flonum x := .ok (.flonum x.abs)

end NumericTower.UnaryRow
