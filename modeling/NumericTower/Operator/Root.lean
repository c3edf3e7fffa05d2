import NumericTower.Operator.Row
/-!
# Square roots

The root of a perfect square is exact, any other root a flonum. There are
no roots of numbers below zero; `-0.0` is its own root.

The root of an integer past the double range is taken in integers: it has
more bits than a double keeps, so what it lacks is lost to rounding
anyway.
-/

namespace NumericTower.UnaryRow

/-- What a number below zero gets. -/
def rejectNegative (n : Number) : Outcome :=
  .error (.typeMismatch UnaryOp.sqrt.name "nonnegative real" n)

/-- The root of a word; its integer root squared is a word again. -/
def sqrtFixnum (a : Fixnum) : Outcome :=
  if a.isNegative then rejectNegative (.fixnum a)
  else
    let root := Fixnum.ofInt a.toInt.natAbs.sqrt
    match root.mul? root with
    | .error _ => .error (.defect UnaryOp.sqrt.name .squareOverflow)
    | .ok square =>
      if square = a then .ok (.fixnum root) else .ok (.flonum (Flonum.ofInt a.toInt).sqrt)

/-- The root of an integer of any size. -/
def sqrtBignum (a : Bignum) : Outcome :=
  if a.isNegative then rejectNegative (.bignum a)
  else
    let root := a.toInt.natAbs.sqrt
    if root * root = a.toInt.natAbs then .ok (.ofInt root)
    else
      let approximation := Flonum.ofInt a.toInt
      if approximation.isFinite then .ok (.flonum approximation.sqrt)
      else .ok (.flonum (.ofInt root))

/-- The square root of any number. -/
def squareRoot : UnaryRow where
  fixnum := sqrtFixnum
  bignum := sqrtBignum
  flonum x := if x.isNegative then rejectNegative (.flonum x) else .ok (.flonum x.sqrt)

end NumericTower.UnaryRow
