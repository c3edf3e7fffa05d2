import NumericTower.Operator.Row
/-!
# Addition, subtraction, multiplication

Words first, integers of any size when a word overflows, IEEE arithmetic
as soon as a flonum takes part. An exact zero factor is the exception to
that last rule: it makes the product exact zero whatever the other factor
is.
-/

namespace NumericTower.BinaryRow

/-- The sum of integers of any size. -/
def addIntegers (a b : Int) : Outcome := .ok (.ofInt (a + b))

/-- Addition. -/
def sum : BinaryRow where
  fixnums a b := promote (a.add? b) addIntegers a b
  integers := addIntegers
  flonums x y := .ok (.flonum (x.add y))

/-- The difference of integers of any size. -/
def subIntegers (a b : Int) : Outcome := .ok (.ofInt (a - b))

/-- Subtraction. -/
def difference : BinaryRow where
  fixnums a b := promote (a.sub? b) subIntegers a b
  integers := subIntegers
  flonums x y := .ok (.flonum (x.sub y))

/-- The product of integers of any size. -/
def mulIntegers (a b : Int) : Outcome := .ok (.ofInt (a * b))

/-- The product of flonums. -/
def mulFlonums (x y : Flonum) : Outcome := .ok (.flonum (x.mul y))

/-- Multiplication, with its rule for an exact zero. -/
def product : BinaryRow where
  fixnums a b := promote (a.mul? b) mulIntegers a b
  integers := mulIntegers
  flonums := mulFlonums
  fixnumBignum a b := if a.isZero then .ok .zero else mulIntegers a.toInt b.toInt
  bignumFixnum a b := if b.isZero then .ok .zero else mulIntegers a.toInt b.toInt
  fixnumFlonum a y := if a.isZero then .ok .zero else mulFlonums (.ofInt a.toInt) y
  flonumFixnum x b := if b.isZero then .ok .zero else mulFlonums x (.ofInt b.toInt)

end NumericTower.BinaryRow
