import NumericTower.Operator.Row
/-!
# Division, quotient, modulo

A zero divisor, exact or not, is rejected before the kinds are looked at.
Exact division rounds down, since the tower has no rationals, and the
modulo is what that leaves over, with the sign of the divisor.

Modulo takes flonums if they are integral. Against a bignum it works on
exact integers and rounds the result only, because a bignum past the
double range would be infinite before it could be reduced.
-/

namespace NumericTower.BinaryRow

/-- The check that the division family shares. -/
def rejectZeroDivisor (op : BinaryOp) (a b : Number) : Except NumericError Unit :=
  if b.isZero then .error (.zeroDivisor op.name a b) else .ok ()

/-- The quotient of integers of any size, rounded down. -/
def divideIntegers (op : BinaryOp) (a b : Int) : Outcome :=
  if b = 0 then .error (.defect op.name .zeroDivisor) else .ok (.ofInt (a.fdiv b))

/-- The quotient of words, rounded down; only the least word divided by minus
one is promoted. -/
def divideFixnums (op : BinaryOp) (a b : Fixnum) : Outcome :=
  if b.isZero then .error (.defect op.name .zeroDivisor)
  else promote (a.floorDiv? b) (divideIntegers op) a b

/-- Division: rounded down between exact operands, IEEE otherwise. -/
def division : BinaryRow where
  precheck := rejectZeroDivisor .div
  fixnums := divideFixnums .div
  integers := divideIntegers .div
  flonums x y := .ok (.flonum (x.div y))

/-- Division rounded down, of exact operands only. -/
def quotient : BinaryRow :=
  exactOnly BinaryOp.quotient.name "integer" (divideFixnums .quotient) (divideIntegers .quotient)
    (rejectZeroDivisor .quotient)

/-- The value of an integral flonum. -/
def integralValue (x : Flonum) : Except NumericError Int :=
  if x.isIntegral then
    match x.toInt? with
    | some v => .ok v
    | none => .error (.defect BinaryOp.modulo.name .notIntegral)
  else .error (.typeMismatch BinaryOp.modulo.name "integer" (.flonum x))

/-- A floor remainder of integers, not yet a number. -/
def remainder (a b : Int) : Except NumericError Int :=
  if b = 0 then .error (.defect BinaryOp.modulo.name .zeroDivisor) else .ok (a.fmod b)

/-- The machine's remainder has the sign of the dividend; where that is
not the divisor's sign the divisor is added. -/
def moduloFlonums (x y : Flonum) : Outcome :=
  if !x.isIntegral then .error (.typeMismatch BinaryOp.modulo.name "integer" (.flonum x))
  else if !y.isIntegral then .error (.typeMismatch BinaryOp.modulo.name "integer" (.flonum y))
  else if y.isZero then .error (.defect BinaryOp.modulo.name .zeroDivisor)
  else
    let r := x.rem y
    .ok (.flonum (if !r.isZero && r.isNegative != y.isNegative then r.add y else r))

/-- Modulo, cell by cell. -/
def modulo : BinaryRow where
  precheck := rejectZeroDivisor .modulo
  fixnums a b :=
    if b.isZero then .error (.defect BinaryOp.modulo.name .zeroDivisor)
    else .ok (.fixnum (a.floorMod b))
  integers a b := (remainder a b).map Number.ofInt
  flonums := moduloFlonums
  bignumFlonum a y := do
    let divisor ← integralValue y
    let r ← remainder a.toInt divisor
    return .flonum (.ofInt r)
  flonumBignum x b := do
    let dividend ← integralValue x
    let r ← remainder dividend b.toInt
    return .flonum (.ofInt r)

end NumericTower.BinaryRow
