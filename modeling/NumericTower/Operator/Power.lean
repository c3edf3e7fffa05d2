import NumericTower.Operator.Row
import NumericTower.Flonum.Power
/-!
# Powers

An exact base and exponent give an exact power. Under a negative exponent
that is the reciprocal of the power, rounded down, and its value is known
without computing the power.

Before a large power is taken, the bits that it needs at least are
compared with the limit: a base of `n` bits is at least `2^(n-1)`, so its
power with exponent `e` has at least `(n-1) * e + 1` bits. A power that a
word holds is not subject to the limit.
-/

namespace NumericTower.BinaryRow

/-- `base ^ exponent`, from the power of the magnitude. -/
def integerPower (base : Int) (exponent : Nat) : Int :=
  let magnitude := Nat.pow base.natAbs exponent
  if base < 0 ∧ exponent % 2 = 1 then -(magnitude : Int) else magnitude

/-- One over a power with an exponent below zero, rounded down. -/
def reciprocalPower (base exponent : Int) : Outcome :=
  let odd := exponent.natAbs % 2 = 1
  if base = 0 then .error (.zeroDivisor BinaryOp.expt.name (.fixnum .one) .zero)
  else if base = 1 then .ok (.fixnum .one)
  else if base = -1 then .ok (.fixnum (if odd then .negOne else .one))
  else if 0 < base then .ok .zero
  else .ok (.fixnum (if odd then .negOne else .zero))

/-- The first exponent past a machine word, `2^64`. -/
def exponentBound : Nat := 18446744073709551616

/-- The largest exponent that is ever computed with, `2^32 - 1`. -/
def largestExponent : Nat := 4294967295

/-- A power of a base of magnitude two or more, if the limit allows it. -/
def largePower (limits : Limits) (base : Int) (exponent : Nat) : Outcome :=
  if exponentBound ≤ exponent then
    .error (.limitExceeded BinaryOp.expt.name (Limits.saturated exponent) limits.maxIntegerBits)
  else
    let growth := TwosComplement.bitLength base - 1
    if growth < 1 then .error (.defect BinaryOp.expt.name .degenerateBase)
    else
      let required := Limits.saturated (growth * exponent + 1)
      match limits.checkIntegerBits BinaryOp.expt.name required with
      | .error e => .error e
      | .ok () =>
        if largestExponent < exponent then
          .error (.limitExceeded BinaryOp.expt.name required limits.maxIntegerBits)
        else .ok (.ofInt (integerPower base exponent))

/-- The power of integers of any size; the bases `-1`, `0` and `1` take any
exponent. -/
def powerIntegers (limits : Limits) (base exponent : Int) : Outcome :=
  if exponent < 0 then reciprocalPower base exponent
  else if exponent = 0 ∨ base = 1 then .ok (.fixnum .one)
  else if base = 0 then .ok .zero
  else if base = -1 then .ok (.fixnum (if exponent.natAbs % 2 = 1 then .negOne else .one))
  else largePower limits base exponent.natAbs

/-- Exponents up to the largest one try the word power first. -/
def power (limits : Limits) : BinaryRow where
  fixnums a b :=
    if 0 ≤ b.toInt ∧ b.toInt ≤ largestExponent then
      promote (a.pow? b.toInt.toNat) (powerIntegers limits) a b
    else powerIntegers limits a.toInt b.toInt
  integers := powerIntegers limits
  flonums x y := .ok (.flonum (x.pow y))

end NumericTower.BinaryRow
