import NumericTower.Flonum.Basic
/-!
# Arithmetic on flonums

The operations of IEEE 754 with rounding to nearest, ties to even. Each
finite case is an exact fraction handed to `Flonum.nearest`; what is left
to say by hand is the sign of a zero and what happens to infinities.

`pow` is the exception: it is the power function of the platform's
mathematics library, reached through the interchange format in
`Flonum.Power`.
-/

namespace NumericTower.Flonum

/-- The other sign, also of zeros and infinities. -/
def neg : Flonum → Flonum
  | .nan => .nan
  | .infinite negative => .infinite !negative
  | .finite negative m => .finite (!negative) m

/-- The value without its sign. -/
def abs : Flonum → Flonum
  | .nan => .nan
  | .infinite _ => .infinite false
  | .finite _ m => .finite false m

/-- The value with its sign replaced. -/
def withSign (negative : Bool) : Flonum → Flonum
  | .nan => .nan
  | .infinite _ => .infinite negative
  | .finite _ m => .finite negative m

/-- Whether the sign bit is set; a NaN carries none. -/
def signBit : Flonum → Bool
  | .nan => false
  | .infinite negative => negative
  | .finite negative _ => negative

/-- An exact zero sum is negative only if both operands carry a minus
sign. -/
def add : Flonum → Flonum → Flonum
  | .finite xn x, .finite yn y =>
    let sum := signedUnits xn x + signedUnits yn y
    nearest (if sum = 0 then xn && yn else decide (sum < 0)) sum.natAbs 1
  | .infinite xn, .infinite yn => if xn = yn then .infinite xn else .nan
  | .infinite xn, .finite _ _ => .infinite xn
  | .finite _ _, .infinite yn => .infinite yn
  | .nan, _ => .nan
  | _, .nan => .nan

/-- The difference, as the sum with the negative. -/
def sub (x y : Flonum) : Flonum := x.add y.neg

/-- The product; an infinity times zero is a NaN. -/
def mul : Flonum → Flonum → Flonum
  | .finite xn x, .finite yn y => nearest (xn != yn) (x.units * y.units) unitsPerOne
  | .infinite xn, .infinite yn => .infinite (xn != yn)
  | .infinite xn, .finite yn y => if y.units = 0 then .nan else .infinite (xn != yn)
  | .finite xn x, .infinite yn => if x.units = 0 then .nan else .infinite (xn != yn)
  | .nan, _ => .nan
  | _, .nan => .nan

/-- The quotient; zero by zero and infinity by infinity are NaNs. -/
def div : Flonum → Flonum → Flonum
  | .finite xn x, .finite yn y =>
    if y.units = 0 then
      if x.units = 0 then .nan else .infinite (xn != yn)
    else nearest (xn != yn) (x.units * unitsPerOne) y.units
  | .infinite _, .infinite _ => .nan
  | .infinite xn, .finite yn _ => .infinite (xn != yn)
  | .finite xn _, .infinite yn => zero (xn != yn)
  | .nan, _ => .nan
  | _, .nan => .nan

/-- The remainder of division rounded toward zero. It is exact and takes
the sign of the dividend; by zero it is a NaN. -/
def rem : Flonum → Flonum → Flonum
  | .finite xn x, .finite _ y =>
    if y.units = 0 then .nan else nearest xn (x.units % y.units) 1
  | .finite xn x, .infinite _ => .finite xn x
  | .infinite _, _ => .nan
  | .nan, _ => .nan
  | _, .nan => .nan

/-- The square root of a count of units, as a count of half units: the
last bit is set when digits are cut off, which keeps the cut value on the
right side of every rounding boundary. -/
def rootHalfUnits (units : Nat) : Nat :=
  let scaled := units * unitsPerOne
  let root := scaled.sqrt
  if root * root = scaled then 2 * root else 2 * root + 1

/-- The square root; below zero it is a NaN, and `-0.0` is its own root. -/
def sqrt : Flonum → Flonum
  | .nan => .nan
  | .infinite negative => if negative then .nan else .infinite false
  | .finite negative m =>
    if m.units = 0 then .finite negative m
    else if negative then .nan
    else nearest false (rootHalfUnits m.units) 2

end NumericTower.Flonum
