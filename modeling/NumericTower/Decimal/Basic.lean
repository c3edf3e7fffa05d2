import NumericTower.Flonum.Basic
/-!
# Decimals

A decimal is a natural coefficient scaled by a power of ten: what a
written number denotes before it is rounded, and what a flonum is printed
from. `toFlonum` rounds one to the nearest double. It answers from the
sizes alone when the value is far outside the double range, so that a
short text with a huge exponent costs nothing.
-/

namespace NumericTower

/-- A power of ten. -/
def powerOfTen (k : Nat) : Nat := Nat.pow 10 k

/-- The number `coefficient * 10 ^ exponent`. -/
structure Decimal where
  coefficient : Nat
  exponent : Int
  deriving DecidableEq

namespace Decimal

/-- The exact value. -/
def toRat (d : Decimal) : Rat := d.coefficient * (10 : Rat) ^ d.exponent

/-- The double nearest to a decimal, with the given sign. From `10^309` on
a value is past the range; with a coefficient below `2^(3k - 1200)` a
value scaled by `10^-k` is far below half the smallest double. -/
def toFlonum (negative : Bool) (d : Decimal) : Flonum :=
  match d.exponent with
  | .ofNat k =>
    if d.coefficient = 0 then .zero negative
    else if 308 < k then .infinite negative
    else .ofFraction negative (d.coefficient * powerOfTen k) 1
  | .negSucc k =>
    if d.coefficient.log2 + 1201 ≤ 3 * (k + 1) then .zero negative
    else .ofFraction negative d.coefficient (powerOfTen (k + 1))

end Decimal

end NumericTower
