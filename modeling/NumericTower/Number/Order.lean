import NumericTower.Number.Basic
/-!
# Comparison of numbers

The order of the exact values: an exact operand is never rounded to be
compared with a flonum. The flonum's integer part is compared with it
instead, and where the two are equal the flonum's fraction decides. A NaN
is comparable to nothing.
-/

namespace NumericTower

namespace Flonum

/-- The integer part of a flonum against the flonum: its fraction's sign,
reversed. -/
def compareTrunc (y : Flonum) : Ordering :=
  match y.compare? y.trunc with
  | some .gt => .lt
  | some .lt => .gt
  | _ => .eq

/-- An exact integer against a flonum: against its integer part, then by
its fraction. -/
def compareInt? (v : Int) (y : Flonum) : Option Ordering :=
  match y with
  | .nan => none
  | .infinite negative => some (if negative then .gt else .lt)
  | .finite _ _ => y.trunc.toInt?.map fun whole => (compare v whole).then y.compareTrunc

end Flonum

namespace Number

/-- The numeric order, `none` when an operand is a NaN. Between exact
kinds the sign of the bignum decides, which lies outside the range of
fixnums. -/
def compare? : Number → Number → Option Ordering
  | .fixnum a, .fixnum b => some (a.order b)
  | .fixnum _, .bignum b => some (if b.isNegative then .gt else .lt)
  | .bignum a, .fixnum _ => some (if a.isNegative then .lt else .gt)
  | .bignum a, .bignum b => some (compare a.toInt b.toInt)
  | .fixnum a, .flonum y => y.compareInt? a.toInt
  | .bignum a, .flonum y => y.compareInt? a.toInt
  | .flonum x, .fixnum b => (x.compareInt? b.toInt).map .swap
  | .flonum x, .bignum b => (x.compareInt? b.toInt).map .swap
  | .flonum x, .flonum y => x.compare? y

/-- Numeric equality, across kinds. -/
def numEq (a b : Number) : Bool := a.compare? b == some .eq

/-- Less than. -/
def lt (a b : Number) : Bool := a.compare? b == some .lt

/-- Less than or equal to. -/
def le (a b : Number) : Bool :=
  match a.compare? b with
  | some .lt => true
  | some .eq => true
  | _ => false

/-- Greater than. -/
def gt (a b : Number) : Bool := a.compare? b == some .gt

/-- Greater than or equal to. -/
def ge (a b : Number) : Bool :=
  match a.compare? b with
  | some .gt => true
  | some .eq => true
  | _ => false

/-- Equality of kind and value: the two inexact zeros are the same and a
NaN is not the same as anything. -/
def same : Number → Number → Bool
  | .fixnum a, .fixnum b => a == b
  | .bignum a, .bignum b => a == b
  | .flonum x, .flonum y => x.numEq y
  | _, _ => false

end Number

end NumericTower
