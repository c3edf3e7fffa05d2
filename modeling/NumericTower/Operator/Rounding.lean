import NumericTower.Operator.Row
/-!
# Rounding to integers

An exact integer is its own rounding. A flonum is rounded as a flonum and
then made exact; the infinities and the NaN have no exact value. Only the
fractional part of a flonum stays inexact.
-/

namespace NumericTower

namespace Flonum

/-- The machine's conversion to a word, toward zero: what no word holds
becomes the word nearest to it, a NaN becomes zero. -/
def toWord : Flonum → Fixnum
  | .nan => .zero
  | .infinite negative => if negative then .least else .greatest
  | .finite negative m =>
    let whole : Int := if negative then -(wholeBelow m : Int) else wholeBelow m
    if whole < Fixnum.least.toInt then .least
    else if Fixnum.greatest.toInt < whole then .greatest
    else .ofInt whole

/-- Between `-2^63` and `2^63`, the latter not included. -/
def isWordSized (x : Flonum) : Bool :=
  x.compare? (.ofInt (-9223372036854775808)) != some .lt
    && x.compare? (.ofInt 9223372036854775808) == some .lt

end Flonum

/-- The integer part of a flonum as an exact number, a word if the flonum
is word-sized. -/
def Number.exactOf (operation : String) (x : Flonum) : Outcome :=
  if !x.isFinite then .error (.notFinite operation (.flonum x))
  else if x.isWordSized then .ok (.fixnum x.toWord)
  else
    match x.toInt? with
    | some v => .ok (.ofInt v)
    | none => .error (.notFinite operation (.flonum x))

namespace UnaryRow

/-- The operator that rounds flonums with a given function. -/
def roundingBy (op : UnaryOp) (round : Flonum → Flonum) : UnaryRow where
  fixnum a := .ok (.fixnum a)
  bignum a := .ok (.bignum a)
  flonum x := Number.exactOf op.name (round x)

/-- Halves go away from zero, as `Flonum.roundHalfAway` finds them. -/
def round : UnaryRow := roundingBy .round Flonum.roundHalfAway

/-- Toward negative infinity. -/
def floor : UnaryRow := roundingBy .floor Flonum.floor

/-- Toward positive infinity. -/
def ceiling : UnaryRow := roundingBy .ceiling Flonum.ceil

/-- Toward zero. -/
def truncate : UnaryRow := roundingBy .truncate Flonum.trunc

/-- What truncation takes away: exact zero of an exact number. -/
def fractionalPart : UnaryRow where
  fixnum _ := .ok .zero
  bignum _ := .ok .zero
  flonum x :=
    match x with
    | .infinite _ => .ok (.flonum .nan)
    | x => .ok (.flonum x.fract)

end UnaryRow

end NumericTower
