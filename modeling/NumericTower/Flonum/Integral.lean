import NumericTower.Flonum.Arith
/-!
# Flonums and integers

Rounding a flonum to an integral flonum, and reading the integer back.
The sign of the operand stays on a zero result: the ceiling of `-0.5` is
`-0.0`.

Reading back is assumed to be exact. Big integers are taken to have a value
for every finite double, however large, and none for a NaN or an infinity.
-/

namespace NumericTower.Flonum

/-- The integral flonum with the given sign and whole magnitude. -/
def ofWhole (negative : Bool) (whole : Nat) : Flonum := ofFraction negative whole 1

/-- The whole part of a magnitude. -/
def wholeBelow (m : Magnitude) : Nat := m.units / unitsPerOne

/-- The least whole number not below a magnitude. -/
def wholeAbove (m : Magnitude) : Nat := (m.units + (unitsPerOne - 1)) / unitsPerOne

/-- Toward zero. -/
def trunc : Flonum → Flonum
  | .finite negative m => ofWhole negative (wholeBelow m)
  | x => x

/-- Toward negative infinity. -/
def floor : Flonum → Flonum
  | .finite negative m => ofWhole negative (if negative then wholeAbove m else wholeBelow m)
  | x => x

/-- Toward positive infinity. -/
def ceil : Flonum → Flonum
  | .finite negative m => ofWhole negative (if negative then wholeBelow m else wholeAbove m)
  | x => x

/-- The fractional part, `x - trunc x`. -/
def fract (x : Flonum) : Flonum := x.sub x.trunc

/-- One half. -/
def half : Flonum := ofFraction false 1 2

/-- The floor of the magnitude plus one half, with the operand's sign. The
sum is a flonum sum: where it is inexact it may round up to an integer that
lies more than one half above the magnitude. -/
def roundHalfAway (x : Flonum) : Flonum :=
  ((x.abs.add half).floor).withSign x.signBit

/-- The integer part of a finite flonum, exactly and whatever its size. -/
def toInt? : Flonum → Option Int
  | .finite negative m =>
    some (if negative then -(wholeBelow m : Int) else wholeBelow m)
  | _ => none

end NumericTower.Flonum
