import NumericTower.Flonum.Magnitude
/-!
# Flonums — inexact reals

A flonum is a binary64 value: a NaN, an infinity, or a signed finite
value. The sign and payload of a NaN are not kept, and every other value
has exactly one form, so equality of the type is equality of
representation: it tells `-0.0` from `0.0` and makes a NaN equal to
itself. Numeric equality is in `Flonum.Order`.

`Flonum.nearest` is the only way in which a computed value becomes a
flonum: every operation states its exact result as a fraction and rounds
it once. For the arithmetic of doubles that is the rule of IEEE 754. For the
conversion of big integers it is an assumption: `Flonum.ofInt` takes it to be
correctly rounded, like that of words.
-/

namespace NumericTower

/-- An IEEE 754 binary64 value. -/
inductive Flonum where
  | nan
  | infinite (negative : Bool)
  | finite (negative : Bool) (magnitude : Magnitude)
  deriving DecidableEq

namespace Flonum

/-- Zero with the given sign. -/
def zero (negative : Bool) : Flonum := .finite negative .zero

/-- The double nearest to `num / den` units of `2^-1074`, with the given
sign; ties go to the even place, and past the largest finite double the
value is infinite. -/
def nearest (negative : Bool) (num den : Nat) : Flonum :=
  let place := nearestPlace num den
  if h : place < placeCount then .finite negative ⟨place, h⟩ else .infinite negative

/-- The double nearest to the fraction `num / den`. -/
def ofFraction (negative : Bool) (num den : Nat) : Flonum :=
  nearest negative (num * unitsPerOne) den

/-- The double nearest to an integer of any size, ties to even and infinite
past the range. -/
def ofInt (v : Int) : Flonum := ofFraction (decide (v < 0)) v.natAbs 1

/-- A finite double, signed, as a count of units. -/
def signedUnits (negative : Bool) (m : Magnitude) : Int :=
  if negative then -(m.units : Int) else m.units

/-- The exact value of a finite double. -/
def toRat? : Flonum → Option Rat
  | .finite negative m => some (mkRat (signedUnits negative m) unitsPerOne)
  | _ => none

/-- Whether a flonum is the NaN. -/
def isNaN : Flonum → Bool
  | .nan => true
  | _ => false

/-- Neither a NaN nor an infinity. -/
def isFinite : Flonum → Bool
  | .finite _ _ => true
  | _ => false

/-- Either zero. -/
def isZero : Flonum → Bool
  | .finite _ m => m.units == 0
  | _ => false

/-- Below zero: neither `-0.0` nor a NaN is. -/
def isNegative : Flonum → Bool
  | .nan => false
  | .infinite negative => negative
  | .finite negative m => negative && m.units != 0

/-- Finite, without a fractional part. -/
def isIntegral : Flonum → Bool
  | .finite _ m => m.units % unitsPerOne == 0
  | _ => false

end Flonum

end NumericTower
