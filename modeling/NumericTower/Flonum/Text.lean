import NumericTower.Decimal.Shortest
import NumericTower.Decimal.Text
/-!
# The text of flonums

Integral values below `10^16` are written in full with one decimal place,
so that they read as inexact; larger integral values in scientific
notation; all others positionally. Digits are the fewest that read back.
-/

namespace NumericTower.Flonum

/-- Integral magnitudes from here on are written in scientific notation. -/
def scientificFrom : Nat := powerOfTen 16

/-- The text of a magnitude. -/
def magnitudeChars (m : Magnitude) : List Char :=
  if m.units % unitsPerOne = 0 then
    let whole := m.units / unitsPerOne
    if whole < scientificFrom then Decimal.digitsOf whole ++ ['.', '0']
    else (Decimal.shortest m).scientific
  else (Decimal.shortest m).positional

/-- The text of a flonum; NaN and the infinities have the reader's
spelling. -/
def chars : Flonum → List Char
  | .nan => ['+', 'n', 'a', 'n', '.', '0']
  | .infinite negative => (if negative then '-' else '+') :: ['i', 'n', 'f', '.', '0']
  | .finite negative m => if negative then '-' :: magnitudeChars m else magnitudeChars m

/-- The characters as a text. -/
def text (x : Flonum) : String := .ofList x.chars

end NumericTower.Flonum
