import NumericTower.Flonum.Basic
/-!
# Orders on flonums

`compare?` is the numeric order: the two zeros are equal and a NaN is
comparable to nothing. `totalCompare` is the total order of
representations, with `-0.0` below `0.0` and the NaN above all else.
-/

namespace NumericTower.Flonum

/-- The numeric order, `none` when an operand is a NaN. -/
def compare? : Flonum → Flonum → Option Ordering
  | .nan, _ => none
  | _, .nan => none
  | .finite xn x, .finite yn y => some (compare (signedUnits xn x) (signedUnits yn y))
  | .infinite xn, .infinite yn =>
    some (if xn = yn then .eq else if xn then .lt else .gt)
  | .infinite xn, .finite _ _ => some (if xn then .lt else .gt)
  | .finite _ _, .infinite yn => some (if yn then .gt else .lt)

/-- Numeric equality. -/
def numEq (x y : Flonum) : Bool := compare? x y == some .eq

/-- A position in the total order of representations. -/
def rank : Flonum → Int
  | .nan => placeCount + 1
  | .infinite negative => if negative then -placeCount - 1 else placeCount
  | .finite negative m => if negative then -m.place - 1 else m.place

/-- The total order of representations: `-∞`, the negative values, `-0.0`,
`0.0`, the positive values, `+∞`, NaN. -/
def totalCompare (x y : Flonum) : Ordering := compare x.rank y.rank

end NumericTower.Flonum
