import NumericTower.Decimal.Basic
/-!
# Shortest decimals

The decimal a double is written as: of all decimals that read back as the
double, one with the fewest digits, and of those the nearest to it.

All numbers here are counts of `10^-1074`. A double is a whole number of
them, since a unit of `2^-1074` is `5^1074` of them, and so are the
decimals compared with it. The search starts at the coarsest grid on which
the double has a digit and refines it tenfold at a time. On each grid only
the two neighbours of the double matter: if any point of a grid reads back
then so does one of these.
-/

namespace NumericTower.Decimal

/-- A unit of `2^-1074`, in units of `10^-1074`. -/
def tensPerUnit : Nat := Nat.pow 5 unitExponent

/-- Whether `count` units of `10^-1074` round to place `i`: they lie
strictly between the midpoints to the neighbouring places, or on a
midpoint if `i` is even. -/
def readsBackAt (i count : Nat) : Bool :=
  let lower := (unitsAt (i - 1) + unitsAt i) * tensPerUnit
  let upper := (unitsAt i + unitsAt (i + 1)) * tensPerUnit
  if i % 2 = 0 then lower ≤ 2 * count && 2 * count ≤ upper
  else lower < 2 * count && 2 * count < upper

/-- The point of the grid `10^k` to write place `i` by, if one of the two
neighbours of `exact` on it reads back. Of two that do the nearer is
taken, and the upper one when they are equally near. -/
def onGrid? (i exact k : Nat) : Option Nat :=
  let spacing := powerOfTen k
  let below := exact / spacing
  let above := below + 1
  match readsBackAt i (below * spacing), readsBackAt i (above * spacing) with
  | true, true => some (if 2 * exact < (below + above) * spacing then below else above)
  | true, false => some below
  | false, true => some above
  | false, false => none

/-- The first hit on the grids `10^(k-1)`, `10^(k-2)`, …; on the grid
`10^0` the double itself is a point. -/
def shortestFrom (i exact : Nat) : Nat → Decimal
  | 0 => ⟨exact, -unitExponent⟩
  | k + 1 =>
    match onGrid? i exact k with
    | some point => ⟨point, (k : Int) - unitExponent⟩
    | none => shortestFrom i exact k

/-- The shortest decimal that reads back as a magnitude. -/
def shortest (m : Magnitude) : Decimal :=
  let exact := m.units * tensPerUnit
  shortestFrom m.place exact exact.repr.length

end NumericTower.Decimal
