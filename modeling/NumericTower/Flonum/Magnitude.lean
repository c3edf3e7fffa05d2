/-!
# Magnitudes — the finite doubles without their signs

The nonnegative finite binary64 values form one ascending list. A
`Magnitude` is a place in that list, so the order of places is the order
of values, the next double is the next place, and a place is what the low
sixty-three bits of the interchange format hold.

Every value in the list is a whole number of units of `2^-1074`, the
smallest subnormal. `unitsAt` counts them; all exact arithmetic on doubles
is arithmetic on these counts.
-/

namespace NumericTower

/-- The number of places that share one spacing, `2^52`. -/
def runLength : Nat := 4503599627370496

/-- How many units of `2^-1074` make up the double at place `i`. The first
two runs of places are one unit apart; from there on each run is spaced
twice as wide as the run before it. -/
def unitsAt (i : Nat) : Nat :=
  if i < 2 * runLength then i else (runLength + i % runLength) <<< (i / runLength - 1)

/-- A unit is `2^-1074`. The exponent is sealed: nothing depends on its
value but the size of the list. -/
@[irreducible]
def unitExponent : Nat := 1074

/-- How many units make one, `2^1074`. -/
def unitsPerOne : Nat := 1 <<< unitExponent

/-- The first place past the largest finite double. -/
def placeCount : Nat := 2047 * runLength

/-- A nonnegative finite double, as its place in the ascending list of
them. -/
structure Magnitude where
  /-- Places count from zero, the place of the value zero. -/
  place : Nat
  place_lt : place < placeCount
  deriving DecidableEq

namespace Magnitude

/-- The value as a count of units of `2^-1074`. -/
def units (m : Magnitude) : Nat := unitsAt m.place

/-- The place of zero. -/
def zero : Magnitude := ⟨0, by decide⟩

end Magnitude

/-- The last place whose value is at most `whole` units: what lies more
than fifty-three bits deep is cut off. -/
def placeBelow (whole : Nat) : Nat :=
  let excess := whole.log2 - 52
  whole >>> excess + excess * runLength

/-- The place nearest to `num / den` units; halfway between two places the
even one is taken. The list is continued past its end with the same
spacing rule, so a place from `placeCount` on means overflow. -/
def nearestPlace (num den : Nat) : Nat :=
  let below := placeBelow (num / den)
  let middle := (unitsAt below + unitsAt (below + 1)) * den
  if 2 * num < middle ∨ (2 * num = middle ∧ below % 2 = 0) then below else below + 1

end NumericTower
