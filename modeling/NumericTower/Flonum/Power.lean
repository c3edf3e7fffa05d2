import NumericTower.Flonum.Bits
/-!
# Powers of flonums

A power of two doubles has no finite exact form to round, so `pow` is the
platform's power function, the one operation on flonums that is not
computed here.
-/

namespace NumericTower.Flonum

/-- The first flonum to the power of the second. -/
def pow (x y : Flonum) : Flonum :=
  ofBits ((Float.ofBits x.toBits).pow (Float.ofBits y.toBits)).toBits

end NumericTower.Flonum
