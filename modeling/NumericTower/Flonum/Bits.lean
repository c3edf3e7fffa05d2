import NumericTower.Flonum.Basic
/-!
# Interchange formats

The bit patterns of binary64, both ways, and of binary32, which is read
only. A pattern's low bits are the place of its magnitude, with the
infinities just past the last place and the NaNs beyond them.
-/

namespace NumericTower.Flonum

/-- The weight of the sign bit, `2^63`. -/
def signWeight : Nat := 9223372036854775808

/-- The binary64 pattern; the NaN gets the quiet pattern without payload. -/
def toBits : Flonum → UInt64
  | .nan => 0x7ff8000000000000
  | .infinite negative => .ofNat ((if negative then signWeight else 0) + placeCount)
  | .finite negative m => .ofNat ((if negative then signWeight else 0) + m.place)

/-- The flonum of a binary64 pattern. -/
def ofBits (bits : UInt64) : Flonum :=
  let negative := decide (signWeight ≤ bits.toNat)
  let place := bits.toNat % signWeight
  if h : place < placeCount then .finite negative ⟨place, h⟩
  else if place = placeCount then .infinite negative
  else .nan

/-- The flonum of a binary32 pattern. Every binary32 value is a binary64
value, so nothing is rounded. -/
def ofBits32 (bits : UInt32) : Flonum :=
  let negative := decide (0x80000000 ≤ bits.toNat)
  let exponent := bits.toNat / 0x800000 % 0x100
  let fraction := bits.toNat % 0x800000
  if exponent = 255 then
    if fraction = 0 then .infinite negative else .nan
  else if exponent = 0 then ofFraction negative fraction (1 <<< 149)
  else ofFraction negative ((0x800000 + fraction) <<< (exponent - 1)) (1 <<< 149)

end NumericTower.Flonum
