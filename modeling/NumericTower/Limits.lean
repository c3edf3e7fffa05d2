import NumericTower.Error
/-!
# Limits on the size of results

Powers and left shifts can ask for results far larger than their operands.
A limit bounds the bit length of such a result, and is checked before
anything is computed.
-/

namespace NumericTower

/-- Limits that a host sets. -/
structure Limits where
  /-- The largest bit length of a power or a left shift; `2^24` unless the
  host says otherwise. -/
  maxIntegerBits : UInt64 := 0x1000000
  deriving DecidableEq

namespace Limits

/-- The limits that hold when none are given. -/
def standard : Limits := {}

/-- For untrusted programs, `2^16` bits. -/
def strict : Limits := ⟨0x10000⟩

/-- For trusted programs, `2^32` bits. -/
def permissive : Limits := ⟨0x100000000⟩

/-- As far as machine words count bits, `2^64 - 1`. -/
def unlimited : Limits := ⟨0xffffffffffffffff⟩

/-- A bit count as a machine word; counts past the largest word stand at
it. -/
def saturated (bits : Nat) : UInt64 := .ofNatClamp bits

/-- Rejects a result that needs more bits than the limit. -/
def checkIntegerBits (limits : Limits) (operation : String) (bits : UInt64) :
    Except NumericError Unit :=
  if limits.maxIntegerBits < bits then
    .error (.limitExceeded operation bits limits.maxIntegerBits)
  else .ok ()

end Limits

end NumericTower
