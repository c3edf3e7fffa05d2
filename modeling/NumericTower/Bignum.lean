import NumericTower.Fixnum
import NumericTower.Integer.TwosComplement
/-!
# Bignums — exact integers past the machine word

A bignum is meant for an integer that no fixnum holds. `Bignum.ofInt?` is
the only way in which one is made of an integer, and it refuses those that
fit a word; that nothing else lets one through is `Number.Canonical`, which
every operation of the tower keeps.
-/

namespace NumericTower

/-- An exact integer too large for a machine word. -/
structure Bignum where
  toInt : Int
  deriving DecidableEq

namespace Bignum

/-- Whether a bignum is below zero. -/
def isNegative (a : Bignum) : Bool := a.toInt < 0

/-- The bignum of an integer, or the fixnum that holds it. -/
def ofInt? (v : Int) : Except Fixnum Bignum :=
  if Fixnum.InRange v then .error (.ofInt v) else .ok ⟨v⟩

theorem ofInt?_of_inRange {v : Int} (h : Fixnum.InRange v) : ofInt? v = .error (.ofInt v) :=
  if_pos h

theorem ofInt?_of_not_inRange {v : Int} (h : ¬ Fixnum.InRange v) : ofInt? v = .ok ⟨v⟩ :=
  if_neg h

/-- The bit length of the magnitude. -/
def bitLength (a : Bignum) : Nat := TwosComplement.bitLength a.toInt

end Bignum

end NumericTower
