import NumericTower.Operator.Bitwise
/-!
# Shifts

Arithmetic shifts by a signed amount; a negative amount shifts the other
way. A right shift rounds down and never fails. A left shift never wraps,
and is checked against the limit before the result is built, unless it
fits a word.

The machine is taken to have 64-bit indices. Every amount that is a word is
then a count of places that the machine can shift by, and a left shift by it
is rejected by the limit or not at all. With narrower indices an amount past
them would be rejected too, as if by the limit.
-/

namespace NumericTower.BinaryRow

/-- Shifts to the left, or to the right for an amount below zero. No amount
is past the machine's indices, which have 64 bits. -/
def shiftInteger (op : BinaryOp) (limits : Limits) (v amount : Int) : Outcome :=
  if v = 0 then .ok .zero
  else if amount < 0 then
    if amount.natAbs < TwosComplement.bitLength v then .ok (.ofInt (v >>> amount.natAbs))
    else .ok (.fixnum (if v < 0 then .negOne else .zero))
  else
    match limits.checkIntegerBits op.name
        (Limits.saturated (amount.natAbs + TwosComplement.bitLength v)) with
    | .error e => .error e
    | .ok () => .ok (.ofInt (v <<< amount.natAbs))

/-- A left shift of integers of any size, by an amount that is a word. -/
def shiftLeftIntegers (limits : Limits) (v amount : Int) : Outcome :=
  if Fixnum.InRange amount then shiftInteger .shiftLeft limits v amount
  else .error (.shiftTooLarge BinaryOp.shiftLeft.name (.ofInt amount))

/-- A right shift of integers of any size, by an amount that is a word. -/
def shiftRightIntegers (limits : Limits) (v amount : Int) : Outcome :=
  if Fixnum.InRange amount then shiftInteger .shiftRight limits v (-amount)
  else .error (.shiftTooLarge BinaryOp.shiftRight.name (.ofInt amount))

/-- The left shift; a word result needs no check. -/
def shiftLeft (limits : Limits) : BinaryRow :=
  exactOnly BinaryOp.shiftLeft.name exactInteger
    (fun a b =>
      if b.isNegative then .ok (.fixnum (a.shiftRight b.toInt.natAbs))
      else promote (a.shiftLeft? b.toInt.natAbs) (shiftLeftIntegers limits) a b)
    (shiftLeftIntegers limits)

/-- The right shift. -/
def shiftRight (limits : Limits) : BinaryRow :=
  exactOnly BinaryOp.shiftRight.name exactInteger
    (fun a b =>
      if b.isNegative then shiftRightIntegers limits a.toInt b.toInt
      else .ok (.fixnum (a.shiftRight b.toInt.natAbs)))
    (shiftRightIntegers limits)

end NumericTower.BinaryRow
