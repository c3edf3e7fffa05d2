import NumericTower.Operator.Row
/-!
# Bitwise operators

Defined on exact integers, in two's complement of unbounded width: `-1`
has every bit set, next to a bignum as well.
-/

namespace NumericTower

/-- What the bitwise operators and the shifts ask of an operand. -/
def exactInteger : String := "exact integer"

namespace BinaryRow

/-- Bits set in both operands. -/
def bitAnd : BinaryRow :=
  exactOnly BinaryOp.bitAnd.name exactInteger (fun a b => .ok (.fixnum (a.bitAnd b)))
    (fun a b => .ok (.ofInt (TwosComplement.meet a b)))

/-- Bits set in either operand. -/
def bitOr : BinaryRow :=
  exactOnly BinaryOp.bitOr.name exactInteger (fun a b => .ok (.fixnum (a.bitOr b)))
    (fun a b => .ok (.ofInt (TwosComplement.join a b)))

/-- Bits set in exactly one operand. -/
def bitXor : BinaryRow :=
  exactOnly BinaryOp.bitXor.name exactInteger (fun a b => .ok (.fixnum (a.bitXor b)))
    (fun a b => .ok (.ofInt (TwosComplement.differ a b)))

end BinaryRow

/-- The complement of every bit, which is `-x - 1`. -/
def UnaryRow.bitNot : UnaryRow where
  fixnum a := .ok (.fixnum a.bitNot)
  bignum a := .ok (.ofInt (~~~a.toInt))
  flonum x := .error (.typeMismatch UnaryOp.bitNot.name exactInteger (.flonum x))

end NumericTower
