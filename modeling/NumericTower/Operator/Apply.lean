import NumericTower.Operator.Arithmetic
import NumericTower.Operator.Division
import NumericTower.Operator.Power
import NumericTower.Operator.Shift
import NumericTower.Operator.Extremum
import NumericTower.Operator.Sign
import NumericTower.Operator.Rounding
import NumericTower.Operator.Root
/-!
# Applying operators

The operator table: each operator's row, and its application to numbers
of any kinds. The limits concern the powers and the shifts only.
-/

namespace NumericTower

/-- The operator's row under given limits. -/
def BinaryOp.row (op : BinaryOp) (limits : Limits) : BinaryRow :=
  match op with
  | .add => .sum
  | .sub => .difference
  | .mul => .product
  | .div => .division
  | .quotient => .quotient
  | .modulo => .modulo
  | .expt => .power limits
  | .shiftLeft => .shiftLeft limits
  | .shiftRight => .shiftRight limits
  | .bitAnd => .bitAnd
  | .bitOr => .bitOr
  | .bitXor => .bitXor
  | .max => .maximum
  | .min => .minimum

/-- The operator applied to two numbers. -/
def BinaryOp.apply (op : BinaryOp) (limits : Limits) (a b : Number) : Outcome :=
  (op.row limits).run a b

/-- The operator's row. -/
def UnaryOp.row : UnaryOp → UnaryRow
  | .plus => .identity
  | .negate => .negation
  | .abs => .magnitude
  | .bitNot => .bitNot
  | .round => .round
  | .floor => .floor
  | .ceiling => .ceiling
  | .truncate => .truncate
  | .fractionalPart => .fractionalPart
  | .sqrt => .squareRoot

/-- The operator applied to a number. -/
def UnaryOp.apply (op : UnaryOp) (a : Number) : Outcome := op.row.run a

end NumericTower
