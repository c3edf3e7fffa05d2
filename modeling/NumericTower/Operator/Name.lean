/-!
# Operators and their names

The operators of the tower and the names under which they are looked up
and appear in errors.
-/

namespace NumericTower

/-- The operators on two numbers. -/
inductive BinaryOp where
  | add
  | sub
  | mul
  | div
  | quotient
  | modulo
  | expt
  | shiftLeft
  | shiftRight
  | bitAnd
  | bitOr
  | bitXor
  | max
  | min
  deriving DecidableEq

namespace BinaryOp

/-- Every binary operator, in the order of the type. -/
def all : List BinaryOp :=
  [.add, .sub, .mul, .div, .quotient, .modulo, .expt, .shiftLeft, .shiftRight, .bitAnd, .bitOr,
    .bitXor, .max, .min]

/-- The name of a binary operator. -/
def name : BinaryOp → String
  | .add => "+"
  | .sub => "-"
  | .mul => "*"
  | .div => "/"
  | .quotient => "quotient"
  | .modulo => "modulo"
  | .expt => "expt"
  | .shiftLeft => "shift-left"
  | .shiftRight => "shift-right"
  | .bitAnd => "bitwise-and"
  | .bitOr => "bitwise-ior"
  | .bitXor => "bitwise-xor"
  | .max => "max"
  | .min => "min"

/-- The operator with a given name. -/
def ofName? (name : String) : Option BinaryOp := all.find? fun op => op.name == name

end BinaryOp

/-- The operators on one number. -/
inductive UnaryOp where
  | plus
  | negate
  | abs
  | bitNot
  | round
  | floor
  | ceiling
  | truncate
  | fractionalPart
  | sqrt
  deriving DecidableEq

namespace UnaryOp

/-- Every unary operator, in the order of the type. -/
def all : List UnaryOp :=
  [.plus, .negate, .abs, .bitNot, .round, .floor, .ceiling, .truncate, .fractionalPart, .sqrt]

/-- The name of a unary operator. -/
def name : UnaryOp → String
  | .plus => "+"
  | .negate => "-"
  | .abs => "abs"
  | .bitNot => "bitwise-not"
  | .round => "round"
  | .floor => "floor"
  | .ceiling => "ceiling"
  | .truncate => "truncate"
  | .fractionalPart => "fractional-part"
  | .sqrt => "sqrt"

/-- The operator with a given name. -/
def ofName? (name : String) : Option UnaryOp := all.find? fun op => op.name == name

end UnaryOp

end NumericTower
