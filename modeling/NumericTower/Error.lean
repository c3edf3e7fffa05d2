import NumericTower.Number.Basic
/-!
# Errors

Why an operation on numbers fails. An error carries the operation's name
and the operands at fault, and its code, class and text are read off it.

A `Defect` is an error that no operand causes: a primitive was run outside
its domain. It is an outcome like any other, so that its absence can be
stated.
-/

namespace NumericTower

/-- A primitive run outside its domain. -/
inductive Defect where
  /-- Floor division or a remainder with a zero divisor. -/
  | zeroDivisor
  /-- A word's integer root whose square is not a word. -/
  | squareOverflow
  /-- An integral flonum without an integer value. -/
  | notIntegral
  /-- A base of magnitude below two where larger ones only are left. -/
  | degenerateBase
  deriving DecidableEq

/-- Why an operation on numbers fails. -/
inductive NumericError where
  /-- The divisor is zero, exact or not. -/
  | zeroDivisor (operation : String) (dividend divisor : Number)
  /-- An operand is of the wrong kind. -/
  | typeMismatch (operation expected : String) (actual : Number)
  /-- A shift amount is no machine word. -/
  | shiftTooLarge (operation : String) (amount : Number)
  /-- The result would have more bits than the limit allows. -/
  | limitExceeded (operation : String) (requiredBits maxBits : UInt64)
  /-- A NaN or an infinity has no exact value. -/
  | notFinite (operation : String) (value : Number)
  /-- A text is no number literal. -/
  | parse (input reason : String)
  /-- A primitive was run outside its domain. -/
  | defect (operation : String) (cause : Defect)
  deriving DecidableEq

/-- What every operation returns. -/
abbrev Outcome := Except NumericError Number

/-- Coarse classes of errors. -/
inductive ErrorClass where
  | zeroDivisor
  | type
  | overflow
  | malformed
  | internal
  deriving DecidableEq

/-- The name of a class, as it is reported. -/
def ErrorClass.name : ErrorClass → String
  | .zeroDivisor => "ZeroDivisor"
  | .type => "Type"
  | .overflow => "Overflow"
  | .malformed => "Syntax"
  | .internal => "Internal"

namespace Defect

/-- The text of a defect. -/
def message : Defect → String
  | .zeroDivisor => "division by zero"
  | .squareOverflow => "square of a root out of range"
  | .notIntegral => "no integer value"
  | .degenerateBase => "degenerate base"

end Defect

namespace NumericError

/-- The code under which an error is monitored. -/
def code : NumericError → String
  | .zeroDivisor .. => "NUMERIC_ZERO_DIVISOR"
  | .typeMismatch .. => "NUMERIC_TYPE_MISMATCH"
  | .shiftTooLarge .. => "NUMERIC_SHIFT_TOO_LARGE"
  | .limitExceeded .. => "NUMERIC_LIMIT_EXCEEDED"
  | .notFinite .. => "NUMERIC_NOT_FINITE"
  | .parse .. => "NUMERIC_PARSE_ERROR"
  | .defect .. => "NUMERIC_DEFECT"

/-- The coarse class of an error. -/
def errorClass : NumericError → ErrorClass
  | .zeroDivisor .. => .zeroDivisor
  | .typeMismatch .. => .type
  | .shiftTooLarge .. => .overflow
  | .limitExceeded .. => .overflow
  | .notFinite .. => .type
  | .parse .. => .malformed
  | .defect .. => .internal

/-- The operation that failed; reading a literal is none. -/
def operation? : NumericError → Option String
  | .zeroDivisor operation .. => some operation
  | .typeMismatch operation .. => some operation
  | .shiftTooLarge operation .. => some operation
  | .limitExceeded operation .. => some operation
  | .notFinite operation .. => some operation
  | .parse .. => none
  | .defect operation _ => some operation

/-- Whether the caller's operands are at fault, and not a limit set by the
host or a defect. -/
def isClientError : NumericError → Bool
  | .limitExceeded .. => false
  | .defect .. => false
  | _ => true

/-- The text of an error. -/
def message : NumericError → String
  | .zeroDivisor operation dividend divisor =>
    operation ++ ": undefined for " ++ divisor.text ++ " (dividend " ++ dividend.text ++ ")"
  | .typeMismatch operation expected actual =>
    operation ++ ": contract violation, expected " ++ expected ++ ", given " ++ actual.text
  | .shiftTooLarge operation amount =>
    operation ++ ": shift amount " ++ amount.text ++ " is too large"
  | .limitExceeded operation requiredBits maxBits =>
    operation ++ ": result needs " ++ requiredBits.toNat.repr ++ " bits, limit is "
      ++ maxBits.toNat.repr
  | .notFinite operation value =>
    operation ++ ": no exact representation for " ++ value.text
  | .parse input reason => "Invalid number literal '" ++ input ++ "': " ++ reason
  | .defect operation cause => operation ++ ": " ++ cause.message

end NumericError

end NumericTower
