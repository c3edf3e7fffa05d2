import NumericTower.Operator.Row
/-!
# The larger and the smaller of two numbers

Exact operands are compared exactly and one of them is returned. Next to a
flonum the result is a flonum, and a NaN operand makes it a NaN.
-/

namespace NumericTower.BinaryRow

/-- The larger flonum, the second of two equal ones. -/
def maxFlonum (x y : Flonum) : Flonum :=
  match x.compare? y with
  | none => .nan
  | some .gt => x
  | some _ => y

/-- The smaller flonum, the first of two equal ones. -/
def minFlonum (x y : Flonum) : Flonum :=
  match x.compare? y with
  | none => .nan
  | some .gt => y
  | some _ => x

/-- The larger number. -/
def maximum : BinaryRow where
  fixnums a b := .ok (.fixnum (if a.order b = .gt then a else b))
  integers a b := .ok (.ofInt (if b < a then a else b))
  flonums x y := .ok (.flonum (maxFlonum x y))

/-- The smaller number. -/
def minimum : BinaryRow where
  fixnums a b := .ok (.fixnum (if a.order b = .gt then b else a))
  integers a b := .ok (.ofInt (if b < a then b else a))
  flonums x y := .ok (.flonum (minFlonum x y))

end NumericTower.BinaryRow
