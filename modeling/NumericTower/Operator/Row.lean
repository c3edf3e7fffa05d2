import NumericTower.Limits
import NumericTower.Operator.Name
/-!
# Rows of the operator table

An operator is a row of cells, one for each pairing of kinds. The three
cells of equal kinds are given; the six mixed ones follow the rules of the
tower unless a row says otherwise: two exact operands meet as integers,
and next to a flonum an exact operand is converted to the nearest double.
-/

namespace NumericTower

/-- A binary operator, cell by cell. -/
structure BinaryRow where
  /-- What is checked on the operands before any cell runs. -/
  precheck : Number → Number → Except NumericError Unit := fun _ _ => .ok ()
  fixnums : Fixnum → Fixnum → Outcome
  /-- The cell of two bignums, on integers of any size. -/
  integers : Int → Int → Outcome
  flonums : Flonum → Flonum → Outcome
  fixnumBignum : Fixnum → Bignum → Outcome := fun a b => integers a.toInt b.toInt
  bignumFixnum : Bignum → Fixnum → Outcome := fun a b => integers a.toInt b.toInt
  fixnumFlonum : Fixnum → Flonum → Outcome := fun a y => flonums (.ofInt a.toInt) y
  bignumFlonum : Bignum → Flonum → Outcome := fun a y => flonums (.ofInt a.toInt) y
  flonumFixnum : Flonum → Fixnum → Outcome := fun x b => flonums x (.ofInt b.toInt)
  flonumBignum : Flonum → Bignum → Outcome := fun x b => flonums x (.ofInt b.toInt)

namespace BinaryRow

/-- The cell for the operands' kinds, without the row's checks. -/
def cell (row : BinaryRow) : Number → Number → Outcome
  | .fixnum a, .fixnum b => row.fixnums a b
  | .fixnum a, .bignum b => row.fixnumBignum a b
  | .fixnum a, .flonum y => row.fixnumFlonum a y
  | .bignum a, .fixnum b => row.bignumFixnum a b
  | .bignum a, .bignum b => row.integers a.toInt b.toInt
  | .bignum a, .flonum y => row.bignumFlonum a y
  | .flonum x, .fixnum b => row.flonumFixnum x b
  | .flonum x, .bignum b => row.flonumBignum x b
  | .flonum x, .flonum y => row.flonums x y

/-- The row's checks, then the cell. -/
def run (row : BinaryRow) (a b : Number) : Outcome :=
  match row.precheck a b with
  | .ok () => row.cell a b
  | .error e => .error e

/-- A row whose flonum cells all reject the leftmost flonum. -/
def exactOnly (operation expected : String)
    (fixnums : Fixnum → Fixnum → Outcome) (integers : Int → Int → Outcome)
    (precheck : Number → Number → Except NumericError Unit := fun _ _ => .ok ()) : BinaryRow where
  precheck := precheck
  fixnums := fixnums
  integers := integers
  flonums x _ := .error (.typeMismatch operation expected (.flonum x))
  fixnumFlonum _ y := .error (.typeMismatch operation expected (.flonum y))
  bignumFlonum _ y := .error (.typeMismatch operation expected (.flonum y))
  flonumFixnum x _ := .error (.typeMismatch operation expected (.flonum x))
  flonumBignum x _ := .error (.typeMismatch operation expected (.flonum x))

end BinaryRow

/-- A word's result, or on overflow the cell for integers of any size. -/
def promote (result : Except Overflow Fixnum) (integers : Int → Int → Outcome) (a b : Fixnum) :
    Outcome :=
  match result with
  | .ok word => .ok (.fixnum word)
  | .error _ => integers a.toInt b.toInt

/-- A unary operator, cell by cell. -/
structure UnaryRow where
  fixnum : Fixnum → Outcome
  bignum : Bignum → Outcome
  flonum : Flonum → Outcome

namespace UnaryRow

/-- The cell for the operand's kind. -/
def run (row : UnaryRow) : Number → Outcome
  | .fixnum a => row.fixnum a
  | .bignum a => row.bignum a
  | .flonum x => row.flonum x

end UnaryRow

end NumericTower
