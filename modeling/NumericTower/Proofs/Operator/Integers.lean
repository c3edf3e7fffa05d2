import NumericTower.Proofs.Operator.Fault
import NumericTower.Proofs.Operator.WordPath
/-!
# What integers give

The second side of the operators on exact operands: the integer that an
operator makes of two integers (`BinaryOp.value`), and the outcome that
comes of it when the rules find no fault (`BinaryOp.exactOutcome`). A row
reaches that outcome if its word cell does for words and its integer cell
for all other integers (`Widens.cell_eq`). Before any cell, of operands of
all kinds, comes the check for a zero divisor (`BinaryOp.apply_eq_cell`).
-/

namespace NumericTower

open TwosComplement

/-- An outcome from its fault, if it has one, and its result. -/
def Outcome.ofFault (fault : Option NumericError) (n : Number) : Outcome :=
  match fault with
  | some e => .error e
  | none => .ok n

namespace Outcome

variable {fault : Option NumericError} {m n : Number} {e : NumericError}

@[simp]
theorem ofFault_none (n : Number) : ofFault none n = .ok n := rfl

@[simp]
theorem ofFault_some (e : NumericError) (n : Number) : ofFault (some e) n = .error e := rfl

theorem ofFault_eq_error_iff : ofFault fault n = .error e ↔ fault = some e := by
  cases fault <;> simp

theorem ofFault_eq_ok_iff : ofFault fault n = .ok m ↔ fault = none ∧ n = m := by
  cases fault <;> simp

end Outcome

namespace BinaryOp

/-- The integer that an operator makes of two integers. -/
def value : BinaryOp → Int → Int → Int
  | .add, v, w => v + w
  | .sub, v, w => v - w
  | .mul, v, w => v * w
  | .div, v, w => v.fdiv w
  | .quotient, v, w => v.fdiv w
  | .modulo, v, w => v.fmod w
  | .expt, v, w => if 0 ≤ w then v ^ w.natAbs else Int.fdiv 1 (v ^ w.natAbs)
  | .shiftLeft, v, w => if 0 ≤ w then v <<< w.natAbs else v >>> w.natAbs
  | .shiftRight, v, w => if 0 < w then v >>> w.natAbs else v <<< w.natAbs
  | .bitAnd, v, w => meet v w
  | .bitOr, v, w => join v w
  | .bitXor, v, w => differ v w
  | .max, v, w => if w < v then v else w
  | .min, v, w => if w < v then w else v

end BinaryOp

/-! ## Exact operands in the rules -/

namespace Number

theorem ofInt_eq_zero_iff {v : Int} : ofInt v = zero ↔ v = 0 := by
  constructor
  · intro h
    have := congrArg toInt? h
    rwa [toInt?_ofInt, zero, toInt?, Fixnum.toInt_zero, Option.some_inj] at this
  · rintro rfl
    rfl

theorem zero_eq_ofInt : zero = ofInt 0 := (ofInt_eq_zero_iff.2 rfl).symm

@[simp]
theorem asFlonum?_ofInt (v : Int) : (ofInt v).asFlonum? = none := by
  by_cases h : Fixnum.InRange v
  · rw [ofInt_of_inRange h]; rfl
  · rw [ofInt_of_not_inRange h]; rfl

theorem isZeroDivisor_ofInt {v : Int} : (ofInt v).IsZeroDivisor ↔ v = 0 := by
  have hflonum (x : Flonum) : ofInt v ≠ .flonum x := by
    intro h
    have := congrArg asFlonum? h
    rw [asFlonum?_ofInt] at this
    cases this
  simp [IsZeroDivisor, hflonum, ofInt_eq_zero_iff]

theorem kind_ofInt {v : Int} : (ofInt v).kind = .bignum ↔ ¬ Fixnum.InRange v := by
  by_cases h : Fixnum.InRange v
  · rw [ofInt_of_inRange h]; simp [kind, h]
  · rw [ofInt_of_not_inRange h]; simp [kind, h]

end Number

namespace BinaryOp

open Number

/-- Of integers only four of the rules speak. -/
theorem fault?_ofInt (op : BinaryOp) (limits : Limits) (v w : Int) :
    op.fault? limits (ofInt v) (ofInt w) =
      (if op.hasDivisor ∧ w = 0 then some (.zeroDivisor op.name (ofInt v) (ofInt w)) else none).or
        ((if op.isShift ∧ ¬ Fixnum.InRange w then some (.shiftTooLarge op.name (ofInt w))
            else none).or
          ((if op = .expt ∧ v = 0 ∧ w < 0 then some (.zeroDivisor op.name (ofInt 1) zero)
              else none).or
            (op.limitFault? limits v w))) := by
  simp [fault?, zeroDivisor?, inexactOperand?, fractionalOperand?, hugeShift?, zeroPower?,
    limitReached?, leftmostFlonum?, isZeroDivisor_ofInt, kind_ofInt, ofInt_eq_zero_iff]

/-- What exact operands give. -/
def exactOutcome (op : BinaryOp) (limits : Limits) (v w : Int) : Outcome :=
  .ofFault (op.fault? limits (ofInt v) (ofInt w)) (ofInt (op.value v w))

end BinaryOp

namespace BinaryRow

open Number

/-! ## Cells of exact operands -/

/-- Between a word and a bignum a row runs its integer cell. -/
structure Widens (row : BinaryRow) : Prop where
  fixnumBignum : ∀ a b, row.fixnumBignum a b = row.integers a.toInt b.toInt
  bignumFixnum : ∀ a b, row.bignumFixnum a b = row.integers a.toInt b.toInt

/-- Multiplication's own cells for a zero word give the product all the
same. -/
theorem product_widens : product.Widens where
  fixnumBignum a b := by
    simp only [product, Fixnum.isZero_eq, decide_eq_true_iff, mulIntegers]
    split
    · rename_i h
      rw [h, Int.zero_mul]
      rfl
    · rfl
  bignumFixnum a b := by
    simp only [product, Fixnum.isZero_eq, decide_eq_true_iff, mulIntegers]
    split
    · rename_i h
      rw [h, Int.mul_zero]
      rfl
    · rfl

theorem row_widens (op : BinaryOp) (limits : Limits) : (op.row limits).Widens := by
  cases op with
  | mul => exact product_widens
  | _ => exact ⟨fun _ _ => rfl, fun _ _ => rfl⟩

/-- Two words meet in their own cell, and all other integers in one. -/
theorem Widens.cell_ofInt {row : BinaryRow} (h : row.Widens) (v w : Int) :
    row.cell (ofInt v) (ofInt w) =
      if Fixnum.InRange v ∧ Fixnum.InRange w then row.fixnums (.ofInt v) (.ofInt w)
      else row.integers v w := by
  by_cases hv : Fixnum.InRange v
  · by_cases hw : Fixnum.InRange w
    · rw [ofInt_of_inRange hv, ofInt_of_inRange hw, if_pos ⟨hv, hw⟩, cell]
    · rw [ofInt_of_inRange hv, ofInt_of_not_inRange hw, if_neg (fun hvw => hw hvw.2), cell,
        h.fixnumBignum, Fixnum.toInt_ofInt hv]
  · rw [ofInt_of_not_inRange hv, if_neg (fun hvw => hv hvw.1)]
    by_cases hw : Fixnum.InRange w
    · rw [ofInt_of_inRange hw, cell, h.bignumFixnum, Fixnum.toInt_ofInt hw]
    · rw [ofInt_of_not_inRange hw, cell]

/-- A row has one outcome for integers if its word cell has it for words and
its integer cell for all others. -/
theorem Widens.cell_eq {row : BinaryRow} {f : Int → Int → Outcome} (h : row.Widens)
    (words : ∀ a b : Fixnum, row.fixnums a b = f a.toInt b.toInt)
    (integers : ∀ {v w}, ¬ Fixnum.InRange v ∨ ¬ Fixnum.InRange w → row.integers v w = f v w)
    (v w : Int) : row.cell (ofInt v) (ofInt w) = f v w := by
  rw [h.cell_ofInt]
  split
  · rename_i hvw
    rw [words, Fixnum.toInt_ofInt hvw.1, Fixnum.toInt_ofInt hvw.2]
  · rename_i hvw
    exact integers (not_and_or.1 hvw)

/-! ## The check that comes first -/

/-- The check for a zero divisor is the rule for one. -/
theorem run_of_rejectZeroDivisor {row : BinaryRow} {op : BinaryOp}
    (h : row.precheck = rejectZeroDivisor op) (a b : Number) :
    row.run a b = if b.IsZeroDivisor then .error (.zeroDivisor op.name a b) else row.cell a b := by
  rw [run, h, rejectZeroDivisor]
  simp only [isZero_iff]
  by_cases hb : b.IsZeroDivisor
  · simp only [if_pos hb]
  · simp only [if_neg hb]

end BinaryRow

/-- **The first rule comes before the kinds**, and then the cell decides. -/
theorem BinaryOp.apply_eq_cell (op : BinaryOp) (limits : Limits) (a b : Number) :
    op.apply limits a b =
      if op.hasDivisor ∧ b.IsZeroDivisor then .error (.zeroDivisor op.name a b)
      else (op.row limits).cell a b := by
  cases op with
  | div | quotient | modulo =>
    simp only [hasDivisor, true_and]
    exact BinaryRow.run_of_rejectZeroDivisor rfl a b
  | _ => exact (if_neg fun h => absurd h.1 Bool.false_ne_true).symm

end NumericTower
