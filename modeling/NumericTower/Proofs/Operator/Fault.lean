import NumericTower.Operator.Apply
import NumericTower.Proofs.Flonum.Whole
/-!
# The faults of binary operators

Why a binary operator fails, said of its operands and not of the cells that
they meet in. Six rules are tried in the order of `BinaryOp.fault?`. The
first five look at the operands only, and the last one, which is for powers
and shifts of exact operands, at the limit too.

That the operators fail by these rules and by nothing else is
`apply_eq_error_iff`.
-/

namespace NumericTower

namespace Number

/-- Exact zero, `0.0` and `-0.0`. -/
def IsZeroDivisor (b : Number) : Prop :=
  b = .zero ∨ b = .flonum (.zero false) ∨ b = .flonum (.zero true)

instance (b : Number) : Decidable b.IsZeroDivisor :=
  inferInstanceAs (Decidable (b = .zero ∨ b = .flonum (.zero false) ∨ b = .flonum (.zero true)))

/-- The test for zero finds the zero divisors. -/
theorem isZero_iff (b : Number) : b.isZero = true ↔ b.IsZeroDivisor := by
  cases b with
  | fixnum b =>
    cases b
    simp [isZero, IsZeroDivisor, zero, Fixnum.isZero, Fixnum.zero]
  | bignum b => simp [isZero, IsZeroDivisor, zero]
  | flonum y => simp [isZero, IsZeroDivisor, zero, y.isZero_iff]

/-- What has an integer is exact. -/
theorem isExact_of_toInt? {n : Number} {v : Int} (h : n.toInt? = some v) : n.isExact = true := by
  cases n with
  | fixnum _ => rfl
  | bignum _ => rfl
  | flonum _ => cases h

/-- Of two operands, the leftmost one that is a flonum of some sort. -/
def leftmostFlonum? (sort : Flonum → Bool) (a b : Number) : Option Flonum :=
  (a.asFlonum?.filter sort).or (b.asFlonum?.filter sort)

end Number

namespace BinaryOp

/-- The operators that have a divisor. -/
def hasDivisor : BinaryOp → Bool
  | .div | .quotient | .modulo => true
  | _ => false

/-- The operators with a shift amount. -/
def isShift : BinaryOp → Bool
  | .shiftLeft | .shiftRight => true
  | _ => false

/-- What an operator that takes no flonums asks for instead. -/
def exactOnly? : BinaryOp → Option String
  | .quotient => some "integer"
  | .shiftLeft | .shiftRight | .bitAnd | .bitOr | .bitXor => some "exact integer"
  | _ => none

/-! ## The rules -/

/-- A zero divisor of either exactness, whatever the kind of the dividend. -/
def zeroDivisor? (op : BinaryOp) (a b : Number) : Option NumericError :=
  if op.hasDivisor ∧ b.IsZeroDivisor then some (.zeroDivisor op.name a b) else none

/-- A flonum where only exact operands are taken. -/
def inexactOperand? (op : BinaryOp) (a b : Number) : Option NumericError :=
  op.exactOnly?.bind fun expected =>
    (Number.leftmostFlonum? (fun _ => true) a b).map fun x =>
      .typeMismatch op.name expected (.flonum x)

/-- A flonum that modulo does not take, because it is not whole. -/
def fractionalOperand? (op : BinaryOp) (a b : Number) : Option NumericError :=
  if op = .modulo then
    (Number.leftmostFlonum? (fun x => ¬ x.IsWhole) a b).map fun x =>
      .typeMismatch op.name "integer" (.flonum x)
  else none

/-- A shift amount that no word holds. -/
def hugeShift? (op : BinaryOp) (b : Number) : Option NumericError :=
  if op.isShift ∧ b.kind = .bignum then some (.shiftTooLarge op.name b) else none

/-- Exact zero under a negative exact exponent: one divided by zero. -/
def zeroPower? (op : BinaryOp) (a b : Number) : Option NumericError :=
  if op = .expt ∧ a = .zero ∧ b.toInt?.any (· < 0) then
    some (.zeroDivisor op.name (.ofInt 1) .zero)
  else none

open TwosComplement in
/-- The bits that are compared with the limit, if any are: for a power, of
which only a lower bound is known beforehand, that bound, and for a left
shift the bits of the result. A power or a left shift that a word holds is
not compared; a right shift by a negative amount always is, and so is the
shift of a bignum to the right by nothing. -/
def checkedBits? : BinaryOp → Int → Int → Option Nat
  | .expt, v, w =>
    if 0 ≤ w ∧ ¬ Fixnum.InRange (v ^ w.natAbs) then some ((bitLength v - 1) * w.natAbs + 1)
    else none
  | .shiftLeft, v, w =>
    if 0 ≤ w ∧ ¬ Fixnum.InRange (v <<< w.natAbs) then some (w.natAbs + bitLength v) else none
  | .shiftRight, v, w =>
    if v ≠ 0 ∧ w ≤ 0 ∧ (w = 0 → ¬ Fixnum.InRange v) then some (w.natAbs + bitLength v) else none
  | _, _, _ => none

/-- More bits than the limit allows, or an exponent that is never computed
with. -/
def limitFault? (op : BinaryOp) (limits : Limits) (v w : Int) : Option NumericError :=
  (op.checkedBits? v w).bind fun bits =>
    if limits.maxIntegerBits < Limits.saturated bits ∨
        (op = .expt ∧ BinaryRow.largestExponent < w.natAbs) then
      some (.limitExceeded op.name (Limits.saturated bits) limits.maxIntegerBits)
    else none

/-- The limit, for exact operands. -/
def limitReached? (op : BinaryOp) (limits : Limits) (a b : Number) : Option NumericError :=
  a.toInt?.bind fun v => b.toInt?.bind fun w => op.limitFault? limits v w

/-- **Why an operator fails**, if it does: the first of the six rules that
applies. -/
def fault? (op : BinaryOp) (limits : Limits) (a b : Number) : Option NumericError :=
  (op.zeroDivisor? a b).or <| (op.inexactOperand? a b).or <| (op.fractionalOperand? a b).or <|
    (op.hugeShift? b).or <| (op.zeroPower? a b).or <| op.limitReached? limits a b

/-! ## What a fault tells -/

/-- The operators that a limit applies to. -/
def isLimited : BinaryOp → Bool
  | .expt | .shiftLeft | .shiftRight => true
  | _ => false

theorem isLimited_of_checkedBits? {op : BinaryOp} {v w : Int} {bits : Nat}
    (h : op.checkedBits? v w = some bits) : op.isLimited = true := by
  cases op <;> first | rfl | cases h

/-- The limit is reached by a limited operator on exact operands, and the
error names the bits and the limit. -/
theorem limitReached?_eq_some {op : BinaryOp} {limits : Limits} {a b : Number} {e : NumericError}
    (h : op.limitReached? limits a b = some e) :
    op.isLimited = true ∧ a.isExact = true ∧ b.isExact = true ∧
      ∃ bits, e = .limitExceeded op.name (Limits.saturated bits) limits.maxIntegerBits := by
  obtain ⟨v, hv, h⟩ := Option.bind_eq_some_iff.1 h
  obtain ⟨w, hw, h⟩ := Option.bind_eq_some_iff.1 h
  obtain ⟨bits, hbits, h⟩ := Option.bind_eq_some_iff.1 h
  refine ⟨isLimited_of_checkedBits? hbits, Number.isExact_of_toInt? hv,
    Number.isExact_of_toInt? hw, bits, ?_⟩
  split at h
  · exact (Option.some.inj h).symm
  · cases h

/-- **What the rules can say.** The operands are blamed in three ways, and the
limit in one. -/
theorem eq_of_fault? {op : BinaryOp} {limits : Limits} {a b : Number} {e : NumericError}
    (h : op.fault? limits a b = some e) :
    (∃ dividend divisor, e = .zeroDivisor op.name dividend divisor) ∨
      (∃ expected actual, e = .typeMismatch op.name expected actual) ∨
      (∃ amount, e = .shiftTooLarge op.name amount) ∨
      op.isLimited = true ∧ a.isExact = true ∧ b.isExact = true ∧
        ∃ bits, e = .limitExceeded op.name (Limits.saturated bits) limits.maxIntegerBits := by
  simp only [fault?, Option.or_eq_some_iff] at h
  rcases h with h | ⟨-, h | ⟨-, h | ⟨-, h | ⟨-, h | ⟨-, h⟩⟩⟩⟩⟩
  · obtain ⟨-, ⟨⟩⟩ := Option.ite_none_right_eq_some.1 h
    exact .inl ⟨a, b, rfl⟩
  · obtain ⟨expected, -, h⟩ := Option.bind_eq_some_iff.1 h
    obtain ⟨x, -, rfl⟩ := Option.map_eq_some_iff.1 h
    exact .inr (.inl ⟨expected, .flonum x, rfl⟩)
  · obtain ⟨-, h⟩ := Option.ite_none_right_eq_some.1 h
    obtain ⟨x, -, rfl⟩ := Option.map_eq_some_iff.1 h
    exact .inr (.inl ⟨"integer", .flonum x, rfl⟩)
  · obtain ⟨-, ⟨⟩⟩ := Option.ite_none_right_eq_some.1 h
    exact .inr (.inr (.inl ⟨b, rfl⟩))
  · obtain ⟨-, ⟨⟩⟩ := Option.ite_none_right_eq_some.1 h
    exact .inl ⟨.ofInt 1, .zero, rfl⟩
  · exact .inr (.inr (.inr (limitReached?_eq_some h)))

end BinaryOp

end NumericTower
