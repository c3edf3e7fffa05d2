import NumericTower.Proofs.Operator.Power
import NumericTower.Proofs.Operator.Shift
/-!
# Operators on exact numbers

An operator on exact operands is an operation on their integers, whatever
represents them (`apply_ofInt`): a fault that the rules find, or else the
canonical number of the integer that the operator makes of the two.

For addition, subtraction, multiplication, negation and the absolute value
the rules find nothing, and these never fail (`arithmetic_exact`).
-/

namespace NumericTower

open BinaryRow Number TwosComplement

namespace BinaryOp

/-- Without a limit to reach, only a zero divisor is left of the rules. -/
theorem exactOutcome_of_not_isLimited {op : BinaryOp} (h : op.isLimited = false) (limits : Limits)
    (v w : Int) :
    op.exactOutcome limits v w =
      if op.hasDivisor ∧ w = 0 then .error (.zeroDivisor op.name (ofInt v) (ofInt w))
      else .ok (ofInt (op.value v w)) := by
  have hshift : op.isShift = false := by cases op <;> first | rfl | cases h
  have hexpt : op ≠ .expt := by rintro rfl; cases h
  have hbits : op.checkedBits? v w = none := by cases op <;> first | rfl | cases h
  rw [exactOutcome, fault?_ofInt, limitFault?, hbits]
  simp only [hshift, hexpt, Bool.false_eq_true, false_and, if_false, Option.bind_none,
    Option.or_none]
  split <;> rfl

end BinaryOp

namespace BinaryRow

/-! ## Cells that no limit applies to -/

/-- A word operation that finds overflow exactly gives the integer's own
number, before or after promotion. -/
theorem promote_eq_ok {a b : Fixnum} {v : Int} {integers : Int → Int → Outcome}
    (h : integers a.toInt b.toInt = .ok (ofInt v)) :
    promote (Fixnum.ofInt? v) integers a b = .ok (ofInt v) :=
  (promote_ofInt? fun _ => h).trans h

theorem ok_fixnum_eq {a : Fixnum} {v : Int} (h : a.toInt = v) :
    (.ok (.fixnum a) : Outcome) = .ok (ofInt v) := by
  rw [← h, ofInt_toInt]

variable {op : BinaryOp}

/-- The integer cells compute the operators' integers. -/
theorem integers_eq_value (h : op.isLimited = false) (limits : Limits) {v w : Int}
    (hw : op.hasDivisor = true → w ≠ 0) :
    (op.row limits).integers v w = .ok (ofInt (op.value v w)) := by
  cases op with
  | div | quotient => exact if_neg (hw rfl)
  | modulo =>
    change (remainder v w).map ofInt = _
    rw [remainder, if_neg (hw rfl)]
    rfl
  | expt | shiftLeft | shiftRight => cases h
  | _ => rfl

/-- So do the word cells, on the values of the words. -/
theorem fixnums_eq_value (h : op.isLimited = false) (limits : Limits) {a b : Fixnum}
    (hb : op.hasDivisor = true → b.toInt ≠ 0) :
    (op.row limits).fixnums a b = .ok (ofInt (op.value a.toInt b.toInt)) := by
  have hintegers := integers_eq_value h limits (v := a.toInt) hb
  cases op with
  | add =>
    change promote (a.add? b) addIntegers a b = _
    rw [Fixnum.add?_eq]
    exact promote_eq_ok hintegers
  | sub =>
    change promote (a.sub? b) subIntegers a b = _
    rw [Fixnum.sub?_eq]
    exact promote_eq_ok hintegers
  | mul =>
    change promote (a.mul? b) mulIntegers a b = _
    rw [Fixnum.mul?_eq]
    exact promote_eq_ok hintegers
  | div => exact (divideFixnums_eq .div a b).trans hintegers
  | quotient => exact (divideFixnums_eq .quotient a b).trans hintegers
  | modulo => exact (modulo_fixnums_eq a b).trans hintegers
  | expt | shiftLeft | shiftRight => cases h
  | bitAnd => exact ok_fixnum_eq (a.toInt_bitAnd b)
  | bitOr => exact ok_fixnum_eq (a.toInt_bitOr b)
  | bitXor => exact ok_fixnum_eq (a.toInt_bitXor b)
  | max => exact (maximum_fixnums_eq a b).trans hintegers
  | min => exact (minimum_fixnums_eq a b).trans hintegers

theorem cell_eq_value (h : op.isLimited = false) (limits : Limits) {v w : Int}
    (hw : op.hasDivisor = true → w ≠ 0) :
    (op.row limits).cell (ofInt v) (ofInt w) = .ok (ofInt (op.value v w)) := by
  rw [(row_widens op limits).cell_ofInt]
  split
  · rename_i hrange
    have hword : (Fixnum.ofInt w).toInt = w := Fixnum.toInt_ofInt hrange.2
    rw [fixnums_eq_value h limits (by rwa [hword]), hword, Fixnum.toInt_ofInt hrange.1]
  · exact integers_eq_value h limits hw

end BinaryRow

/-! ## The table -/

/-- **Operators on exact operands are operations on integers.** The operands
are the canonical numbers of two integers, so that every mix of words and
bignums is one case. -/
theorem BinaryOp.apply_ofInt (op : BinaryOp) (limits : Limits) (v w : Int) :
    op.apply limits (ofInt v) (ofInt w) = op.exactOutcome limits v w := by
  cases hlimited : op.isLimited with
  | true =>
    cases op with
    | expt => exact power_cell_eq limits v w
    | shiftLeft => exact shiftLeft_cell_eq limits v w
    | shiftRight => exact shiftRight_cell_eq limits v w
    | _ => cases hlimited
  | false =>
    rw [op.exactOutcome_of_not_isLimited hlimited, op.apply_eq_cell]
    simp only [isZeroDivisor_ofInt]
    by_cases hzero : op.hasDivisor = true ∧ w = 0
    · rw [if_pos hzero, if_pos hzero]
    · rw [if_neg hzero, if_neg hzero]
      exact cell_eq_value hlimited limits fun hdivisor hw => hzero ⟨hdivisor, hw⟩

/-- Where no limit applies a nonzero divisor is all that an operator asks
for. -/
theorem BinaryOp.apply_ofInt_eq_ok {op : BinaryOp} (h : op.isLimited = false) (limits : Limits)
    {v w : Int} (hw : op.hasDivisor = true → w ≠ 0) :
    op.apply limits (ofInt v) (ofInt w) = .ok (ofInt (op.value v w)) := by
  rw [op.apply_ofInt, op.exactOutcome_of_not_isLimited h, if_neg fun hzero => hw hzero.1 hzero.2]

/-- And the others never fail. -/
theorem BinaryOp.apply_ofInt_of_not_hasDivisor {op : BinaryOp} (h : op.isLimited = false)
    (hdivisor : op.hasDivisor = false) (limits : Limits) (v w : Int) :
    op.apply limits (ofInt v) (ofInt w) = .ok (ofInt (op.value v w)) :=
  apply_ofInt_eq_ok h limits fun hw => absurd (hdivisor.symm.trans hw) Bool.false_ne_true

/-! ## Negation and the absolute value -/

theorem negateFixnum_eq (a : Fixnum) : UnaryRow.negateFixnum a = ofInt (-a.toInt) := by
  rw [UnaryRow.negateFixnum, Fixnum.neg?_eq, Fixnum.ofInt?]
  by_cases h : Fixnum.InRange (-a.toInt)
  · rw [if_pos h, ofInt_of_inRange h]
  · rw [if_neg h]

theorem negate_apply_ofInt (v : Int) : UnaryOp.negate.apply (ofInt v) = .ok (ofInt (-v)) := by
  by_cases h : Fixnum.InRange v
  · rw [ofInt_of_inRange h]
    change Except.ok (UnaryRow.negateFixnum (.ofInt v)) = _
    rw [negateFixnum_eq, Fixnum.toInt_ofInt h]
  · rw [ofInt_of_not_inRange h]
    rfl

theorem abs_apply_ofInt (v : Int) : UnaryOp.abs.apply (ofInt v) = .ok (ofInt |v|) := by
  by_cases h : Fixnum.InRange v
  · rw [ofInt_of_inRange h]
    change Except.ok (if (Fixnum.ofInt v).isNegative then UnaryRow.negateFixnum (.ofInt v)
      else .fixnum (.ofInt v)) = _
    rw [Fixnum.isNegative_eq, negateFixnum_eq, Fixnum.toInt_ofInt h]
    rcases lt_or_ge v 0 with hneg | hpos
    · rw [if_pos (decide_eq_true hneg), abs_of_neg hneg]
    · rw [if_neg (by simpa using hpos), abs_of_nonneg hpos, ofInt_of_inRange h]
  · rw [ofInt_of_not_inRange h, ← Int.natCast_natAbs]
    rfl

/-! ## Arithmetic -/

/-- The outcome is the canonical number of an integer. -/
def Outcome.IsInteger (outcome : Outcome) (v : Int) : Prop :=
  ∃ n, outcome = .ok n ∧ n.Canonical ∧ n.toInt? = some v

theorem Outcome.isInteger_ofInt (v : Int) : Outcome.IsInteger (.ok (ofInt v)) v :=
  ⟨ofInt v, rfl, canonical_ofInt v, toInt?_ofInt v⟩

/-- The result is the canonical number of the operator's integer. -/
theorem BinaryOp.isInteger_apply_ofInt {op : BinaryOp} (h : op.isLimited = false)
    (limits : Limits) {v w : Int} (hw : op.hasDivisor = true → w ≠ 0) :
    (op.apply limits (ofInt v) (ofInt w)).IsInteger (op.value v w) := by
  rw [apply_ofInt_eq_ok h limits hw]
  exact Outcome.isInteger_ofInt _

/-- **Exact arithmetic is arithmetic on the integers**, at every magnitude
and under every limit: none of the five operators fails, and each gives the
canonical number of the integer, promoted or narrowed as need be. -/
theorem arithmetic_exact (limits : Limits) {a b : Number} (ha : a.Canonical) (hb : b.Canonical)
    {v w : Int} (hv : a.toInt? = some v) (hw : b.toInt? = some w) :
    (BinaryOp.add.apply limits a b).IsInteger (v + w) ∧
      (BinaryOp.sub.apply limits a b).IsInteger (v - w) ∧
      (BinaryOp.mul.apply limits a b).IsInteger (v * w) ∧
      (UnaryOp.negate.apply a).IsInteger (-v) ∧ (UnaryOp.abs.apply a).IsInteger |v| := by
  obtain rfl := eq_ofInt_of_toInt? ha hv
  obtain rfl := eq_ofInt_of_toInt? hb hw
  have binary (op : BinaryOp) (hlimited : op.isLimited = false) (hdivisor : op.hasDivisor = false) :
      (op.apply limits (ofInt v) (ofInt w)).IsInteger (op.value v w) := by
    rw [op.apply_ofInt, op.exactOutcome_of_not_isLimited hlimited, hdivisor,
      if_neg fun h => absurd h.1 Bool.false_ne_true]
    exact Outcome.isInteger_ofInt _
  refine ⟨binary .add rfl rfl, binary .sub rfl rfl, binary .mul rfl rfl, ?_, ?_⟩
  · rw [negate_apply_ofInt]
    exact Outcome.isInteger_ofInt _
  · rw [abs_apply_ofInt]
    exact Outcome.isInteger_ofInt _

/-- Just past the greatest word the difference with it is a word again, and
the negative is the least word. -/
theorem arithmetic_exact_word_ends :
    let a : Number := .bignum ⟨9223372036854775808⟩
    let b : Number := .fixnum (.ofInt 9223372036854775807)
    a.Canonical ∧ b.Canonical ∧ a.toInt? = some 9223372036854775808 ∧
      b.toInt? = some 9223372036854775807 ∧
      (BinaryOp.add.apply ⟨0⟩ a b).IsInteger (9223372036854775808 + 9223372036854775807) ∧
      (BinaryOp.sub.apply ⟨0⟩ a b).IsInteger (9223372036854775808 - 9223372036854775807) ∧
      (BinaryOp.mul.apply ⟨0⟩ a b).IsInteger (9223372036854775808 * 9223372036854775807) ∧
      (UnaryOp.negate.apply a).IsInteger (-9223372036854775808) ∧
      (UnaryOp.abs.apply a).IsInteger |9223372036854775808| := by
  have ha : (Number.bignum ⟨9223372036854775808⟩).Canonical := by
    rw [canonical_bignum]
    decide
  have hb := canonical_fixnum (.ofInt 9223372036854775807)
  exact ⟨ha, hb, rfl, by decide, arithmetic_exact ⟨0⟩ ha hb rfl (by decide)⟩

end NumericTower
