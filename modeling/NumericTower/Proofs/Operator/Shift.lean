import NumericTower.Proofs.Operator.Integers
/-!
# Shifts of exact numbers

A shift to the right always succeeds. A shift to the left is compared with
the limit by the bits of its result, unless it is written as one and a word
holds the result. No bignum shifts to the left into a word, so that
exception too is said of integers alone.
-/

namespace NumericTower.BinaryRow

open Number TwosComplement

/-- The bits of a left shift, as they are compared and reported. -/
def shiftBits (v amount : Int) : UInt64 := Limits.saturated (amount.natAbs + bitLength v)

/-- Zero has no bits to be counted. -/
theorem shiftInteger_zero (op : BinaryOp) (limits : Limits) (amount : Int) :
    shiftInteger op limits 0 amount = .ok zero := by
  rw [shiftInteger, if_pos rfl]

/-- A left shift of anything else is compared with the limit. -/
theorem shiftInteger_of_ne_zero {op : BinaryOp} {limits : Limits} {v amount : Int} (hv : v ≠ 0)
    (h : 0 ≤ amount) :
    shiftInteger op limits v amount =
      if limits.maxIntegerBits < shiftBits v amount then
        .error (.limitExceeded op.name (shiftBits v amount) limits.maxIntegerBits)
      else .ok (.ofInt (v <<< amount.natAbs)) := by
  rw [shiftInteger, if_neg hv, if_neg (by omega), ← shiftBits, Limits.checkIntegerBits]
  by_cases hlimit : limits.maxIntegerBits < shiftBits v amount
  · simp only [hlimit, if_true]
  · simp only [hlimit, if_false]

theorem not_inRange_shiftLeft_of_not_inRange {v : Int} (h : ¬ Fixnum.InRange v) (n : Nat) :
    ¬ Fixnum.InRange (v <<< n) := by
  rw [Int.shiftLeft_eq]
  exact Fixnum.not_inRange_mul_of_pos h (by positivity)

/-- A word holds every shift of zero. -/
theorem ne_zero_of_not_inRange_shiftLeft {v : Int} {n : Nat} (h : ¬ Fixnum.InRange (v <<< n)) :
    v ≠ 0 := by
  rintro rfl
  rw [Int.zero_shiftLeft] at h
  exact h (by decide)

/-- A shift amount has to be a word, and then only the limit is left. -/
theorem fault?_of_isShift {op : BinaryOp} (h : op.isShift = true) {v w : Int} {c : Prop}
    [Decidable c]
    (hbits : op.checkedBits? v w = if c then some (w.natAbs + bitLength v) else none)
    (limits : Limits) :
    op.fault? limits (ofInt v) (ofInt w) =
      if ¬ Fixnum.InRange w then some (.shiftTooLarge op.name (ofInt w))
      else if c ∧ limits.maxIntegerBits < shiftBits v w then
        some (.limitExceeded op.name (shiftBits v w) limits.maxIntegerBits)
      else none := by
  have hdivisor : op.hasDivisor = false := by cases op <;> first | rfl | cases h
  have hexpt : op ≠ .expt := by rintro rfl; cases h
  rw [BinaryOp.fault?_ofInt, BinaryOp.limitFault?, hbits]
  simp only [h, hdivisor, hexpt, Bool.false_eq_true, false_and, if_false, true_and,
    Option.none_or, or_false]
  by_cases hw : Fixnum.InRange w
  · rw [if_neg (not_not_intro hw), if_neg (not_not_intro hw), Option.none_or]
    by_cases hc : c
    · simp only [if_pos hc, and_iff_right hc, Option.bind_some, shiftBits]
    · rw [if_neg hc, if_neg (fun hlimit => hc hlimit.1), Option.bind_none]
  · rw [if_pos hw, if_pos hw, Option.some_or]

/-! ## The left shift -/

theorem fault?_shiftLeft (limits : Limits) (v w : Int) :
    BinaryOp.shiftLeft.fault? limits (ofInt v) (ofInt w) =
      if ¬ Fixnum.InRange w then some (.shiftTooLarge BinaryOp.shiftLeft.name (ofInt w))
      else if (0 ≤ w ∧ ¬ Fixnum.InRange (v <<< w.natAbs)) ∧
          limits.maxIntegerBits < shiftBits v w then
        some (.limitExceeded BinaryOp.shiftLeft.name (shiftBits v w) limits.maxIntegerBits)
      else none :=
  fault?_of_isShift rfl rfl limits

/-- The integer cell reaches the outcome of its integers, except that it
compares shifts with the limit which a word would hold. -/
theorem shiftLeftIntegers_eq_exactOutcome {limits : Limits} {v w : Int}
    (h : 0 ≤ w → Fixnum.InRange (v <<< w.natAbs) → v = 0) :
    shiftLeftIntegers limits v w = BinaryOp.shiftLeft.exactOutcome limits v w := by
  rw [shiftLeftIntegers, BinaryOp.exactOutcome, fault?_shiftLeft, BinaryOp.value]
  by_cases hrange : Fixnum.InRange w
  · rw [if_pos hrange, if_neg (not_not_intro hrange)]
    by_cases hw : 0 ≤ w
    · rw [if_pos hw]
      by_cases hv : v = 0
      · have hin : Fixnum.InRange (v <<< w.natAbs) := by rw [hv, Int.zero_shiftLeft]; decide
        rw [if_neg (fun hlimit => hlimit.1.2 hin), hv, shiftInteger_zero, Int.zero_shiftLeft]
        rfl
      · have hin : ¬ Fixnum.InRange (v <<< w.natAbs) := fun hin => hv (h hw hin)
        rw [shiftInteger_of_ne_zero hv hw]
        simp only [and_iff_right (And.intro hw hin)]
        split <;> rfl
    · rw [shiftInteger_of_neg (by omega), if_neg (fun hlimit => hw hlimit.1.1), if_neg hw]
      rfl
  · rw [if_neg hrange, if_pos hrange]
    rfl

/-- **Left shifts of exact operands**, whatever represents them. -/
theorem shiftLeft_cell_eq (limits : Limits) (v w : Int) :
    (shiftLeft limits).cell (ofInt v) (ofInt w) = BinaryOp.shiftLeft.exactOutcome limits v w := by
  refine (row_widens .shiftLeft limits).cell_eq ?_ ?_ v w
  · intro a b
    change (shiftLeft limits).fixnums a b = _
    have hb := b.inRange_toInt
    simp only [shiftLeft, exactOnly, Fixnum.isNegative_eq, decide_eq_true_iff]
    split
    · rename_i hneg
      rw [← shiftLeftIntegers_eq_exactOutcome fun hpos => by omega, shiftLeftIntegers_eq,
        shiftInteger_of_neg hneg, ← Fixnum.toInt_shiftRight, ofInt_toInt]
    · rename_i hneg
      rw [Fixnum.shiftLeft?_eq, Fixnum.ofInt?]
      by_cases hin : Fixnum.InRange (a.toInt <<< b.toInt.natAbs)
      · -- a word holds the shift, and nothing is compared
        rw [if_pos hin, promote, BinaryOp.exactOutcome, fault?_shiftLeft,
          if_neg (not_not_intro hb), if_neg (fun hlimit => hlimit.1.2 hin), BinaryOp.value,
          if_pos (by omega), ofInt_of_inRange hin]
        rfl
      · rw [if_neg hin, promote]
        exact shiftLeftIntegers_eq_exactOutcome fun _ h => absurd h hin
  · intro v w hvw
    change shiftLeftIntegers limits v w = _
    by_cases hv : Fixnum.InRange v
    · have hw : ¬ Fixnum.InRange w := hvw.resolve_left (not_not_intro hv)
      rw [shiftLeftIntegers, if_neg hw, BinaryOp.exactOutcome, fault?_shiftLeft, if_pos hw]
      rfl
    · exact shiftLeftIntegers_eq_exactOutcome fun _ hin =>
        absurd hin (not_inRange_shiftLeft_of_not_inRange hv _)

/-! ## The right shift -/

theorem fault?_shiftRight (limits : Limits) (v w : Int) :
    BinaryOp.shiftRight.fault? limits (ofInt v) (ofInt w) =
      if ¬ Fixnum.InRange w then some (.shiftTooLarge BinaryOp.shiftRight.name (ofInt w))
      else if (v ≠ 0 ∧ w ≤ 0 ∧ (w = 0 → ¬ Fixnum.InRange v)) ∧
          limits.maxIntegerBits < shiftBits v w then
        some (.limitExceeded BinaryOp.shiftRight.name (shiftBits v w) limits.maxIntegerBits)
      else none :=
  fault?_of_isShift rfl rfl limits

/-- The integer cell reaches the outcome of its integers, except that it
compares a word shifted by nothing with the limit. -/
theorem shiftRightIntegers_eq_exactOutcome {limits : Limits} {v w : Int}
    (h : w = 0 → Fixnum.InRange v → v = 0) :
    shiftRightIntegers limits v w = BinaryOp.shiftRight.exactOutcome limits v w := by
  rw [shiftRightIntegers, BinaryOp.exactOutcome, fault?_shiftRight, BinaryOp.value]
  by_cases hrange : Fixnum.InRange w
  · rw [if_pos hrange, if_neg (not_not_intro hrange)]
    by_cases hw : 0 < w
    · rw [shiftInteger_of_neg (by omega), if_neg (by omega), if_pos hw, Int.natAbs_neg]
      rfl
    · rw [if_neg hw]
      by_cases hv : v = 0
      · rw [if_neg (fun hlimit => hlimit.1.1 hv), hv, shiftInteger_zero, Int.zero_shiftLeft]
        rfl
      · have hcheck : v ≠ 0 ∧ w ≤ 0 ∧ (w = 0 → ¬ Fixnum.InRange v) :=
          ⟨hv, by omega, fun h0 hin => hv (h h0 hin)⟩
        rw [shiftInteger_of_ne_zero hv (by omega), shiftBits, Int.natAbs_neg, ← shiftBits]
        simp only [and_iff_right hcheck]
        split <;> rfl
  · rw [if_neg hrange, if_pos hrange]
    rfl

/-- **Right shifts of exact operands**, whatever represents them. -/
theorem shiftRight_cell_eq (limits : Limits) (v w : Int) :
    (shiftRight limits).cell (ofInt v) (ofInt w) =
      BinaryOp.shiftRight.exactOutcome limits v w := by
  refine (row_widens .shiftRight limits).cell_eq ?_ ?_ v w
  · intro a b
    change (shiftRight limits).fixnums a b = _
    have hb := b.inRange_toInt
    simp only [shiftRight, exactOnly, Fixnum.isNegative_eq, decide_eq_true_iff]
    split
    · exact shiftRightIntegers_eq_exactOutcome fun h0 => by omega
    · rename_i hneg
      rw [← ofInt_toInt, Fixnum.toInt_shiftRight]
      rcases eq_or_ne b.toInt 0 with h0 | h0
      · -- by nothing, where a word is not compared
        rw [BinaryOp.exactOutcome, fault?_shiftRight, if_neg (not_not_intro hb),
          if_neg (fun hlimit => hlimit.1.2.2 h0 a.inRange_toInt), BinaryOp.value, h0]
        simp
      · rw [← shiftRightIntegers_eq_exactOutcome fun h => absurd h h0, shiftRightIntegers_eq,
          shiftInteger_of_neg (by omega), Int.natAbs_neg]
  · intro v w hvw
    change shiftRightIntegers limits v w = _
    by_cases hv : Fixnum.InRange v
    · have hw : ¬ Fixnum.InRange w := hvw.resolve_left (not_not_intro hv)
      exact shiftRightIntegers_eq_exactOutcome fun h0 => absurd (by rw [h0]; decide) hw
    · exact shiftRightIntegers_eq_exactOutcome fun _ hin => absurd hin hv

end NumericTower.BinaryRow
