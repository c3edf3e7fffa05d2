import NumericTower.Proofs.Operator.Boundary
/-!
# What the error of a limit tells

An operator is rejected by the limit for a count of bits that is known from
its operands, and the result has at least that many
(`checkedBits?_le_bitLength`). So the error never claims more bits than the
result has, and they are more than the limit allows
(`limitExceeded_truthful`).

The exception are powers with an exponent of `2^32` or more. These are
rejected under every limit, as if they were too long. No limit up to `2^32`
has room for them, but one past it may have (`limitExceeded_within_limit`).
-/

namespace NumericTower

open BinaryRow Number TwosComplement

namespace BinaryOp

variable {op : BinaryOp} {limits : Limits} {a b : Number} {e : NumericError}

/-! ## The rule for limits, apart from the others -/

/-- The first five rules, which look at the operands only. -/
def operandFault? (op : BinaryOp) (a b : Number) : Option NumericError :=
  (op.zeroDivisor? a b).or <| (op.inexactOperand? a b).or <| (op.fractionalOperand? a b).or <|
    (op.hugeShift? b).or <| op.zeroPower? a b

theorem fault?_eq_or (op : BinaryOp) (limits : Limits) (a b : Number) :
    op.fault? limits a b = (op.operandFault? a b).or (op.limitReached? limits a b) := by
  simp only [fault?, operandFault?, Option.or_assoc]

/-- What the operands are at fault for is the client's error. -/
theorem isClientError_of_operandFault? (h : op.operandFault? a b = some e) :
    e.isClientError = true := by
  simp only [operandFault?, Option.or_eq_some_iff] at h
  rcases h with h | ⟨-, h | ⟨-, h | ⟨-, h | ⟨-, h⟩⟩⟩⟩
  · obtain ⟨-, ⟨⟩⟩ := Option.ite_none_right_eq_some.1 h
    rfl
  · obtain ⟨expected, -, h⟩ := Option.bind_eq_some_iff.1 h
    obtain ⟨x, -, rfl⟩ := Option.map_eq_some_iff.1 h
    rfl
  · obtain ⟨-, h⟩ := Option.ite_none_right_eq_some.1 h
    obtain ⟨x, -, rfl⟩ := Option.map_eq_some_iff.1 h
    rfl
  · obtain ⟨-, ⟨⟩⟩ := Option.ite_none_right_eq_some.1 h
    rfl
  · obtain ⟨-, ⟨⟩⟩ := Option.ite_none_right_eq_some.1 h
    rfl

/-- An error of a limit comes of the last rule. -/
theorem limitReached?_of_fault? {operation : String} {bits most : UInt64}
    (h : op.fault? limits a b = some (.limitExceeded operation bits most)) :
    op.limitReached? limits a b = some (.limitExceeded operation bits most) := by
  rw [fault?_eq_or, Option.or_eq_some_iff] at h
  rcases h with h | ⟨-, h⟩
  · cases isClientError_of_operandFault? h
  · exact h

theorem limitFault?_eq_some_iff {v w : Int} :
    op.limitFault? limits v w = some e ↔
      ∃ bits, op.checkedBits? v w = some bits ∧
        (limits.maxIntegerBits < Limits.saturated bits ∨
          (op = .expt ∧ largestExponent < w.natAbs)) ∧
        e = .limitExceeded op.name (Limits.saturated bits) limits.maxIntegerBits := by
  rw [limitFault?, Option.bind_eq_some_iff]
  refine exists_congr fun bits => and_congr_right fun _ => ?_
  rw [Option.ite_none_right_eq_some, Option.some_inj, eq_comm (a := e)]

/-! ## Truthful errors -/

/-- **The bits that are checked are bits of the result.** Those of a left
shift are all of them, and those of a power a lower bound. -/
theorem checkedBits?_le_bitLength {v w : Int} {bits : Nat}
    (h : op.checkedBits? v w = some bits) : bits ≤ bitLength (op.value v w) := by
  cases op with
  | expt =>
    obtain ⟨⟨hw, hin⟩, ⟨⟩⟩ := Option.ite_none_right_eq_some.1 h
    rw [value, if_pos hw]
    have hbase := (two_le_of_not_inRange_pow hin).1
    exact bitLength_growth_le (by omega) w.natAbs
  | shiftLeft =>
    obtain ⟨⟨hw, hin⟩, ⟨⟩⟩ := Option.ite_none_right_eq_some.1 h
    rw [value, if_pos hw, bitLength_shiftLeft (ne_zero_of_not_inRange_shiftLeft hin),
      Nat.add_comm]
  | shiftRight =>
    obtain ⟨⟨hv, hw, -⟩, ⟨⟩⟩ := Option.ite_none_right_eq_some.1 h
    rw [value, if_neg (by omega), bitLength_shiftLeft hv, Nat.add_comm]
  | _ => cases h

/-- Those of a power are more than its exponent, since the base is past
magnitude one. -/
theorem natAbs_lt_of_checkedBits? {v w : Int} {bits : Nat}
    (h : BinaryOp.expt.checkedBits? v w = some bits) : w.natAbs < bits := by
  obtain ⟨⟨-, hin⟩, ⟨⟩⟩ := Option.ite_none_right_eq_some.1 h
  have hlong := two_le_bitLength (two_le_of_not_inRange_pow hin).1
  have := Nat.mul_le_mul_right w.natAbs (by omega : 1 ≤ bitLength v - 1)
  omega

/-- **An error of a limit is truthful**, apart from powers whose exponent is
never computed with, under a limit that might have room for them. It names
the limit, the exact result has at least the bits that it names, and these
are more than the limit allows, so that nothing is rejected that the limit
has room for. -/
theorem limitExceeded_truthful (op : BinaryOp) {limits : Limits} {a b : Number}
    (ha : a.Canonical) (hb : b.Canonical) {v w : Int} (hv : a.toInt? = some v)
    (hw : b.toInt? = some w) {operation : String} {bits most : UInt64}
    (h : op.apply limits a b = .error (.limitExceeded operation bits most)) :
    operation = op.name ∧ most = limits.maxIntegerBits ∧
      bits.toNat ≤ bitLength (op.value v w) ∧
      ((op = .expt → w < 4294967296 ∨ limits.maxIntegerBits ≤ 4294967296) →
        most < bits ∧ most.toNat < bitLength (op.value v w)) := by
  obtain rfl := eq_ofInt_of_toInt? ha hv
  obtain rfl := eq_ofInt_of_toInt? hb hw
  rw [op.apply_ofInt, exactOutcome, Outcome.ofFault_eq_error_iff] at h
  have hlimit := limitReached?_of_fault? h
  rw [limitReached?, toInt?_ofInt, toInt?_ofInt, Option.bind_some, Option.bind_some,
    limitFault?_eq_some_iff] at hlimit
  obtain ⟨count, hcount, hcheck, ⟨⟩⟩ := hlimit
  have hresult := checkedBits?_le_bitLength hcount
  have hbits : (Limits.saturated count).toNat ≤ bitLength (op.value v w) := by
    rw [Limits.toNat_saturated]
    omega
  refine ⟨rfl, rfl, hbits, fun hexponent => ?_⟩
  have hless : limits.maxIntegerBits < Limits.saturated count := by
    rcases hcheck with hless | ⟨rfl, hlarge⟩
    · exact hless
    · -- the exponent is past the largest one, so the limit is one that no such power fits
      obtain ⟨⟨hnonneg, -⟩, -⟩ := Option.ite_none_right_eq_some.1 hcount
      have hmany := natAbs_lt_of_checkedBits? hcount
      unfold largestExponent at hlarge
      have hsmall := UInt64.le_iff_toNat_le.1 ((hexponent rfl).resolve_left (by omega))
      rw [UInt64.lt_iff_toNat_lt, Limits.toNat_saturated]
      have : (4294967296 : UInt64).toNat = 4294967296 := rfl
      omega
  exact ⟨hless, (UInt64.lt_iff_toNat_lt.1 hless).trans_le hbits⟩

/-- `2 ^ 64` has one bit more than a limit of 64 allows, and the error says
so. Nor has a limit of `2^32` room for `2 ^ 2^32`. -/
theorem limitExceeded_truthful_two :
    ((ofInt 2).Canonical ∧ (ofInt 64).Canonical ∧ (ofInt 2).toInt? = some 2 ∧
      (ofInt 64).toInt? = some 64 ∧
      BinaryOp.expt.apply ⟨64⟩ (ofInt 2) (ofInt 64) = .error (.limitExceeded "expt" 65 64) ∧
      (64 : Int) < 4294967296 ∧ (65 : UInt64).toNat ≤ bitLength (BinaryOp.expt.value 2 64) ∧
      (64 : UInt64) < 65 ∧ (64 : UInt64).toNat < bitLength (BinaryOp.expt.value 2 64)) ∧
    BinaryOp.expt.apply .permissive (ofInt 2) (ofInt 4294967296) =
        .error (.limitExceeded "expt" 4294967297 4294967296) ∧
      Limits.permissive.maxIntegerBits ≤ 4294967296 ∧
      (4294967296 : UInt64).toNat < bitLength (BinaryOp.expt.value 2 4294967296) := by
  have hpower : BinaryOp.expt.apply ⟨64⟩ (ofInt 2) (ofInt 64) =
      .error (.limitExceeded "expt" 65 64) := by decide +kernel
  have hexponent : (64 : Int) < 4294967296 := by decide
  have h := limitExceeded_truthful .expt (canonical_ofInt 2) (canonical_ofInt 64)
    (toInt?_ofInt 2) (toInt?_ofInt 64) hpower
  have hless := h.2.2.2 fun _ => .inl hexponent
  have hlarge : BinaryOp.expt.apply .permissive (ofInt 2) (ofInt 4294967296) =
      .error (.limitExceeded "expt" 4294967297 4294967296) := by decide +kernel
  have hlimit : Limits.permissive.maxIntegerBits ≤ 4294967296 := by decide
  have hroom := limitExceeded_truthful .expt (canonical_ofInt 2) (canonical_ofInt 4294967296)
    (toInt?_ofInt 2) (toInt?_ofInt 4294967296) hlarge
  exact ⟨⟨canonical_ofInt 2, canonical_ofInt 64, toInt?_ofInt 2, toInt?_ofInt 64, hpower,
    hexponent, h.2.2.1, hless.1, hless.2⟩, hlarge, hlimit, (hroom.2.2.2 fun _ => .inr hlimit).2⟩

/-- **From the exponent `2^32` on the error is not always truthful**:
`2 ^ 2^32` is rejected under a limit of `2^33` bits, of which it needs little
more than half. -/
theorem limitExceeded_within_limit :
    ¬ ∀ (op : BinaryOp) (limits : Limits) (a b : Number) (v w : Int) (operation : String)
      (bits most : UInt64), op.isLimited = true → a.Canonical → b.Canonical →
      a.toInt? = some v → b.toInt? = some w →
      op.apply limits a b = .error (.limitExceeded operation bits most) →
        most = limits.maxIntegerBits ∧ most < bits ∧ bits.toNat ≤ bitLength (op.value v w) := by
  intro hall
  have h := hall .expt ⟨8589934592⟩ (ofInt 2) (ofInt 4294967296) 2 4294967296 "expt" 4294967297
    8589934592 rfl (canonical_ofInt 2) (canonical_ofInt 4294967296) (toInt?_ofInt 2)
    (toInt?_ofInt 4294967296) (by decide +kernel)
  exact absurd h.2.1 (by decide)

end BinaryOp

end NumericTower
