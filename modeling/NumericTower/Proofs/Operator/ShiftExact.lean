import NumericTower.Proofs.Operator.Exact
import NumericTower.Proofs.Integer.Floor
/-!
# Shifts as arithmetic

By an amount from zero on, a shift to the left multiplies by a power of two
(`shiftLeft_exact`), and a shift to the right divides by one and rounds down
(`shiftRight_floor`).

Between the operators and the arithmetic stands the limit. For the left shift
it is exact: a product that no word holds comes out if and only if the limit
has room for it. The right shift never needs one, but a bignum that is shifted
by nothing is compared with it all the same, and may be rejected
(`shiftRight_by_zero_past_limit`).
-/

namespace NumericTower

open BinaryRow Number TwosComplement

namespace BinaryOp

variable {op : BinaryOp} {v w : Int}

/-! ## Shifts by a word -/

/-- By a word, a shift gives its value, unless it is one that the limit is
asked for. -/
theorem apply_of_isShift (h : op.isShift = true) {c : Prop} [Decidable c]
    (hbits : op.checkedBits? v w = if c then some (w.natAbs + bitLength v) else none)
    (hw : Fixnum.InRange w) (limits : Limits) :
    op.apply limits (ofInt v) (ofInt w) =
      if c ∧ limits.maxIntegerBits < shiftBits v w then
        .error (.limitExceeded op.name (shiftBits v w) limits.maxIntegerBits)
      else .ok (ofInt (op.value v w)) := by
  rw [op.apply_ofInt, exactOutcome, fault?_of_isShift h hbits, if_neg (not_not_intro hw)]
  split <;> rfl

theorem shiftLeft_apply (hw : Fixnum.InRange w) (limits : Limits) :
    BinaryOp.shiftLeft.apply limits (ofInt v) (ofInt w) =
      if (0 ≤ w ∧ ¬ Fixnum.InRange (v <<< w.natAbs)) ∧
          limits.maxIntegerBits < shiftBits v w then
        .error (.limitExceeded BinaryOp.shiftLeft.name (shiftBits v w) limits.maxIntegerBits)
      else .ok (ofInt (BinaryOp.shiftLeft.value v w)) :=
  apply_of_isShift rfl rfl hw limits

theorem shiftRight_apply (hw : Fixnum.InRange w) (limits : Limits) :
    BinaryOp.shiftRight.apply limits (ofInt v) (ofInt w) =
      if (v ≠ 0 ∧ w ≤ 0 ∧ (w = 0 → ¬ Fixnum.InRange v)) ∧
          limits.maxIntegerBits < shiftBits v w then
        .error (.limitExceeded BinaryOp.shiftRight.name (shiftBits v w) limits.maxIntegerBits)
      else .ok (ofInt (BinaryOp.shiftRight.value v w)) :=
  apply_of_isShift rfl rfl hw limits

/-- The two operators give one integer, in opposite directions. -/
theorem value_shiftRight (v w : Int) :
    BinaryOp.shiftRight.value v w = BinaryOp.shiftLeft.value v (-w) := by
  rw [value, value, Int.natAbs_neg]
  by_cases hw : 0 < w
  · rw [if_pos hw, if_neg (by omega)]
  · rw [if_neg hw, if_pos (by omega)]

theorem value_shiftLeft_natCast (v : Int) (k : Nat) :
    BinaryOp.shiftLeft.value v k = v * 2 ^ k := by
  rw [value, if_pos (Int.natCast_nonneg k), Int.natAbs_natCast, Int.shiftLeft_eq]

theorem value_shiftRight_natCast (v : Int) (k : Nat) :
    BinaryOp.shiftRight.value v k = ⌊(v / 2 ^ k : ℚ)⌋ := by
  rw [value, Int.natAbs_natCast, floor_div_two_pow]
  split
  · rfl
  · -- by nothing, which is no shift downwards for the operator
    rename_i hk
    obtain rfl : k = 0 := by omega
    rw [Int.shiftLeft_zero, Int.shiftRight_zero]

end BinaryOp

/-! ## To the left -/

/-- The left shifts that come out: of zero, of a word into a word, and all
that the limit has room for. -/
def LeftShiftAdmitted (limits : Limits) (a : Number) (v : Int) (k : Nat) : Prop :=
  v = 0 ∨ (a.kind = .fixnum ∧ Fixnum.InRange (v * 2 ^ k)) ∨
    bitLength v + k ≤ limits.maxIntegerBits.toNat

/-- No bignum is shifted into a word, and zero is: the operand's kind does
not matter. -/
theorem leftShiftAdmitted_ofInt_iff {limits : Limits} {v : Int} {k : Nat} :
    LeftShiftAdmitted limits (ofInt v) v k ↔
      Fixnum.InRange (v * 2 ^ k) ∨ bitLength v + k ≤ limits.maxIntegerBits.toNat := by
  rw [LeftShiftAdmitted]
  constructor
  · rintro (rfl | ⟨-, hrange⟩ | hroom)
    · rw [Int.zero_mul]
      exact .inl (by decide)
    · exact .inl hrange
    · exact .inr hroom
  · rintro (hrange | hroom)
    · have hv : Fixnum.InRange v := by
        by_contra hv
        exact not_inRange_shiftLeft_of_not_inRange hv k (by rwa [Int.shiftLeft_eq])
      exact .inr (.inl ⟨by rw [ofInt_of_inRange hv]; rfl, hrange⟩)
    · exact .inr (.inr hroom)

/-- Counts of bits that a machine word holds are compared as they are. -/
theorem shiftLeft_apply_natCast {v : Int} {k : Nat} (hk : Fixnum.InRange k)
    (hbits : bitLength v + k < UInt64.size) (limits : Limits) :
    BinaryOp.shiftLeft.apply limits (ofInt v) (ofInt k) =
      if Fixnum.InRange (v * 2 ^ k) ∨ bitLength v + k ≤ limits.maxIntegerBits.toNat then
        .ok (ofInt (v * 2 ^ k))
      else
        .error (.limitExceeded BinaryOp.shiftLeft.name (.ofNatLT (bitLength v + k) hbits)
          limits.maxIntegerBits) := by
  have hcount : shiftBits v k = .ofNatLT (bitLength v + k) hbits := by
    have hsize : bitLength v + k < 18446744073709551616 := hbits
    rw [shiftBits, Int.natAbs_natCast, ← UInt64.toNat_inj, Limits.toNat_saturated,
      UInt64.toNat_ofNatLT]
    omega
  have hcompared : ((0 ≤ (k : Int) ∧ ¬ Fixnum.InRange (v <<< (k : Int).natAbs)) ∧
      limits.maxIntegerBits < shiftBits v k) ↔
        ¬ (Fixnum.InRange (v * 2 ^ k) ∨ bitLength v + k ≤ limits.maxIntegerBits.toNat) := by
    rw [not_or, not_le, hcount, UInt64.lt_iff_toNat_lt, UInt64.toNat_ofNatLT, Int.natAbs_natCast,
      Int.shiftLeft_eq, and_iff_right (Int.natCast_nonneg k)]
  rw [BinaryOp.shiftLeft_apply hk, BinaryOp.value_shiftLeft_natCast]
  by_cases hadmitted :
      Fixnum.InRange (v * 2 ^ k) ∨ bitLength v + k ≤ limits.maxIntegerBits.toNat
  · rw [if_pos hadmitted, if_neg (fun h => hcompared.1 h hadmitted)]
  · rw [if_neg hadmitted, if_pos (hcompared.2 hadmitted), hcount]

/-- **A shift to the left multiplies by a power of two, and its limit is
exact.** It gives the product where it is admitted, and everywhere else it
names the bits of the product. So a bignum that it gives is within the
limit. -/
theorem shiftLeft_exact (limits : Limits) {a : Number} (ha : a.Canonical) {v : Int}
    (hv : a.toInt? = some v) {n : Fixnum} {k : Nat} (hn : n.toInt = k)
    (hbits : bitLength v + k < UInt64.size) :
    (LeftShiftAdmitted limits a v k →
        (BinaryOp.shiftLeft.apply limits a (.fixnum n)).IsInteger (v * 2 ^ k)) ∧
      (¬ LeftShiftAdmitted limits a v k →
        BinaryOp.shiftLeft.apply limits a (.fixnum n) =
          .error (.limitExceeded BinaryOp.shiftLeft.name (.ofNatLT (bitLength v + k) hbits)
            limits.maxIntegerBits)) ∧
      ∀ r, BinaryOp.shiftLeft.apply limits a (.fixnum n) = .ok (.bignum r) →
        bitLength r.toInt ≤ limits.maxIntegerBits.toNat := by
  obtain rfl := eq_ofInt_of_toInt? ha hv
  rw [← ofInt_toInt n, hn, shiftLeft_apply_natCast (hn ▸ n.inRange_toInt) hbits,
    leftShiftAdmitted_ofInt_iff]
  refine ⟨fun hadmitted => ?_, fun hrejected => ?_, fun r hr => ?_⟩
  · rw [if_pos hadmitted]
    exact Outcome.isInteger_ofInt _
  · rw [if_neg hrejected]
  · split at hr
    · rename_i hadmitted
      rw [Except.ok.injEq] at hr
      have hrange : ¬ Fixnum.InRange (v * 2 ^ k) := kind_ofInt.1 (by rw [hr]; rfl)
      rw [ofInt_of_not_inRange hrange, Number.bignum.injEq] at hr
      rw [← Int.shiftLeft_eq] at hr hrange hadmitted
      rw [← hr, bitLength_shiftLeft (ne_zero_of_not_inRange_shiftLeft hrange)]
      exact hadmitted.resolve_left hrange
    · cases hr

/-- Under a limit of no bits minus one is shifted to the least word, and not
further. -/
theorem shiftLeft_exact_least_word :
    (ofInt (-1)).Canonical ∧ (ofInt (-1)).toInt? = some (-1) ∧
      ((Fixnum.ofInt 63).toInt = (63 : ℕ) ∧ bitLength (-1) + 63 < UInt64.size ∧
        LeftShiftAdmitted ⟨0⟩ (ofInt (-1)) (-1) 63 ∧
        (BinaryOp.shiftLeft.apply ⟨0⟩ (ofInt (-1)) (.fixnum (.ofInt 63))).IsInteger
          (-1 * 2 ^ 63)) ∧
      (Fixnum.ofInt 64).toInt = (64 : ℕ) ∧ bitLength (-1) + 64 < UInt64.size ∧
        ¬ LeftShiftAdmitted ⟨0⟩ (ofInt (-1)) (-1) 64 ∧
        BinaryOp.shiftLeft.apply ⟨0⟩ (ofInt (-1)) (.fixnum (.ofInt 64)) =
          .error (.limitExceeded "shift-left" 65 0) := by
  have hword : (Fixnum.ofInt 63).toInt = (63 : ℕ) := by decide
  have hpast : (Fixnum.ofInt 64).toInt = (64 : ℕ) := by decide
  have hbits : bitLength (-1) + 63 < UInt64.size := by decide
  have hbits' : bitLength (-1) + 64 < UInt64.size := by decide
  have hadmitted : LeftShiftAdmitted ⟨0⟩ (ofInt (-1)) (-1) 63 :=
    leftShiftAdmitted_ofInt_iff.2 (.inl (by decide))
  have hrejected : ¬ LeftShiftAdmitted ⟨0⟩ (ofInt (-1)) (-1) 64 := by
    rw [leftShiftAdmitted_ofInt_iff]
    decide
  exact ⟨canonical_ofInt _, toInt?_ofInt _, ⟨hword, hbits, hadmitted,
    (shiftLeft_exact ⟨0⟩ (canonical_ofInt _) (toInt?_ofInt _) hword hbits).1 hadmitted⟩, hpast,
    hbits', hrejected,
    (shiftLeft_exact ⟨0⟩ (canonical_ofInt _) (toInt?_ofInt _) hpast hbits').2.1 hrejected⟩

/-! ## To the right -/

/-- A bignum that is shifted by nothing, and has more bits than the limit. -/
def UnshiftedPastLimit (limits : Limits) (a : Number) (v : Int) (k : Nat) : Prop :=
  k = 0 ∧ a.kind = .bignum ∧ limits.maxIntegerBits < Limits.saturated (bitLength v)

/-- By nothing the right shift is one upwards, and asks for a limit if no
word holds the operand. -/
theorem shiftRight_apply_natCast {v : Int} {k : Nat} (hk : Fixnum.InRange k) (limits : Limits) :
    BinaryOp.shiftRight.apply limits (ofInt v) (ofInt k) =
      if k = 0 ∧ ¬ Fixnum.InRange v ∧ limits.maxIntegerBits < Limits.saturated (bitLength v) then
        .error (.limitExceeded BinaryOp.shiftRight.name (Limits.saturated (bitLength v))
          limits.maxIntegerBits)
      else .ok (ofInt ⌊(v / 2 ^ k : ℚ)⌋) := by
  rw [BinaryOp.shiftRight_apply hk, BinaryOp.value_shiftRight_natCast, shiftBits,
    Int.natAbs_natCast]
  rcases Nat.eq_zero_or_pos k with rfl | hpos
  · have hne (h : ¬ Fixnum.InRange v) : v ≠ 0 :=
      ne_zero_of_not_inRange_shiftLeft (n := 0) (by rwa [Int.shiftLeft_zero])
    simp only [Nat.cast_zero, le_refl, forall_const, true_and, and_iff_right_of_imp hne,
      Nat.zero_add]
  · rw [if_neg fun h => absurd h.1.2.1 (by omega), if_neg fun h => absurd h.1 (by omega)]

/-- **A shift to the right divides by a power of two and rounds down**,
whatever the limit, unless a bignum is shifted by nothing. The limit is asked
for that, as if it were a shift to the left. -/
theorem shiftRight_floor (limits : Limits) {a : Number} (ha : a.Canonical) {v : Int}
    (hv : a.toInt? = some v) {n : Fixnum} {k : Nat} (hn : n.toInt = k) :
    (¬ UnshiftedPastLimit limits a v k →
        (BinaryOp.shiftRight.apply limits a (.fixnum n)).IsInteger ⌊(v / 2 ^ k : ℚ)⌋) ∧
      (UnshiftedPastLimit limits a v k →
        BinaryOp.shiftRight.apply limits a (.fixnum n) =
          .error (.limitExceeded BinaryOp.shiftRight.name (Limits.saturated (bitLength v))
            limits.maxIntegerBits)) := by
  obtain rfl := eq_ofInt_of_toInt? ha hv
  rw [← ofInt_toInt n, hn, shiftRight_apply_natCast (hn ▸ n.inRange_toInt), UnshiftedPastLimit,
    kind_ofInt]
  constructor
  · intro hadmitted
    rw [if_neg hadmitted]
    exact Outcome.isInteger_ofInt _
  · intro hpast
    rw [if_pos hpast]

/-- Under a limit of no bits, `-2 ^ 64 - 1` is shifted down by sixty-four
places, to minus two, and is not shifted by nothing. -/
theorem shiftRight_floor_bignum :
    let a : Number := .bignum ⟨-18446744073709551617⟩
    a.Canonical ∧ a.toInt? = some (-18446744073709551617) ∧
      ((Fixnum.ofInt 64).toInt = (64 : ℕ) ∧
        ¬ UnshiftedPastLimit ⟨0⟩ a (-18446744073709551617) 64 ∧
        (BinaryOp.shiftRight.apply ⟨0⟩ a (.fixnum (.ofInt 64))).IsInteger (-2)) ∧
      (Fixnum.zero.toInt = (0 : ℕ) ∧ UnshiftedPastLimit ⟨0⟩ a (-18446744073709551617) 0 ∧
        BinaryOp.shiftRight.apply ⟨0⟩ a (.fixnum .zero) =
          .error (.limitExceeded "shift-right" 65 0)) := by
  have ha : (Number.bignum ⟨-18446744073709551617⟩).Canonical := by
    rw [canonical_bignum]
    decide
  have hv : (Number.bignum ⟨-18446744073709551617⟩).toInt? = some (-18446744073709551617) := rfl
  have hamount : (Fixnum.ofInt 64).toInt = (64 : ℕ) := by decide
  have hadmitted : ¬ UnshiftedPastLimit ⟨0⟩ (.bignum ⟨-18446744073709551617⟩)
      (-18446744073709551617) 64 := fun h => absurd h.1 (by decide)
  have hpast : UnshiftedPastLimit ⟨0⟩ (.bignum ⟨-18446744073709551617⟩)
      (-18446744073709551617) 0 := ⟨rfl, rfl, by decide⟩
  have hfloor : ⌊(((-18446744073709551617 : ℤ) : ℚ) / 2 ^ 64 : ℚ)⌋ = -2 := by
    rw [floor_div_two_pow]
    decide
  have hdown := (shiftRight_floor ⟨0⟩ ha hv hamount).1 hadmitted
  rw [hfloor] at hdown
  exact ⟨ha, hv, ⟨hamount, hadmitted, hdown⟩, Fixnum.toInt_zero, hpast,
    (shiftRight_floor ⟨0⟩ ha hv Fixnum.toInt_zero).2 hpast⟩

/-- **Shifting to the right by nothing may fail**: `2 ^ 64` has one bit more
than a limit of 64 allows. -/
theorem shiftRight_by_zero_past_limit :
    ¬ ∀ (limits : Limits) (a : Number) (v : Int) (n : Fixnum) (k : Nat), a.Canonical →
      a.toInt? = some v → n.toInt = k →
        (BinaryOp.shiftRight.apply limits a (.fixnum n)).IsInteger ⌊(v / 2 ^ k : ℚ)⌋ := by
  intro hall
  obtain ⟨r, hr, -⟩ := hall ⟨64⟩ (ofInt 18446744073709551616) 18446744073709551616 .zero 0
    (canonical_ofInt _) (toInt?_ofInt _) Fixnum.toInt_zero
  have hrejected : BinaryOp.shiftRight.apply ⟨64⟩ (ofInt 18446744073709551616) (.fixnum .zero) =
      .error (.limitExceeded "shift-right" 65 64) := rfl
  rw [hrejected] at hr
  cases hr

end NumericTower
