import Mathlib
import NumericTower.Fixnum
/-!
# Word arithmetic is exact

Each checked operation on words is the exact operation on integers,
narrowed to a word: `op? a b = ofInt? (a.toInt ∘ b.toInt)`. So it gives the
exact result whenever a word holds it, and reports overflow whenever none
does — and never otherwise, though the tests look at wrapped words only.
-/

namespace NumericTower.Fixnum

theorem ext_toInt {a b : Fixnum} (h : a.toInt = b.toInt) : a = b := by
  rw [← ofInt_toInt a, h, ofInt_toInt]

@[simp]
theorem toInt_inj {a b : Fixnum} : a.toInt = b.toInt ↔ a = b := ⟨ext_toInt, fun h => h ▸ rfl⟩

@[simp] theorem toInt_zero : zero.toInt = 0 := by decide
@[simp] theorem toInt_one : one.toInt = 1 := by decide
@[simp] theorem toInt_negOne : negOne.toInt = -1 := by decide
@[simp] theorem toInt_least : least.toInt = -9223372036854775808 := by decide
@[simp] theorem toInt_greatest : greatest.toInt = 9223372036854775807 := by decide

/-- A word that is right up to multiples of `2^64` is right if the integer
is in range. -/
theorem toInt_mk_eq_bmod {w : Int64} {v : Int} (h : w.toInt = v.bmod (2 ^ 64)) (hv : InRange v) :
    (⟨w⟩ : Fixnum).toInt = v := by
  show w.toInt = v
  rw [h, Int.bmod_eq_of_le] <;> omega

theorem isZero_eq (a : Fixnum) : a.isZero = decide (a.toInt = 0) := by
  rw [Bool.eq_iff_iff, isZero, beq_iff_eq, decide_eq_true_iff, ← Int64.toInt_inj]
  rfl

theorem isNegative_eq (a : Fixnum) : a.isNegative = decide (a.toInt < 0) := by
  rw [isNegative, decide_eq_decide, Int64.lt_iff_toInt_lt]
  rfl

/-- A fixnum is what its value narrows to. -/
theorem ofInt?_eq_ok {a : Fixnum} {v : Int} (h : a.toInt = v) : ofInt? v = .ok a := by
  subst h
  rw [ofInt?, if_pos a.inRange_toInt, ofInt_toInt]

theorem ofInt?_eq_error {v : Int} (h : ¬ InRange v) : ofInt? v = .error ⟨⟩ := if_neg h

/-! ## Sums, differences, products -/

/-- A wrapped word behind a flag that reports the range is the exact result,
narrowed. -/
theorem checked_eq {w : Int64} {v : Int} {flag : Prop} [Decidable flag]
    (hw : (⟨w⟩ : Fixnum).toInt = v.bmod (2 ^ 64)) (hflag : flag ↔ ¬ InRange v) :
    (if flag then .error ⟨⟩ else .ok ⟨w⟩ : Except Overflow Fixnum) = ofInt? v := by
  by_cases h : InRange v
  · rw [if_neg (by rw [hflag]; exact not_not_intro h), ofInt?_eq_ok (toInt_mk_eq_bmod hw h)]
  · rw [if_pos (hflag.2 h), ofInt?_eq_error h]

/-- One wrap around turns the sign. -/
theorem bmod_neg_iff {v : Int} (h : ¬ InRange v) (low : -18446744073709551616 ≤ v)
    (high : v < 18446744073709551616) : v.bmod (2 ^ 64) < 0 ↔ 0 ≤ v := by
  rw [Int.bmod_def]
  omega

/-- **Sums are exact or overflow.** The signs report the range. -/
theorem add?_eq (a b : Fixnum) : a.add? b = ofInt? (a.toInt + b.toInt) := by
  have ha := a.inRange_toInt
  have hb := b.inRange_toInt
  have hw : (⟨a.word + b.word⟩ : Fixnum).toInt = (a.toInt + b.toInt).bmod (2 ^ 64) :=
    Int64.toInt_add a.word b.word
  refine checked_eq hw ?_
  simp only [isNegative_eq, ne_eq, decide_eq_decide, hw]
  by_cases h : InRange (a.toInt + b.toInt)
  · -- in range the wrapped sum is the sum
    rw [Int.bmod_eq_of_le (by omega) (by omega)]
    omega
  · have := bmod_neg_iff h (by omega) (by omega)
    omega

/-- **And so are differences.** -/
theorem sub?_eq (a b : Fixnum) : a.sub? b = ofInt? (a.toInt - b.toInt) := by
  have ha := a.inRange_toInt
  have hb := b.inRange_toInt
  have hw : (⟨a.word - b.word⟩ : Fixnum).toInt = (a.toInt - b.toInt).bmod (2 ^ 64) :=
    Int64.toInt_sub a.word b.word
  refine checked_eq hw ?_
  simp only [isNegative_eq, ne_eq, decide_eq_decide, hw]
  by_cases h : InRange (a.toInt - b.toInt)
  · rw [Int.bmod_eq_of_le (by omega) (by omega)]
    omega
  · have := bmod_neg_iff h (by omega) (by omega)
    omega

/-- **Products are exact or overflow.** The flag reports the range. -/
theorem mul?_eq (a b : Fixnum) : a.mul? b = ofInt? (a.toInt * b.toInt) := by
  refine checked_eq (Int64.toInt_mul a.word b.word) ?_
  simp only [BitVec.smulOverflow, Int64.toInt_toBitVec, toInt, Bool.or_eq_true,
    decide_eq_true_iff]
  omega

/-- Only the least word has no negative. -/
theorem neg?_eq (a : Fixnum) : a.neg? = ofInt? (-a.toInt) := by
  have ha := a.inRange_toInt
  refine checked_eq (Int64.toInt_neg a.word) ?_
  rw [← toInt_inj, toInt_least]
  omega

theorem abs?_eq (a : Fixnum) : a.abs? = ofInt? a.toInt.natAbs := by
  rw [abs?, isNegative_eq]
  by_cases h : a.toInt < 0
  · rw [if_pos (by simpa using h), neg?_eq]
    congr 1; omega
  · rw [if_neg (by simpa using h), ofInt?_eq_ok]
    omega

/-! ## Quotients and remainders

The machine rounds toward zero. Rounding down is one less where the two
differ, and the remainder says where that is. -/

/-- Rounding toward zero is one too high where something is cut off below
zero: the remainder is not zero and its sign is not the divisor's. -/
theorem fdiv_eq_ite {a b : Int} (hb : b ≠ 0) :
    a.fdiv b = if a.tmod b ≠ 0 ∧ ¬ (a.tmod b < 0 ↔ b < 0) then a.tdiv b - 1 else a.tdiv b := by
  by_cases hdvd : b ∣ a
  · rw [Int.fdiv_eq_tdiv, if_pos hdvd, Int.dvd_iff_tmod_eq_zero.1 hdvd]
    simp
  have hne : a.tmod b ≠ 0 := fun h => hdvd (Int.dvd_iff_tmod_eq_zero.2 h)
  rw [Int.fdiv_eq_tdiv, if_neg hdvd]
  -- a nonzero remainder has the dividend's sign
  rcases Int.le_total 0 a with ha | ha
  · have := Int.tmod_nonneg b ha
    rw [if_pos ha]
    rcases Int.lt_or_gt_of_ne hb with h | h
    · rw [if_neg (by omega), if_pos (by omega)]
    · rw [if_pos (by omega), if_neg (by omega), Int.sub_zero]
  · have hneg := Int.tmod_nonneg b (Int.neg_nonneg_of_nonpos ha)
    rw [Int.neg_tmod] at hneg
    rw [if_neg (by rintro h; exact hne (by rw [Int.le_antisymm ha h, Int.zero_tmod]))]
    rcases Int.lt_or_gt_of_ne hb with h | h
    · rw [if_neg (by omega), if_neg (by omega), Int.sign_eq_neg_one_of_neg h]
      omega
    · rw [if_pos (by omega), if_pos (by omega), Int.sign_eq_one_of_pos h]

/-- And the remainder then lacks the divisor. -/
theorem fmod_eq_ite {a b : Int} (hb : b ≠ 0) :
    a.fmod b = if a.tmod b ≠ 0 ∧ ¬ (a.tmod b < 0 ↔ b < 0) then a.tmod b + b else a.tmod b := by
  rw [Int.fmod_def, fdiv_eq_ite hb, Int.tmod_def]
  split
  · rw [Int.mul_sub, Int.mul_one]
    omega
  · rfl

theorem natAbs_tdiv_le_half {a b : Int} (hb : 2 ≤ b.natAbs) :
    (a.tdiv b).natAbs ≤ a.natAbs / 2 := by
  rw [Int.natAbs_tdiv]
  exact Nat.div_le_div_left hb (by decide)

/-- A quotient of words is a word, but for the least one by minus one. -/
theorem inRange_tdiv {a b : Int} (ha : InRange a) (hb : b ≠ -1) : InRange (a.tdiv b) := by
  by_cases hb1 : b.natAbs ≤ 1
  · obtain rfl | rfl : b = 0 ∨ b = 1 := by omega
    · rw [Int.tdiv_zero]; omega
    · rwa [Int.tdiv_one]
  · have := natAbs_tdiv_le_half (a := a) (by omega : 2 ≤ b.natAbs)
    omega

theorem fdiv_neg_one (a : Int) : a.fdiv (-1) = -a := by
  rw [Int.fdiv_eq_ediv_of_dvd (Int.neg_dvd.2 (Int.one_dvd a)), Int.ediv_neg, Int.ediv_one]

/-- What the machine cuts off has the sign of the dividend. -/
theorem cutOff_iff {a b : Fixnum} :
    a.word % b.word ≠ 0 ∧ (decide (a.word % b.word < 0)) ≠ b.isNegative ↔
      a.toInt.tmod b.toInt ≠ 0 ∧ ¬ (a.toInt.tmod b.toInt < 0 ↔ b.toInt < 0) := by
  have hmod : (a.word % b.word).toInt = a.toInt.tmod b.toInt := Int64.toInt_mod a.word b.word
  rw [isNegative_eq, ne_eq, ne_eq, ne_eq, decide_eq_decide, ← Int64.toInt_inj,
    Int64.lt_iff_toInt_lt, hmod]
  rfl

/-- **The quotient is exact or overflows.** It does so at the least word
by minus one only; everywhere else the correction takes one from a word
that halving has moved away from the end of the range. -/
theorem floorDiv?_eq {a b : Fixnum} (hb : b.toInt ≠ 0) :
    a.floorDiv? b = ofInt? (a.toInt.fdiv b.toInt) := by
  by_cases h1 : b = negOne
  · rw [floorDiv?, if_pos h1, neg?_eq, h1, toInt_negOne, fdiv_neg_one]
  have hb1 : b.toInt ≠ -1 := by rwa [← toInt_negOne, ne_eq, toInt_inj]
  have hdiv : (⟨a.word / b.word⟩ : Fixnum).toInt = a.toInt.tdiv b.toInt :=
    toInt_mk_eq_bmod (Int64.toInt_div a.word b.word) (inRange_tdiv a.inRange_toInt hb1)
  rw [floorDiv?, if_neg h1, fdiv_eq_ite hb]
  simp only [cutOff_iff]
  split
  · rename_i hcut
    have hb2 : 2 ≤ b.toInt.natAbs := by
      by_contra hc
      obtain h | h : b.toInt = 0 ∨ b.toInt = 1 := by omega
      · exact hb h
      · exact hcut.1 (by rw [h, Int.tmod_one])
    have hle := natAbs_tdiv_le_half (a := a.toInt) hb2
    have ha := a.inRange_toInt
    refine (ofInt?_eq_ok (toInt_mk_eq_bmod ?_ (by omega))).symm
    rw [Int64.toInt_sub, ← hdiv]
    rfl
  · rw [ofInt?_eq_ok hdiv]

/-- The remainder needs no check: it is smaller than the divisor. -/
theorem toInt_floorMod {a b : Fixnum} (hb : b.toInt ≠ 0) :
    (a.floorMod b).toInt = a.toInt.fmod b.toInt := by
  have hmod : (a.word % b.word).toInt = a.toInt.tmod b.toInt := Int64.toInt_mod a.word b.word
  by_cases h1 : b = negOne
  · rw [floorMod, if_pos h1, h1, toInt_negOne, toInt_zero, Int.fmod_def, fdiv_neg_one]
    omega
  rw [floorMod, if_neg h1, fmod_eq_ite hb]
  simp only [cutOff_iff]
  split
  · rename_i hcut
    have hlt : (a.toInt.tmod b.toInt).natAbs < b.toInt.natAbs := by
      rw [Int.natAbs_tmod]
      exact Nat.mod_lt _ (by omega)
    have hb' := b.inRange_toInt
    refine toInt_mk_eq_bmod ?_ (by omega)
    rw [Int64.toInt_add, hmod]
    rfl
  · exact hmod

/-! ## Order -/

theorem order_eq (a b : Fixnum) : a.order b = compare a.toInt b.toInt := by
  simp only [order, Int64.lt_iff_toInt_lt, ← Int64.toInt_inj]
  rfl

end NumericTower.Fixnum
