import Mathlib
import NumericTower.Operator.Apply
import NumericTower.Proofs.Fixnum.Bits
import NumericTower.Proofs.Fixnum.Power
/-!
# The word path

Two fixnums meet in a cell of their own, with machine arithmetic, and only
on overflow in the cell of integers. The headline (`fixnums_eq_integers`)
is that this is an optimisation and nothing else.

Most of it is `promote_ofInt?`: a word operation that is exact or overflows
can be followed by the integer cell without a trace, as long as that cell
succeeds on results that fit a word. For powers and left shifts this asks
that the limit, which only the integer cell checks, admits a word.
-/

namespace NumericTower

theorem Number.ofInt_toInt (a : Fixnum) : Number.ofInt a.toInt = .fixnum a := by
  rw [Number.ofInt_of_inRange a.inRange_toInt, Fixnum.ofInt_toInt]

namespace Limits

@[simp]
theorem toNat_saturated (n : Nat) : (saturated n).toNat = min n 18446744073709551615 := by
  rw [saturated, UInt64.ofNatClamp]
  split
  · rename_i h
    rw [UInt64.toNat_ofNatLT]
    have : n < 18446744073709551616 := h
    omega
  · rename_i h
    have : ¬ n < 18446744073709551616 := h
    rw [min_eq_right (by omega)]
    rfl

/-- A count within the limit passes. -/
theorem checkIntegerBits_of_le {limits : Limits} {n : Nat} (h : n ≤ limits.maxIntegerBits.toNat)
    (operation : String) : limits.checkIntegerBits operation (saturated n) = .ok () := by
  rw [checkIntegerBits, if_neg]
  rw [UInt64.lt_iff_toNat_lt, toNat_saturated]
  omega

end Limits

namespace BinaryRow

open TwosComplement

/-- A word operation that finds overflow exactly is invisible where integers
of any size give the same word. -/
theorem promote_ofInt? {a b : Fixnum} {v : Int} {integers : Int → Int → Outcome}
    (h : Fixnum.InRange v → integers a.toInt b.toInt = .ok (.ofInt v)) :
    promote (Fixnum.ofInt? v) integers a b = integers a.toInt b.toInt := by
  rw [Fixnum.ofInt?]
  split
  · rename_i hv
    rw [promote, h hv, Number.ofInt_of_inRange hv]
  · rw [promote]

/-! ## Division, modulo, extrema -/

/-- Both cells find a zero divisor, and round down otherwise. -/
theorem divideFixnums_eq (op : BinaryOp) (a b : Fixnum) :
    divideFixnums op a b = divideIntegers op a.toInt b.toInt := by
  rw [divideFixnums, Fixnum.isZero_eq]
  by_cases hb : b.toInt = 0
  · rw [if_pos (by simpa using hb), divideIntegers, if_pos hb]
  · rw [if_neg (by simpa using hb), Fixnum.floorDiv?_eq hb]
    exact promote_ofInt? fun _ => by rw [divideIntegers, if_neg hb]

theorem modulo_fixnums_eq (a b : Fixnum) :
    modulo.fixnums a b = modulo.integers a.toInt b.toInt := by
  simp only [modulo, remainder, Fixnum.isZero_eq, decide_eq_true_iff]
  split
  · rfl
  · rename_i hb
    rw [← Number.ofInt_toInt (a.floorMod b), Fixnum.toInt_floorMod hb]
    rfl

theorem maximum_fixnums_eq (a b : Fixnum) :
    maximum.fixnums a b = maximum.integers a.toInt b.toInt := by
  simp only [maximum, Fixnum.order_eq, compare_gt_iff_gt]
  split <;> rw [Number.ofInt_toInt]

theorem minimum_fixnums_eq (a b : Fixnum) :
    minimum.fixnums a b = minimum.integers a.toInt b.toInt := by
  simp only [minimum, Fixnum.order_eq, compare_gt_iff_gt]
  split <;> rw [Number.ofInt_toInt]

/-! ## Powers -/

/-- A power from the power of the magnitude. -/
theorem integerPower_eq (base : Int) (e : Nat) : integerPower base e = base ^ e := by
  have hcast : ((Nat.pow base.natAbs e : Nat) : Int) = |base| ^ e := by
    rw [Nat.pow_eq, Nat.cast_pow, Int.natCast_natAbs]
  rw [integerPower, hcast]
  rcases le_or_gt 0 base with h | h
  · rw [if_neg (by omega), abs_of_nonneg h]
  · rw [abs_of_neg h]
    rcases Nat.even_or_odd e with he | he
    · rw [if_neg (by rintro ⟨-, ho⟩; exact absurd he (Nat.not_even_iff_odd.2 (Nat.odd_iff.2 ho))),
        he.neg_pow]
    · rw [if_pos ⟨h, Nat.odd_iff.1 he⟩, he.neg_pow, neg_neg]

/-- A power of an integer of `n` bits has more than `(n - 1) * e` bits. -/
theorem bitLength_growth_le {base : Int} (hb : base ≠ 0) (e : Nat) :
    (bitLength base - 1) * e + 1 ≤ bitLength (base ^ e) := by
  have hbase : 2 ^ (bitLength base - 1) ≤ base.natAbs := by
    have hpos : bitLength base ≠ 0 := fun h => hb (bitLength_eq_zero_iff.1 h)
    by_contra hc
    have := bitLength_le_iff.2 (Nat.lt_of_not_le hc)
    omega
  by_contra hc
  have hlt : (base ^ e).natAbs < 2 ^ ((bitLength base - 1) * e) :=
    bitLength_le_iff.1 (by omega)
  rw [Int.natAbs_pow, pow_mul] at hlt
  exact absurd (Nat.pow_le_pow_left hbase e) (not_le.2 hlt)

/-- The bases `-1`, `0` and `1`, and the exponent zero: the powers that are
known without a product, in the order of the cell. -/
theorem powerIntegers_of_le_one {limits : Limits} {v w : Int} (hw : 0 ≤ w)
    (h : v.natAbs ≤ 1 ∨ w.natAbs = 0) :
    powerIntegers limits v w = .ok (.ofInt (v ^ w.natAbs)) := by
  rw [powerIntegers, if_neg (by omega)]
  by_cases h1 : w = 0 ∨ v = 1
  · have hone : v ^ w.natAbs = 1 := by
      rcases h1 with rfl | rfl
      · exact pow_zero v
      · exact one_pow _
    rw [if_pos h1, hone]
    rfl
  rw [if_neg h1]
  by_cases h0 : v = 0
  · rw [if_pos h0, h0, zero_pow (by omega)]
    rfl
  rw [if_neg h0]
  obtain rfl : v = -1 := by omega
  rcases Nat.even_or_odd w.natAbs with he | ho
  · rw [if_pos rfl, if_neg (by rw [Nat.even_iff.1 he]; decide), he.neg_one_pow]
    rfl
  · rw [if_pos rfl, if_pos (Nat.odd_iff.1 ho), ho.neg_one_pow]
    rfl

/-- A power that a word holds is the word, whatever the limit. -/
theorem powerIntegers_of_inRange {limits : Limits} {base : Int} {e : Nat}
    (hlimit : 64 ≤ limits.maxIntegerBits.toNat) (he : e ≤ largestExponent)
    (h : Fixnum.InRange (base ^ e)) :
    powerIntegers limits base e = .ok (.ofInt (base ^ e)) := by
  by_cases hsmall : base.natAbs ≤ 1 ∨ (e : Int).natAbs = 0
  · exact powerIntegers_of_le_one (Int.natCast_nonneg e) hsmall
  push Not at hsmall
  rw [powerIntegers, if_neg (by omega), if_neg (by omega), if_neg (by omega), if_neg (by omega),
    Int.natAbs_natCast]
  -- both checks count fewer bits than the power has
  have hlen : bitLength (base ^ e) ≤ 64 := by rw [bitLength_le_iff]; omega
  have hgrowth := bitLength_growth_le (by omega : base ≠ 0) e
  have hlong := two_le_bitLength hsmall.1
  rw [largePower, if_neg (by unfold exponentBound; unfold largestExponent at he; omega)]
  simp only
  rw [if_neg (by omega), Limits.checkIntegerBits_of_le (by omega)]
  simp only
  rw [if_neg (by omega), integerPower_eq]

theorem power_fixnums_eq {limits : Limits} (hlimit : 64 ≤ limits.maxIntegerBits.toNat)
    (a b : Fixnum) : (power limits).fixnums a b = powerIntegers limits a.toInt b.toInt := by
  simp only [power]
  split
  · rename_i hb
    have hcast : (b.toInt.toNat : Int) = b.toInt := Int.toNat_of_nonneg hb.1
    rw [Fixnum.pow?_eq]
    refine promote_ofInt? fun h => ?_
    have := powerIntegers_of_inRange hlimit (by omega) h
    rwa [hcast] at this
  · rfl

/-! ## Shifts -/

/-- A shift to the right needs no case for amounts past the last bit. -/
theorem shiftInteger_of_neg {op : BinaryOp} {limits : Limits} {v amount : Int} (h : amount < 0) :
    shiftInteger op limits v amount = .ok (.ofInt (v >>> amount.natAbs)) := by
  rw [shiftInteger]
  by_cases hv : v = 0
  · rw [if_pos hv, hv, Int.zero_shiftRight]
    rfl
  · rw [if_neg hv, if_pos h]
    split
    · rfl
    · -- past the last bit the cell answers by the sign
      rename_i hlen
      rw [shiftRight_of_bitLength_le (by omega)]
      split <;> rfl

/-- A shift to the left within the limit. -/
theorem shiftInteger_of_nonneg {op : BinaryOp} {limits : Limits} {v amount : Int} (h : 0 ≤ amount)
    (hlen : v ≠ 0 → amount.natAbs + bitLength v ≤ limits.maxIntegerBits.toNat) :
    shiftInteger op limits v amount = .ok (.ofInt (v <<< amount.natAbs)) := by
  rw [shiftInteger]
  by_cases hv : v = 0
  · rw [if_pos hv, hv, Int.zero_shiftLeft]
    rfl
  · rw [if_neg hv, if_neg (by omega), Limits.checkIntegerBits_of_le (hlen hv)]

/-- The amount of a shift between words is a word. -/
theorem shiftLeftIntegers_eq (limits : Limits) (v : Int) (b : Fixnum) :
    shiftLeftIntegers limits v b.toInt = shiftInteger .shiftLeft limits v b.toInt :=
  if_pos b.inRange_toInt

theorem shiftRightIntegers_eq (limits : Limits) (v : Int) (b : Fixnum) :
    shiftRightIntegers limits v b.toInt = shiftInteger .shiftRight limits v (-b.toInt) :=
  if_pos b.inRange_toInt

theorem shiftLeft_fixnums_eq {limits : Limits} (hlimit : 64 ≤ limits.maxIntegerBits.toNat)
    (a b : Fixnum) : (shiftLeft limits).fixnums a b = shiftLeftIntegers limits a.toInt b.toInt := by
  simp only [shiftLeft, exactOnly, Fixnum.isNegative_eq, decide_eq_true_iff]
  split
  · rename_i hb
    rw [shiftLeftIntegers_eq, shiftInteger_of_neg hb, ← Fixnum.toInt_shiftRight,
      Number.ofInt_toInt]
  · rename_i hb
    rw [Fixnum.shiftLeft?_eq]
    refine promote_ofInt? fun h => ?_
    rw [shiftLeftIntegers_eq, shiftInteger_of_nonneg (by omega)]
    -- the limit is asked for the bits of the result, and a word has those
    intro hv
    have hlen : bitLength (a.toInt <<< b.toInt.natAbs) ≤ 64 := by rw [bitLength_le_iff]; omega
    rw [bitLength_shiftLeft hv] at hlen
    omega

theorem shiftRight_fixnums_eq {limits : Limits} (hlimit : 64 ≤ limits.maxIntegerBits.toNat)
    (a b : Fixnum) :
    (shiftRight limits).fixnums a b = shiftRightIntegers limits a.toInt b.toInt := by
  simp only [shiftRight, exactOnly, Fixnum.isNegative_eq, decide_eq_true_iff]
  split
  · rfl
  · rename_i hb
    rw [shiftRightIntegers_eq, ← Number.ofInt_toInt, Fixnum.toInt_shiftRight]
    rcases eq_or_ne b.toInt 0 with h0 | h0
    · -- a shift by nothing is a left shift here, and its check passes
      have hfits : bitLength a.toInt ≤ limits.maxIntegerBits.toNat :=
        a.bitLength_toInt_le.trans hlimit
      rw [h0, neg_zero, shiftInteger_of_nonneg le_rfl fun _ => by simpa using hfits]
      simp
    · rw [shiftInteger_of_neg (by omega), Int.natAbs_neg]

end BinaryRow

open BinaryRow TwosComplement

/-- **The word path is invisible.** For every operator, under every limit
that admits a word, the cell of two fixnums has the outcome of the cell of
integers on their values — the same number, or the same error. No divisor
is excluded: both cells report a zero divisor that slips past the check as
the same defect. -/
theorem fixnums_eq_integers (op : BinaryOp) {limits : Limits}
    (hlimit : 64 ≤ limits.maxIntegerBits.toNat) (a b : Fixnum) :
    (op.row limits).fixnums a b = (op.row limits).integers a.toInt b.toInt := by
  cases op with
  | add =>
    change promote (a.add? b) addIntegers a b = _
    rw [Fixnum.add?_eq]
    exact promote_ofInt? fun _ => rfl
  | sub =>
    change promote (a.sub? b) subIntegers a b = _
    rw [Fixnum.sub?_eq]
    exact promote_ofInt? fun _ => rfl
  | mul =>
    change promote (a.mul? b) mulIntegers a b = _
    rw [Fixnum.mul?_eq]
    exact promote_ofInt? fun _ => rfl
  | div => exact divideFixnums_eq .div a b
  | quotient => exact divideFixnums_eq .quotient a b
  | modulo => exact modulo_fixnums_eq a b
  | expt => exact power_fixnums_eq hlimit a b
  | shiftLeft => exact shiftLeft_fixnums_eq hlimit a b
  | shiftRight => exact shiftRight_fixnums_eq hlimit a b
  | bitAnd =>
    change Except.ok (Number.fixnum (a.bitAnd b)) = .ok (.ofInt (meet a.toInt b.toInt))
    rw [← Fixnum.toInt_bitAnd, Number.ofInt_toInt]
  | bitOr =>
    change Except.ok (Number.fixnum (a.bitOr b)) = .ok (.ofInt (join a.toInt b.toInt))
    rw [← Fixnum.toInt_bitOr, Number.ofInt_toInt]
  | bitXor =>
    change Except.ok (Number.fixnum (a.bitXor b)) = .ok (.ofInt (differ a.toInt b.toInt))
    rw [← Fixnum.toInt_bitXor, Number.ofInt_toInt]
  | max => exact maximum_fixnums_eq a b
  | min => exact minimum_fixnums_eq a b

/-- The limit of a word is enough: under it `(-2)^63`, the least word, is
still answered alike, though it needs all sixty-four bits. -/
theorem fixnums_eq_integers_least_word :
    64 ≤ (⟨64⟩ : Limits).maxIntegerBits.toNat ∧
      (BinaryOp.expt.row ⟨64⟩).fixnums (.ofInt (-2)) (.ofInt 63) =
        (BinaryOp.expt.row ⟨64⟩).integers (Fixnum.ofInt (-2)).toInt (Fixnum.ofInt 63).toInt :=
  ⟨by decide, fixnums_eq_integers .expt (by decide) (.ofInt (-2)) (.ofInt 63)⟩

end NumericTower
