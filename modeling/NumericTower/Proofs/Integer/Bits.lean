import Mathlib
import NumericTower.Integer.TwosComplement
/-!
# Bits of an integer

An integer is determined by its bits (`eq_of_bitAt`), a machine word shows
the lowest sixty-four of them and repeats its sign above (`bitAt_toInt`),
and the bit length bounds the magnitude (`bitLength_le_iff`) and grows by
one with each place of a left shift.
-/

namespace NumericTower.TwosComplement

/-- The view is the library's. -/
theorem bitAt_eq_testBit (v : Int) (k : Nat) : bitAt v k = v.testBit k := by
  cases v <;> rfl

theorem bitAt_not (v : Int) (k : Nat) : bitAt (~~~v) k = !bitAt v k := by
  cases v with
  | ofNat n => rfl
  | negSucc n => exact (Bool.not_not _).symm

/-- The complement of every bit, as arithmetic. -/
theorem not_eq_neg_sub_one (v : Int) : ~~~v = -v - 1 := by
  cases v with
  | ofNat n =>
    change Int.negSucc n = -(n : Int) - 1
    omega
  | negSucc n =>
    change (n : Int) = -Int.negSucc n - 1
    omega

/-- Far up only the sign is left. -/
theorem bitAt_of_le {v : Int} {k : Nat} (h : v.natAbs ≤ k) : bitAt v k = decide (v < 0) := by
  cases v with
  | ofNat n =>
    have hn : n < 2 ^ k := lt_of_le_of_lt h Nat.lt_two_pow_self
    rw [bitAt_ofNat, Nat.testBit_lt_two_pow hn]
    simp
  | negSucc n =>
    have hn : n < 2 ^ k := lt_of_lt_of_le h Nat.lt_two_pow_self.le
    rw [bitAt_negSucc, Nat.testBit_lt_two_pow hn]
    simp [Int.negSucc_lt_zero]

/-- An integer is its bits. -/
theorem eq_of_bitAt {v w : Int} (h : ∀ k, bitAt v k = bitAt w k) : v = w := by
  have hsign : v < 0 ↔ w < 0 := by
    have := h (max v.natAbs w.natAbs)
    rwa [bitAt_of_le (le_max_left _ _), bitAt_of_le (le_max_right _ _), decide_eq_decide] at this
  -- of one sign they are told apart by the bits of a natural number
  cases v with
  | ofNat m =>
    cases w with
    | ofNat n => exact congrArg Int.ofNat (Nat.eq_of_testBit_eq h)
    | negSucc n => exact absurd (hsign.2 (Int.negSucc_lt_zero n)) (by simp)
  | negSucc m =>
    cases w with
    | ofNat n => exact absurd (hsign.1 (Int.negSucc_lt_zero m)) (by simp)
    | negSucc n => exact congrArg Int.negSucc (Nat.eq_of_testBit_eq fun k => by simpa using h k)

/-- A magnitude takes at most `n` bits iff it is below `2^n`. -/
theorem bitLength_le_iff {v : Int} {n : Nat} : bitLength v ≤ n ↔ v.natAbs < 2 ^ n := by
  rw [bitLength]
  split
  · rename_i h
    simp [h]
  · rename_i h
    rw [Nat.succ_le_iff, Nat.log2_lt (by omega)]

theorem bitLength_eq_zero_iff {v : Int} : bitLength v = 0 ↔ v = 0 := by
  rw [bitLength]
  split <;> simp [*]

theorem natAbs_lt_two_pow_bitLength (v : Int) : v.natAbs < 2 ^ bitLength v :=
  bitLength_le_iff.1 le_rfl

theorem two_le_bitLength {v : Int} (hv : 2 ≤ v.natAbs) : 2 ≤ bitLength v := by
  by_contra hc
  have := bitLength_le_iff.1 (by omega : bitLength v ≤ 1)
  omega

/-- An integer of `n` binary places has a power of `n` places for each
factor, and one more. -/
theorem bitLength_pow_le {v : Int} {n : Nat} (h : v.natAbs ≤ 2 ^ n) (e : Nat) :
    bitLength (v ^ e) ≤ n * e + 1 := by
  rw [bitLength_le_iff, Int.natAbs_pow]
  calc v.natAbs ^ e ≤ (2 ^ n) ^ e := Nat.pow_le_pow_left h e
    _ = 2 ^ (n * e) := (pow_mul 2 n e).symm
    _ < 2 ^ (n * e + 1) := Nat.pow_lt_pow_right (by decide) (Nat.lt_succ_self _)

/-- And no more than its own bits for each factor. -/
theorem bitLength_pow_le_mul (v : Int) {e : Nat} (he : e ≠ 0) :
    bitLength (v ^ e) ≤ bitLength v * e := by
  rw [bitLength_le_iff, Int.natAbs_pow, pow_mul]
  exact Nat.pow_lt_pow_left (natAbs_lt_two_pow_bitLength v) he

/-- A left shift adds bits one by one. -/
theorem bitLength_shiftLeft {v : Int} (hv : v ≠ 0) (n : Nat) :
    bitLength (v <<< n) = bitLength v + n := by
  have hlt (m : Nat) : bitLength (v <<< n) ≤ m + n ↔ bitLength v ≤ m := by
    rw [bitLength_le_iff, bitLength_le_iff, Int.shiftLeft_eq, Int.natAbs_mul, Int.natAbs_pow,
      pow_add]
    exact Nat.mul_lt_mul_right (by positivity)
  refine le_antisymm ((hlt _).2 le_rfl) ?_
  by_cases h : n ≤ bitLength (v <<< n)
  · have := (hlt (bitLength (v <<< n) - n)).1 (by omega)
    omega
  · -- fewer bits than the shift itself gives: nothing was shifted
    have := (hlt 0).1 (by omega)
    exact absurd (bitLength_eq_zero_iff.1 (by omega)) hv

/-- Past its last bit an integer shifts down to its sign. -/
theorem shiftRight_of_bitLength_le {v : Int} {n : Nat} (h : bitLength v ≤ n) :
    v >>> n = if v < 0 then -1 else 0 := by
  rw [bitLength_le_iff] at h
  have hpos : (0 : Int) < (2 ^ n : Nat) := by positivity
  rw [Int.shiftRight_eq_div_pow]
  split
  · exact Int.ediv_eq_neg_one_of_neg_of_le (by omega) (by omega)
  · exact Int.ediv_eq_zero_of_lt (by omega) (by omega)

/-- The bits of a word, continued with its sign. -/
theorem bitAt_toInt (x : BitVec 64) (k : Nat) :
    bitAt x.toInt k = if k < 64 then x.getLsbD k else x.msb := by
  cases hx : x.msb with
  | false =>
    have : x.toInt = Int.ofNat x.toNat := by
      rw [BitVec.toInt_eq_msb_cond, hx]; rfl
    rw [this, bitAt_ofNat, BitVec.testBit_toNat]
    split
    · rfl
    · exact BitVec.getLsbD_of_ge x k (by omega)
  | true =>
    have : x.toInt = Int.negSucc (~~~x).toNat := by
      rw [BitVec.toInt_eq_msb_cond, hx, BitVec.toNat_not, Int.negSucc_eq]
      have := x.isLt
      simp only [if_true]
      omega
    rw [this, bitAt_negSucc, BitVec.testBit_toNat, BitVec.getLsbD_not]
    split <;> simp [*]

end NumericTower.TwosComplement
