import Mathlib
import NumericTower.Proofs.Fixnum.Exact
import NumericTower.Proofs.Integer.Bits
/-!
# Words as bits

The bitwise operations of words are those of integers, and so is the right
shift. A left shift is undone to see whether it lost anything; it did so
exactly if no word holds the shifted integer (`shiftLeft?_eq`).
-/

namespace NumericTower.Fixnum

open TwosComplement

theorem bitAt_toInt (a : Fixnum) (k : Nat) :
    bitAt a.toInt k = if k < 64 then a.word.toBitVec.getLsbD k else a.word.toBitVec.msb :=
  TwosComplement.bitAt_toInt a.word.toBitVec k

theorem toInt_bitAnd (a b : Fixnum) : (a.bitAnd b).toInt = meet a.toInt b.toInt := by
  refine eq_of_bitAt fun k => ?_
  rw [bitAt_meet, bitAt_toInt, bitAt_toInt, bitAt_toInt, bitAnd, Int64.toBitVec_and]
  split <;> simp

theorem toInt_bitOr (a b : Fixnum) : (a.bitOr b).toInt = join a.toInt b.toInt := by
  refine eq_of_bitAt fun k => ?_
  rw [bitAt_join, bitAt_toInt, bitAt_toInt, bitAt_toInt, bitOr, Int64.toBitVec_or]
  split <;> simp

theorem toInt_bitXor (a b : Fixnum) : (a.bitXor b).toInt = differ a.toInt b.toInt := by
  refine eq_of_bitAt fun k => ?_
  rw [bitAt_differ, bitAt_toInt, bitAt_toInt, bitAt_toInt, bitXor, Int64.toBitVec_xor]
  split <;> simp

theorem toInt_bitNot (a : Fixnum) : a.bitNot.toInt = ~~~a.toInt := by
  refine eq_of_bitAt fun k => ?_
  rw [bitAt_not, bitAt_toInt, bitAt_toInt, bitNot, Int64.toBitVec_not]
  split <;> simp [*]

theorem bitLength_toInt_le (a : Fixnum) : bitLength a.toInt ≤ 64 := by
  have := a.inRange_toInt
  rw [bitLength_le_iff]
  omega

theorem toInt_shiftRight (a : Fixnum) (n : Nat) : (a.shiftRight n).toInt = a.toInt >>> n := by
  rw [shiftRight]
  split
  · rename_i h
    rw [shiftRight_of_bitLength_le (a.bitLength_toInt_le.trans h), isNegative_eq]
    simp only [decide_eq_true_iff]
    split <;> simp
  · exact BitVec.toInt_sshiftRight

theorem not_inRange_shiftLeft {v : Int} {n : Nat} (hv : v ≠ 0) (hn : 64 ≤ n) :
    ¬ InRange (v <<< n) := by
  intro h
  have hlen : bitLength (v <<< n) ≤ 64 := by rw [bitLength_le_iff]; omega
  have hpos : bitLength v ≠ 0 := fun h0 => hv (bitLength_eq_zero_iff.1 h0)
  rw [bitLength_shiftLeft hv] at hlen
  omega

theorem toInt_shiftLeft (a : Fixnum) (n : Nat) :
    (a.word.toBitVec <<< n).toInt = (a.toInt <<< n).bmod (2 ^ 64) := by
  have ha : a.toInt = (a.word.toBitVec.toNat : Int).bmod (2 ^ 64) :=
    BitVec.toInt_eq_toNat_bmod a.word.toBitVec
  rw [BitVec.toInt_shiftLeft, ha, Int.shiftLeft_eq, Int.bmod_mul_bmod, Nat.shiftLeft_eq,
    Nat.cast_mul, Nat.cast_pow, Nat.cast_ofNat]

/-- A shifted word shifted back is the word iff nothing was lost. -/
theorem sshiftRight_shiftLeft_iff (a : Fixnum) {n : Nat} (hn : n < 64) :
    (a.word.toBitVec <<< n).sshiftRight n = a.word.toBitVec ↔ InRange (a.toInt <<< n) := by
  have hpos : (2 : Int) ^ n ≠ 0 := by positivity
  have hS := a.toInt_shiftLeft n
  have hin : InRange (a.word.toBitVec <<< n).toInt :=
    inRange_toInt ⟨.ofBitVec (a.word.toBitVec <<< n)⟩
  rw [← BitVec.toInt_inj, BitVec.toInt_sshiftRight, Int.shiftRight_eq_div_pow]
  generalize (a.word.toBitVec <<< n).toInt = S at hS hin ⊢
  change S / _ = a.toInt ↔ _
  push_cast
  constructor
  · intro h
    -- the shifted word misses a multiple of `2^64`, which the shift back would show
    have hk : S = 2 ^ n * (a.toInt - 2 ^ (64 - n) * (a.toInt <<< n).bdiv (2 ^ 64)) := by
      have hsplit : (2 : Int) ^ n * 2 ^ (64 - n) = 2 ^ 64 := by
        rw [← pow_add]; congr 1; omega
      rw [hS, Int.bmod_eq_self_sub_mul_bdiv, Int.shiftLeft_eq, mul_sub, ← mul_assoc, hsplit,
        mul_comm a.toInt]
      norm_num
    rw [hk, Int.mul_ediv_cancel_left _ hpos] at h
    have hk0 : (2 : Int) ^ (64 - n) * (a.toInt <<< n).bdiv (2 ^ 64) = 0 := by linarith
    rw [hk0, sub_zero, mul_comm, ← Int.shiftLeft_eq] at hk
    rwa [← hk]
  · intro h
    rw [hS, Int.bmod_eq_of_le (by omega) (by omega), Int.shiftLeft_eq, Int.mul_ediv_cancel _ hpos]

theorem shiftLeft?_eq (a : Fixnum) (n : Nat) : a.shiftLeft? n = ofInt? (a.toInt <<< n) := by
  rw [shiftLeft?]
  split
  · rename_i hn
    rw [isZero_eq]
    by_cases h0 : a.toInt = 0
    · rw [if_pos (by simpa using h0), ofInt?_eq_ok (by rw [h0, Int.zero_shiftLeft])]
    · rw [if_neg (by simpa using h0), ofInt?_eq_error (not_inRange_shiftLeft h0 hn)]
  · rename_i hn
    have hiff := a.sshiftRight_shiftLeft_iff (by omega : n < 64)
    by_cases h : InRange (a.toInt <<< n)
    · simp only [if_pos (hiff.2 h)]
      refine (ofInt?_eq_ok (toInt_mk_eq_bmod ?_ h)).symm
      exact a.toInt_shiftLeft n
    · simp only [if_neg (hiff.not.2 h), ofInt?_eq_error h]

end NumericTower.Fixnum
