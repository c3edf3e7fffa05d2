import NumericTower.Proofs.Operator.Exact
/-!
# Bitwise operators, bit by bit

An exact operand is an infinite sequence of bits, in two's complement and
continued with its sign, whether a word or a bignum holds it. The bitwise
operators act on every bit of their operands alike (`bitwise_exact`), and
never fail on exact operands: where the high bits cancel the result is a word
again, and the complement is `-v - 1`.
-/

namespace NumericTower

open Number TwosComplement

/-- The outcome is the canonical number of the integer with these bits. -/
def Outcome.HasBits (outcome : Outcome) (bits : ℕ → Bool) : Prop :=
  ∃ u : Int, outcome.IsInteger u ∧ ∀ k, u.testBit k = bits k

variable {v w : Int}

/-- An operator whose integer has these bits has them for any mix of
operands. -/
theorem hasBits_apply_ofInt {op : BinaryOp} (h : op.isLimited = false)
    (hdivisor : op.hasDivisor = false) (limits : Limits) {bits : ℕ → Bool}
    (hbits : ∀ k, (op.value v w).testBit k = bits k) :
    (op.apply limits (ofInt v) (ofInt w)).HasBits bits := by
  refine ⟨op.value v w, BinaryOp.isInteger_apply_ofInt h limits ?_, hbits⟩
  intro hop
  exact absurd (hdivisor.symm.trans hop) Bool.false_ne_true

theorem bitNot_apply_ofInt (v : Int) :
    UnaryOp.bitNot.apply (ofInt v) = .ok (ofInt (-v - 1)) := by
  rw [← not_eq_neg_sub_one]
  by_cases h : Fixnum.InRange v
  · rw [ofInt_of_inRange h]
    change Except.ok (fixnum (Fixnum.bitNot (.ofInt v))) = _
    rw [← ofInt_toInt, Fixnum.toInt_bitNot, Fixnum.toInt_ofInt h]
  · rw [ofInt_of_not_inRange h]
    rfl

/-- **Bitwise operators act on each bit of unbounded integers.** On exact
operands, words and bignums in any mix, none of them fails, and bit `k` of the
result is made of bit `k` of either operand, for every `k`. The complement
rejects a flonum. -/
theorem bitwise_exact (limits : Limits) {a b : Number} (ha : a.Canonical) (hb : b.Canonical)
    (hv : a.toInt? = some v) (hw : b.toInt? = some w) :
    (BinaryOp.bitAnd.apply limits a b).HasBits (fun k => v.testBit k && w.testBit k) ∧
      (BinaryOp.bitOr.apply limits a b).HasBits (fun k => v.testBit k || w.testBit k) ∧
      (BinaryOp.bitXor.apply limits a b).HasBits (fun k => v.testBit k ^^ w.testBit k) ∧
      (UnaryOp.bitNot.apply a).IsInteger (-v - 1) ∧
      ∀ x : Flonum, UnaryOp.bitNot.apply (.flonum x) =
        .error (.typeMismatch UnaryOp.bitNot.name "exact integer" (.flonum x)) := by
  obtain rfl := eq_ofInt_of_toInt? ha hv
  obtain rfl := eq_ofInt_of_toInt? hb hw
  simp only [← bitAt_eq_testBit]
  refine ⟨hasBits_apply_ofInt rfl rfl limits ?_, hasBits_apply_ofInt rfl rfl limits ?_,
    hasBits_apply_ofInt rfl rfl limits ?_, ?_, ?_⟩
  · intro k
    rw [← bitAt_eq_testBit]
    exact bitAt_meet v w k
  · intro k
    rw [← bitAt_eq_testBit]
    exact bitAt_join v w k
  · intro k
    rw [← bitAt_eq_testBit]
    exact bitAt_differ v w k
  · rw [bitNot_apply_ofInt]
    exact Outcome.isInteger_ofInt _
  · intro x
    rfl

/-- The bits of a bignum above the lowest three cancel next to a word, and the
rest is a word. -/
theorem bitwise_exact_high_bits :
    let a : Number := .bignum ⟨18446744073709551621⟩
    let b : Number := .fixnum (.ofInt 7)
    a.Canonical ∧ b.Canonical ∧ a.toInt? = some 18446744073709551621 ∧ b.toInt? = some 7 ∧
      BinaryOp.bitAnd.apply ⟨0⟩ a b = .ok (.fixnum (.ofInt 5)) ∧
      (BinaryOp.bitAnd.apply ⟨0⟩ a b).HasBits
        (fun k => Int.testBit 18446744073709551621 k && Int.testBit 7 k) ∧
      (BinaryOp.bitOr.apply ⟨0⟩ a b).HasBits
        (fun k => Int.testBit 18446744073709551621 k || Int.testBit 7 k) ∧
      (BinaryOp.bitXor.apply ⟨0⟩ a b).HasBits
        (fun k => Int.testBit 18446744073709551621 k ^^ Int.testBit 7 k) ∧
      (UnaryOp.bitNot.apply a).IsInteger (-18446744073709551621 - 1) := by
  intro a b
  have ha : a.Canonical := (canonical_bignum _).2 (by decide)
  have hb : b.Canonical := canonical_fixnum _
  have hword : b.toInt? = some 7 := congrArg some (Fixnum.toInt_ofInt (by decide))
  obtain ⟨hand, hor, hxor, hnot, -⟩ := bitwise_exact ⟨0⟩ ha hb rfl hword
  exact ⟨ha, hb, rfl, hword, rfl, hand, hor, hxor, hnot⟩

end NumericTower
