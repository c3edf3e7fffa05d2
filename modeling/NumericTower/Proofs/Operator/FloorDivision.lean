import NumericTower.Proofs.Integer.Floor
import NumericTower.Proofs.Operator.Exact
/-!
# Division with a floor

Between exact operands the two divisions and the modulo are one division of
integers (`floor_division_exact`): the quotient is rounded down, and what it
leaves over lies between zero and the divisor. The least word by minus one
is no exception, although its quotient is the one that no word holds.
-/

namespace NumericTower

open Number

variable {v w : Int}

/-- **Exact division is division with a floor.** For a nonzero divisor the
quotient and the modulo both come out, as canonical integers under every
limit, and put the dividend together again; the division gives the same
quotient. -/
theorem floor_division_exact (limits : Limits) {a b : Number} (ha : a.Canonical)
    (hb : b.Canonical) (hv : a.toInt? = some v) (hw : b.toInt? = some w) (hne : w ≠ 0) :
    ∃ q r : Int,
      (BinaryOp.quotient.apply limits a b).IsInteger q ∧
        (BinaryOp.div.apply limits a b).IsInteger q ∧
        (BinaryOp.modulo.apply limits a b).IsInteger r ∧
        v = q * w + r ∧ |r| < |w| ∧ (r = 0 ∨ r.sign = w.sign) ∧ q = ⌊(v / w : ℚ)⌋ := by
  obtain rfl := eq_ofInt_of_toInt? ha hv
  obtain rfl := eq_ofInt_of_toInt? hb hw
  have integer (op : BinaryOp) (hop : op.isLimited = false) :
      (op.apply limits (ofInt v) (ofInt w)).IsInteger (op.value v w) :=
    BinaryOp.isInteger_apply_ofInt hop limits fun _ => hne
  refine ⟨v.fdiv w, v.fmod w, integer .quotient rfl, integer .div rfl, integer .modulo rfl, ?_,
    abs_fmod_lt v hne, fmod_eq_zero_or_sign_eq v hne, (floor_div_eq_fdiv v w).symm⟩
  exact (Int.fdiv_mul_add_fmod v w).symm

/-- The least word by minus one has a quotient that is no word, and leaves
nothing over. -/
theorem floor_division_exact_least_word :
    let a : Number := .fixnum .least
    let b : Number := .fixnum .negOne
    a.Canonical ∧ b.Canonical ∧ a.toInt? = some (-9223372036854775808) ∧ b.toInt? = some (-1) ∧
      (-1 : Int) ≠ 0 ∧
      (BinaryOp.quotient.apply ⟨0⟩ a b).IsInteger 9223372036854775808 ∧
      (BinaryOp.div.apply ⟨0⟩ a b).IsInteger 9223372036854775808 ∧
      (BinaryOp.modulo.apply ⟨0⟩ a b).IsInteger 0 := by
  intro a b
  have hleast : a.toInt? = some (-9223372036854775808) := congrArg some Fixnum.toInt_least
  have hminus : b.toInt? = some (-1) := congrArg some Fixnum.toInt_negOne
  obtain ⟨q, r, hquotient, hdiv, hmodulo, hsum, -, -, hfloor⟩ :=
    floor_division_exact ⟨0⟩ (canonical_fixnum _) (canonical_fixnum _) hleast hminus (by decide)
  rw [floor_div_eq_fdiv, Fixnum.fdiv_neg_one] at hfloor
  obtain rfl : q = 9223372036854775808 := hfloor
  obtain rfl : r = 0 := by omega
  exact ⟨canonical_fixnum _, canonical_fixnum _, hleast, hminus, by decide, hquotient, hdiv,
    hmodulo⟩

end NumericTower
