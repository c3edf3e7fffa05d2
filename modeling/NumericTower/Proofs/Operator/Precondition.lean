import NumericTower.Proofs.Number.Conversion
import NumericTower.Proofs.Operator.PerfectSquare
/-!
# Preconditions of the primitives

Some primitives must not be run on every operand: division and remainder ask
for a divisor other than zero, the square of a word's root must be a word, the
estimate of a power asks for a base of two bits, and a finite flonum is expected
to have an integer part. An outcome shows it when one of them was
(`Outcome.IsBreach`), and comparison does by finding no order.

None of this happens to canonical numbers (`preconditions_hold`). The check for
a zero divisor is made on the operands, but the cells divide by what they make
of them: by a word, an integer, the double of a word, or the integer that is
read off a double. That these are zero only if the operand is a zero divisor is
`isBreach_cell_iff`.
-/

namespace NumericTower

open BinaryRow Number

/-- How an outcome shows that a primitive was run outside its domain. -/
inductive Outcome.IsBreach : Outcome → Prop
  /-- The primitive says so itself, with one of its defects. -/
  | defect (operation : String) (cause : Defect) :
      IsBreach (.error (.defect operation cause))
  /-- A finite flonum is reported as not finite, which is what its conversion to
  an exact number falls back to when it finds no integer part. -/
  | fallback (operation : String) {x : Flonum} (h : x.isFinite = true) :
      IsBreach (.error (.notFinite operation (.flonum x)))

namespace Outcome

@[simp]
theorem not_isBreach_ok (n : Number) : ¬ IsBreach (.ok n) := nofun

@[simp]
theorem not_isBreach_typeMismatch (operation expected : String) (n : Number) :
    ¬ IsBreach (.error (.typeMismatch operation expected n)) := nofun

@[simp]
theorem not_isBreach_limitExceeded (operation : String) (bits most : UInt64) :
    ¬ IsBreach (.error (.limitExceeded operation bits most)) := nofun

/-- A result or a fault is no breach if the fault is none. -/
theorem not_isBreach_ofFault {fault : Option NumericError} {n : Number}
    (h : ∀ e, fault = some e → ¬ IsBreach (.error e)) : ¬ IsBreach (ofFault fault n) := by
  cases fault with
  | none => exact not_isBreach_ok n
  | some e => exact h e rfl

end Outcome

open Outcome

/-! ## Unary operators -/

/-- **A finite flonum has an integer part**, so that its conversion to an exact
number does not fall back. What is not finite is reported as what it is. -/
theorem not_isBreach_exactOf (operation : String) (x : Flonum) :
    ¬ IsBreach (exactOf operation x) := by
  cases hx : x.isFinite with
  | false =>
    rw [exactOf, hx, Bool.not_false, if_pos rfl]
    intro hbreach
    cases hbreach with
    | fallback _ hfinite => exact Bool.false_ne_true (hx.symm.trans hfinite)
  | true =>
    obtain ⟨q, hq⟩ := Flonum.exists_toRat?_of_isFinite hx
    obtain ⟨n, hn, -⟩ := exists_exactOf hq operation
    rw [hn]
    exact not_isBreach_ok n

theorem not_isBreach_roundingBy (op : UnaryOp) (round : Flonum → Flonum) (a : Number) :
    ¬ IsBreach ((UnaryRow.roundingBy op round).run a) := by
  cases a with
  | fixnum a => exact not_isBreach_ok (.fixnum a)
  | bignum a => exact not_isBreach_ok (.bignum a)
  | flonum x => exact not_isBreach_exactOf op.name (round x)

/-- Only rounding and the square root have preconditions at all. -/
theorem not_isBreach_applyUnary (op : UnaryOp) {a : Number} (ha : a.Canonical) :
    ¬ IsBreach (op.apply a) := by
  cases op with
  | round => exact not_isBreach_roundingBy .round Flonum.roundHalfAway a
  | floor => exact not_isBreach_roundingBy .floor Flonum.floor a
  | ceiling => exact not_isBreach_roundingBy .ceiling Flonum.ceil a
  | truncate => exact not_isBreach_roundingBy .truncate Flonum.trunc a
  | sqrt =>
    cases happly : UnaryOp.sqrt.apply a with
    | ok r => exact not_isBreach_ok r
    | error e =>
      obtain ⟨-, rfl⟩ := (sqrt_apply_eq_error_iff ha).1 happly
      exact not_isBreach_typeMismatch "sqrt" "nonnegative real" a
  | fractionalPart =>
    cases a with
    | flonum x => cases x <;> exact not_isBreach_ok _
    | _ => exact not_isBreach_ok _
  | bitNot =>
    cases a with
    | flonum x => exact not_isBreach_typeMismatch _ _ _
    | _ => exact not_isBreach_ok _
  | plus | negate | abs => cases a <;> exact not_isBreach_ok _

/-! ## Divisors

What each way to divide, and to find a remainder, asks of its divisor. -/

/-- Either zero is whole. -/
theorem Flonum.isIntegral_of_isZero {y : Flonum} (h : y.isZero = true) : y.isIntegral = true := by
  cases y with
  | nan => cases h
  | infinite negative => cases h
  | finite negative m =>
    rw [isZero, beq_iff_eq] at h
    rw [isIntegral, h, Nat.zero_mod, beq_self_eq_true]

namespace BinaryRow

theorem isBreach_divideIntegers {op : BinaryOp} {v w : Int} :
    IsBreach (divideIntegers op v w) ↔ w = 0 := by
  rw [divideIntegers]
  split
  · rename_i hw
    exact iff_of_true (.defect op.name .zeroDivisor) hw
  · rename_i hw
    exact iff_of_false (not_isBreach_ok _) hw

/-- A remainder by zero is a breach, whatever is made of the remainder. -/
theorem isBreach_bind_remainder {v w : Int} {f : Int → Outcome} (hf : ∀ r, ¬ IsBreach (f r)) :
    IsBreach (remainder v w >>= f) ↔ w = 0 := by
  rw [remainder]
  split
  · rename_i hw
    exact iff_of_true (.defect BinaryOp.modulo.name .zeroDivisor) hw
  · rename_i hw
    exact iff_of_false (hf (v.fmod w)) hw

theorem isBreach_moduloIntegers {v w : Int} : IsBreach (modulo.integers v w) ↔ w = 0 := by
  have hbind : modulo.integers v w = (remainder v w >>= fun r => .ok (ofInt r)) := by
    change (remainder v w).map ofInt = _
    cases remainder v w <;> rfl
  rw [hbind]
  exact isBreach_bind_remainder fun r => not_isBreach_ok (ofInt r)

/-- A flonum without a fraction has its integer read off, and a breach is what
is made of that. -/
theorem isBreach_bind_integralValue {x : Flonum} {f : Int → Outcome} {P : Prop}
    (h : ∀ v, (x.isZero = true ↔ v = 0) → (IsBreach (f v) ↔ P)) :
    IsBreach (integralValue x >>= f) ↔ x.isIntegral = true ∧ P := by
  rw [integralValue]
  by_cases hx : x.isIntegral = true
  · obtain ⟨v, hv, -, hzero⟩ := Flonum.toInt?_of_isWhole (x.isIntegral_iff.1 hx)
    rw [if_pos hx, hv, and_iff_right hx]
    exact h v hzero
  · rw [if_neg hx]
    exact iff_of_false (not_isBreach_typeMismatch _ _ _) fun hP => hx hP.1

/-- The remainder of doubles is found for flonums without a fraction only. -/
theorem isBreach_moduloFlonums {x y : Flonum} :
    IsBreach (moduloFlonums x y) ↔ x.isIntegral = true ∧ y.isZero = true := by
  rw [moduloFlonums]
  cases hx : x.isIntegral with
  | false => exact iff_of_false (not_isBreach_typeMismatch _ _ _) fun h => Bool.false_ne_true h.1
  | true =>
    cases hzero : y.isZero with
    | false =>
      refine iff_of_false ?_ fun h => Bool.false_ne_true h.2
      cases y.isIntegral with
      | false => exact not_isBreach_typeMismatch _ _ _
      | true => exact not_isBreach_ok _
    | true =>
      rw [Flonum.isIntegral_of_isZero hzero]
      exact iff_of_true (.defect BinaryOp.modulo.name .zeroDivisor) ⟨rfl, rfl⟩

/-- **Modulo next to a flonum.** Its divisor is the double of a word, the integer
read off a double, or the operand itself, and zero just if the operand is. -/
theorem isBreach_modulo_cell {a b : Number} (hb : b.Canonical) (h : AnyFlonum a b) :
    IsBreach (modulo.cell a b) ↔ a.isInteger = true ∧ b.isZero = true := by
  cases h with
  | left x =>
    cases b with
    | fixnum b =>
      rw [BinaryRow.cell, modulo_flonumFixnum, modulo_flonums, isBreach_moduloFlonums,
        (Flonum.ofInt_word b).2, Number.isZero, Fixnum.isZero_eq, decide_eq_true_iff]
      rfl
    | bignum b =>
      have hne : b.toInt ≠ 0 := fun h0 => hb (by rw [h0]; decide)
      refine isBreach_bind_integralValue fun v _ => ?_
      refine (isBreach_bind_remainder fun r => not_isBreach_ok (.flonum (.ofInt r))).trans ?_
      exact iff_of_false hne Bool.false_ne_true
    | flonum y => exact isBreach_moduloFlonums
  | right _ y =>
    cases a with
    | fixnum a =>
      have hwhole := (Flonum.ofInt a.toInt).isIntegral_iff.2 (Flonum.ofInt_word a).1
      rw [BinaryRow.cell, modulo_fixnumFlonum, modulo_flonums, isBreach_moduloFlonums, hwhole]
      rfl
    | bignum a =>
      -- the divisor is read off the double, and the dividend is an integer already
      have hbreach : IsBreach (modulo.cell (.bignum a) (.flonum y)) ↔
          y.isIntegral = true ∧ y.isZero = true := by
        refine isBreach_bind_integralValue fun v hv => ?_
        exact (isBreach_bind_remainder fun r => not_isBreach_ok (.flonum (.ofInt r))).trans hv.symm
      rw [hbreach]
      exact and_congr_left fun hzero => iff_of_true (Flonum.isIntegral_of_isZero hzero) rfl
    | flonum x => exact isBreach_moduloFlonums

/-! ## The estimate of a power -/

open TwosComplement in
/-- The estimate of a power breaks for the bases `-1`, `0` and `1`, whose powers
are known before it is made. -/
theorem isBreach_largePower {limits : Limits} {base : Int} {exponent : Nat} :
    IsBreach (largePower limits base exponent) ↔
      exponent < exponentBound ∧ base.natAbs ≤ 1 := by
  by_cases hbase : 2 ≤ base.natAbs
  · rw [largePower_eq hbase]
    refine iff_of_false ?_ fun h => absurd h.2 (by omega)
    split
    · exact not_isBreach_limitExceeded _ _ _
    · exact not_isBreach_ok _
  · have hbits : bitLength base ≤ 1 := bitLength_le_iff.2 (by omega)
    rw [largePower]
    split
    · rename_i hbound
      exact iff_of_false (not_isBreach_limitExceeded _ _ _) fun h => absurd h.1 (not_lt.2 hbound)
    · rename_i hbound
      dsimp only
      rw [if_pos (by omega)]
      exact iff_of_true (.defect BinaryOp.expt.name .degenerateBase)
        ⟨not_le.1 hbound, by omega⟩

end BinaryRow

namespace BinaryOp

variable {op : BinaryOp} {limits : Limits} {a b : Number} {e : NumericError}

/-! ## The cells that divide -/

/-- Words are divided as the integers that they are. -/
theorem isBreach_cell_ofInt (hop : op.hasDivisor = true) (limits : Limits) (v w : Int) :
    IsBreach ((op.row limits).cell (ofInt v) (ofInt w)) ↔ w = 0 := by
  have hwords (a b : Fixnum) :
      (op.row limits).fixnums a b = (op.row limits).integers a.toInt b.toInt := by
    cases op with
    | div => exact divideFixnums_eq .div a b
    | quotient => exact divideFixnums_eq .quotient a b
    | modulo => exact modulo_fixnums_eq a b
    | _ => cases hop
  rw [(row_widens op limits).cell_eq hwords (fun _ => rfl)]
  cases op with
  | div => exact isBreach_divideIntegers
  | quotient => exact isBreach_divideIntegers
  | modulo => exact isBreach_moduloIntegers
  | _ => cases hop

/-- **What the cells of the division family divide by.** Without the check they
do run a primitive on a divisor zero, but only for a zero divisor: between exact
operands always, and next to a flonum in modulo, unless that rejects the
dividend. -/
theorem isBreach_cell_iff (hop : op.hasDivisor = true) (limits : Limits) (ha : a.Canonical)
    (hb : b.Canonical) :
    IsBreach ((op.row limits).cell a b) ↔
      b.IsZeroDivisor ∧
        (a.isExact = true ∧ b.isExact = true ∨ op = .modulo ∧ a.isInteger = true) := by
  by_cases hflonum : AnyFlonum a b
  · have hexact : ¬ (a.isExact = true ∧ b.isExact = true) := by
      rintro ⟨hexactA, hexactB⟩
      cases hflonum with
      | left x => cases hexactA
      | right _ y => cases hexactB
    rw [or_iff_right hexact, ← isZero_iff]
    cases op with
    | div =>
      rw [(row_converts .div (by decide) limits).cell hflonum]
      exact iff_of_false (not_isBreach_ok _) fun h => nomatch h.2.1
    | quotient =>
      obtain ⟨x, hx⟩ := hflonum.exists_leftmost
      have hcell : (BinaryOp.quotient.row limits).cell a b =
          .error (.typeMismatch "quotient" "integer" (.flonum x)) := exactOnly_cell hx
      rw [hcell]
      exact iff_of_false (not_isBreach_typeMismatch _ _ _) fun h => nomatch h.2.1
    | modulo =>
      refine (isBreach_modulo_cell hb hflonum).trans ?_
      rw [and_iff_right rfl, and_comm]
    | _ => cases hop
  · obtain ⟨v, rfl⟩ := (eq_ofInt_or_flonum ha).resolve_right
      (by rintro ⟨x, rfl⟩; exact hflonum (.left x b))
    obtain ⟨w, rfl⟩ := (eq_ofInt_or_flonum hb).resolve_right
      (by rintro ⟨y, rfl⟩; exact hflonum (.right _ y))
    rw [isBreach_cell_ofInt hop, isZeroDivisor_ofInt]
    have hexact (u : Int) : (ofInt u).isExact = true := isExact_of_toInt? (toInt?_ofInt u)
    exact (and_iff_left (.inl ⟨hexact v, hexact w⟩)).symm

/-! ## The table -/

/-- The rules of the table blame the operands or the limit. -/
theorem not_isBreach_of_fault? (h : op.fault? limits a b = some e) : ¬ IsBreach (.error e) := by
  rcases eq_of_fault? h with ⟨m, n, rfl⟩ | ⟨expected, n, rfl⟩ | ⟨n, rfl⟩ | ⟨-, -, -, bits, rfl⟩ <;>
    exact nofun

/-- **No operator ends in a breach.** -/
theorem not_isBreach_apply (op : BinaryOp) (limits : Limits) (ha : a.Canonical)
    (hb : b.Canonical) : ¬ IsBreach (op.apply limits a b) := by
  obtain ⟨n, hn, -⟩ := op.exists_apply_eq limits ha hb
  rw [hn]
  exact not_isBreach_ofFault fun e => not_isBreach_of_fault?

end BinaryOp

/-! ## Canonical operands -/

/-- **Canonical operands break no precondition.** No operator ends in a breach,
under any limits, and comparison finds no order next to a NaN only. The cells by
themselves would: those of the division family exactly for what the check on the
operands finds to be a zero divisor, and the estimate of a power exactly for the
bases that are told apart before it. -/
theorem preconditions_hold {a b : Number} (ha : a.Canonical) (hb : b.Canonical) :
    (∀ (op : BinaryOp) (limits : Limits), ¬ (op.apply limits a b).IsBreach) ∧
    (∀ op : UnaryOp, ¬ (op.apply a).IsBreach) ∧
    (a.compare? b = none ↔ a = .flonum .nan ∨ b = .flonum .nan) ∧
    (∀ (op : BinaryOp) (limits : Limits), op.hasDivisor = true →
      (((op.row limits).cell a b).IsBreach ↔
        b.IsZeroDivisor ∧
          (a.isExact = true ∧ b.isExact = true ∨ op = .modulo ∧ a.isInteger = true))) ∧
    ∀ (limits : Limits) (base : Int) (exponent : Nat),
      (largePower limits base exponent).IsBreach ↔ exponent < exponentBound ∧ base.natAbs ≤ 1 := by
  refine ⟨?_, ?_, ?_, ?_, ?_⟩
  · intro op limits
    exact op.not_isBreach_apply limits ha hb
  · intro op
    exact not_isBreach_applyUnary op ha
  · exact compare?_eq_none_iff ha hb
  · intro op limits hop
    exact BinaryOp.isBreach_cell_iff hop limits ha hb
  · intro limits base exponent
    exact isBreach_largePower

/-- A bignum modulo `-0.0`: the cell reads a zero off the double and divides by
it, but it is not run. -/
theorem preconditions_hold_negative_zero :
    let a : Number := .bignum ⟨18446744073709551616⟩
    let b : Number := .flonum (.zero true)
    a.Canonical ∧ b.Canonical ∧ ((BinaryOp.modulo.row .strict).cell a b).IsBreach ∧
      ¬ (BinaryOp.modulo.apply .strict a b).IsBreach ∧ ¬ (UnaryOp.sqrt.apply a).IsBreach ∧
      a.compare? b ≠ none := by
  intro a b
  have ha : a.Canonical := by decide
  have hb : b.Canonical := canonical_flonum (.zero true)
  obtain ⟨hbinary, hunary, hcompare, hcell, -⟩ := preconditions_hold ha hb
  exact ⟨ha, hb, (hcell .modulo .strict rfl).2 ⟨by decide, .inr ⟨rfl, rfl⟩⟩,
    hbinary .modulo .strict, hunary .sqrt, hcompare.not.2 (by decide)⟩

/-- A bignum zero is not canonical: the check, which looks for a word, lets it
pass. -/
example : BinaryOp.div.apply .standard .zero (.bignum ⟨0⟩) = .error (.defect "/" .zeroDivisor) := by
  decide

end NumericTower
