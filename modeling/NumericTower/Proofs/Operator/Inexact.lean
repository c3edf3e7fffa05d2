import NumericTower.Proofs.Operator.Integers
/-!
# Operators next to a flonum

What the operators do as soon as one operand is a flonum. Six of them
convert the other operand and compute on doubles, six reject the leftmost
flonum, and two have cells of their own: multiplication for an exact zero,
and modulo, which asks for whole operands.

Of the rules only the first three are left then (`fault?_of_anyFlonum`),
and the outcome follows them (`apply_of_anyFlonum`).
-/

namespace NumericTower

open BinaryRow Number

namespace Number

/-- Of two operands at least one is a flonum. -/
inductive AnyFlonum : Number → Number → Prop
  | left (x : Flonum) (b : Number) : AnyFlonum (.flonum x) b
  | right (a : Number) (y : Flonum) : AnyFlonum a (.flonum y)

theorem anyFlonum_iff {a b : Number} : AnyFlonum a b ↔ a.kind = .flonum ∨ b.kind = .flonum := by
  constructor
  · rintro (⟨x, b⟩ | ⟨a, y⟩)
    · exact .inl rfl
    · exact .inr rfl
  · rintro (h | h)
    · cases a with
      | flonum x => exact .left x b
      | _ => cases h
    · cases b with
      | flonum y => exact .right a y
      | _ => cases h

/-- The leftmost flonum is the left operand, if that is one. -/
theorem AnyFlonum.exists_leftmost {a b : Number} (h : AnyFlonum a b) :
    ∃ x, leftmostFlonum? (fun _ => true) a b = some x := by
  cases h with
  | left x => exact ⟨x, rfl⟩
  | right _ y =>
    cases a with
    | flonum x => exact ⟨x, rfl⟩
    | _ => exact ⟨y, rfl⟩

theorem isExactZero_iff (n : Number) : n.isExactZero = true ↔ n = .zero := by
  cases n with
  | fixnum a =>
    rw [isExactZero, Fixnum.isZero_eq, decide_eq_true_iff, zero, Number.fixnum.injEq,
      ← Fixnum.toInt_inj, Fixnum.toInt_zero]
  | bignum _ => simp [isExactZero, zero]
  | flonum _ => simp [isExactZero, zero]

end Number

variable {a b : Number}

/-! ## The rules that are left -/

namespace BinaryOp

/-- An operator on exact operands names the leftmost flonum. -/
theorem inexactOperand?_eq {op : BinaryOp} {expected : String} {x : Flonum}
    (hop : op.exactOnly? = some expected) (hx : leftmostFlonum? (fun _ => true) a b = some x) :
    op.inexactOperand? a b = some (.typeMismatch op.name expected (.flonum x)) := by
  rw [inexactOperand?, hop, Option.bind_some, hx, Option.map_some]

/-- The rules for shift amounts, powers of zero and limits are about exact
operands. -/
theorem fault?_of_anyFlonum (op : BinaryOp) (limits : Limits) (h : AnyFlonum a b) :
    op.fault? limits a b =
      (op.zeroDivisor? a b).or ((op.inexactOperand? a b).or (op.fractionalOperand? a b)) := by
  have hlimit : op.limitReached? limits a b = none := by
    cases h with
    | left => rfl
    | right => cases a <;> rfl
  have hpower : op.zeroPower? a b = none := by
    refine if_neg ?_
    rintro ⟨-, rfl, hneg⟩
    cases h
    cases hneg
  rw [fault?, hlimit, hpower, Option.or_none, Option.or_none]
  by_cases hshift : op.isShift
  · -- a shift has rejected the flonum by then
    have hexact : op.exactOnly? = some "exact integer" := by
      cases op <;> first | rfl | cases hshift
    obtain ⟨x, hx⟩ := h.exists_leftmost
    rw [inexactOperand?_eq hexact hx, Option.some_or, Option.some_or]
  · rw [show op.hugeShift? b = none from if_neg fun hhuge => hshift hhuge.1, Option.or_none]

end BinaryOp

namespace BinaryRow

/-! ## Rows that convert, rows that reject -/

/-- Next to a flonum a row converts the exact operand. -/
structure Converts (row : BinaryRow) : Prop where
  fixnumFlonum : ∀ a y, row.fixnumFlonum a y = row.flonums (.ofInt a.toInt) y
  bignumFlonum : ∀ a y, row.bignumFlonum a y = row.flonums (.ofInt a.toInt) y
  flonumFixnum : ∀ x b, row.flonumFixnum x b = row.flonums x (.ofInt b.toInt)
  flonumBignum : ∀ x b, row.flonumBignum x b = row.flonums x (.ofInt b.toInt)

theorem Converts.cell {row : BinaryRow} (hrow : row.Converts) (h : AnyFlonum a b) :
    row.cell a b = row.flonums a.toFlonum b.toFlonum := by
  cases h with
  | left x =>
    cases b with
    | fixnum b => exact hrow.flonumFixnum x b
    | bignum b => exact hrow.flonumBignum x b
    | flonum y => rfl
  | right _ y =>
    cases a with
    | fixnum a => exact hrow.fixnumFlonum a y
    | bignum a => exact hrow.bignumFlonum a y
    | flonum x => rfl

theorem exactOnly_cell {operation expected : String} {fixnums : Fixnum → Fixnum → Outcome}
    {integers : Int → Int → Outcome} {precheck : Number → Number → Except NumericError Unit}
    {x : Flonum} (hx : leftmostFlonum? (fun _ => true) a b = some x) :
    (exactOnly operation expected fixnums integers precheck).cell a b =
      .error (.typeMismatch operation expected (.flonum x)) := by
  cases a <;> cases b <;> cases hx <;> rfl

/-! ## Multiplication -/

/-- An exact zero factor, which no bignum is, comes before the conversion. -/
theorem product_cell (h : AnyFlonum a b) :
    product.cell a b =
      if a = .zero ∨ b = .zero then .ok .zero else mulFlonums a.toFlonum b.toFlonum := by
  simp only [← isExactZero_iff]
  cases h with
  | left x => cases b <;> simp [product, BinaryRow.cell, isExactZero, toFlonum]
  | right _ y => cases a <;> simp [product, BinaryRow.cell, isExactZero, toFlonum]

/-! ## Modulo -/

/-- What modulo says of a flonum that it does not take. -/
def notWhole (x : Flonum) : NumericError :=
  .typeMismatch BinaryOp.modulo.name "integer" (.flonum x)

/-- The fault of modulo next to an exact operand. -/
def fractional? (x : Flonum) : Option NumericError :=
  if ¬ x.IsWhole then some (notWhole x) else none

theorem fractional?_of_isWhole {x : Flonum} (h : x.IsWhole) : fractional? x = none :=
  if_neg (not_not_intro h)

/-- The rule for modulo asks each flonum in turn. -/
theorem fractionalOperand?_modulo (a b : Number) :
    BinaryOp.modulo.fractionalOperand? a b =
      (a.asFlonum?.bind fractional?).or (b.asFlonum?.bind fractional?) := by
  have hfilter (n : Number) :
      (n.asFlonum?.filter fun x => ¬ x.IsWhole).map notWhole = n.asFlonum?.bind fractional? := by
    cases n.asFlonum? with
    | none => rfl
    | some x => by_cases h : x.IsWhole <;> simp [fractional?, h]
  rw [← hfilter, ← hfilter, ← Option.map_or]
  rfl

/-- A cell that takes the value of one flonum fails if that is not whole. -/
theorem bind_integralValue {x : Flonum} {f : Int → Outcome}
    (h : ∀ v, (x.isZero = true ↔ v = 0) → ∃ z, f v = .ok (.flonum z)) :
    ∃ z, (integralValue x >>= f) = Outcome.ofFault (fractional? x) (.flonum z) := by
  rw [integralValue, fractional?]
  by_cases hx : x.IsWhole
  · obtain ⟨v, hv, -, hzero⟩ := Flonum.toInt?_of_isWhole hx
    obtain ⟨z, hz⟩ := h v hzero
    rw [if_pos (x.isIntegral_iff.2 hx), hv, if_neg (not_not_intro hx)]
    exact ⟨z, hz⟩
  · rw [if_neg (fun htest => hx (x.isIntegral_iff.1 htest)), if_pos hx]
    exact ⟨x, rfl⟩

/-- Modulo of flonums fails on the leftmost one that is not whole. -/
theorem moduloFlonums_eq {x y : Flonum} (hy : y.isZero = false) :
    ∃ z, moduloFlonums x y = Outcome.ofFault ((fractional? x).or (fractional? y)) (.flonum z) := by
  simp only [moduloFlonums, fractional?, ← Flonum.isIntegral_iff, hy]
  cases x.isIntegral with
  | false => exact ⟨x, rfl⟩
  | true =>
    cases y.isIntegral with
    | false => exact ⟨y, rfl⟩
    | true => exact ⟨_, rfl⟩

theorem exists_remainder {v w : Int} (hw : w ≠ 0) :
    ∃ z, (do let r ← remainder v w; return Number.flonum (.ofInt r) : Outcome) =
      .ok (.flonum z) := by
  rw [remainder, if_neg hw]
  exact ⟨_, rfl⟩

/-- A word takes part as a double. Said of the cells and not of operands:
the conversion of a given word is not to be unfolded. -/
theorem modulo_fixnumFlonum :
    modulo.fixnumFlonum = fun a y => modulo.flonums (.ofInt a.toInt) y := rfl

theorem modulo_flonumFixnum :
    modulo.flonumFixnum = fun x b => modulo.flonums x (.ofInt b.toInt) := rfl

theorem modulo_flonums : modulo.flonums = moduloFlonums := rfl

/-- **Modulo next to a flonum**, for a divisor that passes the first rule. A
word takes part as a double and a bignum as an integer, and neither is ever
at fault. -/
theorem modulo_cell (hb : b.Canonical) (hzero : ¬ b.IsZeroDivisor) (h : AnyFlonum a b) :
    ∃ z, modulo.cell a b = Outcome.ofFault (BinaryOp.modulo.fractionalOperand? a b)
      (.flonum z) := by
  rw [← isZero_iff, Bool.not_eq_true] at hzero
  rw [fractionalOperand?_modulo]
  cases h with
  | left x =>
    cases b with
    | fixnum b =>
      obtain ⟨hwhole, hword⟩ := Flonum.ofInt_word b
      have hne : (Flonum.ofInt b.toInt).isZero = false := by
        rw [Number.isZero, Fixnum.isZero_eq] at hzero
        rw [Bool.eq_false_iff, ne_eq, hword]
        simpa using hzero
      obtain ⟨z, hz⟩ := moduloFlonums_eq (x := x) hne
      rw [fractional?_of_isWhole hwhole] at hz
      rw [BinaryRow.cell, modulo_flonumFixnum, modulo_flonums]
      exact ⟨z, hz⟩
    | bignum b =>
      have hne : b.toInt ≠ 0 := fun h0 => hb (by rw [h0]; decide)
      obtain ⟨z, hz⟩ := bind_integralValue (x := x) fun v _ => exists_remainder (v := v) hne
      exact ⟨z, hz.trans (by simp [asFlonum?])⟩
    | flonum y => exact moduloFlonums_eq hzero
  | right _ y =>
    have hne : y.isZero = false := hzero
    cases a with
    | fixnum a =>
      obtain ⟨z, hz⟩ := moduloFlonums_eq (x := Flonum.ofInt a.toInt) hne
      rw [fractional?_of_isWhole (Flonum.ofInt_word a).1] at hz
      rw [BinaryRow.cell, modulo_fixnumFlonum, modulo_flonums]
      exact ⟨z, hz⟩
    | bignum a =>
      have hdivisor {v : Int} (hv : y.isZero = true ↔ v = 0) : v ≠ 0 := by
        rw [ne_eq, ← hv, hne]
        exact Bool.false_ne_true
      obtain ⟨z, hz⟩ := bind_integralValue (x := y) fun v hv =>
        exists_remainder (v := a.toInt) (hdivisor hv)
      exact ⟨z, hz⟩
    | flonum x => exact moduloFlonums_eq hne

end BinaryRow

/-! ## The table -/

namespace BinaryOp

/-- Multiplication with an exact zero, on either side. -/
def IsZeroProduct (op : BinaryOp) (a b : Number) : Prop := op = .mul ∧ (a = .zero ∨ b = .zero)

/-- What takes flonums at all converts, unless it has a rule of its own for
them: multiplication for an exact zero, modulo for fractions. -/
theorem row_converts (op : BinaryOp) (hop : op.exactOnly? = none ∧ op ≠ .mul ∧ op ≠ .modulo)
    (limits : Limits) : (op.row limits).Converts := by
  cases op with
  | mul => exact absurd rfl hop.2.1
  | modulo => exact absurd rfl hop.2.2
  | quotient | shiftLeft | shiftRight | bitAnd | bitOr | bitXor => cases hop.1
  | _ => exact ⟨fun _ _ => rfl, fun _ _ => rfl, fun _ _ => rfl, fun _ _ => rfl⟩

/-- **Operators next to a flonum** fail by the first three rules only, and
what they give otherwise is a flonum, except for exact zero as the product
with an exact zero. -/
theorem apply_of_anyFlonum (op : BinaryOp) (limits : Limits) (hb : b.Canonical)
    (h : AnyFlonum a b) :
    ∃ n, op.apply limits a b = Outcome.ofFault (op.fault? limits a b) n ∧
      (op.IsZeroProduct a b → n = .zero) ∧ (¬ op.IsZeroProduct a b → n.kind = .flonum) := by
  -- apart from multiplication the result is some flonum
  have flonum {outcome : Outcome} (hop : op ≠ .mul) (x : Flonum)
      (hx : outcome = Outcome.ofFault (op.fault? limits a b) (.flonum x)) :
      ∃ n, outcome = Outcome.ofFault (op.fault? limits a b) n ∧
        (op.IsZeroProduct a b → n = .zero) ∧ (¬ op.IsZeroProduct a b → n.kind = .flonum) :=
    ⟨.flonum x, hx, fun hproduct => absurd hproduct.1 hop, fun _ => rfl⟩
  rw [apply_eq_cell]
  by_cases hzero : op.hasDivisor = true ∧ b.IsZeroDivisor
  · refine flonum (by rintro rfl; cases hzero.1) .nan ?_
    rw [fault?, zeroDivisor?, if_pos hzero, if_pos hzero, Option.some_or]
    rfl
  have hfault : op.fault? limits a b = (op.inexactOperand? a b).or (op.fractionalOperand? a b) := by
    rw [fault?_of_anyFlonum op limits h, zeroDivisor?, if_neg hzero, Option.none_or]
  rw [if_neg hzero]
  cases op with
  | mul =>
    change ∃ n, product.cell a b = _ ∧ _
    rw [product_cell h, hfault]
    by_cases hfactor : a = .zero ∨ b = .zero
    · rw [if_pos hfactor]
      exact ⟨.zero, rfl, fun _ => rfl, fun hproduct => absurd ⟨rfl, hfactor⟩ hproduct⟩
    · rw [if_neg hfactor]
      exact ⟨_, rfl, fun hproduct => absurd hproduct.2 hfactor, fun _ => rfl⟩
  | modulo =>
    obtain ⟨z, hz⟩ := modulo_cell hb (fun hdivisor => hzero ⟨rfl, hdivisor⟩) h
    exact flonum (by decide) z (hfault ▸ hz)
  | quotient | shiftLeft | shiftRight | bitAnd | bitOr | bitXor =>
    obtain ⟨x, hx⟩ := h.exists_leftmost
    refine flonum (by decide) x ((exactOnly_cell hx).trans ?_)
    rw [hfault, inexactOperand?_eq rfl hx]
    rfl
  | _ =>
    rw [hfault] at flonum ⊢
    exact flonum (by decide) _ ((row_converts _ (by decide) limits).cell h)

end BinaryOp

end NumericTower
