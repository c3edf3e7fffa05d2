import NumericTower.Operator.Apply
import NumericTower.Proofs.Canonical.Outcome
/-!
# Binary operators keep numbers canonical

Row by row of the operator table. The cells make exact numbers with `ofInt`
or of words, so their outcomes are canonical whatever the operands are;
only the check before the cells hands operands on, inside its error, and
those are canonical by assumption. The headline is `canonical_apply`.
-/

namespace NumericTower

namespace BinaryRow

/-- The check and every cell of a row hand out canonical numbers only. The
check may name the operands, the cells make their numbers anew. -/
structure KeepsCanonical (row : BinaryRow) : Prop where
  precheck : ∀ {a b e}, a.Canonical → b.Canonical → row.precheck a b = .error e → e.Canonical
  fixnums : ∀ a b, Outcome.Canonical (row.fixnums a b)
  integers : ∀ v w, Outcome.Canonical (row.integers v w)
  flonums : ∀ x y, Outcome.Canonical (row.flonums x y)
  fixnumBignum : ∀ a b, Outcome.Canonical (row.fixnumBignum a b)
  bignumFixnum : ∀ a b, Outcome.Canonical (row.bignumFixnum a b)
  fixnumFlonum : ∀ a y, Outcome.Canonical (row.fixnumFlonum a y)
  bignumFlonum : ∀ a y, Outcome.Canonical (row.bignumFlonum a y)
  flonumFixnum : ∀ x b, Outcome.Canonical (row.flonumFixnum x b)
  flonumBignum : ∀ x b, Outcome.Canonical (row.flonumBignum x b)

variable {row : BinaryRow} {a b : Number}

/-- The cells say nothing of their operands, so neither does this. -/
theorem KeepsCanonical.cell (h : row.KeepsCanonical) (a b : Number) :
    Outcome.Canonical (row.cell a b) := by
  cases a with
  | fixnum a =>
    cases b with
    | fixnum b => exact h.fixnums a b
    | bignum b => exact h.fixnumBignum a b
    | flonum y => exact h.fixnumFlonum a y
  | bignum a =>
    cases b with
    | fixnum b => exact h.bignumFixnum a b
    | bignum b => exact h.integers a.toInt b.toInt
    | flonum y => exact h.bignumFlonum a y
  | flonum x =>
    cases b with
    | fixnum b => exact h.flonumFixnum x b
    | bignum b => exact h.flonumBignum x b
    | flonum y => exact h.flonums x y

theorem KeepsCanonical.run (h : row.KeepsCanonical) (ha : a.Canonical) (hb : b.Canonical) :
    Outcome.Canonical (row.run a b) := by
  rw [BinaryRow.run]
  split
  · exact h.cell a b
  · rename_i e he
    exact h.precheck ha hb he

/-! ## The two ways to fill a row -/

section Rows

variable {check : Number → Number → Except NumericError Unit}
variable {fixnums : Fixnum → Fixnum → Outcome} {integers : Int → Int → Outcome}
variable {flonums : Flonum → Flonum → Outcome} {operation expected : String}

/-- The mixed cells that a row leaves to the tower's rules are its own
cells of equal kinds. -/
theorem keepsCanonical_of_equalKinds
    (hcheck : ∀ {a b e}, a.Canonical → b.Canonical → check a b = .error e → e.Canonical)
    (hfixnums : ∀ a b, Outcome.Canonical (fixnums a b))
    (hintegers : ∀ v w, Outcome.Canonical (integers v w))
    (hflonums : ∀ x y, Outcome.Canonical (flonums x y)) :
    KeepsCanonical { precheck := check, fixnums, integers, flonums } where
  precheck := hcheck
  fixnums := hfixnums
  integers := hintegers
  flonums := hflonums
  fixnumBignum a b := hintegers a.toInt b.toInt
  bignumFixnum a b := hintegers a.toInt b.toInt
  fixnumFlonum a y := hflonums (.ofInt a.toInt) y
  bignumFlonum a y := hflonums (.ofInt a.toInt) y
  flonumFixnum x b := hflonums x (.ofInt b.toInt)
  flonumBignum x b := hflonums x (.ofInt b.toInt)

/-- A rejected flonum is canonical as it is. -/
theorem canonical_typeMismatch (x : Flonum) :
    Outcome.Canonical (.error (.typeMismatch operation expected (.flonum x))) := by
  simp [NumericError.numbers]

/-- The flonum cells of a row for exact operands only reject a flonum. -/
theorem keepsCanonical_exactOnly
    (hcheck : ∀ {a b e}, a.Canonical → b.Canonical → check a b = .error e → e.Canonical)
    (hfixnums : ∀ a b, Outcome.Canonical (fixnums a b))
    (hintegers : ∀ v w, Outcome.Canonical (integers v w)) :
    KeepsCanonical (exactOnly operation expected fixnums integers check) where
  precheck := hcheck
  fixnums := hfixnums
  integers := hintegers
  flonums x _ := canonical_typeMismatch x
  fixnumBignum a b := hintegers a.toInt b.toInt
  bignumFixnum a b := hintegers a.toInt b.toInt
  fixnumFlonum _ y := canonical_typeMismatch y
  bignumFlonum _ y := canonical_typeMismatch y
  flonumFixnum x _ := canonical_typeMismatch x
  flonumBignum x _ := canonical_typeMismatch x

end Rows

/-- Both ways on from a word operation are canonical: the word, and the
integer cell. -/
theorem canonical_promote {integers : Int → Int → Outcome}
    (h : ∀ v w, Outcome.Canonical (integers v w)) (result : Except Overflow Fixnum)
    (a b : Fixnum) : Outcome.Canonical (promote result integers a b) := by
  cases result with
  | ok word => simp [promote]
  | error _ => exact h a.toInt b.toInt

/-- The rows without a check have none to fail. -/
theorem canonical_unchecked {a b : Number} {e : NumericError} (_ : a.Canonical)
    (_ : b.Canonical) (h : (Except.ok () : Except NumericError Unit) = .error e) :
    e.Canonical := by
  cases h

/-! ## Arithmetic and division -/

theorem canonical_addIntegers (v w : Int) : Outcome.Canonical (addIntegers v w) := by
  simp [addIntegers]

theorem canonical_subIntegers (v w : Int) : Outcome.Canonical (subIntegers v w) := by
  simp [subIntegers]

/-- A zero divisor is reported with the operands themselves. -/
theorem canonical_rejectZeroDivisor {op : BinaryOp} {a b : Number} {e : NumericError}
    (ha : a.Canonical) (hb : b.Canonical) (h : rejectZeroDivisor op a b = .error e) :
    e.Canonical := by
  rw [rejectZeroDivisor] at h
  split at h
  · cases h
    simp [NumericError.numbers, ha, hb]
  · cases h

theorem canonical_divideIntegers (op : BinaryOp) (v w : Int) :
    Outcome.Canonical (divideIntegers op v w) := by
  rw [divideIntegers]
  split <;> simp [NumericError.numbers]

theorem canonical_divideFixnums (op : BinaryOp) (a b : Fixnum) :
    Outcome.Canonical (divideFixnums op a b) := by
  rw [divideFixnums]
  split
  · simp [NumericError.numbers]
  · exact canonical_promote (canonical_divideIntegers op) _ a b

theorem canonical_mulFlonums (x y : Flonum) : Outcome.Canonical (mulFlonums x y) := by
  simp [mulFlonums]

theorem canonical_mulIntegers (v w : Int) : Outcome.Canonical (mulIntegers v w) := by
  simp [mulIntegers]

/-- An exact zero factor decides the product before it is taken. -/
theorem canonical_zero_or {zeroFactor : Prop} [Decidable zeroFactor] {r : Outcome}
    (hr : r.Canonical) : Outcome.Canonical (if zeroFactor then .ok .zero else r) := by
  split
  · simp [Number.zero]
  · exact hr

/-- Multiplication's own mixed cells: exact zero, or the cell of equal
kinds. -/
theorem product_keepsCanonical : product.KeepsCanonical where
  precheck := canonical_unchecked
  fixnums a b := canonical_promote canonical_mulIntegers _ a b
  integers := canonical_mulIntegers
  flonums := canonical_mulFlonums
  fixnumBignum a b := canonical_zero_or (canonical_mulIntegers a.toInt b.toInt)
  bignumFixnum a b := canonical_zero_or (canonical_mulIntegers a.toInt b.toInt)
  fixnumFlonum a y := canonical_zero_or (canonical_mulFlonums (.ofInt a.toInt) y)
  bignumFlonum a y := canonical_mulFlonums (.ofInt a.toInt) y
  flonumFixnum x b := canonical_zero_or (canonical_mulFlonums x (.ofInt b.toInt))
  flonumBignum x b := canonical_mulFlonums x (.ofInt b.toInt)

/-! ## Modulo -/

theorem canonical_remainder {v w : Int} {e : NumericError} (h : remainder v w = .error e) :
    e.Canonical := by
  rw [remainder] at h
  split at h <;> cases h
  simp [NumericError.numbers]

/-- A flonum that is no integer is reported as it is. -/
theorem canonical_integralValue {x : Flonum} {e : NumericError} (h : integralValue x = .error e) :
    e.Canonical := by
  rw [integralValue] at h
  split at h
  · split at h <;> cases h
    simp [NumericError.numbers]
  · cases h
    simp [NumericError.numbers]

theorem canonical_moduloIntegers (v w : Int) :
    Outcome.Canonical ((remainder v w).map Number.ofInt) := by
  cases hr : remainder v w with
  | error e => exact canonical_remainder hr
  | ok r => simp [Except.map]

theorem canonical_moduloFlonums (x y : Flonum) : Outcome.Canonical (moduloFlonums x y) := by
  rw [moduloFlonums]
  repeat' split
  all_goals simp [NumericError.numbers]

/-- Modulo's cells next to a flonum: of the double of a word, or of the
integer that the flonum is. -/
theorem modulo_keepsCanonical : modulo.KeepsCanonical where
  precheck := canonical_rejectZeroDivisor
  fixnums a b := by
    simp only [modulo]
    split <;> simp [NumericError.numbers]
  integers := canonical_moduloIntegers
  flonums := canonical_moduloFlonums
  fixnumBignum a b := canonical_moduloIntegers a.toInt b.toInt
  bignumFixnum a b := canonical_moduloIntegers a.toInt b.toInt
  fixnumFlonum a y := by
    simp only [modulo]
    exact canonical_moduloFlonums _ y
  bignumFlonum a y := by
    simp only [modulo]
    refine Outcome.canonical_bind canonical_integralValue fun divisor => ?_
    exact Outcome.canonical_bind canonical_remainder fun r => by simp [pure, Except.pure]
  flonumFixnum x b := by
    simp only [modulo]
    exact canonical_moduloFlonums x _
  flonumBignum x b := by
    simp only [modulo]
    refine Outcome.canonical_bind canonical_integralValue fun dividend => ?_
    exact Outcome.canonical_bind canonical_remainder fun r => by simp [pure, Except.pure]

/-! ## Powers and shifts -/

theorem canonical_reciprocalPower (v w : Int) : Outcome.Canonical (reciprocalPower v w) := by
  simp only [reciprocalPower]
  repeat' split
  all_goals simp [NumericError.numbers, Number.zero]

theorem canonical_checkIntegerBits {limits : Limits} {operation : String} {bits : UInt64}
    {e : NumericError} (h : limits.checkIntegerBits operation bits = .error e) :
    e.Canonical := by
  rw [Limits.checkIntegerBits] at h
  split at h <;> cases h
  simp [NumericError.numbers]

theorem canonical_largePower (limits : Limits) (base : Int) (exponent : Nat) :
    Outcome.Canonical (largePower limits base exponent) := by
  simp only [largePower]
  split
  · simp [NumericError.numbers]
  split
  · simp [NumericError.numbers]
  split
  · rename_i e he
    exact canonical_checkIntegerBits he
  · split <;> simp [NumericError.numbers]

theorem canonical_powerIntegers (limits : Limits) (v w : Int) :
    Outcome.Canonical (powerIntegers limits v w) := by
  rw [powerIntegers]
  split
  · exact canonical_reciprocalPower v w
  -- the exponents and bases whose power is known
  split
  · simp
  split
  · simp [Number.zero]
  split
  · simp
  · exact canonical_largePower limits v w.natAbs

theorem canonical_shiftInteger (op : BinaryOp) (limits : Limits) (v amount : Int) :
    Outcome.Canonical (shiftInteger op limits v amount) := by
  rw [shiftInteger]
  split
  · simp [Number.zero]
  split
  · split <;> simp
  -- only a left shift has a limit to fail
  split
  · rename_i e he
    exact canonical_checkIntegerBits he
  · simp

theorem canonical_shiftLeftIntegers (limits : Limits) (v amount : Int) :
    Outcome.Canonical (shiftLeftIntegers limits v amount) := by
  rw [shiftLeftIntegers]
  split
  · exact canonical_shiftInteger .shiftLeft limits v amount
  · simp [NumericError.numbers]

theorem canonical_shiftRightIntegers (limits : Limits) (v amount : Int) :
    Outcome.Canonical (shiftRightIntegers limits v amount) := by
  rw [shiftRightIntegers]
  split
  · exact canonical_shiftInteger .shiftRight limits v (-amount)
  · simp [NumericError.numbers]

/-! ## The table -/

/-- **Every row keeps numbers canonical**, under any limits. -/
theorem row_keepsCanonical (op : BinaryOp) (limits : Limits) :
    (op.row limits).KeepsCanonical := by
  cases op with
  | add =>
    exact keepsCanonical_of_equalKinds canonical_unchecked
      (fun a b => canonical_promote canonical_addIntegers (a.add? b) a b)
      canonical_addIntegers (fun x y => by simp)
  | sub =>
    exact keepsCanonical_of_equalKinds canonical_unchecked
      (fun a b => canonical_promote canonical_subIntegers (a.sub? b) a b)
      canonical_subIntegers (fun x y => by simp)
  | mul => exact product_keepsCanonical
  | div =>
    exact keepsCanonical_of_equalKinds canonical_rejectZeroDivisor (canonical_divideFixnums .div)
      (canonical_divideIntegers .div) (fun x y => by simp)
  | quotient =>
    exact keepsCanonical_exactOnly canonical_rejectZeroDivisor (canonical_divideFixnums .quotient)
      (canonical_divideIntegers .quotient)
  | modulo => exact modulo_keepsCanonical
  | expt =>
    refine keepsCanonical_of_equalKinds canonical_unchecked ?_ ?_ ?_
    · intro a b
      split
      · exact canonical_promote (canonical_powerIntegers limits) _ a b
      · exact canonical_powerIntegers limits a.toInt b.toInt
    · exact canonical_powerIntegers limits
    · exact fun x y => by simp
  | shiftLeft =>
    refine keepsCanonical_exactOnly canonical_unchecked ?_
      (canonical_shiftLeftIntegers limits)
    intro a b
    split
    · simp
    · exact canonical_promote (canonical_shiftLeftIntegers limits) _ a b
  | shiftRight =>
    refine keepsCanonical_exactOnly canonical_unchecked ?_
      (canonical_shiftRightIntegers limits)
    intro a b
    split
    · exact canonical_shiftRightIntegers limits a.toInt b.toInt
    · simp
  | bitAnd | bitOr | bitXor =>
    exact keepsCanonical_exactOnly canonical_unchecked (fun _ _ => by simp)
      (fun _ _ => by simp)
  | max | min =>
    exact keepsCanonical_of_equalKinds canonical_unchecked (fun _ _ => by simp)
      (fun _ _ => by simp) (fun _ _ => by simp)

end BinaryRow

/-- **A step of two operands.** What an operator makes of canonical numbers,
and what it reports of them, is canonical. -/
theorem canonical_apply (op : BinaryOp) (limits : Limits) {a b : Number} (ha : a.Canonical)
    (hb : b.Canonical) : Outcome.Canonical (op.apply limits a b) :=
  (BinaryRow.row_keepsCanonical op limits).run ha hb

end NumericTower
