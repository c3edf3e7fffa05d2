import NumericTower.Proofs.Flonum.Exact
import NumericTower.Proofs.Flonum.IntegerPart
import NumericTower.Proofs.Number.Order
import NumericTower.Proofs.Operator.Boundary
/-!
# Floor, ceiling, truncation and what they leave

Rounding to an integer in a given direction gives the canonical number of an
integer that is said of the value alone, whatever number holds it
(`roundingBy_apply`). So the floor, the ceiling and the integer part lie in the
exact order where they should, for flonums of any size, and the fractional part
is the rest without a rounding (`floor_family_exact`).
-/

namespace NumericTower

open Number Extended

/-! ## Rounding in one direction -/

section

variable {op : UnaryOp} {round : Flonum → Flonum} {x : Number} {q : ℚ}

/-- **A rounding is a function of the value**: if its function of flonums finds
the integer of every value, and that of an integer is the integer itself, it
gives the canonical number of the integer. -/
theorem roundingBy_apply {f : ℚ → Int} (hrow : op.row = UnaryRow.roundingBy op round)
    (hinteger : ∀ v : Int, f v = v)
    (hflonum : ∀ {y : Flonum} {p : ℚ}, y.toRat? = some p → (round y).toInt? = some (f p))
    (hx : x.Canonical) (hq : x.value? = some (ofRat q)) : op.apply x = .ok (ofInt (f q)) := by
  rw [UnaryOp.apply, hrow]
  rcases eq_ofInt_or_flonum hx with ⟨v, rfl⟩ | ⟨y, rfl⟩
  · rw [value?_ofInt_eq_iff] at hq
    rw [← hq, hinteger]
    by_cases h : Fixnum.InRange v
    · rw [ofInt_of_inRange h]
      rfl
    · rw [ofInt_of_not_inRange h]
      rfl
  · exact exactOf_eq_ofInt (hflonum (Flonum.value?_eq_ofRat_iff.1 hq)) op.name

/-- What is not finite is passed on by the function of flonums, and named in the
error. -/
theorem roundingBy_apply_of_not_isFinite {y : Flonum}
    (hrow : op.row = UnaryRow.roundingBy op round) (hround : round y = y)
    (hy : y.isFinite = false) :
    op.apply (.flonum y) = .error (.notFinite op.name (.flonum y)) := by
  rw [UnaryOp.apply, hrow]
  change exactOf op.name (round y) = _
  rw [hround, exactOf, hy]
  rfl

end

section

variable {x : Number} {q : ℚ}

theorem floor_apply (hx : x.Canonical) (hq : x.value? = some (ofRat q)) :
    UnaryOp.floor.apply x = .ok (ofInt ⌊q⌋) :=
  roundingBy_apply rfl Int.floor_intCast Flonum.toInt?_floor hx hq

theorem ceiling_apply (hx : x.Canonical) (hq : x.value? = some (ofRat q)) :
    UnaryOp.ceiling.apply x = .ok (ofInt ⌈q⌉) :=
  roundingBy_apply rfl Int.ceil_intCast Flonum.toInt?_ceil hx hq

theorem truncate_apply (hx : x.Canonical) (hq : x.value? = some (ofRat q)) :
    UnaryOp.truncate.apply x = .ok (ofInt (integerPart q)) :=
  roundingBy_apply rfl integerPart_intCast Flonum.toInt?_trunc hx hq

/-! ## The rest -/

theorem fractionalPart_apply_ofInt (v : Int) :
    UnaryOp.fractionalPart.apply (ofInt v) = .ok .zero ∧ (ofInt v).isInteger = true := by
  by_cases h : Fixnum.InRange v
  · rw [ofInt_of_inRange h]
    exact ⟨rfl, rfl⟩
  · rw [ofInt_of_not_inRange h]
    exact ⟨rfl, rfl⟩

theorem fractionalPart_apply_flonum {y : Flonum} (hy : y.toRat? = some q) :
    UnaryOp.fractionalPart.apply (.flonum y) = .ok (.flonum y.fract) := by
  obtain ⟨negative, m, rfl, -⟩ := Flonum.exists_finite_of_toRat? hy
  rfl

/-- **The fractional part is what truncation takes away**, and zero of an
integer only. -/
theorem exists_fractionalPart_apply (hx : x.Canonical) (hq : x.value? = some (ofRat q)) :
    ∃ r, UnaryOp.fractionalPart.apply x = .ok r ∧
      r.value? = some (ofRat (q - integerPart q)) ∧ (r.isZero = true ↔ x.isInteger = true) := by
  rcases eq_ofInt_or_flonum hx with ⟨v, rfl⟩ | ⟨y, rfl⟩
  · obtain ⟨happly, hinteger⟩ := fractionalPart_apply_ofInt v
    rw [value?_ofInt_eq_iff] at hq
    refine ⟨.zero, happly, ?_, iff_of_true rfl hinteger⟩
    rw [← hq, integerPart_intCast, sub_self, zero_eq_ofInt, value?_ofInt, Int.cast_zero]
  · have hy : y.toRat? = some q := Flonum.value?_eq_ofRat_iff.1 hq
    have hfract := Flonum.toRat?_fract hy
    refine ⟨.flonum y.fract, fractionalPart_apply_flonum hy, Flonum.value?_of_toRat? hfract, ?_⟩
    rw [Number.isZero, Flonum.isZero_iff_of_toRat? hfract, sub_eq_zero, eq_comm,
      integerPart_eq_iff, Number.isInteger, Flonum.isIntegral_iff, Flonum.IsWhole, hy]
    simp only [Option.some_inj]

/-! ## Around a number -/

theorem floor_bounds (hx : x.Canonical) (hq : x.value? = some (ofRat q)) :
    (ofInt ⌊q⌋).le x = true ∧ x.lt (ofInt (⌊q⌋ + 1)) = true := by
  constructor
  · exact (ofInt_le_iff hx hq).2 (Int.floor_le q)
  · rw [lt_ofInt_iff hx hq, Int.cast_add, Int.cast_one]
    exact Int.lt_floor_add_one q

theorem ceiling_bounds (hx : x.Canonical) (hq : x.value? = some (ofRat q)) :
    (ofInt (⌈q⌉ - 1)).lt x = true ∧ x.le (ofInt ⌈q⌉) = true := by
  constructor
  · rw [ofInt_lt_iff hx hq, Int.cast_sub, Int.cast_one, sub_lt_iff_lt_add]
    exact Int.ceil_lt_add_one q
  · exact (le_ofInt_iff hx hq).2 (Int.le_ceil q)

/-- Truncation is toward zero: where the number lies says which of the two it
is. -/
theorem integerPart_eq_floor_or_ceil (hx : x.Canonical) (hq : x.value? = some (ofRat q)) :
    (x.ge .zero = true → integerPart q = ⌊q⌋) ∧ (x.lt .zero = true → integerPart q = ⌈q⌉) := by
  constructor
  · intro hge
    rw [zero_eq_ofInt, ge_ofInt_iff hx hq, Int.cast_zero] at hge
    exact if_pos hge
  · intro hlt
    rw [zero_eq_ofInt, lt_ofInt_iff hx hq, Int.cast_zero] at hlt
    exact if_neg (not_le.2 hlt)

/-! ## What is not finite -/

/-- Rounding passes on what is not finite. -/
theorem round_of_not_isFinite {y : Flonum} (hy : y.isFinite = false) :
    y.floor = y ∧ y.ceil = y ∧ y.trunc = y ∧
      UnaryOp.fractionalPart.apply (.flonum y) = .ok (.flonum .nan) := by
  cases y with
  | nan => exact ⟨rfl, rfl, rfl, rfl⟩
  | infinite negative => exact ⟨rfl, rfl, rfl, rfl⟩
  | finite negative m => cases hy

theorem apply_of_not_finite
    (h : x = .flonum .nan ∨ ∃ negative, x = .flonum (.infinite negative)) :
    UnaryOp.floor.apply x = .error (.notFinite UnaryOp.floor.name x) ∧
      UnaryOp.ceiling.apply x = .error (.notFinite UnaryOp.ceiling.name x) ∧
      UnaryOp.truncate.apply x = .error (.notFinite UnaryOp.truncate.name x) ∧
      UnaryOp.fractionalPart.apply x = .ok (.flonum .nan) := by
  obtain ⟨y, rfl, hy⟩ : ∃ y, x = .flonum y ∧ y.isFinite = false := by
    rcases h with rfl | ⟨negative, rfl⟩
    · exact ⟨.nan, rfl, rfl⟩
    · exact ⟨.infinite negative, rfl, rfl⟩
  obtain ⟨hfloor, hceil, htrunc, hfraction⟩ := round_of_not_isFinite hy
  exact ⟨roundingBy_apply_of_not_isFinite rfl hfloor hy,
    roundingBy_apply_of_not_isFinite rfl hceil hy,
    roundingBy_apply_of_not_isFinite rfl htrunc hy, hfraction⟩

/-! ## The family -/

/-- **The floor family in the exact order.** Of every number that is neither a
NaN nor an infinity, the floor, the ceiling and the truncation are canonical
integers around it, the truncation being the one toward zero, and the fractional
part is what truncation takes away, zero for integers only. An exact number is
its own floor, ceiling and truncation. What has no exact value is rejected by
name, but its fractional part is a NaN. -/
theorem floor_family_exact (hx : x.Canonical) :
    (x ≠ .flonum .nan → (∀ negative, x ≠ .flonum (.infinite negative)) →
      ∃ (q : ℚ) (f c t : Int) (r : Number), x.value? = some (ofRat q) ∧
        (UnaryOp.floor.apply x).IsInteger f ∧
        (UnaryOp.ceiling.apply x).IsInteger c ∧
        (UnaryOp.truncate.apply x).IsInteger t ∧
        ((ofInt f).le x = true ∧ x.lt (ofInt (f + 1)) = true) ∧
        ((ofInt (c - 1)).lt x = true ∧ x.le (ofInt c) = true) ∧
        (x.ge .zero = true → t = f) ∧ (x.lt .zero = true → t = c) ∧
        UnaryOp.fractionalPart.apply x = .ok r ∧ r.value? = some (ofRat (q - t)) ∧
        (r.isZero = true ↔ x.isInteger = true)) ∧
    (x.isExact = true → UnaryOp.floor.apply x = .ok x ∧ UnaryOp.ceiling.apply x = .ok x ∧
      UnaryOp.truncate.apply x = .ok x) ∧
    (x = .flonum .nan ∨ (∃ negative, x = .flonum (.infinite negative)) →
      UnaryOp.floor.apply x = .error (.notFinite UnaryOp.floor.name x) ∧
      UnaryOp.ceiling.apply x = .error (.notFinite UnaryOp.ceiling.name x) ∧
      UnaryOp.truncate.apply x = .error (.notFinite UnaryOp.truncate.name x) ∧
      UnaryOp.fractionalPart.apply x = .ok (.flonum .nan)) := by
  refine ⟨?_, ?_, apply_of_not_finite⟩
  · intro hnan hinfinite
    obtain ⟨q, hq⟩ := exists_rat_value hnan hinfinite
    obtain ⟨r, hr, hvalue, hzero⟩ := exists_fractionalPart_apply hx hq
    obtain ⟨hge, hlt⟩ := integerPart_eq_floor_or_ceil hx hq
    refine ⟨q, ⌊q⌋, ⌈q⌉, integerPart q, r, hq, ?_, ?_, ?_, floor_bounds hx hq,
      ceiling_bounds hx hq, hge, hlt, hr, hvalue, hzero⟩
    · exact floor_apply hx hq ▸ Outcome.isInteger_ofInt _
    · exact ceiling_apply hx hq ▸ Outcome.isInteger_ofInt _
    · exact truncate_apply hx hq ▸ Outcome.isInteger_ofInt _
  · intro hexact
    obtain ⟨v, rfl⟩ := exists_eq_ofInt hx hexact
    have hv := value?_ofInt v
    rw [floor_apply hx hv, ceiling_apply hx hv, truncate_apply hx hv, Int.floor_intCast,
      Int.ceil_intCast, integerPart_intCast]
    exact ⟨rfl, rfl, rfl⟩

end

/-- The last double with a fraction, below zero, beside exact zero and an
infinity. -/
theorem floor_family_exact_last_fraction :
    let x : Number := .flonum (.finite true ⟨4841369599423283199, by decide⟩)
    let y : Number := .flonum (.infinite true)
    x.Canonical ∧ x ≠ .flonum .nan ∧ (∀ negative, x ≠ .flonum (.infinite negative)) ∧
      UnaryOp.floor.apply x = .ok (ofInt (-4503599627370496)) ∧
      UnaryOp.ceiling.apply x = .ok (ofInt (-4503599627370495)) ∧
      (∃ (q : ℚ) (t : Int) (r : Number), x.value? = some (ofRat q) ∧
        (UnaryOp.truncate.apply x).IsInteger t ∧ UnaryOp.fractionalPart.apply x = .ok r ∧
        r.value? = some (ofRat (q - t)) ∧ (r.isZero = true ↔ x.isInteger = true)) ∧
      Number.zero.isExact = true ∧ UnaryOp.floor.apply .zero = .ok .zero ∧
      UnaryOp.ceiling.apply y = .error (.notFinite "ceiling" y) := by
  intro x y
  have hx : x.Canonical := canonical_flonum _
  have hnan : x ≠ .flonum .nan := by decide
  have hinfinite : ∀ negative, x ≠ .flonum (.infinite negative) := by decide
  obtain ⟨q, f, c, t, r, hq, -, -, ht, -, -, -, -, hr, hvalue, hzero⟩ :=
    (floor_family_exact hx).1 hnan hinfinite
  obtain ⟨-, hexact, -⟩ := floor_family_exact (canonical_fixnum .zero)
  obtain ⟨-, -, hend⟩ := floor_family_exact (canonical_flonum (.infinite true))
  exact ⟨hx, hnan, hinfinite, by decide +kernel, by decide +kernel,
    ⟨q, t, r, hq, ht, hr, hvalue, hzero⟩, rfl, (hexact rfl).1, (hend (.inr ⟨true, rfl⟩)).2.1⟩

end NumericTower
