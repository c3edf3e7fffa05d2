import NumericTower.Proofs.Operator.Exact
import NumericTower.Proofs.Operator.Inexact
/-!
# The error boundary, and exactness

Exact operands and operands next to a flonum were treated apart. Together
they are every pair of canonical numbers, and two things can be said of the
whole table: an operator fails by the six rules and by nothing else
(`apply_eq_error_iff`), and what it gives otherwise is a flonum next to a
flonum and exact if not, with one exception (`apply_kind_iff`).
-/

namespace NumericTower

open Number

/-- A number is the number of an integer, unless it is a flonum. -/
theorem Number.eq_ofInt_or_flonum {n : Number} (hn : n.Canonical) :
    (∃ v, n = ofInt v) ∨ ∃ x, n = .flonum x := by
  cases n with
  | fixnum a => exact .inl ⟨a.toInt, (ofInt_toInt a).symm⟩
  | bignum a => exact .inl ⟨a.toInt, eq_ofInt_of_toInt? hn rfl⟩
  | flonum x => exact .inr ⟨x, rfl⟩

theorem Number.exists_eq_ofInt {n : Number} (hn : n.Canonical) (h : n.isExact = true) :
    ∃ v, n = ofInt v := by
  refine (eq_ofInt_or_flonum hn).resolve_right ?_
  rintro ⟨x, rfl⟩
  cases h

theorem Number.kind_ofInt_ne_flonum (v : Int) : (ofInt v).kind ≠ .flonum := by
  intro h
  by_cases hv : Fixnum.InRange v
  · rw [ofInt_of_inRange hv] at h
    cases h
  · rw [ofInt_of_not_inRange hv] at h
    cases h

namespace BinaryOp

variable {op : BinaryOp} {limits : Limits} {a b : Number} {e : NumericError}

/-- **The table as a whole.** An operator fails by the rules, and its result
is what the kinds of the operands ask for. -/
theorem exists_apply_eq (op : BinaryOp) (limits : Limits) (ha : a.Canonical) (hb : b.Canonical) :
    ∃ n, op.apply limits a b = Outcome.ofFault (op.fault? limits a b) n ∧
      (op.IsZeroProduct a b → n = .zero) ∧
      (¬ op.IsZeroProduct a b → (n.kind = .flonum ↔ AnyFlonum a b)) := by
  by_cases hflonum : AnyFlonum a b
  · obtain ⟨n, hn, hzero, hkind⟩ := op.apply_of_anyFlonum limits hb hflonum
    exact ⟨n, hn, hzero, fun hproduct => ⟨fun _ => hflonum, fun _ => hkind hproduct⟩⟩
  · obtain ⟨v, rfl⟩ := (eq_ofInt_or_flonum ha).resolve_right
      (by rintro ⟨x, rfl⟩; exact hflonum (.left x b))
    obtain ⟨w, rfl⟩ := (eq_ofInt_or_flonum hb).resolve_right
      (by rintro ⟨y, rfl⟩; exact hflonum (.right _ y))
    refine ⟨ofInt (op.value v w), op.apply_ofInt limits v w, ?_, fun _ => ?_⟩
    · rintro ⟨rfl, hzero⟩
      rw [ofInt_eq_zero_iff, ofInt_eq_zero_iff, ← Int.mul_eq_zero] at hzero
      rwa [ofInt_eq_zero_iff, value]
    · exact ⟨fun h => absurd h (kind_ofInt_ne_flonum _), fun h => absurd h hflonum⟩

/-! ## Errors -/

/-- Each rule names the operator, and only the last one a limit. -/
theorem operation?_of_fault? (h : op.fault? limits a b = some e) :
    e.operation? = some op.name ∧
      ∀ operation bits most, e = .limitExceeded operation bits most →
        op.isLimited = true ∧ a.isExact = true ∧ b.isExact = true := by
  rcases eq_of_fault? h with ⟨m, n, rfl⟩ | ⟨expected, n, rfl⟩ | ⟨n, rfl⟩ |
    ⟨hlimited, ha, hb, bits, rfl⟩
  · exact ⟨rfl, by rintro _ _ _ ⟨⟩⟩
  · exact ⟨rfl, by rintro _ _ _ ⟨⟩⟩
  · exact ⟨rfl, by rintro _ _ _ ⟨⟩⟩
  · exact ⟨rfl, fun _ _ _ _ => ⟨hlimited, ha, hb⟩⟩

/-- **The error boundary of the operator table.** On canonical numbers and
under every limit, an operator fails with an error exactly if that is what
the first of the six rules that applies says. The error names the operator,
and a limit is only ever named for a power or a shift of exact operands. -/
theorem apply_eq_error_iff (op : BinaryOp) (limits : Limits) (ha : a.Canonical) (hb : b.Canonical)
    (e : NumericError) :
    (op.apply limits a b = .error e ↔ op.fault? limits a b = some e) ∧
      (op.apply limits a b = .error e →
        e.operation? = some op.name ∧
          ∀ operation bits most, e = .limitExceeded operation bits most →
            op.isLimited = true ∧ a.isExact = true ∧ b.isExact = true) := by
  obtain ⟨n, hn, -⟩ := op.exists_apply_eq limits ha hb
  rw [hn, Outcome.ofFault_eq_error_iff]
  exact ⟨Iff.rfl, operation?_of_fault?⟩

/-- Of the quotient of a NaN and `-0.0` two rules speak, and the first one
is heard. -/
theorem apply_eq_error_iff_nan_negative_zero :
    let a : Number := .flonum .nan
    let b : Number := .flonum (.zero true)
    let e := NumericError.zeroDivisor "quotient" a b
    a.Canonical ∧ b.Canonical ∧ BinaryOp.quotient.fault? .strict a b = some e ∧
      BinaryOp.quotient.apply .strict a b = .error e ∧ e.operation? = some "quotient" := by
  have hfault : BinaryOp.quotient.fault? .strict (.flonum .nan) (.flonum (.zero true)) =
      some (.zeroDivisor "quotient" (.flonum .nan) (.flonum (.zero true))) := by decide
  have h := apply_eq_error_iff .quotient .strict (canonical_flonum .nan)
    (canonical_flonum (.zero true)) (.zeroDivisor "quotient" (.flonum .nan) (.flonum (.zero true)))
  have herror := h.1.2 hfault
  exact ⟨trivial, trivial, hfault, herror, (h.2 herror).1⟩

/-! ## Results -/

/-- Multiplication has no fault. -/
theorem fault?_mul : BinaryOp.mul.fault? limits a b = none := by
  have hlimit : BinaryOp.mul.limitReached? limits a b = none := by
    rw [limitReached?]
    cases a.toInt? <;> cases b.toInt? <;> rfl
  rw [fault?, hlimit]
  rfl

/-- **Exactness is contagious.** A product with an exact zero is exact zero,
whatever the other factor. Every other result is a flonum if and only if
an operand is one, so that exact operands never give an inexact result. -/
theorem apply_kind_iff (op : BinaryOp) (limits : Limits) (ha : a.Canonical) (hb : b.Canonical) :
    (op = .mul → a = .zero ∨ b = .zero → op.apply limits a b = .ok .zero) ∧
      ∀ r, op.apply limits a b = .ok r →
        (r.kind = .flonum ↔
          (a.kind = .flonum ∨ b.kind = .flonum) ∧ ¬ (op = .mul ∧ (a = .zero ∨ b = .zero))) := by
  obtain ⟨n, hn, hzero, hkind⟩ := op.exists_apply_eq limits ha hb
  rw [hn]
  constructor
  · rintro rfl hfactor
    rw [fault?_mul, Outcome.ofFault_none, hzero ⟨rfl, hfactor⟩]
  · intro r hr
    obtain ⟨-, rfl⟩ := Outcome.ofFault_eq_ok_iff.1 hr
    by_cases hproduct : op.IsZeroProduct a b
    · rw [hzero hproduct]
      exact ⟨nofun, fun h => absurd hproduct h.2⟩
    · rw [hkind hproduct, anyFlonum_iff]
      exact ⟨fun h => ⟨h, hproduct⟩, And.left⟩

/-- Not even a NaN factor makes the product with exact zero inexact. -/
theorem apply_kind_iff_zero_nan :
    let a : Number := .zero
    let b : Number := .flonum .nan
    a.Canonical ∧ b.Canonical ∧ BinaryOp.mul.apply .strict a b = .ok .zero ∧
      (Number.zero.kind = .flonum ↔ (a.kind = .flonum ∨ b.kind = .flonum) ∧
        ¬ (BinaryOp.mul = .mul ∧ (a = .zero ∨ b = .zero))) := by
  have h := apply_kind_iff .mul .strict (canonical_fixnum .zero) (canonical_flonum .nan)
  have hproduct := h.1 rfl (.inl rfl)
  exact ⟨trivial, trivial, hproduct, h.2 .zero hproduct⟩

end BinaryOp

end NumericTower
