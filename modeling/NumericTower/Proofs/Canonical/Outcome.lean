import NumericTower.Number.Literal
import NumericTower.Number.Tagged
import NumericTower.Operator.Rounding
/-!
# Canonical outcomes

A number can leave an operation in two ways: as its result, or inside the
error that it reports. `Outcome.Canonical` speaks of both. Everything that
makes a number of something else — a literal, a decoded value, a flonum —
has canonical outcomes.
-/

namespace NumericTower

/-- The numbers that an error carries. -/
def NumericError.numbers : NumericError → List Number
  | .zeroDivisor _ dividend divisor => [dividend, divisor]
  | .typeMismatch _ _ actual => [actual]
  | .shiftTooLarge _ amount => [amount]
  | .limitExceeded .. => []
  | .notFinite _ value => [value]
  | .parse .. => []
  | .defect .. => []

/-- No number that an error carries is a bignum that a word would hold. -/
def NumericError.Canonical (e : NumericError) : Prop := ∀ n ∈ e.numbers, n.Canonical

@[simp]
theorem NumericError.canonical_iff {e : NumericError} :
    e.Canonical ↔ ∀ n ∈ e.numbers, n.Canonical := Iff.rfl

namespace Outcome

/-- The numbers that an outcome hands out: its result, or those of its
error. -/
def numbers : Outcome → List Number
  | .ok n => [n]
  | .error e => e.numbers

/-- And of no outcome. -/
def Canonical (r : Outcome) : Prop := ∀ n ∈ numbers r, n.Canonical

@[simp]
theorem canonical_ok {n : Number} : Canonical (.ok n) ↔ n.Canonical := by
  simp [Canonical, numbers]

@[simp]
theorem canonical_error {e : NumericError} :
    Canonical (.error e) ↔ e.Canonical := Iff.rfl

/-- A step that fails hands out what its error carries, and else the rest
decides. -/
theorem canonical_bind {α : Type} {x : Except NumericError α} {f : α → Outcome}
    (hx : ∀ {e}, x = .error e → e.Canonical)
    (hf : ∀ v, Outcome.Canonical (f v)) : Outcome.Canonical (x >>= f) := by
  cases x with
  | error e => exact hx rfl
  | ok v => exact hf v

end Outcome

/-- Rounding reports what it cannot make exact as the flonum it is. -/
theorem canonical_exactOf (operation : String) (x : Flonum) :
    Outcome.Canonical (Number.exactOf operation x) := by
  rw [Number.exactOf]
  repeat' split
  all_goals simp [NumericError.numbers]

/-! ## Reading -/

/-- An exact numeral is a word, or goes through `ofInt`. -/
theorem canonical_integer? {chars : List Char} {n : Number} (h : Literal.integer? chars = some n) :
    n.Canonical := by
  obtain ⟨v, -, rfl⟩ := Option.map_eq_some_iff.1 h
  split <;> simp

theorem canonical_literal (chars : List Char) {n : Number} (h : Literal.ofChars? chars = .ok n) :
    n.Canonical := by
  simp only [Literal.ofChars?] at h
  split at h
  · split at h <;> cases h
  split at h
  · -- digits alone
    split at h
    · rename_i hinteger
      cases h
      exact canonical_integer? hinteger
    · cases h
  split at h
  · cases h
  -- a decimal is a flonum, if it can be read at all
  split at h <;> cases h
  simp

/-- A rejected text carries no number at all. -/
theorem canonical_ofText? (text : String) : Outcome.Canonical (Number.ofText? text) := by
  rw [Number.ofText?]
  split
  · simp
  · split
    · rename_i h
      simpa using canonical_literal _ h
    · simp [NumericError.numbers]

theorem Bignum.canonical_of_ofInt? {v : Int} {a : Bignum} (h : Bignum.ofInt? v = .ok a) :
    (Number.bignum a).Canonical := by
  rw [Bignum.ofInt?] at h
  split at h
  · cases h
  · rename_i hv
    cases h
    exact hv

/-- A decoder that took digits as they stand would let small bignums in. -/
theorem Bignum.canonical_of_ofJson? {json : Json} {a : Bignum} (h : Bignum.ofJson? json = some a) :
    (Number.bignum a).Canonical := by
  unfold Bignum.ofJson? at h
  split at h
  · split at h
    · rename_i sign digits hs hd
      cases hv : Bignum.ofInt? (Bignum.withSign sign (Bignum.ofDigits digits)) with
      | error _ => simp [hv, Except.toOption] at h
      | ok b =>
        rw [hv] at h
        cases h
        exact Bignum.canonical_of_ofInt? hv
    · cases h
  · cases h

theorem canonical_of_ofTagged? {kind value : Json} {n : Number}
    (h : Number.ofTagged? kind value = some n) : n.Canonical := by
  rw [Number.ofTagged?] at h
  split at h
  · obtain ⟨a, -, rfl⟩ := Option.map_eq_some_iff.1 h
    trivial
  · obtain ⟨a, ha, rfl⟩ := Option.map_eq_some_iff.1 h
    exact Bignum.canonical_of_ofJson? ha
  · obtain ⟨a, -, rfl⟩ := Option.map_eq_some_iff.1 h
    trivial
  · cases h

theorem canonical_of_ofJson? {json : Json} {n : Number} (h : Number.ofJson? json = some n) :
    n.Canonical := by
  unfold Number.ofJson? at h
  split at h
  · split at h
    · exact canonical_of_ofTagged? h
    · cases h
  · exact canonical_of_ofTagged? h
  · cases h

end NumericTower
