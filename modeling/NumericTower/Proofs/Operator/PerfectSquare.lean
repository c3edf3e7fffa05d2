import NumericTower.Proofs.Flonum.Rounding
import NumericTower.Proofs.Number.Order
import NumericTower.Proofs.Operator.Boundary
/-!
# Roots of perfect squares

Words and bignums find their roots in different ways: a word squares its root
by a machine multiplication that could overflow, a bignum looks first whether a
double is large enough for it. Of integers that are not below zero both give
the same number (`sqrt_apply_of_toInt?`), so that a root is exact for perfect
squares and for nothing else (`sqrt_perfect_square`).
-/

namespace NumericTower

open UnaryRow Number Extended

/-! ## Integers that are not below zero -/

/-- The double that stands for a root: the root of the nearest double, or the
double nearest to the integer root if that is past the range. -/
def inexactRoot (v : Nat) : Flonum :=
  if (Flonum.ofInt v).isFinite then (Flonum.ofInt v).sqrt else .ofInt v.sqrt

/-- The root of an integer that is not below zero. -/
def rootOf (v : Nat) : Number :=
  if v.sqrt * v.sqrt = v then ofInt v.sqrt else .flonum (inexactRoot v)

/-- The square of a word's integer root is a word: the multiplication does not
overflow. -/
theorem mul?_sqrt {v : Nat} (h : Fixnum.InRange v) :
    (Fixnum.ofInt v.sqrt).mul? (Fixnum.ofInt v.sqrt) =
      .ok (Fixnum.ofInt (v.sqrt * v.sqrt : Nat)) := by
  have hroot : v.sqrt ≤ v := Nat.sqrt_le_self v
  have hsquare : v.sqrt * v.sqrt ≤ v := Nat.sqrt_le v
  have hrange {w : Nat} (hw : w ≤ v) : Fixnum.InRange w := by omega
  rw [Fixnum.mul?_eq, Fixnum.toInt_ofInt (hrange hroot), ← Int.natCast_mul]
  exact if_pos (hrange hsquare)

theorem sqrtFixnum_eq {a : Fixnum} {v : Nat} (h : a.toInt = v) :
    sqrtFixnum a = .ok (rootOf v) := by
  have hrange : Fixnum.InRange v := h ▸ a.inRange_toInt
  have hroot : Fixnum.InRange v.sqrt := by
    have := Nat.sqrt_le_self v
    omega
  have hsquare : Fixnum.ofInt (v.sqrt * v.sqrt : Nat) = a ↔ v.sqrt * v.sqrt = v := by
    have := Nat.sqrt_le v
    rw [← Fixnum.toInt_inj, h, Fixnum.toInt_ofInt (by omega), Int.natCast_inj]
  obtain ⟨m, hm⟩ := Flonum.exists_ofInt_word a
  have hfinite : (Flonum.ofInt v).isFinite = true := by
    rw [← h, hm]
    rfl
  rw [sqrtFixnum, Fixnum.isNegative_eq, h, if_neg (by simp)]
  simp only [Int.natAbs_natCast, mul?_sqrt hrange, hsquare]
  rw [rootOf, inexactRoot, if_pos hfinite, ofInt_of_inRange hroot]
  split <;> rfl

theorem sqrtBignum_eq {a : Bignum} {v : Nat} (h : a.toInt = v) :
    sqrtBignum a = .ok (rootOf v) := by
  have hsign : a.isNegative = false := decide_eq_false (h ▸ (Int.natCast_nonneg v).not_gt)
  rw [sqrtBignum, hsign, if_neg Bool.false_ne_true, rootOf, inexactRoot, h]
  simp only [Int.natAbs_natCast]
  split
  · rfl
  · split <;> rfl

/-- **The root does not depend on the representation.** -/
theorem sqrt_apply_of_toInt? {n : Number} {v : Nat} (h : n.toInt? = some (v : Int)) :
    UnaryOp.sqrt.apply n = .ok (rootOf v) := by
  cases n with
  | fixnum a => exact sqrtFixnum_eq (Option.some.inj h)
  | bignum a => exact sqrtBignum_eq (Option.some.inj h)
  | flonum x => cases h

theorem sqrt_apply_natCast (v : Nat) : UnaryOp.sqrt.apply (ofInt v) = .ok (rootOf v) :=
  sqrt_apply_of_toInt? (toInt?_ofInt v)

theorem rootOf_mul_self (root : Nat) : rootOf (root * root) = ofInt root := by
  rw [rootOf, Nat.sqrt_eq, if_pos rfl]

/-- Integer roots are found wherever there are any. -/
theorem rootOf_of_not_isSquare {v : Nat} (h : ¬ IsSquare v) :
    rootOf v = .flonum (inexactRoot v) :=
  if_neg fun hroot => h ⟨v.sqrt, hroot.symm⟩

/-! ## Numbers below zero -/

namespace Number

theorem isNegative_ofInt (v : Int) : (ofInt v).isNegative = decide (v < 0) := by
  by_cases h : Fixnum.InRange v
  · rw [ofInt_of_inRange h, isNegative, Fixnum.isNegative_eq, Fixnum.toInt_ofInt h]
  · rw [ofInt_of_not_inRange h]
    rfl

/-- A number is below zero if its value is, so that neither `-0.0` nor a NaN
is. -/
theorem lt_zero_iff {n : Number} (hn : n.Canonical) :
    n.lt .zero = true ↔ n.isNegative = true := by
  have hvalue {q : ℚ} (hq : n.value? = some (ofRat q)) : n.lt .zero = true ↔ q < 0 := by
    rw [zero_eq_ofInt, lt_ofInt_iff hn hq, Int.cast_zero]
  rcases eq_ofInt_or_flonum hn with ⟨v, rfl⟩ | ⟨x, rfl⟩
  · rw [hvalue (value?_ofInt v), isNegative_ofInt, decide_eq_true_iff, Int.cast_lt_zero]
  · cases x with
    | nan => exact iff_of_false (by decide) Bool.false_ne_true
    | infinite negative =>
      cases negative with
      | false => exact iff_of_false (by decide) Bool.false_ne_true
      | true => exact iff_of_true (by decide) rfl
    | finite negative m =>
      have hq := Flonum.toRat?_finite negative m
      rw [hvalue (Flonum.value?_of_toRat? hq), isNegative, Flonum.isNegative_iff_of_toRat? hq]

end Number

theorem sqrt_apply_of_isNegative {n : Number} (h : n.isNegative = true) :
    UnaryOp.sqrt.apply n = rejectNegative n := by
  cases n <;> exact if_pos h

theorem exists_sqrt_apply {n : Number} (hn : n.Canonical) (h : n.isNegative = false) :
    ∃ r, UnaryOp.sqrt.apply n = .ok r := by
  rcases eq_ofInt_or_flonum hn with ⟨v, rfl⟩ | ⟨x, rfl⟩
  · rw [isNegative_ofInt, decide_eq_false_iff_not, not_lt] at h
    obtain ⟨k, rfl⟩ := Int.eq_ofNat_of_zero_le h
    exact ⟨rootOf k, sqrt_apply_natCast k⟩
  · exact ⟨.flonum x.sqrt, if_neg (Bool.eq_false_iff.1 h)⟩

/-- **Only numbers below zero have no root**, and are reported as they are. -/
theorem sqrt_apply_eq_error_iff {n : Number} (hn : n.Canonical) {e : NumericError} :
    UnaryOp.sqrt.apply n = .error e ↔
      n.lt .zero = true ∧ e = .typeMismatch "sqrt" "nonnegative real" n := by
  rw [lt_zero_iff hn]
  cases h : n.isNegative with
  | false =>
    obtain ⟨r, hr⟩ := exists_sqrt_apply hn h
    rw [hr]
    exact iff_of_false nofun fun he => Bool.false_ne_true he.1
  | true =>
    rw [sqrt_apply_of_isNegative h, rejectNegative, Except.error.injEq, eq_comm]
    exact (and_iff_right rfl).symm

/-! ## Exact roots -/

/-- **Roots are exact for perfect squares, and for nothing else.** An integer
that is not below zero has a root: the canonical number of the integer root if
it is a perfect square, and a flonum if not. Only numbers below zero have none,
exact or not, and are reported as they are. So the root of the square of an
exact number is its absolute value. -/
theorem sqrt_perfect_square (limits : Limits) {n : Number} (hn : n.Canonical) :
    (∀ v, n.toInt? = some v → 0 ≤ v → ∃ r, UnaryOp.sqrt.apply n = .ok r ∧
      (r.isExact = true ↔ IsSquare v) ∧
      (IsSquare v → ∃ k, 0 ≤ k ∧ k * k = v ∧ r.Canonical ∧ r.toInt? = some k) ∧
      (¬ IsSquare v → r.kind = .flonum)) ∧
    (∀ e, UnaryOp.sqrt.apply n = .error e ↔
      n.lt .zero = true ∧ e = .typeMismatch "sqrt" "nonnegative real" n) ∧
    (n.isExact = true → ∃ s r, BinaryOp.mul.apply limits n n = .ok s ∧
      UnaryOp.sqrt.apply s = .ok r ∧ UnaryOp.abs.apply n = .ok r) := by
  refine ⟨?_, ?_, ?_⟩
  · intro v hv hnonneg
    obtain rfl := eq_ofInt_of_toInt? hn hv
    obtain ⟨k, rfl⟩ := Int.eq_ofNat_of_zero_le hnonneg
    refine ⟨rootOf k, sqrt_apply_natCast k, ?_⟩
    by_cases hsquare : IsSquare k
    · obtain ⟨root, rfl⟩ := hsquare
      have hcast : IsSquare ((root * root : Nat) : Int) :=
        Int.isSquare_natCast_iff.2 ⟨root, rfl⟩
      rw [rootOf_mul_self]
      refine ⟨iff_of_true ?_ hcast, fun _ => ?_, absurd hcast⟩
      · exact isExact_of_toInt? (toInt?_ofInt root)
      · exact ⟨root, Int.natCast_nonneg root, (Int.natCast_mul root root).symm,
          canonical_ofInt root, toInt?_ofInt root⟩
    · have hcast : ¬ IsSquare (k : Int) := Int.isSquare_natCast_iff.not.2 hsquare
      rw [rootOf_of_not_isSquare hsquare]
      exact ⟨iff_of_false Bool.false_ne_true hcast, fun h => absurd h hcast, fun _ => rfl⟩
  · exact fun e => sqrt_apply_eq_error_iff hn
  · intro hexact
    obtain ⟨v, rfl⟩ := exists_eq_ofInt hn hexact
    refine ⟨ofInt (v * v), ofInt |v|, ?_, ?_, abs_apply_ofInt v⟩
    · exact BinaryOp.apply_ofInt_of_not_hasDivisor rfl rfl limits v v
    · rw [← Int.natAbs_mul_self, sqrt_apply_natCast, rootOf_mul_self, Int.natCast_natAbs]

/-- The root of two to the sixty-fourth is a word again; minus infinity is below
zero, and has none. -/
theorem sqrt_perfect_square_narrowed :
    let n : Number := .bignum ⟨18446744073709551616⟩
    let x : Number := .flonum (.infinite true)
    n.Canonical ∧ n.toInt? = some 18446744073709551616 ∧ IsSquare (18446744073709551616 : Int) ∧
      (∃ r, UnaryOp.sqrt.apply n = .ok r ∧ r.isExact = true ∧
        ∃ k, 0 ≤ k ∧ k * k = 18446744073709551616 ∧ r.Canonical ∧ r.toInt? = some k) ∧
      (∃ s r, BinaryOp.mul.apply ⟨0⟩ n n = .ok s ∧ UnaryOp.sqrt.apply s = .ok r ∧
        UnaryOp.abs.apply n = .ok r) ∧
      x.lt .zero = true ∧
      UnaryOp.sqrt.apply x = .error (.typeMismatch "sqrt" "nonnegative real" x) := by
  intro n x
  have hn : n.Canonical := by decide
  have hsquare : IsSquare (18446744073709551616 : Int) := ⟨4294967296, rfl⟩
  have hx : x.lt .zero = true := by decide
  obtain ⟨hroot, -, hself⟩ := sqrt_perfect_square ⟨0⟩ hn
  obtain ⟨-, herror, -⟩ := sqrt_perfect_square ⟨0⟩ (canonical_flonum (.infinite true))
  obtain ⟨r, hr, hexact, hvalue, -⟩ := hroot _ rfl (by decide)
  exact ⟨hn, rfl, hsquare, ⟨r, hr, hexact.2 hsquare, hvalue hsquare⟩, hself rfl, hx,
    (herror _).2 ⟨hx, rfl⟩⟩

end NumericTower
