import NumericTower.Proofs.Flonum.RelativeError
/-!
# Square roots of flonums

The root of a count of units is a whole number of half units and a last bit
that says whether anything was cut off. For even counts comparing with it is
comparing squares (`two_mul_le_rootHalfUnits_iff`), and all the middles that a
root can lie near are even. So a root is rounded once and correctly, although
the exact one is irrational as a rule, and it never overflows.
-/

namespace NumericTower

open Flonum

namespace Flonum

/-! ## The last bit -/

section

variable {units c : Nat}

/-- An even count of half units is at most the root if its square is at most
what the root is taken of. -/
theorem two_mul_le_rootHalfUnits_iff :
    2 * c ≤ rootHalfUnits units ↔ c * c ≤ units * unitsPerOne := by
  rw [rootHalfUnits, ← Nat.le_sqrt]
  split <;> omega

/-- And at least the root if its square is: what is cut off is made up for by
the last bit. -/
theorem rootHalfUnits_le_two_mul_iff :
    rootHalfUnits units ≤ 2 * c ↔ units * unitsPerOne ≤ c * c := by
  rw [rootHalfUnits]
  generalize units * unitsPerOne = scaled
  split
  · rename_i hexact
    have hle : scaled.sqrt * scaled.sqrt ≤ c * c ↔ scaled.sqrt ≤ c := Nat.mul_self_le_mul_self_iff
    rw [hexact] at hle
    omega
  · rename_i hcut
    -- nothing is cut off the root of a square
    have hne : scaled ≠ c * c := by
      rintro rfl
      exact hcut (by rw [Nat.sqrt_eq])
    have hlt : scaled.sqrt < c ↔ scaled < c * c := Nat.sqrt_lt
    omega

end

end Flonum

/-! ## Rounding the root -/

section

variable {i units : Nat}

theorem exists_unitsAt_eq_two_mul (h : 2 * runLength ≤ i) : ∃ k, unitsAt i = 2 * k := by
  rcases place_cases i with hi | ⟨q, e, low, high, rfl⟩
  · omega
  · cases e with
    | zero =>
      -- the first two runs are one unit apart, and excluded
      omega
    | succ e => exact ⟨q * 2 ^ e, by rw [unitsAt_run_mul low high.le, pow_succ]; ring⟩

/-- **The root is on the right side of the middles** around the place that it is
rounded to. -/
theorem RoundsTo.root_between (hi : 2 * runLength < i) (h : RoundsTo (rootHalfUnits units) 2 i) :
    (unitsAt (i - 1) + unitsAt i) * (unitsAt (i - 1) + unitsAt i) ≤ 4 * (units * unitsPerOne) ∧
      4 * (units * unitsPerOne) ≤
        (unitsAt i + unitsAt (i + 1)) * (unitsAt i + unitsAt (i + 1)) := by
  obtain ⟨before, hbefore⟩ := exists_unitsAt_eq_two_mul (by omega : 2 * runLength ≤ i - 1)
  obtain ⟨k, hk⟩ := exists_unitsAt_eq_two_mul hi.le
  obtain ⟨after, hafter⟩ := exists_unitsAt_eq_two_mul (by omega : 2 * runLength ≤ i + 1)
  obtain ⟨hlow, hhigh⟩ := h.le
  have hsquare (c : Nat) : 2 * c * (2 * c) = 4 * (c * c) := by ring
  rw [hbefore, hk, hafter, ← Nat.mul_add, ← Nat.mul_add, hsquare, hsquare]
  constructor
  · exact Nat.mul_le_mul_left 4 (two_mul_le_rootHalfUnits_iff.1 (by omega))
  · exact Nat.mul_le_mul_left 4 (rootHalfUnits_le_two_mul_iff.1 (by omega))

/-- **A root is within one rounding of the exact one**, said of the squares. -/
theorem RoundsTo.within_root (hi : 2 * runLength < i) (h : RoundsTo (rootHalfUnits units) 2 i) :
    Within 2 (unitsAt i * unitsAt i) (units * unitsPerOne) := by
  obtain ⟨hlow, hhigh⟩ := h.root_between hi
  obtain ⟨j, rfl⟩ : ∃ j, i = j + 1 := ⟨i - 1, by omega⟩
  rw [Nat.add_sub_cancel] at hlow
  have hlow' : ((unitsAt j + unitsAt (j + 1)) * (unitsAt j + unitsAt (j + 1)) : ℚ) ≤
      4 * (units * unitsPerOne) := by exact_mod_cast hlow
  have hhigh' : (4 * (units * unitsPerOne) : ℚ) ≤
      (unitsAt (j + 1) + unitsAt (j + 1 + 1)) * (unitsAt (j + 1) + unitsAt (j + 1 + 1)) := by
    exact_mod_cast hhigh
  have hbefore := mul_self_le_mul_self (by positivity) (le_middle (by omega : runLength ≤ j))
  have hafter := mul_self_le_mul_self (by positivity) (middle_le (by omega : runLength ≤ j + 1))
  have hscaled := mul_le_mul_of_nonneg_right hlow' (sq_nonneg (1 + unitRoundoff))
  constructor
  · linarith
  · linarith

end

namespace Flonum

variable {m : Magnitude}

/-- A root is far from zero: it is taken in units, and there are many of them in
one. -/
theorem three_runs_le_root (hm : 0 < m.units) :
    3 * runLength ≤ nearestPlace (rootHalfUnits m.units) 2 := by
  have hroot : unitsAt (3 * runLength) * 2 ≤ rootHalfUnits m.units := by
    rw [unitsAt_three_runs, Nat.mul_comm, two_mul_le_rootHalfUnits_iff, ← pow_add]
    exact (two_pow_le_unitsPerOne (k := 54 + 54) (by decide)).trans
      (Nat.le_mul_of_pos_left unitsPerOne hm)
  exact le_nearestPlace Nat.two_pos hroot

/-- A root does not overflow: it is at most the greater of its operand and a word
end. -/
theorem root_lt_placeCount (m : Magnitude) :
    nearestPlace (rootHalfUnits m.units) 2 < placeCount := by
  obtain ⟨top, htop, hend⟩ := exists_place_wordEnd
  have hm : unitsAt m.place ≤ unitsAt (max m.place top) :=
    unitsAt_strictMono.monotone (le_max_left _ _)
  have hone : unitsPerOne ≤ unitsAt (max m.place top) := by
    have := unitsAt_strictMono.monotone (le_max_right m.place top)
    omega
  have hroot : rootHalfUnits m.units ≤ unitsAt (max m.place top) * 2 := by
    rw [Nat.mul_comm, rootHalfUnits_le_two_mul_iff]
    exact Nat.mul_le_mul hm hone
  exact (nearestPlace_le Nat.two_pos hroot).trans_lt (max_lt m.place_lt htop)

theorem exists_sqrt_eq (hm : 0 < m.units) :
    ∃ r : Magnitude, sqrt (.finite false m) = .finite false r ∧ 3 * runLength ≤ r.place ∧
      RoundsTo (rootHalfUnits m.units) 2 r.place := by
  obtain ⟨i, hi⟩ : ∃ i, nearestPlace (rootHalfUnits m.units) 2 = i := ⟨_, rfl⟩
  have hplace : i < placeCount := hi ▸ root_lt_placeCount m
  have hlarge : 3 * runLength ≤ i := hi ▸ three_runs_le_root hm
  have hround : RoundsTo (rootHalfUnits m.units) 2 i := (nearestPlace_eq_iff Nat.two_pos).1 hi
  refine ⟨⟨i, hplace⟩, ?_, hlarge, hround⟩
  rw [sqrt, if_neg hm.ne', if_neg Bool.false_ne_true]
  exact nearest_of_roundsTo false Nat.two_pos hround

theorem exists_magnitude_of_pos {x : Flonum} {q : ℚ} (hx : x.toRat? = some q) (hq : 0 < q) :
    ∃ m : Magnitude, x = .finite false m ∧ 0 < m.units ∧ q = m.units / unitsPerOne := by
  obtain ⟨negative, m, rfl, hvalue⟩ := exists_finite_of_toRat? hx
  rw [hvalue, div_pos_iff_of_pos_right cast_unitsPerOne_pos, Int.cast_pos, signedUnits] at hq
  cases negative with
  | true =>
    rw [if_pos rfl] at hq
    omega
  | false =>
    rw [if_neg Bool.false_ne_true] at hq
    exact ⟨m, rfl, Int.natCast_pos.1 hq, eq_units_div_of_toRat? hx⟩

/-- **The root of a positive double** is a double, within one rounding of the
exact root. -/
theorem exists_within_sqrt {x : Flonum} {q : ℚ} (hx : x.toRat? = some q) (hq : 0 < q) :
    ∃ p, x.sqrt.toRat? = some p ∧ Within 2 (p * p) q := by
  obtain ⟨m, rfl, hm, rfl⟩ := exists_magnitude_of_pos hx hq
  obtain ⟨r, hr, hlarge, hround⟩ := exists_sqrt_eq hm
  have hone : (0 : ℚ) < unitsPerOne := cast_unitsPerOne_pos
  have hrun := runLength_pos
  have hwithin := (hround.within_root (by omega)).div_right (mul_pos hone hone)
  rw [mul_div_mul_right _ _ hone.ne', ← div_mul_div_comm] at hwithin
  exact ⟨_, hr ▸ toRat?_finite_false r, hwithin⟩

end Flonum

end NumericTower
