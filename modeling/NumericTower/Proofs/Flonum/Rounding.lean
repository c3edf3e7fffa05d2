import NumericTower.Flonum.Arith
import NumericTower.Proofs.Flonum.Whole
/-!
# Rounding to the nearest double

The rounding of rationals as a relation (`Flonum.IsNearest`): a finite double
that no other one is nearer than, the even one of two that are as near, and an
infinity from the middle between the greatest finite double and the place
after it on. `Flonum.nearest` finds what is nearest (`isNearest_nearest`), so
that conversions of integers and sums are rounded once.
-/

namespace NumericTower

/-- Where the infinities begin: halfway from the greatest finite double,
`(2^53 - 1) * 2^971`, to `2^1024`. -/
def roundingEnd : ℚ := (2 ^ 54 - 1) * 2 ^ 970

/-! ## Rounding places -/

/-- The last place of the list is odd, so its upper midpoint is not rounded
to it. -/
theorem nearestPlace_lt_placeCount_iff {num den : Nat} (hden : 0 < den) :
    nearestPlace num den < placeCount ↔
      2 * num < (unitsAt (placeCount - 1) + unitsAt placeCount) * den := by
  have hround : RoundsTo num den (nearestPlace num den) := roundsTo_nearestPlace hden
  have hodd : (placeCount - 1) % 2 = 1 := by decide
  generalize nearestPlace num den = i at hround
  constructor
  · intro hi
    rcases Nat.lt_or_ge i (placeCount - 1) with hlt | hge
    · have h1 : unitsAt i < unitsAt (placeCount - 1) := unitsAt_strictMono hlt
      have h2 : unitsAt (i + 1) ≤ unitsAt placeCount := unitsAt_strictMono.monotone (by omega)
      exact hround.le.2.trans_lt (Nat.mul_lt_mul_of_pos_right (by omega) hden)
    · obtain rfl : i = placeCount - 1 := by omega
      rw [RoundsTo, if_neg (by omega)] at hround
      exact hround.2
  · intro hnum
    by_contra hi
    have h1 : unitsAt (placeCount - 1) ≤ unitsAt (i - 1) := unitsAt_strictMono.monotone (by omega)
    have h2 : unitsAt placeCount ≤ unitsAt i := unitsAt_strictMono.monotone (by omega)
    have hle : (unitsAt (placeCount - 1) + unitsAt placeCount) * den ≤
        (unitsAt (i - 1) + unitsAt i) * den := Nat.mul_le_mul_right den (by omega)
    have hlow := hround.le.1
    omega

theorem unitsAt_end :
    unitsAt (placeCount - 1) + unitsAt placeCount =
      2 * ((2 ^ 54 - 1) * 2 ^ 970 * unitsPerOne) := by
  decide +kernel

/-- A count of units other than that of a place is at a neighbour of the place
or past it. -/
def BesidePlace (i : Nat) (t : Int) : Prop :=
  (t < unitsAt i ∧ t ≤ unitsAt (i - 1)) ∨ (unitsAt (i + 1) : Int) ≤ t

/-- **A place is nearest to what rounds to it**: everything beside it is as
far away at least, and farther away if the place is odd. -/
theorem RoundsTo.abs_sub_le {num den i : Nat} (hden : 0 < den) (h : RoundsTo num den i) {t : Int}
    (ht : BesidePlace i t) :
    |(num : Int) - unitsAt i * den| ≤ |num - t * den| ∧
      (|(num : Int) - unitsAt i * den| = |num - t * den| → i % 2 = 0) := by
  have hpos : (0 : Int) < den := by exact_mod_cast hden
  have hlow : ((unitsAt (i - 1) * den : Nat) : Int) + (unitsAt i * den : Nat) ≤ 2 * num := by
    have := h.le.1
    rw [Nat.add_mul] at this
    omega
  have hhigh : 2 * (num : Int) ≤ (unitsAt i * den : Nat) + (unitsAt (i + 1) * den : Nat) := by
    have := h.le.2
    rw [Nat.add_mul] at this
    omega
  have heven (hmid : 2 * (num : Int) = (unitsAt (i - 1) * den : Nat) + (unitsAt i * den : Nat) ∨
      2 * (num : Int) = (unitsAt i * den : Nat) + (unitsAt (i + 1) * den : Nat)) : i % 2 = 0 := by
    refine h.even ?_
    rw [Nat.add_mul, Nat.add_mul]
    omega
  push_cast at hlow hhigh heven
  rcases ht with ⟨hlt, hle⟩ | hge
  · -- below the place: the fraction is past the middle between the two
    have hlt' : t * den < unitsAt i * den := Int.mul_lt_mul_of_pos_right hlt hpos
    have hle' : t * den ≤ unitsAt (i - 1) * den := Int.mul_le_mul_of_nonneg_right hle hpos.le
    rw [abs_of_nonneg (by omega : 0 ≤ (num : Int) - t * den)]
    rcases abs_cases ((num : Int) - unitsAt i * den) with ⟨habs, -⟩ | ⟨habs, -⟩ <;>
      exact ⟨by omega, fun heq => heven (.inl (by omega))⟩
  · have hgt : (unitsAt i * den : Int) < unitsAt (i + 1) * den := by
      exact_mod_cast Nat.mul_lt_mul_of_pos_right (unitsAt_lt_succ i) hden
    have hge' : (unitsAt (i + 1) * den : Int) ≤ t * den :=
      Int.mul_le_mul_of_nonneg_right hge hpos.le
    rw [abs_of_nonpos (by omega : (num : Int) - t * den ≤ 0)]
    rcases abs_cases ((num : Int) - unitsAt i * den) with ⟨habs, -⟩ | ⟨habs, -⟩ <;>
      exact ⟨by omega, fun heq => heven (.inr (by omega))⟩

namespace Flonum

/-- Every double lies at a place or beside it. -/
theorem eq_or_besidePlace (negative : Bool) (m : Magnitude) (i : Nat) :
    signedUnits negative m = unitsAt i ∨ BesidePlace i (signedUnits negative m) := by
  have hzero : unitsAt 0 = 0 := rfl
  have hle {j k : Nat} (h : j ≤ k) : unitsAt j ≤ unitsAt k := unitsAt_strictMono.monotone h
  have hlt {j k : Nat} (h : j < k) : unitsAt j < unitsAt k := unitsAt_strictMono h
  cases negative with
  | false =>
    have hunits : signedUnits false m = unitsAt m.place := rfl
    rw [hunits, BesidePlace]
    rcases lt_trichotomy m.place i with h | h | h
    · have h1 := hlt h
      have h2 := hle (by omega : m.place ≤ i - 1)
      omega
    · exact .inl (by rw [h])
    · have := hle (by omega : i + 1 ≤ m.place)
      omega
  | true =>
    -- at or below zero, and so below every place but the first
    have hunits : signedUnits true m = -(unitsAt m.place : Int) := rfl
    rw [hunits, BesidePlace]
    rcases Nat.eq_zero_or_pos i with rfl | hi
    · rw [Nat.zero_sub, hzero]
      omega
    · have := hlt hi
      omega

/-! ## The relation -/

/-- **A double is nearest to a rational**, ties to even: a finite one if no
other finite double is nearer, or as near unless this one is even, and an
infinite one past the end of the range. A NaN is nearest to nothing. -/
inductive IsNearest : Flonum → ℚ → Prop
  | finite {negative : Bool} {m : Magnitude} {p q : ℚ}
      (value : (finite negative m).toRat? = some p) (inRange : |q| < roundingEnd)
      (nearest : ∀ (y : Flonum) (r : ℚ), y.toRat? = some r → |q - p| ≤ |q - r|)
      (even : ∀ (y : Flonum) (r : ℚ), y.toRat? = some r → |q - p| = |q - r| →
        r = p ∨ m.place % 2 = 0) :
      IsNearest (.finite negative m) q
  | infinite {negative : Bool} {q : ℚ} (pastEnd : roundingEnd ≤ if negative then -q else q) :
      IsNearest (.infinite negative) q

theorem exists_finite_of_toRat? {x : Flonum} {p : ℚ} (h : x.toRat? = some p) :
    ∃ negative m, x = .finite negative m ∧ p = (signedUnits negative m : ℚ) / unitsPerOne := by
  cases x with
  | nan => cases h
  | infinite negative => cases h
  | finite negative m => exact ⟨negative, m, rfl, eq_signedUnits_div h⟩

/-! ## Signs -/

theorem isZero_finite_iff (negative : Bool) (m : Magnitude) :
    (finite negative m).isZero = true ↔ signedUnits negative m = 0 := by
  rw [← Int.natAbs_eq_zero, natAbs_signedUnits]
  exact beq_iff_eq

theorem isNegative_finite_iff (negative : Bool) (m : Magnitude) :
    (finite negative m).isNegative = true ↔ signedUnits negative m < 0 := by
  cases negative with
  | false => simp [isNegative, signedUnits]
  | true => simp [isNegative, signedUnits, Nat.pos_iff_ne_zero]

theorem isZero_iff_of_toRat? {x : Flonum} {p : ℚ} (h : x.toRat? = some p) :
    x.isZero = true ↔ p = 0 := by
  obtain ⟨negative, m, rfl, rfl⟩ := exists_finite_of_toRat? h
  rw [isZero_finite_iff, div_eq_zero_iff, or_iff_left cast_unitsPerOne_pos.ne', Int.cast_eq_zero]

theorem isNegative_iff_of_toRat? {x : Flonum} {p : ℚ} (h : x.toRat? = some p) :
    x.isNegative = true ↔ p < 0 := by
  obtain ⟨negative, m, rfl, rfl⟩ := exists_finite_of_toRat? h
  rw [isNegative_finite_iff, div_lt_iff₀ cast_unitsPerOne_pos, zero_mul, Int.cast_lt_zero]

theorem signedUnits_not (negative : Bool) (m : Magnitude) :
    signedUnits (!negative) m = -signedUnits negative m := by
  cases negative <;> simp [signedUnits]

theorem toRat?_neg {x : Flonum} {p : ℚ} (h : x.toRat? = some p) : x.neg.toRat? = some (-p) := by
  obtain ⟨negative, m, rfl, rfl⟩ := exists_finite_of_toRat? h
  rw [neg, toRat?_finite, signedUnits_not, Int.cast_neg, neg_div]

/-- What is nearest to a rational is, negated, nearest to its negative. -/
theorem IsNearest.neg {x : Flonum} {q : ℚ} (h : x.IsNearest q) : x.neg.IsNearest (-q) := by
  have habs (p : ℚ) : |-q - p| = |q - -p| := by
    rw [← abs_neg (q - -p), neg_sub, sub_eq_add_neg, sub_eq_add_neg, add_comm]
  cases h with
  | finite value inRange nearest even =>
    refine .finite (toRat?_neg value) (by rwa [abs_neg]) ?_ ?_
    · intro y r hr
      rw [habs, habs, neg_neg]
      exact nearest y.neg (-r) (toRat?_neg hr)
    · intro y r hr heq
      rw [habs, habs, neg_neg] at heq
      exact (even y.neg (-r) (toRat?_neg hr) heq).imp_left neg_eq_iff_eq_neg.1
  | infinite pastEnd =>
    rename_i negative
    refine .infinite ?_
    cases negative <;> simpa using pastEnd

/-! ## What rounding gives -/

section

variable {num den : Nat}

/-- How far a fraction lies from a count of units, as a fraction. -/
theorem abs_sub_units_eq (num : Nat) (hden : 0 < den) (t : Int) :
    |(num : ℚ) / (den * unitsPerOne) - t / unitsPerOne| =
      (|(num : Int) - t * den| : Int) / (den * unitsPerOne) := by
  have hone : (0 : ℚ) < unitsPerOne := cast_unitsPerOne_pos
  have hden' : (0 : ℚ) < den := Nat.cast_pos.2 hden
  have hpos : (0 : ℚ) < den * unitsPerOne := mul_pos hden' hone
  have hsub : (num : ℚ) / (den * unitsPerOne) - t / unitsPerOne =
      ((num - t * den : Int) : ℚ) / (den * unitsPerOne) := by
    push_cast
    field_simp
  rw [hsub, abs_div, abs_of_pos hpos, Int.cast_abs]

theorem lt_roundingEnd_iff (num : Nat) (hden : 0 < den) :
    (num : ℚ) / (den * unitsPerOne) < roundingEnd ↔ nearestPlace num den < placeCount := by
  have hpos : (0 : ℚ) < den * unitsPerOne := mul_pos (Nat.cast_pos.2 hden) cast_unitsPerOne_pos
  have hend : roundingEnd * (den * unitsPerOne) =
      (((2 ^ 54 - 1) * 2 ^ 970 * unitsPerOne * den : Nat) : ℚ) := by
    rw [roundingEnd]
    generalize 970 = e
    push_cast
    ring
  rw [nearestPlace_lt_placeCount_iff hden, unitsAt_end, div_lt_iff₀ hpos, hend,
    Nat.cast_lt, Nat.mul_assoc 2]
  exact (Nat.mul_lt_mul_left (by decide)).symm

theorem isNearest_nearest_false (num : Nat) (hden : 0 < den) :
    (nearest false num den).IsNearest (num / (den * unitsPerOne)) := by
  have hpos : (0 : ℚ) < den * unitsPerOne := mul_pos (Nat.cast_pos.2 hden) cast_unitsPerOne_pos
  rw [nearest]
  split
  · rename_i hplace
    have hround : RoundsTo num den (nearestPlace num den) := roundsTo_nearestPlace hden
    have hunits : signedUnits false ⟨nearestPlace num den, hplace⟩ =
        unitsAt (nearestPlace num den) := rfl
    refine .finite (toRat?_finite _ _) ?_ ?_ ?_
    · rw [abs_of_nonneg (by positivity)]
      exact (lt_roundingEnd_iff num hden).2 hplace
    · intro y r hr
      obtain ⟨negative, m, rfl, rfl⟩ := exists_finite_of_toRat? hr
      rw [abs_sub_units_eq num hden, abs_sub_units_eq num hden, hunits,
        div_le_div_iff_of_pos_right hpos, Int.cast_le]
      rcases eq_or_besidePlace negative m (nearestPlace num den) with h | h
      · rw [h]
      · exact (hround.abs_sub_le hden h).1
    · intro y r hr heq
      obtain ⟨negative, m, rfl, rfl⟩ := exists_finite_of_toRat? hr
      rw [abs_sub_units_eq num hden, abs_sub_units_eq num hden, hunits,
        div_left_inj' hpos.ne', Int.cast_inj] at heq
      rcases eq_or_besidePlace negative m (nearestPlace num den) with h | h
      · exact .inl (by rw [h, hunits])
      · exact .inr ((hround.abs_sub_le hden h).2 heq)
  · rename_i hplace
    refine .infinite ?_
    rw [if_neg Bool.false_ne_true, ← not_lt]
    exact fun h => hplace ((lt_roundingEnd_iff num hden).1 h)

theorem nearest_true_eq (num den : Nat) :
    nearest true num den = (nearest false num den).neg := by
  simp only [nearest]
  split <;> rfl

theorem signBit_nearest (negative : Bool) (num den : Nat) :
    (nearest negative num den).signBit = negative := by
  rw [nearest]
  split <;> rfl

/-- A magnitude is rounded, and then given its sign. -/
theorem isNearest_nearest_ite (negative : Bool) (num : Nat) (hden : 0 < den) :
    (nearest negative num den).IsNearest
      (if negative then -(num / (den * unitsPerOne)) else num / (den * unitsPerOne)) := by
  cases negative with
  | false => exact isNearest_nearest_false num hden
  | true =>
    rw [nearest_true_eq]
    exact (isNearest_nearest_false num hden).neg

/-- **Rounding finds the nearest double.** The sign of a zero is free. -/
theorem isNearest_nearest {negative : Bool} {s : Int} (hden : 0 < den)
    (hsign : s = 0 ∨ negative = decide (s < 0)) :
    (nearest negative s.natAbs den).IsNearest (s / (den * unitsPerOne)) := by
  have hnearest := isNearest_nearest_ite negative s.natAbs hden
  cases negative with
  | false =>
    have hs : (s.natAbs : Int) = s := by
      simp only [Bool.false_eq, decide_eq_false_iff_not] at hsign
      omega
    rwa [if_neg Bool.false_ne_true, ← Int.cast_natCast s.natAbs, hs] at hnearest
  | true =>
    have hs : -(s.natAbs : Int) = s := by
      simp only [Bool.true_eq, decide_eq_true_eq] at hsign
      omega
    rwa [if_pos rfl, ← neg_div, ← Int.cast_natCast s.natAbs, ← Int.cast_neg, hs] at hnearest

end

/-- **An integer is rounded once.** -/
theorem isNearest_ofInt (v : Int) : (ofInt v).IsNearest v := by
  have hpos : (0 : Int) < unitsPerOne := Int.natCast_pos.2 unitsPerOne_pos
  have hsign : v * unitsPerOne = 0 ∨ decide (v < 0) = decide (v * unitsPerOne < 0) := by
    right
    rw [decide_eq_decide, Int.mul_neg_iff]
    omega
  have hnearest := isNearest_nearest Nat.one_pos hsign
  rw [Int.natAbs_mul, Int.natAbs_natCast, Int.cast_mul, Int.cast_natCast, Nat.cast_one, one_mul,
    mul_div_cancel_right₀ _ cast_unitsPerOne_pos.ne'] at hnearest
  exact hnearest

/-- **A sum is rounded once.** -/
theorem isNearest_add {x y : Flonum} {p r : ℚ} (hx : x.toRat? = some p) (hy : y.toRat? = some r) :
    (x.add y).IsNearest (p + r) := by
  obtain ⟨xn, m, rfl, rfl⟩ := exists_finite_of_toRat? hx
  obtain ⟨yn, m', rfl, rfl⟩ := exists_finite_of_toRat? hy
  have hvalue : (signedUnits xn m : ℚ) / unitsPerOne + signedUnits yn m' / unitsPerOne =
      ((signedUnits xn m + signedUnits yn m' : Int) : ℚ) / ((1 : Nat) * unitsPerOne) := by
    rw [← add_div, Int.cast_add, Nat.cast_one, one_mul]
  rw [hvalue, add]
  refine isNearest_nearest Nat.one_pos ?_
  by_cases h : signedUnits xn m + signedUnits yn m' = 0
  · exact .inl h
  · exact .inr (if_neg h)

/-- A finite double is nearest to its own value. -/
theorem isNearest_of_toRat? {x : Flonum} {q : ℚ} (h : x.toRat? = some q) : x.IsNearest q := by
  obtain ⟨negative, m, rfl, -⟩ := exists_finite_of_toRat? h
  refine .finite h ?_ ?_ ?_
  · have hplace : nearestPlace (m.units * 1) 1 = m.place := nearestPlace_unitsAt m.place Nat.one_pos
    have hend := (lt_roundingEnd_iff (m.units * 1) Nat.one_pos).2 (hplace ▸ m.place_lt)
    rwa [Nat.mul_one, Nat.cast_one, one_mul, ← abs_eq_units_div h] at hend
  · intro y r _
    rw [sub_self, abs_zero]
    exact abs_nonneg _
  · intro y r _ heq
    rw [sub_self, abs_zero, eq_comm, abs_eq_zero, sub_eq_zero] at heq
    exact .inl heq.symm

end Flonum

end NumericTower
