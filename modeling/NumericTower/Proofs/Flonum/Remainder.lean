import NumericTower.Proofs.Fixnum.Exact
import NumericTower.Proofs.Flonum.Rounding
/-!
# Remainders of flonums

The remainder of two finite doubles is a double, however far apart they lie
(`exists_place_mod`), so that `Flonum.rem` rounds nothing. The floor remainder
differs from it by the divisor where their signs differ, and that sum is
rounded once.
-/

namespace NumericTower

/-- **The remainder of two places is the value of a place.** On the spacing of
the finer of the two it has no more steps than that one. -/
theorem exists_place_mod (i : Nat) {j : Nat} (hj : unitsAt j ≠ 0) :
    ∃ k ≤ i, unitsAt k = unitsAt i % unitsAt j := by
  suffices h : ∃ k, unitsAt k = unitsAt i % unitsAt j by
    obtain ⟨k, hk⟩ := h
    have hle : unitsAt k ≤ unitsAt i := hk ▸ Nat.mod_le _ _
    exact ⟨k, unitsAt_strictMono.le_iff_le.1 hle, hk⟩
  obtain ⟨c, a, hc, hi⟩ := exists_unitsAt_eq_shiftLeft i
  obtain ⟨d, b, hd, hj'⟩ := exists_unitsAt_eq_shiftLeft j
  rw [hj', Nat.shiftLeft_eq] at hj
  simp only [hi, hj', Nat.shiftLeft_eq]
  rcases Nat.le_total a b with h | h
  · -- the dividend is on the finer spacing
    obtain ⟨s, rfl⟩ := Nat.exists_eq_add_of_le h
    have hmod : c * 2 ^ a % (d * 2 ^ (a + s)) = c % (d * 2 ^ s) * 2 ^ a := by
      rw [Nat.add_comm, pow_add, ← Nat.mul_assoc, Nat.mul_mod_mul_right]
    obtain ⟨k, hk⟩ := exists_place_shiftLeft a (c % (d * 2 ^ s)) ((Nat.mod_le _ _).trans_lt hc)
    exact ⟨k, by rw [hk, hmod, Nat.shiftLeft_eq]⟩
  · obtain ⟨s, rfl⟩ := Nat.exists_eq_add_of_le h
    have hpos : 0 < d := Nat.pos_of_ne_zero fun h0 => hj (by rw [h0, Nat.zero_mul])
    have hmod : c * 2 ^ (b + s) % (d * 2 ^ b) = c * 2 ^ s % d * 2 ^ b := by
      rw [Nat.add_comm, pow_add, ← Nat.mul_assoc, Nat.mul_mod_mul_right]
    obtain ⟨k, hk⟩ := exists_place_shiftLeft b (c * 2 ^ s % d) ((Nat.mod_lt _ hpos).trans hd)
    exact ⟨k, by rw [hk, hmod, Nat.shiftLeft_eq]⟩

namespace Flonum

theorem tmod_signedUnits (xn yn : Bool) (x y : Magnitude) :
    (signedUnits xn x).tmod (signedUnits yn y) =
      if xn then -((x.units % y.units : Nat) : Int) else (x.units % y.units : Nat) := by
  have hmod : (x.units : Int).tmod y.units = (x.units % y.units : Nat) := (Int.ofNat_tmod _ _).symm
  cases xn <;> cases yn <;> simp [signedUnits, Int.neg_tmod, Int.tmod_neg, hmod]

/-- **The remainder is exact.** -/
theorem exists_rem_eq (xn yn : Bool) (x : Magnitude) {y : Magnitude} (hy : y.units ≠ 0) :
    ∃ r : Magnitude, (finite xn x).rem (finite yn y) = .finite xn r ∧
      signedUnits xn r = (signedUnits xn x).tmod (signedUnits yn y) := by
  obtain ⟨k, hk, hmod⟩ := exists_place_mod x.place hy
  have hr : (⟨k, hk.trans_lt x.place_lt⟩ : Magnitude).units = x.units % y.units := hmod
  refine ⟨⟨k, hk.trans_lt x.place_lt⟩, ?_, ?_⟩
  · rw [rem, if_neg hy, ← hr, ← Nat.mul_one (Magnitude.units _)]
    exact nearest_units xn _ Nat.one_pos
  · rw [tmod_signedUnits, signedUnits, hr]

/-- The remainder with the sign of the divisor, as modulo takes it. -/
def floorRem (x y : Flonum) : Flonum :=
  let r := x.rem y
  if !r.isZero && r.isNegative != y.isNegative then r.add y else r

/-- **The floor remainder is rounded once.** -/
theorem isNearest_floorRem (xn yn : Bool) (x : Magnitude) {y : Magnitude} (hy : y.units ≠ 0) :
    (floorRem (.finite xn x) (.finite yn y)).IsNearest
      (((signedUnits xn x).fmod (signedUnits yn y) : Int) / unitsPerOne) := by
  obtain ⟨r, hrem, hsigned⟩ := exists_rem_eq xn yn x hy
  have hne : signedUnits yn y ≠ 0 := by
    rw [← Int.natAbs_ne_zero, natAbs_signedUnits]
    exact hy
  have hadjust : (!(finite xn r).isZero && (finite xn r).isNegative != (finite yn y).isNegative) =
        true ↔
      (signedUnits xn x).tmod (signedUnits yn y) ≠ 0 ∧
        ¬ ((signedUnits xn x).tmod (signedUnits yn y) < 0 ↔ signedUnits yn y < 0) := by
    rw [← hsigned, ← isNegative_finite_iff, ← isNegative_finite_iff, ← Bool.eq_iff_iff, ne_eq,
      ← isZero_finite_iff, Bool.and_eq_true, bne_iff_ne, Bool.not_eq_true', Bool.not_eq_true]
  rw [Fixnum.fmod_eq_ite hne]
  simp only [floorRem, hrem, hadjust]
  split
  · rw [← hsigned, Int.cast_add, add_div]
    exact isNearest_add (toRat?_finite xn r) (toRat?_finite yn y)
  · rw [← hsigned]
    exact isNearest_of_toRat? (toRat?_finite xn r)

/-- Between whole flonums it is the floor remainder of their integers. -/
theorem isNearest_floorRem_of_toRat? {x y : Flonum} {v w : Int} (hv : x.toRat? = some (v : ℚ))
    (hw : y.toRat? = some (w : ℚ)) (hne : w ≠ 0) : (floorRem x y).IsNearest (v.fmod w : Int) := by
  have hpos : (0 : Int) < unitsPerOne := Int.natCast_pos.2 unitsPerOne_pos
  obtain ⟨xn, m, rfl, -⟩ := exists_finite_of_toRat? hv
  obtain ⟨yn, m', rfl, -⟩ := exists_finite_of_toRat? hw
  rw [toRat?_finite_eq_iff] at hv hw
  have hunits : m'.units ≠ 0 := by
    rw [← natAbs_signedUnits yn, hw, Int.natAbs_ne_zero]
    exact mul_ne_zero hne hpos.ne'
  have hmod : (signedUnits xn m).fmod (signedUnits yn m') = unitsPerOne * v.fmod w := by
    rw [hv, hw, Int.mul_comm v, Int.mul_comm w, Int.mul_fmod_mul_of_pos _ _ hpos]
  have hnearest := isNearest_floorRem xn yn m hunits
  rwa [hmod, Int.cast_mul, Int.cast_natCast, mul_div_cancel_left₀ _ cast_unitsPerOne_pos.ne'] at hnearest

end Flonum

end NumericTower
