import NumericTower.Decimal.Shortest
import NumericTower.Proofs.Flonum.Nearest
/-!
# Decimals and doubles

A decimal reads as the double nearest to its exact value (`toFlonum_eq`):
the two answers that are given from its size alone are the ones that
rounding would give. So decimals of one value read alike, and the shortest
decimal of a double reads as that double (`toFlonum_shortest`).
-/

namespace NumericTower.Decimal

theorem powerOfTen_pos (k : Nat) : 0 < powerOfTen k := Nat.pow_pos (by decide)

theorem powerOfTen_mono {j k : Nat} (h : j ≤ k) : powerOfTen j ≤ powerOfTen k :=
  Nat.pow_le_pow_right (by decide) h

theorem powerOfTen_eq (k : Nat) : powerOfTen k = 10 ^ k := rfl

/-- A scaled coefficient as a fraction. -/
theorem toRat_of_exponent {d : Decimal} {j n : Nat} (h : d.exponent = (j : Int) - n) :
    d.toRat = ((d.coefficient * powerOfTen j : Nat) : ℚ) / (powerOfTen n : Nat) := by
  have hten : (10 : ℚ) ≠ 0 := by decide
  rw [toRat, h, zpow_sub₀ hten, zpow_natCast, zpow_natCast, powerOfTen_eq, powerOfTen_eq]
  push_cast
  ring

/-- Fractions of one value. -/
theorem mul_eq_mul_of_div_eq_div {a b c d : Nat} (hb : 0 < b) (hd : 0 < d)
    (h : (a : ℚ) / b = (c : ℚ) / d) : a * d = c * b := by
  have hb' : (b : ℚ) ≠ 0 := by exact_mod_cast hb.ne'
  have hd' : (d : ℚ) ≠ 0 := by exact_mod_cast hd.ne'
  rw [div_eq_div_iff hb' hd'] at h
  exact_mod_cast h

theorem unitsAt_placeCount_le : unitsAt placeCount ≤ powerOfTen 309 * unitsPerOne := by
  decide +kernel

theorem two_mul_unitsPerOne_le : 2 * unitsPerOne ≤ 1 <<< 1200 := by decide +kernel

/-- The first shortcut: `10^309` is past the end of the list. -/
theorem unitsAt_placeCount_mul_le {c k num den : Nat} (hc : c ≠ 0) (hk : 308 < k)
    (h : c * powerOfTen k * den = num) : unitsAt placeCount * den ≤ num * unitsPerOne := by
  have hten : powerOfTen 309 ≤ c * powerOfTen k :=
    (powerOfTen_mono hk).trans (Nat.le_mul_of_pos_left _ (Nat.pos_of_ne_zero hc))
  calc unitsAt placeCount * den
      ≤ powerOfTen 309 * unitsPerOne * den := Nat.mul_le_mul_right den unitsAt_placeCount_le
    _ ≤ c * powerOfTen k * unitsPerOne * den :=
        Nat.mul_le_mul_right den (Nat.mul_le_mul_right unitsPerOne hten)
    _ = num * unitsPerOne := by rw [Nat.mul_right_comm, h]

theorem mul_one_shiftLeft_le {c k bits : Nat} (h : c.log2 + (bits + 1) ≤ 3 * k) :
    c * (1 <<< bits) ≤ powerOfTen k := by
  have hc : c ≤ 2 ^ (c.log2 + 1) := Nat.lt_log2_self.le
  calc c * (1 <<< bits)
      ≤ 2 ^ (c.log2 + 1) * 2 ^ bits := by
        rw [Nat.one_shiftLeft]
        exact Nat.mul_le_mul_right _ hc
    _ ≤ 2 ^ (3 * k) := by
        rw [← pow_add]
        exact Nat.pow_le_pow_right (by decide) (by omega)
    _ = 8 ^ k := by rw [pow_mul]; rfl
    _ ≤ powerOfTen k := Nat.pow_le_pow_left (by decide) k

/-- The second one: ten is at least `2^3`, so the digits before the point
are not enough to make up for the places after it. -/
theorem two_mul_units_le {c k num den : Nat} (hk : c.log2 + 1201 ≤ 3 * k)
    (h : c * den = num * powerOfTen k) : 2 * (num * unitsPerOne) ≤ den := by
  rcases Nat.eq_zero_or_pos c with rfl | hc
  · have hnum : num = 0 := by
      rw [Nat.zero_mul] at h
      exact (Nat.mul_eq_zero.1 h.symm).resolve_right (powerOfTen_pos k).ne'
    rw [hnum, Nat.zero_mul]
    exact Nat.zero_le den
  · have hsize : c * (1 <<< 1200) ≤ powerOfTen k := mul_one_shiftLeft_le hk
    refine Nat.le_of_mul_le_mul_left ?_ hc
    calc c * (2 * (num * unitsPerOne))
        = num * (c * (2 * unitsPerOne)) := by ring
      _ ≤ num * (c * (1 <<< 1200)) :=
          Nat.mul_le_mul_left num (Nat.mul_le_mul_left c two_mul_unitsPerOne_le)
      _ ≤ num * powerOfTen k := Nat.mul_le_mul_left num hsize
      _ = c * den := h.symm

/-- **A numeral is rounded once.** The double of a decimal is the double of
its exact value, also where its size alone decides. -/
theorem toFlonum_eq (negative : Bool) {d : Decimal} {num den : Nat} (hden : 0 < den)
    (h : d.toRat = (num : ℚ) / den) : d.toFlonum negative = .ofFraction negative num den := by
  rw [Flonum.ofFraction]
  cases he : d.exponent with
  | ofNat k =>
    have hval := toRat_of_exponent (d := d) (j := k) (n := 0) (by rw [he]; simp)
    have hcross : d.coefficient * powerOfTen k * den = num := by
      rw [mul_eq_mul_of_div_eq_div (powerOfTen_pos 0) hden (hval.symm.trans h)]
      exact Nat.mul_one num
    simp only [toFlonum, he]
    split
    · rename_i h0
      rw [h0, Nat.zero_mul, Nat.zero_mul] at hcross
      rw [← hcross, Nat.zero_mul, Flonum.nearest_of_le_half negative hden (Nat.zero_le den)]
    split
    · -- too long for a double
      rename_i h0 hk
      exact (Flonum.nearest_of_le_num negative hden (unitsAt_placeCount_mul_le h0 hk hcross)).symm
    · rw [Flonum.ofFraction]
      refine Flonum.nearest_congr negative Nat.one_pos hden ?_
      rw [Nat.mul_right_comm, hcross, Nat.mul_one]
  | negSucc k =>
    have hval := toRat_of_exponent (d := d) (j := 0) (n := k + 1) (by rw [he]; omega)
    have hcross : d.coefficient * den = num * powerOfTen (k + 1) := by
      rw [← mul_eq_mul_of_div_eq_div (powerOfTen_pos (k + 1)) hden (hval.symm.trans h)]
      exact congrArg (· * den) (Nat.mul_one d.coefficient).symm
    simp only [toFlonum, he]
    split
    · -- too many places for its digits
      rename_i hk
      exact (Flonum.nearest_of_le_half negative hden (two_mul_units_le hk hcross)).symm
    · rw [Flonum.ofFraction]
      refine Flonum.nearest_congr negative (powerOfTen_pos (k + 1)) hden ?_
      rw [Nat.mul_right_comm, hcross, Nat.mul_right_comm]

/-- Decimals of one value read alike. -/
theorem toFlonum_congr (negative : Bool) {d d' : Decimal} (h : d.toRat = d'.toRat) :
    d.toFlonum negative = d'.toFlonum negative := by
  have hexp : d.exponent = (d.exponent.toNat : Int) - (-d.exponent).toNat := by omega
  have hval := toRat_of_exponent hexp
  rw [toFlonum_eq negative (powerOfTen_pos _) hval,
    toFlonum_eq negative (powerOfTen_pos _) (h.symm.trans hval)]

/-- The double of a whole number. -/
theorem toFlonum_of_whole (negative : Bool) {d : Decimal} {whole : Nat} (h : d.toRat = whole) :
    d.toFlonum negative = .ofWhole negative whole := by
  have hval : d.toRat = (whole : ℚ) / (1 : Nat) := by rw [h, Nat.cast_one, div_one]
  exact toFlonum_eq negative Nat.one_pos hval

/-! ## Shortest decimals -/

theorem readsBackAt_iff {i count : Nat} :
    readsBackAt i count = true ↔ RoundsTo count tensPerUnit i := by
  rw [readsBackAt, RoundsTo]
  split <;> simp

theorem tensPerUnit_pos : 0 < tensPerUnit := Nat.pow_pos (by decide)

theorem unitsPerOne_mul_tensPerUnit : unitsPerOne * tensPerUnit = powerOfTen unitExponent := by
  rw [unitsPerOne_eq]
  exact (Nat.mul_pow 2 5 unitExponent).symm

/-- Whatever a grid answers reads back. -/
theorem roundsTo_of_onGrid? {i exact k point : Nat} (h : onGrid? i exact k = some point) :
    RoundsTo (point * powerOfTen k) tensPerUnit i := by
  rw [← readsBackAt_iff]
  simp only [onGrid?] at h
  split at h
  · rename_i hbelow habove
    cases h
    split
    · exact hbelow
    · exact habove
  · rename_i hbelow habove
    cases h
    exact hbelow
  · rename_i hbelow habove
    cases h
    exact habove
  · cases h

/-- **The search ends with a decimal that reads back**: at a hit, or at the
double itself. By induction on the grids that are left. -/
theorem shortestFrom_reads {i exact : Nat} (h : RoundsTo exact tensPerUnit i) (k : Nat) :
    ∃ j : Nat, (shortestFrom i exact k).exponent = (j : Int) - unitExponent ∧
      RoundsTo ((shortestFrom i exact k).coefficient * powerOfTen j) tensPerUnit i := by
  induction k with
  | zero =>
    refine ⟨0, by rw [shortestFrom, Nat.cast_zero, zero_sub], ?_⟩
    rwa [shortestFrom, powerOfTen_eq, pow_zero, Nat.mul_one]
  | succ k ih =>
    rw [shortestFrom]
    split
    · rename_i point hpoint
      exact ⟨k, rfl, roundsTo_of_onGrid? hpoint⟩
    · exact ih

/-- **The shortest decimal reads back.** -/
theorem toFlonum_shortest (negative : Bool) (m : Magnitude) :
    (shortest m).toFlonum negative = .finite negative m := by
  obtain ⟨j, hexp, hround⟩ := shortestFrom_reads (roundsTo_unitsAt m.place tensPerUnit_pos)
    (m.units * tensPerUnit).repr.length
  change (shortest m).exponent = (j : Int) - unitExponent at hexp
  change RoundsTo ((shortest m).coefficient * powerOfTen j) tensPerUnit m.place at hround
  have hpos := powerOfTen_pos unitExponent
  rw [toFlonum_eq negative hpos (toRat_of_exponent hexp), Flonum.ofFraction]
  refine Flonum.nearest_of_roundsTo negative hpos ?_
  refine (roundsTo_congr tensPerUnit_pos hpos ?_).1 hround
  rw [← unitsPerOne_mul_tensPerUnit, Nat.mul_assoc _ unitsPerOne]

/-- A decimal that reads as a double with a fraction has one itself. -/
theorem whole_of_toFlonum {negative : Bool} {m : Magnitude} {d : Decimal} {whole : Nat}
    (hd : d.toFlonum negative = .finite negative m) (hwhole : d.toRat = whole) :
    m.units % unitsPerOne = 0 := by
  rw [toFlonum_of_whole negative hwhole, Flonum.ofWhole, Flonum.ofFraction] at hd
  exact whole_of_roundsTo (Flonum.roundsTo_of_nearest Nat.one_pos hd)

end NumericTower.Decimal
