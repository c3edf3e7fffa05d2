import NumericTower.Proofs.Flonum.Rounding
import NumericTower.Proofs.Number.Value
/-!
# Values that are nearest

What follows from a double being nearest to a rational, however it was found:
it is the rational where some double is, as for the integers up to `2^53`, it
has the sign of the rational unless it is zero, and no double of another value
is nearest to the same rational (`IsNearest.value_unique`), no other double at
all with its sign bit, nor one on the other side of what is nearest to a greater
rational (`IsNearest.value_le`).
-/

namespace NumericTower.Flonum

theorem toRat?_zero (negative : Bool) : (zero negative).toRat? = some 0 := by
  have hunits : signedUnits negative .zero = 0 := by cases negative <;> rfl
  rw [zero, toRat?_finite, hunits, Int.cast_zero, zero_div]

theorem roundingEnd_pos : 0 < roundingEnd := by
  rw [roundingEnd]
  generalize 970 = e
  positivity

/-- Either end of the range is as far from zero. -/
theorem le_abs_of_pastEnd {negative : Bool} {q : ℚ}
    (h : roundingEnd ≤ if negative then -q else q) : roundingEnd ≤ |q| := by
  refine h.trans ?_
  split
  · exact neg_le_abs q
  · exact le_abs_self q

namespace IsNearest

variable {x y : Flonum} {p q : ℚ}

/-- A rational past the end of the range has only infinities near it. -/
theorem lt_roundingEnd (hx : x.IsNearest q) (hp : x.toRat? = some p) : |q| < roundingEnd := by
  cases hx with
  | finite value inRange nearest even => exact inRange
  | infinite pastEnd => cases hp

theorem exists_toRat? (hx : x.IsNearest q) (hq : |q| < roundingEnd) : ∃ p, x.toRat? = some p := by
  cases hx with
  | finite value inRange nearest even => exact ⟨_, value⟩
  | infinite pastEnd => exact absurd hq (not_lt.2 (le_abs_of_pastEnd pastEnd))

/-- Rationals are rounded to finite doubles up to the end of the range. -/
theorem isFinite_iff (hx : x.IsNearest q) : x.isFinite = true ↔ |q| < roundingEnd := by
  cases hx with
  | finite value inRange => exact iff_of_true rfl inRange
  | infinite pastEnd =>
    exact iff_of_false Bool.false_ne_true (not_lt.2 (le_abs_of_pastEnd pastEnd))

/-- No finite double is nearer than the value that a rational rounds to. -/
theorem abs_sub_le {r : ℚ} (hx : x.IsNearest q) (hp : x.toRat? = some p) (hr : y.toRat? = some r) :
    |q - p| ≤ |q - r| := by
  cases hx with
  | finite value inRange nearest even =>
    obtain rfl := Option.some.inj (value.symm.trans hp)
    exact nearest y r hr
  | infinite pastEnd => cases hp

/-- Nor is another one as near, unless the place is even. -/
theorem place_even {negative : Bool} {m : Magnitude} {r : ℚ}
    (hx : IsNearest (.finite negative m) q) (hr : y.toRat? = some r)
    (hsame : |q - signedUnits negative m / unitsPerOne| = |q - r|)
    (hne : r ≠ signedUnits negative m / unitsPerOne) : m.place % 2 = 0 := by
  cases hx with
  | finite value inRange nearest even =>
    obtain rfl := Option.some.inj (value.symm.trans (toRat?_finite negative m))
    exact (even y r hr hsame).resolve_left hne

/-- **A rational that is a double is not rounded.** -/
theorem toRat?_eq (hx : x.IsNearest q) (hy : y.toRat? = some q) : x.toRat? = some q := by
  obtain ⟨p, hp⟩ := hx.exists_toRat? ((isNearest_of_toRat? hy).lt_roundingEnd hy)
  have hle : |q - p| ≤ |q - q| := hx.abs_sub_le hp hy
  rw [sub_self, abs_zero, abs_nonpos_iff, sub_eq_zero] at hle
  rw [hp, hle]

/-- **Rounding keeps the sign**, unless it loses it with the value. -/
theorem isZero_or_isNegative_iff (hx : x.IsNearest q) :
    x.isZero = true ∨ (q ≠ 0 ∧ (x.isNegative = true ↔ q < 0)) := by
  cases hx with
  | @finite negative m p _ value inRange nearest even =>
    -- zero is a double, and nearer than anything on the other side of it
    have hle := nearest _ 0 (toRat?_zero false)
    rw [isZero_iff_of_toRat? value, isNegative_iff_of_toRat? value, sub_zero] at *
    rcases lt_trichotomy p 0 with hp | hp | hp
    · have hq : q < 0 := by
        by_contra hq
        rw [abs_of_nonneg (by linarith), abs_of_nonneg (by linarith)] at hle
        linarith
      exact .inr ⟨hq.ne, iff_of_true hp hq⟩
    · exact .inl hp
    · have hq : 0 < q := by
        by_contra hq
        rw [abs_of_nonpos (by linarith), abs_of_nonpos (by linarith)] at hle
        linarith
      exact .inr ⟨hq.ne', iff_of_false hp.not_gt hq.not_gt⟩
  | @infinite negative _ pastEnd =>
    have hpos := roundingEnd_pos
    right
    cases negative with
    | false =>
      rw [if_neg Bool.false_ne_true] at pastEnd
      exact ⟨by linarith, iff_of_false Bool.false_ne_true (by linarith)⟩
    | true =>
      rw [if_pos rfl] at pastEnd
      exact ⟨by linarith, iff_of_true rfl (by linarith)⟩

end IsNearest

/-- The integers up to `2^53` are doubles. -/
theorem exists_toRat?_of_natAbs_le {v : Int} (h : v.natAbs ≤ 2 * runLength) :
    ∃ y : Flonum, y.toRat? = some (v : ℚ) := by
  have hplace : ∃ j, unitsAt j = v.natAbs * unitsPerOne := by
    rcases Nat.lt_or_eq_of_le h with hlt | heq
    · exact exists_place_of_whole hlt
    · -- the last of them is the first of a run
      obtain ⟨j, hj⟩ := exists_place_shiftLeft (unitExponent + 1) runLength (by decide)
      exact ⟨j, by rw [hj, heq, unitsPerOne_eq, Nat.shiftLeft_eq, pow_succ]; ring⟩
  obtain ⟨j, hj⟩ := hplace
  obtain ⟨top, htop, hend⟩ := exists_place_wordEnd
  have hle : unitsAt j ≤ unitsAt top := by
    rw [hj, hend]
    exact Nat.mul_le_mul_right _ (h.trans (by decide))
  have hlt : j < placeCount := (unitsAt_strictMono.le_iff_le.1 hle).trans_lt htop
  refine ⟨.finite (decide (v < 0)) ⟨j, hlt⟩, toRat?_finite_eq_iff.2 ?_⟩
  have hunits : Magnitude.units ⟨j, hlt⟩ = v.natAbs * unitsPerOne := hj
  rw [signedUnits, hunits, Nat.cast_mul, ← Int.neg_mul, ← ite_mul]
  congr 1
  by_cases hneg : v < 0
  · rw [if_pos (decide_eq_true hneg)]
    omega
  · rw [if_neg (by simpa using hneg)]
    omega

/-! ## Only one value is nearest -/

section

variable {negative negative' : Bool} {m m' : Magnitude} {q : ℚ}

/-- Two doubles at even places are not next to each other. -/
theorem exists_units_between (hm : m.place % 2 = 0) (hm' : m'.place % 2 = 0) (hpos : 0 < m'.units)
    (h : signedUnits negative m < m'.units) :
    ∃ t : Magnitude, signedUnits negative m < t.units ∧ t.units < m'.units := by
  have hzero : unitsAt 0 = 0 := rfl
  have hlt {j k : Nat} (hjk : j < k) : unitsAt j < unitsAt k := unitsAt_strictMono hjk
  have hplace := m'.place_lt
  have hne : m'.place ≠ 0 := fun h0 => hpos.ne' (units_eq_zero_iff.2 h0)
  refine ⟨⟨m'.place - 1, by omega⟩, ?_, hlt (by omega : m'.place - 1 < m'.place)⟩
  cases negative with
  | false =>
    have hplaces : m.place < m'.place := unitsAt_strictMono.lt_iff_lt.1 (Int.ofNat_lt.1 h)
    exact Int.ofNat_lt.2 (hlt (by omega : m.place < m'.place - 1))
  | true =>
    have hsigned : signedUnits true m = -(m.units : Int) := rfl
    have hprev : 0 < (⟨m'.place - 1, by omega⟩ : Magnitude).units :=
      hzero ▸ hlt (by omega : 0 < m'.place - 1)
    rw [hsigned]
    omega

/-- The middle between two numbers is nearer to what lies between them. -/
theorem abs_sub_lt_of_between {p r t : ℚ} (hsame : |q - p| = |q - r|) (hlow : p < t)
    (hhigh : t < r) : |q - t| < |q - p| := by
  have hmiddle : q - p = r - q := by
    rcases abs_eq_abs.1 hsame with h | h
    · linarith
    · linarith
  rw [abs_of_pos (by linarith : 0 < q - p), abs_lt]
  exact ⟨by linarith, by linarith⟩

/-- Of two values that are as near both are even, so that one between them
would be nearer. -/
theorem units_le_of_isNearest (hpos : 0 < m'.units) (hx : IsNearest (.finite negative m) q)
    (hy : IsNearest (.finite false m') q) : (m'.units : Int) ≤ signedUnits negative m := by
  have hcast {s t : Int} (h : s < t) : (s : ℚ) / unitsPerOne < t / unitsPerOne :=
    (div_lt_div_iff_of_pos_right cast_unitsPerOne_pos).2 (Int.cast_lt.2 h)
  have hp := toRat?_finite negative m
  have hr := toRat?_finite false m'
  have hsame := le_antisymm (hx.abs_sub_le hp hr) (hy.abs_sub_le hr hp)
  by_contra hle
  have hlt : signedUnits negative m < signedUnits false m' := not_le.1 hle
  obtain ⟨t, hlow, hhigh⟩ := exists_units_between (hx.place_even hr hsame (hcast hlt).ne')
    (hy.place_even hp hsame.symm (hcast hlt).ne) hpos hlt
  have hnearer := abs_sub_lt_of_between hsame (hcast hlow) (hcast (Int.ofNat_lt.2 hhigh))
  exact absurd (hx.abs_sub_le hp (toRat?_finite false t)) (not_le.2 hnearer)

theorem signedUnits_le_of_isNearest (hx : IsNearest (.finite negative m) q)
    (hy : IsNearest (.finite negative' m') q) :
    signedUnits negative' m' ≤ signedUnits negative m := by
  by_contra hle
  rcases lt_or_ge 0 (signedUnits negative' m') with hpos | hneg
  · cases negative' with
    | false => exact hle (units_le_of_isNearest (Int.ofNat_lt.1 hpos) hx hy)
    | true =>
      have hsigned : signedUnits true m' = -(m'.units : Int) := rfl
      omega
  · -- below zero the two are seen from the other side
    cases negative with
    | false =>
      have hsigned : signedUnits false m = (m.units : Int) := rfl
      omega
    | true =>
      have hsigned : signedUnits true m = -(m.units : Int) := rfl
      have hunits := units_le_of_isNearest (by omega : 0 < m.units) hy.neg hx.neg
      rw [signedUnits_not] at hunits
      omega

end

/-- **A rational rounds to one value**, with either sign if that is zero. -/
theorem IsNearest.value_unique {x y : Flonum} {q : ℚ} (hx : x.IsNearest q) (hy : y.IsNearest q) :
    x.value? = y.value? := by
  cases x with
  | nan => cases hx
  | finite negative m =>
    have hend := hx.lt_roundingEnd (toRat?_finite negative m)
    cases y with
    | nan => cases hy
    | finite negative' m' =>
      rw [value?, value?, le_antisymm (signedUnits_le_of_isNearest hy hx)
        (signedUnits_le_of_isNearest hx hy)]
    | infinite negative' =>
      obtain ⟨p, hp⟩ := hy.exists_toRat? hend
      cases hp
  | infinite negative =>
    cases y with
    | nan => cases hy
    | finite negative' m' =>
      obtain ⟨p, hp⟩ := hx.exists_toRat? (hy.lt_roundingEnd (toRat?_finite negative' m'))
      cases hp
    | infinite negative' =>
      have hsign := (hx.isZero_or_isNegative_iff.resolve_left Bool.false_ne_true).2
      have hsign' := (hy.isZero_or_isNegative_iff.resolve_left Bool.false_ne_true).2
      have hsame : negative = negative' := Bool.eq_iff_iff.2 (hsign.trans hsign'.symm)
      rw [hsame]

/-- **With its sign bit it rounds to one double.** -/
theorem IsNearest.eq_of_signBit_eq {x y : Flonum} {q : ℚ} (hx : x.IsNearest q)
    (hy : y.IsNearest q) (hsign : x.signBit = y.signBit) : x = y := by
  have hvalue := hx.value_unique hy
  have hfinite := hx.isFinite_iff.trans hy.isFinite_iff.symm
  cases x with
  | nan => cases hx
  | infinite negative =>
    cases y with
    | nan => cases hy
    | infinite negative' =>
      obtain rfl : negative = negative' := hsign
      rfl
    | finite negative' m' => cases hfinite.2 rfl
  | finite negative m =>
    cases y with
    | nan => cases hy
    | infinite negative' => cases hfinite.1 rfl
    | finite negative' m' =>
      obtain rfl : negative = negative' := hsign
      rw [value?, value?, Option.some_inj, Extended.ofUnits_strictMono.injective.eq_iff] at hvalue
      have hunits := congrArg Int.natAbs hvalue
      rw [natAbs_signedUnits, natAbs_signedUnits] at hunits
      obtain ⟨place, hplace⟩ := m
      obtain ⟨place', hplace'⟩ := m'
      obtain rfl : place = place' := unitsAt_strictMono.injective hunits
      rfl

/-! ## Rounding keeps the order -/

/-- A rational at least as near to the greater of two values as to the smaller
one lies at or above the middle between them. -/
theorem middle_le_of_abs_sub_le {q p r : ℚ} (h : r < p) (hle : |q - p| ≤ |q - r|) :
    p + r ≤ 2 * q := by
  rcases abs_cases (q - p) with ⟨hp, hsign⟩ | ⟨hp, hsign⟩ <;>
    rcases abs_cases (q - r) with ⟨hr, hsign'⟩ | ⟨hr, hsign'⟩ <;> linarith

namespace IsNearest

variable {x y : Flonum} {p q : ℚ}

/-- Exactly the rationals past an end of the range round to its infinity. -/
theorem eq_infinite_iff {negative : Bool} (hx : x.IsNearest q) :
    x = .infinite negative ↔ roundingEnd ≤ if negative then -q else q := by
  constructor
  · rintro rfl
    cases hx with
    | infinite pastEnd => exact pastEnd
  · intro h
    cases hx with
    | finite value inRange => exact absurd inRange (not_lt.2 (le_abs_of_pastEnd h))
    | @infinite negative' _ pastEnd =>
      -- nothing is past both ends
      have hpos := roundingEnd_pos
      cases negative with
      | false =>
        cases negative' with
        | false => rfl
        | true =>
          rw [if_neg Bool.false_ne_true] at h
          rw [if_pos rfl] at pastEnd
          linarith
      | true =>
        cases negative' with
        | false =>
          rw [if_pos rfl] at h
          rw [if_neg Bool.false_ne_true] at pastEnd
          linarith
        | true => rfl

/-- Of two finite values, were the smaller rational rounded to the greater one,
each rational would lie on the far side of the middle between them. -/
theorem toRat_le {r s : ℚ} (hx : x.IsNearest p) (hy : y.IsNearest q) (h : p < q)
    (hr : x.toRat? = some r) (hs : y.toRat? = some s) : r ≤ s := by
  by_contra hle
  have hlow : r + s ≤ 2 * p := middle_le_of_abs_sub_le (not_le.1 hle) (hx.abs_sub_le hr hs)
  have hhigh : -s + -r ≤ 2 * -q :=
    middle_le_of_abs_sub_le (neg_lt_neg (not_le.1 hle))
      (hy.neg.abs_sub_le (toRat?_neg hs) (toRat?_neg hr))
  linarith

/-- **Rounding is monotone**, the infinities included. -/
theorem value_le {u v : Extended} (hx : x.IsNearest p) (hy : y.IsNearest q) (h : p ≤ q)
    (hu : x.value? = some u) (hv : y.value? = some v) : u ≤ v := by
  rcases h.eq_or_lt with rfl | hlt
  · have hsame := hx.value_unique hy
    rw [hu, hv, Option.some_inj] at hsame
    exact hsame.le
  by_cases hbot : x = .infinite true
  · subst hbot
    exact Option.some.inj hu ▸ bot_le
  by_cases htop : y = .infinite false
  · subst htop
    exact Option.some.inj hv ▸ le_top
  -- both are finite then: an infinity at the other end would take the other one along
  rw [hx.eq_infinite_iff, if_pos rfl, not_le] at hbot
  rw [hy.eq_infinite_iff, if_neg Bool.false_ne_true, not_le] at htop
  obtain ⟨r, hr⟩ := hx.exists_toRat? (abs_lt.2 ⟨by linarith, by linarith⟩)
  obtain ⟨s, hs⟩ := hy.exists_toRat? (abs_lt.2 ⟨by linarith, by linarith⟩)
  obtain rfl := Option.some.inj (hu.symm.trans (value?_of_toRat? hr))
  obtain rfl := Option.some.inj (hv.symm.trans (value?_of_toRat? hs))
  exact Extended.ofRat_strictMono.monotone (hx.toRat_le hy hlt hr hs)

end IsNearest

end NumericTower.Flonum
