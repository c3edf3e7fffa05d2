import NumericTower.Proofs.Flonum.Exact
/-!
# One half more

Rounding to the nearest integer, halves away from zero, takes the whole part
of a magnitude and one half. Their sum is a flonum sum, so it may be rounded
up to an integer that it does not reach.
-/

namespace NumericTower

namespace Flonum

/-! ## Between two whole numbers -/

/-- A run is of even length, so parity is that of the step. -/
theorem mul_runLength_mod_two (e : Nat) : e * runLength % 2 = 0 :=
  Nat.mod_eq_zero_of_dvd (Dvd.dvd.mul_left (by decide) e)

/-- Below a step of a run, other than its first, there is nothing above the
step before it. -/
theorem unitsAt_le_pred {i q e : Nat} (low : runLength < q) (high : q ≤ 2 * runLength)
    (h : unitsAt i < q * 2 ^ e) : unitsAt i ≤ (q - 1) * 2 ^ e := by
  rw [← unitsAt_run_mul low.le high, unitsAt_strictMono.lt_iff_lt] at h
  rw [← unitsAt_run_mul (by omega) (by omega)]
  exact unitsAt_strictMono.monotone (by omega)

/-- **A sum keeps its whole part** if a double lies between it and the next
whole number. -/
theorem wholePart_nearestPlace {num whole j : Nat} (hwhole : whole < 2 * runLength)
    (hlow : whole * unitsPerOne ≤ num) (hhigh : num ≤ unitsAt j)
    (hj : unitsAt j < (whole + 1) * unitsPerOne) :
    unitsAt (nearestPlace num 1) / unitsPerOne = whole := by
  obtain ⟨i, hi⟩ := exists_place_of_whole hwhole
  have hbelow : i ≤ nearestPlace num 1 := le_nearestPlace Nat.one_pos (by omega)
  have habove : nearestPlace num 1 ≤ j := nearestPlace_le Nat.one_pos (by omega)
  have h1 : unitsAt i ≤ unitsAt (nearestPlace num 1) := unitsAt_strictMono.monotone hbelow
  have h2 : unitsAt (nearestPlace num 1) ≤ unitsAt j := unitsAt_strictMono.monotone habove
  exact Nat.div_eq_of_lt_le (by omega) (by omega)

/-! ## The sum -/

section

variable {i halfUnits : Nat}

/-- The last doubles before one half are `2^p` units apart, and there are
`2^53` such steps in one half. -/
theorem exists_spacing (hhalf : 2 * halfUnits = unitsPerOne) :
    ∃ p, unitExponent = p + 54 ∧ halfUnits = 9007199254740992 * 2 ^ p := by
  obtain ⟨p, hp⟩ : ∃ p, unitExponent = p + 54 :=
    ⟨unitExponent - 54, by unfold unitExponent; decide⟩
  have hone : unitsPerOne = 18014398509481984 * 2 ^ p := by
    rw [unitsPerOne_eq, hp, pow_add, Nat.mul_comm]
    rfl
  exact ⟨p, hp, by omega⟩

/-- One half adds nothing to the whole part of a whole number. -/
theorem whole_add_half_div (hhalf : 2 * halfUnits = unitsPerOne) (whole : Nat) :
    (whole * unitsPerOne + halfUnits) / unitsPerOne = whole := by
  have hpos := unitsPerOne_pos
  rw [Nat.add_comm, Nat.add_mul_div_right _ _ hpos, Nat.div_eq_of_lt (by omega), Nat.zero_add]

/-- Below one half, a sum with one half is at most the greatest double below
one, unless the summand is the greatest one below one half. -/
theorem exists_between_of_lt_half (hhalf : 2 * halfUnits = unitsPerOne) (h : unitsAt i < halfUnits)
    (hne : unitsAt i + 2 ^ (unitExponent - 54) ≠ halfUnits) :
    ∃ j, unitsAt i + halfUnits ≤ unitsAt j ∧ unitsAt j < unitsPerOne := by
  obtain ⟨p, hp, hunits⟩ := exists_spacing hhalf
  rw [hp, Nat.add_sub_cancel] at hne
  -- one half is at the end of the run with the spacing `2^p`
  have hlast : unitsAt i ≤ 9007199254740991 * 2 ^ p :=
    unitsAt_le_pred (q := 9007199254740992) (by decide) (by decide) (by omega)
  have hless : unitsAt i ≤ 9007199254740990 * 2 ^ p :=
    unitsAt_le_pred (q := 9007199254740991) (by decide) (by decide) (by omega)
  have hj := unitsAt_run_mul (q := 9007199254740991) (by decide) (by decide) (p + 1)
  rw [Nat.pow_succ'] at hj
  exact ⟨_, by rw [hj]; omega, by rw [hj]; omega⟩

/-- The run of a whole number that has fractions after it: it goes on to the
next whole number, and `2^s` of its steps of `2^e` units make one half. -/
theorem exists_run_of_whole (hhalf : 2 * halfUnits = unitsPerOne) {whole : Nat}
    (hpos : whole ≠ 0) (hwhole : whole < runLength) :
    ∃ s e, halfUnits = 2 ^ s * 2 ^ e ∧ runLength < (2 * whole + 1) * 2 ^ s ∧
      (2 * whole + 1) * 2 ^ s + 2 ^ s ≤ 2 * runLength := by
  have hlog : whole.log2 < 52 := (Nat.log2_lt hpos).2 hwhole
  have hlow : 2 ^ whole.log2 ≤ whole := Nat.log2_self_le hpos
  have hhigh : whole < 2 ^ (whole.log2 + 1) := Nat.lt_log2_self
  obtain ⟨s, hs⟩ : ∃ s, whole.log2 + s = 51 := ⟨51 - whole.log2, by omega⟩
  obtain ⟨p, -, hunits⟩ := exists_spacing hhalf
  generalize whole.log2 = k at *
  have hrun : runLength = 2 ^ (k + 1) * 2 ^ s := by
    rw [← pow_add, show k + 1 + s = 52 by omega]
    rfl
  refine ⟨s, p + 53 - s, ?_, ?_, ?_⟩
  · rw [← pow_add, show s + (p + 53 - s) = 53 + p by omega, pow_add, hunits]
    rfl
  · rw [hrun, pow_succ]
    exact Nat.mul_lt_mul_of_pos_right (by omega) (Nat.two_pow_pos s)
  · calc (2 * whole + 1) * 2 ^ s + 2 ^ s = (2 * (whole + 1)) * 2 ^ s := by ring
      _ ≤ (2 * 2 ^ (k + 1)) * 2 ^ s := Nat.mul_le_mul_right _ (by omega)
      _ = 2 * runLength := by rw [hrun, Nat.mul_assoc]

/-- From one half on as long as fractions are halves at least: a sum with one
half is at most the last double before the next whole number, as both the
summand and that double are on the run of the whole part. -/
theorem exists_between_of_whole (hhalf : 2 * halfUnits = unitsPerOne) {whole : Nat}
    (hpos : whole ≠ 0) (hwhole : whole < runLength)
    (h : unitsAt i + halfUnits < (whole + 1) * unitsPerOne) :
    ∃ j, unitsAt i + halfUnits ≤ unitsAt j ∧ unitsAt j < (whole + 1) * unitsPerOne := by
  obtain ⟨s, e, he, hfirst, hlast⟩ := exists_run_of_whole hhalf hpos hwhole
  have hsteps := Nat.two_pow_pos s
  have hnext : (whole + 1) * unitsPerOne =
      ((2 * whole + 1) * 2 ^ s + 2 ^ s) * 2 ^ e := by
    rw [← hhalf, he]
    ring
  have hsummand : unitsAt i ≤ ((2 * whole + 1) * 2 ^ s - 1) * 2 ^ e := by
    refine unitsAt_le_pred hfirst (by omega) ?_
    rw [hnext, he, Nat.add_mul] at h
    omega
  refine ⟨(2 * whole + 1) * 2 ^ s - 1 + 2 ^ s + e * runLength, ?_, ?_⟩
  · rw [unitsAt_run_mul (by omega) (by omega), Nat.add_mul, he]
    omega
  · rw [unitsAt_run_mul (by omega) (by omega), hnext]
    exact Nat.mul_lt_mul_of_pos_right (by omega) (Nat.two_pow_pos e)

/-- **Below `2^52` the sum keeps its whole part**, but for one summand. -/
theorem wholePart_add_half_of_lt (hhalf : 2 * halfUnits = unitsPerOne)
    (h : unitsAt i < runLength * unitsPerOne)
    (hne : unitsAt i + 2 ^ (unitExponent - 54) ≠ halfUnits) :
    unitsAt (nearestPlace (unitsAt i + halfUnits) 1) / unitsPerOne =
      (unitsAt i + halfUnits) / unitsPerOne := by
  have hpos := unitsPerOne_pos
  obtain ⟨whole, hdiv⟩ : ∃ whole, (unitsAt i + halfUnits) / unitsPerOne = whole := ⟨_, rfl⟩
  have hlow : whole * unitsPerOne ≤ unitsAt i + halfUnits :=
    (Nat.le_div_iff_mul_le hpos).1 hdiv.ge
  have hhigh : unitsAt i + halfUnits < (whole + 1) * unitsPerOne :=
    (Nat.div_lt_iff_lt_mul hpos).1 (by omega)
  have hmost : whole < runLength + 1 := by
    refine lt_of_mul_lt_mul_right (a := unitsPerOne) ?_ (Nat.zero_le _)
    rw [Nat.add_mul]
    omega
  have hrun : runLength + 1 < 2 * runLength := by decide
  rw [hdiv]
  rcases (by omega : whole = 0 ∨ (whole ≠ 0 ∧ whole < runLength) ∨ whole = runLength) with
    rfl | ⟨hne0, hlt⟩ | rfl
  · obtain ⟨j, hj, hj'⟩ := exists_between_of_lt_half hhalf (by omega) hne
    exact wholePart_nearestPlace (by omega) hlow hj (by omega)
  · obtain ⟨j, hj, hj'⟩ := exists_between_of_whole hhalf hne0 hlt hhigh
    exact wholePart_nearestPlace (by omega) hlow hj hj'
  · -- a half is the last fraction, and the sum is `2^52`
    obtain ⟨p, -, hunits⟩ := exists_spacing hhalf
    have hspacing : halfUnits = 2 ^ (p + 53) := by
      rw [hunits, pow_add, Nat.mul_comm]
      rfl
    have hends : runLength * unitsPerOne = 9007199254740992 * 2 ^ (p + 53) := by
      rw [← hhalf, hspacing, ← Nat.mul_assoc]
      rfl
    obtain ⟨j, hj⟩ := exists_place_of_whole (by omega : runLength < 2 * runLength)
    have hlast : unitsAt i ≤ 9007199254740991 * 2 ^ (p + 53) :=
      unitsAt_le_pred (q := 9007199254740992) (by decide) (by decide) (by omega)
    refine wholePart_nearestPlace (by omega) hlow (by omega : _ ≤ unitsAt j) ?_
    rw [hj, Nat.add_mul]
    omega

/-- The one summand: halfway between the last double before one and one, the
sum is rounded to one. -/
theorem wholePart_add_half_of_last (hhalf : 2 * halfUnits = unitsPerOne)
    (h : unitsAt i + 2 ^ (unitExponent - 54) = halfUnits) :
    unitsAt (nearestPlace (unitsAt i + halfUnits) 1) / unitsPerOne = 1 := by
  obtain ⟨p, hp, hunits⟩ := exists_spacing hhalf
  have hspacing := Nat.two_pow_pos p
  rw [hp, Nat.add_sub_cancel] at h
  have hj := unitsAt_run_mul (q := 9007199254740992) (by decide) (by decide) (p + 1)
  have hprev := unitsAt_run_mul (q := 9007199254740991) (by decide) (by decide) (p + 1)
  rw [Nat.pow_succ'] at hj hprev
  have hround : RoundsTo (unitsAt i + halfUnits) 1 (9007199254740992 + (p + 1) * runLength) := by
    have hsub : 9007199254740992 + (p + 1) * runLength - 1 =
        9007199254740991 + (p + 1) * runLength := by omega
    have hnext := unitsAt_lt_succ (9007199254740992 + (p + 1) * runLength)
    have heven : (9007199254740992 + (p + 1) * runLength) % 2 = 0 := by
      have := mul_runLength_mod_two (p + 1)
      omega
    rw [RoundsTo, if_pos heven, hsub, hprev, hj]
    omega
  rw [(nearestPlace_eq_iff Nat.one_pos).2 hround, hj]
  exact Nat.div_eq_of_lt_le (by omega) (by omega)

/-- **Where doubles are one apart**, half of them are rounded up: the sum is
halfway to the next one, and goes to the even one. -/
theorem wholePart_add_half_of_whole (hhalf : 2 * halfUnits = unitsPerOne) {c : Nat}
    (low : runLength ≤ c) (high : c < 2 * runLength) :
    unitsAt (nearestPlace (c * unitsPerOne + halfUnits) 1) / unitsPerOne = c + c % 2 := by
  have hpos := unitsPerOne_pos
  obtain ⟨e, he⟩ : ∃ e, unitsPerOne = 2 ^ e := ⟨_, unitsPerOne_eq⟩
  have hunits {q : Nat} (hlow : runLength ≤ q) (hhigh : q ≤ 2 * runLength) :
      unitsAt (q + e * runLength) = q * unitsPerOne := by
    rw [unitsAt_run_mul hlow hhigh, he]
  have hround : RoundsTo (c * unitsPerOne + halfUnits) 1
      (c + c % 2 + e * runLength) := by
    have heven : (c + c % 2 + e * runLength) % 2 = 0 := by
      have := mul_runLength_mod_two e
      omega
    have hself := hunits low high.le
    have hnext := hunits (q := c + 1) (by omega) high
    have hlt := unitsAt_lt_succ (c + c % 2 + e * runLength)
    rw [Nat.add_mul] at hnext
    rw [RoundsTo, if_pos heven]
    rcases Nat.mod_two_eq_zero_or_one c with hc | hc
    · rw [hc, Nat.add_zero] at hlt ⊢
      have hprev : unitsAt (c + e * runLength - 1) ≤
          unitsAt (c + e * runLength) := unitsAt_strictMono.monotone (by omega)
      rw [show c + e * runLength + 1 = c + 1 + e * runLength by omega]
      omega
    · rw [hc] at hlt ⊢
      rw [show c + 1 + e * runLength - 1 = c + e * runLength by omega]
      omega
  have hself : unitsAt (c + c % 2 + e * runLength) = (c + c % 2) * unitsPerOne :=
    hunits (by omega) (by omega)
  rw [(nearestPlace_eq_iff Nat.one_pos).2 hround, hself, Nat.mul_div_cancel _ hpos]

/-- From `2^53` on steps are even numbers of ones. -/
theorem exists_spacing_of_le {q e : Nat} (low : runLength ≤ q) (high : q < 2 * runLength)
    (h : 2 * runLength * unitsPerOne ≤ unitsAt (q + e * runLength)) :
    ∃ d, 0 < d ∧ 2 ^ e = 2 * d * unitsPerOne := by
  have he : unitExponent < e := by
    by_contra hle
    have hspacing : 2 ^ e ≤ unitsPerOne := by
      rw [unitsPerOne_eq]
      exact Nat.pow_le_pow_right (by decide) (by omega)
    have hlt : q * 2 ^ e < 2 * runLength * unitsPerOne :=
      Nat.mul_lt_mul_of_lt_of_le high hspacing unitsPerOne_pos
    rw [unitsAt_run_mul low high.le] at h
    omega
  obtain ⟨d, hd⟩ : ∃ d, e = unitExponent + 1 + d := ⟨e - unitExponent - 1, by omega⟩
  refine ⟨2 ^ d, Nat.two_pow_pos d, ?_⟩
  rw [hd, pow_add, pow_add, unitsPerOne_eq, pow_one]
  ring

/-- **Past `2^53` one half is lost**: doubles are whole, and two apart at
least. -/
theorem wholePart_add_half_of_le (hhalf : 2 * halfUnits = unitsPerOne)
    (h : 2 * runLength * unitsPerOne ≤ unitsAt i) :
    nearestPlace (unitsAt i + halfUnits) 1 = i ∧
      unitsAt i / unitsPerOne = (unitsAt i + halfUnits) / unitsPerOne := by
  have hpos := unitsPerOne_pos
  rcases place_cases i with hi | ⟨q, e, low, high, rfl⟩
  · have hsmall : unitsAt i = i := if_pos (by omega)
    have hmost : 2 * runLength ≤ 2 * runLength * unitsPerOne := Nat.le_mul_of_pos_right _ hpos
    omega
  obtain ⟨d, hd, hspacing⟩ := exists_spacing_of_le low high h
  have hunits := unitsAt_run_mul low high.le e
  constructor
  · have hnext := unitsAt_run_mul (q := q + 1) (by omega) high e
    have hprev : unitsAt (q + e * runLength - 1) ≤ q * 2 ^ e := by
      rw [← hunits]
      exact unitsAt_strictMono.monotone (by omega)
    have hwide : 2 * unitsPerOne ≤ 2 ^ e := by
      rw [hspacing]
      exact Nat.mul_le_mul_right _ (by omega)
    rw [nearestPlace_eq_iff Nat.one_pos, RoundsTo,
      show q + e * runLength + 1 = q + 1 + e * runLength by omega, hnext, hunits, Nat.add_mul q]
    split <;> omega
  · rw [hunits, hspacing, ← Nat.mul_assoc, Nat.mul_div_cancel _ hpos, whole_add_half_div hhalf]

end

/-- One half is a double. -/
theorem exists_half :
    ∃ m : Magnitude, 2 * m.units = unitsPerOne ∧ half = .finite false m := by
  obtain ⟨p, hp⟩ : ∃ p, unitExponent = p + 1 :=
    ⟨unitExponent - 1, by unfold unitExponent; decide⟩
  have hone : unitsPerOne = 2 * 2 ^ p := by rw [unitsPerOne_eq, hp, pow_succ']
  obtain ⟨j, hj⟩ := exists_place_shiftLeft p 1 (by decide)
  rw [Nat.shiftLeft_eq, Nat.one_mul] at hj
  obtain ⟨top, htop, hend⟩ := exists_place_wordEnd
  have hspacing := Nat.two_pow_pos p
  have hplace : j < placeCount :=
    (unitsAt_strictMono.lt_iff_lt.1 (by omega : unitsAt j < unitsAt top)).trans htop
  refine ⟨⟨j, hplace⟩, by rw [Magnitude.units, hj, hone], ?_⟩
  rw [half, ofFraction, ← nearest_units false ⟨j, hplace⟩ Nat.two_pos]
  congr 1
  rw [Magnitude.units, hj, hone]
  omega

end Flonum

namespace Magnitude

open Flonum

/-! ## The nearest whole number -/

/-- The whole number nearest to a magnitude, upward if there are two. -/
def nearestWhole (m : Magnitude) : Nat := (2 * m.units + unitsPerOne) / (2 * unitsPerOne)

/-- The magnitudes whose sum with one half is rounded up to a whole number
that it does not reach: the last one before one half, and the odd ones where
doubles are one apart. -/
def Overshoots (m : Magnitude) : Prop :=
  2 * (m.units + 2 ^ (unitExponent - 54)) = unitsPerOne ∨
    ∃ c, runLength ≤ c ∧ c < 2 * runLength ∧ c % 2 = 1 ∧ m.units = c * unitsPerOne

variable {m : Magnitude} {halfUnits : Nat}

theorem nearestWhole_eq (hhalf : 2 * halfUnits = unitsPerOne) :
    m.nearestWhole = (m.units + halfUnits) / unitsPerOne := by
  rw [nearestWhole, ← hhalf, ← Nat.mul_add, Nat.mul_div_mul_left _ _ Nat.two_pos]

theorem nearestWhole_of_units_eq_zero (h : m.units = 0) : m.nearestWhole = 0 := by
  have hpos := unitsPerOne_pos
  rw [nearestWhole, h]
  exact Nat.div_eq_of_lt (by omega)

theorem not_overshoots_of_units_eq_zero (h : m.units = 0) : ¬m.Overshoots := by
  obtain ⟨half, hhalf, -⟩ := exists_half
  obtain ⟨p, hp, hspacing⟩ := exists_spacing hhalf
  have hsteps := Nat.two_pow_pos p
  rintro (hlast | ⟨c, low, -, -, hc⟩)
  · rw [h, hp, Nat.add_sub_cancel] at hlast
    omega
  · have hc' : c ≠ 0 := by
      rintro rfl
      exact absurd low (by decide)
    exact Nat.mul_ne_zero hc' unitsPerOne_pos.ne' (hc.symm.trans h)

/-- **The whole part of the sum is the nearest whole number**, by the three
stretches of magnitudes: with fractions, one apart, further apart. -/
theorem wholePart_of_not_overshoots (hhalf : 2 * halfUnits = unitsPerOne)
    (h : ¬m.Overshoots) :
    unitsAt (nearestPlace (m.units + halfUnits) 1) / unitsPerOne = m.nearestWhole := by
  obtain ⟨hlast, hodd⟩ := not_or.1 h
  rw [nearestWhole_eq hhalf]
  rcases Nat.lt_or_ge m.units (runLength * unitsPerOne) with hlt | hge
  · refine wholePart_add_half_of_lt hhalf hlt fun heq => hlast ?_
    rw [Magnitude.units, heq, hhalf]
  rcases Nat.lt_or_ge m.units (2 * runLength * unitsPerOne) with hlt | hge'
  · have hpos := unitsPerOne_pos
    have hwhole : m.units % unitsPerOne = 0 := by
      by_contra hfraction
      exact hge.not_gt (unitsAt_lt_of_mod_ne_zero hfraction)
    obtain ⟨c, hc⟩ := Nat.dvd_of_mod_eq_zero hwhole
    rw [Nat.mul_comm] at hc
    rw [hc] at hlt hge
    have low : runLength ≤ c := Nat.le_of_mul_le_mul_right hge hpos
    have high : c < 2 * runLength := Nat.lt_of_mul_lt_mul_right hlt
    have heven : c % 2 = 0 := by
      by_contra hne
      exact hodd ⟨c, low, high, by omega, hc⟩
    rw [hc, wholePart_add_half_of_whole hhalf low high, heven, whole_add_half_div hhalf,
      Nat.add_zero]
  · obtain ⟨hplace, hdiv⟩ := wholePart_add_half_of_le hhalf hge'
    rw [Magnitude.units, hplace, hdiv]

/-- And one more where the sum is rounded up to it. -/
theorem wholePart_of_overshoots (hhalf : 2 * halfUnits = unitsPerOne) (h : m.Overshoots) :
    unitsAt (nearestPlace (m.units + halfUnits) 1) / unitsPerOne = m.nearestWhole + 1 := by
  rw [nearestWhole_eq hhalf]
  rcases h with hlast | ⟨c, low, high, hodd, hc⟩
  · have hspacing := Nat.two_pow_pos (unitExponent - 54)
    rw [Nat.div_eq_of_lt (by omega : m.units + halfUnits < unitsPerOne)]
    exact wholePart_add_half_of_last hhalf (by rw [← Magnitude.units]; omega)
  · rw [hc, wholePart_add_half_of_whole hhalf low high, hodd, whole_add_half_div hhalf]

end Magnitude

namespace Flonum

/-! ## The operation -/

/-- The sum does not overflow: one half does not reach past the largest
double. -/
theorem nearestPlace_add_half_lt {halfUnits : Nat} (hhalf : 2 * halfUnits = unitsPerOne)
    (m : Magnitude) : nearestPlace (m.units + halfUnits) 1 < placeCount := by
  rcases Nat.lt_or_ge m.units (2 * runLength * unitsPerOne) with hlt | hge
  · obtain ⟨top, htop, hend⟩ := exists_place_wordEnd
    refine (nearestPlace_le Nat.one_pos ?_).trans_lt htop
    have hrun : 2 * runLength = 9007199254740992 := rfl
    rw [hrun] at hlt
    omega
  · rw [Magnitude.units, (wholePart_add_half_of_le hhalf hge).1]
    exact m.place_lt

theorem exists_abs_add_half {h : Magnitude} (hhalf : 2 * h.units = unitsPerOne)
    (heq : half = .finite false h) (negative : Bool) (m : Magnitude) :
    ∃ sum : Magnitude, sum.units = unitsAt (nearestPlace (m.units + h.units) 1) ∧
      (finite negative m).abs.add half = .finite false sum := by
  have hplace := nearestPlace_add_half_lt hhalf m
  refine ⟨⟨_, hplace⟩, by rw [Magnitude.units], ?_⟩
  have hsum : signedUnits false m + signedUnits false h = ((m.units + h.units : Nat) : Int) := by
    simp [signedUnits]
  have hsign : (if ((m.units + h.units : Nat) : Int) = 0 then false && false
      else decide (((m.units + h.units : Nat) : Int) < 0)) = false := by
    split
    · rfl
    · exact decide_eq_false (by omega)
  rw [heq, abs, add, hsum]
  simp only [hsign, Int.natAbs_natCast, nearest, dif_pos hplace]

/-- Above zero, down is toward zero. -/
theorem floor_eq_trunc (m : Magnitude) : floor (.finite false m) = trunc (.finite false m) := rfl

/-- **Halves away from zero**, but for a magnitude that overshoots: it goes
one further. The operand's sign stays. -/
theorem toInt?_roundHalfAway (negative : Bool) (m : Magnitude) :
    ∃ whole : Nat,
      (finite negative m).roundHalfAway.toInt? =
          some (if negative then -(whole : Int) else whole) ∧
        (¬m.Overshoots → whole = m.nearestWhole) ∧
        (m.Overshoots → whole = m.nearestWhole + 1) := by
  obtain ⟨h, hhalf, heq⟩ := exists_half
  obtain ⟨sum, hunits, hsum⟩ := exists_abs_add_half hhalf heq negative m
  obtain ⟨t, ht, htrunc⟩ := exists_trunc_eq false sum
  refine ⟨wholeBelow sum, ?_, ?_, ?_⟩
  · rw [roundHalfAway, hsum, floor_eq_trunc, htrunc, signBit, withSign, toInt?,
      wholeBelow_of_units ht]
  · rw [wholeBelow, hunits]
    exact Magnitude.wholePart_of_not_overshoots hhalf
  · rw [wholeBelow, hunits]
    exact Magnitude.wholePart_of_overshoots hhalf

end Flonum

end NumericTower
