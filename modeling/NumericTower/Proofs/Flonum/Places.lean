import Mathlib
import NumericTower.Flonum.Magnitude
/-!
# Places and their values

The list of finite doubles is strictly ascending (`unitsAt_strictMono`),
and within a run it is `q <<< e` in closed form (`unitsAt_run`). From these
two facts follow what the rest of the theory needs of the format: which
place lies below a count, that `nearestPlace` is the one place that a
fraction rounds to (`nearestPlace_eq_iff`), and that a count of at most
fifty-three bits before its zeros is a value.
-/

namespace NumericTower

/-! ## The ascending list -/

theorem runLength_pos : 0 < runLength := by decide

/-- A run in closed form: `q` steps of `2^e` units. -/
theorem unitsAt_run {q : Nat} (low : runLength ≤ q) (high : q ≤ 2 * runLength) (e : Nat) :
    unitsAt (q + e * runLength) = q <<< e := by
  rcases Nat.lt_or_eq_of_le high with hq | rfl
  · rcases Nat.eq_zero_or_pos e with rfl | he
    · -- the first two runs are spaced alike
      rw [unitsAt, if_pos (by omega)]
      simp
    · have hmul : runLength ≤ e * runLength := Nat.le_mul_of_pos_left _ he
      have hdiv : (q + e * runLength) / runLength = e + 1 := by
        rw [Nat.add_mul_div_right _ _ runLength_pos, Nat.div_eq_of_lt_le (k := 1)] <;> omega
      have hmod : (q + e * runLength) % runLength = q - runLength := by
        rw [Nat.add_mul_mod_self_right, Nat.mod_eq_sub_mod low, Nat.mod_eq_of_lt (by omega)]
      rw [unitsAt, if_neg (by omega), hdiv, hmod, Nat.add_sub_of_le low,
        show e + 1 - 1 = e from rfl]
  · -- the end of a run is the start of the next, which is spaced twice as wide
    have hsum : 2 * runLength + e * runLength = (e + 2) * runLength := by ring
    have hdiv : (e + 2) * runLength / runLength = e + 2 := Nat.mul_div_cancel _ runLength_pos
    have hmod : (e + 2) * runLength % runLength = 0 := Nat.mul_mod_left _ _
    have hge : 2 * runLength ≤ (e + 2) * runLength := Nat.mul_le_mul_right _ (by omega)
    rw [hsum, unitsAt, if_neg (by omega), hdiv, hmod, Nat.shiftLeft_eq, Nat.shiftLeft_eq,
      show e + 2 - 1 = e + 1 from rfl, pow_succ]
    ring

/-- A step of a run, as a product. -/
theorem unitsAt_run_mul {q : Nat} (low : runLength ≤ q) (high : q ≤ 2 * runLength) (e : Nat) :
    unitsAt (q + e * runLength) = q * 2 ^ e := by
  rw [unitsAt_run low high, Nat.shiftLeft_eq]

/-- Every place is below the first run or on one. -/
theorem place_cases (i : Nat) :
    i < runLength ∨ ∃ q e, runLength ≤ q ∧ q < 2 * runLength ∧ i = q + e * runLength := by
  rcases Nat.lt_or_ge i runLength with hi | hi
  · exact .inl hi
  · have hdiv : 1 ≤ i / runLength := (Nat.one_le_div_iff runLength_pos).2 hi
    have hmod := Nat.mod_lt i runLength_pos
    refine .inr ⟨runLength + i % runLength, i / runLength - 1, by omega, by omega, ?_⟩
    have hsplit := Nat.mod_add_div i runLength
    obtain ⟨d, hd⟩ : ∃ d, i / runLength = d + 1 := ⟨i / runLength - 1, by omega⟩
    rw [hd, Nat.mul_comm] at hsplit
    rw [hd, Nat.add_sub_cancel]
    linarith

/-- One step is one more in a run's own spacing, past its end as well. -/
theorem unitsAt_lt_succ (i : Nat) : unitsAt i < unitsAt (i + 1) := by
  rcases place_cases i with hi | ⟨q, e, low, high, rfl⟩
  · rw [unitsAt, unitsAt, if_pos (by omega), if_pos (by omega)]
    exact i.lt_succ_self
  · rw [show q + e * runLength + 1 = (q + 1) + e * runLength by omega,
      unitsAt_run low high.le, unitsAt_run (by omega) (by omega), Nat.shiftLeft_eq,
      Nat.shiftLeft_eq]
    exact Nat.mul_lt_mul_of_pos_right q.lt_succ_self (by positivity)

/-- **Places are in the order of their values.** -/
theorem unitsAt_strictMono : StrictMono unitsAt := strictMono_nat_of_lt_succ unitsAt_lt_succ

/-- A count with its bits past the fifty-third cut off. -/
theorem shiftRight_excess_bounds (whole : Nat) (h : runLength ≤ whole) :
    runLength ≤ whole >>> (whole.log2 - 52) ∧ whole >>> (whole.log2 - 52) < 2 * runLength := by
  have hne : whole ≠ 0 := by have := runLength_pos; omega
  have hlog : 52 ≤ whole.log2 := (Nat.le_log2 hne).2 h
  have hlow := Nat.log2_self_le hne
  have hhigh := Nat.lt_log2_self (n := whole)
  obtain ⟨e, he⟩ : ∃ e, whole.log2 = 52 + e := ⟨whole.log2 - 52, by omega⟩
  have hrun : runLength = 2 ^ 52 := rfl
  rw [he, show 52 + e - 52 = e by omega, Nat.shiftRight_eq_div_pow, hrun]
  rw [he] at hlow hhigh
  constructor
  · rw [Nat.le_div_iff_mul_le (by positivity), ← pow_add]
    exact hlow
  · rw [Nat.div_lt_iff_lt_mul (by positivity), ← pow_succ', ← pow_add]
    rwa [show 52 + 1 + e = 52 + e + 1 by omega]

/-- **The place below a count** is the last one whose value is at most it. -/
theorem unitsAt_placeBelow (whole : Nat) :
    unitsAt (placeBelow whole) ≤ whole ∧ whole < unitsAt (placeBelow whole + 1) := by
  rcases Nat.lt_or_ge whole runLength with h | h
  · -- nothing is cut off
    have hlog : whole.log2 - 52 = 0 := by
      rcases Nat.eq_zero_or_pos whole with rfl | hpos
      · rfl
      · have := (Nat.log2_lt (by omega : whole ≠ 0)).2 (show whole < 2 ^ 52 from h)
        omega
    have hplace : placeBelow whole = whole := by simp [placeBelow, hlog]
    rw [hplace, unitsAt, unitsAt, if_pos (by omega), if_pos (by omega)]
    omega
  · obtain ⟨low, high⟩ := shiftRight_excess_bounds whole h
    have hplace : placeBelow whole =
        whole >>> (whole.log2 - 52) + (whole.log2 - 52) * runLength := rfl
    generalize whole.log2 - 52 = e at low high hplace
    -- what is cut off is less than one step of the run
    have hsplit := Nat.div_add_mod whole (2 ^ e)
    have hmod := Nat.mod_lt whole (show 2 ^ e > 0 by positivity)
    rw [hplace, Nat.add_right_comm, unitsAt_run low high.le, unitsAt_run (by omega) (by omega),
      Nat.shiftLeft_eq, Nat.shiftLeft_eq, Nat.shiftRight_eq_div_pow, Nat.mul_comm,
      Nat.mul_comm (_ + 1), Nat.mul_add]
    omega

/-! ## Rounding -/

/-- Whether `num / den` units round to place `i`: they lie between the
midpoints to the neighbouring places, on one of them only if `i` is
even. -/
def RoundsTo (num den i : Nat) : Prop :=
  if i % 2 = 0 then
    (unitsAt (i - 1) + unitsAt i) * den ≤ 2 * num ∧ 2 * num ≤ (unitsAt i + unitsAt (i + 1)) * den
  else
    (unitsAt (i - 1) + unitsAt i) * den < 2 * num ∧ 2 * num < (unitsAt i + unitsAt (i + 1)) * den

theorem RoundsTo.le {num den i : Nat} (h : RoundsTo num den i) :
    (unitsAt (i - 1) + unitsAt i) * den ≤ 2 * num ∧
      2 * num ≤ (unitsAt i + unitsAt (i + 1)) * den := by
  rw [RoundsTo] at h
  split at h <;> omega

/-- Only an even place is rounded to from both of its midpoints. -/
theorem RoundsTo.even {num den i : Nat} (h : RoundsTo num den i)
    (hmid : 2 * num = (unitsAt (i - 1) + unitsAt i) * den ∨
      2 * num = (unitsAt i + unitsAt (i + 1)) * den) : i % 2 = 0 := by
  rw [RoundsTo] at h
  split at h <;> omega

/-- Two places never share a value. -/
theorem RoundsTo.le_of_roundsTo {num den i j : Nat} (hden : 0 < den) (hi : RoundsTo num den i)
    (hj : RoundsTo num den j) : j ≤ i := by
  by_contra hij
  have hij' : i + 1 ≤ j := by omega
  have h1 : unitsAt i ≤ unitsAt (j - 1) := unitsAt_strictMono.monotone (by omega)
  have h2 : unitsAt (i + 1) ≤ unitsAt j := unitsAt_strictMono.monotone hij'
  have hmid : (unitsAt i + unitsAt (i + 1)) * den ≤ (unitsAt (j - 1) + unitsAt j) * den :=
    Nat.mul_le_mul_right den (by omega)
  have hhigh := hi.le.2
  have hlow := hj.le.1
  -- the two intervals meet in one point, which is a midpoint of both
  have hi0 := hi.even (.inr (by omega))
  have hj0 := hj.even (.inl (by omega))
  have hsame : unitsAt i + unitsAt (i + 1) = unitsAt (j - 1) + unitsAt j :=
    Nat.eq_of_mul_eq_mul_right hden (by omega)
  have : j = i + 1 := unitsAt_strictMono.injective (by omega)
  omega

/-- **Rounding finds the place.** -/
theorem roundsTo_nearestPlace {num den : Nat} (hden : 0 < den) :
    RoundsTo num den (nearestPlace num den) := by
  obtain ⟨hlow, hhigh⟩ := unitsAt_placeBelow (num / den)
  rw [Nat.le_div_iff_mul_le hden] at hlow
  rw [Nat.div_lt_iff_lt_mul hden] at hhigh
  rw [nearestPlace]
  generalize placeBelow (num / den) = b at hlow hhigh
  have hprev : unitsAt (b - 1) * den ≤ unitsAt b * den :=
    Nat.mul_le_mul_right den (unitsAt_strictMono.monotone (b.sub_le 1))
  have hodd (hb : b % 2 = 1) : unitsAt (b - 1) * den < unitsAt b * den :=
    Nat.mul_lt_mul_of_pos_right (unitsAt_strictMono (by omega)) hden
  have hnext : unitsAt (b + 1) * den < unitsAt (b + 1 + 1) * den :=
    Nat.mul_lt_mul_of_pos_right (unitsAt_lt_succ (b + 1)) hden
  have hsub : unitsAt (b + 1 - 1) = unitsAt b := congrArg unitsAt (Nat.add_sub_cancel b 1)
  split
  · rename_i hb
    rw [Nat.add_mul] at hb
    -- below its lower midpoint the place is off by a step at least
    rw [RoundsTo, Nat.add_mul, Nat.add_mul]
    split <;> omega
  · rename_i hb
    rw [Nat.add_mul] at hb
    rw [RoundsTo, hsub, Nat.add_mul, Nat.add_mul]
    split <;> omega

/-- **The place is the only one.** -/
theorem nearestPlace_eq_iff {num den i : Nat} (hden : 0 < den) :
    nearestPlace num den = i ↔ RoundsTo num den i := by
  constructor
  · rintro rfl
    exact roundsTo_nearestPlace hden
  · intro h
    have hn : RoundsTo num den (nearestPlace num den) := roundsTo_nearestPlace hden
    exact le_antisymm (h.le_of_roundsTo hden hn) (hn.le_of_roundsTo hden h)

/-- A place is rounded to from its own value. -/
theorem roundsTo_unitsAt (i : Nat) {den : Nat} (hden : 0 < den) :
    RoundsTo (unitsAt i * den) den i := by
  have hnext : unitsAt i * den < unitsAt (i + 1) * den :=
    Nat.mul_lt_mul_of_pos_right (unitsAt_lt_succ i) hden
  have hprev : unitsAt (i - 1) * den ≤ unitsAt i * den :=
    Nat.mul_le_mul_right den (unitsAt_strictMono.monotone (i.sub_le 1))
  have hodd (hi : i % 2 = 1) : unitsAt (i - 1) * den < unitsAt i * den :=
    Nat.mul_lt_mul_of_pos_right (unitsAt_strictMono (by omega)) hden
  rw [RoundsTo, Nat.add_mul, Nat.add_mul]
  split <;> omega

/-- Rounding sees the value of a fraction only. -/
theorem roundsTo_congr {num den num' den' i : Nat} (hden : 0 < den) (hden' : 0 < den')
    (h : num * den' = num' * den) : RoundsTo num den i ↔ RoundsTo num' den' i := by
  have hle (m : Nat) : m * den ≤ 2 * num ↔ m * den' ≤ 2 * num' := by
    calc m * den ≤ 2 * num ↔ m * den * den' ≤ 2 * num * den' :=
          (Nat.mul_le_mul_right_iff hden').symm
      _ ↔ m * den' * den ≤ 2 * num' * den := by
          rw [Nat.mul_right_comm, Nat.mul_assoc 2, h, ← Nat.mul_assoc 2]
      _ ↔ m * den' ≤ 2 * num' := Nat.mul_le_mul_right_iff hden
  have hge (m : Nat) : 2 * num ≤ m * den ↔ 2 * num' ≤ m * den' := by
    calc 2 * num ≤ m * den ↔ 2 * num * den' ≤ m * den * den' :=
          (Nat.mul_le_mul_right_iff hden').symm
      _ ↔ 2 * num' * den ≤ m * den' * den := by
          rw [Nat.mul_right_comm m, Nat.mul_assoc 2, h, ← Nat.mul_assoc 2]
      _ ↔ 2 * num' ≤ m * den' := Nat.mul_le_mul_right_iff hden
  rw [RoundsTo, RoundsTo]
  split
  · rw [hle, hge]
  · rw [← not_le, ← not_le, hge, hle, not_le, not_le]

theorem nearestPlace_congr {num den num' den' : Nat} (hden : 0 < den) (hden' : 0 < den')
    (h : num * den' = num' * den) : nearestPlace num den = nearestPlace num' den' :=
  (nearestPlace_eq_iff hden).2 ((roundsTo_congr hden hden' h).2 (roundsTo_nearestPlace hden'))

theorem nearestPlace_unitsAt (i : Nat) {den : Nat} (hden : 0 < den) :
    nearestPlace (unitsAt i * den) den = i :=
  (nearestPlace_eq_iff hden).2 (roundsTo_unitsAt i hden)

/-! ## Short counts -/

/-- A value has at most fifty-three bits before its zeros. -/
theorem exists_unitsAt_eq_shiftLeft (i : Nat) :
    ∃ c k, c < 2 * runLength ∧ unitsAt i = c <<< k := by
  rcases place_cases i with hi | ⟨q, e, low, high, rfl⟩
  · exact ⟨i, 0, by omega, by rw [unitsAt, if_pos (by omega), Nat.shiftLeft_zero]⟩
  · exact ⟨q, e, high, unitsAt_run low high.le e⟩

/-- **And every such count is a value.** By induction on the zeros: a count
that does not fill its run is doubled and shifted by one place less. -/
theorem exists_place_shiftLeft (k : Nat) :
    ∀ c < 2 * runLength, ∃ i, unitsAt i = c <<< k := by
  induction k with
  | zero =>
    intro c hc
    exact ⟨c, by rw [unitsAt, if_pos hc, Nat.shiftLeft_zero]⟩
  | succ k ih =>
    intro c hc
    rcases Nat.lt_or_ge c runLength with hlt | hge
    · obtain ⟨i, hi⟩ := ih (2 * c) (by omega)
      exact ⟨i, by rw [hi, Nat.shiftLeft_eq, Nat.shiftLeft_eq, pow_succ]; ring⟩
    · exact ⟨c + (k + 1) * runLength, unitsAt_run hge hc.le (k + 1)⟩

theorem unitsPerOne_eq : unitsPerOne = 2 ^ unitExponent := Nat.one_shiftLeft unitExponent

theorem unitsPerOne_pos : 0 < unitsPerOne := by
  rw [unitsPerOne_eq]
  exact Nat.two_pow_pos unitExponent

theorem cast_unitsPerOne_pos : (0 : ℚ) < unitsPerOne := Nat.cast_pos.2 unitsPerOne_pos

/-- The whole part of a value is a value. -/
theorem exists_place_whole (i : Nat) :
    ∃ j ≤ i, unitsAt j = unitsAt i / unitsPerOne * unitsPerOne := by
  suffices h : ∃ j, unitsAt j = unitsAt i / unitsPerOne * unitsPerOne by
    obtain ⟨j, hj⟩ := h
    have hle : unitsAt j ≤ unitsAt i := hj ▸ Nat.div_mul_le_self _ _
    exact ⟨j, unitsAt_strictMono.le_iff_le.1 hle, hj⟩
  obtain ⟨c, k, hc, hi⟩ := exists_unitsAt_eq_shiftLeft i
  rw [unitsPerOne_eq, hi, Nat.shiftLeft_eq]
  generalize unitExponent = p
  rcases Nat.le_total p k with hk | hk
  · -- no fraction: the value is its own whole part
    have hdvd : 2 ^ p ∣ c * 2 ^ k := Dvd.dvd.mul_left (Nat.pow_dvd_pow 2 hk) c
    exact ⟨i, by rw [Nat.div_mul_cancel hdvd, hi, Nat.shiftLeft_eq]⟩
  · obtain ⟨s, hs⟩ : ∃ s, p = k + s := ⟨p - k, by omega⟩
    have hdiv : c * 2 ^ k / 2 ^ p = c / 2 ^ s := by
      rw [hs, pow_add, Nat.mul_comm c, Nat.mul_div_mul_left _ _ (Nat.two_pow_pos k)]
    obtain ⟨j, hj⟩ := exists_place_shiftLeft p (c / 2 ^ s)
      ((Nat.div_le_self _ _).trans_lt hc)
    exact ⟨j, by rw [hj, hdiv, Nat.shiftLeft_eq]⟩

/-- A double with a fraction is below `2^52`. -/
theorem unitsAt_lt_of_mod_ne_zero {i : Nat} (h : unitsAt i % unitsPerOne ≠ 0) :
    unitsAt i < runLength * unitsPerOne := by
  obtain ⟨c, k, hc, hunits⟩ := exists_unitsAt_eq_shiftLeft i
  rw [hunits, unitsPerOne_eq, Nat.shiftLeft_eq] at h ⊢
  rcases Nat.lt_or_ge k unitExponent with hk | hk
  · calc c * 2 ^ k < 2 * runLength * 2 ^ k := Nat.mul_lt_mul_of_pos_right hc (Nat.two_pow_pos k)
      _ = runLength * 2 ^ (k + 1) := by ring
      _ ≤ runLength * 2 ^ unitExponent :=
          Nat.mul_le_mul_left runLength (Nat.pow_le_pow_right (by decide) hk)
  · exact absurd (Nat.mod_eq_zero_of_dvd ((Nat.pow_dvd_pow 2 hk).mul_left c)) h

/-- Whole numbers up to `2^53` are doubles. -/
theorem exists_place_of_whole {whole : Nat} (h : whole < 2 * runLength) :
    ∃ i, unitsAt i = whole * unitsPerOne := by
  obtain ⟨i, hi⟩ := exists_place_shiftLeft unitExponent whole h
  exact ⟨i, by rw [hi, unitsPerOne_eq, Nat.shiftLeft_eq]⟩

/-- **A whole number never reads as a double with a fraction.** Below `2^52`
it is a double of its own, and past that there are no fractions. -/
theorem whole_of_roundsTo {whole i : Nat} (h : RoundsTo (whole * unitsPerOne) 1 i) :
    unitsAt i % unitsPerOne = 0 := by
  by_contra hfraction
  have hlt := unitsAt_lt_of_mod_ne_zero hfraction
  obtain ⟨top, htop⟩ := exists_place_of_whole (by decide : runLength < 2 * runLength)
  rw [← htop] at hlt
  have hnext : unitsAt (i + 1) ≤ unitsAt top :=
    unitsAt_strictMono.monotone (unitsAt_strictMono.lt_iff_lt.1 hlt)
  have hsmall : whole < runLength := by
    have hhigh := h.le.2
    rw [Nat.mul_one] at hhigh
    exact lt_of_mul_lt_mul_right (by omega : whole * unitsPerOne < runLength * unitsPerOne)
      (Nat.zero_le _)
  obtain ⟨j, hj⟩ := exists_place_of_whole (by omega : whole < 2 * runLength)
  have hexact := roundsTo_unitsAt j Nat.one_pos
  rw [hj, Nat.mul_one] at hexact
  have hji : i = j := le_antisymm (hexact.le_of_roundsTo Nat.one_pos h)
    (h.le_of_roundsTo Nat.one_pos hexact)
  exact hfraction (by rw [hji, hj, Nat.mul_mod_left])

end NumericTower
