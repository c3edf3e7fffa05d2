import Mathlib
import NumericTower.Proofs.Fixnum.Exact
/-!
# Powers of words

Repeated squaring squares the base ahead of its use. That loses nothing:
while a factor is still to come, a square that overflows divides a power
that overflows as well (`not_inRange_power`). So the loop gives the power
whenever a word holds it (`pow?_eq`).
-/

namespace NumericTower.Fixnum

/-- What is out of range stays so under a positive factor. -/
theorem not_inRange_mul_of_pos {v m : Int} (h : ¬ InRange v) (hm : 0 < m) : ¬ InRange (v * m) := by
  rintro ⟨low, high⟩
  refine h ⟨?_, ?_⟩
  · by_contra hc
    have : v * m ≤ v * 1 := Int.mul_le_mul_of_nonpos_left (by omega) hm
    omega
  · by_contra hc
    have : v * 1 ≤ v * m := Int.mul_le_mul_of_nonneg_left hm (by omega)
    omega

/-- A square that is no word lies well above the words, since `2^63` is no
square. -/
theorem lt_square_of_not_inRange {b : Int} (h : ¬ InRange (b * b)) :
    9223372036854775808 < b * b := by
  have hnonneg := mul_self_nonneg b
  by_contra hc
  have hb : b * b = 9223372036854775808 := by omega
  have hlow : -3037000500 < b := by nlinarith
  have hhigh : b < 3037000500 := by nlinarith
  nlinarith

/-- And a factor other than zero does not bring it back. -/
theorem not_inRange_mul_square {c b : Int} (hc : c ≠ 0) (h : ¬ InRange (b * b)) :
    ¬ InRange (c * (b * b)) := by
  have hb := lt_square_of_not_inRange h
  rintro ⟨low, high⟩
  rcases Int.lt_or_gt_of_ne hc with hc | hc
  · nlinarith
  · nlinarith

theorem toInt_of_ofInt?_eq_ok {a : Fixnum} {v : Int} (h : ofInt? v = .ok a) : a.toInt = v := by
  rw [ofInt?] at h
  split at h
  · rename_i hv
    cases h
    exact toInt_ofInt hv
  · cases h

/-- One round takes the base once if the exponent is odd. -/
theorem oddFactor_eq (acc base : Fixnum) (e : Nat) :
    (if e % 2 = 1 then acc.mul? base else .ok acc) =
      ofInt? (acc.toInt * base.toInt ^ (e % 2)) := by
  split
  · rename_i h
    rw [mul?_eq, h, pow_one]
  · rename_i h
    rw [show e % 2 = 0 by omega, pow_zero, mul_one, ofInt?_eq_ok rfl]

/-- What is left of a power after one round. -/
theorem mul_pow_eq_round (a b : Int) (e : Nat) :
    a * b ^ e = a * b ^ (e % 2) * (b * b) ^ (e / 2) := by
  rw [← sq, ← pow_mul, mul_assoc, ← pow_add, Nat.mod_add_div]

/-- **Squaring early is safe.** While a factor is still to come the square
divides what is left, so it overflows only if the power does. -/
theorem not_inRange_power {a b : Int} {e : Nat} (he : 2 ≤ e) (h : a ≠ 0 ∨ b = 0)
    (ha : InRange a)
    (hover : ¬ InRange (a * b ^ (e % 2)) ∨ ¬ InRange (b * b)) : ¬ InRange (a * b ^ e) := by
  have hb : b ≠ 0 := by
    rintro rfl
    rcases Nat.mod_two_eq_zero_or_one e with h2 | h2
    · simp only [h2, pow_zero, mul_one, mul_zero] at hover
      omega
    · simp only [h2, pow_one, mul_zero] at hover
      omega
  rcases hover with hover | hover
  · rw [mul_pow_eq_round]
    exact not_inRange_mul_of_pos hover (pow_pos (mul_self_pos.2 hb) _)
  · -- the square is a factor of what is left
    obtain ⟨k, rfl⟩ : ∃ k, e = k + 2 := ⟨e - 2, by omega⟩
    have hc : a * b ^ k ≠ 0 := mul_ne_zero (by tauto) (pow_ne_zero k hb)
    rw [pow_add, sq, ← mul_assoc]
    exact not_inRange_mul_square hc hover

/-- **The loop gives the power**, or overflows exactly where the power
does. By the loop's own recursion; what carries it is that a round keeps
`acc * base ^ e` and never makes the accumulator zero next to a base that
is not. -/
theorem powFrom?_eq (acc base : Fixnum) (e : Nat) (h : acc.toInt ≠ 0 ∨ base.toInt = 0) :
    powFrom? acc base e = ofInt? (acc.toInt * base.toInt ^ e) := by
  fun_induction powFrom? acc base e with
  | case1 acc base => rw [pow_zero, mul_one, ofInt?_eq_ok rfl]
  | case2 acc base => rw [pow_one, mul?_eq]
  | case3 acc base e he0 he1 product square hsq hpr ih =>
    rw [dite_eq_ite, oddFactor_eq] at hpr
    rw [mul?_eq] at hsq
    have hp := toInt_of_ofInt?_eq_ok hpr
    have hs := toInt_of_ofInt?_eq_ok hsq
    rw [ih, hp, hs, ← mul_pow_eq_round]
    -- the invariant, for the next round
    rw [hp, hs]
    rcases eq_or_ne base.toInt 0 with hb | hb
    · exact .inr (by rw [hb, mul_zero])
    · exact .inl (mul_ne_zero (by tauto) (pow_ne_zero _ hb))
  | case4 acc base e he0 he1 hbad =>
    simp only [dite_eq_ite] at hbad
    refine (ofInt?_eq_error (not_inRange_power (by omega) h acc.inRange_toInt ?_)).symm
    by_contra hc
    push Not at hc
    exact hbad _ _ ((oddFactor_eq acc base e).trans (if_pos hc.1))
      ((mul?_eq base base).trans (if_pos hc.2))

theorem pow?_eq (a : Fixnum) (e : Nat) : a.pow? e = ofInt? (a.toInt ^ e) := by
  rw [pow?, powFrom?_eq one a e (.inl (by rw [toInt_one]; decide)), toInt_one, one_mul]

end NumericTower.Fixnum
