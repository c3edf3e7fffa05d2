import NumericTower.Proofs.Fixnum.Bits
import NumericTower.Proofs.Fixnum.Power
import NumericTower.Proofs.Integer.Floor
/-!
# Overflow is detected exactly

The tower leaves the words exactly when a word operation reports overflow, so
an overflow that is missed gives a wrong number, and one that is reported
without need costs a detour that nobody sees. Neither happens
(`detects_overflow`): an operation overflows if and only if no word holds the
exact integer. The two operations without a check, the remainder and the right
shift, never need one.

That each operation narrows the exact integer is in `Fixnum.Exact`,
`Fixnum.Bits` and `Fixnum.Power`; here it is said without narrowing, of what a
caller sees.
-/

namespace NumericTower.Fixnum

/-- A result that tells whether a word holds the exact integer `v`: the word
that does, or overflow if there is none. -/
structure Detects (r : Except Overflow Fixnum) (v : Int) : Prop where
  ok_iff : ∀ c, r = .ok c ↔ InRange v ∧ c.toInt = v
  error_iff : r = .error ⟨⟩ ↔ ¬ InRange v

/-- Narrowing finds the range out. -/
theorem detects_ofInt? (v : Int) : Detects (ofInt? v) v := by
  by_cases h : InRange v
  · have hok : ofInt? v = .ok (ofInt v) := if_pos h
    constructor
    · intro c
      rw [hok, Except.ok.injEq, and_iff_right h, ← toInt_inj, toInt_ofInt h, eq_comm]
    · rw [hok]
      exact iff_of_false nofun (not_not_intro h)
  · rw [ofInt?_eq_error h]
    exact ⟨fun c => iff_of_false nofun fun hc => h hc.1, iff_of_true rfl h⟩

/-- So an operation that narrows the exact integer detects its overflow. -/
theorem detects_of_eq {r : Except Overflow Fixnum} {v w : Int} (h : r = ofInt? v) (hv : v = w) :
    Detects r w := by
  subst hv
  rw [h]
  exact detects_ofInt? v

/-- What the floor leaves over, for a divisor other than zero. -/
theorem toInt_floorMod_eq_sub {a b : Fixnum} (hb : b.toInt ≠ 0) :
    (a.floorMod b).toInt = a.toInt - b.toInt * ⌊(a.toInt / b.toInt : ℚ)⌋ := by
  rw [toInt_floorMod hb, Int.fmod_def, floor_div_eq_fdiv]

/-- **Words detect overflow exactly.** Sum, difference, product, negative,
absolute value, power, left shift and, for a divisor other than zero, the
quotient rounded down are the exact integer if a word holds it, and overflow
if not. The right shift and the remainder are exact for all words. -/
theorem detects_overflow (a b : Fixnum) (k m : Nat) :
    Detects (a.add? b) (a.toInt + b.toInt) ∧
    Detects (a.sub? b) (a.toInt - b.toInt) ∧
    Detects (a.mul? b) (a.toInt * b.toInt) ∧
    Detects a.neg? (-a.toInt) ∧
    Detects a.abs? |a.toInt| ∧
    Detects (a.pow? k) (a.toInt ^ k) ∧
    Detects (a.shiftLeft? k) (a.toInt * 2 ^ k) ∧
    (a.shiftRight m).toInt = ⌊(a.toInt / 2 ^ m : ℚ)⌋ ∧
    (b.toInt ≠ 0 →
      Detects (a.floorDiv? b) ⌊(a.toInt / b.toInt : ℚ)⌋ ∧
      (a.floorMod b).toInt = a.toInt - b.toInt * ⌊(a.toInt / b.toInt : ℚ)⌋) := by
  refine ⟨?_, ?_, ?_, ?_, ?_, ?_, ?_, ?_, ?_⟩
  · exact detects_of_eq (add?_eq a b) rfl
  · exact detects_of_eq (sub?_eq a b) rfl
  · exact detects_of_eq (mul?_eq a b) rfl
  · exact detects_of_eq (neg?_eq a) rfl
  · exact detects_of_eq (abs?_eq a) (Int.natCast_natAbs a.toInt)
  · exact detects_of_eq (pow?_eq a k) rfl
  · exact detects_of_eq (shiftLeft?_eq a k) (Int.shiftLeft_eq a.toInt k)
  · rw [toInt_shiftRight, floor_div_two_pow]
  · intro hb
    exact ⟨detects_of_eq (floorDiv?_eq hb) (floor_div_eq_fdiv a.toInt b.toInt).symm,
      toInt_floorMod_eq_sub hb⟩

/-- The least word by minus one: no word holds the quotient, and nothing is
left over. -/
theorem detects_overflow_least :
    negOne.toInt ≠ 0 ∧ least.floorDiv? negOne = .error ⟨⟩ ∧ (least.floorMod negOne).toInt = 0 := by
  have hdivisor : negOne.toInt ≠ 0 := by decide
  have hfloor : ⌊(least.toInt / negOne.toInt : ℚ)⌋ = 9223372036854775808 := by
    rw [floor_div_eq_fdiv]
    decide
  obtain ⟨-, -, -, -, -, -, -, -, hdivision⟩ := detects_overflow least negOne 63 64
  obtain ⟨hquotient, hremainder⟩ := hdivision hdivisor
  rw [hfloor] at hquotient hremainder
  exact ⟨hdivisor, hquotient.error_iff.2 (by decide), hremainder⟩

end NumericTower.Fixnum
