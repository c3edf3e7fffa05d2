import Mathlib
import NumericTower.Number.Basic
import NumericTower.Proofs.Flonum.Places
/-!
# The values of numbers

Every number but the NaN stands for an extended rational: an exact number
for its integer, a finite flonum for its count of units over `2^1074`, and
the infinities for the two ends. `Number.Related` carries a relation of
values over to numbers, where it never holds of a NaN.
-/

namespace NumericTower

/-- The extended rationals: the values of numbers lie among them. -/
abbrev Extended := WithBot (WithTop ℚ)

namespace Extended

/-- A rational number among the extended ones. -/
def ofRat (q : ℚ) : Extended := ((q : WithTop ℚ) : WithBot (WithTop ℚ))

theorem ofRat_strictMono : StrictMono ofRat := fun _ _ h =>
  WithBot.coe_lt_coe.2 (WithTop.coe_lt_coe.2 h)

theorem ofRat_intCast_inj {v w : Int} : ofRat v = ofRat w ↔ v = w := by
  rw [ofRat_strictMono.injective.eq_iff, Int.cast_inj]

theorem bot_lt_ofRat (q : ℚ) : ⊥ < ofRat q := WithBot.bot_lt_coe _

theorem ofRat_lt_top (q : ℚ) : ofRat q < ⊤ := WithBot.coe_lt_coe.2 (WithTop.coe_lt_top q)

/-- A count of units, as the number that it stands for. -/
def ofUnits (s : Int) : Extended := ofRat ((s : ℚ) / (unitsPerOne : ℚ))

theorem ofUnits_strictMono : StrictMono ofUnits := by
  intro s t h
  have hpos : (0 : ℚ) < unitsPerOne := cast_unitsPerOne_pos
  exact ofRat_strictMono (div_lt_div_of_pos_right (by exact_mod_cast h) hpos)

theorem compare_ofUnits (s t : Int) : compare (ofUnits s) (ofUnits t) = compare s t := by
  rw [← cmp_eq_compare, ← cmp_eq_compare, ofUnits_strictMono.cmp_map_eq]

/-- An integer, in units. -/
theorem ofRat_intCast (v : Int) : ofRat v = ofUnits (v * unitsPerOne) := by
  have hne : (unitsPerOne : ℚ) ≠ 0 := cast_unitsPerOne_pos.ne'
  rw [ofUnits, Int.cast_mul, Int.cast_natCast, mul_div_cancel_right₀ _ hne]

theorem compare_ofRat_intCast (v w : Int) : compare (ofRat v) (ofRat w) = compare v w := by
  rw [ofRat_intCast, ofRat_intCast, compare_ofUnits, ← cmp_eq_compare, ← cmp_eq_compare]
  have hpos : (0 : Int) < unitsPerOne := by exact_mod_cast unitsPerOne_pos
  exact StrictMono.cmp_map_eq (f := (· * (unitsPerOne : Int)))
    (fun _ _ h => Int.mul_lt_mul_of_pos_right h hpos) v w

end Extended

open Extended

/-- The exact value of a flonum; a NaN has none. -/
def Flonum.value? : Flonum → Option Extended
  | .nan => none
  | .infinite negative => some (if negative then ⊥ else ⊤)
  | .finite negative m => some (ofUnits (signedUnits negative m))

/-- For a finite flonum it is the rational number that the flonum is. -/
theorem Flonum.value?_of_toRat? {x : Flonum} {q : ℚ} (h : x.toRat? = some q) :
    x.value? = some (ofRat q) := by
  cases x with
  | nan => cases h
  | infinite negative => cases h
  | finite negative m =>
    obtain rfl : mkRat (signedUnits negative m) unitsPerOne = q := Option.some.inj h
    rw [value?, ofUnits, Rat.mkRat_eq_div]

/-- And no other flonum has a rational value. -/
theorem Flonum.value?_eq_ofRat_iff {x : Flonum} {q : ℚ} :
    x.value? = some (ofRat q) ↔ x.toRat? = some q := by
  refine ⟨fun h => ?_, value?_of_toRat?⟩
  cases x with
  | nan => cases h
  | infinite negative =>
    have hend : (if negative then ⊥ else ⊤) = ofRat q := Option.some.inj h
    cases negative with
    | false => exact absurd hend (ofRat_lt_top q).ne'
    | true => exact absurd hend (bot_lt_ofRat q).ne
  | finite negative m =>
    have hvalue := value?_of_toRat? (x := finite negative m) rfl
    rw [h, Option.some_inj] at hvalue
    exact congrArg some (ofRat_strictMono.injective hvalue).symm

/-- The exact value of a number. -/
def Number.value? : Number → Option Extended
  | .fixnum a => some (ofRat a.toInt)
  | .bignum a => some (ofRat a.toInt)
  | .flonum x => x.value?

namespace Number

/-- Two numbers have values that stand in a relation. -/
def Related (r : Extended → Extended → Prop) (a b : Number) : Prop :=
  ∃ x y, a.value? = some x ∧ b.value? = some y ∧ r x y

/-- Only a NaN has no value. -/
theorem value?_eq_none_iff {a : Number} : a.value? = none ↔ a = .flonum .nan := by
  cases a with
  | fixnum a => simp [value?]
  | bignum a => simp [value?]
  | flonum x => cases x <;> simp [value?, Flonum.value?]

/-- An integer is the value of its number. -/
theorem value?_ofInt (v : Int) : (ofInt v).value? = some (ofRat v) := by
  by_cases h : Fixnum.InRange v
  · rw [ofInt_of_inRange h, value?, Fixnum.toInt_ofInt h]
  · rw [ofInt_of_not_inRange h, value?]

theorem value?_ofInt_eq_iff {v : Int} {q : ℚ} :
    (ofInt v).value? = some (ofRat q) ↔ (v : ℚ) = q := by
  rw [value?_ofInt, Option.some_inj, ofRat_strictMono.injective.eq_iff]

theorem exists_rat_value {a : Number} (hnan : a ≠ .flonum .nan)
    (hinfinite : ∀ negative, a ≠ .flonum (.infinite negative)) :
    ∃ q, a.value? = some (ofRat q) := by
  cases a with
  | fixnum a => exact ⟨a.toInt, rfl⟩
  | bignum a => exact ⟨a.toInt, rfl⟩
  | flonum x =>
    cases x with
    | nan => exact absurd rfl hnan
    | infinite negative => exact absurd rfl (hinfinite negative)
    | finite negative m => exact ⟨_, rfl⟩

section

variable {a b c : Number}

/-- Rational values stand in a relation as the rationals do. -/
theorem related_ofRat_iff {r : Extended → Extended → Prop} {p q : ℚ}
    (hp : a.value? = some (ofRat p)) (hq : b.value? = some (ofRat q)) :
    Related r a b ↔ r (ofRat p) (ofRat q) := by
  constructor
  · rintro ⟨x, y, hx, hy, h⟩
    obtain rfl := Option.some.inj (hx.symm.trans hp)
    obtain rfl := Option.some.inj (hy.symm.trans hq)
    exact h
  · intro h
    exact ⟨_, _, hp, hq, h⟩

theorem related_congr {r s : Extended → Extended → Prop} (h : ∀ x y, r x y ↔ s x y) :
    Related r a b ↔ Related s a b := by
  simp only [Related, h]

theorem related_or {r s : Extended → Extended → Prop} :
    Related (fun x y => r x y ∨ s x y) a b ↔ Related r a b ∨ Related s a b := by
  constructor
  · rintro ⟨x, y, hx, hy, h | h⟩
    · exact .inl ⟨x, y, hx, hy, h⟩
    · exact .inr ⟨x, y, hx, hy, h⟩
  · rintro (⟨x, y, hx, hy, h⟩ | ⟨x, y, hx, hy, h⟩)
    · exact ⟨x, y, hx, hy, .inl h⟩
    · exact ⟨x, y, hx, hy, .inr h⟩

/-- A relation of values that is transitive is so across kinds. -/
theorem Related.trans {r : Extended → Extended → Prop} (hr : ∀ {x y z}, r x y → r y z → r x z)
    (hab : Related r a b) (hbc : Related r b c) : Related r a c := by
  obtain ⟨x, y, hx, hy, hxy⟩ := hab
  obtain ⟨y', z, hy', hz, hyz⟩ := hbc
  obtain rfl : y = y' := Option.some.inj (hy.symm.trans hy')
  exact ⟨x, z, hx, hz, hr hxy hyz⟩

end

end Number

end NumericTower
