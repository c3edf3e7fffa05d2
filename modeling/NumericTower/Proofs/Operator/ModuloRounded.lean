import NumericTower.Proofs.Flonum.NearestValue
import NumericTower.Proofs.Flonum.Remainder
import NumericTower.Proofs.Integer.Floor
import NumericTower.Proofs.Operator.Inexact
/-!
# Modulo next to a flonum is rounded once

Between flonums and bignums the modulo is the exact floor remainder, rounded
to the nearest double (`modulo_rounded`). Two flonums leave a remainder that is
a double, so that only the divisor that is added to it can make it inexact;
next to a bignum the remainder is taken of integers.

A word is the exception: it is rounded before the division as well
(`modulo_word_rounded`), which from `2^53` on may lose it (`modulo_word_lost`).
-/

namespace NumericTower

open BinaryRow Number Extended

/-- The outcome is a flonum, and nearest to a rational. -/
def Outcome.IsRounded (outcome : Outcome) (q : ℚ) : Prop :=
  ∃ z : Flonum, outcome = .ok (.flonum z) ∧ z.IsNearest q

variable {v w : Int}

/-! ## The cells -/

theorem moduloFlonums_eq_floorRem {x y : Flonum} (hv : x.toRat? = some (v : ℚ))
    (hw : y.toRat? = some (w : ℚ)) (hne : w ≠ 0) :
    moduloFlonums x y = .ok (.flonum (x.floorRem y)) := by
  have hx : x.isIntegral = true := x.isIntegral_iff.2 ⟨v, hv⟩
  have hy : y.isIntegral = true := y.isIntegral_iff.2 ⟨w, hw⟩
  have hzero : y.isZero = false := by
    rw [Bool.eq_false_iff, ne_eq, Flonum.isZero_iff_of_toRat? hw]
    exact_mod_cast hne
  rw [moduloFlonums, hx, hy, hzero]
  rfl

theorem moduloFlonums_isRounded {x y : Flonum} (hv : x.toRat? = some (v : ℚ))
    (hw : y.toRat? = some (w : ℚ)) (hne : w ≠ 0) :
    (moduloFlonums x y).IsRounded (v.fmod w : Int) :=
  ⟨_, moduloFlonums_eq_floorRem hv hw hne, Flonum.isNearest_floorRem_of_toRat? hv hw hne⟩

/-- The value of a whole flonum is read exactly. -/
theorem integralValue_eq {x : Flonum} (hv : x.toRat? = some (v : ℚ)) :
    integralValue x = .ok v := by
  obtain ⟨u, hint, hu, -⟩ := Flonum.toInt?_of_isWhole ⟨v, hv⟩
  obtain rfl : u = v := by exact_mod_cast Option.some.inj (hu.symm.trans hv)
  rw [integralValue, if_pos (x.isIntegral_iff.2 ⟨u, hv⟩), hint]

/-- A remainder of integers is exact until it is made a flonum. -/
theorem remainder_isRounded (hne : w ≠ 0) :
    Outcome.IsRounded (do let r ← remainder v w; return .flonum (.ofInt r)) (v.fmod w : Int) := by
  rw [remainder, if_neg hne]
  exact ⟨_, rfl, Flonum.isNearest_ofInt _⟩

/-- What has a value other than zero is no zero divisor. -/
theorem Number.not_isZeroDivisor {b : Number} (hw : b.value? = some (ofRat w)) (hne : w ≠ 0) :
    ¬ b.IsZeroDivisor := by
  rw [← isZero_iff, Bool.not_eq_true]
  cases b with
  | fixnum b =>
    have hvalue : b.toInt = w := ofRat_intCast_inj.1 (Option.some.inj hw)
    rw [Number.isZero, Fixnum.isZero_eq, hvalue, decide_eq_false hne]
  | bignum b => rfl
  | flonum y =>
    rw [Number.isZero, Bool.eq_false_iff, ne_eq,
      Flonum.isZero_iff_of_toRat? (Flonum.value?_eq_ofRat_iff.1 hw)]
    exact_mod_cast hne

theorem modulo_apply_eq_cell (limits : Limits) {a b : Number} (hw : b.value? = some (ofRat w))
    (hne : w ≠ 0) : BinaryOp.modulo.apply limits a b = modulo.cell a b := by
  rw [BinaryOp.apply_eq_cell, if_neg fun h => not_isZeroDivisor hw hne h.2]
  rfl

/-- The cells of flonums and bignums. -/
theorem modulo_cell_isRounded {a b : Number} (h : AnyFlonum a b) (ha : a.kind ≠ .fixnum)
    (hb : b.kind ≠ .fixnum) (hv : a.value? = some (ofRat v)) (hw : b.value? = some (ofRat w))
    (hne : w ≠ 0) : (modulo.cell a b).IsRounded (v.fmod w : Int) := by
  have bignum {c : Bignum} {u : Int} (hu : (Number.bignum c).value? = some (ofRat u)) :
      c.toInt = u := ofRat_intCast_inj.1 (Option.some.inj hu)
  cases h with
  | left x =>
    have hx : x.toRat? = some (v : ℚ) := Flonum.value?_eq_ofRat_iff.1 hv
    cases b with
    | fixnum b => exact absurd rfl hb
    | bignum b =>
      obtain rfl := bignum hw
      change Outcome.IsRounded (integralValue x >>= _) _
      rw [integralValue_eq hx]
      exact remainder_isRounded hne
    | flonum y => exact moduloFlonums_isRounded hx (Flonum.value?_eq_ofRat_iff.1 hw) hne
  | right _ y =>
    have hy : y.toRat? = some (w : ℚ) := Flonum.value?_eq_ofRat_iff.1 hw
    cases a with
    | fixnum a => exact absurd rfl ha
    | bignum a =>
      obtain rfl := bignum hv
      change Outcome.IsRounded (integralValue y >>= _) _
      rw [integralValue_eq hy]
      exact remainder_isRounded hne
    | flonum x => exact moduloFlonums_isRounded (Flonum.value?_eq_ofRat_iff.1 hv) hy hne

/-! ## Flonums and bignums -/

/-- **Modulo of flonums and bignums is the floor remainder, rounded once.** As
soon as one operand is a flonum the result is the flonum nearest to
`a - b * ⌊a / b⌋`, with whole operands of any size and a divisor other than
zero; and it is zero or has the sign of the divisor. -/
theorem modulo_rounded (limits : Limits) {a b : Number} (h : AnyFlonum a b)
    (ha : a.kind ≠ .fixnum) (hb : b.kind ≠ .fixnum) (hv : a.value? = some (ofRat v))
    (hw : b.value? = some (ofRat w)) (hne : w ≠ 0) :
    ∃ z : Flonum, BinaryOp.modulo.apply limits a b = .ok (.flonum z) ∧
      z.IsNearest (v - w * ⌊(v / w : ℚ)⌋) ∧
      (z.isZero = true ∨ (z.isNegative = true ↔ w < 0)) := by
  obtain ⟨z, hz, hnearest⟩ := modulo_cell_isRounded h ha hb hv hw hne
  refine ⟨z, (modulo_apply_eq_cell limits hw hne).trans hz, cast_fmod_eq v w ▸ hnearest, ?_⟩
  refine hnearest.isZero_or_isNegative_iff.imp_right ?_
  rintro ⟨hmod, hsign⟩
  rw [hsign, Int.cast_lt_zero, ← Int.sign_eq_neg_one_iff_neg, ← Int.sign_eq_neg_one_iff_neg,
    (fmod_eq_zero_or_sign_eq v hne).resolve_left (by exact_mod_cast hmod)]

/-- A bignum past the range of doubles by `-2.0`: what is left over is minus
one. -/
theorem modulo_rounded_past_range :
    let a : Number := .bignum ⟨2 ^ 1100 + 1⟩
    let b : Number := .flonum (.finite true ⟨4611686018427387904, by decide⟩)
    AnyFlonum a b ∧ a.kind ≠ .fixnum ∧ b.kind ≠ .fixnum ∧
      a.value? = some (ofRat ((2 ^ 1100 + 1 : Int) : ℚ)) ∧
      b.value? = some (ofRat ((-2 : Int) : ℚ)) ∧ (-2 : Int) ≠ 0 ∧
      ∃ z : Flonum, BinaryOp.modulo.apply ⟨0⟩ a b = .ok (.flonum z) ∧ z.IsNearest (-1) ∧
        (z.isZero = true ∨ (z.isNegative = true ↔ (-2 : Int) < 0)) := by
  intro a b
  have hany : AnyFlonum a b := .right a _
  have htwo : (Flonum.finite true ⟨4611686018427387904, by decide⟩).toRat? =
      some ((-2 : Int) : ℚ) := by
    decide +kernel
  have hmod : Int.fmod (2 ^ 1100 + 1) (-2) = -1 := by decide +kernel
  obtain ⟨z, hz, hnearest, hsign⟩ := modulo_rounded ⟨0⟩ hany (by decide) (by decide) rfl
    (Flonum.value?_of_toRat? htwo) (by decide)
  rw [← cast_fmod_eq, hmod, Int.cast_neg, Int.cast_one] at hnearest
  exact ⟨hany, by decide, by decide, rfl, Flonum.value?_of_toRat? htwo, by decide, z, hz,
    hnearest, hsign⟩

/-! ## Words -/

/-- **Modulo of a word and a flonum is that of the word's double.** A word is
rounded to a whole double first, which is the word itself iff some double is,
as up to `2^53`; the floor remainder of that double is then rounded, on either
side of the division. -/
theorem modulo_word_rounded (limits : Limits) (c : Fixnum) :
    ∃ (x : Flonum) (u : Int), x.IsNearest c.toInt ∧ x.toRat? = some (u : ℚ) ∧
      (u = c.toInt ↔ ∃ y : Flonum, y.toRat? = some (c.toInt : ℚ)) ∧
      (|c.toInt| ≤ 2 ^ 53 → u = c.toInt) ∧
      (∀ (y : Flonum) (w : Int), y.toRat? = some (w : ℚ) → w ≠ 0 →
        (BinaryOp.modulo.apply limits (.fixnum c) (.flonum y)).IsRounded
          (u - w * ⌊(u / w : ℚ)⌋)) ∧
      (∀ (y : Flonum) (v : Int), y.toRat? = some (v : ℚ) → c.toInt ≠ 0 →
        (BinaryOp.modulo.apply limits (.flonum y) (.fixnum c)).IsRounded
          (v - u * ⌊(v / u : ℚ)⌋)) := by
  obtain ⟨⟨u, hu⟩, hzero⟩ := Flonum.ofInt_word c
  have hnearest := Flonum.isNearest_ofInt c.toInt
  have hexact (h : ∃ y : Flonum, y.toRat? = some (c.toInt : ℚ)) : u = c.toInt := by
    obtain ⟨y, hy⟩ := h
    exact_mod_cast Option.some.inj (hu.symm.trans (hnearest.toRat?_eq hy))
  refine ⟨_, u, hnearest, hu, ⟨fun h => ⟨_, h ▸ hu⟩, hexact⟩, fun h => ?_, fun y w hw hne => ?_,
    fun y v hv hne => ?_⟩
  · have hrun : 2 * runLength = 2 ^ 53 := rfl
    rw [Int.abs_eq_natAbs] at h
    exact hexact (Flonum.exists_toRat?_of_natAbs_le (by omega))
  · have hvalue : (flonum y).value? = some (ofRat w) := Flonum.value?_of_toRat? hw
    rw [modulo_apply_eq_cell limits hvalue hne, BinaryRow.cell, modulo_fixnumFlonum,
      modulo_flonums, ← cast_fmod_eq]
    exact moduloFlonums_isRounded hu hw hne
  · have hune : u ≠ 0 := by
      rintro rfl
      exact hne (hzero.1 ((Flonum.isZero_iff_of_toRat? hu).2 Int.cast_zero))
    have hvalue : (fixnum c).value? = some (ofRat c.toInt) := rfl
    rw [modulo_apply_eq_cell limits hvalue hne, BinaryRow.cell, modulo_flonumFixnum,
      modulo_flonums, ← cast_fmod_eq]
    exact moduloFlonums_isRounded hv hu hune

/-- Seven is a double, and leaves minus one over by `-2.0`. `2^53 + 1` is
none and takes part as `2^53`, on either side: by `-2.0` it leaves nothing,
and as the divisor of `-2.0` two less than `2^53`. -/
theorem modulo_word_rounded_past_doubles :
    let y : Flonum := .finite true ⟨4611686018427387904, by decide⟩
    let c : Fixnum := .ofInt 9007199254740993
    y.toRat? = some ((-2 : Int) : ℚ) ∧ (-2 : Int) ≠ 0 ∧ |(Fixnum.ofInt 7).toInt| ≤ 2 ^ 53 ∧
      (BinaryOp.modulo.apply ⟨0⟩ (.fixnum (.ofInt 7)) (.flonum y)).IsRounded (-1) ∧
      c.toInt ≠ 0 ∧ (¬∃ z : Flonum, z.toRat? = some (c.toInt : ℚ)) ∧
      (BinaryOp.modulo.apply ⟨0⟩ (.fixnum c) (.flonum y)).IsRounded 0 ∧
      (BinaryOp.modulo.apply ⟨0⟩ (.flonum y) (.fixnum c)).IsRounded 9007199254740990 := by
  intro y c
  have hy : y.toRat? = some ((-2 : Int) : ℚ) := by decide +kernel
  have hseven : (Fixnum.ofInt 7).toInt = 7 := Fixnum.toInt_ofInt (by decide)
  have hsmall : |(Fixnum.ofInt 7).toInt| ≤ 2 ^ 53 := by
    rw [hseven]
    decide
  have hword : c.toInt = 9007199254740993 := Fixnum.toInt_ofInt (by decide)
  have hne : c.toInt ≠ 0 := by
    rw [hword]
    decide
  obtain ⟨-, u, -, -, -, hexact, hover, -⟩ := modulo_word_rounded ⟨0⟩ (.ofInt 7)
  have hu : u = 7 := (hexact hsmall).trans hseven
  have hleft := hover y (-2) hy (by decide)
  rw [← cast_fmod_eq, hu] at hleft
  obtain ⟨x, d, hx, hd, hdouble, -, hdividend, hdivisor⟩ := modulo_word_rounded ⟨0⟩ c
  have heven : d = 9007199254740992 := by
    have hround : (Flonum.ofInt c.toInt).toRat? = some ((9007199254740992 : Int) : ℚ) := by
      rw [hword]
      decide +kernel
    have hsame := hx.value_unique (Flonum.isNearest_ofInt c.toInt)
    rw [Flonum.value?_of_toRat? hd, Flonum.value?_of_toRat? hround, Option.some_inj] at hsame
    exact ofRat_intCast_inj.1 hsame
  have hlost : ¬∃ z : Flonum, z.toRat? = some (c.toInt : ℚ) := by
    rw [← hdouble, heven, hword]
    decide
  have hnone := hdividend y (-2) hy (by decide)
  have hmost := hdivisor y (-2) hy hne
  rw [← cast_fmod_eq, heven] at hnone hmost
  exact ⟨hy, by decide, hsmall, hleft, hne, hlost, hnone, hmost⟩

/-- `2^53 + 1` is no double. By `2.0` it leaves zero over, where one is left,
and as the divisor of `2^53 + 2` it leaves two. -/
theorem modulo_word_lost :
    let c : Number := .fixnum (.ofInt 9007199254740993)
    let two : Flonum := .finite false ⟨4611686018427387904, by decide⟩
    let next : Flonum := .finite false ⟨4845873199050653697, by decide⟩
    two.toRat? = some 2 ∧ next.toRat? = some 9007199254740994 ∧
      ¬(BinaryOp.modulo.apply ⟨0⟩ c (.flonum two)).IsRounded
        (9007199254740993 - 2 * ⌊(9007199254740993 / 2 : ℚ)⌋) ∧
      ¬(BinaryOp.modulo.apply ⟨0⟩ (.flonum next) c).IsRounded
        (9007199254740994 - 9007199254740993 * ⌊(9007199254740994 / 9007199254740993 : ℚ)⌋) := by
  intro c two next
  have hdividend : BinaryOp.modulo.apply ⟨0⟩ c (.flonum two) = .ok (.flonum (.zero false)) := by
    decide +kernel
  have hdivisor : BinaryOp.modulo.apply ⟨0⟩ (.flonum next) c = .ok (.flonum two) := by
    decide +kernel
  -- one is a double, so it would be the result
  obtain ⟨one, hone⟩ := Flonum.exists_toRat?_of_natAbs_le (by decide : (1 : Int).natAbs ≤ _)
  have hlost {z : Flonum} (hz : z.toRat? ≠ some 1) : ¬Outcome.IsRounded (.ok (.flonum z)) 1 := by
    rintro ⟨_, ⟨⟩, hnearest⟩
    exact hz (hnearest.toRat?_eq (hone.trans (by rw [Int.cast_one])))
  have htwo : two.toRat? = some 2 := by decide +kernel
  refine ⟨htwo, by decide +kernel, ?_, ?_⟩
  · have hleft : (9007199254740993 - 2 * ⌊(9007199254740993 / 2 : ℚ)⌋ : ℚ) = 1 := by norm_num
    rw [hdividend, hleft]
    exact hlost (by rw [Flonum.toRat?_zero]; decide)
  · have hleft : (9007199254740994 - 9007199254740993 *
        ⌊(9007199254740994 / 9007199254740993 : ℚ)⌋ : ℚ) = 1 := by norm_num
    rw [hdivisor, hleft]
    exact hlost (by rw [htwo]; decide)

end NumericTower
