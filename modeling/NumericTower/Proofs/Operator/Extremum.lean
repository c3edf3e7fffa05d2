import NumericTower.Proofs.Flonum.NearestValue
import NumericTower.Proofs.Number.Order
import NumericTower.Proofs.Operator.Boundary
/-!
# Maximum and minimum follow the order

Comparison never rounds an operand, while the maximum and the minimum convert
an exact operand before they look at it. That they select the operand which
comparison ranks first all the same (`extremum_selects`) rests on conversion
being monotone: rounding does not change the order of two values, though it may
make them equal (`Flonum.StandsFor.value_le`).
-/

namespace NumericTower

open BinaryRow Number Extended

/-! ## Conversion keeps the order -/

namespace Flonum

/-- A double stands for an extended rational: it is nearest to it, or the same
infinity. -/
inductive StandsFor : Flonum → Extended → Prop
  | nearest {x : Flonum} {q : ℚ} (h : x.IsNearest q) : StandsFor x (ofRat q)
  | bot : StandsFor (.infinite true) ⊥
  | top : StandsFor (.infinite false) ⊤

namespace StandsFor

variable {x y : Flonum} {u v u' v' : Extended}

/-- What stands for a value has a value itself. -/
theorem exists_value? (h : x.StandsFor u) : ∃ u', x.value? = some u' := by
  cases h with
  | nearest h =>
    cases h with
    | finite value => exact ⟨_, value?_of_toRat? value⟩
    | infinite => exact ⟨_, rfl⟩
  | bot => exact ⟨_, rfl⟩
  | top => exact ⟨_, rfl⟩

/-- **What stands for values is in their order.** -/
theorem value_le (hx : x.StandsFor u) (hy : y.StandsFor v) (h : u ≤ v)
    (hu : x.value? = some u') (hv : y.value? = some v') : u' ≤ v' := by
  cases hx with
  | nearest hx =>
    cases hy with
    | nearest hy => exact hx.value_le hy (ofRat_strictMono.le_iff_le.1 h) hu hv
    | bot => exact absurd (bot_lt_ofRat _) (not_lt.2 h)
    | top => exact Option.some.inj hv ▸ le_top
  | bot => exact Option.some.inj hu ▸ bot_le
  | top =>
    cases hy with
    | nearest hy => exact absurd (ofRat_lt_top _) (not_lt.2 h)
    | bot => exact absurd h (not_le.2 bot_lt_top)
    | top => exact Option.some.inj hv ▸ le_top

end StandsFor

end Flonum

/-- A number converts to a double that stands for its value. -/
theorem Number.standsFor_toFlonum {a : Number} {u : Extended} (h : a.value? = some u) :
    a.toFlonum.StandsFor u := by
  cases a with
  | fixnum a => exact Option.some.inj h ▸ .nearest (Flonum.isNearest_ofInt a.toInt)
  | bignum a => exact Option.some.inj h ▸ .nearest (Flonum.isNearest_ofInt a.toInt)
  | flonum x =>
    cases x with
    | nan => cases h
    | infinite negative =>
      obtain rfl := Option.some.inj h
      cases negative with
      | false => exact .top
      | true => exact .bot
    | finite negative m =>
      obtain rfl := Option.some.inj h
      exact .nearest (Flonum.isNearest_of_toRat? (Flonum.toRat?_finite negative m))

/-! ## Between flonums -/

namespace Flonum

variable {x y : Flonum} {u v : Extended}

theorem value?_maxFlonum (hx : x.value? = some u) (hy : y.value? = some v) :
    (maxFlonum x y).value? = some (max u v) := by
  rw [maxFlonum, compare?_of_value? hx hy]
  rcases lt_trichotomy u v with h | h | h
  · rw [compare_lt_iff_lt.2 h, max_eq_right h.le]
    exact hy
  · rw [compare_eq_iff_eq.2 h, max_eq_right h.le]
    exact hy
  · rw [compare_gt_iff_gt.2 h, max_eq_left h.le]
    exact hx

theorem value?_minFlonum (hx : x.value? = some u) (hy : y.value? = some v) :
    (minFlonum x y).value? = some (min u v) := by
  rw [minFlonum, compare?_of_value? hx hy]
  rcases lt_trichotomy u v with h | h | h
  · rw [compare_lt_iff_lt.2 h, min_eq_left h.le]
    exact hx
  · rw [compare_eq_iff_eq.2 h, min_eq_left h.le]
    exact hx
  · rw [compare_gt_iff_gt.2 h, min_eq_right h.le]
    exact hy

/-- A NaN is passed on, whichever operand it is. -/
theorem extremum_of_nan (h : x = .nan ∨ y = .nan) :
    maxFlonum x y = .nan ∧ minFlonum x y = .nan := by
  have hnone : x.compare? y = none := by
    rw [compare?_eq]
    rcases h with rfl | rfl
    · rfl
    · cases x.value? <;> rfl
  rw [maxFlonum, minFlonum, hnone]
  exact ⟨rfl, rfl⟩

end Flonum

/-! ## Which operand -/

/-- The outcome is that of an operand which stands in a relation to both:
the operand itself if both are exact, and what its double is equal to if not. -/
structure Outcome.Selects (outcome : Outcome) (rel : Number → Number → Bool) (a b n : Number) :
    Prop where
  operand : n = a ∨ n = b
  left : rel n a = true
  right : rel n b = true
  exact : a.isExact = true → b.isExact = true → outcome = .ok n
  inexact : a.kind = .flonum ∨ b.kind = .flonum →
    ∃ x : Flonum, outcome = .ok (.flonum x) ∧ x.numEq n.toFlonum = true

theorem Number.le_of_value? {i j : Int} {u v : Extended} (hu : (ofInt i).value? = some u)
    (hv : (ofInt j).value? = some v) (h : u ≤ v) : i ≤ j := by
  rw [value?_ofInt, Option.some_inj] at hu hv
  rwa [← hu, ← hv, ofRat_strictMono.le_iff_le, Int.cast_le] at h

section

variable {a b : Number} {u v : Extended}

/-- It is enough to say what comes of two integers, and that the double next to
a flonum has the value of the operand's double. -/
theorem Outcome.selects_of_value? {outcome : Outcome} {rel : Number → Number → Bool} {n : Number}
    (ha : a.Canonical) (hb : b.Canonical) (hn : n = a ∨ n = b) (hu : n.value? = some u)
    (hleft : rel n a = true) (hright : rel n b = true)
    (hexact : ∀ v w, a = ofInt v → b = ofInt w → outcome = .ok n)
    (hinexact : AnyFlonum a b →
      ∃ x : Flonum, outcome = .ok (.flonum x) ∧ x.value? = n.toFlonum.value?) :
    outcome.Selects rel a b n := by
  refine ⟨hn, hleft, hright, ?_, ?_⟩
  · intro hea heb
    obtain ⟨v, rfl⟩ := exists_eq_ofInt ha hea
    obtain ⟨w, rfl⟩ := exists_eq_ofInt hb heb
    exact hexact v w rfl rfl
  · intro hany
    obtain ⟨x, hx, hvalue⟩ := hinexact (anyFlonum_iff.2 hany)
    obtain ⟨u', hu'⟩ := (standsFor_toFlonum hu).exists_value?
    exact ⟨x, hx, Flonum.numEq_of_value? (hvalue.trans hu') hu'⟩

/-! ### The greater operand -/

theorem max_apply_ofInt (limits : Limits) (v w : Int) :
    BinaryOp.max.apply limits (ofInt v) (ofInt w) = .ok (ofInt (max v w)) := by
  have happly : BinaryOp.max.apply limits (ofInt v) (ofInt w) =
      .ok (ofInt (if w < v then v else w)) :=
    BinaryOp.apply_ofInt_of_not_hasDivisor rfl rfl limits v w
  rw [happly, max_comm, max_def_lt]

theorem max_apply_of_anyFlonum (limits : Limits) (h : AnyFlonum a b) :
    BinaryOp.max.apply limits a b = .ok (.flonum (maxFlonum a.toFlonum b.toFlonum)) :=
  (BinaryOp.row_converts .max (by decide) limits).cell h

/-- **The maximum is an operand that no operand is greater than.** -/
theorem exists_max_selects (limits : Limits) (ha : a.Canonical) (hb : b.Canonical)
    (hu : a.value? = some u) (hv : b.value? = some v) :
    ∃ n, (BinaryOp.max.apply limits a b).Selects ge a b n := by
  have hleft := standsFor_toFlonum hu
  have hright := standsFor_toFlonum hv
  obtain ⟨u', hu'⟩ := hleft.exists_value?
  obtain ⟨v', hv'⟩ := hright.exists_value?
  have hmax := Flonum.value?_maxFlonum hu' hv'
  rcases le_total u v with h | h
  · rw [max_eq_right (hleft.value_le hright h hu' hv'), ← hv'] at hmax
    refine ⟨b, Outcome.selects_of_value? ha hb (.inr rfl) hv ((ge_iff hb ha).2 ⟨v, u, hv, hu, h⟩)
      ((ge_iff hb hb).2 ⟨v, v, hv, hv, le_rfl⟩) ?_
      fun hany => ⟨_, max_apply_of_anyFlonum limits hany, hmax⟩⟩
    rintro i j rfl rfl
    rw [max_apply_ofInt, max_eq_right (le_of_value? hu hv h)]
  · rw [max_eq_left (hright.value_le hleft h hv' hu'), ← hu'] at hmax
    refine ⟨a, Outcome.selects_of_value? ha hb (.inl rfl) hu
      ((ge_iff ha ha).2 ⟨u, u, hu, hu, le_rfl⟩) ((ge_iff ha hb).2 ⟨u, v, hu, hv, h⟩) ?_
      fun hany => ⟨_, max_apply_of_anyFlonum limits hany, hmax⟩⟩
    rintro i j rfl rfl
    rw [max_apply_ofInt, max_eq_left (le_of_value? hv hu h)]

/-! ### The smaller operand -/

theorem min_apply_ofInt (limits : Limits) (v w : Int) :
    BinaryOp.min.apply limits (ofInt v) (ofInt w) = .ok (ofInt (min v w)) := by
  have happly : BinaryOp.min.apply limits (ofInt v) (ofInt w) =
      .ok (ofInt (if w < v then w else v)) :=
    BinaryOp.apply_ofInt_of_not_hasDivisor rfl rfl limits v w
  rw [happly, min_comm, min_def_lt]

theorem min_apply_of_anyFlonum (limits : Limits) (h : AnyFlonum a b) :
    BinaryOp.min.apply limits a b = .ok (.flonum (minFlonum a.toFlonum b.toFlonum)) :=
  (BinaryOp.row_converts .min (by decide) limits).cell h

/-- **The minimum is an operand that no operand is less than.** -/
theorem exists_min_selects (limits : Limits) (ha : a.Canonical) (hb : b.Canonical)
    (hu : a.value? = some u) (hv : b.value? = some v) :
    ∃ n, (BinaryOp.min.apply limits a b).Selects le a b n := by
  have hleft := standsFor_toFlonum hu
  have hright := standsFor_toFlonum hv
  obtain ⟨u', hu'⟩ := hleft.exists_value?
  obtain ⟨v', hv'⟩ := hright.exists_value?
  have hmin := Flonum.value?_minFlonum hu' hv'
  rcases le_total u v with h | h
  · rw [min_eq_left (hleft.value_le hright h hu' hv'), ← hu'] at hmin
    refine ⟨a, Outcome.selects_of_value? ha hb (.inl rfl) hu
      ((le_iff ha ha).2 ⟨u, u, hu, hu, le_rfl⟩) ((le_iff ha hb).2 ⟨u, v, hu, hv, h⟩) ?_
      fun hany => ⟨_, min_apply_of_anyFlonum limits hany, hmin⟩⟩
    rintro i j rfl rfl
    rw [min_apply_ofInt, min_eq_left (le_of_value? hu hv h)]
  · rw [min_eq_right (hright.value_le hleft h hv' hu'), ← hv'] at hmin
    refine ⟨b, Outcome.selects_of_value? ha hb (.inr rfl) hv ((le_iff hb ha).2 ⟨v, u, hv, hu, h⟩)
      ((le_iff hb hb).2 ⟨v, v, hv, hv, le_rfl⟩) ?_
      fun hany => ⟨_, min_apply_of_anyFlonum limits hany, hmin⟩⟩
    rintro i j rfl rfl
    rw [min_apply_ofInt, min_eq_right (le_of_value? hv hu h)]

/-! ## Both -/

/-- **Maximum and minimum agree with comparison**, in every pairing and under
every limit. Of two numbers other than a NaN they select one that comparison
ranks greatest, or least: the operand itself if both are exact, and a flonum
equal to its double if not. Next to a NaN both give a NaN. -/
theorem extremum_selects (limits : Limits) (ha : a.Canonical) (hb : b.Canonical) :
    (a ≠ .flonum .nan → b ≠ .flonum .nan →
      (∃ n, (BinaryOp.max.apply limits a b).Selects ge a b n) ∧
        ∃ n, (BinaryOp.min.apply limits a b).Selects le a b n) ∧
    (a = .flonum .nan ∨ b = .flonum .nan →
      BinaryOp.max.apply limits a b = .ok (.flonum .nan) ∧
        BinaryOp.min.apply limits a b = .ok (.flonum .nan)) := by
  constructor
  · intro hna hnb
    obtain ⟨u, hu⟩ := Option.ne_none_iff_exists'.1 (value?_eq_none_iff.not.2 hna)
    obtain ⟨v, hv⟩ := Option.ne_none_iff_exists'.1 (value?_eq_none_iff.not.2 hnb)
    exact ⟨exists_max_selects limits ha hb hu hv, exists_min_selects limits ha hb hu hv⟩
  · intro h
    have hany : AnyFlonum a b := by
      rcases h with rfl | rfl
      · exact .left .nan b
      · exact .right a .nan
    have hnan : a.toFlonum = .nan ∨ b.toFlonum = .nan := by
      rcases h with rfl | rfl
      · exact .inl rfl
      · exact .inr rfl
    rw [max_apply_of_anyFlonum limits hany, min_apply_of_anyFlonum limits hany,
      (Flonum.extremum_of_nan hnan).1, (Flonum.extremum_of_nan hnan).2]
    exact ⟨rfl, rfl⟩

end

/-- `2^53 + 1` is greater than the flonum `2^53`, but no double lies between
them: the maximum is equal to that flonum too. -/
theorem extremum_selects_lost :
    let a : Number := .fixnum (.ofInt 9007199254740993)
    let b : Number := .flonum (.finite false ⟨4845873199050653696, by decide⟩)
    a.Canonical ∧ b.Canonical ∧ a ≠ .flonum .nan ∧ b ≠ .flonum .nan ∧ b.ge a = false ∧
      BinaryOp.max.apply ⟨0⟩ a b = .ok b ∧
      (∃ n, (BinaryOp.max.apply ⟨0⟩ a b).Selects ge a b n) ∧
      (∃ n, (BinaryOp.min.apply ⟨0⟩ a b).Selects le a b n) ∧
      BinaryOp.min.apply ⟨0⟩ (.flonum .nan) a = .ok (.flonum .nan) := by
  intro a b
  have ha : a.Canonical := canonical_fixnum _
  have hb : b.Canonical := canonical_flonum _
  have hna : a ≠ .flonum .nan := nofun
  have hnb : b ≠ .flonum .nan := by decide
  obtain ⟨hmax, hmin⟩ := (extremum_selects ⟨0⟩ ha hb).1 hna hnb
  exact ⟨ha, hb, hna, hnb, by decide +kernel, by decide +kernel, hmax, hmin,
    ((extremum_selects ⟨0⟩ (canonical_flonum .nan) ha).2 (.inl rfl)).2⟩

end NumericTower
