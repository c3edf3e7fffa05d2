import NumericTower.Proofs.Flonum.NearestValue
import NumericTower.Proofs.Number.Conversion
import NumericTower.Proofs.Operator.Boundary
/-!
# Differences and negatives

A difference is the sum with the negative, although the two do not take the
same way: negation changes the kind at the ends of the word range, and next to a
flonum one side negates after conversion and the other one before. Conversion
and negation can be exchanged up to the sign of a zero (`value?_ofInt_neg`), and
the value of a sum does not see that sign (`value?_add_congr`). So the results
agree in all pairings (`sub_agrees_add_negate`).
-/

namespace NumericTower

open Number Extended

namespace Flonum

variable {x y z : Flonum}

/-! ## Values of flonums -/

/-- What is not finite has its value, or none, to itself. -/
theorem eq_of_value?_eq (hx : x.toRat? = none) (h : x.value? = y.value?) : x = y := by
  cases y with
  | nan =>
    cases x with
    | nan => rfl
    | infinite negative => cases h
    | finite negative m => cases hx
  | infinite negative =>
    cases x with
    | nan => cases h
    | infinite negative' =>
      have hend := Option.some.inj h
      cases negative <;> cases negative' <;>
        first
          | rfl
          | exact absurd hend bot_ne_top
          | exact absurd hend top_ne_bot
    | finite negative m => cases hx
  | finite negative m =>
    have hvalue := value?_eq_ofRat_iff.1 (h.trans (value?_of_toRat? (toRat?_finite negative m)))
    rw [hx] at hvalue
    cases hvalue

/-- **A sum depends on the values alone**: a finite one is rounded from them, and
no finite addend changes an infinity. -/
theorem value?_add_congr (x : Flonum) (h : y.value? = z.value?) :
    (x.add y).value? = (x.add z).value? := by
  cases hy : y.toRat? with
  | none => rw [eq_of_value?_eq hy h]
  | some q =>
    have hz : z.toRat? = some q := value?_eq_ofRat_iff.1 (h.symm.trans (value?_of_toRat? hy))
    cases hx : x.toRat? with
    | some p => exact (isNearest_add hx hy).value_unique (isNearest_add hx hz)
    | none =>
      obtain ⟨negative, m, rfl, -⟩ := exists_finite_of_toRat? hy
      obtain ⟨negative', m', rfl, -⟩ := exists_finite_of_toRat? hz
      cases x with
      | nan => rfl
      | infinite sign => rfl
      | finite sign k => cases hx

/-- **Negation and conversion can be exchanged**, but for the sign of a zero. -/
theorem value?_ofInt_neg (v : Int) : (ofInt (-v)).value? = (ofInt v).neg.value? := by
  have hneg := (isNearest_ofInt v).neg
  rw [← Int.cast_neg] at hneg
  exact (isNearest_ofInt (-v)).value_unique hneg

end Flonum

/-! ## Agreement of results -/

/-- Two results agree: both are the NaN, or they are the same number, as the
inexact zeros are. -/
def Number.Agrees (r s : Number) : Prop :=
  (r = .flonum .nan ∧ s = .flonum .nan) ∨ r.same s = true

/-- Flonums agree if they have one value, or none. -/
theorem Number.agrees_flonum {x y : Flonum} (h : x.value? = y.value?) :
    (flonum x).Agrees (flonum y) := by
  cases hx : x.value? with
  | none =>
    have hnan : flonum x = flonum .nan := value?_eq_none_iff.1 hx
    have hnan' : flonum y = flonum .nan := value?_eq_none_iff.1 (h.symm.trans hx)
    exact .inl ⟨hnan, hnan'⟩
  | some u => exact .inr (Flonum.numEq_of_value? hx (h.symm.trans hx))

/-! ## Sums and differences -/

section

variable {a b n : Number}

theorem add_apply_of_anyFlonum (limits : Limits) (h : AnyFlonum a b) :
    BinaryOp.add.apply limits a b = .ok (.flonum (a.toFlonum.add b.toFlonum)) :=
  (BinaryOp.row_converts .add (by decide) limits).cell h

theorem sub_apply_of_anyFlonum (limits : Limits) (h : AnyFlonum a b) :
    BinaryOp.sub.apply limits a b = .ok (.flonum (a.toFlonum.add b.toFlonum.neg)) :=
  (BinaryOp.row_converts .sub (by decide) limits).cell h

/-- Next to a flonum the negative has to have the value of the negated double. -/
theorem sub_agrees_of_anyFlonum (limits : Limits) (h : AnyFlonum a b) (h' : AnyFlonum a n)
    (hvalue : b.toFlonum.neg.value? = n.toFlonum.value?) :
    ∃ r s, BinaryOp.sub.apply limits a b = .ok r ∧ BinaryOp.add.apply limits a n = .ok s ∧
      r.Agrees s :=
  ⟨_, _, sub_apply_of_anyFlonum limits h, add_apply_of_anyFlonum limits h',
    agrees_flonum (Flonum.value?_add_congr a.toFlonum hvalue)⟩

theorem sub_agrees_ofInt (limits : Limits) (v w : Int) :
    ∃ r s, BinaryOp.sub.apply limits (ofInt v) (ofInt w) = .ok r ∧
      BinaryOp.add.apply limits (ofInt v) (ofInt (-w)) = .ok s ∧ r.Agrees s := by
  have hsub : BinaryOp.sub.apply limits (ofInt v) (ofInt w) = .ok (ofInt (v - w)) :=
    BinaryOp.apply_ofInt_of_not_hasDivisor rfl rfl limits v w
  have hadd : BinaryOp.add.apply limits (ofInt v) (ofInt (-w)) = .ok (ofInt (v + -w)) :=
    BinaryOp.apply_ofInt_of_not_hasDivisor rfl rfl limits v (-w)
  rw [← Int.sub_eq_add_neg] at hadd
  exact ⟨_, _, hsub, hadd, .inr (same_self_of_toInt? (toInt?_ofInt (v - w)))⟩

/-- **Subtraction is addition of the negative**, in every pairing of kinds: the
negative, the difference and the sum are all given, and the two results are both
the NaN or the same number. -/
theorem sub_agrees_add_negate (limits : Limits) (ha : a.Canonical) (hb : b.Canonical) :
    ∃ n r s, UnaryOp.negate.apply b = .ok n ∧ BinaryOp.sub.apply limits a b = .ok r ∧
      BinaryOp.add.apply limits a n = .ok s ∧
      ((r = .flonum .nan ∧ s = .flonum .nan) ∨ r.same s = true) := by
  rcases eq_ofInt_or_flonum hb with ⟨w, rfl⟩ | ⟨y, rfl⟩
  · refine ⟨ofInt (-w), ?_⟩
    rcases eq_ofInt_or_flonum ha with ⟨v, rfl⟩ | ⟨x, rfl⟩
    · obtain ⟨r, s, hr, hs, hagree⟩ := sub_agrees_ofInt limits v w
      exact ⟨r, s, negate_apply_ofInt w, hr, hs, hagree⟩
    · have hvalue : (ofInt w).toFlonum.neg.value? = (ofInt (-w)).toFlonum.value? := by
        rw [toFlonum_of_toInt? (toInt?_ofInt w), toFlonum_of_toInt? (toInt?_ofInt (-w)),
          Flonum.value?_ofInt_neg]
      obtain ⟨r, s, hr, hs, hagree⟩ :=
        sub_agrees_of_anyFlonum limits (.left x (ofInt w)) (.left x (ofInt (-w))) hvalue
      exact ⟨r, s, negate_apply_ofInt w, hr, hs, hagree⟩
  · -- a flonum is negated as it is, and then both sides are one sum
    obtain ⟨r, s, hr, hs, hagree⟩ :=
      sub_agrees_of_anyFlonum limits (.right a y) (.right a y.neg) rfl
    exact ⟨.flonum y.neg, r, s, rfl, hr, hs, hagree⟩

end

/-- Exact zero has no negative zero to go with: taken away from `-0.0` it leaves
`-0.0`, and its negative added to that makes `0.0`, which is the same number. -/
theorem sub_agrees_add_negate_zero :
    let a : Number := .flonum (.zero true)
    let b : Number := .fixnum .zero
    a.Canonical ∧ b.Canonical ∧ BinaryOp.sub.apply ⟨0⟩ a b = .ok a ∧
      BinaryOp.add.apply ⟨0⟩ a b = .ok (.flonum (.zero false)) ∧
      ∃ n r s, UnaryOp.negate.apply b = .ok n ∧ BinaryOp.sub.apply ⟨0⟩ a b = .ok r ∧
        BinaryOp.add.apply ⟨0⟩ a n = .ok s ∧
        ((r = .flonum .nan ∧ s = .flonum .nan) ∨ r.same s = true) :=
  ⟨canonical_flonum _, canonical_fixnum _, by decide +kernel, by decide +kernel,
    sub_agrees_add_negate ⟨0⟩ (canonical_flonum _) (canonical_fixnum _)⟩

end NumericTower
