import NumericTower.Proofs.Operator.Limit
/-!
# Limits cut off

A limit acts on an operator in one way: it rejects the result if the count
of bits that the operands ask for is more than it allows. `CutOff` states
this of an outcome that is still open to the limit, and every operator's
outcome is of that kind (`cutOff_apply`): the count, the result and all
other errors are the same under every limit.

Two limits are therefore compared without another look at the operators
(`apply_limits_mono`).
-/

namespace NumericTower

open BinaryRow Number

namespace BinaryOp

variable {op : BinaryOp} {a b : Number}

/-! ## Outcomes that a limit cuts off -/

/-- What an operator on given operands does under each limit: the same
under all of them, and then without an error of a limit; or a result, cut
off if its count of bits is more than the limit allows; or an error of a
limit under all of them, which no limit admits. -/
inductive CutOff (operation : String) (f : Limits → Outcome) : Prop
  | never (outcome : Outcome) (h : ∀ limits, f limits = outcome)
      (hlimit : ∀ o bits most, outcome ≠ .error (.limitExceeded o bits most))
  | past (bits : UInt64) (n : Number)
      (h : ∀ limits : Limits, f limits =
        if limits.maxIntegerBits < bits then
          .error (.limitExceeded operation bits limits.maxIntegerBits)
        else .ok n)
  | always (bits : UInt64)
      (h : ∀ limits : Limits, f limits =
        .error (.limitExceeded operation bits limits.maxIntegerBits))

/-- The other operators have one row for all limits. -/
theorem apply_of_not_isLimited (h : op.isLimited = false) (limits limits' : Limits) (a b : Number) :
    op.apply limits a b = op.apply limits' a b := by
  cases op with
  | expt | shiftLeft | shiftRight => cases h
  | _ => rfl

/-- Next to a flonum no operator looks at the limit. -/
theorem apply_of_anyFlonum_eq (op : BinaryOp) (limits limits' : Limits) (h : AnyFlonum a b) :
    op.apply limits a b = op.apply limits' a b := by
  cases hlimited : op.isLimited with
  | false => exact apply_of_not_isLimited hlimited limits limits' a b
  | true =>
    obtain ⟨x, hx⟩ := h.exists_leftmost
    have hconverts (l : Limits) : (power l).Converts := row_converts .expt (by decide) l
    cases op with
    | expt => exact ((hconverts limits).cell h).trans ((hconverts limits').cell h).symm
    | shiftLeft => exact (exactOnly_cell hx).trans (exactOnly_cell hx).symm
    | shiftRight => exact (exactOnly_cell hx).trans (exactOnly_cell hx).symm
    | _ => cases hlimited

/-- **Limits act by cutting off**, on exact operands. The rules for the
operands come first, and the bits that are left to check are the same under
every limit. -/
theorem cutOff_exactOutcome (op : BinaryOp) (v w : Int) :
    CutOff op.name fun limits => op.exactOutcome limits v w := by
  have hrules (limits : Limits) : op.exactOutcome limits v w =
      .ofFault ((op.operandFault? (ofInt v) (ofInt w)).or (op.limitFault? limits v w))
        (ofInt (op.value v w)) := by
    rw [exactOutcome, fault?_eq_or, limitReached?, toInt?_ofInt, toInt?_ofInt, Option.bind_some,
      Option.bind_some]
  simp only [hrules]
  cases hfault : op.operandFault? (ofInt v) (ofInt w) with
  | some e =>
    refine .never (.error e) (fun _ => rfl) ?_
    rintro o bits most ⟨⟩
    cases isClientError_of_operandFault? hfault
  | none =>
    simp only [Option.none_or, limitFault?]
    cases hbits : op.checkedBits? v w with
    | none => exact .never (.ok _) (fun _ => rfl) (by rintro _ _ _ ⟨⟩)
    | some bits =>
      simp only [Option.bind_some]
      by_cases hlarge : op = .expt ∧ largestExponent < w.natAbs
      · refine .always (Limits.saturated bits) fun limits => ?_
        rw [if_pos (.inr hlarge)]
        rfl
      · refine .past (Limits.saturated bits) (ofInt (op.value v w)) fun limits => ?_
        simp only [hlarge, or_false]
        split <;> rfl

/-- **And on all canonical operands**: next to a flonum there is nothing to
cut off. -/
theorem cutOff_apply (op : BinaryOp) (ha : a.Canonical) (hb : b.Canonical) :
    CutOff op.name fun limits => op.apply limits a b := by
  by_cases hflonum : AnyFlonum a b
  · refine .never (op.apply .standard a b) (fun limits => ?_) ?_
    · exact op.apply_of_anyFlonum_eq limits .standard hflonum
    · intro o bits most herror
      obtain ⟨n, hn, -⟩ := op.apply_of_anyFlonum .standard hb hflonum
      rw [hn, Outcome.ofFault_eq_error_iff] at herror
      obtain ⟨-, ha, hb, -⟩ := limitReached?_eq_some (limitReached?_of_fault? herror)
      rcases anyFlonum_iff.1 hflonum with h | h
      · rw [Number.isExact, h] at ha
        cases ha
      · rw [Number.isExact, h] at hb
        cases hb
  · obtain ⟨v, rfl⟩ := (eq_ofInt_or_flonum ha).resolve_right
      (by rintro ⟨x, rfl⟩; exact hflonum (.left x b))
    obtain ⟨w, rfl⟩ := (eq_ofInt_or_flonum hb).resolve_right
      (by rintro ⟨y, rfl⟩; exact hflonum (.right _ y))
    simp only [op.apply_ofInt]
    exact cutOff_exactOutcome op v w

namespace CutOff

variable {operation : String} {f : Limits → Outcome} {low high : Limits}

/-- What a limit lets pass a larger one does. -/
theorem eq_ok (h : CutOff operation f) (hle : low.maxIntegerBits ≤ high.maxIntegerBits)
    {r : Number} (hr : f low = .ok r) : f high = .ok r := by
  cases h with
  | never outcome h _ => rw [h, ← h low, hr]
  | past bits n h =>
    rw [h] at hr ⊢
    split at hr
    · cases hr
    · rename_i hbits
      rw [if_neg fun hhigh => hbits (UInt64.lt_of_le_of_lt hle hhigh), hr]
  | always bits h =>
    rw [h] at hr
    cases hr

/-- And what a limit cuts off a smaller one does, for the same bits. -/
theorem eq_limitExceeded (h : CutOff operation f) (hle : low.maxIntegerBits ≤ high.maxIntegerBits)
    {o : String} {bits most : UInt64} (he : f high = .error (.limitExceeded o bits most)) :
    f low = .error (.limitExceeded o bits low.maxIntegerBits) := by
  cases h with
  | never outcome h hlimit => exact absurd ((h high).symm.trans he) (hlimit o bits most)
  | past count n h =>
    rw [h] at he ⊢
    split at he
    · rename_i hbits
      cases he
      rw [if_pos (UInt64.lt_of_le_of_lt hle hbits)]
    · cases he
  | always count h =>
    rw [h] at he ⊢
    cases he
    rfl

/-- No other error depends on a limit. -/
theorem eq_error (h : CutOff operation f) {e : NumericError}
    (hlimit : ∀ o bits most, e ≠ .limitExceeded o bits most) (he : f low = .error e) :
    f high = .error e := by
  cases h with
  | never outcome h _ => rw [h, ← h low, he]
  | past bits n h =>
    rw [h] at he
    split at he
    · cases he
      exact absurd rfl (hlimit _ _ _)
    · cases he
  | always bits h =>
    rw [h] at he
    cases he
    exact absurd rfl (hlimit _ _ _)

end CutOff

/-- **Limits only cut off, and larger ones less.** A result under one limit
is the result under every larger one. What a limit rejects the smaller ones
reject, for the same count of bits. All other errors are the same under
both. And apart from powers and shifts nothing depends on a limit at all. -/
theorem apply_limits_mono (op : BinaryOp) {low high : Limits}
    (hle : low.maxIntegerBits ≤ high.maxIntegerBits) {a b : Number} (ha : a.Canonical)
    (hb : b.Canonical) :
    (∀ r, op.apply low a b = .ok r → op.apply high a b = .ok r) ∧
      (∀ operation bits most,
        op.apply high a b = .error (.limitExceeded operation bits most) →
          op.apply low a b = .error (.limitExceeded operation bits low.maxIntegerBits)) ∧
      (∀ e, (∀ operation bits most, e ≠ .limitExceeded operation bits most) →
        (op.apply low a b = .error e ↔ op.apply high a b = .error e)) ∧
      (op ≠ .expt → op ≠ .shiftLeft → op ≠ .shiftRight →
        ∀ limits limits', op.apply limits a b = op.apply limits' a b) := by
  have hcut := op.cutOff_apply ha hb
  refine ⟨fun r => hcut.eq_ok hle, fun o bits most => hcut.eq_limitExceeded hle, ?_, ?_⟩
  · intro e he
    exact ⟨hcut.eq_error he, hcut.eq_error he⟩
  · intro hexpt hleft hright limits limits'
    refine apply_of_not_isLimited ?_ limits limits' a b
    cases op with
    | expt => exact absurd rfl hexpt
    | shiftLeft => exact absurd rfl hleft
    | shiftRight => exact absurd rfl hright
    | _ => rfl

/-- A shift that needs 65 bits passes a limit of 65 and so one of 66, and is
cut off by a limit of 64 and so by one of 63. -/
theorem apply_limits_mono_sixty_five :
    let shift (bits : UInt64) := BinaryOp.shiftLeft.apply ⟨bits⟩ (ofInt (-1)) (ofInt 64)
    (63 : UInt64) ≤ 64 ∧ (65 : UInt64) ≤ 66 ∧ (ofInt (-1)).Canonical ∧ (ofInt 64).Canonical ∧
      shift 65 = .ok (.bignum ⟨-18446744073709551616⟩) ∧
      shift 66 = .ok (.bignum ⟨-18446744073709551616⟩) ∧
      shift 64 = .error (.limitExceeded "shift-left" 65 64) ∧
      shift 63 = .error (.limitExceeded "shift-left" 65 63) := by
  have hlow : (⟨63⟩ : Limits).maxIntegerBits ≤ (⟨64⟩ : Limits).maxIntegerBits := by decide
  have hhigh : (⟨65⟩ : Limits).maxIntegerBits ≤ (⟨66⟩ : Limits).maxIntegerBits := by decide
  have hpass : BinaryOp.shiftLeft.apply ⟨65⟩ (ofInt (-1)) (ofInt 64) =
      .ok (.bignum ⟨-18446744073709551616⟩) := by decide +kernel
  have hcut : BinaryOp.shiftLeft.apply ⟨64⟩ (ofInt (-1)) (ofInt 64) =
      .error (.limitExceeded "shift-left" 65 64) := by decide +kernel
  have ha := canonical_ofInt (-1)
  have hb := canonical_ofInt 64
  exact ⟨hlow, hhigh, ha, hb, hpass, (apply_limits_mono .shiftLeft hhigh ha hb).1 _ hpass, hcut,
    (apply_limits_mono .shiftLeft hlow ha hb).2.1 _ _ _ hcut⟩

end BinaryOp

end NumericTower
