import NumericTower.Number.Order
import NumericTower.Proofs.Fixnum.Exact
import NumericTower.Proofs.Flonum.Nearest
import NumericTower.Proofs.Number.Value
/-!
# Comparison is exact

The nine pairings answer in nine ways, and all of them with the order of
the two values (`Number.compare?_eq`). Between an integer and a flonum that
rests on truncation being exact: the integer part decides, and where it
does not the fraction does (`compare_then_compare`). Between a word and a
bignum the sign decides, which is enough for canonical bignums only.

What is asked of an order follows from values being ordered, without
another look at the kinds.
-/

namespace NumericTower

open Extended

theorem swap_compare {α : Type*} [LinearOrder α] (x y : α) :
    (compare x y).swap = compare y x := by
  rw [← cmp_eq_compare, ← cmp_eq_compare, cmp_swap]

/-- An exact number is the same as itself, as a NaN is not. -/
theorem same_self_of_toInt? {n : Number} {v : Int} (h : n.toInt? = some v) :
    n.same n = true := by
  cases n with
  | fixnum a => simp [Number.same]
  | bignum a => simp [Number.same]
  | flonum x => cases h

namespace Flonum

/-! ## Integers against flonums -/

/-- An integer part, then the fraction: the two comparisons that decide
`v * u` against `s` when `w` is `s / u` cut off. -/
theorem compare_then_compare {v w s u : Int} (hu : 0 < u) (low : w * u - u < s)
    (high : s < w * u + u) : (compare v w).then (compare (w * u) s) = compare (v * u) s := by
  rcases lt_trichotomy v w with h | rfl | h
  · -- a smaller integer is smaller by one, which is more than the cut
    have hle : v * u ≤ (w - 1) * u := Int.mul_le_mul_of_nonneg_right (by omega) hu.le
    rw [Int.sub_mul, Int.one_mul] at hle
    rw [compare_lt_iff_lt.2 h, compare_lt_iff_lt.2 (by omega : v * u < s)]
    rfl
  · rw [compare_eq_iff_eq.2 rfl]
    rfl
  · have hle : (w + 1) * u ≤ v * u := Int.mul_le_mul_of_nonneg_right (by omega) hu.le
    rw [Int.add_mul, Int.one_mul] at hle
    rw [compare_gt_iff_gt.2 h, compare_gt_iff_gt.2 (by omega : s < v * u)]
    rfl

/-- The fraction's sign, reversed. -/
theorem compareTrunc_of_compare? {y : Flonum} {o : Ordering} (h : y.compare? y.trunc = some o) :
    y.compareTrunc = o.swap := by
  rw [compareTrunc, h]
  cases o <;> rfl

/-- Truncation takes away less than one. -/
theorem signedUnits_near_whole (negative : Bool) (m : Magnitude) :
    (if negative then -(wholeBelow m : Int) else wholeBelow m) * unitsPerOne - unitsPerOne <
        signedUnits negative m ∧
      signedUnits negative m <
        (if negative then -(wholeBelow m : Int) else wholeBelow m) * unitsPerOne +
          unitsPerOne := by
  have hlow : wholeBelow m * unitsPerOne ≤ m.units := Nat.div_mul_le_self _ _
  have hhigh : m.units < wholeBelow m * unitsPerOne + unitsPerOne := by
    have := Nat.lt_mul_div_succ m.units unitsPerOne_pos
    rwa [Nat.mul_add_one, Nat.mul_comm] at this
  have hpos := unitsPerOne_pos
  cases negative with
  | false =>
    simp only [signedUnits, Bool.false_eq_true, if_false]
    omega
  | true =>
    simp only [signedUnits, if_true, Int.neg_mul]
    omega

/-- **An integer against a finite double, in units.** -/
theorem compareInt?_finite (v : Int) (negative : Bool) (m : Magnitude) :
    compareInt? v (.finite negative m) =
      some (compare (v * unitsPerOne) (signedUnits negative m)) := by
  obtain ⟨t, ht, htrunc⟩ := exists_trunc_eq negative m
  have hwhole := wholeBelow_of_units ht
  have hfraction : compareTrunc (.finite negative m) =
      (compare (signedUnits negative m) (signedUnits negative t)).swap :=
    compareTrunc_of_compare? (by rw [htrunc]; rfl)
  have hsigned : signedUnits negative t =
      (if negative then -(wholeBelow m : Int) else wholeBelow m) * unitsPerOne := by
    rw [signedUnits, ht]
    cases negative <;> simp
  obtain ⟨hlow, hhigh⟩ := signedUnits_near_whole negative m
  have hpos : (0 : Int) < unitsPerOne := by exact_mod_cast unitsPerOne_pos
  rw [compareInt?, htrunc, toInt?, Option.map_some, hwhole, hfraction, swap_compare, hsigned,
    compare_then_compare hpos hlow hhigh]

/-! ## Flonums against each other -/

theorem compare_ofRat_end (q : ℚ) (negative : Bool) :
    compare (ofRat q) (if negative then ⊥ else ⊤) = if negative then .gt else .lt := by
  cases negative with
  | false => exact compare_lt_iff_lt.2 (ofRat_lt_top q)
  | true => exact compare_gt_iff_gt.2 (bot_lt_ofRat q)

theorem compare_end_ofRat (q : ℚ) (negative : Bool) :
    compare (if negative then ⊥ else ⊤) (ofRat q) = if negative then .lt else .gt := by
  rw [← swap_compare, compare_ofRat_end]
  cases negative <;> rfl

/-- Two flonums are compared by their values. -/
theorem compare?_eq (x y : Flonum) :
    x.compare? y = x.value?.bind fun p => y.value?.map (compare p) := by
  cases x with
  | nan => rfl
  | infinite xn =>
    cases y with
    | nan => rfl
    | infinite yn => cases xn <;> cases yn <;> rfl
    | finite yn y =>
      rw [compare?, value?, value?, Option.bind_some, Option.map_some, ofUnits, compare_end_ofRat]
  | finite xn x =>
    cases y with
    | nan => rfl
    | infinite yn =>
      rw [compare?, value?, value?, Option.bind_some, Option.map_some, ofUnits, compare_ofRat_end]
    | finite yn y =>
      rw [compare?, value?, value?, Option.bind_some, Option.map_some, compare_ofUnits]

theorem compare?_of_value? {x y : Flonum} {u v : Extended} (hx : x.value? = some u)
    (hy : y.value? = some v) : x.compare? y = some (compare u v) := by
  rw [compare?_eq, hx, hy, Option.bind_some, Option.map_some]

/-- Flonums of one value are equal, the two zeros among them. -/
theorem numEq_of_value? {x y : Flonum} {u : Extended} (hx : x.value? = some u)
    (hy : y.value? = some u) : x.numEq y = true := by
  rw [numEq, beq_iff_eq, compare?_of_value? hx hy, compare_eq_iff_eq.2 rfl]

/-- An integer is compared with a flonum by their values. -/
theorem compareInt?_eq (v : Int) (y : Flonum) :
    y.compareInt? v = y.value?.map (compare (ofRat v)) := by
  cases y with
  | nan => rfl
  | infinite negative => rw [compareInt?, value?, Option.map_some, compare_ofRat_end]
  | finite negative m =>
    rw [compareInt?_finite, value?, Option.map_some, ofRat_intCast, compare_ofUnits]

/-- And a flonum with an integer, by the reversed answer. -/
theorem swap_compareInt?_eq (x : Flonum) (v : Int) :
    (x.compareInt? v).map .swap =
      x.value?.bind fun p => (some (ofRat v)).map (compare p) := by
  rw [compareInt?_eq]
  cases x.value? with
  | none => rfl
  | some p => exact congrArg some (swap_compare (ofRat v) p)

end Flonum

namespace Number

/-! ## All pairings -/

/-- The sign of an integer past the words says where it lies. -/
theorem compare_of_not_inRange {v w : Int} (hv : Fixnum.InRange v) (hw : ¬ Fixnum.InRange w) :
    compare v w = if w < 0 then .gt else .lt := by
  split
  · exact compare_gt_iff_gt.2 (by omega)
  · exact compare_lt_iff_lt.2 (by omega)

/-- **Numbers are compared by their values.** -/
theorem compare?_eq {a b : Number} (ha : a.Canonical) (hb : b.Canonical) :
    a.compare? b = a.value?.bind fun x => b.value?.map (compare x) := by
  cases a with
  | fixnum a =>
    cases b with
    | fixnum b =>
      rw [compare?, value?, value?, Option.bind_some, Option.map_some, compare_ofRat_intCast,
        Fixnum.order_eq]
    | bignum b =>
      -- here canonical is needed: a sign alone says nothing about a small bignum
      rw [compare?, value?, value?, Option.bind_some, Option.map_some, compare_ofRat_intCast,
        compare_of_not_inRange a.inRange_toInt hb, Bignum.isNegative]
      simp only [decide_eq_true_iff]
    | flonum y => exact Flonum.compareInt?_eq a.toInt y
  | bignum a =>
    cases b with
    | fixnum b =>
      rw [compare?, value?, value?, Option.bind_some, Option.map_some, compare_ofRat_intCast,
        ← swap_compare, compare_of_not_inRange b.inRange_toInt ha, Bignum.isNegative]
      simp only [decide_eq_true_iff]
      split <;> rfl
    | bignum b =>
      rw [compare?, value?, value?, Option.bind_some, Option.map_some, compare_ofRat_intCast]
    | flonum y => exact Flonum.compareInt?_eq a.toInt y
  | flonum x =>
    cases b with
    | fixnum b => exact Flonum.swap_compareInt?_eq x b.toInt
    | bignum b => exact Flonum.swap_compareInt?_eq x b.toInt
    | flonum y => exact Flonum.compare?_eq x y

/-! ## An order -/

theorem compare_trans {x y z : Extended} {o : Ordering} (hxy : compare x y = o)
    (hyz : compare y z = o) : compare x z = o := by
  cases o with
  | lt => exact compare_lt_iff_lt.2 ((compare_lt_iff_lt.1 hxy).trans (compare_lt_iff_lt.1 hyz))
  | eq => exact compare_eq_iff_eq.2 ((compare_eq_iff_eq.1 hxy).trans (compare_eq_iff_eq.1 hyz))
  | gt => exact compare_gt_iff_gt.2 ((compare_gt_iff_gt.1 hyz).trans (compare_gt_iff_gt.1 hxy))

section

variable {a b c : Number} {o : Ordering}

/-- An answer is the order of two values. -/
theorem compare?_eq_some_iff (ha : a.Canonical) (hb : b.Canonical) :
    a.compare? b = some o ↔ Related (fun x y => compare x y = o) a b := by
  rw [compare?_eq ha hb]
  constructor
  · intro h
    obtain ⟨x, hx, h⟩ := Option.bind_eq_some_iff.1 h
    obtain ⟨y, hy, h⟩ := Option.map_eq_some_iff.1 h
    exact ⟨x, y, hx, hy, h⟩
  · rintro ⟨x, y, hx, hy, h⟩
    rw [hx, hy, Option.bind_some, Option.map_some, h]

/-- Only next to a NaN is there no answer. -/
theorem compare?_eq_none_iff (ha : a.Canonical) (hb : b.Canonical) :
    a.compare? b = none ↔ a = .flonum .nan ∨ b = .flonum .nan := by
  rw [compare?_eq ha hb, ← value?_eq_none_iff, ← value?_eq_none_iff]
  cases a.value? <;> cases b.value? <;> simp

/-- **Antisymmetry.** The other way round is the other answer. -/
theorem compare?_swap (ha : a.Canonical) (hb : b.Canonical) :
    b.compare? a = (a.compare? b).map .swap := by
  rw [compare?_eq ha hb, compare?_eq hb ha]
  cases a.value? with
  | none => cases b.value? <;> rfl
  | some x =>
    cases b.value? with
    | none => rfl
    | some y => simp [swap_compare]

/-! The predicates, each as its relation of values. -/

theorem numEq_iff (ha : a.Canonical) (hb : b.Canonical) :
    a.numEq b = true ↔ Related (· = ·) a b := by
  rw [numEq, beq_iff_eq, compare?_eq_some_iff ha hb]
  exact related_congr fun x y => compare_eq_iff_eq

theorem lt_iff (ha : a.Canonical) (hb : b.Canonical) :
    a.lt b = true ↔ Related (· < ·) a b := by
  rw [lt, beq_iff_eq, compare?_eq_some_iff ha hb]
  exact related_congr fun x y => compare_lt_iff_lt

theorem gt_iff (ha : a.Canonical) (hb : b.Canonical) :
    a.gt b = true ↔ Related (· > ·) a b := by
  rw [gt, beq_iff_eq, compare?_eq_some_iff ha hb]
  exact related_congr fun x y => compare_gt_iff_gt

theorem le_iff_lt_or_numEq : a.le b = true ↔ a.lt b = true ∨ a.numEq b = true := by
  rw [le, lt, numEq]
  split <;> simp_all

theorem ge_iff_gt_or_numEq : a.ge b = true ↔ a.gt b = true ∨ a.numEq b = true := by
  rw [ge, gt, numEq]
  split <;> simp_all

theorem le_iff (ha : a.Canonical) (hb : b.Canonical) :
    a.le b = true ↔ Related (· ≤ ·) a b := by
  rw [le_iff_lt_or_numEq, lt_iff ha hb, numEq_iff ha hb, ← related_or]
  exact related_congr fun x y => le_iff_lt_or_eq.symm

theorem ge_iff (ha : a.Canonical) (hb : b.Canonical) :
    a.ge b = true ↔ Related (· ≥ ·) a b := by
  rw [ge_iff_gt_or_numEq, gt_iff ha hb, numEq_iff ha hb, ← related_or]
  exact related_congr fun x y => by rw [ge_iff_le, le_iff_lt_or_eq, gt_iff_lt, eq_comm (a := x)]

/-- **Transitivity**, along any of the three answers and across kinds. -/
theorem compare?_trans (ha : a.Canonical) (hb : b.Canonical) (hc : c.Canonical)
    (hab : a.compare? b = some o) (hbc : b.compare? c = some o) : a.compare? c = some o := by
  rw [compare?_eq_some_iff ha hb] at hab
  rw [compare?_eq_some_iff hb hc] at hbc
  rw [compare?_eq_some_iff ha hc]
  exact hab.trans compare_trans hbc

theorem le_trans_of_canonical (ha : a.Canonical) (hb : b.Canonical) (hc : c.Canonical)
    (hab : a.le b = true) (hbc : b.le c = true) : a.le c = true := by
  rw [le_iff ha hb] at hab
  rw [le_iff hb hc] at hbc
  rw [le_iff ha hc]
  exact hab.trans le_trans hbc

/-- **Totality** off the NaN. -/
theorem le_total_of_canonical (ha : a.Canonical) (hb : b.Canonical) (hna : a ≠ .flonum .nan)
    (hnb : b ≠ .flonum .nan) : a.le b = true ∨ b.le a = true := by
  obtain ⟨x, hx⟩ := Option.ne_none_iff_exists'.1 (value?_eq_none_iff.not.2 hna)
  obtain ⟨y, hy⟩ := Option.ne_none_iff_exists'.1 (value?_eq_none_iff.not.2 hnb)
  rw [le_iff ha hb, le_iff hb ha]
  rcases le_total x y with h | h
  · exact .inl ⟨x, y, hx, hy, h⟩
  · exact .inr ⟨y, x, hy, hx, h⟩

end

/-! ## Integers around a number -/

section

variable {x : Number} {q : ℚ} {v : Int}

theorem ofInt_le_iff (hx : x.Canonical) (hq : x.value? = some (ofRat q)) :
    (ofInt v).le x = true ↔ (v : ℚ) ≤ q := by
  rw [le_iff (canonical_ofInt v) hx, related_ofRat_iff (value?_ofInt v) hq,
    ofRat_strictMono.le_iff_le]

theorem le_ofInt_iff (hx : x.Canonical) (hq : x.value? = some (ofRat q)) :
    x.le (ofInt v) = true ↔ q ≤ v := by
  rw [le_iff hx (canonical_ofInt v), related_ofRat_iff hq (value?_ofInt v),
    ofRat_strictMono.le_iff_le]

theorem ofInt_lt_iff (hx : x.Canonical) (hq : x.value? = some (ofRat q)) :
    (ofInt v).lt x = true ↔ (v : ℚ) < q := by
  rw [lt_iff (canonical_ofInt v) hx, related_ofRat_iff (value?_ofInt v) hq,
    ofRat_strictMono.lt_iff_lt]

theorem lt_ofInt_iff (hx : x.Canonical) (hq : x.value? = some (ofRat q)) :
    x.lt (ofInt v) = true ↔ q < v := by
  rw [lt_iff hx (canonical_ofInt v), related_ofRat_iff hq (value?_ofInt v),
    ofRat_strictMono.lt_iff_lt]

theorem ge_ofInt_iff (hx : x.Canonical) (hq : x.value? = some (ofRat q)) :
    x.ge (ofInt v) = true ↔ (v : ℚ) ≤ q := by
  rw [ge_iff hx (canonical_ofInt v), related_ofRat_iff hq (value?_ofInt v), ge_iff_le,
    ofRat_strictMono.le_iff_le]

end

/-! ## The whole -/

/-- **Comparison is the order of exact values.** Of two canonical numbers it
answers nothing next to a NaN, and the order of their values otherwise. So
it is antisymmetric, total off the NaN and transitive across kinds, and
the five predicates are the relations that they are named for. -/
theorem compare?_exact :
    (∀ a b : Number, a.Canonical → b.Canonical →
      (a.compare? b = none ↔ a = .flonum .nan ∨ b = .flonum .nan) ∧
      (∀ x y, a.value? = some x → b.value? = some y → a.compare? b = some (compare x y)) ∧
      b.compare? a = (a.compare? b).map .swap ∧
      (a.numEq b = true ↔ Related (· = ·) a b) ∧ (a.lt b = true ↔ Related (· < ·) a b) ∧
      (a.le b = true ↔ Related (· ≤ ·) a b) ∧ (a.gt b = true ↔ Related (· > ·) a b) ∧
      (a.ge b = true ↔ Related (· ≥ ·) a b) ∧
      (a ≠ .flonum .nan → b ≠ .flonum .nan → a.le b = true ∨ b.le a = true)) ∧
    ∀ a b c : Number, a.Canonical → b.Canonical → c.Canonical →
      (∀ o, a.compare? b = some o → b.compare? c = some o → a.compare? c = some o) ∧
      (a.le b = true → b.le c = true → a.le c = true) := by
  constructor
  · intro a b ha hb
    refine ⟨compare?_eq_none_iff ha hb, ?_, compare?_swap ha hb, numEq_iff ha hb, lt_iff ha hb,
      le_iff ha hb, gt_iff ha hb, ge_iff ha hb, le_total_of_canonical ha hb⟩
    intro x y hx hy
    exact (compare?_eq_some_iff ha hb).2 ⟨x, y, hx, hy, rfl⟩
  · intro a b c ha hb hc
    exact ⟨fun o => compare?_trans ha hb hc, le_trans_of_canonical ha hb hc⟩

/-- Two to the sixty-third, the nearest double of all three numbers here. -/
theorem compare?_exact_around_word_end :
    let above : Number := .bignum ⟨9223372036854775809⟩
    let double : Number := .flonum (.finite false ⟨4890909195324358656, by decide⟩)
    let word : Number := .fixnum .greatest
    above.compare? word = some .gt ∧
      (double.compare? word =
        some (compare (ofUnits (Flonum.signedUnits false ⟨4890909195324358656, by decide⟩))
          (ofRat Fixnum.greatest.toInt))) ∧
      word.le above = true ∧ (word.le double = true ∨ double.le word = true) := by
  intro above double word
  have habove : above.Canonical := by decide
  obtain ⟨order, trans⟩ := compare?_exact
  obtain ⟨-, hvalues, -, -, -, -, -, -, htotal⟩ := order double word trivial trivial
  have hle := (trans word double above trivial trivial habove).2
    (by decide +kernel) (by decide +kernel)
  have hgt := (trans above double word habove trivial trivial).1 .gt
    (by decide +kernel) (by decide +kernel)
  exact ⟨hgt, hvalues _ _ rfl rfl, hle, (htotal (by decide) (by decide)).symm⟩

end Number

end NumericTower
