import Mathlib
import NumericTower.Number.Tagged
import NumericTower.Proofs.Fixnum.Exact
/-!
# Writing and reading the tagged form

A number's tagged form reads as that number (`ofJson?_taggedForm`). Each kind
has a form of its own that reads back. That of a bignum has its sign and
the digits of its magnitude to the base `2^32`, which are those of
`Nat.digits`, and it passes the check for a word because a canonical bignum
is not one.

A NaN or an infinity is written as `null`, which no kind reads.
-/

namespace NumericTower

theorem Fixnum.ofJson?_toJson (a : Fixnum) : Fixnum.ofJson? a.toJson = some a := by
  rw [toJson, ofJson?, ofInt?_eq_ok rfl]
  rfl

namespace Flonum

/-- A finite flonum is written as itself. -/
theorem ofJson?_toJson {x : Flonum} (h : x.isFinite = true) : ofJson? x.toJson = some x := by
  rw [toJson, if_pos h, ofJson?, Json.toFlonum?, if_pos h]

theorem toJson_of_not_isFinite {x : Flonum} (h : x.isFinite = false) : x.toJson = .null := by
  rw [toJson, h, if_neg Bool.false_ne_true]

end Flonum

namespace Bignum

/-! ## Digits -/

theorem digitsOf_eq (n : Nat) : digitsOf n = Nat.digits base n := by
  fun_induction digitsOf n with
  | case1 => rw [Nat.digits_zero]
  | case2 n hn ih => rw [Nat.digits_def' (by decide) (Nat.pos_of_ne_zero hn), ih]

theorem ofDigits_eq (digits : List Nat) : ofDigits digits = Nat.ofDigits base digits :=
  (Nat.ofDigits_eq_foldr base digits).symm

/-- A number is the value of its digits. -/
theorem ofDigits_digitsOf (n : Nat) : ofDigits (digitsOf n) = n := by
  rw [ofDigits_eq, digitsOf_eq, Nat.ofDigits_digits]

theorem lt_base_of_mem_digitsOf {n digit : Nat} (h : digit ∈ digitsOf n) : digit < base := by
  rw [digitsOf_eq] at h
  exact Nat.digits_lt_base (by decide) h

theorem digit?_integer {digit : Nat} (h : digit < base) : digit? (.integer digit) = some digit := by
  rw [digit?, if_pos (by omega), Int.toNat_natCast]

/-- Digits below the base are read one by one. -/
theorem digits?_map {digits : List Nat} (h : ∀ digit ∈ digits, digit < base) :
    digits? (digits.map fun digit : Nat => .integer digit) = some digits := by
  induction digits with
  | nil => rfl
  | cons digit rest ih =>
    have hfirst := digit?_integer (h digit (List.mem_cons_self ..))
    have hrest := ih fun d hd => h d (List.mem_cons_of_mem _ hd)
    rw [digits?] at hrest ⊢
    rw [List.map_cons, List.mapM_cons, hfirst, hrest]
    rfl

/-! ## Signs -/

/-- **A sign and digits are read as the integer that they denote**, unless a
word holds it. -/
theorem ofJson?_signed {sign : Int} {digits : List Nat} (hsign : sign = -1 ∨ sign = 0 ∨ sign = 1)
    (hdigits : ∀ digit ∈ digits, digit < base) :
    ofJson? (.array [.integer sign, .array (digits.map fun digit : Nat => .integer digit)]) =
      (ofInt? (withSign sign (ofDigits digits))).toOption := by
  rw [ofJson?, sign?, if_pos hsign, digits?_map hdigits]

theorem withSign_natAbs (v : Int) : withSign (if v < 0 then -1 else 1) v.natAbs = v := by
  rw [withSign]
  split <;> omega

/-- A bignum that no word holds is read back. -/
theorem ofJson?_toJson {a : Bignum} (h : ¬ Fixnum.InRange a.toInt) : ofJson? a.toJson = some a := by
  have hsign : (if a.toInt < 0 then -1 else 1 : Int) = -1 ∨
      (if a.toInt < 0 then -1 else 1 : Int) = 0 ∨ (if a.toInt < 0 then -1 else 1 : Int) = 1 := by
    split <;> simp
  rw [toJson, ofJson?_signed hsign fun _ => lt_base_of_mem_digitsOf, ofDigits_digitsOf,
    withSign_natAbs, ofInt?_of_not_inRange h]
  rfl

end Bignum

namespace Kind

/-- A kind is read by its name. -/
theorem ofJson?_toJson (kind : Kind) : ofJson? kind.toJson = some kind := by
  cases kind <;> decide

end Kind

namespace Number

/-- The two keys differ, so each names one member. -/
theorem ofJson?_ofMembers (kind value : Json) :
    ofJson? (.ofMembers [(kindKey, kind), (valueKey, value)]) = ofTagged? kind value := by
  have hkeys : kindKey ≠ valueKey := by decide
  simp [ofJson?, Json.ofMembers, Json.uniqueMember?, Json.membersNamed?, hkeys, hkeys.symm]

/-- **The tagged form reads back**, as the same number in the same
representation: every canonical exact number does, and every finite flonum,
with its sign if it is a zero. A NaN or an infinity has `null` as its value,
and that is rejected. -/
theorem ofJson?_taggedForm :
    (∀ n : Number, n.Canonical → n.isExact = true → ofJson? n.toJson = some n) ∧
      (∀ x : Flonum, x.isFinite = true → ofJson? (flonum x).toJson = some (flonum x)) ∧
      ∀ x : Flonum, x.isFinite = false →
        (flonum x).toJson = .ofMembers [("kind", .ofString "flonum"), ("value", .null)] ∧
          ofJson? (flonum x).toJson = none := by
  have hread (n : Number) : ofJson? n.toJson = ofTagged? n.kind.toJson n.valueToJson :=
    ofJson?_ofMembers n.kind.toJson n.valueToJson
  refine ⟨?_, ?_, ?_⟩
  · intro n hn hexact
    rw [hread, ofTagged?, Kind.ofJson?_toJson]
    cases n with
    | fixnum a => exact congrArg (Option.map fixnum) a.ofJson?_toJson
    | bignum a => exact congrArg (Option.map bignum) (Bignum.ofJson?_toJson hn)
    | flonum x => cases hexact
  · intro x hx
    rw [hread, ofTagged?, Kind.ofJson?_toJson]
    exact congrArg (Option.map flonum) (Flonum.ofJson?_toJson hx)
  · intro x hx
    have hnull : (flonum x).valueToJson = .null := Flonum.toJson_of_not_isFinite hx
    constructor
    · rw [toJson, hnull]
      rfl
    · rw [hread, ofTagged?, Kind.ofJson?_toJson, hnull]
      rfl

/-- A bignum of three digits, the smaller zero, and an infinity. -/
theorem ofJson?_taggedForm_extremes :
    (bignum ⟨-18446744073709551616⟩).Canonical ∧
      ofJson? (bignum ⟨-18446744073709551616⟩).toJson = some (bignum ⟨-18446744073709551616⟩) ∧
      (Flonum.zero true).isFinite = true ∧
      ofJson? (flonum (.zero true)).toJson = some (flonum (.zero true)) ∧
      (Flonum.infinite true).isFinite = false ∧
      ofJson? (flonum (.infinite true)).toJson = none := by
  have hbig : (bignum ⟨-18446744073709551616⟩).Canonical := by decide
  exact ⟨hbig, ofJson?_taggedForm.1 (bignum ⟨-18446744073709551616⟩) hbig rfl, rfl,
    ofJson?_taggedForm.2.1 (.zero true) rfl, rfl, (ofJson?_taggedForm.2.2 (.infinite true) rfl).2⟩

end Number

end NumericTower
