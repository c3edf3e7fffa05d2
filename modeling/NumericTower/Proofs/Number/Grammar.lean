import NumericTower.Number.Literal
import NumericTower.Proofs.Decimal.Text
/-!
# The grammar of literals

What a text denotes, said without a reader: one relation between characters
and values for each part of a numeral. The readers decide the relations.
An integer is read where one is denoted (`readInteger?_eq_some_iff`). What is
read as a decimal is a numeral (`denotesMagnitude_of_ofChars?`), and every
numeral is read as a decimal of the value that it denotes
(`DenotesMagnitude.exists_ofChars?`).
-/

namespace NumericTower.Literal

open Decimal

/-! ## The relations -/

/-- `[0-9]+` -/
def IsDigits (chars : List Char) : Prop := AllDigits chars ∧ chars ≠ []

/-- The number with these decimal digits, the last of them counting ones. -/
def digitsValue (digits : List Char) : ℕ :=
  Nat.ofDigits 10 (digits.reverse.map fun c => c.toNat - '0'.toNat)

/-- `[+-]?`, and whether it is a minus. -/
inductive IsSign : Bool → List Char → Prop
  | none : IsSign false []
  | plus : IsSign false ['+']
  | minus : IsSign true ['-']

/-- `[+-]?[0-9]+`, and the integer that it denotes. -/
inductive DenotesInteger : List Char → ℤ → Prop
  | intro {negative : Bool} {sign digits : List Char} (hsign : IsSign negative sign)
      (hdigits : IsDigits digits) :
      DenotesInteger (sign ++ digits)
        (if negative then -(digitsValue digits : ℤ) else digitsValue digits)

/-- `[0-9]+[.]?[0-9]*|[.][0-9]+`, and its value. -/
inductive DenotesMantissa : List Char → ℚ → Prop
  | whole {whole : List Char} (hwhole : IsDigits whole) :
      DenotesMantissa whole (digitsValue whole)
  | pointed {whole fraction : List Char} (hwhole : IsDigits whole)
      (hfraction : AllDigits fraction) :
      DenotesMantissa (whole ++ '.' :: fraction)
        (digitsValue whole + digitsValue fraction / 10 ^ fraction.length)
  | fraction {fraction : List Char} (hfraction : IsDigits fraction) :
      DenotesMantissa ('.' :: fraction) (digitsValue fraction / 10 ^ fraction.length)

/-- `([eE][+-]?[0-9]+)?`, and the exponent that it denotes. -/
inductive DenotesScale : List Char → ℤ → Prop
  | none : DenotesScale [] 0
  | exponent {mark : Char} {chars : List Char} {e : ℤ} (hmark : mark = 'e' ∨ mark = 'E')
      (hchars : DenotesInteger chars e) : DenotesScale (mark :: chars) e

/-- A numeral without a sign, and its value. -/
inductive DenotesMagnitude : List Char → ℚ → Prop
  | intro {mantissa scale : List Char} {q : ℚ} {e : ℤ} (hmantissa : DenotesMantissa mantissa q)
      (hscale : DenotesScale scale e) : DenotesMagnitude (mantissa ++ scale) (q * 10 ^ e)

/-- A numeral: whether its sign is a minus, and the value after the sign. -/
inductive DenotesDecimal : List Char → Bool → ℚ → Prop
  | intro {negative : Bool} {sign body : List Char} {q : ℚ} (hsign : IsSign negative sign)
      (hbody : DenotesMagnitude body q) : DenotesDecimal (sign ++ body) negative q

/-- The words for an infinity and the NaN. -/
inductive IsSpecial : String → Flonum → Prop
  | plusInfinity : IsSpecial "+inf.0" (.infinite false)
  | minusInfinity : IsSpecial "-inf.0" (.infinite true)
  | plusNaN : IsSpecial "+nan.0" .nan
  | minusNaN : IsSpecial "-nan.0" .nan

theorem special?_eq_some_iff {text : String} {x : Flonum} :
    special? text = some x ↔ IsSpecial text x := by
  constructor
  · intro h
    rw [special?] at h
    split at h
    · rename_i htext
      cases h
      exact htext ▸ .plusInfinity
    split at h
    · rename_i htext
      cases h
      exact htext ▸ .minusInfinity
    split at h
    · rename_i htext
      cases h
      rcases htext with rfl | rfl
      · exact .plusNaN
      · exact .minusNaN
    · cases h
  · rintro (_ | _ | _ | _) <;> decide

/-! ## Digits -/

theorem digitsValue_append (a b : List Char) :
    digitsValue (a ++ b) = digitsValue a * 10 ^ b.length + digitsValue b := by
  rw [digitsValue, List.reverse_append, List.map_append, Nat.ofDigits_append, List.length_map,
    List.length_reverse, Nat.add_comm, Nat.mul_comm]
  rfl

/-- The reader's fold from the first digit on gives the sum of places. -/
theorem valueOf_eq_digitsValue (digits : List Char) : valueOf digits = digitsValue digits := by
  induction digits with
  | nil => rfl
  | cons c rest ih =>
    have hdigit : valueOf [c] = digitsValue [c] := by
      simp [valueOf, digitsValue, Nat.ofDigitChars]
    rw [← List.singleton_append, valueOf_append, digitsValue_append, hdigit, ih]

theorem unsigned_iff {digits : List Char} :
    readInteger?.unsigned digits = true ↔ IsDigits digits := by
  rw [readInteger?.unsigned, IsDigits, AllDigits, Bool.and_eq_true, List.all_eq_true, and_comm]
  simp

/-- A digit is no sign. -/
theorem IsDigits.head?_ne {digits : List Char} (h : IsDigits digits) :
    ∀ c ∈ digits.head?, c ≠ '-' ∧ c ≠ '+' := by
  intro c hc
  have hdigit := h.1 c (List.mem_of_mem_head? hc)
  constructor <;> rintro rfl <;> exact absurd hdigit (by decide)

/-! ## Integers -/

/-- **An integer is read where one is denoted**, and as the one that is. -/
theorem readInteger?_eq_some_iff {chars : List Char} {v : ℤ} :
    readInteger? chars = some v ↔ DenotesInteger chars v := by
  constructor
  · intro h
    unfold readInteger? at h
    split at h
    all_goals
      split at h
      · rename_i digits hdigits
        cases h
        rw [valueOf_eq_digitsValue]
        first
          | exact .intro .minus (unsigned_iff.1 hdigits)
          | exact .intro .plus (unsigned_iff.1 hdigits)
          | exact .intro .none (unsigned_iff.1 hdigits)
      · cases h
  · rintro ⟨hsign, hdigits⟩
    rename_i digits
    have hunsigned := unsigned_iff.2 hdigits
    cases hsign with
    | none =>
      rw [List.nil_append, readInteger?]
      · rw [if_pos hunsigned, valueOf_eq_digitsValue]
        rfl
      · rintro rest rfl
        exact (hdigits.head?_ne '-' rfl).1 rfl
      · rintro rest rfl
        exact (hdigits.head?_ne '+' rfl).2 rfl
    | plus =>
      rw [List.singleton_append, readInteger?, if_pos hunsigned, valueOf_eq_digitsValue]
      rfl
    | minus =>
      rw [List.singleton_append, readInteger?, if_pos hunsigned, valueOf_eq_digitsValue]
      rfl

theorem readScale?_eq_some_iff {chars : List Char} {e : ℤ} :
    readScale? chars = some e ↔ DenotesScale chars e := by
  constructor
  · intro h
    unfold readScale? at h
    split at h
    · cases h
      exact .none
    · exact .exponent (.inl rfl) (readInteger?_eq_some_iff.1 h)
    · exact .exponent (.inr rfl) (readInteger?_eq_some_iff.1 h)
    · cases h
  · intro h
    cases h with
    | none => rfl
    | exponent hmark hchars =>
      rcases hmark with rfl | rfl
      · exact readInteger?_eq_some_iff.2 hchars
      · exact readInteger?_eq_some_iff.2 hchars

theorem DenotesScale.stops {chars : List Char} {e : ℤ} (h : DenotesScale chars e) :
    Stops chars := by
  cases h with
  | none => exact stops_nil
  | exponent hmark =>
    rintro c ⟨⟩
    rcases hmark with rfl | rfl <;> decide

/-! ## Numerals without a sign -/

/-- The digits after the point are as many places of the whole. -/
theorem valueOf_mul_zpow (whole fraction : List Char) (e : ℤ) :
    (valueOf (whole ++ fraction) : ℚ) * 10 ^ (e - fraction.length) =
      (digitsValue whole + digitsValue fraction / 10 ^ fraction.length) * 10 ^ e := by
  have hten : (10 : ℚ) ≠ 0 := by decide
  rw [valueOf_eq_digitsValue, digitsValue_append, zpow_sub₀ hten, zpow_natCast]
  push_cast
  field_simp

/-- Digits around a point, at least one of them. -/
theorem denotesMantissa_of_point {whole fraction : List Char} (hwhole : AllDigits whole)
    (hfraction : AllDigits fraction) (hne : whole ++ fraction ≠ []) :
    DenotesMantissa (whole ++ '.' :: fraction)
      (digitsValue whole + digitsValue fraction / 10 ^ fraction.length) := by
  cases whole with
  | nil =>
    have hvalue : ((digitsValue [] : ℕ) : ℚ) = 0 := Nat.cast_zero
    rw [hvalue, zero_add]
    exact .fraction ⟨hfraction, hne⟩
  | cons c rest => exact .pointed ⟨hwhole, List.cons_ne_nil c rest⟩ hfraction

/-- **What is read as a decimal denotes its value.** -/
theorem denotesMagnitude_of_ofChars? {chars : List Char} {d : Decimal}
    (h : Decimal.ofChars? chars = some d) : DenotesMagnitude chars d.toRat := by
  obtain ⟨whole, rest, hwhole, hrest, rfl⟩ := exists_spanDigits chars
  by_cases hpoint : '.' ∈ rest.head?
  · obtain ⟨rest, rfl⟩ := List.head?_eq_some_iff.1 hpoint
    obtain ⟨fraction, tail, hfraction, htail, rfl⟩ := exists_spanDigits rest
    rw [ofChars?_point hwhole hfraction htail] at h
    split at h
    · cases h
    rename_i hne
    obtain ⟨e, he, rfl⟩ := Option.map_eq_some_iff.1 h
    rw [toRat, valueOf_mul_zpow, ← List.cons_append, ← List.append_assoc]
    exact .intro (denotesMantissa_of_point hwhole hfraction hne) (readScale?_eq_some_iff.1 he)
  · have hstops : Stops rest := fun c hc => ⟨hrest c hc, fun heq => hpoint (heq ▸ hc)⟩
    rw [ofChars?_whole hwhole hstops] at h
    split at h
    · cases h
    rename_i hne
    obtain ⟨e, he, rfl⟩ := Option.map_eq_some_iff.1 h
    rw [toRat, valueOf_eq_digitsValue]
    exact .intro (.whole ⟨hwhole, hne⟩) (readScale?_eq_some_iff.1 he)

/-- **Every numeral is read**, as a decimal of the value that it denotes. -/
theorem DenotesMagnitude.exists_ofChars? {chars : List Char} {q : ℚ}
    (h : DenotesMagnitude chars q) : ∃ d, Decimal.ofChars? chars = some d ∧ d.toRat = q := by
  obtain ⟨hmantissa, hscale⟩ := h
  rename_i e
  have hread := readScale?_eq_some_iff.2 hscale
  have hstops := hscale.stops
  cases hmantissa with
  | whole hwhole =>
    rw [ofChars?_whole hwhole.1 hstops, if_neg hwhole.2, hread]
    exact ⟨_, rfl, by rw [toRat, valueOf_eq_digitsValue]⟩
  | @pointed whole fraction hwhole hfraction =>
    rw [List.append_assoc, List.cons_append,
      ofChars?_point hwhole.1 hfraction fun c hc => (hstops c hc).1,
      if_neg (List.append_ne_nil_of_left_ne_nil hwhole.2 _), hread]
    exact ⟨_, rfl, by rw [toRat, valueOf_mul_zpow]⟩
  | @fraction fraction hfraction =>
    have hpoint := ofChars?_point allDigits_nil hfraction.1 fun c hc => (hstops c hc).1
    rw [List.nil_append, List.nil_append, if_neg hfraction.2, hread] at hpoint
    refine ⟨_, hpoint, ?_⟩
    have hvalue := valueOf_mul_zpow [] fraction e
    rwa [List.nil_append, show digitsValue [] = 0 from rfl, Nat.cast_zero, zero_add] at hvalue

/-! ## The characters of a numeral -/

theorem isNumeralChar_of_isDigit {c : Char} (h : c.isDigit = true) : isNumeralChar c = true := by
  simp [isNumeralChar, h]

theorem isNumeralChar_of_allDigits {chars : List Char} (h : AllDigits chars) :
    ∀ c ∈ chars, isNumeralChar c = true :=
  fun c hc => isNumeralChar_of_isDigit (h c hc)

theorem IsSign.isNumeralChar {negative : Bool} {sign : List Char} (h : IsSign negative sign) :
    ∀ c ∈ sign, isNumeralChar c = true := by
  cases h with
  | none => exact List.forall_mem_nil _
  | plus => exact List.forall_mem_singleton.2 rfl
  | minus => exact List.forall_mem_singleton.2 rfl

theorem DenotesInteger.isNumeralChar {chars : List Char} {v : ℤ} (h : DenotesInteger chars v) :
    ∀ c ∈ chars, isNumeralChar c = true := by
  obtain ⟨hsign, hdigits⟩ := h
  exact List.forall_mem_append.2 ⟨hsign.isNumeralChar, isNumeralChar_of_allDigits hdigits.1⟩

theorem IsDigits.exists_isDigit {digits : List Char} (h : IsDigits digits) :
    ∃ c ∈ digits, c.isDigit = true := by
  obtain ⟨c, hc⟩ := List.exists_mem_of_ne_nil digits h.2
  exact ⟨c, hc, h.1 c hc⟩

theorem DenotesMantissa.exists_isDigit {chars : List Char} {q : ℚ} (h : DenotesMantissa chars q) :
    ∃ c ∈ chars, c.isDigit = true := by
  cases h with
  | whole hwhole => exact hwhole.exists_isDigit
  | pointed hwhole =>
    obtain ⟨c, hc, hdigit⟩ := hwhole.exists_isDigit
    exact ⟨c, List.mem_append_left _ hc, hdigit⟩
  | fraction hfraction =>
    obtain ⟨c, hc, hdigit⟩ := hfraction.exists_isDigit
    exact ⟨c, List.mem_cons_of_mem '.' hc, hdigit⟩

theorem DenotesMantissa.isNumeralChar {chars : List Char} {q : ℚ} (h : DenotesMantissa chars q) :
    ∀ c ∈ chars, isNumeralChar c = true := by
  cases h with
  | whole hwhole => exact isNumeralChar_of_allDigits hwhole.1
  | pointed hwhole hfraction =>
    exact List.forall_mem_append.2 ⟨isNumeralChar_of_allDigits hwhole.1,
      List.forall_mem_cons.2 ⟨rfl, isNumeralChar_of_allDigits hfraction⟩⟩
  | fraction hfraction =>
    exact List.forall_mem_cons.2 ⟨rfl, isNumeralChar_of_allDigits hfraction.1⟩

theorem DenotesScale.isNumeralChar {chars : List Char} {e : ℤ} (h : DenotesScale chars e) :
    ∀ c ∈ chars, isNumeralChar c = true := by
  cases h with
  | none => exact List.forall_mem_nil _
  | exponent hmark hchars =>
    refine List.forall_mem_cons.2 ⟨?_, hchars.isNumeralChar⟩
    rcases hmark with rfl | rfl <;> rfl

namespace DenotesMagnitude

variable {chars : List Char} {q : ℚ}

theorem exists_isDigit (h : DenotesMagnitude chars q) : ∃ c ∈ chars, c.isDigit = true := by
  obtain ⟨hmantissa, -⟩ := h
  obtain ⟨c, hc, hdigit⟩ := hmantissa.exists_isDigit
  exact ⟨c, List.mem_append_left _ hc, hdigit⟩

theorem isNumeralChar (h : DenotesMagnitude chars q) :
    ∀ c ∈ chars, isNumeralChar c = true := by
  obtain ⟨hmantissa, hscale⟩ := h
  exact List.forall_mem_append.2 ⟨hmantissa.isNumeralChar, hscale.isNumeralChar⟩

/-- A numeral without a sign begins with a digit or the point. -/
theorem head?_ne (h : DenotesMagnitude chars q) : ∀ c ∈ chars.head?, c ≠ '-' ∧ c ≠ '+' := by
  obtain ⟨hmantissa, -⟩ := h
  cases hmantissa with
  | whole hwhole =>
    rw [List.head?_append_of_ne_nil _ hwhole.2]
    exact hwhole.head?_ne
  | pointed hwhole =>
    rw [List.append_assoc, List.head?_append_of_ne_nil _ hwhole.2]
    exact hwhole.head?_ne
  | fraction =>
    rintro c ⟨⟩
    decide

end DenotesMagnitude

theorem DenotesDecimal.isNumeralChar {chars : List Char} {negative : Bool} {q : ℚ}
    (h : DenotesDecimal chars negative q) : ∀ c ∈ chars, isNumeralChar c = true := by
  obtain ⟨hsign, hbody⟩ := h
  exact List.forall_mem_append.2 ⟨hsign.isNumeralChar, hbody.isNumeralChar⟩

/-! ## Signs -/

/-- A sign is split off from what does not begin with another one. -/
theorem splitSign_append {negative : Bool} {sign body : List Char} (hsign : IsSign negative sign)
    (hbody : ∀ c ∈ body.head?, c ≠ '-' ∧ c ≠ '+') :
    splitSign (sign ++ body) = (negative, body) := by
  cases hsign with
  | none =>
    rw [List.nil_append, splitSign]
    · rintro rest rfl
      exact (hbody '-' rfl).1 rfl
    · rintro rest rfl
      exact (hbody '+' rfl).2 rfl
  | plus => rfl
  | minus => rfl

/-- Every text is what is split off from it and the rest. -/
theorem exists_sign (chars : List Char) :
    ∃ sign, IsSign (splitSign chars).1 sign ∧ chars = sign ++ (splitSign chars).2 := by
  unfold splitSign
  split
  · exact ⟨['-'], .minus, rfl⟩
  · exact ⟨['+'], .plus, rfl⟩
  · exact ⟨[], .none, rfl⟩

end NumericTower.Literal
