import NumericTower.Proofs.Decimal.Nearest
import NumericTower.Proofs.Number.Grammar
/-!
# Exact or inexact, by the characters alone

A literal of digits only is an exact integer, and one with a point or an
exponent is a flonum: its characters choose the reader, and the reader that is
chosen does not refuse (`ofChars?_of_denotesInteger`), nor does it take a word
of its own (`word?_eq_none`). The writer has three forms for a finite flonum, and
each of them has one or the other (`IsInexact`): the first a point that is
always there, scientific notation its exponent, and positional notation a
point as long as the value is not whole.
-/

namespace NumericTower.Literal

open Decimal

/-- A text with its sign, as numbers are written. -/
def signed (negative : Bool) (body : List Char) : List Char :=
  if negative then '-' :: body else body

theorem exists_sign_signed (negative : Bool) (body : List Char) :
    ∃ sign, IsSign negative sign ∧ signed negative body = sign ++ body := by
  cases negative with
  | false => exact ⟨[], .none, rfl⟩
  | true => exact ⟨['-'], .minus, rfl⟩

theorem isNumeralChar_signed {body : List Char} (h : ∀ c ∈ body, isNumeralChar c = true)
    (negative : Bool) : ∀ c ∈ signed negative body, isNumeralChar c = true := by
  cases negative with
  | false => exact h
  | true => exact List.forall_mem_cons.2 ⟨rfl, h⟩

/-- Every special word has an `n`, which no numeral has. -/
theorem special?_eq_none {text : String} (h : ∀ c ∈ text.toList, isNumeralChar c = true) :
    special? text = none := by
  have hn : 'n' ∉ text.toList := fun hmem => absurd (h 'n' hmem) (by decide)
  have hne (word : String) (hword : 'n' ∈ word.toList) : text ≠ word := by
    rintro rfl
    exact hn hword
  rw [special?, if_neg (hne _ (by decide)), if_neg (hne _ (by decide)), if_neg]
  rintro (heq | heq)
  · exact hne _ (by decide) heq
  · exact hne _ (by decide) heq

/-- A word is the number of its integer already. -/
theorem integer?_eq_some {chars : List Char} {v : ℤ} (h : readInteger? chars = some v) :
    integer? chars = some (.ofInt v) := by
  rw [integer?, h, Option.map_some, Fixnum.ofInt?]
  by_cases hv : Fixnum.InRange v
  · rw [if_pos hv, Number.ofInt_of_inRange hv]
  · rw [if_neg hv]

/-- **Digits alone are an exact integer**: the reader of integers takes all
that it is given. -/
theorem ofChars?_of_denotesInteger {chars : List Char} {v : ℤ} (h : DenotesInteger chars v) :
    ofChars? chars = .ok (.ofInt v) := by
  have hinteger := integer?_eq_some (readInteger?_eq_some_iff.2 h)
  obtain ⟨hsign, hdigits⟩ := h
  simp only [ofChars?, splitSign_append hsign hdigits.head?_ne,
    List.isEmpty_eq_false_iff.2 hdigits.2, List.all_eq_true.2 hdigits.1, hinteger,
    Bool.false_eq_true, if_false, if_true]

theorem isAlpha_eq_false_of_isDigit {c : Char} (h : c.isDigit = true) : c.isAlpha = false := by
  have hnine : '9'.val.toNat = 57 := rfl
  have hupper : 'A'.val.toNat = 65 := rfl
  have hlower : 'a'.val.toNat = 97 := rfl
  simp only [Char.isDigit, Bool.and_eq_true, decide_eq_true_iff, ge_iff_le,
    UInt32.le_iff_toNat_le] at h
  simp only [Char.isAlpha, Char.isUpper, Char.isLower, ge_iff_le, UInt32.le_iff_toNat_le,
    Bool.or_eq_false_iff, Bool.and_eq_false_iff, decide_eq_false_iff_not]
  omega

/-- The letters of numerals are `e` and `E`. -/
theorem toLower_ne_of_isNumeralChar {c : Char} (h : isNumeralChar c = true) :
    c.toLower ≠ 'n' := by
  intro hlower
  have halpha : c.isAlpha = true := by
    rw [← Char.isAlpha_toLower_eq_isAlpha, hlower]
    rfl
  simp only [isNumeralChar, Bool.or_eq_true, beq_iff_eq] at h
  rcases h with ((((h | rfl) | rfl) | rfl) | rfl) | rfl
  · rw [isAlpha_eq_false_of_isDigit h] at halpha
    cases halpha
  all_goals exact absurd hlower (by decide)

/-- Every word has an `n`, so that none is made of a numeral's characters. -/
theorem word?_eq_none (negative : Bool) {body : List Char}
    (h : ∀ c ∈ body, isNumeralChar c = true) : word? negative body = none := by
  have hn : 'n' ∉ body.map Char.toLower := by
    intro hmem
    obtain ⟨c, hc, hlower⟩ := List.mem_map.1 hmem
    exact toLower_ne_of_isNumeralChar (h c hc) hlower
  rw [word?]
  split
  · rename_i hword
    exact absurd (hword ▸ by decide) hn
  · rename_i hword
    exact absurd (hword ▸ by decide) hn
  · rename_i hword
    exact absurd (hword ▸ by decide) hn
  · rfl

/-- **A numeral that is not digits alone is a flonum.** -/
theorem ofChars?_of_magnitude {negative : Bool} {sign body : List Char} {d : Decimal}
    (hsign : IsSign negative sign) (hread : Decimal.ofChars? body = some d)
    (hinexact : ∃ c ∈ body, c.isDigit = false) :
    ofChars? (sign ++ body) = .ok (.flonum (d.toFlonum negative)) := by
  have hbody := denotesMagnitude_of_ofChars? hread
  have hsplit := splitSign_append hsign hbody.head?_ne
  have hne : body.isEmpty = false := by
    obtain ⟨c, hc, -⟩ := hinexact
    exact List.isEmpty_eq_false_iff.2 (List.ne_nil_of_mem hc)
  have hall : body.all Char.isDigit = false := by
    obtain ⟨c, hc, hdigit⟩ := hinexact
    exact List.all_eq_false.2 ⟨c, hc, by simp [hdigit]⟩
  simp only [ofChars?, double?, hsplit, hne, hall, List.any_eq_true.2 hbody.exists_isDigit,
    List.all_eq_true.2 hbody.isNumeralChar, hread, Bool.false_eq_true, if_false, Bool.and_self,
    Bool.not_true]

/-- So every numeral is, unless it is an integer. -/
theorem DenotesDecimal.exists_ofChars? {chars : List Char} {negative : Bool} {q : ℚ}
    (h : DenotesDecimal chars negative q) (hinteger : ¬ ∃ v, DenotesInteger chars v) :
    ∃ d : Decimal, d.toRat = q ∧ ofChars? chars = .ok (.flonum (d.toFlonum negative)) := by
  obtain ⟨hsign, hbody⟩ := h
  obtain ⟨d, hread, hvalue⟩ := hbody.exists_ofChars?
  refine ⟨d, hvalue, ofChars?_of_magnitude hsign hread ?_⟩
  by_contra hdigits
  simp only [not_exists, not_and, Bool.not_eq_false] at hdigits
  obtain ⟨c, hc, -⟩ := hbody.exists_isDigit
  exact hinteger ⟨_, .intro hsign ⟨hdigits, List.ne_nil_of_mem hc⟩⟩

/-- **Nothing else is read**, and each refusal comes from the characters: what is
given to the reader of integers is one. -/
theorem denotes_or_fault (chars : List Char) :
    (∃ v, DenotesInteger chars v) ∨ (∃ negative q, DenotesDecimal chars negative q) ∨
      ∃ fault, ofChars? chars = .error fault ∧ fault ≠ .invalidInteger := by
  obtain ⟨sign, hsign, hchars⟩ := exists_sign chars
  simp only [ofChars?]
  split
  · exact .inr (.inr ⟨_, rfl, by split <;> decide⟩)
  rename_i hne
  rw [List.isEmpty_iff] at hne
  split
  · rename_i hdigits
    left
    rw [hchars]
    exact ⟨_, .intro hsign ⟨List.all_eq_true.1 hdigits, hne⟩⟩
  split
  · exact .inr (.inr ⟨_, rfl, by decide⟩)
  rename_i hnumeral
  rw [Bool.not_eq_true', Bool.not_eq_false, Bool.and_eq_true, List.all_eq_true] at hnumeral
  split
  · rename_i x hx
    simp only [double?] at hx
    split at hx
    · rename_i d hd
      right
      left
      rw [hchars]
      exact ⟨_, _, .intro hsign (denotesMagnitude_of_ofChars? hd)⟩
    · -- no word has come this far
      rw [word?_eq_none _ hnumeral.2] at hx
      cases hx
  · exact .inr (.inr ⟨_, rfl, by decide⟩)

theorem denotes_of_ofChars? {chars : List Char} {n : Number} (h : ofChars? chars = .ok n) :
    (∃ v, DenotesInteger chars v) ∨ ∃ negative q, DenotesDecimal chars negative q := by
  rcases denotes_or_fault chars with hinteger | hdecimal | ⟨fault, hfault, -⟩
  · exact .inl hinteger
  · exact .inr hdecimal
  · rw [hfault] at h
    cases h

theorem ofChars?_ne_invalidInteger (chars : List Char) :
    ofChars? chars ≠ .error .invalidInteger := by
  intro h
  by_cases hinteger : ∃ v, DenotesInteger chars v
  · obtain ⟨v, hv⟩ := hinteger
    rw [ofChars?_of_denotesInteger hv] at h
    cases h
  rcases (denotes_or_fault chars).resolve_left hinteger with ⟨_, _, hform⟩ | ⟨fault, hfault, hne⟩
  · obtain ⟨d, -, hread⟩ := hform.exists_ofChars? hinteger
    rw [hread] at h
    cases h
  · exact hne (Except.error.inj (hfault.symm.trans h))

/-- What a finite flonum is written as, without its sign: a numeral that
cannot be taken for an integer. -/
structure IsInexact (body : List Char) (d : Decimal) : Prop where
  digitFirst : ∃ first rest, body = first :: rest ∧ first.isDigit = true
  numeral : ∀ c ∈ body, isNumeralChar c = true
  inexact : ∃ c ∈ body, c.isDigit = false
  reads : Decimal.ofChars? body = some d

/-- **A point or an exponent makes a flonum.** -/
theorem IsInexact.ofChars? {body : List Char} {d : Decimal} (h : IsInexact body d)
    (negative : Bool) :
    ofChars? (signed negative body) = .ok (.flonum (d.toFlonum negative)) := by
  obtain ⟨sign, hsign, hsigned⟩ := exists_sign_signed negative body
  rw [hsigned]
  exact ofChars?_of_magnitude hsign h.reads h.inexact

/-! ## The three forms of a finite flonum -/

theorem isNumeralChar_of_mem_pointed {fraction : List Char} (hf : AllDigits fraction) {c : Char}
    (hc : c ∈ pointed fraction) : isNumeralChar c = true := by
  rw [pointed] at hc
  split at hc
  · cases hc
  · rcases List.mem_cons.1 hc with rfl | hc
    · rfl
    · obtain ⟨n, hn⟩ := exists_append_replicate fraction
      exact isNumeralChar_of_isDigit (hf c (hn ▸ List.mem_append_left _ hc))

theorem isNumeralChar_of_mem_integerChars {v : Int} {c : Char} (hc : c ∈ integerChars v) :
    isNumeralChar c = true := by
  rw [integerChars] at hc
  split at hc
  · rcases List.mem_cons.1 hc with rfl | hc
    · rfl
    · exact isNumeralChar_of_isDigit (allDigits_digitsOf _ c hc)
  · exact isNumeralChar_of_isDigit (allDigits_digitsOf _ c hc)

/-- Digits first, and a mark that is no digit among what follows. -/
theorem isInexact_append {whole tail : List Char} {d : Decimal} (hw : AllDigits whole)
    (hne : whole ≠ []) (htail : ∀ c ∈ tail, isNumeralChar c = true)
    (hmark : ∃ c ∈ tail, c.isDigit = false) (hread : Decimal.ofChars? (whole ++ tail) = some d) :
    IsInexact (whole ++ tail) d := by
  refine ⟨?_, ?_, ?_, hread⟩
  · obtain ⟨first, rest, rfl⟩ := List.exists_cons_of_ne_nil hne
    exact ⟨first, rest ++ tail, rfl, hw first List.mem_cons_self⟩
  · intro c hc
    rcases List.mem_append.1 hc with hc | hc
    · exact isNumeralChar_of_isDigit (hw c hc)
    · exact htail c hc
  · obtain ⟨c, hc, hdigit⟩ := hmark
    exact ⟨c, List.mem_append_right whole hc, hdigit⟩

/-- A whole number with one place. -/
theorem isInexact_wholeText (whole : Nat) :
    ∃ d, IsInexact (digitsOf whole ++ ['.', '0']) d ∧ d.toRat = whole := by
  have hdigits := allDigits_digitsOf whole
  have hne := digitsOf_ne_nil whole
  have hread : Decimal.ofChars? (digitsOf whole ++ '.' :: (['0'] ++ [])) =
      some ⟨valueOf (digitsOf whole ++ ['0']), 0 - (['0'].length : Int)⟩ := by
    rw [ofChars?_point hdigits (by simp [AllDigits]) fun c hc => (stops_nil c hc).1,
      if_neg (by simp)]
    rfl
  refine ⟨_, isInexact_append hdigits hne ?_ ⟨'.', by simp, rfl⟩ hread, ?_⟩
  · simp [isNumeralChar]
  · rw [toRat, valueOf_append, valueOf_digitsOf]
    simp [valueOf, Nat.ofDigitChars]

/-- Scientific notation is inexact by its exponent. -/
theorem isInexact_scientific (d : Decimal) :
    ∃ d', IsInexact d.scientific d' ∧ d'.toRat = d.toRat := by
  obtain ⟨first, rest, hfirst, hrest, htext, hvalue⟩ := scientific_form d
  have hne : [first] ≠ [] := List.cons_ne_nil first []
  have hscale : readScale? ('e' :: integerChars (d.exponent + rest.length)) =
      some (d.exponent + rest.length) := readInteger?_integerChars _
  obtain ⟨d', hread, hvalue'⟩ := ofChars?_pointed hfirst hrest hne (stops_exponent _) hscale
  rw [htext]
  refine ⟨d', isInexact_append hfirst hne ?_ ⟨'e', by simp, rfl⟩ hread, hvalue'.trans hvalue.symm⟩
  intro c hc
  rcases List.mem_append.1 hc with hc | hc
  · exact isNumeralChar_of_mem_pointed hrest hc
  rcases List.mem_cons.1 hc with rfl | hc
  · rfl
  · exact isNumeralChar_of_mem_integerChars hc

/-- Positional notation is inexact if the value is not whole: only then
does a point stand in it. -/
theorem isInexact_positional {d : Decimal} (h : ∀ whole : Nat, d.toRat ≠ whole) :
    ∃ d', IsInexact d.positional d' ∧ d'.toRat = d.toRat := by
  obtain ⟨whole, fraction, hw, hf, hne, htext, hvalue⟩ := positional_form d
  obtain ⟨d', hread, hvalue'⟩ := ofChars?_pointed hw hf hne stops_nil rfl
  rw [List.append_nil] at hread
  have hmark : ∃ c ∈ pointed fraction, c.isDigit = false := by
    rw [pointed]
    split
    · -- all places are zeros: the value would be whole
      rename_i hnil
      exact absurd (hvalue.trans (value_of_dropTrailingZeros_eq_nil whole hnil)) (h _)
    · exact ⟨'.', by simp, rfl⟩
  rw [htext]
  exact ⟨d', isInexact_append hw hne (fun c hc => isNumeralChar_of_mem_pointed hf hc) hmark hread,
    hvalue'.trans hvalue.symm⟩

end NumericTower.Literal
