import NumericTower.Decimal.Basic
/-!
# The text of decimals

The two written forms, positional and scientific, and the numerals that
are read. The forms print no more digits than the value needs: zeros at
the end of a fraction are left out.
-/

namespace NumericTower.Decimal

/-- A digit list without the zeros at its end. -/
def dropTrailingZeros (digits : List Char) : List Char :=
  (digits.reverse.dropWhile (· == '0')).reverse

/-- The digits of a natural number, most significant first. -/
def digitsOf (n : Nat) : List Char := n.repr.toList

/-- A fraction with its point, or nothing if all its digits are zeros. -/
def pointed (fraction : List Char) : List Char :=
  match dropTrailingZeros fraction with
  | [] => []
  | digits => '.' :: digits

/-- Positional notation, without an exponent. -/
def positional (d : Decimal) : List Char :=
  let digits := digitsOf d.coefficient
  match d.exponent with
  | .ofNat k => digits ++ List.replicate k '0'
  | .negSucc k =>
    let places := k + 1
    if places < digits.length then
      digits.take (digits.length - places) ++ pointed (digits.drop (digits.length - places))
    else '0' :: pointed (List.replicate (places - digits.length) '0' ++ digits)

/-- The digits of an integer, after a minus sign if it is negative. -/
def integerChars (v : Int) : List Char :=
  if v < 0 then '-' :: digitsOf v.natAbs else digitsOf v.natAbs

/-- Scientific notation: one digit before the point, no point without a
fraction, no plus sign in the exponent. -/
def scientific (d : Decimal) : List Char :=
  match digitsOf d.coefficient with
  | [] => []
  | first :: rest =>
    first :: pointed rest ++ 'e' :: integerChars (d.exponent + rest.length)

/-- The value of a digit list. -/
def valueOf (digits : List Char) : Nat := Nat.ofDigitChars 10 digits 0

/-- A digit list as long as it goes, and the rest. -/
def spanDigits (chars : List Char) : List Char × List Char :=
  (chars.takeWhile Char.isDigit, chars.dropWhile Char.isDigit)

/-- An integer of any size: an optional sign and at least one digit, to the
end. -/
def readInteger? (chars : List Char) : Option Int :=
  match chars with
  | '-' :: digits => if unsigned digits then some (-(valueOf digits : Int)) else none
  | '+' :: digits => if unsigned digits then some (valueOf digits) else none
  | digits => if unsigned digits then some (valueOf digits) else none
where
  unsigned (digits : List Char) : Bool := !digits.isEmpty && digits.all Char.isDigit

/-- The exponent that ends a numeral: none at all, or `e` or `E` and an
integer. -/
def readScale? (chars : List Char) : Option Int :=
  match chars with
  | [] => some 0
  | 'e' :: rest => readInteger? rest
  | 'E' :: rest => readInteger? rest
  | _ => none

/-- An unsigned numeral: digits with at most one point among or around
them, at least one digit, and an optional exponent. -/
def ofChars? (chars : List Char) : Option Decimal :=
  let (whole, afterWhole) := spanDigits chars
  let (fraction, afterFraction) :=
    match afterWhole with
    | '.' :: rest => spanDigits rest
    | rest => ([], rest)
  if whole.isEmpty && fraction.isEmpty then none
  else
    (readScale? afterFraction).map fun scale =>
      ⟨valueOf (whole ++ fraction), scale - fraction.length⟩

end NumericTower.Decimal
