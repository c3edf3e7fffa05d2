import NumericTower.Error
/-!
# Number literals

A run of digits, with or without a sign, is an exact integer of any size;
a numeral with a point or an exponent is the nearest flonum; four words
spell the infinities and the NaN. Everything else is rejected with one of
five reasons, tried in the order of the type.

The characters alone decide which reader a text is given to, and the reader
may still refuse it. The reader of doubles knows words of its own, which the
choice of characters keeps from it.
-/

namespace NumericTower

/-- Why a text is no literal. -/
inductive LiteralFault where
  | emptyText
  | signAlone
  /-- Digits that the reader of integers refuses. -/
  | invalidInteger
  /-- A character that no numeral holds, or no digit at all. -/
  | unexpectedCharacter
  /-- The characters of a numeral in no numeral's order. -/
  | invalidDecimal
  deriving DecidableEq

namespace LiteralFault

/-- The reason that an error gives. -/
def reason : LiteralFault → String
  | .emptyText => "empty literal"
  | .signAlone => "sign without digits"
  | .invalidInteger => "invalid integer"
  | .unexpectedCharacter => "unexpected character"
  | .invalidDecimal => "invalid decimal"

end LiteralFault

namespace Literal

/-- The words for the flonums that no numeral denotes. -/
def special? (text : String) : Option Flonum :=
  if text = "+inf.0" then some (.infinite false)
  else if text = "-inf.0" then some (.infinite true)
  else if text = "+nan.0" ∨ text = "-nan.0" then some .nan
  else none

/-- A text's one leading sign, and what follows it. -/
def splitSign : List Char → Bool × List Char
  | '-' :: body => (true, body)
  | '+' :: body => (false, body)
  | body => (false, body)

/-- The characters that numerals are made of. -/
def isNumeralChar (c : Char) : Bool :=
  c.isDigit || c == '.' || c == 'e' || c == 'E' || c == '+' || c == '-'

/-- An exact numeral: a word if one holds it, and an integer of any size if
not. -/
def integer? (chars : List Char) : Option Number :=
  (Decimal.readInteger? chars).map fun v =>
    match Fixnum.ofInt? v with
    | .ok word => .fixnum word
    | .error _ => .ofInt v

/-- The words that a double may be spelled with, in upper or lower case. -/
def word? (negative : Bool) (body : List Char) : Option Flonum :=
  match body.map Char.toLower with
  | ['i', 'n', 'f'] => some (.infinite negative)
  | ['i', 'n', 'f', 'i', 'n', 'i', 't', 'y'] => some (.infinite negative)
  | ['n', 'a', 'n'] => some .nan
  | _ => none

/-- A double: a numeral or a word, after an optional sign. -/
def double? (chars : List Char) : Option Flonum :=
  let (negative, body) := splitSign chars
  match Decimal.ofChars? body with
  | some decimal => some (decimal.toFlonum negative)
  | none => word? negative body

/-- A literal without a special word, given as its characters. -/
def ofChars? (chars : List Char) : Except LiteralFault Number :=
  let body := (splitSign chars).2
  if body.isEmpty then .error (if chars.isEmpty then .emptyText else .signAlone)
  else if body.all Char.isDigit then
    match integer? chars with
    | some n => .ok n
    | none => .error .invalidInteger
  else if !(body.any Char.isDigit && body.all isNumeralChar) then .error .unexpectedCharacter
  else
    match double? chars with
    | some x => .ok (.flonum x)
    | none => .error .invalidDecimal

end Literal

namespace Number

/-- The number that a text denotes. -/
def ofText? (text : String) : Outcome :=
  match Literal.special? text with
  | some x => .ok (.flonum x)
  | none =>
    match Literal.ofChars? text.toList with
    | .ok n => .ok n
    | .error fault => .error (.parse text fault.reason)

end Number

end NumericTower
