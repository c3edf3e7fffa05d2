import NumericTower.Json.Basic
import NumericTower.Limits
/-!
# The tagged form of numbers

A number as a JSON object that names its kind beside its value: a fixnum
is an integer, a flonum a number, a bignum its sign and its digits to the
base `2^32`, least significant first. A NaN or an infinity has no number
in JSON; it is written as `null`, which is not read back.

The form of a bignum is assumed to be the one in which big integers are
exchanged: the sign is `-1`, `0` or `1`, a digit is an integer from `0` up to
the base, digits may end with zeros that add nothing, and the sign zero makes
zero of any digits. What is decided here is that a bignum is read only if its
value is one: an integer that fits a word is refused, whatever zeros its
digits end with.
-/

namespace NumericTower

namespace Fixnum

/-- A fixnum is written as an integer. -/
def toJson (a : Fixnum) : Json := .integer a.toInt

/-- Only an integer in the word range is a fixnum. -/
def ofJson? : Json → Option Fixnum
  | .integer v => (ofInt? v).toOption
  | _ => none

end Fixnum

namespace Flonum

/-- A finite flonum is written as a number. -/
def toJson (x : Flonum) : Json := if x.isFinite then .real x else .null

/-- Any number that is finite as a double is a flonum. -/
def ofJson? (json : Json) : Option Flonum := json.toFlonum?

end Flonum

namespace Bignum

/-- The base of a bignum's digits, `2^32`. -/
abbrev base : Nat := 4294967296

/-- The digits of a number, least significant first; zero has none. -/
def digitsOf (n : Nat) : List Nat :=
  if n = 0 then [] else n % base :: digitsOf (n / base)
termination_by n
decreasing_by exact Nat.div_lt_self (Nat.pos_of_ne_zero ‹_›) (by decide)

/-- The number with the given digits. -/
def ofDigits (digits : List Nat) : Nat :=
  digits.foldr (fun digit higher => digit + base * higher) 0

/-- The integer with a given sign: the sign zero makes it zero. -/
def withSign (sign : Int) (magnitude : Nat) : Int := sign * magnitude

/-- A bignum is written as its sign and its digits. -/
def toJson (a : Bignum) : Json :=
  .array [.integer (if a.toInt < 0 then -1 else 1),
    .array ((digitsOf a.toInt.natAbs).map fun digit : Nat => .integer digit)]

/-- One digit. -/
def digit? : Json → Option Nat
  | .integer v => if 0 ≤ v ∧ v < base then some v.toNat else none
  | _ => none

/-- A sign: minus one, zero or one. -/
def sign? : Json → Option Int
  | .integer v => if v = -1 ∨ v = 0 ∨ v = 1 then some v else none
  | _ => none

/-- A list of digits. -/
def digits? (items : List Json) : Option (List Nat) := items.mapM digit?

/-- A sign and digits, least significant first, whose value no word holds. -/
def ofJson? : Json → Option Bignum
  | .array [sign, .array items] =>
    match sign? sign, digits? items with
    | some sign, some digits => (ofInt? (withSign sign (ofDigits digits))).toOption
    | _, _ => none
  | _ => none

end Bignum

namespace Kind

/-- A kind is written as its name. -/
def toJson (kind : Kind) : Json := .ofString kind.name

/-- A kind is its name, or an object whose one member has the name as its
key and `null` as its value. -/
def ofJson? : Json → Option Kind
  | .string (some name) => ofName? name
  | .object [(some name, .null)] => ofName? name
  | _ => none

end Kind

namespace Number

/-- The keys of the tagged form. -/
def kindKey : String := "kind"
def valueKey : String := "value"

/-- The value's own form, without the kind. -/
def valueToJson : Number → Json
  | .fixnum a => a.toJson
  | .bignum a => a.toJson
  | .flonum x => x.toJson

/-- The tagged form. -/
def toJson (n : Number) : Json :=
  .ofMembers [(kindKey, n.kind.toJson), (valueKey, n.valueToJson)]

/-- A number from its kind and its value. -/
def ofTagged? (kind value : Json) : Option Number :=
  match Kind.ofJson? kind with
  | some .fixnum => (Fixnum.ofJson? value).map .fixnum
  | some .bignum => (Bignum.ofJson? value).map .bignum
  | some .flonum => (Flonum.ofJson? value).map .flonum
  | none => none

/-- Reads the tagged form: an object with the two keys once each among any
others, or an array of kind and value. -/
def ofJson? : Json → Option Number
  | .object members =>
    match Json.uniqueMember? kindKey members, Json.uniqueMember? valueKey members with
    | some kind, some value => ofTagged? kind value
    | _, _ => none
  | .array [kind, value] => ofTagged? kind value
  | _ => none

end Number

namespace Limits

/-- The key of the one limit. -/
def maxIntegerBitsKey : String := "max_integer_bits"

/-- Limits are written as an object. -/
def toJson (limits : Limits) : Json :=
  .ofMembers [(maxIntegerBitsKey, .integer limits.maxIntegerBits.toNat)]

/-- A count of bits in an unsigned machine word. -/
def bits? : Json → Option UInt64
  | .integer v => if 0 ≤ v ∧ v ≤ 18446744073709551615 then some (.ofNat v.toNat) else none
  | _ => none

/-- Limits are an object with their key once among any others, or an array
of their values. -/
def ofJson? : Json → Option Limits
  | .object members =>
    ((Json.uniqueMember? maxIntegerBitsKey members).bind bits?).map Limits.mk
  | .array [bits] => (bits? bits).map Limits.mk
  | _ => none

end Limits

end NumericTower
