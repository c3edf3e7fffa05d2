import NumericTower.Flonum.Basic
/-!
# JSON values

A value as it stands in a text. Numbers come in two forms, since that is
how they are told apart when read: an integer that a machine word holds,
signed or unsigned, and everything else as a double. A number past the
double range is kept as an infinity, and a string with an escape that
stands for no character is kept as `none`: both are faults only where the
value is asked for, not where it is skipped.

The members of an object stay in their order and may repeat a key.
-/

namespace NumericTower

/-- A JSON value. -/
inductive Json where
  | null
  | bool (value : Bool)
  | integer (value : Int)
  | real (value : Flonum)
  | string (text : Option String)
  | array (items : List Json)
  | object (members : List (Option String × Json))

namespace Json

/-- A string value. -/
def ofString (text : String) : Json := .string (some text)

/-- An object with the given members. -/
def ofMembers (members : List (String × Json)) : Json :=
  .object (members.map fun (key, value) => (some key, value))

/-- The integers that stay integers when read: those of a signed or an
unsigned machine word, from `-2^63` to `2^64 - 1`. -/
def isWord (v : Int) : Bool := decide (-9223372036854775808 ≤ v ∧ v ≤ 18446744073709551615)

/-- A finite number of either form, as a double. -/
def toFlonum? : Json → Option Flonum
  | .integer v => some (.ofInt v)
  | .real x => if x.isFinite then some x else none
  | _ => none

/-- The values of the members with a given key, `none` if some key is no
text. -/
def membersNamed? (key : String) : List (Option String × Json) → Option (List Json)
  | [] => some []
  | (none, _) :: _ => none
  | (some name, value) :: rest =>
    (membersNamed? key rest).map fun found => if name = key then value :: found else found

/-- The value of the one member with a given key; other members are not
looked at. -/
def uniqueMember? (key : String) (members : List (Option String × Json)) : Option Json :=
  match membersNamed? key members with
  | some [value] => some value
  | _ => none

end Json

end NumericTower
