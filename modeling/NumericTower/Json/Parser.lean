import NumericTower.Json.Basic
import NumericTower.Decimal.Text
/-!
# Reading JSON

The grammar of JSON texts, strictly: no comments, no trailing commas, no
leading zeros, nothing after the value but blanks. Each reader takes the
characters left and returns what it read with those still left.

The nested readers count down from the length of the text, which bounds
their depth because each of them takes a character before it calls
another.
-/

namespace NumericTower.Json

/-- The blanks of JSON. -/
def isBlank (c : Char) : Bool := c == ' ' || c == '\t' || c == '\n' || c == '\r'

/-- A text without the blanks it starts with. -/
def skipBlanks (chars : List Char) : List Char := chars.dropWhile isBlank

/-- A given word, and what follows it. -/
def word? (expected : List Char) (chars : List Char) : Option (List Char) :=
  if expected.isPrefixOf chars then some (chars.drop expected.length) else none

/-! ## Numbers -/

/-- The whole part of a number: no leading zeros. -/
def whole? (chars : List Char) : Option (List Char × List Char) :=
  match Decimal.spanDigits chars with
  | ([], _) => none
  | ('0' :: [], rest) => some (['0'], rest)
  | ('0' :: more, rest) => some (['0'], more ++ rest)
  | (digits, rest) => some (digits, rest)

/-- The digits after a point, if there is one. -/
def fraction? : List Char → Option (Option (List Char) × List Char)
  | '.' :: rest =>
    match Decimal.spanDigits rest with
    | ([], _) => none
    | (digits, rest) => some (some digits, rest)
  | rest => some (none, rest)

/-- An exponent's digits, after its sign. -/
def exponentDigits? (negative : Bool) (chars : List Char) : Option (Option Int × List Char) :=
  match Decimal.spanDigits chars with
  | ([], _) => none
  | (digits, rest) =>
    let value : Int := Decimal.valueOf digits
    some (some (if negative then -value else value), rest)

/-- The exponent of a number, if it has one. -/
def exponent? : List Char → Option (Option Int × List Char)
  | 'e' :: rest => signed? rest
  | 'E' :: rest => signed? rest
  | rest => some (none, rest)
where
  signed? : List Char → Option (Option Int × List Char)
    | '-' :: rest => exponentDigits? true rest
    | '+' :: rest => exponentDigits? false rest
    | rest => exponentDigits? false rest

/-- A number from its parts. Minus zero is no integer, and neither is what
no machine word holds. -/
def ofParts (negative : Bool) (digits : List Char) (fraction : Option (List Char))
    (exponent : Option Int) : Json :=
  match fraction, exponent with
  | none, none =>
    let magnitude := Decimal.valueOf digits
    let v : Int := if negative then -(magnitude : Int) else magnitude
    if isWord v && !(negative && magnitude == 0) then .integer v
    else .real (Decimal.toFlonum negative ⟨magnitude, 0⟩)
  | _, _ =>
    let places := fraction.getD []
    .real (Decimal.toFlonum negative
      ⟨Decimal.valueOf (digits ++ places), exponent.getD 0 - places.length⟩)

/-- An unsigned number after its sign. -/
def unsigned? (negative : Bool) (chars : List Char) : Option (Json × List Char) :=
  match whole? chars with
  | none => none
  | some (digits, rest) =>
    match fraction? rest with
    | none => none
    | some (fraction, rest) =>
      match exponent? rest with
      | none => none
      | some (exponent, rest) => some (ofParts negative digits fraction exponent, rest)

/-- A number: an optional minus sign and what follows it. -/
def number? : List Char → Option (Json × List Char)
  | '-' :: rest => unsigned? true rest
  | rest => unsigned? false rest

/-! ## Strings -/

/-- What a string is written with: characters, and UTF-16 units in
escapes. -/
inductive StringPart where
  | char (c : Char)
  | unit (value : Nat)

/-- The value of a hexadecimal digit of either case. -/
def hexDigit? (c : Char) : Option Nat :=
  if c.isDigit then some (c.toNat - '0'.toNat)
  else if 'a' ≤ c ∧ c ≤ 'f' then some (c.toNat - 'a'.toNat + 10)
  else if 'A' ≤ c ∧ c ≤ 'F' then some (c.toNat - 'A'.toNat + 10)
  else none

/-- The unit of four hexadecimal digits. -/
def unit? : List Char → Option (Nat × List Char)
  | a :: b :: c :: d :: rest =>
    match hexDigit? a, hexDigit? b, hexDigit? c, hexDigit? d with
    | some a, some b, some c, some d => some (((a * 16 + b) * 16 + c) * 16 + d, rest)
    | _, _, _, _ => none
  | _ => none

/-- The character that a one-letter escape stands for. -/
def escaped? : Char → Option Char
  | '"' => some '"'
  | '\\' => some '\\'
  | '/' => some '/'
  | 'b' => some '\x08'
  | 'f' => some '\x0c'
  | 'n' => some '\n'
  | 'r' => some '\r'
  | 't' => some '\t'
  | _ => none

/-- The parts of a string up to its closing quote, read within a number of
steps that bounds its length. -/
def stringParts? : Nat → List Char → Option (List StringPart × List Char)
  | 0, _ => none
  | _ + 1, [] => none
  | steps + 1, c :: rest =>
    if c = '"' then some ([], rest)
    else if c = '\\' then
      match rest with
      | [] => none
      | e :: rest =>
        if e = 'u' then
          match unit? rest with
          | none => none
          | some (value, rest) =>
            (stringParts? steps rest).map fun (parts, left) => (.unit value :: parts, left)
        else
          match escaped? e with
          | none => none
          | some c => (stringParts? steps rest).map fun (parts, left) => (.char c :: parts, left)
    else if c.toNat < 0x20 then none
    else (stringParts? steps rest).map fun (parts, left) => (.char c :: parts, left)

/-- The characters of a string. A unit that begins a surrogate pair must be
followed by one that ends it, and no such unit stands alone. -/
def decodeParts? : List StringPart → Option (List Char)
  | [] => some []
  | .char c :: rest => (decodeParts? rest).map (c :: ·)
  | .unit high :: .unit low :: rest =>
    if 0xd800 ≤ high ∧ high < 0xdc00 then
      if 0xdc00 ≤ low ∧ low < 0xe000 then
        (decodeParts? rest).map
          (Char.ofNat (0x10000 + (high - 0xd800) * 0x400 + (low - 0xdc00)) :: ·)
      else none
    else if 0xdc00 ≤ high ∧ high < 0xe000 then none
    else (decodeParts? (.unit low :: rest)).map (Char.ofNat high :: ·)
  | .unit value :: rest =>
    if 0xd800 ≤ value ∧ value < 0xe000 then none
    else (decodeParts? rest).map (Char.ofNat value :: ·)

/-- A string after its opening quote; its text, if it has one, and the
rest. -/
def string? (chars : List Char) : Option (Option String × List Char) :=
  (stringParts? (chars.length + 1) chars).map fun (parts, rest) =>
    ((decodeParts? parts).map String.ofList, rest)

/-! ## Values -/

mutual

/-- One value, blanks before it included. -/
def value? : Nat → List Char → Option (Json × List Char)
  | 0, _ => none
  | depth + 1, chars =>
    match skipBlanks chars with
    | '{' :: rest =>
      match skipBlanks rest with
      | '}' :: rest => some (.object [], rest)
      | rest => (members? depth rest).map fun (members, rest) => (.object members, rest)
    | '[' :: rest =>
      match skipBlanks rest with
      | ']' :: rest => some (.array [], rest)
      | rest => (items? depth rest).map fun (items, rest) => (.array items, rest)
    | '"' :: rest => (string? rest).map fun (text, rest) => (.string text, rest)
    | 'n' :: rest => (word? ['u', 'l', 'l'] rest).map fun rest => (.null, rest)
    | 't' :: rest => (word? ['r', 'u', 'e'] rest).map fun rest => (.bool true, rest)
    | 'f' :: rest => (word? ['a', 'l', 's', 'e'] rest).map fun rest => (.bool false, rest)
    | rest => number? rest

/-- The items of an array from the first one on, and its end. -/
def items? : Nat → List Char → Option (List Json × List Char)
  | 0, _ => none
  | depth + 1, chars =>
    match value? depth chars with
    | none => none
    | some (item, rest) =>
      match skipBlanks rest with
      | ',' :: rest => (items? depth rest).map fun (items, rest) => (item :: items, rest)
      | ']' :: rest => some ([item], rest)
      | _ => none

/-- The members of an object from the first one on, and its end. -/
def members? : Nat → List Char → Option (List (Option String × Json) × List Char)
  | 0, _ => none
  | depth + 1, chars =>
    match skipBlanks chars with
    | '"' :: rest =>
      match string? rest with
      | none => none
      | some (key, rest) =>
        match skipBlanks rest with
        | ':' :: rest =>
          match value? depth rest with
          | none => none
          | some (value, rest) =>
            match skipBlanks rest with
            | ',' :: rest =>
              (members? depth rest).map fun (members, rest) => ((key, value) :: members, rest)
            | '}' :: rest => some ([(key, value)], rest)
            | _ => none
        | _ => none
    | _ => none

end

/-- The value that a text holds, and nothing else. -/
def parse? (text : String) : Option Json :=
  let chars := text.toList
  match value? (chars.length + 1) chars with
  | some (value, rest) => if (skipBlanks rest).isEmpty then some value else none
  | none => none

end NumericTower.Json
