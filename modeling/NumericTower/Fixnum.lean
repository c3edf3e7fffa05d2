/-!
# Fixnums — exact integers of one machine word

Arithmetic on sixty-four bit signed words that never wraps: an operation
either gives the exact result or reports `Overflow`, and then the tower
repeats it on integers of any size. Every test is made on the words
themselves, after the wrapping operation, without wider integers.
-/

namespace NumericTower

/-- The exact result does not fit a machine word. -/
structure Overflow where
  deriving DecidableEq

/-- The text of an overflow. -/
def Overflow.message (_ : Overflow) : String := "value does not fit a machine integer"

/-- An exact integer held in one machine word. -/
structure Fixnum where
  word : Int64
  deriving DecidableEq

namespace Fixnum

/-- The integers that a word holds, from `-2^63` to `2^63 - 1`. -/
abbrev InRange (v : Int) : Prop := -9223372036854775808 ≤ v ∧ v ≤ 9223372036854775807

/-- The integer that a fixnum holds. -/
def toInt (a : Fixnum) : Int := a.word.toInt

/-- The fixnum of an integer; one out of range is reduced modulo `2^64`. -/
def ofInt (v : Int) : Fixnum := ⟨.ofInt v⟩

/-- The fixnum of an integer that a word holds. -/
def ofInt? (v : Int) : Except Overflow Fixnum :=
  if InRange v then .ok (ofInt v) else .error ⟨⟩

theorem inRange_toInt (a : Fixnum) : InRange a.toInt := by
  have low := a.word.le_toInt
  have high := a.word.toInt_lt
  unfold toInt
  constructor <;> omega

theorem toInt_ofInt {v : Int} (h : InRange v) : (ofInt v).toInt = v :=
  Int64.toInt_ofInt_of_le (by have := h.1; omega) (by have := h.2; omega)

theorem ofInt_toInt (a : Fixnum) : ofInt a.toInt = a := by
  simp [ofInt, toInt]

/-- The fixnum zero. -/
def zero : Fixnum := ⟨0⟩

/-- The fixnum one. -/
def one : Fixnum := ⟨1⟩

/-- The fixnum minus one. -/
def negOne : Fixnum := ⟨-1⟩

/-- The smallest fixnum, `-2^63`. -/
def least : Fixnum := ⟨.minValue⟩

/-- The largest fixnum, `2^63 - 1`. -/
def greatest : Fixnum := ⟨.maxValue⟩

/-- Whether a fixnum is zero. -/
def isZero (a : Fixnum) : Bool := a.word == 0

/-- Whether a fixnum is below zero: its sign bit. -/
def isNegative (a : Fixnum) : Bool := a.word < 0

/-- A sum overflows when its sign differs from a sign that both operands
share. -/
def add? (a b : Fixnum) : Except Overflow Fixnum :=
  let sum : Fixnum := ⟨a.word + b.word⟩
  if a.isNegative = b.isNegative ∧ sum.isNegative ≠ a.isNegative then .error ⟨⟩ else .ok sum

/-- A difference overflows when the operands' signs differ and its own is
not the first one's. -/
def sub? (a b : Fixnum) : Except Overflow Fixnum :=
  let difference : Fixnum := ⟨a.word - b.word⟩
  if a.isNegative ≠ b.isNegative ∧ difference.isNegative ≠ a.isNegative then .error ⟨⟩
  else .ok difference

/-- A product, checked by the widening multiplication's overflow flag. -/
def mul? (a b : Fixnum) : Except Overflow Fixnum :=
  if BitVec.smulOverflow a.word.toBitVec b.word.toBitVec then .error ⟨⟩
  else .ok ⟨a.word * b.word⟩

/-- Only the least fixnum has no negative. -/
def neg? (a : Fixnum) : Except Overflow Fixnum :=
  if a = least then .error ⟨⟩ else .ok ⟨-a.word⟩

/-- The absolute value, which overflows where negation does. -/
def abs? (a : Fixnum) : Except Overflow Fixnum :=
  if a.isNegative then a.neg? else .ok a

/-- The quotient rounded down. The machine's quotient is rounded toward
zero, so it is one too large when a nonzero remainder and the divisor have
different signs. The divisor must not be zero. -/
def floorDiv? (a b : Fixnum) : Except Overflow Fixnum :=
  if b = negOne then a.neg?
  else
    let remainder := a.word % b.word
    if remainder ≠ 0 ∧ (decide (remainder < 0)) ≠ b.isNegative then .ok ⟨a.word / b.word - 1⟩
    else .ok ⟨a.word / b.word⟩

/-- The remainder of the quotient rounded down: zero or with the sign of
the divisor. The divisor must not be zero. -/
def floorMod (a b : Fixnum) : Fixnum :=
  if b = negOne then zero
  else
    let remainder := a.word % b.word
    if remainder ≠ 0 ∧ (decide (remainder < 0)) ≠ b.isNegative then ⟨remainder + b.word⟩
    else ⟨remainder⟩

/-- `accumulated * base ^ exponent`, by repeated squaring. The base is
squared only while a factor is still to come, so no intermediate product
overflows unless the result does. -/
def powFrom? (accumulated base : Fixnum) (exponent : Nat) : Except Overflow Fixnum :=
  if exponent = 0 then .ok accumulated
  else if exponent = 1 then accumulated.mul? base
  else
    match if exponent % 2 = 1 then accumulated.mul? base else .ok accumulated, base.mul? base with
    | .ok product, .ok square => powFrom? product square (exponent / 2)
    | _, _ => .error ⟨⟩
termination_by exponent

/-- A fixnum to a power. -/
def pow? (a : Fixnum) (exponent : Nat) : Except Overflow Fixnum := powFrom? one a exponent

/-- A left shift, undone to see whether set bits were lost. -/
def shiftLeft? (a : Fixnum) (amount : Nat) : Except Overflow Fixnum :=
  if 64 ≤ amount then if a.isZero then .ok a else .error ⟨⟩
  else
    let shifted := a.word.toBitVec <<< amount
    if shifted.sshiftRight amount = a.word.toBitVec then .ok ⟨.ofBitVec shifted⟩ else .error ⟨⟩

/-- An arithmetic right shift; from the word width on only the sign is
left. -/
def shiftRight (a : Fixnum) (amount : Nat) : Fixnum :=
  if 64 ≤ amount then if a.isNegative then negOne else zero
  else ⟨.ofBitVec (a.word.toBitVec.sshiftRight amount)⟩

/-- Bits set in both words. -/
def bitAnd (a b : Fixnum) : Fixnum := ⟨a.word &&& b.word⟩

/-- Bits set in either word. -/
def bitOr (a b : Fixnum) : Fixnum := ⟨a.word ||| b.word⟩

/-- Bits set in exactly one word. -/
def bitXor (a b : Fixnum) : Fixnum := ⟨a.word ^^^ b.word⟩

/-- The complement of every bit. -/
def bitNot (a : Fixnum) : Fixnum := ⟨~~~a.word⟩

/-- The order of the words as signed integers. -/
def order (a b : Fixnum) : Ordering :=
  if a.word < b.word then .lt else if a.word = b.word then .eq else .gt

end Fixnum

end NumericTower
