import NumericTower.Bignum
import NumericTower.Flonum.Text
import NumericTower.Flonum.Integral
import NumericTower.Flonum.Order
/-!
# Numbers

A number is exact, a fixnum or a bignum, or inexact, a flonum. `ofInt`
chooses the representation of an exact number, and `toInt?` is the view
that forgets it. A number is canonical if it is not a bignum that a word
would hold; on canonical exact numbers the two are inverse to each other.
-/

namespace NumericTower

/-- The representations of numbers. -/
inductive Kind where
  | fixnum
  | bignum
  | flonum
  deriving DecidableEq

namespace Kind

/-- Every kind, from the narrowest to the inexact one. -/
def all : List Kind := [.fixnum, .bignum, .flonum]

/-- The name of a kind, as it is reported and written. -/
def name : Kind → String
  | .fixnum => "fixnum"
  | .bignum => "bignum"
  | .flonum => "flonum"

/-- The kind with a given name. -/
def ofName? (name : String) : Option Kind := all.find? fun kind => kind.name == name

/-- Whether numbers of a kind are exact. -/
def isExact : Kind → Bool
  | .flonum => false
  | _ => true

end Kind

/-- A number of the tower. Equality of the type is equality of
representation; the tower's own equalities are `Number.same` and
`Number.numEq`. -/
inductive Number where
  | fixnum (value : Fixnum)
  | bignum (value : Bignum)
  | flonum (value : Flonum)
  deriving DecidableEq

namespace Number

/-- An exact integer in its one representation: a fixnum if a word holds
it. -/
def ofInt (v : Int) : Number :=
  match Bignum.ofInt? v with
  | .ok big => .bignum big
  | .error small => .fixnum small

/-- Exact zero. -/
def zero : Number := .fixnum .zero

/-- The representation of a number. -/
def kind : Number → Kind
  | .fixnum _ => .fixnum
  | .bignum _ => .bignum
  | .flonum _ => .flonum

/-- Whether a number is exact. -/
def isExact (n : Number) : Bool := n.kind.isExact

/-- The value of an exact number. -/
def toInt? : Number → Option Int
  | .fixnum a => some a.toInt
  | .bignum a => some a.toInt
  | .flonum _ => none

/-- Not a bignum that a word would hold. -/
def Canonical : Number → Prop
  | .bignum a => ¬ Fixnum.InRange a.toInt
  | _ => True

instance : DecidablePred Canonical := fun n =>
  match n with
  | .fixnum _ => isTrue trivial
  | .bignum a => inferInstanceAs (Decidable (¬ Fixnum.InRange a.toInt))
  | .flonum _ => isTrue trivial

@[simp]
theorem canonical_fixnum (a : Fixnum) : (fixnum a).Canonical := trivial

@[simp]
theorem canonical_bignum (a : Bignum) : (bignum a).Canonical ↔ ¬ Fixnum.InRange a.toInt := Iff.rfl

@[simp]
theorem canonical_flonum (x : Flonum) : (flonum x).Canonical := trivial

theorem ofInt_of_inRange {v : Int} (h : Fixnum.InRange v) : ofInt v = .fixnum (.ofInt v) := by
  rw [ofInt, Bignum.ofInt?_of_inRange h]

theorem ofInt_of_not_inRange {v : Int} (h : ¬ Fixnum.InRange v) :
    ofInt v = .bignum ⟨v⟩ := by
  rw [ofInt, Bignum.ofInt?_of_not_inRange h]

/-- The number of an integer is canonical. -/
@[simp]
theorem canonical_ofInt (v : Int) : (ofInt v).Canonical := by
  by_cases h : Fixnum.InRange v
  · rw [ofInt_of_inRange h]; trivial
  · rw [ofInt_of_not_inRange h]; exact h

/-- An integer is the value of its number. -/
@[simp]
theorem toInt?_ofInt (v : Int) : (ofInt v).toInt? = some v := by
  by_cases h : Fixnum.InRange v
  · rw [ofInt_of_inRange h, toInt?, Fixnum.toInt_ofInt h]
  · rw [ofInt_of_not_inRange h, toInt?]

/-- **One representation.** A canonical number with an integer value is the
number of that integer. -/
theorem eq_ofInt_of_toInt? {n : Number} {v : Int} (hn : n.Canonical) (h : n.toInt? = some v) :
    n = ofInt v := by
  cases n with
  | fixnum a =>
    obtain rfl : a.toInt = v := by simpa [toInt?] using h
    rw [ofInt_of_inRange a.inRange_toInt, Fixnum.ofInt_toInt]
  | bignum a =>
    obtain rfl : a.toInt = v := by simpa [toInt?] using h
    rw [ofInt_of_not_inRange hn]
  | flonum x => simp [toInt?] at h

/-- The nearest double. -/
def toFlonum : Number → Flonum
  | .fixnum a => .ofInt a.toInt
  | .bignum a => .ofInt a.toInt
  | .flonum x => x

/-- The machine word of a number that is a fixnum. -/
def toFixnum? : Number → Except Overflow Fixnum
  | .fixnum a => .ok a
  | .bignum a => Fixnum.ofInt? a.toInt
  | .flonum _ => .error ⟨⟩

/-- The fixnum that a number is. -/
def asFixnum? : Number → Option Fixnum
  | .fixnum a => some a
  | _ => none

/-- The flonum that a number is. -/
def asFlonum? : Number → Option Flonum
  | .flonum x => some x
  | _ => none

/-- Exact zero only; no bignum is zero. -/
def isExactZero : Number → Bool
  | .fixnum a => a.isZero
  | _ => false

/-- Exact zero or either inexact one. -/
def isZero : Number → Bool
  | .fixnum a => a.isZero
  | .bignum _ => false
  | .flonum x => x.isZero

/-- Below zero: neither `-0.0` nor a NaN is. -/
def isNegative : Number → Bool
  | .fixnum a => a.isNegative
  | .bignum a => a.isNegative
  | .flonum x => x.isNegative

/-- Without a fractional part; the infinities and the NaN are not
integers. -/
def isInteger : Number → Bool
  | .flonum x => x.isIntegral
  | _ => true

/-- The characters a number is written with. -/
def chars : Number → List Char
  | .fixnum a => Decimal.integerChars a.toInt
  | .bignum a => Decimal.integerChars a.toInt
  | .flonum x => x.chars

/-- The characters as a text. -/
def text (n : Number) : String := .ofList n.chars

end Number

end NumericTower
