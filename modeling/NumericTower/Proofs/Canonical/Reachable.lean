import NumericTower.Proofs.Canonical.Binary
import NumericTower.Proofs.Canonical.Unary
import NumericTower.Proofs.Number.Order
/-!
# Reachable numbers

What a program can get hold of, by any number of steps: numbers it makes of
words, integers and doubles, reads or decodes, and what the operators
answer to them — errors included, since these carry numbers too.

Every such number is canonical (`Reachable.canonical`). Comparison,
equality and the test for zero rely on it without looking: they never find
a bignum that a word would hold.
-/

namespace NumericTower

/-- The numbers that some finite composition of the tower's operations
yields. A machine integer comes in as a word if a word is sure to hold it,
and as an integer otherwise. -/
inductive Reachable : Number → Prop
  | word (a : Fixnum) : Reachable (.fixnum a)
  | double (x : Flonum) : Reachable (.flonum x)
  | integer (v : Int) : Reachable (.ofInt v)
  | big {v : Int} {a : Bignum} (h : Bignum.ofInt? v = .ok a) : Reachable (.bignum a)
  | literal {text : String} {n : Number} (h : n ∈ (Number.ofText? text).numbers) : Reachable n
  | exactOf {operation : String} {x : Flonum} {n : Number}
      (h : n ∈ (Number.exactOf operation x).numbers) : Reachable n
  | decoded {json : Json} {n : Number} (h : Number.ofJson? json = some n) : Reachable n
  | decodedBig {json : Json} {a : Bignum} (h : Bignum.ofJson? json = some a) :
      Reachable (.bignum a)
  | binary (op : BinaryOp) (limits : Limits) {a b n : Number} (ha : Reachable a)
      (hb : Reachable b) (h : n ∈ (op.apply limits a b).numbers) : Reachable n
  | unary (op : UnaryOp) {a n : Number} (ha : Reachable a) (h : n ∈ (op.apply a).numbers) :
      Reachable n

/-- **Reachable numbers are canonical.** By induction on how the number was
come by; the two operator cases are the only ones with a hypothesis, and
they need it for the operands that an error names. -/
theorem Reachable.canonical {n : Number} (h : Reachable n) : n.Canonical := by
  induction h with
  | word a => trivial
  | double x => trivial
  | integer v => exact Number.canonical_ofInt v
  | big h => exact Bignum.canonical_of_ofInt? h
  | literal h => exact canonical_ofText? _ _ h
  | exactOf h => exact canonical_exactOf _ _ _ h
  | decoded h => exact canonical_of_ofJson? h
  | decodedBig h => exact Bignum.canonical_of_ofJson? h
  | binary op limits _ _ h iha ihb => exact canonical_apply op limits iha ihb _ h
  | unary op _ h ih => exact canonical_applyUnary op ih _ h

/-- Two canonical exact numbers of one value are one number. -/
theorem eq_of_toInt?_eq {m n : Number} {v : Int} (hm : m.Canonical) (hn : n.Canonical)
    (hmv : m.toInt? = some v) (hnv : n.toInt? = some v) : m = n :=
  (Number.eq_ofInt_of_toInt? hm hmv).trans (Number.eq_ofInt_of_toInt? hn hnv).symm

/-- **One form per integer.** However a bignum was come by, no word holds
its value. So two exact numbers of one value have one kind, and equality
finds them equal. -/
theorem reachable_exact_unique :
    (∀ a : Bignum, Reachable (.bignum a) →
        a.toInt < -9223372036854775808 ∨ 9223372036854775807 < a.toInt) ∧
      ∀ (m n : Number) (v : Int), Reachable m → Reachable n →
        m.toInt? = some v → n.toInt? = some v → m.kind = n.kind ∧ m.same n = true := by
  constructor
  · intro a ha
    have hout : ¬ Fixnum.InRange a.toInt := ha.canonical
    omega
  · intro m n v hm hn hmv hnv
    obtain rfl := eq_of_toInt?_eq hm.canonical hn.canonical hmv hnv
    exact ⟨rfl, same_self_of_toInt? hmv⟩

/-- The least bignum above the words, once as a sum of words and once as
the negative of the least word. -/
theorem reachable_exact_unique_past_greatest :
    (9223372036854775808 < (-9223372036854775808 : Int) ∨
        9223372036854775807 < (9223372036854775808 : Int)) ∧
      (Number.bignum ⟨9223372036854775808⟩).kind = (Number.ofInt 9223372036854775808).kind ∧
      (Number.bignum ⟨9223372036854775808⟩).same (.ofInt 9223372036854775808) = true := by
  have hsum : Reachable (.bignum ⟨9223372036854775808⟩) :=
    .binary .add .standard (.word .greatest) (.word .one) (by decide)
  have hneg : Reachable (.ofInt 9223372036854775808) :=
    .unary .negate (.word .least) (by decide)
  exact ⟨reachable_exact_unique.1 ⟨9223372036854775808⟩ hsum,
    reachable_exact_unique.2 _ _ 9223372036854775808 hsum hneg rfl (by decide)⟩

end NumericTower
