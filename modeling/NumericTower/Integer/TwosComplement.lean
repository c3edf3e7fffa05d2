/-!
# Two's complement of unbounded width

An integer as an infinite sequence of bits: a natural number continues
with zeros, a negative number is the complement of one and continues with
ones. `bitAt` is the view; the operations act on each bit alone.
-/

namespace NumericTower.TwosComplement

/-- Bit `k` of an integer. -/
def bitAt : Int → Nat → Bool
  | .ofNat n, k => n.testBit k
  | .negSucc n, k => !n.testBit k

/-- The bits of `m` that are clear in `n`. -/
def clear (m n : Nat) : Nat := m ^^^ (m &&& n)

/-- Bits set in both. -/
def meet : Int → Int → Int
  | .ofNat m, .ofNat n => .ofNat (m &&& n)
  | .ofNat m, .negSucc n => .ofNat (clear m n)
  | .negSucc m, .ofNat n => .ofNat (clear n m)
  | .negSucc m, .negSucc n => .negSucc (m ||| n)

/-- Bits set in either. -/
def join : Int → Int → Int
  | .ofNat m, .ofNat n => .ofNat (m ||| n)
  | .ofNat m, .negSucc n => .negSucc (clear n m)
  | .negSucc m, .ofNat n => .negSucc (clear m n)
  | .negSucc m, .negSucc n => .negSucc (m &&& n)

/-- Bits set in exactly one. -/
def differ : Int → Int → Int
  | .ofNat m, .ofNat n => .ofNat (m ^^^ n)
  | .ofNat m, .negSucc n => .negSucc (m ^^^ n)
  | .negSucc m, .ofNat n => .negSucc (m ^^^ n)
  | .negSucc m, .negSucc n => .ofNat (m ^^^ n)

@[simp]
theorem bitAt_ofNat (n k : Nat) : bitAt (.ofNat n) k = n.testBit k := rfl

@[simp]
theorem bitAt_negSucc (n k : Nat) : bitAt (.negSucc n) k = !n.testBit k := rfl

theorem testBit_clear (m n k : Nat) : (clear m n).testBit k = (m.testBit k && !n.testBit k) := by
  have keep : ∀ a b : Bool, (a ^^ (a && b)) = (a && !b) := by decide
  rw [clear, Nat.testBit_xor, Nat.testBit_and, keep]

theorem bitAt_meet (v w : Int) (k : Nat) : bitAt (meet v w) k = (bitAt v k && bitAt w k) := by
  cases v <;> cases w <;>
    simp [meet, -Int.ofNat_eq_natCast, testBit_clear, Bool.and_comm, Bool.not_or]

theorem bitAt_join (v w : Int) (k : Nat) : bitAt (join v w) k = (bitAt v k || bitAt w k) := by
  cases v <;> cases w <;>
    simp [join, -Int.ofNat_eq_natCast, testBit_clear, Bool.or_comm, Bool.not_and]

theorem bitAt_differ (v w : Int) (k : Nat) :
    bitAt (differ v w) k = Bool.xor (bitAt v k) (bitAt w k) := by
  cases v <;> cases w <;> simp [differ, -Int.ofNat_eq_natCast]

/-- How many bits the magnitude of an integer takes; zero takes none. -/
def bitLength (v : Int) : Nat := if v = 0 then 0 else v.natAbs.log2 + 1

end NumericTower.TwosComplement
