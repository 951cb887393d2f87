import Fern.Operator

/-!
# Integer arithmetic

Integers are the mathematical ones. Sums, differences, products and quotients have to fit a signed
word of 64 bits, and a result outside that range is refused; remainders, bit operations and
comparisons cannot leave the range from inside it, so they are not looked at again. Quotients are
rounded toward zero, and a remainder has the sign of the dividend. The bit operations read a
negative number as an infinite two's complement.
-/

namespace Fern

def minInteger : Int := -9223372036854775808

def maxInteger : Int := 9223372036854775807

/-- The range is that of 64 bits with a sign. -/
example : minInteger = Int.negSucc (2 ^ 63 - 1) ∧ maxInteger = Int.ofNat (2 ^ 63 - 1) := by decide

/-- Whether an integer fits a signed word of 64 bits. -/
abbrev InRange (n : Int) : Prop := minInteger ≤ n ∧ n ≤ maxInteger

/-- Why an operator has no result on two integers. -/
inductive ArithmeticError
  | overflow (op : Operator) (result : Int)
  | divisionByZero (op : Operator)
  | unknownOperator (op : Operator)
  deriving DecidableEq, Repr

/-- Accepts a result that is in range. -/
def checked (op : Operator) (result : Int) : Except ArithmeticError Int :=
  if InRange result then .ok result else .error (.overflow op result)

/-- The quotient rounded toward zero: that of the absolute values, with a sign. It is meant for a
divisor other than zero. -/
def truncatingDiv (lhs rhs : Int) : Int :=
  let quotient : Int := ↑(lhs.natAbs / rhs.natAbs)
  if decide (0 ≤ lhs) == decide (0 < rhs) then quotient else -quotient

/-- The remainder that goes with it. -/
def truncatingMod (lhs rhs : Int) : Int := lhs - rhs * truncatingDiv lhs rhs

theorem truncatingDiv_eq_tdiv (lhs rhs : Int) : truncatingDiv lhs rhs = lhs.tdiv rhs := by
  cases lhs with
  | ofNat m =>
      cases rhs with
      | ofNat n => rcases Nat.eq_zero_or_pos n with rfl | hn <;> simp [truncatingDiv, Int.tdiv, *]
      | negSucc n => simp [truncatingDiv, Int.tdiv]
  | negSucc m =>
      cases rhs with
      | ofNat n => rcases Nat.eq_zero_or_pos n with rfl | hn <;> simp [truncatingDiv, Int.tdiv, *]
      | negSucc n => simp [truncatingDiv, Int.tdiv]

theorem truncatingMod_eq_tmod (lhs rhs : Int) : truncatingMod lhs rhs = lhs.tmod rhs := by
  rw [truncatingMod, truncatingDiv_eq_tdiv, Int.tmod_def]

/-- The bits of the first number that the second does not have. -/
def bitDiff (m n : Nat) : Nat := m ^^^ (m &&& n)

/-- The bits that two integers have in common. -/
def bitAnd : Int → Int → Int
  | .ofNat m, .ofNat n => .ofNat (m &&& n)
  | .ofNat m, .negSucc n => .ofNat (bitDiff m n)
  | .negSucc m, .ofNat n => .ofNat (bitDiff n m)
  | .negSucc m, .negSucc n => .negSucc (m ||| n)

/-- The bits that either of two integers has. -/
def bitOr : Int → Int → Int
  | .ofNat m, .ofNat n => .ofNat (m ||| n)
  | .ofNat m, .negSucc n => .negSucc (bitDiff n m)
  | .negSucc m, .ofNat n => .negSucc (bitDiff m n)
  | .negSucc m, .negSucc n => .negSucc (m &&& n)

/-- A truth value as an integer. -/
def ofTruth (b : Bool) : Int := if b then 1 else 0

def Operator.onIntegers (op : Operator) (lhs rhs : Int) : Except ArithmeticError Int :=
  match op with
  | .add => checked op (lhs + rhs)
  | .sub => checked op (lhs - rhs)
  | .mul => checked op (lhs * rhs)
  | .div => if rhs = 0 then .error (.divisionByZero op) else checked op (truncatingDiv lhs rhs)
  | .mod => if rhs = 0 then .error (.divisionByZero op) else .ok (truncatingMod lhs rhs)
  | .less => .ok (ofTruth (lhs < rhs))
  | .lessEq => .ok (ofTruth (lhs ≤ rhs))
  | .greater => .ok (ofTruth (lhs > rhs))
  | .greaterEq => .ok (ofTruth (lhs ≥ rhs))
  | .equals => .ok (ofTruth (lhs = rhs))
  | .and => .ok (bitAnd lhs rhs)
  | .or => .ok (bitOr lhs rhs)
  | .other _ => .error (.unknownOperator op)

end Fern
