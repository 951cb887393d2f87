/-!
# Limits on the depth of calls

Evaluation runs on a stack of its own, with a fixed share for each of the calls that the limit
allows. A limit is refused if it does not fit into 32 bits, or if the host cannot provide the stack.
A limit that is not positive asks for no particular stack, and a limit below a thousand is raised to
it.
-/

namespace Fern

/-- Why the host refuses a limit. -/
inductive LimitFault
  /-- There is none. -/
  | missing
  /-- It does not fit into 32 bits. -/
  | tooLarge
  /-- Its stack is smaller than any that the host provides. -/
  | stackTooSmall (bytes : Nat)
  /-- Its stack is larger than the memory of the host. -/
  | stackTooLarge
  deriving DecidableEq, Repr

/-- The host's words for a limit that it refuses. -/
def LimitFault.message : LimitFault → String
  | .missing => "'>' not supported between instances of 'list' and 'int'"
  | .tooLarge => "Python int too large to convert to C int"
  | .stackTooSmall bytes => "size not valid: " ++ toString bytes ++ " bytes"
  | .stackTooLarge => "can't start new thread"

/-- The largest limit that fits into 32 bits. -/
def largestLimit : Int := 2147483647

/-- The smallest stack that the host provides, in bytes. -/
def smallestStack : Nat := 32768

/-- The memory of the host, in bytes. -/
def largestStack : Nat := 34359738368

/-- The stack for a limit, in bytes. -/
def stackFor (limit : Int) : Nat := 2048 * limit.toNat

/-- The nesting of evaluations that a limit stands for, unless the host refuses it. -/
def nestingFor : Option Int → Except LimitFault Nat
  | none => .error .missing
  | some limit =>
    if largestLimit < limit then .error .tooLarge
    else if 0 < limit ∧ stackFor limit < smallestStack then
      .error (.stackTooSmall (stackFor limit))
    else if largestStack < stackFor limit then .error .stackTooLarge
    else .ok (max 1000 limit).toNat

end Fern
