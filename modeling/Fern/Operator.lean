/-!
# Binary operators

The twelve operators of the language under the names that trees and messages use. A tree built by
hand may name an operator that the language does not have; such a name is kept, and only its
evaluation is refused.
-/

namespace Fern

/-- A binary operator. -/
inductive Operator
  | mul | div | mod
  | add | sub
  | less | lessEq | greater | greaterEq | equals
  | and | or
  | other (name : String)
  deriving DecidableEq, Repr, Inhabited

namespace Operator

/-- The name of an operator in trees and messages. -/
def name : Operator → String
  | .mul => "Mul"
  | .div => "Div"
  | .mod => "Mod"
  | .add => "Add"
  | .sub => "Sub"
  | .less => "Less"
  | .lessEq => "LessEq"
  | .greater => "Greater"
  | .greaterEq => "GreaterEq"
  | .equals => "Equals"
  | .and => "And"
  | .or => "Or"
  | .other name => name

/-- The operators of the language. -/
def all : List Operator :=
  [.mul, .div, .mod, .add, .sub, .less, .lessEq, .greater, .greaterEq, .equals, .and, .or]

def ofName (name : String) : Operator :=
  (all.find? (·.name == name)).getD (.other name)

/-- Whether the result of an operator counts as a truth value. -/
def isTest : Operator → Bool
  | .less | .lessEq | .greater | .greaterEq | .equals | .and | .or => true
  | _ => false

end Operator

end Fern
