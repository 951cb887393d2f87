import Fern.Datum
import Fern.Operator
import Fern.TypeInfo

/-!
# Resolved expressions

An expression as it is evaluated: names are resolved, record fields are positions, constructors are
handles with the number of a variant, and a function takes one parameter. Every node carries what is
known of its type, for display alone.

Expressions also come from outside, so a node of a kind that the language does not have is kept as
it is; it can be shown but not evaluated.
-/

namespace Fern

/-- One branch of a match: the number of its variant, the name that captures the payload, and what
is evaluated. -/
structure Branch (α : Type) where
  index : Int
  binding : Option String
  body : α
  deriving Repr, Inhabited

/-- A resolved expression. -/
inductive Expr
  | tuple (items : List Expr) (type : TypeInfo)
  | record (items : List Expr) (type : TypeInfo)
  | field (target : Expr) (index : Int) (type : TypeInfo)
  | letIn (name : String) (rhs body : Expr) (type : TypeInfo)
  | caseOf (matchee : Expr) (branches : List (Branch Expr)) (type : TypeInfo)
  | apply (callee : Expr) (args : List Expr) (type : TypeInfo)
  | lambda (param : String) (body : Expr) (type : TypeInfo)
  | symbol (name : String) (type : TypeInfo)
  | boolean (value : Bool) (type : TypeInfo)
  | conditional (cond cons alt : Expr) (type : TypeInfo)
  | binary (op : Operator) (lhs rhs : Expr) (type : TypeInfo)
  | constructor (handle : TypeHandle) (index : Int) (type : TypeInfo)
  | builtin (id : String) (type : TypeInfo)
  | string (value : String) (type : TypeInfo)
  | integer (value : Int) (type : TypeInfo)
  | unit (type : TypeInfo)
  | other (kind : String) (content : Datum) (type : TypeInfo)
  deriving Repr, Inhabited

namespace Expr

/-- The name of the kind of a node. -/
def kind : Expr → String
  | .tuple .. => "TUPLE"
  | .record .. => "RECORD"
  | .field .. => "FIELD_ACCESS"
  | .letIn .. => "LET_BINDING"
  | .caseOf .. => "MATCH_SUM"
  | .apply .. => "APPLICATION"
  | .lambda .. => "LAMBDA"
  | .symbol .. => "SYMBOL"
  | .boolean .. => "BOOLEAN_LITERAL"
  | .conditional .. => "CONDITIONAL"
  | .binary .. => "BINARY_OP"
  | .constructor .. => "VARIANT_CONSTRUCTOR"
  | .builtin .. => "BUILTIN_FN"
  | .string .. => "STRING_LITERAL"
  | .integer .. => "INTEGER_LITERAL"
  | .unit .. => "UNIT"
  | .other kind .. => kind

/-- What is known of the type of an expression. -/
def type : Expr → TypeInfo
  | .tuple _ t | .record _ t | .field _ _ t | .letIn _ _ _ t | .caseOf _ _ t | .apply _ _ t
  | .lambda _ _ t | .symbol _ t | .boolean _ t | .conditional _ _ _ t | .binary _ _ _ t
  | .constructor _ _ t | .builtin _ t | .string _ t | .integer _ t | .unit t | .other _ _ t => t

def isLambda : Expr → Bool
  | .lambda .. => true
  | _ => false

def isBuiltin : Expr → Bool
  | .builtin .. => true
  | _ => false

end Expr

end Fern
