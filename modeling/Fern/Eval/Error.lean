import Fern.Arithmetic
import Fern.Builtin
import Fern.Eval.Limit
import Fern.FileSystem

/-!
# Errors of evaluation

Every way in which an evaluation can fail, its wording, the kind of node it is blamed on and its
category. A failure is internal when the program broke a rule that resolved and typed programs keep,
it is the host's when a file or a text from outside is to blame, and it is neither when the nesting
of the evaluation went past its limit.
-/

namespace Fern

/-- Why an evaluation fails. -/
inductive EvalError
  | unbound (name : String)
  | notFunction (name kind : String)
  | notCallable (typeName : String)
  | fieldOf (typeName : String)
  | fieldRange (index : Int) (size : Nat)
  | matchOf (typeName : String)
  | noBranch (index : Int) (handle : TypeHandle)
  | conditionOf (typeName : String)
  | arithmetic (error : ArithmeticError)
  | stringOperator (op : Operator)
  | mixedOperator (op : Operator) (lhs rhs : String)
  | notSumType (handle : TypeHandle)
  | noVariant (typeName : String) (index : Int)
  | unknownKind (kind : String)
  | unknownBuiltin (id : String)
  | argument (id expected typeName : String)
  | argumentSize (id : String) (expected size : Nat)
  | unreadable (path : String) (fault : ReadFault)
  | notInteger (text : String)
  | integerRange (text : String)
  | noFirstChar
  | noEntry (name : String)
  | entryKind (name kind : String)
  | nesting
  deriving DecidableEq, Repr

/-- Who is to blame for a failure. -/
inductive Category
  | internal
  | host
  | runtime
  deriving DecidableEq, Repr

def Category.name : Category → String
  | .internal => "internal"
  | .host => "host"
  | .runtime => "runtime"

def ArithmeticError.message : ArithmeticError → String
  | .overflow op result => "integer overflow in " ++ op.name ++ ": " ++ toString result
  | .divisionByZero op => "division by zero in " ++ op.name
  | .unknownOperator op => "unsupported operator: " ++ op.name

namespace EvalError

def message : EvalError → String
  | .unbound name => "unbound symbol: " ++ name
  | .notFunction name kind =>
    "top-level binding '" ++ name ++ "' is neither a function nor a built-in (" ++ kind ++ ")"
  | .notCallable typeName => "application requires a callable value, got " ++ typeName
  | .fieldOf typeName => "field access requires Tuple, got " ++ typeName
  | .fieldRange index size =>
    "field index " ++ toString index ++ " out of range for a " ++ toString size ++ "-tuple"
  | .matchOf typeName => "match requires Variant, got " ++ typeName
  | .noBranch index handle =>
    "no match arm for variant " ++ toString index ++ " of " ++ handle.format
  | .conditionOf typeName => "conditional requires Integer, got " ++ typeName
  | .arithmetic error => error.message
  | .stringOperator op => "operator " ++ op.name ++ " is not defined on strings"
  | .mixedOperator op lhs rhs =>
    "operator " ++ op.name ++ " is not defined on " ++ lhs ++ " and " ++ rhs
  | .notSumType handle => "type handle " ++ handle.format ++ " does not name a sum type"
  | .noVariant typeName index => "sum type " ++ typeName ++ " has no variant " ++ toString index
  | .unknownKind kind => "unsupported expression: " ++ kind
  | .unknownBuiltin id => "unsupported built-in: " ++ id
  | .argument id expected typeName => id ++ " requires " ++ expected ++ ", got " ++ typeName
  | .argumentSize id expected size =>
    id ++ " requires a " ++ toString expected ++ "-tuple, got " ++ toString size ++ " items"
  | .unreadable path fault =>
    Builtin.readFile.id ++ ": cannot read '" ++ path ++ "': " ++ fault.message path
  | .notInteger text =>
    Builtin.parseInt.id ++ ": invalid integer literal " ++ Text.quoted text
  | .integerRange text =>
    Builtin.parseInt.id ++ ": integer literal out of range " ++ Text.quoted text
  | .noFirstChar =>
    Builtin.firstChar.id ++ ": cannot take the first character of an empty string"
  | .noEntry name => "entry point '" ++ name ++ "' not found"
  | .entryKind name _ => "entry point '" ++ name ++ "' is not a function definition"
  | .nesting => "evaluation exceeded the maximum recursion depth"

/-- The kind of node that a failure is blamed on. -/
def nodeKind? : EvalError → Option String
  | .unbound _ | .notFunction .. => some "SYMBOL"
  | .notCallable _ => some "APPLICATION"
  | .fieldOf _ | .fieldRange .. => some "FIELD_ACCESS"
  | .matchOf _ | .noBranch .. => some "MATCH_SUM"
  | .conditionOf _ => some "CONDITIONAL"
  | .arithmetic _ | .stringOperator _ | .mixedOperator .. => some "BINARY_OP"
  | .notSumType _ | .noVariant .. => some "VARIANT_CONSTRUCTOR"
  | .unknownKind kind => some kind
  | .unknownBuiltin _ | .argument .. | .argumentSize .. | .unreadable .. | .notInteger _
  | .integerRange _ | .noFirstChar => some "BUILTIN_FN"
  | .entryKind _ kind => some kind
  | .noEntry _ | .nesting => none

def category : EvalError → Category
  | .unreadable .. | .notInteger _ | .integerRange _ | .noFirstChar => .host
  | .nesting => .runtime
  | _ => .internal

/-- The kind of node that a report names, which leaves out an empty one. -/
def blamed? (error : EvalError) : Option String := error.nodeKind?.filter (!·.isEmpty)

/-- A failure on one line. -/
def text (error : EvalError) : String :=
  match error.blamed? with
  | some kind => error.message ++ " (while evaluating " ++ kind ++ ")"
  | none => error.message

end EvalError

/-- How an evaluation ends without a value: with an error of the language, or because the host
refuses a path that holds a NUL character or the limit on nesting. No error of the language stands
for what the host refuses. -/
inductive Fault
  | failed (error : EvalError)
  | refusedPath
  | refusedLimit (fault : LimitFault)
  deriving DecidableEq, Repr

/-- The path that somebody has to look at before an evaluation can go on. -/
def Fault.unvisited? : Fault → Option String
  | .failed (.unreadable path (.cannotOpen .unvisited)) => some path
  | _ => none

/-- The host's words for a path that it refuses. -/
def refusedPathMessage : String := "embedded null byte"

end Fern
