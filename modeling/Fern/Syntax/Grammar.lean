import Fern.Syntax.Term
import Fern.Syntax.Token

/-!
# The grammar

Expressions nest, and so does reading them: the reader for expressions that nest at most so deep is
one layer of the grammar over the reader for one level less. Every level reads at least one
character before it goes deeper, so the length of the text bounds the depth, and the same number
bounds every repetition.

Operators come in five levels, and each level is read as a row of operands of the next tighter one,
grouped to the left. An operator without an operand behind it spoils the row. An operand is an
application; the forms that begin with a keyword or a backslash have to stand in parentheses there.
-/

namespace Fern.Syntax

/-- An operator as it is written. -/
structure OperatorSign where
  sign : String
  op : Operator
  isWord : Bool := false

/-- The levels of operators, the tightest first. Within a level, a sign stands before those that it
begins with. -/
def operatorLevels : List (List OperatorSign) :=
  [ [⟨"*", .mul, false⟩, ⟨"/", .div, false⟩, ⟨"%", .mod, false⟩],
    [⟨"+", .add, false⟩, ⟨"-", .sub, false⟩],
    [⟨"<=", .lessEq, false⟩, ⟨">=", .greaterEq, false⟩, ⟨"==", .equals, false⟩,
      ⟨"<", .less, false⟩, ⟨">", .greater, false⟩],
    [⟨"and", .and, true⟩],
    [⟨"or", .or, true⟩] ]

def OperatorSign.read (sign : OperatorSign) : Parser Operator := do
  if sign.isWord then keyword sign.sign else symbol sign.sign
  return sign.op

def levelOperator (level : List OperatorSign) : Parser Operator :=
  .firstOf (level.map OperatorSign.read)

/-- Reads operators with their right operands behind a left one and groups them to the left. -/
def operatorRow (operand : Parser Term) (operator : Parser Operator) :
    (bound : Nat) → Term → Parser Term
  | 0, lhs => .done lhs
  | bound + 1, lhs => fun cursor =>
    match operator cursor with
    | none => some (lhs, cursor)
    | some (op, cursor) =>
      match operand cursor with
      | none => none
      | some (rhs, cursor) => operatorRow operand operator bound (.binary op lhs rhs) cursor

/-- Reads operands of a kind with the operators of one level between them. -/
def operatorLevel (bound : Nat) (operand : Parser Term) (level : List OperatorSign) :
    Parser Term := do
  operatorRow operand (levelOperator level) bound (← operand)

/-- Selects a field or a position. -/
def select (target : Term) : String ⊕ Nat → Term
  | .inl name => .field target name
  | .inr index => .item target index

/-- What a parenthesis around expressions stands for. -/
def parenthesized : List Term → Term
  | [item] => item
  | items => .tuple items

/-- What a row of juxtaposed expressions stands for. -/
def juxtaposed (callee : Term) : List Term → Term
  | [] => callee
  | args => .apply callee args

/-- What a row of expressions between semicolons stands for. -/
def sequenced (first : Term) : List Term → Term
  | [] => first
  | next :: others => .sequence first (sequenced next others)

section Layer

/-! The parsers of one layer, over the bound on repetitions and the reader for inner expressions. -/

variable (bound : Nat) (inner : Parser Term)

def unitTerm : Parser Term := do
  symbol "("
  symbol ")"
  return .unit

/-- Reads an expression in parentheses or a tuple. -/
def tupleTerm : Parser Term := do
  symbol "("
  let items ← .separated inner (symbol ",") bound
  symbol ")"
  return parenthesized items

def fieldInit : Parser (String × Term) := do
  let field ← name
  symbol "="
  let value ← inner
  return (field, value)

def recordTerm : Parser Term := do
  symbol "\x7b"
  let fields ← .separated (fieldInit inner) (symbol ",") bound
  symbol "\x7d"
  return .record fields

/-- Reads an expression that nothing can split. -/
def atom : Parser Term :=
  .firstOf
    [ unitTerm,
      tupleTerm bound inner,
      recordTerm bound inner,
      (do return .string (← literal)),
      (do return .integer (← number)),
      (do keyword "true"; return .boolean true),
      (do keyword "false"; return .boolean false),
      (do return .constructor (← constructorName)),
      (do return .identifier (← name)) ]

/-- Reads an expression with the selectors that touch it. -/
def selection : Parser Term := do
  let target ← atom bound inner
  let selectors ← .many selector bound
  return selectors.foldl select target

def application : Parser Term := do
  let callee ← selection bound inner
  let args ← .many (selection bound inner) bound
  return juxtaposed callee args

/-- Reads applications joined by operators. -/
def operatorTerm : Parser Term :=
  operatorLevels.foldl (operatorLevel bound) (application bound inner)

def letTerm : Parser Term := do
  keyword "let"
  let x ← name
  symbol "="
  let rhs ← inner
  keyword "in"
  let body ← inner
  return .letIn x rhs body

def ifTerm : Parser Term := do
  keyword "if"
  let cond ← inner
  keyword "then"
  let cons ← inner
  keyword "else"
  let alt ← inner
  return .conditional cond cons alt

def arm : Parser (Arm Term) := do
  symbol "|"
  let head ← constructorName
  let binding ← .optional name
  symbol "->"
  let body ← inner
  return ⟨head, binding, body⟩

def matchTerm : Parser Term := do
  keyword "match"
  let matchee ← inner
  keyword "with"
  let arms ← .many1 (arm inner) bound
  return .caseOf matchee arms

def lambdaTerm : Parser Term := do
  symbol "\\"
  let params ← .many1 name bound
  symbol "->"
  let body ← inner
  return .lambda params body

/-- Reads an expression without semicolons. -/
def simpleTerm : Parser Term :=
  .firstOf
    [ letTerm inner, ifTerm inner, matchTerm bound inner, lambdaTerm bound inner,
      operatorTerm bound inner ]

def termLayer : Parser Term := do
  let first ← simpleTerm bound inner
  let others ← .many (do symbol ";"; simpleTerm bound inner) bound
  return sequenced first others

end Layer

/-- Reads an expression that nests no deeper than a bound. -/
def term : (bound : Nat) → Parser Term
  | 0 => .fail
  | bound + 1 => termLayer (bound + 1) (term bound)

/-- What a parenthesis around types stands for. -/
def parenthesizedType : List TypeTerm → TypeTerm
  | [item] => item
  | items => .tuple items

/-- Reads a type that nothing can split. -/
def typeAtom (bound : Nat) (inner : Parser TypeTerm) : Parser TypeTerm :=
  .orElse (do return .name (← constructorName)) do
    symbol "("
    let items ← .separated inner (symbol ",") bound
    symbol ")"
    return parenthesizedType items

/-- Reads a type that nests no deeper than a bound. -/
def typeTerm : (bound : Nat) → Parser TypeTerm
  | 0 => .fail
  | bound + 1 => do
    let param ← typeAtom (bound + 1) (typeTerm bound)
    match ← .optional (do symbol "->"; typeTerm bound) with
    | none => return param
    | some result => return .function param result

def variantDecl (bound : Nat) : Parser VariantDecl := do
  let head ← constructorName
  let payload ← .optional (typeAtom bound (typeTerm bound))
  return ⟨head, payload⟩

def fieldDecl (bound : Nat) : Parser FieldDecl := do
  let field ← name
  symbol ":"
  let type ← typeTerm bound
  return ⟨field, type⟩

def recordType (bound : Nat) : Parser TypeDeclBody := do
  symbol "\x7b"
  let fields ← .separated (fieldDecl bound) (symbol ",") bound
  symbol "\x7d"
  return .record fields

def sumType (bound : Nat) : Parser TypeDeclBody := do
  return .sum (← .separated (variantDecl bound) (symbol "|") bound)

def typeDecl (bound : Nat) : Parser Declaration := do
  keyword "type"
  let head ← constructorName
  symbol "="
  let body ← .orElse (recordType bound) (sumType bound)
  symbol "."
  return .type ⟨head, body⟩

def functionDecl (bound : Nat) : Parser Declaration := do
  let function ← name
  let params ← .many name bound
  symbol "="
  let body ← term bound
  symbol "."
  return .function ⟨function, params, body⟩

def declaration (bound : Nat) : Parser Declaration :=
  .orElse (typeDecl bound) (functionDecl bound)

end Fern.Syntax
