import Fern.Datum
import Fern.Operator

/-!
# Surface syntax

The trees of programs as they are written: expressions, types and declarations, with every name
unresolved. A tree built by hand may hold a node of a kind that the grammar does not have; it is
kept with its tag and content, and resolution refuses it.
-/

namespace Fern

/-- One arm of a match as it is written: a constructor, the name that captures its payload, and the
body. -/
structure Arm (α : Type) where
  constructor : String
  binding : Option String
  body : α
  deriving Repr, Inhabited

/-- An expression as it is written. -/
inductive Term
  | integer (n : Int)
  | string (text : String)
  | boolean (b : Bool)
  | unit
  | identifier (name : String)
  | constructor (name : String)
  | tuple (items : List Term)
  | record (fields : List (String × Term))
  | field (target : Term) (name : String)
  | item (target : Term) (index : Int)
  | apply (callee : Term) (args : List Term)
  | binary (op : Operator) (lhs rhs : Term)
  | sequence (first rest : Term)
  | letIn (name : String) (rhs body : Term)
  | conditional (cond cons alt : Term)
  | caseOf (matchee : Term) (arms : List (Arm Term))
  | lambda (params : List String) (body : Term)
  | other (tag : String) (content : Datum)
  deriving Repr, Inhabited

/-- A type as it is written. -/
inductive TypeTerm
  | name (name : String)
  | tuple (items : List TypeTerm)
  | function (param result : TypeTerm)
  | other (tag : String) (content : Datum)
  deriving Repr, Inhabited

/-- A variant as it is declared. -/
structure VariantDecl where
  name : String
  payload : Option TypeTerm
  deriving Repr, Inhabited

/-- A record field as it is declared. -/
structure FieldDecl where
  name : String
  type : TypeTerm
  deriving Repr, Inhabited

/-- What stands on the right of a type declaration. -/
inductive TypeDeclBody
  | sum (variants : List VariantDecl)
  | record (fields : List FieldDecl)
  deriving Repr, Inhabited

structure TypeDecl where
  name : String
  body : TypeDeclBody
  deriving Repr, Inhabited

structure FunctionDecl where
  name : String
  params : List String
  body : Term
  deriving Repr, Inhabited

inductive Declaration
  | type (decl : TypeDecl)
  | function (decl : FunctionDecl)
  deriving Repr, Inhabited

def Declaration.name : Declaration → String
  | .type decl => decl.name
  | .function decl => decl.name

/-- The word for the sort of a declaration. -/
def Declaration.sort : Declaration → String
  | .type _ => "type"
  | .function _ => "function"

def Term.tag : Term → String
  | .integer _ => "INTEGER"
  | .string _ => "STRING"
  | .boolean _ => "BOOLEAN"
  | .unit => "UNIT"
  | .identifier _ => "IDENTIFIER"
  | .constructor _ => "CONSTRUCTOR"
  | .tuple _ => "TUPLE"
  | .record _ => "RECORD"
  | .field .. | .item .. => "FIELD"
  | .apply .. => "APPLY"
  | .binary .. => "BINARY_OP"
  | .sequence .. => "SEQ"
  | .letIn .. => "LET"
  | .conditional .. => "IF"
  | .caseOf .. => "MATCH"
  | .lambda .. => "LAMBDA"
  | .other tag _ => tag

end Fern
