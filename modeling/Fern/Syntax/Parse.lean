import Fern.Syntax.Grammar
import Fern.Text.Charset

/-!
# Reading programs and expressions

A program is a text of declarations to its very end, and so is a text of a single expression. Tabs
are expanded before anything is read, inside literals too, and offsets count in the expanded text.

A program that cannot be read is blamed on the first declaration that cannot: reading takes as many
declarations as there are, and what stands behind them should have been the end. An expression may
fail in the same way, or because not even its beginning is one.
-/

namespace Fern.Syntax

/-- Why a text cannot be read. -/
inductive ParseFault
  /-- Something stands at an offset where the text should have ended. -/
  | leftover (offset : Nat)
  /-- The text does not begin with an expression. -/
  | noExpression
  deriving DecidableEq, Repr

/-- A bound on the nesting and the repetitions in a text. -/
def boundFor (text : List Char) : Nat := text.length + 1

/-- Accepts a reading that leaves nothing but blanks and comments. -/
def atEnd {α : Type} (text : List Char) (result : α) (cursor : Cursor) : Except ParseFault α :=
  let rest := cursor.skip.rest
  if rest.isEmpty then .ok result else .error (.leftover (text.length - rest.length))

/-- Reads the declarations of an expanded text. -/
def programOf (text : List Char) : Except ParseFault (List Declaration) :=
  let (declarations, cursor) :=
    Parser.collect (declaration (boundFor text)) (boundFor text) (.start text)
  atEnd text declarations cursor

/-- Reads the expression of an expanded text. -/
def expressionOf (text : List Char) : Except ParseFault Term :=
  match term (boundFor text) (.start text) with
  | none => .error .noExpression
  | some (t, cursor) => atEnd text t cursor

def parseProgram (source : String) : Except ParseFault (List Declaration) :=
  programOf (Text.expandTabs source.toList)

def parseExpression (source : String) : Except ParseFault Term :=
  expressionOf (Text.expandTabs source.toList)

/-- Whether a text is a program rather than an expression. A program may be without declarations,
but not without a visible character. -/
def isDeclaration (source : String) : Bool :=
  (parseProgram source).isOk && !(Text.strip source.toList).isEmpty

/-- Reads one element of the grammar at the start of a text, and the rest of the text too if all of
it has to be read. -/
def parseElement {α : Type} (element : (bound : Nat) → Parser α) (all : Bool) (source : String) :
    Option α :=
  let text := Text.expandTabs source.toList
  match element (boundFor text) (.start text) with
  | none => none
  | some (a, cursor) => if all && !cursor.skip.rest.isEmpty then none else some a

end Fern.Syntax
