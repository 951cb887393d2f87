import Fern.Operator
import Fern.Syntax.Parser
import Fern.Text.Decimal

/-!
# Tokens

Words of the grammar. A keyword is recognised only where it does not touch a further letter, digit,
underscore or dollar sign on either side. A name starts with a small letter or an underscore, a
constructor with a capital, and both go on with letters, digits, underscores and apostrophes; a name
may not stand where a keyword does.

A text literal stays on its line. A backslash takes the next character along, whatever it is; the
forms that stand for other characters are listed at `unescape`.
-/

namespace Fern.Syntax

def keywords : List String :=
  ["let", "in", "if", "then", "else", "match", "with", "true", "false", "type", "and", "or"]

/-- The characters that keep a keyword from being one when they touch it. -/
def isKeywordChar (c : Char) : Bool := c.isAlphanum || c == '_' || c == '$'

/-- The characters that names and constructors go on with. -/
def isNameChar (c : Char) : Bool := c.isAlphanum || c == '_' || c == '\''

/-- The characters that names start with. -/
def isNameStart (c : Char) : Bool := c.isLower || c == '_'

/-- A word of the grammar that may touch anything. -/
def symbol (word : String) : Parser Unit :=
  .token fun cursor => (cursor.accept word.toList).map ((), ·)

/-- A keyword at this very place. -/
def keywordHere (word : String) : Parser Unit := fun cursor =>
  if cursor.previous.any isKeywordChar then none
  else
    match cursor.accept word.toList with
    | none => none
    | some behind => if behind.rest.head?.any isKeywordChar then none else some ((), behind)

def keyword (word : String) : Parser Unit := .token (keywordHere word)

/-- Whether a keyword stands at this very place. -/
def atKeyword (cursor : Cursor) : Bool :=
  keywords.any fun word => (keywordHere word cursor).isSome

/-- A word whose first character passes one test and whose others pass another. -/
def word (start others : Char → Bool) : Parser String := fun cursor =>
  match cursor.rest with
  | [] => none
  | c :: rest =>
    if start c then
      let (taken, behind) := (Cursor.past c rest).span others
      some (String.ofList (c :: taken), behind)
    else none

/-- The name of a variable, parameter, field or function. -/
def name : Parser String :=
  .token fun cursor => if atKeyword cursor then none else word isNameStart isNameChar cursor

def constructorName : Parser String := .token (word Char.isUpper isNameChar)

/-- A run of digits. -/
def number : Parser Nat := .token do
  let digits ← word Char.isDigit Char.isDigit
  return Text.decimalValue digits.toList

/-- What follows a dot that touches it: a field name, keywords not excepted, or a position. -/
def selector : Parser (String ⊕ Nat) := fun cursor =>
  match cursor.rest with
  | '.' :: rest =>
    Parser.orElse (do return .inl (← word isNameStart isNameChar))
      (do return .inr (Text.decimalValue (← word Char.isDigit Char.isDigit).toList))
      (.past '.' rest)
  | _ => none

/-- The inside of a text literal up to its closing quote, and the place behind that. -/
def literalBody : List Char → Option (List Char × Cursor)
  | [] => none
  | '"' :: rest => some ([], .past '"' rest)
  | '\\' :: c :: rest =>
    if c = '\n' then none else (literalBody rest).map fun (body, behind) => ('\\' :: c :: body, behind)
  | c :: rest =>
    if c = '\n' || c = '\r' || c = '\\' then none
    else (literalBody rest).map fun (body, behind) => (c :: body, behind)

/-- The value of a hexadecimal digit. -/
def hexDigit? (c : Char) : Option Nat :=
  if c.isDigit then some (c.toNat - '0'.toNat)
  else if 'a' ≤ c && c ≤ 'f' then some (c.toNat - 'a'.toNat + 10)
  else if 'A' ≤ c && c ≤ 'F' then some (c.toNat - 'A'.toNat + 10)
  else none

/-- The text that the inside of a literal denotes. The letters `t`, `n`, `f` and `r` behind a
backslash are the control characters. An octal digit with a `3` behind it stays as the two digits;
another `0` is the character NUL. An `x` with a hexadecimal digit and a `2`, or a `u` with one and a
`4`, is the character with those two digits. Any other character stands for itself. -/
def unescape : List Char → List Char
  | [] => []
  | ['\\'] => ['\\']
  | '\\' :: 't' :: rest => '\t' :: unescape rest
  | '\\' :: 'n' :: rest => '\n' :: unescape rest
  | '\\' :: 'f' :: rest => '\x0c' :: unescape rest
  | '\\' :: 'r' :: rest => '\r' :: unescape rest
  | '\\' :: 'x' :: d :: '2' :: rest =>
    match hexDigit? d with
    | some n => Char.ofNat (n * 16 + 2) :: unescape rest
    | none => 'x' :: unescape (d :: '2' :: rest)
  | '\\' :: 'u' :: d :: '4' :: rest =>
    match hexDigit? d with
    | some n => Char.ofNat (n * 16 + 4) :: unescape rest
    | none => 'u' :: unescape (d :: '4' :: rest)
  | '\\' :: '0' :: '3' :: rest => '0' :: '3' :: unescape rest
  | '\\' :: '0' :: rest => '\x00' :: unescape rest
  | '\\' :: c :: rest => c :: unescape rest
  | c :: rest => c :: unescape rest

def literal : Parser String := .token fun cursor =>
  match cursor.rest with
  | '"' :: rest => (literalBody rest).map fun (body, behind) =>
      (String.ofList (unescape body), behind)
  | _ => none

end Fern.Syntax
