import Fern.Syntax.Parse
import Fern.Text.Quoted
import Fern.Text.Search

/-!
# Diagnostics

The report on a text that cannot be read: what was expected and what was found, the place, the lines
around it with a marker below the place, and advice for frequent slips.

Positions are counted in the text as it was read, with its tabs expanded; the lines that are shown
and the excerpt of what was found are cut from the text as it was written.
-/

namespace Fern

/-- A report on a text that cannot be read. -/
structure Diagnostic where
  message : String
  location : Nat
  line : Int
  column : Int
  expected : List String := []
  got : Option String := none
  context : Option String := none
  suggestions : List String := []
  deriving DecidableEq, Repr, Inhabited

namespace Diagnostic

/-- A line of a report that gives a part of it, if that part is there and not empty. -/
def partLine (label part : String) : String :=
  if part.isEmpty then "" else "  " ++ label ++ part ++ "\n"

def format (d : Diagnostic) : String :=
  "Parse error at line " ++ toString d.line ++ ", column " ++ toString d.column ++ ":\n" ++
    "  " ++ d.message ++ "\n" ++
    (if d.expected.isEmpty then "" else "  Expected: " ++ ", ".intercalate d.expected ++ "\n") ++
    partLine "Got: " (d.got.getD "") ++
    partLine "Context:\n" (d.context.getD "") ++
    (if d.suggestions.isEmpty then ""
      else "  Suggestions:\n" ++
        String.join (d.suggestions.map fun advice => "    - " ++ advice ++ "\n"))

/-! ### The lines around a place -/

/-- The width of a line number in front of a shown line. -/
def numberWidth : Nat := 4

def numberedLine (number : Nat) (line : List Char) : String :=
  Text.padLeft numberWidth (toString number) ++ ": " ++ String.ofList line

/-- The marker below a column, which counts from one. -/
def marker (column : Int) : String :=
  Text.blankRun (numberWidth + 2) ++ Text.blankRun (column - 1).toNat ++ "^ Error here"

/-- The shown lines from a number on, with the marker behind one of them. -/
def markedLines (line column : Int) : (number : Nat) → List (List Char) → List String
  | _, [] => []
  | number, shown :: rest =>
    let others := markedLines line column (number + 1) rest
    if (number : Int) = line then numberedLine number shown :: marker column :: others
    else numberedLine number shown :: others

/-- How far from the place of an error lines are shown. -/
def contextReach : Int := 2

/-- The lines at most so far away from a line, with a marker below the place. -/
def contextLines (source : String) (line column reach : Int) : String :=
  let lines := Text.lines source.toList
  let first := (line - reach - 1).toNat
  let last := (line + reach).toNat
  "\n".intercalate (markedLines line column (first + 1) ((lines.take last).drop first))

/-! ### What was found -/

/-- The place in a list that an index means, when a negative one counts from the end. -/
def fromEnd (length : Nat) (index : Int) : Int := if index < 0 then index + length else index

/-- The part of a list between two places, of which negative ones count from the end. -/
def cut {α : Type} (first last : Int) (items : List α) : List α :=
  let first := (fromEnd items.length first).toNat
  let last := (fromEnd items.length last).toNat
  (items.take last).drop first

/-- How many characters are shown of what was found. -/
def excerptLength : Nat := 11

/-- What stands at a place, between quotes. There is an answer for every line up to one past the
last, and for lines that count back from the end. -/
def found? (source : String) (line column : Int) : Option String :=
  let lines := Text.lines source.toList
  if line > lines.length then some "end of input"
  else
    let index := fromEnd lines.length (line - 1)
    match (if index < 0 then none else lines[index.toNat]?) with
    | none => none
    | some text =>
      if column > text.length then some "end of input"
      else
        let last := min (text.length : Int) (column - 1 + excerptLength)
        let excerpt := Text.strip (cut (max 0 (column - 1)) last text)
        some (if excerpt.isEmpty then "end of line" else "'" ++ String.ofList excerpt ++ "'")

/-! ### What was expected -/

/-- Passes at least one blank and then a given text. -/
def afterBlanks (text : List Char) (rest : List Char) : Bool :=
  let blanks := rest.takeWhile Text.isBlank
  (List.range blanks.length).any fun i => text.isPrefixOf (rest.drop (i + 1))

/-- Whether the name of what was expected ends here: at a comma before the word "found", at an
opening parenthesis behind a blank, or at the end of the message. -/
def endsName (rest : List Char) : Bool :=
  rest.isEmpty || rest == ['\n'] || afterBlanks ['('] rest ||
    (match rest with
      | ',' :: rest => afterBlanks "found".toList rest
      | _ => false)

/-- The shortest name, of at least one character, that ends where a name can end. Names stay on one
line. -/
def expectedName? (taken : List Char) : List Char → Option (List Char)
  | [] => none
  | c :: rest =>
    if c = '\n' then none
    else if endsName rest then some (c :: taken).reverse
    else expectedName? (c :: taken) rest

/-- The name of what was expected in a message that starts with the word for it. As many blanks are
passed as leave a name. -/
def expectedAt? (message : List Char) : Option (List Char) :=
  let opening := "Expected".toList
  if opening.isPrefixOf message then
    let rest := message.drop opening.length
    let blanks := (rest.takeWhile Text.isBlank).length
    (List.range blanks).findSome? fun back => expectedName? [] (rest.drop (blanks - back))
  else none

/-- The name of what was expected, at the first place of a message that gives one. -/
def expectedIn? : List Char → Option (List Char)
  | [] => none
  | c :: rest =>
    match expectedAt? (c :: rest) with
    | some name => some name
    | none => expectedIn? rest

def expectedOf (message : String) : List String :=
  match expectedIn? message.toList with
  | some name => [String.ofList name]
  | none => ["valid syntax"]

/-! ### Advice -/

def advice (got : String) : List String :=
  let text := got.toList
  let has (part : String) : Bool := Text.occursIn part.toList text
  (if got = "end of input" then ["Every declaration must end with '.'"] else []) ++
    (if has "\x7b" && !has "=" then
      ["Record literals are written \x7b field = value, ... \x7d"] else []) ++
    (if has "|" then
      ["Use 'or' for logical or; '|' only separates match arms and variants"] else []) ++
    (if has "&" then ["Use 'and' for logical and"] else []) ++
    (if has "->" then
      ["Lambdas are written \\x -> body and match arms | Ctor x -> body"] else []) ++
    (if has "-" && text.any Text.isDigit then
      ["Negative literals are not supported; write (0 - n)"] else [])

/-! ### The report on a place -/

/-- How much of a word is shown in a message. -/
def wordLength : Nat := 16

/-- Two backslashes become one. -/
def singleBackslashes : List Char → List Char
  | '\\' :: '\\' :: rest => '\\' :: singleBackslashes rest
  | c :: rest => c :: singleBackslashes rest
  | [] => []

/-- The beginning of what stands at a place: a word if there is one, else a single character. -/
def firstWord (rest : List Char) : List Char :=
  let word := (rest.takeWhile Text.isWordChar).take wordLength
  if word.isEmpty then rest.take 1 else word

/-- What a message says about the place it is for; nothing for an empty text. -/
def foundPhrase (text : List Char) (offset : Nat) : String :=
  if text.isEmpty then ""
  else if offset ≥ text.length then ", found end of text"
  else ", found " ++
    String.ofList (singleBackslashes (Text.quotedChars (firstWord (text.drop offset))))

/-- A complaint with what was found and where. -/
def messageAt (text : List Char) (offset : Nat) (complaint : String) : String :=
  complaint ++ foundPhrase text offset ++ "  (at char " ++ toString offset ++ "), (line:" ++
    toString (Text.lineAt text offset) ++ ", col:" ++ toString (Text.columnAt text offset) ++ ")"

/-- The report on a place in a text, for the source that the text was made from. -/
def report (source : String) (text : List Char) (offset : Nat) (complaint : String) : Diagnostic :=
  let line := Text.lineAt text offset
  let column := Text.columnAt text offset
  let message := messageAt text offset complaint
  let got := (found? source line column).getD "end of input"
  { message
    location := offset
    line
    column
    expected := expectedOf message
    got := some got
    context := some (contextLines source line column contextReach)
    suggestions := advice got }

def ofFault (source : String) (fault : Syntax.ParseFault) : Diagnostic :=
  let text := Text.expandTabs source.toList
  match fault with
  | .leftover offset => report source text offset "Expected end of text"
  | .noExpression =>
    report source text (text.length - (Cursor.start text).skip.rest.length) "Expected expression"

def inFile (filename : String) (d : Diagnostic) : String := filename ++ ": " ++ d.format

end Diagnostic

end Fern
