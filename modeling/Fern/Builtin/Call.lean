import Fern.Eval.Run
import Fern.Text.Decimal
import Fern.Text.Search

/-!
# Calling built-in functions

A built-in function looks at the type of its argument first. Three of them take texts apart; one
reads a file; two write and return the unit value.
-/

namespace Fern

/-- The text that a built-in function asks for. -/
def Builtin.wantText (builtin : Builtin) : Value → Run String
  | .string text => pure text
  | value => Run.fail (.argument builtin.id "String" value.typeName)

def Builtin.wantInteger (builtin : Builtin) : Value → Run Int
  | .integer n => pure n
  | value => Run.fail (.argument builtin.id "Integer" value.typeName)

def Builtin.wantTexts (builtin : Builtin) : Value → Run (String × String)
  | .tuple [first, second] => do
    let first ← builtin.wantText first
    let second ← builtin.wantText second
    return (first, second)
  | .tuple items => Run.fail (.argumentSize builtin.id 2 items.length)
  | value => Run.fail (.argument builtin.id "Tuple" value.typeName)

/-- The text in a file. A path with a NUL character never reaches the file system. -/
def readPath (files : FileSystem) (path : String) : Run Value :=
  if path.toList.contains '\x00' then throw .refusedPath
  else
    match files.readText path with
    | .ok text => pure (.string text)
    | .error fault => Run.fail (.unreadable path fault)

/-- The integer that a text denotes, if it is one and in range. -/
def parseInteger (text : String) : Run Value :=
  match Text.integer? text.toList with
  | none => Run.fail (.notInteger text)
  | some n => if InRange n then pure (.integer n) else Run.fail (.integerRange text)

/-- The first character of a text and the others. -/
def firstAndRest (text : String) : Run Value :=
  match text.toList with
  | [] => Run.fail .noFirstChar
  | c :: rest => pure (.tuple [.string (String.ofList [c]), .string (String.ofList rest)])

/-- What stands before and behind the first occurrence of a separator. Without an occurrence, the
first is the whole text and the second is empty. -/
def splitText (text separator : String) : String × String :=
  match Text.cutAt? separator.toList text.toList with
  | none => (text, "")
  | some (before, behind) => (String.ofList before, String.ofList behind)

def Builtin.call (files : FileSystem) (builtin : Builtin) (argument : Value) : Run Value :=
  match builtin with
  | .readFile => do readPath files (← builtin.wantText argument)
  | .print => do
    Run.write (← builtin.wantText argument)
    return .unit
  | .printInt => do
    Run.write (toString (← builtin.wantInteger argument))
    return .unit
  | .parseInt => do parseInteger (← builtin.wantText argument)
  | .firstChar => do firstAndRest (← builtin.wantText argument)
  | .split => do
    let (text, separator) ← builtin.wantTexts argument
    let (before, behind) := splitText text separator
    return .tuple [.string before, .string behind]

/-- Applies the built-in function with an identifier. -/
def callBuiltin (files : FileSystem) (id : String) (argument : Value) : Run Value :=
  match Builtin.ofId? id with
  | none => Run.fail (.unknownBuiltin id)
  | some builtin => builtin.call files argument

end Fern
