import Fern.Program

/-!
# Built-in functions

Six functions come with the language. Each has an identifier, which resolved programs use, and a
name under which programs find it at first; a program may give that name a meaning of its own.
-/

namespace Fern

/-- A built-in function. -/
inductive Builtin
  | readFile
  | print
  | printInt
  | parseInt
  | firstChar
  | split
  deriving DecidableEq, Repr

namespace Builtin

/-- The built-in functions in the order in which they are declared. -/
def all : List Builtin := [.readFile, .print, .printInt, .parseInt, .firstChar, .split]

def id : Builtin → String
  | .readFile => "FileRead"
  | .print => "Print"
  | .printInt => "Printi"
  | .parseInt => "StringParseInt"
  | .firstChar => "StringGetFirst"
  | .split => "StringSplit"

/-- The name of a built-in function in programs. -/
def surfaceName : Builtin → String
  | .readFile => "read_file"
  | .print => "print"
  | .printInt => "printi"
  | .parseInt => "parse_int"
  | .firstChar => "string_first"
  | .split => "string_split"

/-- The type of a built-in function, as people read it. -/
def signature : Builtin → String
  | .readFile => "String -> String"
  | .print => "String -> Unit"
  | .printInt => "Int -> Unit"
  | .parseInt => "String -> Int"
  | .firstChar => "String -> (String, String)"
  | .split => "(String, String) -> (String, String)"

def ofId? (id : String) : Option Builtin := all.find? (·.id == id)

theorem mem_all (builtin : Builtin) : builtin ∈ all := by
  cases builtin <;> decide

theorem ofId?_id (builtin : Builtin) : ofId? builtin.id = some builtin := by
  cases builtin <;> rfl

/-- Different built-in functions have different names in programs. -/
theorem surfaceName_injective {a b : Builtin} (h : a.surfaceName = b.surfaceName) : a = b := by
  cases a <;> cases b <;> first | rfl | exact absurd h (by decide)

def surfaceNames : List String := all.map surfaceName

end Builtin

/-- Declares every built-in function under its name. -/
def Program.withBuiltins (program : Program) : Program :=
  Builtin.all.foldl (fun p b => p.define b.surfaceName (.builtin b.id .unknown) .unknown) program

/-- Whether an entry of a program table is the user's own: its name is not that of a built-in
function, or it no longer means the built-in function. -/
def isUserDefinition (entry : String × Definition) : Bool :=
  !Builtin.surfaceNames.contains entry.1 || !entry.2.expr.isBuiltin

/-- The user's own entries of a program table. -/
def Program.userDefinitions (program : Program) : List (String × Definition) :=
  program.definitions.filter isUserDefinition

end Fern
