import Fern.Value

/-!
# The display of values

Numbers, texts, tuples and variants are shown the way they are written in a program; a text spells
out backslashes, double quotes, line feeds and tabs. A variant without payload is its bare name, and
a variant inside another stands in parentheses when it has a payload of its own. Functions have no
written form and are shown between angle brackets.

The names of variants come from type definitions. Where those do not know a variant, the name of its
type and its number stand in.
-/

namespace Fern

/-- One character of a displayed text. -/
def escapeChar : Char → List Char
  | '\\' => ['\\', '\\']
  | '"' => ['\\', '"']
  | '\n' => ['\\', 'n']
  | '\t' => ['\\', 't']
  | c => [c]

/-- A text between double quotes. -/
def displayText (text : String) : String :=
  "\"" ++ String.ofList (text.toList.flatMap escapeChar) ++ "\""

/-- The definition that a handle refers to. -/
def TypeHandle.find? (types : List TypeDef) (handle : TypeHandle) : Option TypeDef :=
  if 0 ≤ handle.index then types[handle.index.toNat]? else none

def TypeDef.variant? (def_ : TypeDef) (index : Int) : Option Variant :=
  if 0 ≤ index then def_.variants[index.toNat]? else none

def variantName (types : List TypeDef) (handle : TypeHandle) (index : Int) : String :=
  match (handle.find? types).bind (·.variant? index) with
  | some variant => variant.name
  | none => handle.name ++ "#" ++ toString index

namespace Value

/-- Whether a value is a variant that carries something other than the unit value. -/
def isLoadedVariant : Value → Bool
  | .variant _ _ payload => !payload.isUnit
  | _ => false

mutual

/-- The text of a value, with the names of variants taken from type definitions. -/
def format (types : List TypeDef) : Value → String
  | .unit => "()"
  | .integer n => toString n
  | .string text => displayText text
  | .tuple items => "(" ++ ", ".intercalate (formatAll types items) ++ ")"
  | .function param _ _ => "<function " ++ param ++ ">"
  | .builtin id => "<builtin " ++ id ++ ">"
  | .constructor handle index => "<constructor " ++ variantName types handle index ++ ">"
  | .variant handle index payload =>
    let name := variantName types handle index
    if payload.isUnit then name
    else
      let inner := payload.format types
      name ++ " " ++ (if payload.isLoadedVariant then "(" ++ inner ++ ")" else inner)
  | .other typeName _ => "<" ++ typeName ++ ">"

def formatAll (types : List TypeDef) : List Value → List String
  | [] => []
  | value :: rest => value.format types :: formatAll types rest

end

end Value

end Fern
