/-!
# Errors of resolution

Why a program, a type or an expression is refused before it runs. An error names the definition in
which it was found, if there is one.
-/

namespace Fern

/-- Why resolution fails. -/
inductive ResolveFault
  | unknownType (name : String)
  | unknownTypeForm (tag : String)
  | duplicateType (name : String)
  | duplicateConstructor (name : String)
  | duplicateField (field record : String)
  | literalRange (n : Int)
  | unboundIdentifier (name : String)
  | unknownConstructor (name : String)
  | repeatedField (names : List String)
  | noRecord (names : List String)
  | manyRecords (types : List String)
  | unknownField (name : String)
  | fieldPositions (name : String)
  | unknownArm (constructor : String)
  | foreignArm (constructor owner expected : String)
  | repeatedArm (constructor : String)
  | missingArms (type : String) (constructors : List String)
  | noArms
  | unknownForm (tag : String)
  | duplicateDefinition (name : String)
  | notFunction
  deriving DecidableEq, Repr

def ResolveFault.message : ResolveFault → String
  | .unknownType name => "unknown type: " ++ name
  | .unknownTypeForm tag => "unknown type expression: " ++ tag
  | .duplicateType name => "duplicate type: " ++ name
  | .duplicateConstructor name => "duplicate constructor: " ++ name
  | .duplicateField field record => "duplicate field '" ++ field ++ "' in record " ++ record
  | .literalRange n => "integer literal out of range: " ++ toString n
  | .unboundIdentifier name => "unbound identifier: " ++ name
  | .unknownConstructor name => "unknown constructor: " ++ name
  | .repeatedField names => "duplicate field in record literal: " ++ ", ".intercalate names
  | .noRecord names => "no record type has exactly the fields " ++ ", ".intercalate names
  | .manyRecords types => "ambiguous record literal, matches " ++ ", ".intercalate types
  | .unknownField name => "unknown field: " ++ name
  | .fieldPositions name =>
    "field '" ++ name ++ "' has different positions in different record types"
  | .unknownArm head => "unknown constructor in match arm: " ++ head
  | .foreignArm head owner expected =>
    "match arm " ++ head ++ " belongs to " ++ owner ++ ", expected " ++ expected
  | .repeatedArm head => "duplicate match arm: " ++ head
  | .missingArms type constructors =>
    "non-exhaustive match on " ++ type ++ ", missing " ++ ", ".intercalate constructors
  | .noArms => "match without arms"
  | .unknownForm tag => "unsupported syntax: " ++ tag
  | .duplicateDefinition name => "duplicate definition: " ++ name
  | .notFunction => "top-level definitions must be functions"

/-- A reason together with the definition that it was found in. -/
structure ResolveError where
  fault : ResolveFault
  definition : Option String := none
  deriving DecidableEq, Repr

namespace ResolveError

/-- The wording of an error, without its place. -/
def message (error : ResolveError) : String := error.fault.message

/-- An error on one line. -/
def text (error : ResolveError) : String :=
  match error.definition with
  | some name => "Semantics error in '" ++ name ++ "': " ++ error.message
  | none => "Semantics error: " ++ error.message

end ResolveError

end Fern
