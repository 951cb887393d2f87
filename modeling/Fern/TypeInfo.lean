/-!
# Types and their definitions

A type is a name with parameters; functions and tuples are the names `Function` and `Tuple`. Types
are carried along for display and for choosing record fields, and evaluation never looks at them.

A program numbers its type definitions, and a handle refers to one of them by its number together
with its name.
-/

namespace Fern

/-- What is known of a type. -/
inductive TypeInfo
  | unknown
  | named (name : String) (params : List TypeInfo)
  deriving Repr, Inhabited, BEq

namespace TypeInfo

def int : TypeInfo := .named "Int" []
def string : TypeInfo := .named "String" []
def bool : TypeInfo := .named "Bool" []
def unit : TypeInfo := .named "Unit" []

/-- The type of functions, when nothing is known of their parameter and result. -/
def anyFunction : TypeInfo := .named "Function" []

/-- The type of functions from one type to another. -/
def function (param result : TypeInfo) : TypeInfo := .named "Function" [param, result]

def tuple (items : List TypeInfo) : TypeInfo := .named "Tuple" items

/-- The names of the types that need no definition. -/
def primitives : List String := ["Int", "String", "Bool", "Unit"]

def isUnknown : TypeInfo → Bool
  | .unknown => true
  | .named _ _ => false

def name? : TypeInfo → Option String
  | .unknown => none
  | .named name _ => some name

mutual

/-- The text of a type. A function type on the left of an arrow stands in parentheses. -/
def format : TypeInfo → String
  | .unknown => "?"
  | .named name params =>
    if name = "Tuple" then "(" ++ ", ".intercalate (formatAll params) ++ ")"
    else if name = "Function" then
      match params with
      | [param, result] =>
        let left := param.format
        let left := if param.name? = some "Function" then "(" ++ left ++ ")" else left
        left ++ " -> " ++ result.format
      | _ => name
    else name

def formatAll : List TypeInfo → List String
  | [] => []
  | type :: rest => type.format :: formatAll rest

end

/-- The annotation that shows a type behind a node, which is empty when nothing is known. -/
def suffix (type : TypeInfo) : String :=
  if type.isUnknown then "" else " : " ++ type.format

end TypeInfo

/-- A variant of a sum type, with the type of its payload if one was declared. -/
structure Variant where
  name : String
  payload : Option TypeInfo
  deriving Repr, Inhabited

/-- The type of what a variant carries: without a declared payload it carries the unit value. -/
def Variant.payloadType (variant : Variant) : TypeInfo := variant.payload.getD .unit

structure FieldDef where
  name : String
  type : TypeInfo
  deriving Repr, Inhabited

/-- What a type definition defines. -/
inductive TypeBody
  | sum (variants : List Variant)
  | record (fields : List FieldDef)
  deriving Repr, Inhabited

structure TypeDef where
  name : String
  body : TypeBody
  deriving Repr, Inhabited

namespace TypeDef

/-- The variants of a sum type; a record type has none. -/
def variants (def_ : TypeDef) : List Variant :=
  match def_.body with
  | .sum variants => variants
  | .record _ => []

def isSum (def_ : TypeDef) : Bool :=
  match def_.body with
  | .sum _ => true
  | .record _ => false

/-- The word for the form of a definition. -/
def form (def_ : TypeDef) : String := if def_.isSum then "sum" else "record"

/-- The names and types of the variants or fields. -/
def members (def_ : TypeDef) : List (String × TypeInfo) :=
  match def_.body with
  | .sum variants => variants.map fun v => (v.name, v.payloadType)
  | .record fields => fields.map fun f => (f.name, f.type)

end TypeDef

/-- A reference to a type definition of a program. -/
structure TypeHandle where
  index : Int
  name : String
  deriving DecidableEq, Repr, Inhabited

def TypeHandle.format (handle : TypeHandle) : String := handle.name ++ "#" ++ toString handle.index

end Fern
