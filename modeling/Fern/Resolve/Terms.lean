import Fern.Arithmetic
import Fern.Resolve.Types

/-!
# Resolving expressions

An identifier has to be a local name or a top-level one, and both become symbols. A constructor
without payload is the value that its variant has, so it is applied to the unit value at once. A
function of several parameters becomes functions of one parameter inside each other, and a sequence
binds the value of its first part to a name that nobody asks for.

A record literal belongs to the one record type with exactly its fields, in whatever order they are
written, and its values are put into the order of the type. A field is selected by the type of the
target if that is known to have it, or else by the position that all record types with that field
agree on. A match has one arm for each variant of one sum type.
-/

namespace Fern

/-- What names mean in an expression. -/
structure Env where
  program : Program
  locals : List String := []
  definition : Option String := none

/-- What is known of a constructor: its type, the number of its variant, and whether a payload was
declared. -/
structure ConstructorInfo where
  handle : TypeHandle
  index : Nat
  hasPayload : Bool
  deriving DecidableEq, Repr

def Program.constructors (program : Program) : List (String × ConstructorInfo) :=
  program.handledTypes.flatMap fun (handle, def_) =>
    def_.variants.zipIdx.map fun (variant, index) =>
      (variant.name, ⟨handle, index, variant.payload.isSome⟩)

/-- The constructor with a name. Where a name occurs twice, the later variant has it. -/
def Program.constructor? (program : Program) (name : String) : Option ConstructorInfo :=
  program.constructors.reverse.lookup name

structure RecordType where
  name : String
  fields : List FieldDef
  deriving Repr

def Program.records (program : Program) : List RecordType :=
  program.types.filterMap fun def_ =>
    match def_.body with
    | .record fields => some ⟨def_.name, fields⟩
    | .sum _ => none

namespace RecordType

def fieldNames (record : RecordType) : List String := record.fields.map (·.name)

def field? (record : RecordType) (name : String) : Option (Nat × TypeInfo) :=
  (record.fields.zipIdx.find? fun (field, _) => field.name == name).map fun (field, index) =>
    (index, field.type)

end RecordType

namespace Env

def withLocal (env : Env) (name : String) : Env := { env with locals := name :: env.locals }

def withLocals (env : Env) (names : List String) : Env := names.foldl withLocal env

def withCapture (env : Env) : Option String → Env
  | none => env
  | some name => env.withLocal name

/-- A refusal, in the definition that is being resolved. -/
def refuse {α : Type} (env : Env) (fault : ResolveFault) : Except ResolveError α :=
  .error ⟨fault, env.definition⟩

end Env

/-- The name that a sequence binds the value of its first part to. -/
def sequenceName : String := "_"

/-- The capture of an arm; an underscore captures nothing. -/
def captureOf (binding : Option String) : Option String :=
  binding.filter (· != "_")

def resolveIdentifier (env : Env) (name : String) : Except ResolveError Expr :=
  if env.locals.contains name || (env.program.find? name).isSome then .ok (.symbol name .unknown)
  else env.refuse (.unboundIdentifier name)

def resolveConstructor (env : Env) (name : String) : Except ResolveError Expr :=
  match env.program.constructor? name with
  | none => env.refuse (.unknownConstructor name)
  | some info =>
    let type := TypeInfo.named info.handle.name []
    let constructor := Expr.constructor info.handle info.index type
    .ok (if info.hasPayload then constructor else .apply constructor [.unit .unit] type)

/-- A function of several parameters. -/
def curry (params : List String) (body : Expr) : Expr :=
  params.foldr (fun param body => .lambda param body .anyFunction) body

/-- The record type that a literal with the given fields belongs to. -/
def recordFor (env : Env) (names : List String) : Except ResolveError RecordType :=
  if names.eraseDups.length ≠ names.length then env.refuse (.repeatedField names)
  else
    match env.program.records.filter fun record => record.fieldNames.isPerm names with
    | [record] => .ok record
    | [] => env.refuse (.noRecord names)
    | several => env.refuse (.manyRecords (several.map (·.name)))

/-- Puts the resolved fields of a literal into the order of a record type. -/
def inRecordOrder (record : RecordType) (values : List (String × Except ResolveError Expr)) :
    Except ResolveError (List Expr) :=
  (record.fieldNames.filterMap fun name => values.lookup name).mapM id

/-- The position and type of a field of a target whose type may be known. -/
def fieldFor (env : Env) (target : TypeInfo) (name : String) :
    Except ResolveError (Nat × TypeInfo) :=
  let known := env.program.records.filter fun record => target.name? == some record.name
  match known.findSome? (·.field? name) with
  | some found => .ok found
  | none =>
    match env.program.records.filterMap (·.field? name) with
    | [] => env.refuse (.unknownField name)
    | [found] => .ok found
    | found :: others =>
      if others.all (·.1 == found.1) then .ok (found.1, .unknown)
      else env.refuse (.fieldPositions name)

/-- The type and the variants that the arms of a match have named so far. -/
structure ArmsSoFar where
  handle : Option TypeHandle := none
  seen : List Nat := []

/-- What the constructor of the next arm of a match means. -/
def armFor (env : Env) (soFar : ArmsSoFar) (head : String) :
    Except ResolveError ConstructorInfo :=
  match env.program.constructor? head with
  | none => env.refuse (.unknownArm head)
  | some info =>
    match soFar.handle.filter (· != info.handle) with
    | some expected => env.refuse (.foreignArm head info.handle.name expected.name)
    | none =>
      if soFar.seen.contains info.index then env.refuse (.repeatedArm head) else .ok info

/-- An arm of a match whose body has been resolved. -/
abbrev ResolvedArm := Arm (Except ResolveError Expr)

/-- The branches for the arms of a match. -/
def branchesFrom (env : Env) (soFar : ArmsSoFar) :
    List ResolvedArm → Except ResolveError (ArmsSoFar × List (Branch Expr))
  | [] => .ok (soFar, [])
  | arm :: rest => do
    let info ← armFor env soFar arm.constructor
    let body ← arm.body
    let (all, others) ←
      branchesFrom env ⟨some info.handle, info.index :: soFar.seen⟩ rest
    return (all, ⟨info.index, captureOf arm.binding, body⟩ :: others)

/-- The names of the variants of a type that are not among the given ones. -/
def missingVariants (env : Env) (handle : TypeHandle) (seen : List Nat) : List String :=
  let variants := ((env.program.typeDef? handle).map (·.variants)).getD []
  (variants.zipIdx.filter fun (_, index) => !seen.contains index).map fun (variant, _) =>
    variant.name

/-- The branches of a match, of which every variant of one type needs one. -/
def branchesFor (env : Env) (arms : List ResolvedArm) :
    Except ResolveError (List (Branch Expr)) := do
  let (all, branches) ← branchesFrom env {} arms
  match all.handle with
  | none => env.refuse .noArms
  | some handle =>
    let missing := missingVariants env handle all.seen
    if missing.isEmpty then return branches
    else env.refuse (.missingArms handle.name missing)

def Operator.resultType (op : Operator) : TypeInfo := if op.isTest then .bool else .int

mutual

/-- What an expression means. -/
def Term.resolve (env : Env) : Term → Except ResolveError Expr
  | .integer n => if n > maxInteger then env.refuse (.literalRange n) else .ok (.integer n .int)
  | .string text => .ok (.string text .string)
  | .boolean b => .ok (.boolean b .bool)
  | .unit => .ok (.unit .unit)
  | .identifier name => resolveIdentifier env name
  | .constructor name => resolveConstructor env name
  | .tuple items => do return .tuple (← Term.resolveAll env items) .unknown
  | .record fields => do
    let record ← recordFor env (fields.map (·.1))
    let items ← inRecordOrder record (Term.resolveFields env fields)
    return .record items (.named record.name [])
  | .field target name => do
    let target ← target.resolve env
    let (index, type) ← fieldFor env target.type name
    return .field target index type
  | .item target index => do return .field (← target.resolve env) index .unknown
  | .apply callee args => do
    let callee ← callee.resolve env
    let args ← Term.resolveAll env args
    return .apply callee args .unknown
  | .binary op lhs rhs => do
    let lhs ← lhs.resolve env
    let rhs ← rhs.resolve env
    return .binary op lhs rhs op.resultType
  | .letIn name rhs body => do
    let rhs ← rhs.resolve env
    let body ← body.resolve (env.withLocal name)
    return .letIn name rhs body .unknown
  | .sequence first rest => do
    let first ← first.resolve env
    let rest ← rest.resolve (env.withLocal sequenceName)
    return .letIn sequenceName first rest .unknown
  | .conditional cond cons alt => do
    let cond ← cond.resolve env
    let cons ← cons.resolve env
    let alt ← alt.resolve env
    return .conditional cond cons alt .unknown
  | .caseOf matchee arms => do
    let matchee ← matchee.resolve env
    let branches ← branchesFor env (Term.resolveArms env arms)
    return .caseOf matchee branches .unknown
  | .lambda params body => do return curry params (← body.resolve (env.withLocals params))
  | .other tag _ => env.refuse (.unknownForm tag)

def Term.resolveAll (env : Env) : List Term → Except ResolveError (List Expr)
  | [] => .ok []
  | t :: rest => do
    let e ← t.resolve env
    let others ← Term.resolveAll env rest
    return e :: others

def Term.resolveFields (env : Env) :
    List (String × Term) → List (String × Except ResolveError Expr)
  | [] => []
  | (name, t) :: rest => (name, t.resolve env) :: Term.resolveFields env rest

/-- What the body of each arm of a match means, with its capture in scope. -/
def Term.resolveArms (env : Env) : List (Arm Term) → List ResolvedArm
  | [] => []
  | ⟨head, binding, body⟩ :: rest =>
    ⟨head, binding, body.resolve (env.withCapture (captureOf binding))⟩ ::
      Term.resolveArms env rest

end

end Fern
