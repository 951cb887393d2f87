import Fern.Resolve.Program

/-!
# The trace of resolution

On request, resolution tells which nodes it looks at, and which types and definitions it has done,
in order and up to the first refusal. The trace is told from the outside: it walks the parts of a
node in the order in which resolution does, and asks resolution whether it got past each of them.
-/

namespace Fern

/-- The trace of one part: its lines, and whether resolution gets past it. -/
structure TracePart where
  lines : List String
  passed : Bool

/-- The lines of parts that are walked one after the other, up to the first refusal. -/
def untilRefusal : List TracePart → List String
  | [] => []
  | part :: rest => part.lines ++ if part.passed then untilRefusal rest else []

/-- The lines of the arms of a match, up to the first that is refused for its constructor or its
body. -/
def armLines (env : Env) (soFar : ArmsSoFar) : List (Arm TracePart) → List String
  | [] => []
  | arm :: rest =>
    match armFor env soFar arm.constructor with
    | .error _ => []
    | .ok info =>
      arm.body.lines ++
        if arm.body.passed then
          armLines env ⟨some info.handle, info.index :: soFar.seen⟩ rest
        else []

/-- The lines of the fields of a record literal, in the order of its type. -/
def fieldLines (env : Env) (parts : List (String × TracePart)) : List String :=
  match recordFor env (parts.map (·.1)) with
  | .error _ => []
  | .ok record => untilRefusal (record.fieldNames.filterMap fun name => parts.lookup name)

mutual

/-- The tags of the nodes of an expression that resolution looks at. -/
def Term.visits (env : Env) : Term → List String
  | .tuple items => "TUPLE" :: untilRefusal (Term.visitsAll env items)
  | .record fields => "RECORD" :: fieldLines env (Term.visitsFields env fields)
  | .field target _ => "FIELD" :: target.visits env
  | .item target _ => "FIELD" :: target.visits env
  | .apply callee args =>
    "APPLY" :: untilRefusal
      (⟨callee.visits env, (callee.resolve env).isOk⟩ :: Term.visitsAll env args)
  | .binary _ lhs rhs =>
    "BINARY_OP" :: untilRefusal
      [⟨lhs.visits env, (lhs.resolve env).isOk⟩, ⟨rhs.visits env, true⟩]
  | .letIn name rhs body =>
    "LET" :: untilRefusal
      [⟨rhs.visits env, (rhs.resolve env).isOk⟩, ⟨body.visits (env.withLocal name), true⟩]
  | .sequence first rest =>
    "SEQ" :: untilRefusal
      [⟨first.visits env, (first.resolve env).isOk⟩,
        ⟨rest.visits (env.withLocal sequenceName), true⟩]
  | .conditional cond cons alt =>
    "IF" :: untilRefusal
      [⟨cond.visits env, (cond.resolve env).isOk⟩, ⟨cons.visits env, (cons.resolve env).isOk⟩,
        ⟨alt.visits env, true⟩]
  | .caseOf matchee arms =>
    "MATCH" :: (matchee.visits env ++
      if (matchee.resolve env).isOk then armLines env {} (Term.visitsArms env arms) else [])
  | .lambda params body => "LAMBDA" :: body.visits (env.withLocals params)
  | leaf => [leaf.tag]

def Term.visitsAll (env : Env) : List Term → List TracePart
  | [] => []
  | t :: rest => ⟨t.visits env, (t.resolve env).isOk⟩ :: Term.visitsAll env rest

def Term.visitsFields (env : Env) : List (String × Term) → List (String × TracePart)
  | [] => []
  | (name, t) :: rest =>
    (name, ⟨t.visits env, (t.resolve env).isOk⟩) :: Term.visitsFields env rest

def Term.visitsArms (env : Env) : List (Arm Term) → List (Arm TracePart)
  | [] => []
  | ⟨head, binding, body⟩ :: rest =>
    let inner := env.withCapture (captureOf binding)
    ⟨head, binding, ⟨body.visits inner, (body.resolve inner).isOk⟩⟩ :: Term.visitsArms env rest

end

/-- The trace of resolving an expression. -/
def Term.trace (env : Env) (t : Term) : List String :=
  (t.visits env).map ("Analyzing: " ++ ·)

def typeTrace (known : List String) (program : Program) : List TypeDecl → List String
  | [] => []
  | decl :: rest =>
    match decl.resolve known (constructorNames program.types) with
    | .error _ => []
    | .ok def_ =>
      ("Declared type " ++ (program.lastHandle def_).format) ::
        typeTrace known (program.addType def_) rest

def functionTrace (program : Program) : List FunctionDecl → List String
  | [] => []
  | decl :: rest =>
    let env : Env := { program, definition := some decl.name }
    decl.body.trace (env.withLocals decl.params) ++
      match decl.resolve program with
      | .error _ => []
      | .ok expr =>
        ("Resolved definition " ++ decl.name) ::
          functionTrace (program.define decl.name expr expr.type) rest

def Program.traceOf (decls : List Declaration) : List String :=
  let types := typeDecls decls
  match checkTypeNames [] types with
  | .error _ => []
  | .ok () =>
    typeTrace (knownTypes .empty types) .empty types ++
      match Program.empty.declareTypes types with
      | .error _ => []
      | .ok typed =>
        match announce typed.withBuiltins [] (functionDecls decls) with
        | .error _ => []
        | .ok announced => functionTrace announced (functionDecls decls)

end Fern
