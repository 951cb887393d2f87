import Fern.Builtin.Call

/-!
# Evaluation

Evaluation is strict and goes from left to right. One step of it says what an expression does in
terms of an evaluator for what lies inside: the parts of the expression, and the bodies of the
functions it applies. The evaluator for a nesting limit is that step over the evaluator for the
limit below, so every question about evaluation is a question about one step and an induction on the
limit.

A name means its local binding, else the top-level definition. The program table holds functions
alone; a local function remembers the scope of its place, a top-level one has nothing to remember.
-/

namespace Fern

/-- How an evaluator for expressions is passed around. -/
abbrev Evaluator := Scope → Expr → Run Value

namespace Context

def lookup (context : Context) (scope : Scope) (name : String) : Run Value :=
  match scope.find? name with
  | some value => pure value
  | none =>
    match context.program.find? name with
    | none => Run.fail (.unbound name)
    | some ⟨.lambda param body _, _⟩ => pure (.function param [] body)
    | some ⟨.builtin id _, _⟩ => pure (.builtin id)
    | some ⟨expr, _⟩ => Run.fail (.notFunction name expr.kind)

def applyWith (context : Context) (eval : Evaluator) (callee argument : Value) : Run Value :=
  match callee with
  | .function param captured body => do
    context.note ("Calling function of " ++ param)
    eval (Scope.bind captured param argument) body
  | .constructor handle index => pure (.variant handle index argument)
  | .builtin id => do
    context.note ("Calling built-in " ++ id)
    callBuiltin context.files id argument
  | value => Run.fail (.notCallable value.typeName)

def project (target : Value) (index : Int) : Run Value :=
  match target with
  | .tuple items =>
    match (if 0 ≤ index then items[index.toNat]? else none) with
    | some item => pure item
    | none => Run.fail (.fieldRange index items.length)
  | value => Run.fail (.fieldOf value.typeName)

/-- Runs the branch for a variant in the scope of the match, with the payload captured. -/
def selectWith (eval : Evaluator) (scope : Scope) (branches : List (Branch Expr)) :
    Value → Run Value
  | .variant handle index payload =>
    match branches.find? (·.index == index) with
    | none => Run.fail (.noBranch index handle)
    | some ⟨_, none, body⟩ => eval scope body
    | some ⟨_, some name, body⟩ => eval (scope.bind name payload) body
  | value => Run.fail (.matchOf value.typeName)

/-- Runs one of two branches; zero selects the second. -/
def chooseWith (eval : Evaluator) (scope : Scope) (cons alt : Expr) : Value → Run Value
  | .integer n => eval scope (if n ≠ 0 then cons else alt)
  | value => Run.fail (.conditionOf value.typeName)

/-- The result of an operator. Texts can be compared for equality and nothing else. -/
def operate (op : Operator) : Value → Value → Run Value
  | .integer lhs, .integer rhs =>
    match op.onIntegers lhs rhs with
    | .ok result => pure (.integer result)
    | .error error => Run.fail (.arithmetic error)
  | .string lhs, .string rhs =>
    if op = .equals then pure (.ofBool (lhs == rhs)) else Run.fail (.stringOperator op)
  | lhs, rhs => Run.fail (.mixedOperator op lhs.typeName rhs.typeName)

/-- The constructor of a variant that the program has to define. -/
def makeConstructor (context : Context) (handle : TypeHandle) (index : Int) : Run Value :=
  match context.program.typeDef? handle with
  | some ⟨name, .sum variants⟩ =>
    if 0 ≤ index ∧ index < variants.length then pure (.constructor handle index)
    else Run.fail (.noVariant name index)
  | _ => Run.fail (.notSumType handle)

/-- One step of evaluation, over an evaluator for what lies inside. -/
def step (context : Context) (eval : Evaluator) : Evaluator := fun scope expr => do
  context.note ("Evaluating: " ++ expr.kind)
  match expr with
  | .tuple items _ => return .tuple (← items.mapM (eval scope))
  | .record items _ => return .tuple (← items.mapM (eval scope))
  | .field target index _ => project (← eval scope target) index
  | .letIn name rhs body _ => do
    let value ← eval scope rhs
    eval (scope.bind name value) body
  | .caseOf matchee branches _ => do selectWith eval scope branches (← eval scope matchee)
  | .apply callee args _ => do
    let callee ← eval scope callee
    args.foldlM (fun current arg => do context.applyWith eval current (← eval scope arg)) callee
  | .lambda param body _ => pure (.function param scope body)
  | .symbol name _ => context.lookup scope name
  | .boolean value _ => pure (.ofBool value)
  | .conditional cond cons alt _ => do chooseWith eval scope cons alt (← eval scope cond)
  | .binary op lhs rhs _ => do
    let lhs ← eval scope lhs
    let rhs ← eval scope rhs
    operate op lhs rhs
  | .constructor handle index _ => context.makeConstructor handle index
  | .builtin id _ => pure (.builtin id)
  | .string value _ => pure (.string value)
  | .integer value _ => pure (.integer value)
  | .unit _ => pure .unit
  | .other kind _ _ => Run.fail (.unknownKind kind)

/-- Evaluates an expression with at most `limit` evaluations inside each other. -/
def eval (context : Context) : (limit : Nat) → Evaluator
  | 0, _, _ => Run.fail .nesting
  | limit + 1, scope, expr => context.step (context.eval limit) scope expr

/-- Evaluates with a limit that the host may have refused, and then not at all. -/
def evalWithin (context : Context) : Except LimitFault Nat → Evaluator
  | .ok limit => context.eval limit
  | .error fault => fun _ _ => throw (.refusedLimit fault)

/-- Runs a program by an evaluator: it evaluates the body of the entry function once, with nothing
bound. The parameter of that function has no value. -/
def runWith (context : Context) (eval : Evaluator) (entry : String) : Run Value :=
  match context.program.find? entry with
  | none => Run.fail (.noEntry entry)
  | some ⟨.lambda _ body _, _⟩ => do
    context.note ("Running entry point " ++ entry)
    let result ← eval [] body
    context.note ("Result: " ++ result.format context.program.types)
    return result
  | some ⟨expr, _⟩ => Run.fail (.entryKind entry expr.kind)

end Context

end Fern
