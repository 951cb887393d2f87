import Fern.Builtin
import Fern.Resolve.Terms

/-!
# Resolving programs

Types come first, then the built-in functions, then the names of all functions, so that bodies can
refer to one another in any order. A function takes over the place of a built-in function of its
name.
-/

namespace Fern

def typeDecls (decls : List Declaration) : List TypeDecl :=
  decls.filterMap fun
    | .type decl => some decl
    | .function _ => none

def functionDecls (decls : List Declaration) : List FunctionDecl :=
  decls.filterMap fun
    | .type _ => none
    | .function decl => some decl

/-- Makes the names of functions known, each with an empty body for now. -/
def announce (program : Program) (seen : List String) :
    List FunctionDecl → Except ResolveError Program
  | [] => .ok program
  | decl :: rest =>
    if seen.contains decl.name then .error ⟨.duplicateDefinition decl.name, none⟩
    else
      announce (program.define decl.name (.unit .unit) .unknown) (decl.name :: seen) rest

/-- What the body of a function declaration means. -/
def FunctionDecl.resolve (program : Program) (decl : FunctionDecl) : Except ResolveError Expr := do
  let env : Env := { program, definition := some decl.name }
  let body ← decl.body.resolve (env.withLocals decl.params)
  let expr := curry decl.params body
  if expr.isLambda then return expr else env.refuse .notFunction

/-- Gives the announced functions their bodies, in order. -/
def addFunctions (program : Program) : List FunctionDecl → Except ResolveError Program
  | [] => .ok program
  | decl :: rest => do
    let expr ← decl.resolve program
    addFunctions (program.define decl.name expr expr.type) rest

/-- The program that declarations stand for. -/
def Program.ofDeclarations (decls : List Declaration) : Except ResolveError Program := do
  let typed ← Program.empty.declareTypes (typeDecls decls)
  let announced ← announce typed.withBuiltins [] (functionDecls decls)
  addFunctions announced (functionDecls decls)

/-- What an expression means on top of a program, outside of any definition. -/
def Program.resolveTerm (program : Program) (t : Term) : Except ResolveError Expr :=
  t.resolve { program }

end Fern
