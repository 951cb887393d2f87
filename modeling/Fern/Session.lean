import Fern.Diagnostic
import Fern.Eval.Eval
import Fern.Resolve.Trace
import Fern.Syntax.Tree

/-!
# Interactive sessions

A session is the list of the declarations accepted so far and the program that they stand for. A
line that ends with a full stop is read as declarations, which join the session if all of it can be
resolved together; any other line is an expression, evaluated on top of the program. A few lines
are commands. Nothing that goes wrong with a line changes the session.
-/

namespace Fern

/-- What a session goes by. The limit on the nesting of evaluations may be one that the host
refuses, which shows when something is evaluated. -/
structure Settings where
  files : FileSystem
  nesting : Except LimitFault Nat
  debug : Bool := false

/-- The lines of a text, each ended by a line feed. -/
def textOfLines (lines : List String) : String := String.join (lines.map (· ++ "\n"))

/-- The lines of a trace, if tracing is on. -/
def Settings.traced (settings : Settings) (lines : List String) : String :=
  if settings.debug then textOfLines lines else ""

def Settings.context (settings : Settings) (program : Program) : Context :=
  { program, files := settings.files, debug := settings.debug }

def Settings.evaluator (settings : Settings) (program : Program) : Evaluator :=
  (settings.context program).evalWithin settings.nesting

/-- The line that tells how many declarations were read from a file. -/
def parsedLine (decls : List Declaration) (filename : String) : String :=
  "Parsed " ++ toString decls.length ++ " declarations from " ++ filename

structure Session where
  declarations : List Declaration
  program : Program
  deriving Inhabited

/-- Whether a session goes on. -/
inductive Next
  | goOn
  | stop
  /-- An evaluation ended with a fault that is no error of the language. -/
  | crash
  deriving DecidableEq, Repr

/-- The answer to a line: the texts written, how the evaluation ended if it ended with a fault, and
whether the session goes on. -/
structure Reply where
  output : String := ""
  trace : String := ""
  fault : Option Fault := none
  next : Next := .goOn
  deriving Repr, Inhabited

/-- The name under which the lines of a session are read. -/
def sessionFile : String := "<repl>"

/-- What a line asks for. -/
inductive Request
  | blank
  | exit
  | help
  | definitions
  | types
  | declare
  | evaluate
  deriving DecidableEq, Repr

/-- What a line asks for, by its text without the blanks around it. -/
def Request.ofLine (line : String) : Request :=
  let text := Text.strip line.toList
  if text = "exit.".toList then .exit
  else if text.isEmpty then .blank
  else if text = ":help".toList then .help
  else if text = ":env".toList then .definitions
  else if text = ":types".toList then .types
  else if text.getLast? = some '.' then .declare
  else .evaluate

def helpText : String :=
  textOfLines
    [ "REPL Commands:",
      "  :env              - Show session definitions",
      "  :types            - Show declared types",
      "  :help             - Show this help",
      "  exit.             - Exit REPL",
      "",
      "Language features:",
      "  double x = x * 2.                  - Function definition",
      "  type Opt = Some Int | None.        - Sum type",
      "  type Point = \x7b x : Int, y : Int \x7d. - Record type",
      "  double 4                           - Evaluate an expression",
      "  let p = \x7bx = 1, y = 2\x7d in p.y      - Let binding and field access",
      "  match Some 3 with | Some n -> n | None -> 0" ]

def definitionsText (program : Program) : String :=
  let own := program.userDefinitions.map fun (name, definition) =>
    "  " ++ name ++ " : " ++ definition.type.format
  let builtins := Builtin.surfaceNames.mergeSort fun a b => decide (a ≤ b)
  textOfLines ((if own.isEmpty then ["  (no user-defined bindings)"] else own) ++
    ["  built-ins: " ++ ", ".intercalate builtins])

def typesText (program : Program) : String :=
  textOfLines <|
    if program.types.isEmpty then ["  (no types declared)"]
    else program.types.zipIdx.map fun (def_, index) =>
      "  #" ++ toString index ++ " " ++ def_.name ++ " (" ++ def_.form ++ "): " ++
        ", ".intercalate (def_.members.map (·.1))

def greeting (version : String) (debug : Bool) : String :=
  textOfLines ([version ++ " - Interactive Mode", "Type 'exit.' to quit, ':help' for commands"] ++
    (if debug then ["Debug mode enabled"] else []) ++ [""])

/-- The farewell of a session that its input ends. -/
def farewell : Reply := { output := "\nGoodbye!\n", next := .stop }

namespace Session

/-- A session in which nothing has been declared. -/
def initial : Session := ⟨[], Program.empty.withBuiltins⟩

/-- The initial program is the one that no declarations stand for. -/
theorem ofDeclarations_nil :
    Program.ofDeclarations initial.declarations = .ok initial.program := rfl

def errorReport (error : EvalError) : String := "\nRuntime Error:\n  " ++ error.text ++ "\n\n"

/-- Reads declarations and lets them join the session. -/
def declare (settings : Settings) (session : Session) (line : String) : Session × Reply :=
  match Syntax.parseProgram line with
  | .error fault =>
    (session,
      { output := "Parse error: " ++ (Diagnostic.ofFault line fault).inFile sessionFile ++ "\n" })
  | .ok decls =>
    let all := session.declarations ++ decls
    let trace := settings.traced (parsedLine decls sessionFile :: Program.traceOf all)
    match Program.ofDeclarations all with
    | .error error => (session, { output := trace ++ "Semantic error: " ++ error.text ++ "\n" })
    | .ok program =>
      (⟨all, program⟩,
        { output := trace ++
            textOfLines (decls.map fun decl => "Defined " ++ decl.sort ++ ": " ++ decl.name) })

def evaluate (settings : Settings) (program : Program) (line : String) : Reply :=
  match Syntax.parseExpression line with
  | .error fault =>
    { output := "Parse error: " ++ (Diagnostic.ofFault line fault).inFile sessionFile ++ "\n" }
  | .ok term =>
    let trace := settings.traced (term.trace { program })
    match program.resolveTerm term with
    | .error error => { output := trace ++ "Semantic error: " ++ error.text ++ "\n" }
    | .ok expr =>
      match settings.evaluator program [] expr |>.run {} with
      | .ok value console =>
        { output := trace ++ console.output ++ "=> " ++ value.format program.types ++ "\n"
          trace := console.trace }
      | .error (.failed error) console =>
        { output := trace ++ console.output ++ errorReport error
          trace := console.trace
          fault := some (.failed error) }
      | .error fault console =>
        { output := trace ++ console.output
          trace := console.trace
          fault := some fault
          next := .crash }

/-- Answers a line. -/
def step (settings : Settings) (session : Session) (line : String) : Session × Reply :=
  match Request.ofLine line with
  | .exit => (session, { next := .stop })
  | .blank => (session, {})
  | .help => (session, { output := helpText })
  | .definitions => (session, { output := definitionsText session.program })
  | .types => (session, { output := typesText session.program })
  | .declare => declare settings session line
  | .evaluate => (session, evaluate settings session.program line)

/-- What comes from the user: a line, or the wish to break off. -/
inductive Input
  | line (text : String)
  | interrupt
  deriving DecidableEq, Repr

/-- The answers to everything that comes from the user, the farewell included. -/
def transcript (settings : Settings) (session : Session) : List Input → List Reply
  | [] => [farewell]
  | .interrupt :: _ => [farewell]
  | .line text :: rest =>
    let (session, reply) := step settings session text
    reply :: if reply.next = .goOn then transcript settings session rest else []

end Session

end Fern
