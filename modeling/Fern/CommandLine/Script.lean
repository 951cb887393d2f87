import Fern.CommandLine.Usage
import Fern.Expr.Display

/-!
# Scripts

What the program does with a script file: show its trees, show its table, or run it. Whatever goes
wrong is reported on the output and gives exit code 1; a directory in place of the file is not
reported but ends the program.

Script files are read with every kind of line end taken for a line feed.
-/

namespace Fern.CommandLine

/-- How the program ends when nothing of its own stands for the reason. -/
inductive Crash
  | cannotOpen (fault : OpenFault) (path : String)
  | refusedPath
  | refusedLimit (fault : LimitFault)
  | noEntryName
  deriving DecidableEq, Repr

/-- The end that a fault brings about, unless it is reported as an error of the language. -/
def Crash.ofFault? : Fault → Option Crash
  | .failed _ => none
  | .refusedPath => some .refusedPath
  | .refusedLimit fault => some (.refusedLimit fault)

/-- The words of the host for the reason. -/
def Crash.message : Crash → String
  | .cannotOpen fault path => fault.message path
  | .refusedPath => refusedPathMessage
  | .refusedLimit fault => fault.message
  | .noEntryName => "unhashable type: 'list'"

/-- All that a call of the program comes to. -/
structure Report where
  output : String := ""
  trace : String := ""
  exit : Nat := 0
  crash : Option Crash := none
  fault : Option Fault := none
  deriving Repr, Inhabited

/-- A report with text in front. -/
def Report.after (text : String) (report : Report) : Report :=
  { report with output := text ++ report.output }

/-- A failure that is reported on the output. -/
def failure (lines : List String) : Report := { output := textOfLines lines, exit := 1 }

/-- A path as it is passed on to the file system: without empty parts and single dots. Of the
slashes in front one stays, or both if there are two. -/
def plainPath (path : String) : String :=
  let root :=
    match path.toList.takeWhile (· = '/') with
    | ['/', '/'] => ['/', '/']
    | '/' :: _ => ['/']
    | _ => []
  let parts := (path.toList.splitOn '/').filter fun part => !FileSystem.isIdle part
  if root.isEmpty && parts.isEmpty then "."
  else String.ofList (root ++ ['/'].intercalate parts)

/-- Reads a script, or reports why that is impossible. -/
def readScript (files : FileSystem) (path : String) : Except Report String :=
  match files.readText (plainPath path) with
  | .ok text => .ok (String.ofList (Text.plainNewlines text.toList))
  | .error (.cannotOpen .missing) =>
    .error (failure
      [ "Error: Script file '" ++ path ++ "' not found",
        "  Hint: Check the file path and make sure the file exists" ])
  | .error (.cannotOpen .denied) =>
    .error (failure
      [ "Error: Permission denied reading '" ++ path ++ "'",
        "  Hint: Make sure you have read permissions for this file" ])
  | .error (.cannotOpen fault) => .error { crash := some (.cannotOpen fault (plainPath path)) }
  | .error (.notText fault) =>
    .error (failure
      [ "Error: Cannot decode file '" ++ path ++ "': " ++ fault.message,
        "  Hint: Make sure the file is a text file with UTF-8 encoding" ])

/-- Reads the declarations of a script, or reports why that is impossible. -/
def loadDeclarations (files : FileSystem) (path : String) : Except Report (List Declaration) := do
  let source ← readScript files path
  match Syntax.parseProgram source with
  | .ok decls => return decls
  | .error fault =>
    throw (failure ["Parse error in " ++ (Diagnostic.ofFault source fault).inFile path])

/-- Resolves the declarations of a script. What tracing writes comes with the program, or in front
of the report. -/
def loadProgram (settings : Settings) (path : String) : Except Report (String × Program) := do
  let decls ← loadDeclarations settings.files path
  let trace := settings.traced (parsedLine decls path :: Program.traceOf decls)
  match Program.ofDeclarations decls with
  | .ok program => return (trace, program)
  | .error error =>
    throw ((failure
      ["Semantic analysis error in '" ++ path ++ "': " ++ error.text]).after trace)

/-- Joins a report or a refusal to the text in front of both. -/
def reportAfter (text : String) : Except Report Report → Report
  | .ok report => report.after text
  | .error report => report.after text

def declarationText (number : Nat) (decl : Declaration) : String :=
  textOfLines ["", "Declaration " ++ toString number ++ ":", decl.toDatum.outline 0]

def showTrees (settings : Settings) (path : String) : Report :=
  reportAfter ("Parsing " ++ path ++ "...\n") do
    let decls ← loadDeclarations settings.files path
    let trace := settings.traced [parsedLine decls path]
    let heading :=
      textOfLines ["", "Parsed " ++ toString decls.length ++ " declarations:", rule 50]
    let shown := decls.zipIdx.map fun (decl, i) => declarationText (i + 1) decl
    return { output := trace ++ heading ++ String.join shown }

/-- A variant as the program table shows it. A payload of the unit type is not worth showing. -/
def variantText (variant : Variant) : String :=
  if variant.payloadType.name? = some "Unit" then variant.name
  else variant.name ++ " " ++ variant.payloadType.format

def typeDefText (index : Nat) (def_ : TypeDef) : String :=
  let body :=
    match def_.body with
    | .sum variants => " | ".intercalate (variants.map variantText)
    | .record fields =>
      "\x7b " ++ ", ".intercalate (fields.map fun f => f.name ++ " : " ++ f.type.format) ++ " \x7d"
  "  #" ++ toString index ++ " " ++ def_.name ++ " = " ++ body

def showTable (settings : Settings) (path : String) : Report :=
  reportAfter ("Parsing and analyzing " ++ path ++ "...\n") do
    let (trace, program) ← loadProgram settings path
    let types := program.types.zipIdx.map fun (def_, index) => typeDefText index def_
    let own := program.userDefinitions
    let definitions := own.flatMap fun (name, definition) =>
      ["", name ++ ":", definition.expr.format 1]
    return {
      output := trace ++ textOfLines
        (["", "Types (" ++ toString program.types.length ++ "):", rule 50] ++ types ++
          ["", "Definitions (" ++ toString own.length ++ "):", rule 50] ++ definitions) }

def errorBanner (path : String) (error : EvalError) : String :=
  let title := if error.category = .host then "Host Error" else "Runtime Error"
  textOfLines
    (["", rule 70, title ++ " in '" ++ path ++ "'", rule 70, "", "Error: " ++ error.message] ++
      (match error.blamed? with
        | some kind => ["", "While evaluating: " ++ kind]
        | none => []) ++
      ["Category: " ++ error.category.name, "", rule 70, ""])

/-- Runs a script, from the entry function of a name. Without a name the program ends where the name
is looked up. -/
def runScript (settings : Settings) (entry : Option String) (showResult : Bool) (path : String) :
    Report :=
  reportAfter "" do
    let (trace, program) ← loadProgram settings path
    let before := trace ++ settings.traced
      [ "Resolved " ++ toString program.definitions.length ++ " definitions and " ++
          toString program.types.length ++ " types" ]
    let some name := entry | return { output := before, crash := some .noEntryName }
    match (settings.context program).runWith (settings.evaluator program) name |>.run {} with
    | .ok value console =>
      let shown := if showResult then "\n=> " ++ value.format program.types ++ "\n" else ""
      return { output := before ++ console.output ++ shown, trace := console.trace }
    | .error (.failed error) console =>
      return {
        output := before ++ console.output ++ errorBanner path error
        trace := console.trace
        exit := 1
        fault := some (.failed error) }
    | .error fault console =>
      return {
        output := before ++ console.output
        trace := console.trace
        crash := Crash.ofFault? fault
        fault := some fault }

end Fern.CommandLine
