import Fern.CommandLine.Call

/-!
# The program

The one module that touches the world: it reads files and lines, writes what the library hands out
and ends with its exit code. A program may read any file, and which ones shows only when it runs. So
it runs on the files looked at so far; when it asks for one that nobody has looked at, that one is
fetched and the same run starts again. A run writes nothing before it has ended, which makes the
repetition invisible.
-/

namespace Fern.CommandLine

/-- The files looked at so far. -/
abbrev Visits := List (String × Except OpenFault (List UInt8))

/-- The reason behind an error of the operating system. -/
def openFault : IO.Error → OpenFault
  | .inappropriateType _ code _ => if code = 21 then .isDirectory else .notDirectory
  | .invalidArgument .. => .nameTooLong
  | .permissionDenied .. => .denied
  | _ => .missing

def visit (visits : Visits) (path : String) : IO Visits := do
  try
    let bytes ← IO.FS.readBinFile path
    return (path, .ok bytes.toList) :: visits
  catch error => return (path, .error (openFault error)) :: visits

/-- Repeats a run until it asks for no further file. -/
partial def complete {α : Type} (run : FileSystem → α) (fault : α → Option Fault)
    (visits : Visits) : IO (α × Visits) := do
  let result := run (.ofVisits visits)
  match (fault result).bind Fault.unvisited? with
  | none => return (result, visits)
  | some path => complete run fault (← visit visits path)

/-- Writes texts for the user and for whoever follows the trace. -/
def write (output trace : String) : IO Unit := do
  IO.print output
  (← IO.getStdout).flush
  IO.eprint trace

/-- Works on a script. -/
def workOn (options : Options) (path : String) : IO UInt32 := do
  let (report, _) ←
    complete (scriptReport · options path) (·.fault) (← visit [] (plainPath path))
  write report.output report.trace
  match report.crash with
  | none => return report.exit.toUInt32
  | some crash =>
    IO.eprintln crash.message
    return 1

/-- Answers lines until the session or its input ends. -/
partial def converse (options : Options) (session : Session) (visits : Visits) : IO UInt32 := do
  write "fern> " ""
  let line ← (← IO.getStdin).getLine
  if line.isEmpty then
    write farewell.output ""
    return 0
  let text := if line.endsWith "\n" then (line.dropEnd 1).toString else line
  let ((session, reply), visits) ←
    complete (fun files => Session.step (options.settings files) session text) (·.2.fault) visits
  write reply.output reply.trace
  match reply.next with
  | .goOn => converse options session visits
  | .stop => return 0
  | .crash =>
    if let some crash := reply.fault.bind Crash.ofFault? then IO.eprintln crash.message
    return 1

/-- Does what the words of the command line ask for. -/
def perform : Task → IO UInt32
  | .tell text => do
    write text ""
    return 0
  | .refuse => do
    write "" usageText
    return 2
  | .script options path => workOn options path
  | .talk options introduction => do
    write (introduction ++ greeting versionName options.debug) ""
    converse options .initial []

end Fern.CommandLine

/-- The entry of the program. -/
def main (words : List String) : IO UInt32 := Fern.CommandLine.perform (.ofWords words)
