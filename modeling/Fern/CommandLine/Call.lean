import Fern.CommandLine.Options
import Fern.CommandLine.Script

/-!
# Calls of the program

From the words of the command line to everything that is written. A script comes before a wish for a
session; without either, the help is shown, unless there are no words at all, which opens a session.
-/

namespace Fern.CommandLine

def Options.settings (options : Options) (files : FileSystem) : Settings :=
  { files, nesting := nestingFor options.recursionLimit, debug := options.debug }

/-- What the program does with a script. -/
def scriptReport (files : FileSystem) (options : Options) (path : String) : Report :=
  let settings := options.settings files
  match files.holds (plainPath path) with
  | .error fault => { crash := some (.cannotOpen fault (plainPath path)) }
  | .ok false => failure ["Error: Script file '" ++ path ++ "' does not exist"]
  | .ok true =>
    if options.parse then showTrees settings path
    else if options.analyze then showTable settings path
    else runScript settings options.entry options.showResult path

/-- What the program is to do. -/
inductive Task
  /-- Write a text and be done. -/
  | tell (text : String)
  /-- Refuse the command line. -/
  | refuse
  /-- Work on a script. -/
  | script (options : Options) (path : String)
  /-- Talk to the user, after an introduction. -/
  | talk (options : Options) (introduction : String)
  deriving DecidableEq, Repr

/-- What the words of a command line ask the program to do. -/
def Task.ofWords (words : List String) : Task :=
  match Invocation.ofWords words with
  | .misuse => .refuse
  | .help => .tell usageText
  | .version => .tell (versionName ++ "\n")
  | .start options =>
    if words.isEmpty then .talk options (languageText ++ introductionText)
    else
      match options.script.filter (!·.isEmpty) with
      | some path => .script options path
      | none =>
        if options.interactive then .talk options ""
        else .tell (usageText ++ "\n" ++ languageText)

def sessionReport (files : FileSystem) (options : Options) (introduction : String)
    (inputs : List Session.Input) : Report :=
  let replies := Session.transcript (options.settings files) .initial inputs
  let fault := replies.getLast?.bind (·.fault)
  { output := introduction ++ greeting versionName options.debug ++
      String.join (replies.map (·.output))
    trace := String.join (replies.map (·.trace))
    crash := fault.bind Crash.ofFault?
    fault }

/-- All that a call of the program comes to, given what the user types in a session. -/
def call (files : FileSystem) (words : List String) (inputs : List Session.Input) : Report :=
  match Task.ofWords words with
  | .tell text => { output := text }
  | .refuse => { exit := 2 }
  | .script options path => scriptReport files options path
  | .talk options introduction => sessionReport files options introduction inputs

end Fern.CommandLine
