import Fern.Eval.Error

/-!
# Runs

A run writes text for the user and, on request, a trace of its steps, and it ends with a result or
with a fault. Both texts only ever grow at their ends, and what was written before a fault stays
written.
-/

namespace Fern

/-- What has been written so far. -/
structure Console where
  output : String := ""
  trace : String := ""
  deriving DecidableEq, Repr, Inhabited

/-- A computation that writes and may end with a fault. -/
abbrev Run := EStateM Fault Console

namespace Run

/-- Ends with an error of the language. -/
def fail {α : Type} (error : EvalError) : Run α := throw (.failed error)

/-- Writes text for the user. -/
def write (text : String) : Run Unit :=
  modify fun console => { console with output := console.output ++ text }

/-- Adds a line to the trace. -/
def note (line : String) : Run Unit :=
  modify fun console => { console with trace := console.trace ++ line ++ "\n" }

end Run

/-- What an evaluation reads and never changes. -/
structure Context where
  program : Program
  files : FileSystem
  debug : Bool := false

/-- Adds a line to the trace if tracing is on. -/
def Context.note (context : Context) (line : String) : Run Unit :=
  if context.debug then Run.note line else pure ()

end Fern
