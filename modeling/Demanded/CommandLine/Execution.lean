import Demanded.Event

/-!
# Executions of commands

A command is carried out in two layers.  A pure function gives its `Execution`: what to print, what
to report and which drawings to write, in order, and at the end a failure or none.  Whoever runs it
prints, writes files and tells how that went.
-/

namespace Demanded

/-- Something that a command does. -/
inductive Action where
  /-- Prints a line. -/
  | print (line : String)
  /-- Reports an event. -/
  | report (event : Event)
  /-- Writes the drawings of a flow graph and of its demanded graph into a directory. -/
  | draw (directory flow demand : String)

/-- What a command does, and the message of its failure if it fails. -/
structure Execution where
  actions : List Action
  failure : Option String

namespace Level

/-- Whether events of a level are shown.  The verbosity is the number of times that more was asked
for. -/
def shownAt (verbosity : Nat) (l : Level) : Bool := decide (l.rank ≤ info.rank + verbosity)

end Level

namespace Event

/-- The line that shows an event, if it is shown. -/
def line? (verbosity : Nat) (e : Event) : Option String :=
  if e.level.shownAt verbosity then some (e.level.mark ++ e.message) else none

end Event

/-- The path of a file in a directory. -/
def pathIn (directory name : String) : String :=
  if directory.isEmpty || directory.endsWith "/" then directory ++ name
  else directory ++ "/" ++ name

/-- Where the drawing of a flow graph is written. -/
def flowDrawing (directory : String) : String := pathIn directory "cfg.dot"

/-- Where the drawing of a demanded graph is written. -/
def demandDrawing (directory : String) : String := pathIn directory "daig.dot"

/-- The event that tells whether drawings could be written, and why not. -/
def drawingEvent (directory : String) (written : Except String Unit) : Event :=
  match written with
  | .ok () => .drawingsWritten (flowDrawing directory) (demandDrawing directory)
  | .error cause => .drawingsNotWritten cause

end Demanded
