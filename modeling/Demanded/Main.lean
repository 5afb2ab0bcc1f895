import Demanded.CommandLine.Analyze
import Demanded.CommandLine.Check

/-!
# The command line

`analyze` demands the states of a program file, `check` checks a demo program.  This module reads
the program file, prints and writes what the command asks for, and turns a failure into an exit
code.
-/

namespace Demanded

/-- How to use the program. -/
def usage : String :=
  "usage: analyze [-v]... [-o DIR] [-a states|dot]... [--at LABEL]... [-d ROUNDS] FILE\n" ++
  "       check [-v]... [--json] " ++ String.intercalate "|" (Demo.all.map Demo.name)

/-- The content of a file, or why it cannot be read. -/
def readContent (path : String) : IO (Except String String) := do
  try
    return .ok (← IO.FS.readFile path)
  catch e =>
    return .error (toString e)

/-- Writes drawings, and tells whether that could be done, or why not. -/
def writeDrawings (directory flow demand : String) : IO (Except String Unit) := do
  try
    unless directory.isEmpty do
      IO.FS.createDirAll directory
    IO.FS.writeFile (flowDrawing directory) flow
    IO.FS.writeFile (demandDrawing directory) demand
    return .ok ()
  catch e =>
    return .error (toString e)

/-- Shows an event. -/
def showEvent (verbosity : Nat) (e : Event) : IO Unit :=
  match e.line? verbosity with
  | some line => IO.println line
  | none => pure ()

/-- Does what a command asks for, and gives the exit code. -/
def perform (verbosity : Nat) (e : Execution) : IO UInt32 := do
  for action in e.actions do
    match action with
    | .print line => IO.println line
    | .report event => showEvent verbosity event
    | .draw directory flow demand =>
      showEvent verbosity (drawingEvent directory (← writeDrawings directory flow demand))
  match e.failure with
  | none => return 0
  | some message =>
    IO.eprintln ("Error: " ++ message)
    return 1

/-- Tells how to use the program, or which one it is. -/
def halt : Halt → IO UInt32
  | .helpWanted => do
    IO.println usage
    return 0
  | .versionWanted title => do
    IO.println title
    return 0
  | .refused => do
    IO.eprintln usage
    return 1

/-- The directory under which drawings are kept. -/
def studio : IO String := do
  match ← IO.getEnv "DAI_STUDIO" with
  | some path => return if path.isEmpty then "studio" else path
  | none => return "studio"

end Demanded

open Demanded in
/-- Runs a command. -/
def main (args : List String) : IO UInt32 := do
  match args with
  | "analyze" :: rest =>
    match AnalyzeCommand.parse rest with
    | .error h => halt h
    | .ok c =>
      let content ← readContent c.request.path
      perform c.verbosity (c.execute DemandGraph.ample (← studio) content)
  | "check" :: rest =>
    match CheckCommand.parse rest with
    | .error h => halt h
    | .ok c => perform c.verbosity (c.execute DemandGraph.ample)
  | _ => halt .refused
