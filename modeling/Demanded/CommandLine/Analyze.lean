import Demanded.Analysis
import Demanded.CommandLine.Arguments
import Demanded.CommandLine.Execution

/-!
# The command that analyzes a program

It loads a program, demands its states and prints them by label, or draws its graphs.
-/

namespace Demanded

/-- What is done with the states. -/
inductive Presentation where
  /-- They are printed. -/
  | states
  /-- The graphs are drawn. -/
  | drawings
deriving DecidableEq

namespace Presentation

/-- Reads a presentation. -/
def ofName? : String → Option Presentation
  | "states" => some states
  | "dot" => some drawings
  | _ => none

end Presentation

/-- An analysis asked for on the command line. -/
structure AnalyzeCommand where
  /-- The directory for drawings, if it is given. -/
  output : Option String
  /-- How much is reported. -/
  verbosity : Nat
  /-- What is done with the states, in order. -/
  presentations : List Presentation
  /-- What is analyzed. -/
  request : Request

namespace AnalyzeCommand

/-- The options and operands of the command. -/
def grammar : Grammar where
  title := "dai-engine 0.1.0"
  options :=
    [⟨"output", some 'o', .one, false⟩, ⟨"verbose", some 'v', .counter, false⟩,
      ⟨"actions", some 'a', .many, true⟩, ⟨"at", none, .many, false⟩,
      ⟨"depth", some 'd', .one, false⟩]
  operands := 1
  commands := []

/-- The command that options and operands ask for, if they are complete. -/
def ofTaken? (t : Taken) : Option AnalyzeCommand := do
  let names := t.valuesOf "actions"
  let presentations ← (if names.isEmpty then ["states"] else names).mapM Presentation.ofName?
  let limits ← (t.valuesOf "depth").mapM readCount?
  let path ← t.operands.head?
  return {
    output := (t.valuesOf "output").head?
    verbosity := t.count "verbose"
    presentations := presentations
    request := ⟨path, t.valuesOf "at", limits.head?⟩ }

/-- Reads a command line. -/
def parse (args : List String) : Except Halt AnalyzeCommand :=
  match grammar.scan args with
  | .error h => .error h
  | .ok t =>
    match ofTaken? t with
    | some c => .ok c
    | none => .error .refused

/-- Presents the states of a report.  Drawings go to `studio` unless another directory is given. -/
def present (c : AnalyzeCommand) (studio : String) (r : Report) : Presentation → List Action
  | .states => r.states.entries.map fun e => .print (e.1 ++ ": " ++ e.2.text)
  | .drawings =>
    [.draw (c.output.getD (pathIn studio "dai")) r.graph.flow.dot r.graph.dot]

/-- Carries out the command.  `content` is what the program file holds, or why it cannot be read. -/
def execute (c : AnalyzeCommand) (patience : Nat) (studio : String)
    (content : Except String String) : Execution :=
  let analyzed := c.request.analyze patience content
  let reported := analyzed.events.map Action.report
  match analyzed.result with
  | .error e => ⟨reported, some e.message⟩
  | .ok r =>
    if r.trace.isEmpty then ⟨reported, some "demand leaves no states in trace"⟩
    else
      let summary := .roundCount r.trace.length :: if r.isStable then [] else [.notStable]
      ⟨reported ++ summary.map Action.report ++ c.presentations.flatMap (c.present studio r), none⟩

end AnalyzeCommand

end Demanded
