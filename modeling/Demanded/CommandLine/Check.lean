import Demanded.Bounds.Check
import Demanded.Bounds.Demo
import Demanded.CommandLine.Arguments
import Demanded.CommandLine.Execution

/-!
# The command that checks a demo program

It checks the array accesses of a demo program, prints the findings and fails if an access is out of
bounds.
-/

namespace Demanded

/-- A check asked for on the command line. -/
structure CheckCommand where
  /-- How much is reported. -/
  verbosity : Nat
  /-- Whether the findings are printed in their stored form. -/
  json : Bool
  /-- The program to check. -/
  demo : Demo

namespace CheckCommand

/-- The options of the command, and the demo programs as command words. -/
def grammar : Grammar where
  title := "dai-example 0.1.0"
  options := [⟨"verbose", some 'v', .counter, false⟩, ⟨"json", none, .flag, false⟩]
  operands := 0
  commands := "help" :: Demo.all.map Demo.name

/-- What may follow the name of a demo program: nothing but a separator. -/
def afterDemo (name : String) : Grammar where
  title := "dai-example-" ++ name ++ " 0.1.0"
  options := []
  operands := 0
  commands := []

/-- Reads a command line. -/
def parse (args : List String) : Except Halt CheckCommand :=
  match grammar.scan args with
  | .error h => .error h
  | .ok t =>
    match t.command with
    | none => .error .refused
    | some ("help", []) => .error .helpWanted
    | some ("help", [topic]) =>
      .error (if grammar.commands.contains topic then .helpWanted else .refused)
    | some ("help", _) => .error .refused
    | some (name, rest) =>
      match (afterDemo name).scan rest, Demo.ofName? name with
      | .error h, _ => .error h
      | .ok _, none => .error .refused
      | .ok _, some demo => .ok ⟨t.count "verbose", t.count "json" != 0, demo⟩

/-- Prints findings. -/
def present (c : CheckCommand) (findings : List Finding) : List Action :=
  if c.json then [.print (Finding.encodeAll findings)]
  else findings.map fun f => .print f.text

/-- Carries out the command. -/
def execute (c : CheckCommand) (patience : Nat) : Execution :=
  let g := DemandGraph.ofFlow c.demo.flow
  let out := g.checkBounds patience
  let reported := (DemandGraph.builtEvent g.skeleton :: out.events.toList).map Action.report
  match out.result with
  | .error e => ⟨reported, some e.message⟩
  | .ok findings =>
    let stats := out.graph.stats
    let checked := Event.demoChecked c.demo.name findings.length stats.computed stats.widens
    ⟨reported ++ .report checked :: c.present findings,
      if findings.any fun f => f.verdict == .outOfBounds then
        some (c.demo.name ++ " has out-of-bounds accesses")
      else none⟩

end CheckCommand

end Demanded
