import Demanded.DemandGraph.Rounds
import Demanded.Source.Load

/-!
# Analysis of a program file

An analysis loads a program, demands the states at some of its labels, or everywhere, and reports
them by label.
-/

namespace Demanded

/-- What an analysis is asked for. -/
structure Request where
  /-- Where the program is stored. -/
  path : String
  /-- The labels of interest; all locations if there are none. -/
  focus : List String
  /-- The number of rounds to stop after. -/
  limit : Option Nat

/-- What an analysis found. -/
structure Report where
  /-- The program. -/
  program : Program
  /-- The states demanded. -/
  graph : DemandGraph
  /-- The states of the targets after each round. -/
  trace : List Snapshot

namespace Report

/-- Whether the last states are stable. -/
def isStable (r : Report) : Bool := r.trace.getLast?.any Snapshot.stable

/-- The last states, by label. -/
def states (r : Report) : OrdMap String State :=
  match r.trace.getLast? with
  | none => ∅
  | some last =>
    .ofList (last.states.entries.map fun e => (Program.describe r.program.labels e.1, e.2))

end Report

namespace Program

/-- The location of a label, or the reason why there is none. -/
def locOf (p : Program) (label : String) : Except Failure Loc :=
  match p.locOf? label with
  | some loc => .ok loc
  | none => .error (.unknownLabel label)

/-- The locations to demand. -/
def targets (p : Program) (focus : List String) : Except Failure (List Loc) :=
  if focus.isEmpty then .ok p.flow.locs else focus.mapM p.locOf

/-- Demands the states that a request is about. -/
def report (p : Program) (patience : Nat) (request : Request) :
    Logged (Except Failure Report) :=
  match p.targets request.focus with
  | .error e => ⟨.error e, []⟩
  | .ok targets =>
    let out := (DemandGraph.ofFlow p.flow).fixpoint patience targets request.limit
    match out.result with
    | .error e => ⟨.error e, out.events.toList⟩
    | .ok trace =>
      let r : Report := ⟨p, out.graph, trace⟩
      ⟨.ok r, out.events.toList ++ if r.isStable then [] else [.stoppedEarly trace.length]⟩

end Program

/-- The events that report loaded functions. -/
def Loaded.events (l : Loaded) : List Event :=
  l.functions.map fun f => .functionLoaded f.name f.locals.size

namespace Request

/-- Analyzes the program that a file holds; `content` may instead tell why it cannot be read. -/
def analyze (request : Request) (patience : Nat) (content : Except String String) :
    Logged (Except Failure Report) :=
  match content with
  | .error cause => ⟨.error (.unreadableProgram request.path cause), []⟩
  | .ok text =>
    let loaded := loadText text .start
    match loaded.result with
    | .error e => ⟨.error e, loaded.events⟩
    | .ok program =>
      let demanded := program.report patience request
      ⟨demanded.result,
        loaded.events ++
          [.fileLoaded request.path program.flow.numLocs,
            DemandGraph.builtEvent (.ofFlow program.flow), .programLoaded] ++ demanded.events⟩

end Request

end Demanded
