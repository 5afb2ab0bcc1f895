import Demanded.Bounds.Verdict
import Demanded.DemandGraph.Name

/-!
# Events

What the library reports while it works.  An event has a level and a message.  Operations return
their events in the order in which they happen, and whoever runs them decides what to show.

The events of a demand are nested: those of a demand on which another one depends are indented by
two more blanks.
-/

namespace Demanded

/-- How much an event matters. -/
inductive Level where
  | warn
  | info
  | debug
  | trace
deriving DecidableEq

namespace Level

/-- The place of a level, the most severe one first. -/
def rank : Level → Nat
  | warn => 0
  | info => 1
  | debug => 2
  | trace => 3

/-- The name of a level. -/
def name : Level → String
  | warn => "warn"
  | info => "info"
  | debug => "debug"
  | trace => "trace"

/-- The mark of a level at the beginning of a printed line. -/
def mark : Level → String
  | warn => "[WARN] "
  | info => "[INFO] "
  | debug => "[DEBUG] "
  | trace => "[TRACE] "

end Level

/-- Something that is reported. -/
inductive Event where
  /-- A divisor may be zero. -/
  | zeroDivisor (warning : Interval.ZeroDivisor)
  /-- A state was stored in a file. -/
  | stateSaved (path : String)
  /-- A function was loaded. -/
  | functionLoaded (name : String) (locals : Nat)
  /-- A program was read from a file. -/
  | fileLoaded (path : String) (locs : Nat)
  /-- An analysis has its program. -/
  | programLoaded
  /-- The nodes of a demanded graph were made. -/
  | graphBuilt (nodes heads : Nat)
  /-- A demand starts. -/
  | demandStarts (depth : Nat) (loc : Loc)
  /-- A demand met a loop head that is being computed, and took its iterate. -/
  | iterateUsed (depth : Nat)
  /-- A demand was answered by a state computed before. -/
  | cellUsed (depth : Nat)
  /-- A demand computed a state. -/
  | stateComputed (depth : Nat) (state : State) (pending : List Loc)
  /-- A demand ends. -/
  | demandEnds (depth : Nat) (loc : Loc)
  /-- A node became stable. -/
  | settled (name : NodeName) (rounds : Nat)
  /-- States were dropped. -/
  | dirtied (count : Nat) (loc : Loc)
  /-- No more rounds are allowed. -/
  | limitReached (rounds : Nat)
  /-- A round of demands is done. -/
  | roundDone (round targets : Nat) (stable : Bool)
  /-- All rounds are done. -/
  | roundsDone (rounds : Nat)
  /-- An analysis ended before its targets were stable. -/
  | stoppedEarly (rounds : Nat)
  /-- An access was judged. -/
  | accessChecked (idx : Expr) (name : NodeName) (verdict : Verdict)
  /-- How many rounds an analysis took. -/
  | roundCount (rounds : Nat)
  /-- The reported states are not stable. -/
  | notStable
  /-- Drawings were written to two files. -/
  | drawingsWritten (flowPath demandPath : String)
  /-- Drawings could not be written. -/
  | drawingsNotWritten (cause : String)
  /-- The accesses of a demo program were checked. -/
  | demoChecked (name : String) (accesses computed widens : Nat)

namespace Event

/-- The level of an event. -/
def level : Event → Level
  | zeroDivisor _ | stoppedEarly _ | notStable | drawingsNotWritten _ => .warn
  | roundCount _ | drawingsWritten .. | demoChecked .. => .info
  | demandStarts .. | iterateUsed _ | cellUsed _ | stateComputed .. | demandEnds .. => .trace
  | _ => .debug

/-- The indentation of a nested demand. -/
def indent (depth : Nat) : String := String.ofList (List.replicate (2 * depth) ' ')

/-- The text of a set of locations in events. -/
def locSet (locs : List Loc) : String :=
  "\x7b" ++ String.intercalate ", " (locs.map Loc.debugText) ++ "\x7d"

/-- The text of a truth value. -/
def boolText (b : Bool) : String := if b then "true" else "false"

/-- The message of an event. -/
def message : Event → String
  | zeroDivisor warning => warning.text
  | stateSaved path => "abstract state saved to " ++ path
  | functionLoaded name locals =>
    "function " ++ name ++ " converted with " ++ toString locals ++ " local(s)"
  | fileLoaded path locs =>
    "program loaded from " ++ path ++ ": " ++ toString locs ++ " location(s)"
  | programLoaded => "[0] program loaded"
  | graphBuilt nodes heads =>
    "demanded graph built: " ++ toString nodes ++ " nodes, " ++ toString heads ++ " loop heads"
  | demandStarts depth loc => indent depth ++ "-> demand " ++ loc.text
  | iterateUsed depth => indent depth ++ " iterate"
  | cellUsed depth => indent depth ++ " hit"
  | stateComputed depth state pending =>
    indent depth ++ " " ++ state.text ++ " (pending " ++ locSet pending ++ ")"
  | demandEnds depth loc => indent depth ++ "<- demand " ++ loc.text
  | settled name rounds => name.text ++ " stable after " ++ toString rounds ++ " round(s)"
  | dirtied count loc => "dirtied " ++ toString count ++ " state(s) from " ++ loc.text
  | limitReached rounds => "[" ++ toString rounds ++ "] round limit reached"
  | roundDone round targets stable =>
    "[" ++ toString round ++ "] " ++ toString targets ++ " target(s) demanded, stable: " ++
      boolText stable
  | roundsDone rounds => "[" ++ toString rounds ++ "] fixedpoint demand done"
  | stoppedEarly rounds =>
    "demand stopped after " ++ toString rounds ++ " round(s) before stabilizing"
  | accessChecked idx name verdict => idx.text ++ " in " ++ name.text ++ ": " ++ verdict.text
  | roundCount rounds => "Number of demand rounds: " ++ toString rounds
  | notStable => "states are not stable yet, consider a larger depth"
  | drawingsWritten flowPath demandPath =>
    "Graphs written to " ++ flowPath ++ " and " ++ demandPath
  | drawingsNotWritten cause => "unable to write dot files: " ++ cause
  | demoChecked name accesses computed widens =>
    "[" ++ name ++ "] " ++ toString accesses ++ " access(es) checked, " ++ toString computed ++
      " state(s) computed, " ++ toString widens ++ " widening(s)"

end Event

/-- A result and what happened on the way. -/
structure Logged (α : Type) where
  result : α
  events : List Event

end Demanded
