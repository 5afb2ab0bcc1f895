import Demanded.DemandGraph.Name

/-!
# What can go wrong

Every failure of the library is one of the causes below.  `Failure.kind` groups them, and
`Failure.message` has their wording.
-/

namespace Demanded

/-- The cause of a failure. -/
inductive Failure where
  /-- The program file cannot be read. -/
  | unreadableProgram (path cause : String)
  /-- The program text does not decode. -/
  | malformedProgram (cause : String)
  /-- A program has no functions. -/
  | noFunctions
  /-- Two functions have one name. -/
  | duplicatedFunction (name : String)
  /-- A function enters and leaves at one location. -/
  | closedFunction (name label : String)
  /-- A function uses the empty text as a label. -/
  | emptyLabel (name : String)
  /-- A location that is no exit leads nowhere. -/
  | deadEnd (label : String)
  /-- A label that the program does not have. -/
  | unknownLabel (label : String)
  /-- Two functions share a label. -/
  | sharedLabel
  /-- A stored state does not decode. -/
  | malformedState (cause : String)
  /-- The file of a stored state cannot be read. -/
  | unreadableState (path cause : String)
  /-- The file of a stored state cannot be written. -/
  | unwritableState (path cause : String)
  /-- A label of a program has no location. -/
  | unallocatedLabel (label : String)
  /-- A statement is to be inserted at a location that the graph does not have. -/
  | unknownLocation (loc : Loc)
  /-- A node that the demanded graph does not have. -/
  | noSuchNode (name : NodeName)
  /-- A statement node without a statement. -/
  | danglingStmt (name : NodeName)
  /-- A statement was found where there should be the state at a location. -/
  | notState (loc : Loc)
  /-- A state was found where there should be a statement. -/
  | notStmt (name : NodeName)
  /-- Demands of a node did not come to rest within the rounds allowed. -/
  | unsettled (name : NodeName)
deriving DecidableEq

/-- The groups of causes. -/
inductive FailureKind where
  /-- A program cannot be loaded. -/
  | loading
  /-- A program is not well formed. -/
  | program
  /-- A stored state cannot be used. -/
  | state
  /-- A program is of a kind that is not supported. -/
  | unsupported
  /-- A request does not fit the graph. -/
  | invariant
  /-- Work was abandoned before it came to rest. -/
  | abandoned
deriving DecidableEq

namespace FailureKind

/-- The mark at the beginning of a message. -/
def mark : FailureKind → String
  | loading => "[dai::loading] "
  | program => "[dai::program] "
  | state => "[dai::state] "
  | unsupported => "[dai::unsupported] "
  | invariant => "[dai::invariant] "
  | abandoned => "[dai::abandoned] "

end FailureKind

namespace Failure

/-- The group of a cause. -/
def kind : Failure → FailureKind
  | unreadableProgram .. | malformedProgram _ => .loading
  | noFunctions | duplicatedFunction _ | closedFunction .. | emptyLabel _ | deadEnd _
  | unknownLabel _ => .program
  | sharedLabel => .unsupported
  | malformedState _ | unreadableState .. | unwritableState .. => .state
  | unallocatedLabel _ | unknownLocation _ | noSuchNode _ | danglingStmt _ | notState _
  | notStmt _ => .invariant
  | unsettled _ => .abandoned

/-- What cannot be done, and why. -/
def because (what cause : String) : String := what ++ ": " ++ cause

/-- What the cause is, without the mark of its group. -/
def description : Failure → String
  | unreadableProgram path cause => because ("unable to read " ++ path) cause
  | malformedProgram cause => because "Error during deserialization" cause
  | noFunctions => "program without functions"
  | duplicatedFunction name => "duplicated function " ++ name
  | closedFunction name label => "function " ++ name ++ " enters and exits at " ++ label
  | emptyLabel name => "empty location label in function " ++ name
  | deadEnd label => "location " ++ label ++ " has no successor"
  | unknownLabel label => "no location labelled " ++ label
  | sharedLabel => "control flow between functions"
  | malformedState cause => because "malformed abstract state" cause
  | unreadableState path cause => because ("unable to read " ++ path) cause
  | unwritableState path cause => because ("unable to write " ++ path) cause
  | unallocatedLabel label => "label " ++ label ++ " is not allocated"
  | unknownLocation loc => "cannot insert a statement at unknown location " ++ loc.text
  | noSuchNode name => "no such node " ++ name.text
  | danglingStmt name => "dangling statement node " ++ name.text
  | notState loc => loc.text ++ " is not a state"
  | notStmt name => name.text ++ " is not a statement"
  | unsettled name => name.text ++ " does not come to rest"

/-- The message for a failure. -/
def message (f : Failure) : String := f.kind.mark ++ f.description

end Failure

end Demanded
