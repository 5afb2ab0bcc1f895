import Demanded.Failure
import Demanded.FlowGraph.Basic
import Demanded.Source.Program

/-!
# Loading programs

Loading turns the labels of a stored program into locations and its functions into one flow graph.
The labels `entry` and `exit` stand for the sentinels; any other label gets a fresh location where
it is first mentioned.

A program is refused if it has no functions, if two functions have one name or share a label, if a
function enters and leaves at one label or has an empty one, and if a location that is neither a
sentinel nor the end of a function leads nowhere.  A failure leaves behind how many locations were
handed out and which functions had been loaded.
-/

namespace Demanded

/-- A loaded program. -/
structure Program where
  /-- All functions in one flow graph. -/
  flow : FlowGraph
  /-- The location of each label. -/
  labels : OrdMap String Loc

namespace Program

/-- The location of a label. -/
def locOf? (p : Program) (label : String) : Option Loc := p.labels.get? label

/-- The first label, in the order of labels, of a location. -/
def labelOf? (labels : OrdMap String Loc) (loc : Loc) : Option String :=
  (labels.entries.find? fun e => decide (e.2 = loc)).map Prod.fst

/-- The label of a location, or its own text if it has none. -/
def describe (labels : OrdMap String Loc) (loc : Loc) : String :=
  (labelOf? labels loc).getD loc.text

end Program

/-! ## The state of loading -/

/-- What loading has done so far. -/
structure Loading where
  /-- The supply of fresh locations. -/
  supply : LocSupply
  /-- The location of each label. -/
  labels : OrdMap String Loc
  /-- The function that mentions each label. -/
  owners : OrdMap String String
  /-- The functions loaded so far. -/
  flow : FlowGraph

namespace Loading

/-- Nothing is loaded, and no location is handed out but the sentinels. -/
def start : Loading where
  supply := .start
  labels := .ofList [("entry", .entry), ("exit", .exit)]
  owners := ∅
  flow := .empty

end Loading

/-- Steps of loading, which keep what was done before a failure. -/
abbrev LoadM := ExceptT Failure (StateM Loading)

/-- Makes a function the owner of a label, and gives the label a location if it has none. -/
def claimLabel (owner label : String) : LoadM Unit := do
  let s ← get
  if label = "" then throw (.emptyLabel owner)
  match s.owners.get? label with
  | some other => if other = owner then pure () else throw .sharedLabel
  | none =>
    let s := { s with owners := s.owners.insert label owner }
    match s.labels.get? label with
    | some _ => set s
    | none =>
      let (loc, supply) := s.supply.fresh
      set { s with supply := supply, labels := s.labels.insert label loc }

/-- Makes a function the owner of labels, one after the other. -/
def claimLabels (owner : String) : List String → LoadM Unit
  | [] => pure ()
  | label :: rest => do
    claimLabel owner label
    claimLabels owner rest

/-- The location of a label that was claimed. -/
def locOfLabel (label : String) : LoadM Loc := do
  match (← get).labels.get? label with
  | some loc => pure loc
  | none => throw (.unallocatedLabel label)

/-- Adds the edges of a function. -/
def loadEdges : List SourceEdge → LoadM Unit
  | [] => pure ()
  | e :: rest => do
    let src ← locOfLabel e.src
    let dst ← locOfLabel e.dst
    modify fun s => { s with flow := s.flow.addEdge src dst e.stmt }
    loadEdges rest

/-- Loads a function. -/
def loadFunction (f : SourceFunction) : LoadM Unit := do
  let s ← get
  if s.flow.functions.any fun fn => decide (fn.name = f.name) then
    throw (.duplicatedFunction f.name)
  if f.entry = f.exit then throw (.closedFunction f.name f.entry)
  claimLabels f.name f.labels
  let enters ← locOfLabel f.entry
  let leaves ← locOfLabel f.exit
  loadEdges f.edges
  let fn := Function.ofBody f.name f.formals enters leaves (f.edges.map SourceEdge.stmt)
  modify fun s => { s with flow := s.flow.addFunction fn }

/-- Loads functions, one after the other. -/
def loadFunctions : List SourceFunction → LoadM Unit
  | [] => pure ()
  | f :: rest => do
    loadFunction f
    loadFunctions rest

/-- Whether a location leads nowhere though execution does not leave there. -/
def FlowGraph.isDeadEnd (f : FlowGraph) (loc : Loc) : Bool :=
  !loc.isSentinel && !f.functions.any (fun fn => decide (fn.exit = loc)) &&
    (f.successors loc).isEmpty

/-- Refuses a program in which a location leads nowhere. -/
def checkDeadEnds : LoadM Unit := do
  let s ← get
  match s.flow.locs.find? s.flow.isDeadEnd with
  | some loc => throw (.deadEnd (Program.describe s.labels loc))
  | none => pure ()

/-- Loads a program. -/
def loadProgram (p : SourceProgram) : LoadM Program := do
  if p.functions.isEmpty then throw .noFunctions
  set Loading.start
  loadFunctions p.functions
  checkDeadEnds
  let s ← get
  return ⟨s.flow, s.labels⟩

/-! ## Loading from a text -/

/-- What loading leaves behind. -/
structure Loaded where
  /-- The program, or why there is none. -/
  result : Except Failure Program
  /-- The supply of fresh locations afterwards. -/
  supply : LocSupply
  /-- The functions that were loaded, also before a failure. -/
  functions : List Function

/-- Loads a stored program, with locations from a supply that is restarted once there is a function
to load. -/
def SourceProgram.load (p : SourceProgram) (supply : LocSupply) : Loaded :=
  let (result, s) := (loadProgram p).run { Loading.start with supply := supply }
  ⟨result, s.supply, s.flow.functions⟩

/-- Loads the program that a text stores. -/
def loadText (text : String) (supply : LocSupply) : Loaded :=
  match SourceProgram.decode? text with
  | some p => p.load supply
  | none => ⟨.error (.malformedProgram (Json.objection text)), supply, []⟩

end Demanded
