import Demanded.Lang.Stmt
import Demanded.Loc
import Demanded.Multigraph.Drawing
import Demanded.Multigraph.Search

/-!
# Flow graphs

A flow graph has locations as nodes and statements on its edges.  It also knows the functions whose
bodies lie in it.
-/

namespace Demanded

/-- A function whose body lies in a flow graph. -/
structure Function where
  /-- The name of the function. -/
  name : String
  /-- The parameters, in order. -/
  formals : List String
  /-- The variables that the body defines, parameters apart. -/
  locals : OrdSet String
  /-- Where the body starts. -/
  entry : Loc
  /-- Where the body ends. -/
  exit : Loc
deriving DecidableEq

/-- The function with the given body. -/
def Function.ofBody (name : String) (formals : List String) (enters leaves : Loc)
    (body : List Stmt) : Function where
  name := name
  formals := formals
  locals := OrdSet.ofList ((body.filterMap Stmt.defined?).filter fun x => !formals.contains x)
  entry := enters
  exit := leaves

/-- Locations as nodes, statements on edges, and the functions among them. -/
structure FlowGraph where
  /-- The locations and the statements between them. -/
  graph : Multigraph Loc Stmt
  /-- The functions whose bodies lie in the graph. -/
  functions : List Function

namespace FlowGraph

/-- The flow graph without locations. -/
def empty : FlowGraph := ⟨.empty, []⟩

/-- Adds a location, unless it is there. -/
def addLoc (f : FlowGraph) (loc : Loc) : FlowGraph := { f with graph := f.graph.addNode loc }

/-- Adds a statement between two locations. -/
def addEdge (f : FlowGraph) (src dst : Loc) (stmt : Stmt) : FlowGraph :=
  { f with graph := f.graph.addEdge src dst stmt }

/-- Adds a function, and its ends if they are missing. -/
def addFunction (f : FlowGraph) (fn : Function) : FlowGraph where
  graph := (f.graph.addNode fn.entry).addNode fn.exit
  functions := f.functions ++ [fn]

/-- The flow graph that goes from entry to exit and does nothing. -/
def trivial : FlowGraph := empty.addEdge .entry .exit .skip

/-- The flow graph that does nothing, with a supply from which nothing was handed out. -/
def startOver : FlowGraph × LocSupply := (trivial, .start)

/-- The locations, in order. -/
def locs (f : FlowGraph) : List Loc := f.graph.sortedNodes

/-- The statements with their ends, in the order in which they were added. -/
def edges (f : FlowGraph) : List (Edge Loc Stmt) := f.graph.edges

/-- The statements, in the order in which they were added. -/
def stmts (f : FlowGraph) : List Stmt := f.edges.map Edge.label

/-- Whether a location is there. -/
def contains (f : FlowGraph) (loc : Loc) : Bool := f.graph.contains loc

/-- The number of locations. -/
def numLocs (f : FlowGraph) : Nat := f.graph.nodes.length

/-- The number of statements. -/
def numEdges (f : FlowGraph) : Nat := f.graph.edges.length

/-- The locations to which statements lead from `loc`, one for each statement. -/
def successors (f : FlowGraph) (loc : Loc) : List Loc := f.graph.successors loc

/-- The locations from which statements lead to `loc`, one for each statement. -/
def predecessors (f : FlowGraph) (loc : Loc) : List Loc := f.graph.predecessors loc

/-- Whether execution leaves at a location: the sentinel, or the end of a function. -/
def isExit (f : FlowGraph) (loc : Loc) : Bool :=
  decide (loc = .exit) || f.functions.any fun fn => decide (fn.exit = loc)

/-- The part that can be reached from a location.  A function is kept if its entry is. -/
def reachableFrom (f : FlowGraph) (loc : Loc) : FlowGraph :=
  let kept := f.graph.reachable loc
  { graph := f.graph.restrict kept.contains
    functions := f.functions.filter fun fn => kept.contains fn.entry }

/-- The drawing of a flow graph. -/
def dot (f : FlowGraph) : String := f.graph.dot Loc.text Stmt.text

end FlowGraph

end Demanded
