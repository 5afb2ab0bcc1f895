import Demanded.DemandGraph.Name
import Demanded.FlowGraph.Loops
import Demanded.Lang.Order

/-!
# Skeletons of demanded graphs

The skeleton of a flow graph has a node for the state at each location and a node for each
statement.  A statement depends on the state at its source, and the state at its end depends on the
statement.  Statements between the same two locations are ranked by their order, so that their names
do not depend on the order in which they were added.
-/

namespace Demanded

/-- How an edge of a demanded graph connects a state and a statement. -/
inductive Dependency where
  /-- From a state to a statement that starts from it. -/
  | pre
  /-- From a statement to the state that it leads to. -/
  | post
deriving DecidableEq

namespace Dependency

/-- The text of a dependency. -/
def text : Dependency → String
  | pre => "pre"
  | post => "post"

end Dependency

/-- The nodes of a demanded graph and what is known about their loops. -/
structure Skeleton where
  /-- States, statements and the dependencies between them. -/
  graph : Multigraph NodeName Dependency
  /-- The statement of each statement node. -/
  stmts : OrdMap NodeName Stmt
  /-- The back edges of the flow graph. -/
  back : List (Loc × Loc)
  /-- The loop heads of the flow graph. -/
  heads : OrdSet Loc

namespace FlowGraph

/-- The pairs of locations between which there are statements, in order. -/
def connected (f : FlowGraph) : List (Loc × Loc) :=
  (OrdSet.ofList (f.edges.map fun e => NodeName.stmt e.src e.dst 0)).toList.filterMap fun
    | .stmt src dst _ => some (src, dst)
    | .state _ => none

/-- The statements between two locations, in their order. -/
def parallel (f : FlowGraph) (src dst : Loc) : List Stmt :=
  sortBy Stmt.compare
    ((f.edges.filter fun e => decide (e.src = src ∧ e.dst = dst)).map Edge.label)

/-- The statements with their names, in the order of names. -/
def namedStmts (f : FlowGraph) : List (NodeName × Stmt) :=
  f.connected.flatMap fun pair =>
    (f.parallel pair.1 pair.2).mapIdx fun rank stmt => (.stmt pair.1 pair.2 rank, stmt)

end FlowGraph

namespace Skeleton

/-- Adds a statement node and its dependencies. -/
def addStmt (g : Multigraph NodeName Dependency) (name : NodeName) :
    Multigraph NodeName Dependency :=
  match name with
  | .state _ => g
  | .stmt src dst rank =>
    (g.addEdge (.state src) (.stmt src dst rank) .pre).addEdge (.stmt src dst rank) (.state dst)
      .post

/-- The skeleton of a flow graph. -/
def ofFlow (f : FlowGraph) : Skeleton :=
  let named := f.namedStmts
  let states := f.locs.foldl (fun g loc => g.addNode (.state loc)) .empty
  { graph := (named.map Prod.fst).foldl addStmt states
    stmts := .ofList named
    back := f.backEdges
    heads := f.loopHeads }

/-- Whether an edge between two locations is a back edge. -/
def isBack (sk : Skeleton) (src dst : Loc) : Bool := sk.back.contains (src, dst)

/-- The statement nodes that lead to a location from the sources that `keep` accepts. -/
def inputNodes (sk : Skeleton) (loc : Loc) (keep : Loc → Bool) : List NodeName :=
  (sk.graph.predecessors (.state loc)).filter fun
    | .state _ => false
    | .stmt src _ _ => keep src

/-- The statement nodes that do not lead to a location along a back edge. -/
def forwardNodes (sk : Skeleton) (loc : Loc) : List NodeName :=
  sk.inputNodes loc fun src => !sk.isBack src loc

/-- The statement nodes that lead to a location along a back edge. -/
def backNodes (sk : Skeleton) (loc : Loc) : List NodeName :=
  sk.inputNodes loc fun src => sk.isBack src loc

/-- Whether execution starts at a location: nothing arrives there but along back edges. -/
def isRoot (sk : Skeleton) (loc : Loc) : Bool := (sk.forwardNodes loc).isEmpty

end Skeleton

end Demanded
