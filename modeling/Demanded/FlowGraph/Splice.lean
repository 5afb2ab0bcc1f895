import Demanded.Failure
import Demanded.FlowGraph.Loops

/-!
# Insertion of statements

`FlowGraph.addStmtAt` puts a statement on a new edge at a location.  Before an exit or the head of a
loop the edges that arrive there, back edges apart, move to a fresh location, and the statement
leads from it to the old one.  Elsewhere the edges that leave move to a fresh location, and the
statement leads there.
-/

namespace Demanded.FlowGraph

/-- Whether a statement inserted at a location goes before it. -/
def splicesBefore (f : FlowGraph) (loc : Loc) : Bool :=
  f.isExit loc || f.loopHeads.contains loc

/-- Puts a statement on a new edge from `fresh` to `loc`, and lets the forward edges into `loc` lead
to `fresh`. -/
def spliceBefore (f : FlowGraph) (loc fresh : Loc) (stmt : Stmt) : FlowGraph :=
  let back := f.backEdges
  { f with
    graph := (f.graph.redirectIn loc fresh fun src => !back.contains (src, loc)).addEdge fresh loc
      stmt }

/-- Puts a statement on a new edge from `loc` to `fresh`, and lets the edges out of `loc` leave from
`fresh`. -/
def spliceAfter (f : FlowGraph) (loc fresh : Loc) (stmt : Stmt) : FlowGraph :=
  { f with graph := (f.graph.redirectOut loc fresh).addEdge loc fresh stmt }

/-- Inserts a statement at a location, with a fresh location at its other end. -/
def splice (f : FlowGraph) (loc fresh : Loc) (stmt : Stmt) : FlowGraph :=
  if f.splicesBefore loc then f.spliceBefore loc fresh stmt else f.spliceAfter loc fresh stmt

/-- Inserts a statement at a location of the graph.  The answer has the fresh location, the new
graph and the supply after it. -/
def addStmtAt (f : FlowGraph) (supply : LocSupply) (loc : Loc) (stmt : Stmt) :
    Except Failure (Loc × FlowGraph × LocSupply) :=
  if f.contains loc then
    let (fresh, supply) := supply.fresh
    .ok (fresh, f.splice loc fresh stmt, supply)
  else .error (.unknownLocation loc)

end Demanded.FlowGraph
