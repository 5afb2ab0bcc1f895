import Demanded.Multigraph.Basic
import Demanded.Text.Quoted

/-!
# Drawings of multigraphs

`Multigraph.dot` describes a graph in the dot language: the nodes by number and label, in the order
in which they were added, and then the edges.
-/

namespace Demanded

universe u v

/-- A line that gives a label to a node or an edge. -/
def dotLine (subject label : String) : String :=
  "    " ++ subject ++ " [ label = " ++ Text.quoted label ++ "]\n"

namespace Multigraph

variable {N : Type u} {E : Type v} [DecidableEq N]

/-- The number of a node in a drawing. -/
def number (g : Multigraph N E) (n : N) : Nat := g.nodes.idxOf n

/-- The description of a graph, given the labels of its nodes and edges. -/
def dot (g : Multigraph N E) (nodeLabel : N → String) (edgeLabel : E → String) : String :=
  let nodes := g.nodes.map fun n => dotLine (toString (g.number n)) (nodeLabel n)
  let edges := g.edges.map fun e =>
    dotLine (toString (g.number e.src) ++ " -> " ++ toString (g.number e.dst)) (edgeLabel e.label)
  "digraph \x7b\n" ++ String.join nodes ++ String.join edges ++ "\x7d\n"

end Multigraph

end Demanded
