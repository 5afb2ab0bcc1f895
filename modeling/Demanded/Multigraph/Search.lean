import Demanded.Multigraph.Basic

/-!
# Search in multigraphs

`Multigraph.reachable` has the nodes that a path reaches.  `Multigraph.backEdges` runs a depth-first
search and lists the edges that lead back to a node on the path of the search: these are the edges
that close cycles.

Both searches count down a number that starts at the number of nodes.  One round of `saturate` that
adds nothing ends it, and the path of a depth-first search has no node twice, so the count never
runs out.
-/

namespace Demanded

universe u v

/-! ## Closure -/

section Closure

variable {N : Type u} [Ord N] [Std.TransOrd N]

/-- Adds what one step reaches from the members of a set. -/
def expand (next : N → List N) (s : OrdSet N) : OrdSet N :=
  (s.toList.flatMap next).foldl OrdSet.add s

/-- Adds what any number of steps reaches from the members of a set, up to a number of rounds. -/
def saturate (next : N → List N) : Nat → OrdSet N → OrdSet N
  | 0, s => s
  | rounds + 1, s =>
    let s' := expand next s
    if s'.size = s.size then s else saturate next rounds s'

end Closure

namespace Multigraph

variable {N : Type u} {E : Type v} [DecidableEq N] [Ord N] [Std.TransOrd N] [Std.LawfulEqOrd N]

/-- The nodes that a path from `start` reaches, `start` included; none if `start` is no node. -/
def reachable (g : Multigraph N E) (start : N) : OrdSet N :=
  if start ∈ g.nodes then saturate g.successors g.nodes.length (OrdSet.singleton start) else ∅

/-! ## Depth-first search -/

/-- What a depth-first search has seen. -/
structure Search (N : Type u) where
  /-- The nodes whose edges have all been followed. -/
  finished : List N
  /-- The edges that lead back to the path of the search, in the order in which they were met. -/
  back : List (N × N)

/-- Records an edge that leads back, unless it was recorded before. -/
def Search.record (s : Search N) (edge : N × N) : Search N :=
  if edge ∈ s.back then s else { s with back := s.back ++ [edge] }

/-- Follows the edges from a node.  The nodes on the path to it, itself included, are in `path`. -/
def visit (next : N → List N) : Nat → List N → N → Search N → Search N
  | 0, _, _, s => s
  | fuel + 1, path, n, s =>
    let follow (s : Search N) (m : N) : Search N :=
      if m ∈ n :: path then s.record (n, m)
      else if m ∈ s.finished then s
      else visit next fuel (n :: path) m s
    let s' := (next n).foldl follow s
    { s' with finished := n :: s'.finished }

/-- A depth-first search that starts from each of the given nodes in turn. -/
def depthFirst (next : N → List N) (fuel : Nat) (starts : List N) : Search N :=
  starts.foldl (fun s n => if n ∈ s.finished then s else visit next fuel [] n s) ⟨[], []⟩

/-- The edges that lead back to the path of a depth-first search over all nodes in ascending
order. -/
def backEdges (g : Multigraph N E) : List (N × N) :=
  (depthFirst g.successors g.nodes.length g.sortedNodes).back

end Multigraph

end Demanded
