import Demanded.FlowGraph.Basic

/-!
# Loops of flow graphs

A back edge closes a cycle in a depth-first search; it leads to the head of a loop.  The natural
loop of a back edge has the locations from which the edge can be reached without passing the head,
the head itself apart.
-/

namespace Demanded.FlowGraph

/-- The back edges as pairs of source and head, in the order in which the search meets them. -/
def backEdges (f : FlowGraph) : List (Loc × Loc) := f.graph.backEdges

/-- The heads of loops. -/
def loopHeads (f : FlowGraph) : OrdSet Loc := OrdSet.ofList (f.backEdges.map Prod.snd)

/-- A search for the locations of a natural loop. -/
structure LoopSearch where
  /-- The locations found. -/
  body : OrdSet Loc
  /-- Those whose predecessors have not been looked at, the one found last first. -/
  frontier : List Loc

namespace LoopSearch

/-- The search from the source of a back edge. -/
def start (src : Loc) : LoopSearch := ⟨OrdSet.singleton src, [src]⟩

/-- Takes in a predecessor, unless it is an end of the edge or was found before. -/
def visit (src dst : Loc) (s : LoopSearch) (pred : Loc) : LoopSearch :=
  if pred ≠ src ∧ pred ≠ dst ∧ s.body.contains pred = false then
    ⟨s.body.add pred, pred :: s.frontier⟩
  else s

end LoopSearch

/-- Looks at the predecessors of the location found last, and so on until none is left, for at most
`fuel` locations. -/
def searchLoop (f : FlowGraph) (src dst : Loc) : Nat → LoopSearch → LoopSearch
  | 0, s => s
  | fuel + 1, s =>
    match s.frontier with
    | [] => s
    | loc :: rest =>
      searchLoop f src dst fuel
        ((f.predecessors loc).foldl (LoopSearch.visit src dst) ⟨s.body, rest⟩)

/-- The locations from which `src` can be reached without passing `dst`, `dst` apart; none if the
edge leads from a location to itself.  Each location is looked at once, so the search is over after
as many as there are, and one for a source that is no location. -/
def naturalLoop (f : FlowGraph) (src dst : Loc) : OrdSet Loc :=
  if src = dst then ∅ else (f.searchLoop src dst (f.numLocs + 1) (.start src)).body

/-- For each location inside a loop, the heads of the loops around it. -/
def membership (f : FlowGraph) : OrdMap Loc (OrdSet Loc) :=
  f.backEdges.foldl
    (fun m edge =>
      (f.naturalLoop edge.1 edge.2).toList.foldl
        (fun m loc => m.insert loc (((m.get? loc).getD ∅ : OrdSet Loc).add edge.2)) m)
    ∅

/-- The heads of the loops around a location. -/
def headsOf (f : FlowGraph) (loc : Loc) : OrdSet Loc := (f.membership.get? loc).getD ∅

/-- The number of statements into a location that do not come along a back edge. -/
def forwardIndegree (f : FlowGraph) (loc : Loc) : Nat :=
  ((f.predecessors loc).filter fun p => !f.backEdges.contains (p, loc)).length

/-- The locations where at most one statement arrives, and those where more do; back edges do not
count. -/
def byForwardIndegree (f : FlowGraph) : List Loc × List Loc :=
  f.locs.partition fun loc => decide (f.forwardIndegree loc ≤ 1)

end Demanded.FlowGraph
