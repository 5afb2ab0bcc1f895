import Demanded.DemandGraph.Demand
import Demanded.FlowGraph.Splice

/-!
# Demanded graphs

A demanded graph has a flow graph, its skeleton and the states computed so far.  `DemandGraph.get`
demands one node.  `DemandGraph.dirty` drops the states that a change at a location can affect, and
`DemandGraph.addStmtAt` inserts a statement and drops those that it can affect.
-/

namespace Demanded

/-- A flow graph with the states demanded so far. -/
structure DemandGraph where
  /-- The program. -/
  flow : FlowGraph
  /-- The nodes for the states and statements of the program. -/
  skeleton : Skeleton
  /-- The skeleton is the one of the program. -/
  built : skeleton = Skeleton.ofFlow flow
  /-- The states computed so far. -/
  cells : OrdMap Loc Cell
  /-- The loop heads that are being computed; there are none between demands. -/
  visiting : OrdSet Loc
  /-- The number of the last demand. -/
  pass : Nat
  /-- The work done so far. -/
  stats : Stats

/-- The answer for a node. -/
inductive Resolved where
  | stmt (stmt : Stmt)
  | state (state : State)

/-- A node as it is: a statement, or a state that may have been computed. -/
inductive NodeView where
  | stmt (name : NodeName) (stmt : Stmt)
  | state (name : NodeName) (state : Option State)

/-- What an operation leaves behind: a result, the graph afterwards and what happened. -/
structure Outcome (α : Type) where
  result : Except Failure α
  graph : DemandGraph
  events : Array Event

namespace DemandGraph

/-- The event that reports a new skeleton. -/
def builtEvent (sk : Skeleton) : Event := .graphBuilt sk.graph.nodes.length sk.heads.size

/-- The demanded graph of a program, without states. -/
def ofFlow (f : FlowGraph) : DemandGraph where
  flow := f
  skeleton := .ofFlow f
  built := rfl
  cells := ∅
  visiting := ∅
  pass := 0
  stats := ⟨0, 0, 0⟩

/-! ## Navigation -/

/-- The state kept for a location. -/
def cached? (g : DemandGraph) (loc : Loc) : Option State := (g.cells.get? loc).map Cell.value

/-- A node with a name. -/
def lookup? (g : DemandGraph) (name : NodeName) : Option NodeView :=
  match name with
  | .state loc => if g.flow.contains loc then some (.state name (g.cached? loc)) else none
  | .stmt .. => (g.skeleton.stmts.get? name).map (.stmt name)

/-- The nodes, in the order of their names. -/
def nodes (g : DemandGraph) : List NodeView := g.skeleton.graph.sortedNodes.filterMap g.lookup?

/-- Whether a node will not change on further demands. -/
def isStable (g : DemandGraph) (name : NodeName) : Bool :=
  match name with
  | .state loc => (g.cells.get? loc).any Cell.isFinal
  | .stmt .. => g.skeleton.stmts.contains name

/-! ## Demand -/

/-- How many demands may be nested.  Between two loop heads that are being computed, or after the
last one, no location is demanded twice, and no loop head is computed twice at once. -/
def allowance (g : DemandGraph) : Nat := (g.flow.numLocs + 1) * (g.flow.numLocs + 1) + 1

/-- What a demand starts from. -/
def memo (g : DemandGraph) : Memo := ⟨g.cells, g.visiting, g.stats, #[]⟩

/-- The graph after its next demand. -/
def resume (g : DemandGraph) (m : Memo) : DemandGraph :=
  { g with cells := m.cells, visiting := m.visiting, stats := m.stats, pass := g.pass + 1 }

/-- Demands the state at a location of the graph. -/
def getState (g : DemandGraph) (loc : Loc) : Outcome State :=
  let out := g.skeleton.demand (g.pass + 1) g.allowance 0 loc g.memo
  ⟨out.1.map Answer.state, g.resume out.2, out.2.events⟩

/-- Demands a node. -/
def get (g : DemandGraph) (name : NodeName) : Outcome Resolved :=
  match name with
  | .stmt .. =>
    match g.skeleton.stmts.get? name with
    | some stmt => ⟨.ok (.stmt stmt), g, #[]⟩
    | none => ⟨.error (.noSuchNode name), g, #[]⟩
  | .state loc =>
    if g.flow.contains loc then
      let out := g.getState loc
      ⟨out.result.map .state, out.graph, out.events⟩
    else ⟨.error (.noSuchNode name), g, #[]⟩

/-! ## Edits -/

/-- Drops the states of the locations that can be reached from `loc`. -/
def dirty (g : DemandGraph) (loc : Loc) : DemandGraph :=
  let cone := g.flow.graph.reachable loc
  { g with cells := g.cells.filterKeys fun l => !cone.contains l }

/-- The event that reports dropped states. -/
def dirtiedEvent (g : DemandGraph) (loc : Loc) : Event :=
  .dirtied (g.cells.size - (g.dirty loc).cells.size) loc

/-- The same states on another program. -/
def rebuild (g : DemandGraph) (f : FlowGraph) : DemandGraph :=
  { g with flow := f, skeleton := .ofFlow f, built := rfl }

/-- Inserts a statement at a location and drops the states that it can affect.  The answer has the
fresh location and the supply afterwards. -/
def addStmtAt (g : DemandGraph) (supply : LocSupply) (loc : Loc) (stmt : Stmt) :
    Outcome (Loc × LocSupply) :=
  match g.flow.addStmtAt supply loc stmt with
  | .error e => ⟨.error e, g, #[]⟩
  | .ok (fresh, f, supply) =>
    let g := g.rebuild f
    ⟨.ok (fresh, supply), g.dirty fresh, #[builtEvent g.skeleton, g.dirtiedEvent fresh]⟩

/-! ## Drawing -/

/-- The label of a node in a drawing. -/
def nodeLabel (g : DemandGraph) (name : NodeName) : String :=
  match name with
  | .state loc =>
    match g.cached? loc with
    | none => loc.text
    | some state => loc.text ++ ": " ++ state.text
  | .stmt .. =>
    match g.skeleton.stmts.get? name with
    | none => name.text
    | some stmt => stmt.text

/-- The drawing of a demanded graph, with the states computed so far. -/
def dot (g : DemandGraph) : String := g.skeleton.graph.dot g.nodeLabel Dependency.text

end DemandGraph

end Demanded
